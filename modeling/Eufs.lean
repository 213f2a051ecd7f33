import Eufs.Checker.JsonReport
import Eufs.Checker.Readback
import Eufs.Checker.Termination
import Eufs.Format.Directory
import Eufs.Format.Exact
import Eufs.Journal.Agreement
import Eufs.Journal.Codec
import Eufs.Journal.Selection
import Eufs.Metadata.Damage
import Eufs.Metadata.EmptyFile
import Eufs.Metadata.Publication
import Eufs.Metadata.Slices
import Eufs.Metadata.Space
import Eufs.Object.Corruption
import Eufs.Object.Fingerprint
import Eufs.Object.Histories
import Eufs.Object.LedgerAppend
import Eufs.Object.LedgerFormat
import Eufs.Object.Lifetime
import Eufs.Rpc.Completion
import Eufs.Storage.Layout
import Eufs.Storage.Reservation
