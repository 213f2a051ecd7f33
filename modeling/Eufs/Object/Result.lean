import Eufs.Base.DiskIo

/-!
# Eufs.Object.Result — what the object store answers
-/

namespace Eufs

/-- What `Stat` tells of an object. -/
structure ObjectStat where
  inodeNumber : UInt32
  size : UInt64
  mtimeNs : UInt64
  generation : UInt64
  deriving DecidableEq

/-- The version token of a conditional replace. -/
structure ObjectVersion where
  inodeNumber : UInt32 := 0
  generation : UInt64 := 0
  deriving DecidableEq

/-- Whether a mutation became a durable fact. -/
inductive MutationOutcome where
  | kNotApplied | kCommitted | kUnknown
  deriving DecidableEq

structure MutationResult where
  outcome : MutationOutcome := .kNotApplied
  committedVersion : ObjectVersion := {}
  currentVersion : ObjectVersion := {}
  deriving DecidableEq

inductive RequestDisposition where
  | kExecuted | kReplayed | kRequestIdConflict | kLedgerFull
  deriving DecidableEq

structure IdempotentMutationResult where
  mutation : MutationResult := {}
  disposition : RequestDisposition := .kExecuted
  deriving DecidableEq

end Eufs
