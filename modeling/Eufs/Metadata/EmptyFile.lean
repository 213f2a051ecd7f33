import Eufs.Journal.Protocol
import Eufs.Metadata.FileMutation
import Eufs.Metadata.Frame
import Eufs.Metadata.Fresh

/-!
# Eufs.Metadata.EmptyFile — the plan for the first file of the root

`prepareRootEmptyFileCreate` plans the creation of an empty file in a root directory without entries.  Five blocks
change: one of each bitmap, the one with the root's record, the one with the record of the file, and the new directory
block.  The planner keeps the before-images by hand, and for the block with the record of the file it keeps none: the
store accepts the plan only when that block is the one with the root's record.
-/

namespace Eufs

open ImageReader Superblock BitmapAllocator Std.ExtTreeMap Function JournalControlStore Formatted

variable {record : InodeRecord} {b inodeBit : ℕ}

structure EmptyFileCreatePlan where
  inodeNumber : ℕ
  directoryBlock : ℕ
  totalBlocks : UInt32
  filesystemUuid : Uuid
  beforeImages : BlockMap
  afterImages : BlockMap
  writeOrder : List ℕ

/-! ## The planner -/

/-- The content a block has in the plan so far. -/
def mutableExistingBlock (r : ImageReader) (blocks : BlockMap) (b : ℕ) : Except Failure Block :=
  match blocks[b]? with
  | some x => .ok x
  | none => r.readBlock b

/-- The root has no blocks. -/
def InodeRecord.isEmptyRoot (root : InodeRecord) : Prop :=
  root.size = 0 ∧ root.indirect = 0 ∧ ∀ k < kDirectBlockCount, root.directBlock k = 0

instance (root : InodeRecord) : Decidable root.isEmptyRoot := by unfold InodeRecord.isEmptyRoot; infer_instance

theorem kDirectBlockCount_pos : 0 < kDirectBlockCount := by decide

/-- The root with its first block. -/
def grownRoot (root : InodeRecord) (directoryBlock : ℕ) (timestampNs : UInt64) : InodeRecord :=
  { root with
    size := UInt64.ofNat kBlockSize
    directBlocks := root.directBlocks.set 0 (UInt32.ofNat directoryBlock) kDirectBlockCount_pos
    mtimeNs := timestampNs
    ctimeNs := timestampNs }

/-- The record of the new file. -/
def emptyFile (inodeNumber : ℕ) (permissions uid gid : UInt32) (timestampNs : UInt64) : InodeRecord where
  inodeNumber := UInt32.ofNat inodeNumber
  mode := S_IFREG ||| (permissions &&& 0o777)
  uid := uid
  gid := gid
  linkCount := 1
  size := 0
  atimeNs := timestampNs
  mtimeNs := timestampNs
  ctimeNs := timestampNs
  flags := 0
  generation := 1
  directBlocks := Vector.replicate 12 0
  indirectBlock := 0

/-- The blocks of a plan that is not finished. -/
structure CreateImages where
  before : BlockMap
  after : BlockMap

/-- The changed block of a bitmap; `bit` was reserved in `bitmap`. -/
def CreateImages.addBitmapHome (m : CreateImages) (r : ImageReader) (region : Region) (bitmap : Bitmap) (bit : ℕ) :
    Except Failure CreateImages := do
  let localBlock := bit / (kBlockSize * 8)
  let home := region.start + localBlock
  let x ← r.readBlock home
  return ⟨m.before.insert home x, m.after.insert home (bitmapBlock bitmap localBlock)⟩

/-- The root's record. -/
def CreateImages.addRoot (m : CreateImages) (r : ImageReader) (record : InodeRecord) : Except Failure CreateImages := do
  let table := inodeTableBlock r.superblock r.superblock.rootInode.toNat
  let x ← mutableExistingBlock r m.after table
  let bytes ← orFail .EUCLEAN (encodeInode record)
  return ⟨m.before.insert table x, m.after.insert table (putInode r.superblock.rootInode.toNat bytes x)⟩

/-- The record of the file: its block has no before-image of its own. -/
def CreateImages.addFile (m : CreateImages) (r : ImageReader) (n : ℕ) (record : InodeRecord) :
    Except Failure CreateImages := do
  let table := inodeTableBlock r.superblock n
  let x ← mutableExistingBlock r m.after table
  let bytes ← orFail .EINVAL (encodeInode record)
  return ⟨m.before, m.after.insert table (putInode n bytes x)⟩

/-- The directory block. -/
def CreateImages.addDirectory (m : CreateImages) (r : ImageReader) (b : ℕ) (entry : DirectoryEntry) :
    Except Failure CreateImages := do
  let x ← r.readBlock b
  let after ← orFail .EINVAL (encodeDirectoryEntry entry (UInt16.ofNat kBlockSize) (Bytes.zero _) 0)
  return ⟨m.before.insert b x, m.after.insert b after⟩

def prepareRootEmptyFileCreate (r : ImageReader) (name : Name) (permissions uid gid : UInt32) (timestampNs : UInt64) :
    Except Failure EmptyFileCreatePlan := do
  let sb := r.superblock
  let root ← r.readInode sb.rootInode.toNat
  reject (¬ S_ISDIR root.mode) ⟨.EUCLEAN, "root inode is not a directory"⟩
  reject (¬ root.isEmptyRoot) ⟨.EOPNOTSUPP, "first create planner currently requires an empty root"⟩
  orFail .EUCLEAN r.inodeAllocator.validate
  orFail .EUCLEAN r.blockAllocator.validate
  let (inodeBit, inodes) ← r.inodeAllocator.reserve
  let (directoryBlock, blocks) ← r.blockAllocator.reserve
  let inodeNumber := inodeBit + 1
  let m ← CreateImages.addBitmapHome ⟨∅, ∅⟩ r sb.inodeBitmap inodes.bitmap inodeBit
  let m ← m.addBitmapHome r sb.blockBitmap blocks.bitmap directoryBlock
  let m ← m.addRoot r (grownRoot root directoryBlock timestampNs)
  let m ← m.addFile r inodeNumber (emptyFile inodeNumber permissions uid gid timestampNs)
  let m ← m.addDirectory r directoryBlock ⟨UInt32.ofNat inodeNumber, .kRegular, name, 0⟩
  return { inodeNumber, directoryBlock, totalBlocks := sb.totalBlocks, filesystemUuid := sb.filesystemUuid
           beforeImages := m.before, afterImages := m.after
           writeOrder := [directoryBlock, sb.inodeBitmap.start + inodeBit / (kBlockSize * 8),
             sb.blockBitmap.start + directoryBlock / (kBlockSize * 8), inodeTableBlock sb sb.rootInode.toNat] }

/-! ## The blocks of the plan -/

section Blocks

variable {r : ImageReader} {m m' : CreateImages}

/-- The before-images are the blocks of the image, and every block with one has an after-image. -/
structure CreateImages.Holds (m : CreateImages) (d : Image) (before after : List ℕ) : Prop where
  beforeKeys : ∀ b, b ∈ m.before ↔ b ∈ before
  afterKeys : ∀ b, b ∈ m.after ↔ b ∈ after
  current : ∀ b x, m.before[b]? = some x → x = d b

variable {before after : List ℕ}

section

variable (h : m.Holds r.image before after)

include h

theorem CreateImages.Holds.insert (b : ℕ) (y : Block) :
    CreateImages.Holds ⟨m.before.insert b (r.image b), m.after.insert b y⟩ r.image (b :: before) (b :: after) := by
  refine ⟨fun c => ?_, fun c => ?_, fun c x hx => ?_⟩
  · rw [mem_insert, h.beforeKeys, List.mem_cons, Std.compare_eq_iff_eq, eq_comm]
  · rw [mem_insert, h.afterKeys, List.mem_cons, Std.compare_eq_iff_eq, eq_comm]
  · rw [getElem?_insert] at hx
    split_ifs at hx with hc
    · rw [← Std.compare_eq_iff_eq.mp hc, Option.some.inj hx]
    · exact h.current c x hx

theorem CreateImages.Holds.insertAfter (b : ℕ) (y : Block) :
    CreateImages.Holds ⟨m.before, m.after.insert b y⟩ r.image before (b :: after) := by
  refine ⟨h.beforeKeys, fun c => ?_, h.current⟩
  rw [mem_insert, h.afterKeys, List.mem_cons, Std.compare_eq_iff_eq, eq_comm]

theorem CreateImages.Holds.addBitmapHome {region : Region} {bitmap : Bitmap} {bit : ℕ}
    (hm : m.addBitmapHome r region bitmap bit = .ok m') :
    m'.Holds r.image ((region.start + bit / (kBlockSize * 8)) :: before)
      ((region.start + bit / (kBlockSize * 8)) :: after) := by
  obtain ⟨x, hx, hm⟩ := bind_eq_ok.mp hm
  obtain rfl := Except.ok.inj hm
  rw [← (readBlock_eq_ok.mp hx).2]
  exact h.insert _ _

theorem CreateImages.Holds.addRoot (hnew : inodeTableBlock r.superblock r.superblock.rootInode.toNat ∉ after)
    (hm : m.addRoot r record = .ok m') :
    m'.Holds r.image (inodeTableBlock r.superblock r.superblock.rootInode.toNat :: before)
      (inodeTableBlock r.superblock r.superblock.rootInode.toNat :: after) := by
  have hnone : m.after[inodeTableBlock r.superblock r.superblock.rootInode.toNat]? = none :=
    getElem?_eq_none fun hc => hnew ((h.afterKeys _).mp hc)
  obtain ⟨x, hx, hm⟩ := bind_eq_ok.mp hm
  obtain ⟨bytes, -, hm⟩ := bind_eq_ok.mp hm
  obtain rfl := Except.ok.inj hm
  rw [mutableExistingBlock, hnone] at hx
  rw [← (readBlock_eq_ok.mp hx).2]
  exact h.insert _ _

theorem CreateImages.Holds.addFile {n : ℕ} (hm : m.addFile r n record = .ok m') :
    m'.Holds r.image before (inodeTableBlock r.superblock n :: after) := by
  obtain ⟨x, -, hm⟩ := bind_eq_ok.mp hm
  obtain ⟨bytes, -, hm⟩ := bind_eq_ok.mp hm
  obtain rfl := Except.ok.inj hm
  exact h.insertAfter _ _

theorem CreateImages.Holds.addDirectory {entry : DirectoryEntry} (hm : m.addDirectory r b entry = .ok m') :
    m'.Holds r.image (b :: before) (b :: after) := by
  obtain ⟨x, hx, hm⟩ := bind_eq_ok.mp hm
  obtain ⟨y, -, hm⟩ := bind_eq_ok.mp hm
  obtain rfl := Except.ok.inj hm
  rw [← (readBlock_eq_ok.mp hx).2]
  exact h.insert _ _

end

end Blocks

/-! ## Admission -/

/-- The store takes the plan: before-images for exactly the blocks that change, each of them the current block, so that
only the room in the journal decides. -/
structure EmptyFileCreatePlan.Admitted (plan : EmptyFileCreatePlan) (r : ImageReader) : Prop where
  keys : ∀ b, b ∈ plan.beforeImages ↔ b ∈ plan.afterImages
  current : ∀ p ∈ plan.beforeImages.toList, r.image p.1 = p.2
  store : TxnAccepted (.fresh r.superblock r.journalControl r.journalControlCopy) r.image plan.totalBlocks
    plan.filesystemUuid plan.beforeImages ∅ plan.afterImages ↔ Reservable r.journalControl plan.afterImages.size

/-- What a plan consists of. -/
structure EmptyFileCreatePlan.Made (plan : EmptyFileCreatePlan) (r : ImageReader) (inodeBit : ℕ) : Prop where
  free : r.inodeAllocator.free.head? = some inodeBit
  inode : inodeBit < r.superblock.totalInodes.toNat
  directory : r.superblock.data.start ≤ plan.directoryBlock ∧ plan.directoryBlock < r.superblock.totalBlocks.toNat
  number : plan.inodeNumber = inodeBit + 1
  total : plan.totalBlocks = r.superblock.totalBlocks
  uuid : plan.filesystemUuid = r.superblock.filesystemUuid
  images : CreateImages.Holds ⟨plan.beforeImages, plan.afterImages⟩ r.image
    [plan.directoryBlock, inodeTableBlock r.superblock r.superblock.rootInode.toNat,
      r.superblock.blockBitmap.start + plan.directoryBlock / (kBlockSize * 8),
      r.superblock.inodeBitmap.start + inodeBit / (kBlockSize * 8)]
    [plan.directoryBlock, inodeTableBlock r.superblock plan.inodeNumber,
      inodeTableBlock r.superblock r.superblock.rootInode.toNat,
      r.superblock.blockBitmap.start + plan.directoryBlock / (kBlockSize * 8),
      r.superblock.inodeBitmap.start + inodeBit / (kBlockSize * 8)]

variable {r : ImageReader} {name : Name} {permissions uid gid : UInt32} {timestampNs : UInt64}
  {plan : EmptyFileCreatePlan}

theorem bitmapHome_lt (hr : r.superblock.Regions) {block : ℕ} (hi : inodeBit < r.superblock.totalInodes.toNat)
    (hb : block < r.superblock.totalBlocks.toNat) :
    r.superblock.inodeBitmap.start + inodeBit / (kBlockSize * 8) < r.superblock.blockBitmap.start ∧
      r.superblock.blockBitmap.start + block / (kBlockSize * 8) < r.superblock.inodeTable.start := by
  obtain ⟨e1, e2, e3, -⟩ := hr.chain
  have h1 := hr.inodes_le
  have h2 := hr.blocks_le
  have hq1 : inodeBit / (kBlockSize * 8) < r.superblock.inodeBitmap.count :=
    Nat.div_lt_of_lt_mul (by rw [Nat.mul_comm, ← Nat.mul_assoc]; omega)
  have hq2 : block / (kBlockSize * 8) < r.superblock.blockBitmap.count :=
    Nat.div_lt_of_lt_mul (by rw [Nat.mul_comm, ← Nat.mul_assoc]; omega)
  omega

theorem made_of_prepare (hr : r.superblock.Regions)
    (h : prepareRootEmptyFileCreate r name permissions uid gid timestampNs = .ok plan) :
    ∃ inodeBit, plan.Made r inodeBit := by
  unfold prepareRootEmptyFileCreate at h
  obtain ⟨root, hroot, h⟩ := bind_eq_ok.mp h
  obtain ⟨-, h⟩ := reject_bind_eq_ok.mp h
  obtain ⟨-, h⟩ := reject_bind_eq_ok.mp h
  obtain ⟨-, -, h⟩ := bind_eq_ok.mp h
  obtain ⟨-, -, h⟩ := bind_eq_ok.mp h
  obtain ⟨⟨inodeBit, inodes⟩, hinode, h⟩ := bind_eq_ok.mp h
  obtain ⟨⟨directoryBlock, blocks⟩, hblock, h⟩ := bind_eq_ok.mp h
  obtain ⟨m₁, h1, h⟩ := bind_eq_ok.mp h
  obtain ⟨m₂, h2, h⟩ := bind_eq_ok.mp h
  obtain ⟨m₃, h3, h⟩ := bind_eq_ok.mp h
  obtain ⟨m₄, h4, h⟩ := bind_eq_ok.mp h
  obtain ⟨m₅, h5, h⟩ := bind_eq_ok.mp h
  obtain rfl := Except.ok.inj h
  obtain ⟨⟨rest, hfree⟩, -⟩ := reserve_cons (inodeAllocator_fits hr) hinode
  have hinode := (reserve_range hinode).2
  have hdir := reserve_range hblock
  obtain ⟨hlt1, hlt2⟩ := bitmapHome_lt hr hinode hdir.2
  have hnumber := readInode_eq_ok.mp hroot
  obtain ⟨hr1, hr2, -⟩ := mem_inodes.mp hnumber.allocated
  obtain ⟨⟨htable, -⟩, -⟩ := hr.offsetsInside.inode _ hr1 hr2
  have hempty : CreateImages.Holds ⟨∅, ∅⟩ r.image [] [] := ⟨by simp, by simp, by simp⟩
  have hnew : inodeTableBlock r.superblock r.superblock.rootInode.toNat ∉
      [r.superblock.blockBitmap.start + directoryBlock / (kBlockSize * 8),
        r.superblock.inodeBitmap.start + inodeBit / (kBlockSize * 8)] := by
    simp only [List.mem_cons, List.not_mem_nil, or_false, not_or]
    exact ⟨(hlt2.trans_le htable).ne', (hlt1.trans_le ((Nat.le_add_right _ _).trans (hlt2.le.trans htable))).ne'⟩
  exact ⟨inodeBit, hfree ▸ rfl, hinode, hdir, rfl, rfl, rfl,
    ((((hempty.addBitmapHome h1).addBitmapHome h2).addRoot hnew h3).addFile h4).addDirectory h5⟩

/-- The block with the record of the file has a before-image only as the one with the root's record. -/
theorem EmptyFileCreatePlan.Made.file_mem_before_iff (h : plan.Made r inodeBit) (hr : r.superblock.Regions) :
    inodeTableBlock r.superblock plan.inodeNumber ∈ plan.beforeImages ↔
      inodeTableBlock r.superblock plan.inodeNumber = inodeTableBlock r.superblock r.superblock.rootInode.toNat := by
  have hinode := h.inode
  obtain ⟨-, -, -, -, e5, e6, -⟩ := hr.chain
  obtain ⟨hlt1, hlt2⟩ := bitmapHome_lt hr h.inode h.directory.2
  obtain ⟨⟨hge, hlt⟩, -⟩ :=
    hr.offsetsInside.inode plan.inodeNumber (by rw [h.number]; omega) (by rw [h.number]; omega)
  refine (h.images.beforeKeys _).trans ⟨fun hmem => ?_, fun hsame => ?_⟩
  · simp only [List.mem_cons, List.not_mem_nil, or_false] at hmem
    rcases hmem with hc | hc | hc | hc
    · have := h.directory.1
      omega
    · exact hc
    · exact absurd (hlt2.trans_le hge) (by rw [hc]; exact lt_irrefl _)
    · exact absurd (hlt1.trans_le ((Nat.le_add_right _ _).trans (hlt2.le.trans hge))) (by rw [hc]; exact lt_irrefl _)
  · rw [hsame]
    exact List.mem_cons_of_mem _ List.mem_cons_self

theorem EmptyFileCreatePlan.Made.file_mem_after (h : plan.Made r inodeBit) :
    inodeTableBlock r.superblock plan.inodeNumber ∈ plan.afterImages :=
  (h.images.afterKeys _).mpr (List.mem_cons_of_mem _ List.mem_cons_self)

theorem EmptyFileCreatePlan.Made.keys_iff (h : plan.Made r inodeBit) (hr : r.superblock.Regions) :
    (∀ b, b ∈ plan.beforeImages ↔ b ∈ plan.afterImages) ↔
      inodeTableBlock r.superblock plan.inodeNumber = inodeTableBlock r.superblock r.superblock.rootInode.toNat := by
  refine ⟨fun hkeys => (h.file_mem_before_iff hr).mp ((hkeys _).mpr h.file_mem_after), fun hsame b => ?_⟩
  refine (h.images.beforeKeys b).trans (Iff.trans ?_ (h.images.afterKeys b).symm)
  rw [hsame]
  simp only [List.mem_cons]
  tauto

/-- Every block of the plan may be written by a transaction. -/
theorem EmptyFileCreatePlan.Made.target {inodeBit : ℕ} (h : plan.Made r inodeBit) (hr : r.superblock.Regions)
    (hroot : 1 ≤ r.superblock.rootInode.toNat ∧ r.superblock.rootInode.toNat ≤ r.superblock.totalInodes.toNat)
    {b : ℕ} (hb : b ∈ plan.afterImages) : isValidMetadataTarget r.superblock b := by
  have hinode := h.inode
  obtain ⟨e1, e2, e3, e4, e5, e6, e7, e8⟩ := hr.chain
  obtain ⟨hlt1, hlt2⟩ := bitmapHome_lt hr h.inode h.directory.2
  have htable : ∀ n, 1 ≤ n → n ≤ r.superblock.totalInodes.toNat →
      r.superblock.inodeTable.start ≤ inodeTableBlock r.superblock n ∧
        inodeTableBlock r.superblock n < r.superblock.journal.start := by
    intro n h1 h2
    obtain ⟨⟨hge, hlt⟩, -⟩ := hr.offsetsInside.inode n h1 h2
    omega
  -- a target lies in the inode table or before it, or in the data region
  have hvalid : ∀ a, 0 < a → a < r.superblock.journal.start ∨ r.superblock.data.start ≤ a ∧
    a < r.superblock.totalBlocks.toNat →
      isValidMetadataTarget r.superblock a := by
    intro a h0 ha
    refine ⟨by omega, by omega, fun hc => ?_⟩
    have := hc.1
    have := hc.2
    omega
  have hmem := (h.images.afterKeys b).mp hb
  simp only [List.mem_cons, List.not_mem_nil, or_false] at hmem
  rcases hmem with rfl | rfl | rfl | rfl | rfl
  · exact hvalid _ (by have := h.directory.1; omega) (.inr h.directory)
  · have := htable plan.inodeNumber (by rw [h.number]; omega) (by rw [h.number]; omega)
    exact hvalid _ (by omega) (.inl this.2)
  · have := htable _ hroot.1 hroot.2
    exact hvalid _ (by omega) (.inl this.2)
  · exact hvalid _ (Nat.add_pos_left (by omega) _) (.inl (hlt2.trans_le (by omega)))
  · exact hvalid _ (Nat.add_pos_left (by omega) _) (.inl (hlt1.trans_le (by omega)))

/-- The store takes a plan exactly when the record of the first free inode lies in the block with the root's record. -/
theorem emptyFileCreatePlan_admitted_iff {blocks : ℕ} {d : Image} {r : ImageReader} {name : Name}
    {permissions uid gid : UInt32} {timestampNs : UInt64} {plan : EmptyFileCreatePlan}
    (hopen : ImageReader.adoptLockedFd blocks d = .ok r)
    (hplan : prepareRootEmptyFileCreate r name permissions uid gid timestampNs = .ok plan) :
    plan.Admitted r ↔ ∃ bit, r.inodeAllocator.free.head? = some bit ∧
      inodeTableBlock r.superblock (bit + 1) = inodeTableBlock r.superblock r.superblock.rootInode.toNat := by
  obtain ⟨rfl, ho, ha⟩ := adoptLockedFd_eq_ok.mp hopen
  have hr := ho.regions
  obtain ⟨inodeBit, h⟩ := made_of_prepare hr hplan
  obtain ⟨root, hroot, -⟩ := ha.root
  obtain ⟨hr1, hr2, -⟩ := mem_inodes.mp hroot.allocated
  have hcurrent : ∀ p ∈ plan.beforeImages.toList, r.image p.1 = p.2 := fun p hp =>
    (h.images.current _ _ (mem_toList_iff_getElem?_eq_some.mp hp)).symm
  have hiff := h.keys_iff hr
  rw [h.number] at hiff
  refine ⟨fun hadm => ⟨inodeBit, h.free, hiff.mp hadm.keys⟩, fun ⟨bit, hbit, hsame⟩ => ?_⟩
  obtain rfl := Option.some.inj (h.free.symm.trans hbit)
  have hkeys := hiff.mpr hsame
  refine ⟨hkeys, hcurrent, fun hacc => hacc.plan, fun hres => ⟨rfl, rfl, hres, h.total, h.uuid, ?_, hcurrent⟩⟩
  exact admissible_of_covered hr (fun b => by rw [hkeys]; simp) (by simp) (by simp)
    fun b hb => h.target hr ⟨hr1, hr2⟩ hb

/-! ## Plans that succeed and are rejected -/

/-- A block without a before-image ends the first step of the store. -/
theorem writeOrderedDataAndUnexposedBody_lacks {sb : Superblock} {c : JournalControl} {copy : ControlCopy}
    {before metadata : BlockMap} (hc : c.usedBlocks = 0) (hb : b ∈ metadata) (hlacks : b ∉ before) (w : Disk) :
    writeOrderedDataAndUnexposedBody sb.totalBlocks sb.filesystemUuid before ∅ metadata (.fresh sb c copy) w =
      .fail ⟨.EINVAL, "metadata target is invalid or lacks a before-image"⟩ (.fresh sb c copy) w := by
  have hne : ¬ metadata.isEmpty = true := fun h => by
    rw [isEmpty_iff.mp h] at hb
    exact absurd hb not_mem_empty
  have hmem : (b, metadata[b]) ∈ metadata.toList :=
    mem_toList_iff_getElem?_eq_some.mpr (getElem?_eq_some_getElem hb)
  have hnil : toList (∅ : BlockMap) = [] := by simp
  unfold writeOrderedDataAndUnexposedBody
  rw [Prog.failIf_bind, if_neg hne, Prog.get_bind, Prog.failIf_bind, if_neg (by simp [fresh]),
    Prog.failIf_bind, if_neg (by simp [hc, fresh]), Prog.failIf_bind,
    if_neg (by simp [fresh]), hnil]
  exact Prog.forEach_failIf_bind ⟨_, hmem, .inr hlacks⟩

/-- Each step of the planner succeeds on a block of the image. -/
theorem CreateImages.addBitmapHome_isOk (m : CreateImages) {region : Region} {bitmap : Bitmap} {bit : ℕ}
    (h : region.start + bit / (kBlockSize * 8) < r.superblock.totalBlocks.toNat) :
    ∃ m', m.addBitmapHome r region bitmap bit = .ok m' :=
  ⟨_, bind_eq_ok.mpr ⟨_, readBlock_eq_ok.mpr ⟨h, rfl⟩, rfl⟩⟩

theorem mutableExistingBlock_isOk {blocks : BlockMap} {b : ℕ} (h : b < r.superblock.totalBlocks.toNat) :
    ∃ x, mutableExistingBlock r blocks b = .ok x := by
  unfold mutableExistingBlock
  cases blocks[b]? with
  | some x => exact ⟨x, rfl⟩
  | none => exact ⟨_, readBlock_eq_ok.mpr ⟨h, rfl⟩⟩

theorem CreateImages.addRoot_isOk (m : CreateImages) (hv : record.Valid)
    (h : inodeTableBlock r.superblock r.superblock.rootInode.toNat < r.superblock.totalBlocks.toNat) :
    ∃ m', m.addRoot r record = .ok m' := by
  obtain ⟨x, hx⟩ := @mutableExistingBlock_isOk r m.after _ h
  exact ⟨_, bind_eq_ok.mpr
    ⟨x, hx, bind_eq_ok.mpr ⟨_, orFail_eq_ok.mpr (encodeInode_eq_ok.mpr ⟨hv, rfl⟩), rfl⟩⟩⟩

theorem CreateImages.addFile_isOk (m : CreateImages) {n : ℕ} (hv : record.Valid)
    (h : inodeTableBlock r.superblock n < r.superblock.totalBlocks.toNat) :
    ∃ m', m.addFile r n record = .ok m' := by
  obtain ⟨x, hx⟩ := @mutableExistingBlock_isOk r m.after _ h
  exact ⟨_, bind_eq_ok.mpr
    ⟨x, hx, bind_eq_ok.mpr ⟨_, orFail_eq_ok.mpr (encodeInode_eq_ok.mpr ⟨hv, rfl⟩), rfl⟩⟩⟩

theorem CreateImages.addDirectory_isOk (m : CreateImages) {entry : DirectoryEntry} (hnew : entry.New)
    (h : b < r.superblock.totalBlocks.toNat) : ∃ m', m.addDirectory r b entry = .ok m' := by
  have hfits := fits_oneEntryBlock hnew
  exact ⟨_, bind_eq_ok.mpr ⟨_, readBlock_eq_ok.mpr ⟨h, rfl⟩,
    bind_eq_ok.mpr ⟨_, orFail_eq_ok.mpr (encodeDirectoryEntry_of_fits hfits _), rfl⟩⟩⟩

/-- On an accepted image with an empty root the planner succeeds when an inode and a block are free. -/
theorem exists_prepare {blocks : ℕ} {d : Image} {v : InodeRecord} (hopen : ImageReader.adoptLockedFd blocks d = .ok r)
    (hroot : r.readInode r.superblock.rootInode.toNat = .ok v) (hempty : v.isEmptyRoot)
    (hi : r.inodeAllocator.free ≠ []) (hb : r.blockAllocator.free ≠ []) (hname : isValidName name) :
    ∃ plan, prepareRootEmptyFileCreate r name permissions uid gid timestampNs = .ok plan := by
  obtain ⟨rfl, ho, ha⟩ := adoptLockedFd_eq_ok.mp hopen
  have hr := ho.regions
  obtain ⟨root, hreadable, hdir⟩ := ha.root
  obtain rfl : root = v := Except.ok.inj ((readInode_eq_ok.mpr hreadable).symm.trans hroot)
  have hfi := inodeAllocator_fits hr
  have hfb := blockAllocator_fits hr
  obtain ⟨bit, restI, hi⟩ := List.exists_cons_of_ne_nil hi
  obtain ⟨b, restB, hb⟩ := List.exists_cons_of_ne_nil hb
  have hbit : bit ∈ r.inodeAllocator.free := hi ▸ List.mem_cons_self
  have hblock : b ∈ r.blockAllocator.free := hb ▸ List.mem_cons_self
  obtain ⟨⟨-, hbitlt⟩, -⟩ := (mem_free hfi).mp hbit
  obtain ⟨⟨hbge, hblt⟩, -⟩ := (mem_free hfb).mp hblock
  have hreserveI : r.inodeAllocator.reserve = .ok (bit, r.inodeAllocator.taking [bit]) := by
    rw [reserve_eq hfi, hi]
  have hreserveB : r.blockAllocator.reserve = .ok (b, r.blockAllocator.taking [b]) := by
    rw [reserve_eq hfb, hb]
  -- the blocks that are read
  obtain ⟨e1, e2, e3, e4, e5, e6, e7, e8⟩ := hr.chain
  obtain ⟨hlt1, hlt2⟩ := bitmapHome_lt hr hbitlt hblt
  have htable : ∀ n, 1 ≤ n → n ≤ r.superblock.totalInodes.toNat →
      inodeTableBlock r.superblock n < r.superblock.totalBlocks.toNat := by
    intro n h1 h2
    obtain ⟨⟨-, hlt⟩, -⟩ := hr.offsetsInside.inode n h1 h2
    omega
  obtain ⟨hr1, hr2, -⟩ := mem_inodes.mp hreadable.allocated
  have hvalid := (decodeInode_valid (inodeAt_eq_some.mp hreadable.record)).1
  have hbitlt : bit < r.superblock.totalInodes.toNat := hbitlt
  have hnumber : UInt32.ofNat (bit + 1) ≠ 0 := by
    intro h0
    have := congrArg UInt32.toNat h0
    have hmax := r.superblock.totalInodes.toNat_lt
    rw [UInt32.toNat_ofNat_of_lt' (by simp only [UInt32.size]; omega)] at this
    exact absurd this (Nat.succ_ne_zero _)
  have hone : (UInt64.ofNat kBlockSize).toNat ≤ kMaxFileSize := by decide
  have hgrown : (grownRoot root b timestampNs).Valid := ⟨hvalid.number, hvalid.mode, hone⟩
  have hfile : (emptyFile (bit + 1) permissions uid gid timestampNs).Valid :=
    ⟨hnumber, Or.inl (isReg_or_permissions permissions), Nat.zero_le _⟩
  obtain ⟨m₁, h1⟩ := @CreateImages.addBitmapHome_isOk r ⟨∅, ∅⟩ r.superblock.inodeBitmap
    (r.inodeAllocator.taking [bit]).bitmap bit (hlt1.trans (by omega))
  obtain ⟨m₂, h2⟩ := @CreateImages.addBitmapHome_isOk r m₁ r.superblock.blockBitmap
    (r.blockAllocator.taking [b]).bitmap b (hlt2.trans (by omega))
  obtain ⟨m₃, h3⟩ := m₂.addRoot_isOk hgrown (htable _ hr1 hr2)
  obtain ⟨m₄, h4⟩ := m₃.addFile_isOk (n := bit + 1) hfile (htable _ (by omega) (by omega))
  have hentry : DirectoryEntry.New ⟨UInt32.ofNat (bit + 1), .kRegular, name, 0⟩ := ⟨hnumber, Or.inl rfl, hname⟩
  obtain ⟨m₅, h5⟩ := m₄.addDirectory_isOk hentry hblt
  unfold prepareRootEmptyFileCreate
  dsimp only
  rw [hroot, ok_bind, reject, if_neg (not_not.mpr hdir), ok_bind, reject, if_neg (not_not.mpr hempty), ok_bind,
    inodeAllocator_validate hr ha, blockAllocator_validate hr ha, hreserveI, hreserveB]
  simp only [orFail, ok_bind, h1, h2, h3, h4, h5]
  exact ⟨_, rfl⟩

/-- Formatted images without a ledger have an empty root. -/
theorem isEmptyRoot_formattedRoot {options : MkfsOptions} {sb : Superblock} {g : RequestLedgerGeometry}
    {host : MkfsHost} (hl : Layout options sb g) (he : ¬ g.enabled) : (formattedRoot sb g host).isEmptyRoot := by
  refine ⟨if_neg he, rfl, fun k hk => ?_⟩
  rw [root_directBlock hl hk, if_neg fun hc => he hc.1]

theorem adoptLockedFd_sampleImage : ImageReader.adoptLockedFd 16 sampleImage = .ok sampleReader :=
  (sampleImage_formatted.sound sampleLayout).adoptLockedFd (sampleImage_formatted.opens sampleLayout)

/-- The first file of the small image. -/
theorem emptyFileCreatePlan_admitted_iff_sample : ∃ plan,
    ImageReader.adoptLockedFd 16 sampleImage = .ok sampleReader ∧
    prepareRootEmptyFileCreate sampleReader [97] 0o644 0 0 0 = .ok plan ∧ plan.Admitted sampleReader := by
  have hroot : sampleReader.readInode 1 = .ok (formattedRoot sampleSuperblock sampleLedger sampleHost) :=
    readInode_eq_ok.mpr ((sampleImage_formatted.sound sampleLayout).readable
      ((sampleImage_formatted.mem_inodes_iff sampleLayout).mpr (Or.inl rfl))
      (sampleImage_formatted.rootAt sampleLayout))
  have hinode : 2 ∈ sampleReader.inodeAllocator.free :=
    mem_freeInodes (r := sampleReader) sampleImage_formatted sampleLayout le_rfl (by decide)
  have hblock : 10 ∈ sampleReader.blockAllocator.free :=
    mem_freeBlocks (r := sampleReader) sampleImage_formatted sampleLayout (by decide) (by decide)
  obtain ⟨plan, hplan⟩ := @exists_prepare sampleReader [97] 0o644 0 0 0 16 sampleImage _
    adoptLockedFd_sampleImage hroot (isEmptyRoot_formattedRoot sampleLayout (by decide)) (List.ne_nil_of_mem hinode)
    (List.ne_nil_of_mem hblock) (by decide)
  obtain ⟨bit, hmade⟩ := made_of_prepare sampleLayout.regions hplan
  refine ⟨plan, adoptLockedFd_sampleImage, hplan,
    (emptyFileCreatePlan_admitted_iff adoptLockedFd_sampleImage hplan).mpr ⟨bit, hmade.free, ?_⟩⟩
  have hlt : bit < 32 := hmade.inode
  show 3 + (bit + 1 - 1) * 128 / 4096 = 3 + (1 - 1) * 128 / 4096
  omega

/-- Sixty-four inodes, in two blocks of the table. -/
def crowdedOptions : MkfsOptions := ⟨"eufs.img", 65536, 64, 6, 0, false⟩

def crowdedSuperblock : Superblock :=
  formattedSuperblock ⟨16, 64, 1, ⟨1, 1⟩, ⟨2, 1⟩, ⟨3, 2⟩, ⟨5, 6⟩, ⟨11, 5⟩, 0, 0, 0,
    Bytes.zero 16, 0⟩ sampleHost 0

theorem crowdedLayout : Layout crowdedOptions crowdedSuperblock sampleLedger :=
  (@formatLayout_ok crowdedOptions _ _ (by rfl)).identity sampleHost 0

/-- The image that formatting gives. -/
def uncrowdedImage : Image :=
  formattedImage crowdedSuperblock sampleLedger (plainBytes crowdedSuperblock sampleLedger sampleHost)
    ((encodeSuperblock crowdedSuperblock).toOption.getD (Bytes.zero _)) fun _ => Bytes.zero _

theorem uncrowdedImage_formatted :
    Formatted crowdedSuperblock sampleLedger sampleHost (fun _ => Bytes.zero _) uncrowdedImage :=
  plain_formatted crowdedLayout (by decide) sampleHost _

/-- The inodes of the first block of the table are in use. -/
def crowdedBitmap : Bitmap := (Bitmap.setBitmapPrefix (fun _ => 0) 32).reserveBitmapTail 64

def crowdedImage : Image := update uncrowdedImage 1 (bitmapBlock crowdedBitmap 0)

def crowdedReader : ImageReader := ⟨crowdedImage, crowdedSuperblock, formattedControl crowdedSuperblock, .kA⟩

theorem testBit_crowdedImage {k : ℕ} (hk : k < 32768) :
    (loadBitmap crowdedImage 1).testBit k = (decide (64 ≤ k) || decide (k < 32)) :=
  testBit_loadBitmap_reserved hk (update_self ..)

theorem crowdedImage_keepsMetadata : crowdedSuperblock.KeepsMetadata uncrowdedImage crowdedImage := by
  refine ⟨fun b _ hb => ?_, fun k hk hbit => ?_⟩
  · refine update_of_ne (fun hc => hb ?_) _ _
    rw [hc]
    decide
  · have hk : k < 32768 := hk
    have hbit := (uncrowdedImage_formatted.inodeBit_eq crowdedLayout hk).symm.trans hbit
    have htotal : crowdedSuperblock.totalInodes.toNat = 64 := rfl
    refine (testBit_crowdedImage hk).trans ?_
    rw [htotal] at hbit
    simp only [Bool.or_eq_true, Bool.and_eq_true, decide_eq_true_eq] at hbit ⊢
    rcases hbit with (hbit | hbit) | ⟨hbit, -⟩
    · exact Or.inl hbit
    · exact Or.inr (hbit.trans_lt (by decide))
    · exact absurd hbit (show ¬ sampleLedger.enabled by decide)

theorem formattedRoot_crowded {v : InodeRecord}
    (hv : Readable crowdedSuperblock uncrowdedImage crowdedSuperblock.rootInode.toNat v) :
    v = formattedRoot crowdedSuperblock sampleLedger sampleHost :=
  Option.some.inj (hv.record.symm.trans (uncrowdedImage_formatted.rootAt crowdedLayout))

theorem adoptLockedFd_crowdedImage : ImageReader.adoptLockedFd 16 crowdedImage = .ok crowdedReader := by
  have hopen := adoptLockedFd_eq_ok.mp ((uncrowdedImage_formatted.sound crowdedLayout).adoptLockedFd
    (uncrowdedImage_formatted.opens crowdedLayout))
  have hkeep := crowdedImage_keepsMetadata
  refine adoptLockedFd_eq_ok.mpr ⟨rfl, hopen.2.1.keep (hkeep.keepsControls crowdedLayout.regions),
    hkeep.adoptable crowdedLayout.regions hopen.2.2 fun v hv => ?_⟩
  rw [formattedRoot_crowded hv]
  exact (isEmptyRoot_formattedRoot crowdedLayout (by decide)).2.1

/-- With the first block of the table full the planner succeeds and the store rejects the plan. -/
theorem emptyFileCreatePlan_crowded_rejected : ∃ plan,
    ImageReader.adoptLockedFd 16 crowdedImage = .ok crowdedReader ∧
    prepareRootEmptyFileCreate crowdedReader [97] 0o644 0 0 0 = .ok plan ∧
    (∃ b ∈ plan.afterImages, b ∉ plan.beforeImages) ∧
    ∀ w, writeOrderedDataAndUnexposedBody plan.totalBlocks plan.filesystemUuid plan.beforeImages ∅ plan.afterImages
      (.fresh crowdedSuperblock crowdedReader.journalControl crowdedReader.journalControlCopy) w =
        .fail ⟨.EINVAL, "metadata target is invalid or lacks a before-image"⟩
          (.fresh crowdedSuperblock crowdedReader.journalControl crowdedReader.journalControlCopy) w := by
  have hr := crowdedLayout.regions
  have hempty : (formattedRoot crowdedSuperblock sampleLedger sampleHost).isEmptyRoot :=
    isEmptyRoot_formattedRoot crowdedLayout (by decide)
  have hreadable : Readable crowdedSuperblock uncrowdedImage 1
    (formattedRoot crowdedSuperblock sampleLedger sampleHost) :=
    (uncrowdedImage_formatted.sound crowdedLayout).readable
      ((uncrowdedImage_formatted.mem_inodes_iff crowdedLayout).mpr (Or.inl rfl))
      (uncrowdedImage_formatted.rootAt crowdedLayout)
  have hroot : crowdedReader.readInode 1 = .ok _ :=
    readInode_eq_ok.mpr (crowdedImage_keepsMetadata.readable hr hreadable hempty.2.1)
  have hfits := @ImageReader.inodeAllocator_fits crowdedReader hr
  have hinode : 32 ∈ crowdedReader.inodeAllocator.free :=
    (mem_free hfits).mpr ⟨⟨by decide, by decide⟩, testBit_crowdedImage (by decide)⟩
  have hblock : 11 ∈ crowdedReader.blockAllocator.free := by
    refine (mem_free (blockAllocator_fits hr)).mpr ⟨⟨by decide, by decide⟩, ?_⟩
    exact (crowdedImage_keepsMetadata.blockBit_eq hr (by decide)).trans
      ((uncrowdedImage_formatted.blockBit_eq crowdedLayout (by decide)).trans (by decide))
  obtain ⟨plan, hplan⟩ := @exists_prepare crowdedReader [97] 0o644 0 0 0 16 crowdedImage _
    adoptLockedFd_crowdedImage hroot hempty (List.ne_nil_of_mem hinode) (List.ne_nil_of_mem hblock) (by decide)
  obtain ⟨bit, hmade⟩ := made_of_prepare hr hplan
  -- only inodes of the second block are free
  have hge : 32 ≤ bit := by
    obtain ⟨-, hfree⟩ := (mem_free hfits).mp (List.mem_of_head? hmade.free)
    have hlt : bit < 64 := hmade.inode
    have hfree := (testBit_crowdedImage (by omega)).symm.trans hfree
    rw [Bool.or_eq_false_iff, decide_eq_false_iff_not, decide_eq_false_iff_not] at hfree
    omega
  have hlacks : inodeTableBlock crowdedSuperblock plan.inodeNumber ∉ plan.beforeImages := fun hc => by
    have hsame : 3 + (plan.inodeNumber - 1) * 128 / 4096 = 3 + (1 - 1) * 128 / 4096 :=
      (hmade.file_mem_before_iff hr).mp hc
    have hnumber := hmade.number
    omega
  refine ⟨plan, adoptLockedFd_crowdedImage, hplan, ⟨_, hmade.file_mem_after, hlacks⟩, fun w => ?_⟩
  rw [hmade.total, hmade.uuid]
  exact writeOrderedDataAndUnexposedBody_lacks rfl hmade.file_mem_after hlacks w

end Eufs
