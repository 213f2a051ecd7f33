import Eufs.Base.Progress
import Eufs.Storage.Mkfs
import Eufs.Journal.Images

/-!
# Eufs.Storage.Formatted — what a formatted image holds

`Formatted sb g host base d` describes the image `d` that `formatImage` leaves on a file that held `base`: every
block of the body, the superblock, and `base` in all other blocks.  A run of `formatImage` that succeeds ends in such
an image (`formatImage_ok`), and such an image opens with an empty journal (`Formatted.opens`).
-/

namespace Eufs

open Prog Superblock Function

variable {sb : Superblock} {g : RequestLedgerGeometry} {options : MkfsOptions} {host : MkfsHost} {b : FormatBytes}
  {p : ℕ × (Block → Block)} {a : ℕ} {op : Op} {x : Block} {t t' : Unit}

/-! ## Layout -/

/-- What an accepted ledger geometry satisfies. -/
structure RequestLedgerGeometry.Fits (g : RequestLedgerGeometry) (sb : Superblock) : Prop where
  entries : g.entryCount = g.dataBlockCount * 32
  pos : 0 < g.dataBlockCount
  limit : g.dataBlockCount ≤ 1036
  inodes : 2 < sb.totalInodes.toNat
  root : g.rootDirectoryBlock = sb.data.start
  first : g.firstDataBlock = sb.data.start + 1
  indirect : g.indirectBlock = if 12 < g.dataBlockCount then sb.data.start + 1 + g.dataBlockCount else 0
  room : 1 + g.dataBlockCount + (if 12 < g.dataBlockCount then 1 else 0) < sb.data.count
  size : g.fileSize = g.dataBlockCount * 4096

theorem buildRequestLedgerGeometry_ok {n : ℕ} (h : buildRequestLedgerGeometry sb n = .ok g) :
    g.entryCount = n ∧ (g.enabled → g.Fits sb) := by
  unfold buildRequestLedgerGeometry at h
  split_ifs at h with hn
  · cases h
    exact ⟨hn.symm, fun he => absurd rfl he⟩
  · simp only [reject_bind_eq_ok, not_or, not_not, not_le, not_lt, ne_eq] at h
    obtain ⟨h1, ⟨h2, h3⟩, h4, h5, h⟩ := h
    cases h
    have hb : kEntriesPerBlock = 32 := rfl
    have hs : kRequestLedgerRecordSize = 128 := rfl
    rw [hb] at h1 h2
    refine ⟨rfl, fun _ => ⟨?_, Nat.pos_of_ne_zero h2, h3, h4, rfl, rfl, rfl, h5, ?_⟩⟩
    · show n = n / 32 * 32
      omega
    · show n * 128 = n / 32 * 4096
      omega

theorem Superblock.Regions.of_eq {sb' : Superblock} (h : sb.Regions) (e1 : sb'.totalBlocks = sb.totalBlocks)
    (e2 : sb'.totalInodes = sb.totalInodes) (e3 : sb'.rootInode = sb.rootInode)
    (e4 : sb'.inodeBitmap = sb.inodeBitmap) (e5 : sb'.blockBitmap = sb.blockBitmap)
    (e6 : sb'.inodeTable = sb.inodeTable) (e7 : sb'.journal = sb.journal) (e8 : sb'.data = sb.data) :
    sb'.Regions := by
  obtain ⟨h1, h2, h3, h4, h5, h6, h7, h8, h9, h10, h11, h12, h13, h14⟩ := h
  constructor <;> simp only [e1, e2, e3, e4, e5, e6, e7, e8] <;> assumption

theorem RequestLedgerGeometry.Fits.of_eq {sb' : Superblock} (h : g.Fits sb) (e2 : sb'.totalInodes = sb.totalInodes)
    (e8 : sb'.data = sb.data) : g.Fits sb' := by
  obtain ⟨h1, h2, h3, h4, h5, h6, h7, h8, h9⟩ := h
  refine ⟨h1, h2, h3, ?_, ?_, ?_, ?_, ?_, h9⟩ <;> simp only [e2, e8] <;> assumption

/-- The layout of an accepted set of options. -/
structure Layout (options : MkfsOptions) (sb : Superblock) (g : RequestLedgerGeometry) : Prop where
  regions : sb.Regions
  blocks : sb.totalBlocks.toNat = options.imageSizeBytes.toNat / kBlockSize
  inodes : sb.totalInodes = options.totalInodes
  journal : sb.journal.blockCount = options.journalBlocks
  root : sb.rootInode = 1
  features : sb.featureIncompat = if g.enabled then 1 else 0
  entries : g.entryCount = options.requestLedgerEntries.toNat
  ledger : g.enabled → g.Fits sb

/-- The options fix the place of the ledger. -/
theorem Layout.geometry_unique {options : MkfsOptions} {sb : Superblock} {g g' : RequestLedgerGeometry}
    (h : Layout options sb g) (h' : Layout options sb g') (he : g.enabled) : g = g' := by
  have hentries : g.entryCount = g'.entryCount := h.entries.trans h'.entries.symm
  have hf := h.ledger he
  have hf' := h'.ledger fun hz => he (hentries.trans hz)
  have hcount : g.dataBlockCount = g'.dataBlockCount := by
    have h1 := hf.entries
    have h2 := hf'.entries
    omega
  obtain ⟨-, -, -, -, hroot, hfirst, hindirect, -, hsize⟩ := hf
  obtain ⟨-, -, -, -, hroot', hfirst', hindirect', -, hsize'⟩ := hf'
  rw [hcount] at hindirect hsize
  cases g
  cases g'
  simp_all

theorem formatLayout_ok {options : MkfsOptions} {sb : Superblock} {g : RequestLedgerGeometry}
    (h : formatLayout options = .ok (sb, g)) : Layout options sb g := by
  simp only [formatLayout, reject_bind_eq_ok, not_or, not_lt] at h
  obtain ⟨-, ⟨hb, -⟩, h⟩ := h
  obtain ⟨sb₀, h1, h⟩ := bind_eq_ok.mp h
  obtain ⟨g', h2, h⟩ := bind_eq_ok.mp h
  obtain ⟨hreg, hblocks, hinodes, hjournal, hroot, hfeat⟩ := buildSuperblockLayout_ok h1
  obtain ⟨hentries, hfits⟩ := buildRequestLedgerGeometry_ok h2
  have ht : sb₀.totalBlocks.toNat = options.imageSizeBytes.toNat / kBlockSize := by
    rw [hblocks]
    exact UInt32.toNat_ofNat_of_lt' (Nat.lt_of_le_of_lt hb (by decide))
  have hpair := Except.ok.inj h
  obtain rfl : g' = g := congrArg Prod.snd hpair
  have hsb := congrArg Prod.fst hpair
  by_cases he : g'.enabled
  · rw [if_pos he] at hsb
    obtain rfl := hsb
    refine ⟨hreg.of_eq rfl rfl rfl rfl rfl rfl rfl rfl, ht, hinodes, hjournal, hroot, ?_,
      hentries, fun _ => (hfits he).of_eq rfl rfl⟩
    rw [if_pos he, hfeat]
    rfl
  · rw [if_neg he] at hsb
    obtain rfl := hsb
    exact ⟨hreg, ht, hinodes, hjournal, hroot, by rw [if_neg he, hfeat], hentries, fun hc => absurd hc he⟩

theorem Layout.identity (h : Layout options sb g) (host : MkfsHost) (created : UInt64) :
    Layout options (formattedSuperblock sb host created) g := by
  unfold formattedSuperblock
  generalize randomUuid host.random = u
  exact ⟨h.regions.of_eq rfl rfl rfl rfl rfl rfl rfl rfl, h.blocks, h.inodes, h.journal, h.root, h.features,
    h.entries, fun he => (h.ledger he).of_eq rfl rfl⟩

/-! ## The encoded parts -/

theorem formattedControl_valid (h : sb.Regions) :
    (formattedControl sb).Valid ∧ (formattedControl sb).ringBlocks.toNat = sb.ringBlocks := by
  have hc := h.journal_count
  have hr : (formattedControl sb).ringBlocks.toNat = sb.ringBlocks := by
    show (sb.journal.blockCount - UInt32.ofNat kJournalControlBlockCount).toNat = _
    unfold Region.count at hc
    have h2 : (UInt32.ofNat kJournalControlBlockCount).toNat = 2 := rfl
    rw [UInt32.toNat_sub_of_le _ _ (by rw [UInt32.le_iff_toNat_le, h2]; omega)]
    rfl
  have hring := h.three_le_ringBlocks
  have hhead : (formattedControl sb).head.toNat = 0 := rfl
  have htail : (formattedControl sb).tail.toNat = 0 := rfl
  have hused : (formattedControl sb).usedBlocks.toNat = 0 := rfl
  have hnext : (formattedControl sb).nextTransactionId.toNat = 1 := rfl
  refine ⟨⟨by omega, by omega, by omega, by omega, by omega, by omega, ?_, ⟨rfl, rfl, rfl, rfl⟩⟩, hr⟩
  rw [hhead, htail, hused]
  simp

theorem formatBytes_ok (h : formatBytes sb g host = .ok b) :
    b.root = inodeBytes (formattedRoot sb g host) ∧ (formattedRoot sb g host).Valid ∧
    b.control = controlBytes (formattedControl sb) ∧
    (g.enabled → b.ledger = inodeBytes (formattedLedger sb g host) ∧ (formattedLedger sb g host).Valid ∧
      encodeDirectoryEntry ledgerEntry (UInt16.ofNat kBlockSize) (Bytes.zero _) 0 = .ok b.rootDirectory) := by
  unfold formatBytes at h
  obtain ⟨x, hx, h⟩ := bind_eq_ok.mp h
  obtain ⟨root, hr, h⟩ := bind_eq_ok.mp h
  obtain ⟨control, hc, h⟩ := bind_eq_ok.mp h
  cases h
  obtain ⟨hr1, hr2⟩ := encodeInode_eq_ok.mp hr
  refine ⟨hr2, hr1, (encodeControl_eq_ok.mp hc).2, fun he => ?_⟩
  unfold ledgerBytesOf at hx
  rw [if_pos he] at hx
  obtain ⟨dir, hd, hx⟩ := bind_eq_ok.mp hx
  obtain ⟨ledger, hl, hx⟩ := bind_eq_ok.mp hx
  cases hx
  obtain ⟨hl1, hl2⟩ := encodeInode_eq_ok.mp hl
  exact ⟨hl2, hl1, hd⟩

/-! ## The blocks of the image -/

theorem mem_bodyPatches :
    p ∈ bodyPatches sb g b ↔
      ((∃ k < sb.inodeBitmap.count, p = whole (sb.inodeBitmap.start + k)
        (bitmapBlock (formattedInodeBitmap sb g) k)) ∨
      (∃ k < sb.blockBitmap.count, p = whole (sb.blockBitmap.start + k)
        (bitmapBlock (formattedBlockBitmap sb g) k)) ∨
      p = record sb sb.rootInode.toNat b.root ∨ (∃ copy, p = whole (sb.controlBlock copy) b.control)) ∨
      (g.enabled ∧ (p = record sb kRequestLedgerInodeNumber b.ledger ∨
        p = whole g.rootDirectoryBlock b.rootDirectory ∨
        (∃ k < g.dataBlockCount, p = whole (g.firstDataBlock + k) (Bytes.zero _)) ∨
        (g.indirectBlock ≠ 0 ∧ p = whole g.indirectBlock (formattedIndirect g)))) := by
  have hcopy : (∃ copy, p = whole (sb.controlBlock copy) b.control) ↔
      p = whole (sb.controlBlock .kA) b.control ∨ p = whole (sb.controlBlock .kB) b.control := by
    constructor
    · rintro ⟨copy, h⟩
      cases copy
      · exact Or.inl h
      · exact Or.inr h
    · rintro (h | h)
      · exact ⟨_, h⟩
      · exact ⟨_, h⟩
  rw [hcopy]
  unfold bodyPatches bitmapPatches
  by_cases he : g.enabled <;> by_cases hi : g.indirectBlock = 0 <;>
    simp [he, hi, eq_comm (b := p), or_assoc]

/-- The image that `formatImage` leaves on a file that held `base`. -/
structure Formatted (sb : Superblock) (g : RequestLedgerGeometry) (host : MkfsHost) (base d : Image) : Prop where
  superblock : decodeSuperblock (d 0) = .ok sb
  inodeBitmap : ∀ k < sb.inodeBitmap.count,
    d (sb.inodeBitmap.start + k) = bitmapBlock (formattedInodeBitmap sb g) k
  blockBitmap : ∀ k < sb.blockBitmap.count,
    d (sb.blockBitmap.start + k) = bitmapBlock (formattedBlockBitmap sb g) k
  root : (formattedRoot sb g host).Valid ∧
    (d sb.inodeTable.start).getBytes ((sb.rootInode.toNat - 1) * kInodeRecordSize) kInodeRecordSize =
      inodeBytes (formattedRoot sb g host)
  controls : ∀ copy, d (sb.controlBlock copy) = controlBytes (formattedControl sb)
  ledger : g.enabled → (formattedLedger sb g host).Valid ∧
    (d sb.inodeTable.start).getBytes ((kRequestLedgerInodeNumber - 1) * kInodeRecordSize) kInodeRecordSize =
      inodeBytes (formattedLedger sb g host)
  directory : g.enabled →
    encodeDirectoryEntry ledgerEntry (UInt16.ofNat kBlockSize) (Bytes.zero _) 0 = .ok (d g.rootDirectoryBlock)
  slots : g.enabled → ∀ k < g.dataBlockCount, d (g.firstDataBlock + k) = Bytes.zero _
  indirect : g.enabled → g.indirectBlock ≠ 0 → d g.indirectBlock = formattedIndirect g
  rest : ∀ a, sb.inodeTable.start < a → (∀ copy, a ≠ sb.controlBlock copy) →
    (g.enabled → a < sb.data.start ∨ sb.data.start + 1 + g.dataBlockCount < a) → d a = base a

/-- The blocks after the body and the superblock are written. -/
def formattedImage (sb : Superblock) (g : RequestLedgerGeometry) (b : FormatBytes) (x : Block) (base : Image) : Image :=
  update (applyPatches (bodyPatches sb g b) base) 0 x

section Body

variable {sb : Superblock} {g : RequestLedgerGeometry} {host : MkfsHost} {b : FormatBytes} {x : Block} {base : Image}
  {options : MkfsOptions}

/-- A block of the body that one kind of patch overwrites. -/
theorem formattedImage_whole {y : Block} (ha : a ≠ 0) (hm : whole a y ∈ bodyPatches sb g b)
    (hall : ∀ p ∈ bodyPatches sb g b, p.1 = a → p.2 = fun _ => y) : formattedImage sb g b x base a = y := by
  rw [formattedImage, update_of_ne ha]
  exact applyPatches_whole _ _ hall ⟨_, hm, rfl⟩

theorem formattedImage_rest (ha : a ≠ 0) (hall : ∀ p ∈ bodyPatches sb g b, p.1 ≠ a) :
    formattedImage sb g b x base a = base a := by
  rw [formattedImage, update_of_ne ha, applyPatches_of_not_mem _ _ _ hall]

/-- The first block of the inode table gets the root's record and, with a ledger, that of the ledger. -/
theorem formattedImage_table (h : sb.Regions) (hg : g.enabled → g.Fits sb) :
    formattedImage sb g b x base sb.inodeTable.start =
      (if g.enabled then [record sb sb.rootInode.toNat b.root, record sb kRequestLedgerInodeNumber b.ledger]
        else [record sb sb.rootInode.toNat b.root]).foldl (fun y p => p.2 y) (base sb.inodeTable.start) := by
  obtain ⟨h1, h2, h3, h4, h5, h6, h7, h8⟩ := h.chain
  have hrange : ∀ (n : ℕ) (f : ℕ → ℕ × (Block → Block)), (∀ k < n, (f k).1 ≠ sb.inodeTable.start) →
      ((List.range n).map f).filter (fun p => p.1 = sb.inodeTable.start) = [] := fun n f hf => by
    simpa [List.filter_eq_nil_iff] using hf
  have hA : sb.controlBlock .kA ≠ sb.inodeTable.start := by simp only [controlBlock]; omega
  have hB : sb.controlBlock .kB ≠ sb.inodeTable.start := by simp only [controlBlock]; omega
  rw [formattedImage, update_of_ne (by omega), applyPatches_apply]
  congr 1
  unfold bodyPatches bitmapPatches
  simp only [List.filter_append]
  rw [hrange _ _ fun k hk => by simp only [whole]; omega, hrange _ _ fun k hk => by simp only [whole]; omega]
  by_cases he : g.enabled
  · obtain ⟨-, -, -, -, g1, g2, g3, -, -⟩ := hg he
    have hroot : g.rootDirectoryBlock ≠ sb.inodeTable.start := by omega
    have hind : g.indirectBlock ≠ 0 → g.indirectBlock ≠ sb.inodeTable.start := by
      rw [g3]
      split_ifs <;> omega
    simp only [if_pos he, List.filter_append]
    rw [hrange _ _ fun k hk => by simp only [whole]; omega]
    by_cases hi : g.indirectBlock = 0
    · simp [record, whole, hA, hB, hroot, hi]
    · simp [record, whole, hA, hB, hroot, hi, hind hi]
  · simp [he, record, whole, hA, hB]

theorem RequestLedgerGeometry.Fits.bounds (h : g.Fits sb) :
    g.rootDirectoryBlock = sb.data.start ∧ g.firstDataBlock = sb.data.start + 1 ∧
      (g.indirectBlock ≠ 0 → g.indirectBlock = sb.data.start + 1 + g.dataBlockCount) := by
  refine ⟨h.root, h.first, fun hi => ?_⟩
  have := h.indirect
  split_ifs at this
  · exact this
  · exact absurd this hi

section

variable (h : sb.Regions) (hg : g.enabled → g.Fits sb) (hp : p ∈ bodyPatches sb g b)

include h hg hp

theorem bodyPatch_region (ht : p.1 ≠ sb.inodeTable.start) :
    (∃ k < sb.inodeBitmap.count, p = whole (1 + k) (bitmapBlock (formattedInodeBitmap sb g) k)) ∨
    (∃ k < sb.blockBitmap.count, p = whole (sb.blockBitmap.start + k) (bitmapBlock (formattedBlockBitmap sb g) k)) ∨
    (∃ k < 2, p = whole (sb.journal.start + k) b.control) ∨
    (g.enabled ∧ (p = whole sb.data.start b.rootDirectory ∨
      (∃ k < g.dataBlockCount, p = whole (sb.data.start + 1 + k) (Bytes.zero _)) ∨
      p = whole (sb.data.start + 1 + g.dataBlockCount) (formattedIndirect g))) := by
  rcases mem_bodyPatches.mp hp with (⟨k, hk, hp⟩ | ⟨k, hk, hp⟩ | hp | ⟨copy, hp⟩) | ⟨he, hp⟩
  · rw [h.chain.1] at hp
    exact Or.inl ⟨k, hk, hp⟩
  · exact Or.inr (Or.inl ⟨k, hk, hp⟩)
  · exact absurd (congrArg Prod.fst hp) ht
  · cases copy
    · exact Or.inr (Or.inr (Or.inl ⟨0, by omega, hp⟩))
    · exact Or.inr (Or.inr (Or.inl ⟨1, by omega, hp⟩))
  · obtain ⟨h1, h2, h3⟩ := (hg he).bounds
    rw [h1, h2] at hp
    refine Or.inr (Or.inr (Or.inr ⟨he, ?_⟩))
    rcases hp with hp | hp | hp | ⟨hi, hp⟩
    · exact absurd (congrArg Prod.fst hp) ht
    · exact Or.inl hp
    · exact Or.inr (Or.inl hp)
    · rw [h3 hi] at hp
      exact Or.inr (Or.inr hp)

theorem bodyPatch_ne_zero : p.1 ≠ 0 := by
  obtain ⟨h1, h2, h3, h4, h5, h6, h7, h8⟩ := h.chain
  intro h0
  rcases bodyPatch_region h hg hp (by omega) with ⟨k', hk', rfl⟩ | ⟨k', hk', rfl⟩ | ⟨k', hk', rfl⟩ |
    ⟨he, rfl | ⟨k', hk', rfl⟩ | rfl⟩ <;> simp only [whole] at h0 <;> omega

/-- Two patches of one block outside the inode table are the same patch. -/
theorem bodyPatch_unique {q : ℕ × (Block → Block)} (hq : q ∈ bodyPatches sb g b)
    (ht : p.1 ≠ sb.inodeTable.start) (hpq : q.1 = p.1) : q = p := by
  obtain ⟨h1, h2, h3, h4, h5, h6, h7, h8⟩ := h.chain
  rcases bodyPatch_region h hg hp ht with ⟨k, hk, rfl⟩ | ⟨k, hk, rfl⟩ | ⟨k, hk, rfl⟩ |
    ⟨-, rfl | ⟨k, hk, rfl⟩ | rfl⟩ <;>
  rcases bodyPatch_region h hg hq (hpq ▸ ht) with ⟨k', hk', rfl⟩ | ⟨k', hk', rfl⟩ | ⟨k', hk', rfl⟩ |
    ⟨-, rfl | ⟨k', hk', rfl⟩ | rfl⟩ <;>
  simp only [whole] at hpq <;>
  first
  | rfl
  | omega
  | (obtain rfl : k' = k := by omega
     rfl)

end

theorem formattedImage_patch (h : Layout options sb g) {y : Block} (hm : whole a y ∈ bodyPatches sb g b)
    (ht : a ≠ sb.inodeTable.start) : formattedImage sb g b x base a = y :=
  formattedImage_whole (bodyPatch_ne_zero h.regions h.ledger hm) hm fun p hp hpa => by
    rw [bodyPatch_unique h.regions h.ledger hm hp ht hpa]
    rfl

theorem formattedImage_formatted (h : Layout options sb g) (hb : formatBytes sb g host = .ok b)
    (hx : encodeSuperblock sb = .ok x) : Formatted sb g host base (formattedImage sb g b x base) := by
  obtain ⟨hroot, hrv, hcontrol, hledger⟩ := formatBytes_ok hb
  obtain ⟨h1, h2, h3, h4, h5, h6, h7, h8⟩ := h.regions.chain
  have hne : sb.rootInode.toNat = 1 := by rw [h.root]; rfl
  have hfits := h.ledger
  have hmem : ∀ {p}, _ → p ∈ bodyPatches sb g b := fun {p} => (mem_bodyPatches (p := p)).mpr
  have htable := @formattedImage_table sb g b x base h.regions hfits
  refine ⟨?_, fun k hk => ?_, fun k hk => ?_, ⟨hrv, ?_⟩, fun copy => ?_,
    fun he => ⟨(hledger he).2.1, ?_⟩, fun he => ?_, fun he k hk => ?_, fun he hi => ?_, fun a ha hc hl => ?_⟩
  · rw [formattedImage, update_self]
    exact decodeSuperblock_encodeSuperblock hx
  · exact formattedImage_patch h (hmem (Or.inl (Or.inl ⟨k, hk, rfl⟩))) (by omega)
  · exact formattedImage_patch h (hmem (Or.inl (Or.inr (Or.inl ⟨k, hk, rfl⟩)))) (by omega)
  · rw [htable, hne]
    split_ifs with he
    · simp only [List.foldl_cons, List.foldl_nil, record, ← hroot]
      exact (Bytes.getBytes_congr (Bytes.read_write_of_disjoint (Or.inl (by decide)))).trans
        (Bytes.getBytes_putBytes (by decide))
    · simp only [List.foldl_cons, List.foldl_nil, record, ← hroot]
      exact Bytes.getBytes_putBytes (by decide)
  · rw [← hcontrol]
    refine formattedImage_patch h (hmem (Or.inl (Or.inr (Or.inr (Or.inr ⟨copy, rfl⟩))))) ?_
    cases copy <;> simp only [controlBlock] <;> omega
  · rw [htable, if_pos he]
    simp only [List.foldl_cons, List.foldl_nil, record, ← (hledger he).1]
    exact Bytes.getBytes_putBytes (by decide)
  · obtain ⟨g1, -, -⟩ := (hfits he).bounds
    rw [formattedImage_patch h (hmem (Or.inr ⟨he, Or.inr (Or.inl rfl)⟩)) (by omega)]
    exact (hledger he).2.2
  · obtain ⟨-, g2, -⟩ := (hfits he).bounds
    exact formattedImage_patch h (hmem (Or.inr ⟨he, Or.inr (Or.inr (Or.inl ⟨k, hk, rfl⟩))⟩)) (by omega)
  · obtain ⟨-, -, g3⟩ := (hfits he).bounds
    have g3 := g3 hi
    exact formattedImage_patch h (hmem (Or.inr ⟨he, Or.inr (Or.inr (Or.inr ⟨hi, rfl⟩))⟩)) (by omega)
  · have hcA := hc .kA
    have hcB := hc .kB
    simp only [controlBlock] at hcA hcB
    refine formattedImage_rest (by omega) fun p hp hpa => ?_
    rcases bodyPatch_region h.regions hfits hp
      (by omega) with ⟨k', hk', rfl⟩ | ⟨k', hk', rfl⟩ | ⟨k', hk', rfl⟩ |
      ⟨he', rfl | ⟨k', hk', rfl⟩ | rfl⟩ <;> simp only [whole] at hpa <;>
      first | omega | (replace hl := hl he'; omega)

end Body

/-! ## The run -/

section Run

variable {w w' : Disk} {t t' : Unit}

theorem ends_mkfsWrite (x : ℕ × (Block → Block)) (t : Unit) (w : Disk) :
    Ends (mkfsWrite op x) t w (fun _ t' w' => t' = t ∧ Issued w [⟨op, x.1, x.2 (w.visible x.1)⟩] w')
      (fun _ _ w' => True ∧ Issued w [⟨op, x.1, x.2 (w.visible x.1)⟩] w' ∧ w.faults < w'.faults)
      (fun w' => Issued w [⟨op, x.1, x.2 (w.visible x.1)⟩] w') :=
  Ends.mono ends_writeAll (fun _ _ _ h => h) (fun _ _ _ h => ⟨trivial, h.2⟩) fun _ h => h

theorem syncs_mkfsSync (op : Op) : Syncs (fun _ => True) (mkfsSync op) := syncs_fdatasync Op.text fun _ => trivial

theorem phased_mkfsWrite {op' : Op} (hp : w.pending = []) :
    Phased (fun _ => True) (do mkfsWrite op (whole a x); mkfsSync op') () w [[⟨op, a, x⟩]] (fun _ _ => True)
      (fun _ => False) (fun _ => False) := by
  have hissue : Issues (fun _ => True) (mkfsWrite op (whole a x)) ⟨op, a, x⟩ :=
    fun t w => ends_mkfsWrite (whole a x) t w
  refine InBatch.phased (inBatch_write hissue (Issued.refl w) hp (List.Subset.refl _) fun w₁ hw₁ => ?_)
  have hk : ∀ w', w.Wrote [[⟨op, a, x⟩]] w' → Phased (fun _ : Unit => True) (pure ()) () w' [] (fun _ _ => True)
      (fun _ => False) (fun _ => False) := fun w' hw' => phased_pure hw'.pending trivial
  rw [← bind_pure (mkfsSync op')]
  exact inBatch_sync (syncs_mkfsSync op') hw₁ hp hk

theorem phased_publishSuperblock (hp : w.pending = []) (hx : encodeSuperblock sb = .ok x) :
    Phased (fun _ => True) (publishSuperblock sb) () w [[⟨.superblock, 0, x⟩]] (fun _ _ => True) (fun _ => False)
      (fun _ => False) := by
  unfold publishSuperblock
  refine phased_ofExcept (fun e he => ?_) fun x' hx' => ?_
  · rw [hx] at he
    cases he
  · obtain rfl : x = x' := Except.ok.inj (hx.symm.trans (orText_eq_ok.mp hx'))
    exact phased_mkfsWrite hp

/-- The body is durable before the superblock is written. -/
theorem phased_publishImage (hp : w.pending = []) (hb : formatBytes sb g host = .ok b)
    (hx : encodeSuperblock sb = .ok x) :
    Phased (fun _ => True) (publishImage sb g host) () w
      [patchWrites .filesystemBody w.durable (bodyPatches sb g b), [⟨.superblock, 0, x⟩]] (fun _ _ => True)
      (fun _ => False) (fun _ => False) := by
  unfold publishImage
  refine phased_ofExcept (fun e he => ?_) fun b' hb' => ?_
  · rw [hb] at he
    cases he
  obtain rfl : b = b' := Except.ok.inj (hb.symm.trans (orText_eq_ok.mp hb'))
  generalize bodyPatches sb g b = l
  refine InBatch.phased ?_
  refine inBatch_patches_nil .filesystemBody ?_ hp l fun w₁ hw₁ => ?_
  · exact fun x t w => ends_mkfsWrite x t w
  · exact inBatch_sync (syncs_mkfsSync _) hw₁ hp fun w₂ hw₂ => phased_publishSuperblock hw₂.pending hx

/-- The file before the body is written: the old blocks as far as the new length goes, zeros after them. -/
def resized (n : ℕ) (w : Disk) : Image := fun a => if a < w.size ∧ a < n then w.durable a else Bytes.zero _

theorem prepareImage_ok {force : Bool} (hp : w.pending = []) (h : prepareImage force t w = .ok () t' w') :
    w'.size = w.size ∧ w'.pending = [] ∧ ∀ a, a ≠ 0 → w'.durable a = w.durable a := by
  unfold prepareImage at h
  cases force with
  | false =>
    cases h
    exact ⟨rfl, hp, fun _ _ => rfl⟩
  | true =>
    have hrun : Phased (fun _ => True) invalidateSuperblock t w [[⟨.invalidSuperblock, 0, Bytes.zero _⟩]]
      (fun _ _ => True) (fun _ => False) (fun _ => False) := phased_mkfsWrite hp
    have hw := (Ends.ok hrun h).2
    refine ⟨hw.size, hw.pending, fun a ha => ?_⟩
    rw [hw.durable]
    exact update_of_ne ha _ _

theorem ftruncate_ok {n : ℕ} (hp : w.pending = [])
    (h : ftruncate Op.text (Bytes.zero kBlockSize) op n t w = .ok () t' w') :
    w'.size = n ∧ w'.pending = [] ∧ w'.durable = resized n w := by
  unfold ftruncate at h
  cases hs : w.script with
  | nil => simp [hs] at h
  | cons r rest =>
    simp only [hs] at h
    split_ifs at h
    cases h
    exact ⟨rfl, by simp [hp], rfl⟩

theorem publishImage_ok (hl : Layout options sb g) (hp : w.pending = [])
    (h : publishImage sb g host t w = .ok () t' w') :
    Formatted sb g host w.durable w'.durable ∧ w'.size = w.size ∧ w'.pending = [] := by
  obtain ⟨x, hx⟩ : ∃ x, encodeSuperblock sb = .ok x := by
    simp only [encodeSuperblock, validateSuperblock_eq_ok.mpr hl.regions]
    exact ⟨_, rfl⟩
  obtain ⟨b, hb⟩ : ∃ b, formatBytes sb g host = .ok b := by
    unfold publishImage at h
    obtain ⟨b, t₁, w₁, h1, -⟩ := bind_ok.mp h
    exact ⟨b, orText_eq_ok.mp (ofExcept_ok.mp h1).1⟩
  have hw := (Ends.ok (phased_publishImage hp hb hx) h).2
  refine ⟨?_, hw.size, hw.pending⟩
  have himage : w'.durable = formattedImage sb g b x w.durable := by
    rw [hw.durable, List.flatten_cons, List.flatten_cons, List.flatten_nil, List.append_nil, applyWrites_append,
      applyWrites_patchWrites]
    rfl
  rw [himage]
  exact formattedImage_formatted hl hb hx

/-- A run of the formatter that succeeds leaves a formatted image. -/
theorem formatImage_ok (hp : w.pending = []) (h : formatImage options host t w = .ok sb t' w') :
    ∃ g base, Layout options sb g ∧ Formatted sb g host base w'.durable ∧ w'.size = sb.totalBlocks.toNat ∧
      w'.pending = [] ∧ ∀ a, a ≠ 0 → base a = resized sb.totalBlocks.toNat w a := by
  have hsys : ∀ {op : Op} {t₁ t₂ : Unit} {v v' : Disk},
    syscall Op.text op t₁ v = .ok () t₂ v' → v.Same v' :=
    fun hv => (Ends.ok (ends_syscall Op.text) hv).2
  unfold formatImage at h
  obtain ⟨layout, t₁, w₁, h1, r1⟩ := bind_ok.mp h
  obtain ⟨hl, rfl, rfl⟩ := ofExcept_ok.mp h1
  obtain ⟨u₂, t₂, w₂, h2, r2⟩ := bind_ok.mp r1
  obtain ⟨u₃, t₃, w₃, h3, r3⟩ := bind_ok.mp r2
  obtain ⟨created, t₄, w₄, h4, r4⟩ := bind_ok.mp r3
  obtain ⟨-, rfl, rfl⟩ := ofExcept_ok.mp h4
  obtain ⟨u₅, t₅, w₅, h5, r5⟩ := bind_ok.mp r4
  obtain ⟨u₆, t₆, w₆, h6, r6⟩ := bind_ok.mp r5
  obtain ⟨u₇, t₇, w₇, h7, r7⟩ := bind_ok.mp r6
  obtain ⟨u₈, t₈, w₈, h8, r8⟩ := bind_ok.mp r7
  obtain ⟨u₉, t₉, w₉, h9, r9⟩ := bind_ok.mp r8
  obtain ⟨u₁₀, t₁₀, w₁₀, h10, r10⟩ := bind_ok.mp r9
  cases r10
  have hlayout := (formatLayout_ok (orText_eq_ok.mp hl)).identity host created
  have hsame := (((hsys h2).trans (hsys h3)).trans (hsys h5)).trans (hsys h6)
  obtain ⟨k1, k2, k3⟩ := prepareImage_ok (hsame.pending.trans hp) h7
  obtain ⟨k4, k5, k6⟩ := ftruncate_ok k2 h8
  have h9 := hsys h9
  obtain ⟨k7, k8, k9⟩ := publishImage_ok hlayout (h9.pending.trans k5) h10
  refine ⟨layout.2, w₉.durable, hlayout, k7, ?_, k9, fun a ha => ?_⟩
  · rw [k8, h9.size, k4, hlayout.blocks]
  · rw [h9.durable, k6, hlayout.blocks]
    unfold resized
    rw [k1, hsame.size, k3 a ha, hsame.durable]

end Run

/-! ## The journal of a formatted image -/

section Journal

variable {options : MkfsOptions} {sb : Superblock} {g : RequestLedgerGeometry} {host : MkfsHost} {base d : Image}

/-- Both control copies hold the control of an empty journal. -/
theorem Formatted.controlOf (h : Formatted sb g host base d) (hl : Layout options sb g) (copy : ControlCopy) :
    controlOf sb d copy = some (formattedControl sb) := by
  obtain ⟨hv, hr⟩ := formattedControl_valid hl.regions
  unfold Eufs.controlOf
  rw [h.controls copy, usableControl_eq_some]
  exact ⟨decodeControl_controlBytes hv, rfl, hr⟩

theorem Formatted.selects (h : Formatted sb g host base d) (hl : Layout options sb g) :
    Controls sb d (formattedControl sb) .kA := by
  have hp : Paired (formattedControl sb) (Eufs.controlOf sb d .kB) := fun p hp => by
    rw [h.controlOf hl .kB] at hp
    exact Or.inr (Option.some.inj hp).symm
  exact ⟨selectControl_of_paired_a hl.regions.three_le_ringBlocks (h.controlOf hl .kA) hp, hp⟩

theorem Formatted.opens (h : Formatted sb g host base d) (hl : Layout options sb g) :
    Opens sb.totalBlocks.toNat d sb (formattedControl sb) .kA := by
  refine ⟨h.superblock, ?_, rfl, (h.selects hl).selected⟩
  rw [hl.features]
  split_ifs <;> decide

theorem Formatted.keepsRing (h : Formatted sb g host base d) (hl : Layout options sb g) : KeepsRing sb base d := by
  intro i hi
  obtain ⟨-, -, -, h4, h5, h6, -, -⟩ := hl.regions.chain
  have hlt := hl.regions.ringBlock_lt_stop hi
  simp only [Region.stop] at hlt
  have hge : sb.journal.start + 2 ≤ sb.ringBlock i := by
    simp only [ringBlock, kJournalControlBlockCount]
    omega
  exact h.rest _ (by omega) (fun copy he => controlBlock_ne_ringBlock he.symm) fun _ => Or.inl (by omega)

end Journal

/-! ## Images without a ledger -/

section Plain

variable {options : MkfsOptions} {sb : Superblock} {g : RequestLedgerGeometry} (hl : Layout options sb g)

/-- The parts of an image without a ledger. -/
def plainBytes (sb : Superblock) (g : RequestLedgerGeometry) (host : MkfsHost) : FormatBytes :=
  ⟨inodeBytes (formattedRoot sb g host), Bytes.zero _, Bytes.zero _, controlBytes (formattedControl sb)⟩

include hl

theorem formatBytes_plain (he : ¬ g.enabled) (host : MkfsHost) :
    formatBytes sb g host = .ok (plainBytes sb g host) := by
  have hsize : (formattedRoot sb g host).size = 0 := if_neg he
  have hdir : S_ISDIR (formattedRoot sb g host).mode := by
    show S_ISDIR (S_IFDIR ||| 0o755)
    decide
  have hroot : encodeInode (formattedRoot sb g host) = .ok (inodeBytes (formattedRoot sb g host)) := by
    refine encodeInode_eq_ok.mpr ⟨⟨?_, Or.inr hdir, by rw [hsize]; decide⟩, rfl⟩
    show sb.rootInode ≠ 0
    rw [hl.root]
    decide
  have hcontrol : encodeControl (formattedControl sb) = .ok (controlBytes (formattedControl sb)) :=
    encodeControl_eq_ok.mpr ⟨(formattedControl_valid hl.regions).1, rfl⟩
  rw [formatBytes, ledgerBytesOf, if_neg he, hroot, hcontrol]
  rfl

theorem Layout.encodes : ∃ x, encodeSuperblock sb = .ok x := by
  simp only [encodeSuperblock, validateSuperblock_eq_ok.mpr hl.regions]
  exact ⟨_, rfl⟩

theorem plain_formatted (he : ¬ g.enabled) (host : MkfsHost) (base : Image) : Formatted sb g host base
    (formattedImage sb g (plainBytes sb g host) ((encodeSuperblock sb).toOption.getD (Bytes.zero _)) base) := by
  obtain ⟨x, hx⟩ := hl.encodes
  rw [hx]
  exact formattedImage_formatted hl (formatBytes_plain hl he host) hx

end Plain

/-! ## A small image -/

/-- Sixteen blocks, six of them journal. -/
def sampleOptions : MkfsOptions := ⟨"eufs.img", 65536, 32, 6, 0, false⟩

def sampleHost : MkfsHost := ⟨Bytes.zero 16, 0, 0, 0, 0⟩

def sampleLedger : RequestLedgerGeometry := ⟨0, 0, 0, 0, 0, 0⟩

def sampleSuperblock : Superblock :=
  formattedSuperblock ⟨16, 32, 1, ⟨1, 1⟩, ⟨2, 1⟩, ⟨3, 1⟩, ⟨4, 6⟩, ⟨10, 6⟩, 0, 0, 0,
    Bytes.zero 16, 0⟩ sampleHost 0

/-- The image that formatting a new file with these options gives. -/
def sampleImage : Image :=
  formattedImage sampleSuperblock sampleLedger
    ⟨inodeBytes (formattedRoot sampleSuperblock sampleLedger sampleHost), Bytes.zero _, Bytes.zero _,
      controlBytes (formattedControl sampleSuperblock)⟩
    ((encodeSuperblock sampleSuperblock).toOption.getD (Bytes.zero _)) fun _ => Bytes.zero _

theorem sampleLayout : Layout sampleOptions sampleSuperblock sampleLedger :=
  (@formatLayout_ok sampleOptions _ _ (by rfl)).identity sampleHost 0

theorem sampleBytes : formatBytes sampleSuperblock sampleLedger sampleHost =
    .ok (plainBytes sampleSuperblock sampleLedger sampleHost) :=
  formatBytes_plain sampleLayout (by decide) sampleHost

theorem sampleImage_formatted :
    Formatted sampleSuperblock sampleLedger sampleHost (fun _ => Bytes.zero _) sampleImage :=
  plain_formatted sampleLayout (by decide) sampleHost _

/-- On a host that serves every call the formatter returns, on a new file and on one that is overwritten. -/
theorem completes_formatImage {layout : Superblock × RequestLedgerGeometry} {created : UInt64}
    {bytes : FormatBytes} (hlayout : formatLayout options = .ok layout) (htime : currentTimeNs host = .ok created)
    (hbytes : formatBytes (formattedSuperblock layout.1 host created) layout.2 host = .ok bytes) (w : Disk) :
    Completes (formatImage options host) () w fun sb _ w' => sb = formattedSuperblock layout.1 host created ∧
      w'.size = options.imageSizeBytes.toNat / kBlockSize := by
  obtain ⟨x, hx⟩ := ((formatLayout_ok hlayout).identity host created).encodes
  refine completes_bind (completes_ofExcept (orText_eq_ok.mpr hlayout) (completes_bind (completes_syscall _ ?_)))
  refine completes_bind (completes_syscall _ (completes_bind (completes_ofExcept (orText_eq_ok.mpr htime) ?_)))
  refine completes_bind (completes_syscall _ (completes_bind (completes_syscall _ (completes_bind ?_))))
  have hprepare : ∀ w : Disk, Completes (prepareImage options.force) () w fun _ _ _ => True := fun w => by
    cases options.force with
    | false => exact completes_pure trivial
    | true => exact completes_bind (completes_writeAll (by decide) (completes_onFail (completes_fdatasync _ trivial)))
  refine (hprepare _).mono fun _ _ w₁ _ =>
    completes_bind (completes_ftruncate _ (completes_bind (completes_syscall _ ?_)))
  refine completes_bind (completes_bind (completes_ofExcept (orText_eq_ok.mpr hbytes) (completes_bind ?_)))
  refine Completes.mono (completes_forEach (fun _ _ w => w.size = options.imageSizeBytes.toNat / kBlockSize)
    (fun _ _ _ _ h => completes_writeAll (by decide) h) _ _ _ rfl) fun _ _ w hw => ?_
  refine completes_bind (completes_onFail (completes_fdatasync _ ?_))
  refine completes_bind (completes_ofExcept (orText_eq_ok.mpr hx) (completes_bind (completes_writeAll (by decide) ?_)))
  exact completes_onFail (completes_fdatasync _ (completes_pure ⟨rfl, hw⟩))

theorem completes_formatImage_sample (force : Bool) (w : Disk) :
    Completes (formatImage { sampleOptions with force := force } sampleHost) () w
      fun sb _ w' => sb = sampleSuperblock ∧ w'.size = 16 := by
  have hlayout : formatLayout { sampleOptions with force := force } =
      .ok (⟨16, 32, 1, ⟨1, 1⟩, ⟨2, 1⟩, ⟨3, 1⟩, ⟨4, 6⟩, ⟨10, 6⟩, 0, 0, 0, Bytes.zero 16, 0⟩,
      sampleLedger) := by
    cases force <;> rfl
  have hblocks : ({ sampleOptions with force := force } : MkfsOptions).imageSizeBytes.toNat / kBlockSize = 16 := by
    cases force <;> rfl
  have hrun := completes_formatImage hlayout rfl sampleBytes w
  rw [hblocks] at hrun
  exact hrun

end Eufs
