import Eufs.Storage.Allocator

/-!
# Eufs.Storage.Reservation — reservations that roll back

A planner holds the bits it takes in `BitmapReservation` objects.  An object clears its bit when it is destroyed, unless
`keepReserved` was called; moving an object moves the responsibility.  `Reservations` is one allocator with the objects
that exist, and `Run` an arbitrary sequence of operations on them.

What a run has decided is a list of entries, the bits that were kept and the bits that were released.  At every point
the bitmap is the initial one with the entries carried out, and with the bits of the live reservations on top of it
(`Accounted`).
-/

namespace Eufs

open BitmapAllocator Function Bitmap

theorem Bitmap.ext_testBit {bm bm' : Bitmap} (h : ∀ b, bm.testBit b = bm'.testBit b) : bm = bm' := by
  funext k
  refine UInt8.toBitVec_inj.mp (BitVec.eq_of_getLsbD_eq fun i hi => ?_)
  have hbit := h (8 * k + i)
  rwa [testBit, testBit, show (8 * k + i) / 8 = k by omega, show (8 * k + i) % 8 = i by omega] at hbit

/-- `active` as long as the object clears `bit` when it is destroyed. -/
structure BitmapReservation where
  active : Bool := false
  bit : ℕ := 0
  deriving DecidableEq

/-- The bit that the object is responsible for. -/
def BitmapReservation.held (r : BitmapReservation) : Option ℕ := if r.active then some r.bit else none

/-- Called for a reservation that dies; range and bit are checked once more. -/
def BitmapAllocator.rollbackReservation (a : BitmapAllocator) (bit : ℕ) : BitmapAllocator :=
  if a.firstAllocatableBit ≤ bit ∧ bit < a.validBits ∧ a.bitmap.testBit bit then
    { a with bitmap := a.bitmap.clearBit bit }
  else
    a

/-- An allocator and the reservation objects that exist, by address. -/
structure Reservations where
  allocator : BitmapAllocator
  object : ℕ → Option BitmapReservation

namespace Reservations

variable (h : Reservations)

def put (i : ℕ) (r : Option BitmapReservation) : Reservations := { h with object := update h.object i r }

def rollbackIfActive (i : ℕ) : Reservations :=
  match h.object i with
  | some ⟨true, bit⟩ => { h with allocator := h.allocator.rollbackReservation bit }.put i (some {})
  | _ => h

def construct (i : ℕ) : Reservations := h.put i (some {})

def destroy (i : ℕ) : Reservations := (h.rollbackIfActive i).put i none

def keepReserved (i : ℕ) : Reservations := h.put i ((h.object i).map fun r => { r with active := false })

/-- The new object takes over the bit and the responsibility of the old one. -/
def moveConstruct (dst src : ℕ) : Reservations := (h.put dst (h.object src)).put src (some {})

def moveAssign (dst src : ℕ) : Reservations :=
  if dst = src then h else (h.rollbackIfActive dst).moveConstruct dst src

/-- Without an object at `i` the output is a null pointer. -/
def reserve (i : ℕ) : Except Failure Unit × Reservations :=
  match h.object i with
  | some ⟨false, _⟩ =>
    match h.allocator.reserve with
    | .error failure => (.error failure, h)
    | .ok (bit, a) => (.ok (), { h with allocator := a }.put i (some ⟨true, bit⟩))
  | _ => (.error ⟨.EINVAL, "reservation output is null or already active"⟩, h)

def releaseAllocated (bit : ℕ) : Except Failure Unit × Reservations :=
  match h.allocator.releaseAllocated bit with
  | .error failure => (.error failure, h)
  | .ok a => (.ok (), { h with allocator := a })

/-- The bit in the hands of the object at `i`. -/
def held (i : ℕ) : Option ℕ := (h.object i).bind BitmapReservation.held

end Reservations

/-! ## Runs -/

inductive ReservationOp where
  | construct (i : ℕ)
  | reserve (i : ℕ)
  | keepReserved (i : ℕ)
  | moveConstruct (dst src : ℕ)
  | moveAssign (dst src : ℕ)
  | destroy (i : ℕ)
  | releaseAllocated (bit : ℕ)

/-- What is decided about a bit for good. -/
inductive BitEntry where
  | kept (bit : ℕ)
  | released (bit : ℕ)
  deriving DecidableEq

def BitEntry.bit : BitEntry → ℕ
  | kept b => b
  | released b => b

/-- The bitmap with the entry carried out. -/
def BitEntry.apply (bm : Bitmap) : BitEntry → Bitmap
  | kept b => bm.setBit b
  | released b => bm.clearBit b

/-- The bitmap with the entries carried out, and nothing else. -/
def settle (bm : Bitmap) (es : List BitEntry) : Bitmap := es.foldl BitEntry.apply bm

namespace Reservations

/-- Objects exist when they are used and do not when they are made; a bit in the hands of a live reservation is not
released. -/
def Legal (h : Reservations) : ReservationOp → Prop
  | .construct i => h.object i = none
  | .reserve _ => True
  | .keepReserved i => h.object i ≠ none
  | .moveConstruct dst src => h.object dst = none ∧ h.object src ≠ none
  | .moveAssign dst src => h.object dst ≠ none ∧ h.object src ≠ none
  | .destroy i => h.object i ≠ none
  | .releaseAllocated bit => ∀ i, h.held i ≠ some bit

def step (h : Reservations) : ReservationOp → Reservations
  | .construct i => h.construct i
  | .reserve i => (h.reserve i).2
  | .keepReserved i => h.keepReserved i
  | .moveConstruct dst src => h.moveConstruct dst src
  | .moveAssign dst src => h.moveAssign dst src
  | .destroy i => h.destroy i
  | .releaseAllocated bit => (h.releaseAllocated bit).2

/-- The entries an operation leaves. -/
def entries (h : Reservations) : ReservationOp → List BitEntry
  | .keepReserved i => (h.held i).toList.map .kept
  | .releaseAllocated bit => if (h.releaseAllocated bit).1 = .ok () then [.released bit] else []
  | .construct _ | .reserve _ | .moveConstruct _ _ | .moveAssign _ _ | .destroy _ => []

/-- What the operations can have reached from `a`, with the entries they left. -/
inductive Run (a : BitmapAllocator) : Reservations → List BitEntry → Prop
  | start : Run a ⟨a, fun _ => none⟩ []
  | step {h es} (op : ReservationOp) : Run a h es → h.Legal op → Run a (h.step op) (es ++ h.entries op)

end Reservations

/-! ## The account -/

/-- Bitmap `current` is the initial one with the entries carried out, and with the bits that are held on top. -/
structure Accounted (a : BitmapAllocator) (current : BitmapAllocator) (held : ℕ → Option ℕ) (es : List BitEntry) :
    Prop where
  geometry : current = { a with bitmap := current.bitmap }
  bits : ∀ b, current.bitmap.testBit b = true ↔ (settle a.bitmap es).testBit b = true ∨ ∃ i, held i = some b
  unsettled : ∀ i b, held i = some b → (settle a.bitmap es).testBit b = false
  distinct : ∀ i j b, held i = some b → held j = some b → i = j
  range : ∀ i b, held i = some b → a.firstAllocatableBit ≤ b ∧ b < a.validBits
  inside : ∀ e ∈ es, a.firstAllocatableBit ≤ e.bit ∧ e.bit < a.validBits
  balance : ∀ b, ((settle a.bitmap es).testBit b).toNat + es.count (.released b) =
    (a.bitmap.testBit b).toNat + es.count (.kept b)

theorem settle_append (bm : Bitmap) (es : List BitEntry) (e : BitEntry) :
    settle bm (es ++ [e]) = e.apply (settle bm es) := by
  simp [settle, List.foldl_append]

/-- What is held without the object at `i` was held with it. -/
theorem held_of_erase {held : ℕ → Option ℕ} {i j x : ℕ} (h : update held i none j = some x) :
    held j = some x ∧ j ≠ i := by
  by_cases hji : j = i
  · subst hji
    simp at h
  · rw [update_of_ne hji] at h
    exact ⟨h, hji⟩

namespace Accounted

variable {a c : BitmapAllocator} {held : ℕ → Option ℕ} {es : List BitEntry} {i : ℕ} {b : ℕ}

theorem start (a : BitmapAllocator) : Accounted a a (fun _ => none) [] where
  geometry := rfl
  bits b := by simp [settle]
  unsettled i b h := nomatch h
  distinct i j b h := nomatch h
  range i b h := nomatch h
  inside e he := nomatch he
  balance b := rfl

variable (h : Accounted a c held es)

include h

theorem first_eq : c.firstAllocatableBit = a.firstAllocatableBit := by rw [h.geometry]

theorem valid_eq : c.validBits = a.validBits := by rw [h.geometry]

theorem fits (ha : a.Fits) : c.Fits := by
  rw [h.geometry]
  exact ⟨ha.size, ha.first⟩

theorem testBit_held (hi : held i = some b) : c.bitmap.testBit b = true := (h.bits b).mpr (Or.inr ⟨i, hi⟩)

theorem live_erase (hi : held i = some b) (x : ℕ) :
    (∃ j, update held i none j = some x) ↔ (∃ j, held j = some x) ∧ x ≠ b := by
  constructor
  · rintro ⟨j, hj⟩
    obtain ⟨hj, hne⟩ := held_of_erase hj
    exact ⟨⟨j, hj⟩, fun hx => hne (h.distinct j i b (hx ▸ hj) hi)⟩
  · rintro ⟨⟨j, hj⟩, hx⟩
    refine ⟨j, ?_⟩
    rw [update_of_ne, hj]
    rintro rfl
    exact hx (Option.some.inj (hj.symm.trans hi))

theorem rollback (hi : held i = some b) :
    Accounted a (c.rollbackReservation b) (update held i none) es := by
  have hset := h.testBit_held hi
  have hrange := h.range i b hi
  have hroll : c.rollbackReservation b = { c with bitmap := c.bitmap.clearBit b } := by
    rw [rollbackReservation, h.first_eq, h.valid_eq, if_pos ⟨hrange.1, hrange.2, hset⟩]
  rw [hroll]
  refine ⟨?_, fun x => ?_, fun j x hj => h.unsettled j x (held_of_erase hj).1,
    fun j k x hj hk => h.distinct j k x (held_of_erase hj).1 (held_of_erase hk).1,
    fun j x hj => h.range j x (held_of_erase hj).1, h.inside, h.balance⟩
  · rw [h.geometry]
  · show (c.bitmap.clearBit b).testBit x = true ↔ _
    rw [testBit_clearBit, Bool.and_eq_true, h.bits, h.live_erase hi]
    by_cases hx : x = b
    · subst hx
      simp [h.unsettled i x hi]
    · simp [hx]

theorem keep (hi : held i = some b) : Accounted a c (update held i none) (es ++ [.kept b]) := by
  have hsettled : ∀ x, (settle a.bitmap (es ++ [.kept b])).testBit x =
      (decide (x = b) || (settle a.bitmap es).testBit x) := fun x => by
    rw [settle_append]
    exact testBit_setBit
  refine ⟨h.geometry, fun x => ?_, fun j x hj => ?_, fun j k x hj hk =>
    h.distinct j k x (held_of_erase hj).1 (held_of_erase hk).1, fun j x hj => h.range j x (held_of_erase hj).1,
    fun e he => ?_, fun x => ?_⟩
  · rw [h.bits, hsettled, h.live_erase hi]
    by_cases hx : x = b
    · subst hx
      simp only [decide_true, Bool.true_or, true_or, iff_true]
      exact Or.inr ⟨i, hi⟩
    · simp [hx]
  · obtain ⟨-, hx⟩ := (h.live_erase hi x).mp ⟨j, hj⟩
    rw [hsettled, h.unsettled j x (held_of_erase hj).1]
    simp [hx]
  · rcases List.mem_append.mp he with he | he
    · exact h.inside e he
    · rw [List.mem_singleton.mp he]
      exact h.range i b hi
  · have hbalance := h.balance x
    rw [hsettled, List.count_append, List.count_append]
    by_cases hx : x = b
    · subst hx
      rw [h.unsettled i x hi] at hbalance
      simp at hbalance ⊢
      omega
    · simpa [hx, Ne.symm hx] using hbalance

theorem move {dst src : ℕ} (hdst : held dst = none) (hne : dst ≠ src) :
    Accounted a c (update (update held dst (held src)) src none) es := by
  -- the object that has the bit afterwards had it before, or its source had
  have hold : ∀ {j x}, update (update held dst (held src)) src none j = some x →
      held (if j = dst then src else j) = some x ∧ j ≠ src := fun {j x} hj => by
    obtain ⟨hj, hjs⟩ := held_of_erase hj
    by_cases hjd : j = dst
    · subst hjd
      rw [update_self] at hj
      simpa [hjs] using hj
    · rw [update_of_ne hjd] at hj
      simpa [hjd, hjs] using hj
  have hlive : ∀ x, (∃ j, update (update held dst (held src)) src none j = some x) ↔
      ∃ j, held j = some x := fun x => by
    constructor
    · rintro ⟨j, hj⟩
      exact ⟨_, (hold hj).1⟩
    · rintro ⟨j, hj⟩
      by_cases hjs : j = src
      · refine ⟨dst, ?_⟩
        rw [update_of_ne hne, update_self, ← hjs, hj]
      · refine ⟨j, ?_⟩
        have hjd : j ≠ dst := by
          rintro rfl
          rw [hdst] at hj
          cases hj
        rw [update_of_ne hjs, update_of_ne hjd, hj]
  refine ⟨h.geometry, fun x => ?_, fun j x hj => h.unsettled _ x (hold hj).1, fun j k x hj hk => ?_,
    fun j x hj => h.range _ x (hold hj).1, h.inside, h.balance⟩
  · rw [h.bits, hlive]
  · obtain ⟨hj, hjs⟩ := hold hj
    obtain ⟨hk, hks⟩ := hold hk
    have hjk := h.distinct _ _ x hj hk
    split_ifs at hjk with h1 h2 h2
    · rw [h1, h2]
    · exact absurd hjk.symm hks
    · exact absurd hjk hjs
    · exact hjk

/-- The lowest free bit goes to an object that holds none. -/
theorem reserve (ha : a.Fits) (hi : held i = none) {rest : List ℕ} (hfree : c.free = b :: rest) :
    Accounted a (c.taking [b]) (update held i (some b)) es := by
  obtain ⟨hrange, hclear⟩ := (mem_free (h.fits ha)).mp (hfree ▸ List.mem_cons_self)
  rw [h.first_eq, h.valid_eq] at hrange
  have hnot : ¬ ((settle a.bitmap es).testBit b = true ∨ ∃ j, held j = some b) := by
    rw [← h.bits, hclear]
    simp
  obtain ⟨hsettled, hlive⟩ := not_or.mp hnot
  have hold : ∀ {j x}, update held i (some b) j = some x → (j = i ∧ x = b) ∨ (j ≠ i ∧ held j = some x) :=
    fun {j x} hj => by
      by_cases hji : j = i
      · subst hji
        rw [update_self] at hj
        exact Or.inl ⟨rfl, (Option.some.inj hj).symm⟩
      · rw [update_of_ne hji] at hj
        exact Or.inr ⟨hji, hj⟩
  refine ⟨?_, fun x => ?_, fun j x hj => ?_, fun j k x hj hk => ?_, fun j x hj => ?_, h.inside, h.balance⟩
  · rw [h.geometry]
    rfl
  · show (c.bitmap.setBit b).testBit x = true ↔ _
    rw [testBit_setBit, Bool.or_eq_true, decide_eq_true_eq, h.bits]
    constructor
    · rintro (rfl | hs | ⟨j, hj⟩)
      · exact Or.inr ⟨i, update_self ..⟩
      · exact Or.inl hs
      · refine Or.inr ⟨j, ?_⟩
        rw [update_of_ne, hj]
        rintro rfl
        rw [hi] at hj
        cases hj
    · rintro (hs | ⟨j, hj⟩)
      · exact Or.inr (Or.inl hs)
      · rcases hold hj with ⟨-, rfl⟩ | ⟨-, hj⟩
        · exact Or.inl rfl
        · exact Or.inr (Or.inr ⟨j, hj⟩)
  · rcases hold hj with ⟨-, rfl⟩ | ⟨-, hj⟩
    · exact Bool.eq_false_iff.mpr hsettled
    · exact h.unsettled j x hj
  · rcases hold hj with ⟨hji, hx⟩ | ⟨-, hj⟩ <;> rcases hold hk with ⟨hki, hx'⟩ | ⟨-, hk⟩
    · rw [hji, hki]
    · exact absurd ⟨k, hx ▸ hk⟩ hlive
    · exact absurd ⟨j, hx' ▸ hj⟩ hlive
    · exact h.distinct j k x hj hk
  · rcases hold hj with ⟨-, rfl⟩ | ⟨-, hj⟩
    · exact hrange
    · exact h.range j x hj

theorem release (hlive : ∀ i, held i ≠ some b) (hset : c.bitmap.testBit b = true)
    (hrange : a.firstAllocatableBit ≤ b ∧ b < a.validBits) :
    Accounted a (c.dropping [b]) held (es ++ [.released b]) := by
  have hsettled : ∀ x, (settle a.bitmap (es ++ [.released b])).testBit x =
      (!decide (x = b) && (settle a.bitmap es).testBit x) := fun x => by
    rw [settle_append]
    exact testBit_clearBit
  have hwas : (settle a.bitmap es).testBit b = true := by
    rcases (h.bits b).mp hset with hs | ⟨i, hi⟩
    · exact hs
    · exact absurd hi (hlive i)
  have hother : ∀ {i x}, held i = some x → x ≠ b := fun {i x} hi hx => hlive i (hx ▸ hi)
  refine ⟨?_, fun x => ?_, fun j x hj => ?_, h.distinct, h.range, fun e he => ?_, fun x => ?_⟩
  · rw [h.geometry]
    rfl
  · show (c.bitmap.clearBit b).testBit x = true ↔ _
    rw [testBit_clearBit, hsettled, Bool.and_eq_true, h.bits, Bool.and_eq_true, and_or_left]
    refine or_congr Iff.rfl ⟨And.right, fun hx => ⟨?_, hx⟩⟩
    obtain ⟨j, hj⟩ := hx
    simpa using hother hj
  · rw [hsettled, h.unsettled j x hj, Bool.and_false]
  · rcases List.mem_append.mp he with he | he
    · exact h.inside e he
    · rw [List.mem_singleton.mp he]
      exact hrange
  · have hbalance := h.balance x
    rw [hsettled, List.count_append, List.count_append]
    by_cases hx : x = b
    · subst hx
      rw [hwas] at hbalance
      simp at hbalance ⊢
      omega
    · simpa [hx, Ne.symm hx] using hbalance

end Accounted

/-! ## Every operation keeps the account -/

namespace Reservations

variable {a : BitmapAllocator} {h : Reservations} {es : List BitEntry} {i : ℕ}

theorem held_put (h : Reservations) (i : ℕ) (r : Option BitmapReservation) :
    (h.put i r).held = update h.held i (r.bind BitmapReservation.held) := by
  funext j
  by_cases hj : j = i
  · subst hj
    simp [held, put]
  · simp [held, put, update_of_ne hj]

/-- The account of the allocator and of the objects. -/
def Books (a : BitmapAllocator) (h : Reservations) (es : List BitEntry) : Prop := Accounted a h.allocator h.held es

theorem Books.put_idle (hb : Books a h es) (hi : h.held i = none) {r : Option BitmapReservation}
    (hr : r.bind BitmapReservation.held = none) : Books a (h.put i r) es := by
  have hsame : (h.put i r).held = h.held := by
    rw [held_put, hr, update_eq_self_iff.mpr hi.symm]
  show Accounted a h.allocator (h.put i r).held es
  rw [hsame]
  exact hb

theorem rollbackIfActive_eq (h : Reservations) (i : ℕ) : h.rollbackIfActive i =
    match h.held i with
    | some bit => { h with allocator := h.allocator.rollbackReservation bit }.put i (some {})
    | none => h := by
  unfold rollbackIfActive held
  rcases h.object i with _ | ⟨active, bit⟩
  · rfl
  · cases active <;> rfl

theorem held_rollbackIfActive (h : Reservations) (i : ℕ) :
    (h.rollbackIfActive i).held = update h.held i none := by
  rw [rollbackIfActive_eq]
  cases hi : h.held i with
  | none => exact (update_eq_self_iff.mpr hi.symm).symm
  | some bit => exact held_put _ _ _

theorem Books.rollbackIfActive (hb : Books a h es) (i : ℕ) : Books a (h.rollbackIfActive i) es := by
  show Accounted a (h.rollbackIfActive i).allocator (h.rollbackIfActive i).held es
  rw [held_rollbackIfActive, rollbackIfActive_eq]
  cases hi : h.held i with
  | none =>
    rw [update_eq_self_iff.mpr hi.symm]
    exact hb
  | some bit => exact hb.rollback hi

theorem held_destroy (h : Reservations) (i : ℕ) : (h.destroy i).held = update h.held i none := by
  rw [destroy, held_put, held_rollbackIfActive]
  simp

theorem Books.destroy (hb : Books a h es) (i : ℕ) : Books a (h.destroy i) es :=
  (hb.rollbackIfActive i).put_idle (by rw [held_rollbackIfActive, update_self]) rfl

theorem Books.keepReserved (hb : Books a h es) (i : ℕ) :
    Books a (h.keepReserved i) (es ++ (h.held i).toList.map .kept) := by
  have hidle : ((h.object i).map fun r => { r with active := false }).bind BitmapReservation.held = none := by
    cases h.object i <;> rfl
  cases hi : h.held i with
  | none =>
    rw [Option.toList_none, List.map_nil, List.append_nil]
    exact hb.put_idle hi hidle
  | some b =>
    show Accounted a h.allocator (h.keepReserved i).held _
    rw [Reservations.keepReserved, held_put, hidle]
    exact hb.keep hi

theorem Books.moveConstruct (hb : Books a h es) {dst src : ℕ} (hdst : h.held dst = none) (hne : dst ≠ src) :
    Books a (h.moveConstruct dst src) es := by
  show Accounted a h.allocator (h.moveConstruct dst src).held es
  rw [Reservations.moveConstruct, held_put, held_put]
  exact hb.move hdst hne

theorem Books.reserve (ha : a.Fits) (hb : Books a h es) (i : ℕ) : Books a (h.reserve i).2 es := by
  unfold Reservations.reserve
  split
  · rename_i bit hobj
    have hi : h.held i = none := by simp [held, hobj, BitmapReservation.held]
    have hreserve := reserve_eq (Accounted.fits hb ha)
    cases hfree : h.allocator.free with
    | nil =>
      rw [hfree] at hreserve
      rw [hreserve]
      exact hb
    | cons b rest =>
      rw [hfree] at hreserve
      rw [hreserve]
      show Accounted a (h.allocator.taking [b]) (Reservations.put _ _ _).held es
      rw [held_put]
      exact Accounted.reserve hb ha hi hfree
  · exact hb

theorem Books.releaseAllocated (hb : Books a h es) {b : ℕ} (hlive : ∀ i, h.held i ≠ some b) :
    Books a (h.releaseAllocated b).2
      (es ++ if (h.releaseAllocated b).1 = .ok () then [.released b] else []) := by
  unfold Reservations.releaseAllocated
  cases hr : h.allocator.releaseAllocated b with
  | error failure => simpa using hb
  | ok c =>
    obtain ⟨hrange, hr⟩ := reject_bind_eq_ok.mp hr
    obtain ⟨hset, hr⟩ := reject_bind_eq_ok.mp hr
    cases hr
    rw [Accounted.first_eq hb, Accounted.valid_eq hb] at hrange
    simp only [if_true]
    exact Accounted.release hb hlive (not_not.mp hset) (by omega)

theorem Books.step (ha : a.Fits) (hb : Books a h es) {op : ReservationOp} (hop : h.Legal op) :
    Books a (h.step op) (es ++ h.entries op) := by
  have hnone : ∀ {i}, h.object i = none → h.held i = none := fun {i} hi => by simp [held, hi]
  cases op with
  | construct i =>
    rw [entries, List.append_nil]
    exact hb.put_idle (hnone hop) rfl
  | reserve i =>
    rw [entries, List.append_nil]
    exact Books.reserve ha hb i
  | keepReserved i => exact hb.keepReserved i
  | moveConstruct dst src =>
    rw [entries, List.append_nil]
    refine hb.moveConstruct (hnone hop.1) ?_
    rintro rfl
    exact hop.2 hop.1
  | moveAssign dst src =>
    rw [entries, List.append_nil]
    show Books a (h.moveAssign dst src) es
    unfold moveAssign
    split_ifs with hne
    · exact hb
    · refine (hb.rollbackIfActive dst).moveConstruct ?_ hne
      rw [held_rollbackIfActive, update_self]
  | destroy i =>
    rw [entries, List.append_nil]
    exact hb.destroy i
  | releaseAllocated bit => exact hb.releaseAllocated hop

theorem Run.books (ha : a.Fits) (hrun : Run a h es) : Books a h es := by
  induction hrun with
  | start => exact Accounted.start a
  | step op _ hop ih => exact ih.step ha hop

/-! ## What a run can rely on -/

theorem isLeast_free_head {c : BitmapAllocator} (hc : c.Fits) {b : ℕ} {rest : List ℕ} (hfree : c.free = b :: rest) :
    IsLeast {x | c.firstAllocatableBit ≤ x ∧ x < c.validBits ∧ c.bitmap.testBit x = false} b := by
  have hsorted : c.free.Pairwise (· < ·) := List.Pairwise.filter _ List.pairwise_lt_range'
  rw [hfree, List.pairwise_cons] at hsorted
  have hmem : ∀ x, x ∈ b :: rest ↔
      (c.firstAllocatableBit ≤ x ∧ x < c.validBits) ∧ c.bitmap.testBit x = false := fun x => by
    rw [← hfree]
    exact mem_free hc
  constructor
  · obtain ⟨⟨h1, h2⟩, h3⟩ := (hmem b).mp List.mem_cons_self
    exact ⟨h1, h2, h3⟩
  · rintro x ⟨h1, h2, h3⟩
    rcases List.mem_cons.mp ((hmem x).mpr ⟨⟨h1, h2⟩, h3⟩) with rfl | hx
    · exact le_rfl
    · exact (hsorted.1 x hx).le

/-- An inactive reservation gets the lowest free bit, if there is one. -/
theorem Books.reserve_lowest (ha : a.Fits) (hb : Books a h es) {bit : ℕ} (hobj : h.object i = some ⟨false, bit⟩) :
    (∀ b, ((h.reserve i).1 = .ok () ∧ (h.reserve i).2.held i = some b) ↔
      IsLeast {x | a.firstAllocatableBit ≤ x ∧ x < a.validBits ∧ h.allocator.bitmap.testBit x = false} b) ∧
    ((h.reserve i).1 = .error ⟨.ENOSPC, "bitmap has no free allocatable bit"⟩ ↔
      ∀ x, a.firstAllocatableBit ≤ x → x < a.validBits → h.allocator.bitmap.testBit x = true) := by
  have hfits := Accounted.fits hb ha
  have hmem : ∀ x, x ∈ h.allocator.free ↔
      (a.firstAllocatableBit ≤ x ∧ x < a.validBits) ∧ h.allocator.bitmap.testBit x = false := fun x => by
    rw [mem_free hfits, Accounted.first_eq hb, Accounted.valid_eq hb]
  have hreserve := reserve_eq hfits
  rw [Reservations.reserve, hobj]
  cases hfree : h.allocator.free with
  | nil =>
    rw [hfree] at hreserve hmem
    simp only [hreserve]
    have hfull : ∀ x, a.firstAllocatableBit ≤ x → x < a.validBits → h.allocator.bitmap.testBit x = true :=
      fun x h1 h2 => by
        by_contra hx
        exact List.not_mem_nil ((hmem x).mpr ⟨⟨h1, h2⟩, Bool.eq_false_iff.mpr hx⟩)
    refine ⟨fun b => ⟨fun hc => (nomatch hc.1), fun hleast => ?_⟩, ⟨fun _ => hfull, fun _ => trivial⟩⟩
    obtain ⟨h1, h2, h3⟩ := hleast.1
    rw [hfull b h1 h2] at h3
    cases h3
  | cons b rest =>
    have hleast := isLeast_free_head hfits hfree
    rw [Accounted.first_eq hb, Accounted.valid_eq hb] at hleast
    rw [hfree] at hreserve
    simp only [hreserve, held_put, update_self]
    refine ⟨fun x => ⟨?_, fun hx => ⟨trivial, ?_⟩⟩, ⟨fun hc => (nomatch hc), fun hfull => ?_⟩⟩
    · rintro ⟨-, hx⟩
      obtain rfl : b = x := by simpa [BitmapReservation.held] using hx
      exact hleast
    · rw [hx.unique hleast]
      rfl
    · obtain ⟨h1, h2, h3⟩ := hleast.1
      rw [hfull b h1 h2] at h3
      cases h3

/-- Bits outside the allocatable range are never touched. -/
theorem Books.testBit_outside (hb : Books a h es) {b : ℕ} (hout : b < a.firstAllocatableBit ∨ a.validBits ≤ b) :
    h.allocator.bitmap.testBit b = a.bitmap.testBit b := by
  have hcount : ∀ e : BitEntry, e.bit = b → es.count e = 0 := fun e he => by
    refine List.count_eq_zero.mpr fun hmem => ?_
    have := Accounted.inside hb e hmem
    omega
  have hsettled : (settle a.bitmap es).testBit b = a.bitmap.testBit b := by
    have hbalance := Accounted.balance hb b
    rw [hcount _ rfl, hcount _ rfl, Nat.add_zero, Nat.add_zero] at hbalance
    cases h1 : (settle a.bitmap es).testBit b <;> cases h2 : a.bitmap.testBit b <;> simp [h1, h2] at hbalance ⊢
  have hbits := Accounted.bits hb b
  rw [hsettled] at hbits
  refine Bool.eq_iff_iff.mpr (hbits.trans ⟨?_, Or.inl⟩)
  rintro (hs | ⟨i, hi⟩)
  · exact hs
  · have := Accounted.range hb i b hi
    omega

theorem Books.count (hb : Books a h es) (b : ℕ) :
    (h.allocator.bitmap.testBit b).toNat + es.count (.released b) =
      (a.bitmap.testBit b).toNat + es.count (.kept b) + {i | h.held i = some b}.ncard := by
  have hbalance := Accounted.balance hb b
  have hbits := Accounted.bits hb b
  by_cases hlive : ∃ i, h.held i = some b
  · obtain ⟨i, hi⟩ := hlive
    have hone : {j | h.held j = some b} = {i} := by
      ext j
      exact ⟨fun hj => Accounted.distinct hb j i b hj hi, fun hj => by rw [Set.mem_singleton_iff.mp hj]; exact hi⟩
    rw [Accounted.unsettled hb i b hi] at hbalance
    rw [hone, Set.ncard_singleton, hbits.mpr (Or.inr ⟨i, hi⟩), ← hbalance, Bool.toNat_true, Bool.toNat_false]
    omega
  · have hnone : {j | h.held j = some b} = ∅ := by
      ext j
      exact ⟨fun hj => hlive ⟨j, hj⟩, fun hj => absurd hj (Set.notMem_empty j)⟩
    have hsame : h.allocator.bitmap.testBit b = (settle a.bitmap es).testBit b :=
      Bool.eq_iff_iff.mpr (hbits.trans (or_iff_left hlive))
    rw [hnone, Set.ncard_empty, hsame, hbalance, Nat.add_zero]

/-- Objects that are destroyed in any order leave nothing of what they held. -/
theorem Books.destroy_all (hb : Books a h es) : ∀ (is : List ℕ), (∀ i, h.held i ≠ none → i ∈ is) →
    (is.foldl Reservations.destroy h).allocator.bitmap = settle a.bitmap es := by
  intro is hall
  induction is generalizing h with
  | nil =>
    refine ext_testBit fun b => Bool.eq_iff_iff.mpr ((Accounted.bits hb b).trans (or_iff_left ?_))
    rintro ⟨i, hi⟩
    exact List.not_mem_nil (hall i (by rw [hi]; simp))
  | cons i is ih =>
    refine ih (hb.destroy i) fun j hj => ?_
    rw [held_destroy] at hj
    have hji : j ≠ i := fun hc => hj (hc ▸ update_self ..)
    rw [update_of_ne hji] at hj
    exact (List.mem_cons.mp (hall j hj)).resolve_left hji

/-- Reservations account for every bit: counted with the releases, the keeps and the live reservations, a bit is what
it was at first. -/
theorem reservations_account {a : BitmapAllocator} (hvalid : a.validate = .ok ()) {h : Reservations}
    {es : List BitEntry} (hrun : Run a h es) :
    (∀ b, (h.allocator.bitmap.testBit b).toNat + es.count (.released b) =
      (a.bitmap.testBit b).toNat + es.count (.kept b) + {i | h.held i = some b}.ncard) ∧
    (∀ i b, h.held i = some b → (a.firstAllocatableBit ≤ b ∧ b < a.validBits) ∧
      ∀ j, h.held j = some b → j = i) ∧
    (∀ i bit, h.object i = some ⟨false, bit⟩ →
      (∀ b, ((h.reserve i).1 = .ok () ∧ (h.reserve i).2.held i = some b) ↔
        IsLeast {x | a.firstAllocatableBit ≤ x ∧ x < a.validBits ∧ h.allocator.bitmap.testBit x = false} b) ∧
      ((h.reserve i).1 = .error ⟨.ENOSPC, "bitmap has no free allocatable bit"⟩ ↔
        ∀ x, a.firstAllocatableBit ≤ x → x < a.validBits → h.allocator.bitmap.testBit x = true)) ∧
    (∀ i bit, h.object i = some ⟨true, bit⟩ →
      h.reserve i = (.error ⟨.EINVAL, "reservation output is null or already active"⟩, h)) ∧
    (∀ b, b < a.firstAllocatableBit ∨ a.validBits ≤ b →
      h.allocator.bitmap.testBit b = a.bitmap.testBit b) ∧
    ∀ is : List ℕ, (∀ i, h.held i ≠ none → i ∈ is) →
      (is.foldl Reservations.destroy h).allocator.bitmap = settle a.bitmap es := by
  have ha := fits_of_validate hvalid
  have hb := hrun.books ha
  refine ⟨hb.count, fun i b hi => ⟨Accounted.range hb i b hi, fun j hj => Accounted.distinct hb j i b hj hi⟩,
    fun i bit hobj => Books.reserve_lowest ha hb hobj, fun i bit hobj => ?_, fun b => hb.testBit_outside,
    hb.destroy_all⟩
  rw [Reservations.reserve, hobj]

/-- Eight free bits. -/
def eightBits : BitmapAllocator := ⟨fun _ => 0, 1, 8, 0⟩

theorem eightBits_validate : eightBits.validate = .ok () := by decide

/-- One object, constructed and then reserved into. -/
def oneReserved : Reservations :=
  ((⟨eightBits, fun _ => none⟩ : Reservations).step (.construct 0)).step (.reserve 0)

theorem oneReserved_run : Run eightBits oneReserved [] :=
  .step (.reserve 0) (.step (.construct 0) .start rfl) trivial

/-- Reserving into a reservation that is still active fails although bits are free. -/
theorem reserve_active_fails : eightBits.validate = .ok () ∧ Run eightBits oneReserved [] ∧
    oneReserved.allocator.bitmap.testBit 1 = false ∧
    (oneReserved.reserve 0).1 = .error ⟨.EINVAL, "reservation output is null or already active"⟩ :=
  ⟨eightBits_validate, oneReserved_run, by decide, by decide⟩

theorem reservations_account_one : oneReserved.held 0 = some 0 ∧
    (oneReserved.allocator.bitmap.testBit 0).toNat = {i | oneReserved.held i = some 0}.ncard ∧
    ([0].foldl Reservations.destroy oneReserved).allocator.bitmap = eightBits.bitmap := by
  obtain ⟨hcount, -, -, -, -, hrestore⟩ := reservations_account eightBits_validate oneReserved_run
  refine ⟨by decide, by simpa [eightBits, testBit] using hcount 0, hrestore [0] fun i hi => ?_⟩
  have hobj : oneReserved.object = update (update (fun _ => none) 0 (some {})) 0 (some ⟨true, 0⟩) :=
    rfl
  by_contra hne
  rw [List.mem_singleton] at hne
  exact hi (by rw [held, hobj, update_of_ne hne, update_of_ne hne]; rfl)

end Reservations

end Eufs
