import Mathlib.Tactic
import Mathlib.Data.List.GetD

/-!
# Eufs.Base.Crc — cyclic redundancy codes on a reflected register

A register of `w` bits is shifted right once for every bit of the message; the polynomial is added when a one leaves.
If the polynomial has its top bit, the shift is injective, so a difference between two registers never disappears.  Up
to `w` bits of the message can be added to the register at once (`run_eq`), and so two messages that differ in a window
of `w` bits only leave the window with different registers (`run_ne_of_within`).
-/

namespace Eufs.Crc

variable {w : ℕ}

/-- A bit as a word. -/
def bit (w : ℕ) (x : Bool) : BitVec w := if x then 1#w else 0#w

/-- One shift of the register. -/
def shift (p c : BitVec w) : BitVec w := (c >>> 1) ^^^ if c.getLsbD 0 then p else 0#w

/-- The register after one bit of the message. -/
def feed (p c : BitVec w) (x : Bool) : BitVec w := shift p (c ^^^ bit w x)

/-- The register after a message. -/
def run (p c : BitVec w) (l : List Bool) : BitVec w := l.foldl (feed p) c

/-- The bits as a word, the first bit lowest. -/
def word (w : ℕ) : List Bool → BitVec w
  | [] => 0#w
  | x :: l => bit w x ^^^ (word w l <<< 1)

theorem getLsbD_bit {x : Bool} {i : ℕ} (hi : i < w) : (bit w x).getLsbD i = (decide (i = 0) && x) := by
  cases x <;> simp [bit, hi]

theorem getLsbD_word : ∀ {l : List Bool} {i : ℕ}, i < w → (word w l).getLsbD i = l.getD i false
  | [], i, hi => by simp [word]
  | x :: l, 0, hi => by simp [word, getLsbD_bit hi]
  | x :: l, i + 1, hi => by
    rw [word, BitVec.getLsbD_xor, getLsbD_bit hi, BitVec.getLsbD_shiftLeft]
    simp [hi, getLsbD_word (show i < w by omega)]

/-- Messages that fit into the register are told apart by their words. -/
theorem word_inj {l l' : List Bool} (hlen : l.length = l'.length) (hw : l.length ≤ w) (h : word w l = word w l') :
    l = l' := by
  refine List.ext_getElem hlen fun i hi hi' => ?_
  have hbit := congrArg (BitVec.getLsbD · i) h
  simpa [getLsbD_word (show i < w by omega), hi, hi'] using hbit

variable {p c d : BitVec w}

theorem run_append (l l' : List Bool) : run p c (l ++ l') = run p (run p c l) l' := List.foldl_append ..

theorem shift_xor : shift p (c ^^^ d) = shift p c ^^^ shift p d := by
  refine BitVec.eq_of_getLsbD_eq fun i hi => ?_
  simp only [shift, BitVec.getLsbD_xor, BitVec.getLsbD_ushiftRight]
  cases c.getLsbD 0 <;> cases d.getLsbD 0 <;> simp [Bool.xor_left_comm, Bool.xor_comm]

/-- The bit that leaves the register can be seen at its top. -/
theorem getLsbD_shift (hp : p.msb = true) {i : ℕ} (hi : i + 1 = w) : (shift p c).getLsbD i = c.getLsbD 0 := by
  have htop : p.getLsbD i = true := by
    rw [BitVec.msb_eq_getLsbD_last] at hp
    rwa [show i = w - 1 by omega]
  have hout : c.getLsbD (1 + i) = false := BitVec.getLsbD_of_ge _ _ (by omega)
  rw [shift, BitVec.getLsbD_xor, BitVec.getLsbD_ushiftRight, hout]
  cases c.getLsbD 0 <;> simp [htop]

theorem shift_injective (hp : p.msb = true) : Function.Injective (shift p) := by
  intro c d h
  have hlow : c.getLsbD 0 = d.getLsbD 0 := by
    rcases Nat.eq_zero_or_pos w with rfl | hw
    · simp
    · rw [← getLsbD_shift hp (show w - 1 + 1 = w by omega), h, getLsbD_shift hp (by omega)]
  have hrest : c >>> 1 = d >>> 1 := by
    unfold shift at h
    rw [hlow] at h
    exact (BitVec.xor_left_inj _).mp h
  refine BitVec.eq_of_getLsbD_eq fun i hi => ?_
  cases i with
  | zero => exact hlow
  | succ i =>
    have hbit := congrArg (BitVec.getLsbD · i) hrest
    simpa [Nat.add_comm] using hbit

theorem run_injective (hp : p.msb = true) (l : List Bool) : Function.Injective (run p · l) := by
  induction l with
  | nil => exact fun _ _ h => h
  | cons x l ih =>
    intro c d h
    exact (BitVec.xor_left_inj _).mp (shift_injective hp (ih h))

/-- A word without its top bit comes back from one shift to the left. -/
theorem shift_shiftLeft (hc : ∀ i, i + 1 = w → c.getLsbD i = false) : shift p (c <<< 1) = c := by
  have hlow : (c <<< 1).getLsbD 0 = false := by simp
  rw [shift, hlow, if_neg (by simp), BitVec.xor_zero]
  refine BitVec.eq_of_getLsbD_eq fun i hi => ?_
  rcases Nat.lt_or_ge (i + 1) w with h | h
  · rw [BitVec.getLsbD_ushiftRight, BitVec.getLsbD_shiftLeft]
    simp [Nat.add_comm 1 i, h]
  · simp [Nat.add_comm 1 i, show ¬ i + 1 < w by omega, hc i (by omega)]

/-- A message that fits into the register can be added to it at once. -/
theorem run_eq {l : List Bool} (hl : l.length ≤ w) : run p c l = (shift p)^[l.length] (c ^^^ word w l) := by
  induction l generalizing c with
  | nil => simp [run, word]
  | cons x l ih =>
    rw [List.length_cons] at hl
    have hword : shift p (word w l <<< 1) = word w l := shift_shiftLeft fun i hi => by
      rw [getLsbD_word (by omega), List.getD_eq_default _ _ (by omega)]
    calc run p c (x :: l) = run p (feed p c x) l := rfl
      _ = (shift p)^[l.length] (feed p c x ^^^ word w l) := ih (by omega)
      _ = (shift p)^[l.length] (shift p (c ^^^ word w (x :: l))) := by
        rw [feed, word, ← BitVec.xor_assoc, @shift_xor _ _ (c ^^^ bit w x), hword]
      _ = _ := rfl

/-- Two messages that differ in a window of `w` bits only end in different registers. -/
theorem run_ne_of_within (hp : p.msb = true) {l l' : List Bool} (hlen : l.length = l'.length) (hne : l ≠ l') {k : ℕ}
    (hsame : ∀ i, i < k ∨ k + w ≤ i → l.getD i false = l'.getD i false) : run p c l ≠ run p c l' := by
  have hat : ∀ i, i < k ∨ k + w ≤ i → l[i]? = l'[i]? := fun i hi => by
    have h := hsame i hi
    simp only [List.getD_eq_getElem?_getD] at h
    rcases Nat.lt_or_ge i l.length with hin | hout
    · have hin' : i < l'.length := by omega
      simpa [hin, hin'] using h
    · rw [List.getElem?_eq_none hout, List.getElem?_eq_none (by omega)]
  have hbefore : l.take k = l'.take k := List.ext_getElem? fun i => by
    rw [List.getElem?_take, List.getElem?_take]
    split_ifs with hi
    · exact hat i (Or.inl hi)
    · rfl
  have hafter : l.drop (k + w) = l'.drop (k + w) := List.ext_getElem? fun i => by
    rw [List.getElem?_drop, List.getElem?_drop]
    exact hat _ (Or.inr (by omega))
  have hsplit : ∀ l : List Bool, l = l.take k ++ ((l.drop k).take w ++ l.drop (k + w)) := fun l => by
    rw [← List.drop_drop, List.take_append_drop, List.take_append_drop]
  intro h
  rw [hsplit l, hsplit l', hbefore, hafter, run_append, run_append, run_append, run_append] at h
  -- the registers agree before the window, and from the end of the message back to the end of the window
  have hwindow := run_injective hp _ h
  have hlength : ((l.drop k).take w).length = ((l'.drop k).take w).length := by simp [hlen]
  rw [run_eq (List.length_take_le _ _), run_eq (List.length_take_le _ _), hlength] at hwindow
  have hword := (BitVec.xor_right_inj _).mp ((shift_injective hp).iterate _ hwindow)
  have hmiddle := word_inj hlength (List.length_take_le _ _) hword
  exact hne (by rw [hsplit l, hsplit l', hbefore, hmiddle, hafter])

/-! ### Messages of bytes -/

/-- The bits of a byte, least significant first. -/
def byteBits (x : UInt8) : List Bool := (List.range 8).map x.toNat.testBit

/-- The bits of a byte string. -/
def bits (l : List UInt8) : List Bool := l.flatMap byteBits

/-- Bit `i` of a byte string: bytes in ascending order, least significant bit first. -/
def bitAt (l : List UInt8) (i : ℕ) : Bool := (l.getD (i / 8) 0).toNat.testBit (i % 8)

@[simp] theorem length_byteBits (x : UInt8) : (byteBits x).length = 8 := by simp [byteBits]

theorem length_bits (l : List UInt8) : (bits l).length = 8 * l.length := by
  simp [bits, List.length_flatMap, Nat.mul_comm]

theorem getD_byteBits {x : UInt8} {i : ℕ} (hi : i < 8) : (byteBits x).getD i false = x.toNat.testBit i := by
  simp [byteBits, hi]

theorem getD_bits : ∀ (l : List UInt8) (i : ℕ), (bits l).getD i false = bitAt l i
  | [], i => by simp [bits, bitAt]
  | x :: l, i => by
    have hcons : bits (x :: l) = byteBits x ++ bits l := rfl
    rw [hcons]
    rcases Nat.lt_or_ge i 8 with hi | hi
    · rw [List.getD_append _ _ _ _ (by simpa using hi), getD_byteBits hi, bitAt, Nat.div_eq_of_lt hi,
        Nat.mod_eq_of_lt hi]
      rfl
    · rw [List.getD_append_right _ _ _ _ (by simpa using hi), length_byteBits, getD_bits l (i - 8), bitAt, bitAt,
        show i / 8 = (i - 8) / 8 + 1 by omega, show (i - 8) % 8 = i % 8 by omega]
      rfl

theorem byteBits_injective : Function.Injective byteBits := by
  intro x y h
  refine UInt8.toNat_inj.mp (Nat.eq_of_testBit_eq fun i => ?_)
  rcases Nat.lt_or_ge i 8 with hi | hi
  · rw [← getD_byteBits hi, h, getD_byteBits hi]
  · have hbig : ∀ z : UInt8, z.toNat < 2 ^ i := fun z =>
      z.toNat_lt.trans_le (Nat.pow_le_pow_right (by omega) hi)
    rw [Nat.testBit_lt_two_pow (hbig x), Nat.testBit_lt_two_pow (hbig y)]

theorem bits_injective : ∀ {l l' : List UInt8}, bits l = bits l' → l = l'
  | [], [], _ => rfl
  | [], y :: l', h => by simpa [length_bits] using congrArg List.length h
  | x :: l, [], h => by simpa [length_bits] using congrArg List.length h
  | x :: l, y :: l', h => by
    obtain ⟨h1, h2⟩ := List.append_inj (show byteBits x ++ bits l = byteBits y ++ bits l' from h) (by simp)
    rw [byteBits_injective h1, bits_injective h2]

/-- The strings differ in a window of `w` bits at most. -/
def DifferWithin (w : ℕ) (l l' : List UInt8) : Prop := ∃ k, ∀ i, i < k ∨ k + w ≤ i → bitAt l i = bitAt l' i

/-- A burst of at most `w` bits changes the register at the end of the message. -/
theorem run_bits_ne (hp : p.msb = true) {l l' : List UInt8} (hlen : l.length = l'.length) (hne : l ≠ l')
    (hburst : DifferWithin w l l') : run p c (bits l) ≠ run p c (bits l') := by
  obtain ⟨k, hk⟩ := hburst
  have hsame : ∀ i, i < k ∨ k + w ≤ i → (bits l).getD i false = (bits l').getD i false := fun i hi => by
    rw [getD_bits, getD_bits, hk i hi]
  exact run_ne_of_within hp (by rw [length_bits, length_bits, hlen]) (fun h => hne (bits_injective h)) hsame

end Eufs.Crc
