import Mathlib.Tactic
import Mathlib.Data.List.Basic

/-!
# Eufs.Base.Utf8 — byte strings that are UTF-8

`encode` is the encoding of a list of characters and a byte string is `Valid` when it is one.  A byte below 128 is
always a character of its own, so a valid string can be cut at such bytes (`Valid.split`), and a byte-wise rewriting
that leaves the other bytes alone and turns such bytes into such bytes keeps strings valid or invalid (`Rewriting`).
-/

namespace Eufs.Utf8

variable {x : UInt8} {a b : List UInt8}

def encode (l : List Char) : List UInt8 := l.flatMap String.utf8EncodeChar

/-- The bytes encode some characters. -/
def Valid (b : List UInt8) : Prop := ∃ l, encode l = b

/-- A byte that is a character of its own. -/
def Ascii (x : UInt8) : Prop := x.toNat < 128

instance (x : UInt8) : Decidable (Ascii x) := by unfold Ascii; infer_instance

@[simp] theorem encode_nil : encode [] = [] := rfl

theorem encode_cons (c : Char) (l : List Char) : encode (c :: l) = String.utf8EncodeChar c ++ encode l := rfl

@[simp] theorem encode_append (l l' : List Char) : encode (l ++ l') = encode l ++ encode l' := List.flatMap_append

theorem encodeChar_ascii {c : Char} (h : c.toNat < 128) : String.utf8EncodeChar c = [UInt8.ofNat c.toNat] := by
  unfold String.utf8EncodeChar
  exact if_pos (Nat.le_of_lt_succ h)

/-- The other characters are encoded in bytes from 128 on. -/
theorem not_ascii_of_mem {c : Char} (h : 128 ≤ c.toNat) (hx : x ∈ String.utf8EncodeChar c) : ¬ Ascii x := by
  have hv : ¬ c.val.toNat ≤ 127 := by
    have : 128 ≤ c.val.toNat := h
    omega
  unfold Ascii
  simp only [String.utf8EncodeChar, if_neg hv] at hx
  split_ifs at hx <;> simp only [List.mem_cons, List.not_mem_nil, or_false] at hx <;>
    rcases hx with rfl | rfl | rfl | rfl <;> simp only [UInt8.toNat_ofNat'] <;> omega

theorem lt_of_mem_encode {l : List Char} (h : x ∈ encode l) : x.toNat < 248 := by
  obtain ⟨c, -, hx⟩ := List.mem_flatMap.mp h
  simp only [String.utf8EncodeChar] at hx
  split_ifs at hx <;> simp only [List.mem_cons, List.not_mem_nil, or_false] at hx <;>
    rcases hx with rfl | rfl | rfl | rfl <;> simp only [UInt8.toNat_ofNat'] <;> omega

theorem Valid.append (ha : Valid a) (hb : Valid b) : Valid (a ++ b) := by
  obtain ⟨l, rfl⟩ := ha
  obtain ⟨l', rfl⟩ := hb
  exact ⟨l ++ l', encode_append l l'⟩

theorem valid_nil : Valid [] := ⟨[], rfl⟩

theorem toNat_ofNat {n : ℕ} (h : n < 128) : (Char.ofNat n).toNat = n := by
  have hvalid : n.isValidChar := Or.inl (Nat.lt_trans h (by decide))
  rw [Char.ofNat, dif_pos hvalid]
  rfl

theorem encode_ascii (h : Ascii x) : encode [Char.ofNat x.toNat] = [x] := by
  have hchar : (Char.ofNat x.toNat).toNat = x.toNat := toNat_ofNat h
  have hlt : (Char.ofNat x.toNat).toNat < 128 := by
    rw [hchar]
    exact h
  rw [encode_cons, encodeChar_ascii hlt, hchar, UInt8.ofNat_toNat]
  rfl

theorem valid_ascii (h : ∀ x ∈ b, Ascii x) : Valid b := by
  induction b with
  | nil => exact valid_nil
  | cons x b ih =>
    obtain ⟨hx, hb⟩ := List.forall_mem_cons.mp h
    exact Valid.append (a := [x]) ⟨_, encode_ascii hx⟩ (ih hb)

theorem Valid.split (hx : Ascii x) (h : Valid (a ++ x :: b)) : Valid a ∧ Valid b := by
  obtain ⟨l, h⟩ := h
  induction l generalizing a with
  | nil => simp at h
  | cons c l ih =>
    rw [encode_cons] at h
    rcases List.append_eq_append_iff.mp h with ⟨m, rfl, hm⟩ | ⟨m, hc, hm⟩
    · -- the cut lies behind the first character
      obtain ⟨ha, hb⟩ := ih hm
      exact ⟨Valid.append ⟨[c], by simp [encode]⟩ ha, hb⟩
    · cases m with
      | nil =>
        rw [List.nil_append] at hm
        rw [List.append_nil] at hc
        obtain ⟨-, hb⟩ := ih (a := []) hm.symm
        exact ⟨⟨[c], by simp [encode, hc]⟩, hb⟩
      | cons y m =>
        -- the byte belongs to the first character, which is that byte
        obtain ⟨rfl, rfl⟩ := List.cons.inj hm
        have hc128 : c.toNat < 128 := by
          by_contra hge
          exact not_ascii_of_mem (not_lt.mp hge) (hc ▸ List.mem_append_right _ List.mem_cons_self) hx
        rw [encodeChar_ascii hc128] at hc
        obtain ⟨rfl, hm⟩ : a = [] ∧ m = [] := by
          have hlen := congrArg List.length hc
          simp only [List.length_append, List.length_cons, List.length_nil] at hlen
          exact ⟨List.eq_nil_of_length_eq_zero (by omega), List.eq_nil_of_length_eq_zero (by omega)⟩
        rw [hm]
        exact ⟨valid_nil, l, rfl⟩

theorem Valid.of_ascii_append (ha : ∀ x ∈ a, Ascii x) (h : Valid (a ++ b)) : Valid b := by
  induction a with
  | nil => exact h
  | cons x a ih =>
    obtain ⟨hx, ha⟩ := List.forall_mem_cons.mp ha
    exact ih ha (Valid.split (a := []) hx h).2

/-- A rewriting of bytes that keeps the others and turns the bytes below 128 into such bytes. -/
structure Rewriting (f : UInt8 → List UInt8) : Prop where
  high : ∀ x, ¬ Ascii x → f x = [x]
  low : ∀ x, Ascii x → f x ≠ [] ∧ ∀ y ∈ f x, Ascii y

theorem Rewriting.flatMap_high {f : UInt8 → List UInt8} (hf : Rewriting f) (h : ∀ x ∈ b, ¬ Ascii x) :
    b.flatMap f = b := by
  induction b with
  | nil => rfl
  | cons x b ih =>
    obtain ⟨hx, hb⟩ := List.forall_mem_cons.mp h
    rw [List.flatMap_cons, hf.high x hx, ih hb]
    rfl

/-- A rewriting of bytes does to the encoding what `g` does to the characters. -/
theorem Rewriting.flatMap_encode {f : UInt8 → List UInt8} (hf : Rewriting f) {g : Char → List Char}
    (hlow : ∀ c, c.toNat < 128 → encode (g c) = f (UInt8.ofNat c.toNat))
    (hhigh : ∀ c, 128 ≤ c.toNat → g c = [c])
    (l : List Char) : (encode l).flatMap f = encode (l.flatMap g) := by
  induction l with
  | nil => rfl
  | cons c l ih =>
    rw [encode_cons, List.flatMap_append, ih, List.flatMap_cons, encode_append]
    congr 1
    rcases Nat.lt_or_ge c.toNat 128 with hc | hc
    · rw [encodeChar_ascii hc, hlow c hc, List.flatMap_singleton]
    · rw [hf.flatMap_high fun x => not_ascii_of_mem hc, hhigh c hc, encode_cons, encode_nil, List.append_nil]

/-- A string is its bytes up to the first one below 128, and the rest. -/
theorem exists_split (b : List UInt8) : (∀ x ∈ b, ¬ Ascii x) ∨
    ∃ a x t, b = a ++ x :: t ∧ (∀ y ∈ a, ¬ Ascii y) ∧ Ascii x := by
  induction b with
  | nil => exact Or.inl (by simp)
  | cons x b ih =>
    by_cases hx : Ascii x
    · exact Or.inr ⟨[], x, b, rfl, by simp, hx⟩
    · rcases ih with hb | ⟨a, y, t, rfl, ha, hy⟩
      · exact Or.inl (List.forall_mem_cons.mpr ⟨hx, hb⟩)
      · exact Or.inr ⟨x :: a, y, t, rfl, List.forall_mem_cons.mpr ⟨hx, ha⟩, hy⟩

theorem valid_of_flatMap {f : UInt8 → List UInt8} (hf : Rewriting f) (b : List UInt8) (h : Valid (b.flatMap f)) :
    Valid b := by
  rcases exists_split b with hb | ⟨a, x, t, rfl, ha, hx⟩
  · rwa [hf.flatMap_high hb] at h
  · obtain ⟨hne, hlow⟩ := hf.low x hx
    obtain ⟨y, ys, hy⟩ := List.exists_cons_of_ne_nil hne
    rw [List.flatMap_append, List.flatMap_cons, hf.flatMap_high ha, hy, List.cons_append] at h
    rw [hy] at hlow
    obtain ⟨hyx, hys⟩ := List.forall_mem_cons.mp hlow
    obtain ⟨hva, hrest⟩ := h.split hyx
    have ht := valid_of_flatMap hf t (hrest.of_ascii_append hys)
    exact hva.append (Valid.append (a := [x]) (valid_ascii (by simpa using hx)) ht)
termination_by b.length
decreasing_by simp_all; omega

end Eufs.Utf8
