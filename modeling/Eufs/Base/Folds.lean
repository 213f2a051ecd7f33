import Mathlib.Data.List.Basic

/-!
# Eufs.Base.Folds — loops as folds

Loops of the sources are left folds over a state, or folds that may fail.  These rules carry a fact from one pass
through the body to the whole loop.
-/

namespace Eufs

section State

variable {σ α τ : Type} {f : σ → α → σ}

theorem foldl_observe (g : σ → τ) (h : ∀ s x, g (f s x) = g s) : ∀ (l : List α) (s : σ), g (l.foldl f s) = g s
  | [], _ => rfl
  | x :: l, s => (foldl_observe g h l (f s x)).trans (h s x)

/-- What every pass needs to hold before it, the loop needs. -/
theorem foldl_reflects (C : σ → Prop) (h : ∀ s x, C (f s x) → C s) :
    ∀ (l : List α) (s : σ), C (l.foldl f s) → C s
  | [], _, hc => hc
  | x :: l, s, hc => h s x (foldl_reflects C h l (f s x) hc)

/-- A preorder that every pass respects relates the ends of the loop. -/
theorem foldl_rel (R : σ → σ → Prop) (hrefl : ∀ s, R s s) (htrans : ∀ {s t u}, R s t → R t u → R s u)
    (h : ∀ s x, R s (f s x)) : ∀ (l : List α) (s : σ), R s (l.foldl f s)
  | [], s => hrefl s
  | x :: l, s => htrans (h s x) (foldl_rel R hrefl htrans h l (f s x))

theorem foldl_range_induction {f : σ → ℕ → σ} (P : ℕ → σ → Prop) {n : ℕ} {s : σ} (h0 : P 0 s)
    (hs : ∀ k < n, ∀ t, P k t → P (k + 1) (f t k)) : P n ((List.range n).foldl f s) := by
  induction n with
  | zero => exact h0
  | succ n ih =>
    rw [List.range_succ, List.foldl_append, List.foldl_cons, List.foldl_nil]
    exact hs n (by omega) _ (ih fun k hk => hs k (by omega))

end State

section Failing

variable {ε σ α : Type}

theorem forM_eq_ok {f : α → Except ε Unit} : ∀ {l : List α}, l.forM f = .ok () ↔ ∀ x ∈ l, f x = .ok ()
  | [] => by simp [List.forM, pure, Except.pure]
  | x :: l => by
    rw [List.forM, List.forall_mem_cons, ← forM_eq_ok (l := l)]
    cases f x with
    | ok u => simp [bind, Except.bind]
    | error e => simp [bind, Except.bind]

/-- A counted loop that does not fail runs through the states `g`. -/
theorem foldlM_range_eq_ok {f : σ → ℕ → Except ε σ} (g : ℕ → σ) {n : ℕ}
    (h : ∀ k < n, f (g k) k = .ok (g (k + 1))) :
    (List.range n).foldlM f (g 0) = .ok (g n) := by
  induction n with
  | zero => rfl
  | succ n ih =>
    have hn := ih fun k hk => h k (by omega)
    rw [List.range_succ, List.foldlM_append, hn]
    show ([n].foldlM f (g n)) = .ok (g (n + 1))
    rw [List.foldlM_cons, h n (by omega)]
    rfl

/-- What every pass that succeeds keeps, a counted loop that succeeds keeps. -/
theorem foldlM_range_induction {f : σ → ℕ → Except ε σ} (P : ℕ → σ → Prop) {n : ℕ}
    {s t : σ} (h0 : P 0 s)
    (hs : ∀ k < n, ∀ t t', P k t → f t k = .ok t' → P (k + 1) t')
    (h : (List.range n).foldlM f s = .ok t) : P n t := by
  induction n generalizing t with
  | zero => cases h; exact h0
  | succ n ih =>
    rw [List.range_succ, List.foldlM_append] at h
    cases hm : (List.range n).foldlM f s with
    | error e => rw [hm] at h; cases h
    | ok m =>
      rw [hm] at h
      have hlast : f m n = .ok t := by
        have h : ([n].foldlM f m) = .ok t := h
        rw [List.foldlM_cons] at h
        cases hf : f m n with
        | error e => rw [hf] at h; cases h
        | ok m' => rw [hf] at h; exact h
      exact hs n (by omega) m t (ih (fun k hk => hs k (by omega)) hm) hlast

/-- Every failure of `x` satisfies `P`. -/
def Throws (P : ε → Prop) (x : Except ε α) : Prop := ∀ e, x = .error e → P e

variable {P : ε → Prop}

theorem throws_ok (a : α) : Throws P (.ok a : Except ε α) := fun _ h => by cases h

theorem throws_error {e : ε} (h : P e) : Throws P (.error e : Except ε α) := fun _ he => by cases he; exact h

theorem Throws.bind {β : Type} {x : Except ε α} {f : α → Except ε β} (hx : Throws P x)
    (hf : ∀ a, x = .ok a → Throws P (f a)) : Throws P (x >>= f) := by
  cases x with
  | ok a => exact hf a rfl
  | error e => exact throws_error (hx e rfl)

theorem throws_forM {f : α → Except ε Unit} :
    ∀ {l : List α}, (∀ x ∈ l, Throws P (f x)) → Throws P (l.forM f)
  | [], _ => throws_ok ()
  | x :: l, h => by
    obtain ⟨hx, hl⟩ := List.forall_mem_cons.mp h
    exact hx.bind fun _ _ => throws_forM hl

end Failing

end Eufs
