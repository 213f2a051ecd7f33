import Mathlib.Tactic
import Mathlib.Data.List.Range

/-!
# Eufs.Base.Loops — loops that may not end

A `while` loop is run with a bound on the number of its passes and gives nothing when the bound is reached before its
condition fails.  A loop with a decreasing measure ends for every large bound; a loop that keeps an invariant under
which its condition holds ends for none.  The counters of `for` loops have a fixed width and wrap.
-/

namespace Eufs

variable {σ τ : Type}

/-- `while (cond s) s = step s` with at most `fuel` passes; the body may not end either. -/
def whileLoop (cond : σ → Bool) (step : σ → Option σ) : ℕ → σ → Option σ
  | 0, s => if cond s then none else some s
  | fuel + 1, s => if cond s then (step s).bind (whileLoop cond step fuel) else some s

section Rules

variable {cond : σ → Bool} {step : σ → Option σ}

theorem whileLoop_of_false {s : σ} (h : cond s = false) (fuel : ℕ) : whileLoop cond step fuel s = some s := by
  cases fuel with
  | zero => simp [whileLoop, h]
  | succ fuel => simp [whileLoop, h]

/-- A loop with a measure ends, and what its passes do not change is the result. -/
theorem map_whileLoop (μ : σ → ℕ) (out : σ → τ) (result : σ → τ)
    (hend : ∀ s, cond s = false → out s = result s)
    (hstep : ∀ s, cond s = true → ∃ t, step s = some t ∧ μ t < μ s ∧ result t = result s) :
    ∀ fuel s, μ s ≤ fuel → (whileLoop cond step fuel s).map out = some (result s) := by
  intro fuel
  induction fuel with
  | zero =>
    intro s hs
    cases hc : cond s with
    | false => rw [whileLoop_of_false hc, Option.map_some, hend s hc]
    | true =>
      obtain ⟨t, -, hlt, -⟩ := hstep s hc
      omega
  | succ fuel ih =>
    intro s hs
    cases hc : cond s with
    | false => rw [whileLoop_of_false hc, Option.map_some, hend s hc]
    | true =>
      obtain ⟨t, ht, hlt, hres⟩ := hstep s hc
      rw [whileLoop, if_pos hc, ht, Option.bind_some, ih t (by omega), hres]

/-- A loop whose condition holds under an invariant does not end. -/
theorem whileLoop_eq_none (I : σ → Prop) (hcond : ∀ s, I s → cond s = true)
    (hstep : ∀ s t, I s → step s = some t → I t) : ∀ fuel s, I s → whileLoop cond step fuel s = none := by
  intro fuel
  induction fuel with
  | zero =>
    intro s hs
    rw [whileLoop, if_pos (hcond s hs)]
  | succ fuel ih =>
    intro s hs
    rw [whileLoop, if_pos (hcond s hs)]
    cases ht : step s with
    | none => rfl
    | some t => exact ih t (hstep s t hs ht)

end Rules

/-! ## Programs with a bound on every loop -/

/-- With every large bound the program ends with `x`. -/
def Halts (run : ℕ → Option τ) (x : τ) : Prop := ∃ bound, ∀ fuel, bound ≤ fuel → run fuel = some x

section Halting

variable {υ α : Type} {run : ℕ → Option τ} {x : τ}

theorem halts_of_le {bound : ℕ} (h : ∀ fuel, bound ≤ fuel → run fuel = some x) : Halts run x := ⟨bound, h⟩

theorem halts_some (x : τ) : Halts (fun _ => some x) x := ⟨0, fun _ _ => rfl⟩

theorem Halts.bind {next : τ → ℕ → Option υ} {y : υ} (h : Halts run x) (h' : Halts (next x) y) :
    Halts (fun fuel => run fuel >>= fun a => next a fuel) y := by
  obtain ⟨b, hb⟩ := h
  obtain ⟨b', hb'⟩ := h'
  refine ⟨max b b', fun fuel hfuel => ?_⟩
  dsimp only
  rw [hb fuel (by omega)]
  exact hb' fuel (by omega)

theorem Halts.map (h : Halts run x) (g : τ → υ) : Halts (fun fuel => (run fuel).map g) (g x) := by
  obtain ⟨b, hb⟩ := h
  exact ⟨b, fun fuel hfuel => congrArg (Option.map g) (hb fuel hfuel)⟩

theorem halts_foldlM {body : ℕ → σ → α → Option σ} {f : σ → α → σ}
    (h : ∀ s a, Halts (fun fuel => body fuel s a) (f s a)) :
    ∀ (l : List α) (s : σ), Halts (fun fuel => l.foldlM (body fuel) s) (l.foldl f s)
  | [], s => halts_some s
  | a :: l, s => (h s a).bind (halts_foldlM h l (f s a))

theorem halts_whileLoop {cond : σ → Bool} {step : σ → Option σ} (μ : σ → ℕ) (out : σ → τ)
    (result : σ → τ) (hend : ∀ s, cond s = false → out s = result s)
    (hstep : ∀ s, cond s = true → ∃ t, step s = some t ∧ μ t < μ s ∧ result t = result s) (s : σ) :
    Halts (fun fuel => (whileLoop cond step fuel s).map out) (result s) :=
  ⟨μ s, fun fuel hfuel => map_whileLoop μ out result hend hstep fuel s hfuel⟩

theorem Halts.exists_isSome (h : Halts run x) : ∃ fuel, (run fuel).isSome := by
  obtain ⟨b, hb⟩ := h
  exact ⟨b, by rw [hb b le_rfl, Option.isSome_some]⟩

end Halting

/-! ## Counters of fixed width -/

variable (w : ℕ) (body : σ → ℕ → σ)

/-- `for (n = first; n <= last; ++n) s = body(s, n)` with a counter of `w` bits. -/
def forUpTo (last fuel first : ℕ) (s : σ) : Option σ :=
  (whileLoop (fun x : ℕ × σ => decide (x.1 ≤ last)) (fun x => some ((x.1 + 1) % 2 ^ w, body x.2 x.1)) fuel
    (first, s)).map Prod.snd

/-- `for (n = first; n < stop; ++n) s = body(s, n)` with a counter of `w` bits. -/
def forBelow (stop fuel first : ℕ) (s : σ) : Option σ :=
  (whileLoop (fun x : ℕ × σ => decide (x.1 < stop)) (fun x => some ((x.1 + 1) % 2 ^ w, body x.2 x.1)) fuel
    (first, s)).map Prod.snd

variable {w body}

/-- A loop below a bound that the counter can hold runs through the numbers. -/
theorem forBelow_eq {stop fuel first : ℕ} {s : σ} (hstop : stop < 2 ^ w) (hfuel : stop - first ≤ fuel) :
    forBelow w body stop fuel first s = some ((List.range' first (stop - first)).foldl body s) := by
  refine map_whileLoop (fun x : ℕ × σ => stop - x.1) Prod.snd
    (fun x : ℕ × σ => (List.range' x.1 (stop - x.1)).foldl body x.2) (fun x hx => ?_) (fun x hx => ?_) fuel
    (first, s) hfuel
  · have hx : stop - x.1 = 0 := by
      have := of_decide_eq_false hx
      omega
    simp only [hx, List.range'_zero, List.foldl_nil]
  · have hx : x.1 < stop := of_decide_eq_true hx
    have hmod : (x.1 + 1) % 2 ^ w = x.1 + 1 := Nat.mod_eq_of_lt (by omega)
    have hlen : stop - x.1 = (stop - (x.1 + 1)) + 1 := by omega
    refine ⟨_, rfl, ?_, ?_⟩
    · simp only [hmod]
      omega
    · simp only [hmod, hlen, List.range'_succ, List.foldl_cons]

/-- A loop up to a bound below the largest value of the counter. -/
theorem forUpTo_eq {last fuel first : ℕ} {s : σ} (hlast : last + 1 < 2 ^ w) (hfuel : last + 1 - first ≤ fuel) :
    forUpTo w body last fuel first s = some ((List.range' first (last + 1 - first)).foldl body s) := by
  have hcond : (fun x : ℕ × σ => decide (x.1 ≤ last)) = fun x => decide (x.1 < last + 1) := by
    funext x
    rw [decide_eq_decide]
    omega
  rw [forUpTo, hcond]
  exact forBelow_eq hlast hfuel

/-- A loop up to the largest value of the counter does not end. -/
theorem forUpTo_eq_none {last fuel first : ℕ} {s : σ} (hlast : last + 1 = 2 ^ w) (hfirst : first ≤ last) :
    forUpTo w body last fuel first s = none := by
  rw [forUpTo, whileLoop_eq_none (fun x : ℕ × σ => x.1 ≤ last) (fun x hx => decide_eq_true hx)
    (fun x t _ ht => ?_) fuel (first, s) hfirst, Option.map_none]
  obtain rfl := Option.some.inj ht
  have := Nat.mod_lt (x.1 + 1) (Nat.two_pow_pos w)
  show (x.1 + 1) % 2 ^ w ≤ last
  omega

theorem filter_range_ge (p : ℕ → Bool) (first stop : ℕ) :
    (List.range stop).filter (fun k => decide (first ≤ k) && p k) = (List.range' first (stop - first)).filter p := by
  have hlow : ∀ k, k < first → ¬ (decide (first ≤ k) && p k) = true := by
    intro k hk hc
    rw [Bool.and_eq_true, decide_eq_true_eq] at hc
    omega
  by_cases h : first ≤ stop
  · have hsplit : List.range stop = List.range' 0 first ++ List.range' first (stop - first) := by
      have happend : List.range' 0 first ++ List.range' (0 + first) (stop - first) =
        List.range' 0 (first + (stop - first)) :=
        List.range'_append_1
      rw [Nat.zero_add, Nat.add_sub_cancel' h] at happend
      rw [happend, List.range_eq_range']
    have hnil : (List.range' 0 first).filter (fun k => decide (first ≤ k) && p k) = [] :=
      List.filter_eq_nil_iff.mpr fun k hk => hlow k (by have := (List.mem_range'_1.mp hk).2; omega)
    rw [hsplit, List.filter_append, hnil, List.nil_append]
    refine List.filter_congr fun k hk => ?_
    rw [decide_eq_true (List.mem_range'_1.mp hk).1, Bool.true_and]
  · rw [Nat.sub_eq_zero_of_le (by omega), List.range'_zero, List.filter_nil]
    exact List.filter_eq_nil_iff.mpr fun k hk => hlow k (by have := List.mem_range.mp hk; omega)

end Eufs
