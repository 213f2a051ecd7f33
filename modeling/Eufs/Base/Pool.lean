import Mathlib.Tactic
import Mathlib.Data.List.Basic
import Mathlib.Algebra.BigOperators.Group.List.Basic

/-!
# Eufs.Base.Pool — threads that take turns on a shared state

A pool is a shared state and a list of threads, each with a local state.  One step runs one thread for one atomic
action; the choice `ι` stands for what the environment decides in it.  New threads may start at any time.

* `Pool.total g`: the sum of a weight over all threads; a step of one thread changes it by that thread's difference.
* `Pool.Reachable.induction`: what the start has and every start of a thread and every step keeps holds in all runs.
* `Pool.length_le_of_measure`: runs without new threads end.
-/

namespace Eufs

/-- Threads with local states `τ` over a shared state `σ`. -/
structure Pool (σ τ : Type) where
  shared : σ
  threads : List τ

namespace Pool

variable {σ τ ι : Type}

/-- Thread `i` takes one step; `none` when it is blocked or has ended. -/
def step (f : σ → τ → ι → Option (σ × τ)) (p : Pool σ τ) (i : ℕ) (c : ι) : Option (Pool σ τ) :=
  match p.threads[i]? with
  | none => none
  | some t => (f p.shared t c).map fun r => ⟨r.1, p.threads.set i r.2⟩

/-- The sum of `g` over the threads. -/
def total (g : τ → ℕ) (p : Pool σ τ) : ℕ := (p.threads.map g).sum

theorem step_eq_some {f : σ → τ → ι → Option (σ × τ)} {p p' : Pool σ τ} {i : ℕ} {c : ι} :
    p.step f i c = some p' ↔ ∃ t s t', p.threads[i]? = some t ∧ f p.shared t c = some (s, t') ∧
      p' = ⟨s, p.threads.set i t'⟩ := by
  unfold step
  cases ht : p.threads[i]? with
  | none => simp
  | some t =>
    rw [Option.map_eq_some_iff]
    constructor
    · rintro ⟨⟨s, t'⟩, h1, rfl⟩
      exact ⟨t, s, t', rfl, h1, rfl⟩
    · rintro ⟨t₁, s, t', h0, h1, rfl⟩
      cases h0
      exact ⟨(s, t'), h1, rfl⟩

theorem sum_map_set (g : τ → ℕ) (t' : τ) : ∀ {l : List τ} {i : ℕ} {t : τ}, l[i]? = some t →
    ((l.set i t').map g).sum + g t = (l.map g).sum + g t'
  | [], _, _, h => by simp at h
  | x :: l, 0, t, h => by
    obtain rfl : x = t := by simpa using h
    simp only [List.set_cons_zero, List.map_cons, List.sum_cons]
    omega
  | x :: l, i + 1, t, h => by
    have ih := sum_map_set g t' (show l[i]? = some t by simpa using h)
    simp only [List.set_cons_succ, List.map_cons, List.sum_cons]
    omega

theorem total_set {p : Pool σ τ} {i : ℕ} {t : τ} (g : τ → ℕ) (s : σ) (t' : τ) (h : p.threads[i]? = some t) :
    total g (⟨s, p.threads.set i t'⟩ : Pool σ τ) + g t = p.total g + g t' := sum_map_set g t' h

theorem total_append {g : τ → ℕ} {p : Pool σ τ} {s : σ} {l : List τ} :
    total g (⟨s, p.threads ++ l⟩ : Pool σ τ) = p.total g + (l.map g).sum := by
  simp [total]

theorem le_total {g : τ → ℕ} {p : Pool σ τ} {t : τ} (h : t ∈ p.threads) : g t ≤ p.total g :=
  List.le_sum_of_mem (List.mem_map_of_mem h)

theorem total_eq_zero {g : τ → ℕ} {p : Pool σ τ} (h : ∀ t ∈ p.threads, g t = 0) : p.total g = 0 := by
  refine List.sum_eq_zero fun x hx => ?_
  obtain ⟨t, ht, rfl⟩ := List.mem_map.mp hx
  exact h t ht

/-- What holds of every thread before a step and of the new local state holds of every thread after it. -/
theorem forall_set {P : τ → Prop} {l : List τ} {i : ℕ} {t' : τ} (h : ∀ t ∈ l, P t) (ht' : P t') :
    ∀ t ∈ l.set i t', P t := fun t ht => (List.mem_or_eq_of_mem_set ht).elim (h t) fun he => he ▸ ht'

/-- The pools that runs from `p₀` reach: threads step, and `starts p s t` says when a thread may start in `t`, with
what it makes of the shared state. -/
inductive Reachable (f : σ → τ → ι → Option (σ × τ)) (starts : σ → σ → τ → Prop)
  (p₀ : Pool σ τ) : Pool σ τ → Prop
  | start : Reachable f starts p₀ p₀
  | spawn {p : Pool σ τ} {s : σ} {t : τ} (h : Reachable f starts p₀ p) (hs : starts p.shared s t) :
      Reachable f starts p₀ ⟨s, p.threads ++ [t]⟩
  | step {p p' : Pool σ τ} {i : ℕ} {c : ι} (h : Reachable f starts p₀ p) (hs : p.step f i c = some p') :
      Reachable f starts p₀ p'

theorem Reachable.induction {f : σ → τ → ι → Option (σ × τ)} {starts : σ → σ → τ → Prop}
    {p₀ p : Pool σ τ} {Inv : Pool σ τ → Prop} (h : Reachable f starts p₀ p) (h0 : Inv p₀)
    (hspawn : ∀ p s t, Inv p → starts p.shared s t → Inv ⟨s, p.threads ++ [t]⟩)
    (hstep : ∀ p i t c s t', Inv p → p.threads[i]? = some t → f p.shared t c = some (s, t') →
      Inv ⟨s, p.threads.set i t'⟩) : Inv p := by
  induction h with
  | start => exact h0
  | spawn _ hs ih => exact hspawn _ _ _ ih hs
  | step _ hs ih =>
    obtain ⟨t, s, t', ht, hf, rfl⟩ := step_eq_some.mp hs
    exact hstep _ _ _ _ _ _ ih ht hf

/-- The threads of `l` take their steps one after the other. -/
def steps (f : σ → τ → ι → Option (σ × τ)) : Pool σ τ → List (ℕ × ι) → Option (Pool σ τ)
  | p, [] => some p
  | p, (i, c) :: l => (p.step f i c).bind fun p' => p'.steps f l

theorem Reachable.steps {f : σ → τ → ι → Option (σ × τ)} {starts : σ → σ → τ → Prop}
    {p₀ p' : Pool σ τ}
    {l : List (ℕ × ι)} : ∀ {p : Pool σ τ}, Reachable f starts p₀ p → p.steps f l = some p' →
    Reachable f starts p₀ p' := by
  induction l with
  | nil =>
    intro p h hs
    cases hs
    exact h
  | cons x l ih =>
    intro p h hs
    obtain ⟨p₁, h1, h2⟩ := Option.bind_eq_some_iff.mp hs
    exact ih (.step h h1) h2

/-- A run of the threads that are there. -/
inductive Runs (f : σ → τ → ι → Option (σ × τ)) : Pool σ τ → ℕ → Pool σ τ → Prop
  | done (p : Pool σ τ) : Runs f p 0 p
  | step {p p' p'' : Pool σ τ} {i : ℕ} {c : ι} {n : ℕ} (hs : p.step f i c = some p') (h : Runs f p' n p'') :
      Runs f p (n + 1) p''

/-- When every step makes a measure smaller, a run is no longer than the measure. -/
theorem length_le_of_measure {f : σ → τ → ι → Option (σ × τ)} (μ : Pool σ τ → ℕ)
    (hμ : ∀ p i c p', p.step f i c = some p' → μ p' < μ p) {p p' : Pool σ τ} {n : ℕ} (h : Runs f p n p') :
    n ≤ μ p := by
  induction h with
  | done p => exact Nat.zero_le _
  | step hs _ ih => exact Nat.lt_of_le_of_lt ih (hμ _ _ _ _ hs)

end Pool

end Eufs
