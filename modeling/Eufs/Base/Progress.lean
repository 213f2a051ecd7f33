import Eufs.Base.Phases

/-!
# Eufs.Base.Progress — programs that return when the host serves them

`Ends` says what holds however a run ends; a machine that stops satisfies it for free.  `Completes m t w Q` is the
other half: there are results of system calls with which `m` returns, in a state with `Q`.  `Fails m t w e Q` is the
same for a run that ends with the error `e`, and `Stops m t w Q` for one in which the machine stops.
-/

namespace Eufs

variable {β κ τ α γ : Type} {bytes : ℕ} {e : Failure}
variable {Q : Unit → τ → World β κ → Prop} {m : Prog τ β κ α} {f : α → Prog τ β κ γ} {op : κ}
  {w : World β κ}

namespace Prog

/-- Some results make `m` return, with `Q`, whatever results follow them. -/
def Completes (m : Prog τ β κ α) (t : τ) (w : World β κ) (Q : α → τ → World β κ → Prop) : Prop :=
  ∃ s a t' w', Q a t' w' ∧ ∀ rest, m t { w with script := s ++ rest } = .ok a t' { w' with script := rest }

/-- Some results make `m` end with the error `e`, and `Q`, whatever results follow them. -/
def Fails (m : Prog τ β κ α) (t : τ) (w : World β κ) (e : Failure) (Q : τ → World β κ → Prop) : Prop :=
  ∃ s t' w', Q t' w' ∧ ∀ rest, m t { w with script := s ++ rest } = .fail e t' { w' with script := rest }

/-- With some results the machine stops in a state with `Q`. -/
def Stops (m : Prog τ β κ α) (t : τ) (w : World β κ) (Q : World β κ → Prop) : Prop :=
  ∃ s w', Q w' ∧ m t { w with script := s } = .stop w'

section Rules

variable {t : τ} {w : World β κ}

theorem Completes.mono {m : Prog τ β κ α} {Q Q' : α → τ → World β κ → Prop} (h : Completes m t w Q)
    (hQ : ∀ a t' w', Q a t' w' → Q' a t' w') : Completes m t w Q' := by
  obtain ⟨s, a, t', w', hq, hm⟩ := h
  exact ⟨s, a, t', w', hQ a t' w' hq, hm⟩

theorem completes_pure {a : α} {Q : α → τ → World β κ → Prop} (h : Q a t w) : Completes (pure a) t w Q :=
  ⟨[], a, t, w, h, fun _ => rfl⟩

theorem completes_bind {Q : γ → τ → World β κ → Prop}
    (h : Completes m t w fun a t' w' => Completes (f a) t' w' Q) : Completes (m >>= f) t w Q := by
  obtain ⟨s, a, t', w', ⟨s', b, t'', w'', hq, hf⟩, hm⟩ := h
  refine ⟨s ++ s', b, t'', w'', hq, fun rest => bind_ok.mpr ⟨a, t', _, ?_, hf rest⟩⟩
  rw [List.append_assoc]
  exact hm _

theorem completes_get {Q : τ → τ → World β κ → Prop} (h : Q t t w) : Completes get t w Q :=
  ⟨[], t, t, w, h, fun _ => rfl⟩

theorem completes_fileSize {Q : ℕ → τ → World β κ → Prop} (h : Q w.size t w) : Completes fileSize t w Q :=
  ⟨[], _, t, w, h, fun _ => rfl⟩

theorem completes_modify {f : τ → τ} (h : Q () (f t) w) :
    Completes (modify f) t w Q := ⟨[], (), f t, w, h, fun _ => rfl⟩

theorem completes_ofExcept {x : Except Failure α} {a : α} {Q : α → τ → World β κ → Prop} (hx : x = .ok a)
    (h : Q a t w) : Completes (ofExcept x) t w Q := ⟨[], a, t, w, h, fun _ => ofExcept_ok.mpr ⟨hx, rfl, rfl⟩⟩

theorem completes_failIf {c : Prop} [Decidable c] {n : Errno} {d : String} (hc : ¬ c) (h : Q () t w) :
    Completes (failIf c n d) t w Q := by
  unfold failIf
  rw [if_neg hc]
  exact completes_pure h

theorem completes_onFail {f : τ → τ} {Q : α → τ → World β κ → Prop} (h : Completes m t w Q) :
    Completes (onFail m f) t w Q := by
  obtain ⟨s, a, t', w', hq, hm⟩ := h
  refine ⟨s, a, t', w', hq, fun rest => ?_⟩
  unfold onFail
  rw [hm rest]

theorem completes_withState {σ : Type} {s : σ} {m : Prog σ β κ α} {Q : α × σ → τ → World β κ → Prop}
    (h : Completes m s w fun a s' w' => Q (a, s') t w') : Completes (withState s m) t w Q := by
  obtain ⟨r, a, s', w', hq, hm⟩ := h
  refine ⟨r, (a, s'), t, w', hq, fun rest => ?_⟩
  unfold withState
  rw [hm rest]

theorem completes_forEach {f : γ → Prog τ β κ Unit} (I : List γ → τ → World β κ → Prop)
    (hstep : ∀ x l t w, I (x :: l) t w → Completes (f x) t w fun _ t' w' => I l t' w') :
    ∀ (l : List γ) (t : τ) (w : World β κ), I l t w → Completes (forEach l f) t w fun _ t' w' => I [] t' w'
  | [], _, _, h => completes_pure h
  | x :: l, t, w, h => completes_bind <|
    (hstep x l t w h).mono fun _ t' w' h' => completes_forEach I hstep l t' w' h'

theorem completes_checks {c : γ → Prop} [DecidablePred c] {n : Errno} {d : String}
    {Q : Unit → τ → World β κ → Prop} : ∀ {l : List γ}, (∀ x ∈ l, ¬ c x) → Q () t w →
    Completes (forEach l fun x => failIf (c x) n d) t w Q
  | [], _, h => completes_pure h
  | _ :: _, hc, h => completes_bind <| completes_failIf (List.forall_mem_cons.mp hc).1 <|
    completes_checks (List.forall_mem_cons.mp hc).2 h

/-- What a program writes when it returns, from its specification. -/
theorem Completes.wrote {Q : α → τ → World β κ → Prop} {L K : τ → Prop} {R : Failure → Prop}
    {ps : List (List (Write β κ))} {Q' : α → τ → Prop} (h : Completes m t w Q)
    (hm : ∀ script, Phased L m t { w with script := script } ps Q' K R) :
    Completes m t w fun a t' w' => Q a t' w' ∧ Q' a t' ∧ w.Wrote ps w' := by
  obtain ⟨s, a, t', w', hq, hrun⟩ := h
  obtain ⟨hq', hw⟩ := Ends.ok (hm (s ++ [])) (hrun [])
  exact ⟨s, a, t', w', ⟨hq, hq', ⟨hw.size, hw.faults, hw.log, hw.durable, hw.pending⟩⟩, hrun⟩

theorem transfer_full (hb : 0 < bytes) (checked : Bool) (rest : List Sys) :
    transfer bytes checked 0 (⟨bytes, none⟩ :: rest) = .complete rest := by
  have hlast : transfer bytes checked bytes rest = .complete rest := by
    cases rest <;> simp [transfer]
  have h1 : bytes ≠ 0 := by omega
  have h2 : ¬ ((bytes : ℤ) < 0) := by omega
  simp [transfer, h1, h2, hlast]

theorem fails_ofExcept {x : Except Failure α} {Q : τ → World β κ → Prop} (hx : x = .error e) (h : Q t w) :
    Fails (ofExcept x : Prog τ β κ α) t w e Q := by
  subst hx
  exact ⟨[], t, w, h, fun _ => rfl⟩

theorem fails_of_fails {Q : τ → World β κ → Prop} (h : Fails m t w e Q) : Fails (m >>= f) t w e Q := by
  obtain ⟨s, t', w', hq, hm⟩ := h
  exact ⟨s, t', w', hq, fun rest => bind_of_fail (hm rest)⟩

theorem fails_of_completes {Q : τ → World β κ → Prop}
    (h : Completes m t w fun a t' w' => Fails (f a) t' w' e Q) : Fails (m >>= f) t w e Q := by
  obtain ⟨s, a, t', w', ⟨s', t'', w'', hq, hf⟩, hm⟩ := h
  refine ⟨s ++ s', t'', w'', hq, fun rest => ?_⟩
  show Prog.bind m f t _ = _
  unfold Prog.bind
  rw [List.append_assoc, hm]
  exact hf rest

theorem fails_withState {σ : Type} {s : σ} {m : Prog σ β κ α} {Q : τ → World β κ → Prop}
    (h : Fails m s w e fun _ w' => Q t w') : Fails (withState s m) t w e Q := by
  obtain ⟨r, s', w', hq, hm⟩ := h
  refine ⟨r, t, w', hq, fun rest => ?_⟩
  unfold withState
  rw [hm rest]

theorem Stops.imp {Q Q' : World β κ → Prop} (h : Stops m t w Q) (hQ : ∀ w', Q w' → Q' w') :
    Stops m t w Q' := by
  obtain ⟨s, w', hq, hm⟩ := h
  exact ⟨s, w', hQ w' hq, hm⟩

theorem stops_of_stops {Q : World β κ → Prop} (h : Stops m t w Q) : Stops (m >>= f) t w Q := by
  obtain ⟨s, w', hq, hm⟩ := h
  refine ⟨s, w', hq, ?_⟩
  show Prog.bind m f t _ = _
  unfold Prog.bind
  rw [hm]

theorem stops_of_completes {Q : World β κ → Prop} (h : Completes m t w fun a t' w' => Stops (f a) t' w' Q) :
    Stops (m >>= f) t w Q := by
  obtain ⟨s, a, t', w', ⟨s', w'', hq, hf⟩, hm⟩ := h
  refine ⟨s ++ s', w'', hq, ?_⟩
  show Prog.bind m f t _ = _
  unfold Prog.bind
  rw [hm]
  exact hf

theorem stops_onFail {f : τ → τ} {Q : World β κ → Prop} (h : Stops m t w Q) :
    Stops (onFail m f) t w Q := by
  obtain ⟨s, w', hq, hm⟩ := h
  refine ⟨s, w', hq, ?_⟩
  unfold onFail
  rw [hm]

theorem stops_withState {σ : Type} {s : σ} {m : Prog σ β κ α} {Q : World β κ → Prop} (h : Stops m s w Q) :
    Stops (withState s m) t w Q := by
  obtain ⟨r, w', hq, hm⟩ := h
  refine ⟨r, w', hq, ?_⟩
  unfold withState
  rw [hm]

/-- The machine stops in a write: it is issued, and nothing is durable that was not before. -/
theorem stops_writeAll {checked : Bool} {report : Sys → Failure} {invalid : Failure}
    {f : (ℕ → β) → Write β κ} {Q : World β κ → Prop} (hb : 0 < bytes)
    (h : Q { w with pending := w.pending ++ [f w.visible], script := []
                    trace := .pwrite w.durable (f w.visible) false :: w.trace }) :
    Stops (writeAll bytes checked report invalid f) t w Q := by
  have : transfer bytes checked 0 [] = .stopped := by
    rw [transfer, if_neg (by omega)]
  refine ⟨[], _, h, ?_⟩
  simp only [writeAll, this]
  rfl

variable (text : κ → String)

theorem completes_preadAll {a : ℕ} {Q : β → τ → World β κ → Prop} (hb : 0 < bytes) (ha : a < w.size)
    (h : Q (w.visible a) t { w with trace := .pread op a true :: w.trace }) :
    Completes (preadAll text bytes op a) t w Q := by
  refine ⟨[⟨bytes, none⟩], _, t, _, h, fun rest => ?_⟩
  simp only [preadAll, List.singleton_append, transfer_full hb, if_pos ha]
  rfl

theorem completes_writeAll {checked : Bool} {report : Sys → Failure} {invalid : Failure}
    {f : (ℕ → β) → Write β κ} (hb : 0 < bytes)
    (h : Q () t
      { w with pending := w.pending ++ [f w.visible], trace := .pwrite w.durable (f w.visible) true :: w.trace }) :
    Completes (writeAll bytes checked report invalid f) t w Q := by
  refine ⟨[⟨bytes, none⟩], (), t, _, h, fun rest => ?_⟩
  simp only [writeAll, List.singleton_append, transfer_full hb]
  rfl

theorem completes_fdatasync
    (h : Q () t { w with durable := w.visible, pending := [], trace := .fdatasync op true :: w.trace }) :
    Completes (fdatasync text op) t w Q := ⟨[⟨0, none⟩], (), t, _, h, fun _ => rfl⟩

theorem completes_syscall (h : Q () t { w with trace := .syscall op true :: w.trace }) :
    Completes (syscall text op) t w Q :=
  ⟨[⟨0, none⟩], (), t, _, h, fun _ => rfl⟩

theorem completes_ftruncate {zero : β} {n : ℕ}
    (h : Q () t { w with size := n, durable := fun a => if a < w.size ∧ a < n then w.durable a else zero
                         pending := w.pending.filter fun p => p.addr < n, trace := .syscall op true :: w.trace }) :
    Completes (ftruncate text zero op n) t w Q := ⟨[⟨0, none⟩], (), t, _, h, fun _ => rfl⟩

end Rules

end Prog

/-- Only successful reads lie between the two worlds. -/
structure World.Read (w w' : World β κ) : Prop where
  size : w'.size = w.size
  durable : w'.durable = w.durable
  pending : w'.pending = w.pending
  faults : w'.faults = w.faults

theorem World.Read.refl (w : World β κ) : w.Read w := ⟨rfl, rfl, rfl, rfl⟩

theorem World.Read.trans {w' w'' : World β κ} (h : w.Read w') (h' : w'.Read w'') : w.Read w'' :=
  ⟨h'.size.trans h.size, h'.durable.trans h.durable, h'.pending.trans h.pending, h'.faults.trans h.faults⟩

theorem World.Read.visible {w' : World β κ} (h : w.Read w') : w'.visible = w.visible := by
  rw [World.visible, h.pending, h.durable, World.visible]

theorem World.Read.event {e : Event β κ} (h : e.ok = true) : w.Read { w with trace := e :: w.trace } :=
  ⟨rfl, rfl, rfl, by simp [World.faults, h]⟩

end Eufs
