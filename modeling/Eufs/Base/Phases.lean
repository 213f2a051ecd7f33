import Eufs.Base.DiskIo

/-!
# Eufs.Base.Phases — programs that write in batches

A journalling program writes a batch of blocks, calls `fdatasync`, and only then writes the next batch.
`Phased L m t w ps Q K R` says that `m` issues exactly the batches `ps` in this way:

* it returns with `Q` and all batches durable, or
* an operation failed inside a batch and left a local state in `L`, or
* it refused before its first write and left a local state in `K`; without a failed operation only for an error
  in `R`.

A machine that stops finds `World.Within`: the first `k` batches durable, only writes of batch `k` pending.
`Phased.bind` and `Phased.after` put programs in sequence, so that a whole protocol is summed up by its list of
batches, and ordering rules and crash arguments are about that list and images only.
-/

namespace Eufs

open Function

variable {β κ τ α γ : Type} {n a bytes : ℕ} {rest : List Sys}
variable {d d' : ℕ → β} {ps : List (Write β κ)} {e : Event β κ} {p : Write β κ} {w v u : World β κ}
  {op : κ} {f : τ → τ} {Q : γ → τ → Prop} {k : Unit → Prog τ β κ γ}

/-- Every write in the trace of `w'` was there in `w` or satisfies `A`. -/
def World.Logged (w w' : World β κ) (A : (ℕ → β) → Write β κ → Prop) : Prop :=
  ∀ d p b, .pwrite d p b ∈ w'.trace → .pwrite d p b ∈ w.trace ∨ A d p

/-- `p` is a write of one of the batches `ps`, and `d'` is `d` with all batches before it. -/
def InBatches (d : ℕ → β) (ps : List (List (Write β κ))) (d' : ℕ → β) (p : Write β κ) : Prop :=
  ∃ k, d' = applyWrites (ps.take k).flatten d ∧ p ∈ ps[k]?.getD []

/-- Nothing was written from `w` to `w'`. -/
structure World.Same (w w' : World β κ) : Prop where
  size : w'.size = w.size
  durable : w'.durable = w.durable
  pending : w'.pending = w.pending
  faults : w.faults ≤ w'.faults
  log : w.Logged w' fun _ _ => False

/-- The first batches of `ps` are durable and only writes of the next one are pending. -/
structure World.Within (w : World β κ) (ps : List (List (Write β κ))) (w' : World β κ) : Prop where
  size : w'.size = w.size
  faults : w.faults ≤ w'.faults
  log : w.Logged w' (InBatches w.durable ps)
  reached : ∃ k ≤ ps.length, w'.durable = applyWrites (ps.take k).flatten w.durable ∧
    w'.pending ⊆ ps[k]?.getD []

/-- All batches of `ps` are durable. -/
structure World.Wrote (w : World β κ) (ps : List (List (Write β κ))) (w' : World β κ) : Prop where
  size : w'.size = w.size
  faults : w.faults ≤ w'.faults
  log : w.Logged w' (InBatches w.durable ps)
  durable : w'.durable = applyWrites ps.flatten w.durable
  pending : w'.pending = []

section Logged

variable {u v w : World β κ} {A B : (ℕ → β) → Write β κ → Prop}

theorem World.Logged.refl (w : World β κ) : w.Logged w A := fun _ _ _ h => Or.inl h

theorem World.Logged.trans (h : u.Logged v A) (h' : v.Logged w A) : u.Logged w A := fun d p b hm =>
  (h' d p b hm).elim (h d p b) Or.inr

theorem World.Logged.mono (h : u.Logged v A) (hAB : ∀ d p, A d p → B d p) : u.Logged v B :=
  fun d p b hm => (h d p b hm).imp_right (hAB d p)

theorem World.Logged.of_cons (he : ∀ d p b, e ≠ .pwrite d p b) :
    w.Logged ⟨n, d, ps, rest, e :: w.trace⟩ A := by
  intro d p b hm
  rcases List.mem_cons.mp hm with h | h
  · exact absurd h.symm (he d p b)
  · exact Or.inl h

theorem World.Logged.of_pwrite {b : Bool} :
    w.Logged ⟨n, d, ps, rest, .pwrite w.durable p b :: w.trace⟩
      fun d' q => d' = w.durable ∧ q = p := by
  intro d' q b' hm
  rcases List.mem_cons.mp hm with h | h
  · cases h
    exact Or.inr ⟨rfl, rfl⟩
  · exact Or.inl h

end Logged

theorem InBatches.append_right {ps : List (List (Write β κ))} (h : InBatches d ps d' p)
    (qs : List (List (Write β κ))) : InBatches d (ps ++ qs) d' p := by
  obtain ⟨k, h1, h2⟩ := h
  rcases Nat.lt_or_ge k ps.length with hlt | hge
  · exact ⟨k, by rwa [List.take_append_of_le_length hlt.le], by rwa [List.getElem?_append_left hlt]⟩
  · rw [List.getElem?_eq_none hge] at h2
    simp at h2

theorem InBatches.append_left {ps qs : List (List (Write β κ))}
    (h : InBatches (applyWrites ps.flatten d) qs d' p) : InBatches d (ps ++ qs) d' p := by
  obtain ⟨k, h1, h2⟩ := h
  refine ⟨ps.length + k, ?_, ?_⟩
  · rw [h1, List.take_append, List.take_of_length_le (Nat.le_add_right ps.length k), List.flatten_append,
      applyWrites_append, Nat.add_sub_cancel_left]
  · rwa [List.getElem?_append_right (by omega), Nat.add_sub_cancel_left]

theorem inBatches_nil : ¬ InBatches d [] d' p := by
  rintro ⟨k, -, hk⟩
  simp at hk

theorem inBatches_cons {B : List (Write β κ)} {ps : List (List (Write β κ))} :
    InBatches d (B :: ps) d' p ↔ (d' = d ∧ p ∈ B) ∨ InBatches (applyWrites B d) ps d' p := by
  constructor
  · rintro ⟨k, h1, h2⟩
    cases k with
    | zero => exact Or.inl ⟨by simpa using h1, by simpa using h2⟩
    | succ k => exact Or.inr ⟨k, by simpa [applyWrites_append] using h1, by simpa using h2⟩
  · rintro (⟨h1, h2⟩ | ⟨k, h1, h2⟩)
    · exact ⟨0, by simpa using h1, by simpa using h2⟩
    · exact ⟨k + 1, by simpa [applyWrites_append] using h1, by simpa using h2⟩

namespace World

variable {u v w : World β κ} {ps qs : List (List (Write β κ))}

theorem Same.refl (w : World β κ) : w.Same w := ⟨rfl, rfl, rfl, le_rfl, Logged.refl w⟩

theorem Same.trans (h : u.Same v) (h' : v.Same w) : u.Same w :=
  ⟨h'.size.trans h.size, h'.durable.trans h.durable, h'.pending.trans h.pending, h.faults.trans h'.faults,
    h.log.trans h'.log⟩

theorem Same.wrote (h : w.Same v) (hp : w.pending = []) : w.Wrote [] v :=
  ⟨h.size, h.faults, h.log.mono fun _ _ h => h.elim, h.durable, h.pending.trans hp⟩

theorem Same.within (h : w.Same v) (hp : w.pending = []) : w.Within ps v :=
  ⟨h.size, h.faults, h.log.mono fun _ _ h => h.elim, 0, by omega, by simpa using h.durable,
    by simp [h.pending, hp]⟩

theorem Wrote.same (h : w.Wrote [] v) (hp : w.pending = []) : w.Same v := by
  exact ⟨h.size, h.durable, h.pending.trans hp.symm, h.faults, h.log.mono fun _ _ => inBatches_nil⟩

theorem Wrote.trans (h : u.Wrote ps v) (h' : v.Wrote qs w) : u.Wrote (ps ++ qs) w where
  size := h'.size.trans h.size
  faults := h.faults.trans h'.faults
  log := (h.log.mono fun _ _ hi => hi.append_right qs).trans
    (h'.log.mono fun _ _ hi => (h.durable ▸ hi).append_left)
  durable := by rw [h'.durable, h.durable, List.flatten_append, applyWrites_append]
  pending := h'.pending

theorem Within.append_right (h : u.Within ps v) (qs : List (List (Write β κ))) : u.Within (ps ++ qs) v := by
  obtain ⟨h1, h2, h3, k, hk, h4, h5⟩ := h
  refine ⟨h1, h2, h3.mono fun _ _ hi => hi.append_right qs, k, by simp; omega, ?_, fun p hp => ?_⟩
  · rwa [List.take_append_of_le_length hk]
  · have hp' := h5 hp
    rcases Nat.lt_or_ge k ps.length with hlt | hge
    · rwa [List.getElem?_append_left hlt]
    · rw [List.getElem?_eq_none hge] at hp'
      simp at hp'

theorem Wrote.within_append (h : u.Wrote ps v) (h' : v.Within qs w) : u.Within (ps ++ qs) w := by
  obtain ⟨k, hk, h4, h5⟩ := h'.reached
  refine ⟨h'.size.trans h.size, h.faults.trans h'.faults, ?_, ps.length + k, by simp; omega, ?_, ?_⟩
  · exact (h.log.mono fun _ _ hi => hi.append_right qs).trans
      (h'.log.mono fun _ _ hi => (h.durable ▸ hi).append_left)
  · rw [h4, h.durable, List.take_append, List.take_of_length_le (Nat.le_add_right ps.length k),
      List.flatten_append, applyWrites_append, Nat.add_sub_cancel_left]
  · rwa [List.getElem?_append_right (by omega), Nat.add_sub_cancel_left]

end World

/-! ### Crashes between and inside batches -/

/-- A crash while the batch `B` is written over `d`: each of its blocks is old, new or torn. -/
def Crashes (T : ℕ → β → β → Prop) (d : ℕ → β) (B : List (Write β κ)) (img : ℕ → β) : Prop :=
  ∀ a, img a = d a ∨ ∃ p ∈ B, p.addr = a ∧ (img a = p.data ∨ T a (d a) (img a))

/-- A crash while the batches `ps` are written over `d`, one after the other. -/
def CrashesIn (T : ℕ → β → β → Prop) : (ℕ → β) → List (List (Write β κ)) → (ℕ → β) → Prop
  | d, [], img => img = d
  | d, B :: ps, img => Crashes T d B img ∨ CrashesIn T (applyWrites B d) ps img

section Crashes

variable {T : ℕ → β → β → Prop} {d img : ℕ → β} {B B' : List (Write β κ)}
  {ps qs : List (List (Write β κ))}

theorem Crashes.mono (h : Crashes T d B img) (hB : B ⊆ B') : Crashes T d B' img := fun a =>
  (h a).imp_right fun ⟨p, hp, hpa⟩ => ⟨p, hB hp, hpa⟩

/-- A block that no write of the batch names is as before. -/
theorem Crashes.of_not_mem (h : Crashes T d B img) (ha : ∀ p ∈ B, p.addr ≠ a) : img a = d a :=
  (h a).resolve_right fun ⟨p, hp, hpa, _⟩ => ha p hp hpa

theorem Crashes.all (T : ℕ → β → β → Prop) (d : ℕ → β) (B : List (Write β κ)) :
    Crashes T d B (applyWrites B d) := by
  intro a
  by_cases ha : a ∈ B.map Write.addr
  · obtain ⟨p, hp, h1, h2⟩ := applyWrites_mem B d a ha
    exact Or.inr ⟨p, hp, h1, Or.inl h2⟩
  · exact Or.inl (applyWrites_of_not_mem _ _ _ fun p hp he => ha (List.mem_map.mpr ⟨p, hp, he⟩))

theorem CrashesIn.single (h : CrashesIn T d [B] img) : Crashes T d B img := by
  rcases h with h | h
  · exact h
  · rw [show img = applyWrites B d from h]
    exact Crashes.all T d B

theorem CrashesIn.all (T : ℕ → β → β → Prop) : ∀ (d : ℕ → β) (ps : List (List (Write β κ))),
    CrashesIn T d ps (applyWrites ps.flatten d)
  | _, [] => rfl
  | d, B :: ps => Or.inr (by rw [List.flatten_cons, applyWrites_append]; exact CrashesIn.all T _ ps)

theorem crashesIn_append : ∀ {d : ℕ → β} {ps : List (List (Write β κ))}, CrashesIn T d (ps ++ qs) img →
    CrashesIn T d ps img ∨ CrashesIn T (applyWrites ps.flatten d) qs img
  | d, [], h => Or.inr h
  | d, B :: ps, h => by
    rcases h with h | h
    · exact Or.inl (Or.inl h)
    · rcases crashesIn_append h with h | h
      · exact Or.inl (Or.inr h)
      · exact Or.inr (by rwa [List.flatten_cons, applyWrites_append])

private theorem crashesIn_of_reached : ∀ {d : ℕ → β} {ps : List (List (Write β κ))} {k : ℕ},
    k ≤ ps.length →
    Crashes T (applyWrites (ps.take k).flatten d) (ps[k]?.getD []) img → CrashesIn T d ps img
  | d, [], k, _, h => funext fun a => by
    have := h a
    simpa using this
  | d, B :: ps, 0, _, h => Or.inl (by simpa using h)
  | d, B :: ps, k + 1, hk, h => by
    refine Or.inr (crashesIn_of_reached (k := k) (by simpa using hk) ?_)
    simpa [applyWrites_append] using h

/-- The images a crash can leave once the machine has stopped among the batches `ps`. -/
theorem World.Within.crashesIn (h : w.Within ps v) (hc : v.Crash T img) : CrashesIn T w.durable ps img := by
  obtain ⟨k, hk, h1, h2⟩ := h.reached
  refine crashesIn_of_reached hk ?_
  rw [← h1]
  exact Crashes.mono hc h2

end Crashes

/-- Block writes that each change the content left by those before. -/
def patchWrites (op : κ) : (ℕ → β) → List (ℕ × (β → β)) → List (Write β κ)
  | _, [] => []
  | d, (a, f) :: l => ⟨op, a, f (d a)⟩ :: patchWrites op (update d a (f (d a))) l

/-- What such writes leave. -/
def applyPatches (l : List (ℕ × (β → β))) (d : ℕ → β) : ℕ → β :=
  l.foldl (fun d x => update d x.1 (x.2 (d x.1))) d

theorem applyWrites_patchWrites (op : κ) : ∀ (l : List (ℕ × (β → β))) (d : ℕ → β),
    applyWrites (patchWrites op d l) d = applyPatches l d
  | [], _ => rfl
  | (a, f) :: l, d => applyWrites_patchWrites op l (update d a (f (d a)))

theorem addr_of_mem_patchWrites {op : κ} {q : Write β κ} : ∀ {l : List (ℕ × (β → β))} {d : ℕ → β},
    q ∈ patchWrites op d l → ∃ p ∈ l, q.addr = p.1
  | [], _, h => absurd h List.not_mem_nil
  | (a, f) :: l, d, h => by
    rcases List.mem_cons.mp h with rfl | h
    · exact ⟨(a, f), List.mem_cons_self, rfl⟩
    · obtain ⟨p, hp, hq⟩ := addr_of_mem_patchWrites h
      exact ⟨p, List.mem_cons_of_mem _ hp, hq⟩

theorem applyPatches_apply : ∀ (l : List (ℕ × (β → β))) (d : ℕ → β) (a : ℕ),
    applyPatches l d a = (l.filter fun p => p.1 = a).foldl (fun x p => p.2 x) (d a)
  | [], _, _ => rfl
  | p :: l, d, a => by
    show applyPatches l (update d p.1 (p.2 (d p.1))) a = _
    rw [applyPatches_apply l]
    by_cases h : p.1 = a
    · subst h
      simp
    · simp [h, update_of_ne (Ne.symm h)]

theorem applyPatches_of_not_mem : ∀ (l : List (ℕ × (β → β))) (d : ℕ → β) (a : ℕ),
    (∀ x ∈ l, x.1 ≠ a) →
    applyPatches l d a = d a
  | [], _, _, _ => rfl
  | x :: l, d, a, h => by
    show applyPatches l (update d x.1 (x.2 (d x.1))) a = d a
    rw [applyPatches_of_not_mem l _ a fun y hy => h y (List.mem_cons_of_mem _ hy),
      update_of_ne (h x List.mem_cons_self).symm]

/-- A block that is overwritten as a whole, with one content only. -/
theorem applyPatches_whole {a : ℕ} {x : β} : ∀ (l : List (ℕ × (β → β))) (d : ℕ → β),
    (∀ p ∈ l, p.1 = a → p.2 = fun _ => x) → (∃ p ∈ l, p.1 = a) → applyPatches l d a = x
  | [], _, _, h => by simp at h
  | p :: l, d, hx, h => by
    show applyPatches l (update d p.1 (p.2 (d p.1))) a = x
    by_cases hl : ∃ q ∈ l, q.1 = a
    · exact applyPatches_whole l _ (fun q hq => hx q (List.mem_cons_of_mem _ hq)) hl
    · push Not at hl
      obtain ⟨q, hq, rfl⟩ := h
      rcases List.mem_cons.mp hq with rfl | hq
      · rw [applyPatches_of_not_mem l _ _ hl, update_self, hx q List.mem_cons_self rfl]
      · exact absurd rfl (hl q hq)

namespace Prog

variable {t : τ} {w : World β κ} (text : κ → String)

/-! ### What the calls do -/

theorem faults_cons_true (h : e.ok = true) (w : World β κ) (rest : List Sys) (d : ℕ → β)
    (p : List (Write β κ)) (n : ℕ) : World.faults ⟨n, d, p, rest, e :: w.trace⟩ = w.faults := by
  simp [World.faults, h]

theorem faults_cons_false (h : e.ok = false) (w : World β κ) (rest : List Sys) (d : ℕ → β)
    (p : List (Write β κ)) (n : ℕ) : World.faults ⟨n, d, p, rest, e :: w.trace⟩ = w.faults + 1 := by
  simp [World.faults, h]

/-- A call that is not a write leaves everything the same. -/
theorem same_cons (he : ∀ d p b, e ≠ .pwrite d p b) (w : World β κ) (rest : List Sys) :
    w.Same ⟨w.size, w.durable, w.pending, rest, e :: w.trace⟩ := by
  refine ⟨rfl, rfl, rfl, ?_, World.Logged.of_cons he⟩
  cases h : e.ok
  · rw [faults_cons_false h]; omega
  · rw [faults_cons_true h]

theorem ends_preadAll (ha : a < w.size) :
    Ends (preadAll text bytes op a) t w (fun x t' w' => x = w.visible a ∧ t' = t ∧ w.Same w')
      (fun _ t' w' => t' = t ∧ w.Same w' ∧ w.faults < w'.faults) (fun w' => w.Same w') := by
  have hs : ∀ b rest, w.Same ⟨w.size, w.durable, w.pending, rest, .pread op a b :: w.trace⟩ := fun b rest =>
    same_cons (by simp) w rest
  have hf : ∀ rest, w.faults < World.faults ⟨w.size, w.durable, w.pending, rest, .pread op a false :: w.trace⟩ :=
    fun rest => by rw [faults_cons_false rfl]; omega
  unfold Ends preadAll
  cases transfer bytes false 0 w.script with
  | complete rest =>
    simp only [if_pos ha, true_and]
    exact hs true rest
  | failed e rest => exact ⟨rfl, hs false rest, hf rest⟩
  | badLength rest => exact ⟨rfl, hs false rest, hf rest⟩
  | stopped => exact hs false []

/-- `v` is `w` with the writes `ps` issued and nothing synced. -/
structure Issued (w : World β κ) (ps : List (Write β κ)) (v : World β κ) : Prop where
  size : v.size = w.size
  durable : v.durable = w.durable
  pending : v.pending = w.pending ++ ps
  faults : w.faults ≤ v.faults
  log : w.Logged v fun d p => d = w.durable ∧ p ∈ ps

theorem Issued.refl (w : World β κ) : Issued w [] w :=
  ⟨rfl, rfl, by simp, le_rfl, World.Logged.refl w⟩

theorem Issued.trans {qs : List (Write β κ)} (h : Issued u ps v) (h' : Issued v qs w) :
    Issued u (ps ++ qs) w where
  size := h'.size.trans h.size
  durable := h'.durable.trans h.durable
  pending := by rw [h'.pending, h.pending, List.append_assoc]
  faults := h.faults.trans h'.faults
  log := (h.log.mono fun _ _ hp => ⟨hp.1, List.mem_append_left _ hp.2⟩).trans
    (h'.log.mono fun _ _ hp => ⟨hp.1.trans h.durable, List.mem_append_right _ hp.2⟩)

theorem Issued.same (h : Issued u ps v) (hs : v.Same w) : Issued u ps w :=
  ⟨hs.size.trans h.size, hs.durable.trans h.durable, hs.pending.trans h.pending, h.faults.trans hs.faults,
    h.log.trans (hs.log.mono fun _ _ h => h.elim)⟩

theorem Issued.within {qs : List (Write β κ)} (h : Issued w qs v) (hp : w.pending = []) (hs : qs ⊆ ps) :
    w.Within [ps] v where
  size := h.size
  faults := h.faults
  log := h.log.mono fun _ _ hq => ⟨0, by simpa using hq.1, by simpa using hs hq.2⟩
  reached := ⟨0, by simp, by simpa using h.durable, by simpa [h.pending, hp] using hs⟩

/-- `m` issues exactly the block write `p`, whatever its outcome; a failure leaves a state in `L`. -/
def Issues (L : τ → Prop) (m : Prog τ β κ Unit) (p : Write β κ) : Prop :=
  ∀ t w, Ends m t w (fun _ t' w' => t' = t ∧ Issued w [p] w')
    (fun _ t' w' => L t' ∧ Issued w [p] w' ∧ w.faults < w'.faults) (fun w' => Issued w [p] w')

/-- The block write of `writeAll` is issued whatever the outcome. -/
theorem ends_writeAll {checked : Bool} {report : Sys → Failure} {invalid : Failure}
    {f : (ℕ → β) → Write β κ} : Ends (writeAll bytes checked report invalid f) t w
      (fun _ t' w' => t' = t ∧ Issued w [f w.visible] w')
      (fun _ t' w' => t' = t ∧ Issued w [f w.visible] w' ∧ w.faults < w'.faults)
      (fun w' => Issued w [f w.visible] w') := by
  generalize hp : f w.visible = p
  have hi : ∀ b rest, Issued w [p]
      ⟨w.size, w.durable, w.pending ++ [p], rest, .pwrite w.durable p b :: w.trace⟩ := by
    intro b rest
    refine ⟨rfl, rfl, rfl, ?_, World.Logged.of_pwrite.mono fun d q h => ⟨h.1, by simp [h.2]⟩⟩
    cases b
    · rw [faults_cons_false rfl]; omega
    · rw [faults_cons_true rfl]
  have hlt : ∀ rest, w.faults <
      World.faults ⟨w.size, w.durable, w.pending ++ [p], rest, .pwrite w.durable p false :: w.trace⟩ :=
    fun rest => by rw [faults_cons_false rfl]; omega
  unfold Ends writeAll
  simp only [hp]
  cases transfer bytes checked 0 w.script with
  | complete rest => exact ⟨rfl, hi true rest⟩
  | failed r rest => exact ⟨rfl, hi false rest, hlt rest⟩
  | badLength rest => exact ⟨rfl, hi false rest, hlt rest⟩
  | stopped => exact hi false []

theorem issues_pwriteAll {L : τ → Prop} {invalid : String} (hf : ∀ t, L (f t)) :
    Issues L (onFail (pwriteAll text bytes invalid p) f) p := by
  intro t w
  rw [ends_onFail]
  refine Ends.mono ends_writeAll (fun _ _ _ h => h) ?_ (fun _ h => h)
  rintro - t' w' ⟨rfl, h⟩
  exact ⟨hf _, h⟩

/-- A loop of writes issues them in order; when it breaks off, it has issued an initial part. -/
theorem ends_forEach_issues {L : τ → Prop} {f : γ → Prog τ β κ Unit} {g : γ → Write β κ} :
    ∀ (l : List γ) (_ : ∀ x ∈ l, Issues L (f x) (g x)) (t : τ) (w : World β κ), Ends (forEach l f) t w
      (fun _ t' w' => t' = t ∧ Issued w (l.map g) w')
      (fun _ t' w' => L t' ∧ (∃ qs, qs ⊆ l.map g ∧ Issued w qs w') ∧ w.faults < w'.faults)
      (fun w' => ∃ qs, qs ⊆ l.map g ∧ Issued w qs w')
  | [], _, t, w => ⟨rfl, Issued.refl w⟩
  | x :: l, h, t, w => by
    have hx : [g x] ⊆ (x :: l).map g := by simp
    have hl : ∀ qs, qs ⊆ l.map g → [g x] ++ qs ⊆ (x :: l).map g := fun qs hqs =>
      List.cons_subset_cons _ hqs
    rw [forEach, ends_bind]
    refine (h x List.mem_cons_self t w).mono ?_ ?_ ?_
    · rintro - t' w' ⟨rfl, hi⟩
      refine (ends_forEach_issues l (fun y hy => h y (List.mem_cons_of_mem _ hy)) t' w').mono ?_ ?_ ?_
      · rintro - t'' w'' ⟨rfl, hi'⟩
        exact ⟨rfl, hi.trans hi'⟩
      · rintro - t'' w'' ⟨hL, ⟨qs, hqs, hi'⟩, hlt⟩
        exact ⟨hL, ⟨_, hl qs hqs, hi.trans hi'⟩, hi.faults.trans_lt hlt⟩
      · rintro w'' ⟨qs, hqs, hi'⟩
        exact ⟨_, hl qs hqs, hi.trans hi'⟩
    · rintro - t' w' ⟨hL, hi, hlt⟩
      exact ⟨hL, ⟨_, hx, hi⟩, hlt⟩
    · rintro w' hi
      exact ⟨_, hx, hi⟩

/-- `m` makes everything written so far durable, or fails with a state in `L` and nothing changed. -/
def Syncs (L : τ → Prop) (m : Prog τ β κ Unit) : Prop :=
  ∀ t w, Ends m t w
    (fun _ t' w' => t' = t ∧ w'.size = w.size ∧ w'.durable = w.visible ∧ w'.pending = [] ∧
      w.faults ≤ w'.faults ∧ w.Logged w' fun _ _ => False)
    (fun _ t' w' => L t' ∧ w.Same w' ∧ w.faults < w'.faults) (fun w' => w.Same w')

theorem syncs_fdatasync {L : τ → Prop} (hf : ∀ t, L (f t)) :
    Syncs L (onFail (fdatasync text op : Prog τ β κ Unit) f) := by
  intro t w
  have hs : ∀ b rest, w.Same ⟨w.size, w.durable, w.pending, rest, .fdatasync op b :: w.trace⟩ := fun b rest =>
    same_cons (by simp) w rest
  rw [ends_onFail]
  unfold Ends fdatasync
  cases hscript : w.script with
  | nil => simpa only [hscript] using hs false []
  | cons r rest =>
    by_cases hr : r.ret = 0
    · dsimp only
      rw [if_pos hr]
      exact ⟨rfl, rfl, rfl, rfl, by rw [faults_cons_true rfl], World.Logged.of_cons (by simp)⟩
    · dsimp only
      rw [if_neg hr]
      exact ⟨hf t, hs false rest, by rw [faults_cons_false rfl]; omega⟩

theorem ends_syscall :
    Ends (syscall text op) t w (fun _ t' w' => t' = t ∧ w.Same w')
      (fun _ t' w' => t' = t ∧ w.Same w' ∧ w.faults < w'.faults) (fun w' => w.Same w') := by
  have hs : ∀ b rest, w.Same ⟨w.size, w.durable, w.pending, rest, .syscall op b :: w.trace⟩ := fun b rest =>
    same_cons (by simp) w rest
  unfold Ends syscall
  cases hscript : w.script with
  | nil => simpa only [hscript] using hs false []
  | cons r rest =>
    by_cases hr : 0 ≤ r.ret
    · dsimp only
      rw [if_pos hr]
      exact ⟨rfl, hs true rest⟩
    · dsimp only
      rw [if_neg hr]
      exact ⟨rfl, hs false rest, by rw [faults_cons_false rfl]; omega⟩

/-! ### Before the first sync -/

/-- No sync has succeeded from `w` to `w'`. -/
def Unsynced (w w' : World β κ) : Prop := ∀ op, .fdatasync op true ∈ w'.trace → .fdatasync op true ∈ w.trace

theorem Unsynced.refl (w : World β κ) : Unsynced w w := fun _ h => h

theorem Unsynced.trans (h : Unsynced u v) (h' : Unsynced v w) : Unsynced u w :=
  fun op hm => h op (h' op hm)

theorem Unsynced.of_cons (he : ∀ op, e ≠ .fdatasync op true) :
    Unsynced w ⟨n, d, ps, rest, e :: w.trace⟩ := fun op hm =>
  (List.mem_cons.mp hm).resolve_left fun h => he op h.symm

theorem unsynced_writeAll {checked : Bool} {report : Sys → Failure} {invalid : Failure}
    {f : (ℕ → β) → Write β κ} :
    Ends (writeAll bytes checked report invalid f) t w (fun _ _ w' => Unsynced w w')
      (fun _ _ w' => Unsynced w w') (fun w' => Unsynced w w') := by
  unfold Ends writeAll
  cases transfer bytes checked 0 w.script with
  | complete rest => exact Unsynced.of_cons (by simp)
  | failed r rest => exact Unsynced.of_cons (by simp)
  | badLength rest => exact Unsynced.of_cons (by simp)
  | stopped => exact Unsynced.of_cons (by simp)

theorem unsynced_fdatasync : Ends (fdatasync text op : Prog τ β κ Unit) t w (fun _ _ _ => True)
    (fun _ _ w' => Unsynced w w') (fun w' => Unsynced w w') := by
  unfold Ends fdatasync
  cases hscript : w.script with
  | nil => exact Unsynced.of_cons (by simp)
  | cons r rest =>
    dsimp only
    split_ifs
    · trivial
    · exact Unsynced.of_cons (by simp)

theorem ends_syscall_script : Ends (syscall text op) t w
    (fun _ t' w' => t' = t ∧ w.Same w' ∧ Unsynced w w' ∧ ∃ r, w.script = r :: w'.script ∧ 0 ≤ r.ret)
    (fun _ _ w' => w.Same w' ∧ Unsynced w w') (fun w' => w.Same w' ∧ Unsynced w w') := by
  have hs : ∀ b rest, w.Same ⟨w.size, w.durable, w.pending, rest, .syscall op b :: w.trace⟩ := fun b rest =>
    same_cons (by simp) w rest
  have hu : ∀ b rest, Unsynced w ⟨w.size, w.durable, w.pending, rest, .syscall op b :: w.trace⟩ := fun b rest =>
    Unsynced.of_cons (by simp)
  unfold Ends syscall
  cases hscript : w.script with
  | nil => simpa only [hscript] using And.intro (hs false []) (hu false [])
  | cons r rest =>
    dsimp only
    split_ifs with hr
    · exact ⟨rfl, hs true rest, hu true rest, r, rfl, hr⟩
    · exact ⟨hs false rest, hu false rest⟩

/-! ### Batches -/

/-- From a world with nothing pending, `m` issues the batches `ps`, each followed by a sync; see the head of this
file for `L`, `Q`, `K` and `R`. -/
def Phased (L : τ → Prop) (m : Prog τ β κ α) (t : τ) (w : World β κ) (ps : List (List (Write β κ)))
    (Q : α → τ → Prop) (K : τ → Prop) (R : Failure → Prop) : Prop :=
  Ends m t w (fun a t' w' => Q a t' ∧ w.Wrote ps w')
    (fun e t' w' => (w.Within ps w' ∧ L t' ∧ w.faults < w'.faults) ∨
      (w.Same w' ∧ K t' ∧ (w.faults < w'.faults ∨ R e)))
    (fun w' => w.Within ps w')

section Sequence

variable {L : τ → Prop} {K : τ → Prop} {R : Failure → Prop} {ps qs : List (List (Write β κ))}

theorem Phased.mono {m : Prog τ β κ α} {Q Q' : α → τ → Prop} {K' : τ → Prop} {R' : Failure → Prop}
    (h : Phased L m t w ps Q K R) (hQ : ∀ a t', Q a t' → Q' a t') (hK : ∀ t', K t' → K' t')
    (hR : ∀ e, R e → R' e) : Phased L m t w ps Q' K' R' :=
  Ends.mono h (fun a t' _ h' => ⟨hQ a t' h'.1, h'.2⟩)
    (fun e _ _ h' => h'.imp_right fun h' => ⟨h'.1, hK _ h'.2.1, h'.2.2.imp_right (hR e)⟩) (fun _ h => h)

/-- Two parts in sequence, when the second refuses nothing. -/
theorem Phased.bind {m : Prog τ β κ α} {f : α → Prog τ β κ γ} {Q : α → τ → Prop}
    {Q' : γ → τ → Prop} (hm : Phased L m t w ps Q K R) (hf : ∀ a t' w', Q a t' → w.Wrote ps w' →
      Phased L (f a) t' w' qs Q' (fun _ => False) (fun _ => False)) :
    Phased L (m >>= f) t w (ps ++ qs) Q' K R := by
  unfold Phased at *
  rw [ends_bind]
  refine hm.mono ?_ ?_ ?_
  · rintro a t' w' ⟨hQ, h1⟩
    refine (hf a t' w' hQ h1).mono ?_ ?_ ?_
    · rintro c t'' w'' ⟨hQ', h2⟩
      exact ⟨hQ', h1.trans h2⟩
    · rintro e t'' w'' (⟨h2, hL, hlt⟩ | ⟨-, hK, -⟩)
      · exact Or.inl ⟨h1.within_append h2, hL, h1.faults.trans_lt hlt⟩
      · exact hK.elim
    · intro w'' h2
      exact h1.within_append h2
  · rintro e t' w' (⟨h1, hL, hlt⟩ | h1)
    · exact Or.inl ⟨h1.append_right qs, hL, hlt⟩
    · exact Or.inr h1
  · intro w' h1
    exact h1.append_right qs

/-- Two parts in sequence, when the first writes nothing. -/
theorem Phased.after {m : Prog τ β κ α} {f : α → Prog τ β κ γ} {Q : α → τ → Prop}
    {Q' : γ → τ → Prop} (hp : w.pending = []) (hm : Phased L m t w [] Q K R)
    (hf : ∀ a t' w', Q a t' → w.Same w' → Phased L (f a) t' w' qs Q' K R) :
    Phased L (m >>= f) t w qs Q' K R := by
  unfold Phased at *
  rw [ends_bind]
  refine hm.mono ?_ ?_ ?_
  · rintro a t' w' ⟨hQ, h1⟩
    have hs := h1.same hp
    refine (hf a t' w' hQ hs).mono ?_ ?_ ?_
    · rintro c t'' w'' ⟨hQ', h2⟩
      exact ⟨hQ', h1.trans h2⟩
    · rintro e t'' w'' (⟨h2, hL, hlt⟩ | ⟨h2, hK, h3⟩)
      · exact Or.inl ⟨h1.within_append h2, hL, h1.faults.trans_lt hlt⟩
      · exact Or.inr ⟨hs.trans h2, hK, h3.imp_left fun h3 => h1.faults.trans_lt h3⟩
    · intro w'' h2
      exact h1.within_append h2
  · rintro e t' w' (⟨h1, hL, hlt⟩ | h1)
    · exact Or.inl ⟨h1.append_right qs, hL, hlt⟩
    · exact Or.inr h1
  · intro w' h1
    exact h1.append_right qs

theorem phased_pure {a : α} {Q : α → τ → Prop} (hp : w.pending = []) (hQ : Q a t) :
    Phased L (pure a) t w [] Q K R :=
  ⟨hQ, (World.Same.refl w).wrote hp⟩

theorem phased_throw {e : Failure} {Q : α → τ → Prop} (hK : K t) (hR : R e) :
    Phased L (throw e) t w ps Q K R :=
  Or.inr ⟨World.Same.refl w, hK, Or.inr hR⟩

theorem phased_get {k : τ → Prog τ β κ γ} (h : Phased L (k t) t w ps Q K R) :
    Phased L (get >>= k) t w ps Q K R := h

theorem phased_fileSize {k : ℕ → Prog τ β κ γ} (h : Phased L (k w.size) t w ps Q K R) :
    Phased L (fileSize >>= k) t w ps Q K R := h

theorem phased_modify (h : Phased L (k ()) (f t) w ps Q K R) : Phased L (modify f >>= k) t w ps Q K R := h

theorem phased_modify_end {Q : Unit → τ → Prop} (hp : w.pending = []) (hQ : Q () (f t)) :
    Phased L (modify f) t w [] Q K R :=
  ⟨hQ, (World.Same.refl w).wrote hp⟩

theorem phased_failIf {c : Prop} [Decidable c] {n : Errno} {d : String} (hc : c → K t ∧ R ⟨n, d⟩)
    (h : ¬ c → Phased L (k ()) t w ps Q K R) : Phased L (failIf c n d >>= k) t w ps Q K R := by
  unfold failIf
  split_ifs with hd
  · exact Or.inr ⟨World.Same.refl w, (hc hd).1, Or.inr (hc hd).2⟩
  · exact h hd

theorem phased_failIf_end {c : Prop} [Decidable c] {n : Errno} {d : String} {Q : Unit → τ → Prop}
    (hp : w.pending = []) (hc : c → K t ∧ R ⟨n, d⟩) (hQ : ¬ c → Q () t) :
    Phased L (failIf c n d) t w [] Q K R := by
  unfold failIf
  split_ifs with hd
  · exact phased_throw (hc hd).1 (hc hd).2
  · exact phased_pure hp (hQ hd)

theorem phased_ofExcept {x : Except Failure α} {k : α → Prog τ β κ γ}
    (he : ∀ e, x = .error e → K t ∧ R e) (h : ∀ a, x = .ok a → Phased L (k a) t w ps Q K R) :
    Phased L (ofExcept x >>= k) t w ps Q K R := by
  cases x with
  | ok a => exact h a rfl
  | error e => exact Or.inr ⟨World.Same.refl w, (he e rfl).1, Or.inr (he e rfl).2⟩

theorem phased_preadAll {k : β → Prog τ β κ γ} (hp : w.pending = []) (ha : a < w.size) (hK : K t)
    (h : ∀ w', w.Same w' → Phased L (k (w.durable a)) t w' ps Q K R) :
    Phased L (preadAll text bytes op a >>= k) t w ps Q K R := by
  refine Phased.after (Q := fun x t' => x = w.durable a ∧ t' = t) hp ?_ ?_
  · refine (ends_preadAll text ha).mono ?_ ?_ ?_
    · rintro x t' w' ⟨rfl, rfl, hs⟩
      rw [World.visible_of_pending_nil hp]
      exact ⟨⟨rfl, rfl⟩, hs.wrote hp⟩
    · rintro e t' w' ⟨rfl, h, hlt⟩
      exact Or.inr ⟨h, hK, Or.inl hlt⟩
    · intro w' h
      exact h.within hp
  · rintro x t' w' ⟨rfl, rfl⟩ hs
    exact h w' hs

theorem phased_syscall (hp : w.pending = []) (hK : K t) (h : ∀ w', w.Same w' → Phased L (k ()) t w' ps Q K R) :
    Phased L (syscall text op >>= k) t w ps Q K R := by
  refine Phased.after (Q := fun _ t' => t' = t) hp ?_ ?_
  · refine (ends_syscall text).mono ?_ ?_ ?_
    · rintro x t' w' ⟨rfl, hs⟩
      exact ⟨rfl, hs.wrote hp⟩
    · rintro e t' w' ⟨rfl, h, hlt⟩
      exact Or.inr ⟨h, hK, Or.inl hlt⟩
    · intro w' h
      exact h.within hp
  · rintro x t' w' rfl hs
    exact h w' hs

theorem phased_forEach_failIf {c : α → Prop} [∀ x, Decidable (c x)] {n : Errno} {d : String}
    {k : Unit → Prog τ β κ γ} {Q : γ → τ → Prop} :
    ∀ (l : List α) (_ : ∀ x ∈ l, c x → K t ∧ R ⟨n, d⟩)
    (_ : (∀ x ∈ l, ¬ c x) → Phased L (k ()) t w ps Q K R),
    Phased L (forEach l (fun x => failIf (c x) n d) >>= k) t w ps Q K R
  | [], _, h => h (by simp)
  | x :: l, hc, h => by
    rw [forEach, bind_assoc]
    refine phased_failIf (hc x List.mem_cons_self) fun hx => ?_
    refine phased_forEach_failIf l (fun y hy => hc y (List.mem_cons_of_mem _ hy)) fun hl => h ?_
    exact List.forall_mem_cons.mpr ⟨hx, hl⟩

/-- A loop that writes nothing and finds `P` of every element. -/
theorem phased_forEach {δ : Type} {f : γ → Prog τ β κ Unit} {P : γ → Prop} {k : Unit → Prog τ β κ δ}
    {Q : δ → τ → Prop} (hp : w.pending = []) : ∀ (l : List γ)
    (_ : ∀ x ∈ l, ∀ w', w.Same w' → Phased L (f x) t w' [] (fun _ t' => t' = t ∧ P x) K R)
    (_ : ∀ w', w.Same w' → (∀ x ∈ l, P x) → Phased L (k ()) t w' ps Q K R) (w' : World β κ), w.Same w' →
    Phased L (forEach l f >>= k) t w' ps Q K R
  | [], _, h, w', hs => h w' hs (by simp)
  | x :: l, hf, h, w', hs => by
    rw [forEach, bind_assoc]
    refine Phased.after (hs.pending.trans hp) (hf x List.mem_cons_self w' hs) ?_
    rintro - t' w'' ⟨ht, hx⟩ hs'
    rw [ht]
    refine phased_forEach hp l (fun y hy => hf y (List.mem_cons_of_mem _ hy)) (fun v hv hl => h v hv ?_) w''
      (hs.trans hs')
    exact List.forall_mem_cons.mpr ⟨hx, hl⟩

/-- Inside the first batch `B`: some of it has been issued since `w₀`, the rest of `m` issues what is missing and
then the batches `ps`. -/
def InBatch (L : τ → Prop) (m : Prog τ β κ α) (t : τ) (w₀ : World β κ) (B : List (Write β κ))
    (w : World β κ) (ps : List (List (Write β κ))) (Q : α → τ → Prop) : Prop :=
  Ends m t w (fun a t' w' => Q a t' ∧ w₀.Wrote (B :: ps) w')
    (fun _ t' w' => w₀.Within (B :: ps) w' ∧ L t' ∧ w₀.faults < w'.faults)
    (fun w' => w₀.Within (B :: ps) w')

section Batch

variable {w₀ : World β κ} {B qs : List (Write β κ)} {Q : γ → τ → Prop}

theorem InBatch.phased {m : Prog τ β κ γ} (h : InBatch L m t w B w ps Q) : Phased L m t w (B :: ps) Q K R :=
  Ends.mono h (fun _ _ _ h => h) (fun _ _ _ h => Or.inl h) (fun _ h => h)

theorem Issued.within_cons (h : Issued w₀ qs w) (hp : w₀.pending = []) (hB : qs ⊆ B) : w₀.Within (B :: ps) w :=
  (h.within hp hB).append_right ps

theorem inBatch_write {m : Prog τ β κ Unit} (hm : Issues L m p) (hw : Issued w₀ qs w) (hp : w₀.pending = [])
    (hB : qs ++ [p] ⊆ B) (hk : ∀ w', Issued w₀ (qs ++ [p]) w' → InBatch L (k ()) t w₀ B w' ps Q) :
    InBatch L (m >>= k) t w₀ B w ps Q := by
  unfold InBatch at *
  rw [ends_bind]
  refine (hm t w).mono ?_ ?_ ?_
  · rintro - t' w' ⟨rfl, hi⟩
    exact hk w' (hw.trans hi)
  · rintro e t' w' ⟨hL, hi, hlt⟩
    exact ⟨(hw.trans hi).within_cons hp hB, hL, hw.faults.trans_lt hlt⟩
  · intro w' hi
    exact (hw.trans hi).within_cons hp hB

theorem inBatch_forEach {δ : Type} {f : δ → Prog τ β κ Unit} {g : δ → Write β κ} {l : List δ}
    (hf : ∀ x ∈ l, Issues L (f x) (g x)) (hw : Issued w₀ qs w) (hp : w₀.pending = [])
    (hB : qs ++ l.map g ⊆ B) (hk : ∀ w', Issued w₀ (qs ++ l.map g) w' → InBatch L (k ()) t w₀ B w' ps Q) :
    InBatch L (forEach l f >>= k) t w₀ B w ps Q := by
  have hsub : ∀ rs, rs ⊆ l.map g → qs ++ rs ⊆ B := fun rs hrs x hx =>
    hB (List.mem_append.mpr ((List.mem_append.mp hx).imp_right fun h => hrs h))
  unfold InBatch at *
  rw [ends_bind]
  refine (ends_forEach_issues l hf t w).mono ?_ ?_ ?_
  · rintro - t' w' ⟨rfl, hi⟩
    exact hk w' (hw.trans hi)
  · rintro e t' w' ⟨hL, ⟨rs, hrs, hi⟩, hlt⟩
    exact ⟨(hw.trans hi).within_cons hp (hsub rs hrs), hL, hw.faults.trans_lt hlt⟩
  · rintro w' ⟨rs, hrs, hi⟩
    exact (hw.trans hi).within_cons hp (hsub rs hrs)

theorem inBatch_patches (op : κ) {m : (ℕ × (β → β)) → Prog τ β κ Unit} {k : Unit → Prog τ β κ γ}
    (hm : ∀ x t w, Ends (m x) t w (fun _ t' w' => t' = t ∧ Issued w [⟨op, x.1, x.2 (w.visible x.1)⟩] w')
      (fun _ t' w' => L t' ∧ Issued w [⟨op, x.1, x.2 (w.visible x.1)⟩] w' ∧ w.faults < w'.faults)
      (fun w' => Issued w [⟨op, x.1, x.2 (w.visible x.1)⟩] w')) (hp : w₀.pending = []) :
    ∀ (l : List (ℕ × (β → β))) (qs : List (Write β κ)) (w : World β κ), Issued w₀ qs w →
      qs ++ patchWrites op (applyWrites qs w₀.durable) l ⊆ B →
      (∀ w', Issued w₀ (qs ++ patchWrites op (applyWrites qs w₀.durable) l) w' →
        InBatch L (k ()) t w₀ B w' ps Q) → InBatch L (forEach l m >>= k) t w₀ B w ps Q
  | [], qs, w, hw, _, hk => hk w (by simpa [patchWrites] using hw)
  | x :: l, qs, w, hw, hB, hk => by
    have hv : w.visible = applyWrites qs w₀.durable := by simp [World.visible, hw.pending, hw.durable, hp]
    have happ : qs ++ patchWrites op (applyWrites qs w₀.durable) (x :: l) =
        (qs ++ [⟨op, x.1, x.2 (w.visible x.1)⟩]) ++
          patchWrites op (applyWrites (qs ++ [⟨op, x.1, x.2 (w.visible x.1)⟩]) w₀.durable) l := by
      simp [patchWrites, hv, applyWrites_append]
    rw [happ] at hB hk
    have hx : qs ++ [⟨op, x.1, x.2 (w.visible x.1)⟩] ⊆ B := fun y hy => hB (List.mem_append_left _ hy)
    rw [forEach, bind_assoc]
    unfold InBatch
    rw [ends_bind]
    refine (hm x t w).mono ?_ ?_ ?_
    · rintro - t' w' ⟨ht, hi⟩
      rw [ht]
      exact inBatch_patches op hm hp l _ w' (hw.trans hi) hB hk
    · rintro e t' w' ⟨hL, hi, hlt⟩
      exact ⟨(hw.trans hi).within_cons hp hx, hL, hw.faults.trans_lt hlt⟩
    · intro w' hi
      exact (hw.trans hi).within_cons hp hx

theorem inBatch_patches_nil (op : κ) {m : (ℕ × (β → β)) → Prog τ β κ Unit}
    (hm : ∀ x t w, Ends (m x) t w (fun _ t' w' => t' = t ∧ Issued w [⟨op, x.1, x.2 (w.visible x.1)⟩] w')
      (fun _ t' w' => L t' ∧ Issued w [⟨op, x.1, x.2 (w.visible x.1)⟩] w' ∧ w.faults < w'.faults)
      (fun w' => Issued w [⟨op, x.1, x.2 (w.visible x.1)⟩] w')) (hp : w₀.pending = [])
    (l : List (ℕ × (β → β))) (hk : ∀ w', Issued w₀ (patchWrites op w₀.durable l) w' →
      InBatch L (k ()) t w₀ (patchWrites op w₀.durable l) w' ps Q) :
    InBatch L (forEach l m >>= k) t w₀ (patchWrites op w₀.durable l) w₀ ps Q :=
  inBatch_patches op hm hp l [] w₀ (Issued.refl w₀) (List.Subset.refl _) hk

/-- The sync that ends the batch; what comes after it refuses nothing. -/
theorem inBatch_sync {m : Prog τ β κ Unit} (hm : Syncs L m) (hw : Issued w₀ B w) (hp : w₀.pending = [])
    (hk : ∀ w', w₀.Wrote [B] w' → Phased L (k ()) t w' ps Q (fun _ => False) (fun _ => False)) :
    InBatch L (m >>= k) t w₀ B w ps Q := by
  -- a sync that does not succeed leaves the whole batch pending
  have hall : ∀ w', w.Same w' → w₀.Within (B :: ps) w' := fun w' hs =>
    (hw.same hs).within_cons hp (List.Subset.refl _)
  unfold InBatch
  rw [ends_bind]
  refine (hm t w).mono ?_ ?_ ?_
  · rintro - t' w' ⟨rfl, k1, k2, k3, k4, k5⟩
    have hsynced : w₀.Wrote [B] w' := by
      refine ⟨k1.trans hw.size, hw.faults.trans k4, ?_, ?_, k3⟩
      · exact World.Logged.trans (hw.log.mono fun d p hd => ⟨0, by simpa using hd.1, by simpa using hd.2⟩)
          (k5.mono fun _ _ h => h.elim)
      · rw [k2, World.visible, hw.pending, hw.durable, hp]
        simp
    refine Ends.mono (hk w' hsynced) ?_ ?_ ?_
    · rintro a t'' w'' ⟨hQ, h2⟩
      exact ⟨hQ, hsynced.trans h2⟩
    · rintro e' t'' w'' (⟨h2, hL, hlt⟩ | ⟨-, hK, -⟩)
      · exact ⟨hsynced.within_append h2, hL, hsynced.faults.trans_lt hlt⟩
      · exact hK.elim
    · intro w'' h2
      exact hsynced.within_append h2
  · rintro e' t' w' ⟨hL, hs, hlt⟩
    exact ⟨hall w' hs, hL, hw.faults.trans_lt hlt⟩
  · intro w' hs
    exact hall w' hs

end Batch

theorem phased_withState {σ : Type} {L' : σ → Prop} {K' : σ → Prop} {s : σ} {m : Prog σ β κ α}
    {Q : α → σ → Prop} (h : Phased L' m s w ps Q K' R) (hL : L t) (hK : K t) :
    Phased L (withState s m) t w ps (fun a t' => Q a.1 a.2 ∧ t' = t) K R := by
  unfold Phased
  rw [ends_withState]
  refine Ends.mono h ?_ ?_ ?_
  · rintro a t' w' ⟨hQ, h1⟩
    exact ⟨⟨hQ, rfl⟩, h1⟩
  · rintro e t' w' (⟨h1, -, h2⟩ | ⟨h1, -, h2⟩)
    · exact Or.inl ⟨h1, hL, h2⟩
    · exact Or.inr ⟨h1, hK, h2⟩
  · intro w' h1
    exact h1

end Sequence

end Prog

end Eufs
