import Mathlib.Tactic
import Mathlib.Data.List.Basic
import Mathlib.Logic.Function.Basic

/-!
# Eufs.Base.DiskIo — block-device programs, their failures and their crashes

A program reads and writes whole blocks of a file through system calls and keeps a local state.  The results of
the calls come from a script, one entry a call, so a program is a plain function; when the script runs out the
machine has stopped inside the call, and running all scripts runs every crash point.

* `World`: what is durable, the block writes issued since the last successful `fdatasync`, the script, the trace.
* `World.Crash T`: the images a crash can leave.  Every pending write is absent, complete or torn, independently;
  `T a x y` says which contents `y` a torn write over the durable content `x` of block `a` may leave.
* `Ends m t w Q E C`: `m` started in `t`, `w` returns with `Q`, fails with `E`, or stops in `C`.
-/

namespace Eufs

open Function

/-! ## System calls -/

/-- The errors a call can report. -/
inductive Errno where
  | EPERM | ENOENT | EINTR | EIO | E2BIG | EACCES | EBUSY | EEXIST | ENOTDIR | EISDIR | EINVAL | EFBIG | ENOSPC
  | ENOMEM | EOVERFLOW | EOPNOTSUPP | EALREADY | ESTALE | EUCLEAN
  | other (n : ℕ)
  deriving DecidableEq

/-- The host's text for an error. -/
def strerror : Errno → String
  | .EPERM => "Operation not permitted"
  | .ENOENT => "No such file or directory"
  | .EINTR => "Interrupted system call"
  | Errno.EIO => "Input/output error"
  | .E2BIG => "Argument list too long"
  | .EACCES => "Permission denied"
  | .EBUSY => "Device or resource busy"
  | .EEXIST => "File exists"
  | .ENOTDIR => "Not a directory"
  | .EISDIR => "Is a directory"
  | .EINVAL => "Invalid argument"
  | .EFBIG => "File too large"
  | .ENOSPC => "No space left on device"
  | .ENOMEM => "Cannot allocate memory"
  | .EOVERFLOW => "Value too large for defined data type"
  | .EOPNOTSUPP => "Operation not supported"
  | .EALREADY => "Operation already in progress"
  | .ESTALE => "Stale file handle"
  | .EUCLEAN => "Structure needs cleaning"
  | .other n => "Unknown error " ++ toString n

/-- What one system call returns; `err` is `errno`, `none` when it is zero. -/
structure Sys where
  ret : ℤ
  err : Option Errno
  deriving DecidableEq

/-- A failed call of the program: the error it returns and the text it leaves. -/
structure Failure where
  errno : Errno
  detail : String
  deriving DecidableEq

/-- One block write; `op` is what the program calls it. -/
structure Write (β κ : Type) where
  op : κ
  addr : ℕ
  data : β

/-- One operation on the file; `done` is whether it succeeded.  A write also keeps, as a ghost, the image that was
durable when it was issued, so that an ordering rule is a property of single events. -/
inductive Event (β κ : Type) where
  | pread (op : κ) (addr : ℕ) (done : Bool)
  | pwrite (stable : ℕ → β) (p : Write β κ) (done : Bool)
  | fdatasync (op : κ) (done : Bool)
  | syscall (op : κ) (done : Bool)

/-- Whether the operation succeeded. -/
def Event.ok {β κ : Type} : Event β κ → Bool
  | .pread _ _ d => d
  | .pwrite _ _ d => d
  | .fdatasync _ d => d
  | .syscall _ d => d

/-- The file as the program and the storage see it. -/
structure World (β κ : Type) where
  /-- Length of the file in blocks. -/
  size : ℕ
  /-- What survives a crash for sure. -/
  durable : ℕ → β
  /-- Block writes issued since the last successful `fdatasync`, oldest first. -/
  pending : List (Write β κ)
  /-- Results of the system calls still to come. -/
  script : List Sys
  /-- What has been done, newest first. -/
  trace : List (Event β κ)

variable {β κ τ α γ : Type} {t t' : τ} {a : α}

/-- Block writes applied in order. -/
def applyWrites (ws : List (Write β κ)) (d : ℕ → β) : ℕ → β :=
  ws.foldl (fun d p => update d p.addr p.data) d

/-- What a read sees: the pending writes over the durable image. -/
def World.visible (w : World β κ) : ℕ → β := applyWrites w.pending w.durable

/-- The number of operations that failed so far. -/
def World.faults (w : World β κ) : ℕ := w.trace.countP fun e => !e.ok

/-- `img` is an image a crash in `w` can leave: every pending block write is absent, complete or torn. -/
def World.Crash (T : ℕ → β → β → Prop) (w : World β κ) (img : ℕ → β) : Prop :=
  ∀ a, img a = w.durable a ∨
    ∃ p ∈ w.pending, p.addr = a ∧ (img a = p.data ∨ T a (w.durable a) (img a))

/-! ### Writes -/

@[simp] theorem applyWrites_nil (d : ℕ → β) : applyWrites ([] : List (Write β κ)) d = d := rfl

@[simp] theorem applyWrites_cons (p : Write β κ) (ws : List (Write β κ)) (d : ℕ → β) :
    applyWrites (p :: ws) d = applyWrites ws (update d p.addr p.data) := rfl

theorem applyWrites_append (ws vs : List (Write β κ)) (d : ℕ → β) :
    applyWrites (ws ++ vs) d = applyWrites vs (applyWrites ws d) := by
  simp [applyWrites, List.foldl_append]

theorem applyWrites_of_not_mem : ∀ (ws : List (Write β κ)) (d : ℕ → β) (a : ℕ),
    (∀ p ∈ ws, p.addr ≠ a) →
    applyWrites ws d a = d a
  | [], _, _, _ => rfl
  | p :: ws, d, a, h => by
    rw [applyWrites_cons, applyWrites_of_not_mem ws _ a fun q hq => h q (List.mem_cons_of_mem _ hq),
      update_of_ne (h p List.mem_cons_self).symm]

/-- With distinct targets a written block holds what was written. -/
theorem applyWrites_of_mem : ∀ (ws : List (Write β κ)) (d : ℕ → β), (ws.map Write.addr).Nodup →
    ∀ p ∈ ws, applyWrites ws d p.addr = p.data
  | [], _, _, _, h => by simp at h
  | q :: ws, d, hn, p, h => by
    simp only [List.map_cons, List.nodup_cons, List.mem_map, not_exists, not_and] at hn
    rw [applyWrites_cons]
    rcases List.mem_cons.mp h with rfl | h
    · rw [applyWrites_of_not_mem ws _ _ hn.1, update_self]
    · exact applyWrites_of_mem ws _ hn.2 p h

/-- A written block holds one of the contents written to it. -/
theorem applyWrites_mem : ∀ (ws : List (Write β κ)) (d : ℕ → β) (a : ℕ), a ∈ ws.map Write.addr →
    ∃ p ∈ ws, p.addr = a ∧ applyWrites ws d a = p.data
  | q :: ws, d, a, h => by
    rw [applyWrites_cons]
    by_cases ha : a ∈ ws.map Write.addr
    · obtain ⟨p, hp, h1, h2⟩ := applyWrites_mem ws (update d q.addr q.data) a ha
      exact ⟨p, List.mem_cons_of_mem _ hp, h1, h2⟩
    · simp only [List.map_cons, List.mem_cons, ha, or_false] at h
      refine ⟨q, List.mem_cons_self, h.symm, ?_⟩
      rw [applyWrites_of_not_mem ws _ a fun p hp he => ha (List.mem_map.mpr ⟨p, hp, he⟩), h,
        update_self]

@[simp] theorem World.visible_of_pending_nil {w : World β κ} (h : w.pending = []) :
    w.visible = w.durable := by
  simp [World.visible, h]

/-! ### Crashes -/

theorem World.Crash.eq_of_pending_nil {T : ℕ → β → β → Prop} {w : World β κ} {img : ℕ → β}
    (h : w.Crash T img) (hp : w.pending = []) : img = w.durable := by
  funext a
  rcases h a with h | ⟨p, hp', -⟩
  · exact h
  · simp [hp] at hp'

/-- Keeping every pending write whole is one of the crashes. -/
theorem World.Crash.visible {T : ℕ → β → β → Prop} (w : World β κ) : w.Crash T w.visible := by
  intro a
  by_cases ha : a ∈ w.pending.map Write.addr
  · obtain ⟨p, hp, h1, h2⟩ := applyWrites_mem w.pending w.durable a ha
    exact Or.inr ⟨p, hp, h1, Or.inl h2⟩
  · exact Or.inl (applyWrites_of_not_mem _ _ _ fun p hp he => ha (List.mem_map.mpr ⟨p, hp, he⟩))

/-! ## Programs -/

/-- How a run ends.  A stopped machine keeps no local state. -/
inductive Res (τ β κ α : Type) where
  | ok (a : α) (t : τ) (w : World β κ)
  | fail (e : Failure) (t : τ) (w : World β κ)
  | stop (w : World β κ)

/-- The world a run ends in. -/
def Res.world : Res τ β κ α → World β κ
  | .ok _ _ w => w
  | .fail _ _ w => w
  | .stop w => w

/-- A program with local state `τ` over block contents `β`; `κ` names the operations in the trace. -/
def Prog (τ β κ α : Type) : Type := τ → World β κ → Res τ β κ α

namespace Prog

/-- Run on, unless the first part failed or stopped. -/
def bind (m : Prog τ β κ α) (f : α → Prog τ β κ γ) : Prog τ β κ γ := fun t w =>
  match m t w with
  | .ok a t' w' => f a t' w'
  | .fail e t' w' => .fail e t' w'
  | .stop w' => .stop w'

instance : Monad (Prog τ β κ) where
  pure a := fun t w => .ok a t w
  bind := bind

theorem bind_assoc {δ : Type} (m : Prog τ β κ α) (f : α → Prog τ β κ γ) (g : γ → Prog τ β κ δ) :
    (m >>= f) >>= g = m >>= fun a => f a >>= g := by
  funext t w
  show Prog.bind (Prog.bind m f) g t w = Prog.bind m (fun a => Prog.bind (f a) g) t w
  unfold Prog.bind
  cases m t w <;> rfl

theorem bind_pure (m : Prog τ β κ α) : m >>= pure = m := by
  funext t w
  show Prog.bind m pure t w = m t w
  unfold Prog.bind
  cases m t w <;> rfl

theorem bind_ok {m : Prog τ β κ α} {f : α → Prog τ β κ γ} {w w' : World β κ} {c : γ} :
    (m >>= f) t w = .ok c t' w' ↔ ∃ a t₁ w₁, m t w = .ok a t₁ w₁ ∧ f a t₁ w₁ = .ok c t' w' := by
  show Prog.bind m f t w = .ok c t' w' ↔ _
  unfold Prog.bind
  cases m t w <;> simp

theorem bind_of_fail {m : Prog τ β κ α} {f : α → Prog τ β κ γ} {w w' : World β κ} {e : Failure}
    (h : m t w = .fail e t' w') : (m >>= f) t w = .fail e t' w' := by
  show Prog.bind m f t w = .fail e t' w'
  unfold Prog.bind
  rw [h]

/-- Fail here, keeping the local state. -/
def throw (e : Failure) : Prog τ β κ α := fun t w => .fail e t w

/-- The local state. -/
def get : Prog τ β κ τ := fun t w => .ok t t w

/-- The length of the file. -/
def fileSize : Prog τ β κ ℕ := fun t w => .ok w.size t w

/-- Change the local state. -/
def modify (f : τ → τ) : Prog τ β κ Unit := fun t w => .ok () (f t) w

/-- A pure computation that may fail. -/
def ofExcept : Except Failure α → Prog τ β κ α
  | .ok a => fun t w => .ok a t w
  | .error e => throw e

theorem ofExcept_ok {x : Except Failure α} {w w' : World β κ} :
    (ofExcept x : Prog τ β κ α) t w = .ok a t' w' ↔ x = .ok a ∧ t' = t ∧ w' = w := by
  cases x with
  | ok b => simp [ofExcept, eq_comm]
  | error e => simp [ofExcept, throw]

/-- Fail with `errno` and `detail` when `c` holds. -/
def failIf (c : Prop) [Decidable c] (errno : Errno) (detail : String) : Prog τ β κ Unit :=
  if c then throw ⟨errno, detail⟩ else pure ()

/-- On failure of `m` change the local state before returning the error. -/
def onFail (m : Prog τ β κ α) (f : τ → τ) : Prog τ β κ α := fun t w =>
  match m t w with
  | .ok a t' w' => .ok a t' w'
  | .fail e t' w' => .fail e (f t') w'
  | .stop w' => .stop w'

/-- Run a program with a local state of its own. -/
def withState {σ : Type} (t₀ : σ) (m : Prog σ β κ α) : Prog τ β κ (α × σ) := fun t w =>
  match m t₀ w with
  | .ok a t' w' => .ok (a, t') t w'
  | .fail e _ w' => .fail e t w'
  | .stop w' => .stop w'

/-- Run `f` on every element in turn. -/
def forEach : List γ → (γ → Prog τ β κ Unit) → Prog τ β κ Unit
  | [], _ => pure ()
  | x :: l, f => do f x; forEach l f

theorem get_bind {k : τ → Prog τ β κ γ} {w : World β κ} : (get >>= k) t w = k t t w := rfl

theorem modify_bind {f : τ → τ} {k : Unit → Prog τ β κ γ} {w : World β κ} :
    (modify f >>= k) t w = k () (f t) w := rfl

theorem failIf_bind {c : Prop} [Decidable c] {n : Errno} {d : String} {k : Unit → Prog τ β κ γ}
    {w : World β κ} : (failIf c n d >>= k) t w = if c then .fail ⟨n, d⟩ t w else k () t w := by
  unfold failIf
  split_ifs <;> rfl

theorem forEach_failIf_bind_of_not {c : α → Prop} [∀ x, Decidable (c x)] {n : Errno} {d : String}
    {k : Unit → Prog τ β κ γ} {t : τ} {w : World β κ} : ∀ {l : List α}, (∀ x ∈ l, ¬ c x) →
      (forEach l (fun x => failIf (c x) n d) >>= k) t w = k () t w
  | [], _ => rfl
  | x :: l, h => by
    rw [forEach, bind_assoc, failIf_bind, if_neg (h x List.mem_cons_self)]
    exact forEach_failIf_bind_of_not fun y hy => h y (List.mem_cons_of_mem x hy)

theorem forEach_failIf_bind {c : α → Prop} [∀ x, Decidable (c x)] {n : Errno} {d : String}
    {k : Unit → Prog τ β κ γ} {t : τ} {w : World β κ} : ∀ {l : List α}, (∃ x ∈ l, c x) →
      (forEach l (fun x => failIf (c x) n d) >>= k) t w = .fail ⟨n, d⟩ t w
  | [], h => by
    obtain ⟨x, hx, -⟩ := h
    exact absurd hx List.not_mem_nil
  | x :: l, h => by
    rw [forEach, bind_assoc, failIf_bind]
    by_cases hx : c x
    · rw [if_pos hx]
    · rw [if_neg hx]
      obtain ⟨y, hy, hc⟩ := h
      rcases List.mem_cons.mp hy with rfl | hy
      · exact absurd hc hx
      · exact forEach_failIf_bind ⟨y, hy, hc⟩

/-- `m` from `t`, `w` returns with `Q`, fails with `E` or stops in `C`. -/
def Ends (m : Prog τ β κ α) (t : τ) (w : World β κ) (Q : α → τ → World β κ → Prop)
    (E : Failure → τ → World β κ → Prop) (C : World β κ → Prop) : Prop :=
  match m t w with
  | .ok a t' w' => Q a t' w'
  | .fail e t' w' => E e t' w'
  | .stop w' => C w'

section Rules

variable {t : τ} {w : World β κ} {E : Failure → τ → World β κ → Prop} {C : World β κ → Prop}

theorem Ends.mono {m : Prog τ β κ α} {Q Q' : α → τ → World β κ → Prop}
    {E' : Failure → τ → World β κ → Prop} {C' : World β κ → Prop} (h : Ends m t w Q E C)
    (hQ : ∀ a t' w', Q a t' w' → Q' a t' w') (hE : ∀ e t' w', E e t' w' → E' e t' w')
    (hC : ∀ w', C w' → C' w') : Ends m t w Q' E' C' := by
  unfold Ends at *
  cases hm : m t w with
  | ok a t' w' => rw [hm] at h; exact hQ _ _ _ h
  | fail e t' w' => rw [hm] at h; exact hE _ _ _ h
  | stop w' => rw [hm] at h; exact hC _ h

section

variable {m : Prog τ β κ α} {Q : α → τ → World β κ → Prop} (h : Ends m t w Q E C)

include h

theorem Ends.and {Q' : α → τ → World β κ → Prop} {E' : Failure → τ → World β κ → Prop}
    {C' : World β κ → Prop} (h' : Ends m t w Q' E' C') : Ends m t w (fun a t w => Q a t w ∧ Q' a t w)
      (fun e t w => E e t w ∧ E' e t w) (fun w => C w ∧ C' w) := by
  unfold Ends at *
  cases hm : m t w with
  | ok a t' w' => rw [hm] at h h'; exact ⟨h, h'⟩
  | fail e t' w' => rw [hm] at h h'; exact ⟨h, h'⟩
  | stop w' => rw [hm] at h h'; exact ⟨h, h'⟩

theorem Ends.ok {w' : World β κ} (hm : m t w = .ok a t' w') : Q a t' w' := by
  unfold Ends at h; rwa [hm] at h

theorem Ends.fail {e : Failure} {w' : World β κ} (hm : m t w = .fail e t' w') : E e t' w' := by
  unfold Ends at h; rwa [hm] at h

theorem Ends.stop {w' : World β κ} (hm : m t w = .stop w') : C w' := by
  unfold Ends at h; rwa [hm] at h

end

/-- What holds of every end holds of the world a run ends in. -/
theorem Ends.world {m : Prog τ β κ α} {P : World β κ → Prop} (h : Ends m t w (fun _ _ => P) (fun _ _ => P) P) :
    P (m t w).world := by
  unfold Ends at h
  cases hm : m t w with
  | ok a t' w' => rwa [hm] at h
  | fail e t' w' => rwa [hm] at h
  | stop w' => rwa [hm] at h

@[simp] theorem ends_pure {Q : α → τ → World β κ → Prop} :
    Ends (pure a) t w Q E C ↔ Q a t w := Iff.rfl

@[simp] theorem ends_bind {m : Prog τ β κ α} {f : α → Prog τ β κ γ}
    {Q : γ → τ → World β κ → Prop} :
    Ends (m >>= f) t w Q E C ↔ Ends m t w (fun a t' w' => Ends (f a) t' w' Q E C) E C := by
  show Ends (Prog.bind m f) t w Q E C ↔ _
  unfold Ends Prog.bind
  cases m t w <;> rfl

theorem ends_onFail {m : Prog τ β κ α} {f : τ → τ} {Q : α → τ → World β κ → Prop} :
    Ends (onFail m f) t w Q E C ↔ Ends m t w Q (fun e t' w' => E e (f t') w') C := by
  unfold Ends onFail
  cases m t w <;> rfl

theorem ends_withState {σ : Type} {s : σ} {m : Prog σ β κ α} {Q : α × σ → τ → World β κ → Prop} :
    Ends (withState s m) t w Q E C ↔
      Ends m s w (fun a s' w' => Q (a, s') t w') (fun e _ w' => E e t w') C := by
  unfold Ends withState
  cases m s w <;> rfl

end Rules

/-! ## The calls -/

/-- How a transfer of a whole block went, with the rest of the script. -/
inductive Transfer where
  | complete (rest : List Sys)
  | failed (r : Sys) (rest : List Sys)
  | badLength (rest : List Sys)
  | stopped
  deriving DecidableEq

/-- The transfer loop: repeat the call for the bytes still missing, ignoring `EINTR`; zero or a negative result
ends it, and so does a result longer than what was asked for when `checked`. -/
def transfer (size : ℕ) (checked : Bool) (completed : ℕ) : List Sys → Transfer
  | [] => if size ≤ completed then .complete [] else .stopped
  | r :: rest =>
    if size ≤ completed then .complete (r :: rest)
    else if r.ret < 0 ∧ r.err = some .EINTR then transfer size checked completed rest
    else if r.ret ≤ 0 then .failed r rest
    else if checked ∧ size - completed < r.ret.toNat then .badLength rest
    else transfer size checked (completed + r.ret.toNat) rest

/-- The error of a failed transfer; a transfer without progress is `EIO`. -/
def transferError (r : Sys) : Errno := if r.ret < 0 then r.err.getD Errno.EIO else Errno.EIO

variable (text : κ → String)

/-- The text a failed system call leaves. -/
def systemFailure (op : κ) (e : Errno) : Failure := ⟨e, text op ++ ": " ++ strerror e⟩

/-- Read block `a`; past the end of the file the call returns zero bytes, which is `EIO`. -/
def preadAll (bytes : ℕ) (op : κ) (a : ℕ) : Prog τ β κ β := fun t w =>
  match transfer bytes false 0 w.script with
  | .complete rest =>
    if a < w.size then .ok (w.visible a) t { w with script := rest, trace := .pread op a true :: w.trace }
    else .fail (systemFailure text op Errno.EIO) t { w with script := rest, trace := .pread op a false :: w.trace }
  | .failed r rest =>
    .fail (systemFailure text op (transferError r)) t
      { w with script := rest, trace := .pread op a false :: w.trace }
  | .badLength rest =>
    .fail (systemFailure text op Errno.EIO) t { w with script := rest, trace := .pread op a false :: w.trace }
  | .stopped => .stop { w with script := [], trace := .pread op a false :: w.trace }

/-- Write one block, which may be computed from what the file holds now.  The write counts as issued whether or not
the loop got to its end; `report` is the error for a call that failed or made no progress, `invalid` the one for a
call that claims to have written more than it was given, which is looked at only when `checked`. -/
def writeAll (bytes : ℕ) (checked : Bool) (report : Sys → Failure) (invalid : Failure)
    (f : (ℕ → β) → Write β κ) : Prog τ β κ Unit := fun t w =>
  let p := f w.visible
  match transfer bytes checked 0 w.script with
  | .complete rest =>
    .ok () t { w with pending := w.pending ++ [p], script := rest, trace := .pwrite w.durable p true :: w.trace }
  | .failed r rest =>
    .fail (report r) t
      { w with pending := w.pending ++ [p], script := rest, trace := .pwrite w.durable p false :: w.trace }
  | .badLength rest =>
    .fail invalid t
      { w with pending := w.pending ++ [p], script := rest, trace := .pwrite w.durable p false :: w.trace }
  | .stopped =>
    .stop { w with pending := w.pending ++ [p], script := [], trace := .pwrite w.durable p false :: w.trace }

/-- Write a given block, with the checks and texts of the journal store. -/
def pwriteAll (bytes : ℕ) (invalid : String) (p : Write β κ) : Prog τ β κ Unit :=
  writeAll bytes true (fun r => systemFailure text p.op (transferError r)) ⟨ Errno.EIO, invalid⟩ fun _ => p

/-- Make everything written so far durable. -/
def fdatasync (op : κ) : Prog τ β κ Unit := fun t w =>
  match w.script with
  | [] => .stop { w with trace := .fdatasync op false :: w.trace }
  | r :: rest =>
    if r.ret = 0 then
      .ok () t { w with durable := w.visible, pending := [], script := rest,
                        trace := .fdatasync op true :: w.trace }
    else
      .fail (systemFailure text op (r.err.getD Errno.EIO)) t
        { w with script := rest, trace := .fdatasync op false :: w.trace }

/-- Change the length of the file to `n` blocks; new blocks read as `zero`.  The new length is durable at once. -/
def ftruncate (zero : β) (op : κ) (n : ℕ) : Prog τ β κ Unit := fun t w =>
  match w.script with
  | [] => .stop { w with trace := .syscall op false :: w.trace }
  | r :: rest =>
    if 0 ≤ r.ret then
      .ok () t { size := n, durable := fun a => if a < w.size ∧ a < n then w.durable a else zero
                 pending := w.pending.filter fun p => p.addr < n, script := rest
                 trace := .syscall op true :: w.trace }
    else .fail (systemFailure text op (r.err.getD Errno.EIO)) t
        { w with script := rest, trace := .syscall op false :: w.trace }

/-- Any other system call; a negative result is an error. -/
def syscall (op : κ) : Prog τ β κ Unit := fun t w =>
  match w.script with
  | [] => .stop { w with trace := .syscall op false :: w.trace }
  | r :: rest =>
    if 0 ≤ r.ret then .ok () t { w with script := rest, trace := .syscall op true :: w.trace }
    else .fail (systemFailure text op (r.err.getD Errno.EIO)) t
        { w with script := rest, trace := .syscall op false :: w.trace }

end Prog

end Eufs
