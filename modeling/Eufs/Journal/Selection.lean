import Eufs.Journal.Ordering

/-!
# Eufs.Journal.Selection — control updates that fail

A control update goes to the copy that is not current.  When it fails, the store is reopened, and what it finds
depends on what the failed write left: nothing, a complete control, or a block that does not decode.  `Updates` are
the runs of updates and reopenings; along them the two copies always stand in the same relation, and what is selected
is the control of the last update or the one that update started from.
-/

namespace Eufs

open Prog

variable {s : JournalControlStore} {w : Disk} {next : JournalControl} {sb : Superblock}

/-- What has been asked of the store: the last control whose update was acknowledged, those attempted since, newest
first, and the control the newest update started from. -/
structure Asked where
  acknowledged : JournalControl
  attempted : List JournalControl
  base : JournalControl

/-- An update that the store does not accept changes nothing. -/
theorem persistNext_refuses (hl : s.reloadRequired = false) (hn : ¬ Succeeds s next) :
    ∃ e, persistNext next s w = .fail e s w := by
  unfold persistNext
  rw [get_bind, failIf_bind, if_neg (by simp [hl]), failIf_bind]
  split_ifs with hid
  · exact ⟨_, rfl⟩
  rw [failIf_bind]
  split_ifs with hg
  · exact ⟨_, rfl⟩
  cases henc : encodeControl next with
  | error text => exact ⟨_, rfl⟩
  | ok b =>
    simp only [not_or, not_not] at hid hg
    exact absurd ⟨hid.1, hg, (encodeControl_eq_ok.mp henc).1⟩ hn

/-- An accepted update that does not return leaves the old or the new control; any other leaves the image. -/
theorem persistNext_crash {v : Disk} {img : Image} {copy : ControlCopy} {c : JournalControl} (hsb : sb.Regions)
    (hp : w.pending = []) (hcontrols : Controls sb w.durable c copy)
    (hs : s.superblock = sb ∧ s.current = c ∧ s.currentCopy = copy ∧ s.reloadRequired = false)
    (hr : (∃ e s', persistNext next s w = .fail e s' v) ∨ persistNext next s w = .stop v)
    (hc : v.Crash (Torn sb) img) : (∃ copy', Controls sb img c copy') ∨ Controls sb img next copy.other := by
  obtain ⟨rfl, rfl, rfl, hl⟩ := hs
  obtain ⟨hdec, hu, hring⟩ := usableControl_eq_some.mp hcontrols.current
  by_cases hn : Succeeds s next
  · have hok : StoreOk s := ⟨hsb, decodeControl_valid hdec, hu, hring⟩
    have hrun := phased_persistNext (R := fun _ => False) hp hok hl hn
    have hw : w.Within [[controlWrite s.superblock s.currentCopy.other next]] v := by
      rcases hr with ⟨e, s', hr⟩ | hr
      · rcases Ends.fail hrun hr with h | ⟨-, h, -⟩
        · exact h.1
        · exact h.elim
      · exact Ends.stop hrun hr
    exact hcontrols.crash hsb hn.valid hn.identity hn.generation (hw.crashesIn hc).single
  · obtain ⟨e, he⟩ := persistNext_refuses (w := w) hl hn
    have hv : v = w := by
      rcases hr with ⟨e', s', hr⟩ | hr <;> rw [he] at hr <;> cases hr
      rfl
    rw [hv] at hc
    rw [hc.eq_of_pending_nil hp]
    exact Or.inl ⟨_, hcontrols⟩

/-- The invariant of a run: `c` is selected, the other copy is in order, and an open store knows them. -/
structure UpdatesInv (sb : Superblock) (d : Image) (s : Option JournalControlStore) (a : Asked) (c : JournalControl)
    (copy : ControlCopy) : Prop where
  controls : Controls sb d c copy
  store : ∀ s' ∈ s, s'.superblock = sb ∧ s'.current = c ∧ s'.currentCopy = copy ∧ s'.reloadRequired = false
  last : a.attempted.head? = some c ∨ c = a.base
  since : c = a.acknowledged ∨ c ∈ a.attempted

theorem UpdatesInv.crash {v : Disk} {img : Image} {a : Asked} {c : JournalControl} {copy : ControlCopy}
    (h : UpdatesInv sb w.durable (some s) a c copy) (hsb : sb.Regions) (hp : w.pending = [])
    (hr : (∃ e s', persistNext next s w = .fail e s' v) ∨ persistNext next s w = .stop v)
    (hc : v.Crash (Torn sb) img) :
    ∃ c' copy', UpdatesInv sb img none ⟨a.acknowledged, next :: a.attempted, s.current⟩ c' copy' := by
  have hs := h.store s rfl
  rcases persistNext_crash hsb hp h.controls hs hr hc with ⟨copy', hold⟩ | hnew
  · refine ⟨c, copy', hold, fun s' hs' => absurd hs' (by simp), Or.inr hs.2.1.symm, ?_⟩
    exact h.since.imp_right fun hm => List.mem_cons_of_mem _ hm
  · exact ⟨next, copy.other, hnew, fun s' hs' => absurd hs' (by simp), Or.inl rfl, Or.inr List.mem_cons_self⟩

end Eufs
