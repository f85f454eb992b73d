import Wheelson.Control.Frame

namespace Wheelson.Control

/-!
# Steps cut short by the alert

`exe_handler` sleeps between `MOVE_FORW` and `MOTOR_STOP` and then records the step, without
asking whether the interrupt stopped the motors meanwhile.

* `Watch` — the machine, with whether U_ALERT has been high during the forward step.
* `Watch.Honest` — the next step of the machine changes the recorded position only after a
  forward step that was not disturbed.
* `Sys.Cuts` — the alert cuts a forward step short here: it rises during it, or is high when
  it begins, and the step would be recorded.
* `recorded_of_cuts` — such a step is recorded all the same.
* `honest_iff` — hence the records are honest exactly when no forward step is cut short.
-/

open Machine Ipc MotorCmd

/-! ### Watching a forward step -/

/-- The machine, and whether U_ALERT has been high since the last `MOVE_FORW`, up to the
    `MOTOR_STOP` that ends it. -/
structure Watch where
  sys : Sys
  disturbed : Bool

def watchStep (w : Watch) (a : Act) : Option Watch :=
  (step w.sys a).map fun s' =>
    { sys := s'
      disturbed :=
        match w.sys.pc with
        | .exe .forw => s'.u_alert
        | .exe .sleep | .exe .stop => w.disturbed || s'.u_alert
        | _ => w.disturbed }

variable {w w' : Watch} {s s' : Sys} {a : Act} {junk : Pos}

/-- The recorded position changes only after a forward step that the alert left alone. -/
def Watch.Honest (w : Watch) : Prop :=
  ∀ a w', watchStep w a = some w' → w'.sys.position_g ≠ w.sys.position_g → w.disturbed = false

/-- A forward step that would change the recorded position is cut short. -/
def Sys.Cuts (s : Sys) : Prop :=
  s.exe.next ≠ s.position_g ∧
    match s.pc with
    | .exe .forw => s.u_alert = true
    | .exe .sleep | .exe .stop => s.u_alert = false
    | _ => False

/-- Only in states of `ok` does U_ALERT rise, or a forward step begin while it is high. -/
def CutsIn (ok : Sys → Prop) (w : Watch) : Act → Prop
  | .edge => w.sys.u_alert = false → ok w.sys
  | .thread _ => w.sys.pc = .exe .forw → w.sys.u_alert = true → ok w.sys
  | _ => True

instance (ok : Sys → Prop) [DecidablePred ok] (w : Watch) (a : Act) : Decidable (CutsIn ok w a) :=
  match a with
  | .edge => inferInstanceAs (Decidable (_ → _))
  | .thread _ => inferInstanceAs (Decidable (_ → _ → _))
  | .command _ | .sensor _ | .drain => .isTrue trivial

/-! ### No step is cut short -/

/-- A step that will be recorded has not been disturbed so far. -/
def Watch.Sound (w : Watch) : Prop :=
  w.sys.exe.next ≠ w.sys.position_g →
    match w.sys.pc with
    | .exe .sleep | .exe .stop => w.disturbed = false ∧ w.sys.u_alert = false
    | .exe .change => w.disturbed = false
    | _ => True

theorem sound_step {ok : Sys → Prop} (hok : CutsIn ok w a) (hcuts : ok w.sys → ¬ w.sys.Cuts)
    (hs : w.Sound) (h : watchStep w a = some w') : w'.Sound := by
  obtain ⟨s', hstep, rfl⟩ := Option.map_eq_some_iff.mp h
  unfold Watch.Sound at hs ⊢
  intro hne
  cases step_cases hstep with
  | thread h =>
    cases h with
    | exeForw hpc =>
      -- the step begins, with the alert low or nothing to record
      rw [hpc]
      have hlow : w.sys.u_alert = false := by
        by_contra hhigh
        rw [Bool.not_eq_false] at hhigh
        refine hcuts (hok hpc hhigh) ⟨hne, ?_⟩
        rw [hpc]
        exact hhigh
      exact ⟨hlow, hlow⟩
    | exeSleep hpc =>
      rw [hpc] at hs ⊢
      obtain ⟨hdisturbed, hlow⟩ := hs hne
      exact ⟨by simp only [hdisturbed, Sys.goto, hlow, Bool.or_self], hlow⟩
    | exeStop hpc =>
      rw [hpc] at hs ⊢
      obtain ⟨hdisturbed, hlow⟩ := hs hne
      show (w.disturbed || w.sys.u_alert) = false
      rw [hdisturbed, hlow]
      rfl
    | @put c => cases c <;> trivial
    | _ => trivial
  | fall hpin =>
    -- the alert was high, so nothing is to be recorded
    have hs := hs hne
    rw [show w.sys.fall.pc = w.sys.pc from rfl]
    cases hpc : w.sys.pc with
    | exe p =>
      rw [hpc] at hs
      cases p with
      | sleep | stop =>
        rw [hpin] at hs
        cases hs.2
      | change => exact hs
      | _ => trivial
    | _ => trivial
  | rise hpin =>
    have hs := hs hne
    have hcut : ¬ w.sys.Cuts := hcuts (hok hpin)
    unfold Sys.Cuts at hcut
    rw [show w.sys.rise.pc = w.sys.pc from rfl]
    cases hpc : w.sys.pc with
    | exe p =>
      rw [hpc] at hs hcut
      cases p with
      | sleep | stop => exact absurd ⟨hne, hpin⟩ hcut
      | change => exact hs
      | _ => trivial
    | _ => trivial
  | command | sensor | drain =>
    have hs := hs hne
    dsimp only
    cases hpc : w.sys.pc with
    | exe p =>
      rw [hpc] at hs
      cases p with
      | sleep | stop => exact ⟨by rw [hs.1, hs.2, Bool.or_self], hs.2⟩
      | change => exact hs
      | _ => trivial
    | _ => trivial

theorem honest_of_sound (hs : w.Sound) : w.Honest := by
  intro a w' h hmoved
  obtain ⟨s', hstep, rfl⟩ := Option.map_eq_some_iff.mp h
  cases step_cases hstep with
  | thread h =>
    obtain hpos | ⟨hpc, hpos⟩ := position_stmt h
    · exact absurd hpos hmoved
    · have hchange := hs fun hnext => hmoved (hpos.trans hnext)
      rw [hpc] at hchange
      exact hchange
  | fall | rise | command | sensor | drain => exact absurd rfl hmoved

/-! ### A step cut short -/

section cuts

variable (ok : Sys → Prop) [DecidablePred ok]

/-- The watched machine, cut short in states of `ok` only. -/
def watchIn : Watch → Act → Option Watch := restrict (CutsIn ok) watchStep

/-- A disturbed step goes on to the record. -/
theorem recorded_of_disturbed (hpc : w.sys.pc = .exe .sleep ∨ w.sys.pc = .exe .stop)
    (hnext : w.sys.exe.next ≠ w.sys.position_g) (hd : w.disturbed = true) :
    CanReach (watchIn ok) w fun w => ¬ w.Honest := by
  have hstop (w : Watch) (hpc : w.sys.pc = .exe .stop)
      (hnext : w.sys.exe.next ≠ w.sys.position_g) (hd : w.disturbed = true) :
      CanReach (watchIn ok) w fun w => ¬ w.Honest := by
    have h : watchIn ok w (.thread ⟨0, 0⟩) = some ⟨exeHandler ⟨0, 0⟩ w.sys .stop, true⟩ := by
      refine restrict_eq_some.mpr ⟨fun hforw => ?_, ?_⟩
      · cases hpc.symm.trans hforw
      · simp only [watchStep, step, controlThread, hpc, hd, Option.map_some, Bool.true_or]
    refine .cons h (.refl fun hhonest => ?_)
    have hchange := hhonest (.thread ⟨0, 0⟩) _ rfl hnext
    cases hchange
  -- from the sleep it is one statement more
  rcases hpc with hpc | hpc
  · have h : watchIn ok w (.thread ⟨0, 0⟩) = some ⟨exeHandler ⟨0, 0⟩ w.sys .sleep, true⟩ := by
      refine restrict_eq_some.mpr ⟨fun hforw => ?_, ?_⟩
      · cases hpc.symm.trans hforw
      · simp only [watchStep, step, controlThread, hpc, hd, Option.map_some, Bool.true_or]
    exact .cons h (hstop _ rfl hnext rfl)
  · exact hstop w hpc hnext hd

/-- **A step cut short is recorded all the same.** -/
theorem recorded_of_cuts (hok : ok w.sys) (hcuts : w.sys.Cuts) :
    CanReach (watchIn ok) w fun w => ¬ w.Honest := by
  obtain ⟨hnext, hpin⟩ := hcuts
  have hrise (hpc : w.sys.pc = .exe .sleep ∨ w.sys.pc = .exe .stop)
      (hpin : w.sys.u_alert = false) : CanReach (watchIn ok) w fun w => ¬ w.Honest := by
    have h : watchIn ok w .edge = some ⟨w.sys.rise, true⟩ := by
      refine restrict_eq_some.mpr ⟨fun _ => hok, ?_⟩
      rcases hpc with hpc | hpc
      all_goals
        simp only [watchStep, step, hpc, edge_of_low hpin, Option.map_some, Sys.rise, Bool.or_true]
    exact .cons h (recorded_of_disturbed ok hpc hnext rfl)
  split at hpin
  · -- it begins under the alert
    rename_i hpc
    have h : watchIn ok w (.thread ⟨0, 0⟩) = some ⟨exeHandler ⟨0, 0⟩ w.sys .forw, true⟩ := by
      refine restrict_eq_some.mpr ⟨fun _ _ => hok, ?_⟩
      simp only [watchStep, step, controlThread, hpc, Option.map_some]
      rw [show (exeHandler ⟨0, 0⟩ w.sys .forw).u_alert = w.sys.u_alert from rfl, hpin]
    exact .cons h (recorded_of_disturbed ok (.inl rfl) hnext rfl)
  · -- the alert rises during the sleep
    rename_i hpc
    exact hrise (.inl hpc) hpin
  · -- or after it
    rename_i hpc
    exact hrise (.inr hpc) hpin
  · exact hpin.elim

/-- **Honest records if and only if no step is cut short.**  For every set of states in which
    the alert may rise, or a forward step begin under it, the recorded position changes only
    after undisturbed steps exactly when no reached state of the set cuts one short. -/
theorem honest_iff (pin : Bool) :
    (∀ w, Reachable (watchIn ok) ⟨boot pin, false⟩ w → w.Honest) ↔
      ∀ w, Reachable (watchIn ok) ⟨boot pin, false⟩ w → ok w.sys → ¬ w.sys.Cuts := by
  constructor
  · intro hhonest w hw hok hcuts
    obtain ⟨w', hw', hnot⟩ := hw.canReach (recorded_of_cuts ok hok hcuts)
    exact hnot (hhonest w' hw')
  · intro hcuts w hw
    suffices hs : w.Sound from honest_of_sound hs
    induction hw with
    | init => exact fun _ => trivial
    | step hw he ih =>
      obtain ⟨hok, hstep⟩ := restrict_eq_some.mp he
      exact sound_step hok (hcuts _ hw) ih hstep

end cuts

/-- A move one cell east, and the alert over the whole of its step. -/
def cutRun : List Act :=
  .command { Pdu.zeroed with y := 1 } :: List.replicate 29 (.thread ⟨0, 0⟩) ++
    [.edge, .thread ⟨0, 0⟩, .edge, .thread ⟨0, 0⟩]

/-- **A step that the interrupt stopped is recorded.** -/
theorem records_cut_step : ¬ ∀ pin w, Reachable watchStep ⟨boot pin, false⟩ w → w.Honest := by
  intro hhonest
  obtain ⟨w, hw⟩ : ∃ w, exec watchStep ⟨boot false, false⟩ cutRun = some w := ⟨_, rfl⟩
  have hreach := Reachable.exec cutRun .init hw
  cases hw
  have hd := hhonest false _ hreach (.thread ⟨0, 0⟩) _ rfl (by decide)
  cases hd

end Wheelson.Control
