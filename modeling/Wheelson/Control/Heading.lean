import Mathlib.Data.Int.ModEq
import Mathlib.Data.List.Chain
import Mathlib.Data.List.Induction
import Wheelson.Control.Move

namespace Wheelson.Control

/-!
# The dead-reckoned heading

`fake_heading` is what the robot believes after its turns.  Whether the turn bytes bear it out
depends on which way a `MOTOR_TURN_LEFT` turns, and on the quotient that
`rotate_to_heading` takes for the number of turns.

* `Sense`, `Sys.reckoned` — the heading that the turn bytes add up to.
* `Calls` — the states after a sequence of calls of `rotate_to_heading`.
* `Sys.Turned` — the heading reckoned at each statement of a call.
* `Fits` — the calls whose turns add up, a condition on the old and the new heading.
* `agrees_iff` — a sequence of calls keeps the two headings together exactly when each of its
  calls fits.
-/

open Machine Ipc MotorCmd

/-! ### The turn bytes -/

/-- The two meanings of the turn bytes. -/
inductive Sense
  | leftAdds | rightAdds
deriving DecidableEq, Repr

variable {s s' t : Sys} {a : Act} {junk : Pos} {σ : Sense}

/-- The degrees that a byte adds to the heading. -/
def Sense.degrees : Sense → MotorCmd → ℤ
  | .leftAdds, .MOTOR_TURN_LEFT | .rightAdds, .MOTOR_TURN_RIGHT => 90
  | .leftAdds, .MOTOR_TURN_RIGHT | .rightAdds, .MOTOR_TURN_LEFT => -90
  | _, _ => 0

@[simp] theorem degrees_stop : σ.degrees MOTOR_STOP = 0 := by
  cases σ <;> rfl

/-- The heading after all bytes sent, from `HEAD_N`. -/
def Sys.reckoned (s : Sys) (σ : Sense) : ℤ :=
  HEAD_N + ((s.trace.filterMap Obs.cmd).map σ.degrees).sum

/-- The turns bear out `fake_heading`. -/
def Sys.Agrees (s : Sys) (σ : Sense) : Prop := s.reckoned σ ≡ s.fake_heading [ZMOD 360]

instance (s : Sys) (σ : Sense) : Decidable (s.Agrees σ) := by
  unfold Sys.Agrees; infer_instance

/-! ### Calls of `rotate_to_heading` -/

/-- The thread calls `rotate_to_heading(new_heading)`. -/
def Sys.call (s : Sys) (new_heading : ℤ) : Sys :=
  { s with exe := { s.exe with new_heading := new_heading }, pc := .rotate .check }

/-- A run of the call up to its return. -/
def InRotation (s : Sys) : Act → Prop
  | .thread _ => s.pc ≠ .exe .retest
  | _ => True

instance (s : Sys) (a : Act) : Decidable (InRotation s a) :=
  match a with
  | .thread _ => inferInstanceAs (Decidable (¬ _))
  | .edge | .command _ | .sensor _ | .drain => .isTrue trivial

/-- The states after calls with the given arguments. -/
inductive Calls (pin : Bool) : List ℤ → Sys → Prop
  | nil : Calls pin [] (boot pin)
  | call {hs : List ℤ} {h : ℤ} {s t : Sys} (hcalls : Calls pin hs s)
      (hrun : Reachable (restrict InRotation step) (s.call h) t) (hret : t.pc = .exe .retest) :
      Calls pin (hs ++ [h]) t

/-! ### One call -/

/-- The degrees of one turn of a call. -/
def Sense.quarter (σ : Sense) (curr_heading new_heading : ℤ) : ℤ :=
  σ.degrees (if turns curr_heading new_heading < 0 then MOTOR_TURN_LEFT else MOTOR_TURN_RIGHT)

/-- The degrees of a whole call. -/
def Sense.net (σ : Sense) (curr_heading new_heading : ℤ) : ℤ :=
  (turns curr_heading new_heading).natAbs * σ.quarter curr_heading new_heading

/-- The locals of a call from `curr_heading` to `new_heading`. -/
def Rot.For (rot : Rot) (curr_heading new_heading : ℤ) : Prop :=
  rot.num_turns = (turns curr_heading new_heading).natAbs ∧
    rot.turn_left = decide (turns curr_heading new_heading < 0)

/-- The heading `r` reckoned at a statement of the call, from `r₀` at its start. -/
def TurnedAt (σ : Sense) (r₀ f₀ h : ℤ) (r f : ℤ) (rot : Rot) : Pc → Prop
  | .rotate .check | .rotate .stop => r = r₀ ∧ f = f₀
  | .rotate .loop => rot.For f₀ h ∧ rot.i ≤ rot.num_turns ∧ r = r₀ + rot.i * σ.quarter f₀ h
  | .rotate .turn => rot.For f₀ h ∧ rot.i < rot.num_turns ∧ r = r₀ + rot.i * σ.quarter f₀ h
  | .msg .turning | .put .turning _ | .rotate .sleep | .rotate .halt =>
    rot.For f₀ h ∧ rot.i < rot.num_turns ∧ r = r₀ + (rot.i + 1) * σ.quarter f₀ h
  | .rotate .update => r = r₀ + σ.net f₀ h
  | .exe .retest => r = r₀ + σ.net f₀ h ∧ f = h
  | _ => False

/-- A call of `rotate_to_heading(h)` that began at `fake_heading = f₀`. -/
def Sys.Turned (σ : Sense) (r₀ f₀ h : ℤ) (s : Sys) : Prop :=
  s.exe.new_heading = h ∧ TurnedAt σ r₀ f₀ h (s.reckoned σ) s.fake_heading s.rot s.pc

theorem reckoned_stmt (h : Stmt junk s s') :
    s'.reckoned σ = s.reckoned σ + (s.sends.toList.map σ.degrees).sum := by
  unfold Sys.reckoned
  rw [trace_stmt h, List.filterMap_append, logs_cmd, List.map_append, List.sum_append, add_assoc]

/-- In a call only the turn bytes move the sum. -/
theorem reckoned_of_not_turn {r₀ f₀ h : ℤ} (hstmt : Stmt junk s s') (hs : s.Turned σ r₀ f₀ h)
    (hturn : s.pc ≠ .rotate .turn) : s'.reckoned σ = s.reckoned σ := by
  rw [reckoned_stmt hstmt, add_eq_left]
  have hs := hs.2
  unfold Sys.sends
  split
  case h_7 hpc | h_8 hpc =>
    rw [hpc] at hs
    exact hs.elim
  case h_9 hpc => exact absurd hpc hturn
  case h_10 => rfl
  all_goals simp

/-- A turn of a call adds a quarter. -/
theorem turned_turn {r₀ f₀ h : ℤ} (hstmt : Stmt junk s s') (hpc : s.pc = .rotate .turn)
    (hs : s.Turned σ r₀ f₀ h) : s'.Turned σ r₀ f₀ h := by
  have hr := reckoned_stmt (σ := σ) hstmt
  obtain ⟨hnew, hs⟩ := hs
  rw [hpc] at hs
  obtain ⟨hrot, hi, hsum⟩ := hs
  have hquarter : σ.degrees (if s.rot.turn_left then MOTOR_TURN_LEFT else MOTOR_TURN_RIGHT) =
      σ.quarter f₀ h := by
    rw [hrot.2]
    simp [Sense.quarter]
  have hr : s'.reckoned σ = s.reckoned σ + σ.quarter f₀ h := by
    simpa [Sys.sends, hpc, hquarter] using hr
  unfold Sys.Turned
  rw [hr, hsum, add_assoc, ← add_one_mul]
  cases hstmt with
  | rotTurn => exact ⟨hnew, hrot, hi, rfl⟩
  | exeBlocked hpc' => rcases hpc' with hpc' | hpc' <;> cases hpc.symm.trans hpc'
  | _ hpc' => cases hpc.symm.trans hpc'

theorem turned_stmt {r₀ f₀ h : ℤ} (hh : 0 ≤ h ∧ h ≤ 360) (hstmt : Stmt junk s s')
    (hret : s.pc ≠ .exe .retest) (hs : s.Turned σ r₀ f₀ h) : s'.Turned σ r₀ f₀ h := by
  by_cases hturn : s.pc = .rotate .turn
  · exact turned_turn hstmt hturn hs
  have hr := reckoned_of_not_turn hstmt hs hturn
  obtain ⟨hnew, hs⟩ := hs
  unfold Sys.Turned
  -- no other statement turns, so only the bookkeeping of the loop changes
  rw [hr]
  cases hstmt with
  | rotReject hpc hrange => omega
  | rotAccept hpc | rotSleep hpc =>
    rw [hpc] at hs
    exact ⟨hnew, hs⟩
  | rotStop hpc =>
    rw [hpc] at hs
    obtain ⟨hr₀, hf₀⟩ := hs
    refine ⟨hnew, ⟨?_, ?_⟩, Nat.zero_le _, ?_⟩
    · show (turns s.fake_heading s.exe.new_heading).natAbs = _
      rw [hf₀, hnew]
    · show decide (turns s.fake_heading s.exe.new_heading < 0) = _
      rw [hf₀, hnew]
    · rw [hr₀]
      simp
  | rotLoop hpc hi =>
    rw [hpc] at hs
    exact ⟨hnew, hs.1, hi, hs.2.2⟩
  | rotEnd hpc hi =>
    rw [hpc] at hs
    obtain ⟨hrot, hle, hsum⟩ := hs
    refine ⟨hnew, ?_⟩
    show s.reckoned σ = r₀ + σ.net f₀ h
    rw [hsum, le_antisymm hle hi, hrot.1]
    rfl
  | rotTurn hpc => exact absurd hpc hturn
  | rotHalt hpc =>
    rw [hpc] at hs
    obtain ⟨hrot, hi, hsum⟩ := hs
    refine ⟨hnew, hrot, hi, ?_⟩
    show s.reckoned σ = r₀ + ((s.rot.i + 1 : ℕ) : ℤ) * σ.quarter f₀ h
    rw [hsum]
    push_cast
    rfl
  | rotUpdate hpc =>
    rw [hpc] at hs
    exact ⟨hnew, hs, hnew⟩
  | @msg c hpc | @put c _ hpc =>
    rw [hpc] at hs
    cases c with
    | turning => exact ⟨hnew, hs⟩
    | waitEnd | forward | loopEnd | finished | blocked => exact hs.elim
  | exeBlocked hpc =>
    rcases hpc with hpc | hpc
    · rw [hpc] at hs
      exact hs.elim
    · exact absurd hpc hret
  | exeRetest hpc => exact absurd hpc hret
  | _ hpc =>
    rw [hpc] at hs
    exact hs.elim

/-- The stop byte of `safetyHandler` turns nothing. -/
theorem reckoned_edge : s.fall.reckoned σ = s.reckoned σ ∧ s.rise.reckoned σ = s.reckoned σ := by
  simp [Sys.reckoned, Sys.fall, Sys.rise, Sys.log, sendMotorCmd, Obs.cmd, List.filterMap_cons]

theorem turned_step {r₀ f₀ h : ℤ} (hh : 0 ≤ h ∧ h ≤ 360) (hs : s.Turned σ r₀ f₀ h)
    (ha : InRotation s a) (hstep : Step s a s') : s'.Turned σ r₀ f₀ h := by
  cases hstep with
  | thread hstmt => exact turned_stmt hh hstmt ha hs
  | fall =>
    unfold Sys.Turned
    rw [reckoned_edge.1]
    exact hs
  | rise =>
    unfold Sys.Turned
    rw [reckoned_edge.2]
    exact hs
  | command | sensor | drain => exact hs

/-- What a call does to the two headings. -/
theorem heading_of_call {h : ℤ} (hh : 0 ≤ h ∧ h ≤ 360)
    (hrun : Reachable (restrict InRotation step) (s.call h) t) (hret : t.pc = .exe .retest) :
    t.reckoned σ = s.reckoned σ + σ.net s.fake_heading h ∧ t.fake_heading = h := by
  have hturned : t.Turned σ (s.reckoned σ) s.fake_heading h := by
    refine hrun.invariant (I := fun u => u.Turned σ (s.reckoned σ) s.fake_heading h)
      ⟨rfl, rfl, rfl⟩ ?_
    intro u a u' hu hstep
    obtain ⟨ha, hstep⟩ := restrict_eq_some.mp hstep
    exact turned_step hh hu ha (step_cases hstep)
  have hend := hturned.2
  rw [hret] at hend
  exact hend

/-! ### A call returns -/

/-- The statements left, at most, in a call. -/
def rotationLeft (quarters left : ℕ) : Pc → ℕ
  | .rotate .check => 6 * quarters + 9
  | .rotate .stop => 6 * quarters + 8
  | .rotate .turn => 6 * (left - 1) + 7
  | .msg .turning => 6 * (left - 1) + 6
  | .put .turning _ => 6 * (left - 1) + 5
  | .rotate .sleep => 6 * (left - 1) + 4
  | .rotate .halt => 6 * (left - 1) + 3
  | .rotate .loop => 6 * left + 2
  | .rotate .update => 1
  | _ => 0

/-- The statements of a call. -/
def Pc.InRotation : Pc → Prop
  | .rotate _ | .msg .turning | .put .turning _ => True
  | _ => False

theorem rotationLeft_stmt (hstmt : Stmt junk s s') (hin : s.pc.InRotation) :
    s'.pc = .exe .retest ∨ s'.pc.InRotation ∧
      rotationLeft (turns s'.fake_heading s'.exe.new_heading).natAbs
        (s'.rot.num_turns - s'.rot.i) s'.pc <
      rotationLeft (turns s.fake_heading s.exe.new_heading).natAbs
        (s.rot.num_turns - s.rot.i) s.pc := by
  cases hstmt with
  | rotReject hpc | rotUpdate hpc => exact .inl rfl
  | rotAccept hpc | rotTurn hpc | rotSleep hpc =>
    right
    rw [hpc]
    exact ⟨trivial, Nat.lt_succ_self _⟩
  | rotStop hpc | rotLoop hpc | rotEnd hpc | rotHalt hpc =>
    right
    rw [hpc]
    refine ⟨trivial, ?_⟩
    simp only [rotationLeft, Sys.goto]
    omega
  | @msg c hpc | @put c _ hpc =>
    right
    rw [hpc] at hin ⊢
    cases c with
    | turning => exact ⟨trivial, Nat.lt_succ_self _⟩
    | waitEnd | forward | loopEnd | finished | blocked => exact hin.elim
  | exeBlocked hpc => rcases hpc with hpc | hpc <;> rw [hpc] at hin <;> exact hin.elim
  | _ hpc =>
    rw [hpc] at hin
    exact hin.elim

theorem call_returns (s : Sys) (h : ℤ) :
    CanReach (restrict InRotation step) (s.call h) fun t => t.pc = .exe .retest := by
  refine thread_leads_to (P := fun t => t.pc.InRotation)
    (fun t => rotationLeft (turns t.fake_heading t.exe.new_heading).natAbs
      (t.rot.num_turns - t.rot.i) t.pc) ⟨0, 0⟩ ?_ ?_ (fun _ _ ht => ⟨ht, rfl⟩) ?_ _ trivial
  · rintro t hin hpc
    rw [hpc] at hin
    exact hin
  · rintro t hin
    refine ⟨fun hpc => ?_, trivial⟩
    rw [hpc] at hin
    exact hin
  · exact fun t t' hin hstmt => rotationLeft_stmt hstmt hin

theorem exists_calls (pin : Bool) (hs : List ℤ) : ∃ s, Calls pin hs s := by
  induction hs using List.reverseRecOn with
  | nil => exact ⟨_, .nil⟩
  | append_singleton hs h ih =>
    obtain ⟨s, hcalls⟩ := ih
    obtain ⟨t, hrun, hret⟩ := Reachable.init.canReach (call_returns s h)
    exact ⟨t, hcalls.call hrun hret⟩

/-! ### Exactly which calls add up -/

/-- The turns of a call from `a` to `b` add up to the difference.  Three quarters to the right
    are shortened to one to the left, which is right only when a right turn adds. -/
def Fits : Sense → ℤ → ℤ → Prop
  | .leftAdds, a, b => ¬ (a = HEAD_N ∧ b = HEAD_W)
  | .rightAdds, a, b => b = a ∨ b = a + 180 ∨ b = a - 180 ∨ (a = HEAD_N ∧ b = HEAD_W)

instance (σ : Sense) (a b : ℤ) : Decidable (Fits σ a b) := by
  cases σ <;> unfold Fits <;> infer_instance

theorem net_iff_fits {a b : ℤ} (ha : IsHeading a) (hb : IsHeading b) :
    a + σ.net a b ≡ b [ZMOD 360] ↔ Fits σ a b := by
  cases σ <;> rcases ha with rfl | rfl | rfl | rfl <;> rcases hb with rfl | rfl | rfl | rfl <;>
    decide

/-! ### A sequence of calls -/

theorem calls_concat {pin : Bool} {hs : List ℤ} {h : ℤ} (hcalls : Calls pin (hs ++ [h]) t) :
    ∃ s, Calls pin hs s ∧ Reachable (restrict InRotation step) (s.call h) t ∧
      t.pc = .exe .retest := by
  generalize hl : hs ++ [h] = l at hcalls
  cases hcalls with
  | nil => simp at hl
  | call hcalls hrun hret =>
    obtain ⟨rfl, hh⟩ := List.append_inj' hl rfl
    cases hh
    exact ⟨_, hcalls, hrun, hret⟩

theorem agrees_nil {pin : Bool} (hcalls : Calls pin [] t) : t.Agrees σ := by
  generalize hl : [] = l at hcalls
  cases hcalls with
  | nil => rfl
  | call => simp at hl

/-- Each call leaves its argument in `fake_heading`. -/
theorem fake_heading_of_calls {pin : Bool} {hs : List ℤ} (hh : ∀ h ∈ hs, IsHeading h)
    (hcalls : Calls pin hs t) : t.fake_heading ∈ (HEAD_N :: hs).getLast? := by
  cases hcalls with
  | nil => rfl
  | @call hs h s _ hcalls hrun hret =>
    have hrange := (hh h (by simp)).range
    rw [(heading_of_call (σ := .leftAdds) hrange hrun hret).2]
    rw [← List.cons_append, List.getLast?_concat]
    rfl

/-- The headings stay together over one more call exactly when it fits. -/
theorem agrees_call {h : ℤ} (hfake : IsHeading s.fake_heading) (hh : IsHeading h)
    (hs : s.Agrees σ) (hrun : Reachable (restrict InRotation step) (s.call h) t)
    (hret : t.pc = .exe .retest) : t.Agrees σ ↔ Fits σ s.fake_heading h := by
  obtain ⟨hsum, hend⟩ := heading_of_call (σ := σ) hh.range hrun hret
  have hnet := hs.add_right (σ.net s.fake_heading h)
  unfold Sys.Agrees
  rw [← net_iff_fits hfake hh, hsum, hend]
  exact ⟨fun ht => hnet.symm.trans ht, fun ht => hnet.trans ht⟩

/-- The two headings agree after each of the calls. -/
def AgreesAfterEach (σ : Sense) (pin : Bool) (hs : List ℤ) : Prop :=
  ∀ hs' t, hs' <+: hs → Calls pin hs' t → t.Agrees σ

/-- **Which calls add up.**  The headings agree after each call exactly when every call of the
    sequence fits the heading it starts from. -/
theorem agrees_iff (σ : Sense) (pin : Bool) (hs : List ℤ) (hh : ∀ h ∈ hs, IsHeading h) :
    AgreesAfterEach σ pin hs ↔ (HEAD_N :: hs).IsChain (Fits σ) := by
  -- from the last call backwards: a call is judged by the heading the earlier ones leave
  induction hs using List.reverseRecOn with
  | nil =>
    refine ⟨fun _ => .singleton _, ?_⟩
    rintro - hs' t hpre hcalls
    rw [List.prefix_nil] at hpre
    rw [hpre] at hcalls
    exact agrees_nil hcalls
  | append_singleton hs h ih =>
    have hhs : ∀ h ∈ hs, IsHeading h := fun h hm => hh h (List.mem_append_left _ hm)
    have ih := ih hhs
    have hlast {s : Sys} (hcalls : Calls pin hs s) :
        s.fake_heading ∈ (HEAD_N :: hs).getLast? ∧ IsHeading s.fake_heading := by
      have hfake := fake_heading_of_calls hhs hcalls
      refine ⟨hfake, ?_⟩
      rcases List.mem_cons.mp (List.mem_of_getLast? hfake) with heq | hm
      · exact .inl heq
      · exact hhs _ hm
    rw [← List.cons_append, List.isChain_append, ← ih]
    constructor
    · intro hagrees
      refine ⟨fun hs' t hpre => hagrees hs' t (hpre.trans (List.prefix_append _ _)),
        .singleton _, ?_⟩
      -- the last call is made, and returns, in some run
      obtain ⟨t, ht⟩ := exists_calls pin (hs ++ [h])
      obtain ⟨s, hcalls, hrun, hret⟩ := calls_concat ht
      obtain ⟨hfake, hheading⟩ := hlast hcalls
      have hs := hagrees hs s (List.prefix_append _ _) hcalls
      have hfits := (agrees_call hheading (hh h (by simp)) hs hrun hret).mp
        (hagrees _ t List.prefix_rfl ht)
      intro a ha b hb
      rw [Option.mem_unique ha hfake, ← Option.some_inj.mp hb]
      exact hfits
    · rintro ⟨hagrees, -, hfits⟩ hs' t hpre hcalls
      rcases List.prefix_concat_iff.mp hpre with rfl | hpre
      · obtain ⟨s, hcalls, hrun, hret⟩ := calls_concat hcalls
        obtain ⟨hfake, hheading⟩ := hlast hcalls
        have hs := hagrees hs s List.prefix_rfl hcalls
        exact (agrees_call hheading (hh h (by simp)) hs hrun hret).mpr (hfits _ hfake h rfl)
      · exact hagrees hs' t hpre hcalls

/-- East and back north again adds up when a left turn adds. -/
theorem agrees_iff_east_north :
    AgreesAfterEach .leftAdds false [HEAD_E, HEAD_N] ↔
      [HEAD_N, HEAD_E, HEAD_N].IsChain (Fits .leftAdds) :=
  agrees_iff .leftAdds false [HEAD_E, HEAD_N] (by
    rintro h hm
    rcases List.mem_cons.mp hm with rfl | hm
    · exact .inr (.inl rfl)
    · exact .inl (List.mem_singleton.mp hm))

/-- **No sense of the turn bytes bears out `fake_heading`.**  West and east from the north are
    one and the same turn byte. -/
theorem no_sense_agrees : ¬ ∃ σ, ∀ pin hs s, (∀ h ∈ hs, IsHeading h) → Calls pin hs s →
    s.Agrees σ := by
  rintro ⟨σ, hagrees⟩
  have hrun (h : ℤ) (t : Sys) (hh : IsHeading h) (hexec : exec (restrict InRotation step)
      ((boot false).call h) (List.replicate 10 (.thread ⟨0, 0⟩)) = some t)
      (hret : t.pc = .exe .retest) : t.Agrees σ :=
    hagrees false [h] t (fun b hb => List.mem_singleton.mp hb ▸ hh)
      (Calls.nil.call (Reachable.exec _ .init hexec) hret)
  -- each sense is wrong about one of the two quarters
  cases σ with
  | leftAdds =>
    have hwest := hrun HEAD_W _ (.inr (.inr (.inr rfl))) rfl rfl
    revert hwest
    decide
  | rightAdds =>
    have heast := hrun HEAD_E _ (.inr (.inl rfl)) rfl rfl
    revert heast
    decide

end Wheelson.Control
