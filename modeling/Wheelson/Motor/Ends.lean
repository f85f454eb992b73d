import Wheelson.Motor.Mailbox

namespace Wheelson.Motor

/-!
# Every move ends by itself

A move function drives the motors, waits and turns them off; the flag that a STOP raises lets it
return from the wait, for the interrupt has turned them off already.

* `Board.left` — how many statements the main loop takes to become idle when no byte comes.
* `Board.Ended` — between two moves the bridge is off.
* `Board.Unheard` — a move function begins with the flag up.
* `ends_iff` — the bridge is off at every idle test exactly when no move function begins like
  that and no STOP comes while it drives a pin.
-/

open Machine

variable {b b' : Board}

/-! ### A round of the main loop -/

theorem length_body (m : Move) : m.body.length = 22 := by
  cases m <;> decide

/-- The statements of a move function and its wait loop, at most. -/
def MOVE_STEPS : ℕ := 11 * (TURN_DURATION + 1) + 35

/-- The statements of a round, at most. -/
def ROUND : ℕ := UINT16_MAX + MOVE_STEPS + 7

/-- The statements left in the round, at most. -/
def Board.left (b : Board) : ℕ :=
  match b.pc with
  | .test => if b.RXData = 0 then 0 else ROUND
  | .delay n => UINT16_MAX - n + MOVE_STEPS + 6
  | .clearFlag => MOVE_STEPS + 5
  | .cmp m => 4 - m.rank + MOVE_STEPS
  | .drive _ todo => todo.length + (11 * (TURN_DURATION + 1) + 13)
  | .wait loop2 duration => (10 - loop2) * (TURN_DURATION + 1) + (TURN_DURATION - duration) + 13
  | .off todo => todo.length + 2
  | .clearRX => 1

theorem left_mainStep (hidle : ¬ b.idle) : (mainStep b).left < b.left := by
  obtain ⟨pc, hw, rx, flag⟩ := b
  cases pc with
  | test =>
    have hrx : rx ≠ 0 := fun hrx => hidle ⟨rfl, hrx⟩
    simp only [mainStep, if_pos hrx, Board.left, if_neg hrx, ROUND]
    omega
  | delay n =>
    simp only [mainStep]
    split <;> simp only [Board.left] <;> omega
  | clearFlag => exact Nat.lt_succ_self _
  | cmp m =>
    simp only [mainStep]
    split
    · simp only [Board.left, length_body, MOVE_STEPS]
      have hrank : m.rank ≤ 3 := by cases m <;> decide
      omega
    · cases m <;> simp only [Move.orElse, Board.left, Move.rank, MOVE_STEPS] <;> omega
  | drive m todo =>
    cases todo with
    | nil =>
      simp only [mainStep, Board.left, List.length_nil]
      omega
    | cons st todo =>
      simp only [mainStep, Board.left, List.length_cons]
      omega
  | wait loop2 duration =>
    simp only [mainStep]
    split
    · rename_i hloop2
      split
      · split <;> simp only [Board.left] <;> omega
      · -- the next round of the outer loop
        have hround : 10 - loop2 = 10 - (loop2 + 1) + 1 := by omega
        simp only [Board.left, hround, Nat.succ_mul]
        omega
    · have hlen : (turnOffMotor .MOTOR1 ++ turnOffMotor .MOTOR2).length = 10 := rfl
      simp only [Board.left, hlen]
      omega
  | off todo => cases todo <;> exact Nat.lt_succ_self _
  | clearRX => exact Nat.lt_succ_self 0

theorem left_le_round (hb : b.pc.shape) : b.left ≤ ROUND := by
  obtain ⟨pc, hw, rx, flag⟩ := b
  cases pc with
  | test =>
    simp only [Board.left]
    split <;> omega
  | drive m todo =>
    have hlen : todo.length ≤ 22 := length_body m ▸ hb.length_le
    simp only [Board.left, ROUND, MOVE_STEPS]
    omega
  | wait loop2 duration =>
    have hmul : (10 - loop2) * (TURN_DURATION + 1) ≤ 10 * (TURN_DURATION + 1) :=
      Nat.mul_le_mul_right _ (Nat.sub_le _ _)
    simp only [Board.left, ROUND, MOVE_STEPS]
    omega
  | off todo =>
    have hlen : todo.length ≤ 10 := hb.length_le
    simp only [Board.left, ROUND, MOVE_STEPS]
    omega
  | delay | clearFlag | cmp | clearRX =>
    simp only [Board.left, ROUND, MOVE_STEPS]
    omega

theorem mainStep_idle (hidle : b.idle) : mainStep b = b := by
  obtain ⟨pc, hw, rx, flag⟩ := b
  obtain ⟨rfl, rfl⟩ : pc = .test ∧ rx = 0 := hidle
  rfl

/-- When no byte comes, the round is over after the statements left in it. -/
theorem idle_of_left {n : ℕ} (hn : b.left ≤ n) :
    (run step b (List.replicate n .main)).idle := by
  induction n generalizing b with
  | zero =>
    by_contra hidle
    have hlt : (mainStep b).left < b.left := left_mainStep hidle
    omega
  | succ n ih =>
    rw [List.replicate_succ, run_cons]
    apply ih
    show (mainStep b).left ≤ n
    by_cases hidle : b.idle
    · obtain ⟨hpc, hrx⟩ := hidle
      rw [mainStep_idle ⟨hpc, hrx⟩, Board.left, hpc]
      simp [hrx]
    · have hlt := left_mainStep hidle
      omega

/-! ### Between two moves -/

/-- Between two moves the bridge is off; in a move it is off once the flag is up; and what is left
    of the two `turnOffMotor` calls turns it off. -/
def Board.Ended (b : Board) : Prop :=
  match b.pc with
  | .test | .delay _ | .clearFlag | .cmp _ | .clearRX => b.bridgeOff
  | .drive _ _ => b.motorStopFlag = 1 → b.pc.driving = false ∧ b.bridgeOff
  | .wait _ _ => b.motorStopFlag = 1 → b.bridgeOff
  | .off todo => Board.bridgeOff { b with hw := execAll b.hw todo }

/-- The next statement enters a move function while the flag is up. -/
def Board.Unheard (b : Board) : Prop := b.enters.isSome ∧ b.motorStopFlag = 1

instance : DecidablePred Board.Unheard := fun b =>
  inferInstanceAs (Decidable (b.enters.isSome ∧ b.motorStopFlag = 1))

/-- Statements that drive and raise nothing keep the bridge off. -/
theorem bridgeOff_execAll {stmts : List Stmt}
    (h : ∀ st ∈ stmts, st.drives = none ∧ st.raises = none) (hb : b.bridgeOff) :
    Board.bridgeOff { b with hw := execAll b.hw stmts } := by
  induction stmts generalizing b with
  | nil => exact hb
  | cons st stmts ih =>
    rw [List.forall_mem_cons] at h
    have hst := bridgeOff_exec b.pc h.1.1 h.1.2 hb
    have hrest := ih h.2 hst
    exact hrest

theorem bridgeOff_turnOff (b : Board) : Board.bridgeOff { b with
    hw := execAll b.hw (turnOffMotor .MOTOR1 ++ turnOffMotor .MOTOR2) } := by
  rw [bridgeOff_iff_forall]
  intro q hq
  simp only [bridgePins, List.mem_cons, List.not_mem_nil, or_false] at hq
  rcases hq with rfl | rfl | rfl | rfl <;>
    simp [execAll, turnOffMotor, Stmt.exec, PinState.outputLow, P4_0, P8_3, P1_7, P1_6, timerAStop]

/-- **Step rule, main loop.** -/
theorem ended_mainStep (hs : b.pc.shape) (hb : b.Ended) (hheard : ¬ b.Unheard) :
    (mainStep b).Ended := by
  obtain ⟨pc, hw, rx, flag⟩ := b
  cases pc with
  | test | delay =>
    simp only [mainStep]
    split <;> exact hb
  | clearFlag | clearRX => exact hb
  | cmp m =>
    simp only [mainStep]
    split
    · rename_i hrx
      -- the move begins with the flag down
      intro hflag
      exact absurd ⟨by simp [Board.enters, hrx], hflag⟩ hheard
    · cases m <;> exact hb
  | drive m todo =>
    cases todo with
    | nil => exact fun hflag => (hb hflag).2
    | cons st todo =>
      intro hflag
      obtain ⟨hdriving, hoff⟩ := hb hflag
      simp only [Pc.driving, List.any_cons, Bool.or_eq_false_iff, Option.isSome_eq_false_iff,
        Option.isNone_iff_eq_none] at hdriving
      have hraises := (body_pins m st (hs.subset List.mem_cons_self)).2
      exact ⟨hdriving.2, bridgeOff_exec _ hdriving.1 hraises hoff⟩
  | wait loop2 duration =>
    simp only [mainStep]
    split
    · split
      · split
        · rename_i hflag
          exact hb hflag
        · exact hb
      · exact hb
    · exact bridgeOff_turnOff ⟨.wait loop2 duration, hw, rx, flag⟩
  | off todo => cases todo <;> exact hb

/-- The interrupt handles a STOP only. -/
theorem isr_of_ne {byte : UInt8} (h : byte ≠ MOTOR_STOP) (b : Board) :
    eusciA0Isr byte b = { b with RXData := byte } := if_neg h

/-- **Step rule, interrupt.** -/
theorem ended_isr {byte : UInt8} (hs : b.pc.shape) (hb : b.Ended)
    (hdriving : byte = MOTOR_STOP → b.pc.driving = false) : (eusciA0Isr byte b).Ended := by
  by_cases hbyte : byte = MOTOR_STOP
  · subst hbyte
    have hoff := bridgeOff_isr_stop b
    have hpc := (rxData_isr MOTOR_STOP b).2
    unfold Board.Ended
    rw [hpc]
    cases hpos : b.pc with
    | drive m todo => exact fun _ => ⟨hpos ▸ hdriving rfl, hoff⟩
    | wait => exact fun _ => hoff
    | off todo =>
      rw [hpos] at hs
      exact bridgeOff_execAll (fun st hst => turnOff_pins st (hs.subset hst)) hoff
    | test | delay | clearFlag | cmp | clearRX => exact hoff
  · rw [isr_of_ne hbyte]
    exact hb

/-! ### Exactly when every move ends -/

/-- The runs in which the UART receives a byte only where `ok` says so. -/
def Arrives (ok : Board → UInt8 → Prop) (b : Board) : Event → Prop
  | .rx byte => ok b byte
  | .main => True

instance (ok : Board → UInt8 → Prop) [∀ b byte, Decidable (ok b byte)] (b : Board) (e : Event) :
    Decidable (Arrives ok b e) :=
  match e with
  | .rx byte => inferInstanceAs (Decidable (ok b byte))
  | .main => .isTrue trivial

/-- A STOP that is lost leaves the bridge on. -/
theorem lost_idle {ok : Board → UInt8 → Prop} [∀ b byte, Decidable (ok b byte)]
    (hs : b.pc.shape) (hb : Lost b) :
    CanReach (restrict (Arrives ok) (total step)) b fun t => t.pc = .test ∧ ¬ t.bridgeOff := by
  refine exec_leads_to (P := fun t => t.pc.shape ∧ Lost t) Board.left ?_ b ⟨hs, hb⟩
  rintro t ⟨hs, ht⟩
  refine ⟨.main, mainStep t, restrict_eq_some.mpr ⟨trivial, rfl⟩, ?_⟩
  by_cases hidle : t.idle
  · left
    rw [mainStep_idle hidle]
    rw [Lost, hidle.1] at ht
    exact ⟨hidle.1, ht.2⟩
  · exact .inr ⟨⟨shape_mainStep hs, lost_mainStep hs ht⟩, left_mainStep hidle⟩

theorem driving_body (m : Move) : (Pc.drive m m.body).driving = true := by
  cases m <;> decide

theorem lost_of_unheard (hb : b.Unheard) : Lost (mainStep b) := by
  obtain ⟨pc, hw, rx, flag⟩ := b
  obtain ⟨henters, hflag⟩ := hb
  cases pc with
  | cmp m =>
    simp only [Board.enters, Option.isSome_ite] at henters
    simp only [mainStep, if_pos henters]
    exact ⟨hflag, .inl (driving_body m)⟩
  | test | delay | clearFlag | drive | wait | off | clearRX => cases henters

/-- **Every move ends, but for a STOP that is lost or not heard.**  Over all runs from an idle test
    with the bridge off in which bytes arrive only where `ok` allows it, the bridge is off at every
    idle test if and only if no STOP is allowed while a move function drives a pin, and none is
    entered with the flag up. -/
theorem ends_iff (ok : Board → UInt8 → Prop) [∀ b byte, Decidable (ok b byte)] {b₀ : Board}
    (hpc : b₀.pc = .test) (hoff : b₀.bridgeOff) :
    (∀ b, Reachable (restrict (Arrives ok) (total step)) b₀ b → b.pc = .test → b.bridgeOff) ↔
      ∀ b, Reachable (restrict (Arrives ok) (total step)) b₀ b →
        (ok b MOTOR_STOP → b.pc.driving = false) ∧ ¬ b.Unheard := by
  have hshape : ∀ b, Reachable (restrict (Arrives ok) (total step)) b₀ b → b.pc.shape := by
    intro b hb
    refine hb.invariant (I := fun b => b.pc.shape) (hpc ▸ trivial) ?_
    rintro b e b' hs hstep
    obtain ⟨-, hstep⟩ := restrict_eq_some.mp hstep
    cases hstep
    exact shape_step e hs
  constructor
  · intro hends b hb
    have hkept {t : Board} (ht : Reachable (restrict (Arrives ok) (total step)) b₀ t) :
        ¬ Lost t := by
      intro hlost
      obtain ⟨u, hu, hidle, hon⟩ := ht.canReach (lost_idle (hshape t ht) hlost)
      exact hon (hends u hu hidle)
    refine ⟨fun hok => ?_, fun hunheard => ?_⟩
    · by_contra hdriving
      rw [Bool.not_eq_false] at hdriving
      have hverdict := verdict_isr_stop b
      rw [if_pos hdriving] at hverdict
      have hstep : restrict (Arrives ok) (total step) b (.rx MOTOR_STOP) =
          some (eusciA0Isr MOTOR_STOP b) := restrict_eq_some.mpr ⟨hok, rfl⟩
      exact hkept (hb.step hstep) hverdict
    · have hstep : restrict (Arrives ok) (total step) b .main = some (mainStep b) :=
        restrict_eq_some.mpr ⟨trivial, rfl⟩
      exact hkept (hb.step hstep) (lost_of_unheard hunheard)
  · intro hsound b hb hidle
    -- induction on the run
    have hended : b.Ended := by
      clear hidle
      induction hb with
      | init =>
        rw [Board.Ended, hpc]
        exact hoff
      | @step b b' e hb hstep ih =>
        obtain ⟨he, hstep⟩ := restrict_eq_some.mp hstep
        cases hstep
        cases e with
        | main => exact ended_mainStep (hshape b hb) ih (hsound b hb).2
        | rx byte =>
          apply ended_isr (hshape b hb) ih
          rintro rfl
          exact (hsound b hb).1 he
    rw [Board.Ended, hidle] at hended
    exact hended

/-- The board after its first byte, when that is a STOP. -/
def parked : Board := eusciA0Isr MOTOR_STOP (boot resetRegs)

/-- Bytes that come at the idle test only. -/
theorem ends_iff_paced : (parked.pc = .test ∧ parked.bridgeOff) ∧
    ∀ b, Reachable (restrict (Arrives fun b _ => b.pc = .test) (total step)) parked b →
      b.pc = .test → b.bridgeOff := by
  have hparked : parked.pc = .test ∧ parked.bridgeOff := ⟨rfl, bridgeOff_isr_stop _⟩
  refine ⟨hparked, (ends_iff _ hparked.1 hparked.2).mpr fun b hb => ⟨?_, ?_⟩⟩
  · intro hpc
    rw [hpc]
    rfl
  · -- the flag has been cleared before the comparisons
    have hflag : ∀ m, b.pc = .cmp m → b.motorStopFlag = 0 := by
      refine hb.invariant (I := fun b => ∀ m, b.pc = .cmp m → b.motorStopFlag = 0) nofun ?_
      rintro ⟨pc, hw, rx, flag⟩ e b' hflag hstep
      obtain ⟨he, hstep⟩ := restrict_eq_some.mp hstep
      cases hstep
      cases e with
      | rx byte =>
        obtain rfl : pc = .test := he
        intro m hm
        cases (rxData_isr byte _).2.symm.trans hm
      | main =>
        intro m hm
        cases pc with
        | clearFlag => rfl
        | cmp k =>
          simp only [step, mainStep] at hm ⊢
          split <;> exact hflag k rfl
        | drive k todo | off todo => cases todo <;> cases hm
        | clearRX => cases hm
        | test | delay =>
          simp only [step, mainStep] at hm
          split at hm <;> cases hm
        | wait =>
          simp only [step, mainStep] at hm
          split at hm
          · split at hm
            · split at hm <;> cases hm
            · cases hm
          · cases hm
    rintro ⟨henters, hup⟩
    unfold Board.enters at henters
    split at henters
    · rename_i m hpc
      rw [hflag m hpc] at hup
      cases hup
    · cases henters

end Wheelson.Motor
