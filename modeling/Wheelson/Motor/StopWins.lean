import Mathlib.Data.List.Infix
import Wheelson.Motor.Main

namespace Wheelson.Motor

/-!
# When a STOP byte really stops the motors

`MOTOR_STOP` is handled by the interrupt, which turns the four bridge pins into GPIO
outputs driven low and raises `motorStopFlag`.  The main loop does not look at the flag
between the comparison that selects a move function and the end of its two `PWMMotor`
calls, so a STOP that lands there is undone by the statements of `PWMMotor` that follow.

* `Watch` — the board together with the last byte received and the position of the main
  loop when it arrived.
* `Pc.driving` — a `PWMMotor` statement that drives a bridge pin is still to run.
* `Heeded` / `Lost` — what holds until the next byte after a STOP that landed outside, or
  inside, such a position; each is preserved by every statement of the main loop.
* `stop_wins_iff` — back at the idle test, the bridge is off exactly when the STOP landed
  at a position that is not `driving`.
-/

open Machine

/-! ### Observations -/

/-- All four bridge pins are plain GPIO outputs driven low. -/
def Board.bridgeOff (b : Board) : Bool :=
  bridgePins.all fun q => (b.hw.regs.pinAt q).outputLow

/-- The main loop is at its idle test with nothing pending. -/
def Board.idle (b : Board) : Prop := b.pc = .test ∧ b.RXData = 0

/-- A statement that puts a pin under the control of a timer is still to run. -/
def Pc.driving : Pc → Bool
  | .drive _ todo => todo.any fun st => st.drives.isSome
  | _ => false

/-- The board, with the last byte received and where the main loop was when it came. -/
structure Watch where
  board : Board
  last : Option (UInt8 × Pc)

def watchStep (w : Watch) (e : Event) : Watch where
  board := step w.board e
  last := match e with
    | .rx byte => some (byte, w.board.pc)
    | .main => w.last

/-- The run on the events `es` from start-up. -/
def watch (r : Registers) (es : List Event) : Watch := run watchStep ⟨boot r, none⟩ es

/-! ### The statements left to run -/

/-- The statement list of a position is a tail of a function body. -/
def Pc.shape : Pc → Prop
  | .drive m todo => todo <:+ m.body
  | .off todo => todo <:+ turnOffMotor .MOTOR1 ++ turnOffMotor .MOTOR2
  | _ => True

/-- Statements that write a port register. -/
def Stmt.isGpio : Stmt → Bool
  | .gpioSetAsOutputPin _ _ | .gpioSetAsPeripheralModuleFunctionOutputPin _ _
  | .gpioSetOutputHighOnPin _ _ | .gpioSetOutputLowOnPin _ _ => true
  | _ => false

theorem pinAt_exec {st : Stmt} (hst : st.isGpio = false) (h : Hw) (q : Pin) :
    (st.exec h).regs.pinAt q = h.regs.pinAt q := by
  cases st <;> first | rfl | exact absurd hst (by simp [Stmt.isGpio])

/-- The move functions drive bridge pins only and raise no pin. -/
theorem body_pins (m : Move) : ∀ st ∈ m.body,
    (∀ q ∈ st.drives, q ∈ bridgePins) ∧ st.raises = none := by
  cases m <;> decide

/-- After the last statement that drives a pin, a move function writes no port. -/
theorem body_tail (m : Move) : ∀ todo ∈ m.body.tails,
    (todo.any fun st => st.drives.isSome) = false → ∀ st ∈ todo, st.isGpio = false := by
  cases m <;> decide

theorem turnOff_pins : ∀ st ∈ turnOffMotor .MOTOR1 ++ turnOffMotor .MOTOR2,
    st.drives = none ∧ st.raises = none := by
  decide

theorem shape_mainStep {b : Board} (hb : b.pc.shape) : (mainStep b).pc.shape := by
  obtain ⟨pc, hw, rx, flag⟩ := b
  cases pc with
  | test => simp only [mainStep]; split <;> trivial
  | delay n => simp only [mainStep]; split <;> trivial
  | clearFlag => trivial
  | cmp m =>
    simp only [mainStep]
    split
    · exact List.suffix_refl _
    · cases m <;> trivial
  | drive m todo =>
    cases todo with
    | nil => trivial
    | cons st todo => exact (List.suffix_cons st todo).trans hb
  | wait loop2 duration =>
    simp only [mainStep]
    split
    · split
      · split <;> trivial
      · trivial
    · exact List.suffix_refl _
  | off todo =>
    cases todo with
    | nil => trivial
    | cons st todo => exact (List.suffix_cons st todo).trans hb
  | clearRX => trivial

/-- The interrupt stores the byte and returns to where it came from. -/
theorem rxData_isr (byte : UInt8) (b : Board) :
    (eusciA0Isr byte b).RXData = byte ∧ (eusciA0Isr byte b).pc = b.pc := by
  simp only [eusciA0Isr]
  split <;> exact ⟨rfl, rfl⟩

theorem shape_step {b : Board} (e : Event) (hb : b.pc.shape) : (step b e).pc.shape := by
  cases e with
  | main => exact shape_mainStep hb
  | rx byte =>
    show (eusciA0Isr byte b).pc.shape
    rw [(rxData_isr byte b).2]
    exact hb

/-! ### Keeping the bridge off, and losing it -/

theorem bridgeOff_iff_forall (b : Board) :
    b.bridgeOff ↔ ∀ q ∈ bridgePins, (b.hw.regs.pinAt q).outputLow := by
  simp only [Board.bridgeOff, List.all_eq_true]

/-- A statement that drives and raises nothing keeps the bridge off. -/
theorem bridgeOff_exec {b : Board} {st : Stmt} (pc : Pc) (hd : st.drives = none)
    (hr : st.raises = none) (hb : b.bridgeOff) :
    Board.bridgeOff { b with hw := st.exec b.hw, pc := pc } := by
  rw [bridgeOff_iff_forall] at hb ⊢
  intro q hq
  exact outputLow_exec (by simp [hd]) (by simp [hr]) (hb q hq)

/-- A statement that drives a bridge pin leaves the bridge on. -/
theorem not_bridgeOff_exec {b : Board} {st : Stmt} {q : Pin} (pc : Pc)
    (hd : st.drives = some q) (hq : q ∈ bridgePins) :
    ¬ Board.bridgeOff { b with hw := st.exec b.hw, pc := pc } := by
  rw [bridgeOff_iff_forall]
  intro hoff
  have hlow := hoff q hq
  cases st with
  | gpioSetAsPeripheralModuleFunctionOutputPin port k =>
    rw [Stmt.drives, Option.some.injEq] at hd
    subst hd
    simp [Stmt.exec, PinState.outputLow] at hlow
  | _ => exact absurd hd (by simp [Stmt.drives])

/-- The bridge is off, nothing that would drive it is left to run, and no movement command
    is pending. -/
def Heeded (b : Board) : Prop :=
  b.bridgeOff ∧ b.pc.driving = false ∧ (b.RXData = MOTOR_STOP ∨ b.RXData = 0)

theorem Heeded.not_byte {b : Board} (h : Heeded b) (m : Move) : b.RXData ≠ m.byte := by
  rcases h.2.2 with h | h <;> rw [h] <;> cases m <;> decide

/-- **Step rule, STOP heeded.** -/
theorem heeded_mainStep {b : Board} (hs : b.pc.shape) (h : Heeded b) : Heeded (mainStep b) := by
  have hbyte := h.not_byte
  obtain ⟨hoff, hpc, hrx⟩ := h
  obtain ⟨pc, hw, rx, flag⟩ := b
  cases pc with
  | test => simp only [mainStep]; split <;> exact ⟨hoff, rfl, hrx⟩
  | delay n => simp only [mainStep]; split <;> exact ⟨hoff, rfl, hrx⟩
  | clearFlag => exact ⟨hoff, rfl, hrx⟩
  | cmp m =>
    simp only [mainStep, hbyte m, if_false]
    exact ⟨hoff, by cases m <;> rfl, hrx⟩
  | drive m todo =>
    cases todo with
    | nil => exact ⟨hoff, rfl, hrx⟩
    | cons st todo =>
      simp only [Pc.driving, List.any_cons, Bool.or_eq_false_iff, Option.isSome_eq_false_iff,
        Option.isNone_iff_eq_none] at hpc
      have hr := (body_pins m st (hs.subset List.mem_cons_self)).2
      exact ⟨bridgeOff_exec _ hpc.1 hr hoff, hpc.2, hrx⟩
  | wait loop2 duration =>
    simp only [mainStep]
    split
    · split
      · split <;> exact ⟨hoff, rfl, hrx⟩
      · exact ⟨hoff, rfl, hrx⟩
    · exact ⟨hoff, rfl, hrx⟩
  | off todo =>
    cases todo with
    | nil => exact ⟨hoff, rfl, hrx⟩
    | cons st todo =>
      have hst := turnOff_pins st (hs.subset List.mem_cons_self)
      exact ⟨bridgeOff_exec _ hst.1 hst.2 hoff, rfl, hrx⟩
  | clearRX => exact ⟨hoff, rfl, Or.inr rfl⟩

/-- The bridge is on, or the statements left to run will drive it, and the main loop is on
    its way back to the idle test, past which it stays. -/
def Lost (b : Board) : Prop :=
  match b.pc with
  | .drive _ _ => b.motorStopFlag = 1 ∧ (b.pc.driving = true ∨ ¬ b.bridgeOff)
  | .wait loop2 duration => b.motorStopFlag = 1 ∧ loop2 = 0 ∧ duration = 0 ∧ ¬ b.bridgeOff
  | .clearRX => ¬ b.bridgeOff
  | .test => b.RXData = 0 ∧ ¬ b.bridgeOff
  | _ => False

/-- **Step rule, STOP lost.** -/
theorem lost_mainStep {b : Board} (hs : b.pc.shape) (h : Lost b) : Lost (mainStep b) := by
  obtain ⟨pc, hw, rx, flag⟩ := b
  cases pc with
  | test =>
    obtain ⟨rfl, hon⟩ : rx = 0 ∧ ¬ Board.bridgeOff ⟨.test, hw, rx, flag⟩ := h
    exact ⟨rfl, hon⟩
  | drive m todo =>
    obtain ⟨hflag, hdr⟩ := h
    cases todo with
    | nil =>
      have hon := hdr.resolve_left (by simp [Pc.driving])
      exact ⟨hflag, rfl, rfl, hon⟩
    | cons st todo =>
      refine ⟨hflag, ?_⟩
      by_cases hrest : (todo.any fun st => st.drives.isSome) = true
      · exact Or.inl hrest
      · right
        cases hd : st.drives with
        | some q =>
          -- the last driving statement
          have hq := (body_pins m st (hs.subset List.mem_cons_self)).1 q (by rw [hd]; rfl)
          exact not_bridgeOff_exec _ hd hq
        | none =>
          -- past it: only timer statements are left
          have hany : ((st :: todo).any fun st => st.drives.isSome) = false := by
            simp [hd, hrest]
          have hst := body_tail m _ ((List.mem_tails _ _).mpr hs) hany st List.mem_cons_self
          have hon := hdr.resolve_left (by simp [Pc.driving, hany])
          rw [bridgeOff_iff_forall] at hon ⊢
          intro hoff
          exact hon fun q hq => by rw [← pinAt_exec hst hw q]; exact hoff q hq
  | wait loop2 duration =>
    -- the first test of the flag leaves the loop
    obtain ⟨hflag, rfl, rfl, hon⟩ := h
    have hdur : 0 < TURN_DURATION := by decide
    have hflag : flag = 1 := hflag
    simp only [mainStep, hdur, hflag, Nat.ofNat_pos, if_true]
    exact hon
  | clearRX => exact ⟨rfl, h⟩
  | _ => exact absurd h (by simp [Lost])

/-! ### The run rule -/

/-- The interrupt turns the bridge off. -/
theorem bridgeOff_isr_stop (b : Board) : (eusciA0Isr MOTOR_STOP b).bridgeOff := by
  rw [bridgeOff_iff_forall]
  intro q hq
  simp only [bridgePins, List.mem_cons, List.not_mem_nil, or_false] at hq
  rcases hq with rfl | rfl | rfl | rfl <;>
    simp [eusciA0Isr, execAll, disableAlarm, turnOffMotor, Stmt.exec, PinState.outputLow,
      P4_0, P8_3, P1_7, P1_6, P3_2, timerAStop]

/-- What a STOP leaves behind, by the position it landed at. -/
def Watch.verdict (w : Watch) : Prop :=
  ∀ pc, w.last = some (MOTOR_STOP, pc) →
    if pc.driving then Lost w.board else Heeded w.board

/-- The landing of a STOP decides between `Heeded` and `Lost`. -/
theorem verdict_isr_stop (b : Board) :
    if b.pc.driving then Lost (eusciA0Isr MOTOR_STOP b) else Heeded (eusciA0Isr MOTOR_STOP b) := by
  have hoff := bridgeOff_isr_stop b
  split
  · rename_i hdr
    obtain ⟨pc, hw, rx, flag⟩ := b
    cases pc with
    | drive m todo => exact ⟨rfl, Or.inl hdr⟩
    | _ => exact absurd hdr (by simp [Pc.driving])
  · rename_i hdr
    exact ⟨hoff, by simpa [eusciA0Isr] using hdr, Or.inl rfl⟩

theorem verdict_watchStep {w : Watch} (e : Event) (hs : w.board.pc.shape) (h : w.verdict) :
    (watchStep w e).verdict := by
  intro pc hlast
  cases e with
  | main =>
    have hv := h pc hlast
    split at hv
    · rename_i hdr
      rw [if_pos hdr]
      exact lost_mainStep hs hv
    · rename_i hdr
      rw [if_neg hdr]
      exact heeded_mainStep hs hv
  | rx byte =>
    simp only [watchStep, Option.some.injEq, Prod.mk.injEq] at hlast
    obtain ⟨rfl, rfl⟩ := hlast
    exact verdict_isr_stop w.board

/-- **Run rule.** Every run keeps the shape of the position and the verdict on its last
    STOP. -/
theorem watch_verdict (r : Registers) (es : List Event) :
    (watch r es).board.pc.shape ∧ (watch r es).verdict := by
  refine run_invariant (I := fun w : Watch => w.board.pc.shape ∧ w.verdict) ?_ es _ ?_
  · intro w e ⟨hs, hv⟩
    exact ⟨shape_step e hs, verdict_watchStep e hs hv⟩
  · exact ⟨trivial, fun pc hlast => by simp at hlast⟩

/-- **STOP wins exactly outside the drive window.**  In every run, when the last byte
    received is `MOTOR_STOP` and the main loop is back at its idle test with nothing
    pending, the bridge is off if and only if that byte did not arrive between the
    comparison that selects a move function and the last statement of its `PWMMotor`
    calls that drives a pin. -/
theorem stop_wins_iff (r : Registers) (es : List Event) (pc : Pc)
    (hlast : (watch r es).last = some (MOTOR_STOP, pc)) (hidle : (watch r es).board.idle) :
    (watch r es).board.bridgeOff ↔ pc.driving = false := by
  have hv := (watch_verdict r es).2 pc hlast
  obtain ⟨hpc, hrx⟩ := hidle
  split at hv
  · rename_i hdr
    rw [Lost, hpc] at hv
    simp [hv.2, hdr]
  · rename_i hdr
    simp [hv.1, hdr]

/-! ### A STOP that is lost, and one that is not -/

/-- The delay of the main loop ends after `UINT16_MAX + 1` tests of its counter, whatever
    else is recorded besides the position. -/
theorem run_delay {W : Type*} {f : W → Event → W} (wrap : Pc → W)
    (hstep : ∀ n, f (wrap (.delay n)) .main =
      wrap (if n < UINT16_MAX then .delay (n + 1) else .clearFlag)) :
    run f (wrap (.delay 0)) (List.replicate (UINT16_MAX + 1) .main) = wrap .clearFlag := by
  rw [List.replicate_succ', run_concat, run_replicate fun i => wrap (.delay i)]
  · rw [hstep, if_neg (lt_irrefl _)]
  · intro i hi
    rw [hstep, if_pos hi]

/-- Every register cleared. -/
def resetRegs : Registers where
  pair := fun _ => ⟨0#16, 0#16, 0#16, 0#16⟩
  timer := fun _ => ⟨0#16, 0#16, fun _ => 0#16, fun _ => 0#16⟩

/-- A byte arrives at the idle test and the main loop waits out its delay. -/
def byteThenDelay (byte : UInt8) : List Event :=
  [.rx byte, .main] ++ List.replicate (UINT16_MAX + 1) .main

theorem watch_byteThenDelay {byte : UInt8} (hbyte : byte ≠ 0) (r : Registers)
    (es : List Event) :
    watch r (byteThenDelay byte ++ es)
      = run watchStep ⟨{ eusciA0Isr byte (boot r) with pc := .clearFlag }, some (byte, .test)⟩
          es := by
  obtain ⟨hrx, hpc⟩ : (eusciA0Isr byte (boot r)).RXData = byte ∧
      (eusciA0Isr byte (boot r)).pc = .test := rxData_isr byte (boot r)
  have hmain : mainStep (eusciA0Isr byte (boot r))
      = { eusciA0Isr byte (boot r) with pc := .delay 0 } := by
    simp [mainStep, hpc, hrx, hbyte]
  have hdelay := run_delay (f := watchStep)
    (fun pc => ⟨{ eusciA0Isr byte (boot r) with pc := pc }, some (byte, .test)⟩) fun n => by
      simp only [watchStep, step, mainStep]
      split <;> rfl
  rw [watch, byteThenDelay, run_append, run_append, ← hdelay]
  simp only [run_cons, run_nil, watchStep, step, hmain]
  rfl

/-- `'F'` selects `moveForward`, and `'S'` arrives before its first statement. -/
def lostStop : List Event :=
  byteThenDelay Move.forw.byte ++ ([.main, .main, .rx MOTOR_STOP] ++ List.replicate 25 .main)

/-- **STOP does not always win**: on `lostStop` the board is back at its idle test with
    motor pins still driven by the timers. -/
theorem stop_not_always_wins :
    ¬ ∀ (r : Registers) (es : List Event) (pc : Pc),
      (watch r es).last = some (MOTOR_STOP, pc) → (watch r es).board.idle →
        (watch r es).board.bridgeOff := by
  intro h
  have hrun := watch_byteThenDelay (by decide : Move.forw.byte ≠ 0) resetRegs
    ([.main, .main, .rx MOTOR_STOP] ++ List.replicate 25 .main)
  have hoff := h resetRegs lostStop (.drive .forw Move.forw.body)
    (by rw [lostStop, hrun]; rfl) (by rw [lostStop, hrun]; exact ⟨rfl, rfl⟩)
  rw [lostStop, hrun] at hoff
  exact absurd hoff (by decide)

/-- `'S'` reaches a board whose wheels turn forward, in the wait loop. -/
theorem stop_wins_iff_moving :
    ¬ (watch resetRegs (byteThenDelay Move.forw.byte ++ List.replicate 25 .main)).board.bridgeOff ∧
    ((watch resetRegs (byteThenDelay Move.forw.byte ++
        (List.replicate 25 .main ++ [.rx MOTOR_STOP, .main, .main]))).board.bridgeOff
      ↔ (Pc.wait 0 0).driving = false) := by
  have hrun := watch_byteThenDelay (by decide : Move.forw.byte ≠ 0) resetRegs
  constructor
  · rw [hrun]
    decide
  · refine stop_wins_iff resetRegs _ (.wait 0 0) ?_ ?_
    · rw [hrun]
      rfl
    · rw [hrun]
      exact ⟨rfl, rfl⟩

end Wheelson.Motor
