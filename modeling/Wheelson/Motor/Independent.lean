import Wheelson.Motor.Bridge

namespace Wheelson.Motor

/-!
# One motor without the other

`PWMMotor` and `turnOffMotor` name ports, pins and timers branch by branch.

* `Stmt.pin`, `Stmt.timer` — the pin and the timer a statement writes; `pinAt_exec_of_ne`
  and `timer_exec_of_ne` say that it writes no other.
* `Untouched` — the registers of one motor stay as they are.
* `pwm_untouched` — `PWMMotor` leaves the other motor alone, whatever the registers hold.
* `independent_iff` — `turnOffMotor` does so, and stops its own timer, exactly for the second
  motor or when neither timer runs.
-/

open Machine

variable {h : Hw} {m : MotorSelect} {st : Stmt} {q : Pin} {t : TimerBase}

/-! ### What a statement writes -/

/-- The pin whose bits a statement writes. -/
def Stmt.pin : Stmt → Option Pin
  | .gpioSetAsOutputPin port k | .gpioSetAsPeripheralModuleFunctionOutputPin port k
  | .gpioSetOutputHighOnPin port k | .gpioSetOutputLowOnPin port k => some ⟨port, k⟩
  | _ => none

/-- The timer whose registers a statement writes. -/
def Stmt.timer : Stmt → Option TimerBase
  | .timerAInitUpMode b _ | .timerAInitCompareMode b | .timerASetCompareValue b _
  | .timerAStop b | .timerAStartCounter b _ => some b
  | _ => none

theorem pinAt_exec_of_ne (hst : st.pin ≠ some q) : (st.exec h).regs.pinAt q = h.regs.pinAt q := by
  cases st with
  | gpioSetAsOutputPin port k | gpioSetAsPeripheralModuleFunctionOutputPin port k
  | gpioSetOutputHighOnPin port k | gpioSetOutputLowOnPin port k =>
    have hne : q ≠ ⟨port, k⟩ := fun heq => hst (congrArg some heq.symm)
    simp [Stmt.exec, hne]
  | _ => rfl

theorem timer_modifyTimer {r : Registers} {b : TimerBase} (hb : b ≠ t) (f : TimerRegs → TimerRegs) :
    (r.modifyTimer b f).timer t = r.timer t :=
  Function.update_of_ne hb.symm _ _

theorem timer_exec_of_ne (hst : st.timer ≠ some t) : (st.exec h).regs.timer t = h.regs.timer t := by
  cases st with
  | timerAInitUpMode b | timerAInitCompareMode b | timerASetCompareValue b | timerAStop b
  | timerAStartCounter b =>
    have hb : b ≠ t := fun heq => hst (congrArg some heq)
    simp only [Stmt.exec, Motor.timerAInitUpMode, Motor.timerAInitCompareMode,
      Motor.timerASetCompareValue, Motor.timerAStop, Motor.timerAStartCounter,
      timer_modifyTimer hb]
  | _ => rfl

/-! ### The registers of a motor -/

def MotorSelect.other : MotorSelect → MotorSelect
  | .MOTOR1 => .MOTOR2
  | .MOTOR2 => .MOTOR1

/-- The enable pin of a motor. -/
def MotorSelect.enable : MotorSelect → Pin
  | .MOTOR1 => P2_6
  | .MOTOR2 => P2_7

/-- The pins of a motor. -/
def MotorSelect.pins (m : MotorSelect) : List Pin := [m.fwd, m.bckwd, m.enable]

/-- Every bit of the pins of a motor, and every register of its timer, is as before. -/
structure Untouched (m : MotorSelect) (r r' : Registers) : Prop where
  pins : ∀ q ∈ m.pins, r'.pinAt q = r.pinAt q
  timer : r'.timer m.timer = r.timer m.timer

/-- The statement writes neither a pin of the motor nor its timer. -/
def Stmt.Spares (m : MotorSelect) (st : Stmt) : Prop :=
  (∀ q ∈ m.pins, st.pin ≠ some q) ∧ st.timer ≠ some m.timer

instance (m : MotorSelect) : DecidablePred (Stmt.Spares m) := fun _ =>
  inferInstanceAs (Decidable (_ ∧ _))

/-- **Frame rule.**  Statements that spare a motor leave it untouched. -/
theorem untouched_of_spares {l : List Stmt} (hl : ∀ st ∈ l, st.Spares m) :
    Untouched m h.regs (execAll h l).regs where
  pins q hq := run_invariant_of (I := fun h' => h'.regs.pinAt q = h.regs.pinAt q)
    (A := Stmt.Spares m) (fun _ _ hst hh => (pinAt_exec_of_ne (hst.1 q hq)).trans hh) l h hl rfl
  timer := run_invariant_of (I := fun h' => h'.regs.timer m.timer = h.regs.timer m.timer)
    (A := Stmt.Spares m) (fun _ _ hst hh => (timer_exec_of_ne hst.2).trans hh) l h hl rfl

/-! ### `PWMMotor` -/

/-- No branch of `PWMMotor` names a pin or the timer of the other motor. -/
theorem pwm_spares (m : MotorSelect) (dir : MotorDir) (dutyCycle : BitVec 16) :
    ∀ st ∈ pwmMotor m dir dutyCycle, st.Spares m.other := by
  -- the value to compare with plays no part
  have hparam (m : MotorSelect) (v : BitVec 16) : (Stmt.setCompareValue v).Spares m := by
    constructor
    · intro q _ heq
      cases heq
    · intro heq
      cases heq
  cases m <;> cases dir <;>
    · simp only [pwmMotor, List.cons_append, List.nil_append, List.forall_mem_cons, hparam,
        true_and]
      decide

theorem pwm_untouched (h : Hw) (m : MotorSelect) (dir : MotorDir) (dutyCycle : BitVec 16) :
    Untouched m.other h.regs (execAll h (pwmMotor m dir dutyCycle)).regs :=
  untouched_of_spares (pwm_spares m dir dutyCycle)

/-! ### `turnOffMotor` -/

theorem stop_eq_self_iff (w : BitVec 16) : w &&& ~~~MC_3 = w ↔ w &&& MC_3 = 0 := by
  constructor
  · intro hw
    rw [← hw]
    exact mode_of_stop w
  · intro hw
    ext i hi
    have hbit := congrArg (fun v => v.getLsbD i) hw
    simp only [BitVec.getLsbD_and] at hbit
    cases hmask : MC_3[i] <;> simp_all [BitVec.getLsbD_eq_getElem]

theorem timerRunning_eq_false_iff (r : Registers) (b : TimerBase) :
    r.timerRunning b = false ↔ (r.timer b).ctl &&& MC_3 = 0 := by
  simp [Registers.timerRunning]

/-- `turnOffMotor` stops `TIMER_A0` and writes no other timer, for either motor. -/
theorem timer_turnOff (h : Hw) (m : MotorSelect) : (execAll h (turnOffMotor m)).regs.timer .TA0 =
      { h.regs.timer .TA0 with ctl := (h.regs.timer .TA0).ctl &&& ~~~MC_3 } ∧
    (execAll h (turnOffMotor m)).regs.timer .TA1 = h.regs.timer .TA1 := by
  cases m <;> exact ⟨rfl, rfl⟩

/-- `turnOffMotor` of the first motor leaves the second alone exactly when it stops nothing. -/
theorem off_untouched_iff (h : Hw) :
    Untouched .MOTOR2 h.regs (execAll h (turnOffMotor .MOTOR1)).regs ↔
      h.regs.timerRunning .TA0 = false := by
  rw [timerRunning_eq_false_iff, ← stop_eq_self_iff]
  have htimer := (timer_turnOff h .MOTOR1).1
  constructor
  · intro hun
    have hsame := htimer.symm.trans hun.timer
    exact congrArg TimerRegs.ctl hsame
  · intro hctl
    have hpins : ∀ st ∈ turnOffMotor .MOTOR1, ∀ q ∈ MotorSelect.pins .MOTOR2, st.pin ≠ some q := by
      decide
    refine ⟨fun q hq => ?_, ?_⟩
    · exact run_invariant_of (I := fun h' => h'.regs.pinAt q = h.regs.pinAt q)
        (A := fun st => st.pin ≠ some q) (fun _ _ hst hh => (pinAt_exec_of_ne hst).trans hh) _ h
        (fun st hst => hpins st hst q hq) rfl
    · show (execAll h (turnOffMotor .MOTOR1)).regs.timer .TA0 = h.regs.timer .TA0
      rw [htimer, hctl]

/-! ### Independence -/

/-- The calls for a motor leave the other one alone, and `turnOffMotor` stops its timer. -/
structure Independent (h : Hw) (m : MotorSelect) : Prop where
  pwm : ∀ dir dutyCycle, Untouched m.other h.regs (execAll h (pwmMotor m dir dutyCycle)).regs
  off : Untouched m.other h.regs (execAll h (turnOffMotor m)).regs
  stopped : (execAll h (turnOffMotor m)).regs.timerRunning m.timer = false

theorem stopped_turnOff (h : Hw) : (execAll h (turnOffMotor m)).regs.timerRunning .TA0 = false := by
  rw [timerRunning_eq_false_iff, (timer_turnOff h m).1]
  exact mode_of_stop _

/-- **The motors are independent** exactly for the second, or when neither timer runs:
    `turnOffMotor` stops `TIMER_A0` for the first motor too. -/
theorem independent_iff (h : Hw) (m : MotorSelect) :
    Independent h m ↔ m = .MOTOR2 ∨ ∀ b, h.regs.timerRunning b = false := by
  cases m with
  | MOTOR1 =>
    have hstopped : (execAll h (turnOffMotor .MOTOR1)).regs.timerRunning .TA1 = false ↔
        h.regs.timerRunning .TA1 = false := by
      rw [timerRunning_eq_false_iff, timerRunning_eq_false_iff, (timer_turnOff h .MOTOR1).2]
    constructor
    · rintro ⟨-, hoff, hstop⟩
      refine Or.inr fun b => ?_
      cases b with
      | TA0 => exact (off_untouched_iff h).mp hoff
      | TA1 => exact hstopped.mp hstop
    · rintro (hm | hb)
      · cases hm
      · exact ⟨pwm_untouched h .MOTOR1, (off_untouched_iff h).mpr (hb .TA0),
          hstopped.mpr (hb .TA1)⟩
  | MOTOR2 =>
    have hspares : ∀ st ∈ turnOffMotor .MOTOR2, st.Spares .MOTOR1 := by decide
    exact iff_of_true ⟨pwm_untouched h .MOTOR2, untouched_of_spares hspares, stopped_turnOff h⟩
      (Or.inl rfl)

/-- Both motors forward, then the first one off: it is the second whose timer stops. -/
theorem stops_the_other :
    let h := execAll ⟨resetRegs, timerCompInitParam⟩ moveForward
    let h' := execAll h (turnOffMotor .MOTOR1)
    (h.regs.timerRunning .TA0 ∧ ¬ h'.regs.timerRunning .TA0 ∧ h'.regs.timerRunning .TA1) ∧
      ¬ Independent h .MOTOR1 := by
  intro h h'
  refine ⟨by decide, fun hind => ?_⟩
  have hrunning : h'.regs.timerRunning .TA1 = true := by decide
  have hstopped : h'.regs.timerRunning .TA1 = false := hind.stopped
  rw [hrunning] at hstopped
  cases hstopped

end Wheelson.Motor
