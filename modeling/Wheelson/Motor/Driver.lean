import Wheelson.Motor.Driverlib

namespace Wheelson.Motor

/-!
# `motorDriver.c` as statement lists

The receive interrupt may land between any two statements of the driver, so its functions
are kept as **lists of statements**, not as one transformation of the registers.

* `Stmt` / `Stmt.exec` — the statements the driver is made of.
* `pwmMotor`, `turnOffMotor`, `initMotors`, … — the functions of the source, each the list
  of statements of its body for the given arguments (the arguments are constants at every
  call, so a branch on them is decided when the list is built).
* `moveForward`, … — the two `PWMMotor` calls of each move function.  The wait loop and the
  two `turnOffMotor` calls that follow are control flow of `Main.lean`.
-/

/-- `enum motorSelect`. -/
inductive MotorSelect
  | MOTOR1 | MOTOR2
deriving DecidableEq, Repr

/-- `enum motorDir`. -/
inductive MotorDir
  | FORWARD | BACKWARD
deriving DecidableEq, Repr

def TIMER_A_PERIOD : BitVec 16 := 0xFFFF#16
def TURN_DURATION : ℕ := 0xFFFF
def TURN_POWER : BitVec 16 := 50#16

/-- The pins of the two bridges. -/
def P4_0 : Pin := ⟨.P4, 0⟩
def P8_3 : Pin := ⟨.P8, 3⟩
def P1_7 : Pin := ⟨.P1, 7⟩
def P1_6 : Pin := ⟨.P1, 6⟩

/-- The enable pins of the two bridges. -/
def P2_6 : Pin := ⟨.P2, 6⟩
def P2_7 : Pin := ⟨.P2, 7⟩

/-- The pin of the alarm. -/
def P3_2 : Pin := ⟨.P3, 2⟩

/-- The four bridge pins, the forward and the backward pin of each motor. -/
def bridgePins : List Pin := [P4_0, P8_3, P1_7, P1_6]

/-- The registers, and the parameter block that `main` hands to every driver call. -/
structure Hw where
  regs : Registers
  PWMParam : CompareModeParam

/-- One statement of the driver.  The timer calls that take `PWMParam` read it when they
    run. -/
inductive Stmt
  | setCompareInterruptEnable (v : BitVec 16)
  | setCompareOutputMode (v : BitVec 16)
  | setCompareValue (v : BitVec 16)
  | setCompareRegister (c : CompareRegister)
  | timerAInitUpMode (b : TimerBase) (param : UpModeParam)
  | timerAInitCompareMode (b : TimerBase)
  | timerASetCompareValue (b : TimerBase) (c : CompareRegister)
  | timerAStop (b : TimerBase)
  | timerAStartCounter (b : TimerBase) (timerMode : BitVec 16)
  | gpioSetAsOutputPin (port : GpioPort) (k : Fin 8)
  | gpioSetAsPeripheralModuleFunctionOutputPin (port : GpioPort) (k : Fin 8)
  | gpioSetOutputHighOnPin (port : GpioPort) (k : Fin 8)
  | gpioSetOutputLowOnPin (port : GpioPort) (k : Fin 8)
deriving DecidableEq, Repr

/-- Run one statement. -/
def Stmt.exec (h : Hw) : Stmt → Hw
  | .setCompareInterruptEnable v =>
      { h with PWMParam := { h.PWMParam with compareInterruptEnable := v } }
  | .setCompareOutputMode v =>
      { h with PWMParam := { h.PWMParam with compareOutputMode := v } }
  | .setCompareValue v => { h with PWMParam := { h.PWMParam with compareValue := v } }
  | .setCompareRegister c => { h with PWMParam := { h.PWMParam with compareRegister := c } }
  | .timerAInitUpMode b param => { h with regs := Motor.timerAInitUpMode b param h.regs }
  | .timerAInitCompareMode b =>
      { h with regs := Motor.timerAInitCompareMode b h.PWMParam h.regs }
  | .timerASetCompareValue b c =>
      { h with regs := Motor.timerASetCompareValue b c h.PWMParam.compareValue h.regs }
  | .timerAStop b => { h with regs := Motor.timerAStop b h.regs }
  | .timerAStartCounter b timerMode =>
      { h with regs := Motor.timerAStartCounter b timerMode h.regs }
  | .gpioSetAsOutputPin port k =>
      { h with regs := Motor.gpioSetAsOutputPin port (gpioPin k) h.regs }
  | .gpioSetAsPeripheralModuleFunctionOutputPin port k =>
      { h with
        regs := Motor.gpioSetAsPeripheralModuleFunctionOutputPin port (gpioPin k)
          ModuleFunction.primary h.regs }
  | .gpioSetOutputHighOnPin port k =>
      { h with regs := Motor.gpioSetOutputHighOnPin port (gpioPin k) h.regs }
  | .gpioSetOutputLowOnPin port k =>
      { h with regs := Motor.gpioSetOutputLowOnPin port (gpioPin k) h.regs }

/-- Run a list of statements to its end. -/
def execAll (h : Hw) (stmts : List Stmt) : Hw := stmts.foldl Stmt.exec h

/-! ### The functions of the driver -/

/-- `PWMMotor`.  `dutyCycle` is clipped at 100 before it is used. -/
def pwmMotor (motor : MotorSelect) (dir : MotorDir) (dutyCycle : BitVec 16) : List Stmt :=
  let dutyCycle := if dutyCycle ≥ 100#16 then 100#16 else dutyCycle
  [ .setCompareInterruptEnable 0#16,
    .setCompareOutputMode OUTMOD_7,
    .setCompareValue (TIMER_A_PERIOD / 100#16 * dutyCycle) ] ++
  match motor, dir with
  | .MOTOR1, .FORWARD =>
    [ .setCompareRegister .reg1, -- 4.0 is CCR1 TimerA1
      .timerASetCompareValue .TA1 .reg2,
      .timerAStop .TA1,
      .gpioSetAsOutputPin .P4 0,
      .gpioSetOutputLowOnPin .P4 0,
      .gpioSetAsPeripheralModuleFunctionOutputPin .P8 3,
      .timerAInitCompareMode .TA1,
      .timerAStartCounter .TA1 MC_1 ]
  | .MOTOR1, .BACKWARD =>
    [ .setCompareRegister .reg2, -- 8.3 is CCR2 TimerA1
      .timerAStop .TA1,
      .timerASetCompareValue .TA1 .reg1,
      .gpioSetAsOutputPin .P8 3,
      .gpioSetOutputLowOnPin .P8 3,
      .gpioSetAsPeripheralModuleFunctionOutputPin .P4 0,
      .timerAInitCompareMode .TA1,
      .timerAStartCounter .TA1 MC_1 ]
  | .MOTOR2, .FORWARD =>
    [ .setCompareRegister .reg1, -- 1.7 is CCR1 TimerA0
      .timerAStop .TA0,
      .timerASetCompareValue .TA0 .reg1,
      .gpioSetAsOutputPin .P1 6,
      .gpioSetOutputLowOnPin .P1 6,
      .gpioSetAsPeripheralModuleFunctionOutputPin .P1 7,
      .timerAInitCompareMode .TA0,
      .timerAStartCounter .TA0 MC_1 ]
  | .MOTOR2, .BACKWARD =>
    [ .setCompareRegister .reg2, -- 1.6 is CCR2 TimerA0
      .timerAStop .TA0,
      .timerASetCompareValue .TA0 .reg2,
      .gpioSetAsOutputPin .P1 7,
      .gpioSetOutputLowOnPin .P1 7,
      .gpioSetAsPeripheralModuleFunctionOutputPin .P1 6,
      .timerAInitCompareMode .TA0,
      .timerAStartCounter .TA0 MC_1 ]

/-- `turnOffMotor`.  Both branches stop `TIMER_A0`. -/
def turnOffMotor : MotorSelect → List Stmt
  | .MOTOR1 =>
    [ .timerAStop .TA0,
      .gpioSetAsOutputPin .P4 0,
      .gpioSetOutputLowOnPin .P4 0,
      .gpioSetAsOutputPin .P8 3,
      .gpioSetOutputLowOnPin .P8 3 ]
  | .MOTOR2 =>
    [ .timerAStop .TA0,
      .gpioSetAsOutputPin .P1 7,
      .gpioSetOutputLowOnPin .P1 7,
      .gpioSetAsOutputPin .P1 6,
      .gpioSetOutputLowOnPin .P1 6 ]

/-- The two `PWMMotor` calls of `moveRight`: motor 2 forward, motor 1 backward. -/
def moveRight : List Stmt :=
  pwmMotor .MOTOR2 .FORWARD TURN_POWER ++ pwmMotor .MOTOR1 .BACKWARD TURN_POWER

/-- The two `PWMMotor` calls of `moveLeft`: motor 2 backward, motor 1 forward. -/
def moveLeft : List Stmt :=
  pwmMotor .MOTOR2 .BACKWARD TURN_POWER ++ pwmMotor .MOTOR1 .FORWARD TURN_POWER

/-- The two `PWMMotor` calls of `moveForward`. -/
def moveForward : List Stmt :=
  pwmMotor .MOTOR1 .FORWARD TURN_POWER ++ pwmMotor .MOTOR2 .FORWARD TURN_POWER

/-- The two `PWMMotor` calls of `moveBackward`. -/
def moveBackward : List Stmt :=
  pwmMotor .MOTOR1 .BACKWARD TURN_POWER ++ pwmMotor .MOTOR2 .BACKWARD TURN_POWER

/-- `initMotors`, with the two parameter blocks `main` has filled in. -/
def initMotors (motorInitParam : UpModeParam) : List Stmt :=
  [ .gpioSetAsPeripheralModuleFunctionOutputPin .P4 0,
    .gpioSetAsPeripheralModuleFunctionOutputPin .P8 3,
    .gpioSetAsPeripheralModuleFunctionOutputPin .P1 7,
    .gpioSetAsPeripheralModuleFunctionOutputPin .P1 6,
    .gpioSetAsOutputPin .P2 6,
    .gpioSetAsOutputPin .P2 7,
    .gpioSetOutputHighOnPin .P2 6, -- enableMotor1
    .gpioSetOutputHighOnPin .P2 7, -- enableMotor2
    .timerAInitUpMode .TA1 motorInitParam,
    .timerAInitUpMode .TA0 motorInitParam,
    .timerAInitCompareMode .TA1,
    .timerAInitCompareMode .TA0,
    .setCompareRegister .reg2,
    .timerAInitCompareMode .TA1,
    .timerAInitCompareMode .TA0,
    .timerAStop .TA1,
    .timerAStop .TA0 ]

/-! ### Driving and holding low -/

/-- The pin a statement puts under the control of a timer. -/
def Stmt.drives : Stmt → Option Pin
  | .gpioSetAsPeripheralModuleFunctionOutputPin port k => some ⟨port, k⟩
  | _ => none

/-- The pin a statement sets high. -/
def Stmt.raises : Stmt → Option Pin
  | .gpioSetOutputHighOnPin port k => some ⟨port, k⟩
  | _ => none

/-- A statement that neither drives nor raises a pin keeps it low. -/
theorem outputLow_exec {h : Hw} {st : Stmt} {q : Pin} (hd : st.drives ≠ some q)
    (hr : st.raises ≠ some q) (hq : (h.regs.pinAt q).outputLow) :
    ((st.exec h).regs.pinAt q).outputLow := by
  cases st with
  | gpioSetAsOutputPin port k =>
    simp only [Stmt.exec, pinAt_gpioSetAsOutputPin]
    split
    · simp_all [PinState.outputLow]
    · exact hq
  | gpioSetAsPeripheralModuleFunctionOutputPin port k =>
    have hne : q ≠ ⟨port, k⟩ := fun he => hd (by rw [he]; rfl)
    simpa only [Stmt.exec, pinAt_gpioSetAsPeripheralModuleFunctionOutputPin, hne, if_false]
      using hq
  | gpioSetOutputHighOnPin port k =>
    have hne : q ≠ ⟨port, k⟩ := fun he => hr (by rw [he]; rfl)
    simpa only [Stmt.exec, pinAt_gpioSetOutputHighOnPin, hne, if_false] using hq
  | gpioSetOutputLowOnPin port k =>
    simp only [Stmt.exec, pinAt_gpioSetOutputLowOnPin]
    split
    · simp_all [PinState.outputLow]
    · exact hq
  | _ => exact hq

end Wheelson.Motor
