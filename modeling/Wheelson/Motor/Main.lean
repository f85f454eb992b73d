import Wheelson.Lib.Machine
import Wheelson.Motor.Driver

namespace Wheelson.Motor

/-!
# `main.c`: the main loop and the receive interrupt

The motor board as a machine with two kinds of event:

* `Event.main` — the main loop executes its next statement (`mainStep`);
* `Event.rx b` — the UART receives the byte `b` and `EUSCI_A0_ISR` runs to completion
  (`eusciA0Isr`).

`Board.pc` is the position of the main loop.  Inside a driver function it carries the list
of the statements that are still to run, so every statement boundary of `PWMMotor` and
`turnOffMotor` is a state of the machine.  `boot` is the state in which `main` enters its
loop, over arbitrary contents of the registers at power-up.

The counters of the wait loop are `int`s of 16 bits.  `duration < TURN_DURATION` compares
them with the unsigned `0xFFFF`, and so as unsigned numbers; the model takes `duration++` to
wrap past 32767, as the increment of a register does, although the language leaves that open.
Under this reading `duration` counts from 0 to `TURN_DURATION`, which is what `Pc.wait` holds.
-/

/-! ### The bytes of the protocol -/

/-- The movement commands, in the order of the `else if` chain. -/
inductive Move
  | forw | rvrs | left | right
deriving DecidableEq, Repr

def MOTOR_STOP : UInt8 := 'S'.toUInt8

/-- `MOVE_FORW`, `MOVE_RVRS`, `MOTOR_TURN_LEFT`, `MOTOR_TURN_RIGHT`. -/
def Move.byte : Move → UInt8
  | .forw => 'F'.toUInt8
  | .rvrs => 'B'.toUInt8
  | .left => 'L'.toUInt8
  | .right => 'R'.toUInt8

/-- The move function a command selects. -/
def Move.body : Move → List Stmt
  | .forw => moveForward
  | .rvrs => moveBackward
  | .left => moveLeft
  | .right => moveRight

/-! ### The state -/

def UINT16_MAX : ℕ := 0xFFFF

/-- The position of the main loop. -/
inductive Pc
  /-- `if(RXData != 0)`, the idle test of `while (1)`. -/
  | test
  /-- The wait loop, `delay` counted so far. -/
  | delay (n : ℕ)
  /-- `clearMotorStopFlag()`. -/
  | clearFlag
  /-- `RXData == m.byte`. -/
  | cmp (m : Move)
  /-- Inside the two `PWMMotor` calls of a move function, with the statements left. -/
  | drive (m : Move) (todo : List Stmt)
  /-- `if(motorStopFlag == 1)` of the wait loop of a move function; `duration` is read as an
      unsigned number, to which `duration++` is assumed to wrap past 32767. -/
  | wait (loop2 duration : ℕ)
  /-- Inside the two `turnOffMotor` calls that end a move function. -/
  | off (todo : List Stmt)
  /-- `RXData = 0`. -/
  | clearRX
deriving DecidableEq, Repr

/-- The motor board. -/
structure Board where
  pc : Pc
  hw : Hw
  RXData : UInt8
  motorStopFlag : UInt8

inductive Event
  | main
  | rx (b : UInt8)
deriving DecidableEq, Repr

/-! ### The steps -/

/-- The comparison after `RXData == m.byte` has failed. -/
def Move.orElse : Move → Pc
  | .forw => .cmp .rvrs
  | .rvrs => .cmp .left
  | .left => .cmp .right
  | .right => .clearRX

/-- One statement of the main loop. -/
def mainStep (b : Board) : Board :=
  match b.pc with
  | .test => if b.RXData ≠ 0 then { b with pc := .delay 0 } else b
  | .delay n =>
      if n < UINT16_MAX then { b with pc := .delay (n + 1) } else { b with pc := .clearFlag }
  | .clearFlag => { b with motorStopFlag := 0, pc := .cmp .forw }
  | .cmp m =>
      if b.RXData = m.byte then { b with pc := .drive m m.body } else { b with pc := m.orElse }
  | .drive m (st :: todo) => { b with hw := st.exec b.hw, pc := .drive m todo }
  | .drive _ [] => { b with pc := .wait 0 0 }
  | .wait loop2 duration =>
      if loop2 < 10 then
        if duration < TURN_DURATION then
          if b.motorStopFlag = 1 then { b with pc := .clearRX } -- return
          else { b with pc := .wait loop2 (duration + 1) }
        else { b with pc := .wait (loop2 + 1) 0 }
      else { b with pc := .off (turnOffMotor .MOTOR1 ++ turnOffMotor .MOTOR2) }
  | .off (st :: todo) => { b with hw := st.exec b.hw, pc := .off todo }
  | .off [] => { b with pc := .clearRX }
  | .clearRX => { b with RXData := 0, pc := .test }

/-- `disableAlarm`. -/
def disableAlarm : List Stmt := [.gpioSetOutputLowOnPin P3_2.port P3_2.bit]

/-- The receive branch of `EUSCI_A0_ISR`. -/
def eusciA0Isr (byte : UInt8) (b : Board) : Board :=
  let b := { b with RXData := byte }
  if b.RXData = MOTOR_STOP then
    { b with
      motorStopFlag := 1
      hw := execAll b.hw (disableAlarm ++ turnOffMotor .MOTOR1 ++ turnOffMotor .MOTOR2) }
  else b

def step (b : Board) : Event → Board
  | .main => mainStep b
  | .rx byte => eusciA0Isr byte b

/-! ### Start-up -/

/-- `startupSound`: four pulses of the alarm pin. -/
def startupSound : List Stmt :=
  (List.replicate 4 [Stmt.gpioSetOutputHighOnPin P3_2.port P3_2.bit,
    .gpioSetOutputLowOnPin P3_2.port P3_2.bit]).flatten

/-- The fields `main` stores in `motorInitParam`. -/
def motorInitParam : UpModeParam where
  clockSource := 0x0200#16
  clockSourceDivider := 0x0000#16
  timerPeriod := TIMER_A_PERIOD
  timerInterruptEnable_TAIE := 0#16
  captureCompareInterruptEnable_CCR0_CCIE := 0#16
  timerClear := 0x0004#16
  startTimer := false

/-- The fields `main` stores in `timerCompInitParam`; `0xFFFF*(4/5)` is zero. -/
def timerCompInitParam : CompareModeParam where
  compareRegister := .reg1
  compareInterruptEnable := 0#16
  compareOutputMode := OUTMOD_7
  compareValue := 0#16

/-- The board when `main` enters its loop, from the register contents `r` before
    `initMotors`.  The interrupt is enabled only here, so no byte has been received. -/
def boot (r : Registers) : Board where
  pc := .test
  hw := execAll ⟨r, timerCompInitParam⟩ (initMotors motorInitParam ++ startupSound)
  RXData := 0
  motorStopFlag := 0

end Wheelson.Motor
