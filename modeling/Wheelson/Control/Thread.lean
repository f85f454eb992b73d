import Wheelson.Ipc.Pdu
import Wheelson.Lib.Machine

namespace Wheelson.Control

/-!
# `controlHandler.c`: the control thread and the safety interrupt

The robot controller as a machine:

* `Act.thread` — `controlThread` executes its next statement.  `Pc` has one constructor for
  each statement that touches anything outside the function it stands in; the handlers
  (`waitHandler`, `exeHandler`, `rotateToHeading`, `colHandler`) say what each one does.
* `Act.edge` — U_ALERT changes and `safetyHandler` runs to completion.
* `Act.command`, `Act.sensor`, `Act.drain` — the other threads at the two FIFOs:
  `commandTCP` puts a command, `sensorThread` puts an update, `updateTCP` takes one.

A statement that blocks (`pdu_fifo_get` on an empty ring, `pdu_fifo_put` on a full one) is a
step that is not enabled.  Headings are multiples of 90 degrees or -1, so `float` is `ℤ`.
-/

open Machine Ipc

/-! ### The motor commands and the headings -/

/-- The values of `motor_cmd_t`. -/
inductive MotorCmd
  | MOTOR_TURN_RIGHT | MOTOR_TURN_LEFT | MOVE_FORW | MOVE_RVRS | MOTOR_STOP
deriving DecidableEq, Repr

open MotorCmd

def MotorCmd.byte : MotorCmd → UInt8
  | .MOTOR_TURN_RIGHT => 'R'.toUInt8
  | .MOTOR_TURN_LEFT => 'L'.toUInt8
  | .MOVE_FORW => 'F'.toUInt8
  | .MOVE_RVRS => 'B'.toUInt8
  | .MOTOR_STOP => 'S'.toUInt8

def HEAD_N : ℤ := 0
def HEAD_S : ℤ := 180
def HEAD_E : ℤ := 90
def HEAD_W : ℤ := 270

/-- `state_t`. -/
inductive State
  | ST_WAIT_CMD | ST_EXE_CMD | ST_COL | ST_RESET
deriving DecidableEq, Repr

/-- The coordinates of `wheelson_pos_t`. -/
structure Pos where
  x : UInt8
  y : UInt8
deriving DecidableEq, Repr

/-! ### The functions that touch nothing outside -/

/-- `calc_heading`, with the position it reads. -/
def calcHeading (new_x new_y : UInt8) (curr : Pos) : ℤ :=
  if new_x > curr.x then HEAD_S
  else if new_x < curr.x then HEAD_N
  else if new_y > curr.y then HEAD_E
  else if new_y < curr.y then HEAD_W
  else -1

/-- `calc_next_coord`, with the position it reads and the `next_x` and `next_y` it writes;
    the result is -1 when it leaves them as they are. -/
def calcNextCoord (new_x new_y : UInt8) (curr next : Pos) : ℤ × Pos :=
  if curr.x < new_x then (0, ⟨curr.x + 1, curr.y⟩)
  else if curr.x > new_x then (0, ⟨curr.x - 1, curr.y⟩)
  else if curr.y < new_y then (0, ⟨curr.x, curr.y + 1⟩)
  else if curr.y > new_y then (0, ⟨curr.x, curr.y - 1⟩)
  else (-1, next)

/-- `res` in `rotate_to_heading`: the quarter turns, negative to the left. -/
def turns (curr_heading new_heading : ℤ) : ℤ :=
  let res := (curr_heading - new_heading).tdiv 90
  if res = -3 then -1 else res

/-- `out_pdu`: `msg` is the text `sprintf` writes and `msg_len` its length. -/
structure OutPdu where
  cmd : UInt8
  x : UInt8
  y : UInt8
  msg : String
deriving DecidableEq, Repr

/-- The text of a position, as `sprintf` writes it. -/
def Pos.text (pos : Pos) : String :=
  "\x7b" ++ toString pos.x.toNat ++ " , " ++ toString pos.y.toNat ++ "\x7d "

def sendNewPos (pos : Pos) : OutPdu := ⟨PDU_UPDATE, pos.x, pos.y, "POS UPDATE: " ++ pos.text⟩

def sendMsg (msg : String) (pos : Pos) : OutPdu := ⟨PDU_UPDATE, pos.x, pos.y, msg⟩

def sendBlockedMsg (pos : Pos) : OutPdu := ⟨PDU_BLOCK, pos.x, pos.y, "ROBOT BLOCK: " ++ pos.text⟩

/-! ### The state -/

inductive WaitPc
  /-- `send_motor_cmd(MOTOR_STOP)`. -/
  | stop
  /-- `pdu_fifo_get`. -/
  | get
  /-- `switch (rx_pdu.cmd)`. -/
  | switch
  /-- `send_motor_cmd(cmd)` of the direct control cases. -/
  | drive (cmd : MotorCmd)
deriving DecidableEq, Repr

inductive ExePc
  /-- The initialisations before the loop. -/
  | entry
  /-- `if(blocked_flag)` at the top of the loop. -/
  | test
  /-- `if(rx_pdu.cmd == PDU_MOVE)`. -/
  | move
  /-- `get_position` and the comparison with the destination. -/
  | arrived
  /-- `calc_next_coord`. -/
  | next
  /-- `calc_heading`. -/
  | heading
  /-- `if(blocked_flag)` after the rotation. -/
  | retest
  /-- `send_motor_cmd(MOVE_FORW)`. -/
  | forw
  /-- `Task_sleep(FORWARD_TIME_MS)`. -/
  | sleep
  /-- `send_motor_cmd(MOTOR_STOP)`. -/
  | stop
  /-- `change_position`. -/
  | change
  /-- The branch for a command that is not a move. -/
  | other
  /-- `while(!done)`. -/
  | loop
  /-- `*next = ST_WAIT_CMD`. -/
  | ret
deriving DecidableEq, Repr

inductive RotPc
  /-- The range check of `new_heading`. -/
  | check
  /-- `send_motor_cmd(MOTOR_STOP)` and the computation of the turns. -/
  | stop
  /-- The test of the `for` loop. -/
  | loop
  /-- `send_motor_cmd` of the turn. -/
  | turn
  /-- `Task_sleep(ROTATE_TIME_MS)`. -/
  | sleep
  /-- `send_motor_cmd(MOTOR_STOP)` that ends a turn. -/
  | halt
  /-- `update_fake_heading`. -/
  | update
deriving DecidableEq, Repr

inductive ColPc
  /-- `while(read_u_alert())`. -/
  | test
  /-- `send_motor_cmd(MOTOR_STOP)`. -/
  | stop
  /-- `Task_sleep(1000)`. -/
  | sleep
  /-- `*next = ST_EXE_CMD`. -/
  | ret
deriving DecidableEq, Repr

/-- The calls of `send_new_pos`, `send_msg` and `send_blocked_msg`. -/
inductive Call
  | waitEnd | turning | forward | loopEnd | finished | blocked
deriving DecidableEq, Repr

/-- The position of `controlThread`. -/
inductive Pc
  /-- `if(blocked_flag == true)`. -/
  | top
  /-- `switch(state)`. -/
  | switch
  | wait (p : WaitPc)
  | exe (p : ExePc)
  | rotate (p : RotPc)
  | col (p : ColPc)
  /-- `reset_handler`. -/
  | reset
  /-- `get_position` and `sprintf` of a message. -/
  | msg (c : Call)
  /-- `pdu_fifo_put` of the message. -/
  | put (c : Call) (out_pdu : OutPdu)
deriving DecidableEq, Repr

/-- The locals of `exe_handler`. -/
structure Exe where
  done : Bool
  new_x : UInt8
  new_y : UInt8
  next : Pos
  new_heading : ℤ
deriving DecidableEq, Repr

/-- The locals of `rotate_to_heading`. -/
structure Rot where
  num_turns : ℕ
  turn_left : Bool
  i : ℕ
deriving DecidableEq, Repr

/-- What the machine does, in order. -/
inductive Obs
  /-- A command sent to the motor board, with `blocked_flag` as it was. -/
  | motor (cmd : MotorCmd) (blocked : Bool)
  /-- An edge of U_ALERT. -/
  | edge (high : Bool)
  /-- A command taken by `pdu_fifo_get`. -/
  | got (p : Pdu)
  /-- A call of `change_position`. -/
  | position (p : Pos)
  /-- `exe_handler` sent its last message. -/
  | finished
deriving DecidableEq

structure Sys where
  pc : Pc
  state : State
  rx_pdu : Pdu
  blocked_flag : Bool
  /-- The pin U_ALERT. -/
  u_alert : Bool
  position_g : Pos
  fake_heading : ℤ
  exe : Exe
  rot : Rot
  rx_pdu_fifo_g : List Pdu
  tx_pdu_fifo_g : List OutPdu
  trace : List Obs

inductive Act
  /-- `controlThread` goes on; `junk` is what the stack holds where `exe_handler` puts its
      uninitialised `next_x` and `next_y`. -/
  | thread (junk : Pos)
  | edge
  | command (p : Pdu)
  | sensor (out_pdu : OutPdu)
  | drain
deriving DecidableEq

/-! ### The steps of the thread -/

def Sys.goto (s : Sys) (pc : Pc) : Sys := { s with pc := pc }

def Sys.log (s : Sys) (o : Obs) : Sys := { s with trace := s.trace ++ [o] }

/-- `send_motor_cmd`. -/
def sendMotorCmd (cmd : MotorCmd) (s : Sys) : Sys := s.log (.motor cmd s.blocked_flag)

def waitHandler (s : Sys) : WaitPc → Option Sys
  | .stop => some ((sendMotorCmd MOTOR_STOP s).goto (.wait .get))
  | .get =>
    match s.rx_pdu_fifo_g with
    | [] => none
    | p :: rest =>
      some (({ s with rx_pdu := p, rx_pdu_fifo_g := rest }.log (.got p)).goto (.wait .switch))
  | .switch =>
    let cmd := s.rx_pdu.cmd
    some <|
      if cmd = PDU_MOVE then { s with state := .ST_EXE_CMD, pc := .msg .waitEnd }
      else if cmd = PDU_RESET then { s with state := .ST_RESET, pc := .msg .waitEnd }
      else if cmd = PDU_GO_FORWARD then s.goto (.wait (.drive MOVE_FORW))
      else if cmd = PDU_GO_REV then s.goto (.wait (.drive MOVE_RVRS))
      else if cmd = PDU_TURN_LEFT then s.goto (.wait (.drive MOTOR_TURN_LEFT))
      else if cmd = PDU_TURN_RIGHT then s.goto (.wait (.drive MOTOR_TURN_RIGHT))
      else if cmd = PDU_STOP then s.goto (.wait (.drive MOTOR_STOP))
      else s.goto (.msg .waitEnd)
  | .drive cmd =>
    some { sendMotorCmd cmd s with state := .ST_WAIT_CMD, pc := .msg .waitEnd }

def exeHandler (junk : Pos) (s : Sys) : ExePc → Sys
  | .entry => { s with
      exe := { s.exe with done := false, new_x := s.rx_pdu.x, new_y := s.rx_pdu.y, next := junk }
      pc := .exe .test }
  | .test =>
    if s.blocked_flag then { s with state := .ST_COL, pc := .top } else s.goto (.exe .move)
  | .move => if s.rx_pdu.cmd = PDU_MOVE then s.goto (.exe .arrived) else s.goto (.exe .other)
  | .arrived => { s with
      exe := { s.exe with
        done := if s.position_g.x = s.exe.new_x ∧ s.position_g.y = s.exe.new_y then true
          else s.exe.done }
      pc := .exe .next }
  | .next => { s with
      exe := { s.exe with
        next := (calcNextCoord s.exe.new_x s.exe.new_y s.position_g s.exe.next).2 }
      pc := .exe .heading }
  | .heading => { s with
      exe := { s.exe with new_heading := calcHeading s.exe.new_x s.exe.new_y s.position_g }
      pc := .rotate .check }
  | .retest =>
    if s.blocked_flag then { s with state := .ST_COL, pc := .top } else s.goto (.msg .forward)
  | .forw => (sendMotorCmd MOVE_FORW s).goto (.exe .sleep)
  | .sleep => s.goto (.exe .stop)
  | .stop => (sendMotorCmd MOTOR_STOP s).goto (.exe .change)
  | .change =>
    ({ s with position_g := s.exe.next }.log (.position s.exe.next)).goto (.msg .loopEnd)
  | .other => { sendMotorCmd MOTOR_STOP s with
      exe := { s.exe with done := true }
      pc := .msg .loopEnd }
  | .loop => if s.exe.done then s.goto (.msg .finished) else s.goto (.exe .test)
  | .ret => { s with state := .ST_WAIT_CMD, pc := .top }

def rotateToHeading (s : Sys) : RotPc → Sys
  | .check =>
    if s.exe.new_heading > 360 ∨ s.exe.new_heading < 0 then s.goto (.exe .retest)
    else s.goto (.rotate .stop)
  | .stop =>
    let res := turns s.fake_heading s.exe.new_heading
    { sendMotorCmd MOTOR_STOP s with
      rot := { num_turns := res.natAbs, turn_left := decide (res < 0), i := 0 }
      pc := .rotate .loop }
  | .loop => if s.rot.i < s.rot.num_turns then s.goto (.rotate .turn) else s.goto (.rotate .update)
  | .turn =>
    (sendMotorCmd (if s.rot.turn_left then MOTOR_TURN_LEFT else MOTOR_TURN_RIGHT) s).goto
      (.msg .turning)
  | .sleep => s.goto (.rotate .halt)
  | .halt => { sendMotorCmd MOTOR_STOP s with
      rot := { s.rot with i := s.rot.i + 1 }
      pc := .rotate .loop }
  | .update => { s with fake_heading := s.exe.new_heading, pc := .exe .retest }

def colHandler (s : Sys) : ColPc → Sys
  | .test => if s.u_alert then s.goto (.col .stop) else s.goto (.col .ret)
  | .stop => (sendMotorCmd MOTOR_STOP s).goto (.msg .blocked)
  | .sleep => s.goto (.col .test)
  | .ret => { s with state := .ST_EXE_CMD, pc := .top }

/-- The message of a call. -/
def Call.out (s : Sys) : Call → OutPdu
  | .waitEnd | .loopEnd => sendNewPos s.position_g
  | .turning => sendMsg (if s.rot.turn_left then "TURNING LEFT" else "TURNING RIGHT") s.position_g
  | .forward => sendMsg "MOVING FORWARD" s.position_g
  | .finished => sendMsg "CMD FINISHED" s.position_g
  | .blocked => sendBlockedMsg s.position_g

/-- The statement after a call. -/
def Call.ret : Call → Pc
  | .waitEnd => .top
  | .turning => .rotate .sleep
  | .forward => .exe .forw
  | .loopEnd => .exe .loop
  | .finished => .exe .ret
  | .blocked => .col .sleep

/-- `pdu_fifo_put(&tx_pdu_fifo_g, &out_pdu)`. -/
def Call.put (s : Sys) (c : Call) (out_pdu : OutPdu) : Option Sys :=
  if s.tx_pdu_fifo_g.length < PDU_FIFO_SIZE then
    let s := { s with tx_pdu_fifo_g := s.tx_pdu_fifo_g ++ [out_pdu], pc := c.ret }
    some (if c = .finished then s.log .finished else s)
  else none

/-- One statement of `controlThread`. -/
def controlThread (junk : Pos) (s : Sys) : Option Sys :=
  match s.pc with
  | .top =>
    some { s with state := if s.blocked_flag then .ST_COL else s.state, pc := .switch }
  | .switch => some <| s.goto <|
      match s.state with
      | .ST_WAIT_CMD => .wait .stop
      | .ST_EXE_CMD => .exe .entry
      | .ST_COL => .col .test
      | .ST_RESET => .reset
  | .wait p => waitHandler s p
  | .exe p => some (exeHandler junk s p)
  | .rotate p => some (rotateToHeading s p)
  | .col p => some (colHandler s p)
  | .reset => some { s with state := .ST_WAIT_CMD, pc := .top }
  | .msg c => some (s.goto (.put c (c.out s)))
  | .put c out_pdu => c.put s out_pdu

/-! ### The interrupt, the other threads and the start -/

def safetyHandler (s : Sys) : Sys :=
  if s.u_alert then { sendMotorCmd MOTOR_STOP s with blocked_flag := true }
  else { s with blocked_flag := false }

/-- The pin changes and the interrupt runs. -/
def Sys.edge (s : Sys) : Sys :=
  safetyHandler ({ s with u_alert := !s.u_alert }.log (.edge (!s.u_alert)))

def step (s : Sys) : Act → Option Sys
  | .thread junk => controlThread junk s
  | .edge => some s.edge
  | .command p =>
    if s.rx_pdu_fifo_g.length < PDU_FIFO_SIZE then
      some { s with rx_pdu_fifo_g := s.rx_pdu_fifo_g ++ [p] }
    else none
  | .sensor out_pdu =>
    if s.tx_pdu_fifo_g.length < PDU_FIFO_SIZE then
      some { s with tx_pdu_fifo_g := s.tx_pdu_fifo_g ++ [out_pdu] }
    else none
  | .drain =>
    match s.tx_pdu_fifo_g with
    | [] => none
    | _ :: rest => some { s with tx_pdu_fifo_g := rest }

/-- `controlThread` at its first loop test, with the pin as the board comes up. -/
def boot (u_alert : Bool) : Sys where
  pc := .top
  state := .ST_WAIT_CMD
  rx_pdu := .zeroed
  blocked_flag := false
  u_alert := u_alert
  position_g := ⟨0, 0⟩
  fake_heading := HEAD_N
  exe := ⟨false, 0, 0, ⟨0, 0⟩, 0⟩
  rot := ⟨0, false, 0⟩
  rx_pdu_fifo_g := []
  tx_pdu_fifo_g := []
  trace := []

end Wheelson.Control
