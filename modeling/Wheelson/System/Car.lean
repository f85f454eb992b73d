import Wheelson.Control.Frame
import Wheelson.Motor.Ends

namespace Wheelson.System

/-!
# The two boards

The controller sends one byte for each motor command, and the motor board receives the bytes in
their order, some time later, between two statements of its main loop.  `Control/Thread.lean` and
`Motor/Main.lean` model the two boards for themselves; here they are put together, with the line
between them.

* `Begun` — the controller sends a STOP before anything else.
* `Car` — the controller, the motor board, and how many bytes the one has received of the other.
  A byte is received at any time after it has been sent, so that the line may be arbitrarily slow.
* `Heard` — the condition under which a STOP does what it is for, of a single step: it is not
  received while the motor board drives a pin, and no move begins with its flag still up.
* `Car.Linked` — what the bytes received make of the motor board, as long as every STOP is heard.
* `car_stops` — the motors are off while the controller waits for a command, and come to rest
  after every byte.
-/

open Machine

variable {s s' : Control.Sys} {a : Control.Act} {junk : Control.Pos}

/-! ### The bytes of the controller -/

/-- The motor commands sent so far. -/
def commands (s : Control.Sys) : List Control.MotorCmd := s.trace.filterMap Control.Obs.cmd

/-- The bytes sent so far. -/
def sentBytes (s : Control.Sys) : List UInt8 := (commands s).map Control.MotorCmd.byte

/-- A statement of the thread sends the command that `Sys.sends` says, if any. -/
theorem commands_stmt (h : Control.Stmt junk s s') :
    commands s' = commands s ++ s.sends.toList := by
  rw [commands, Control.trace_stmt h, List.filterMap_append, Control.logs_cmd]
  rfl

/-- At a falling edge nothing is sent. -/
theorem commands_fall (s : Control.Sys) : commands s.fall = commands s := by
  simp [commands, Control.Sys.fall, Control.Sys.log, Control.Obs.cmd]

/-- At a rising edge the interrupt sends a STOP. -/
theorem commands_rise (s : Control.Sys) : commands s.rise = commands s ++ [.MOTOR_STOP] := by
  simp only [commands, Control.Sys.rise, Control.sendMotorCmd, Control.Sys.log,
    List.filterMap_append, List.append_assoc]
  rfl

/-- What has been sent stays sent. -/
theorem commands_step (h : Control.Step s a s') : commands s <+: commands s' := by
  cases h with
  | thread h =>
    rw [commands_stmt h]
    exact List.prefix_append _ _
  | fall => simp [commands_fall]
  | rise => simp [commands_rise]
  | command | sensor | drain => exact List.prefix_rfl

/-- The first command is a STOP, and before it the thread is on its way to the one of
    `wait_handler`. -/
def Begun (s : Control.Sys) : Prop :=
  [.MOTOR_STOP] <+: commands s ∨ commands s = [] ∧ s.blocked_flag = false ∧
    s.state = .ST_WAIT_CMD ∧ (s.pc = .top ∨ s.pc = .switch ∨ s.pc = .wait .stop)

/-- Up to its first STOP the thread has nowhere else to go. -/
theorem begun_stmt (h : Control.Stmt junk s s') (hs : Begun s) : Begun s' := by
  rcases hs with hs | ⟨hnone, hflag, hstate, hpc⟩
  · exact .inl (hs.trans (commands_step (.thread h)))
  -- nothing has been sent yet
  have hsame (hsends : s.sends = none) : commands s' = [] := by
    rw [commands_stmt h, hnone, hsends]
    rfl
  cases h with
  | top htop =>
    refine .inr ⟨hsame ?_, hflag, ?_, .inr (.inl rfl)⟩
    · simp only [Control.Sys.sends, htop]
    · show (if s.blocked_flag then Control.State.ST_COL else s.state) = _
      rw [hflag]
      exact hstate
  | toWait hswitch =>
    refine .inr ⟨hsame ?_, hflag, hstate, .inr (.inr rfl)⟩
    simp only [Control.Sys.sends, hswitch]
  | waitStop hstop =>
    left
    show _ <+: (s.trace ++ [Control.Obs.motor .MOTOR_STOP s.blocked_flag]).filterMap Control.Obs.cmd
    rw [List.filterMap_append, show s.trace.filterMap Control.Obs.cmd = [] from hnone]
    exact List.prefix_rfl
  | toExe _ hother | toCol _ hother | toReset _ hother => cases hstate.symm.trans hother
  | exeBlocked hother =>
    rcases hother with hother | hother <;> simp [hother] at hpc
  | _ hother => simp [hother] at hpc

/-- **Step rule.** -/
theorem begun_step (h : Control.Step s a s') (hs : Begun s) : Begun s' := by
  cases h with
  | thread h => exact begun_stmt h hs
  | fall =>
    rw [Begun, commands_fall]
    exact hs.imp_right fun hs => ⟨hs.1, rfl, hs.2.2⟩
  | rise =>
    left
    rw [commands_rise]
    rcases hs with hs | hs
    · exact hs.trans (List.prefix_append _ _)
    · rw [hs.1]
      exact List.prefix_rfl
  | command | sensor | drain => exact hs

/-- While the thread waits for a command, the last byte is a STOP. -/
def Stopped (s : Control.Sys) : Prop := s.pc = .wait .get → s.lastCmd = some .MOTOR_STOP

/-- **Step rule.**  The thread comes to `pdu_fifo_get` only by the STOP before it. -/
theorem stopped_step (h : Control.Step s a s') (hs : Stopped s) : Stopped s' := by
  cases h with
  | thread h =>
    intro hpc'
    rw [Control.lastCmd_stmt h]
    cases h with
    | waitStop hpc =>
      simp only [Control.Sys.sends, hpc]
      rfl
    | @put c => cases c <;> cases hpc'
    | _ => cases hpc'
  | fall =>
    intro hpc
    rw [Control.lastCmd_fall]
    exact hs hpc
  | rise => exact fun _ => Control.lastCmd_rise
  | command | sensor | drain => exact hs

/-! ### The car -/

/-- The two boards, and the line between them. -/
structure Car where
  sys : Control.Sys
  /-- How many of the bytes sent the motor board has received. -/
  received : ℕ
  board : Motor.Board

/-- A step of the car: one of the controller's, or one of the motor board's. -/
inductive CarAct
  /-- A step of the controller. -/
  | act (a : Control.Act)
  /-- The motor board receives the next byte. -/
  | rx
  /-- The main loop of the motor board goes on. -/
  | main
deriving DecidableEq

/-- The byte that the motor board receives next, if it has been sent. -/
def Car.next (c : Car) : Option UInt8 := (sentBytes c.sys)[c.received]?

/-- One step of the car. -/
def carStep (c : Car) : CarAct → Option Car
  | .act a => (Control.step c.sys a).map fun s => { c with sys := s }
  | .rx => c.next.map fun byte => { c with
      received := c.received + 1
      board := Motor.eusciA0Isr byte c.board }
  | .main => some { c with board := Motor.mainStep c.board }

/-- Both boards as they come up, and nothing sent. -/
def carBoot (pin : Bool) (r : Motor.Registers) : Car := ⟨Control.boot pin, 0, Motor.boot r⟩

/-- No STOP is lost while the motor board drives a pin, and no move begins with its flag up. -/
def Heard (c : Car) : CarAct → Prop
  | .act _ => True
  | .rx => c.next = some Motor.MOTOR_STOP → c.board.pc.driving = false
  | .main => ¬ c.board.Unheard

instance (c : Car) (e : CarAct) : Decidable (Heard c e) :=
  match e with
  | .act _ => .isTrue trivial
  | .rx => inferInstanceAs (Decidable (c.next = some Motor.MOTOR_STOP → c.board.pc.driving = false))
  | .main => inferInstanceAs (Decidable ¬ c.board.Unheard)

/-- The runs in which every STOP is heard. -/
def heardStep : Car → CarAct → Option Car := restrict Heard carStep

variable {c c' : Car} {e : CarAct} {r : Motor.Registers}

/-- The byte received last is a STOP. -/
def Car.LastStop (c : Car) : Prop :=
  (sentBytes c.sys)[c.received - 1]? = some Motor.MOTOR_STOP

/-- What the bytes received make of the motor board. -/
structure Car.Linked (r : Motor.Registers) (c : Car) : Prop where
  begun : Begun c.sys
  stopped : Stopped c.sys
  received_le : c.received ≤ (sentBytes c.sys).length
  shape : c.board.pc.shape
  unstarted : c.received = 0 → c.board = Motor.boot r
  ended : 0 < c.received → c.board.Ended
  heeded : 0 < c.received → c.LastStop → Motor.Heeded c.board

/-- So the first byte that is received is a STOP. -/
theorem first_stop (hs : Begun s) {byte : UInt8} (h : (sentBytes s)[0]? = some byte) :
    byte = Motor.MOTOR_STOP := by
  rcases hs with ⟨cmds, hcmds⟩ | ⟨hnone, -⟩
  · rw [sentBytes, ← hcmds] at h
    cases h
    rfl
  · rw [sentBytes, hnone] at h
    cases h

/-- A step of the controller changes nothing on the motor board. -/
theorem linked_act {s' : Control.Sys} (hc : c.Linked r) (h : Control.Step c.sys a s') :
    Car.Linked r { c with sys := s' } := by
  obtain ⟨bytes, hbytes⟩ : sentBytes c.sys <+: sentBytes s' := (commands_step h).map _
  have hle := hc.received_le
  refine ⟨begun_step h hc.begun, stopped_step h hc.stopped, ?_, hc.shape, hc.unstarted, hc.ended,
    fun hpos hlast => hc.heeded hpos ?_⟩
  · rw [← hbytes, List.length_append]
    exact hle.trans (Nat.le_add_right _ _)
  · have hlt : c.received - 1 < (sentBytes c.sys).length := by
      change 0 < c.received at hpos
      omega
    unfold Car.LastStop at hlast ⊢
    rw [← hbytes, List.getElem?_append_left hlt] at hlast
    exact hlast

/-- The byte that is received. -/
theorem linked_rx {byte : UInt8} (hc : c.Linked r) (hnext : c.next = some byte)
    (hheard : byte = Motor.MOTOR_STOP → c.board.pc.driving = false) :
    Car.Linked r { c with
      received := c.received + 1
      board := Motor.eusciA0Isr byte c.board } := by
  obtain ⟨hlt, -⟩ := List.getElem?_eq_some_iff.mp hnext
  refine ⟨hc.begun, hc.stopped, hlt, ?_, nofun, fun _ => ?_, fun _ hlast => ?_⟩
  · exact Motor.shape_step (.rx byte) hc.shape
  · rcases Nat.eq_zero_or_pos c.received with hzero | hpos
    · -- the first byte is a STOP, at the first idle test
      rw [Car.next, hzero] at hnext
      obtain rfl := first_stop hc.begun hnext
      show (Motor.eusciA0Isr Motor.MOTOR_STOP c.board).Ended
      rw [hc.unstarted hzero]
      exact Motor.bridgeOff_isr_stop _
    · exact Motor.ended_isr hc.shape (hc.ended hpos) hheard
  · obtain rfl : byte = Motor.MOTOR_STOP := Option.some.inj (hnext.symm.trans hlast)
    have hverdict := Motor.verdict_isr_stop c.board
    rw [hheard rfl, if_neg Bool.false_ne_true] at hverdict
    exact hverdict

/-- A statement of the main loop. -/
theorem linked_main (hc : c.Linked r) (hheard : ¬ c.board.Unheard) :
    Car.Linked r { c with board := Motor.mainStep c.board } := by
  refine ⟨hc.begun, hc.stopped, hc.received_le, Motor.shape_mainStep hc.shape, fun hzero => ?_,
    fun hpos => Motor.ended_mainStep hc.shape (hc.ended hpos) hheard,
    fun hpos hlast => Motor.heeded_mainStep hc.shape (hc.heeded hpos hlast)⟩
  show Motor.mainStep c.board = _
  rw [hc.unstarted hzero]
  exact Motor.mainStep_idle ⟨rfl, rfl⟩

/-- **Step rule.** -/
theorem linked_step (hc : c.Linked r) (h : heardStep c e = some c') : c'.Linked r := by
  obtain ⟨hheard, h⟩ := restrict_eq_some.mp h
  cases e with
  | act a =>
    obtain ⟨s', hs', rfl⟩ := Option.map_eq_some_iff.mp h
    exact linked_act hc (Control.step_cases hs')
  | rx =>
    obtain ⟨byte, hnext, rfl⟩ := Option.map_eq_some_iff.mp h
    exact linked_rx hc hnext fun hbyte => hheard (hbyte ▸ hnext)
  | main =>
    cases h
    exact linked_main hc hheard

/-- The motor board has received nothing. -/
theorem linked_boot (pin : Bool) (r : Motor.Registers) : (carBoot pin r).Linked r where
  begun := .inr ⟨rfl, rfl, rfl, .inl rfl⟩
  stopped := nofun
  received_le := le_rfl
  shape := trivial
  unstarted _ := rfl
  ended := nofun
  heeded := nofun

/-- **Run rule.** -/
theorem linked_reachable {pin : Bool} (h : Reachable heardStep (carBoot pin r) c) : c.Linked r :=
  h.invariant (linked_boot pin r) fun _ _ _ hc h => linked_step hc h

/-! ### A stretch without a byte -/

/-- The motor board by itself, whatever the controller does. -/
theorem board_exec {es : List CarAct} (h : exec heardStep c es = some c')
    (hrx : ∀ e ∈ es, e ≠ .rx) : c'.received = c.received ∧
      c'.board = run Motor.step c.board (List.replicate (es.count .main) .main) := by
  induction es generalizing c with
  | nil =>
    cases h
    exact ⟨rfl, rfl⟩
  | cons e es ih =>
    obtain ⟨d, hd, h⟩ := exec_cons_eq_some.mp h
    rw [List.forall_mem_cons] at hrx
    obtain ⟨hreceived, hboard⟩ := ih h hrx.2
    obtain ⟨-, hd⟩ := restrict_eq_some.mp hd
    cases e with
    | act a =>
      obtain ⟨s', -, rfl⟩ := Option.map_eq_some_iff.mp hd
      rw [List.count_cons_of_ne (by simp)]
      exact ⟨hreceived, hboard⟩
    | rx => exact absurd rfl hrx.1
    | main =>
      cases hd
      rw [List.count_cons_self, List.replicate_succ, run_cons]
      exact ⟨hreceived, hboard⟩

/-! ### The motors stop -/

/-- All bytes sent have been received. -/
def Car.Delivered (c : Car) : Prop := c.received = (sentBytes c.sys).length

/-- With all bytes received, the byte received last is the byte sent last. -/
theorem lastStop_of_delivered (hall : c.Delivered) (hlast : c.sys.lastCmd = some .MOTOR_STOP) :
    0 < c.received ∧ c.LastStop := by
  have hlast : (commands c.sys).getLast? = some .MOTOR_STOP := hlast
  obtain ⟨cmds, hcmds⟩ := List.getLast?_eq_some_iff.mp hlast
  have hbytes : sentBytes c.sys = cmds.map Control.MotorCmd.byte ++ [Motor.MOTOR_STOP] := by
    rw [sentBytes, hcmds, List.map_append]
    rfl
  unfold Car.Delivered at hall
  unfold Car.LastStop
  rw [hall, hbytes]
  simp

/-- **The car stops.**  In every run of the two boards in which every STOP is heard, whatever the
    commands and the alerts, and however late the bytes are: when the controller waits for a
    command, its last byte is a STOP; when the motor board has received all bytes and the last one
    is a STOP, the motors are off, at every statement of its main loop; after its first byte they
    are off at every idle test; and `ROUND` statements of the main loop without another byte bring
    it back to the idle test, with the motors off if it has ever received a byte.  Before its
    first byte the motor board is idle, and its pins are as `initMotors` leaves them. -/
theorem car_stops (pin : Bool) (r : Motor.Registers) (h : Reachable heardStep (carBoot pin r) c) :
    (c.sys.pc = .wait .get → c.sys.lastCmd = some .MOTOR_STOP) ∧
    (c.Delivered → c.sys.lastCmd = some .MOTOR_STOP → c.board.bridgeOff) ∧
    (0 < c.received → c.board.pc = .test → c.board.bridgeOff) ∧
    ∀ es c', exec heardStep c es = some c' → (∀ e ∈ es, e ≠ .rx) → Motor.ROUND ≤ es.count .main →
      c'.board.idle ∧ (0 < c.received → c'.board.bridgeOff) := by
  have hoff {d : Car} (hd : d.Linked r) (hpos : 0 < d.received) (hpc : d.board.pc = .test) :
      d.board.bridgeOff := by
    have hended := hd.ended hpos
    rw [Motor.Board.Ended, hpc] at hended
    exact hended
  have hc := linked_reachable h
  refine ⟨hc.stopped, fun hall hlast => ?_, hoff hc, fun es c' hes hrx hround => ?_⟩
  · obtain ⟨hpos, hstop⟩ := lastStop_of_delivered hall hlast
    exact (hc.heeded hpos hstop).1
  · obtain ⟨hreceived, hboard⟩ := board_exec hes hrx
    have hidle : c'.board.idle := by
      rw [hboard]
      exact Motor.idle_of_left ((Motor.left_le_round hc.shape).trans hround)
    refine ⟨hidle, fun hpos => hoff (linked_reachable (h.exec es hes)) ?_ hidle.1⟩
    rw [hreceived]
    exact hpos

/-! ### A move that a STOP ends -/

/-- The car with the main loop at the count `n` of its delay. -/
def Car.delayed (c : Car) (n : ℕ) : Car := { c with board := { c.board with pc := .delay n } }

/-- At that count, it is the car itself. -/
theorem delayed_of_pc {n : ℕ} (h : c.board.pc = .delay n) : c.delayed n = c := by
  obtain ⟨sys, received, pc, hw, rx, flag⟩ := c
  cases h
  rfl

/-- The delay of the main loop. -/
theorem exec_delay (c : Car) : exec heardStep (c.delayed 0)
    (List.replicate Motor.UINT16_MAX .main) = some (c.delayed Motor.UINT16_MAX) := by
  refine exec_replicate c.delayed fun i hi => restrict_eq_some.mpr ⟨?_, ?_⟩
  · -- no move begins in the delay
    rintro ⟨henters, -⟩
    cases henters
  · simp only [carStep, Motor.mainStep, Car.delayed, if_pos hi]

/-- The client asks for a move forward, whose byte comes in the delay that the first STOP has
    begun; by then the controller has sent the next STOP. -/
def asked : Option Car :=
  exec heardStep (carBoot false Motor.resetRegs)
    (List.replicate 3 (.act (.thread ⟨7, 7⟩)) ++
      .act (.command { Ipc.Pdu.zeroed with cmd := Ipc.PDU_GO_FORWARD }) ::
      List.replicate 3 (.act (.thread ⟨7, 7⟩)) ++ [.rx, .main, .rx] ++
      List.replicate 5 (.act (.thread ⟨7, 7⟩)))

/-- The delay is over, and `moveForward` has begun. -/
def turningOn : Option Car :=
  asked.bind fun c => exec heardStep (c.delayed Motor.UINT16_MAX) (List.replicate 4 .main)

/-- `moveForward` is in its wait loop. -/
def moving : Option Car :=
  turningOn.bind fun c => exec heardStep c (List.replicate 22 .main)

/-- The STOP arrives. -/
def halted : Option Car := moving.bind fun c => heardStep c .rx

/-- The main loop stands at the beginning of its delay. -/
theorem asked_pc (h : asked = some c) : c.board.pc = .delay 0 := by
  have hpc : asked.all fun c => c.board.pc = .delay 0 := by decide +kernel
  rw [h, Option.all_some, decide_eq_true_iff] at hpc
  exact hpc

/-- The delay lies in between. -/
theorem turningOn_reachable (h : turningOn = some c) :
    Reachable heardStep (carBoot false Motor.resetRegs) c := by
  obtain ⟨d, hd, hc⟩ := Option.bind_eq_some_iff.mp h
  have hdelay := exec_delay d
  rw [delayed_of_pc (asked_pc hd)] at hdelay
  exact ((Reachable.exec _ .init hd).exec _ hdelay).exec _ hc

/-- While `moveForward` turns the wheels on the STOP is not to come, and it stops them in the wait
    loop. -/
theorem car_stops_moving : ∃ c d c' : Car,
    Reachable heardStep (carBoot false Motor.resetRegs) c ∧ heardStep c .rx = none ∧
    exec heardStep c (List.replicate 22 .main) = some d ∧ ¬ d.board.bridgeOff ∧
    heardStep d .rx = some c' ∧ c'.sys.pc = .wait .get ∧ c'.board.pc = .wait 0 0 ∧
    c'.Delivered ∧ c'.board.bridgeOff := by
  have hend : halted = some (halted.get (by decide +kernel)) := (Option.some_get _).symm
  have hget : (halted.get (by decide +kernel)).sys.pc = .wait .get := by decide +kernel
  have hwait : (halted.get (by decide +kernel)).board.pc = .wait 0 0 := by decide +kernel
  have hall : (halted.get (by decide +kernel)).Delivered := by
    unfold Car.Delivered
    decide +kernel
  obtain ⟨d, hd, hrx⟩ := Option.bind_eq_some_iff.mp hend
  obtain ⟨c, hc, hmains⟩ := Option.bind_eq_some_iff.mp hd
  have hdriving : turningOn.all fun c => (heardStep c .rx).isNone := by decide +kernel
  have hturning : moving.all fun d => ¬ d.board.bridgeOff := by decide +kernel
  rw [hc, Option.all_some, Option.isNone_iff_eq_none] at hdriving
  rw [hd, Option.all_some, decide_eq_true_iff] at hturning
  have hreach := turningOn_reachable hc
  obtain ⟨hlast, hoff, -⟩ := car_stops false Motor.resetRegs ((hreach.exec _ hmains).step hrx)
  have hbridge := hoff hall (hlast hget)
  exact ⟨c, d, _, hreach, hdriving, hmains, hturning, hrx, hget, hwait, hall, hbridge⟩

end Wheelson.System
