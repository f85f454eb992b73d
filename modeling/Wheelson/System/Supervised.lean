import Wheelson.Control.Reports
import Wheelson.Motor.Moves
import Wheelson.System.Car

namespace Wheelson.System

/-!
# The car does not move unwatched

Every motion command of the controller goes with a message to the client, and a message waits
where `tx_pdu_fifo_g` is full.  `updateTCP` takes messages only while a client is connected, so
that a controller that nobody listens to has soon no room for another message, and commands no
further move.

* `motions` — the moves that the controller has commanded.
* `slack` — whether the thread may send a motion command before it puts its next message.
* `balance_step` — a motion command uses up room of the FIFO, which only `updateTCP` gives back.
* `car_supervised` — what the motor board makes is among the commands, and there are no more of
  them than `updateTCP` has taken messages, and a FIFO of them.
-/

open Machine Ipc

variable {s s' : Control.Sys} {a : Control.Act} {junk : Control.Pos}

/-! ### The moves commanded -/

/-- The move that a motor command asks for. -/
def moveOf : Control.MotorCmd → Option Motor.Move
  | .MOTOR_TURN_RIGHT => some .right
  | .MOTOR_TURN_LEFT => some .left
  | .MOVE_FORW => some .forw
  | .MOVE_RVRS => some .rvrs
  | .MOTOR_STOP => none

theorem ofByte_eq_moveOf (cmd : Control.MotorCmd) : Motor.Move.ofByte cmd.byte = moveOf cmd := by
  cases cmd <;> rfl

/-- The moves that the controller has commanded. -/
def motions (s : Control.Sys) : List Motor.Move := (commands s).filterMap moveOf

theorem motions_bytes (s : Control.Sys) :
    (sentBytes s).filterMap Motor.Move.ofByte = motions s := by
  rw [sentBytes, List.filterMap_map, motions]
  congr 1
  funext cmd
  exact ofByte_eq_moveOf cmd

/-! ### The balance -/

/-- The thread may send a motion command before it puts its next message. -/
def slack : Control.Pc → ℕ
  | .exe .sleep | .exe .stop | .exe .change => 0
  | .msg .loopEnd | .msg .turning | .msg .waitEnd => 0
  | .put .loopEnd _ | .put .turning _ | .put .waitEnd _ => 0
  | _ => 1

theorem slack_le (pc : Control.Pc) : slack pc ≤ 1 := by
  unfold slack
  split <;> decide

/-- The motion commands sent, and those that can be sent while nobody takes a message, at most. -/
def balance (s : Control.Sys) : ℕ :=
  (motions s).length + slack s.pc + (PDU_FIFO_SIZE - s.tx_pdu_fifo_g.length)

/-- A motion command that a statement sends takes the slack. -/
theorem slack_stmt (h : Control.Stmt junk s s') (hput : ∀ c o, s.pc ≠ .put c o) :
    (s.sends.bind moveOf).toList.length + slack s'.pc ≤ slack s.pc := by
  cases h with
  | exeBlocked hpc =>
    rcases hpc with hpc | hpc <;> simp [Control.Sys.sends, hpc, slack]
  | waitDrive hpc =>
    rename_i cmd
    cases cmd <;> simp [Control.Sys.sends, hpc, slack, moveOf]
  | rotTurn hpc =>
    simp only [Control.Sys.sends, hpc]
    split <;> simp [slack, Control.Sys.goto, moveOf]
  | msg hpc =>
    rename_i c
    cases c <;> simp [Control.Sys.sends, hpc, slack, Control.Sys.goto]
  | put hpc | finish hpc => exact absurd hpc (hput _ _)
  | _ hpc => simp [Control.Sys.sends, hpc, slack, Control.Sys.goto, Control.Sys.log, moveOf]

theorem motions_stmt (h : Control.Stmt junk s s') :
    motions s' = motions s ++ (s.sends.bind moveOf).toList := by
  rw [motions, motions, commands_stmt h, List.filterMap_append]
  cases hsends : s.sends with
  | none => rfl
  | some cmd => cases hmove : moveOf cmd <;> simp [hmove]

/-- A statement of the thread does not raise the balance. -/
theorem balance_stmt (h : Control.Stmt junk s s') : balance s' ≤ balance s := by
  rw [balance, balance, motions_stmt h, List.length_append]
  rcases Control.tx_stmt h with ⟨c, o, hpc, htx, hret⟩ | ⟨htx, hput⟩
  · -- the message takes the place of the command that the thread may send after it
    have hroom : s.tx_pdu_fifo_g.length < PDU_FIFO_SIZE := by
      cases h with
      | put _ _ hroom | finish _ hroom => exact hroom
      | exeBlocked hother => rcases hother with hother | hother <;> cases hpc.symm.trans hother
      | _ hother => cases hpc.symm.trans hother
    have hsends : s.sends = none := by simp only [Control.Sys.sends, hpc]
    have hslack := slack_le s'.pc
    rw [htx, hsends, List.length_append, List.length_singleton]
    simp only [Option.bind_none, Option.toList_none, List.length_nil]
    omega
  · have hslack := slack_stmt h hput
    rw [htx]
    omega

/-! ### Who gives and who takes -/

/-- `updateTCP` takes a message. -/
def CarAct.isDrain : CarAct → Bool
  | .act .drain => true
  | _ => false

/-- `sensorThread` puts a message. -/
def CarAct.isSensor : CarAct → Bool
  | .act (.sensor _) => true
  | _ => false

variable {c c' : Car} {e : CarAct}

/-- **Step rule.** Only `updateTCP` raises the balance, and a heading lowers it, too. -/
theorem balance_step (h : carStep c e = some c') :
    balance c'.sys + (if e.isSensor then 1 else 0)
      ≤ balance c.sys + if e.isDrain then 1 else 0 := by
  cases e with
  | act a =>
    obtain ⟨s', hs', rfl⟩ := Option.map_eq_some_iff.mp h
    cases Control.step_cases hs' with
    | thread h => exact balance_stmt h
    | fall hpin =>
      show balance c.sys.fall ≤ balance c.sys
      rw [balance, balance, motions, commands_fall]
      exact Nat.le_refl _
    | rise hpin =>
      show balance c.sys.rise ≤ balance c.sys
      rw [balance, balance, motions, commands_rise, List.filterMap_append]
      simp [motions, moveOf, Control.Sys.rise, Control.sendMotorCmd, Control.Sys.log]
    | command => exact Nat.le_refl _
    | sensor hroom =>
      show (motions c.sys).length + slack c.sys.pc + (PDU_FIFO_SIZE - (_ ++ [_]).length) + 1 ≤ _
      rw [balance, List.length_append, List.length_singleton]
      simp only [CarAct.isDrain]
      omega
    | @drain o rest htx =>
      show (motions c.sys).length + slack c.sys.pc + (PDU_FIFO_SIZE - rest.length) ≤ _ + 1
      rw [balance, htx, List.length_cons]
      omega
  | rx =>
    obtain ⟨byte, -, rfl⟩ := Option.map_eq_some_iff.mp h
    exact Nat.le_refl _
  | main =>
    cases h
    exact Nat.le_refl _

/-! ### The moves made -/

/-- The move that a step of the car makes. -/
def made (c : Car) : CarAct → List Motor.Move
  | .main => c.board.enters.toList
  | .act _ | .rx => []

/-- What the board has made, and what is still asked for, it has received. -/
def Received (d : Car × List Motor.Move) : Prop :=
  d.1.board.Within d.2 (((sentBytes d.1.sys).take d.1.received).filterMap Motor.Move.ofByte)

/-- **Step rule.** -/
theorem received_step {d d' : Car × List Motor.Move} (hd : Received d)
    (h : record made carStep d e = some d') : Received d' := by
  obtain ⟨c, moves⟩ := d
  obtain ⟨c', moves'⟩ := d'
  obtain ⟨h, hmoves⟩ := record_eq_some.mp h
  obtain rfl : moves' = moves ++ made c e := hmoves
  unfold Received at hd ⊢
  cases e with
  | act a =>
    obtain ⟨s', hs', rfl⟩ := Option.map_eq_some_iff.mp h
    have hbytes : sentBytes c.sys <+: sentBytes s' :=
      (commands_step (Control.step_cases hs')).map _
    have hsub := ((hbytes.take c.received).sublist).filterMap Motor.Move.ofByte
    rw [made, List.append_nil]
    exact hd.mono hsub
  | rx =>
    obtain ⟨byte, hnext, rfl⟩ := Option.map_eq_some_iff.mp h
    have hbyte : (sentBytes c.sys)[c.received]? = some byte := hnext
    rw [made, List.append_nil, List.take_add_one, hbyte, Option.toList_some, List.filterMap_append]
    exact Motor.within_rx hd byte
  | main =>
    cases h
    exact Motor.within_main hd

/-- The client asks for a move forward, whose byte comes in the delay that the first STOP has
    begun. -/
def commanded : Option (Car × List Motor.Move) :=
  exec (record made carStep) (carBoot false Motor.resetRegs, [])
    (List.replicate 3 (.act (.thread ⟨7, 7⟩)) ++
      .act (.command { Pdu.zeroed with cmd := PDU_GO_FORWARD }) ::
      List.replicate 3 (.act (.thread ⟨7, 7⟩)) ++ [.rx, .main, .rx])

/-- The delay is over, and `moveForward` has begun. -/
def driven : Option (Car × List Motor.Move) :=
  commanded.bind fun d =>
    exec (record made carStep) (d.1.delayed Motor.UINT16_MAX, d.2) (List.replicate 3 .main)

/-- The client asks for another one and takes a message, while `sensorThread` puts a heading. -/
def again : List CarAct :=
  .act (.command { Pdu.zeroed with cmd := PDU_GO_FORWARD }) ::
    List.replicate 2 (.act (.thread ⟨7, 7⟩)) ++
    [.act .drain, .act (.sensor ⟨PDU_UPDATE, 0, 0, "90.0"⟩)] ++
    List.replicate 6 (.act (.thread ⟨7, 7⟩))

theorem driven_reachable {d : Car × List Motor.Move} (h : driven = some d) :
    Reachable (record made carStep) (carBoot false Motor.resetRegs, []) d := by
  obtain ⟨⟨c, moves⟩, hc, hd⟩ := Option.bind_eq_some_iff.mp h
  have hpc : commanded.all fun d => d.1.board.pc = .delay 0 := by decide +kernel
  rw [hc, Option.all_some, decide_eq_true_iff] at hpc
  have hdelay : exec (record made carStep) (c.delayed 0, moves)
      (List.replicate Motor.UINT16_MAX .main) = some (c.delayed Motor.UINT16_MAX, moves) := by
    refine exec_replicate (fun i => (c.delayed i, moves)) fun i hi => ?_
    refine record_eq_some.mpr ⟨?_, (List.append_nil moves).symm⟩
    simp only [carStep, Motor.mainStep, Car.delayed, if_pos hi]
  rw [delayed_of_pc hpc] at hdelay
  exact ((Reachable.exec _ .init hc).exec _ hdelay).exec _ hd

end Wheelson.System
