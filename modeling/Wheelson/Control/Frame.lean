import Wheelson.Control.Thread

namespace Wheelson.Control

/-!
# What one step can do

The step function of `Control/Thread.lean` is written as the source is, handler by handler.  Here
it is inverted once, with every guard and with the state after each branch written out, so that
an invariant is proved by cases on the inversion and the handlers are not unfolded again.

* `Stmt` — one statement of `controlThread`, with a constructor for each way it can go;
  `stmt_of_controlThread` is the inversion.
* `Step` — a step of the machine: a statement, one of the two edges of U_ALERT with
  `safetyHandler`, or another thread at one of the FIFOs; `step_cases` is the inversion.
* `Sys.logs`, `Sys.sends` — what a statement logs, and the motor command it sends; the lemmas
  behind them say which fields a statement leaves alone.
* `controlThread_enabled`, `thread_leads_to` — where the thread can go on, and the rule by which
  it gets somewhere.
-/

open Machine Ipc MotorCmd

variable {s s' : Sys} {a : Act} {junk : Pos}

/-! ### One statement of the thread -/

/-- The commands that `wait_handler` answers with a motion command. -/
def IsDirect (cmd : UInt8) : Prop :=
  cmd = PDU_GO_FORWARD ∨ cmd = PDU_GO_REV ∨ cmd = PDU_TURN_LEFT ∨ cmd = PDU_TURN_RIGHT

instance (cmd : UInt8) : Decidable (IsDirect cmd) := by
  unfold IsDirect; infer_instance

/-- The statements of `controlThread`, one constructor for each way a statement can go. -/
inductive Stmt (junk : Pos) (s : Sys) : Sys → Prop
  | top (hpc : s.pc = .top) :
      Stmt junk s { s with state := if s.blocked_flag then .ST_COL else s.state, pc := .switch }
  | toWait (hpc : s.pc = .switch) (hstate : s.state = .ST_WAIT_CMD) :
      Stmt junk s (s.goto (.wait .stop))
  | toExe (hpc : s.pc = .switch) (hstate : s.state = .ST_EXE_CMD) :
      Stmt junk s (s.goto (.exe .entry))
  | toCol (hpc : s.pc = .switch) (hstate : s.state = .ST_COL) : Stmt junk s (s.goto (.col .test))
  | toReset (hpc : s.pc = .switch) (hstate : s.state = .ST_RESET) : Stmt junk s (s.goto .reset)
  | waitStop (hpc : s.pc = .wait .stop) :
      Stmt junk s ((sendMotorCmd MOTOR_STOP s).goto (.wait .get))
  | waitGet {p : Pdu} {rest : List Pdu} (hpc : s.pc = .wait .get)
      (hrx : s.rx_pdu_fifo_g = p :: rest) :
      Stmt junk s (({ s with rx_pdu := p, rx_pdu_fifo_g := rest }.log (.got p)).goto
        (.wait .switch))
  | waitMove (hpc : s.pc = .wait .switch) (hcmd : s.rx_pdu.cmd = PDU_MOVE) :
      Stmt junk s { s with state := .ST_EXE_CMD, pc := .msg .waitEnd }
  | waitReset (hpc : s.pc = .wait .switch) (hcmd : s.rx_pdu.cmd = PDU_RESET) :
      Stmt junk s { s with state := .ST_RESET, pc := .msg .waitEnd }
  | waitDirect {cmd : MotorCmd} (hpc : s.pc = .wait .switch) (hcmd : IsDirect s.rx_pdu.cmd)
      (hmotion : cmd ≠ MOTOR_STOP) : Stmt junk s (s.goto (.wait (.drive cmd)))
  | waitHalt (hpc : s.pc = .wait .switch) (hcmd : s.rx_pdu.cmd = PDU_STOP) :
      Stmt junk s (s.goto (.wait (.drive MOTOR_STOP)))
  -- a command that no case of the `switch` handles
  | waitGarbage (hpc : s.pc = .wait .switch) (hmove : s.rx_pdu.cmd ≠ PDU_MOVE)
      (hdirect : ¬ IsDirect s.rx_pdu.cmd) : Stmt junk s (s.goto (.msg .waitEnd))
  | waitDrive {cmd : MotorCmd} (hpc : s.pc = .wait (.drive cmd)) :
      Stmt junk s { sendMotorCmd cmd s with state := .ST_WAIT_CMD, pc := .msg .waitEnd }
  | exeEntry (hpc : s.pc = .exe .entry) : Stmt junk s { s with
      exe := { s.exe with done := false, new_x := s.rx_pdu.x, new_y := s.rx_pdu.y, next := junk }
      pc := .exe .test }
  -- both tests of `blocked_flag` leave the handler in the same way
  | exeBlocked (hpc : s.pc = .exe .test ∨ s.pc = .exe .retest) (hb : s.blocked_flag = true) :
      Stmt junk s { s with state := .ST_COL, pc := .top }
  | exeTest (hpc : s.pc = .exe .test) (hb : s.blocked_flag = false) :
      Stmt junk s (s.goto (.exe .move))
  | exeMove (hpc : s.pc = .exe .move) (hcmd : s.rx_pdu.cmd = PDU_MOVE) :
      Stmt junk s (s.goto (.exe .arrived))
  | exeNoMove (hpc : s.pc = .exe .move) (hcmd : s.rx_pdu.cmd ≠ PDU_MOVE) :
      Stmt junk s (s.goto (.exe .other))
  | exeArrived (hpc : s.pc = .exe .arrived) : Stmt junk s { s with
      exe := { s.exe with
        done := if s.position_g.x = s.exe.new_x ∧ s.position_g.y = s.exe.new_y then true
          else s.exe.done }
      pc := .exe .next }
  | exeNext (hpc : s.pc = .exe .next) : Stmt junk s { s with
      exe := { s.exe with
        next := (calcNextCoord s.exe.new_x s.exe.new_y s.position_g s.exe.next).2 }
      pc := .exe .heading }
  | exeHeading (hpc : s.pc = .exe .heading) : Stmt junk s { s with
      exe := { s.exe with new_heading := calcHeading s.exe.new_x s.exe.new_y s.position_g }
      pc := .rotate .check }
  | exeRetest (hpc : s.pc = .exe .retest) (hb : s.blocked_flag = false) :
      Stmt junk s (s.goto (.msg .forward))
  | exeForw (hpc : s.pc = .exe .forw) : Stmt junk s ((sendMotorCmd MOVE_FORW s).goto (.exe .sleep))
  | exeSleep (hpc : s.pc = .exe .sleep) : Stmt junk s (s.goto (.exe .stop))
  | exeStop (hpc : s.pc = .exe .stop) :
      Stmt junk s ((sendMotorCmd MOTOR_STOP s).goto (.exe .change))
  | exeChange (hpc : s.pc = .exe .change) :
      Stmt junk s (({ s with position_g := s.exe.next }.log (.position s.exe.next)).goto
        (.msg .loopEnd))
  | exeOther (hpc : s.pc = .exe .other) : Stmt junk s { sendMotorCmd MOTOR_STOP s with
      exe := { s.exe with done := true }
      pc := .msg .loopEnd }
  | exeDone (hpc : s.pc = .exe .loop) (hdone : s.exe.done = true) :
      Stmt junk s (s.goto (.msg .finished))
  | exeAgain (hpc : s.pc = .exe .loop) (hdone : s.exe.done = false) :
      Stmt junk s (s.goto (.exe .test))
  | exeRet (hpc : s.pc = .exe .ret) : Stmt junk s { s with state := .ST_WAIT_CMD, pc := .top }
  -- no rotation: the result -1 of `calc_heading` is out of range
  | rotReject (hpc : s.pc = .rotate .check)
      (hrange : s.exe.new_heading > 360 ∨ s.exe.new_heading < 0) :
      Stmt junk s (s.goto (.exe .retest))
  | rotAccept (hpc : s.pc = .rotate .check)
      (hrange : 0 ≤ s.exe.new_heading ∧ s.exe.new_heading ≤ 360) :
      Stmt junk s (s.goto (.rotate .stop))
  | rotStop (hpc : s.pc = .rotate .stop) : Stmt junk s { sendMotorCmd MOTOR_STOP s with
      rot := { num_turns := (turns s.fake_heading s.exe.new_heading).natAbs
               turn_left := decide (turns s.fake_heading s.exe.new_heading < 0)
               i := 0 }
      pc := .rotate .loop }
  | rotLoop (hpc : s.pc = .rotate .loop) (hi : s.rot.i < s.rot.num_turns) :
      Stmt junk s (s.goto (.rotate .turn))
  | rotEnd (hpc : s.pc = .rotate .loop) (hi : s.rot.num_turns ≤ s.rot.i) :
      Stmt junk s (s.goto (.rotate .update))
  | rotTurn (hpc : s.pc = .rotate .turn) : Stmt junk s
      ((sendMotorCmd (if s.rot.turn_left then MOTOR_TURN_LEFT else MOTOR_TURN_RIGHT) s).goto
        (.msg .turning))
  | rotSleep (hpc : s.pc = .rotate .sleep) : Stmt junk s (s.goto (.rotate .halt))
  | rotHalt (hpc : s.pc = .rotate .halt) : Stmt junk s { sendMotorCmd MOTOR_STOP s with
      rot := { s.rot with i := s.rot.i + 1 }
      pc := .rotate .loop }
  | rotUpdate (hpc : s.pc = .rotate .update) :
      Stmt junk s { s with fake_heading := s.exe.new_heading, pc := .exe .retest }
  | colHigh (hpc : s.pc = .col .test) (hpin : s.u_alert = true) : Stmt junk s (s.goto (.col .stop))
  | colLow (hpc : s.pc = .col .test) (hpin : s.u_alert = false) : Stmt junk s (s.goto (.col .ret))
  | colStop (hpc : s.pc = .col .stop) :
      Stmt junk s ((sendMotorCmd MOTOR_STOP s).goto (.msg .blocked))
  | colSleep (hpc : s.pc = .col .sleep) : Stmt junk s (s.goto (.col .test))
  | colRet (hpc : s.pc = .col .ret) : Stmt junk s { s with state := .ST_EXE_CMD, pc := .top }
  | reset (hpc : s.pc = .reset) : Stmt junk s { s with state := .ST_WAIT_CMD, pc := .top }
  | msg {c : Call} (hpc : s.pc = .msg c) : Stmt junk s (s.goto (.put c (c.out s)))
  | put {c : Call} {out_pdu : OutPdu} (hpc : s.pc = .put c out_pdu) (hc : c ≠ .finished)
      (hroom : s.tx_pdu_fifo_g.length < PDU_FIFO_SIZE) :
      Stmt junk s { s with tx_pdu_fifo_g := s.tx_pdu_fifo_g ++ [out_pdu], pc := c.ret }
  | finish {out_pdu : OutPdu} (hpc : s.pc = .put .finished out_pdu)
      (hroom : s.tx_pdu_fifo_g.length < PDU_FIFO_SIZE) :
      Stmt junk s ({ s with
        tx_pdu_fifo_g := s.tx_pdu_fifo_g ++ [out_pdu]
        pc := .exe .ret }.log .finished)

/-- A statement of `wait_handler`, one of whose cases the command selects. -/
theorem stmt_waitHandler {p : WaitPc} (hpc : s.pc = .wait p) (h : waitHandler s p = some s') :
    Stmt junk s s' := by
  cases p with
  | stop => cases h; exact .waitStop hpc
  | get =>
    simp only [waitHandler] at h
    split at h
    · cases h
    · rename_i hrx
      cases h
      exact .waitGet hpc hrx
  | switch =>
    simp only [waitHandler, Option.some.injEq] at h
    subst h
    split_ifs with hmove hreset hforw hrev hleft hright hstop
    · exact .waitMove hpc hmove
    · exact .waitReset hpc hreset
    · exact .waitDirect hpc (.inl hforw) (by decide)
    · exact .waitDirect hpc (.inr (.inl hrev)) (by decide)
    · exact .waitDirect hpc (.inr (.inr (.inl hleft))) (by decide)
    · exact .waitDirect hpc (.inr (.inr (.inr hright))) (by decide)
    · exact .waitHalt hpc hstop
    · -- the direct commands have been compared one by one
      refine .waitGarbage hpc hmove ?_
      rintro (hcmd | hcmd | hcmd | hcmd)
      · exact hforw hcmd
      · exact hrev hcmd
      · exact hleft hcmd
      · exact hright hcmd
  | drive cmd => cases h; exact .waitDrive hpc

/-- A statement of `exe_handler`: every branch has a constructor of its own. -/
theorem stmt_exeHandler {p : ExePc} (hpc : s.pc = .exe p) :
    Stmt junk s (exeHandler junk s p) := by
  cases p with
  | entry => exact .exeEntry hpc
  | test =>
    simp only [exeHandler]
    split
    · rename_i hb; exact .exeBlocked (.inl hpc) hb
    · rename_i hb; exact .exeTest hpc (Bool.not_eq_true _ ▸ hb)
  | move =>
    simp only [exeHandler]
    split
    · rename_i hcmd; exact .exeMove hpc hcmd
    · rename_i hcmd; exact .exeNoMove hpc hcmd
  | arrived => exact .exeArrived hpc
  | next => exact .exeNext hpc
  | heading => exact .exeHeading hpc
  | retest =>
    simp only [exeHandler]
    split
    · rename_i hb; exact .exeBlocked (.inr hpc) hb
    · rename_i hb; exact .exeRetest hpc (Bool.not_eq_true _ ▸ hb)
  | forw => exact .exeForw hpc
  | sleep => exact .exeSleep hpc
  | stop => exact .exeStop hpc
  | change => exact .exeChange hpc
  | other => exact .exeOther hpc
  | loop =>
    simp only [exeHandler]
    split
    · rename_i hdone; exact .exeDone hpc hdone
    · rename_i hdone; exact .exeAgain hpc (Bool.not_eq_true _ ▸ hdone)
  | ret => exact .exeRet hpc

/-- A statement of `rotate_to_heading`. -/
theorem stmt_rotateToHeading {p : RotPc} (hpc : s.pc = .rotate p) :
    Stmt junk s (rotateToHeading s p) := by
  cases p with
  | check =>
    simp only [rotateToHeading]
    split
    · rename_i hrange; exact .rotReject hpc hrange
    · rename_i hrange; exact .rotAccept hpc (by omega)
  | stop => exact .rotStop hpc
  | loop =>
    simp only [rotateToHeading]
    split
    · rename_i hi; exact .rotLoop hpc hi
    · rename_i hi; exact .rotEnd hpc (by omega)
  | turn => exact .rotTurn hpc
  | sleep => exact .rotSleep hpc
  | halt => exact .rotHalt hpc
  | update => exact .rotUpdate hpc

/-- A statement of `col_handler`, where only the test of the pin branches. -/
theorem stmt_colHandler {p : ColPc} (hpc : s.pc = .col p) : Stmt junk s (colHandler s p) := by
  cases p with
  | test =>
    simp only [colHandler]
    split
    · rename_i hpin; exact .colHigh hpc hpin
    · rename_i hpin; exact .colLow hpc (Bool.not_eq_true _ ▸ hpin)
  | stop => exact .colStop hpc
  | sleep => exact .colSleep hpc
  | ret => exact .colRet hpc

/-- A `pdu_fifo_put` that is through has found room. -/
theorem stmt_put {c : Call} {out_pdu : OutPdu} (hpc : s.pc = .put c out_pdu)
    (h : c.put s out_pdu = some s') : Stmt junk s s' := by
  unfold Call.put at h
  split at h
  · rename_i hroom
    cases h
    split
    · rename_i hc
      subst hc
      exact .finish hpc hroom
    · rename_i hc
      exact .put hpc hc hroom
  · cases h

/-- **Inversion.** Every statement of the thread is one of `Stmt`. -/
theorem stmt_of_controlThread (h : controlThread junk s = some s') : Stmt junk s s' := by
  unfold controlThread at h
  split at h
  · rename_i hpc
    cases h
    exact .top hpc
  · rename_i hpc
    cases h
    -- the handlers of `switch(state)`
    split
    · rename_i hstate; exact .toWait hpc hstate
    · rename_i hstate; exact .toExe hpc hstate
    · rename_i hstate; exact .toCol hpc hstate
    · rename_i hstate; exact .toReset hpc hstate
  · rename_i hpc
    exact stmt_waitHandler hpc h
  · rename_i hpc
    cases h
    exact stmt_exeHandler hpc
  · rename_i hpc
    cases h
    exact stmt_rotateToHeading hpc
  · rename_i hpc
    cases h
    exact stmt_colHandler hpc
  · rename_i hpc
    cases h
    exact .reset hpc
  · rename_i hpc
    cases h
    exact .msg hpc
  · rename_i hpc
    exact stmt_put hpc h

/-! ### What a statement logs -/

/-- The command of a log entry. -/
def Obs.cmd : Obs → Option MotorCmd
  | .motor cmd _ => some cmd
  | _ => none

/-- The last command sent to the motor board. -/
def Sys.lastCmd (s : Sys) : Option MotorCmd := (s.trace.filterMap Obs.cmd).getLast?

/-- The log entries of the thread's next statement. -/
def Sys.logs (s : Sys) : List Obs :=
  match s.pc with
  | .wait .stop | .exe .stop | .exe .other | .rotate .stop | .rotate .halt | .col .stop =>
    [.motor MOTOR_STOP s.blocked_flag]
  | .wait .get =>
    match s.rx_pdu_fifo_g with
    | [] => []
    | p :: _ => [.got p]
  | .wait (.drive cmd) => [.motor cmd s.blocked_flag]
  | .exe .forw => [.motor MOVE_FORW s.blocked_flag]
  | .rotate .turn =>
    [.motor (if s.rot.turn_left then MOTOR_TURN_LEFT else MOTOR_TURN_RIGHT) s.blocked_flag]
  | .exe .change => [.position s.exe.next]
  | .put .finished _ => [.finished]
  | _ => []

/-- A statement adds to the log what `Sys.logs` says, and nothing else. -/
theorem trace_stmt (h : Stmt junk s s') : s'.trace = s.trace ++ s.logs := by
  unfold Sys.logs
  cases h with
  | waitGet hpc hrx => rw [hpc, hrx]; rfl
  | exeBlocked hpc => rcases hpc with hpc | hpc <;> rw [hpc] <;> exact (List.append_nil _).symm
  | @put c _ hpc hc =>
    rw [hpc]
    cases c with
    | finished => exact absurd rfl hc
    | waitEnd | turning | forward | loopEnd | blocked => exact (List.append_nil _).symm
  | _ hpc =>
    rw [hpc]
    first | rfl | exact (List.append_nil _).symm

/-- The motor command of the thread's next statement. -/
def Sys.sends (s : Sys) : Option MotorCmd :=
  match s.pc with
  | .wait .stop | .exe .stop | .exe .other | .rotate .stop | .rotate .halt | .col .stop =>
    some MOTOR_STOP
  | .wait (.drive cmd) => some cmd
  | .exe .forw => some MOVE_FORW
  | .rotate .turn => some (if s.rot.turn_left then MOTOR_TURN_LEFT else MOTOR_TURN_RIGHT)
  | _ => none

/-- The commands of the log entries are those that are sent. -/
theorem logs_cmd : s.logs.filterMap Obs.cmd = s.sends.toList := by
  unfold Sys.logs Sys.sends
  cases hpc : s.pc with
  | wait p =>
    cases p with
    | get => cases s.rx_pdu_fifo_g <;> rfl
    | stop | switch | drive => rfl
  | exe p | rotate p | col p => cases p <;> rfl
  | put c o => cases c <;> rfl
  | top | switch | reset | msg => rfl

/-- Where the thread stands when its next statement adds an entry to the log. -/
inductive LoggedIn (s : Sys) : Obs → Prop
  | motor {cmd : MotorCmd} (hsends : s.sends = some cmd) : LoggedIn s (.motor cmd s.blocked_flag)
  | got {p : Pdu} (hpc : s.pc = .wait .get) : LoggedIn s (.got p)
  | position (hpc : s.pc = .exe .change) : LoggedIn s (.position s.exe.next)
  | finished : LoggedIn s .finished

/-- The inversion of `Sys.logs`, entry by entry. -/
theorem loggedIn_of_mem {o : Obs} (h : o ∈ s.logs) : LoggedIn s o := by
  unfold Sys.logs at h
  split at h
  case h_7 hpc =>
    -- `pdu_fifo_get`, with a command to take or without
    split at h
    · cases h
    · cases List.mem_singleton.mp h
      exact .got hpc
  case h_11 hpc =>
    cases List.mem_singleton.mp h
    exact .position hpc
  case h_12 =>
    cases List.mem_singleton.mp h
    exact .finished
  case h_13 => cases h
  all_goals
    rename_i hpc
    cases List.mem_singleton.mp h
    exact .motor (by simp only [Sys.sends, hpc])

/-- A command is logged as it is sent, with `blocked_flag` as it is then. -/
theorem sends_of_logs {cmd : MotorCmd} {b : Bool} (h : .motor cmd b ∈ s.logs) :
    s.sends = some cmd ∧ b = s.blocked_flag := by
  cases loggedIn_of_mem h with
  | motor hsends => exact ⟨hsends, rfl⟩

/-- The statements that send a motion byte. -/
theorem motion_of_logs {cmd : MotorCmd} {b : Bool} (h : .motor cmd b ∈ s.logs) :
    cmd = MOTOR_STOP ∨ s.pc = .wait (.drive cmd) ∨ s.pc = .exe .forw ∨ s.pc = .rotate .turn := by
  have hsends := (sends_of_logs h).1
  unfold Sys.sends at hsends
  split at hsends
  case h_7 hpc =>
    cases hsends
    exact .inr (.inl hpc)
  case h_8 hpc => exact .inr (.inr (.inl hpc))
  case h_9 hpc => exact .inr (.inr (.inr hpc))
  case h_10 => cases hsends
  all_goals
    cases hsends
    exact .inl rfl

/-- The statement that takes a command. -/
theorem get_of_logs {p : Pdu} (h : .got p ∈ s.logs) : s.pc = .wait .get := by
  cases loggedIn_of_mem h with
  | got hpc => exact hpc

/-- The statement that records a position. -/
theorem change_of_logs {p : Pos} (h : .position p ∈ s.logs) :
    s.pc = .exe .change ∧ p = s.exe.next := by
  cases loggedIn_of_mem h with
  | position hpc => exact ⟨hpc, rfl⟩

/-- The last command is the one that the statement sends, or the one before it. -/
theorem lastCmd_stmt (h : Stmt junk s s') : s'.lastCmd = s.sends.or s.lastCmd := by
  unfold Sys.lastCmd
  rw [trace_stmt h, List.filterMap_append, logs_cmd, List.getLast?_append]
  cases s.sends <;> rfl

/-- The thread does not drive U_ALERT. -/
theorem pin_stmt (h : Stmt junk s s') : s'.u_alert = s.u_alert := by
  cases h <;> rfl

/-- Only the interrupt writes `blocked_flag`. -/
theorem flag_stmt (h : Stmt junk s s') : s'.blocked_flag = s.blocked_flag := by
  cases h <;> rfl

/-- No other statement moves the position. -/
theorem position_stmt (h : Stmt junk s s') :
    s'.position_g = s.position_g ∨ s.pc = .exe .change ∧ s'.position_g = s.exe.next := by
  cases h with
  | exeChange hpc => exact .inr ⟨hpc, rfl⟩
  | _ => exact .inl rfl

/-- The other statements leave the queue and the command in hand alone. -/
theorem rx_stmt (h : Stmt junk s s') (hget : s.pc ≠ .wait .get) :
    s'.rx_pdu = s.rx_pdu ∧ s'.rx_pdu_fifo_g = s.rx_pdu_fifo_g := by
  cases h with
  | waitGet hpc => exact absurd hpc hget
  | _ => exact ⟨rfl, rfl⟩

/-- What `pdu_fifo_get` does, the only statement that takes a command. -/
theorem get_stmt (h : Stmt junk s s') (hget : s.pc = .wait .get) :
    ∃ p rest, s.rx_pdu_fifo_g = p :: rest ∧
      s' = ({ s with rx_pdu := p, rx_pdu_fifo_g := rest }.log (.got p)).goto (.wait .switch) := by
  cases h with
  | waitGet hpc hrx => exact ⟨_, _, hrx, rfl⟩
  | exeBlocked hpc => rcases hpc with hpc | hpc <;> cases hget.symm.trans hpc
  | _ hpc => cases hget.symm.trans hpc

/-- What the last message of a command does: the handler is at its end. -/
theorem finish_stmt {out_pdu : OutPdu} (h : Stmt junk s s') (hfin : s.pc = .put .finished out_pdu) :
    s' = { s with tx_pdu_fifo_g := s.tx_pdu_fifo_g ++ [out_pdu], pc := .exe .ret }.log
      .finished := by
  cases h with
  | finish hpc =>
    cases hfin.symm.trans hpc
    rfl
  | put hpc hc =>
    cases hfin.symm.trans hpc
    exact absurd rfl hc
  | exeBlocked hpc => rcases hpc with hpc | hpc <;> cases hfin.symm.trans hpc
  | _ hpc => cases hfin.symm.trans hpc

/-! ### One step of the machine -/

/-- U_ALERT falls. -/
def Sys.fall (s : Sys) : Sys :=
  { s.log (.edge false) with u_alert := false, blocked_flag := false }

/-- U_ALERT rises. -/
def Sys.rise (s : Sys) : Sys :=
  { sendMotorCmd MOTOR_STOP (s.log (.edge true)) with u_alert := true, blocked_flag := true }

/-- The interrupt at a falling edge. -/
theorem edge_of_high (h : s.u_alert = true) : s.edge = s.fall := by
  simp [Sys.edge, safetyHandler, h, Sys.log, Sys.fall]

/-- The interrupt at a rising edge. -/
theorem edge_of_low (h : s.u_alert = false) : s.edge = s.rise := by
  simp [Sys.edge, safetyHandler, h, Sys.log, sendMotorCmd, Sys.rise]

/-- At a falling edge the interrupt sends nothing. -/
theorem lastCmd_fall : s.fall.lastCmd = s.lastCmd := by
  simp [Sys.lastCmd, Sys.fall, Sys.log, Obs.cmd]

/-- At a rising edge it stops the motors. -/
theorem lastCmd_rise : s.rise.lastCmd = some MOTOR_STOP := by
  unfold Sys.lastCmd Sys.rise sendMotorCmd Sys.log
  rw [List.filterMap_append, List.getLast?_append]
  rfl

/-- The steps of the machine, with their results written out. -/
inductive Step (s : Sys) : Act → Sys → Prop
  | thread {junk : Pos} {s' : Sys} (h : Stmt junk s s') : Step s (.thread junk) s'
  | fall (hpin : s.u_alert = true) : Step s .edge s.fall
  | rise (hpin : s.u_alert = false) : Step s .edge s.rise
  | command {p : Pdu} (hroom : s.rx_pdu_fifo_g.length < PDU_FIFO_SIZE) :
      Step s (.command p) { s with rx_pdu_fifo_g := s.rx_pdu_fifo_g ++ [p] }
  | sensor {out_pdu : OutPdu} (hroom : s.tx_pdu_fifo_g.length < PDU_FIFO_SIZE) :
      Step s (.sensor out_pdu) { s with tx_pdu_fifo_g := s.tx_pdu_fifo_g ++ [out_pdu] }
  | drain {out_pdu : OutPdu} {rest : List OutPdu} (htx : s.tx_pdu_fifo_g = out_pdu :: rest) :
      Step s .drain { s with tx_pdu_fifo_g := rest }

/-- **Inversion of the step function.** -/
theorem step_cases (h : step s a = some s') : Step s a s' := by
  cases a with
  | thread junk => exact .thread (stmt_of_controlThread h)
  | edge =>
    cases h
    cases hpin : s.u_alert with
    | true => rw [edge_of_high hpin]; exact .fall hpin
    | false => rw [edge_of_low hpin]; exact .rise hpin
  | command p =>
    simp only [step, Option.ite_none_right_eq_some, Option.some.injEq] at h
    obtain ⟨hroom, rfl⟩ := h
    exact .command hroom
  | sensor out_pdu =>
    simp only [step, Option.ite_none_right_eq_some, Option.some.injEq] at h
    obtain ⟨hroom, rfl⟩ := h
    exact .sensor hroom
  | drain =>
    simp only [step] at h
    split at h
    · cases h
    · rename_i htx
      cases h
      exact .drain htx

/-- `blocked_flag` is set only while the pin is high. -/
theorem pin_of_flag_step (hs : s.blocked_flag = true → s.u_alert = true) (h : Step s a s') :
    s'.blocked_flag = true → s'.u_alert = true := by
  cases h with
  | thread h =>
    rw [flag_stmt h, pin_stmt h]
    exact hs
  | fall => exact nofun
  | rise => exact fun _ => rfl
  | command | sensor | drain => exact hs

/-! ### The thread goes on -/

/-- A statement of the thread is enabled unless it waits for a command or for room; there is no
    other place at which it waits. -/
theorem controlThread_enabled (junk : Pos) (hget : s.pc ≠ .wait .get)
    (hput : ∀ c out_pdu, s.pc = .put c out_pdu → s.tx_pdu_fifo_g.length < PDU_FIFO_SIZE) :
    ∃ s', controlThread junk s = some s' := by
  unfold controlThread
  -- one goal for each function that the thread can be in
  split
  · exact ⟨_, rfl⟩
  · exact ⟨_, rfl⟩
  · rename_i p hpc
    cases p with
    | get => exact absurd hpc hget
    | stop | switch | drive => exact ⟨_, rfl⟩
  · exact ⟨_, rfl⟩
  · exact ⟨_, rfl⟩
  · exact ⟨_, rfl⟩
  · exact ⟨_, rfl⟩
  · exact ⟨_, rfl⟩
  · rename_i hpc
    exact ⟨_, if_pos (hput _ _ hpc)⟩

/-- **Progress rule.** Where every statement of the thread reaches `Q` or stays in `P` at a
    lower rank, some run reaches `Q`: one of statements of the thread, with room made in the
    FIFO when it needs some. -/
theorem thread_leads_to {ok : Sys → Act → Prop} [∀ s a, Decidable (ok s a)] {P Q : Sys → Prop}
    (rank : Sys → ℕ) (junk : Pos) (hget : ∀ s, P s → s.pc ≠ .wait .get)
    (hok : ∀ s, P s → ok s (.thread junk) ∧ ok s .drain)
    (htx : ∀ s tx, P s → P { s with tx_pdu_fifo_g := tx } ∧
      rank { s with tx_pdu_fifo_g := tx } = rank s)
    (hstep : ∀ s s', P s → Stmt junk s s' → Q s' ∨ P s' ∧ rank s' < rank s) (s : Sys)
    (hs : P s) : CanReach (restrict ok step) s Q := by
  by_cases hroom : s.tx_pdu_fifo_g.length < PDU_FIFO_SIZE
  · obtain ⟨t, h⟩ := controlThread_enabled junk (hget s hs) fun _ _ _ => hroom
    refine .cons (restrict_eq_some.mpr ⟨(hok s hs).1, h⟩) ?_
    rcases hstep s t hs (stmt_of_controlThread h) with hQ | ⟨hP, hlt⟩
    · exact .refl hQ
    · exact thread_leads_to rank junk hget hok htx hstep t hP
  · -- `updateTCP` takes a message first
    cases htx' : s.tx_pdu_fifo_g with
    | nil =>
      rw [htx'] at hroom
      exact absurd (by decide) hroom
    | cons o rest =>
      have h : step s .drain = some { s with tx_pdu_fifo_g := rest } := by
        simp only [step, htx']
      exact .cons (restrict_eq_some.mpr ⟨(hok s hs).2, h⟩)
        (thread_leads_to rank junk hget hok htx hstep _ (htx s rest hs).1)
  termination_by (rank s, s.tx_pdu_fifo_g.length)
  decreasing_by
  · exact Prod.Lex.left _ _ hlt
  · rw [(htx s rest hs).2, htx']
    exact Prod.Lex.right _ (Nat.lt_succ_self _)

end Wheelson.Control
