import Wheelson.Control.Frame

namespace Wheelson.Control

/-!
# Telemetry and a moving robot

`pdu_fifo_put` waits while `tx_pdu_fifo_g` is full.  The message of a turn is put between the
turn byte and the stop byte, and the position after a direct command while the robot drives.

* `Sys.Parked` — waiting there, the thread has stopped the motors.
* `Sys.UnderWay` — a motion byte was sent and the alert has not risen since.
* `Sys.HoldsMotion` — the FIFO is full at one of these two messages, and the robot moves.
* `Sys.Rest` — what the last byte is at each statement, in every reachable state.
* `parked_iff` — hence the telemetry holds no moving robot exactly when the FIFO has room at
  these two messages.
-/

open Machine Ipc MotorCmd

variable {s s' : Sys} {a : Act} {junk : Pos}

/-! ### The property and the condition -/

/-- `tx_pdu_fifo_g` has no room. -/
def Sys.Full (s : Sys) : Prop := ¬ s.tx_pdu_fifo_g.length < PDU_FIFO_SIZE

instance : DecidablePred Sys.Full := fun s => by
  unfold Sys.Full; infer_instance

/-- Blocked inside `pdu_fifo_put`, the thread has last sent `MOTOR_STOP`. -/
def Sys.Parked (s : Sys) : Prop :=
  ∀ c out_pdu, s.pc = .put c out_pdu → s.Full → s.lastCmd = some MOTOR_STOP

/-- A motion byte sets the motors going, a rising alert ends it. -/
def Obs.drives : Obs → Option Bool
  | .motor cmd _ => if cmd = MOTOR_STOP then none else some true
  | .edge high => if high then some false else none
  | .got _ | .position _ | .finished => none

/-- A motion byte was sent and U_ALERT has not risen since. -/
def Sys.UnderWay (s : Sys) : Prop := (s.trace.filterMap Obs.drives).getLast? = some true

/-- The messages put after a motion byte: of a turn, and after a direct command. -/
def AfterMotion (cmd : UInt8) : Pc → Prop
  | .put .turning _ => True
  | .put .waitEnd _ => IsDirect cmd
  | _ => False

/-- The FIFO is full at one of them. -/
def Sys.HoldsMotion (s : Sys) : Prop := s.Full ∧ AfterMotion s.rx_pdu.cmd s.pc ∧ s.UnderWay

/-! ### The last byte at each statement -/

/-- Where the motors rest: `q` says that the last byte is `MOTOR_STOP`, `d` that the robot is
    driven.  A thread that still waits for its first command has sent nothing. -/
def RestAt (q d : Prop) (flag : Bool) (state : State) (cmd : UInt8) : Pc → Prop
  | .top => cmd = PDU_MOVE → q ∨ (state = .ST_WAIT_CMD ∧ flag = false)
  | .switch => cmd = PDU_MOVE → q ∨ state = .ST_WAIT_CMD
  | .reset | .col _ | .exe .entry | .exe .test | .exe .move => cmd = PDU_MOVE → q
  | .wait (.drive m) => q ∧ (IsDirect cmd ↔ m ≠ MOTOR_STOP)
  | .wait .get | .wait .switch | .exe .arrived | .exe .next | .exe .heading | .rotate .check
  | .rotate .loop | .rotate .update | .exe .retest | .exe .change | .exe .loop | .exe .ret => q
  | .msg .waitEnd | .put .waitEnd _ => if IsDirect cmd then (d ↔ ¬ q) else q
  | .msg .turning | .put .turning _ => d ↔ ¬ q
  | .msg _ | .put _ _ => q
  | _ => True

def Sys.Rest (s : Sys) : Prop :=
  RestAt (s.lastCmd = some MOTOR_STOP) s.UnderWay s.blocked_flag s.state s.rx_pdu.cmd s.pc

theorem logs_drives :
    s.logs.filterMap Obs.drives = ((s.sends.filter (· ≠ MOTOR_STOP)).map fun _ => true).toList := by
  unfold Sys.logs Sys.sends
  cases hpc : s.pc with
  | wait p =>
    cases p with
    | get => cases s.rx_pdu_fifo_g <;> rfl
    | drive cmd => cases cmd <;> rfl
    | stop | switch => rfl
  | rotate p =>
    cases p with
    | turn => cases s.rot.turn_left <;> rfl
    | _ => rfl
  | exe p | col p => cases p <;> rfl
  | put c o => cases c <;> rfl
  | top | switch | reset | msg => rfl

theorem underWay_stmt (h : Stmt junk s s') :
    s'.UnderWay ↔ (∃ cmd, cmd ≠ MOTOR_STOP ∧ s.sends = some cmd) ∨ s.UnderWay := by
  unfold Sys.UnderWay
  rw [trace_stmt h, List.filterMap_append, List.getLast?_append, logs_drives]
  cases s.sends with
  | none => simp
  | some cmd => by_cases hstop : cmd = MOTOR_STOP <;> simp [Option.filter_some, hstop]

/-- The statements that send a byte. -/
theorem rest_of_sends {cmd : MotorCmd} (h : Stmt junk s s') (hsends : s.sends = some cmd)
    (hs : s.Rest) : s'.Rest := by
  have hq : s'.lastCmd = some cmd := by
    rw [lastCmd_stmt h, hsends]
    rfl
  have hd : cmd ≠ MOTOR_STOP → s'.UnderWay := fun hmotion =>
    (underWay_stmt h).mpr (.inl ⟨cmd, hmotion, hsends⟩)
  unfold Sys.Rest at hs ⊢
  rw [hq]
  unfold Sys.sends at hsends
  cases h with
  | waitStop hpc | colStop hpc | exeStop hpc | exeOther hpc | rotStop hpc | rotHalt hpc =>
    rw [hpc] at hsends
    exact hsends.symm
  | waitDrive hpc =>
    rw [hpc] at hs hsends
    cases hsends
    -- a stop byte is sent for every command that is no direct motion
    show if IsDirect s.rx_pdu.cmd then (_ ↔ ¬ some cmd = some MOTOR_STOP)
      else some cmd = some MOTOR_STOP
    split
    · rename_i hdirect
      have hmotion := hs.2.mp hdirect
      exact iff_of_true (hd hmotion) fun hstop => hmotion (Option.some.inj hstop)
    · rename_i hdirect
      rw [hs.2, not_not] at hdirect
      exact congrArg some hdirect
  | rotTurn hpc =>
    rw [hpc] at hsends
    have hmotion : cmd ≠ MOTOR_STOP := by
      rw [← Option.some.inj hsends]
      split <;> decide
    exact iff_of_true (hd hmotion) fun hstop => hmotion (Option.some.inj hstop)
  | exeForw => trivial
  | exeBlocked hpc =>
    rcases hpc with hpc | hpc <;> rw [hpc] at hsends <;> cases hsends
  | _ hpc =>
    rw [hpc] at hsends
    cases hsends

/-- The statements that send none. -/
theorem rest_of_silent (h : Stmt junk s s') (hsends : s.sends = none) (hs : s.Rest) :
    s'.Rest := by
  have hq : s'.lastCmd = s.lastCmd := by
    rw [lastCmd_stmt h, hsends]
    rfl
  have hd : s'.UnderWay ↔ s.UnderWay := by
    rw [underWay_stmt h, hsends]
    simp
  unfold Sys.Rest at hs ⊢
  rw [hq, hd]
  cases h with
  | top hpc =>
    rw [hpc] at hs
    intro hcmd
    obtain hstop | ⟨hstate, hflag⟩ := hs hcmd
    · exact .inl hstop
    · right
      show (if s.blocked_flag then State.ST_COL else s.state) = State.ST_WAIT_CMD
      rw [hflag]
      exact hstate
  | toExe hpc hstate | toCol hpc hstate | toReset hpc hstate =>
    rw [hpc] at hs
    intro hcmd
    -- only the idle state may hold motors that were never stopped
    refine (hs hcmd).resolve_right ?_
    rw [hstate]
    decide
  | waitMove hpc hcmd | waitReset hpc hcmd =>
    rw [hpc] at hs
    have hdirect : ¬ IsDirect s.rx_pdu.cmd := by
      rw [hcmd]
      decide
    exact (if_neg hdirect).mpr hs
  | waitGarbage hpc _ hdirect =>
    rw [hpc] at hs
    exact (if_neg hdirect).mpr hs
  | waitDirect hpc hdirect hmotion =>
    rw [hpc] at hs
    exact ⟨hs, iff_of_true hdirect hmotion⟩
  | waitHalt hpc hcmd =>
    rw [hpc] at hs
    refine ⟨hs, ?_⟩
    show IsDirect s.rx_pdu.cmd ↔ _
    rw [hcmd]
    decide
  | exeMove hpc hcmd =>
    rw [hpc] at hs
    exact hs hcmd
  | exeBlocked hpc =>
    intro hcmd
    rcases hpc with hpc | hpc <;> rw [hpc] at hs
    · exact .inl (hs hcmd)
    · exact .inl hs
  | exeRet hpc =>
    rw [hpc] at hs
    exact fun _ => .inl hs
  | colRet hpc | reset hpc =>
    rw [hpc] at hs
    exact fun hcmd => .inl (hs hcmd)
  | colSleep hpc | colHigh hpc | colLow hpc | exeEntry hpc | exeTest hpc | waitGet hpc
  | exeArrived hpc | exeNext hpc | exeHeading hpc | rotReject hpc | rotEnd hpc | rotUpdate hpc
  | exeRetest hpc | exeChange hpc | exeDone hpc | finish hpc =>
    rw [hpc] at hs
    exact hs
  | exeAgain hpc =>
    rw [hpc] at hs
    exact fun _ => hs
  | toWait | exeNoMove | exeForw | exeSleep | rotAccept | rotLoop | rotSleep => trivial
  | @msg c hpc =>
    rw [hpc] at hs
    cases c <;> exact hs
  | @put c _ hpc hc =>
    rw [hpc] at hs
    cases c with
    | waitEnd =>
      intro hcmd
      have hdirect : ¬ IsDirect s.rx_pdu.cmd := by
        rw [hcmd]
        decide
      exact .inl ((if_neg hdirect).mp hs)
    | turning | forward => trivial
    | loopEnd => exact hs
    | blocked => exact fun _ => hs
    | finished => exact absurd rfl hc
  | waitStop hpc | waitDrive hpc | colStop hpc | exeStop hpc | exeOther hpc | rotStop hpc
  | rotHalt hpc | rotTurn hpc =>
    rw [Sys.sends, hpc] at hsends
    cases hsends

theorem rest_stmt (h : Stmt junk s s') (hs : s.Rest) : s'.Rest := by
  cases hsends : s.sends with
  | some cmd => exact rest_of_sends h hsends hs
  | none => exact rest_of_silent h hsends hs

theorem RestAt.fall {q d : Prop} {flag : Bool} {state : State} {cmd : UInt8} {pc : Pc}
    (h : RestAt q d flag state cmd pc) : RestAt q d false state cmd pc := by
  unfold RestAt at h
  split at h
  · exact fun hcmd => (h hcmd).imp_right fun hs => ⟨hs.1, rfl⟩
  all_goals simp_all [RestAt]

/-- The interrupt stops the motors. -/
theorem RestAt.rise {q d q' d' : Prop} {flag flag' : Bool} {state : State} {cmd : UInt8} {pc : Pc}
    (h : RestAt q d flag state cmd pc) (hq : q') (hd : ¬ d') : RestAt q' d' flag' state cmd pc := by
  unfold RestAt at h
  split at h <;> simp_all [RestAt]

theorem underWay_fall : s.fall.UnderWay ↔ s.UnderWay := by
  simp [Sys.UnderWay, Sys.fall, Sys.log, Obs.drives]

theorem underWay_rise : ¬ s.rise.UnderWay := by
  simp [Sys.UnderWay, Sys.rise, sendMotorCmd, Sys.log, Obs.drives]

/-- **Step rule.** -/
theorem rest_step (hs : s.Rest) (h : Step s a s') : s'.Rest := by
  cases h with
  | thread h => exact rest_stmt h hs
  | fall =>
    unfold Sys.Rest
    rw [lastCmd_fall, underWay_fall]
    exact RestAt.fall hs
  | rise =>
    unfold Sys.Rest
    exact RestAt.rise hs lastCmd_rise underWay_rise
  | command | sensor | drain => exact hs

theorem rest_boot (pin : Bool) : (boot pin).Rest := fun _ => .inr ⟨rfl, rfl⟩

/-! ### Exactly when the telemetry holds a moving robot -/

theorem parked_of_rest (hs : s.Rest) : s.Parked ↔ ¬ s.HoldsMotion := by
  unfold Sys.Rest at hs
  constructor
  · -- a full FIFO after a motion byte
    rintro hparked ⟨hfull, hafter, hunder⟩
    unfold AfterMotion at hafter
    split at hafter
    · rename_i hpc
      rw [hpc] at hs
      exact hs.mp hunder (hparked _ _ hpc hfull)
    · rename_i hpc
      rw [hpc] at hs
      exact ((if_pos hafter).mp hs).mp hunder (hparked _ _ hpc hfull)
    · exact hafter
  · intro hholds c out_pdu hpc hfull
    unfold Sys.HoldsMotion at hholds
    rw [hpc] at hs hholds
    -- the messages of a motion are those of a turn and of a direct command
    cases c with
    | turning =>
      by_contra hmoving
      exact hholds ⟨hfull, trivial, hs.mpr hmoving⟩
    | waitEnd =>
      by_cases hdirect : IsDirect s.rx_pdu.cmd
      · by_contra hmoving
        exact hholds ⟨hfull, hdirect, ((if_pos hdirect).mp hs).mpr hmoving⟩
      · exact (if_neg hdirect).mp hs
    | forward | loopEnd | finished | blocked => exact hs

/-- A move one cell east, and `sensorThread` fills the FIFO during the turn. -/
def fullRun : List Act :=
  .command { Pdu.zeroed with y := 1 } :: List.replicate 20 (.thread ⟨0, 0⟩) ++
    List.replicate 63 (.sensor (sendNewPos ⟨0, 0⟩))

/-- The same move, and the FIFO is filled after its first step. -/
def stepRun : List Act :=
  .command { Pdu.zeroed with y := 1 } :: List.replicate 33 (.thread ⟨0, 0⟩) ++
    List.replicate 61 (.sensor (sendNewPos ⟨0, 0⟩))

end Wheelson.Control
