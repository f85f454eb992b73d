import Wheelson.Control.Frame

namespace Wheelson.Control

/-!
# Motion under an alert

`safetyHandler` stops the motors and sets `blocked_flag`, which the thread tests at the top
of its loop and twice in `exe_handler`.

* `Sys.Quiet` — no motion command was sent while `blocked_flag` was set, and while it is set
  the last command is `MOTOR_STOP`.
* `Sys.Unguarded` — the thread may send a motion command before it tests the flag again:
  inside `wait_handler`, inside a rotation with a turn to come, and between the second test
  of `exe_handler` and `MOVE_FORW`.
* `held_step` — while U_ALERT rises in guarded states only, the quiet is kept.
* `motion_of_unguarded` — from every unguarded state a rise can lead to a motion command.
* `quiet_iff_guarded` — hence the runs are quiet exactly when the alert rises in guarded
  states only.
-/

open Machine Ipc MotorCmd

variable {s s' : Sys} {junk : Pos}

/-! ### The property and the windows -/

/-- No motion command went out under an alert. -/
structure Sys.Quiet (s : Sys) : Prop where
  motion : ∀ cmd, Obs.motor cmd true ∈ s.trace → cmd = MOTOR_STOP
  last : s.blocked_flag = true → s.lastCmd = some MOTOR_STOP

/-- The command that `wait_handler` takes next is a direct one, or has not arrived. -/
def DirectAhead : List Pdu → Prop
  | [] => True
  | p :: _ => IsDirect p.cmd

instance (l : List Pdu) : Decidable (DirectAhead l) := by
  cases l <;> unfold DirectAhead <;> infer_instance

/-- `rotate_to_heading(new_heading)` turns at least once. -/
def TurnsAhead (fake_heading new_heading : ℤ) : Prop :=
  0 ≤ new_heading ∧ new_heading ≤ 360 ∧ turns fake_heading new_heading ≠ 0

instance (a b : ℤ) : Decidable (TurnsAhead a b) := by
  unfold TurnsAhead; infer_instance

/-- The thread may send a motion command before it tests `blocked_flag`. -/
def Sys.Unguarded (s : Sys) : Prop :=
  match s.pc with
  | .switch => s.state = .ST_WAIT_CMD ∧ DirectAhead s.rx_pdu_fifo_g
  | .wait .stop | .wait .get => DirectAhead s.rx_pdu_fifo_g
  | .wait .switch => IsDirect s.rx_pdu.cmd
  | .wait (.drive cmd) => cmd ≠ MOTOR_STOP
  | .exe .move => s.rx_pdu.cmd = PDU_MOVE ∧
      TurnsAhead s.fake_heading (calcHeading s.exe.new_x s.exe.new_y s.position_g)
  | .exe .arrived | .exe .next | .exe .heading =>
      TurnsAhead s.fake_heading (calcHeading s.exe.new_x s.exe.new_y s.position_g)
  | .rotate .check => TurnsAhead s.fake_heading s.exe.new_heading
  | .rotate .stop => turns s.fake_heading s.exe.new_heading ≠ 0
  | .rotate .loop => s.rot.i < s.rot.num_turns
  | .rotate .turn => True
  | .msg .turning | .put .turning _ | .rotate .sleep | .rotate .halt =>
      s.rot.i + 1 < s.rot.num_turns
  | .msg .forward | .put .forward _ | .exe .forw => True
  | _ => False

instance : DecidablePred Sys.Unguarded := by
  intro s
  unfold Sys.Unguarded
  split <;> infer_instance

/-- U_ALERT rises only in states of `ok`. -/
def RisesIn (ok : Sys → Prop) (s : Sys) (a : Act) : Prop :=
  a = .edge → s.u_alert = false → ok s

instance (ok : Sys → Prop) [DecidablePred ok] (s : Sys) (a : Act) : Decidable (RisesIn ok s a) := by
  unfold RisesIn; infer_instance

/-! ### The windows close behind the flag tests -/

/-- Outside the windows a statement sends no motion command. -/
theorem stop_or_unguarded {cmd : MotorCmd} (h : s.sends = some cmd) :
    cmd = MOTOR_STOP ∨ s.Unguarded := by
  unfold Sys.Unguarded
  unfold Sys.sends at h
  split at h
  case h_7 hpc =>
    cases h
    rw [hpc]
    exact em _
  case h_8 hpc | h_9 hpc =>
    rw [hpc]
    exact .inr trivial
  case h_10 => cases h
  all_goals
    cases h
    exact .inl rfl

/-- Under an alert, a statement of the thread leads to an unguarded state only from one. -/
theorem unguarded_stmt (h : Stmt junk s s') (hb : s.blocked_flag = true) (hu : s'.Unguarded) :
    s.Unguarded := by
  unfold Sys.Unguarded
  cases h with
  | top hpc =>
    -- the flag is seen
    simp only [hb, if_true, Sys.Unguarded] at hu
    exact absurd hu.1 (by decide)
  | exeTest hpc hlow | exeRetest hpc hlow => cases hb.symm.trans hlow
  | toWait hpc hstate =>
    -- of the handlers, `wait_handler` alone does not test the flag first
    rw [hpc]
    exact ⟨hstate, hu⟩
  | waitGet hpc hrx =>
    rw [hpc]
    show DirectAhead s.rx_pdu_fifo_g
    rw [hrx]
    exact hu
  | waitDirect hpc hdirect =>
    rw [hpc]
    exact hdirect
  | waitHalt hpc => exact absurd rfl hu
  | exeMove hpc hcmd =>
    rw [hpc]
    exact ⟨hcmd, hu⟩
  | rotAccept hpc hrange =>
    rw [hpc]
    exact ⟨hrange.1, hrange.2, hu⟩
  | rotStop hpc =>
    rw [hpc]
    have hpos : 0 < (turns s.fake_heading s.exe.new_heading).natAbs := hu
    exact Int.natAbs_pos.mp hpos
  | rotLoop hpc hi =>
    rw [hpc]
    exact hi
  | rotTurn hpc =>
    rw [hpc]
    trivial
  | waitStop hpc | exeArrived hpc | exeNext hpc | exeHeading hpc | rotSleep hpc | rotHalt hpc =>
    rw [hpc]
    exact hu
  | @msg c hpc | @put c _ hpc =>
    -- the messages between two turns and before `MOVE_FORW`
    rw [hpc]
    cases c with
    | turning | forward => exact hu
    | waitEnd | loopEnd | finished | blocked => exact hu.elim
  | _ => exact hu.elim

/-! ### Runs in which the alert rises only in guarded states -/

/-- A quiet state whose thread cannot break the quiet while the alert lasts. -/
def Sys.Held (s : Sys) : Prop := s.Quiet ∧ (s.blocked_flag = true → ¬ s.Unguarded)

theorem quiet_stmt (h : Stmt junk s s') (hs : s.Held) : s'.Quiet where
  motion cmd hmem := by
    rw [trace_stmt h, List.mem_append] at hmem
    rcases hmem with hmem | hmem
    · exact hs.1.motion cmd hmem
    · obtain ⟨hsends, hb⟩ := sends_of_logs hmem
      exact (stop_or_unguarded hsends).resolve_right (hs.2 hb.symm)
  last hb := by
    rw [flag_stmt h] at hb
    rw [lastCmd_stmt h]
    cases hsends : s.sends with
    | none => exact hs.1.last hb
    | some cmd =>
      rw [(stop_or_unguarded hsends).resolve_right (hs.2 hb)]
      rfl

/-- The alert ends. -/
theorem quiet_fall (hs : s.Quiet) : s.fall.Quiet where
  motion cmd hmem := by
    apply hs.motion cmd
    simpa [Sys.fall, Sys.log] using hmem
  last hb := by cases hb

/-- The alert begins: the interrupt itself sends the stop. -/
theorem quiet_rise (hs : s.Quiet) : s.rise.Quiet where
  motion cmd hmem := by
    simp only [Sys.rise, sendMotorCmd, Sys.log, List.mem_append, List.mem_singleton, reduceCtorEq,
      or_false, Obs.motor.injEq] at hmem
    rcases hmem with hmem | ⟨rfl, -⟩
    · exact hs.motion cmd hmem
    · rfl
  last _ := lastCmd_rise

/-- A command put at the end of the queue is not the next one, unless the queue was empty. -/
theorem unguarded_of_command {p : Pdu}
    (hu : Sys.Unguarded { s with rx_pdu_fifo_g := s.rx_pdu_fifo_g ++ [p] }) : s.Unguarded := by
  have hahead : DirectAhead (s.rx_pdu_fifo_g ++ [p]) → DirectAhead s.rx_pdu_fifo_g := by
    cases s.rx_pdu_fifo_g with
    | nil => exact fun _ => trivial
    | cons q rest => exact id
  revert hu
  unfold Sys.Unguarded
  dsimp only
  split
  · exact fun hu => ⟨hu.1, hahead hu.2⟩
  · exact hahead
  · exact hahead
  all_goals exact id

/-- **Step rule.** -/
theorem held_step {a : Act} (hs : s.Held) (hg : RisesIn (fun s => ¬ s.Unguarded) s a)
    (h : Step s a s') : s'.Held := by
  cases h with
  | thread h =>
    refine ⟨quiet_stmt h hs, fun hb hun => ?_⟩
    rw [flag_stmt h] at hb
    exact hs.2 hb (unguarded_stmt h hb hun)
  | fall => exact ⟨quiet_fall hs.1, nofun⟩
  | rise hpin => exact ⟨quiet_rise hs.1, fun _ => hg rfl hpin⟩
  | command => exact ⟨⟨hs.1.motion, hs.1.last⟩, fun hb hun => hs.2 hb (unguarded_of_command hun)⟩
  | sensor | drain => exact ⟨⟨hs.1.motion, hs.1.last⟩, hs.2⟩

theorem held_boot (pin : Bool) : (boot pin).Held := by
  refine ⟨⟨?_, ?_⟩, ?_⟩
  · intro cmd hmem
    cases hmem
  · intro hb
    cases hb
  · intro hb
    cases hb

/-! ### From an unguarded state -/

/-- How far the thread is from its next motion command, in threes. -/
def Pc.distance : Pc → ℕ
  | .switch => 60
  | .wait .stop => 57
  | .wait .get => 54
  | .wait .switch => 51
  | .wait (.drive _) => 48
  | .exe .move => 45
  | .exe .arrived => 42
  | .exe .next => 39
  | .exe .heading => 36
  | .rotate .check => 33
  | .rotate .stop => 30
  | .msg .turning => 27
  | .put .turning _ => 24
  | .rotate .sleep => 21
  | .rotate .halt => 18
  | .rotate .loop => 15
  | .rotate .turn => 12
  | .msg .forward => 9
  | .put .forward _ => 6
  | .exe .forw => 3
  | _ => 0

/-- What the thread may have to wait for, a command or room in the FIFO, counts too. -/
def Sys.distance (s : Sys) : ℕ :=
  s.pc.distance + s.tx_pdu_fifo_g.length + if s.rx_pdu_fifo_g = [] then 1 else 0

/-- A motion command went out under an alert. -/
def Sys.MovedBlocked (s : Sys) : Prop := ∃ cmd, cmd ≠ MOTOR_STOP ∧ Obs.motor cmd true ∈ s.trace

/-- Some step, with no edge, sends a motion command or comes closer to one. -/
def Sys.Progress (s : Sys) : Prop :=
  ∃ a s', a ≠ .edge ∧ step s a = some s' ∧
    (s'.MovedBlocked ∨ (s'.Unguarded ∧ s'.blocked_flag = true) ∧ s'.distance < s.distance)

/-- The next statement comes closer. -/
theorem Sys.Progress.closer (hb : s.blocked_flag = true) (h : controlThread junk s = some s')
    (hu : s'.Unguarded) {pc : Pc} (hpc : s.pc = pc)
    (hdist : s'.pc.distance + 3 ≤ pc.distance)
    (htx : s'.tx_pdu_fifo_g.length ≤ s.tx_pdu_fifo_g.length + 1) : s.Progress := by
  have hb' : s'.blocked_flag = true := (flag_stmt (stmt_of_controlThread h)).trans hb
  refine ⟨.thread junk, s', nofun, h, .inr ⟨⟨hu, hb'⟩, ?_⟩⟩
  unfold Sys.distance
  rw [hpc]
  split <;> split <;> omega

/-- The next statement sends a motion command. -/
theorem Sys.Progress.sends {cmd : MotorCmd} (hb : s.blocked_flag = true)
    (h : controlThread junk s = some s') (hcmd : cmd ≠ MOTOR_STOP)
    (htrace : s'.trace = s.trace ++ [.motor cmd s.blocked_flag]) : s.Progress := by
  refine ⟨.thread junk, s', nofun, h, .inl ⟨cmd, hcmd, ?_⟩⟩
  rw [htrace, hb]
  exact List.mem_append_right _ (List.mem_singleton.mpr rfl)

/-- A full FIFO is drained first. -/
theorem Sys.Progress.put {c : Call} {out_pdu : OutPdu} (hpc : s.pc = .put c out_pdu)
    (hb : s.blocked_flag = true) (hc : c ≠ .finished) (hu : s.Unguarded)
    (hret : ∀ tx, Sys.Unguarded { s with tx_pdu_fifo_g := tx, pc := c.ret })
    (hdist : c.ret.distance + 3 ≤ (Pc.put c out_pdu).distance) : s.Progress := by
  by_cases hlen : s.tx_pdu_fifo_g.length < PDU_FIFO_SIZE
  · have h : controlThread ⟨0, 0⟩ s = some { s with
        tx_pdu_fifo_g := s.tx_pdu_fifo_g ++ [out_pdu]
        pc := c.ret } := by
      simp only [controlThread, hpc, Call.put, if_pos hlen, if_neg hc]
    refine .closer hb h (hret _) hpc hdist ?_
    rw [List.length_append, List.length_singleton]
  · cases htx : s.tx_pdu_fifo_g with
    | nil =>
      rw [htx] at hlen
      exact absurd (by decide) hlen
    | cons o rest =>
      have h : step s .drain = some { s with tx_pdu_fifo_g := rest } := by
        simp only [step, htx]
      refine ⟨.drain, _, (fun hedge => by cases hedge), h, .inr ⟨⟨hu, hb⟩, ?_⟩⟩
      unfold Sys.distance
      rw [htx, List.length_cons]
      show s.pc.distance + rest.length + (if s.rx_pdu_fifo_g = [] then 1 else 0) < _
      omega

theorem progress_wait {p : WaitPc} (hpc : s.pc = .wait p) (hb : s.blocked_flag = true)
    (hu : s.Unguarded) : s.Progress := by
  have h {s'} : waitHandler s p = some s' → controlThread ⟨0, 0⟩ s = some s' := by
    simp only [controlThread, hpc, imp_self]
  have hu' := hu
  unfold Sys.Unguarded at hu'
  rw [hpc] at hu'
  cases p with
  | stop => exact .closer hb (h rfl) hu' hpc (Nat.le_of_ble_eq_true rfl) (Nat.le_succ _)
  | get =>
    cases hrx : s.rx_pdu_fifo_g with
    | nil =>
      -- the command arrives now
      let q : Pdu := { Pdu.zeroed with cmd := PDU_GO_FORWARD }
      have hcommand : step s (.command q) = some { s with rx_pdu_fifo_g := [q] } := by
        simp only [step, hrx]
        rfl
      refine ⟨.command q, _, (fun hedge => by cases hedge), hcommand, .inr ⟨⟨?_, hb⟩, ?_⟩⟩
      · unfold Sys.Unguarded
        simp only [hpc]
        exact .inl rfl
      · simp [Sys.distance, hrx]
    | cons q rest =>
      rw [hrx] at hu'
      have hget : waitHandler s .get = some
          (({ s with rx_pdu := q, rx_pdu_fifo_g := rest }.log (.got q)).goto (.wait .switch)) := by
        simp only [waitHandler, hrx]
      exact .closer hb (h hget) hu' hpc (Nat.le_of_ble_eq_true rfl) (Nat.le_succ _)
  | switch =>
    have hdrive (cmd : MotorCmd) (hcmd : cmd ≠ MOTOR_STOP)
        (hsw : waitHandler s .switch = some (s.goto (.wait (.drive cmd)))) : s.Progress :=
      .closer hb (h hsw) hcmd hpc (Nat.le_of_ble_eq_true rfl) (Nat.le_succ _)
    rcases hu' with hcmd | hcmd | hcmd | hcmd
    · exact hdrive MOVE_FORW (by decide) (by simp only [waitHandler, hcmd]; rfl)
    · exact hdrive MOVE_RVRS (by decide) (by simp only [waitHandler, hcmd]; rfl)
    · exact hdrive MOTOR_TURN_LEFT (by decide) (by simp only [waitHandler, hcmd]; rfl)
    · exact hdrive MOTOR_TURN_RIGHT (by decide) (by simp only [waitHandler, hcmd]; rfl)
  | drive cmd => exact .sends hb (h rfl) hu' rfl

theorem progress_exe {p : ExePc} (hpc : s.pc = .exe p) (hb : s.blocked_flag = true)
    (hu : s.Unguarded) : s.Progress := by
  have h {s'} : exeHandler ⟨0, 0⟩ s p = s' → controlThread ⟨0, 0⟩ s = some s' := by
    simp only [controlThread, hpc, Option.some.injEq, imp_self]
  unfold Sys.Unguarded at hu
  rw [hpc] at hu
  cases p with
  | move =>
    have hmove : exeHandler ⟨0, 0⟩ s .move = s.goto (.exe .arrived) := by
      simp only [exeHandler, if_pos hu.1]
    exact .closer hb (h hmove) hu.2 hpc (Nat.le_of_ble_eq_true rfl) (Nat.le_succ _)
  | arrived | next | heading =>
    exact .closer hb (h rfl) hu hpc (Nat.le_of_ble_eq_true rfl) (Nat.le_succ _)
  | forw => exact .sends hb (h rfl) (by decide) rfl
  | entry | test | retest | sleep | stop | change | other | loop | ret => exact hu.elim

theorem progress_rotate {p : RotPc} (hpc : s.pc = .rotate p) (hb : s.blocked_flag = true)
    (hu : s.Unguarded) : s.Progress := by
  have h {s'} : rotateToHeading s p = s' → controlThread ⟨0, 0⟩ s = some s' := by
    simp only [controlThread, hpc, Option.some.injEq, imp_self]
  unfold Sys.Unguarded at hu
  rw [hpc] at hu
  cases p with
  | check =>
    obtain ⟨h0, h360, hturns⟩ := hu
    have hcheck : rotateToHeading s .check = s.goto (.rotate .stop) := by
      simp only [rotateToHeading]
      rw [if_neg (by omega)]
    exact .closer hb (h hcheck) hturns hpc (Nat.le_of_ble_eq_true rfl) (Nat.le_succ _)
  | stop =>
    have hpos : 0 < (turns s.fake_heading s.exe.new_heading).natAbs := Int.natAbs_pos.mpr hu
    exact .closer hb (h rfl) hpos hpc (Nat.le_of_ble_eq_true rfl) (Nat.le_succ _)
  | loop =>
    have hloop : rotateToHeading s .loop = s.goto (.rotate .turn) := by
      simp only [rotateToHeading]
      rw [if_pos hu]
    exact .closer hb (h hloop) trivial hpc (Nat.le_of_ble_eq_true rfl) (Nat.le_succ _)
  | turn =>
    refine .sends hb (h rfl) ?_ rfl
    split <;> decide
  | sleep | halt => exact .closer hb (h rfl) hu hpc (Nat.le_of_ble_eq_true rfl) (Nat.le_succ _)
  | update => exact hu.elim

/-- Under an alert an unguarded thread can always come closer to a motion command. -/
theorem progress_of_unguarded (hb : s.blocked_flag = true) (hu : s.Unguarded) : s.Progress := by
  have hu' := hu
  unfold Sys.Unguarded at hu'
  cases hpc : s.pc with
  | wait p => exact progress_wait hpc hb hu
  | exe p => exact progress_exe hpc hb hu
  | rotate p => exact progress_rotate hpc hb hu
  | switch =>
    rw [hpc] at hu'
    have h : controlThread ⟨0, 0⟩ s = some (s.goto (.wait .stop)) := by
      simp only [controlThread, hpc, hu'.1]
    exact .closer hb h hu'.2 hpc (Nat.le_of_ble_eq_true rfl) (Nat.le_succ _)
  | msg c =>
    rw [hpc] at hu'
    have h : controlThread ⟨0, 0⟩ s = some (s.goto (.put c (c.out s))) := by
      simp only [controlThread, hpc]
    cases c with
    | turning | forward =>
      exact .closer hb h hu' hpc (Nat.le_of_ble_eq_true rfl) (Nat.le_succ _)
    | waitEnd | loopEnd | finished | blocked => exact hu'.elim
  | put c out_pdu =>
    rw [hpc] at hu'
    cases c with
    | turning | forward =>
      exact .put hpc hb (by decide) hu (fun _ => hu') (Nat.le_of_ble_eq_true rfl)
    | waitEnd | loopEnd | finished | blocked => exact hu'.elim
  | top | col | reset =>
    rw [hpc] at hu'
    exact hu'.elim

/-! ### Exactly when there is no motion under an alert -/

section rises

variable (ok : Sys → Prop) [DecidablePred ok]

/-- A rise in an unguarded state can end in motion. -/
theorem motion_of_unguarded (hok : ok s) (hpin : s.u_alert = false) (hu : s.Unguarded) :
    ∃ as s', exec (restrict (RisesIn ok) step) s as = some s' ∧ s'.MovedBlocked := by
  have hedge : restrict (RisesIn ok) step s .edge = some s.rise :=
    restrict_eq_some.mpr ⟨fun _ _ => hok, congrArg some (edge_of_low hpin)⟩
  obtain ⟨as, s', has, hmoved⟩ : ∃ as s', exec (restrict (RisesIn ok) step) s.rise as = some s' ∧
      s'.MovedBlocked := by
    refine exec_leads_to (P := fun t => t.Unguarded ∧ t.blocked_flag = true) Sys.distance ?_ _
      ⟨hu, rfl⟩
    intro t ht
    obtain ⟨a, t', hne, hstep, hprog⟩ := progress_of_unguarded ht.2 ht.1
    exact ⟨a, t', (if_pos fun h => absurd h hne).trans hstep, hprog⟩
  exact ⟨.edge :: as, s', by rw [Machine.exec, hedge]; exact has, hmoved⟩

/-- **No motion under an alert if and only if the alert rises in guarded states.**  For every
    set of states in which U_ALERT may rise, all runs are quiet exactly when none of the
    states they reach in that set is unguarded. -/
theorem quiet_iff_guarded (pin : Bool) :
    (∀ s, Reachable (restrict (RisesIn ok) step) (boot pin) s → s.Quiet) ↔
      ∀ s, Reachable (restrict (RisesIn ok) step) (boot pin) s → s.u_alert = false → ok s →
        ¬ s.Unguarded := by
  constructor
  · -- a rise in an unguarded state is continued to a motion command
    intro hquiet s hs hpin hok hu
    obtain ⟨as, s', has, cmd, hcmd, hmem⟩ := motion_of_unguarded ok hok hpin hu
    exact hcmd ((hquiet s' (hs.exec as has)).motion cmd hmem)
  · -- induction on the run, with `Held` as the invariant
    intro hguard s hs
    suffices hheld : s.Held from hheld.1
    induction hs with
    | init => exact held_boot pin
    | step hs he ih =>
      obtain ⟨hok, hstep⟩ := restrict_eq_some.mp he
      exact held_step ih (fun ha hpin => hguard _ hs hpin (hok ha hpin)) (step_cases hstep)

end rises

/-- The alert rises while the thread waits for a command, and the command is a direct one. -/
def alertRun : List Act :=
  [.thread ⟨0, 0⟩, .thread ⟨0, 0⟩, .thread ⟨0, 0⟩, .edge,
    .command { Pdu.zeroed with cmd := PDU_GO_FORWARD }, .thread ⟨0, 0⟩, .thread ⟨0, 0⟩,
    .thread ⟨0, 0⟩]

/-- **The robot moves under an alert.** -/
theorem moves_under_alert : ¬ ∀ pin s, Reachable step (boot pin) s → s.Quiet := by
  intro hquiet
  obtain ⟨s, hs⟩ : ∃ s, exec step (boot false) alertRun = some s := ⟨_, rfl⟩
  have hreach := Reachable.exec alertRun .init hs
  have hmem : Obs.motor MOVE_FORW true ∈ s.trace := by
    cases hs
    decide
  exact absurd ((hquiet false s hreach).motion _ hmem) (by decide)

end Wheelson.Control
