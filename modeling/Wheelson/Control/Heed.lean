import Wheelson.Control.Resume

namespace Wheelson.Control

/-!
# A stop in the queue

`shared.h` wants a stop heeded immediately, but `controlThread` looks at its FIFO only in
`wait_handler`.

* `Sys.Heeds` — while a `PDU_STOP` waits, the next statement sends no motion byte for a
  command taken earlier.
* `Sys.Spent` — the command taken last sends no motion byte any more, whatever the alert does.
* `Sys.Committed` — a stop put now finds a motion ahead of it: a command in the queue, or the
  one taken last.
* `Sys.Urgent` — no motion stands before a stop that waits, kept as long as stops are put in
  uncommitted states.
* `unheeded_of_unspent`, `unheeded_of_queue` — a motion before a stop can be run to its byte.
* `heeds_iff` — hence every stop is heeded exactly when none is put in a committed state.
-/

open Machine Ipc MotorCmd

variable {s s' : Sys} {junk : Pos}

/-! ### The property and the condition -/

/-- The commands answered with a motion byte. -/
def IsMover (cmd : UInt8) : Prop := cmd = PDU_MOVE ∨ IsDirect cmd

instance (cmd : UInt8) : Decidable (IsMover cmd) := by
  unfold IsMover; infer_instance

/-- A command is taken. -/
def Obs.isGot : Obs → Bool
  | .got _ => true
  | _ => false

/-- Some command has been taken from the FIFO. -/
def Sys.Taken (s : Sys) : Prop := ∃ p, Obs.got p ∈ s.trace

/-- A `PDU_STOP` has been put and not yet taken. -/
def Sys.StopPending (s : Sys) : Prop := ∃ p ∈ s.rx_pdu_fifo_g, p.cmd = PDU_STOP

instance : DecidablePred Sys.StopPending := fun s => by
  unfold Sys.StopPending; infer_instance

instance : DecidablePred Sys.Taken := fun s =>
  decidable_of_iff (∃ o ∈ s.trace, o.isGot = true) <| by
    unfold Sys.Taken
    constructor
    · rintro ⟨o, ho, hgot⟩
      cases o with
      | got p => exact ⟨p, ho⟩
      | motor | edge | position | finished => cases hgot
    · rintro ⟨p, hp⟩
      exact ⟨_, hp, rfl⟩

/-- While a stop waits, the thread's next statement sends no motion byte for an earlier
    command. -/
def Sys.Heeds (s : Sys) : Prop :=
  s.StopPending → s.Taken → ∀ junk s' cmd b, controlThread junk s = some s' →
    s'.trace = s.trace ++ [.motor cmd b] → cmd = MOTOR_STOP

/-- The command in `rx_pdu` sends no motion byte any more.  A finished `PDU_MOVE` is not
    spent before the switch has taken the thread to `wait_handler`: an alert resumes it. -/
def Sys.Spent (s : Sys) : Prop :=
  match s.pc with
  | .switch => s.state = .ST_WAIT_CMD ∨ s.rx_pdu.cmd ≠ PDU_MOVE
  | .wait .stop | .wait .get => True
  | .wait .switch => ¬ IsMover s.rx_pdu.cmd
  | .wait (.drive cmd) => cmd = MOTOR_STOP ∧ s.rx_pdu.cmd ≠ PDU_MOVE
  | .exe .arrived | .exe .next | .exe .heading | .rotate _ | .msg .turning | .put .turning _
  | .exe .retest | .msg .forward | .put .forward _ | .exe .forw => False
  | _ => s.rx_pdu.cmd ≠ PDU_MOVE

/-- A stop put now waits behind a motion. -/
def Sys.Committed (s : Sys) : Prop :=
  (∃ p ∈ s.rx_pdu_fifo_g, IsMover p.cmd) ∨ (s.Taken ∧ ¬ s.Spent)

/-- A `PDU_STOP` is put only in states of `ok`. -/
def StopsIn (ok : Sys → Prop) (s : Sys) (a : Act) : Prop :=
  ∀ p, a = .command p → p.cmd = PDU_STOP → ok s

instance (ok : Sys → Prop) [DecidablePred ok] (s : Sys) (a : Act) : Decidable (StopsIn ok s a) :=
  match a with
  | .command p => decidable_of_iff (p.cmd = PDU_STOP → ok s) <| by
      constructor
      · rintro h q ⟨⟩ hstop
        exact h hstop
      · exact fun h => h p rfl
  | .thread _ | .edge | .sensor _ | .drain => .isTrue nofun

/-! ### A spent command -/

theorem spent_stmt (h : Stmt junk s s') (hget : s.pc ≠ .wait .get) (hs : s.Spent) : s'.Spent := by
  unfold Sys.Spent at hs
  cases h with
  | toWait hpc => trivial
  | waitStop hpc => trivial
  | waitGet hpc => exact absurd hpc hget
  | toExe hpc hstate | toCol hpc hstate | toReset hpc hstate =>
    rw [hpc] at hs
    -- the other handlers do not take a new command
    refine hs.resolve_left ?_
    rw [hstate]
    decide
  | waitMove hpc hcmd =>
    rw [hpc] at hs
    exact absurd (.inl hcmd) hs
  | waitDirect hpc hcmd =>
    rw [hpc] at hs
    exact absurd (.inr hcmd) hs
  | waitHalt hpc =>
    rw [hpc] at hs
    exact ⟨rfl, fun hmove => hs (.inl hmove)⟩
  | waitReset hpc | waitGarbage hpc =>
    rw [hpc] at hs
    exact fun hmove => hs (.inl hmove)
  | waitDrive hpc =>
    rw [hpc] at hs
    exact hs.2
  | exeBlocked hpc =>
    rcases hpc with hpc | hpc <;> rw [hpc] at hs
    · exact hs
    · exact hs.elim
  | exeMove hpc hcmd =>
    rw [hpc] at hs
    exact absurd hcmd hs
  | top hpc =>
    rw [hpc] at hs
    exact .inr hs
  | exeArrived hpc | exeNext hpc | exeHeading hpc | exeRetest hpc | exeForw hpc | rotReject hpc
  | rotAccept hpc | rotStop hpc | rotLoop hpc | rotEnd hpc | rotTurn hpc | rotSleep hpc
  | rotHalt hpc | rotUpdate hpc =>
    rw [hpc] at hs
    exact hs.elim
  | exeEntry hpc | exeTest hpc | exeNoMove hpc | exeSleep hpc | exeStop hpc | exeChange hpc
  | exeOther hpc | exeDone hpc | exeAgain hpc | exeRet hpc | colHigh hpc | colLow hpc
  | colStop hpc | colSleep hpc | colRet hpc | reset hpc | finish hpc =>
    rw [hpc] at hs
    exact hs
  | @msg c hpc | @put c _ hpc =>
    rw [hpc] at hs
    cases c <;> exact hs

/-- Such a statement sends no motion byte. -/
theorem stop_of_spent {cmd : MotorCmd} {b : Bool} (hs : s.Spent) (h : .motor cmd b ∈ s.logs) :
    cmd = MOTOR_STOP := by
  unfold Sys.Spent at hs
  rcases motion_of_logs h with hstop | hpc | hpc | hpc
  · exact hstop
  · rw [hpc] at hs
    exact hs.1
  · rw [hpc] at hs
    exact hs.elim
  · rw [hpc] at hs
    exact hs.elim

/-! ### Commands taken -/

theorem taken_stmt (h : Stmt junk s s') (hget : s.pc ≠ .wait .get) : s'.Taken ↔ s.Taken := by
  unfold Sys.Taken
  rw [trace_stmt h]
  constructor
  · rintro ⟨p, hp⟩
    rw [List.mem_append] at hp
    exact ⟨p, hp.resolve_right fun hlogs => hget (get_of_logs hlogs)⟩
  · rintro ⟨p, hp⟩
    exact ⟨p, List.mem_append_left _ hp⟩

/-- The edges take no command. -/
theorem taken_fall : s.fall.Taken ↔ s.Taken := by
  simp [Sys.Taken, Sys.fall, Sys.log]

theorem taken_rise : s.rise.Taken ↔ s.Taken := by
  simp [Sys.Taken, Sys.rise, sendMotorCmd, Sys.log]

/-! ### Runs -/

/-- No motion stands before a stop that waits: not in the queue, not in hand. -/
structure Sys.Urgent (s : Sys) : Prop where
  queue : s.rx_pdu_fifo_g.Pairwise fun p q => q.cmd = PDU_STOP → ¬ IsMover p.cmd
  hand : s.StopPending → s.Taken → s.Spent

/-- So a stop that waits is heeded. -/
theorem heeds_of_urgent (hs : s.Urgent) : s.Heeds := by
  intro hpending htaken junk s' cmd b h htrace
  rw [trace_stmt (stmt_of_controlThread h), List.append_cancel_left_eq] at htrace
  apply stop_of_spent (hs.hand hpending htaken)
  rw [htrace]
  exact List.mem_singleton_self _

/-- **Step rule, statement.** -/
theorem urgent_stmt (hs : s.Urgent) (h : Stmt junk s s') : s'.Urgent := by
  by_cases hget : s.pc = .wait .get
  · -- the queue moves up
    obtain ⟨p, rest, hrx, rfl⟩ := get_stmt h hget
    have hqueue := hs.queue
    rw [hrx, List.pairwise_cons] at hqueue
    refine ⟨hqueue.2, ?_⟩
    rintro ⟨q, hq, hstop⟩ -
    exact hqueue.1 q hq hstop
  · obtain ⟨-, hrx⟩ := rx_stmt h hget
    refine ⟨hrx ▸ hs.queue, ?_⟩
    intro hpending htaken
    apply spent_stmt h hget
    apply hs.hand _ ((taken_stmt h hget).mp htaken)
    unfold Sys.StopPending
    rw [← hrx]
    exact hpending

/-- **Step rule.** -/
theorem urgent_step {a : Act} (hs : s.Urgent) (hok : ∀ p, a = .command p → p.cmd = PDU_STOP →
    s.rx_pdu_fifo_g.length < PDU_FIFO_SIZE → ¬ s.Committed) (h : Step s a s') : s'.Urgent := by
  cases h with
  | thread h => exact urgent_stmt hs h
  | fall => exact ⟨hs.queue, fun hpending htaken => hs.hand hpending (taken_fall.mp htaken)⟩
  | rise => exact ⟨hs.queue, fun hpending htaken => hs.hand hpending (taken_rise.mp htaken)⟩
  | command hroom =>
    refine ⟨?_, ?_⟩
    · rw [List.pairwise_append]
      refine ⟨hs.queue, List.pairwise_singleton _ _, ?_⟩
      intro q hq r hr hstop hmover
      rw [List.mem_singleton] at hr
      subst hr
      exact hok r rfl hstop hroom (.inl ⟨q, hq, hmover⟩)
    · rintro ⟨q, hq, hstop⟩ htaken
      rw [List.mem_append, List.mem_singleton] at hq
      rcases hq with hq | rfl
      · exact hs.hand ⟨q, hq, hstop⟩ htaken
      · -- the stop is put now
        by_contra hspent
        exact hok q rfl hstop hroom (.inr ⟨htaken, hspent⟩)
  | sensor | drain => exact ⟨hs.queue, hs.hand⟩

/-- The queue is empty. -/
theorem urgent_boot (pin : Bool) : (boot pin).Urgent :=
  ⟨.nil, fun ⟨_, hp, _⟩ => absurd hp List.not_mem_nil⟩

/-! ### A stop behind a motion -/

/-- A stop waits, and a command has been taken. -/
def Sys.Waits (s : Sys) : Prop := s.StopPending ∧ s.Taken

/-- A statement that takes no command leaves both as they are. -/
theorem stable_waits : Stable Sys.Waits where
  stmt s s' hget hs h := by
    refine ⟨?_, (taken_stmt h hget).mpr hs.2⟩
    unfold Sys.StopPending
    rw [(rx_stmt h hget).2]
    exact hs.1
  tx _ _ hs := hs

/-- The next statement sends a motion byte. -/
def Sys.Moves (s : Sys) : Prop :=
  s.pc = .exe .forw ∨ s.pc = .rotate .turn ∨ ∃ cmd, cmd ≠ MOTOR_STOP ∧ s.pc = .wait (.drive cmd)

/-- A motion byte that is sent then is sent past the stop. -/
theorem unheeded_of_moves (hs : s.Waits) (hm : s.Moves) : ¬ s.Heeds := by
  intro hheeds
  obtain hpc | hpc | ⟨cmd, hcmd, hpc⟩ := hm
  · have h : controlThread ⟨0, 0⟩ s = some (exeHandler ⟨0, 0⟩ s .forw) := by
      simp only [controlThread, hpc]
    cases hheeds hs.1 hs.2 _ _ _ _ h rfl
  · have h : controlThread ⟨0, 0⟩ s = some (rotateToHeading s .turn) := by
      simp only [controlThread, hpc]
    have hstop := hheeds hs.1 hs.2 _ _ _ _ h rfl
    split at hstop <;> cases hstop
  · have h : controlThread ⟨0, 0⟩ s =
        some { sendMotorCmd cmd s with state := .ST_WAIT_CMD, pc := .msg .waitEnd } := by
      simp only [controlThread, hpc, waitHandler]
    exact hcmd (hheeds hs.1 hs.2 _ _ _ _ h rfl)

/-- The statements of `exe_handler` before its drive. -/
def Pc.BeforeDrive : Pc → Prop
  | .exe .entry | .exe .test | .exe .move | .exe .arrived | .exe .next | .exe .heading
  | .rotate _ | .msg .turning | .put .turning _
  | .exe .retest | .msg .forward | .put .forward _ | .exe .forw => True
  | _ => False

/-- These statements are inside the handler. -/
theorem inExe_of_beforeDrive {pc : Pc} (h : pc.BeforeDrive) : pc.InExe := by
  unfold Pc.BeforeDrive at h
  split at h <;> trivial

/-- Before the first motion byte every statement leads towards it. -/
theorem beforeDrive_stmt (h : Stmt junk s s') (hflag : s.blocked_flag = false)
    (hcmd : s.rx_pdu.cmd = PDU_MOVE) (hs : s.pc.BeforeDrive) : s'.pc.BeforeDrive ∨ s.Moves := by
  cases h with
  | exeForw hpc => exact .inr (.inl hpc)
  | exeBlocked hpc hb => cases hflag.symm.trans hb
  | exeNoMove hpc hne => exact absurd hcmd hne
  | @msg c hpc | @put c _ hpc =>
    rw [hpc] at hs
    cases c with
    | turning | forward => exact .inl trivial
    | waitEnd | loopEnd | finished | blocked => exact hs.elim
  | exeEntry hpc | exeTest hpc | exeMove hpc | exeArrived hpc | exeNext hpc | exeHeading hpc
  | rotReject hpc | rotAccept hpc | rotStop hpc | rotLoop hpc | rotEnd hpc | rotTurn hpc
  | rotSleep hpc | rotHalt hpc | rotUpdate hpc | exeRetest hpc => exact .inl trivial
  | _ hpc =>
    rw [hpc] at hs
    exact hs.elim

/-- A command that is not spent, and the thread outside `exe_handler`. -/
theorem unspent_stmt (h : Stmt junk s s') (htop : s.pc ≠ .top) (hin : ¬ s.pc.InExe)
    (hcmd : s.rx_pdu.cmd = PDU_MOVE) (hs : ¬ s.Spent) :
    s'.pc = .top ∨ s'.pc.InExe ∨ ¬ s'.Spent := by
  unfold Sys.Spent at hs
  cases h with
  | top hpc => exact absurd hpc htop
  | toWait hpc hstate =>
    rw [hpc] at hs
    exact absurd (.inl hstate) hs
  | waitStop hpc | waitGet hpc =>
    rw [hpc] at hs
    exact absurd trivial hs
  | waitReset hpc hreset =>
    rw [hcmd] at hreset
    cases hreset
  | waitDirect hpc hdirect =>
    rw [hcmd] at hdirect
    exact absurd hdirect (by decide)
  | waitHalt hpc hstop =>
    rw [hcmd] at hstop
    cases hstop
  | waitGarbage hpc hmove => exact absurd hcmd hmove
  | toExe hpc => exact .inr (.inl trivial)
  | toReset hpc | toCol hpc | waitMove hpc | waitDrive hpc | colHigh hpc | colLow hpc
  | colStop hpc | colSleep hpc => exact .inr (.inr fun hne => hne hcmd)
  | exeRet hpc | colRet hpc | reset hpc => exact .inl rfl
  | @msg c hpc =>
    rw [hpc] at hin
    cases c with
    | waitEnd | blocked => exact .inr (.inr fun hne => hne hcmd)
    | turning | forward | loopEnd | finished => exact absurd trivial hin
  | @put c _ hpc =>
    rw [hpc] at hin
    cases c with
    | waitEnd => exact .inl rfl
    | blocked => exact .inr (.inr fun hne => hne hcmd)
    | turning | forward | loopEnd | finished => exact absurd trivial hin
  | exeBlocked hpc => exact .inl rfl
  | _ hpc =>
    rw [hpc] at hin
    exact absurd trivial hin

/-- A command other than a move is not spent before its own motion byte only. -/
theorem direct_of_unspent (ht : s.Tracks) (hcmd : s.rx_pdu.cmd ≠ PDU_MOVE) (hs : ¬ s.Spent) :
    (s.pc = .wait .switch ∧ IsDirect s.rx_pdu.cmd) ∨ s.Moves := by
  unfold Sys.Spent at hs
  unfold Sys.Tracks at ht
  split at hs
  · exact absurd (.inr hcmd) hs
  · exact absurd trivial hs
  · exact absurd trivial hs
  · rename_i hpc
    rw [not_not] at hs
    exact .inl ⟨hpc, hs.resolve_left hcmd⟩
  · rename_i cmd hpc
    exact .inr (.inr (.inr ⟨cmd, fun hstop => hs ⟨hstop, hcmd⟩, hpc⟩))
  · -- the branch for a move
    rename_i hpc
    rw [hpc] at ht
    exact absurd ht.2.1 hcmd
  · rename_i hpc
    rw [hpc] at ht
    exact absurd ht.2.1 hcmd
  · rename_i hpc
    rw [hpc] at ht
    exact absurd ht.1.2.1 hcmd
  iterate 7
    rename_i hpc
    rw [hpc] at ht
    exact absurd ht.1.1.2.1 hcmd
  exact absurd hcmd hs

/-- Only the puts of stops are restricted. -/
theorem permits_stopsIn (ok : Sys → Prop) : Permits (StopsIn ok) :=
  ⟨fun _ _ => nofun, fun _ _ => nofun, fun _ => nofun⟩

/-- A direct command sends its byte with the next statement. -/
theorem moves_of_direct (h : Stmt junk s s') (hpc : s.pc = .wait .switch)
    (hmove : s.rx_pdu.cmd ≠ PDU_MOVE) (hdirect : IsDirect s.rx_pdu.cmd) : s'.Moves := by
  cases h with
  | waitDirect _ _ hmotion => exact .inr (.inr ⟨_, hmotion, rfl⟩)
  | waitMove _ hcmd => exact absurd hcmd hmove
  | waitReset _ hcmd | waitHalt _ hcmd =>
    rw [hcmd] at hdirect
    exact absurd hdirect (by decide)
  | waitGarbage _ _ hnot => exact absurd hdirect hnot
  | exeBlocked hexe => rcases hexe with hexe | hexe <;> cases hpc.symm.trans hexe
  | _ hother => cases hpc.symm.trans hother

/-- At its queue the thread has spent its command. -/
theorem get_of_unspent (hs : ¬ s.Spent) : s.pc ≠ .wait .get := by
  intro hpc
  unfold Sys.Spent at hs
  rw [hpc] at hs
  exact hs trivial

section stops

variable {ok : Sys → Act → Prop} [∀ s a, Decidable (ok s a)]

/-- A move that is not blocked comes to a motion byte. -/
theorem unheeded_of_beforeDrive (hok : Permits ok) (hs : s.Calm) (hw : s.Waits)
    (hcmd : s.rx_pdu.cmd = PDU_MOVE) (hpc : s.pc.BeforeDrive) :
    CanReach (restrict ok step) s fun t => ¬ t.Heeds := by
  by_cases hm : s.Moves
  · exact .refl (unheeded_of_moves hw hm)
  refine thread_leads_to (P := fun t => t.Calm ∧ t.Waits ∧ t.rx_pdu.cmd = PDU_MOVE ∧
    t.pc.BeforeDrive ∧ ¬ t.Moves) Sys.cost ⟨0, 0⟩ ?_
    (fun t _ => ⟨hok.thread _ _, hok.drain _⟩) ?_ ?_ s ⟨hs, hw, hcmd, hpc, hm⟩
  · exact fun t ht => inExe_get (inExe_of_beforeDrive ht.2.2.2.1)
  · rintro t tx ⟨hs, hrest⟩
    exact ⟨⟨⟨hs.flag, hs.pin, hs.tracks⟩, hrest⟩, rfl⟩
  · -- the handler only comes nearer to its end, and the drive is on the way
    rintro t t' ⟨hs, hw, hcmd, hpc, hm⟩ h
    have hin := inExe_of_beforeDrive hpc
    have hpc' := (beforeDrive_stmt h hs.flag hcmd hpc).resolve_right hm
    have hw' := stable_waits.stmt t t' (inExe_get hin) hw h
    have hcmd' : t'.rx_pdu.cmd = PDU_MOVE := by
      rw [(rx_stmt h (inExe_get hin)).1]
      exact hcmd
    by_cases hm' : t'.Moves
    · exact .inl (unheeded_of_moves hw' hm')
    · obtain hret | ⟨-, hlt⟩ := cost_stmt h hs.tracks hin fun _ => hs.flag
      · rw [hret] at hpc'
        exact hpc'.elim
      · exact .inr ⟨⟨calm_stmt h hs, hw', hcmd', hpc', hm'⟩, hlt⟩

/-- At the loop top an alert resumes a move, finished or not. -/
theorem unheeded_of_top (hok : Permits ok) (hrise : ∀ s, ok s .edge) (hs : s.Calm)
    (hw : s.Waits) (hcmd : s.rx_pdu.cmd = PDU_MOVE) (hpc : s.pc = .top) :
    CanReach (restrict ok step) s fun t => ¬ t.Heeds := by
  have hedge : restrict ok step s .edge = some s.rise :=
    restrict_eq_some.mpr ⟨hrise s, congrArg some (edge_of_low hs.pin)⟩
  refine .cons hedge ((resumes_of_blocked (s := s.rise) hok hpc rfl rfl).trans ?_)
  rintro t rfl
  refine unheeded_of_beforeDrive hok ⟨rfl, rfl, ?_⟩ ⟨hw.1, ?_⟩ hcmd trivial
  · exact trivial
  · exact taken_fall.mpr (taken_rise.mpr hw.2)

/-- The move in hand comes to a motion byte from inside `exe_handler`. -/
theorem unheeded_of_exe (hok : Permits ok) (hrise : ∀ s, ok s .edge) (hs : s.Calm)
    (hw : s.Waits) (hcmd : s.rx_pdu.cmd = PDU_MOVE) (hin : s.pc.InExe) :
    CanReach (restrict ok step) s fun t => ¬ t.Heeds := by
  have hJ : Stable fun t => t.Waits ∧ t.rx_pdu.cmd = PDU_MOVE :=
    { stmt := fun t t' hget ht h => by
        refine ⟨stable_waits.stmt t t' hget ht.1 h, ?_⟩
        rw [(rx_stmt h hget).1]
        exact ht.2
      tx := fun _ _ ht => ht }
  refine (ret_of_exe hok hJ hs ⟨hw, hcmd⟩ hin).trans ?_
  rintro t ⟨hret, ht, hw, hcmd⟩
  have h : controlThread ⟨0, 0⟩ t = some (exeHandler ⟨0, 0⟩ t .ret) := by
    simp only [controlThread, hret]
  exact .cons (restrict_eq_some.mpr ⟨hok.thread _ _, h⟩)
    (unheeded_of_top hok hrise ⟨ht.flag, ht.pin, trivial⟩ hw hcmd rfl)

/-- The command in hand comes to a motion byte unless it is spent. -/
theorem unheeded_of_unspent (hok : Permits ok) (hrise : ∀ s, ok s .edge) (hs : s.Calm)
    (hw : s.Waits) (hspent : ¬ s.Spent) :
    CanReach (restrict ok step) s fun t => ¬ t.Heeds := by
  by_cases hcmd : s.rx_pdu.cmd = PDU_MOVE
  · by_cases hin : s.pc.InExe
    · exact unheeded_of_exe hok hrise hs hw hcmd hin
    by_cases htop : s.pc = .top
    · exact unheeded_of_top hok hrise hs hw hcmd htop
    -- the other handlers hand over
    have hover : CanReach (restrict ok step) s fun t =>
        (t.pc = .top ∨ t.pc.InExe) ∧ t.Calm ∧ t.Waits ∧ t.rx_pdu.cmd = PDU_MOVE := by
      refine thread_leads_to (P := fun t => t.Calm ∧ t.Waits ∧ t.rx_pdu.cmd = PDU_MOVE ∧
        ¬ t.Spent ∧ ¬ t.pc.InExe ∧ t.pc ≠ .top) (fun t => homeAt t.state t.pc) ⟨0, 0⟩ ?_
        (fun t _ => ⟨hok.thread _ _, hok.drain _⟩) ?_ ?_ s ⟨hs, hw, hcmd, hspent, hin, htop⟩
      · rintro t ⟨-, -, -, hspent, -⟩
        exact get_of_unspent hspent
      · rintro t tx ⟨hs, hrest⟩
        exact ⟨⟨⟨hs.flag, hs.pin, hs.tracks⟩, hrest⟩, rfl⟩
      · rintro t t' ⟨hs, hw, hcmd, hspent, hin, htop⟩ h
        have hget := get_of_unspent hspent
        have hs' := calm_stmt h hs
        have hw' := stable_waits.stmt t t' hget hw h
        have hcmd' : t'.rx_pdu.cmd = PDU_MOVE := by
          rw [(rx_stmt h hget).1]
          exact hcmd
        by_cases hdone : t'.pc = .top ∨ t'.pc.InExe
        · exact .inl ⟨hdone, hs', hw', hcmd'⟩
        · rw [not_or] at hdone
          have hspent' := ((unspent_stmt h htop hin hcmd hspent).resolve_left hdone.1).resolve_left
            hdone.2
          have hlt := (home_stmt h hs.flag hs.pin hin hget).resolve_left hdone.2
          exact .inr ⟨⟨hs', hw', hcmd', hspent', hdone.2, hdone.1⟩, hlt⟩
    refine hover.trans ?_
    rintro t ⟨htop | hin, hs, hw, hcmd⟩
    · exact unheeded_of_top hok hrise hs hw hcmd htop
    · exact unheeded_of_exe hok hrise hs hw hcmd hin
  · obtain ⟨hpc, hdirect⟩ | hm := direct_of_unspent hs.tracks hcmd hspent
    · -- a direct command is answered at once
      have hget : s.pc ≠ .wait .get := fun hget => by cases hpc.symm.trans hget
      obtain ⟨t, h⟩ := controlThread_enabled ⟨0, 0⟩ hget fun c o hput => by
        cases hpc.symm.trans hput
      have hstmt := stmt_of_controlThread h
      refine .cons (restrict_eq_some.mpr ⟨hok.thread _ _, h⟩) (.refl ?_)
      exact unheeded_of_moves (stable_waits.stmt s t hget hw hstmt)
        (moves_of_direct hstmt hpc hcmd hdirect)
    · exact .refl (unheeded_of_moves hw hm)

/-- A motion in the queue stands before the stop. -/
theorem unheeded_of_queue (hok : Permits ok) (hrise : ∀ s, ok s .edge) {q : Pdu}
    (hstop : q.cmd = PDU_STOP) (l : List Pdu) :
    ∀ s : Sys, s.Calm → s.rx_pdu_fifo_g = l ++ [q] → (∃ p ∈ l, IsMover p.cmd) →
      CanReach (restrict ok step) s fun t => ¬ t.Heeds := by
  -- induction on what stands before the stop: the head moves, or is taken and forgotten
  induction l with
  | nil => rintro s hs hrx ⟨p, hp, -⟩; cases hp
  | cons p l ih =>
    intro s hs hrx hmover
    have hJ : Stable fun t => t.rx_pdu_fifo_g = p :: (l ++ [q]) :=
      { stmt := fun t t' hget ht h => (rx_stmt h hget).2.trans ht
        tx := fun _ _ ht => ht }
    refine (reaches_get hok hJ hs hrx).trans ?_
    rintro t ⟨hpc, ht, hrx⟩
    -- the head of the queue is taken
    have h : controlThread ⟨0, 0⟩ t = some (({ t with
        rx_pdu := p
        rx_pdu_fifo_g := l ++ [q] }.log (.got p)).goto (.wait .switch)) := by
      simp only [controlThread, hpc, waitHandler, hrx]
    refine .cons (restrict_eq_some.mpr ⟨hok.thread _ _, h⟩) ?_
    have ht' := calm_stmt (stmt_of_controlThread h) ht
    by_cases hp : IsMover p.cmd
    · apply unheeded_of_unspent hok hrise ht'
      · exact ⟨⟨q, List.mem_append_right _ (List.mem_singleton_self q), hstop⟩,
          p, List.mem_append_right _ (List.mem_singleton_self _)⟩
      · exact fun hspent => hspent hp
    · apply ih _ ht' rfl
      obtain ⟨r, hr, hmove⟩ := hmover
      rcases List.mem_cons.mp hr with rfl | hr
      · exact absurd hmove hp
      · exact ⟨r, hr, hmove⟩

end stops

/-! ### Exactly when a stop is heeded -/

/-- **A stop is heeded if and only if nothing is ahead of it.**  For every set of states in
    which a `PDU_STOP` may be put, every stop is heeded in all runs exactly when no reached
    state of the set, with room in the FIFO, is committed. -/
theorem heeds_iff (ok : Sys → Prop) [DecidablePred ok] (pin : Bool) :
    (∀ s, Reachable (restrict (StopsIn ok) step) (boot pin) s → s.Heeds) ↔
      ∀ s, Reachable (restrict (StopsIn ok) step) (boot pin) s → ok s →
        s.rx_pdu_fifo_g.length < PDU_FIFO_SIZE → ¬ s.Committed := by
  constructor
  · -- the motion ahead of the stop is run to its byte
    intro hheeds s hs hok hroom hcommitted
    have hpermits := permits_stopsIn ok
    have hrise (t : Sys) : StopsIn ok t .edge := nofun
    have hinv : s.Tracks ∧ (s.blocked_flag = true → s.u_alert = true) := by
      refine hs.invariant (I := fun s => s.Tracks ∧ (s.blocked_flag = true → s.u_alert = true))
        ⟨tracks_boot pin, fun h => (Bool.false_ne_true h).elim⟩ ?_
      intro s a s' hs h
      have hstep := step_cases (restrict_eq_some.mp h).2
      exact ⟨tracks_step hs.1 hstep, pin_of_flag_step hs.2 hstep⟩
    -- put a stop there
    let q : Pdu := { Pdu.zeroed with cmd := PDU_STOP }
    let t : Sys := { s with rx_pdu_fifo_g := s.rx_pdu_fifo_g ++ [q] }
    have hput : restrict (StopsIn ok) step s (.command q) = some t :=
      restrict_eq_some.mpr ⟨fun _ _ _ => hok, if_pos hroom⟩
    have hpending : t.StopPending := ⟨q, List.mem_append_right _ (List.mem_singleton_self q), rfl⟩
    have hrun (u : Sys) (hu : u.Calm) (hrx : u.rx_pdu_fifo_g = t.rx_pdu_fifo_g)
        (htaken : u.Taken ↔ s.Taken) (hspent : u.Spent ↔ s.Spent) :
        CanReach (restrict (StopsIn ok) step) u fun t => ¬ t.Heeds := by
      obtain hmover | ⟨hs, hnot⟩ := hcommitted
      · exact unheeded_of_queue hpermits hrise (q := q) rfl _ u hu hrx hmover
      · refine unheeded_of_unspent hpermits hrise hu ⟨?_, htaken.mpr hs⟩ (hspent.not.mpr hnot)
        unfold Sys.StopPending
        rw [hrx]
        exact hpending
    have hreach : CanReach (restrict (StopsIn ok) step) t fun t => ¬ t.Heeds := by
      -- end the alert first, so that nothing interrupts the motion
      cases hpin : s.u_alert with
      | true =>
        have hfall : restrict (StopsIn ok) step t .edge = some t.fall :=
          restrict_eq_some.mpr ⟨hrise t, congrArg some (edge_of_high hpin)⟩
        exact .cons hfall (hrun t.fall ⟨rfl, rfl, hinv.1⟩ rfl taken_fall Iff.rfl)
      | false =>
        have hflag : s.blocked_flag = false := by
          by_contra h
          rw [Bool.not_eq_false] at h
          cases hpin.symm.trans (hinv.2 h)
        exact hrun t ⟨hflag, hpin, hinv.1⟩ rfl Iff.rfl Iff.rfl
    obtain ⟨u, hu, hnot⟩ := (hs.step hput).canReach hreach
    exact hnot (hheeds u hu)
  · intro hguard s hs
    -- no stop is ever put behind a motion
    suffices h : s.Urgent from heeds_of_urgent h
    induction hs with
    | init => exact urgent_boot pin
    | step hs he ih =>
      obtain ⟨hok, hstep⟩ := restrict_eq_some.mp he
      exact urgent_step ih (fun p ha hstop => hguard _ hs (hok p ha hstop)) (step_cases hstep)

/-- A `PDU_MOVE` is taken, and a stop is put after the first test of `exe_handler`. -/
def stopRun : List Act :=
  [.command { Pdu.zeroed with x := 1 }] ++ List.replicate 11 (.thread ⟨0, 0⟩) ++
    [.command { Pdu.zeroed with cmd := PDU_STOP }] ++ List.replicate 7 (.thread ⟨0, 0⟩)

/-- **A stop waits while the robot turns.** -/
theorem stop_unheeded : ¬ ∀ pin s, Reachable step (boot pin) s → s.Heeds := by
  intro hheeds
  obtain ⟨s, hs⟩ : ∃ s, exec step (boot false) stopRun = some s := ⟨_, rfl⟩
  have hreach := Reachable.exec stopRun .init hs
  cases hs
  have hstop := hheeds false _ hreach (by decide) (by decide) ⟨0, 0⟩ _ MOTOR_TURN_LEFT false rfl rfl
  cases hstop

end Wheelson.Control
