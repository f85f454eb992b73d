import Mathlib.Data.List.Chain
import Wheelson.Control.Journey

namespace Wheelson.Control

/-!
# Runs without an alert

As long as U_ALERT stays low the robot does what the client asks for.  `Control/Journey.lean` says
what is recorded in a run in which no move starts at its destination, whatever U_ALERT does; here
that condition is traced back to the client, and the run is shown to have an end.

* `quietStep` — the machine without the edges.
* `Sys.Unblocked` — then `blocked_flag` stays clear, and nothing leads to `col_handler`, so that
  no move is taken up a second time.
* `Sys.Fresh` — `exe_handler` is entered where the move before it has ended.
* `sound_of_quiet` — so no move starts at its destination unless the client asks for the same
  destination twice in a row, and these runs are among those of `Control/Journey.lean`.
* `Sys.left`, `waits` — a bound on the statements that are left, and by it the thread comes back
  to its queue, whatever command it has in hand.
* `quiet_journey` — all moves that are put can be driven to their ends.
-/

open Machine Ipc

variable {s s' : Sys} {a : Act} {junk : Pos}

/-- U_ALERT does not change. -/
def Quiet : Act → Prop
  | .edge => False
  | .thread _ | .command _ | .sensor _ | .drain => True

instance (a : Act) : Decidable (Quiet a) :=
  match a with
  | .edge => .isFalse id
  | .thread _ | .command _ | .sensor _ | .drain => .isTrue trivial

/-- The machine without the edges of U_ALERT. -/
def quietStep : Sys → Act → Option Sys := restrict (fun _ a => Quiet a) step

/-! ### No alert -/

/-- A statement of `col_handler`. -/
def Pc.InCol : Pc → Prop
  | .col _ | .msg .blocked | .put .blocked _ => True
  | _ => False

/-- Nothing has blocked the thread, and it is not on its way to `col_handler`. -/
structure Sys.Unblocked (s : Sys) : Prop where
  flag : s.blocked_flag = false
  state : s.state ≠ .ST_COL
  pc : ¬ s.pc.InCol

/-- A statement does not lead to `col_handler` while `blocked_flag` is clear. -/
theorem unblocked_stmt (h : Stmt junk s s') (hs : s.Unblocked) : s'.Unblocked := by
  obtain ⟨hflag, hstate, hpc'⟩ := hs
  refine ⟨(flag_stmt h).trans hflag, ?_, ?_⟩
  · cases h with
    | top =>
      show (if s.blocked_flag then State.ST_COL else s.state) ≠ _
      rw [hflag]
      exact hstate
    | exeBlocked _ hb =>
      rw [hflag] at hb
      cases hb
    -- the handlers hand over to other states
    | waitMove | waitReset | waitDrive | exeRet | colRet | reset => exact nofun
    | _ => exact hstate
  · cases h with
    | toCol _ hcol => exact absurd hcol hstate
    | colHigh hpc | colLow hpc | colStop hpc | colSleep hpc | colRet hpc =>
      rw [hpc] at hpc'
      exact absurd trivial hpc'
    | @msg c hpc | @put c _ hpc =>
      rw [hpc] at hpc'
      cases c with
      | blocked => exact absurd trivial hpc'
      | waitEnd | turning | forward | loopEnd | finished => exact id
    | _ => exact id

/-- **Step rule.** -/
theorem unblocked_step (hs : s.Unblocked) (h : quietStep s a = some s') : s'.Unblocked := by
  obtain ⟨hquiet, hstep⟩ := restrict_eq_some.mp h
  cases step_cases hstep with
  | thread h => exact unblocked_stmt h hs
  | fall | rise => exact hquiet.elim
  | command | sensor | drain => exact ⟨hs.flag, hs.state, hs.pc⟩

/-- The pin is low as the board comes up. -/
theorem unblocked_boot : (boot false).Unblocked := ⟨rfl, nofun, id⟩

/-! ### Where a move starts -/

/-- The move taken last starts where the one before it ends. -/
def Sys.Starts (s : Sys) : Prop :=
  ∃ targets, s.moves = targets ++ [s.target] ∧ s.position_g = targets.getLastD origin

/-- A move that is about to be executed has not left its start. -/
def Sys.Fresh (s : Sys) : Prop :=
  match s.pc with
  | .wait .stop | .wait .get => s.state = .ST_WAIT_CMD
  | .wait .switch => s.state = .ST_WAIT_CMD ∧ (s.rx_pdu.cmd = PDU_MOVE → s.Starts)
  | .msg .waitEnd | .put .waitEnd _ | .top | .switch => s.state = .ST_EXE_CMD → s.Starts
  | .exe .entry => s.Starts
  | _ => True

/-- Where nothing is taken and nothing is recorded, the start stays the start. -/
theorem Stays.starts (h : Stays s s') (hs : s.Starts) : s'.Starts := by
  obtain ⟨targets, hmoves, hposition⟩ := hs
  refine ⟨targets, ?_, ?_⟩
  · rw [h.moves, h.target_eq, hmoves]
  · rw [h.position, hposition]

/-- A move is taken where the moves before it have all been driven. -/
theorem fresh_get {p : Pdu} {rest : List Pdu} (hs : s.Arrived) (hstate : s.state = .ST_WAIT_CMD) :
    Sys.Fresh
      (({ s with rx_pdu := p, rx_pdu_fifo_g := rest }.log (.got p)).goto (.wait .switch)) := by
  refine ⟨hstate, fun (hcmd : p.cmd = PDU_MOVE) => ⟨s.moves, ?_, hs.position⟩⟩
  show (s.log (.got p)).moves = s.moves ++ [⟨p.x, p.y⟩]
  rw [moves_log, Obs.dest, moveDest, if_pos hcmd]
  rfl

/-- Between the queue and the entry of `exe_handler` no statement moves the robot. -/
theorem fresh_stmt (h : Stmt junk s s') (hclear : s.Unblocked) (hphase : s.Phase) (hs : s.Fresh) :
    s'.Fresh := by
  unfold Sys.Fresh at hs
  by_cases hget : s.pc = .wait .get
  · -- the moves before it have been driven to their ends
    rw [hget] at hs
    rw [Sys.Phase, hget] at hphase
    obtain ⟨p, rest, -, rfl⟩ := get_stmt h hget
    exact fresh_get hphase hs
  by_cases hchange : s.pc = .exe .change
  · rw [change_stmt h hchange]
    trivial
  have hstays := stays_stmt h hget hchange
  cases h with
  | top hpc =>
    rw [hpc] at hs
    show (if s.blocked_flag then State.ST_COL else s.state) = _ → _
    rw [hclear.flag]
    exact fun hstate => hstays.starts (hs hstate)
  | toWait hpc hstate => exact hstate
  | toExe hpc hstate =>
    rw [hpc] at hs
    exact hstays.starts (hs hstate)
  | waitStop hpc =>
    rw [hpc] at hs
    exact hs
  | waitMove hpc hcmd =>
    rw [hpc] at hs
    exact fun _ => hstays.starts (hs.2 hcmd)
  | waitGarbage hpc =>
    rw [hpc] at hs
    intro hstate
    cases hs.1.symm.trans hstate
  | exeBlocked hpc hb =>
    rw [hclear.flag] at hb
    cases hb
  | waitReset | waitDrive | exeRet | reset =>
    intro hstate
    cases hstate
  | colRet hpc =>
    have hcol := hclear.pc
    rw [hpc] at hcol
    exact absurd trivial hcol
  | waitGet hpc => exact absurd hpc hget
  | @msg c hpc | @put c _ hpc =>
    rw [hpc] at hs
    cases c with
    | waitEnd => exact fun hstate => hstays.starts (hs hstate)
    | turning | forward | loopEnd | finished | blocked => trivial
  | _ => trivial

/-! ### No move starts at its destination -/

/-- No destination is asked for twice in a row, nor the origin at the start. -/
def Distinct (targets : List Pos) : Prop := List.IsChain (· ≠ ·) (origin :: targets)

instance (targets : List Pos) : Decidable (Distinct targets) :=
  inferInstanceAs (Decidable (List.IsChain _ _))

/-- The first destinations of such a list are one, too. -/
theorem Distinct.of_initial {targets targets' : List Pos} (h : Distinct targets')
    (hpre : targets <+: targets') : Distinct targets := by
  obtain ⟨rest, rfl⟩ := hpre
  have hchain : List.IsChain (· ≠ ·) (origin :: targets ++ rest) := h
  exact hchain.left_of_append

/-- Its last destination is not the one before it. -/
theorem Distinct.last {targets : List Pos} {target : Pos} (h : Distinct (targets ++ [target])) :
    targets.getLastD origin ≠ target := by
  unfold Distinct at h
  generalize origin = start at h ⊢
  induction targets generalizing start with
  | nil => simpa using h
  | cons t targets ih =>
    rw [List.cons_append, List.isChain_cons_cons] at h
    rw [List.getLastD_cons]
    exact ih t h.2

/-- A statement only adds to the log, and so to the moves taken. -/
theorem moves_stmt (h : Stmt junk s s') : s.moves <+: s'.moves := by
  rw [Sys.moves, Sys.moves, trace_stmt h, List.filterMap_append]
  exact List.prefix_append _ _

/-- The moves taken stay taken. -/
theorem moves_step (h : quietStep s a = some s') : s.moves <+: s'.moves := by
  obtain ⟨hquiet, hstep⟩ := restrict_eq_some.mp h
  cases step_cases hstep with
  | thread h => exact moves_stmt h
  | fall | rise => exact hquiet.elim
  | command | sensor | drain => exact List.prefix_rfl

/-- **Step rule.** -/
theorem fresh_step (hclear : s.Unblocked) (hphase : s.Phase) (hs : s.Fresh)
    (h : quietStep s a = some s') : s'.Fresh := by
  obtain ⟨hquiet, hstep⟩ := restrict_eq_some.mp h
  cases step_cases hstep with
  | thread h => exact fresh_stmt h hclear hphase hs
  | fall | rise => exact hquiet.elim
  | command | sensor | drain => exact hs

/-- **No repetition, no junk.**  Without an alert, `exe_handler` is entered at the destination
    only for a move that repeats the one before it. -/
theorem sound_of_quiet (h : Reachable quietStep (boot false) s) (hdistinct : Distinct s.moves) :
    Reachable soundStep (boot false) s ∧ s.Unblocked ∧ s.Fresh := by
  induction h with
  | init => exact ⟨.init, unblocked_boot, nofun⟩
  | @step s s' a _ he ih =>
    obtain ⟨hsound, hclear, hfresh⟩ := ih (hdistinct.of_initial (moves_step he))
    have hs : s.Journeys := journeys_reachable hsound
    -- the move starts where the one before it ended, and goes elsewhere
    have hentry : ¬ s.EntersAtTarget := by
      rintro ⟨hpc, -, hat⟩
      rw [Sys.Fresh, hpc] at hfresh
      obtain ⟨targets, hmoves, hposition⟩ := hfresh
      have hlast := hdistinct.of_initial (moves_step he)
      rw [hmoves] at hlast
      exact hlast.last (hposition.symm.trans hat)
    refine ⟨hsound.step (e := a) (restrict_eq_some.mpr ⟨?_, (restrict_eq_some.mp he).2⟩),
      unblocked_step hclear he, fresh_step hclear hs.phase hfresh he⟩
    cases a with
    | thread => exact fun _ => hentry
    | edge | command | sensor | drain => trivial

/-! ### The thread comes back to its queue -/

/-- The cost of `exe_handler` from its entry. -/
def Sys.entryCost (s : Sys) : ℕ := { s with pc := .exe .entry }.cost

/-- The statements left before `pdu_fifo_get`, at most. -/
def Sys.left (s : Sys) : ℕ :=
  match s.pc with
  | .wait .switch => s.entryCost + 25
  | .wait (.drive _) => s.entryCost + 24
  | .msg .waitEnd => s.entryCost + 23
  | .put .waitEnd _ => s.entryCost + 22
  | .top =>
    match s.state with
    | .ST_EXE_CMD => s.entryCost + 21
    | .ST_RESET => 6
    | .ST_WAIT_CMD | .ST_COL => 3
  | .switch =>
    match s.state with
    | .ST_EXE_CMD => s.entryCost + 20
    | .ST_RESET => 5
    | .ST_WAIT_CMD | .ST_COL => 2
  | .reset => 4
  | .exe .ret => 4
  | .wait .stop => 1
  | .wait .get => 0
  | _ => s.cost + 5

/-- Inside `exe_handler` its own cost counts. -/
theorem left_of_inExe (h : s.pc.InExe) : s.left = s.cost + 5 := by
  unfold Sys.left
  cases hpc : s.pc with
  | top | switch | wait _ | reset =>
    rw [hpc] at h
    exact h.elim
  | exe p =>
    rw [hpc] at h
    cases p with
    | ret => exact h.elim
    | _ => rfl
  | rotate | col => rfl
  | msg c | put c o =>
    rw [hpc] at h
    cases c with
    | waitEnd => exact h.elim
    | turning | forward | loopEnd | finished | blocked => rfl

/-- Every statement brings the thread nearer to its queue. -/
theorem left_stmt (h : Stmt junk s s') (hclear : s.Unblocked) (ht : s.Tracks)
    (hget : s.pc ≠ .wait .get) : s'.left < s.left := by
  by_cases hin : s.pc.InExe
  · -- the handler has a measure of its own
    rw [left_of_inExe hin]
    rcases cost_stmt h ht hin fun _ => hclear.flag with hret | ⟨hin', hlt⟩
    · have hleft : s'.left = 4 := by rw [Sys.left, hret]
      omega
    · rw [left_of_inExe hin']
      omega
  unfold Sys.left
  cases h with
  | top hpc =>
    rw [hpc]
    show (match if s.blocked_flag then State.ST_COL else s.state with
      | .ST_EXE_CMD => s.entryCost + 20
      | .ST_RESET => 5
      | .ST_WAIT_CMD | .ST_COL => 2) < _
    rw [hclear.flag]
    cases s.state <;> simp
  | toWait hpc hstate | toReset hpc hstate =>
    rw [hpc, hstate]
    simp [Sys.goto]
  | toExe hpc hstate =>
    rw [hpc, hstate]
    show s.entryCost + 5 < s.entryCost + 20
    omega
  | waitStop hpc =>
    rw [hpc]
    exact Nat.zero_lt_one
  | waitMove hpc | waitReset hpc | waitGarbage hpc =>
    rw [hpc]
    show s.entryCost + 23 < s.entryCost + 25
    omega
  | waitDirect hpc | waitHalt hpc =>
    rw [hpc]
    exact Nat.lt_succ_self _
  | waitDrive hpc =>
    rw [hpc]
    exact Nat.lt_succ_self _
  | exeRet hpc | reset hpc =>
    rw [hpc]
    exact Nat.lt_succ_self 3
  | @msg c hpc =>
    rw [hpc] at hin ⊢
    cases c with
    | waitEnd => exact Nat.lt_succ_self _
    | blocked =>
      have hcol := hclear.pc
      rw [hpc] at hcol
      exact absurd trivial hcol
    | turning | forward | loopEnd | finished => exact absurd trivial hin
  | @put c _ hpc hc =>
    rw [hpc] at hin ⊢
    cases c with
    | waitEnd =>
      show (match s.state with
        | .ST_EXE_CMD => s.entryCost + 21
        | .ST_RESET => 6
        | .ST_WAIT_CMD | .ST_COL => 3) < s.entryCost + 22
      split <;> omega
    | blocked =>
      have hcol := hclear.pc
      rw [hpc] at hcol
      exact absurd trivial hcol
    | turning | forward | loopEnd | finished => exact absurd trivial hin
  | waitGet hpc => exact absurd hpc hget
  | toCol hpc hstate => exact absurd hstate hclear.state
  | colHigh hpc | colLow hpc | colStop hpc | colSleep hpc | colRet hpc =>
    have hcol := hclear.pc
    rw [hpc] at hcol
    exact absurd trivial hcol
  | exeBlocked hpc =>
    rcases hpc with hpc | hpc <;> rw [hpc] at hin <;> exact absurd trivial hin
  | _ hpc =>
    rw [hpc] at hin
    exact absurd trivial hin

/-- **The thread comes back to its queue.** -/
theorem waits (hclear : s.Unblocked) (htracks : s.Tracks) :
    CanReach quietStep s fun t => t.pc = .wait .get ∧ t.moves = s.moves ∧
      t.rx_pdu_fifo_g = s.rx_pdu_fifo_g ∧ t.Unblocked ∧ t.Tracks := by
  by_cases hget : s.pc = .wait .get
  · exact .refl ⟨hget, rfl, rfl, hclear, htracks⟩
  refine thread_leads_to (P := fun t => t.pc ≠ .wait .get ∧ t.moves = s.moves ∧
    t.rx_pdu_fifo_g = s.rx_pdu_fifo_g ∧ t.Unblocked ∧ t.Tracks) Sys.left ⟨0, 0⟩ (fun t ht => ht.1)
    (fun _ _ => ⟨trivial, trivial⟩) ?_ ?_ s ⟨hget, rfl, rfl, hclear, htracks⟩
  · rintro t tx ⟨hget, hmoves, hrx, hclear, htracks⟩
    exact ⟨⟨hget, hmoves, hrx, ⟨hclear.flag, hclear.state, hclear.pc⟩, htracks⟩, rfl⟩
  · rintro t t' ⟨hget, hmoves, hrx, hclear, htracks⟩ h
    have hkept : t'.moves = s.moves ∧ t'.rx_pdu_fifo_g = s.rx_pdu_fifo_g ∧ t'.Unblocked ∧
        t'.Tracks :=
      ⟨(moves_of_ne_get h hget).trans hmoves, (rx_stmt h hget).2.trans hrx, unblocked_stmt h hclear,
        tracks_stmt h htracks⟩
    by_cases hget' : t'.pc = .wait .get
    · exact .inl ⟨hget', hkept⟩
    · exact .inr ⟨⟨hget', hkept⟩, left_stmt h hclear htracks hget⟩

/-- **The queue is worked off.**  The induction is on the queue. -/
theorem works_off (hclear : s.Unblocked) (htracks : s.Tracks) :
    CanReach quietStep s fun t => t.pc = .wait .get ∧ t.rx_pdu_fifo_g = [] ∧
      t.moves = s.moves ++ s.queued := by
  induction hrx : s.rx_pdu_fifo_g generalizing s with
  | nil =>
    refine (waits hclear htracks).trans fun t ht => .refl ⟨ht.1, ht.2.2.1.trans hrx, ?_⟩
    rw [ht.2.1, Sys.queued, hrx]
    simp
  | cons p rest ih =>
    -- the thread comes back, takes the next command, and goes on from there
    apply (waits hclear htracks).trans
    rintro t ⟨hget, hmoves, hrx', hclear', htracks'⟩
    have hstep : controlThread ⟨0, 0⟩ t = some (({ t with
        rx_pdu := p
        rx_pdu_fifo_g := rest }.log (.got p)).goto (.wait .switch)) := by
      simp only [controlThread, hget, waitHandler, hrx', hrx]
    have hquiet : Quiet (.thread ⟨0, 0⟩) := trivial
    refine .cons (restrict_eq_some.mpr ⟨hquiet, hstep⟩) ?_
    have h := stmt_of_controlThread hstep
    have hmoves' : (t.log (.got p)).moves = s.moves ++ (moveDest p).toList := by
      rw [moves_log, hmoves]
      rfl
    obtain ⟨es, u, hes, hpc, hempty, hall⟩ :=
      ih (unblocked_stmt h hclear') (tracks_stmt h htracks') rfl
    refine ⟨es, u, hes, hpc, hempty, hall.trans ?_⟩
    show (t.log (.got p)).moves ++ rest.filterMap moveDest = _
    rw [hmoves', Sys.queued, hrx, List.append_assoc]
    cases hdest : moveDest p <;> simp [hdest]

/-- **Without an alert, every move is driven to its end.**  In every run in which U_ALERT stays
    low and the client asks for no destination twice in a row, whatever the other commands and
    the other threads: only the journey is recorded, and the thread can work off its queue; then
    the journey of all moves put is recorded, and the robot is at the last destination. -/
theorem quiet_journey (h : Reachable quietStep (boot false) s)
    (hdistinct : Distinct (s.moves ++ s.queued)) :
    s.records <+: journey origin (s.moves ++ s.queued) ∧
      CanReach quietStep s fun t => t.pc = .wait .get ∧ t.rx_pdu_fifo_g = [] ∧
        t.records = journey origin (s.moves ++ s.queued) ∧
        t.position_g = (s.moves ++ s.queued).getLastD origin := by
  obtain ⟨hsound, hclear, -⟩ := sound_of_quiet h (hdistinct.of_initial (List.prefix_append _ _))
  constructor
  · rw [journey_append]
    exact (journey_begun hsound).trans (List.prefix_append _ _)
  · obtain ⟨es, t, hes, hget, hrx, hmoves⟩ := works_off hclear (journeys_reachable hsound).tracks
    have ht := (sound_of_quiet (h.exec es hes) (hmoves ▸ hdistinct)).1
    have harrived := arrived_of_get ht hget
    refine ⟨es, t, hes, hget, hrx, ?_⟩
    rw [← hmoves]
    exact ⟨harrived.records, harrived.position⟩

/-- Two moves, the second one put while the first is driven. -/
def twoMoves : Option Sys :=
  exec quietStep (boot false) (.command { Pdu.zeroed with y := 1 } ::
    (List.replicate 20 (.thread ⟨7, 7⟩) ++ [.command { Pdu.zeroed with x := 1 }]))

/-- Both are driven, one after the other. -/
theorem quiet_journey_two :
    ∃ s : Sys, Reachable quietStep (boot false) s ∧ s.moves ++ s.queued = [⟨0, 1⟩, ⟨1, 0⟩] ∧
      CanReach quietStep s fun t => t.position_g = ⟨1, 0⟩ := by
  have hrun : twoMoves = some (twoMoves.get (by decide +kernel)) := (Option.some_get _).symm
  have hmoves : (twoMoves.get (by decide +kernel)).moves
      ++ (twoMoves.get (by decide +kernel)).queued = [⟨0, 1⟩, ⟨1, 0⟩] := by decide +kernel
  have hreach := Reachable.exec _ .init hrun
  obtain ⟨-, es, t, hes, -, -, -, hposition⟩ := quiet_journey hreach (hmoves ▸ by decide)
  rw [hmoves] at hposition
  exact ⟨_, hreach, hmoves, es, t, hes, hposition⟩

end Wheelson.Control
