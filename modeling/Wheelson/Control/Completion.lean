import Wheelson.Control.Heed

namespace Wheelson.Control

/-!
# One completion for a command

`col_handler` always hands over to `exe_handler`, with the command that is still in `rx_pdu`,
finished or not.

* `Sys.completions` — how often `exe_handler` has reached its end since the last command was
  taken.
* `Sys.Restarts` — the handler is entered for a command that it has finished.
* `Sys.Reopens` — an alert that rises now is not seen before the handler ends, or has ended,
  and hands the finished command over again.
* `Sys.Once` — what the count can be at each statement, as long as the alert rises elsewhere.
* `restarts_of_reopens` — from every state that reopens, an alert can make the handler start the
  finished command again, and `completes_twice`, that it then completes a second time.
* `once_iff` — hence a command completes at most once exactly when the alert rises in no such
  state, and exactly when no finished command is started again.
-/

open Machine Ipc MotorCmd

variable {s s' : Sys} {a : Act} {junk : Pos}

/-! ### The count and the window -/

/-- A command taken starts the count again. -/
def Obs.tally : ℕ → Obs → ℕ
  | _, .got _ => 0
  | n, .finished => n + 1
  | n, .motor _ _ | n, .edge _ | n, .position _ => n

/-- The ends of `exe_handler` since the last command was taken. -/
def Sys.completions (s : Sys) : ℕ := s.trace.foldl Obs.tally 0

/-- The command taken last has completed at most once. -/
def Sys.CompletesOnce (s : Sys) : Prop := s.Taken → s.completions ≤ 1

/-- The handler is entered for a command that it has finished. -/
def Sys.Restarts (s : Sys) : Prop := s.Taken ∧ s.completions ≠ 0 ∧ s.pc = .exe .entry

/-- The handler ends, or has ended `n` times, before it tests `blocked_flag` again. -/
def ReopensAt (n : ℕ) (cmd : UInt8) (done : Bool) : Pc → Prop
  | .exe .move => cmd ≠ PDU_MOVE
  | .exe .other | .msg .finished | .put .finished _ | .exe .ret => True
  | .msg .forward | .put .forward _ | .exe .forw | .exe .sleep | .exe .stop | .exe .change
  | .msg .loopEnd | .put .loopEnd _ | .exe .loop => done = true
  | .top => n ≠ 0
  | _ => False

def Sys.Reopens (s : Sys) : Prop :=
  s.Taken ∧ ReopensAt s.completions s.rx_pdu.cmd s.exe.done s.pc

/-! ### The alert rises elsewhere -/

/-- The count `n` at a statement. -/
def OnceAt (n : ℕ) (flag : Bool) (state : State) (cmd : UInt8) (done : Bool) : Pc → Prop
  | .top => n ≤ 1 ∧ (n ≠ 0 → flag = false ∧ state = .ST_WAIT_CMD)
  | .switch => n ≤ 1 ∧ (n ≠ 0 → state = .ST_WAIT_CMD)
  | .wait .stop | .wait .get => n ≤ 1
  | .exe .move => n = 0 ∧ (cmd ≠ PDU_MOVE → flag = false)
  | .exe .other | .msg .finished | .put .finished _ => n = 0 ∧ flag = false
  | .msg .forward | .put .forward _ | .exe .forw | .exe .sleep | .exe .stop | .exe .change
  | .msg .loopEnd | .put .loopEnd _ | .exe .loop => n = 0 ∧ (done = true → flag = false)
  | .exe .ret => n ≤ 1 ∧ flag = false
  | _ => n = 0

def Sys.Once (s : Sys) : Prop :=
  OnceAt s.completions s.blocked_flag s.state s.rx_pdu.cmd s.exe.done s.pc

theorem completions_stmt (h : Stmt junk s s') :
    s'.completions = s.logs.foldl Obs.tally s.completions := by
  unfold Sys.completions
  rw [trace_stmt h, List.foldl_append]

theorem completions_of_finish {out_pdu : OutPdu} (h : Stmt junk s s')
    (hpc : s.pc = .put .finished out_pdu) : s'.completions = s.completions + 1 := by
  rw [completions_stmt h, Sys.logs, hpc]
  rfl

/-- The other statements do not count, as long as no command is taken. -/
theorem completions_of_other (h : Stmt junk s s') (hget : s.pc ≠ .wait .get)
    (hfin : ∀ out_pdu, s.pc ≠ .put .finished out_pdu) : s'.completions = s.completions := by
  rw [completions_stmt h]
  unfold Sys.logs
  split
  case h_7 hpc => exact absurd hpc hget
  case h_12 hpc => exact absurd hpc (hfin _)
  all_goals rfl

theorem once_stmt (h : Stmt junk s s') (hget : s.pc ≠ .wait .get) (hs : s.Once) : s'.Once := by
  unfold Sys.Once OnceAt at hs
  unfold Sys.Once
  by_cases hfin : ∃ out_pdu, s.pc = .put .finished out_pdu
  · -- the first completion
    obtain ⟨out_pdu, hpc⟩ := hfin
    rw [hpc] at hs
    rw [completions_of_finish h hpc, hs.1, finish_stmt h hpc]
    exact ⟨le_rfl, hs.2⟩
  rw [not_exists] at hfin
  rw [completions_of_other h hget hfin]
  cases h with
  | top hpc =>
    rw [hpc] at hs
    refine ⟨hs.1, fun hne => ?_⟩
    obtain ⟨hflag, hstate⟩ := hs.2 hne
    show (if s.blocked_flag then State.ST_COL else s.state) = State.ST_WAIT_CMD
    rw [hflag]
    exact hstate
  | toWait hpc =>
    rw [hpc] at hs
    exact hs.1
  | toExe hpc hstate | toCol hpc hstate | toReset hpc hstate =>
    rw [hpc] at hs
    -- after a completion the thread is in `wait_handler`
    by_contra hne
    have hwait := hs.2 hne
    rw [hstate] at hwait
    cases hwait
  | waitGet hpc => exact absurd hpc hget
  | waitStop hpc | waitMove hpc | waitReset hpc | waitDirect hpc | waitHalt hpc | waitGarbage hpc
  | waitDrive hpc | exeEntry hpc | exeArrived hpc | exeNext hpc | exeHeading hpc | exeForw hpc
  | exeSleep hpc | exeStop hpc | exeChange hpc | rotReject hpc | rotAccept hpc | rotStop hpc
  | rotLoop hpc | rotEnd hpc | rotTurn hpc | rotSleep hpc | rotHalt hpc | rotUpdate hpc
  | colHigh hpc | colLow hpc | colStop hpc | colSleep hpc =>
    rw [hpc] at hs
    exact hs
  | exeBlocked hpc =>
    have hzero : s.completions = 0 := by
      rcases hpc with hpc | hpc <;> rw [hpc] at hs <;> exact hs
    rw [hzero]
    exact ⟨Nat.zero_le _, fun hne => absurd rfl hne⟩
  | exeTest hpc hb | exeRetest hpc hb =>
    rw [hpc] at hs
    exact ⟨hs, fun _ => hb⟩
  | exeNoMove hpc hcmd =>
    rw [hpc] at hs
    exact ⟨hs.1, hs.2 hcmd⟩
  | exeOther hpc =>
    rw [hpc] at hs
    exact ⟨hs.1, fun _ => hs.2⟩
  | exeDone hpc hdone =>
    rw [hpc] at hs
    exact ⟨hs.1, hs.2 hdone⟩
  | exeMove hpc | exeAgain hpc =>
    rw [hpc] at hs
    exact hs.1
  | exeRet hpc =>
    rw [hpc] at hs
    exact ⟨hs.1, fun _ => ⟨hs.2, rfl⟩⟩
  | colRet hpc | reset hpc =>
    rw [hpc] at hs
    rw [show s.completions = 0 from hs]
    exact ⟨Nat.zero_le _, fun hne => absurd rfl hne⟩
  | @msg c hpc =>
    rw [hpc] at hs
    cases c <;> exact hs
  | @put c _ hpc hc =>
    rw [hpc] at hs
    cases c with
    | finished => exact absurd rfl hc
    | waitEnd =>
      rw [show s.completions = 0 from hs]
      exact ⟨Nat.zero_le _, fun hne => absurd rfl hne⟩
    | turning | forward | loopEnd | blocked => exact hs
  | finish hpc => exact absurd hpc (hfin _)

theorem OnceAt.le_one {n : ℕ} {flag done : Bool} {state : State} {cmd : UInt8} {pc : Pc}
    (h : OnceAt n flag state cmd done pc) : n ≤ 1 := by
  unfold OnceAt at h
  split at h <;> omega

theorem OnceAt.fall {n : ℕ} {flag done : Bool} {state : State} {cmd : UInt8} {pc : Pc}
    (h : OnceAt n flag state cmd done pc) : OnceAt n false state cmd done pc := by
  unfold OnceAt at h
  split at h <;> simp_all [OnceAt]

theorem OnceAt.rise {n : ℕ} {flag done : Bool} {state : State} {cmd : UInt8} {pc : Pc}
    (h : OnceAt n flag state cmd done pc) (hw : ¬ ReopensAt n cmd done pc) :
    OnceAt n true state cmd done pc := by
  unfold OnceAt at h
  split at h <;> simp_all [OnceAt, ReopensAt]

theorem completions_edge : s.fall.completions = s.completions ∧
    s.rise.completions = s.completions := by
  simp [Sys.completions, Sys.fall, Sys.rise, Sys.log, sendMotorCmd, Obs.tally]

/-- **Step rule.** -/
theorem once_step (hs : s.Taken → s.Once) (hok : RisesIn (fun s => ¬ s.Reopens) s a)
    (h : Step s a s') : s'.Taken → s'.Once := by
  intro htaken
  cases h with
  | thread h =>
    by_cases hget : s.pc = .wait .get
    · -- the count starts again
      have hn := completions_stmt h
      obtain ⟨p, rest, hrx, rfl⟩ := get_stmt h hget
      unfold Sys.logs at hn
      rw [hget, hrx] at hn
      exact hn
    · exact once_stmt h hget (hs ((taken_stmt h hget).mp htaken))
  | fall =>
    unfold Sys.Once
    rw [completions_edge.1]
    exact (hs (taken_fall.mp htaken)).fall
  | rise hpin =>
    unfold Sys.Once
    rw [completions_edge.2]
    rw [taken_rise] at htaken
    exact (hs htaken).rise fun hw => hok rfl hpin ⟨htaken, hw⟩
  | command | sensor | drain => exact hs htaken

theorem once_boot (pin : Bool) : (boot pin).Taken → (boot pin).Once :=
  fun ⟨_, hp⟩ => absurd hp List.not_mem_nil

/-! ### The alert rises in the window -/

/-- Until the next command is taken, the count does not fall, and the end of the handler adds
    to it. -/
theorem completions_mono (h : Stmt junk s s') (hget : s.pc ≠ .wait .get) :
    s.completions ≤ s'.completions ∧ (s'.pc = .exe .ret → s.completions < s'.completions) := by
  by_cases hfin : ∃ out_pdu, s.pc = .put .finished out_pdu
  · obtain ⟨out_pdu, hpc⟩ := hfin
    rw [completions_of_finish h hpc]
    exact ⟨Nat.le_succ _, fun _ => Nat.lt_succ_self _⟩
  rw [not_exists] at hfin
  refine ⟨(completions_of_other h hget hfin).ge, fun hret => ?_⟩
  -- only the last message leads to the end
  cases h with
  | finish hpc => exact absurd hpc (hfin _)
  | @put c _ hpc hc =>
    cases c with
    | finished => exact absurd rfl hc
    | waitEnd | turning | forward | loopEnd | blocked => cases hret
  | _ => cases hret

theorem ReopensAt.cases {n : ℕ} {cmd : UInt8} {done : Bool} {pc : Pc}
    (h : ReopensAt n cmd done pc) : pc.InExe ∨ pc = .exe .ret ∨ pc = .top ∧ n ≠ 0 := by
  unfold ReopensAt at h
  split at h <;> simp_all [Pc.InExe]

/-- Inside the handler, the window ends with it. -/
theorem reopens_stmt (h : Stmt junk s s') (hin : s.pc.InExe)
    (hs : ReopensAt s.completions s.rx_pdu.cmd s.exe.done s.pc) :
    s'.pc = .exe .ret ∨ ReopensAt s'.completions s'.rx_pdu.cmd s'.exe.done s'.pc := by
  unfold ReopensAt at hs
  cases h with
  | exeMove hpc hcmd =>
    rw [hpc] at hs
    exact absurd hcmd hs
  | exeNoMove hpc => exact .inr trivial
  | exeForw hpc | exeSleep hpc | exeStop hpc | exeChange hpc =>
    rw [hpc] at hs
    exact .inr hs
  | exeOther hpc => exact .inr rfl
  | exeDone hpc => exact .inr trivial
  | exeAgain hpc hdone =>
    rw [hpc] at hs
    rw [hdone] at hs
    cases hs
  | finish hpc => exact .inl rfl
  | exeRet hpc =>
    rw [hpc] at hin
    exact hin.elim
  | exeBlocked hpc => rcases hpc with hpc | hpc <;> rw [hpc] at hs <;> exact hs.elim
  | @msg c hpc | @put c _ hpc =>
    rw [hpc] at hs
    cases c with
    | waitEnd | turning | blocked => exact hs.elim
    | forward | loopEnd => exact .inr hs
    | finished => exact .inr trivial
  | top hpc =>
    rw [hpc] at hin
    exact hin.elim
  | _ hpc =>
    rw [hpc] at hs
    exact hs.elim

section rises

variable {ok : Sys → Act → Prop} [∀ s a, Decidable (ok s a)]

/-- The command has completed, and an alert is on. -/
def Sys.Finished (s : Sys) : Prop :=
  s.Taken ∧ s.completions ≠ 0 ∧ s.blocked_flag = true ∧ s.u_alert = true

/-- An alert that is not seen in time finds the handler ended. -/
theorem finished_of_reopens (hok : Permits ok) (ht : s.Tracks) (hin : s.pc.InExe)
    (hs : s.Reopens) (hflag : s.blocked_flag = true) (hpin : s.u_alert = true) :
    CanReach (restrict ok step) s fun t => t.pc = .exe .ret ∧ t.Finished := by
  refine thread_leads_to (P := fun t => t.Tracks ∧ t.pc.InExe ∧ t.Reopens ∧
    t.blocked_flag = true ∧ t.u_alert = true) Sys.cost ⟨0, 0⟩ ?_
    (fun t _ => ⟨hok.thread _ _, hok.drain _⟩) (fun _ _ ht => ⟨ht, rfl⟩) ?_ s
    ⟨ht, hin, hs, hflag, hpin⟩
  · exact fun t ht => inExe_get ht.2.1
  · rintro t t' ⟨ht, hin, ⟨htaken, hw⟩, hflag, hpin⟩ h
    have htaken' := (taken_stmt h (inExe_get hin)).mpr htaken
    have hflag' := (flag_stmt h).trans hflag
    have hpin' := (pin_stmt h).trans hpin
    have hcost := cost_stmt h ht hin fun htest => by
      rcases htest with hpc | hpc <;> rw [hpc] at hw <;> exact hw.elim
    by_cases hret : t'.pc = .exe .ret
    -- the last message is the completion
    · have hmore := (completions_mono h (inExe_get hin)).2 hret
      exact .inl ⟨hret, htaken', by omega, hflag', hpin'⟩
    · obtain ⟨hin', hlt⟩ := hcost.resolve_left hret
      have hw' := (reopens_stmt h hin hw).resolve_left hret
      exact .inr ⟨⟨tracks_stmt h ht, hin', ⟨htaken', hw'⟩, hflag', hpin'⟩, hlt⟩

/-- A finished command that an alert hands over is started again. -/
theorem restarts_of_finished (hok : Permits ok) (hpc : s.pc = .top) (hs : s.Finished) :
    CanReach (restrict ok step) s fun t => t.Restarts ∧ t.blocked_flag = false := by
  obtain ⟨htaken, hn, hflag, hpin⟩ := hs
  refine (resumes_of_blocked hok hpc hflag hpin).trans ?_
  rintro t rfl
  exact .refl ⟨⟨taken_fall.mpr htaken, completions_edge.1.trans_ne hn, rfl⟩, rfl⟩

/-- The handler, ended under an alert, is entered again. -/
theorem restarts_of_ret (hok : Permits ok) (hpc : s.pc = .exe .ret) (hs : s.Finished) :
    CanReach (restrict ok step) s fun t => t.Restarts ∧ t.blocked_flag = false := by
  have h : controlThread ⟨0, 0⟩ s = some (exeHandler ⟨0, 0⟩ s .ret) := by
    simp only [controlThread, hpc]
  exact .cons (restrict_eq_some.mpr ⟨hok.thread _ _, h⟩) (restarts_of_finished hok rfl hs)

/-- A finished command that is started again completes again. -/
theorem completes_twice (hok : Permits ok) (hs : s.Restarts) (hflag : s.blocked_flag = false) :
    CanReach (restrict ok step) s fun t => ¬ t.CompletesOnce := by
  obtain ⟨htaken, hn, hpc⟩ := hs
  have htracks : s.Tracks := by
    unfold Sys.Tracks
    rw [hpc]
    trivial
  let J (t : Sys) : Prop :=
    t.Taken ∧ t.completions ≠ 0 ∧ (t.pc = .exe .ret → 1 < t.completions)
  have hJ (u u' : Sys) (hin : u.pc.InExe) (hu : J u) (h : Stmt ⟨0, 0⟩ u u') : J u' := by
    obtain ⟨htaken, hn, -⟩ := hu
    obtain ⟨hle, hlt⟩ := completions_mono h (inExe_get hin)
    refine ⟨(taken_stmt h (inExe_get hin)).mpr htaken, by omega, fun hret => ?_⟩
    have := hlt hret
    omega
  have hstart : J s := by
    refine ⟨htaken, hn, fun hret => ?_⟩
    cases hpc.symm.trans hret
  have hrun : CanReach (restrict ok step) s fun t => t.pc = .exe .ret ∧ J t :=
    exe_ends (fun _ _ => ⟨hok.thread _ _, hok.drain _⟩) (fun _ _ h => h) hJ hflag htracks
      (hpc ▸ trivial) hstart
  -- the second completion is at the end of the handler
  refine hrun.trans ?_
  rintro t ⟨hret, htaken, -, htwo⟩
  refine .refl fun honce => ?_
  have hle := honce htaken
  have hlt := htwo hret
  omega

/-- The handler has ended at its last statement. -/
def Sys.Counted (s : Sys) : Prop := s.Tracks ∧ (s.pc = .exe .ret → s.completions ≠ 0)

theorem counted_step (hs : s.Counted) (h : Step s a s') : s'.Counted := by
  refine ⟨tracks_step hs.1 h, ?_⟩
  cases h with
  | thread h =>
    intro hret
    by_cases hget : s.pc = .wait .get
    · obtain ⟨p, rest, -, rfl⟩ := get_stmt h hget
      cases hret
    · have hlt := (completions_mono h hget).2 hret
      omega
  | fall =>
    rw [completions_edge.1]
    exact hs.2
  | rise =>
    rw [completions_edge.2]
    exact hs.2
  | command | sensor | drain => exact hs.2

/-- **A rise in the window can start the command again.** -/
theorem restarts_of_reopens (hok : Permits ok) (hc : s.Counted) (hs : s.Reopens) :
    CanReach (restrict ok step) s.rise fun t => t.Restarts ∧ t.blocked_flag = false := by
  obtain ⟨htaken, hw⟩ := hs
  have htaken' := taken_rise.mpr htaken
  have hw' : ReopensAt s.rise.completions s.rx_pdu.cmd s.exe.done s.pc := by
    rw [completions_edge.2]
    exact hw
  -- in the handler, at its last statement, or at the loop top
  rcases hw'.cases with hin | hret | ⟨htop, hn⟩
  · refine (finished_of_reopens (s := s.rise) hok hc.1 hin ⟨htaken', hw'⟩ rfl rfl).trans ?_
    rintro t ⟨hret, hfin⟩
    exact restarts_of_ret hok hret hfin
  · -- it has ended already
    have hn : s.rise.completions ≠ 0 := completions_edge.2.trans_ne (hc.2 hret)
    exact restarts_of_ret hok hret ⟨htaken', hn, rfl, rfl⟩
  · exact restarts_of_finished hok htop ⟨htaken', hn, rfl, rfl⟩

end rises

section window

variable {ok : Sys → Prop} [DecidablePred ok] {pin : Bool}

/-- The alert does rise there. -/
theorem restarts_reachable (h : Reachable (restrict (RisesIn ok) step) (boot pin) s)
    (hpin : s.u_alert = false) (hok : ok s) (hs : s.Reopens) :
    ∃ t, Reachable (restrict (RisesIn ok) step) (boot pin) t ∧ t.Restarts ∧
      t.blocked_flag = false := by
  have hc : s.Counted := by
    refine h.invariant (I := Sys.Counted) ⟨tracks_boot pin, nofun⟩ ?_
    intro s a s' hs h
    exact counted_step hs (step_cases (restrict_eq_some.mp h).2)
  have hrise : restrict (RisesIn ok) step s .edge = some s.rise :=
    restrict_eq_some.mpr ⟨fun _ _ => hok, congrArg some (edge_of_low hpin)⟩
  exact (h.step hrise).canReach (restarts_of_reopens (permits_risesIn ok) hc hs)

/-- **Run rule.** -/
theorem once_reachable (hguard : ∀ s, Reachable (restrict (RisesIn ok) step) (boot pin) s →
      s.u_alert = false → ok s → ¬ s.Reopens)
    (h : Reachable (restrict (RisesIn ok) step) (boot pin) s) : s.Taken → s.Once := by
  induction h with
  | init => exact once_boot pin
  | step hs he ih =>
    obtain ⟨hok, hstep⟩ := restrict_eq_some.mp he
    exact once_step ih (fun ha hpin => hguard _ hs hpin (hok ha hpin)) (step_cases hstep)

theorem not_restarts_of_once (hs : s.Taken → s.Once) : ¬ s.Restarts := by
  rintro ⟨htaken, hn, hpc⟩
  have honce := hs htaken
  rw [Sys.Once, hpc] at honce
  exact hn honce

end window

/-- **One completion for a command if and only if the alert rises in no window.**  For every
    set of states in which U_ALERT may rise, every command completes at most once in all runs
    exactly when no reached state of the set, with the pin low, reopens its command; and exactly
    when the handler is entered in no run for a command that it has finished. -/
theorem once_iff (ok : Sys → Prop) [DecidablePred ok] (pin : Bool) :
    ((∀ s, Reachable (restrict (RisesIn ok) step) (boot pin) s → s.CompletesOnce) ↔
      ∀ s, Reachable (restrict (RisesIn ok) step) (boot pin) s → s.u_alert = false → ok s →
        ¬ s.Reopens) ∧
    ((∀ s, Reachable (restrict (RisesIn ok) step) (boot pin) s → s.CompletesOnce) ↔
      ∀ s, Reachable (restrict (RisesIn ok) step) (boot pin) s → ¬ s.Restarts) := by
  have hguarded (honce : ∀ s, Reachable (restrict (RisesIn ok) step) (boot pin) s →
      s.CompletesOnce) (s : Sys) (hs : Reachable (restrict (RisesIn ok) step) (boot pin) s)
      (hpin : s.u_alert = false) (hok : ok s) : ¬ s.Reopens := by
    intro hw
    obtain ⟨t, ht, hrestarts, hflag⟩ := restarts_reachable hs hpin hok hw
    obtain ⟨u, hu, hnot⟩ := ht.canReach (completes_twice (permits_risesIn ok) hrestarts hflag)
    exact hnot (honce u hu)
  refine ⟨⟨hguarded, fun hguard s hs htaken => (once_reachable hguard hs htaken).le_one⟩,
    fun honce s hs => not_restarts_of_once (once_reachable (hguarded honce) hs),
    fun hrestarts s hs htaken => (once_reachable ?_ hs htaken).le_one⟩
  intro s hs hpin hok hw
  obtain ⟨t, ht, hagain, -⟩ := restarts_reachable hs hpin hok hw
  exact hrestarts t ht hagain

/-- A `PDU_MOVE` to the cell where the robot stands; the alert rises as it is done, and ends. -/
def againRun : List Act :=
  .command .zeroed :: List.replicate 27 (.thread ⟨0, 0⟩) ++
    .edge :: List.replicate 4 (.thread ⟨0, 0⟩) ++ .edge :: List.replicate 23 (.thread ⟨0, 0⟩)

/-- **A finished move is started again.** -/
theorem completes_more_than_once :
    ¬ ∀ pin s, Reachable step (boot pin) s → s.CompletesOnce := by
  intro honce
  obtain ⟨s, hs⟩ : ∃ s, exec step (boot false) againRun = some s := ⟨_, rfl⟩
  have hreach := Reachable.exec againRun .init hs
  cases hs
  have hle := honce false _ hreach (by decide)
  revert hle
  decide

end Wheelson.Control
