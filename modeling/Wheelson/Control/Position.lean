import Wheelson.Control.Move

namespace Wheelson.Control

/-!
# What is recorded as the position

`exe_handler` passes `next_x` and `next_y` to `change_position`, and leaves them unassigned
when it is entered at the destination.

* `Sys.RecordsStep` — what is written next is the position, or a step from it towards the
  destination.
* `Sys.Kept` — at the destination `next_x` and `next_y` hold the position, statement by
  statement, as long as the handler is not entered there.
* `junk_recorded` — entered there, it can record anything.
* `records_iff` — hence the records are sound exactly when it is never entered there.
-/

open Machine Ipc MotorCmd

variable {s s' : Sys} {a : Act} {junk : Pos}

/-! ### The property and the condition -/

/-- The next statement records the position or a step towards the destination, if anything. -/
def Sys.RecordsStep (s : Sys) : Prop :=
  ∀ junk s' p, controlThread junk s = some s' → s'.trace = s.trace ++ [.position p] →
    p = s.position_g ∨ StepTowards s.position_g p s.target

/-- `exe_handler` is entered for a move whose destination is the position. -/
def Sys.EntersAtTarget (s : Sys) : Prop :=
  s.pc = .exe .entry ∧ s.rx_pdu.cmd = PDU_MOVE ∧ s.position_g = s.target

/-- `exe_handler` is entered only in states of `ok`. -/
def EntersIn (ok : Sys → Prop) (s : Sys) : Act → Prop
  | .thread _ => s.pc = .exe .entry → ok s
  | _ => True

instance (ok : Sys → Prop) [DecidablePred ok] (s : Sys) (a : Act) : Decidable (EntersIn ok s a) :=
  match a with
  | .thread _ => inferInstanceAs (Decidable (_ → _))
  | .edge | .command _ | .sensor _ | .drain => .isTrue trivial

/-! ### Not entered at the destination -/

/-- At the destination `next_x` and `next_y` hold the position. -/
def Sys.Kept (s : Sys) : Prop :=
  match s.pc with
  | .exe .test | .exe .move =>
    s.rx_pdu.cmd = PDU_MOVE → s.position_g = s.target → s.exe.next = s.position_g
  | .exe .arrived | .exe .next | .exe .heading | .rotate _ | .msg .turning | .put .turning _
  | .exe .retest | .msg .forward | .put .forward _ | .exe .forw | .exe .sleep | .exe .stop
  | .exe .change => s.position_g = s.target → s.exe.next = s.position_g
  | .msg .loopEnd | .put .loopEnd _ | .exe .loop =>
    s.rx_pdu.cmd = PDU_MOVE → s.exe.next = s.position_g
  | _ => True

theorem kept_stmt (h : Stmt junk s s') (hentry : ¬ s.EntersAtTarget) (ht : s.Tracks)
    (hs : s.Kept) : s'.Kept := by
  unfold Sys.Tracks at ht
  unfold Sys.Kept at hs
  cases h with
  | exeEntry hpc => exact fun hcmd harrived => absurd ⟨hpc, hcmd, harrived⟩ hentry
  | exeMove hpc hcmd =>
    rw [hpc] at hs
    exact hs hcmd
  | exeNext hpc =>
    rw [hpc] at hs ht
    intro harrived
    show (calcNextCoord s.exe.new_x s.exe.new_y s.position_g s.exe.next).2 = s.position_g
    have harrived : s.position_g = s.target := harrived
    rw [ht.1.1, ht.1.2, ← harrived, calcNextCoord_arrived]
    exact hs harrived
  | exeChange hpc => exact fun _ => rfl
  | exeOther hpc =>
    rw [hpc] at ht
    exact fun hcmd => absurd hcmd ht.2
  | exeAgain hpc =>
    rw [hpc] at hs
    exact fun hcmd _ => hs hcmd
  | exeTest hpc | exeArrived hpc | exeHeading hpc | rotReject hpc | rotAccept hpc | rotStop hpc
  | rotLoop hpc | rotEnd hpc | rotTurn hpc | rotSleep hpc | rotHalt hpc | rotUpdate hpc
  | exeRetest hpc | exeForw hpc | exeSleep hpc | exeStop hpc =>
    rw [hpc] at hs
    exact hs
  | @msg c hpc | @put c _ hpc =>
    rw [hpc] at hs
    cases c <;> exact hs
  | _ => trivial

theorem records_of_kept (ht : s.Tracks) (hs : s.Kept) : s.RecordsStep := by
  intro junk s' p h htrace
  rw [trace_stmt (stmt_of_controlThread h), List.append_cancel_left_eq] at htrace
  obtain ⟨hpc, rfl⟩ := change_of_logs (p := p) (htrace ▸ List.mem_singleton_self _)
  unfold Sys.Tracks at ht
  unfold Sys.Kept at hs
  rw [hpc] at ht hs
  -- the record is kept at the destination, and a step towards it elsewhere
  by_cases harrived : s.position_g = s.target
  · exact .inl (hs harrived)
  · exact .inr (ht.1.2 harrived)

/-! ### Entered at the destination -/

/-- A run with `next_x` and `next_y` as the stack left them, from the first statement after
    the entry to the record. -/
def Sys.Junked (s : Sys) : Prop :=
  s.position_g = s.target ∧ s.exe.next ≠ s.position_g ∧
    match s.pc with
    | .exe .test | .exe .move => s.rx_pdu.cmd = PDU_MOVE
    | .exe .arrived | .exe .next | .exe .heading | .rotate .check | .exe .retest
    | .msg .forward | .put .forward _ | .exe .forw | .exe .sleep | .exe .stop | .exe .change => True
    | _ => False

theorem junked_stmt (h : Stmt junk s s') (hflag : s.blocked_flag = false)
    (hchange : s.pc ≠ .exe .change) (ht : s.Tracks) (hs : s.Junked) : s'.Junked := by
  obtain ⟨harrived, hnext, hpath⟩ := hs
  unfold Sys.Tracks at ht
  cases h with
  | exeTest hpc =>
    rw [hpc] at hpath
    exact ⟨harrived, hnext, hpath⟩
  | exeNoMove hpc hcmd =>
    rw [hpc] at hpath
    exact absurd hpath hcmd
  | exeNext hpc =>
    rw [hpc] at ht
    refine ⟨harrived, ?_, trivial⟩
    show (calcNextCoord s.exe.new_x s.exe.new_y s.position_g s.exe.next).2 ≠ s.position_g
    rw [ht.1.1, ht.1.2, ← harrived, calcNextCoord_arrived]
    exact hnext
  | rotAccept hpc hrange =>
    -- the heading at the destination is rejected
    rw [hpc] at ht
    have hheading := ht.2
    rw [← harrived, calcHeading_arrived] at hheading
    omega
  | exeBlocked hpc hb =>
    rw [hflag] at hb
    cases hb
  | exeChange hpc => exact absurd hpc hchange
  | exeMove hpc | exeArrived hpc | exeHeading hpc | rotReject hpc | exeRetest hpc
  | exeForw hpc | exeSleep hpc | exeStop hpc => exact ⟨harrived, hnext, trivial⟩
  | @msg c hpc | @put c _ hpc =>
    rw [hpc] at hpath
    cases c with
    | forward => exact ⟨harrived, hnext, trivial⟩
    | waitEnd | turning | loopEnd | finished | blocked => exact hpath.elim
  | _ hpc =>
    rw [hpc] at hpath
    exact hpath.elim

theorem Sys.Junked.inExe (h : s.Junked) : s.pc.InExe := by
  obtain ⟨-, -, hpath⟩ := h
  split at hpath
  all_goals simp_all [Pc.InExe]

/-- **Anything can be recorded.**  Whatever the stack holds there. -/
theorem junk_recorded {ok : Sys → Prop} [DecidablePred ok] (hok : ok s) (hs : s.EntersAtTarget)
    (hpin : s.blocked_flag = true → s.u_alert = true) (hjunk : junk ≠ s.position_g) :
    CanReach (restrict (EntersIn ok) step) s fun t => t.pc = .exe .change ∧ t.Junked := by
  obtain ⟨hpc, hcmd, harrived⟩ := hs
  -- from the first test on, unblocked, the handler goes on to the record
  have hrun (t : Sys) (ht : t.blocked_flag = false ∧ t.Tracks ∧ t.Junked) :
      CanReach (restrict (EntersIn ok) step) t fun t => t.pc = .exe .change ∧ t.Junked := by
    by_cases hchange : t.pc = .exe .change
    · exact .refl ⟨hchange, ht.2.2⟩
    refine thread_leads_to
      (P := fun t => t.blocked_flag = false ∧ t.Tracks ∧ t.Junked ∧ t.pc ≠ .exe .change)
      Sys.cost ⟨0, 0⟩ ?_ ?_ (fun _ _ ht => ⟨ht, rfl⟩) ?_ t ⟨ht.1, ht.2.1, ht.2.2, hchange⟩
    · exact fun t ht => inExe_get ht.2.2.1.inExe
    · rintro t ⟨-, -, hj, -⟩
      refine ⟨fun hentry => ?_, trivial⟩
      have hpath := hj.2.2
      rw [hentry] at hpath
      exact hpath.elim
    · rintro t t' ⟨hflag, ht, hj, hchange⟩ h
      have hj' := junked_stmt h hflag hchange ht hj
      by_cases hchange' : t'.pc = .exe .change
      · exact .inl ⟨hchange', hj'⟩
      · right
        obtain hret | ⟨-, hlt⟩ := cost_stmt h ht hj.inExe fun _ => hflag
        · have hin := hj'.inExe
          rw [hret] at hin
          exact hin.elim
        · exact ⟨⟨(flag_stmt h).trans hflag, tracks_stmt h ht, hj', hchange'⟩, hlt⟩
  have hentry : restrict (EntersIn ok) step s (.thread junk) = some (exeHandler junk s .entry) := by
    refine restrict_eq_some.mpr ⟨fun _ => hok, ?_⟩
    show controlThread junk s = _
    simp only [controlThread, hpc]
  refine .cons hentry ?_
  cases hflag : s.blocked_flag with
  | false => exact hrun _ ⟨hflag, ⟨⟨rfl, rfl⟩, rfl⟩, harrived, hjunk, hcmd⟩
  | true =>
    -- the alert ends first
    have hedge : restrict (EntersIn ok) step (exeHandler junk s .entry) .edge =
        some (exeHandler junk s .entry).fall :=
      restrict_eq_some.mpr ⟨trivial, congrArg some (edge_of_high (hpin hflag))⟩
    refine .cons hedge ?_
    exact hrun _ ⟨rfl, ⟨⟨rfl, rfl⟩, rfl⟩, harrived, hjunk, hcmd⟩

section entries

variable (ok : Sys → Prop) [DecidablePred ok]

/-- **The records are sound if and only if no move starts at its destination.**  For every set
    of states in which `exe_handler` may be entered, all records are the position or a step
    towards the destination exactly when no reached state of the set enters it for a move to
    the position. -/
theorem records_iff (pin : Bool) :
    (∀ s, Reachable (restrict (EntersIn ok) step) (boot pin) s → s.RecordsStep) ↔
      ∀ s, Reachable (restrict (EntersIn ok) step) (boot pin) s → ok s → ¬ s.EntersAtTarget := by
  constructor
  · -- a neighbour of the destination is recorded
    intro hrecords s hs hok hat
    have hpin : s.blocked_flag = true → s.u_alert = true := by
      refine hs.invariant (I := fun s => s.blocked_flag = true → s.u_alert = true) ?_ ?_
      · exact fun h => (Bool.false_ne_true h).elim
      · intro s a s' hs h
        rw [restrict_eq_some] at h
        exact pin_of_flag_step hs (step_cases h.2)
    have hjunk : (⟨s.position_g.x + 1, s.position_g.y⟩ : Pos) ≠ s.position_g := by
      intro h
      have hx : s.position_g.x + 1 = s.position_g.x := congrArg Pos.x h
      rw [← UInt8.toNat_inj, UInt8.toNat_add, UInt8.toNat_one] at hx
      omega
    -- let the stack hold a neighbour
    obtain ⟨t, ht, hpc, harrived, hnext, -⟩ := hs.canReach (junk_recorded hok hat hpin hjunk)
    have h : controlThread ⟨0, 0⟩ t = some (exeHandler ⟨0, 0⟩ t .change) := by
      simp only [controlThread, hpc]
    obtain hq | hq := hrecords t ht _ _ _ h rfl
    · exact hnext hq
    · -- nothing is nearer to the destination than itself
      have hdist := hq.2
      rw [dist_eq_zero.mpr harrived] at hdist
      omega
  · intro hentry s hs
    suffices h : s.Tracks ∧ s.Kept from records_of_kept h.1 h.2
    induction hs with
    | init => exact ⟨trivial, trivial⟩
    | @step s s' a hs he ih =>
      rw [restrict_eq_some] at he
      obtain ⟨hok, hstep⟩ := he
      have hcases := step_cases hstep
      refine ⟨tracks_step ih.1 hcases, ?_⟩
      cases hcases with
      | thread h =>
        refine kept_stmt h ?_ ih.1 ih.2
        intro hat
        exact hentry s hs (hok hat.1) hat
      | fall | rise | command | sensor | drain => exact ih.2

end entries

/-- A `PDU_MOVE` to the cell where the robot stands, and what the stack holds. -/
def junkRun : List Act := .command .zeroed :: List.replicate 22 (.thread ⟨7, 7⟩)

/-- **The stack is recorded as the position.** -/
theorem records_junk : ¬ ∀ pin s, Reachable step (boot pin) s → s.RecordsStep := by
  intro hrecords
  obtain ⟨s, hs⟩ : ∃ s, exec step (boot false) junkRun = some s := ⟨_, rfl⟩
  have hreach := Reachable.exec junkRun .init hs
  cases hs
  obtain h | h := hrecords false _ hreach ⟨0, 0⟩ _ ⟨7, 7⟩ rfl rfl
  · exact absurd h (by decide)
  · exact absurd h (by decide)

end Wheelson.Control
