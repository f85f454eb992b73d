import Wheelson.Control.Frame

namespace Wheelson.Control

/-!
# A move, step by step

The loop of `exe_handler` as it drives to the destination in `rx_pdu`.

* `Pos.dist`, `StepTowards` — the grid, and what `calc_next_coord` does on it.
* `Sys.Tracks` — what the locals of the loop stand for at each of its statements, in every
  reachable state.
* `Sys.Driven` — how many `MOVE_FORW` bytes a run of the handler that is never blocked has
  sent by each statement.
* `forwards_off_by_one` — such a run exists from every start, and sends one byte more than
  the distance: the exit flag is read after the drive only.
-/

open Machine Ipc MotorCmd

variable {s s' : Sys} {a : Act} {junk : Pos}

/-! ### The grid -/

/-- The number of steps between two cells. -/
def Pos.dist (a b : Pos) : ℕ :=
  ((b.x.toNat : ℤ) - a.x.toNat).natAbs + ((b.y.toNat : ℤ) - a.y.toNat).natAbs

/-- `next` is one step from `curr` towards `target`. -/
def StepTowards (curr next target : Pos) : Prop :=
  curr.dist next = 1 ∧ next.dist target + 1 = curr.dist target

instance (curr next target : Pos) : Decidable (StepTowards curr next target) := by
  unfold StepTowards; infer_instance

/-- Only a position itself is at no distance of it. -/
theorem dist_eq_zero {a b : Pos} : a.dist b = 0 ↔ a = b := by
  obtain ⟨ax, ay⟩ := a
  obtain ⟨bx, byy⟩ := b
  simp only [Pos.dist, Pos.mk.injEq, ← UInt8.toNat_inj]
  omega

/-- Away from the destination, the next coordinates are one step nearer to it. -/
theorem calcNextCoord_towards {curr target : Pos} (next : Pos) (h : curr ≠ target) :
    StepTowards curr (calcNextCoord target.x target.y curr next).2 target := by
  obtain ⟨cx, cy⟩ := curr
  obtain ⟨tx, ty⟩ := target
  have hcx := cx.toNat_lt
  have hcy := cy.toNat_lt
  have htx := tx.toNat_lt
  have hty := ty.toNat_lt
  simp only [ne_eq, Pos.mk.injEq, ← UInt8.toNat_inj] at h
  unfold calcNextCoord StepTowards
  simp only [gt_iff_lt, UInt8.lt_iff_toNat_lt]
  -- the four directions; no coordinate overflows, as the target is beyond it
  split_ifs <;> simp only [Pos.dist, UInt8.toNat_add, UInt8.toNat_sub, UInt8.toNat_one] <;> omega

/-- At the destination `next_x` and `next_y` are left as they are. -/
theorem calcNextCoord_arrived (curr next : Pos) :
    (calcNextCoord curr.x curr.y curr next).2 = next := by
  simp [calcNextCoord]

/-- The headings of the grid. -/
def IsHeading (h : ℤ) : Prop := h = HEAD_N ∨ h = HEAD_E ∨ h = HEAD_S ∨ h = HEAD_W

/-- At the destination there is no heading. -/
theorem calcHeading_arrived (curr : Pos) : calcHeading curr.x curr.y curr = -1 := by
  simp [calcHeading]

/-- Elsewhere it is one of the four. -/
theorem isHeading_calcHeading {curr target : Pos} (h : curr ≠ target) :
    IsHeading (calcHeading target.x target.y curr) := by
  obtain ⟨cx, cy⟩ := curr
  obtain ⟨tx, ty⟩ := target
  simp only [ne_eq, Pos.mk.injEq, ← UInt8.toNat_inj] at h
  unfold calcHeading IsHeading
  simp only [gt_iff_lt, UInt8.lt_iff_toNat_lt]
  split_ifs
  · exact .inr (.inr (.inl rfl))
  · exact .inl rfl
  · exact .inr (.inl rfl)
  · exact .inr (.inr (.inr rfl))
  · omega

/-- So `new_heading` is one of the four, or -1. -/
theorem isHeading_or (target curr : Pos) :
    IsHeading (calcHeading target.x target.y curr) ∨ calcHeading target.x target.y curr = -1 := by
  by_cases h : curr = target
  · exact .inr (h ▸ calcHeading_arrived curr)
  · exact .inl (isHeading_calcHeading h)

/-- `rotate_to_heading` accepts the four. -/
theorem IsHeading.range {h : ℤ} (hh : IsHeading h) : 0 ≤ h ∧ h ≤ 360 := by
  rcases hh with rfl | rfl | rfl | rfl <;> decide

/-- A rotation is three quarter turns at most. -/
theorem IsHeading.turns_le {a b : ℤ} (ha : IsHeading a) (hb : IsHeading b ∨ b = -1) :
    (turns a b).natAbs ≤ 3 := by
  rcases ha with rfl | rfl | rfl | rfl <;>
    rcases hb with (rfl | rfl | rfl | rfl) | rfl <;> decide

/-! ### The locals of the loop -/

/-- The destination of the command in hand. -/
def Sys.target (s : Sys) : Pos := ⟨s.rx_pdu.x, s.rx_pdu.y⟩

/-- `new_x` and `new_y` hold the destination. -/
def Sys.Aimed (s : Sys) : Prop := s.exe.new_x = s.target.x ∧ s.exe.new_y = s.target.y

/-- A move is under way, and `done` says whether its destination was reached. -/
def Sys.Moving (s : Sys) : Prop :=
  s.Aimed ∧ s.rx_pdu.cmd = PDU_MOVE ∧ (s.exe.done = true ↔ s.position_g = s.target)

/-- A move is under way, and `next_x` and `next_y` are a step nearer. -/
def Sys.Stepping (s : Sys) : Prop :=
  s.Moving ∧ (s.position_g ≠ s.target → StepTowards s.position_g s.exe.next s.target)

/-- What the locals of `exe_handler` stand for, statement by statement. -/
def Sys.Tracks (s : Sys) : Prop :=
  match s.pc with
  | .exe .test | .exe .move => s.Aimed ∧ s.exe.done = false
  | .exe .arrived => s.Aimed ∧ s.rx_pdu.cmd = PDU_MOVE ∧ s.exe.done = false
  | .exe .next => s.Moving
  | .exe .heading => s.Stepping
  | .rotate _ | .msg .turning | .put .turning _ =>
    s.Stepping ∧ s.exe.new_heading = calcHeading s.target.x s.target.y s.position_g
  | .exe .retest | .msg .forward | .put .forward _ | .exe .forw | .exe .sleep | .exe .stop
  | .exe .change => s.Stepping ∧ (s.exe.done = false → IsHeading s.fake_heading)
  | .exe .other => s.Aimed ∧ s.rx_pdu.cmd ≠ PDU_MOVE
  | .msg .loopEnd | .put .loopEnd _ | .exe .loop =>
    s.Aimed ∧ (s.rx_pdu.cmd ≠ PDU_MOVE → s.exe.done = true) ∧
      (s.exe.done = false → IsHeading s.fake_heading)
  | _ => True

/-- The comparison of the coordinates is one of positions. -/
theorem Sys.Aimed.arrived_iff (h : s.Aimed) :
    (s.position_g.x = s.exe.new_x ∧ s.position_g.y = s.exe.new_y) ↔ s.position_g = s.target := by
  rw [h.1, h.2, Pos.mk.injEq]

/-- A move that is not done has not arrived. -/
theorem Sys.Moving.ne (h : s.Moving) (hdone : s.exe.done = false) : s.position_g ≠ s.target := by
  intro heq
  rw [h.2.2.mpr heq] at hdone
  cases hdone

/-- **Step rule, statement.** -/
theorem tracks_stmt (h : Stmt junk s s') (hs : s.Tracks) : s'.Tracks := by
  unfold Sys.Tracks at hs
  cases h with
  | exeEntry hpc => exact ⟨⟨rfl, rfl⟩, rfl⟩
  | exeTest hpc =>
    rw [hpc] at hs
    exact hs
  | exeMove hpc hcmd =>
    rw [hpc] at hs
    exact ⟨hs.1, hcmd, hs.2⟩
  | exeNoMove hpc hcmd =>
    rw [hpc] at hs
    exact ⟨hs.1, hcmd⟩
  | exeArrived hpc =>
    rw [hpc] at hs
    obtain ⟨haimed, hcmd, hdone⟩ := hs
    refine ⟨haimed, hcmd, ?_⟩
    simp only [haimed.arrived_iff, hdone, Bool.ite_eq_true_distrib]
    show _ ↔ s.position_g = s.target
    simp
  | exeNext hpc =>
    rw [hpc] at hs
    refine ⟨hs, fun hne => ?_⟩
    show StepTowards _ (calcNextCoord s.exe.new_x s.exe.new_y s.position_g s.exe.next).2 _
    rw [hs.1.1, hs.1.2]
    exact calcNextCoord_towards _ hne
  | exeHeading hpc =>
    rw [hpc] at hs
    refine ⟨hs, ?_⟩
    show calcHeading s.exe.new_x s.exe.new_y s.position_g = _
    rw [hs.1.1.1, hs.1.1.2]
    rfl
  | rotAccept hpc | rotStop hpc | rotLoop hpc | rotEnd hpc | rotTurn hpc | rotSleep hpc
  | rotHalt hpc =>
    rw [hpc] at hs
    exact hs
  | rotReject hpc hrange =>
    rw [hpc] at hs
    refine ⟨hs.1, fun hdone => ?_⟩
    -- only the heading at the destination is out of range
    have hne := hs.1.1.ne hdone
    have hheading := (isHeading_calcHeading hne).range
    rw [← hs.2] at hheading
    omega
  | rotUpdate hpc =>
    rw [hpc] at hs
    refine ⟨hs.1, fun hdone => ?_⟩
    have hne := hs.1.1.ne hdone
    show IsHeading s.exe.new_heading
    rw [hs.2]
    exact isHeading_calcHeading hne
  | exeRetest hpc | exeForw hpc | exeSleep hpc | exeStop hpc =>
    rw [hpc] at hs
    exact hs
  | exeChange hpc =>
    rw [hpc] at hs
    exact ⟨hs.1.1.1, fun hcmd => absurd hs.1.1.2.1 hcmd, hs.2⟩
  | exeOther hpc =>
    rw [hpc] at hs
    exact ⟨hs.1, fun _ => rfl, nofun⟩
  | exeAgain hpc hdone =>
    rw [hpc] at hs
    exact ⟨hs.1, hdone⟩
  | @msg c hpc | @put c _ hpc =>
    rw [hpc] at hs
    cases c <;> exact hs
  | _ => trivial

/-- **Step rule.** -/
theorem tracks_step (hs : s.Tracks) (h : Step s a s') : s'.Tracks := by
  cases h with
  | thread h => exact tracks_stmt h hs
  | fall | rise | command | sensor | drain => exact hs

/-- No move has begun. -/
theorem tracks_boot (pin : Bool) : (boot pin).Tracks := trivial

/-! ### The bytes of a run -/

/-- How many times a command was sent. -/
def Sys.sent (s : Sys) (cmd : MotorCmd) : ℕ := (s.trace.filterMap Obs.cmd).count cmd

/-- A statement sends one byte at most. -/
theorem sent_stmt (h : Stmt junk s s') (cmd : MotorCmd) :
    s'.sent cmd = s.sent cmd + s.sends.toList.count cmd := by
  unfold Sys.sent
  rw [trace_stmt h, List.filterMap_append, List.count_append, logs_cmd]

/-- What has been sent at a statement of the loop, where `n` is what was sent before and the
    distance then, `here` the distance now and `there` the one after the step. -/
def DrivenAt (n : ℕ) (done : Bool) (forwards here there : ℕ) : Pc → Prop
  | .exe .entry | .exe .test | .exe .move | .exe .arrived | .exe .next | .exe .heading
  | .rotate _ | .msg .turning | .put .turning _
  | .exe .retest | .msg .forward | .put .forward _ | .exe .forw => forwards + here = n
  | .exe .sleep | .exe .stop | .exe .change =>
    if done then forwards = n + 1 else forwards + there = n
  | .msg .loopEnd | .put .loopEnd _ | .exe .loop =>
    if done then forwards = n + 1 else forwards + here = n
  | .msg .finished | .put .finished _ | .exe .ret => forwards = n + 1
  | _ => False

/-- A move that has not been blocked. -/
structure Sys.Driven (n : ℕ) (s : Sys) : Prop where
  flag : s.blocked_flag = false
  tracks : s.Tracks
  cmd : s.rx_pdu.cmd = PDU_MOVE
  sent : DrivenAt n s.exe.done (s.sent MOVE_FORW) (s.position_g.dist s.target)
    (s.exe.next.dist s.target) s.pc

/-- Only two statements can send `MOVE_FORW`. -/
theorem sent_of_other (h : Stmt junk s s') (hforw : s.pc ≠ .exe .forw)
    (hdrive : ∀ cmd, s.pc ≠ .wait (.drive cmd)) : s'.sent MOVE_FORW = s.sent MOVE_FORW := by
  rw [sent_stmt h, add_eq_left]
  unfold Sys.sends
  split
  case h_7 hpc => exact absurd hpc (hdrive _)
  case h_8 hpc => exact absurd hpc hforw
  case h_9 => split <;> rfl
  all_goals rfl

/-- The drive takes the robot one step nearer, or, with the exit flag set, one step too far. -/
theorem driven_forw {n : ℕ} (hs : s.Driven n) (hpc : s.pc = .exe .forw) :
    if s.exe.done then s.sent MOVE_FORW + 1 = n + 1
    else s.sent MOVE_FORW + 1 + s.exe.next.dist s.target = n := by
  obtain ⟨-, htracks, -, hsent⟩ := hs
  unfold Sys.Tracks at htracks
  rw [hpc] at htracks hsent
  obtain ⟨⟨⟨-, -, hdone⟩, htowards⟩, -⟩ := htracks
  have hsent : s.sent MOVE_FORW + s.position_g.dist s.target = n := hsent
  split
  · -- the exit flag is set already
    rename_i hd
    rw [dist_eq_zero.mpr (hdone.mp hd)] at hsent
    omega
  · rename_i hd
    have hstep := (htowards fun heq => hd (hdone.mpr heq)).2
    omega

/-- **Step rule, statement.** -/
theorem driven_stmt {n : ℕ} (h : Stmt junk s s') (hret : s.pc ≠ .exe .ret) (hs : s.Driven n) :
    s'.Driven n := by
  have hforward := driven_forw hs
  obtain ⟨hflag, htracks, hcmd, hsent⟩ := hs
  have hget : s.pc ≠ .wait .get := by
    intro hpc
    rw [hpc] at hsent
    exact hsent
  have hdrive (cmd : MotorCmd) : s.pc ≠ .wait (.drive cmd) := by
    intro hpc
    rw [hpc] at hsent
    exact hsent
  refine ⟨(flag_stmt h).trans hflag, tracks_stmt h htracks, ?_, ?_⟩
  · rw [(rx_stmt h hget).1]
    exact hcmd
  by_cases hforw : s.pc = .exe .forw
  · have hcount := sent_stmt h MOVE_FORW
    rw [Sys.sends, hforw] at hcount
    rw [hcount]
    cases h with
    | exeForw => exact hforward hforw
    | exeBlocked hpc => rcases hpc with hpc | hpc <;> cases hforw.symm.trans hpc
    | _ hpc => cases hforw.symm.trans hpc
  -- nothing is sent: only the two sides of the sum may move
  rw [sent_of_other h hforw hdrive]
  cases h with
  | exeEntry hpc | exeTest hpc | exeMove hpc | exeArrived hpc | exeNext hpc | exeHeading hpc
  | rotReject hpc | rotAccept hpc | rotStop hpc | rotLoop hpc | rotEnd hpc | rotTurn hpc
  | rotSleep hpc | rotHalt hpc | rotUpdate hpc | exeRetest hpc | exeSleep hpc | exeStop hpc
  | exeChange hpc | finish hpc =>
    rw [hpc] at hsent
    exact hsent
  | exeBlocked hpc hb =>
    rw [hflag] at hb
    cases hb
  | exeForw hpc => exact absurd hpc hforw
  | exeNoMove hpc hne => exact absurd hcmd hne
  | exeOther hpc =>
    rw [hpc] at hsent
    exact hsent.elim
  | exeDone hpc hdone | exeAgain hpc hdone =>
    rw [hpc] at hsent
    rw [hdone] at hsent
    exact hsent
  | exeRet hpc => exact absurd hpc hret
  | @msg c hpc | @put c _ hpc =>
    rw [hpc] at hsent
    cases c <;> exact hsent
  | top hpc | toWait hpc | toExe hpc | toCol hpc | toReset hpc | waitStop hpc | waitGet hpc
  | waitMove hpc | waitReset hpc | waitDirect hpc | waitHalt hpc | waitGarbage hpc
  | waitDrive hpc | colHigh hpc | colLow hpc | colStop hpc | colSleep hpc | colRet hpc
  | reset hpc =>
    rw [hpc] at hsent
    exact hsent.elim

/-! ### The handler ends -/

/-- The statements of `exe_handler` and of what it calls, up to its last message. -/
def Pc.InExe : Pc → Prop
  | .exe .ret => False
  | .exe _ | .rotate _ | .msg .turning | .put .turning _ | .msg .forward | .put .forward _
  | .msg .loopEnd | .put .loopEnd _ | .msg .finished | .put .finished _ => True
  | _ => False

/-- The handler does not wait for a command. -/
theorem inExe_get (h : s.pc.InExe) : s.pc ≠ .wait .get := by
  intro hpc
  rw [hpc] at h
  exact h

/-- The statements left, at most: `dist` steps to go, `quarters` turns before the next one,
    `left` of them after the rotation has begun. -/
def costAt (done : Bool) (dist quarters left : ℕ) : Pc → ℕ
  | .exe .entry => 100 * dist + 6 * quarters + 40
  | .exe .test => 100 * dist + 6 * quarters + 39
  | .exe .move => 100 * dist + 6 * quarters + 38
  | .exe .arrived => 100 * dist + 6 * quarters + 37
  | .exe .next => 100 * dist + 6 * quarters + 36
  | .exe .heading => 100 * dist + 6 * quarters + 35
  | .rotate .check => 100 * dist + 6 * quarters + 34
  | .rotate .stop => 100 * dist + 6 * quarters + 33
  | .rotate .turn => 100 * dist + 6 * (left - 1) + 32
  | .msg .turning => 100 * dist + 6 * (left - 1) + 31
  | .put .turning _ => 100 * dist + 6 * (left - 1) + 30
  | .rotate .sleep => 100 * dist + 6 * (left - 1) + 29
  | .rotate .halt => 100 * dist + 6 * (left - 1) + 28
  | .rotate .loop => 100 * dist + 6 * left + 27
  | .rotate .update => 100 * dist + 26
  | .exe .retest => 100 * dist + 25
  | .msg .forward => 100 * dist + 24
  | .put .forward _ => 100 * dist + 23
  | .exe .forw => 100 * dist + 22
  | .exe .sleep => 100 * dist + 21
  | .exe .stop => 100 * dist + 20
  | .exe .change => 100 * dist + 19
  | .exe .other => 18
  | .msg .loopEnd => if done then 17 else 100 * dist + 6 * quarters + 42
  | .put .loopEnd _ => if done then 16 else 100 * dist + 6 * quarters + 41
  | .exe .loop => if done then 15 else 100 * dist + 6 * quarters + 40
  | .msg .finished => 14
  | .put .finished _ => 13
  | _ => 0

/-- The statements left before the handler ends, at most. -/
def Sys.cost (s : Sys) : ℕ :=
  costAt s.exe.done (s.position_g.dist s.target)
    (turns s.fake_heading (calcHeading s.target.x s.target.y s.position_g)).natAbs
    (s.rot.num_turns - s.rot.i) s.pc

/-- A statement of a handler that is not blocked lowers the cost. -/
theorem cost_stmt (h : Stmt junk s s') (hs : s.Tracks) (hin : s.pc.InExe)
    (hflag : s.pc = .exe .test ∨ s.pc = .exe .retest → s.blocked_flag = false) :
    s'.pc = .exe .ret ∨ (s'.pc.InExe ∧ s'.cost < s.cost) := by
  unfold Sys.Tracks at hs
  unfold Sys.cost
  cases h with
  | exeEntry hpc | exeTest hpc | exeMove hpc | exeArrived hpc | exeNext hpc | exeHeading hpc
  | rotAccept hpc =>
    right
    rw [hpc] at hs ⊢
    exact ⟨trivial, Nat.lt_succ_self _⟩
  | rotSleep hpc | rotTurn hpc | exeRetest hpc | exeForw hpc | exeSleep hpc | exeStop hpc =>
    right
    rw [hpc]
    exact ⟨trivial, Nat.lt_succ_self _⟩
  | rotReject hpc | rotUpdate hpc | exeNoMove hpc =>
    right
    rw [hpc]
    refine ⟨trivial, ?_⟩
    simp only [costAt, Sys.goto, Sys.target]
    omega
  | rotStop hpc =>
    right
    rw [hpc] at hs ⊢
    refine ⟨trivial, ?_⟩
    rw [← hs.2]
    simp only [costAt, Sys.target, sendMotorCmd, Sys.log]
    omega
  | rotLoop hpc hi | rotEnd hpc hi | rotHalt hpc =>
    right
    rw [hpc]
    refine ⟨trivial, ?_⟩
    simp only [costAt, Sys.goto, Sys.target, sendMotorCmd, Sys.log]
    omega
  | exeBlocked hpc hb =>
    rw [hflag hpc] at hb
    cases hb
  | exeChange hpc =>
    right
    rw [hpc] at hs ⊢
    refine ⟨trivial, ?_⟩
    obtain ⟨⟨hmoving, htowards⟩, hheading⟩ := hs
    show (if s.exe.done then 17 else 100 * s.exe.next.dist s.target +
      6 * (turns s.fake_heading (calcHeading s.target.x s.target.y s.exe.next)).natAbs + 42) <
        100 * s.position_g.dist s.target + 19
    split
    · omega
    · -- the step taken pays for the turns of the next one
      rename_i hdone
      rw [Bool.not_eq_true] at hdone
      have hstep := (htowards (hmoving.ne hdone)).2
      have hturns := (hheading hdone).turns_le (isHeading_or s.target s.exe.next)
      omega
  | exeOther hpc =>
    right
    rw [hpc]
    exact ⟨trivial, Nat.lt_succ_self _⟩
  | exeDone hpc hdone | exeAgain hpc hdone =>
    right
    rw [hpc]
    refine ⟨trivial, ?_⟩
    simp only [costAt, Sys.goto, Sys.target, hdone, if_true, Bool.false_eq_true, if_false]
    omega
  | exeRet hpc =>
    rw [hpc] at hin
    exact hin.elim
  | finish hpc => exact .inl rfl
  | @msg c hpc =>
    right
    rw [hpc] at hin ⊢
    cases c with
    | waitEnd | blocked => exact hin.elim
    | turning | forward | finished => exact ⟨trivial, Nat.lt_succ_self _⟩
    | loopEnd =>
      refine ⟨trivial, ?_⟩
      show (if s.exe.done then 16 else _) < (if s.exe.done then 17 else _)
      split <;> exact Nat.lt_succ_self _
  | @put c _ hpc hc =>
    right
    rw [hpc] at hin ⊢
    cases c with
    | waitEnd | blocked => exact hin.elim
    | turning | forward => exact ⟨trivial, Nat.lt_succ_self _⟩
    | loopEnd =>
      refine ⟨trivial, ?_⟩
      show (if s.exe.done then 15 else _) < (if s.exe.done then 16 else _)
      split <;> exact Nat.lt_succ_self _
    | finished => exact absurd rfl hc
  | top hpc | toWait hpc | toExe hpc | toCol hpc | toReset hpc | waitStop hpc | waitGet hpc
  | waitMove hpc | waitReset hpc | waitDirect hpc | waitHalt hpc | waitGarbage hpc
  | waitDrive hpc | colHigh hpc | colLow hpc | colStop hpc | colSleep hpc | colRet hpc
  | reset hpc =>
    rw [hpc] at hin
    exact hin.elim

/-- **The handler ends.**  From every statement of `exe_handler`, left alone by the alert, with
    what its statements preserve. -/
theorem exe_ends {ok : Sys → Act → Prop} [∀ s a, Decidable (ok s a)] {J : Sys → Prop}
    (hok : ∀ s : Sys, s.pc.InExe → ok s (.thread ⟨0, 0⟩) ∧ ok s .drain)
    (htx : ∀ s tx, J s → J { s with tx_pdu_fifo_g := tx })
    (hJ : ∀ s s', s.pc.InExe → J s → Stmt ⟨0, 0⟩ s s' → J s')
    (hflag : s.blocked_flag = false) (hs : s.Tracks) (hin : s.pc.InExe) (h : J s) :
    CanReach (restrict ok step) s fun t => t.pc = .exe .ret ∧ J t := by
  refine thread_leads_to (P := fun t => t.blocked_flag = false ∧ t.Tracks ∧ t.pc.InExe ∧ J t)
    Sys.cost ⟨0, 0⟩ ?_ (fun t ht => hok t ht.2.2.1) ?_ ?_ s ⟨hflag, hs, hin, h⟩
  · exact fun t ht => inExe_get ht.2.2.1
  · rintro t tx ⟨hflag, hs, hin, h⟩
    exact ⟨⟨hflag, hs, hin, htx t tx h⟩, rfl⟩
  · rintro t t' ⟨hflag, hs, hin, h⟩ hstmt
    have h' := hJ t t' hin h hstmt
    refine (cost_stmt hstmt hs hin fun _ => hflag).imp (fun hret => ⟨hret, h'⟩) ?_
    rintro ⟨hin', hlt⟩
    exact ⟨⟨(flag_stmt hstmt).trans hflag, tracks_stmt hstmt hs, hin', h'⟩, hlt⟩

/-! ### One step too many -/

/-- A run of the handler up to its end, in which U_ALERT does not change. -/
def Unblocked (s : Sys) : Act → Prop
  | .thread _ => s.pc ≠ .exe .ret
  | .edge => False
  | .command _ | .sensor _ | .drain => True

instance (s : Sys) (a : Act) : Decidable (Unblocked s a) :=
  match a with
  | .thread _ => inferInstanceAs (Decidable (¬ _))
  | .edge => .isFalse id
  | .command _ | .sensor _ | .drain => .isTrue trivial

/-- Every run of the handler from `s` that is never blocked sends one `MOVE_FORW` for each
    step between the position and the destination. -/
def Sys.DrivesDistance (s : Sys) : Prop :=
  ∀ t, Reachable (restrict Unblocked step) s t → t.pc = .exe .ret →
    t.sent MOVE_FORW = s.sent MOVE_FORW + s.position_g.dist s.target

/-- **Step rule.** -/
theorem driven_step {n : ℕ} (hs : s.Driven n) (ha : Unblocked s a) (h : Step s a s') :
    s'.Driven n := by
  cases h with
  | thread h => exact driven_stmt h ha hs
  | fall | rise => exact ha.elim
  | command | sensor | drain => exact ⟨hs.flag, hs.tracks, hs.cmd, hs.sent⟩

/-- **Every move drives one step too far.**  The handler ends from every start, and every run
    of it sends one `MOVE_FORW` more than the distance. -/
theorem forwards_off_by_one (hpc : s.pc = .exe .entry) (hcmd : s.rx_pdu.cmd = PDU_MOVE)
    (hflag : s.blocked_flag = false) :
    ¬ s.DrivesDistance ∧ ∀ t, Reachable (restrict Unblocked step) s t → t.pc = .exe .ret →
      t.sent MOVE_FORW = s.sent MOVE_FORW + s.position_g.dist s.target + 1 := by
  have htracks : s.Tracks := by
    unfold Sys.Tracks
    rw [hpc]
    trivial
  have hcount (t : Sys) (ht : Reachable (restrict Unblocked step) s t) (hret : t.pc = .exe .ret) :
      t.sent MOVE_FORW = s.sent MOVE_FORW + s.position_g.dist s.target + 1 := by
    have hdriven : t.Driven (s.sent MOVE_FORW + s.position_g.dist s.target) := by
      refine ht.invariant ⟨hflag, htracks, hcmd, hpc ▸ rfl⟩ ?_
      intro u a u' hu h
      rw [restrict_eq_some] at h
      exact driven_step hu h.1 (step_cases h.2)
    have hsent := hdriven.sent
    rw [hret] at hsent
    exact hsent
  -- the handler does end, so there is a run to compare with
  refine ⟨fun hdrives => ?_, hcount⟩
  have hend : CanReach (restrict Unblocked step) s fun t => t.pc = .exe .ret ∧ True :=
    exe_ends (fun u hu => ⟨fun hpc => (hpc ▸ hu :), trivial⟩) (fun _ _ _ => trivial)
      (fun _ _ _ _ _ => trivial) hflag htracks (hpc ▸ trivial) trivial
  obtain ⟨t, ht, hret, -⟩ := Reachable.init.canReach hend
  have hmore := hcount t ht hret
  rw [hdrives t ht hret] at hmore
  omega

/-- The handler entered at (1, 2) for a move to (3, 1). -/
def threeAway : Sys :=
  { boot false with
    pc := .exe .entry
    position_g := ⟨1, 2⟩
    rx_pdu := { Pdu.zeroed with x := 3, y := 1 } }

/-- A run of it from the entry to the end. -/
def threeAwayRun : Option Sys :=
  exec (restrict Unblocked step) threeAway (List.replicate 94 (.thread ⟨0, 0⟩))

/-- The robot drives four steps for the three. -/
theorem forwards_off_by_one_three : threeAway.position_g.dist threeAway.target = 3 ∧
    ¬ threeAway.DrivesDistance ∧
    ∃ t, Reachable (restrict Unblocked step) threeAway t ∧ t.pc = .exe .ret ∧
      t.sent MOVE_FORW = 0 + 3 + 1 := by
  have hrun : threeAwayRun = some (threeAwayRun.get (by decide +kernel)) :=
    (Option.some_get _).symm
  have hreach := Reachable.exec _ .init hrun
  have hret : (threeAwayRun.get (by decide +kernel)).pc = .exe .ret := by decide +kernel
  obtain ⟨hdrives, hcount⟩ := forwards_off_by_one (s := threeAway) rfl rfl rfl
  exact ⟨by decide, hdrives, _, hreach, hret, hcount _ hreach hret⟩

/-- The handler entered at its destination. -/
def atTarget : Sys := { boot false with pc := .exe .entry }

/-- **A move to where the robot stands drives it away.** -/
theorem drives_at_target : ¬ ∀ s : Sys, s.pc = .exe .entry → s.rx_pdu.cmd = PDU_MOVE →
    s.blocked_flag = false → s.DrivesDistance := by
  intro hdrives
  obtain ⟨t, ht⟩ : ∃ t, exec (restrict Unblocked step) atTarget
      (List.replicate 19 (.thread ⟨0, 0⟩)) = some t := ⟨_, rfl⟩
  have hreach := Reachable.exec _ .init ht
  cases ht
  have hsent := hdrives atTarget rfl rfl rfl _ hreach rfl
  revert hsent
  decide

end Wheelson.Control
