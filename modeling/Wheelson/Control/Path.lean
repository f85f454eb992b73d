import Wheelson.Control.Move

namespace Wheelson.Control

/-!
# The path of a move

One iteration of the loop of `exe_handler` after the other, for a handler that is never blocked.

* `Advances` — an iteration that takes one step along the x axis, or along the y axis when x is
  right, with the heading that goes with it; `advances_calc` says that `calc_heading` and
  `calc_next_coord` agree on one.
* `Route` — the iterations of a move: steps up to the target, and one that stays there.
* `iteration` — what an iteration shows at `while(!done)`.
* `PathAt` — the iterations so far and the locals of the loop, at each statement.
* `move_path` — the iterations of every move are a route, and the handler ends.
-/

open Machine Ipc

variable {s s' : Sys} {a : Act} {junk start target curr : Pos} {it : ℤ × Pos}
  {its : List (ℤ × Pos)}

/-! ### Routes on the grid -/

/-- An iteration with this heading and this new position goes one step towards the target, x
    before y, and wraps no coordinate. -/
inductive Advances (target curr : Pos) : ℤ × Pos → Prop
  | south {next : Pos} (h : curr.x < target.x) (hx : next.x.toNat = curr.x.toNat + 1)
      (hy : next.y = curr.y) : Advances target curr (HEAD_S, next)
  | north {next : Pos} (h : target.x < curr.x) (hx : next.x.toNat + 1 = curr.x.toNat)
      (hy : next.y = curr.y) : Advances target curr (HEAD_N, next)
  | east {next : Pos} (h : curr.x = target.x ∧ curr.y < target.y) (hx : next.x = curr.x)
      (hy : next.y.toNat = curr.y.toNat + 1) : Advances target curr (HEAD_E, next)
  | west {next : Pos} (h : curr.x = target.x ∧ target.y < curr.y) (hx : next.x = curr.x)
      (hy : next.y.toNat + 1 = curr.y.toNat) : Advances target curr (HEAD_W, next)

/-- The iterations of a move: steps towards the target, and one at the target that stays. -/
inductive Route (target : Pos) : Pos → List (ℤ × Pos) → Prop
  | stay : Route target target [(-1, target)]
  | step {curr : Pos} {it : ℤ × Pos} {its : List (ℤ × Pos)} (h : Advances target curr it)
      (hits : Route target it.2 its) : Route target curr (it :: its)

/-- The steps of a route from one position to another. -/
def Walked (target : Pos) : Pos → List (ℤ × Pos) → Pos → Prop
  | curr, [], last => curr = last
  | curr, it :: its, last => Advances target curr it ∧ Walked target it.2 its last

/-- A coordinate below another one does not wrap. -/
theorem toNat_succ_of_lt {a b : UInt8} (h : a < b) : (a + 1).toNat = a.toNat + 1 := by
  have hb := b.toNat_lt
  rw [UInt8.lt_iff_toNat_lt] at h
  rw [UInt8.toNat_add, UInt8.toNat_one]
  omega

theorem toNat_pred_of_lt {a b : UInt8} (h : b < a) : (a - 1).toNat + 1 = a.toNat := by
  have ha := a.toNat_lt
  rw [UInt8.lt_iff_toNat_lt] at h
  rw [UInt8.toNat_sub, UInt8.toNat_one]
  omega

theorem eq_of_not_lt {a b : UInt8} (h : ¬ a < b) (h' : ¬ b < a) : a = b := by
  rw [UInt8.lt_iff_toNat_lt] at h h'
  exact UInt8.toNat_inj.mp (by omega)

/-- **`calc_heading` and `calc_next_coord` take the same branch.** -/
theorem advances_calc (next : Pos) (h : curr ≠ target) : Advances target curr
    (calcHeading target.x target.y curr, (calcNextCoord target.x target.y curr next).2) := by
  unfold calcHeading calcNextCoord
  by_cases hs : curr.x < target.x
  · rw [if_pos hs, if_pos hs]
    exact .south hs (toNat_succ_of_lt hs) rfl
  rw [if_neg hs, if_neg hs]
  by_cases hn : target.x < curr.x
  · rw [if_pos hn, if_pos hn]
    exact .north hn (toNat_pred_of_lt hn) rfl
  rw [if_neg hn, if_neg hn]
  have hx : curr.x = target.x := eq_of_not_lt hs hn
  by_cases he : curr.y < target.y
  · rw [if_pos he, if_pos he]
    exact .east ⟨hx, he⟩ rfl (toNat_succ_of_lt he)
  rw [if_neg he, if_neg he]
  have hw : target.y < curr.y := by
    by_contra hw
    apply h
    rw [Pos.mk.injEq]
    exact ⟨hx, eq_of_not_lt he hw⟩
  rw [if_pos hw, if_pos hw]
  exact .west ⟨hx, hw⟩ rfl (toNat_pred_of_lt hw)

/-- Away from the target, `next_x` and `next_y` are both written. -/
theorem calcNextCoord_default (next next' : Pos) (h : curr ≠ target) :
    calcNextCoord target.x target.y curr next = calcNextCoord target.x target.y curr next' := by
  obtain ⟨cx, cy⟩ := curr
  obtain ⟨tx, ty⟩ := target
  simp only [ne_eq, Pos.mk.injEq, ← UInt8.toNat_inj] at h
  unfold calcNextCoord
  simp only [gt_iff_lt, UInt8.lt_iff_toNat_lt]
  split_ifs
  · rfl
  · rfl
  · rfl
  · rfl
  · omega

theorem dist_of_advances (h : Advances target curr it) :
    it.2.dist target + 1 = curr.dist target := by
  unfold Pos.dist
  cases h with
  | south h hx hy | north h hx hy =>
    rw [UInt8.lt_iff_toNat_lt] at h
    dsimp only
    rw [hy]
    omega
  | east h hx hy | west h hx hy =>
    have hlt := h.2
    rw [UInt8.lt_iff_toNat_lt] at hlt
    dsimp only
    rw [hx]
    omega

theorem walked_concat (h : Walked target start its curr) (hit : Advances target curr it) :
    Walked target start (its ++ [it]) it.2 := by
  induction its generalizing start with
  | nil =>
    obtain rfl : start = curr := h
    exact ⟨hit, rfl⟩
  | cons i its ih => exact ⟨h.1, ih h.2⟩

theorem route_of_walked (h : Walked target start its target) :
    Route target start (its ++ [(-1, target)]) := by
  induction its generalizing start with
  | nil =>
    obtain rfl : start = target := h
    exact .stay
  | cons i its ih => exact .step h.1 (ih h.2)

/-- **A route is as long as the distance**, and one more. -/
theorem length_of_route (h : Route target start its) : its.length = start.dist target + 1 := by
  induction h with
  | stay => rw [dist_eq_zero.mpr rfl]; rfl
  | step h _ ih => rw [List.length_cons, ih, dist_of_advances h]

/-! ### The iterations of a run -/

/-- A run of the handler up to its end in which no test of `blocked_flag` finds it set. -/
def Unstopped (s : Sys) : Act → Prop
  | .thread _ =>
    s.pc ≠ .exe .ret ∧ (s.pc = .exe .test ∨ s.pc = .exe .retest → s.blocked_flag = false)
  | .edge | .command _ | .sensor _ | .drain => True

instance (s : Sys) (a : Act) : Decidable (Unstopped s a) :=
  match a with
  | .thread _ => inferInstanceAs (Decidable (_ ∧ (_ → _)))
  | .edge | .command _ | .sensor _ | .drain => .isTrue trivial

/-- What an iteration shows at `while(!done)`: the heading it computed and the position now. -/
def iteration (s : Sys) : Act → List (ℤ × Pos)
  | .thread _ => if s.pc = .exe .loop then [(s.exe.new_heading, s.position_g)] else []
  | .edge | .command _ | .sensor _ | .drain => []

/-- The next position of an iteration that begins at `curr`. -/
def nextOf (target curr : Pos) : Pos := (calcNextCoord target.x target.y curr curr).2

/-- The iterations so far and the locals of the loop, statement by statement. -/
def PathAt (start target : Pos) (its : List (ℤ × Pos)) (curr : Pos) (exe : Exe) : Pc → Prop
  | .exe .entry => its = [] ∧ curr = start
  | .exe .test | .exe .move | .exe .arrived | .exe .next =>
    Walked target start its curr ∧ (its ≠ [] → exe.next = curr)
  | .exe .heading => Walked target start its curr ∧ exe.next = nextOf target curr
  | .rotate _ | .msg .turning | .put .turning _ | .exe .retest | .msg .forward | .put .forward _
  | .exe .forw | .exe .sleep | .exe .stop | .exe .change =>
    Walked target start its curr ∧ exe.next = nextOf target curr ∧
      exe.new_heading = calcHeading target.x target.y curr
  | .msg .loopEnd | .put .loopEnd _ | .exe .loop =>
    exe.next = curr ∧ ∃ prev, Walked target start its prev ∧ curr = nextOf target prev ∧
      exe.new_heading = calcHeading target.x target.y prev ∧ (exe.done = true ↔ prev = target)
  | .msg .finished | .put .finished _ | .exe .ret => Route target start its ∧ curr = target
  | _ => False

/-- A move that has not been stopped, after these iterations. -/
structure Sys.Follows (start target : Pos) (its : List (ℤ × Pos)) (s : Sys) : Prop where
  tracks : s.Tracks
  aim : s.target = target
  cmd : s.rx_pdu.cmd = PDU_MOVE
  path : PathAt start target its s.position_g s.exe s.pc

/-- **The end of an iteration.**  `while(!done)` goes on from a step and stops at the target. -/
theorem pathAt_loop (hpc : s.pc = .exe .loop) (h : Stmt junk s s')
    (hpath : PathAt start target its s.position_g s.exe s.pc) :
    PathAt start target (its ++ iteration s (.thread junk)) s'.position_g s'.exe s'.pc := by
  rw [iteration, if_pos hpc]
  rw [hpc] at hpath
  obtain ⟨hnext, prev, hwalked, hcurr, hheading, hdone⟩ := hpath
  cases h with
  | exeDone _ hd =>
    obtain rfl := hdone.mp hd
    rw [nextOf, calcNextCoord_arrived] at hcurr
    rw [hheading, hcurr, calcHeading_arrived]
    exact ⟨route_of_walked hwalked, hcurr⟩
  | exeAgain _ hd =>
    have hne : prev ≠ target := by
      intro heq
      rw [hdone.mpr heq] at hd
      cases hd
    have hit : Advances target prev (s.exe.new_heading, s.position_g) := by
      rw [hheading, hcurr]
      exact advances_calc prev hne
    exact ⟨walked_concat hwalked hit, fun _ => hnext⟩
  | exeBlocked hpc' => rcases hpc' with hpc' | hpc' <;> cases hpc.symm.trans hpc'
  | _ hpc' => cases hpc.symm.trans hpc'

/-- **Step rule.** -/
theorem follows_stmt (hne : start ≠ target) (h : Stmt junk s s')
    (ha : Unstopped s (.thread junk)) (hs : s.Follows start target its) :
    s'.Follows start target (its ++ iteration s (.thread junk)) := by
  obtain ⟨htracks, haim, hcmd, hpath⟩ := hs
  obtain ⟨hret, hflag⟩ := ha
  have hget : s.pc ≠ .wait .get := by
    intro hpc
    rw [hpc] at hpath
    exact hpath
  have hrx := (rx_stmt h hget).1
  refine ⟨tracks_stmt h htracks, ?_, ?_, ?_⟩
  · show Sys.target s' = target
    rw [Sys.target, hrx]
    exact haim
  · rw [hrx]
    exact hcmd
  by_cases hloop : s.pc = .exe .loop
  · exact pathAt_loop hloop h hpath
  rw [iteration, if_neg hloop, List.append_nil]
  unfold Sys.Tracks at htracks
  cases h with
  | exeEntry hpc =>
    rw [hpc] at hpath
    obtain ⟨rfl, hstart⟩ := hpath
    exact ⟨hstart.symm, fun h => absurd rfl h⟩
  | exeTest hpc | exeMove hpc | exeArrived hpc | rotReject hpc | rotAccept hpc | rotStop hpc
  | rotLoop hpc | rotEnd hpc | rotTurn hpc | rotSleep hpc | rotHalt hpc | rotUpdate hpc
  | exeRetest hpc | exeForw hpc | exeSleep hpc | exeStop hpc | finish hpc =>
    rw [hpc] at hpath
    exact hpath
  | exeNext hpc =>
    rw [hpc] at hpath htracks
    obtain ⟨hwalked, hkept⟩ := hpath
    refine ⟨hwalked, ?_⟩
    show (calcNextCoord s.exe.new_x s.exe.new_y s.position_g s.exe.next).2 = _
    rw [htracks.1.1, htracks.1.2, haim]
    by_cases heq : s.position_g = target
    · -- at the target, after a step at least: the outputs stay what they were
      have hits : its ≠ [] := by
        rintro rfl
        exact hne (hwalked.trans heq)
      rw [nextOf, hkept hits]
    · exact congrArg Prod.snd (calcNextCoord_default _ _ heq)
  | exeHeading hpc =>
    rw [hpc] at hpath htracks
    refine ⟨hpath.1, hpath.2, ?_⟩
    show calcHeading s.exe.new_x s.exe.new_y s.position_g = _
    rw [htracks.1.1.1, htracks.1.1.2, haim]
  | exeChange hpc =>
    rw [hpc] at hpath htracks
    obtain ⟨hwalked, hnext, hheading⟩ := hpath
    obtain ⟨⟨⟨-, -, hdone⟩, -⟩, -⟩ := htracks
    rw [haim] at hdone
    exact ⟨rfl, s.position_g, hwalked, hnext, hheading, hdone⟩
  | exeBlocked hpc hb =>
    rw [hflag hpc] at hb
    cases hb
  | exeNoMove hpc hne => exact absurd hcmd hne
  | exeDone hpc | exeAgain hpc => exact absurd hpc hloop
  | exeRet hpc => exact absurd hpc hret
  | @msg c hpc | @put c _ hpc =>
    rw [hpc] at hpath
    cases c <;> exact hpath
  | top hpc | toWait hpc | toExe hpc | toCol hpc | toReset hpc | waitStop hpc | waitGet hpc
  | waitMove hpc | waitReset hpc | waitDirect hpc | waitHalt hpc | waitGarbage hpc
  | waitDrive hpc | exeOther hpc | colHigh hpc | colLow hpc | colStop hpc | colSleep hpc
  | colRet hpc | reset hpc =>
    rw [hpc] at hpath
    exact hpath.elim

theorem follows_step (hne : start ≠ target) (h : step s a = some s') (ha : Unstopped s a)
    (hs : s.Follows start target its) : s'.Follows start target (its ++ iteration s a) := by
  cases step_cases h with
  | thread h => exact follows_stmt hne h ha hs
  | fall | rise | command | sensor | drain =>
    rw [iteration, List.append_nil]
    exact ⟨hs.tracks, hs.aim, hs.cmd, hs.path⟩

/-! ### The loop ends -/

/-- The thread goes on. -/
def Act.isThread : Act → Bool
  | .thread _ => true
  | .edge | .command _ | .sensor _ | .drain => false

theorem costAt_pos {pc : Pc} (hin : pc.InExe) (done : Bool) (dist quarters left : ℕ) :
    0 < costAt done dist quarters left pc := by
  cases pc with
  | top | switch | wait _ | col _ | reset => exact hin.elim
  | exe p =>
    cases p with
    | loop => cases done <;> exact Nat.succ_pos _
    | ret => exact hin.elim
    | _ => exact Nat.succ_pos _
  | rotate p => cases p <;> exact Nat.succ_pos _
  | msg c | put c o =>
    cases c with
    | waitEnd | blocked => exact hin.elim
    | turning | forward | finished => exact Nat.succ_pos _
    | loopEnd => cases done <;> exact Nat.succ_pos _

/-- A statement of the handler lowers the cost. -/
theorem cost_lt (h : Stmt junk s s') (hs : s.Tracks) (hin : s.pc.InExe)
    (ha : Unstopped s (.thread junk)) :
    s'.cost < s.cost ∧ (s'.pc.InExe ∨ s'.pc = .exe .ret) := by
  rcases cost_stmt h hs hin ha.2 with hret | ⟨hin', hlt⟩
  · have hzero : s'.cost = 0 := by rw [Sys.cost, hret]; rfl
    rw [hzero]
    exact ⟨costAt_pos hin _ _ _ _, Or.inr hret⟩
  · exact ⟨hlt, Or.inl hin'⟩

/-- **A bound.**  The handler has no more statements to go through than its cost. -/
theorem threads_le {es : List Act} {t : Sys} (h : exec (restrict Unstopped step) s es = some t)
    (hs : s.Tracks) (hin : s.pc.InExe ∨ s.pc = .exe .ret) :
    es.countP Act.isThread + t.cost ≤ s.cost ∧ t.Tracks ∧ (t.pc.InExe ∨ t.pc = .exe .ret) := by
  have hspend : ∀ s a s', (s.Tracks ∧ (s.pc.InExe ∨ s.pc = .exe .ret)) →
      restrict Unstopped step s a = some s' → (s'.Tracks ∧ (s'.pc.InExe ∨ s'.pc = .exe .ret)) ∧
        (if a.isThread then 1 else 0) + s'.cost ≤ s.cost := by
    rintro s a s' ⟨hs, hin⟩ hs'
    rw [restrict_eq_some] at hs'
    obtain ⟨ha, hstep⟩ := hs'
    have hcases := step_cases hstep
    have htracks := tracks_step hs hcases
    cases hcases with
    | thread hstmt =>
      obtain ⟨hlt, hin'⟩ := cost_lt hstmt hs (hin.resolve_right ha.1) ha
      refine ⟨⟨htracks, hin'⟩, ?_⟩
      rw [if_pos (by rfl)]
      omega
    | fall | rise | command | sensor | drain =>
      -- the others leave the handler alone
      refine ⟨⟨htracks, hin⟩, ?_⟩
      rw [if_neg (by simp [Act.isThread]), zero_add]
      exact le_rfl
  obtain ⟨⟨ht, hin'⟩, hle⟩ := exec_countP_le hspend h ⟨hs, hin⟩
  exact ⟨hle, ht, hin'⟩

/-- **The handler can always end.**  If `blocked_flag` is set where it is tested next, the alert
    falls first. -/
theorem canReach_ret (hs : s.Tracks) (hin : s.pc.InExe ∨ s.pc = .exe .ret) :
    CanReach (restrict Unstopped step) s fun t => t.pc = .exe .ret := by
  rcases hin with hin | hret
  · have hclear (t : Sys) (hflag : t.blocked_flag = false) (ht : t.Tracks) (hin : t.pc.InExe) :
        CanReach (restrict Unstopped step) t fun t => t.pc = .exe .ret := by
      refine thread_leads_to (P := fun t => t.blocked_flag = false ∧ t.Tracks ∧ t.pc.InExe)
        Sys.cost ⟨0, 0⟩ (fun t ht => inExe_get ht.2.2) ?_ ?_ ?_ t ⟨hflag, ht, hin⟩
      · rintro t ⟨hflag, -, hin⟩
        exact ⟨⟨fun hpc => (hpc ▸ hin :), fun _ => hflag⟩, trivial⟩
      · exact fun t tx ht => ⟨ht, rfl⟩
      · rintro t t' ⟨hflag, ht, hin⟩ hstmt
        refine (cost_stmt hstmt ht hin fun _ => hflag).imp id ?_
        rintro ⟨hin', hlt⟩
        exact ⟨⟨(flag_stmt hstmt).trans hflag, tracks_stmt hstmt ht, hin'⟩, hlt⟩
    have hedge (t : Sys) : restrict Unstopped step t .edge = some t.edge :=
      restrict_eq_some.mpr ⟨trivial, rfl⟩
    cases hpin : s.u_alert with
    | true =>
      refine .cons (hedge s) ?_
      rw [edge_of_high hpin]
      exact hclear s.fall rfl hs hin
    | false =>
      refine .cons (hedge s) (.cons (hedge _) ?_)
      rw [edge_of_low hpin, edge_of_high (s := s.rise) rfl]
      exact hclear s.rise.fall rfl hs hin
  · exact .refl hret

/-- **The path of a move.**  For every start and every other target, the iterations of a handler
    that is never blocked are a route, one more than the distance, and end at the target; it
    goes through a bounded number of statements, and can always go on to its end. -/
theorem move_path (hpc : s.pc = .exe .entry) (hcmd : s.rx_pdu.cmd = PDU_MOVE)
    (hne : s.position_g ≠ s.target) :
    (∀ t its, Reachable (record iteration (restrict Unstopped step)) (s, []) (t, its) →
      t.pc = .exe .ret → its.length = s.position_g.dist s.target + 1 ∧
        Route s.target s.position_g its ∧ t.position_g = s.target) ∧
    ∀ es t, exec (restrict Unstopped step) s es = some t → es.countP Act.isThread ≤ s.cost ∧
      CanReach (restrict Unstopped step) t fun u => u.pc = .exe .ret := by
  have htracks : s.Tracks := by
    unfold Sys.Tracks
    rw [hpc]
    trivial
  constructor
  · intro t its h hret
    have hfollows : t.Follows s.position_g s.target its := by
      refine h.invariant (I := fun r => r.1.Follows s.position_g s.target r.2) ?_ ?_
      · refine ⟨htracks, rfl, hcmd, ?_⟩
        rw [hpc]
        exact ⟨rfl, rfl⟩
      · intro r a r' hr hstep
        rw [record_eq_some, restrict_eq_some] at hstep
        obtain ⟨⟨ha, hstep⟩, hits⟩ := hstep
        rw [hits]
        exact follows_step hne hstep ha hr
    have hpath := hfollows.path
    rw [hret] at hpath
    exact ⟨length_of_route hpath.1, hpath.1, hpath.2⟩
  · intro es t h
    obtain ⟨hle, ht, hin⟩ := threads_le h htracks (Or.inl (hpc ▸ trivial))
    exact ⟨by omega, canReach_ret ht hin⟩

/-- A move one step south and one step east. -/
theorem move_path_two :
    let s : Sys := { boot false with
      pc := .exe .entry
      rx_pdu := { Pdu.zeroed with x := 1, y := 1 } }
    (∀ t its, Reachable (record iteration (restrict Unstopped step)) (s, []) (t, its) →
      t.pc = .exe .ret → its.length = s.position_g.dist s.target + 1 ∧
        Route s.target s.position_g its ∧ t.position_g = s.target) ∧
    ∀ es t, exec (restrict Unstopped step) s es = some t → es.countP Act.isThread ≤ s.cost ∧
      CanReach (restrict Unstopped step) t fun u => u.pc = .exe .ret :=
  move_path rfl rfl (by decide)

end Wheelson.Control
