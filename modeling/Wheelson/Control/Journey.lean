import Mathlib.Data.List.Iterate
import Wheelson.Control.Path
import Wheelson.Control.Position

namespace Wheelson.Control

/-!
# The journey of a run

Alerts interrupt a move and resume it, commands wait in the queue, and messages wait for room.
The positions recorded are those of the moves alone.

* `walk`, `journey` — what one move records, and one move after the other.
* `Sys.moves`, `Sys.records` — the destinations of the moves taken, and the positions recorded.
* `Sys.Arrived`, `Sys.Underway` — all of the journey is recorded, or all but the rest of a walk;
  `Sys.Phase` says which, statement by statement.
* `journey_recorded` — so it is in every run in which no move starts at its destination.
-/

open Machine Ipc

variable {s s' : Sys} {a : Act} {junk start target curr t : Pos} {targets : List Pos}

/-! ### What a move records -/

/-- The steps from `curr` to the target, and the target once more. -/
def walk (target curr : Pos) : List Pos :=
  List.iterate (nextOf target) (nextOf target curr) (curr.dist target + 1)

/-- The walks from one destination to the next. -/
def journey : Pos → List Pos → List Pos
  | _, [] => []
  | curr, target :: targets => walk target curr ++ journey target targets

/-- At the destination the next position is the destination. -/
theorem nextOf_self (target : Pos) : nextOf target target = target :=
  calcNextCoord_arrived target target

/-- A walk to where the robot stands is there already. -/
theorem walk_self (target : Pos) : walk target target = [target] := by
  rw [walk, dist_eq_zero.mpr rfl, nextOf_self]
  rfl

/-- A walk is a step and the walk from there. -/
theorem walk_of_ne (h : curr ≠ target) :
    walk target curr = nextOf target curr :: walk target (nextOf target curr) := by
  have hstep : StepTowards curr (nextOf target curr) target := calcNextCoord_towards curr h
  rw [walk, walk, List.iterate, hstep.2]

/-- **Induction along a walk.** -/
theorem walk_induction (target : Pos) {motive : Pos → Prop} (harrived : motive target)
    (hstep : ∀ curr, curr ≠ target → motive (nextOf target curr) → motive curr) (curr : Pos) :
    motive curr := by
  induction hdist : curr.dist target generalizing curr with
  | zero =>
    rw [dist_eq_zero.mp hdist]
    exact harrived
  | succ n ih =>
    have hne : curr ≠ target := by
      intro heq
      rw [dist_eq_zero.mpr heq] at hdist
      cases hdist
    have htowards : StepTowards curr (nextOf target curr) target := calcNextCoord_towards curr hne
    have hnext := htowards.2
    exact hstep curr hne (ih _ (by omega))

/-- A journey goes on where it has ended. -/
theorem journey_append (start : Pos) (targets targets' : List Pos) :
    journey start (targets ++ targets') =
      journey start targets ++ journey (targets.getLastD start) targets' := by
  induction targets generalizing start with
  | nil => rfl
  | cons target targets ih =>
    rw [List.cons_append, journey, journey, ih, List.append_assoc, List.getLastD_cons]

/-- The last destination adds one walk. -/
theorem journey_concat (start : Pos) (targets : List Pos) (t : Pos) :
    journey start (targets ++ [t]) = journey start targets ++ walk t (targets.getLastD start) := by
  rw [journey_append, journey, journey, List.append_nil]

/-! ### What a run has recorded -/

/-- The destination of a move. -/
def moveDest (p : Pdu) : Option Pos := if p.cmd = PDU_MOVE then some ⟨p.x, p.y⟩ else none

/-- The destination of a move that is taken. -/
def Obs.dest : Obs → Option Pos
  | .got p => moveDest p
  | _ => none

/-- The position that is recorded. -/
def Obs.recorded : Obs → Option Pos
  | .position p => some p
  | _ => none

/-- The destinations of the moves taken. -/
def Sys.moves (s : Sys) : List Pos := s.trace.filterMap Obs.dest

/-- The positions recorded. -/
def Sys.records (s : Sys) : List Pos := s.trace.filterMap Obs.recorded

/-- The destinations of the moves in the queue. -/
def Sys.queued (s : Sys) : List Pos := s.rx_pdu_fifo_g.filterMap moveDest

/-- The destination of a move that is put. -/
def Act.asks : Act → Option Pos
  | .command p => moveDest p
  | .thread _ | .edge | .sensor _ | .drain => none

/-- A log entry adds its destination, if it has one. -/
theorem moves_log (s : Sys) (o : Obs) : (s.log o).moves = s.moves ++ o.dest.toList := by
  rw [Sys.moves, Sys.log, List.filterMap_append]
  cases h : o.dest <;> simp [Sys.moves, h]

/-- A log entry adds its position, if it has one. -/
theorem records_log (s : Sys) (o : Obs) : (s.log o).records = s.records ++ o.recorded.toList := by
  rw [Sys.records, Sys.log, List.filterMap_append]
  cases h : o.recorded <;> simp [Sys.records, h]

/-- Where the robot is switched on. -/
def origin : Pos := ⟨0, 0⟩

/-- The moves taken are complete. -/
structure Sys.Arrived (s : Sys) : Prop where
  records : s.records = journey origin s.moves
  position : s.position_g = s.moves.getLastD origin
  target : s.rx_pdu.cmd = PDU_MOVE → s.position_g = s.target

/-- The walk to the last destination is not complete yet. -/
structure Sys.Underway (s : Sys) : Prop where
  records : s.records ++ walk s.target s.position_g = journey origin s.moves
  dest : s.moves.getLastD origin = s.target
  cmd : s.rx_pdu.cmd = PDU_MOVE

/-- Between two handlers: a move that is not complete is resumed. -/
def Sys.Between (s : Sys) : Prop :=
  s.Arrived ∨ s.Underway ∧ (s.state = .ST_EXE_CMD ∨ s.state = .ST_COL)

/-- The move taken last, statement by statement. -/
def Sys.Phase (s : Sys) : Prop :=
  match s.pc with
  | .wait .switch | .exe .test | .exe .move => s.Arrived ∧ s.rx_pdu.cmd ≠ PDU_MOVE ∨ s.Underway
  | .exe .arrived | .exe .next => s.Underway
  | .exe .heading | .rotate _ | .msg .turning | .put .turning _ | .exe .retest | .msg .forward
  | .put .forward _ | .exe .forw | .exe .sleep | .exe .stop | .exe .change =>
    s.Underway ∧ s.exe.next = nextOf s.target s.position_g
  | .msg .loopEnd | .put .loopEnd _ | .exe .loop =>
    (s.exe.done = true → s.Arrived) ∧ (s.exe.done = false → s.Underway)
  | .wait .stop | .wait .get | .wait (.drive _) | .exe .other | .msg .finished | .put .finished _
  | .exe .ret | .reset => s.Arrived
  | .top | .switch | .exe .entry | .col _ | .msg .waitEnd | .put .waitEnd _ | .msg .blocked
  | .put .blocked _ => s.Between

/-- The two states have recorded and taken the same. -/
structure Stays (s s' : Sys) : Prop where
  moves : s'.moves = s.moves
  records : s'.records = s.records
  position : s'.position_g = s.position_g
  rx_pdu : s'.rx_pdu = s.rx_pdu

/-- The destination stays. -/
theorem Stays.target_eq (h : Stays s s') : s'.target = s.target := by
  rw [Sys.target, h.rx_pdu]
  rfl

/-- A robot that has arrived stays where it is. -/
theorem Stays.arrived (h : Stays s s') (hs : s.Arrived) : s'.Arrived := by
  refine ⟨?_, ?_, ?_⟩
  · rw [h.records, h.moves, hs.records]
  · rw [h.position, h.moves, hs.position]
  · rw [h.position, h.target_eq, h.rx_pdu]
    exact hs.target

/-- A robot on its way stays on it. -/
theorem Stays.underway (h : Stays s s') (hs : s.Underway) : s'.Underway := by
  refine ⟨?_, ?_, ?_⟩
  · rw [h.records, h.moves, h.position, h.target_eq, hs.records]
  · rw [h.moves, h.target_eq, hs.dest]
  · rw [h.rx_pdu, hs.cmd]

/-- Only `pdu_fifo_get` takes a move. -/
theorem moves_of_ne_get (h : Stmt junk s s') (hget : s.pc ≠ .wait .get) : s'.moves = s.moves := by
  have hnone : s.logs.filterMap Obs.dest = [] := by
    refine List.filterMap_eq_nil_iff.mpr fun o ho => ?_
    cases loggedIn_of_mem ho with
    | got hpc => exact absurd hpc hget
    | motor | position | finished => rfl
  rw [Sys.moves, trace_stmt h, List.filterMap_append, hnone, List.append_nil]
  rfl

/-- Only `change_position` records a position. -/
theorem records_of_ne_change (h : Stmt junk s s') (hchange : s.pc ≠ .exe .change) :
    s'.records = s.records := by
  have hnone : s.logs.filterMap Obs.recorded = [] := by
    refine List.filterMap_eq_nil_iff.mpr fun o ho => ?_
    cases loggedIn_of_mem ho with
    | position hpc => exact absurd hpc hchange
    | motor | got | finished => rfl
  rw [Sys.records, trace_stmt h, List.filterMap_append, hnone, List.append_nil]
  rfl

/-- A move that is put is queued, and then taken. -/
theorem asked_step (h : Step s a s') :
    s'.moves ++ s'.queued = s.moves ++ s.queued ++ a.asks.toList := by
  cases h with
  | thread h =>
    rw [Act.asks, Option.toList_none, List.append_nil]
    by_cases hget : s.pc = .wait .get
    · obtain ⟨p, rest, hrx, rfl⟩ := get_stmt h hget
      show (s.log (.got p)).moves ++ rest.filterMap moveDest = _
      rw [moves_log, Sys.queued, hrx, List.append_assoc, Obs.dest]
      cases hdest : moveDest p <;> simp [hdest]
    · rw [moves_of_ne_get h hget, Sys.queued, (rx_stmt h hget).2]
      rfl
  | fall => simp [Sys.moves, Sys.queued, Sys.fall, Sys.log, Obs.dest, Act.asks]
  | rise => simp [Sys.moves, Sys.queued, Sys.rise, sendMotorCmd, Sys.log, Obs.dest, Act.asks]
  | @command p hroom =>
    show s.moves ++ (s.rx_pdu_fifo_g ++ [p]).filterMap moveDest = _
    rw [List.filterMap_append, Act.asks, List.append_assoc, Sys.queued]
    cases hdest : moveDest p <;> simp [hdest]
  | sensor | drain => exact (List.append_nil _).symm

/-- Only `pdu_fifo_get` and `change_position` change anything of this. -/
theorem stays_stmt (h : Stmt junk s s') (hget : s.pc ≠ .wait .get) (hchange : s.pc ≠ .exe .change) :
    Stays s s' where
  moves := moves_of_ne_get h hget
  records := records_of_ne_change h hchange
  position := (position_stmt h).resolve_right fun hpos => hchange hpos.1
  rx_pdu := (rx_stmt h hget).1

/-- Between two handlers the state has to stay as well. -/
theorem Stays.between (h : Stays s s') (hstate : s'.state = s.state) (hs : s.Between) :
    s'.Between := by
  rcases hs with hs | ⟨hs, hgo⟩
  · exact .inl (h.arrived hs)
  · exact .inr ⟨h.underway hs, hstate ▸ hgo⟩

/-- The phase is that of what has been recorded and taken. -/
theorem Stays.phase (h : Stays s s') (hpc : s'.pc = s.pc) (hstate : s'.state = s.state)
    (hexe : s'.exe = s.exe) (hs : s.Phase) : s'.Phase := by
  unfold Sys.Phase at hs ⊢
  rw [hpc, hexe, h.target_eq, h.position, h.rx_pdu]
  generalize s.pc = pc at hs ⊢
  cases pc with
  | top | switch | col => exact h.between hstate hs
  | reset => exact h.arrived hs
  | wait p =>
    cases p with
    | switch => exact hs.imp (fun hs => ⟨h.arrived hs.1, hs.2⟩) h.underway
    | stop | get | drive => exact h.arrived hs
  | exe p =>
    cases p with
    | entry => exact h.between hstate hs
    | test | move => exact hs.imp (fun hs => ⟨h.arrived hs.1, hs.2⟩) h.underway
    | arrived | next => exact h.underway hs
    | heading | retest | forw | sleep | stop | change => exact ⟨h.underway hs.1, hs.2⟩
    | other | ret => exact h.arrived hs
    | loop => exact hs.imp (h.arrived ∘ ·) (h.underway ∘ ·)
  | rotate p => exact ⟨h.underway hs.1, hs.2⟩
  | msg c | put c o =>
    cases c with
    | waitEnd | blocked => exact h.between hstate hs
    | turning | forward => exact ⟨h.underway hs.1, hs.2⟩
    | loopEnd => exact hs.imp (h.arrived ∘ ·) (h.underway ∘ ·)
    | finished => exact h.arrived hs

/-- In the other two states no move is left. -/
theorem Sys.Between.arrived (h : s.Between)
    (hstate : s.state = .ST_WAIT_CMD ∨ s.state = .ST_RESET) : s.Arrived := by
  rcases h with h | ⟨-, hgo⟩
  · exact h
  · rcases hstate with hstate | hstate <;> simp [hstate] at hgo

theorem arrived_of_ne (h : s.Arrived ∧ s.rx_pdu.cmd ≠ PDU_MOVE ∨ s.Underway)
    (hcmd : s.rx_pdu.cmd ≠ PDU_MOVE) : s.Arrived := by
  rcases h with h | h
  · exact h.1
  · exact absurd h.cmd hcmd

/-! ### One statement -/

theorem change_stmt (h : Stmt junk s s') (hchange : s.pc = .exe .change) :
    s' = ({ s with position_g := s.exe.next }.log (.position s.exe.next)).goto (.msg .loopEnd) := by
  cases h with
  | exeChange hpc => rfl
  | exeBlocked hpc => rcases hpc with hpc | hpc <;> cases hchange.symm.trans hpc
  | _ hpc => cases hchange.symm.trans hpc

/-- A move is taken, and its walk is all that is left; another command leaves nothing. -/
theorem phase_get {p : Pdu} {rest : List Pdu} (hs : s.Arrived) : Sys.Phase
    (({ s with rx_pdu := p, rx_pdu_fifo_g := rest }.log (.got p)).goto (.wait .switch)) := by
  obtain ⟨hrecords, hposition, -⟩ := hs
  have hrecs : (s.log (.got p)).records = s.records := by simp [records_log, Obs.recorded]
  by_cases hcmd : p.cmd = PDU_MOVE
  · have hmoves : (s.log (.got p)).moves = s.moves ++ [⟨p.x, p.y⟩] := by
      simp [moves_log, Obs.dest, moveDest, hcmd]
    refine .inr ⟨?_, ?_, hcmd⟩
    · show (s.log (.got p)).records ++ walk ⟨p.x, p.y⟩ s.position_g
        = journey origin (s.log (.got p)).moves
      rw [hmoves, hrecs, journey_concat, hrecords, hposition]
    · show (s.log (.got p)).moves.getLastD origin = ⟨p.x, p.y⟩
      rw [hmoves, List.getLastD_concat]
  · have hmoves : (s.log (.got p)).moves = s.moves := by simp [moves_log, Obs.dest, moveDest, hcmd]
    refine .inl ⟨⟨?_, ?_, fun h => absurd h hcmd⟩, hcmd⟩
    · show (s.log (.got p)).records = journey origin (s.log (.got p)).moves
      rw [hmoves, hrecs, hrecords]
    · show s.position_g = (s.log (.got p)).moves.getLastD origin
      rw [hmoves, hposition]

/-- A step of the walk is recorded, or the target at its end. -/
theorem phase_change (hmoving : s.Moving) (hs : s.Underway)
    (hnext : s.exe.next = nextOf s.target s.position_g) : Sys.Phase
    (({ s with position_g := s.exe.next }.log (.position s.exe.next)).goto (.msg .loopEnd)) := by
  obtain ⟨hrecords, hdest, hcmd⟩ := hs
  have hrecs : (s.log (.position s.exe.next)).records = s.records ++ [s.exe.next] :=
    records_log s _
  have hmoves : (s.log (.position s.exe.next)).moves = s.moves := by simp [moves_log, Obs.dest]
  refine ⟨fun hdone => ?_, fun hdone => ?_⟩
  · -- the walk ends where it stays
    have harrived := hmoving.2.2.mp hdone
    rw [harrived, nextOf_self] at hnext
    rw [harrived, walk_self] at hrecords
    refine ⟨?_, ?_, fun _ => hnext⟩
    · show (s.log (.position s.exe.next)).records
        = journey origin (s.log (.position s.exe.next)).moves
      rw [hrecs, hmoves, hnext, hrecords]
    · show s.exe.next = (s.log (.position s.exe.next)).moves.getLastD origin
      rw [hmoves, hnext, hdest]
  · refine ⟨?_, ?_, hcmd⟩
    · show (s.log (.position s.exe.next)).records ++ walk s.target s.exe.next
        = journey origin (s.log (.position s.exe.next)).moves
      rw [hrecs, hmoves, ← hrecords, walk_of_ne (hmoving.ne hdone), ← hnext, List.append_assoc]
      rfl
    · show (s.log (.position s.exe.next)).moves.getLastD origin = s.target
      rw [hmoves, hdest]

/-- The step that `calc_next_coord` writes. -/
theorem next_of_moving (hmoving : s.Moving)
    (hkept : s.position_g = s.target → s.exe.next = s.position_g) :
    (calcNextCoord s.exe.new_x s.exe.new_y s.position_g s.exe.next).2 =
      nextOf s.target s.position_g := by
  rw [hmoving.1.1, hmoving.1.2]
  by_cases heq : s.position_g = s.target
  · rw [hkept heq, ← heq]
    rfl
  · exact congrArg Prod.snd (calcNextCoord_default _ _ heq)

/-- **Step rule.** -/
theorem phase_stmt (h : Stmt junk s s') (hentry : ¬ s.EntersAtTarget) (ht : s.Tracks)
    (hk : s.Kept) (hs : s.Phase) : s'.Phase := by
  unfold Sys.Phase at hs
  unfold Sys.Tracks at ht
  unfold Sys.Kept at hk
  by_cases hget : s.pc = .wait .get
  · rw [hget] at hs
    obtain ⟨p, rest, -, rfl⟩ := get_stmt h hget
    exact phase_get hs
  by_cases hchange : s.pc = .exe .change
  · rw [hchange] at hs ht
    rw [change_stmt h hchange]
    exact phase_change ht.1.1 hs.1 hs.2
  have hstays := stays_stmt h hget hchange
  cases h with
  | top hpc =>
    rw [hpc] at hs
    rcases hs with hs | ⟨hs, hgo⟩
    · exact .inl (hstays.arrived hs)
    · refine .inr ⟨hstays.underway hs, ?_⟩
      show (if s.blocked_flag then State.ST_COL else s.state) = _ ∨ _ = _
      split
      · exact .inr rfl
      · exact hgo
  | toWait hpc hstate =>
    rw [hpc] at hs
    exact hstays.arrived (hs.arrived (.inl hstate))
  | toReset hpc hstate =>
    rw [hpc] at hs
    exact hstays.arrived (hs.arrived (.inr hstate))
  | toExe hpc | toCol hpc | colHigh hpc | colLow hpc | colStop hpc | colSleep hpc =>
    rw [hpc] at hs
    exact hstays.between rfl hs
  | colRet hpc =>
    rw [hpc] at hs
    exact hs.imp hstays.arrived fun hs => ⟨hstays.underway hs.1, .inl rfl⟩
  | waitStop hpc =>
    rw [hpc] at hs
    exact hstays.arrived hs
  | waitMove hpc hcmd =>
    rw [hpc] at hs
    rcases hs with ⟨-, hne⟩ | hs
    · exact absurd hcmd hne
    · exact .inr ⟨hstays.underway hs, .inl rfl⟩
  | waitReset hpc hcmd =>
    rw [hpc] at hs
    exact .inl (hstays.arrived (arrived_of_ne hs (by rw [hcmd]; decide)))
  | waitDirect hpc hcmd =>
    rw [hpc] at hs
    refine hstays.arrived (arrived_of_ne hs ?_)
    rcases hcmd with hcmd | hcmd | hcmd | hcmd <;> rw [hcmd] <;> decide
  | waitHalt hpc hcmd =>
    rw [hpc] at hs
    exact hstays.arrived (arrived_of_ne hs (by rw [hcmd]; decide))
  | waitGarbage hpc hcmd =>
    rw [hpc] at hs
    exact .inl (hstays.arrived (arrived_of_ne hs hcmd))
  | waitDrive hpc | exeRet hpc | reset hpc =>
    rw [hpc] at hs
    exact .inl (hstays.arrived hs)
  | exeEntry hpc =>
    rw [hpc] at hs
    rcases hs with hs | ⟨hs, -⟩
    · -- a move whose destination is reached is not entered again
      exact .inl ⟨hstays.arrived hs, fun hcmd => hentry ⟨hpc, hcmd, hs.target hcmd⟩⟩
    · exact .inr (hstays.underway hs)
  | exeBlocked hpc =>
    -- the alert stops the handler, and the walk is resumed after it
    rcases hpc with hpc | hpc <;> rw [hpc] at hs
    · exact hs.imp (fun hs => hstays.arrived hs.1) fun hs => ⟨hstays.underway hs, .inr rfl⟩
    · exact .inr ⟨hstays.underway hs.1, .inr rfl⟩
  | exeTest hpc =>
    rw [hpc] at hs
    exact hs.imp (fun hs => ⟨hstays.arrived hs.1, hs.2⟩) hstays.underway
  | exeMove hpc hcmd =>
    rw [hpc] at hs
    exact hstays.underway (hs.resolve_left fun hs => hs.2 hcmd)
  | exeNoMove hpc hcmd =>
    rw [hpc] at hs
    exact hstays.arrived (arrived_of_ne hs hcmd)
  | exeArrived hpc =>
    rw [hpc] at hs
    exact hstays.underway hs
  | exeNext hpc =>
    rw [hpc] at hs ht hk
    exact ⟨hstays.underway hs, next_of_moving ht hk⟩
  | exeHeading hpc | rotReject hpc | rotAccept hpc | rotStop hpc | rotLoop hpc | rotEnd hpc
  | rotTurn hpc | rotSleep hpc | rotHalt hpc | rotUpdate hpc | exeRetest hpc | exeForw hpc
  | exeSleep hpc | exeStop hpc =>
    rw [hpc] at hs
    exact ⟨hstays.underway hs.1, hs.2⟩
  | exeChange hpc => exact absurd hpc hchange
  | exeOther hpc =>
    rw [hpc] at hs
    exact ⟨fun _ => hstays.arrived hs, nofun⟩
  | exeDone hpc hdone =>
    rw [hpc] at hs
    exact hstays.arrived (hs.1 hdone)
  | exeAgain hpc hdone =>
    rw [hpc] at hs
    exact .inr (hstays.underway (hs.2 hdone))
  | waitGet hpc => exact absurd hpc hget
  | finish hpc =>
    rw [hpc] at hs
    exact hstays.arrived hs
  | @msg c hpc | @put c _ hpc =>
    rw [hpc] at hs
    cases c with
    | waitEnd => exact hstays.between rfl hs
    | blocked => exact hstays.between rfl hs
    | turning => exact ⟨hstays.underway hs.1, hs.2⟩
    | forward => exact ⟨hstays.underway hs.1, hs.2⟩
    | loopEnd => exact hs.imp (hstays.arrived ∘ ·) (hstays.underway ∘ ·)
    | finished => exact hstays.arrived hs

/-! ### Every run -/

instance : DecidablePred Sys.EntersAtTarget := fun s =>
  inferInstanceAs
    (Decidable (s.pc = .exe .entry ∧ s.rx_pdu.cmd = PDU_MOVE ∧ s.position_g = s.target))

/-- The machine with the moves that start at their destination disabled. -/
def soundStep : Sys → Act → Option Sys := restrict (EntersIn fun s => ¬ s.EntersAtTarget) step

/-- The invariant of its runs. -/
structure Sys.Journeys (s : Sys) : Prop where
  tracks : s.Tracks
  kept : s.Kept
  phase : s.Phase
  position : s.position_g = s.records.getLastD origin

/-- Nothing has been taken. -/
theorem journeys_boot (pin : Bool) : (boot pin).Journeys :=
  ⟨trivial, trivial, .inl ⟨rfl, rfl, fun _ => rfl⟩, rfl⟩

/-- The position is the one recorded last. -/
theorem position_recorded (h : Stmt junk s s') (hs : s.position_g = s.records.getLastD origin) :
    s'.position_g = s'.records.getLastD origin := by
  by_cases hchange : s.pc = .exe .change
  · rw [change_stmt h hchange]
    show s.exe.next = (s.log (.position s.exe.next)).records.getLastD origin
    rw [records_log]
    exact (List.getLastD_concat ..).symm
  · rw [records_of_ne_change h hchange,
      (position_stmt h).resolve_right fun hpos => hchange hpos.1, hs]

/-- **Step rule.** -/
theorem journeys_step (hs : s.Journeys) (h : soundStep s a = some s') : s'.Journeys := by
  obtain ⟨hentry, hstep⟩ := restrict_eq_some.mp h
  obtain ⟨htracks, hkept, hphase, hposition⟩ := hs
  have hcases := step_cases hstep
  have htracks' := tracks_step htracks hcases
  cases hcases with
  | thread h =>
    have hentry : ¬ s.EntersAtTarget := fun hat => hentry hat.1 hat
    exact ⟨htracks', kept_stmt h hentry htracks hkept, phase_stmt h hentry htracks hkept hphase,
      position_recorded h hposition⟩
  | fall =>
    have hstays : Stays s s.fall :=
      ⟨by simp [Sys.moves, Sys.fall, Sys.log, Obs.dest],
        by simp [Sys.records, Sys.fall, Sys.log, Obs.recorded], rfl, rfl⟩
    refine ⟨htracks', hkept, hstays.phase rfl rfl rfl hphase, ?_⟩
    rw [hstays.records, hstays.position, hposition]
  | rise =>
    have hstays : Stays s s.rise :=
      ⟨by simp [Sys.moves, Sys.rise, sendMotorCmd, Sys.log, Obs.dest],
        by simp [Sys.records, Sys.rise, sendMotorCmd, Sys.log, Obs.recorded], rfl, rfl⟩
    refine ⟨htracks', hkept, hstays.phase rfl rfl rfl hphase, ?_⟩
    rw [hstays.records, hstays.position, hposition]
  | command | sensor | drain =>
    exact ⟨htracks', hkept, Stays.phase (s := s) ⟨rfl, rfl, rfl, rfl⟩ rfl rfl rfl hphase,
      hposition⟩

/-- At every statement the robot has arrived, or is on its way. -/
theorem Sys.Phase.arrived_or_underway (h : s.Phase) : s.Arrived ∨ s.Underway := by
  have hloop (h : (s.exe.done = true → s.Arrived) ∧ (s.exe.done = false → s.Underway)) :
      s.Arrived ∨ s.Underway := by
    cases hdone : s.exe.done with
    | true => exact .inl (h.1 hdone)
    | false => exact .inr (h.2 hdone)
  unfold Sys.Phase at h
  split at h
  all_goals
    first
    | exact .inl h
    | exact .inr h
    | exact .inr h.1
    | exact hloop h
    | exact h.imp_left (·.1)
    | exact h.imp_right (·.1)

/-- In both cases it has recorded a beginning of its journey. -/
theorem Sys.Phase.prefixed (h : s.Phase) : s.records <+: journey origin s.moves := by
  rcases h.arrived_or_underway with h | h
  · exact h.records ▸ List.prefix_rfl
  · exact ⟨_, h.records⟩

/-- **Run rule.** -/
theorem journeys_reachable {pin : Bool} (h : Reachable soundStep (boot pin) s) : s.Journeys :=
  h.invariant (journeys_boot pin) fun _ _ _ => journeys_step

/-- What is recorded is a beginning of the journey. -/
theorem journey_begun {pin : Bool} (h : Reachable soundStep (boot pin) s) :
    s.records <+: journey origin s.moves :=
  (journeys_reachable h).phase.prefixed

/-- When the thread waits for a command, all of it is. -/
theorem arrived_of_get {pin : Bool} (h : Reachable soundStep (boot pin) s)
    (hget : s.pc = .wait .get) : s.Arrived := by
  have hphase := (journeys_reachable h).phase
  rw [Sys.Phase, hget] at hphase
  exact hphase

/-- **Alerts delay a journey, and never change it.**  In every run from boot in which
    `exe_handler` is not entered for a move to the position, whatever the commands, the alerts and
    the other threads: what has been recorded is the beginning of the walks from one destination
    taken to the next, the position is what was recorded last, and when the next command is
    waited for the walks are complete and the robot is at the last destination. -/
theorem journey_recorded (pin : Bool) (h : Reachable soundStep (boot pin) s) :
    s.records <+: journey origin s.moves ∧ s.position_g = s.records.getLastD origin ∧
      (s.pc = .wait .get →
        s.records = journey origin s.moves ∧ s.position_g = s.moves.getLastD origin) := by
  refine ⟨journey_begun h, (journeys_reachable h).position, fun hget => ?_⟩
  have harrived := arrived_of_get h hget
  exact ⟨harrived.records, harrived.position⟩

/-- A move of two steps; U_ALERT rises when one is recorded and falls while `col_handler`
    waits. -/
def resumedRun : Option Sys :=
  exec soundStep (boot false) (.command { Pdu.zeroed with y := 2 } ::
    (List.replicate 31 (.thread ⟨7, 7⟩) ++ .edge :: List.replicate 9 (.thread ⟨7, 7⟩)
      ++ .edge :: List.replicate 49 (.thread ⟨7, 7⟩)))

/-- The alert has risen on the way, and the move has been taken up again. -/
theorem journey_recorded_resumed :
    ∃ s : Sys, Reachable soundStep (boot false) s ∧
      s.records = [⟨0, 1⟩, ⟨0, 2⟩, ⟨0, 2⟩] ∧ s.records = journey origin s.moves := by
  have hrun : resumedRun = some (resumedRun.get (by decide +kernel)) := (Option.some_get _).symm
  have hr := Reachable.exec _ .init hrun
  exact ⟨_, hr, by decide +kernel, ((journey_recorded false hr).2.2 (by decide +kernel)).1⟩

end Wheelson.Control
