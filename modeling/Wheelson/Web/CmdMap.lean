import Mathlib.Data.List.Induction
import Wheelson.Lib.Machine
import Wheelson.Tcp.CmdClient

namespace Wheelson.Web

/-!
# `bridge.py`: the command map

The page draws a map of cells; a click places a waypoint on one, and the updates of the robot
move its icon.

An event is a whole click or a whole round of the update loop, and the events come one after the
other.  The page does not see to that: the loop of `webpage` never returns, and the callback of a
button runs beside it, on the same `cmd_map` and `wheelson_pos`.  A click that falls between two
statements of a round is not modelled.

* `Page` — `cmd_map`, `wheelson_pos`, the table that the page shows, and the commands put on
  the pipe.
* `placeWaypoint`, `moveWheelson`, `showCmdMap` — the three routines that write the map.
* `step` — a click, or one round of the update loop.
* `robot`, `ClickedSinceLeft` — the robot's position and the waypoints, from the events alone.
* `cmdMap_history` — the map is what the events say.
* `exec_shows`, `exec_frames` — the table shows the map, and each click is sent.
-/

open Machine Ipc Tcp

/-! ### The page -/

abbrev CMD_MAP_SIZE : ℕ := 10

/-- A cell of the grid. -/
abbrev GridPos := Fin CMD_MAP_SIZE × Fin CMD_MAP_SIZE

def WHEELSON_DEFAULT_POS : GridPos := (0, 0)

/-- What `cmd_map` holds; `blank` is -1. -/
inductive Cell
  | blank | WHEELSON | WAYPOINT
deriving DecidableEq, Repr

/-- What the table shows in a cell: a button that calls `place_waypoint`, or an icon. -/
inductive Widget
  | button (value : GridPos)
  | icon (text : String)
deriving DecidableEq, Repr

/-- The globals of the page, its table, and what has been put on `cmdPipe_g`. -/
structure Page where
  cmd_map : GridPos → Cell
  wheelson_pos : GridPos
  table : GridPos → Widget
  cmdPipe : List PyPdu

/-- The entry of the table for a cell. -/
def widget (pos : GridPos) : Cell → Widget
  | .blank => .button pos
  | .WHEELSON => .icon "🚗"
  | .WAYPOINT => .icon "📍"

/-- `cmd_map[pos] = cell`. -/
def Page.setCell (s : Page) (pos : GridPos) (cell : Cell) : Page :=
  { s with cmd_map := Function.update s.cmd_map pos cell }

/-- `show_cmd_map`. -/
def showCmdMap (s : Page) : Page :=
  let s := s.setCell s.wheelson_pos .WHEELSON
  { s with table := fun pos => widget pos (s.cmd_map pos) }

/-- The PDU of a click. -/
def movePdu (pos : GridPos) : PyPdu where
  cmd := PDU_MOVE.toNat
  x := pos.1
  y := pos.2
  msg := "MOVE_CMD".toList
  msg_len := "MOVE_CMD".length + 1

/-- `place_waypoint`. -/
def placeWaypoint (pos : GridPos) (s : Page) : Page :=
  let s := s.setCell pos .WAYPOINT
  let s := { s with cmdPipe := s.cmdPipe ++ [movePdu pos] }
  showCmdMap (s.setCell s.wheelson_pos .WHEELSON)

/-- The cell `cmd_map[int(x)][int(y)]`; Python raises on `None` and outside the lists. -/
def gridPos : Option ℕ → Option ℕ → Option GridPos
  | some x, some y => if h : x < CMD_MAP_SIZE ∧ y < CMD_MAP_SIZE then some (⟨x, h.1⟩, ⟨y, h.2⟩)
    else none
  | _, _ => none

/-- `move_wheelson`. -/
def moveWheelson (x y : Option ℕ) (s : Page) : Option Page :=
  (gridPos x y).map fun pos =>
    -- set new wheelson location
    let s := s.setCell pos .WHEELSON
    -- erase previous location
    let s := s.setCell s.wheelson_pos .blank
    { s with wheelson_pos := pos }

/-- `webpage` in the first session, before its loop. -/
def webpage : Page :=
  showCmdMap
    { cmd_map := Function.update (fun _ => .blank) WHEELSON_DEFAULT_POS .WHEELSON
      wheelson_pos := WHEELSON_DEFAULT_POS
      table := fun pos => .button pos
      cmdPipe := [] }

inductive Event
  /-- The button of a cell is clicked. -/
  | place_waypoint (pos : GridPos)
  /-- `updatePipe_g.get()` returns a PDU. -/
  | update (rx_pdu : PyObj)
deriving DecidableEq

/-- The PDU reports a position. -/
def Reports (rx_pdu : PyObj) : Prop :=
  rx_pdu.cmd = some PDU_UPDATE.toNat ∨ rx_pdu.cmd = some PDU_BLOCK.toNat

instance (rx_pdu : PyObj) : Decidable (Reports rx_pdu) := inferInstanceAs (Decidable (_ ∨ _))

/-- One event, handled as a whole: the click by `place_waypoint`, the update by one round of the
    loop of `webpage`.  `none` when Python raises. -/
def step (s : Page) : Event → Option Page
  | .place_waypoint pos => some (placeWaypoint pos s)
  | .update rx_pdu =>
    if Reports rx_pdu then
      let (curr_x, curr_y) := s.wheelson_pos
      if some curr_x.val ≠ rx_pdu.x ∨ some curr_y.val ≠ rx_pdu.y then
        (moveWheelson rx_pdu.x rx_pdu.y s).map showCmdMap
      else some s
    else some s

/-! ### What the events say -/

/-- The PDU that an event sends. -/
def Event.sends : Event → List PyPdu
  | .place_waypoint pos => [movePdu pos]
  | .update _ => []

/-- The position that an event reports. -/
def Event.pos : Event → Option GridPos
  | .place_waypoint _ => none
  | .update rx_pdu => if Reports rx_pdu then gridPos rx_pdu.x rx_pdu.y else none

/-- A position that is reported is on the grid. -/
def Event.OnGrid : Event → Prop
  | .place_waypoint _ => True
  | .update rx_pdu => Reports rx_pdu → (gridPos rx_pdu.x rx_pdu.y).isSome

instance (e : Event) : Decidable e.OnGrid := by
  cases e <;> unfold Event.OnGrid <;> infer_instance

/-- Where the robot is: at the position reported last. -/
def robot (es : List Event) : GridPos := (es.filterMap Event.pos).getLastD WHEELSON_DEFAULT_POS

/-- The cell `pos` is clicked. -/
def Clicks (pos : GridPos) (_ : List Event) (e : Event) : Prop := e = .place_waypoint pos

/-- The robot leaves the cell `pos`. -/
def Leaves (pos : GridPos) (es : List Event) (e : Event) : Prop :=
  robot es = pos ∧ robot (es ++ [e]) ≠ pos

/-- The cell has been clicked since the robot last left it, or at all if it never did. -/
def ClickedSinceLeft (es : List Event) (pos : GridPos) : Prop :=
  Since (Clicks pos) (Leaves pos) es

/-- The map after these events: the robot's icon is on its cell, and every other cell has a
    waypoint or is blank. -/
structure Matches (es : List Event) (s : Page) : Prop where
  wheelson_pos : s.wheelson_pos = robot es
  wheelson : ∀ pos, s.cmd_map pos = .WHEELSON ↔ pos = s.wheelson_pos
  waypoint : ∀ pos ≠ s.wheelson_pos, (s.cmd_map pos = .WAYPOINT ↔ ClickedSinceLeft es pos)
  blank : ∀ pos ≠ s.wheelson_pos, (s.cmd_map pos = .blank ↔ ¬ ClickedSinceLeft es pos)

variable {s s' : Page} {e : Event} {es : List Event} {pos : GridPos}

/-! ### The three routines -/

@[simp] theorem setCell_cmd_map (s : Page) (pos : GridPos) (cell : Cell) (q : GridPos) :
    (s.setCell pos cell).cmd_map q = if q = pos then cell else s.cmd_map q :=
  Function.update_apply ..

@[simp] theorem setCell_wheelson_pos (s : Page) (pos : GridPos) (cell : Cell) :
    (s.setCell pos cell).wheelson_pos = s.wheelson_pos := rfl

@[simp] theorem showCmdMap_wheelson_pos (s : Page) :
    (showCmdMap s).wheelson_pos = s.wheelson_pos := rfl

@[simp] theorem showCmdMap_cmd_map (s : Page) (q : GridPos) :
    (showCmdMap s).cmd_map q = if q = s.wheelson_pos then .WHEELSON else s.cmd_map q :=
  setCell_cmd_map ..

/-- The robot's icon is restored over a waypoint on its own cell. -/
theorem placeWaypoint_cmd_map (s : Page) (pos q : GridPos) :
    (placeWaypoint pos s).cmd_map q = if q = s.wheelson_pos then .WHEELSON
      else if q = pos then .WAYPOINT else s.cmd_map q := by
  unfold placeWaypoint
  rw [showCmdMap_cmd_map, setCell_cmd_map]
  simp only [setCell_wheelson_pos, setCell_cmd_map]
  split <;> rfl

/-- The new cell gets the icon and the old one becomes blank. -/
theorem moveWheelson_of {x y : Option ℕ} (h : gridPos x y = some pos) :
    ∃ s', (moveWheelson x y s).map showCmdMap = some s' ∧ s'.wheelson_pos = pos ∧
      ∀ q, s'.cmd_map q = if q = pos then .WHEELSON
        else if q = s.wheelson_pos then .blank else s.cmd_map q := by
  unfold moveWheelson
  rw [h]
  refine ⟨_, rfl, rfl, fun q => ?_⟩
  rw [showCmdMap_cmd_map]
  dsimp only
  rw [setCell_cmd_map, setCell_cmd_map, setCell_wheelson_pos]
  split
  · rfl
  · rfl

/-! ### One event -/

theorem gridPos_eq_iff {x y : Option ℕ} (h : gridPos x y = some pos) (q : GridPos) :
    (some q.1.val ≠ x ∨ some q.2.val ≠ y) ↔ q ≠ pos := by
  unfold gridPos at h
  split at h
  · split at h
    · cases h
      rw [← not_and_or, not_iff_not, Prod.ext_iff, Fin.ext_iff, Fin.ext_iff]
      simp
    · cases h
  · cases h

/-- **Step rule.**  The robot's cell has its icon, a cell that is clicked gets a waypoint, the
    cell that the robot leaves becomes blank, and the others stay. -/
theorem step_spec (hs : s.cmd_map s.wheelson_pos = .WHEELSON) (he : e.OnGrid) :
    ∃ s', step s e = some s' ∧ s'.wheelson_pos = e.pos.getD s.wheelson_pos ∧
      ∀ q, s'.cmd_map q = if q = s'.wheelson_pos then .WHEELSON
        else if e = .place_waypoint q then .WAYPOINT
        else if q = s.wheelson_pos then .blank else s.cmd_map q := by
  -- an event that changes nothing
  have hsame (rx_pdu : PyObj) (q : GridPos) : s.cmd_map q = if q = s.wheelson_pos then .WHEELSON
      else if Event.update rx_pdu = .place_waypoint q then .WAYPOINT
      else if q = s.wheelson_pos then .blank else s.cmd_map q := by
    split
    · rename_i hq
      rw [hq, hs]
    · rfl
  cases e with
  | place_waypoint pos =>
    refine ⟨_, rfl, rfl, fun q => ?_⟩
    have hpos : (placeWaypoint pos s).wheelson_pos = s.wheelson_pos := rfl
    rw [placeWaypoint_cmd_map, hpos]
    by_cases hw : q = s.wheelson_pos
    · rw [if_pos hw, if_pos hw]
    · rw [if_neg hw, if_neg hw, if_neg hw]
      simp only [Event.place_waypoint.injEq, eq_comm (a := q)]
  | update rx_pdu =>
    simp only [step, Event.pos]
    by_cases hr : Reports rx_pdu
    · obtain ⟨pos, hpos⟩ := Option.isSome_iff_exists.mp (he hr)
      rw [if_pos hr, if_pos hr, hpos, Option.getD_some]
      simp only [gridPos_eq_iff hpos]
      by_cases hsp : s.wheelson_pos = pos
      · rw [if_neg (not_not.mpr hsp)]
        exact ⟨s, rfl, hsp, hsame rx_pdu⟩
      · rw [if_pos hsp]
        obtain ⟨s', hs', hpos', hmap⟩ := moveWheelson_of (s := s) hpos
        refine ⟨s', hs', hpos', fun q => ?_⟩
        have hne : Event.update rx_pdu ≠ .place_waypoint q := fun h => by cases h
        rw [hmap, hpos', if_neg hne]
    · rw [if_neg hr, if_neg hr]
      exact ⟨s, rfl, rfl, hsame rx_pdu⟩

/-! ### Every sequence of events -/

theorem robot_concat : robot (es ++ [e]) = e.pos.getD (robot es) := by
  unfold robot
  cases h : e.pos with
  | none => simp [h]
  | some pos => simp [h]

theorem matches_nil : Matches [] webpage := by
  have hmap (pos : GridPos) :
      webpage.cmd_map pos = if pos = WHEELSON_DEFAULT_POS then .WHEELSON else .blank := by
    unfold webpage
    rw [showCmdMap_cmd_map]
    dsimp only
    split
    · rfl
    · rename_i hpos
      exact Function.update_of_ne hpos _ _
  have hclicked (pos : GridPos) : ¬ ClickedSinceLeft [] pos := not_since_nil
  refine ⟨rfl, fun pos => ?_, fun pos hpos => ?_, fun pos hpos => ?_⟩
  · rw [hmap]
    show _ ↔ pos = WHEELSON_DEFAULT_POS
    by_cases hpos : pos = WHEELSON_DEFAULT_POS <;> simp [hpos]
  · rw [hmap, if_neg (by exact hpos)]
    simp [hclicked]
  · rw [hmap, if_neg (by exact hpos)]
    simp [hclicked]

theorem matches_concat (hs : Matches es s) (he : e.OnGrid) :
    ∃ s', step s e = some s' ∧ Matches (es ++ [e]) s' := by
  obtain ⟨s', hstep, hpos, hmap⟩ := step_spec ((hs.wheelson _).mpr rfl) he
  have hrobot : s'.wheelson_pos = robot (es ++ [e]) := by
    rw [hpos, hs.wheelson_pos, robot_concat]
  -- the cells away from the robot
  have hcell : ∀ pos ≠ s'.wheelson_pos, (s'.cmd_map pos = .WAYPOINT ∧
      ClickedSinceLeft (es ++ [e]) pos) ∨ (s'.cmd_map pos = .blank ∧
      ¬ ClickedSinceLeft (es ++ [e]) pos) := by
    intro pos hne
    rw [ClickedSinceLeft, since_concat, hmap, if_neg hne]
    by_cases hclick : e = .place_waypoint pos
    · rw [if_pos hclick]
      exact Or.inl ⟨rfl, Or.inl hclick⟩
    · rw [if_neg hclick]
      by_cases hold : pos = s.wheelson_pos
      · rw [if_pos hold]
        refine Or.inr ⟨rfl, ?_⟩
        rintro (h | ⟨-, h⟩)
        · exact hclick h
        · exact h ⟨hs.wheelson_pos.symm.trans hold.symm, fun heq => hne (heq.symm.trans hrobot.symm)⟩
      · rw [if_neg hold]
        have hstay : ¬ Leaves pos es e := fun h => hold (hs.wheelson_pos.trans h.1).symm
        by_cases hc : ClickedSinceLeft es pos
        · exact Or.inl ⟨(hs.waypoint pos hold).mpr hc, Or.inr ⟨hc, hstay⟩⟩
        · refine Or.inr ⟨(hs.blank pos hold).mpr hc, ?_⟩
          rintro (h | ⟨h, -⟩)
          · exact hclick h
          · exact hc h
  refine ⟨s', hstep, hrobot, fun pos => ?_, fun pos hne => ?_, fun pos hne => ?_⟩
  · constructor
    · intro hw
      by_contra hne
      rcases hcell pos hne with ⟨hc, -⟩ | ⟨hc, -⟩ <;> rw [hc] at hw <;> cases hw
    · intro heq
      rw [hmap, if_pos heq]
  · rcases hcell pos hne with ⟨hc, hclicked⟩ | ⟨hc, hclicked⟩
    · exact iff_of_true hc hclicked
    · exact iff_of_false (by rw [hc]; exact Cell.noConfusion) hclicked
  · rcases hcell pos hne with ⟨hc, hclicked⟩ | ⟨hc, hclicked⟩
    · exact iff_of_false (by rw [hc]; exact Cell.noConfusion) (not_not.mpr hclicked)
    · exact iff_of_true hc hclicked

/-- **The map is its history.**  After every sequence of clicks and of updates on the grid, the
    robot's icon is on its cell alone, and another cell has a waypoint exactly when it has been
    clicked since the robot last left it. -/
theorem cmdMap_history (es : List Event) (hes : ∀ e ∈ es, e.OnGrid) :
    ∃ s, exec step webpage es = some s ∧ Matches es s := by
  induction es using List.reverseRecOn with
  | nil => exact ⟨webpage, rfl, matches_nil⟩
  | append_singleton es e ih =>
    rw [List.forall_mem_append] at hes
    obtain ⟨s, hs, hmatches⟩ := ih hes.1
    obtain ⟨s', hs', hmatches'⟩ := matches_concat hmatches (hes.2 e (List.mem_singleton_self e))
    refine ⟨s', exec_append_eq_some.mpr ⟨s, hs, ?_⟩, hmatches'⟩
    rw [exec_cons, hs']
    rfl

/-- The robot drives over a waypoint to the next one. -/
def drive : List Event :=
  [.place_waypoint (1, 0), .place_waypoint (2, 0),
    .update ⟨PDU_UPDATE.toNat, some 1, some 0, none, none⟩,
    .update ⟨PDU_UPDATE.toNat, some 2, some 0, none, none⟩, .place_waypoint (0, 0)]

theorem cmdMap_history_drive :
    (∃ s, exec step webpage drive = some s ∧ Matches drive s) ∧
      (exec step webpage drive).map (fun s => [(0, 0), (1, 0), (2, 0)].map s.cmd_map)
        = some [.WAYPOINT, .blank, .WHEELSON] :=
  ⟨cmdMap_history drive (by decide), by decide⟩

/-! ### The table and the pipe -/

/-- The table shows the map. -/
def Page.Shown (s : Page) : Prop := ∀ pos, s.table pos = widget pos (s.cmd_map pos)

theorem shown_showCmdMap (s : Page) : (showCmdMap s).Shown := fun _ => rfl

/-- An event that changes the map redraws the table, and only a click sends. -/
theorem step_shows (hs : s.Shown) (h : step s e = some s') :
    s'.Shown ∧ s'.cmdPipe = s.cmdPipe ++ e.sends := by
  cases e with
  | place_waypoint pos =>
    cases h
    exact ⟨shown_showCmdMap _, rfl⟩
  | update rx_pdu =>
    rw [Event.sends, List.append_nil]
    simp only [step] at h
    split at h
    · split at h
      · obtain ⟨s₁, hs₁, rfl⟩ := Option.map_eq_some_iff.mp h
        obtain ⟨pos, -, rfl⟩ := Option.map_eq_some_iff.mp hs₁
        exact ⟨shown_showCmdMap _, rfl⟩
      · cases h
        exact ⟨hs, rfl⟩
    · cases h
      exact ⟨hs, rfl⟩

/-- **What the page shows and sends.**  After every run the table shows the map, and the pipe
    has one command for each click, in their order. -/
theorem exec_shows (h : exec step webpage es = some s) :
    s.Shown ∧ s.cmdPipe = es.flatMap Event.sends := by
  induction es using List.reverseRecOn generalizing s with
  | nil =>
    cases h
    exact ⟨shown_showCmdMap _, rfl⟩
  | append_singleton es e ih =>
    obtain ⟨t, ht, h⟩ := exec_append_eq_some.mp h
    obtain ⟨s₁, hs₁, h⟩ := exec_cons_eq_some.mp h
    cases h
    obtain ⟨hshown, hpipe⟩ := ih ht
    obtain ⟨hshown', hpipe'⟩ := step_shows hshown hs₁
    refine ⟨hshown', ?_⟩
    rw [hpipe', hpipe, List.flatMap_append, List.flatMap_singleton]

/-- A click sends an object that `cmd_process` can send. -/
theorem movePdu_ok (pos : GridPos) : (movePdu pos).Ok where
  cmd := show PDU_MOVE.toNat < 256 by decide
  x := lt_trans pos.1.isLt (by decide)
  y := lt_trans pos.2.isLt (by decide)
  msg_len := rfl
  msg_len_le := show "MOVE_CMD".length + 1 ≤ 32 by decide
  ascii := show ∀ c ∈ ['M', 'O', 'V', 'E', '_', 'C', 'M', 'D'], c.toNat ≠ 0 ∧ c.toNat < 128 by
    simp

theorem exec_sends_ok (h : exec step webpage es = some s) {p : PyPdu} (hp : p ∈ s.cmdPipe) :
    p.Ok := by
  rw [(exec_shows h).2, List.mem_flatMap] at hp
  obtain ⟨e, -, he⟩ := hp
  cases e with
  | place_waypoint pos =>
    rw [List.mem_singleton.mp he]
    exact movePdu_ok pos
  | update rx_pdu => cases he

/-- Every click is sent as one frame. -/
theorem exec_frames (h : exec step webpage es = some s) :
    cmdProcess s.cmdPipe = (es.flatMap Event.sends).map PyPdu.frame := by
  rw [cmdProcess_ok fun p hp => exec_sends_ok h hp, (exec_shows h).2]

end Wheelson.Web
