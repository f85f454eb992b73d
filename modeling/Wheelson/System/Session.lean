import Wheelson.Control.Reports
import Wheelson.Tcp.Command
import Wheelson.Tcp.Update
import Wheelson.Web.CmdMap

namespace Wheelson.System

/-!
# The page and the robot

A click puts a move on the pipe; `cmd_process` sends it, `commandTCP` puts it into
`rx_pdu_fifo_g`, and `controlThread` drives there.  Each report goes through `tx_pdu_fifo_g`,
`updateTCP` and `update_process` to the page, which moves the icon of the robot.  Every link of
this loop has a module of its own; here they are put together.

* `Session` — what the page, the two connections and the robot have seen of each other so far:
  each party's own history, and the fields that tie it to the history of the party before it.
  A session says nothing about the order in which the parties take turns, so that a statement
  about every session is one about every interleaving of them.
* `OnGrid` — the cells of the page; a journey between them stays on the grid, which is why the
  page can show every position that the robot reports.
* `Session.moves_clicked` — down to the robot: through the sender, the stream and `commandTCP`,
  its moves are the clicks, in their order.
* `Session.positions` — up to the page: through `updateTCP`, the stream and the receiver, its
  positions are those of the messages taken from `tx_pdu_fifo_g`.
* `session_follows` — the page never fails, and its icon is where the robot has been.

The events of the page are whole clicks and whole rounds of its update loop, one after the other,
as in `Web/CmdMap.lean`: what a click does to the map in the middle of a round is not modelled.
-/

open Machine Ipc Tcp Web Control

/-! ### Cells and positions -/

/-- A cell of the page, as a position of the robot. -/
def cellPos (cell : GridPos) : Pos := ⟨UInt8.ofNat cell.1, UInt8.ofNat cell.2⟩

/-- The position is a cell of the page. -/
def OnGrid (p : Pos) : Prop := p.x.toNat < CMD_MAP_SIZE ∧ p.y.toNat < CMD_MAP_SIZE

/-- A cell of the page is on the grid as a position of the robot. -/
theorem onGrid_cellPos (cell : GridPos) : OnGrid (cellPos cell) := by
  have hx := cell.1.isLt
  have hy := cell.2.isLt
  have hgrid (n : Fin CMD_MAP_SIZE) : (UInt8.ofNat n).toNat < CMD_MAP_SIZE := by
    rw [UInt8.toNat_ofNat_of_lt' (lt_trans n.isLt (by decide))]
    exact n.isLt
  exact ⟨hgrid cell.1, hgrid cell.2⟩

/-- The robot starts on the grid. -/
theorem onGrid_origin : OnGrid origin := ⟨by decide, by decide⟩

/-- A step between two cells stays on the grid. -/
theorem onGrid_advances {target curr : Pos} {it : ℤ × Pos} (h : Advances target curr it)
    (ht : OnGrid target) (hc : OnGrid curr) : OnGrid it.2 := by
  obtain ⟨htx, hty⟩ := ht
  obtain ⟨hcx, hcy⟩ := hc
  unfold OnGrid
  cases h with
  | south h hx hy | north h hx hy =>
    rw [UInt8.lt_iff_toNat_lt] at h
    dsimp only
    rw [hy]
    omega
  | east h hx hy | west h hx hy =>
    have hlt := h.2
    rw [UInt8.lt_iff_toNat_lt] at hlt
    dsimp only
    rw [hx]
    omega

/-- The next position of a move to a cell is a cell, at the destination as well. -/
theorem onGrid_nextOf {target curr : Pos} (ht : OnGrid target) (hc : OnGrid curr) :
    OnGrid (nextOf target curr) := by
  by_cases heq : curr = target
  · rw [heq, nextOf_self]
    exact ht
  · have hgrid := onGrid_advances (advances_calc curr heq) ht hc
    exact hgrid

/-- A walk from a cell to a cell stays on the grid. -/
theorem onGrid_walk {target curr : Pos} (ht : OnGrid target) (hc : OnGrid curr) :
    ∀ p ∈ walk target curr, OnGrid p := by
  induction curr using walk_induction target with
  | harrived =>
    rw [walk_self]
    simpa using ht
  | hstep curr hne ih =>
    rw [walk_of_ne hne]
    have hnext := onGrid_nextOf ht hc
    exact List.forall_mem_cons.mpr ⟨hnext, ih hnext⟩

/-- A journey through cells stays on the grid, walk by walk. -/
theorem onGrid_journey {start : Pos} {targets : List Pos} (hs : OnGrid start)
    (ht : ∀ t ∈ targets, OnGrid t) : ∀ p ∈ journey start targets, OnGrid p := by
  induction targets generalizing start with
  | nil => exact nofun
  | cons target targets ih =>
    rw [List.forall_mem_cons] at ht
    exact List.forall_mem_append.mpr ⟨onGrid_walk ht.1 hs, ih ht.1 ht.2⟩

/-- The cell that the page makes of a reported position. -/
theorem gridPos_pos {p : Pos} (hp : OnGrid p) :
    ∃ cell, gridPos (some p.x.toNat) (some p.y.toNat) = some cell ∧ cellPos cell = p := by
  refine ⟨(⟨p.x.toNat, hp.1⟩, ⟨p.y.toNat, hp.2⟩), dif_pos hp, ?_⟩
  simp [cellPos]

/-! ### What the parties have seen of each other -/

/-- The command that `commandTCP` puts. -/
def commandOf : RobotAct → Option Pdu
  | .act (.command p) => some p
  | .act _ | .heading _ _ | .put => none

/-- The cell that is clicked. -/
def clickOf : Event → Option GridPos
  | .place_waypoint cell => some cell
  | .update _ => none

/-- The update that the page handles. -/
def updateOf : Event → Option PyObj
  | .place_waypoint _ => none
  | .update rx_pdu => some rx_pdu

/-- The cell that an update reports. -/
def posOf (rx_pdu : PyObj) : Option GridPos := (Event.update rx_pdu).pos

/-- A session so far: each party has seen a part of what the others have done.  Each click and each
    update has been handled as a whole, each `recv` of `commandTCP` has returned one frame, each
    `send` of `updateTCP` has been complete, and no move has been started at its destination. -/
structure Session (pin : Bool) where
  /-- What the page has handled, click by click and update by update. -/
  events : List Event
  /-- The steps of the robot's threads, and where they have led. -/
  acts : List RobotAct
  robot : Robot
  /-- The locals of `commandTCP` at its start. -/
  in_buff : Buff
  in_pdu : Pdu
  /-- What `updateTCP` has sent, and what `recv` has returned. -/
  out_pdus : List Pdu
  chunks : List (List UInt8)
  run : exec (robotStep soundStep) (robotBoot pin) acts = some robot
  /-- The commands put into `rx_pdu_fifo_g` are the first ones of those clicked. -/
  down : acts.filterMap commandOf
    <+: commandTCP in_buff in_pdu (cmdProcess (events.flatMap Event.sends))
  /-- Each struct holds the message that was taken, over what the stack held before. -/
  written : List.Forall₂ (fun o p => ∃ stack, p = OutPdu.toPdu stack o) robot.taken out_pdus
  requested : Requested (PDU_SIZE + 2) 0 chunks
  /-- TCP has split what was sent, and lost nothing of it. -/
  stream : chunks.flatten
    = (updateTCP (List.replicate out_pdus.length (PDU_SIZE + 2 : ℕ)) out_pdus).1
  /-- The updates handled are the first ones of those received. -/
  up : events.filterMap updateOf
    <+: updateProcess .new (receives (PDU_SIZE + 2) (by decide) (chunks.map .data))

variable {pin : Bool}

/-! ### Down to the robot -/

/-- What the events put on the pipe is one move for each click. -/
theorem sends_clicked (es : List Event) :
    es.flatMap Event.sends = (es.filterMap clickOf).map movePdu := by
  induction es with
  | nil => rfl
  | cons e es ih =>
    rw [List.flatMap_cons, ih]
    cases e with
    | place_waypoint cell => rfl
    | update rx_pdu => rfl

/-- A click that is delivered is a move to its cell. -/
theorem moveDest_delivered {cell : GridPos} {q : Pdu} (h : Delivered (movePdu cell) q) :
    moveDest q = some (cellPos cell) := by
  have hcmd : q.cmd = PDU_MOVE := UInt8.toNat_inj.mp h.cmd
  have hx : q.x = UInt8.ofNat cell.1 := by
    rw [← show q.x.toNat = cell.1 from h.x, UInt8.ofNat_toNat]
  have hy : q.y = UInt8.ofNat cell.2 := by
    rw [← show q.y.toNat = cell.2 from h.y, UInt8.ofNat_toNat]
  rw [moveDest, if_pos hcmd, hx, hy]
  rfl

/-- The PDUs of clicks are moves to the cells clicked, in their order. -/
theorem moves_delivered {cells : List GridPos} {qs : List Pdu}
    (h : List.Forall₂ Delivered (cells.map movePdu) qs) :
    qs.filterMap moveDest = cells.map cellPos := by
  induction cells generalizing qs with
  | nil =>
    cases h
    rfl
  | cons cell cells ih =>
    rw [List.map_cons] at h
    cases h with
    | cons hq hqs => rw [List.filterMap_cons_some (moveDest_delivered hq), ih hqs, List.map_cons]

/-- The moves of the robot are the commands that were put. -/
theorem asked_exec {acts : List RobotAct} {r : Robot}
    (h : exec (robotStep soundStep) (robotBoot pin) acts = some r) :
    r.sys.moves ++ r.sys.queued = (acts.filterMap commandOf).filterMap moveDest := by
  induction acts using List.reverseRecOn generalizing r with
  | nil =>
    cases h
    rfl
  | append_singleton acts e ih =>
    obtain ⟨r₁, hr₁, h⟩ := exec_append_eq_some.mp h
    obtain ⟨r₂, hr₂, h⟩ := exec_cons_eq_some.mp h
    cases h
    rw [List.filterMap_append, List.filterMap_append, ← ih hr₁]
    cases robotStep_cases hr₂ with
    | @act a s' hs' ha =>
      rw [asked_step (step_cases (restrict_eq_some.mp hs').2)]
      cases a with
      -- only `commandTCP` adds to what is asked for
      | command p => cases hdest : moveDest p <;> simp [Act.asks, commandOf, hdest]
      | sensor o => exact absurd rfl (ha o)
      | thread | edge | drain => rfl
    | heading => exact (List.append_nil _).symm
    | put hhold hs' =>
      rw [asked_step (step_cases (restrict_eq_some.mp hs').2)]
      rfl

/-- The objects of clicks are ones that `put_buff` can pack. -/
theorem clicks_ok (cells : List GridPos) : ∀ p ∈ cells.map movePdu, p.Ok := by
  intro p hp
  obtain ⟨cell, -, rfl⟩ := List.mem_map.mp hp
  exact movePdu_ok cell

/-- The commands that have been put are those of the first clicks. -/
theorem Session.commands (S : Session pin) : ∃ qs : List Pdu,
    S.acts.filterMap commandOf <+: qs ∧ qs.length = (S.events.filterMap clickOf).length ∧
      qs.filterMap moveDest = (S.events.filterMap clickOf).map cellPos := by
  have hok := clicks_ok (S.events.filterMap clickOf)
  have hdown := S.down
  rw [sends_clicked, cmdProcess_ok hok] at hdown
  exact ⟨_, hdown, by simp, moves_delivered (delivered_frames hok S.in_buff S.in_pdu)⟩

/-- **Down.**  The robot's moves are the clicks, in their order. -/
theorem Session.moves_clicked (S : Session pin) :
    S.robot.sys.moves ++ S.robot.sys.queued <+: (S.events.filterMap clickOf).map cellPos := by
  obtain ⟨qs, hpre, -, hqs⟩ := S.commands
  rw [asked_exec S.run, ← hqs]
  exact hpre.filterMap moveDest

/-! ### Up to the page -/

/-- A message that fits is sent as the string in its struct. -/
theorem text_toPdu {o : OutPdu} (ho : o.Fits) (stack : List.Vector UInt8 32) :
    Text (o.toPdu stack) := by
  have hlen : (cstr (o.chars stack).toList).length ≤ 31 := by
    rw [cstr_chars ho, OutPdu.text, List.length_map]
    exact ho.length
  exact ⟨hlen, UInt8.toNat_ofNat_of_lt' (lt_of_le_of_lt hlen (by decide))⟩

/-- The updates show the messages from which the PDUs were written. -/
theorem shown_written {os : List OutPdu} {ps : List Pdu} {us : List PyObj}
    (hwritten : List.Forall₂ (fun o p => ∃ stack, p = OutPdu.toPdu stack o) os ps)
    (hshown : List.Forall₂ Shown ps us) :
    List.Forall₂ (fun o u => ∃ stack, Shown (OutPdu.toPdu stack o) u) os us := by
  induction hwritten generalizing us with
  | nil =>
    cases hshown
    exact .nil
  | cons hp _ ih =>
    obtain ⟨stack, rfl⟩ := hp
    cases hshown with
    | cons hu hus => exact .cons ⟨stack, hu⟩ (ih hus)

/-- The PDUs written from messages that fit hold their texts. -/
theorem text_written {os : List OutPdu} {ps : List Pdu}
    (h : List.Forall₂ (fun o p => ∃ stack, p = OutPdu.toPdu stack o) os ps)
    (hos : ∀ o ∈ os, o.Fits) : ∀ p ∈ ps, Text p := by
  induction h with
  | nil => exact nofun
  | cons hp _ ih =>
    rw [List.forall_mem_cons] at hos ⊢
    obtain ⟨stack, rfl⟩ := hp
    exact ⟨text_toPdu hos.1 stack, ih hos.2⟩

/-- An update moves the icon to the position of its message. -/
theorem pos_shown {o : OutPdu} {u : PyObj} {stack : List.Vector UInt8 32} (ho : o.Located)
    (hgrid : OnGrid o.pos) (h : Shown (o.toPdu stack) u) :
    ∃ cell, posOf u = some cell ∧ cellPos cell = o.pos := by
  have hreports : Reports u := by
    rcases ho with ho | ho
    · exact .inl (h.cmd.trans (congrArg (some ·.toNat) ho))
    · exact .inr (h.cmd.trans (congrArg (some ·.toNat) ho))
  obtain ⟨cell, hcell, hpos⟩ := gridPos_pos hgrid
  refine ⟨cell, ?_, hpos⟩
  rw [posOf, Event.pos, if_pos hreports, h.x, h.y]
  exact hcell

/-- Updates that show messages of cells report these cells, and the page can show them. -/
theorem positions_shown {os : List OutPdu} {us : List PyObj}
    (h : List.Forall₂ (fun o u => ∃ stack, Shown (OutPdu.toPdu stack o) u) os us)
    (hos : ∀ o ∈ os, o.Located ∧ OnGrid o.pos) :
    (us.filterMap posOf).map cellPos = os.map OutPdu.pos ∧
      ∀ u ∈ us, (Event.update u).OnGrid := by
  induction h with
  | nil => exact ⟨rfl, nofun⟩
  | @cons o u os us hu _ ih =>
    rw [List.forall_mem_cons] at hos
    obtain ⟨stack, hu⟩ := hu
    obtain ⟨cell, hcell, hpos⟩ := pos_shown hos.1.1 hos.1.2 hu
    obtain ⟨hmap, hgrid⟩ := ih hos.2
    refine ⟨?_, List.forall_mem_cons.mpr ⟨?_, hgrid⟩⟩
    · rw [List.filterMap_cons_some hcell, List.map_cons, List.map_cons, hmap, hpos]
    · intro hreports
      rw [posOf, Event.pos, if_pos hreports] at hcell
      rw [hcell]
      rfl

/-- Only the updates move the icon. -/
theorem pos_updates (es : List Event) :
    es.filterMap Event.pos = (es.filterMap updateOf).filterMap posOf := by
  induction es with
  | nil => rfl
  | cons e es ih =>
    cases e with
    | place_waypoint cell => exact ih
    | update u =>
      show (Event.update u :: es).filterMap Event.pos = (u :: es.filterMap updateOf).filterMap posOf
      rw [List.filterMap_cons, List.filterMap_cons, ih]
      rfl

/-- Every message of the session fits, reports a position, and lies on the grid. -/
theorem Session.saw (S : Session pin) :
    ∀ o ∈ S.robot.sent, S.robot.sys.Saw o ∧ OnGrid o.pos := by
  have hreach : Reachable (robotStep soundStep) (robotBoot pin) S.robot := .exec _ .init S.run
  have hreports := reporting_reachable (fun _ _ _ h => (restrict_eq_some.mp h).2) hreach
  -- what is recorded lies on a journey between cells
  have hrecords : ∀ p ∈ S.robot.sys.records, OnGrid p := by
    intro p hp
    refine onGrid_journey onGrid_origin ?_ p ((journey_begun (reachable_sys hreach)).subset hp)
    intro t ht
    have hclicked := S.moves_clicked.subset (List.mem_append_left _ ht)
    obtain ⟨cell, -, rfl⟩ := List.mem_map.mp hclicked
    exact onGrid_cellPos cell
  intro o ho
  have hsaw := hreports.sent o ho
  refine ⟨hsaw, ?_⟩
  rcases List.mem_cons.mp hsaw.pos with hpos | hpos
  · exact hpos ▸ onGrid_origin
  · exact hrecords _ hpos

/-- **Up.**  The updates of the page are the first messages taken. -/
theorem Session.shown (S : Session pin) :
    List.Forall₂ (fun o u => ∃ stack, Shown (OutPdu.toPdu stack o) u)
      (S.robot.taken.take (S.events.filterMap updateOf).length) (S.events.filterMap updateOf) := by
  have hsaw : ∀ o ∈ S.robot.taken, o.Fits := fun o ho =>
    (S.saw o (List.mem_append_left _ ho)).1.fits
  have htext := text_written S.written hsaw
  have hstream := S.stream
  -- complete sends put whole frames on the stream, which the receiver finds again
  rw [updateTCP_complete] at hstream
  have hup := S.up
  rw [receives_blocks _ _ S.requested hstream] at hup
  · have h := List.forall₂_take (S.events.filterMap updateOf).length
      (shown_written S.written (updateProcess_frames htext .new))
    rwa [← List.prefix_iff_eq_take.mp hup] at h
  · intro block hblock
    obtain ⟨p, -, rfl⟩ := List.mem_map.mp hblock
    exact (pduFillBuffer p).toList_length

/-- The icon is at the position of the update handled last, or at the origin. -/
theorem Session.positions (S : Session pin) :
    (S.events.filterMap Event.pos).map cellPos =
        (S.robot.taken.take (S.events.filterMap updateOf).length).map OutPdu.pos ∧
      ∀ e ∈ S.events, e.OnGrid := by
  have hos : ∀ o ∈ S.robot.taken.take (S.events.filterMap updateOf).length,
      o.Located ∧ OnGrid o.pos := fun o ho =>
    (S.saw o (List.mem_append_left _ (List.mem_of_mem_take ho))).imp_left (·.located)
  obtain ⟨hmap, hgrid⟩ := positions_shown S.shown hos
  refine ⟨pos_updates S.events ▸ hmap, fun e he => ?_⟩
  cases e with
  | place_waypoint cell => trivial
  | update u => exact hgrid u (List.mem_filterMap.mpr ⟨_, he, rfl⟩)

/-! ### The two ends -/

/-- Nothing is under way: every click has been put, taken and driven, and every message has been
    handled. -/
structure Session.Settled (S : Session pin) : Prop where
  waits : S.robot.sys.pc = .wait .get
  rx : S.robot.sys.rx_pdu_fifo_g = []
  tx : S.robot.sys.tx_pdu_fifo_g = []
  clicks : (S.acts.filterMap commandOf).length = (S.events.filterMap clickOf).length
  updates : (S.events.filterMap updateOf).length = S.robot.taken.length

/-- The page has the map of its events. -/
theorem Session.page (S : Session pin) :
    ∃ page, exec Web.step webpage S.events = some page ∧ Matches S.events page :=
  exec_history matches_nil (fun _ _ _ hs he => matches_concat hs he) S.events S.positions.2

/-- The icon after the events, as a position of the robot. -/
theorem cellPos_robot (es : List Event) :
    cellPos (Web.robot es) = ((es.filterMap Event.pos).map cellPos).getLastD origin := by
  rw [Web.robot, show origin = cellPos WHEELSON_DEFAULT_POS from rfl, List.getLastD_map]

/-- What the robot records is the journey of the clicks. -/
theorem Session.journeys (S : Session pin) :
    S.robot.sys.records <+: journey origin ((S.events.filterMap clickOf).map cellPos) := by
  have hreach : Reachable (robotStep soundStep) (robotBoot pin) S.robot := .exec _ .init S.run
  obtain ⟨rest, hrest⟩ := S.moves_clicked
  rw [← hrest, List.append_assoc, journey_append]
  exact (journey_begun (reachable_sys hreach)).trans (List.prefix_append _ _)

/-- When nothing is under way, the robot is at the cell clicked last, or still at the origin. -/
theorem Session.Settled.position {S : Session pin} (h : S.Settled) :
    S.robot.sys.position_g = ((S.events.filterMap clickOf).map cellPos).getLastD origin := by
  obtain ⟨qs, hpre, hlen, hqs⟩ := S.commands
  have hall := asked_exec S.run
  -- as many commands were put as cells were clicked, so they are all there
  rw [hpre.eq_of_length (h.clicks.trans hlen.symm), hqs, Sys.queued, h.rx, List.filterMap_nil,
    List.append_nil] at hall
  rw [← hall]
  exact (arrived_of_get (reachable_sys (.exec _ .init S.run)) h.waits).position

/-- The messages are all the client has to go by, and then the last one is up to date. -/
theorem Session.Settled.icon {S : Session pin} (h : S.Settled) :
    (S.robot.taken.map OutPdu.pos).getLastD origin = S.robot.sys.position_g ∨
      ∃ o, S.robot.taken.getLast? = some o ∧ o.IsHeading := by
  have hsent : S.robot.sent = S.robot.taken := by rw [Robot.sent, h.tx, List.append_nil]
  have hreports := reporting_reachable (fun _ _ _ h => (restrict_eq_some.mp h).2)
    (.exec _ .init S.run)
  by_cases hlast : ∃ o, S.robot.taken.getLast? = some o ∧ o.IsHeading
  · exact .inr hlast
  · left
    rw [← hsent] at hlast ⊢
    -- the last message is a report of `controlThread` itself, which waits for a command
    rw [← reported_of_last fun o ho hheading => hlast ⟨o, ho, hheading⟩]
    refine hreports.current.resolve_left fun hpending => ?_
    rw [h.waits] at hpending
    exact hpending

/-- **The page follows the robot, and the robot the page.**  In every session, whatever is clicked
    and when, whatever U_ALERT does and however the threads, the interrupt, TCP and the whole
    events of the page interleave: the page handles every click and every update without an error,
    and its map shows what they say; its icon is where the robot has been; the robot records the
    beginning of the journey from one cell clicked to the next; and when nothing is under way any
    more, the robot is at the cell clicked last, and so is the icon unless the last message was a
    heading that `sensorThread` has put. -/
theorem session_follows (S : Session pin) :
    ∃ page, exec Web.step webpage S.events = some page ∧ Matches S.events page ∧
      cellPos page.wheelson_pos ∈ origin :: S.robot.sys.records ∧
      S.robot.sys.records <+: journey origin ((S.events.filterMap clickOf).map cellPos) ∧
      (S.Settled →
        S.robot.sys.position_g = ((S.events.filterMap clickOf).map cellPos).getLastD origin ∧
        (cellPos page.wheelson_pos = S.robot.sys.position_g ∨
          ∃ o, S.robot.taken.getLast? = some o ∧ o.IsHeading)) := by
  obtain ⟨page, hpage, hmatches⟩ := S.page
  have hicon : cellPos page.wheelson_pos =
      ((S.robot.taken.take (S.events.filterMap updateOf).length).map OutPdu.pos).getLastD
        origin := by
    rw [hmatches.wheelson_pos, cellPos_robot, S.positions.1]
  refine ⟨page, hpage, hmatches, ?_, S.journeys, fun hsettled => ⟨hsettled.position, ?_⟩⟩
  · -- the message was built from the position as it was then
    have hseen : ∀ p ∈ (S.robot.taken.take (S.events.filterMap updateOf).length).map OutPdu.pos,
        p ∈ origin :: S.robot.sys.records := by
      intro p hp
      obtain ⟨o, ho, rfl⟩ := List.mem_map.mp hp
      exact (S.saw o (List.mem_append_left _ (List.mem_of_mem_take ho))).1.pos
    rw [hicon]
    rcases List.mem_cons.mp (List.getLastD_mem_cons (a := origin)) with hlast | hlast
    · rw [hlast]
      exact List.mem_cons_self
    · exact hseen _ hlast
  · rw [hicon, hsettled.updates, List.take_length]
    exact hsettled.icon

/-! ### One click -/

/-- The cell east of the origin. -/
def clickCell : GridPos := (⟨0, by decide⟩, ⟨1, by decide⟩)

/-- The command of a click on it. -/
def clickPdu : Pdu :=
  (pduReadBuffer (Buff.recv (List.Vector.replicate _ 0) (movePdu clickCell).frame) .zeroed).2

/-- It is put and driven, and its seven messages are taken. -/
def clickRun : Option Robot :=
  exec (robotStep soundStep) (robotBoot false) (.act (.command clickPdu)
    :: (List.replicate 57 (.act (.thread ⟨7, 7⟩)) ++ List.replicate 7 (.act .drain)))

/-- The robot after the run. -/
def clickRobot : Robot := clickRun.get (by decide +kernel)

/-- The PDUs of its messages, written over a stack of zeros. -/
def clickPdus : List Pdu := clickRobot.taken.map (OutPdu.toPdu (List.Vector.replicate _ 0))

/-- Their frames, each of which one `recv` returns. -/
def clickFrames : List (List UInt8) := clickPdus.map fun p => (pduFillBuffer p).toList

/-- The page handles the click, and an update for each message. -/
def clickEvents : List Event :=
  .place_waypoint clickCell :: (updateProcess .new clickFrames).map .update

/-- The events hold the one click. -/
theorem clickEvents_click : clickEvents.filterMap clickOf = [clickCell] := by decide +kernel

/-- The other events are the updates. -/
theorem clickEvents_updates : clickEvents.filterMap updateOf = updateProcess .new clickFrames := by
  rw [clickEvents, List.filterMap_cons_none rfl, List.filterMap_map]
  exact List.filterMap_some

/-- No `recv` returns more than was asked for. -/
theorem clickFrames_requested : Requested (PDU_SIZE + 2) 0 clickFrames := by decide +kernel

/-- A session of one click: it is sent in one frame, driven, and reported back. -/
def clickSession : Session false where
  events := clickEvents
  acts := _
  robot := clickRobot
  in_buff := List.Vector.replicate _ 0
  in_pdu := .zeroed
  out_pdus := clickPdus
  chunks := clickFrames
  run := (Option.some_get _).symm
  down := by
    rw [sends_clicked, clickEvents_click, cmdProcess_ok (clicks_ok [clickCell])]
    exact List.prefix_rfl
  written := List.forall₂_map_right_iff.mpr (List.forall₂_same.mpr fun _ _ => ⟨_, rfl⟩)
  requested := clickFrames_requested
  stream := by rw [updateTCP_complete]; rfl
  up := by
    have hlen : ∀ block ∈ clickFrames, block.length = PDU_SIZE + 2 := by
      intro block hblock
      obtain ⟨p, -, rfl⟩ := List.mem_map.mp hblock
      exact (pduFillBuffer p).toList_length
    exact ⟨[], by
      rw [List.append_nil, clickEvents_updates, receives_blocks _ hlen clickFrames_requested rfl]⟩

/-- Nothing is under way in it any more. -/
theorem clickSession_settled : clickSession.Settled where
  waits := by decide +kernel
  rx := by decide +kernel
  tx := by decide +kernel
  clicks := by decide +kernel
  updates := by decide +kernel

/-- The robot has driven to the cell clicked, and its icon has followed. -/
theorem session_follows_click : ∃ (S : Session false) (page : Page),
    S.events.filterMap clickOf = [clickCell] ∧ S.Settled ∧
      exec Web.step webpage S.events = some page ∧
      S.robot.sys.position_g = cellPos clickCell ∧ cellPos page.wheelson_pos = cellPos clickCell := by
  obtain ⟨page, hpage, -, -, -, hsettled⟩ := session_follows clickSession
  obtain ⟨hposition, hicon⟩ := hsettled clickSession_settled
  have hcell : clickSession.robot.sys.position_g = cellPos clickCell := by
    rw [hposition, show clickSession.events = clickEvents from rfl, clickEvents_click]
    rfl
  have hreport : ∀ o ∈ clickSession.robot.taken.getLast?, ¬ o.IsHeading := by decide +kernel
  refine ⟨clickSession, page, clickEvents_click, clickSession_settled, hpage, hcell, ?_⟩
  rcases hicon with hicon | ⟨o, ho, hheading⟩
  · exact hicon.trans hcell
  · exact absurd hheading (hreport o ho)

end Wheelson.System
