import Wheelson.Cam.ArduCam
import Wheelson.Cam.Moments
import Wheelson.Ipc.PingPong

namespace Wheelson.Cam.Video

/-!
# The video path

`camThread` reads the captures from the chip and cuts them into the buffers of the ping-pong
table, while `camTCP` sends the buffers.

* `turn` — one turn of `while(len--)`: the locals after it, and its operations on the table and
  on the bus, which `camThread` then does one statement at a time.
* `Sys` — the two threads, the table and the chip.
* `Linked` — `camThread` has read the captures so far byte by byte, and the buffers are as the
  writer of `Cam/Capture.lean` leaves them.
* `Contained` — no capture so far writes beyond a buffer.
* `video_refines`, `video_end_to_end` — the client sees the frames of the captures, in every
  interleaving.

Two things that the code can do are not modelled.  A store beyond a buffer is a step that is not
enabled: the thread stops there, while `camCapture` writes into the buffer behind it and goes on.
The results are therefore about captures that are `Contained`, of which no run stands at such a
store.  And the connection stays up: `send` takes every buffer whole, and `camTCP` has no error
to handle.
-/

open Machine Scan Ipc

/-! ### One turn of the loop -/

/-- What a turn does to the table and to the bus. -/
inductive Op
  /-- `cam_buffer->data[i] = v`. -/
  | store (i : ℕ) (v : UInt8)
  /-- `ppipc_update_buffer`. -/
  | update
  /-- `ppipc_get_buffer`. -/
  | get
  /-- `ACAM_set_fifo_burst`. -/
  | burst
deriving DecidableEq, Repr

/-- The locals of `camCapture`. -/
structure Locals where
  len : ℕ
  temp : UInt8
  is_header : Bool
  i : ℕ

/-- One turn of `while(len--)`, with `ACAM_read_fifo` returning `b`. -/
def turn (size : ℕ) (l : Locals) (b : UInt8) : Locals × List Op :=
  let temp_last := l.temp
  let l := { l with len := l.len - 1, temp := b }
  -- end of frame
  let (l, ops) :=
    if b = 0xD9 ∧ temp_last = 0xFF then
      ({ l with is_header := false, i := 0 }, [.store l.i b])
    else (l, [])
  -- body of the image
  if l.is_header then
    if l.i < size then ({ l with i := l.i + 1 }, ops ++ [.store l.i b])
    else ({ l with i := 1 }, ops ++ [.update, .get, .store 0 b, .burst])
  -- look for the header
  else if b = 0xD8 ∧ temp_last = 0xFF then
    ({ l with is_header := true, i := l.i + 2 },
      ops ++ [.store l.i temp_last, .store (l.i + 1) b])
  else (l, ops)

/-! ### The threads -/

inductive Pc
  /-- Before the loop of `camThread`. -/
  | init
  | clear
  | start
  | poll
  /-- At the call of `camCapture`. -/
  | capture
  /-- In the loop of `camCapture`, with the rest of a turn. -/
  | turn (ops : List Op)
  /-- At the update behind the loop. -/
  | flush
deriving DecidableEq, Repr

structure Sys (σ : Type) where
  pc : Pc
  locals : Locals
  bus : Bus σ
  table : PingPong.Sys
  /-- The captures that `camCapture` has been called for. -/
  captures : List (List UInt8)

/-- The next statement of `camThread` in an operation on the table. -/
def Op.act : Op → PingPong.Pc → PingPong.Act
  | .store i v, _ => .write i v
  | .update, .holding _ => .update .WRITE
  | .get, .outside => .get .WRITE
  | _, _ => .run .WRITE

/-- The operation is over. -/
def Op.over : Op → PingPong.Pc → Bool
  | .update, writer => writer = .outside
  | .get, writer => writer.held.isSome
  | _, _ => true

/-- The next statement of `camTCP`, whose `send` takes the bytes of its buffer one by one. -/
def tcpAct (table : PingPong.Sys) : PingPong.Act :=
  match table.reader with
  | .outside => .get .READ
  | .holding b =>
    if table.got.length = (table.tab.buffers b).length then .update .READ else .read
  | _ => .run .READ

/-- The bytes of a capture. -/
def Fifo.content : Fifo → List UInt8
  | .captured _ rest => rest
  | _ => []

inductive Act
  | cam | tcp
deriving DecidableEq, Repr

variable {σ : Type} (chip : Chip σ) (size : ℕ)

/-- A statement of the operation `op`, behind which stands `pc`. -/
def tableStep (s : Sys σ) (op : Op) (pc : Pc) : Option (Sys σ) :=
  (PingPong.step s.table (op.act s.table.writer)).map fun table =>
    { s with table := table, pc := if op.over table.writer then pc else s.pc }

/-- One statement of `camThread`.  At a store beyond its buffer there is none: what `camCapture`
    writes into the buffer behind it is not modelled. -/
def camStep (s : Sys σ) : Option (Sys σ) :=
  match s.pc with
  | .init => some { s with bus := acamClearFifoFlag chip s.bus, pc := .clear }
  | .clear => some { s with bus := acamClearFifoFlag chip s.bus, pc := .start }
  | .start => some { s with bus := acamStartCapture chip s.bus, pc := .poll }
  | .poll =>
    let (bit, bus) := acamGetBit chip s.bus ARDUCHIP_TRIG CAP_DONE_MASK
    some { s with bus := bus, pc := if bit = 0 then .poll else .capture }
  | .capture =>
    let (len, bus) := acamGetFifoLength chip s.bus
    some { s with
      bus := bus
      locals := { len := len, temp := 0, is_header := false, i := 0 }
      pc := .turn [.get]
      captures := s.captures ++ [Fifo.content (bus.fifo chip)] }
  | .turn [] =>
    if s.locals.len = 0 then some { s with pc := .flush }
    else
      let (b, bus) := acamReadFifo chip s.bus
      let (l, ops) := turn size s.locals b
      some { s with bus := bus, locals := l, pc := .turn ops }
  | .turn (.burst :: ops) => some { s with bus := acamSetFifoBurst chip s.bus, pc := .turn ops }
  | .turn (op :: ops) => tableStep s op (.turn ops)
  | .flush => tableStep s .update .clear

def step (s : Sys σ) : Act → Option (Sys σ)
  | .cam => camStep chip size s
  | .tcp => (PingPong.step s.table (tcpAct s.table)).map fun table => { s with table := table }

/-- After `gator_board_init` and the initialisation of the table in `main`. -/
def boot (c : σ) (num_buffs : Capacity) : Sys σ where
  pc := .init
  locals := ⟨0, 0, false, 0⟩
  bus := acamSpiCsHigh ⟨c, false, BURST_FIFO_READ⟩
  table := PingPong.start (fun _ => List.replicate size 0) num_buffs
  captures := []

/-! ### The buffers -/

/-- What the writer of a table sees of it. -/
structure View where
  buffers : ℕ → List UInt8
  head : ℕ
  commits : List (List UInt8)

def viewOf (table : PingPong.Sys) : View := ⟨table.tab.buffers, table.tab.head, table.commits⟩

def viewOfWriter (cam : Writer) : View := ⟨cam.buffers, cam.head, cam.commits⟩

/-- A whole operation. -/
def Op.apply (size num_buffs : ℕ) (t : View) : Op → Option View
  | .store i v =>
    if i < size then
      some { t with buffers := Function.update t.buffers t.head ((t.buffers t.head).set i v) }
    else none
  | .update => some { t with
      commits := t.commits ++ [t.buffers t.head]
      head := (t.head + 1) % num_buffs }
  | .get | .burst => some t

/-- The locals of the writer. -/
def Locals.Of (l : Locals) (cam : Writer) : Prop :=
  cam.temp = l.temp ∧ cam.is_header = l.is_header ∧ cam.i = l.i

variable {chip size} {num_buffs : ℕ} {cam : Writer} {l : Locals} {b : UInt8} {t : View}

theorem apply_store_eq_some {i : ℕ} {v : UInt8} {t' : View} :
    (Op.store i v).apply size num_buffs t = some t' ↔ i < size ∧
      { t with buffers := Function.update t.buffers t.head ((t.buffers t.head).set i v) } = t' := by
  simp [Op.apply]

theorem exec_store {i : ℕ} (hi : cam.i = i) (v : UInt8) (ops : List Op) :
    exec (Op.apply size num_buffs) (viewOfWriter cam) (.store i v :: ops)
      = (cam.store size v).bind fun c => exec (Op.apply size num_buffs) (viewOfWriter c) ops := by
  subst hi
  rw [exec_cons, Writer.store]
  by_cases hlt : cam.i < size
  · rw [if_pos hlt, apply_store_eq_some.mpr ⟨hlt, rfl⟩]
    rfl
  · have hnone : (Op.store cam.i v).apply size num_buffs (viewOfWriter cam) = none := if_neg hlt
    rw [if_neg hlt, hnone]
    rfl

/-- The operations of a turn make of the table what the writer makes of it. -/
theorem turn_byte (hl : l.Of cam) :
    exec (Op.apply size num_buffs) (viewOfWriter cam) (turn size l b).2
      = (cam.byte size num_buffs b).map viewOfWriter ∧
    ∀ cam', cam.byte size num_buffs b = some cam' → (turn size l b).1.Of cam' := by
  obtain ⟨htemp, hheader, hi⟩ := hl
  -- the table does not see the locals
  have hview : viewOfWriter cam = viewOfWriter { cam with temp := b } := rfl
  by_cases hstop : b = 0xD9 ∧ cam.temp = 0xFF
  · -- the last byte of a frame
    have hturn : turn size l b =
        ({ l with len := l.len - 1, temp := b, is_header := false, i := 0 }, [.store l.i b]) := by
      simp [turn, ← htemp, hstop]
    rw [hturn, byte_stop hstop, hview, exec_store (by exact hi)]
    constructor
    · cases Writer.store size { cam with temp := b } b <;> rfl
    · intro cam' hcam'
      obtain ⟨c, hc, rfl⟩ := Option.map_eq_some_iff.mp hcam'
      exact ⟨(stored_of_store hc).temp, rfl, rfl⟩
  · have hstop' : ¬ (b = 0xD9 ∧ l.temp = 0xFF) := htemp ▸ hstop
    cases hcam : cam.is_header with
    | true =>
      have hl : l.is_header = true := hheader.symm.trans hcam
      rw [byte_body hcam hstop]
      by_cases hlt : cam.i < size
      · have hturn : turn size l b =
            ({ l with len := l.len - 1, temp := b, i := l.i + 1 }, [.store l.i b]) := by
          simp [turn, hstop', hl, hi ▸ hlt]
        rw [hturn, if_pos hlt, hview, exec_store (by exact hi)]
        constructor
        · cases Writer.store size { cam with temp := b } b <;> rfl
        · intro cam' hcam'
          have hst := stored_of_store hcam'
          exact ⟨hst.temp, hst.is_header.trans hheader, hst.i.trans (congrArg (· + 1) hi)⟩
      · -- the buffer is full
        have hturn : turn size l b = ({ l with len := l.len - 1, temp := b, i := 1 },
            [.update, .get, .store 0 b, .burst]) := by
          simp [turn, hstop', hl, hi ▸ hlt]
        have hflush : exec (Op.apply size num_buffs) (viewOfWriter cam)
            [.update, .get, .store 0 b, .burst] = exec (Op.apply size num_buffs)
              (viewOfWriter { Writer.update num_buffs { cam with temp := b } with
                i := 0, flushed := true }) [.store 0 b, .burst] := rfl
        rw [hturn, if_neg hlt, hflush, exec_store (by rfl)]
        constructor
        · cases Writer.store size { Writer.update num_buffs { cam with temp := b } with
            i := 0, flushed := true } b <;> rfl
        · intro cam' hcam'
          have hst := stored_of_store hcam'
          exact ⟨hst.temp, hst.is_header.trans hheader, hst.i⟩
    | false =>
      have hl : l.is_header = false := hheader.symm.trans hcam
      by_cases hstart : b = 0xD8 ∧ cam.temp = 0xFF
      · have hstart' : b = 0xD8 ∧ l.temp = 0xFF := htemp ▸ hstart
        have hturn : turn size l b =
            ({ l with len := l.len - 1, temp := b, is_header := true, i := l.i + 2 },
              [.store l.i l.temp, .store (l.i + 1) b]) := by
          simp [turn, hl, hstart']
        have hview' : viewOfWriter cam
            = viewOfWriter { cam with temp := b, is_header := true, kept := 0 } := rfl
        rw [hturn, byte_start hcam hstart, hview', exec_store (by exact hi), ← htemp]
        cases hc : Writer.store size { cam with temp := b, is_header := true, kept := 0 }
            cam.temp with
        | none => exact ⟨rfl, nofun⟩
        | some c =>
          have hst := stored_of_store hc
          have hi' : c.i = l.i + 1 := hst.i.trans (congrArg (· + 1) hi)
          rw [Option.bind_some, Option.bind_some, exec_store hi']
          constructor
          · cases c.store size b <;> rfl
          · intro cam' hcam'
            have hst' := stored_of_store hcam'
            exact ⟨hst'.temp.trans hst.temp, hst'.is_header.trans hst.is_header,
              hst'.i.trans (congrArg (· + 1) hi')⟩
      · have hstart' : ¬ (b = 0xD8 ∧ l.temp = 0xFF) := htemp ▸ hstart
        have hturn : turn size l b = ({ l with len := l.len - 1, temp := b }, []) := by
          simp [turn, hstop', hl, hstart']
        rw [hturn, byte_skip hcam hstop hstart]
        refine ⟨rfl, fun cam' hcam' => ?_⟩
        cases hcam'
        exact ⟨rfl, hheader, hi⟩

/-! ### The operations, statement by statement -/

variable {n : Capacity} {p p' : PingPong.Sys} {op : Op} {ops : List Op}

/-- Where the writer is in an operation. -/
def Op.Ready : Op → PingPong.Pc → Prop
  | .get, writer => writer.held = none
  | .update, writer => writer.held.isSome
  | _, writer => ∃ b, writer = .holding b

/-- Where it is behind an operation. -/
def Op.Done : Op → PingPong.Pc → Prop
  | .update, writer => writer = .outside
  | _, writer => ∃ b, writer = .holding b

/-- One statement of an operation: the last one does it, the others change nothing. -/
theorem table_step (hp : p.HandedOver n) (hlen : ∀ k, (p.tab.buffers k).length = size)
    (hready : op.Ready p.writer) (h : PingPong.step p (op.act p.writer) = some p') :
    if op.over p'.writer then
      op.Done p'.writer ∧ op.apply size n.val (viewOf p) = some (viewOf p')
    else op.Ready p'.writer ∧ viewOf p' = viewOf p := by
  cases op with
  | store i v =>
    cases PingPong.step_cases h with
    | @write b i v hb hi =>
      obtain ⟨rfl, -⟩ := hp.writer b (by rw [hb]; rfl)
      rw [hlen] at hi
      exact ⟨⟨_, hb⟩, apply_store_eq_some.mpr ⟨hi, rfl⟩⟩
  | burst =>
    obtain ⟨b, hb⟩ := hready
    rw [hb] at h
    cases PingPong.step_cases h with
    | getLock hpc | getSleep hpc | getBuffer hpc | wake hpc | updLock hpc | finish hpc =>
      cases hb.symm.trans hpc
  | update =>
    cases hw : p.writer with
    | outside | getLock | getLocked | asleep =>
      rw [hw] at hready
      cases hready
    | holding b =>
      rw [hw] at h
      cases PingPong.step_cases h
      exact ⟨rfl, rfl⟩
    | updLock b =>
      rw [hw] at h
      cases PingPong.step_cases h with
      | updLock => exact ⟨rfl, rfl⟩
      | getLock hpc | getSleep hpc | getBuffer hpc | wake hpc | finish hpc =>
        cases hw.symm.trans hpc
    | updLocked b =>
      rw [hw] at h
      cases PingPong.step_cases h with
      | @finish d b' hpc =>
        obtain rfl : b = b' := by simpa [PingPong.Sys.pc, hw] using hpc
        obtain ⟨rfl, hlt⟩ := hp.writer b (by rw [hw]; rfl)
        obtain ⟨-, hhead, -⟩ := PingPong.updateBody_write hp hlt
        refine ⟨rfl, congrArg some ?_⟩
        simp only [viewOf, PingPong.Sys.finish, PingPong.updateBody_buffers, hhead, hp.num_eq]
      | getLock hpc | getSleep hpc | getBuffer hpc | wake hpc | updLock hpc =>
        cases hw.symm.trans hpc
  | get =>
    cases hw : p.writer with
    | holding | updLock | updLocked =>
      rw [hw] at hready
      cases hready
    | outside =>
      rw [hw] at h
      cases PingPong.step_cases h
      exact ⟨rfl, rfl⟩
    | getLock | getLocked | asleep =>
      rw [hw] at h
      cases PingPong.step_cases h with
      | getLock | getSleep => exact ⟨rfl, rfl⟩
      | wake => exact ⟨rfl, rfl⟩
      | getBuffer => exact ⟨⟨_, rfl⟩, rfl⟩
      | updLock hpc | finish hpc => cases hw.symm.trans hpc

/-- `camTCP` leaves the writer and its buffers alone. -/
theorem tcp_step (hp : p.HandedOver n) (h : PingPong.step p (tcpAct p) = some p') :
    viewOf p' = viewOf p ∧ p'.writer = p.writer := by
  have hread : tcpAct p ∈ [.get .READ, .run .READ, .read, .update .READ] := by
    unfold tcpAct
    split
    · simp
    · split <;> simp
    · simp
  generalize tcpAct p = a at h hread
  cases PingPong.step_cases h with
  | @get d | @getLock d | @getSleep d | @getBuffer d | @wake d | @updLock d | @update d =>
    cases d with
    | READ => exact ⟨rfl, rfl⟩
    | WRITE => simp at hread
  | @finish d =>
    cases d with
    | READ =>
      obtain ⟨-, -, hhead, -⟩ := PingPong.updateBody_read hp
      refine ⟨?_, rfl⟩
      simp only [viewOf, PingPong.Sys.finish, PingPong.updateBody_buffers, hhead]
    | WRITE => simp at hread
  | write => simp at hread
  | read => exact ⟨rfl, rfl⟩

/-! ### Where `camThread` is -/

/-- Nothing is committed by it, and it fits the buffer. -/
def Op.Fits (size : ℕ) : Op → Prop
  | .store i _ => i < size
  | .update => False
  | .get | .burst => True

/-- The writer is where the operations begin, and what follows an update can be done. -/
def Placed (size : ℕ) : List Op → PingPong.Pc → Prop
  | [], writer => ∃ b, writer = .holding b
  | op :: ops, writer => op.Ready writer ∧ (op = .update → ∀ o ∈ ops, o.Fits size) ∧
    ∀ writer', op.Done writer' → Placed size ops writer'

def Pc.Placed (size : ℕ) : Pc → PingPong.Pc → Prop
  | .turn ops, writer => Video.Placed size ops writer
  | .flush, writer => writer.held.isSome
  | _, writer => writer = .outside

theorem placed_stores {writer : PingPong.Pc} (h : ∃ b, writer = .holding b)
    (hops : ∀ op ∈ ops, ∃ i v, op = .store i v) : Placed size ops writer := by
  induction ops generalizing writer with
  | nil => exact h
  | cons op ops ih =>
    rw [List.forall_mem_cons] at hops
    obtain ⟨⟨i, v, rfl⟩, hops⟩ := hops
    exact ⟨h, nofun, fun writer' h' => ih h' hops⟩

theorem turn_len : (turn size l b).1.len = l.len - 1 := by
  simp only [turn]
  split_ifs <;> rfl

/-- A turn only stores, unless it flushes a full buffer. -/
theorem turn_ops : (turn size l b).2 = [.update, .get, .store 0 b, .burst] ∨
    ∀ op ∈ (turn size l b).2, ∃ i v, op = .store i v := by
  by_cases hstop : b = 0xD9 ∧ l.temp = 0xFF
  · right
    simp [turn, hstop]
  · cases hheader : l.is_header with
    | true =>
      by_cases hlt : l.i < size
      · right
        simp [turn, hstop, hheader, hlt]
      · left
        simp [turn, hstop, hheader, hlt]
    | false =>
      right
      by_cases hstart : b = 0xD8 ∧ l.temp = 0xFF <;> simp [turn, hstop, hheader, hstart]

theorem placed_turn (hsize : 0 < size) {writer : PingPong.Pc} (h : ∃ b, writer = .holding b) :
    Placed size (turn size l b).2 writer := by
  rcases turn_ops (l := l) (b := b) with hflush | hstores
  · rw [hflush]
    obtain ⟨k, rfl⟩ := h
    refine ⟨rfl, fun _ => ?_, fun w hw => ⟨?_, nofun, fun w' hw' => ?_⟩⟩
    · simp [Op.Fits, hsize]
    · rw [hw]
      rfl
    · exact ⟨hw', nofun, fun w'' hw'' => ⟨hw'', nofun, fun _ h => h⟩⟩
  · exact placed_stores h hstores

theorem commits_apply (h : op ≠ .update) {t' : View} (ht : op.apply size num_buffs t = some t') :
    t'.commits = t.commits := by
  cases op with
  | store i v =>
    obtain ⟨-, rfl⟩ := apply_store_eq_some.mp ht
    rfl
  | update => exact absurd rfl h
  | get | burst =>
    cases ht
    rfl

/-- What fits can be done, and commits nothing. -/
theorem exec_fits (h : ∀ op ∈ ops, op.Fits size) (t : View) :
    ∃ t', exec (Op.apply size num_buffs) t ops = some t' ∧ t'.commits = t.commits := by
  induction ops generalizing t with
  | nil => exact ⟨t, rfl, rfl⟩
  | cons op ops ih =>
    rw [List.forall_mem_cons] at h
    have hupdate : op ≠ .update := by
      rintro rfl
      exact h.1
    obtain ⟨t₁, ht₁⟩ : ∃ t₁, op.apply size num_buffs t = some t₁ := by
      cases op with
      | store i v => exact ⟨_, apply_store_eq_some.mpr ⟨h.1, rfl⟩⟩
      | update => exact absurd rfl hupdate
      | get | burst => exact ⟨t, rfl⟩
    obtain ⟨t', ht', hcommits'⟩ := ih h.2 t₁
    exact ⟨t', exec_cons_eq_some.mpr ⟨t₁, ht₁, ht'⟩, hcommits'.trans (commits_apply hupdate ht₁)⟩

/-- What the FIFO holds, and how much of it is still to be read. -/
def Pc.Fifo : Pc → Cam.Fifo → ℕ → Prop
  | .start, fifo, _ => fifo = .idle
  | .poll, fifo, _ => fifo = .capturing ∨
      ∃ content, content.length ≤ MAX_FIFO_SIZE ∧ fifo = .captured content.length content
  | .capture, fifo, _ =>
      ∃ content, content.length ≤ MAX_FIFO_SIZE ∧ fifo = .captured content.length content
  | .turn _, fifo, len => ∃ n rest, fifo = .captured n rest ∧ len = rest.length
  | _, _, _ => True

/-- The operations that are still to be done. -/
def Pc.todo : Pc → List Op
  | .turn ops => ops
  | .flush => [.update]
  | _ => []

/-- What is still to be read of the present capture. -/
def Sys.ahead (chip : Chip σ) (s : Sys σ) : List Ev :=
  match s.pc with
  | .turn _ => (Fifo.content (s.bus.fifo chip)).map .byte ++ [.finish]
  | _ => []

/-- `camThread` has taken the events `evs`, but for the operations still to be done. -/
structure Linked (chip : Chip σ) (size : ℕ) (n : Capacity) (evs : List Ev) (s : Sys σ) : Prop where
  handed : s.table.HandedOver n
  length : ∀ k, (s.table.tab.buffers k).length = size
  placed : s.pc.Placed size s.table.writer
  unselected : s.bus.selected = false
  fifo : s.pc.Fifo (s.bus.fifo chip) s.locals.len
  events : evs ++ s.ahead chip = Cam.camThread s.captures
  doing : exec (Op.apply size n.val) (viewOf s.table) s.pc.todo
    = (exec (Cam.step size n.val) (Cam.boot size) evs).map viewOfWriter
  locals : ∀ cam, exec (Cam.step size n.val) (Cam.boot size) evs = some cam → s.locals.Of cam
  committed : ∃ evs' cam, evs' <+: evs ∧
    exec (Cam.step size n.val) (Cam.boot size) evs' = some cam ∧ cam.commits = s.table.commits

variable {evs : List Ev} {s s' : Sys σ}

theorem linked_boot (c : σ) (n : Capacity) : Linked chip size n [] (boot size c n) where
  handed := PingPong.handedOver_start _ n
  length _ := List.length_replicate
  placed := rfl
  unselected := rfl
  fifo := trivial
  events := rfl
  doing := rfl
  locals cam hcam := by
    cases hcam
    exact ⟨rfl, rfl, rfl⟩
  committed := ⟨[], _, List.prefix_rfl, rfl, rfl⟩

/-- The captures so far stay in the buffers: the writer of `Cam/Capture.lean`, which stops at a
    store beyond its buffer, takes them all. -/
def Contained (size : ℕ) (n : Capacity) (captures : List (List UInt8)) : Prop :=
  ∃ cam, exec (Cam.step size n.val) (Cam.boot size) (Cam.camThread captures) = some cam

/-- The store at which `camThread` stands, if it stands at one, is in its buffer. -/
def Sys.Inside (size : ℕ) (s : Sys σ) : Prop :=
  ∀ i v ops, s.pc = .turn (.store i v :: ops) → i < size

/-- A store of the present capture is one of the writer's. -/
theorem Linked.store_lt (hs : Linked chip size n evs s) (hin : Contained size n s.captures) :
    s.Inside size := by
  intro i v ops hpc
  obtain ⟨cam, hcam⟩ := hin
  rw [← hs.events] at hcam
  obtain ⟨cam', hcam', -⟩ := exec_append_eq_some.mp hcam
  have hdoing := hs.doing
  rw [hcam', hpc] at hdoing
  obtain ⟨t, ht, -⟩ := exec_cons_eq_some.mp hdoing
  exact (apply_store_eq_some.mp ht).1

/-! ### One statement -/

/-- Between two captures. -/
def Pc.between : Pc → Bool
  | .turn _ | .flush => false
  | _ => true

theorem todo_between {pc : Pc} (h : pc.between) : pc.todo = [] := by
  cases pc <;> first | rfl | cases h

theorem ahead_between (h : s.pc.between) : s.ahead chip = [] := by
  unfold Sys.ahead
  cases hpc : s.pc with
  | turn =>
    rw [hpc] at h
    cases h
  | init | clear | start | poll | capture | flush => rfl

theorem placed_between {pc : Pc} (h : pc.between) (writer : PingPong.Pc) :
    pc.Placed size writer ↔ writer = .outside := by
  cases pc <;> first | exact Iff.rfl | cases h

/-- Between two captures only the bus is used. -/
theorem linked_between (hs : Linked chip size n evs s) {pc : Pc} {bus : Bus σ}
    (h : s.pc.between) (h' : pc.between) (hbus : bus.selected = false)
    (hfifo : pc.Fifo (bus.fifo chip) s.locals.len) :
    Linked chip size n evs { s with pc := pc, bus := bus } where
  handed := hs.handed
  length := hs.length
  placed := (placed_between h' _).mpr ((placed_between h _).mp hs.placed)
  unselected := hbus
  fifo := hfifo
  events := by
    have hahead : Sys.ahead chip { s with pc := pc, bus := bus } = [] := ahead_between h'
    rw [hahead, ← hs.events, ahead_between h]
  doing := by
    rw [← hs.doing, todo_between h]
    show exec (Op.apply size n.val) (viewOf s.table) pc.todo = _
    rw [todo_between h']
  locals := hs.locals
  committed := hs.committed

/-- The writer of `Cam/Capture.lean` between two operations. -/
theorem Linked.writer (hs : Linked chip size n evs s) (htodo : s.pc.todo = []) :
    ∃ cam, exec (Cam.step size n.val) (Cam.boot size) evs = some cam ∧
      viewOfWriter cam = viewOf s.table ∧ s.locals.Of cam := by
  have hdoing := hs.doing
  rw [htodo] at hdoing
  obtain ⟨cam, hcam, hview⟩ := Option.map_eq_some_iff.mp hdoing.symm
  exact ⟨cam, hcam, hview, hs.locals cam hcam⟩

/-- The call of `camCapture`. -/
theorem linked_capture (hchip : chip.Documented) (hs : Linked chip size n evs s)
    (hpc : s.pc = .capture) (h : camStep chip size s = some s') :
    Linked chip size n (evs ++ [.start]) s' := by
  have hfifo := hs.fifo
  have hplaced := hs.placed
  have hevents := hs.events
  rw [hpc] at hfifo hplaced
  rw [ahead_between (by rw [hpc]; rfl), List.append_nil] at hevents
  obtain ⟨content, hlen, hcontent⟩ := hfifo
  obtain ⟨hn, hafter, hsel⟩ := getFifoLength hchip hcontent hlen
  obtain ⟨cam, hcam, hview, -⟩ := hs.writer (by rw [hpc]; rfl)
  simp only [camStep, hpc, Option.some.injEq] at h
  subst h
  have hstart : exec (Cam.step size n.val) (Cam.boot size) (evs ++ [.start]) = some { cam with
      temp := 0, is_header := false, i := 0, flushed := false, kept := 0 } :=
    exec_append_eq_some.mpr ⟨cam, hcam, rfl⟩
  refine ⟨hs.handed, hs.length, ?_, hsel, ⟨_, content, hafter, hn⟩, ?_, ?_, ?_, ?_⟩
  · have hout : s.table.writer = .outside := hplaced
    refine ⟨?_, nofun, fun _ h => h⟩
    show s.table.writer.held = none
    rw [hout]
    rfl
  · simp only [Sys.ahead, hafter, Fifo.content]
    rw [camThread_concat, ← hevents, List.append_assoc]
    rfl
  · rw [hstart]
    exact congrArg some hview.symm
  · intro cam' hcam'
    rw [hstart] at hcam'
    cases hcam'
    exact ⟨rfl, rfl, rfl⟩
  · obtain ⟨evs', c, hpre, hc⟩ := hs.committed
    exact ⟨evs', c, hpre.trans (List.prefix_append _ _), hc⟩

/-- The next turn of the loop, or the end of it. -/
theorem linked_turn (hchip : chip.Documented) (hsize : 0 < size) (hs : Linked chip size n evs s)
    (hpc : s.pc = .turn []) (h : camStep chip size s = some s') :
    ∃ e, Linked chip size n (evs ++ [e]) s' := by
  have hfifo := hs.fifo
  have hplaced := hs.placed
  have hevents := hs.events
  rw [hpc] at hfifo hplaced
  obtain ⟨N, rest, hfifo, hlen⟩ := hfifo
  obtain ⟨cam, hcam, hview, hlocals⟩ := hs.writer (by rw [hpc]; rfl)
  obtain ⟨evs', c, hpre, hc⟩ := hs.committed
  have hcommitted (e : Ev) := hpre.trans (List.prefix_append evs [e])
  simp only [Sys.ahead, hpc, hfifo, Fifo.content] at hevents
  simp only [camStep, hpc] at h
  cases rest with
  | nil =>
    -- the capture has been read
    rw [if_pos (by exact hlen), Option.some.injEq] at h
    subst h
    have hfinish : exec (Cam.step size n.val) (Cam.boot size) (evs ++ [.finish]) =
        some (cam.update n.val) := exec_append_eq_some.mpr ⟨cam, hcam, rfl⟩
    refine ⟨.finish, hs.handed, hs.length, ?_, hs.unselected, trivial, ?_, ?_, ?_,
      ⟨evs', c, hcommitted _, hc⟩⟩
    · obtain ⟨b, hb⟩ := hplaced
      show s.table.writer.held.isSome
      rw [hb]
      rfl
    · rw [← hevents]
      exact List.append_nil _
    · rw [hfinish, ← hview]
      rfl
    · intro cam' hcam'
      rw [hfinish] at hcam'
      cases hcam'
      exact hlocals
  | cons b rest =>
    have hpos : ¬ s.locals.len = 0 := by simp [hlen]
    obtain ⟨hread, hafter⟩ := readFifo hchip hfifo
    rw [if_neg hpos, hread, Option.some.injEq] at h
    subst h
    have hbyte : exec (Cam.step size n.val) (Cam.boot size) (evs ++ [.byte b]) =
        cam.byte size n.val b := by
      rw [exec_append, hcam, Option.bind_some, exec_cons, Cam.step]
      cases cam.byte size n.val b <;> rfl
    refine ⟨.byte b, hs.handed, hs.length, placed_turn hsize hplaced, rfl, ?_, ?_, ?_, ?_,
      ⟨evs', c, hcommitted _, hc⟩⟩
    · refine ⟨N, rest, hafter, turn_len.trans ?_⟩
      rw [hlen]
      rfl
    · simp only [Sys.ahead, hafter, Fifo.content]
      rw [← hevents, List.append_assoc]
      rfl
    · rw [hbyte, ← (turn_byte hlocals).1, hview]
      rfl
    · rw [hbyte]
      exact (turn_byte hlocals).2

theorem length_apply (ht : ∀ k, (t.buffers k).length = size) {t' : View}
    (h : op.apply size num_buffs t = some t') (k : ℕ) : (t'.buffers k).length = size := by
  cases op with
  | store i v =>
    obtain ⟨-, rfl⟩ := apply_store_eq_some.mp h
    by_cases hk : k = t.head
    · subst hk
      simpa using ht t.head
    · simpa [Function.update_of_ne hk] using ht k
  | update | get | burst =>
    cases h
    exact ht k

/-- A statement of an operation on the table. -/
theorem linked_table (hs : Linked chip size n evs s) (op : Op) (pc : Pc)
    (hready : op.Ready s.table.writer) (htodo : s.pc.todo = op :: pc.todo)
    (hstay : ∀ writer, op.Ready writer → s.pc.Placed size writer)
    (hdone : ∀ writer, op.Done writer → pc.Placed size writer)
    (hfits : op = .update → ∀ o ∈ pc.todo, o.Fits size)
    (hfifo : pc.Fifo (s.bus.fifo chip) s.locals.len)
    (hahead : Sys.ahead chip { s with pc := pc } = s.ahead chip)
    (h : tableStep s op pc = some s') : Linked chip size n evs s' := by
  obtain ⟨table, htable, rfl⟩ := Option.map_eq_some_iff.mp h
  have hhanded := PingPong.handedOver_step hs.handed htable
  have hop := table_step hs.handed hs.length hready htable
  by_cases hover : op.over table.writer = true
  · rw [if_pos hover] at hop
    obtain ⟨hafter, happly⟩ := hop
    rw [if_pos hover]
    have hrest : exec (Op.apply size n.val) (viewOf table) pc.todo
        = (exec (Cam.step size n.val) (Cam.boot size) evs).map viewOfWriter := by
      rw [← hs.doing, htodo, exec_cons, happly, Option.bind_some]
    refine ⟨hhanded, length_apply hs.length happly, hdone _ hafter, hs.unselected, hfifo, ?_,
      hrest, hs.locals, ?_⟩
    · rw [← hs.events, ← hahead]
      rfl
    · by_cases hupdate : op = .update
      · -- the rest of the turn can be done
        obtain ⟨t, ht, hcommits⟩ := exec_fits (hfits hupdate) (viewOf table)
        rw [hrest] at ht
        obtain ⟨cam, hcam, rfl⟩ := Option.map_eq_some_iff.mp ht
        exact ⟨evs, cam, List.prefix_rfl, hcam, hcommits⟩
      · have hcommits : table.commits = s.table.commits := commits_apply hupdate happly
        obtain ⟨evs', c, hpre, hc, hcommits'⟩ := hs.committed
        exact ⟨evs', c, hpre, hc, hcommits'.trans hcommits.symm⟩
  · rw [if_neg hover] at hop
    obtain ⟨hready', hview⟩ := hop
    rw [if_neg hover]
    have hcommits : table.commits = s.table.commits := congrArg View.commits hview
    refine ⟨hhanded, ?_, hstay _ hready', hs.unselected, hs.fifo, hs.events, ?_, hs.locals, ?_⟩
    · intro k
      have hbuffers : table.tab.buffers = s.table.tab.buffers := congrArg View.buffers hview
      show (table.tab.buffers k).length = size
      rw [hbuffers]
      exact hs.length k
    · show exec (Op.apply size n.val) (viewOf table) s.pc.todo = _
      rw [hview]
      exact hs.doing
    · obtain ⟨evs', c, hpre, hc, hcommits'⟩ := hs.committed
      exact ⟨evs', c, hpre, hc, hcommits'.trans hcommits.symm⟩

/-- An operation of a turn. -/
theorem linked_op (hchip : chip.Documented) (hs : Linked chip size n evs s)
    (hpc : s.pc = .turn (op :: ops)) (h : camStep chip size s = some s') :
    Linked chip size n evs s' := by
  have hplaced := hs.placed
  have hfifo := hs.fifo
  rw [hpc] at hplaced hfifo
  obtain ⟨hready, hfits, hdone⟩ := hplaced
  by_cases hburst : op = .burst
  · subst hburst
    simp only [camStep, hpc, Option.some.injEq] at h
    subst h
    have hsame := fifo_setFifoBurst hchip hs.unselected
    refine ⟨hs.handed, hs.length, hdone _ hready, hs.unselected, ?_, ?_, ?_, hs.locals,
      hs.committed⟩
    · rw [hsame]
      exact hfifo
    · rw [← hs.events]
      simp only [Sys.ahead, hpc, hsame]
    · rw [← hs.doing, hpc]
      rfl
  · have htable : camStep chip size s = tableStep s op (.turn ops) := by
      cases op with
      | burst => exact absurd rfl hburst
      | store | update | get => simp only [camStep, hpc]
    rw [htable] at h
    refine linked_table hs op (.turn ops) hready (by rw [hpc]; rfl) ?_ hdone hfits hfifo ?_ h
    · intro writer hw
      rw [hpc]
      exact ⟨hw, hfits, hdone⟩
    · simp only [Sys.ahead, hpc]

/-- The update behind the loop. -/
theorem linked_flush (hs : Linked chip size n evs s) (hpc : s.pc = .flush)
    (h : camStep chip size s = some s') : Linked chip size n evs s' := by
  have hplaced := hs.placed
  rw [hpc] at hplaced
  simp only [camStep, hpc] at h
  refine linked_table hs .update .clear hplaced (by rw [hpc]; rfl) ?_ (fun _ h => h) ?_ trivial ?_ h
  · intro writer hw
    rw [hpc]
    exact hw
  · exact fun _ o ho => absurd ho List.not_mem_nil
  · simp only [Sys.ahead, hpc]

/-- **Step rule.** -/
theorem linked_step (hchip : chip.Documented) (hsize : 0 < size) (hs : Linked chip size n evs s)
    {a : Act} (h : step chip size s a = some s') : ∃ evs', Linked chip size n evs' s' := by
  cases a with
  | tcp =>
    obtain ⟨table, htable, rfl⟩ := Option.map_eq_some_iff.mp h
    obtain ⟨hview, hwriter⟩ := tcp_step hs.handed htable
    have hcommits : table.commits = s.table.commits := congrArg View.commits hview
    have hbuffers : table.tab.buffers = s.table.tab.buffers := congrArg View.buffers hview
    obtain ⟨evs', c, hpre, hc, hcommits'⟩ := hs.committed
    refine ⟨evs, PingPong.handedOver_step hs.handed htable, fun k => ?_, hwriter ▸ hs.placed,
      hs.unselected, hs.fifo, hs.events, ?_, hs.locals, evs', c, hpre, hc,
      hcommits'.trans hcommits.symm⟩
    · show (table.tab.buffers k).length = size
      rw [hbuffers]
      exact hs.length k
    · show exec (Op.apply size n.val) (viewOf table) s.pc.todo = _
      rw [hview]
      exact hs.doing
  | cam =>
    have h : camStep chip size s = some s' := h
    have hfifo := hs.fifo
    cases hpc : s.pc with
    | init =>
      simp only [camStep, hpc, Option.some.injEq] at h
      subst h
      exact ⟨evs, linked_between hs (by rw [hpc]; rfl) rfl rfl trivial⟩
    | clear =>
      simp only [camStep, hpc, Option.some.injEq] at h
      subst h
      exact ⟨evs, linked_between hs (by rw [hpc]; rfl) rfl rfl (fifo_clear hchip)⟩
    | start =>
      simp only [camStep, hpc, Option.some.injEq] at h
      subst h
      rw [hpc] at hfifo
      exact ⟨evs, linked_between hs (by rw [hpc]; rfl) rfl rfl (.inl (fifo_start hchip hfifo))⟩
    | poll =>
      simp only [camStep, hpc, Option.some.injEq] at h
      subst h
      rw [hpc] at hfifo
      refine ⟨evs, linked_between hs (by rw [hpc]; rfl) ?_ rfl ?_⟩
      · split <;> rfl
      · rcases fifo_poll hchip hfifo with ⟨hbit, hpoll⟩ | hdone
        · rw [if_pos hbit]
          exact .inl hpoll
        · split
          · exact .inr hdone
          · exact hdone
    | capture => exact ⟨_, linked_capture hchip hs hpc h⟩
    | turn ops =>
      cases ops with
      | nil =>
        obtain ⟨e, hs'⟩ := linked_turn hchip hsize hs hpc h
        exact ⟨_, hs'⟩
      | cons op ops => exact ⟨evs, linked_op hchip hs hpc h⟩
    | flush => exact ⟨evs, linked_flush hs hpc h⟩

theorem linked_reachable (hchip : chip.Documented) (hsize : 0 < size) {c : σ} {n : Capacity}
    (h : Reachable (step chip size) (boot size c n) s) : ∃ evs, Linked chip size n evs s := by
  refine h.invariant (I := fun s => ∃ evs, Linked chip size n evs s) ⟨[], linked_boot c n⟩ ?_
  intro t a t' ht hstep
  obtain ⟨evs, ht⟩ := ht
  exact linked_step hchip hsize ht hstep

/-! ### What is sent -/

/-- The bytes that `send` has taken. -/
def sent (p : PingPong.Sys) : List UInt8 :=
  p.reads.flatten ++ if p.reader.held.isSome then p.got else []

theorem sent_prefix_commits (hp : p.HandedOver n) : sent p <+: p.commits.flatten := by
  unfold sent
  split
  · rename_i hheld
    obtain ⟨b, hb⟩ := Option.isSome_iff_exists.mp hheld
    obtain ⟨-, -, hgot⟩ := hp.reader b hb
    have hcommit := hp.reading hb
    rw [hp.ledger, List.getElem?_append_right le_rfl, Nat.sub_self] at hcommit
    rw [hp.ledger, List.flatten_append, List.prefix_append_right_inj]
    cases hqueue : p.tab.queue with
    | nil => simp [hqueue] at hcommit
    | cons content rest =>
      obtain rfl : content = p.tab.buffers b := by simpa [hqueue] using hcommit
      exact hgot.trans (List.prefix_append _ _)
  · rw [hp.ledger, List.append_nil, List.flatten_append]
    exact List.prefix_append _ _

/-- **The video path refines the captures.**  In every interleaving of `camThread` and `camTCP`,
    whatever the chip captures, if no capture so far writes beyond a buffer: every store is in its
    buffer; `camThread` has read a beginning of the captures byte by byte, all of them between two
    captures; the buffers committed are those that the sequential writer commits; and what is sent
    is a beginning of them. -/
theorem video_refines (hchip : chip.Documented) (hsize : 0 < size) (c : σ) (num_buffs : Capacity)
    (h : Reachable (step chip size) (boot size c num_buffs) s)
    (hin : Contained size num_buffs s.captures) :
    s.Inside size ∧ ∃ evs cam, evs <+: Cam.camThread s.captures ∧
      (s.pc.between → evs = Cam.camThread s.captures) ∧
      exec (Cam.step size num_buffs.val) (Cam.boot size) evs = some cam ∧
      s.table.commits = cam.commits ∧ sent s.table <+: Cam.camTCP cam.commits := by
  obtain ⟨evs, hs⟩ := linked_reachable hchip hsize h
  refine ⟨hs.store_lt hin, ?_⟩
  have hsent := sent_prefix_commits hs.handed
  have hevents : evs <+: Cam.camThread s.captures := ⟨_, hs.events⟩
  by_cases hpc : s.pc.between
  · obtain ⟨cam, hcam, hview, -⟩ := hs.writer (todo_between hpc)
    have hcommits : cam.commits = s.table.commits := congrArg View.commits hview
    refine ⟨evs, cam, hevents, fun _ => ?_, hcam, hcommits.symm, hcommits ▸ hsent⟩
    rw [← hs.events, ahead_between hpc, List.append_nil]
  · obtain ⟨evs', cam, hpre, hcam, hcommits⟩ := hs.committed
    exact ⟨evs', cam, hpre.trans hevents, fun h => absurd h hpc, hcam, hcommits.symm,
      hcommits ▸ hsent⟩

theorem num_cam_buffers_lt : 2 < 2 ^ 32 := by decide

def NUM_CAM_BUFFERS : Capacity := ⟨2, Nat.two_pos, num_cam_buffers_lt⟩

/-- A frame over two buffers, the first of them being sent while the second is filled. -/
def videoRun : Option (Sys Sim) :=
  exec (step sim 4) (boot 4 ⟨.idle, [[0xFF, 0xD8, 1, 2, 3, 0xFF, 0xD9]]⟩ NUM_CAM_BUFFERS)
    (List.replicate 24 .cam ++ List.replicate 7 .tcp ++ List.replicate 10 .cam ++
      List.replicate 13 .tcp)

theorem video_refines_run : ∃ (s : Sys Sim) (cam : Writer),
    s.captures = [[0xFF, 0xD8, 1, 2, 3, 0xFF, 0xD9]] ∧
    exec (Cam.step 4 2) (Cam.boot 4) (Cam.camThread s.captures) = some cam ∧
    s.table.commits = cam.commits ∧ s.table.commits.length = 2 := by
  have hrun : videoRun = some (videoRun.get (by decide +kernel)) := (Option.some_get _).symm
  have hcaptures : (videoRun.get (by decide +kernel)).captures =
      [[0xFF, 0xD8, 1, 2, 3, 0xFF, 0xD9]] := by decide +kernel
  have hin : Contained 4 NUM_CAM_BUFFERS (videoRun.get (by decide +kernel)).captures := by
    rw [hcaptures]
    exact ⟨_, rfl⟩
  obtain ⟨-, evs, cam, -, hevs, hcam, hcommits, -⟩ := video_refines sim_documented (by decide) _ _
    (Reachable.exec _ .init hrun) hin
  rw [hevs (by decide +kernel)] at hcam
  exact ⟨_, cam, hcaptures, hcam, hcommits, by decide +kernel⟩

/-- What a scanner from the beginning of the stream has. -/
theorem Linked.stream_images {evs : List Ev} (hs : Linked chip size n evs s)
    {frames : List (List UInt8)} (hcaptures : List.Forall₂ FrameAndPadding frames s.captures)
    {l : List UInt8} (hl : l <+: sent s.table) :
    (run (Scan.step jpeg) (.init 0) l).images <+: frames ∧
      (s.pc.between → l = s.table.commits.flatten →
        (run (Scan.step jpeg) (.init 0) l).images = frames) := by
  constructor
  · obtain ⟨evs', cam, hpre, hcam, hcommits⟩ := hs.committed
    have hclient : (run (Scan.step jpeg) (.init 0) l).images <+: cam.client.images := by
      obtain ⟨rest, hrest⟩ := hl.trans (sent_prefix_commits hs.handed)
      rw [Writer.client, hcommits, ← hrest, run_append]
      exact images_prefix _ _
    exact hclient.trans (images_run hcaptures (hpre.trans ⟨_, hs.events⟩) hcam)
  · intro hpc hall
    obtain ⟨cam, hcam, hview, -⟩ := hs.writer (todo_between hpc)
    have hcommits : cam.commits = s.table.commits := congrArg View.commits hview
    have hevents := hs.events
    rw [ahead_between hpc, List.append_nil] at hevents
    rw [hevents] at hcam
    rw [hall, ← hcommits]
    exact (thread_frames hcaptures hcam).2.2

/-- **The video path, end to end.**  With a frame a capture, none of which writes beyond a buffer,
    in every interleaving, and however the stream is cut, the client has a beginning of the frames
    at every moment, and between two captures, once all has been received, all of them. -/
theorem video_end_to_end (hchip : chip.Documented) (hsize : 0 < size) (c : σ)
    (num_buffs : Capacity) (h : Reachable (step chip size) (boot size c num_buffs) s)
    (hin : Contained size num_buffs s.captures)
    {frames : List (List UInt8)} (hcaptures : List.Forall₂ FrameAndPadding frames s.captures)
    (datas : List (List UInt8)) (hdatas : datas.flatten <+: sent s.table) :
    s.Inside size ∧ (jpegClient datas).images <+: frames ∧
      (s.pc.between → datas.flatten = s.table.commits.flatten →
        (jpegClient datas).images = frames) := by
  obtain ⟨evs, hs⟩ := linked_reachable hchip hsize h
  rw [jpegClient_flatten]
  exact ⟨hs.store_lt hin, hs.stream_images hcaptures hdatas⟩

theorem video_end_to_end_run : ∃ s : Sys Sim, s.captures = [[0xFF, 0xD8, 1, 2, 3, 0xFF, 0xD9]] ∧
    (jpegClient [sent s.table]).images = [[0xFF, 0xD8, 1, 2, 3, 0xFF, 0xD9]] := by
  have hrun : videoRun = some (videoRun.get (by decide +kernel)) := (Option.some_get _).symm
  have hcaptures : (videoRun.get (by decide +kernel)).captures =
      [[0xFF, 0xD8, 1, 2, 3, 0xFF, 0xD9]] := by decide +kernel
  have hin : Contained 4 NUM_CAM_BUFFERS (videoRun.get (by decide +kernel)).captures := by
    rw [hcaptures]
    exact ⟨_, rfl⟩
  have hframes : List.Forall₂ FrameAndPadding [[0xFF, 0xD8, 1, 2, 3, 0xFF, 0xD9]]
      (videoRun.get (by decide +kernel)).captures := by
    rw [hcaptures]
    exact .cons ⟨[], rfl, ⟨by decide, by decide, by decide, by decide⟩, by decide, by decide⟩ .nil
  have hall : [sent (videoRun.get (by decide +kernel)).table].flatten =
      (videoRun.get (by decide +kernel)).table.commits.flatten := by decide +kernel
  have hdatas : [sent (videoRun.get (by decide +kernel)).table].flatten <+:
      sent (videoRun.get (by decide +kernel)).table := by simp
  obtain ⟨-, -, himages⟩ := video_end_to_end sim_documented (by decide) _ _
    (Reachable.exec _ .init hrun) hin hframes _ hdatas
  exact ⟨_, hcaptures, himages (by decide +kernel) hall⟩

end Wheelson.Cam.Video
