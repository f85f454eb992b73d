import Wheelson.Ipc.PduFifo

namespace Wheelson.Ipc.PingPong

/-!
# `pingpong_ipc.c`: buffers handed over between one writer and one reader

* `Tab` — the fields of `ppipc_buff_tab_t`; `getBody` and `updateBody` are the sections of
  `ppipc_get_buffer` and `ppipc_update_buffer` under the mutex.
* `Sys` — the table with its writer (`camCapture`) and its reader (`camTCP`).  Getting a
  buffer moves no counter; the writer then stores bytes one at a time, the reader reads them
  one at a time, and the update moves the counters.
* `Sys.HandedOver` — the invariant: the ring holds what was committed and not yet given
  back, the writer's buffer is the one at `head` of a ring that is not full, and the
  reader's is the one at `tail` of a ring that is not empty.
* `semGauge_move` — what a step does to `empty` and to `full`.
* `exclusive_handover` and `no_lost_wakeup` — what follows for every reachable state.
-/

open Machine

/-- `ppipc_RnW_t`. -/
inductive RnW
  | READ | WRITE
deriving DecidableEq, Repr

/-- `ppipc_buff_tab_t`, each buffer as the list of its bytes. -/
structure Tab where
  buffers : ℕ → List UInt8
  num_buffs : ℕ
  avail : ℕ
  tail : ℕ
  head : ℕ
  full : ℕ
  empty : ℕ
  mutex : ℕ

/-- A table in zeroed memory. -/
def Tab.zeroed : Tab := ⟨fun _ => [], 0, 0, 0, 0, 0, 0, 0⟩

/-- `ppipc_init_tab`.  It leaves `avail`, `tail` and `head` as they are. -/
def ppipcInitTab (table : Tab) (buffers : ℕ → List UInt8) (num_buffs : Capacity) : Tab :=
  { table with
    buffers := buffers
    num_buffs := num_buffs.val
    empty := 0
    full := 0
    mutex := 1 }

/-- The loop test of `ppipc_get_buffer`: the caller has to wait. -/
def Tab.mustWait (table : Tab) : RnW → Prop
  | .READ => table.avail = 0
  | .WRITE => table.avail = table.num_buffs

instance (table : Tab) (d : RnW) : Decidable (table.mustWait d) := by
  cases d <;> unfold Tab.mustWait <;> infer_instance

/-- The buffer `ppipc_get_buffer` returns, by its index. -/
def Tab.getBody (table : Tab) : RnW → ℕ
  | .READ => table.tail
  | .WRITE => table.head

/-- The section of `ppipc_update_buffer` between taking and releasing the mutex. -/
def Tab.updateBody (table : Tab) : RnW → Tab
  | .READ =>
    let table := { table with avail := table.avail - 1 }
    let table := { table with tail := (table.tail + 1) % 2 ^ 32 }
    let table := { table with tail := table.tail % table.num_buffs }
    if table.avail = table.num_buffs - 1 then { table with full := Sem.post table.full }
    else table
  | .WRITE =>
    let table := { table with avail := (table.avail + 1) % 2 ^ 32 }
    let table := { table with head := (table.head + 1) % 2 ^ 32 }
    let table := { table with head := table.head % table.num_buffs }
    if table.avail = 1 then { table with empty := Sem.post table.empty } else table

/-! ### The writer and the reader -/

/-- Where a thread is in its cycle of get, use and update. -/
inductive Pc
  /-- Between two cycles. -/
  | outside
  /-- At `sem_wait(&table->mutex)` of `ppipc_get_buffer`. -/
  | getLock
  /-- Holding the mutex, at the loop test. -/
  | getLocked
  /-- At `sem_wait` on `empty` or `full`, the mutex released. -/
  | asleep
  /-- Using the buffer `b`. -/
  | holding (b : ℕ)
  /-- At `sem_wait(&table->mutex)` of `ppipc_update_buffer`. -/
  | updLock (b : ℕ)
  | updLocked (b : ℕ)
deriving DecidableEq, Repr

/-- The buffer a thread holds: from the return of the get to the end of the update. -/
def Pc.held : Pc → Option ℕ
  | .holding b | .updLock b | .updLocked b => some b
  | _ => none

/-- The thread has finished using its buffer. -/
def Pc.finished : Pc → Bool
  | .updLock _ | .updLocked _ => true
  | _ => false

structure Sys where
  tab : Tab
  writer : Pc
  reader : Pc
  /-- The bytes the reader has read from the buffer it holds. -/
  got : List UInt8
  /-- The contents of the buffers at their writer updates, in order. -/
  commits : List (List UInt8)
  /-- The contents read, in the order of the reader updates. -/
  reads : List (List UInt8)

inductive Act
  /-- Call `ppipc_get_buffer`. -/
  | get (d : RnW)
  /-- Go on inside `ppipc_get_buffer` or `ppipc_update_buffer`. -/
  | run (d : RnW)
  /-- The writer stores `v` at index `i` of its buffer. -/
  | write (i : ℕ) (v : UInt8)
  /-- The reader reads the next byte of its buffer. -/
  | read
  /-- Call `ppipc_update_buffer`; the reader does so after the last byte of its buffer. -/
  | update (d : RnW)
deriving DecidableEq, Repr

def Sys.pc (s : Sys) : RnW → Pc
  | .READ => s.reader
  | .WRITE => s.writer

def Sys.setPc (s : Sys) : RnW → Pc → Sys
  | .READ, pc => { s with reader := pc }
  | .WRITE, pc => { s with writer := pc }

/-- The semaphore a thread waits on. -/
def Tab.sem (table : Tab) : RnW → ℕ
  | .READ => table.empty
  | .WRITE => table.full

def Tab.setSem (table : Tab) : RnW → ℕ → Tab
  | .READ, n => { table with empty := n }
  | .WRITE, n => { table with full := n }

/-- The end of an update: the mutex is released and the cycle is logged. -/
def Sys.finish (s : Sys) (b : ℕ) : RnW → Sys
  | .READ => { s with
      tab := { s.tab.updateBody .READ with mutex := Sem.post (s.tab.updateBody .READ).mutex }
      reader := .outside
      reads := s.reads ++ [s.got] }
  | .WRITE => { s with
      tab := { s.tab.updateBody .WRITE with mutex := Sem.post (s.tab.updateBody .WRITE).mutex }
      writer := .outside
      commits := s.commits ++ [s.tab.buffers b] }

/-- One step of one of the two threads, `none` when it cannot be taken. -/
def step (s : Sys) : Act → Option Sys
  | .get d => if s.pc d = .outside then some (s.setPc d .getLock) else none
  | .run d =>
    match s.pc d with
    | .outside | .holding _ => none
    | .getLock => (Sem.wait s.tab.mutex).map fun n =>
        { s.setPc d .getLocked with tab := { s.tab with mutex := n } }
    | .getLocked =>
      let tab := { s.tab with mutex := Sem.post s.tab.mutex }
      if s.tab.mustWait d then some { s.setPc d .asleep with tab := tab }
      else
        some { s.setPc d (.holding (s.tab.getBody d)) with
          tab := tab
          got := if d = .READ then [] else s.got }
    | .asleep => (Sem.wait (s.tab.sem d)).map fun n =>
        { s.setPc d .getLock with tab := s.tab.setSem d n }
    | .updLock b => (Sem.wait s.tab.mutex).map fun n =>
        { s.setPc d (.updLocked b) with tab := { s.tab with mutex := n } }
    | .updLocked b => some (s.finish b d)
  | .write i v =>
    match s.writer with
    | .holding b =>
      if i < (s.tab.buffers b).length then
        some { s with tab := { s.tab with
          buffers := Function.update s.tab.buffers b ((s.tab.buffers b).set i v) } }
      else none
    | _ => none
  | .read =>
    match s.reader with
    | .holding b => ((s.tab.buffers b)[s.got.length]?).map fun v => { s with got := s.got ++ [v] }
    | _ => none
  | .update d =>
    match s.pc d with
    | .holding b =>
      if d = .READ ∧ s.got.length ≠ (s.tab.buffers b).length then none
      else some (s.setPc d (.updLock b))
    | _ => none

/-- The state after `ppipc_init_tab` on a zeroed table. -/
def start (buffers : ℕ → List UInt8) (num_buffs : Capacity) : Sys where
  tab := ppipcInitTab .zeroed buffers num_buffs
  writer := .outside
  reader := .outside
  got := []
  commits := []
  reads := []

/-- The contents the reader has seen to the end. -/
def Sys.seen (s : Sys) : List (List UInt8) :=
  if s.reader.finished then s.reads ++ [s.got] else s.reads

/-! ### The invariant -/

/-- The buffers from `tail` on that are committed and not given back. -/
def Tab.queue (table : Tab) : List (List UInt8) :=
  Ring.contents table.buffers table.num_buffs table.tail table.avail

structure Sys.HandedOver (num_buffs : Capacity) (s : Sys) : Prop where
  num_eq : s.tab.num_buffs = num_buffs.val
  ring : Ring.WF s.tab.num_buffs s.tab.avail s.tab.tail s.tab.head
  ledger : s.commits = s.reads ++ s.tab.queue
  writer : ∀ b, s.writer.held = some b → b = s.tab.head ∧ s.tab.avail < s.tab.num_buffs
  reader : ∀ b, s.reader.held = some b → b = s.tab.tail ∧ 1 ≤ s.tab.avail ∧
    s.got <+: s.tab.buffers b
  finished : s.reader.finished → s.got = s.tab.buffers s.tab.tail

variable {n : Capacity} {s s' : Sys}

theorem handedOver_start (buffers : ℕ → List UInt8) (n : Capacity) :
    (start buffers n).HandedOver n where
  num_eq := rfl
  ring := Ring.WF.empty n.pos
  ledger := rfl
  writer := by simp [start, Pc.held]
  reader := by simp [start, Pc.held]
  finished := by simp [start, Pc.finished]

/-- The incremented counters do not wrap at `2 ^ 32`. -/
theorem Sys.HandedOver.succ_mod (hs : s.HandedOver n) {k : ℕ} (hk : k < s.tab.num_buffs) :
    (k + 1) % 2 ^ 32 = k + 1 := by
  have hlt := n.lt
  have hnum := hs.num_eq
  exact Nat.mod_eq_of_lt (by omega)

/-- What the two buffers in use are to each other. -/
theorem Sys.HandedOver.exclusive (hs : s.HandedOver n) {bw br : ℕ}
    (hw : s.writer.held = some bw) (hr : s.reader.held = some br) : bw ≠ br := by
  obtain ⟨rfl, hlt⟩ := hs.writer bw hw
  obtain ⟨rfl, hpos, -⟩ := hs.reader br hr
  exact hs.ring.head_ne_tail hpos hlt

/-! ### One lemma per kind of step -/

/-- The same buffers and the same indices. -/
def Tab.SameRing (t t' : Tab) : Prop :=
  t'.buffers = t.buffers ∧ t'.num_buffs = t.num_buffs ∧ t'.avail = t.avail ∧
    t'.tail = t.tail ∧ t'.head = t.head

/-- Steps that take or release a semaphore, with no buffer gained or finished. -/
theorem Sys.HandedOver.frame (hs : s.HandedOver n) (htab : s.tab.SameRing s'.tab)
    (hcommits : s'.commits = s.commits) (hreads : s'.reads = s.reads) (hgot : s'.got = s.got)
    (hw : ∀ b, s'.writer.held = some b → s.writer.held = some b)
    (hr : ∀ b, s'.reader.held = some b → s.reader.held = some b)
    (hfin : s'.reader.finished → s.reader.finished) : s'.HandedOver n := by
  obtain ⟨hbuf, hnum, havail, htail, hhead⟩ := htab
  refine ⟨hnum.trans hs.num_eq, ?_, ?_, ?_, ?_, ?_⟩
  · rw [hnum, havail, htail, hhead]; exact hs.ring
  · rw [hcommits, hreads, hs.ledger]
    unfold Tab.queue
    rw [hbuf, hnum, havail, htail]
  · rw [hhead, havail, hnum]; exact fun b hb => hs.writer b (hw b hb)
  · rw [htail, havail, hgot, hbuf]; exact fun b hb => hs.reader b (hr b hb)
  · rw [hgot, hbuf, htail]; exact fun h => hs.finished (hfin h)

/-- `ppipc_get_buffer(PPIPC_WRITE)` returns the buffer at `head`. -/
theorem Sys.HandedOver.hold_write (hs : s.HandedOver n) (hfree : ¬ s.tab.mustWait .WRITE)
    (mutex : ℕ) :
    Sys.HandedOver n { s with tab := { s.tab with mutex := mutex }, writer := .holding s.tab.head }
    where
  num_eq := hs.num_eq
  ring := hs.ring
  ledger := hs.ledger
  writer b hb := by
    cases hb
    exact ⟨rfl, lt_of_le_of_ne hs.ring.avail_le hfree⟩
  reader := hs.reader
  finished := hs.finished

/-- `ppipc_get_buffer(PPIPC_READ)` returns the buffer at `tail`. -/
theorem Sys.HandedOver.hold_read (hs : s.HandedOver n) (hfree : ¬ s.tab.mustWait .READ)
    (mutex : ℕ) :
    Sys.HandedOver n { s with
      tab := { s.tab with mutex := mutex }
      reader := .holding s.tab.tail
      got := [] } where
  num_eq := hs.num_eq
  ring := hs.ring
  ledger := hs.ledger
  writer := hs.writer
  reader b hb := by
    cases hb
    exact ⟨rfl, Nat.pos_of_ne_zero hfree, List.nil_prefix⟩
  finished h := by cases h

/-- The writer stores into its buffer: it is outside the window of committed buffers. -/
theorem Sys.HandedOver.write (hs : s.HandedOver n) {b : ℕ} (hb : s.writer.held = some b)
    (content : List UInt8) :
    Sys.HandedOver n { s with tab := { s.tab with
      buffers := Function.update s.tab.buffers b content } } := by
  obtain ⟨rfl, hlt⟩ := hs.writer b hb
  refine ⟨hs.num_eq, hs.ring, ?_, hs.writer, ?_, ?_⟩
  · show s.commits = s.reads ++ Ring.contents (Function.update s.tab.buffers s.tab.head content)
      s.tab.num_buffs s.tab.tail s.tab.avail
    rw [Ring.contents_update_of_free content (hs.ring.head_free hlt)]
    exact hs.ledger
  · intro c hc
    have hne := hs.exclusive hb hc
    obtain ⟨htail, hpos, hpre⟩ := hs.reader c hc
    refine ⟨htail, hpos, ?_⟩
    show s.got <+: Function.update s.tab.buffers s.tab.head content c
    rw [Function.update_of_ne hne.symm]
    exact hpre
  · intro hfin
    obtain ⟨c, hc⟩ : ∃ c, s.reader.held = some c := by
      revert hfin
      show s.reader.finished = true → _
      cases s.reader <;> simp [Pc.finished, Pc.held]
    have hne := hs.exclusive hb hc
    obtain ⟨rfl, -⟩ := hs.reader c hc
    show s.got = Function.update s.tab.buffers s.tab.head content s.tab.tail
    rw [Function.update_of_ne hne.symm]
    exact hs.finished hfin

/-- The reader reads the next byte of its buffer. -/
theorem Sys.HandedOver.read (hs : s.HandedOver n) {b : ℕ} (hb : s.reader = .holding b) {v : UInt8}
    (hv : (s.tab.buffers b)[s.got.length]? = some v) :
    Sys.HandedOver n { s with got := s.got ++ [v] } := by
  refine ⟨hs.num_eq, hs.ring, hs.ledger, hs.writer, ?_, ?_⟩
  · intro c hc
    obtain rfl : b = c := by simpa [hb, Pc.held] using hc
    obtain ⟨htail, hpos, rest, hrest⟩ := hs.reader b (by rw [hb]; rfl)
    refine ⟨htail, hpos, ?_⟩
    cases rest with
    | nil =>
      -- all of the buffer has been read
      rw [List.append_nil] at hrest
      rw [← hrest] at hv
      simp at hv
    | cons w rest =>
      have hvw : w = v := by rw [← hrest] at hv; simpa using hv
      subst hvw
      exact ⟨rest, by rw [← hrest]; simp⟩
  · intro hfin
    rw [show Sys.reader { s with got := s.got ++ [v] } = .holding b from hb] at hfin
    cases hfin

/-- The reader is done with its buffer once it has read as many bytes as the buffer has. -/
theorem Sys.HandedOver.update_read (hs : s.HandedOver n) {b : ℕ} (hb : s.reader = .holding b)
    (hlen : s.got.length = (s.tab.buffers b).length) :
    Sys.HandedOver n { s with reader := .updLock b } := by
  have hrd := hs.reader b (by rw [hb]; rfl)
  refine ⟨hs.num_eq, hs.ring, hs.ledger, hs.writer, ?_, ?_⟩
  · intro c hc
    cases hc
    exact hrd
  · intro _
    obtain ⟨rfl, -, hpre⟩ := hrd
    exact hpre.eq_of_length hlen

section updateBody

@[simp] theorem updateBody_buffers (t : Tab) (d : RnW) : (t.updateBody d).buffers = t.buffers := by
  cases d <;> unfold Tab.updateBody <;> dsimp only <;> split <;> rfl

@[simp] theorem updateBody_num_buffs (t : Tab) (d : RnW) :
    (t.updateBody d).num_buffs = t.num_buffs := by
  cases d <;> unfold Tab.updateBody <;> dsimp only <;> split <;> rfl

@[simp] theorem updateBody_mutex (t : Tab) (d : RnW) : (t.updateBody d).mutex = t.mutex := by
  cases d <;> unfold Tab.updateBody <;> dsimp only <;> split <;> rfl

theorem updateBody_write (hs : s.HandedOver n) (hlt : s.tab.avail < s.tab.num_buffs) :
    (s.tab.updateBody .WRITE).avail = s.tab.avail + 1 ∧
      (s.tab.updateBody .WRITE).head = (s.tab.head + 1) % s.tab.num_buffs ∧
      (s.tab.updateBody .WRITE).tail = s.tab.tail ∧
      (s.tab.updateBody .WRITE).full = s.tab.full ∧
      (s.tab.updateBody .WRITE).empty
        = if s.tab.avail = 0 then Sem.post s.tab.empty else s.tab.empty := by
  have havail := hs.succ_mod hlt
  have hhead := hs.succ_mod hs.ring.head_lt
  unfold Tab.updateBody
  dsimp only
  rw [havail, hhead]
  by_cases h0 : s.tab.avail = 0
  · simp [h0]
  · simp [h0]

theorem updateBody_read (hs : s.HandedOver n) :
    (s.tab.updateBody .READ).avail = s.tab.avail - 1 ∧
      (s.tab.updateBody .READ).tail = (s.tab.tail + 1) % s.tab.num_buffs ∧
      (s.tab.updateBody .READ).head = s.tab.head ∧
      (s.tab.updateBody .READ).empty = s.tab.empty ∧
      (s.tab.updateBody .READ).full
        = if s.tab.avail - 1 = s.tab.num_buffs - 1 then Sem.post s.tab.full else s.tab.full := by
  have htail := hs.succ_mod hs.ring.tail_lt
  unfold Tab.updateBody
  dsimp only
  rw [htail]
  by_cases h0 : s.tab.avail - 1 = s.tab.num_buffs - 1
  · simp [h0]
  · simp [h0]

end updateBody

/-- The writer's update commits the buffer at `head`. -/
theorem Sys.HandedOver.finish_write (hs : s.HandedOver n) {b : ℕ} (hb : s.writer = .updLocked b) :
    (s.finish b .WRITE).HandedOver n := by
  obtain ⟨rfl, hlt⟩ := hs.writer b (by rw [hb]; rfl)
  obtain ⟨havail, hhead, htail, -, -⟩ := updateBody_write hs hlt
  refine ⟨?_, ?_, ?_, ?_, ?_, ?_⟩
  · exact (updateBody_num_buffs _ _).trans hs.num_eq
  · show Ring.WF (s.tab.updateBody .WRITE).num_buffs (s.tab.updateBody .WRITE).avail
      (s.tab.updateBody .WRITE).tail (s.tab.updateBody .WRITE).head
    rw [updateBody_num_buffs, havail, htail, hhead]
    exact hs.ring.push hlt
  · show s.commits ++ [s.tab.buffers s.tab.head] = s.reads ++ Ring.contents
      (s.tab.updateBody .WRITE).buffers (s.tab.updateBody .WRITE).num_buffs
      (s.tab.updateBody .WRITE).tail (s.tab.updateBody .WRITE).avail
    have hpush : Ring.contents (Function.update s.tab.buffers s.tab.head
        (s.tab.buffers s.tab.head)) s.tab.num_buffs s.tab.tail (s.tab.avail + 1)
        = s.tab.queue ++ [s.tab.buffers s.tab.head] := by
      rw [hs.ring.head_eq]
      exact Ring.contents_push _ hlt
    rw [Function.update_eq_self] at hpush
    rw [updateBody_buffers, updateBody_num_buffs, htail, havail, hpush, hs.ledger,
      List.append_assoc]
  · intro c hc
    cases hc
  · intro c hc
    obtain ⟨hc', hpos, hpre⟩ := hs.reader c hc
    refine ⟨?_, ?_, ?_⟩
    · show c = (s.tab.updateBody .WRITE).tail
      rw [htail, hc']
    · show 1 ≤ (s.tab.updateBody .WRITE).avail
      omega
    · show s.got <+: (s.tab.updateBody .WRITE).buffers c
      rw [updateBody_buffers]; exact hpre
  · intro hfin
    show s.got = (s.tab.updateBody .WRITE).buffers (s.tab.updateBody .WRITE).tail
    rw [updateBody_buffers, htail]
    exact hs.finished hfin

/-- The reader's update gives back the buffer at `tail`, which it has read to the end. -/
theorem Sys.HandedOver.finish_read (hs : s.HandedOver n) {b : ℕ} (hb : s.reader = .updLocked b) :
    (s.finish b .READ).HandedOver n := by
  obtain ⟨rfl, hpos, -⟩ := hs.reader b (by rw [hb]; rfl)
  have hgot := hs.finished (by rw [hb]; rfl)
  obtain ⟨havail, htail, hhead, -, -⟩ := updateBody_read hs
  refine ⟨?_, ?_, ?_, ?_, ?_, ?_⟩
  · exact (updateBody_num_buffs _ _).trans hs.num_eq
  · show Ring.WF (s.tab.updateBody .READ).num_buffs (s.tab.updateBody .READ).avail
      (s.tab.updateBody .READ).tail (s.tab.updateBody .READ).head
    rw [updateBody_num_buffs, havail, htail, hhead]
    exact hs.ring.pop hpos
  · show s.commits = (s.reads ++ [s.got]) ++ Ring.contents
      (s.tab.updateBody .READ).buffers (s.tab.updateBody .READ).num_buffs
      (s.tab.updateBody .READ).tail (s.tab.updateBody .READ).avail
    obtain ⟨k, hk⟩ : ∃ k, s.tab.avail = k + 1 := ⟨s.tab.avail - 1, by omega⟩
    have hled := hs.ledger
    unfold Tab.queue at hled
    rw [hk, Ring.contents_pop hs.ring.tail_lt, ← hgot] at hled
    rw [updateBody_buffers, updateBody_num_buffs, htail, havail, hk, hled, List.append_assoc]
    rfl
  · intro c hc
    obtain ⟨hc', hlt⟩ := hs.writer c hc
    refine ⟨?_, ?_⟩
    · show c = (s.tab.updateBody .READ).head
      rw [hhead, hc']
    · show (s.tab.updateBody .READ).avail < (s.tab.updateBody .READ).num_buffs
      rw [havail, updateBody_num_buffs]
      omega
  · intro c hc
    cases hc
  · intro hfin
    cases hfin

/-- One thread moves on, with no buffer gained or finished. -/
theorem Sys.HandedOver.move (hs : s.HandedOver n) (d : RnW) {pc : Pc} {tab : Tab}
    (htab : s.tab.SameRing tab) (hheld : ∀ b, pc.held = some b → (s.pc d).held = some b)
    (hfin : pc.finished → (s.pc d).finished) :
    Sys.HandedOver n { s.setPc d pc with tab := tab } := by
  cases d with
  | READ => exact hs.frame htab rfl rfl rfl (fun _ hb => hb) hheld hfin
  | WRITE => exact hs.frame htab rfl rfl rfl hheld (fun _ hb => hb) (fun hf => hf)

theorem Sys.HandedOver.setPc (hs : s.HandedOver n) (d : RnW) {pc : Pc}
    (hheld : ∀ b, pc.held = some b → (s.pc d).held = some b)
    (hfin : pc.finished → (s.pc d).finished) : (s.setPc d pc).HandedOver n := by
  have hmove := hs.move d ⟨rfl, rfl, rfl, rfl, rfl⟩ hheld hfin
  cases d <;> exact hmove

theorem Tab.sameRing_setSem (t : Tab) (d : RnW) (k : ℕ) : t.SameRing (t.setSem d k) := by
  cases d <;> exact ⟨rfl, rfl, rfl, rfl, rfl⟩

/-! ### Every reachable state -/

/-- The steps of the machine, with their results written out. -/
inductive Step (s : Sys) : Act → Sys → Prop
  | get {d : RnW} (hpc : s.pc d = .outside) : Step s (.get d) (s.setPc d .getLock)
  | getLock {d : RnW} {m : ℕ} (hpc : s.pc d = .getLock) (hm : Sem.wait s.tab.mutex = some m) :
      Step s (.run d) { s.setPc d .getLocked with tab := { s.tab with mutex := m } }
  | getSleep {d : RnW} (hpc : s.pc d = .getLocked) (hwait : s.tab.mustWait d) :
      Step s (.run d) { s.setPc d .asleep with
        tab := { s.tab with mutex := Sem.post s.tab.mutex } }
  | getBuffer {d : RnW} (hpc : s.pc d = .getLocked) (hfree : ¬ s.tab.mustWait d) :
      Step s (.run d) { s.setPc d (.holding (s.tab.getBody d)) with
        tab := { s.tab with mutex := Sem.post s.tab.mutex }
        got := if d = .READ then [] else s.got }
  | wake {d : RnW} {m : ℕ} (hpc : s.pc d = .asleep) (hm : Sem.wait (s.tab.sem d) = some m) :
      Step s (.run d) { s.setPc d .getLock with tab := s.tab.setSem d m }
  | updLock {d : RnW} {b m : ℕ} (hpc : s.pc d = .updLock b)
      (hm : Sem.wait s.tab.mutex = some m) :
      Step s (.run d) { s.setPc d (.updLocked b) with tab := { s.tab with mutex := m } }
  | finish {d : RnW} {b : ℕ} (hpc : s.pc d = .updLocked b) : Step s (.run d) (s.finish b d)
  | write {b i : ℕ} {v : UInt8} (hb : s.writer = .holding b)
      (hi : i < (s.tab.buffers b).length) :
      Step s (.write i v) { s with tab := { s.tab with
        buffers := Function.update s.tab.buffers b ((s.tab.buffers b).set i v) } }
  | read {b : ℕ} {v : UInt8} (hb : s.reader = .holding b)
      (hv : (s.tab.buffers b)[s.got.length]? = some v) :
      Step s .read { s with got := s.got ++ [v] }
  | update {d : RnW} {b : ℕ} (hpc : s.pc d = .holding b)
      (hdone : ¬ (d = .READ ∧ s.got.length ≠ (s.tab.buffers b).length)) :
      Step s (.update d) (s.setPc d (.updLock b))

theorem step_cases {a : Act} (h : step s a = some s') : Step s a s' := by
  cases a with
  | get d =>
    simp only [step, Option.ite_none_right_eq_some, Option.some.injEq] at h
    obtain ⟨hpc, rfl⟩ := h
    exact .get hpc
  | run d =>
    simp only [step] at h
    split at h
    · cases h
    · cases h
    · rename_i hpc
      obtain ⟨m, hm, rfl⟩ := Option.map_eq_some_iff.mp h
      exact .getLock hpc hm
    · rename_i hpc
      split at h
      · rename_i hwait
        cases h
        exact .getSleep hpc hwait
      · rename_i hfree
        cases h
        exact .getBuffer hpc hfree
    · rename_i hpc
      obtain ⟨m, hm, rfl⟩ := Option.map_eq_some_iff.mp h
      exact .wake hpc hm
    · rename_i hpc
      obtain ⟨m, hm, rfl⟩ := Option.map_eq_some_iff.mp h
      exact .updLock hpc hm
    · rename_i hpc
      cases h
      exact .finish hpc
  | write i v =>
    simp only [step] at h
    split at h
    · rename_i hb
      rw [Option.ite_none_right_eq_some, Option.some.injEq] at h
      obtain ⟨hi, rfl⟩ := h
      exact .write hb hi
    · cases h
  | read =>
    simp only [step] at h
    split at h
    · rename_i hb
      obtain ⟨v, hv, rfl⟩ := Option.map_eq_some_iff.mp h
      exact .read hb hv
    · cases h
  | update d =>
    simp only [step] at h
    split at h
    · rename_i hpc
      rw [Option.ite_none_left_eq_some, Option.some.injEq] at h
      obtain ⟨hdone, rfl⟩ := h
      exact .update hpc hdone
    · cases h

/-- **Step rule.** -/
theorem handedOver_step {a : Act} (hs : s.HandedOver n) (h : step s a = some s') :
    s'.HandedOver n := by
  cases step_cases h with
  | get => exact hs.setPc _ (fun _ hb => by cases hb) (fun hf => by cases hf)
  | getLock | getSleep =>
    exact hs.move _ ⟨rfl, rfl, rfl, rfl, rfl⟩ (fun _ hb => by cases hb) (fun hf => by cases hf)
  | getBuffer hpc hfree =>
    rename_i d
    cases d with
    | READ => exact hs.hold_read hfree _
    | WRITE => exact hs.hold_write hfree _
  | wake =>
    -- a token of the semaphore waited on
    exact hs.move _ (s.tab.sameRing_setSem _ _) (fun _ hb => by cases hb) (fun hf => by cases hf)
  | updLock hpc =>
    -- the buffer is still held
    exact hs.move _ ⟨rfl, rfl, rfl, rfl, rfl⟩ (fun c hc => by rw [hpc]; exact hc)
      (fun _ => by rw [hpc]; rfl)
  | finish hpc =>
    -- the counters move and the buffer is given up
    rename_i d b
    cases d with
    | READ => exact hs.finish_read hpc
    | WRITE => exact hs.finish_write hpc
  | write hb hi => exact hs.write (by rw [hb]; rfl) _
  | read hb hv => exact hs.read hb hv
  | update hpc hdone =>
    rename_i d b
    cases d with
    | READ => exact hs.update_read hpc (by simpa using hdone)
    | WRITE =>
      have hwr : s.writer = .holding b := hpc
      exact hs.frame ⟨rfl, rfl, rfl, rfl, rfl⟩ rfl rfl rfl
        (fun c hc => by rw [hwr]; exact hc) (fun _ hb => hb) (fun hf => hf)

theorem handedOver_reachable {buffers : ℕ → List UInt8} (h : Reachable step (start buffers n) s) :
    s.HandedOver n :=
  h.invariant (handedOver_start buffers n) fun _ _ _ => handedOver_step

/-! ### Exclusive hand-over -/

theorem Pc.held_of_finished {pc : Pc} (h : pc.finished) : ∃ b, pc.held = some b := by
  cases pc with
  | updLock b => exact ⟨b, rfl⟩
  | updLocked b => exact ⟨b, rfl⟩
  | outside | getLock | getLocked | asleep | holding => cases h

/-- The buffer the reader holds is the commit after those it has given back. -/
theorem Sys.HandedOver.reading (hs : s.HandedOver n) {b : ℕ} (hb : s.reader.held = some b) :
    s.commits[s.reads.length]? = some (s.tab.buffers b) := by
  obtain ⟨rfl, hpos, -⟩ := hs.reader b hb
  obtain ⟨k, hk⟩ : ∃ k, s.tab.avail = k + 1 := ⟨s.tab.avail - 1, by omega⟩
  have hled := hs.ledger
  unfold Tab.queue at hled
  rw [hk, Ring.contents_pop hs.ring.tail_lt] at hled
  rw [hled, List.getElem?_append_right le_rfl, Nat.sub_self]
  rfl

theorem Sys.HandedOver.seen_prefix (hs : s.HandedOver n) : s.seen <+: s.commits := by
  have hreads : s.reads <+: s.commits := ⟨_, hs.ledger.symm⟩
  unfold Sys.seen
  split
  · rename_i hfin
    obtain ⟨b, hb⟩ := Pc.held_of_finished hfin
    have hread := hs.reading hb
    obtain ⟨rfl, -⟩ := hs.reader b hb
    -- the commit at position `reads.length` is what has just been read
    rw [hs.finished hfin]
    obtain ⟨rest, hrest⟩ := hreads
    rw [← hrest, List.getElem?_append_right le_rfl, Nat.sub_self] at hread
    cases rest with
    | nil => simp at hread
    | cons c rest =>
      obtain rfl : c = s.tab.buffers s.tab.tail := by simpa using hread
      exact ⟨rest, by rw [← hrest, List.append_assoc]; rfl⟩
  · exact hreads

/-- **Exclusive hand-over.**  In every reachable state the writer and the reader hold
    different buffers, the contents seen by the reader are a prefix of the contents
    committed by the writer, and what the reader has read of its present buffer is the
    beginning of the next commit. -/
theorem exclusive_handover (buffers : ℕ → List UInt8) (num_buffs : Capacity) {s : Sys}
    (h : Reachable step (start buffers num_buffs) s) :
    (∀ bw br, s.writer.held = some bw → s.reader.held = some br → bw ≠ br) ∧
      s.seen <+: s.commits ∧
      ∀ br, s.reader.held = some br →
        ∃ content, s.commits[s.reads.length]? = some content ∧ s.got <+: content := by
  have hs := handedOver_reachable h
  refine ⟨fun bw br hw hr => hs.exclusive hw hr, hs.seen_prefix, ?_⟩
  intro br hbr
  obtain ⟨-, -, hgot⟩ := hs.reader br hbr
  exact ⟨_, hs.reading hbr, hgot⟩

/-- Two buffers of one byte: the writer commits a 7 and is filling the other buffer while
    the reader reads. -/
def handoverRun : List Act :=
  [.get .WRITE, .run .WRITE, .run .WRITE, .write 0 7, .update .WRITE, .run .WRITE, .run .WRITE,
    .get .READ, .run .READ, .run .READ, .get .WRITE, .run .WRITE, .run .WRITE, .write 0 9, .read]

theorem exclusive_handover_two :
    ∃ s, Reachable step (start (fun _ => [0]) ⟨2, by decide, by decide⟩) s ∧
      s.writer.held = some 1 ∧ s.reader.held = some 0 ∧ s.got = [7] ∧
      ((∀ bw br, s.writer.held = some bw → s.reader.held = some br → bw ≠ br) ∧
        s.seen <+: s.commits ∧
        ∀ br, s.reader.held = some br →
          ∃ content, s.commits[s.reads.length]? = some content ∧ s.got <+: content) := by
  obtain ⟨s, hs⟩ : ∃ s, exec step (start (fun _ => [0]) ⟨2, by decide, by decide⟩) handoverRun
      = some s := ⟨_, rfl⟩
  have hreach := Reachable.exec handoverRun .init hs
  cases hs
  exact ⟨_, hreach, rfl, rfl, rfl, exclusive_handover _ _ hreach⟩

/-! ### No lost wake-up -/

/-- A thread at `sem_wait` has to wait or has a token. -/
def Sys.NoLostWakeup (s : Sys) : Prop :=
  ∀ d, Sem.NoLostWakeup (s.pc d = .asleep) (s.tab.mustWait d) (s.tab.sem d)

theorem Tab.SameRing.mustWait {t t' : Tab} (h : t.SameRing t') (d : RnW) :
    t'.mustWait d ↔ t.mustWait d := by
  obtain ⟨-, hnum, havail, -, -⟩ := h
  cases d with
  | READ => show t'.avail = 0 ↔ t.avail = 0; rw [havail]
  | WRITE => show t'.avail = t'.num_buffs ↔ t.avail = t.num_buffs; rw [havail, hnum]

/-- The side `d` does not run on. -/
def RnW.other : RnW → RnW
  | .READ => .WRITE
  | .WRITE => .READ

theorem RnW.other_ne (d : RnW) : d.other ≠ d := by
  cases d <;> simp [RnW.other]

theorem RnW.eq_or_eq_other (d e : RnW) : d = e ∨ d = e.other := by
  cases d <;> cases e <;> simp [RnW.other]

theorem Tab.sem_mutex (t : Tab) (m : ℕ) (d : RnW) : Tab.sem { t with mutex := m } d = t.sem d := by
  cases d <;> rfl

/-- The semaphore that the thread `d` waits on. -/
def semGauge (d : RnW) : Sem.Gauge Sys where
  count s := s.tab.sem d
  asleep s := s.pc d = .asleep
  blocked s := s.tab.mustWait d

/-- The thread `e` moves, and neither wakes up nor goes to sleep. -/
theorem semGauge_frame (d e : RnW) {pc : Pc} {tab : Tab} {got : List UInt8}
    (hself : d = e → s.pc d ≠ .asleep ∧ pc ≠ .asleep) (hsem : tab.sem d = s.tab.sem d)
    (hring : s.tab.SameRing tab) :
    (semGauge d).Move s { s.setPc e pc with tab := tab, got := got } := by
  refine .frame ?_ (fun _ => hring.mustWait d) hsem
  have hpc : Sys.pc { s.setPc e pc with tab := tab, got := got } d
      = if d = e then pc else s.pc d := by
    cases e <;> cases d <;> rfl
  show decide (Sys.pc _ d = .asleep) = decide (s.pc d = .asleep)
  rw [hpc]
  split
  · rename_i heq
    obtain ⟨hs, hpc⟩ := hself heq
    simp [hs, hpc]
  · rfl

theorem semGauge_setPc (d e : RnW) {pc : Pc} (hself : d = e → s.pc d ≠ .asleep ∧ pc ≠ .asleep) :
    (semGauge d).Move s (s.setPc e pc) := by
  have hmove : (semGauge d).Move s { s.setPc e pc with tab := s.tab, got := s.got } :=
    semGauge_frame d e hself rfl ⟨rfl, rfl, rfl, rfl, rfl⟩
  cases e <;> exact hmove

/-- An update posts at its crossing. -/
theorem semGauge_finish (hs : s.HandedOver n) (d : RnW) {e : RnW} {b : ℕ}
    (hpc : s.pc e = .updLocked b) : (semGauge d).Move s (s.finish b e) := by
  cases e with
  | READ =>
    have hrd : s.reader = .updLocked b := hpc
    obtain ⟨-, hpos, -⟩ := hs.reader b (by rw [hrd]; rfl)
    have hle := hs.ring.avail_le
    obtain ⟨havail, -, -, hempty, hfull⟩ := updateBody_read hs
    have hnum := updateBody_num_buffs s.tab .READ
    cases d with
    | READ =>
      -- the reader is awake
      exact .frame (by simp [semGauge, Sys.pc, Sys.finish, hrd])
        (fun ha => by simp [semGauge, Sys.pc, hrd] at ha) hempty
    | WRITE =>
      have hfree : ¬ (s.tab.updateBody .READ).avail = (s.tab.updateBody .READ).num_buffs := by
        omega
      by_cases hcross : s.tab.avail - 1 = s.tab.num_buffs - 1
      · rw [if_pos hcross] at hfull
        exact .post (show s.tab.avail = s.tab.num_buffs by omega) hfree hfull rfl
      · rw [if_neg hcross] at hfull
        -- the ring was not full
        have hfree₀ : ¬ s.tab.avail = s.tab.num_buffs := by omega
        exact .frame rfl (fun _ => iff_of_false hfree hfree₀) hfull
  | WRITE =>
    have hwr : s.writer = .updLocked b := hpc
    obtain ⟨-, hlt⟩ := hs.writer b (by rw [hwr]; rfl)
    obtain ⟨havail, -, -, hfull, hempty⟩ := updateBody_write hs hlt
    cases d with
    | READ =>
      have hfree : ¬ (s.tab.updateBody .WRITE).avail = 0 := by omega
      by_cases hcross : s.tab.avail = 0
      · rw [if_pos hcross] at hempty
        exact .post hcross hfree hempty rfl
      · rw [if_neg hcross] at hempty
        exact .frame rfl (fun _ => iff_of_false hfree hcross) hempty
    | WRITE =>
      -- the writer is awake
      exact .frame (by simp [semGauge, Sys.pc, Sys.finish, hwr])
        (fun ha => by simp [semGauge, Sys.pc, hwr] at ha) hfull

theorem semGauge_move {a : Act} (hs : s.HandedOver n) (h : step s a = some s') (d : RnW) :
    (semGauge d).Move s s' := by
  cases step_cases h with
  | get hpc | update hpc => exact semGauge_setPc d _ (by rintro rfl; simp [hpc])
  | getLock hpc | getBuffer hpc | updLock hpc =>
    exact semGauge_frame d _ (by rintro rfl; simp [hpc]) (s.tab.sem_mutex _ _)
      ⟨rfl, rfl, rfl, rfl, rfl⟩
  | getSleep hpc hwait =>
    -- the thread goes to sleep on a condition it has just tested
    rename_i e
    rcases d.eq_or_eq_other e with rfl | rfl
    · exact .park (by simp [semGauge, hpc]) (by cases d <;> exact hwait) (s.tab.sem_mutex _ _)
    · exact semGauge_frame e.other e (fun heq => absurd heq e.other_ne) (s.tab.sem_mutex _ _)
        ⟨rfl, rfl, rfl, rfl, rfl⟩
  | wake hpc hm =>
    -- the token taken is the thread's own
    rename_i e m
    rcases d.eq_or_eq_other e with rfl | rfl
    · refine .take (by simp [semGauge, hpc]) ?_ ?_
      · cases d <;> simp [semGauge, Sys.setPc, Sys.pc]
      · cases d <;> exact Sem.wait_eq_some.mp hm
    · exact semGauge_frame e.other e (fun heq => absurd heq e.other_ne) (by cases e <;> rfl)
        (s.tab.sameRing_setSem e m)
  | finish hpc => exact semGauge_finish hs d hpc
  | write => exact .frame (by cases d <;> rfl) (fun _ => by cases d <;> rfl) (by cases d <;> rfl)
  | read => exact .frame (by cases d <;> rfl) (fun _ => Iff.rfl) rfl

/-- **Step rule.** -/
theorem noLostWakeup_step {a : Act} (hh : s.HandedOver n) (hs : s.NoLostWakeup)
    (h : step s a = some s') : s'.NoLostWakeup := by
  intro d
  have hmove := (semGauge_move hh h d).noLostWakeup
  simp only [semGauge, decide_eq_true_eq] at hmove
  exact hmove (hs d)

theorem noLostWakeup_reachable {buffers : ℕ → List UInt8}
    (h : Reachable step (start buffers n) s) : s.NoLostWakeup := by
  refine (h.invariant (I := fun s => s.HandedOver n ∧ s.NoLostWakeup) ?_ ?_).2
  · refine ⟨handedOver_start buffers n, fun d => .awake ?_⟩
    cases d <;> simp [start, Sys.pc]
  · intro s a s' ⟨hh, hs⟩ hstep
    exact ⟨handedOver_step hh hstep, noLostWakeup_step hh hs hstep⟩

/-- A thread sleeps: it is at `sem_wait` on a count of 0. -/
def Sys.Asleep (s : Sys) (d : RnW) : Prop := s.pc d = .asleep ∧ s.tab.sem d = 0

/-- **No lost wake-up.**  In every reachable state a sleeping reader has an empty ring, a
    sleeping writer a full one, and the two do not sleep at the same time. -/
theorem no_lost_wakeup (buffers : ℕ → List UInt8) (num_buffs : Capacity) {s : Sys}
    (h : Reachable step (start buffers num_buffs) s) :
    (s.Asleep .READ → s.tab.avail = 0) ∧
      (s.Asleep .WRITE → s.tab.avail = s.tab.num_buffs) ∧
      ¬ (s.Asleep .READ ∧ s.Asleep .WRITE) := by
  have hno := noLostWakeup_reachable h
  have hpos := (handedOver_reachable h).ring.size_pos
  have hread : s.Asleep .READ → s.tab.avail = 0 := by
    rintro ⟨hpc, hsem⟩
    rcases hno .READ hpc with hzero | htoken
    · exact hzero
    · omega
  have hwrite : s.Asleep .WRITE → s.tab.avail = s.tab.num_buffs := by
    rintro ⟨hpc, hsem⟩
    rcases hno .WRITE hpc with hfull | htoken
    · exact hfull
    · omega
  refine ⟨hread, hwrite, ?_⟩
  rintro ⟨hr, hw⟩
  have h0 := hread hr
  have hfull := hwrite hw
  omega

/-- One buffer: the reader sleeps, is posted by the first commit, reads it and sleeps again. -/
def sleepRun : List Act :=
  [.get .READ, .run .READ, .run .READ, .get .WRITE, .run .WRITE, .run .WRITE, .update .WRITE,
    .run .WRITE, .run .WRITE, .run .READ, .run .READ, .run .READ, .read, .update .READ, .run .READ,
    .run .READ, .get .READ, .run .READ, .run .READ]

theorem no_lost_wakeup_one :
    ∃ s, Reachable step (start (fun _ => [0]) ⟨1, by decide, by decide⟩) s ∧ s.Asleep .READ ∧
      s.reads = [[0]] ∧
      ((s.Asleep .READ → s.tab.avail = 0) ∧
        (s.Asleep .WRITE → s.tab.avail = s.tab.num_buffs) ∧
        ¬ (s.Asleep .READ ∧ s.Asleep .WRITE)) := by
  obtain ⟨s, hs⟩ : ∃ s, exec step (start (fun _ => [0]) ⟨1, by decide, by decide⟩) sleepRun
      = some s := ⟨_, rfl⟩
  have hreach := Reachable.exec sleepRun .init hs
  cases hs
  exact ⟨_, hreach, ⟨rfl, rfl⟩, rfl, no_lost_wakeup _ _ hreach⟩

end Wheelson.Ipc.PingPong
