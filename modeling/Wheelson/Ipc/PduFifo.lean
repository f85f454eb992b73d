import Wheelson.Lib.Machine
import Wheelson.Lib.Ring
import Wheelson.Lib.Sem

namespace Wheelson.Ipc

/-!
# `pdu_fifo`: the blocking ring buffer of `shared.c`

* `Fifo` — the fields of `pdu_fifo_t`; `store` and `take` are what `pdu_fifo_put` and
  `pdu_fifo_get` do once their loop has let them through.
* `Fifo.WF` / `Fifo.queue` — the shape of a ring and the queue it holds; `store_spec` and
  `take_spec` say that the two operations append to and remove from that queue.
* `Sys` — any number of producers and consumers inside the two functions.  A thread takes
  the mutex, runs the section up to the next `sem_post(&fifo->mutex)` in one step, and may
  have to sleep on `full` or `empty` and start over (`step`, inverted by `step_cases`).
* `pduFifo_fifo` — in every reachable state the ring is a bounded queue and the values
  taken so far are a prefix of the values put.
-/

open Machine

/-- A ring size: a positive `uint32_t`. -/
structure Capacity where
  val : ℕ
  pos : 0 < val
  lt : val < 2 ^ 32

/-- `pdu_fifo_t`.  The three semaphores are their counts. -/
structure Fifo (α : Type*) where
  buffer : ℕ → α
  size : ℕ
  avail : ℕ
  tail : ℕ
  head : ℕ
  full : ℕ
  empty : ℕ
  mutex : ℕ

variable {α P C : Type*}

/-- `pdu_fifo_init`. -/
def pduFifoInit (buffer : ℕ → α) (size : Capacity) : Fifo α where
  buffer := buffer
  size := size.val
  avail := 0
  tail := 0
  head := 0
  empty := 0
  full := 0
  mutex := 1

/-- The copy operation of `pdu_fifo_put` and the post that follows it. -/
def Fifo.store (f : Fifo α) (input : α) : Fifo α :=
  let f := { f with buffer := Function.update f.buffer f.head input }
  let f := { f with head := (f.head + 1) % 2 ^ 32 }
  let f := { f with head := f.head % f.size }
  let f := { f with avail := (f.avail + 1) % 2 ^ 32 }
  if f.avail = 1 then { f with empty := Sem.post f.empty } else f

/-- The copy operation of `pdu_fifo_get` and the post that follows it. -/
def Fifo.take (f : Fifo α) : α × Fifo α :=
  let out := f.buffer f.tail
  let f := { f with tail := (f.tail + 1) % 2 ^ 32 }
  let f := { f with tail := f.tail % f.size }
  let f := { f with avail := f.avail - 1 }
  (out, if f.avail = f.size - 1 then { f with full := Sem.post f.full } else f)

/-! ### The ring as a queue -/

/-- The indices are those of a ring and the size is a `uint32_t`. -/
structure Fifo.WF (f : Fifo α) : Prop where
  ring : Ring.WF f.size f.avail f.tail f.head
  size_lt : f.size < 2 ^ 32

/-- The queue a ring holds. -/
def Fifo.queue (f : Fifo α) : List α := Ring.contents f.buffer f.size f.tail f.avail

@[simp] theorem Fifo.length_queue (f : Fifo α) : f.queue.length = f.avail :=
  Ring.length_contents _ _ _ _

theorem wf_pduFifoInit (buffer : ℕ → α) (size : Capacity) : (pduFifoInit buffer size).WF :=
  ⟨Ring.WF.empty size.pos, size.lt⟩

section store

variable {f : Fifo α} (input : α)

@[simp] theorem store_size : (f.store input).size = f.size := by
  unfold Fifo.store; dsimp only; split <;> rfl

@[simp] theorem store_full : (f.store input).full = f.full := by
  unfold Fifo.store; dsimp only; split <;> rfl

@[simp] theorem store_mutex : (f.store input).mutex = f.mutex := by
  unfold Fifo.store; dsimp only; split <;> rfl

@[simp] theorem store_tail : (f.store input).tail = f.tail := by
  unfold Fifo.store; dsimp only; split <;> rfl

@[simp] theorem store_buffer : (f.store input).buffer = Function.update f.buffer f.head input := by
  unfold Fifo.store; dsimp only; split <;> rfl

@[simp] theorem store_head : (f.store input).head = (f.head + 1) % 2 ^ 32 % f.size := by
  unfold Fifo.store; dsimp only; split <;> rfl

theorem store_eq : f.store input =
    { f with
      buffer := Function.update f.buffer f.head input
      head := (f.head + 1) % 2 ^ 32 % f.size
      avail := (f.avail + 1) % 2 ^ 32
      empty := if (f.avail + 1) % 2 ^ 32 = 1 then Sem.post f.empty else f.empty } := by
  unfold Fifo.store; dsimp only
  by_cases h : (f.avail + 1) % 2 ^ 32 = 1
  · rw [if_pos h, if_pos h]
  · rw [if_neg h, if_neg h]

/-- The copy leaves the mutex alone. -/
theorem store_setMutex (mutex : ℕ) :
    { f.store input with mutex := mutex } = ({ f with mutex := mutex } : Fifo α).store input := by
  rw [store_eq, store_eq]

/-- The incremented counters do not wrap at `2 ^ 32`. -/
theorem Fifo.WF.succ_mod (hf : f.WF) {n : ℕ} (hn : n < f.size) : (n + 1) % 2 ^ 32 = n + 1 := by
  have hlt := hf.size_lt
  exact Nat.mod_eq_of_lt (by omega)

theorem Fifo.WF.avail_lt (hf : f.WF) (h : f.avail ≠ f.size) : f.avail < f.size :=
  lt_of_le_of_ne hf.ring.avail_le h

theorem store_avail (hf : f.WF) (h : f.avail ≠ f.size) :
    (f.store input).avail = f.avail + 1 := by
  have hmod := hf.succ_mod (hf.avail_lt h)
  unfold Fifo.store; dsimp only; split <;> exact hmod

theorem store_empty (hf : f.WF) (h : f.avail ≠ f.size) :
    (f.store input).empty = if f.avail = 0 then Sem.post f.empty else f.empty := by
  unfold Fifo.store; dsimp only
  rw [hf.succ_mod (hf.avail_lt h)]
  by_cases h0 : f.avail = 0
  · simp [h0]
  · simp [h0]

theorem wf_store (hf : f.WF) (h : f.avail ≠ f.size) : (f.store input).WF := by
  refine ⟨?_, (store_size input).symm ▸ hf.size_lt⟩
  rw [store_size, store_avail input hf h, store_tail, store_head, hf.succ_mod hf.ring.head_lt]
  exact hf.ring.push (hf.avail_lt h)

/-- **Put appends.** -/
theorem store_spec (hf : f.WF) (h : f.avail ≠ f.size) :
    (f.store input).queue = f.queue ++ [input] := by
  unfold Fifo.queue
  rw [store_buffer, store_size, store_tail, store_avail input hf h, hf.ring.head_eq]
  exact Ring.contents_push input (hf.avail_lt h)

end store

section take

variable {f : Fifo α}

@[simp] theorem take_size : f.take.2.size = f.size := by
  unfold Fifo.take; dsimp only; split <;> rfl

@[simp] theorem take_empty : f.take.2.empty = f.empty := by
  unfold Fifo.take; dsimp only; split <;> rfl

@[simp] theorem take_mutex : f.take.2.mutex = f.mutex := by
  unfold Fifo.take; dsimp only; split <;> rfl

@[simp] theorem take_head : f.take.2.head = f.head := by
  unfold Fifo.take; dsimp only; split <;> rfl

@[simp] theorem take_buffer : f.take.2.buffer = f.buffer := by
  unfold Fifo.take; dsimp only; split <;> rfl

@[simp] theorem take_avail : f.take.2.avail = f.avail - 1 := by
  unfold Fifo.take; dsimp only; split <;> rfl

@[simp] theorem take_tail : f.take.2.tail = (f.tail + 1) % 2 ^ 32 % f.size := by
  unfold Fifo.take; dsimp only; split <;> rfl

theorem take_full :
    f.take.2.full = if f.avail - 1 = f.size - 1 then Sem.post f.full else f.full := by
  unfold Fifo.take; dsimp only; split <;> rfl

theorem take_eq : f.take.2 =
    { f with
      tail := (f.tail + 1) % 2 ^ 32 % f.size
      avail := f.avail - 1
      full := if f.avail - 1 = f.size - 1 then Sem.post f.full else f.full } := by
  unfold Fifo.take; dsimp only
  by_cases h : f.avail - 1 = f.size - 1
  · rw [if_pos h, if_pos h]
  · rw [if_neg h, if_neg h]

theorem take_setMutex (mutex : ℕ) :
    { f.take.2 with mutex := mutex } = ({ f with mutex := mutex } : Fifo α).take.2 := by
  rw [take_eq, take_eq]

theorem wf_take (hf : f.WF) (h : 1 ≤ f.avail) : f.take.2.WF := by
  refine ⟨?_, take_size.symm ▸ hf.size_lt⟩
  rw [take_size, take_avail, take_tail, take_head, hf.succ_mod hf.ring.tail_lt]
  exact hf.ring.pop h

/-- **Get removes the head.** -/
theorem take_spec (hf : f.WF) (h : 1 ≤ f.avail) : f.queue = f.take.1 :: f.take.2.queue := by
  obtain ⟨n, hn⟩ : ∃ n, f.avail = n + 1 := ⟨f.avail - 1, by omega⟩
  unfold Fifo.queue
  rw [take_buffer, take_size, take_tail, take_avail, hf.succ_mod hf.ring.tail_lt, hn,
    Ring.contents_pop hf.ring.tail_lt]
  rfl

end take

/-! ### Producers and consumers -/

/-- Where a thread is with respect to `pdu_fifo_put`. -/
inductive PutPc (α : Type*)
  /-- Not in the function. -/
  | outside
  /-- At `sem_wait(&fifo->mutex)`. -/
  | lock (input : α)
  /-- Holding the mutex, at the test of the loop. -/
  | locked (input : α)
  /-- At `sem_wait(&fifo->full)`, the mutex released. -/
  | asleep (input : α)
deriving DecidableEq

/-- Where a thread is with respect to `pdu_fifo_get`. -/
inductive GetPc
  | outside
  | lock
  | locked
  | asleep
deriving DecidableEq

/-- One ring, its producers `P` and its consumers `C`, and the values of the completed calls
    in the order of their critical sections. -/
structure Sys (α P C : Type*) where
  fifo : Fifo α
  put : P → PutPc α
  get : C → GetPc
  puts : List α
  gets : List α

inductive Act (α P C : Type*)
  /-- The thread `p` calls `pdu_fifo_put`. -/
  | callPut (p : P) (input : α)
  /-- The thread `p` goes on in `pdu_fifo_put`. -/
  | put (p : P)
  | callGet (c : C)
  | get (c : C)

/-- One step of one thread, `none` when the thread cannot take it. -/
def step [DecidableEq P] [DecidableEq C] (s : Sys α P C) : Act α P C → Option (Sys α P C)
  | .callPut p input =>
    match s.put p with
    | .outside => some { s with put := Function.update s.put p (.lock input) }
    | _ => none
  | .put p =>
    match s.put p with
    | .outside => none
    | .lock input => (Sem.wait s.fifo.mutex).map fun n =>
        { s with
          fifo := { s.fifo with mutex := n }
          put := Function.update s.put p (.locked input) }
    | .locked input =>
      -- the loop test: a full ring releases the mutex and waits
      if s.fifo.avail = s.fifo.size then
        some { s with
          fifo := { s.fifo with mutex := Sem.post s.fifo.mutex }
          put := Function.update s.put p (.asleep input) }
      else
        some { s with
          fifo := { s.fifo.store input with mutex := Sem.post (s.fifo.store input).mutex }
          put := Function.update s.put p .outside
          puts := s.puts ++ [input] }
    | .asleep input => (Sem.wait s.fifo.full).map fun n =>
        -- the mutex is taken again before the next test
        { s with
          fifo := { s.fifo with full := n }
          put := Function.update s.put p (.lock input) }
  | .callGet c =>
    match s.get c with
    | .outside => some { s with get := Function.update s.get c .lock }
    | _ => none
  | .get c =>
    match s.get c with
    | .outside => none
    | .lock => (Sem.wait s.fifo.mutex).map fun n =>
        { s with
          fifo := { s.fifo with mutex := n }
          get := Function.update s.get c .locked }
    | .locked =>
      if s.fifo.avail < 1 then
        some { s with
          fifo := { s.fifo with mutex := Sem.post s.fifo.mutex }
          get := Function.update s.get c .asleep }
      else
        some { s with
          fifo := { s.fifo.take.2 with mutex := Sem.post s.fifo.take.2.mutex }
          get := Function.update s.get c .outside
          gets := s.gets ++ [s.fifo.take.1] }
    | .asleep => (Sem.wait s.fifo.empty).map fun n =>
        { s with
          fifo := { s.fifo with empty := n }
          get := Function.update s.get c .lock }

/-- The state after `pdu_fifo_init`, every thread outside the two functions. -/
def start (buffer : ℕ → α) (size : Capacity) : Sys α P C where
  fifo := pduFifoInit buffer size
  put := fun _ => .outside
  get := fun _ => .outside
  puts := []
  gets := []

/-! ### The queue under every interleaving -/

/-- The ring is well formed and holds what was put and not yet taken. -/
structure Sys.Queued (size : Capacity) (s : Sys α P C) : Prop where
  size_eq : s.fifo.size = size.val
  wf : s.fifo.WF
  ledger : s.puts = s.gets ++ s.fifo.queue

/-- The semaphore counts play no part in the shape of a ring. -/
theorem Fifo.WF.sems {f : Fifo α} (hf : f.WF) (full empty mutex : ℕ) :
    Fifo.WF { f with full := full, empty := empty, mutex := mutex } :=
  ⟨hf.ring, hf.size_lt⟩

theorem queued_start (buffer : ℕ → α) (size : Capacity) :
    (start buffer size : Sys α P C).Queued size :=
  ⟨rfl, wf_pduFifoInit buffer size, rfl⟩

variable [DecidableEq P] [DecidableEq C]

/-- The steps of the machine, with their results written out. -/
inductive Step (s : Sys α P C) : Act α P C → Sys α P C → Prop
  | callPut {p : P} {input : α} (hp : s.put p = .outside) :
      Step s (.callPut p input) { s with put := Function.update s.put p (.lock input) }
  | putLock {p : P} {input : α} {n : ℕ} (hp : s.put p = .lock input)
      (hn : Sem.wait s.fifo.mutex = some n) :
      Step s (.put p) { s with
        fifo := { s.fifo with mutex := n }
        put := Function.update s.put p (.locked input) }
  | putSleep {p : P} {input : α} (hp : s.put p = .locked input)
      (hfull : s.fifo.avail = s.fifo.size) :
      Step s (.put p) { s with
        fifo := { s.fifo with mutex := Sem.post s.fifo.mutex }
        put := Function.update s.put p (.asleep input) }
  | putStore {p : P} {input : α} (hp : s.put p = .locked input)
      (hne : s.fifo.avail ≠ s.fifo.size) :
      Step s (.put p) { s with
        fifo := { s.fifo.store input with mutex := Sem.post (s.fifo.store input).mutex }
        put := Function.update s.put p .outside
        puts := s.puts ++ [input] }
  | putWake {p : P} {input : α} {n : ℕ} (hp : s.put p = .asleep input)
      (hn : Sem.wait s.fifo.full = some n) :
      Step s (.put p) { s with
        fifo := { s.fifo with full := n }
        put := Function.update s.put p (.lock input) }
  | callGet {c : C} (hc : s.get c = .outside) :
      Step s (.callGet c) { s with get := Function.update s.get c .lock }
  | getLock {c : C} {n : ℕ} (hc : s.get c = .lock) (hn : Sem.wait s.fifo.mutex = some n) :
      Step s (.get c) { s with
        fifo := { s.fifo with mutex := n }
        get := Function.update s.get c .locked }
  | getSleep {c : C} (hc : s.get c = .locked) (hempty : s.fifo.avail < 1) :
      Step s (.get c) { s with
        fifo := { s.fifo with mutex := Sem.post s.fifo.mutex }
        get := Function.update s.get c .asleep }
  | getTake {c : C} (hc : s.get c = .locked) (hge : 1 ≤ s.fifo.avail) :
      Step s (.get c) { s with
        fifo := { s.fifo.take.2 with mutex := Sem.post s.fifo.take.2.mutex }
        get := Function.update s.get c .outside
        gets := s.gets ++ [s.fifo.take.1] }
  | getWake {c : C} {n : ℕ} (hc : s.get c = .asleep) (hn : Sem.wait s.fifo.empty = some n) :
      Step s (.get c) { s with
        fifo := { s.fifo with empty := n }
        get := Function.update s.get c .lock }

theorem step_cases {s s' : Sys α P C} {a : Act α P C} (h : step s a = some s') : Step s a s' := by
  cases a with
  | callPut p input =>
    simp only [step] at h
    split at h
    · rename_i hp
      cases h
      exact .callPut hp
    · cases h
  | put p =>
    simp only [step] at h
    split at h
    · cases h
    · rename_i hp
      obtain ⟨n, hn, rfl⟩ := Option.map_eq_some_iff.mp h
      exact .putLock hp hn
    · rename_i hp
      split at h
      · rename_i hfull
        cases h
        exact .putSleep hp hfull
      · rename_i hne
        cases h
        exact .putStore hp hne
    · rename_i hp
      obtain ⟨n, hn, rfl⟩ := Option.map_eq_some_iff.mp h
      exact .putWake hp hn
  | callGet c =>
    simp only [step] at h
    split at h
    · rename_i hc
      cases h
      exact .callGet hc
    · cases h
  | get c =>
    simp only [step] at h
    split at h
    · cases h
    · rename_i hc
      obtain ⟨n, hn, rfl⟩ := Option.map_eq_some_iff.mp h
      exact .getLock hc hn
    · rename_i hc
      split at h
      · rename_i hempty
        cases h
        exact .getSleep hc hempty
      · rename_i hge
        cases h
        exact .getTake hc (Nat.not_lt.mp hge)
    · rename_i hc
      obtain ⟨n, hn, rfl⟩ := Option.map_eq_some_iff.mp h
      exact .getWake hc hn

/-- **Step rule.** -/
theorem queued_step {size : Capacity} {s s' : Sys α P C} {a : Act α P C} (hs : s.Queued size)
    (h : step s a = some s') : s'.Queued size := by
  obtain ⟨hsize, hwf, hled⟩ := hs
  cases step_cases h with
  | callPut | callGet => exact ⟨hsize, hwf, hled⟩
  | putLock | putSleep | putWake | getLock | getSleep | getWake =>
    exact ⟨hsize, hwf.sems _ _ _, hled⟩
  | putStore hp hne =>
    rename_i p input
    refine ⟨(store_size input).trans hsize, (wf_store input hwf hne).sems _ _ _, ?_⟩
    show s.puts ++ [input] = s.gets ++ (s.fifo.store input).queue
    rw [store_spec input hwf hne, hled, List.append_assoc]
  | getTake hc hge =>
    refine ⟨take_size.trans hsize, (wf_take hwf hge).sems _ _ _, ?_⟩
    show s.puts = (s.gets ++ [s.fifo.take.1]) ++ s.fifo.take.2.queue
    rw [hled, take_spec hwf hge, List.append_assoc]
    rfl

theorem queued_reachable {buffer : ℕ → α} {size : Capacity} {s : Sys α P C}
    (h : Reachable step (start buffer size) s) : s.Queued size :=
  h.invariant (queued_start buffer size) fun _ _ _ hs hstep => queued_step hs hstep

/-! ### What one step hands out -/

/-- Only a step in `pdu_fifo_get` takes a value. -/
theorem gets_eq {s s' : Sys α P C} {a : Act α P C} (ha : ∀ c, a ≠ .get c)
    (h : step s a = some s') : s'.gets = s.gets := by
  cases step_cases h with
  | callPut | putLock | putSleep | putStore | putWake | callGet => rfl
  | getLock | getSleep | getTake | getWake => exact absurd rfl (ha _)

/-- A consumer leaves `pdu_fifo_get` with the value at the tail, and otherwise takes nothing. -/
theorem get_cases {s s' : Sys α P C} {c : C} (h : step s (.get c) = some s') :
    (s'.get c = .outside ∧ s'.gets = s.gets ++ [s.fifo.take.1]) ∨
      (s'.get c ≠ .outside ∧ s'.gets = s.gets) := by
  cases step_cases h with
  | getLock | getSleep | getWake => exact Or.inr ⟨by simp, rfl⟩
  | getTake => exact Or.inl ⟨by simp, rfl⟩

/-- **`pdu_fifo` is a bounded FIFO queue.**  For every size and any number of producers and
    consumers, in every reachable state the indices are in range, `avail` counts the puts
    that have not been taken, and the values taken, in the order of their critical sections,
    are a prefix of the values put, the rest being what the ring holds. -/
theorem pduFifo_fifo (buffer : ℕ → α) (size : Capacity) (s : Sys α P C)
    (h : Reachable step (start buffer size) s) :
    s.fifo.avail ≤ size.val ∧ s.fifo.head < size.val ∧ s.fifo.tail < size.val ∧
      (s.fifo.avail : ℤ) = s.puts.length - s.gets.length ∧
      s.gets <+: s.puts ∧ s.puts = s.gets ++ s.fifo.queue := by
  obtain ⟨hsize, hwf, hled⟩ := queued_reachable h
  have hlen := congrArg List.length hled
  rw [List.length_append, Fifo.length_queue] at hlen
  refine ⟨hsize ▸ hwf.ring.avail_le, hsize ▸ hwf.ring.head_lt, hsize ▸ hwf.ring.tail_lt, ?_, ?_,
    hled⟩
  · omega
  · exact ⟨s.fifo.queue, hled.symm⟩

/-- Two producers fill a ring of two slots, and the consumer takes the first value. -/
theorem pduFifo_fifo_put_get : ∃ s : Sys ℕ Bool Unit,
    Reachable step (start (fun _ => 0) ⟨2, by decide, by decide⟩) s ∧
    s.puts = [7, 9] ∧ s.gets = [7] ∧ s.fifo.queue = [9] ∧ s.puts = s.gets ++ s.fifo.queue := by
  have hrun := Reachable.exec
    [.callPut false 7, .callPut true 9, .put false, .callGet (), .put false, .put true, .put true,
      .get (), .get ()]
    (.init : Reachable step (start (fun _ => 0) ⟨2, by decide, by decide⟩ : Sys ℕ Bool Unit) _)
    rfl
  obtain ⟨-, -, -, -, -, hputs⟩ := pduFifo_fifo (fun _ => 0) ⟨2, by decide, by decide⟩ _ hrun
  exact ⟨_, hrun, rfl, rfl, rfl, hputs⟩

end Wheelson.Ipc
