import Wheelson.Ipc.PduFifo
import Wheelson.Lib.Lock

namespace Wheelson.Ipc.Statements

/-!
# `pdu_fifo` statement by statement

`pdu_fifo_put` and `pdu_fifo_get` as `shared.c` writes them, each `memcpy` a byte at a time,
any number of threads going through them with no step longer than a statement.

* `prog` — the two functions; a thread outside calls either.
* `complete_store`, `complete_take` — what a section does, if nobody disturbs it, is
  `Fifo.store` or `Fifo.take`.
* `atomic_sim` — the machine whose sections are one step is the machine of `PduFifo`.
* `pduFifo_statements` — so what a run by statements gets is what was put, in order; and once
  the section in progress has run to its end, that machine reaches the state.
-/

open Machine Lock

/-- The fields of a `pdu_fifo_t` other than its mutex; its elements are structs of `n` bytes.
    Beside them, the arguments of the puts and the results of the gets, in the order of their
    sections. -/
structure Mem (n : ℕ) (β : Type*) where
  buffer : ℕ → Fin n → β
  size : ℕ
  avail : ℕ
  tail : ℕ
  head : ℕ
  full : ℕ
  empty : ℕ
  puts : List (Fin n → β)
  gets : List (Fin n → β)

/-- A call from outside: `input` is the argument, and `out` the struct that the caller points
    to, with what it holds. -/
inductive Call (n : ℕ) (β : Type*)
  | put (input : Fin n → β)
  | get (out : Fin n → β)

/-- Where a thread is in the two functions. -/
inductive Pc (n : ℕ) (β : Type*)
  | outside
  /-- At one of the two `sem_wait(&fifo->mutex)` of `pdu_fifo_put`. -/
  | putWait (input : Fin n → β)
  | putTest (input : Fin n → β)
  /-- At `sem_post(&fifo->mutex)` in the loop. -/
  | putRelease (input : Fin n → β)
  | putSleep (input : Fin n → β)
  /-- `i` bytes of the `memcpy` are done. -/
  | putCopy (input : Fin n → β) (i : ℕ)
  | putHead (input : Fin n → β)
  | putHeadMod (input : Fin n → β)
  | putAvail (input : Fin n → β)
  | putPost (input : Fin n → β)
  | putUnlock
  | getWait (out : Fin n → β)
  | getTest (out : Fin n → β)
  | getRelease (out : Fin n → β)
  | getSleep (out : Fin n → β)
  | getCopy (out : Fin n → β) (i : ℕ)
  | getTail (out : Fin n → β)
  | getTailMod (out : Fin n → β)
  | getAvail (out : Fin n → β)
  | getPost (out : Fin n → β)
  | getUnlock

variable {n : ℕ} {β : Type*}

/-- `pdu_fifo_put` and `pdu_fifo_get`. -/
def prog : Pc n β → Instr (Call n β) (Pc n β) (Mem n β)
  | .outside => .free fun call m =>
      match call with
      | .put input => some (.putWait input, m)
      | .get out => some (.getWait out, m)
  | .putWait input => .lock (.putTest input)
  | .putTest input => .body fun m =>
      (if m.avail = m.size then .putRelease input else .putCopy input 0, m)
  | .putRelease input => .unlock (.putSleep input)
  | .putSleep input => .free fun _ m =>
      (Sem.wait m.full).map fun k => (.putWait input, { m with full := k })
  | .putCopy input i => .body fun m =>
      if hi : i < n then
        (.putCopy input (i + 1),
          { m with
            buffer := Function.update m.buffer m.head
              (Function.update (m.buffer m.head) ⟨i, hi⟩ (input ⟨i, hi⟩)) })
      else (.putHead input, m)
  | .putHead input => .body fun m => (.putHeadMod input, { m with head := (m.head + 1) % 2 ^ 32 })
  | .putHeadMod input => .body fun m => (.putAvail input, { m with head := m.head % m.size })
  | .putAvail input => .body fun m =>
      (.putPost input, { m with avail := (m.avail + 1) % 2 ^ 32 })
  | .putPost input => .body fun m =>
      (.putUnlock,
        { m with
          empty := if m.avail = 1 then Sem.post m.empty else m.empty
          puts := m.puts ++ [input] })
  | .putUnlock => .unlock .outside
  | .getWait out => .lock (.getTest out)
  | .getTest out => .body fun m =>
      (if m.avail < 1 then .getRelease out else .getCopy out 0, m)
  | .getRelease out => .unlock (.getSleep out)
  | .getSleep out => .free fun _ m =>
      (Sem.wait m.empty).map fun k => (.getWait out, { m with empty := k })
  | .getCopy out i => .body fun m =>
      if hi : i < n then
        (.getCopy (Function.update out ⟨i, hi⟩ (m.buffer m.tail ⟨i, hi⟩)) (i + 1), m)
      else (.getTail out, m)
  | .getTail out => .body fun m => (.getTailMod out, { m with tail := (m.tail + 1) % 2 ^ 32 })
  | .getTailMod out => .body fun m => (.getAvail out, { m with tail := m.tail % m.size })
  | .getAvail out => .body fun m => (.getPost out, { m with avail := m.avail - 1 })
  | .getPost out => .body fun m =>
      (.getUnlock,
        { m with
          full := if m.avail = m.size - 1 then Sem.post m.full else m.full
          gets := m.gets ++ [out] })
  | .getUnlock => .unlock .outside

/-- Every thread runs the two functions. -/
abbrev threads (T : Type*) (n : ℕ) (β : Type*) :
    T → Pc n β → Instr (Call n β) (Pc n β) (Mem n β) :=
  fun _ => prog

/-- After `pdu_fifo_init`, every thread outside. -/
def start {T : Type*} (buffer : ℕ → Fin n → β) (size : Capacity) :
    State T (Pc n β) (Mem n β) where
  mem :=
    { buffer := buffer
      size := size.val
      avail := 0
      tail := 0
      head := 0
      full := 0
      empty := 0
      puts := []
      gets := [] }
  mutex := 1
  pc := fun _ => .outside

/-! ### The sections -/

/-- The statements a section has left, at most. -/
def rank : Pc n β → ℕ
  | .putTest _ | .getTest _ => n + 6
  | .putCopy _ i | .getCopy _ i => n - i + 5
  | .putHead _ | .getTail _ => 4
  | .putHeadMod _ | .getTailMod _ => 3
  | .putAvail _ | .getAvail _ => 2
  | .putPost _ | .getPost _ => 1
  | _ => 0

variable {T : Type*}

theorem sections : Sections (threads T n β) where
  lock := by
    intro _ k next hk
    cases k <;> simp only [threads, prog, reduceCtorEq, Instr.lock.injEq] at hk <;> subst hk <;> rfl
  body := by
    intro _ k f m hk
    cases k <;> simp only [threads, prog, reduceCtorEq, Instr.body.injEq] at hk <;> subst hk <;>
      dsimp only <;> (try split) <;> rfl
  unlock := by
    intro _ k next hk
    cases k <;> simp only [threads, prog, reduceCtorEq, Instr.unlock.injEq] at hk <;> subst hk
      <;> rfl
  free := by
    intro _ k f call m r hk hr
    cases k <;> simp only [threads, prog, reduceCtorEq, Instr.free.injEq] at hk <;> subst hk
    · cases call <;> cases hr <;> rfl
    · obtain ⟨k, -, rfl⟩ := Option.map_eq_some_iff.mp hr
      rfl
    · obtain ⟨k, -, rfl⟩ := Option.map_eq_some_iff.mp hr
      rfl

theorem ranked : Ranked (threads T n β) rank := by
  intro _ k f m hk
  cases k <;> simp only [threads, prog, reduceCtorEq, Instr.body.injEq] at hk <;> subst hk <;>
    dsimp only <;> (try split) <;> simp only [rank] <;> omega

/-- A call touches nothing, and the semaphores of the two sleeps are only posted in a section. -/
theorem movers : Movers (threads T n β) := by
  intro _ k f hk _ j g hg call m r hr
  cases j <;> simp only [threads, prog, reduceCtorEq, Instr.free.injEq] at hg <;> subst hg
  · cases call <;> cases hr <;> exact ⟨rfl, rfl⟩
  · obtain ⟨a, ha, rfl⟩ := Option.map_eq_some_iff.mp hr
    rw [Sem.wait_eq_some] at ha
    cases k <;> simp only [threads, prog, reduceCtorEq, Instr.body.injEq] at hk <;> subst hk <;>
      dsimp only <;> (try split) <;> simp_all [Sem.wait, Sem.post]
  · obtain ⟨a, ha, rfl⟩ := Option.map_eq_some_iff.mp hr
    rw [Sem.wait_eq_some] at ha
    cases k <;> simp only [threads, prog, reduceCtorEq, Instr.body.injEq] at hk <;> subst hk <;>
      dsimp only <;> (try split) <;> simp_all [Sem.wait, Sem.post]

/-- The `pdu_fifo_t` with its mutex. -/
def Mem.fifo (m : Mem n β) (mutex : ℕ) : Fifo (Fin n → β) where
  buffer := m.buffer
  size := m.size
  avail := m.avail
  tail := m.tail
  head := m.head
  full := m.full
  empty := m.empty
  mutex := mutex

/-- `dst` after a `memcpy` from `src` has copied the bytes from `i` on. -/
def copied (src dst : Fin n → β) (i : ℕ) (b : Fin n) : β := if i ≤ b then src b else dst b

theorem copied_zero (src dst : Fin n → β) : copied src dst 0 = src := rfl

theorem copied_of_not_lt (src dst : Fin n → β) {i : ℕ} (hi : ¬ i < n) : copied src dst i = dst := by
  funext b
  exact if_neg (by omega)

/-- One byte of a `memcpy` and the rest of it. -/
theorem copied_update (src dst : Fin n → β) {i : ℕ} (hi : i < n) :
    copied src (Function.update dst ⟨i, hi⟩ (src ⟨i, hi⟩)) (i + 1) = copied src dst i := by
  funext b
  unfold copied
  rcases lt_trichotomy i b.val with hlt | heq | hgt
  · rw [if_pos (Nat.succ_le_of_lt hlt), if_pos hlt.le]
  · subst heq
    simp
  · have hne : b ≠ ⟨i, hi⟩ := fun h => absurd (congrArg Fin.val h) hgt.ne
    rw [if_neg (by omega), if_neg (by omega), Function.update_of_ne hne]

section complete

variable (t : T)

/-- The rest of the `memcpy` into the ring. -/
theorem complete_putCopy (m : Mem n β) (input : Fin n → β) (i : ℕ) :
    complete (threads T n β) rank t (.putCopy input i, m) =
      complete (threads T n β) rank t (.putHead input,
        { m with
          buffer := Function.update m.buffer m.head (copied input (m.buffer m.head) i) }) := by
  rw [complete_body ranked rfl]
  split
  · rename_i hi
    rw [complete_putCopy _ input (i + 1)]
    simp only [Function.update_self, Function.update_idem, copied_update]
  · rename_i hi
    rw [copied_of_not_lt _ _ hi, Function.update_eq_self]
  termination_by n - i

/-- The rest of the `memcpy` out of the ring. -/
theorem complete_getCopy (m : Mem n β) (out : Fin n → β) (i : ℕ) :
    complete (threads T n β) rank t (.getCopy out i, m) =
      complete (threads T n β) rank t (.getTail (copied (m.buffer m.tail) out i), m) := by
  rw [complete_body ranked rfl]
  split
  · rename_i hi
    rw [complete_getCopy m _ (i + 1), copied_update]
  · rename_i hi
    rw [copied_of_not_lt _ _ hi]
  termination_by n - i

/-- The section of `pdu_fifo_put` from the `memcpy` on is `Fifo.store`. -/
theorem complete_store (m : Mem n β) (input : Fin n → β) (k : ℕ) :
    ∃ m', complete (threads T n β) rank t (.putCopy input 0, m) = (.outside, m') ∧
      m'.fifo k = (m.fifo k).store input ∧ m'.puts = m.puts ++ [input] ∧ m'.gets = m.gets := by
  rw [complete_putCopy, copied_zero, complete_body ranked rfl, complete_body ranked rfl,
    complete_body ranked rfl, complete_body ranked rfl, complete_unlock rfl]
  refine ⟨_, rfl, ?_, rfl, rfl⟩
  rw [store_eq]
  rfl

/-- The section of `pdu_fifo_get` from the `memcpy` on is `Fifo.take`. -/
theorem complete_take (m : Mem n β) (out : Fin n → β) (k : ℕ) :
    ∃ m', complete (threads T n β) rank t (.getCopy out 0, m) = (.outside, m') ∧
      m'.fifo k = (m.fifo k).take.2 ∧ m'.gets = m.gets ++ [(m.fifo k).take.1] ∧
        m'.puts = m.puts := by
  rw [complete_getCopy, copied_zero, complete_body ranked rfl, complete_body ranked rfl,
    complete_body ranked rfl, complete_body ranked rfl, complete_unlock rfl]
  refine ⟨_, rfl, ?_, rfl, rfl⟩
  rw [take_eq]
  rfl

end complete

/-! ### Refinement -/

/-- Where a thread is with respect to `pdu_fifo_put`, in the machine of whole sections. -/
def Pc.put : Pc n β → PutPc (Fin n → β)
  | .putWait input => .lock input
  | .putSleep input => .asleep input
  | _ => .outside

/-- Where a thread is with respect to `pdu_fifo_get`. -/
def Pc.get : Pc n β → GetPc
  | .getWait _ => .lock
  | .getSleep _ => .asleep
  | _ => .outside

/-- The state of the machine of whole sections. -/
def abs (s : State T (Pc n β) (Mem n β)) : Sys (Fin n → β) T T where
  fifo := s.mem.fifo s.mutex
  put := fun t => (s.pc t).put
  get := fun t => (s.pc t).get
  puts := s.mem.puts
  gets := s.mem.gets

section refinement

variable [DecidableEq T] {s s' : State T (Pc n β) (Mem n β)}

theorem put_update (t : T) (k : Pc n β) :
    (fun u => (Function.update s.pc t k u).put) =
      Function.update (fun u => (s.pc u).put) t k.put := by
  funext u
  by_cases hu : u = t
  · subst hu
    simp
  · simp [hu]

theorem get_update (t : T) (k : Pc n β) :
    (fun u => (Function.update s.pc t k u).get) =
      Function.update (fun u => (s.pc u).get) t k.get := by
  funext u
  by_cases hu : u = t
  · subst hu
    simp
  · simp [hu]

/-- The state of the machine of whole sections after the thread `t` has gone to `k`. -/
theorem abs_update (m : Mem n β) (mutex : ℕ) (t : T) (k : Pc n β) :
    abs ⟨m, mutex, Function.update s.pc t k⟩ =
      ⟨m.fifo mutex, Function.update (abs s).put t k.put, Function.update (abs s).get t k.get,
        m.puts, m.gets⟩ := by
  simp only [abs, put_update, get_update]

/-- A section of `pdu_fifo_put`, in two steps of the machine of whole sections. -/
theorem put_sim {t : T} {input : Fin n → β} (hmutex : s.mutex = 1)
    (hpc : s.pc t = .putWait input) :
    exec Ipc.step (abs s) [.put t, .put t] = some (abs
      { s with
        mem := (complete (threads T n β) rank t (.putTest input, s.mem)).2
        pc := Function.update s.pc t
          (complete (threads T n β) rank t (.putTest input, s.mem)).1 }) := by
  have hput : (abs s).put t = .lock input := congrArg Pc.put hpc
  have hget : Function.update (abs s).get t .outside = (abs s).get := by
    rw [Function.update_eq_self_iff]
    exact (congrArg Pc.get hpc).symm
  have hlock : Ipc.step (abs s) (.put t) = some
      { abs s with
        fifo := s.mem.fifo 0
        put := Function.update (abs s).put t (.locked input) } := by
    simp only [Ipc.step, hput]
    simp only [abs, hmutex]
    rfl
  rw [exec_cons, hlock, Option.bind_some, exec_cons, complete_body ranked rfl]
  by_cases hfull : s.mem.avail = s.mem.size
  · rw [if_pos hfull, complete_unlock rfl, abs_update]
    have hfull' : (s.mem.fifo 0).avail = (s.mem.fifo 0).size := hfull
    simp only [Ipc.step, Function.update_self, if_pos hfull', Function.update_idem, hmutex,
      Pc.put, Pc.get, hget]
    rfl
  · rw [if_neg hfull]
    obtain ⟨m', hc, hfifo, hputs, hgets⟩ := complete_store t s.mem input 1
    have hfull' : ¬ (s.mem.fifo 0).avail = (s.mem.fifo 0).size := hfull
    rw [hc, abs_update, hmutex, hfifo, hputs, hgets]
    simp only [Ipc.step, Function.update_self, if_neg hfull', Function.update_idem,
      Pc.put, Pc.get, hget, store_mutex, store_setMutex]
    rfl

/-- A section of `pdu_fifo_get`, in two steps of the machine of whole sections. -/
theorem get_sim {t : T} {out : Fin n → β} (hmutex : s.mutex = 1)
    (hpc : s.pc t = .getWait out) :
    exec Ipc.step (abs s) [.get t, .get t] = some (abs
      { s with
        mem := (complete (threads T n β) rank t (.getTest out, s.mem)).2
        pc := Function.update s.pc t
          (complete (threads T n β) rank t (.getTest out, s.mem)).1 }) := by
  have hget : (abs s).get t = .lock := congrArg Pc.get hpc
  have hput : Function.update (abs s).put t .outside = (abs s).put := by
    rw [Function.update_eq_self_iff]
    exact (congrArg Pc.put hpc).symm
  have hlock : Ipc.step (abs s) (.get t) = some
      { abs s with
        fifo := s.mem.fifo 0
        get := Function.update (abs s).get t .locked } := by
    simp only [Ipc.step, hget]
    simp only [abs, hmutex]
    rfl
  rw [exec_cons, hlock, Option.bind_some, exec_cons, complete_body ranked rfl]
  by_cases hempty : s.mem.avail < 1
  · rw [if_pos hempty, complete_unlock rfl, abs_update]
    have hempty' : (s.mem.fifo 0).avail < 1 := hempty
    simp only [Ipc.step, Function.update_self, if_pos hempty', Function.update_idem, hmutex,
      Pc.put, Pc.get, hput]
    rfl
  · rw [if_neg hempty]
    obtain ⟨m', hc, hfifo, hgets, hputs⟩ := complete_take t s.mem out 1
    have hempty' : ¬ (s.mem.fifo 0).avail < 1 := hempty
    rw [hc, abs_update, hmutex, hfifo, hputs, hgets]
    simp only [Ipc.step, Function.update_self, if_neg hempty', Function.update_idem,
      Pc.put, Pc.get, hput, take_mutex, take_setMutex]
    rfl

/-- **Simulation.** A step of the machine whose sections are one step is a run of the machine of
    `PduFifo`. -/
theorem atomic_sim {a : T × Call n β} (hmutex : s.mutex = 1)
    (h : atomicStep (threads T n β) rank s a = some s') :
    s'.mutex = 1 ∧ ∃ es, exec Ipc.step (abs s) es = some (abs s') := by
  cases atomicStep_cases h with
  | @lock t _ next hk =>
    refine ⟨hmutex, ?_⟩
    cases hpc : s.pc t <;> simp only [threads, prog, hpc, reduceCtorEq, Instr.lock.injEq] at hk <;>
      subst hk
    · exact ⟨_, put_sim hmutex hpc⟩
    · exact ⟨_, get_sim hmutex hpc⟩
  | @free t call f r hk hr =>
    refine ⟨hmutex, ?_⟩
    have hput : (abs s).put t = (s.pc t).put := rfl
    have hget : (abs s).get t = (s.pc t).get := rfl
    have hput' := Function.update_eq_self t (abs s).put
    have hget' := Function.update_eq_self t (abs s).get
    rw [abs_update]
    cases hpc : s.pc t <;> simp only [threads, prog, hpc, reduceCtorEq, Instr.free.injEq] at hk <;>
      subst hk <;> simp only [hpc, Pc.put, Pc.get] at hput hget
    · cases call with
      | put input =>
        cases hr
        refine ⟨[.callPut t input], ?_⟩
        simp only [exec, Ipc.step, hput]
        rw [hget] at hget'
        simp only [Pc.put, Pc.get, hget']
        rfl
      | get out =>
        cases hr
        refine ⟨[.callGet t], ?_⟩
        simp only [exec, Ipc.step, hget]
        rw [hput] at hput'
        simp only [Pc.put, Pc.get, hput']
        rfl
    · obtain ⟨k, hk, rfl⟩ := Option.map_eq_some_iff.mp hr
      refine ⟨[.put t], ?_⟩
      have hk' : Sem.wait (abs s).fifo.full = some k := hk
      simp only [exec, Ipc.step, hput, hk', Option.map_some]
      rw [hget] at hget'
      simp only [Pc.put, Pc.get, hget']
      rfl
    · obtain ⟨k, hk, rfl⟩ := Option.map_eq_some_iff.mp hr
      refine ⟨[.get t], ?_⟩
      have hk' : Sem.wait (abs s).fifo.empty = some k := hk
      simp only [exec, Ipc.step, hget, hk', Option.map_some]
      rw [hput] at hput'
      simp only [Pc.put, Pc.get, hput']
      rfl

/-- The states of the machine whose sections are one step are states of the machine of
    `PduFifo`. -/
theorem atomic_reachable {buffer : ℕ → Fin n → β} {size : Capacity}
    (h : Reachable (atomicStep (threads T n β) rank) (start buffer size) s) :
    Reachable Ipc.step (Ipc.start buffer size) (abs s) := by
  have hs : s.mutex = 1 ∧ Reachable Ipc.step (Ipc.start buffer size) (abs s) := by
    induction h with
    | init => exact ⟨rfl, .init⟩
    | step _ he ih =>
      obtain ⟨hmutex, es, hes⟩ := atomic_sim ih.1 he
      exact ⟨hmutex, ih.2.exec es hes⟩
  exact hs.2

end refinement

/-! ### What holds inside the sections -/

/-- The ring is well formed and holds what was put and not yet taken. -/
structure Mem.Queued (size : Capacity) (m : Mem n β) : Prop where
  size_eq : m.size = size.val
  wf : (m.fifo 1).WF
  ledger : m.puts = m.gets ++ (m.fifo 1).queue

/-- What a thread at a point of a section relies on. -/
def Point (size : Capacity) : Pc n β → Mem n β → Prop
  | .putTest _, m | .getTest _, m => m.Queued size
  | .putCopy _ _, m => m.head < size.val
  | .getCopy _ _, m => m.tail < size.val
  | _, _ => True

/-- The resource invariant inside a section: its end will leave the ring well formed. -/
structure Midway (size : Capacity) (k : Pc n β) (m : Mem n β) : Prop where
  point : Point size k m
  ends : (complete (threads Unit n β) rank () (k, m)).2.Queued size
  prefixed : m.gets <+: m.puts

theorem queued_store {size : Capacity} {m m' : Mem n β} {input : Fin n → β}
    (hm : m.Queued size) (hne : m.avail ≠ m.size) (hfifo : m'.fifo 1 = (m.fifo 1).store input)
    (hputs : m'.puts = m.puts ++ [input]) (hgets : m'.gets = m.gets) : m'.Queued size := by
  have hne' : (m.fifo 1).avail ≠ (m.fifo 1).size := hne
  refine ⟨?_, ?_, ?_⟩
  · show (m'.fifo 1).size = size.val
    rw [hfifo, store_size]
    exact hm.size_eq
  · rw [hfifo]
    exact wf_store input hm.wf hne'
  · rw [hputs, hgets, hfifo, store_spec input hm.wf hne', hm.ledger, List.append_assoc]

theorem queued_take {size : Capacity} {m m' : Mem n β} (hm : m.Queued size)
    (hge : 1 ≤ m.avail) (hfifo : m'.fifo 1 = (m.fifo 1).take.2)
    (hgets : m'.gets = m.gets ++ [(m.fifo 1).take.1]) (hputs : m'.puts = m.puts) :
    m'.Queued size := by
  have hge' : 1 ≤ (m.fifo 1).avail := hge
  refine ⟨?_, ?_, ?_⟩
  · show (m'.fifo 1).size = size.val
    rw [hfifo, take_size]
    exact hm.size_eq
  · rw [hfifo]
    exact wf_take hm.wf hge'
  · rw [hputs, hgets, hfifo, hm.ledger, take_spec hm.wf hge', List.append_assoc]
    rfl

theorem Mem.Queued.prefixed {size : Capacity} {m : Mem n β} (hm : m.Queued size) :
    m.gets <+: m.puts :=
  ⟨_, hm.ledger.symm⟩

/-- The semaphore counts play no part in it. -/
theorem Mem.Queued.sems {size : Capacity} {m : Mem n β} (hm : m.Queued size) (full empty : ℕ) :
    Mem.Queued size { m with full := full, empty := empty } :=
  ⟨hm.size_eq, hm.wf.sems full empty 1, hm.ledger⟩

theorem midway_putTest {size : Capacity} {m : Mem n β} {input : Fin n → β}
    (hm : m.Queued size) : Midway size (.putTest input) m := by
  refine ⟨hm, ?_, hm.prefixed⟩
  rw [complete_body ranked rfl]
  by_cases hfull : m.avail = m.size
  · rw [if_pos hfull, complete_unlock rfl]
    exact hm
  · rw [if_neg hfull]
    obtain ⟨m', hc, hfifo, hputs, hgets⟩ := complete_store () m input 1
    rw [hc]
    exact queued_store hm hfull hfifo hputs hgets

theorem midway_getTest {size : Capacity} {m : Mem n β} {out : Fin n → β}
    (hm : m.Queued size) : Midway size (.getTest out) m := by
  refine ⟨hm, ?_, hm.prefixed⟩
  rw [complete_body ranked rfl]
  by_cases hempty : m.avail < 1
  · rw [if_pos hempty, complete_unlock rfl]
    exact hm
  · rw [if_neg hempty]
    obtain ⟨m', hc, hfifo, hgets, hputs⟩ := complete_take () m out 1
    rw [hc]
    exact queued_take hm (not_lt.mp hempty) hfifo hgets hputs

/-- A statement outside the sections leaves the ring alone. -/
theorem Mem.Queued.free {size : Capacity} {m : Mem n β} (hm : m.Queued size) {k : Pc n β}
    {f : Call n β → Mem n β → Option (Pc n β × Mem n β)} (hk : prog k = .free f)
    {call : Call n β} {r : Pc n β × Mem n β} (hr : f call m = some r) : r.2.Queued size := by
  cases k <;> simp only [prog, reduceCtorEq, Instr.free.injEq] at hk <;> subst hk
  · cases call <;> cases hr <;> exact hm
  · obtain ⟨k, -, rfl⟩ := Option.map_eq_some_iff.mp hr
    exact hm.sems k m.empty
  · obtain ⟨k, -, rfl⟩ := Option.map_eq_some_iff.mp hr
    exact hm.sems m.full k

section monitor

variable {size : Capacity} {m : Mem n β} {k : Pc n β}

theorem point_body {f : Mem n β → Pc n β × Mem n β} (hk : prog k = .body f)
    (hm : Midway size k m) : Point size (f m).1 (f m).2 := by
  have hpoint := hm.point
  cases k <;> simp only [prog, reduceCtorEq, Instr.body.injEq] at hk <;> subst hk <;> dsimp only
  case putTest =>
    have hq : m.Queued size := hm.point
    split
    · trivial
    · exact lt_of_lt_of_eq hq.wf.ring.head_lt hq.size_eq
  case getTest =>
    have hq : m.Queued size := hm.point
    split
    · trivial
    · exact lt_of_lt_of_eq hq.wf.ring.tail_lt hq.size_eq
  case putCopy =>
    split
    · exact hm.point
    · trivial
  case getCopy =>
    split
    · exact hm.point
    · trivial
  all_goals trivial

/-- A value is appended to the results only when its section ends with it a prefix of the
    arguments. -/
theorem prefixed_body {f : Mem n β → Pc n β × Mem n β} (hk : prog k = .body f)
    (hm : Midway size k m) : (f m).2.gets <+: (f m).2.puts := by
  have hend := hm.ends
  have hprefix := hm.prefixed
  rw [complete_body (t := ()) ranked hk] at hend
  cases k <;> simp only [prog, reduceCtorEq, Instr.body.injEq] at hk <;> subst hk <;>
    dsimp only at hend ⊢
  case putCopy | getCopy => split <;> exact hprefix
  case putPost => exact hprefix.trans (List.prefix_append _ _)
  case getPost =>
    rw [complete_unlock rfl] at hend
    exact hend.prefixed
  all_goals exact hprefix

/-- A statement outside touches nothing that a point of a section relies on. -/
theorem frame_free {f : Call n β → Mem n β → Option (Pc n β × Mem n β)} (hk : prog k = .free f)
    {call : Call n β} {r : Pc n β × Mem n β} (hr : f call m = some r) {j : Pc n β}
    (hm : Midway size j m) : Point size j r.2 ∧ r.2.gets <+: r.2.puts := by
  have hpoint := hm.point
  cases k <;> simp only [prog, reduceCtorEq, Instr.free.injEq] at hk <;> subst hk
  · cases call <;> cases hr <;> exact ⟨hpoint, hm.prefixed⟩
  · obtain ⟨k, -, rfl⟩ := Option.map_eq_some_iff.mp hr
    refine ⟨?_, hm.prefixed⟩
    cases j <;> first | exact hpoint.sems k m.empty | exact hpoint
  · obtain ⟨k, -, rfl⟩ := Option.map_eq_some_iff.mp hr
    refine ⟨?_, hm.prefixed⟩
    cases j <;> first | exact hpoint.sems m.full k | exact hpoint

end monitor

/-- **The resource invariant of `pdu_fifo`.** -/
theorem monitor (size : Capacity) :
    Monitor (threads T n β) (Mem.Queued size) (fun _ => Midway size) where
  lock := by
    intro _ k next m hk hm
    cases k <;> simp only [threads, prog, reduceCtorEq, Instr.lock.injEq] at hk <;> subst hk
    · exact midway_putTest hm
    · exact midway_getTest hm
  body := by
    intro _ k f m hk hm
    have hend := hm.ends
    rw [complete_body (t := ()) ranked hk] at hend
    exact ⟨point_body hk hm, hend, prefixed_body hk hm⟩
  unlock := by
    intro _ k next m hk hm
    have hend := hm.ends
    rw [complete_unlock (t := ()) hk] at hend
    exact hend
  free := by
    intro _ k f call m r hk hr hm
    exact hm.free hk hr
  frame := by
    intro _ k f call m r hk hr _ j hj hm
    obtain ⟨hfree, -⟩ := complete_free (t := ()) (u := ()) sections ranked movers hj hk hr
    obtain ⟨hpoint, hprefix⟩ := frame_free hk hr hm
    exact ⟨hpoint, Mem.Queued.free (r := (r.1, _)) hm.ends hk hfree, hprefix⟩

theorem start_outside (buffer : ℕ → Fin n → β) (size : Capacity) (t : T) :
    ¬ (start buffer size).inside (threads T n β) t :=
  Bool.false_ne_true

theorem queued_mem (buffer : ℕ → Fin n → β) (size : Capacity) :
    (start (T := T) buffer size).mem.Queued size :=
  ⟨rfl, wf_pduFifoInit buffer size, rfl⟩

/-- **`pdu_fifo` by statements.**  For every size, any number of threads that each call
    `pdu_fifo_put` and `pdu_fifo_get` in any order, and any interleaving of their statements, the
    single bytes of the `memcpy`s included: at most one thread is inside a section; every byte
    that is copied lies in the ring; the structs that the gets have filled are a prefix of the
    ones that the puts were given, so none is torn, lost, duplicated or reordered; and the state,
    with the section in progress run to its end, is one that the machine of whole sections
    reaches. -/
theorem pduFifo_statements [DecidableEq T] (buffer : ℕ → Fin n → β) (size : Capacity)
    (s : State T (Pc n β) (Mem n β))
    (h : Reachable (Lock.step (threads T n β)) (start buffer size) s) :
    Exclusive (threads T n β) s ∧
      (∀ t, (∀ input i, s.pc t = .putCopy input i → s.mem.head < size.val) ∧
        ∀ out i, s.pc t = .getCopy out i → s.mem.tail < size.val) ∧
      s.mem.gets <+: s.mem.puts ∧
      ∃ c, Within (threads T n β) rank s c ∧
        Reachable Ipc.step (Ipc.start buffer size) (abs c) := by
  have hm := monitored_reachable sections (monitor size) rfl (start_outside buffer size)
    (queued_mem buffer size) h
  refine ⟨hm.exclusive, fun t => ⟨fun input i hpc => ?_, fun out i hpc => ?_⟩, ?_, ?_⟩
  · have hin : s.inside (threads T n β) t := (inside_of_eq (congrArg prog hpc)).mpr rfl
    have hpoint := (hm.point t hin).point
    rw [hpc] at hpoint
    exact hpoint
  · have hin : s.inside (threads T n β) t := (inside_of_eq (congrArg prog hpc)).mpr rfl
    have hpoint := (hm.point t hin).point
    rw [hpc] at hpoint
    exact hpoint
  · cases hm.exclusive with
    | free hmutex _ => exact (hm.resource hmutex).prefixed
    | taken t _ hin _ => exact (hm.point t hin).prefixed
  · obtain ⟨c, hc, hw⟩ :=
      within_reachable sections ranked movers rfl (start_outside buffer size) h
    exact ⟨c, hw, atomic_reachable hc⟩

/-- A get goes to sleep on the empty ring, a put of two bytes posts `empty`, and the get goes on
    while the put is still inside its section. -/
def asleepRun : Option (State Bool (Pc 2 ℕ) (Mem 2 ℕ)) :=
  exec (Lock.step (threads Bool 2 ℕ)) (start (fun _ _ => 0) ⟨2, by decide, by decide⟩)
    (List.replicate 4 (true, .get fun _ => 0) ++ List.replicate 10 (false, .put fun b => b + 7)
      ++ [(true, .get fun _ => 0), (false, .put fun _ => 0)]
      ++ List.replicate 10 (true, .get fun _ => 0))

theorem pduFifo_statements_asleep : ∃ s : State Bool (Pc 2 ℕ) (Mem 2 ℕ),
    Reachable (Lock.step (threads Bool 2 ℕ)) (start (fun _ _ => 0) ⟨2, by decide, by decide⟩) s ∧
    s.mem.gets.map List.ofFn = [[7, 8]] ∧ s.mem.gets <+: s.mem.puts := by
  have hrun : asleepRun = some (asleepRun.get (by decide +kernel)) := (Option.some_get _).symm
  have hreach := Reachable.exec _ .init hrun
  obtain ⟨-, -, hgets, -⟩ := pduFifo_statements _ _ _ hreach
  exact ⟨_, hreach, by decide +kernel, hgets⟩

end Wheelson.Ipc.Statements
