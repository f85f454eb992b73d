import Mathlib.Data.Fintype.Basic
import Wheelson.Ipc.PduFifo

namespace Wheelson.Ipc

/-!
# Lost wake-ups of `pdu_fifo`

`pdu_fifo_get` posts `full` only when it takes `avail` from `size` to `size - 1`, so a burst
of gets from a full ring leaves one token however many producers sleep.

* `Sys.Stalled` — the consumer sleeps on `empty`, some producer sleeps on `full`, no token
  is left on either semaphore, and the ring is not full.
* `fullGauge_move` — what a step does to `full`, with a single producer; `noLostPut_step` —
  hence a sleeping producer always has a full ring or a token.
* `stall_reachable` — with two producers the stall is reached: fill the ring, put both
  producers to sleep, drain the ring.
* `deadlock_reachable` — on two or more slots the stall can outlast every wake-up.
* `no_stall_iff` — hence no stall is reachable exactly when there is at most one producer.
-/

open Machine

variable {α P : Type*}

/-- The consumer and a producer sleep without a token although the ring is not full. -/
def Sys.Stalled (s : Sys α P Unit) : Prop :=
  s.fifo.mutex = 1 ∧ s.get () = .asleep ∧ s.fifo.empty = 0 ∧
    ∃ p input, s.put p = .asleep input ∧ s.fifo.full = 0 ∧ s.fifo.avail < s.fifo.size

/-- The producer `p` is at `sem_wait(&fifo->full)`. -/
def Sys.PutAsleep (s : Sys α P Unit) (p : P) : Prop := ∃ input, s.put p = .asleep input

/-- The thread is at `sem_wait(&fifo->full)`. -/
def PutPc.isAsleep : PutPc α → Bool
  | .asleep _ => true
  | _ => false

theorem putAsleep_iff {s : Sys α P Unit} {p : P} : s.PutAsleep p ↔ (s.put p).isAsleep := by
  unfold Sys.PutAsleep
  cases s.put p <;> simp [PutPc.isAsleep]

/-- `full`, which the producer `p` waits on. -/
def fullGauge (p : P) : Sem.Gauge (Sys α P Unit) where
  count s := s.fifo.full
  asleep s := (s.put p).isAsleep
  blocked s := s.fifo.avail = s.fifo.size

/-! ### One producer -/

section oneProducer

variable [DecidableEq P] [Subsingleton P]

/-- A producer that sleeps has a full ring or a token. -/
def Sys.NoLostPut (s : Sys α P Unit) : Prop :=
  ∀ p, Sem.NoLostWakeup (s.PutAsleep p) (s.fifo.avail = s.fifo.size) s.fifo.full

theorem fullGauge_move {s s' : Sys α P Unit} {a : Act α P Unit} (hf : s.fifo.WF)
    (h : step s a = some s') (p : P) : (fullGauge p).Move s s' := by
  have hpos := hf.ring.size_pos
  -- the producer that moves is the only one
  have honly (q : P) : q = p := Subsingleton.elim q p
  cases step_cases h with
  | @callPut q _ hp | @putLock q _ _ hp =>
    obtain rfl := honly q
    exact .frame (by simp [fullGauge, PutPc.isAsleep, hp]) (fun _ => Iff.rfl) rfl
  | @putSleep q _ hp hfull =>
    obtain rfl := honly q
    exact .park (by simp [fullGauge, PutPc.isAsleep, hp]) hfull rfl
  | @putStore q _ hp hne =>
    obtain rfl := honly q
    -- the producer that stores is awake
    exact .frame (by simp [fullGauge, PutPc.isAsleep, hp])
      (fun ha => by simp [fullGauge, PutPc.isAsleep, hp] at ha) (store_full _)
  | @putWake q _ _ hp hn =>
    obtain rfl := honly q
    exact .take (by simp [fullGauge, PutPc.isAsleep, hp]) (by simp [fullGauge, PutPc.isAsleep])
      (Sem.wait_eq_some.mp hn)
  | callGet | getLock | getSleep | getWake => exact .frame rfl (fun _ => Iff.rfl) rfl
  | getTake hc hge =>
    have hle := hf.ring.avail_le
    have hfree : ¬ s.fifo.take.2.avail = s.fifo.take.2.size := by
      rw [take_avail, take_size]
      omega
    have hfull := take_full (f := s.fifo)
    by_cases hcross : s.fifo.avail - 1 = s.fifo.size - 1
    · rw [if_pos hcross] at hfull
      exact .post (show s.fifo.avail = s.fifo.size by omega) hfree hfull rfl
    · rw [if_neg hcross] at hfull
      -- the ring was not full
      have hfree₀ : ¬ s.fifo.avail = s.fifo.size := by omega
      exact .frame rfl (fun _ => iff_of_false hfree hfree₀) hfull

/-- **Step rule.** -/
theorem noLostPut_step {s s' : Sys α P Unit} {a : Act α P Unit} (hf : s.fifo.WF)
    (hs : s.NoLostPut) (h : step s a = some s') : s'.NoLostPut := by
  intro p
  have hmove := (fullGauge_move hf h p).noLostWakeup
  simp only [fullGauge, ← putAsleep_iff] at hmove
  exact hmove (hs p)

theorem noLostPut_reachable {buffer : ℕ → α} {size : Capacity} {s : Sys α P Unit}
    (h : Reachable step (start buffer size) s) : s.NoLostPut := by
  refine (h.invariant (I := fun s => s.Queued size ∧ s.NoLostPut) ?_ ?_).2
  · exact ⟨queued_start buffer size, fun p => .awake (by simp [Sys.PutAsleep, start])⟩
  · intro s a s' ⟨hq, hn⟩ hstep
    exact ⟨queued_step hq hstep, noLostPut_step hq.wf hn hstep⟩

end oneProducer

/-! ### Two producers -/

section twoProducers

variable [DecidableEq P] {s₀ s : Sys α P Unit} {a fl em : ℕ}

/-- The counters of a ring whose mutex is free. -/
def Sys.At (s : Sys α P Unit) (a fl em : ℕ) : Prop :=
  s.fifo.avail = a ∧ s.fifo.full = fl ∧ s.fifo.empty = em ∧ s.fifo.mutex = 1

/-- A producer at the mutex finishes its put on a ring that is not full. -/
theorem put_resumes (hs : Reachable step s₀ s) (hf : s.fifo.WF) (hat : s.At a fl em)
    (hne : a ≠ s.fifo.size) {p : P} {x : α} (hp : s.put p = .lock x) :
    ∃ s', Reachable step s₀ s' ∧ s'.put = Function.update s.put p .outside ∧ s'.get = s.get ∧
      s'.At (a + 1) fl (if a = 0 then em + 1 else em) := by
  obtain ⟨rfl, rfl, rfl, hm⟩ := hat
  let s₁ : Sys α P Unit := { s with
    fifo := { s.fifo with mutex := 0 }
    put := Function.update s.put p (.locked x) }
  have h₁ : step s (.put p) = some s₁ := by simp [step, s₁, hp, hm, Sem.wait]
  have h₂ : step s₁ (.put p) = some { s with
      fifo := { s₁.fifo.store x with mutex := 1 }
      put := Function.update s₁.put p .outside
      puts := s.puts ++ [x] } := by
    simp [step, s₁, hne, Sem.post]
  refine ⟨_, (hs.step h₁).step h₂, by simp [s₁], rfl, ?_, ?_, ?_, rfl⟩
  · exact store_avail x (hf.sems _ _ _) hne
  · exact store_full x
  · exact store_empty x (hf.sems _ _ _) hne

/-- A whole put on a ring that is not full. -/
theorem put_done (hs : Reachable step s₀ s) (hf : s.fifo.WF) (hat : s.At a fl em)
    (hne : a ≠ s.fifo.size) {p : P} (x : α) (hp : s.put p = .outside) :
    ∃ s', Reachable step s₀ s' ∧ s'.put = s.put ∧ s'.get = s.get ∧
      s'.At (a + 1) fl (if a = 0 then em + 1 else em) := by
  let s₁ : Sys α P Unit := { s with put := Function.update s.put p (.lock x) }
  have h₁ : step s (.callPut p x) = some s₁ := by simp [step, hp, s₁]
  obtain ⟨s', hs', hput, hget, hat'⟩ := put_resumes (hs.step h₁) hf hat hne (x := x) (p := p)
    (by simp [s₁])
  refine ⟨s', hs', ?_, hget, hat'⟩
  rw [hput]
  simp [s₁, ← hp]

/-- A put on a full ring goes to sleep. -/
theorem put_parks (hs : Reachable step s₀ s) (hat : s.At s.fifo.size fl em) {p : P} (x : α)
    (hp : s.put p = .outside) :
    ∃ s', Reachable step s₀ s' ∧ s'.put = Function.update s.put p (.asleep x) ∧
      s'.get = s.get ∧ s'.At s.fifo.size fl em := by
  obtain ⟨ha, hfl, hem, hm⟩ := hat
  let s₁ : Sys α P Unit := { s with put := Function.update s.put p (.lock x) }
  let s₂ : Sys α P Unit := { s with
    fifo := { s.fifo with mutex := 0 }
    put := Function.update s₁.put p (.locked x) }
  have h₁ : step s (.callPut p x) = some s₁ := by simp [step, hp, s₁]
  have h₂ : step s₁ (.put p) = some s₂ := by simp [step, s₁, s₂, hm, Sem.wait]
  have h₃ : step s₂ (.put p) = some { s with
      fifo := { s.fifo with mutex := 1 }
      put := Function.update s₂.put p (.asleep x) } := by
    simp [step, s₂, ha, Sem.post]
  exact ⟨_, ((hs.step h₁).step h₂).step h₃, by simp [s₂, s₁], rfl, ha, hfl, hem, rfl⟩

/-- A sleeping producer takes a token and goes for the mutex. -/
theorem put_wakes (hs : Reachable step s₀ s) (hat : s.At a (fl + 1) em) {p : P} {x : α}
    (hp : s.put p = .asleep x) :
    ∃ s', Reachable step s₀ s' ∧ s'.put = Function.update s.put p (.lock x) ∧
      s'.get = s.get ∧ s'.At a fl em := by
  obtain ⟨ha, hfl, hem, hm⟩ := hat
  have h₁ : step s (.put p) = some { s with
      fifo := { s.fifo with full := fl }
      put := Function.update s.put p (.lock x) } := by
    simp [step, hp, hfl, Sem.wait]
  exact ⟨_, hs.step h₁, rfl, rfl, ha, rfl, hem, hm⟩

/-- A whole get on a ring that is not empty. -/
theorem get_done (hs : Reachable step s₀ s) (hat : s.At (a + 1) fl em)
    (hg : s.get () = .outside) :
    ∃ s', Reachable step s₀ s' ∧ s'.put = s.put ∧ s'.get = s.get ∧
      s'.At a (if a = s.fifo.size - 1 then fl + 1 else fl) em := by
  obtain ⟨ha, hfl, hem, hm⟩ := hat
  let s₁ : Sys α P Unit := { s with get := Function.update s.get () .lock }
  let s₂ : Sys α P Unit := { s with
    fifo := { s.fifo with mutex := 0 }
    get := Function.update s₁.get () .locked }
  have h₁ : step s (.callGet ()) = some s₁ := by simp [step, hg, s₁]
  have h₂ : step s₁ (.get ()) = some s₂ := by simp [step, s₁, s₂, hm, Sem.wait]
  have h₃ : step s₂ (.get ()) = some { s with
      fifo := { s₂.fifo.take.2 with mutex := 1 }
      get := Function.update s₂.get () .outside
      gets := s.gets ++ [s₂.fifo.take.1] } := by
    simp [step, s₂, ha, Sem.post]
  refine ⟨_, ((hs.step h₁).step h₂).step h₃, rfl, ?_, ?_, ?_, ?_, rfl⟩
  · simp [s₂, s₁, ← hg]
  · simp [s₂, ha]
  · show s₂.fifo.take.2.full = _
    rw [take_full]
    simp [s₂, ha, hfl, Sem.post]
  · show s₂.fifo.take.2.empty = _
    rw [take_empty]
    exact hem

/-- A consumer that goes for the mutex of an empty ring goes to sleep. -/
theorem get_sleeps (hs : Reachable step s₀ s) (hat : s.At 0 fl em) (hg : s.get () = .lock) :
    ∃ s', Reachable step s₀ s' ∧ s'.put = s.put ∧ s'.get () = .asleep ∧ s'.At 0 fl em := by
  obtain ⟨ha, hfl, hem, hm⟩ := hat
  let s₁ : Sys α P Unit := { s with
    fifo := { s.fifo with mutex := 0 }
    get := Function.update s.get () .locked }
  have h₁ : step s (.get ()) = some s₁ := by simp [step, hg, s₁, hm, Sem.wait]
  have h₂ : step s₁ (.get ()) = some { s with
      fifo := { s.fifo with mutex := 1 }
      get := Function.update s₁.get () .asleep } := by
    simp [step, s₁, ha, Sem.post]
  exact ⟨_, (hs.step h₁).step h₂, rfl, by simp, ha, hfl, hem, rfl⟩

/-- A get on an empty ring goes to sleep. -/
theorem get_parks (hs : Reachable step s₀ s) (hat : s.At 0 fl em) (hg : s.get () = .outside) :
    ∃ s', Reachable step s₀ s' ∧ s'.put = s.put ∧ s'.get () = .asleep ∧ s'.At 0 fl em := by
  let s₁ : Sys α P Unit := { s with get := Function.update s.get () .lock }
  have h₁ : step s (.callGet ()) = some s₁ := by simp [step, hg, s₁]
  exact get_sleeps (s := s₁) (hs.step h₁) hat (by simp [s₁])

/-- A left-over token wakes the consumer for nothing: it finds the ring empty again. -/
theorem get_rechecks (hs : Reachable step s₀ s) (hat : s.At 0 fl (em + 1))
    (hg : s.get () = .asleep) :
    ∃ s', Reachable step s₀ s' ∧ s'.put = s.put ∧ s'.get () = .asleep ∧ s'.At 0 fl em := by
  obtain ⟨ha, hfl, hem, hm⟩ := hat
  let s₁ : Sys α P Unit := { s with
    fifo := { s.fifo with empty := em }
    get := Function.update s.get () .lock }
  have h₁ : step s (.get ()) = some s₁ := by simp [step, hg, hem, s₁, Sem.wait]
  exact get_sleeps (s := s₁) (hs.step h₁) ⟨ha, hfl, rfl, hm⟩ (by simp [s₁])

variable (buffer : ℕ → α) (size : Capacity) {p₀ p₁ : P}

/-- One producer fills the ring. -/
theorem fill (k : ℕ) (hk : k ≤ size.val) (x : α) (p : P) :
    ∃ s : Sys α P Unit, Reachable step (start buffer size) s ∧ (∀ q, s.put q = .outside) ∧
      s.get () = .outside ∧ s.At k 0 (if k = 0 then 0 else 1) := by
  induction k with
  | zero => exact ⟨_, .init, fun _ => rfl, rfl, rfl, rfl, rfl, rfl⟩
  | succ k ih =>
    obtain ⟨s, hs, hput, hget, hat⟩ := ih (by omega)
    have hq := queued_reachable hs
    have hne : k ≠ s.fifo.size := by rw [hq.size_eq]; omega
    obtain ⟨s', hs', hput', hget', hat'⟩ := put_done hs hq.wf hat hne x (hput p)
    refine ⟨s', hs', fun q => by rw [hput', hput], by rw [hget', hget], ?_⟩
    by_cases h0 : k = 0
    · simpa [h0] using hat'
    · simpa [h0] using hat'

/-- Both producers sleep on a full ring. -/
theorem fill_park (hne : p₀ ≠ p₁) (x : α) :
    ∃ s : Sys α P Unit, Reachable step (start buffer size) s ∧ s.put p₀ = .asleep x ∧
      s.put p₁ = .asleep x ∧ s.get () = .outside ∧ s.At size.val 0 1 := by
  have hpos := size.pos
  obtain ⟨s, hs, hput, hget, hat⟩ := fill buffer size size.val le_rfl x p₀
  have hsize := (queued_reachable hs).size_eq
  rw [if_neg (by omega), ← hsize] at hat
  obtain ⟨s', hs', hput', hget', hat'⟩ := put_parks hs hat x (hput p₀)
  have hsize' := (queued_reachable hs').size_eq
  rw [hsize, ← hsize'] at hat'
  obtain ⟨t, ht, hputt, hgett, hatt⟩ := put_parks hs' hat' x (p := p₁)
    (by rw [hput', Function.update_of_ne hne.symm, hput])
  refine ⟨t, ht, ?_, ?_, ?_, hsize' ▸ hatt⟩
  · rw [hputt, Function.update_of_ne hne, hput', Function.update_self]
  · rw [hputt, Function.update_self]
  · rw [hgett, hget', hget]

/-- The consumer drains the ring: the crossing posts one token of `full`, the later gets
    none. -/
theorem drain (hne : p₀ ≠ p₁) (x : α) (j : ℕ) (hj : j < size.val) :
    ∃ s : Sys α P Unit, Reachable step (start buffer size) s ∧ s.put p₀ = .asleep x ∧
      s.put p₁ = .asleep x ∧ s.get () = .outside ∧ s.At (size.val - (j + 1)) 1 1 := by
  induction j with
  | zero =>
    obtain ⟨s, hs, h0, h1, hget, hat⟩ := fill_park buffer size hne x
    have hsize := (queued_reachable hs).size_eq
    have hsucc : size.val = size.val - 1 + 1 := by omega
    rw [hsucc] at hat
    obtain ⟨s', hs', hput', hget', hat'⟩ := get_done hs hat hget
    rw [hsize, if_pos rfl] at hat'
    exact ⟨s', hs', by rw [hput', h0], by rw [hput', h1], by rw [hget', hget], hat'⟩
  | succ j ih =>
    obtain ⟨s, hs, h0, h1, hget, hat⟩ := ih (by omega)
    have hsize := (queued_reachable hs).size_eq
    have hsucc : size.val - (j + 1) = size.val - (j + 1 + 1) + 1 := by omega
    rw [hsucc] at hat
    obtain ⟨s', hs', hput', hget', hat'⟩ := get_done hs hat hget
    rw [hsize, if_neg (by omega)] at hat'
    exact ⟨s', hs', by rw [hput', h0], by rw [hput', h1], by rw [hget', hget], hat'⟩

/-- **The stall is reached.**  After the drain one producer takes the only token and the
    consumer, its left-over token spent, sleeps on the empty ring. -/
theorem stall_reachable (hne : p₀ ≠ p₁) :
    ∃ s : Sys α P Unit, Reachable step (start buffer size) s ∧ s.Stalled := by
  have hpos := size.pos
  obtain ⟨s, hs, h0, h1, hget, hat⟩ :=
    drain buffer size hne (buffer 0) (size.val - 1) (by omega)
  rw [show size.val - (size.val - 1 + 1) = 0 by omega] at hat
  obtain ⟨t, ht, hputt, hgett, hatt⟩ := get_parks hs hat hget
  obtain ⟨u, hu, hputu, hgetu, hatu⟩ := get_rechecks ht hatt hgett
  -- the token of `full` goes to `p₀`, which has not yet got the mutex
  obtain ⟨v, hv, hputv, hgetv, hatv⟩ := put_wakes hu hatu (p := p₀) (x := buffer 0)
    (by rw [hputu, hputt, h0])
  obtain ⟨ha, hfl, hem, hm⟩ := hatv
  refine ⟨v, hv, hm, by rw [hgetv, hgetu], hem, p₁, buffer 0, ?_, hfl, ?_⟩
  · rw [hputv, Function.update_of_ne hne.symm, hputu, hputt, h1]
  · rw [(queued_reachable hv).size_eq, ha]
    exact hpos

/-- **The stall can be for good.**  On a ring of two or more slots the woken producer may
    finish its put and the consumer take that value before the other producer gets a token:
    every thread is outside or asleep, and the ring is empty. -/
theorem deadlock_reachable (hne : p₀ ≠ p₁) (hsize : 2 ≤ size.val) :
    ∃ s : Sys α P Unit, Reachable step (start buffer size) s ∧ s.Stalled ∧
      s.put p₀ = .outside := by
  obtain ⟨s, hs, h0, h1, hget, hat⟩ :=
    drain buffer size hne (buffer 0) (size.val - 1) (by omega)
  rw [show size.val - (size.val - 1 + 1) = 0 by omega] at hat
  have hsz := (queued_reachable hs).size_eq
  -- the producer that takes the token puts its value and leaves
  obtain ⟨t, ht, hputt, hgett, hatt⟩ := put_wakes hs hat h0
  have hqt := queued_reachable ht
  obtain ⟨u, hu, hputu, hgetu, hatu⟩ := put_resumes ht hqt.wf hatt
    (by rw [hqt.size_eq]; omega) (p := p₀) (x := buffer 0) (by rw [hputt, Function.update_self])
  -- the consumer takes that value and finds nothing more
  obtain ⟨v, hv, hputv, hgetv, hatv⟩ := get_done hu hatu (by rw [hgetu, hgett, hget])
  rw [(queued_reachable hu).size_eq, if_neg (by omega), if_pos rfl] at hatv
  obtain ⟨w, hw, hputw, hgetw, hatw⟩ := get_parks hv hatv (by rw [hgetv, hgetu, hgett, hget])
  obtain ⟨x, hx, hputx, hgetx, hatx⟩ := get_rechecks hw hatw hgetw
  obtain ⟨y, hy, hputy, hgety, haty⟩ := get_rechecks hx hatx hgetx
  obtain ⟨ha, hfl, hem, hm⟩ := haty
  have hput : y.put
      = Function.update (Function.update s.put p₀ (.lock (buffer 0))) p₀ .outside := by
    rw [hputy, hputx, hputw, hputv, hputu, hputt]
  refine ⟨y, hy, ⟨hm, hgety, hem, p₁, buffer 0, ?_, hfl, ?_⟩, by simp [hput]⟩
  · rw [hput, Function.update_of_ne hne.symm, Function.update_of_ne hne.symm, h1]
  · rw [(queued_reachable hy).size_eq, ha]
    exact size.pos

end twoProducers

/-! ### Exactly when no wake-up is lost -/

/-- **No stall if and only if at most one producer.**  For every size, with `n` producers
    and one consumer, no reachable state is stalled exactly when `n ≤ 1`. -/
theorem no_stall_iff (buffer : ℕ → α) (size : Capacity) (n : ℕ) :
    (∀ s : Sys α (Fin n) Unit, Reachable step (start buffer size) s → ¬ s.Stalled) ↔ n ≤ 1 := by
  constructor
  · -- two of the producers reach the stall
    intro hno
    by_contra hn
    rw [not_le] at hn
    have hne : (⟨0, by omega⟩ : Fin n) ≠ ⟨1, hn⟩ := by simp
    obtain ⟨s, hs, hstall⟩ := stall_reachable buffer size hne
    exact hno s hs hstall
  · -- a lone producer that sleeps has a full ring or a token
    intro hn s hs hstall
    have hsub : Subsingleton (Fin n) := by
      constructor
      intro i j
      ext
      omega
    obtain ⟨-, -, -, p, input, hp, hfull, hlt⟩ := hstall
    rcases noLostPut_reachable hs p ⟨input, hp⟩ with heq | hpos
    · omega
    · omega

/-- **A wake-up is lost** with two producers on a ring of two slots. -/
theorem stall_two_producers :
    ¬ ∀ (size : Capacity) (n : ℕ) (s : Sys ℕ (Fin n) Unit),
      Reachable step (start (fun _ => 0) size) s → ¬ s.Stalled := by
  intro h
  let size : Capacity := ⟨2, by decide, by decide⟩
  obtain ⟨s, hs, hstall, -⟩ := deadlock_reachable (fun _ => 0) size
    (show (0 : Fin 2) ≠ 1 by decide) le_rfl
  exact h size 2 s hs hstall

end Wheelson.Ipc
