import Wheelson.Ipc.WakeUp
import Wheelson.Ipc.PingPong

namespace Wheelson.Ipc

/-!
# Left-over tokens of `pdu_fifo` and of the ping-pong table

Both post `empty` and `full` at each crossing of `avail`, whether or not a thread waits, and a
token is taken only by a thread that has found the ring empty or full.

* `emptyGauge`, `fullGauge`, `PingPong.semGauge` — the semaphores with their waiters, and one
  lemma each that says what a step does to them (`Sem.Gauge.Move`).
* `PingPong.write_done`, `PingPong.read_done` — whole cycles of a writer and of a reader.
* `tokens_idle` — a count is at most one more than the posts that found nobody asleep, and
  these are not bounded.
-/

open Machine

variable {α : Type*}

/-! ### The ring -/

section ring

variable {size : Capacity} {s s' : Sys α Unit Unit} {a : Act α Unit Unit}

/-- `empty`, which the consumer waits on. -/
def emptyGauge : Sem.Gauge (Sys α Unit Unit) where
  count s := s.fifo.empty
  asleep s := s.get () = .asleep
  blocked s := s.fifo.avail < 1

theorem emptyGauge_move (hs : s.Queued size) (h : step s a = some s') : emptyGauge.Move s s' := by
  cases step_cases h with
  | callPut | putLock | putSleep | putWake => exact .frame rfl (fun _ => Iff.rfl) rfl
  | putStore hp hne =>
    rename_i p input
    have hempty := store_empty input hs.wf hne
    have havail := store_avail input hs.wf hne
    by_cases hcross : s.fifo.avail = 0
    · rw [if_pos hcross] at hempty
      exact .post (by simp [emptyGauge, hcross]) (by simp [emptyGauge, havail]) hempty rfl
    · rw [if_neg hcross] at hempty
      exact .frame rfl (fun _ => by simp [emptyGauge, havail, hcross]) hempty
  | callGet hc | getLock hc =>
    exact .frame (by simp [emptyGauge, hc]) (fun _ => Iff.rfl) rfl
  | getSleep hc hempty => exact .park (by simp [emptyGauge, hc]) hempty rfl
  | getTake hc hge =>
    -- the consumer that takes is awake
    exact .frame (by simp [emptyGauge, hc]) (fun ha => by simp [emptyGauge, hc] at ha) take_empty
  | getWake hc hn =>
    exact .take (by simp [emptyGauge, hc]) (by simp [emptyGauge]) (Sem.wait_eq_some.mp hn)

/-- A ring between two calls can have `a` values and these tokens. -/
def Rests (buffer : ℕ → α) (size : Capacity) (a fl em : ℕ) : Prop :=
  ∃ s : Sys α Unit Unit, Reachable step (start buffer size) s ∧ s.put () = .outside ∧
    s.get () = .outside ∧ s.At a fl em

theorem rests_put {buffer : ℕ → α} {a fl em : ℕ} (ha : a < size.val)
    (h : Rests buffer size a fl em) :
    Rests buffer size (a + 1) fl (if a = 0 then em + 1 else em) := by
  obtain ⟨s, hs, hput, hget, hat⟩ := h
  have hq := queued_reachable hs
  obtain ⟨s', hs', hput', hget', hat'⟩ :=
    put_done hs hq.wf hat (by rw [hq.size_eq]; omega) (buffer 0) hput
  exact ⟨s', hs', by rw [hput', hput], by rw [hget', hget], hat'⟩

theorem rests_get {buffer : ℕ → α} {a fl em : ℕ} (h : Rests buffer size (a + 1) fl em) :
    Rests buffer size a (if a = size.val - 1 then fl + 1 else fl) em := by
  obtain ⟨s, hs, hput, hget, hat⟩ := h
  obtain ⟨s', hs', hput', hget', hat'⟩ := get_done hs hat hget
  rw [(queued_reachable hs).size_eq] at hat'
  exact ⟨s', hs', by rw [hput', hput], by rw [hget', hget], hat'⟩

variable (buffer : ℕ → α) (size : Capacity)

theorem count_le_idlePosts {es : List (Act α Unit Unit)}
    (h : exec step (start buffer size) es = some s) :
    s.fifo.empty ≤ emptyGauge.idlePosts step (start buffer size) es + 1 ∧
      s.fifo.full ≤ (fullGauge ()).idlePosts step (start buffer size) es + 1 := by
  have h0 := queued_start (P := Unit) (C := Unit) buffer size
  constructor
  · exact emptyGauge.count_le_idlePosts
      (fun _ _ _ hq hstep => ⟨queued_step hq hstep, emptyGauge_move hq hstep⟩) h h0 rfl
  · exact (fullGauge ()).count_le_idlePosts
      (fun _ _ _ hq hstep => ⟨queued_step hq hstep, fullGauge_move hq.wf hstep ()⟩) h h0 rfl

theorem exists_tokens (k : ℕ) : ∃ s : Sys α Unit Unit, Reachable step (start buffer size) s ∧
    k ≤ s.fifo.empty ∧ k ≤ s.fifo.full := by
  obtain ⟨a, fl, em, ⟨s, hs, -, -, -, rfl, rfl, -⟩, hfl, hem⟩ :=
    Sem.exists_tokens (R := Rests buffer size) size.pos ⟨_, .init, rfl, rfl, rfl, rfl, rfl, rfl⟩
      (fun _ _ _ => rests_put) (fun _ _ _ => rests_get) k
  exact ⟨s, hs, hem, hfl⟩

end ring

/-! ### The ping-pong table -/

namespace PingPong

variable {n : Capacity} {s s' : Sys}

/-! ### Whole cycles -/

variable {buffers : ℕ → List UInt8} {a fl em : ℕ}

/-- A table between two cycles can have `a` buffers committed and these tokens. -/
def Rests (buffers : ℕ → List UInt8) (n : Capacity) (a fl em : ℕ) : Prop :=
  ∃ s, Reachable step (start buffers n) s ∧ s.writer = .outside ∧ s.reader = .outside ∧
    s.tab.avail = a ∧ s.tab.full = fl ∧ s.tab.empty = em ∧ s.tab.mutex = 1

/-- The writer gets a buffer and commits it. -/
theorem write_done (hlt : a < n.val) (h : Rests buffers n a fl em) :
    Rests buffers n (a + 1) fl (if a = 0 then em + 1 else em) := by
  obtain ⟨s, hs, hw, hr, rfl, rfl, rfl, hm⟩ := h
  have hne : s.tab.avail ≠ s.tab.num_buffs := by
    rw [(handedOver_reachable hs).num_eq]
    omega
  let s₁ : Sys := { s with
    tab := { s.tab with mutex := 0 }
    writer := .updLocked s.tab.head }
  have h₁ : exec step s [.get .WRITE, .run .WRITE, .run .WRITE, .update .WRITE, .run .WRITE]
      = some s₁ := by
    simp [exec, step, Sys.pc, Sys.setPc, Tab.mustWait, Tab.getBody, Sem.wait, Sem.post, hw, hm,
      hne, s₁]
  have hs₁ := hs.exec _ h₁
  have hh := handedOver_reachable hs₁
  obtain ⟨havail, -, -, hfull, hempty⟩ :=
    updateBody_write hh (lt_of_le_of_ne hh.ring.avail_le hne)
  refine ⟨s₁.finish s.tab.head .WRITE, hs₁.step (e := .run .WRITE) rfl, rfl, hr, havail, hfull,
    hempty, ?_⟩
  show Sem.post (s₁.tab.updateBody .WRITE).mutex = 1
  rw [updateBody_mutex]
  rfl

/-- The reader reads its buffer to the end. -/
theorem read_all {s₀ : Sys} (hs : Reachable step s₀ s) {b : ℕ} (hb : s.reader = .holding b)
    {rest : List UInt8} (hrest : s.got ++ rest = s.tab.buffers b) :
    Reachable step s₀ { s with got := s.tab.buffers b } := by
  induction rest generalizing s with
  | nil =>
    rw [List.append_nil] at hrest
    rw [← hrest]
    exact hs
  | cons v rest ih =>
    have hv : (s.tab.buffers b)[s.got.length]? = some v := by
      rw [← hrest, List.getElem?_append_right le_rfl, Nat.sub_self]
      rfl
    let s₁ : Sys := { s with got := s.got ++ [v] }
    have h₁ : step s .read = some s₁ := by simp [step, hb, hv, s₁]
    exact ih (s := s₁) (hs.step h₁) hb (by rw [List.append_assoc]; exact hrest)

/-- The reader gets a buffer, reads it and gives it back. -/
theorem read_done (h : Rests buffers n (a + 1) fl em) :
    Rests buffers n a (if a = n.val - 1 then fl + 1 else fl) em := by
  obtain ⟨s, hs, hw, hr, ha, rfl, rfl, hm⟩ := h
  let s₁ : Sys := { s with
    tab := { s.tab with mutex := 1 }
    reader := .holding s.tab.tail
    got := [] }
  have h₁ : exec step s [.get .READ, .run .READ, .run .READ] = some s₁ := by
    simp [exec, step, Sys.pc, Sys.setPc, Tab.mustWait, Tab.getBody, Sem.wait, Sem.post, hr, hm,
      ha, s₁]
  have hs₁ := read_all (hs.exec _ h₁) (s := s₁) rfl (List.nil_append _)
  let s₂ : Sys := { s with
    tab := { s.tab with mutex := 0 }
    reader := .updLocked s.tab.tail
    got := s.tab.buffers s.tab.tail }
  have h₂ : exec step { s₁ with got := s.tab.buffers s.tab.tail } [.update .READ, .run .READ]
      = some s₂ := by
    simp [exec, step, Sys.pc, Sys.setPc, Sem.wait, s₁, s₂]
  have hs₂ := hs₁.exec _ h₂
  have hh := handedOver_reachable hs₂
  obtain ⟨havail, -, -, hempty, hfull⟩ := updateBody_read hh
  have hcross : s₂.tab.avail - 1 = s₂.tab.num_buffs - 1 ↔ a = n.val - 1 := by
    rw [hh.num_eq, show s₂.tab.avail = a + 1 from ha, Nat.add_sub_cancel]
  refine ⟨s₂.finish s.tab.tail .READ, hs₂.step (e := .run .READ) rfl, hw, rfl, ?_, ?_, hempty, ?_⟩
  · show (s₂.tab.updateBody .READ).avail = a
    rw [havail, show s₂.tab.avail = a + 1 from ha, Nat.add_sub_cancel]
  · simp only [hcross] at hfull
    exact hfull
  · show Sem.post (s₂.tab.updateBody .READ).mutex = 1
    rw [updateBody_mutex]
    rfl

variable (buffers n)

theorem count_le_idlePosts {es : List Act} (h : exec step (start buffers n) es = some s) (d : RnW) :
    s.tab.sem d ≤ (semGauge d).idlePosts step (start buffers n) es + 1 :=
  (semGauge d).count_le_idlePosts
    (fun _ _ _ hs hstep => ⟨handedOver_step hs hstep, semGauge_move hs hstep d⟩) h
    (handedOver_start buffers n) (by cases d <;> rfl)

theorem exists_tokens (k : ℕ) :
    ∃ s, Reachable step (start buffers n) s ∧ k ≤ s.tab.empty ∧ k ≤ s.tab.full := by
  obtain ⟨a, fl, em, ⟨s, hs, -, -, -, rfl, rfl, -⟩, hfl, hem⟩ :=
    Sem.exists_tokens (R := Rests buffers n) n.pos ⟨_, .init, rfl, rfl, rfl, rfl, rfl, rfl⟩
      (fun _ _ _ => write_done) (fun _ _ _ => read_done) k
  exact ⟨s, hs, hem, hfl⟩

end PingPong

/-! ### Both -/

/-- **Only idle posts pile up.**  On every run of one producer and one consumer, and of one
    writer and one reader, the count of a semaphore is at most one more than the posts that
    have found nobody asleep at it; for every capacity, both counts can be as large as one
    likes. -/
theorem tokens_idle (size : Capacity) :
    (∀ (buffer : ℕ → α) (es : List (Act α Unit Unit)) (s : Sys α Unit Unit),
      exec step (start buffer size) es = some s →
        s.fifo.empty ≤ emptyGauge.idlePosts step (start buffer size) es + 1 ∧
          s.fifo.full ≤ (fullGauge ()).idlePosts step (start buffer size) es + 1) ∧
      (∀ (buffers : ℕ → List UInt8) (es : List PingPong.Act) (s : PingPong.Sys),
        exec PingPong.step (PingPong.start buffers size) es = some s →
          s.tab.empty ≤ (PingPong.semGauge .READ).idlePosts PingPong.step
              (PingPong.start buffers size) es + 1 ∧
            s.tab.full ≤ (PingPong.semGauge .WRITE).idlePosts PingPong.step
              (PingPong.start buffers size) es + 1) ∧
      (∀ (buffer : ℕ → α) (k : ℕ), ∃ s : Sys α Unit Unit,
        Reachable step (start buffer size) s ∧ k ≤ s.fifo.empty ∧ k ≤ s.fifo.full) ∧
      ∀ (buffers : ℕ → List UInt8) (k : ℕ), ∃ s,
        Reachable PingPong.step (PingPong.start buffers size) s ∧
          k ≤ s.tab.empty ∧ k ≤ s.tab.full := by
  refine ⟨?_, ?_, ?_, ?_⟩
  · exact fun buffer es s h => count_le_idlePosts buffer size h
  · exact fun buffers es s h => ⟨PingPong.count_le_idlePosts size buffers h .READ,
      PingPong.count_le_idlePosts size buffers h .WRITE⟩
  · exact fun buffer => exists_tokens buffer size
  · exact fun buffers => PingPong.exists_tokens size buffers

/-- **Two tokens on one slot**, after the second of two puts that are taken at once, and after
    the second of two buffers that are read at once. -/
theorem tokens_exceed :
    (¬ ∀ (size : Capacity) (s : Sys ℕ Unit Unit), Reachable step (start (fun _ => 0) size) s →
      s.fifo.empty ≤ size.val ∧ s.fifo.full ≤ size.val) ∧
      ¬ ∀ (size : Capacity) (s : PingPong.Sys),
        Reachable PingPong.step (PingPong.start (fun _ => [0]) size) s →
          s.tab.empty ≤ size.val ∧ s.tab.full ≤ size.val := by
  let size : Capacity := ⟨1, by decide, by decide⟩
  constructor
  · intro h
    let round : List (Act ℕ Unit Unit) :=
      [.callPut () 7, .put (), .put (), .callGet (), .get (), .get ()]
    have hrun := Reachable.exec (round ++ round)
      (.init : Reachable step (start (fun _ => 0) size : Sys ℕ Unit Unit) _) rfl
    exact absurd (h size _ hrun).1 (by decide)
  · intro h
    let round : List PingPong.Act :=
      [.get .WRITE, .run .WRITE, .run .WRITE, .update .WRITE, .run .WRITE, .run .WRITE,
        .get .READ, .run .READ, .run .READ, .read, .update .READ, .run .READ, .run .READ]
    have hrun := Reachable.exec (round ++ round)
      (.init : Reachable PingPong.step (PingPong.start (fun _ => [0]) size) _) rfl
    exact absurd (h size _ hrun).1 (by decide)

end Wheelson.Ipc
