import Wheelson.Cam.Video

namespace Wheelson.Cam.Video

/-!
# The video path goes on

* `Mutexed` — at most one of the two threads is in a section of the table.
* `tcp_drains` — `camTCP` by itself sends all that is committed, and goes to sleep.
* `op_done` — so every operation of `camThread` on the table comes to its end.
* `video_delivers` — from every reachable state the present capture can be read to its end and
  everything be sent, unless it writes beyond a buffer.
-/

open Machine Scan Ipc

variable {σ : Type} {chip : Chip σ} {size : ℕ} {n : Capacity} {s s' : Sys σ}
  {p p' : PingPong.Sys}

/-! ### The mutex -/

/-- The thread is in a section. -/
def locked : PingPong.Pc → ℕ
  | .getLocked | .updLocked _ => 1
  | _ => 0

def Mutexed (p : PingPong.Sys) : Prop := p.tab.mutex + locked p.writer + locked p.reader = 1

theorem mutexed_start (buffers : ℕ → List UInt8) (n : Capacity) :
    Mutexed (PingPong.start buffers n) := rfl

theorem mutexed_step (hp : Mutexed p) {a : PingPong.Act} (h : PingPong.step p a = some p') :
    Mutexed p' := by
  unfold Mutexed at hp ⊢
  cases PingPong.step_cases h with
  | @get d hpc | @update d b hpc =>
    cases d <;> simp_all [PingPong.Sys.pc, PingPong.Sys.setPc, locked]
  | @getLock d m hpc hm | @updLock d b m hpc hm =>
    rw [Sem.wait_eq_some.mp hm, Sem.post] at hp
    cases d
    · simp_all [PingPong.Sys.pc, PingPong.Sys.setPc, locked]
      omega
    · simp_all [PingPong.Sys.pc, PingPong.Sys.setPc, locked]
  | @getSleep d hpc | @getBuffer d hpc =>
    cases d <;> simp_all [PingPong.Sys.pc, PingPong.Sys.setPc, locked, Sem.post]
  | @wake d m hpc =>
    cases d <;> simp_all [PingPong.Sys.pc, PingPong.Sys.setPc, locked, PingPong.Tab.setSem]
  | @finish d b hpc =>
    cases d <;> simp_all [PingPong.Sys.pc, PingPong.Sys.finish, locked, Sem.post]
  | write | read => exact hp

/-- What holds of the table in every reachable state. -/
structure Sound (size : ℕ) (n : Capacity) (p : PingPong.Sys) : Prop where
  handed : p.HandedOver n
  length : ∀ k, (p.tab.buffers k).length = size
  mutexed : Mutexed p
  wakes : p.NoLostWakeup

/-- The converse of `PingPong.step_cases`. -/
theorem step_of_cases {a : PingPong.Act} (h : PingPong.Step p a p') :
    PingPong.step p a = some p' := by
  cases h with
  | get hpc => exact if_pos hpc
  | getLock hpc hm | wake hpc hm | updLock hpc hm =>
    simp only [PingPong.step, hpc, hm, Option.map_some]
  | getSleep hpc hwait => simp only [PingPong.step, hpc, if_pos hwait]
  | getBuffer hpc hfree => simp only [PingPong.step, hpc, if_neg hfree]
  | finish hpc => simp only [PingPong.step, hpc]
  | write hb hi => simp only [PingPong.step, hb, if_pos hi]
  | read hb hv => simp only [PingPong.step, hb, hv, Option.map_some]
  | update hpc hdone => simp only [PingPong.step, hpc, if_neg hdone]

/-! ### `camTCP` by itself -/

/-- The statements that `camTCP` can do without `camThread`, at most. -/
def tcpLeft (size : ℕ) (p : PingPong.Sys) : ℕ :=
  4 * p.tab.empty +
    match p.reader with
    | .outside => p.tab.avail * (size + 20) + 4
    | .getLock => p.tab.avail * (size + 20) + 3
    | .getLocked => p.tab.avail * (size + 20) + 2
    | .asleep => p.tab.avail * (size + 20) + 1
    | .holding _ => (p.tab.avail - 1) * (size + 20) + (size - p.got.length) + 10
    | .updLock _ => (p.tab.avail - 1) * (size + 20) + 9
    | .updLocked _ => (p.tab.avail - 1) * (size + 20) + 8

/-- It goes on unless it sleeps or `camThread` has the mutex. -/
theorem tcp_enabled (hp : Sound size n p) (hw : locked p.writer = 0) (hr : ¬ p.Asleep .READ) :
    ∃ p', PingPong.step p (tcpAct p) = some p' ∧ tcpLeft size p' < tcpLeft size p := by
  have hmutex := hp.mutexed
  rw [Mutexed, hw] at hmutex
  cases hpc : p.reader with
  | outside =>
    have hact : tcpAct p = .get .READ := by simp [tcpAct, hpc]
    rw [hact]
    refine ⟨_, step_of_cases (.get hpc), ?_⟩
    simp [tcpLeft, hpc, PingPong.Sys.setPc]
  | getLock =>
    have hact : tcpAct p = .run .READ := by simp [tcpAct, hpc]
    rw [hpc] at hmutex
    rw [hact]
    refine ⟨_, step_of_cases (.getLock hpc (Sem.wait_eq_some.mpr hmutex)), ?_⟩
    simp [tcpLeft, hpc, PingPong.Sys.setPc]
  | getLocked =>
    have hact : tcpAct p = .run .READ := by simp [tcpAct, hpc]
    rw [hact]
    by_cases hwait : p.tab.mustWait .READ
    · refine ⟨_, step_of_cases (.getSleep hpc hwait), ?_⟩
      simp [tcpLeft, hpc, PingPong.Sys.setPc]
    · refine ⟨_, step_of_cases (.getBuffer hpc hwait), ?_⟩
      -- the buffer that is held counts less than one that is not
      obtain ⟨k, hk⟩ : ∃ k, p.tab.avail = k + 1 := Nat.exists_eq_succ_of_ne_zero hwait
      simp only [tcpLeft, hpc, hk, PingPong.Sys.setPc, Nat.succ_mul, Nat.add_sub_cancel]
      omega
  | asleep =>
    have hact : tcpAct p = .run .READ := by simp [tcpAct, hpc]
    rw [hact]
    obtain ⟨k, hk⟩ : ∃ k, p.tab.empty = Sem.post k :=
      Nat.exists_eq_succ_of_ne_zero fun hzero => hr ⟨hpc, hzero⟩
    refine ⟨_, step_of_cases (.wake hpc (Sem.wait_eq_some.mpr hk)), ?_⟩
    simp only [tcpLeft, hpc, hk, PingPong.Sys.setPc, PingPong.Tab.setSem, Sem.post]
    omega
  | holding b =>
    obtain ⟨-, -, hgot⟩ := hp.handed.reader b (by rw [hpc]; rfl)
    have hlen := hp.length b
    by_cases hall : p.got.length = (p.tab.buffers b).length
    · have hact : tcpAct p = .update .READ := by simp [tcpAct, hpc, hall]
      rw [hact]
      refine ⟨_, step_of_cases (.update hpc (fun h => h.2 hall)), ?_⟩
      simp only [tcpLeft, hpc, PingPong.Sys.setPc]
      omega
    · have hact : tcpAct p = .read := by simp [tcpAct, hpc, hall]
      have hlt : p.got.length < (p.tab.buffers b).length := lt_of_le_of_ne hgot.length_le hall
      rw [hact]
      refine ⟨_, step_of_cases (.read hpc (List.getElem?_eq_getElem hlt)), ?_⟩
      simp only [tcpLeft, hpc, List.length_append, List.length_singleton]
      omega
  | updLock b =>
    have hact : tcpAct p = .run .READ := by simp [tcpAct, hpc]
    rw [hpc] at hmutex
    rw [hact]
    refine ⟨_, step_of_cases (.updLock hpc (Sem.wait_eq_some.mpr hmutex)), ?_⟩
    simp [tcpLeft, hpc, PingPong.Sys.setPc]
  | updLocked b =>
    have hact : tcpAct p = .run .READ := by simp [tcpAct, hpc]
    rw [hact]
    refine ⟨_, step_of_cases (.finish hpc), ?_⟩
    obtain ⟨havail, -, -, hempty, -⟩ := PingPong.updateBody_read hp.handed
    simp [tcpLeft, hpc, PingPong.Sys.finish, havail, hempty]

/-! ### `camThread` at an empty table -/

/-- The statements of an operation that `camThread` can do by itself, at most. -/
def camLeft : PingPong.Pc → ℕ
  | .outside => 4
  | .asleep | .holding _ => 3
  | .getLock | .updLock _ => 2
  | .getLocked | .updLocked _ => 1

/-- `camThread` does not wait at an empty table. -/
theorem cam_enabled (hp : Sound size n p) {op : Op} (hop : op = .get ∨ op = .update)
    (hready : op.Ready p.writer) (hr : p.reader = .asleep) (hempty : p.tab.avail = 0) :
    ∃ p', PingPong.step p (op.act p.writer) = some p' ∧
      (¬ op.over p'.writer → p'.reader = .asleep ∧ p'.tab.avail = 0 ∧
        camLeft p'.writer < camLeft p.writer) := by
  have hmutex := hp.mutexed
  rw [Mutexed, hr] at hmutex
  have hpos := hp.handed.ring.size_pos
  have hfree : ¬ p.tab.mustWait .WRITE := by
    show ¬ p.tab.avail = p.tab.num_buffs
    omega
  rcases hop with rfl | rfl
  · cases hpc : p.writer with
    | outside =>
      exact ⟨_, step_of_cases (.get hpc),
        fun _ => ⟨hr, hempty, by simp [camLeft, PingPong.Sys.setPc]⟩⟩
    | getLock =>
      rw [hpc] at hmutex
      exact ⟨_, step_of_cases (.getLock hpc (Sem.wait_eq_some.mpr hmutex)),
        fun _ => ⟨hr, hempty, by simp [camLeft, PingPong.Sys.setPc]⟩⟩
    | getLocked => exact ⟨_, step_of_cases (.getBuffer hpc hfree), fun hover => absurd rfl hover⟩
    | asleep =>
      -- no wake-up has been lost
      have htoken := (hp.wakes .WRITE hpc).resolve_left hfree
      have hfull : p.tab.full ≠ 0 := htoken.ne'
      obtain ⟨k, hk⟩ : ∃ k, p.tab.full = Sem.post k := Nat.exists_eq_succ_of_ne_zero hfull
      exact ⟨_, step_of_cases (.wake hpc (Sem.wait_eq_some.mpr hk)),
        fun _ => ⟨hr, hempty, by simp [camLeft, PingPong.Sys.setPc]⟩⟩
    | holding | updLock | updLocked =>
      rw [hpc] at hready
      cases hready
  · cases hpc : p.writer with
    | outside | getLock | getLocked | asleep =>
      rw [hpc] at hready
      cases hready
    | holding b =>
      exact ⟨_, step_of_cases (.update hpc fun h => by cases h.1),
        fun _ => ⟨hr, hempty, by simp [camLeft, PingPong.Sys.setPc]⟩⟩
    | updLock b =>
      rw [hpc] at hmutex
      exact ⟨_, step_of_cases (.updLock hpc (Sem.wait_eq_some.mpr hmutex)),
        fun _ => ⟨hr, hempty, by simp [camLeft, PingPong.Sys.setPc]⟩⟩
    | updLocked b => exact ⟨_, step_of_cases (.finish hpc), fun hover => absurd rfl hover⟩

/-! ### Both threads -/

/-- A step is one of the table, or leaves it as it is. -/
theorem table_of_step {a : Act} (h : step chip size s a = some s') :
    s'.table = s.table ∨ ∃ e, PingPong.step s.table e = some s'.table := by
  have htable {op : Op} {pc : Pc} (h : tableStep s op pc = some s') :
      s'.table = s.table ∨ ∃ e, PingPong.step s.table e = some s'.table := by
    obtain ⟨table, hp, rfl⟩ := Option.map_eq_some_iff.mp h
    exact .inr ⟨_, hp⟩
  cases a with
  | tcp =>
    obtain ⟨table, hp, rfl⟩ := Option.map_eq_some_iff.mp h
    exact .inr ⟨_, hp⟩
  | cam =>
    simp only [step, camStep] at h
    split at h
    case h_6 =>
      split at h <;> cases h <;> exact .inl rfl
    case h_8 | h_9 => exact htable h
    all_goals
      cases h
      exact .inl rfl

theorem table_reachable {c : σ} (h : Reachable (step chip size) (boot size c n) s) :
    Reachable PingPong.step (PingPong.start (fun _ => List.replicate size 0) n) s.table := by
  induction h with
  | init => exact .init
  | step _ h ih =>
    rcases table_of_step h with hsame | ⟨e, he⟩
    · rw [hsame]
      exact ih
    · exact ih.step he

theorem sound_reachable (hchip : chip.Documented) (hsize : 0 < size) {c : σ}
    (h : Reachable (step chip size) (boot size c n) s) : Sound size n s.table := by
  obtain ⟨evs, hs⟩ := linked_reachable hchip hsize h
  have htable := table_reachable h
  refine ⟨hs.handed, hs.length, ?_, PingPong.noLostWakeup_reachable htable⟩
  exact htable.invariant (mutexed_start _ n) fun _ _ _ hp h => mutexed_step hp h

/-- A sleeping reader has an empty table. -/
theorem Sound.avail_zero (hp : Sound size n p) (hr : p.Asleep .READ) : p.tab.avail = 0 := by
  rcases hp.wakes .READ hr.1 with hzero | htoken
  · exact hzero
  · have hnone := hr.2
    omega

/-- A sleeping reader has sent everything. -/
theorem Sound.sent_all (hp : Sound size n p) (hr : p.Asleep .READ) :
    sent p = p.commits.flatten := by
  have hpc : p.reader = .asleep := hr.1
  have hqueue : p.tab.queue = [] := by
    rw [PingPong.Tab.queue, hp.avail_zero hr]
    rfl
  rw [hp.handed.ledger, hqueue, List.append_nil, sent, hpc]
  exact List.append_nil _

section Progress

variable (hchip : chip.Documented) (hsize : 0 < size) {c : σ}

include hchip hsize

/-- **`camTCP` sends what is committed.** -/
theorem tcp_drains (h : Reachable (step chip size) (boot size c n) s)
    (hw : locked s.table.writer = 0) :
    CanReach (step chip size) s fun t => ∃ table, t = { s with table := table } ∧
      table.Asleep .READ ∧ table.writer = s.table.writer := by
  induction hk : tcpLeft size s.table using Nat.strong_induction_on generalizing s with
  | h k ih =>
    have hp := sound_reachable hchip hsize h
    by_cases hr : s.table.Asleep .READ
    · exact .refl ⟨s.table, rfl, hr, rfl⟩
    · obtain ⟨p, hstep, hlt⟩ := tcp_enabled hp hw hr
      obtain ⟨-, hwriter⟩ := tcp_step hp.handed hstep
      have htcp : step chip size s .tcp = some { s with table := p } := by
        simp only [step, hstep, Option.map_some]
      refine .cons htcp ?_
      obtain ⟨es, t, hes, table, rfl, hasleep, htable⟩ :=
        ih _ (hk ▸ hlt) (h.step htcp) (by rw [hwriter]; exact hw) rfl
      exact ⟨es, _, hes, table, rfl, hasleep, htable.trans hwriter⟩

end Progress

section Operation

variable {c : σ} {op : Op} {pc pc' : Pc}

/-- At `pc` the threads are in the operation `op` on the table, behind which stands `pc'`. -/
structure Doing (chip : Chip σ) (size : ℕ) (op : Op) (pc pc' : Pc) : Prop where
  table : op = .get ∨ op = .update
  step : ∀ s : Sys σ, s.pc = pc → camStep chip size s = tableStep s op pc'

/-- The operation is over, and nothing else has been done. -/
def Past (s : Sys σ) (pc' : Pc) (t : Sys σ) : Prop :=
  ∃ table, t = { s with table := table, pc := pc' }

variable (hdo : Doing chip size op pc pc')

include hdo

theorem op_step (hpc : s.pc = pc) (hstep : PingPong.step s.table (op.act s.table.writer) = some p) :
    step chip size s .cam
      = some { s with table := p, pc := if op.over p.writer then pc' else s.pc } := by
  simp only [step, hdo.step s hpc, tableStep, hstep, Option.map_some]

variable (hchip : chip.Documented) (hsize : 0 < size)

include hchip hsize

/-- While `camTCP` sleeps. -/
theorem op_alone (h : Reachable (step chip size) (boot size c n) s) (hpc : s.pc = pc)
    (hready : op.Ready s.table.writer) (hr : s.table.reader = .asleep)
    (hempty : s.table.tab.avail = 0) : CanReach (step chip size) s (Past s pc') := by
  induction hk : camLeft s.table.writer using Nat.strong_induction_on generalizing s with
  | h k ih =>
    have hp := sound_reachable hchip hsize h
    obtain ⟨p, hstep, hgo⟩ := cam_enabled hp hdo.table hready hr hempty
    have htable := table_step hp.handed hp.length hready hstep
    have hcam := op_step hdo hpc hstep
    by_cases hover : op.over p.writer = true
    · rw [if_pos hover] at hcam
      exact .cons hcam (.refl ⟨p, rfl⟩)
    · rw [if_neg hover] at hcam htable
      obtain ⟨hr', hempty', hlt⟩ := hgo hover
      exact .cons hcam (ih _ (hk ▸ hlt) (h.step hcam) hpc htable.1 hr' hempty' rfl)

/-- While nobody is in a section. -/
theorem op_free (h : Reachable (step chip size) (boot size c n) s) (hpc : s.pc = pc)
    (hready : op.Ready s.table.writer) (hw : locked s.table.writer = 0) :
    CanReach (step chip size) s (Past s pc') := by
  refine h.canReach_trans (tcp_drains hchip hsize h hw) ?_
  rintro t ht ⟨table, rfl, hasleep, hwriter⟩
  have hempty := (sound_reachable hchip hsize ht).avail_zero hasleep
  exact op_alone hdo hchip hsize ht hpc (by rw [hwriter]; exact hready) hasleep.1 hempty

/-- **Every operation on the table comes to its end.** -/
theorem op_done (h : Reachable (step chip size) (boot size c n) s) (hpc : s.pc = pc)
    (hready : op.Ready s.table.writer) : CanReach (step chip size) s (Past s pc') := by
  by_cases hw : locked s.table.writer = 0
  · exact op_free hdo hchip hsize h hpc hready hw
  · -- a section comes to its end
    have hp := sound_reachable hchip hsize h
    obtain ⟨p, hstep, hw'⟩ : ∃ p, PingPong.step s.table (op.act s.table.writer) = some p ∧
        (¬ op.over p.writer → locked p.writer = 0) := by
      rcases hdo.table with rfl | rfl
      · cases hwriter : s.table.writer with
        | getLocked =>
          by_cases hwait : s.table.tab.mustWait .WRITE
          · exact ⟨_, step_of_cases (.getSleep hwriter hwait), fun _ => rfl⟩
          · exact ⟨_, step_of_cases (.getBuffer hwriter hwait), fun hover => absurd rfl hover⟩
        | outside | getLock | asleep | holding | updLock =>
          rw [hwriter] at hw
          exact absurd rfl hw
        | updLocked =>
          rw [hwriter] at hready
          cases hready
      · cases hwriter : s.table.writer with
        | updLocked b => exact ⟨_, step_of_cases (.finish hwriter), fun hover => absurd rfl hover⟩
        | outside | getLock | asleep | holding | updLock =>
          rw [hwriter] at hw
          exact absurd rfl hw
        | getLocked =>
          rw [hwriter] at hready
          cases hready
    have hcam := op_step hdo hpc hstep
    have htable := table_step hp.handed hp.length hready hstep
    by_cases hover : op.over p.writer = true
    · rw [if_pos hover] at hcam
      exact .cons hcam (.refl ⟨p, rfl⟩)
    · rw [if_neg hover] at hcam htable
      exact .cons hcam (op_free hdo hchip hsize (h.step hcam) hpc htable.1 (hw' hover))

end Operation

/-! ### The present capture -/

/-- What is left of the present capture. -/
def work (s : Sys σ) : ℕ :=
  match s.pc with
  | .turn ops => s.locals.len * 5 + ops.length + 2
  | .flush => 1
  | _ => 0

theorem length_turn {l : Locals} {b : UInt8} : (turn size l b).2.length ≤ 4 := by
  by_cases hstop : b = 0xD9 ∧ l.temp = 0xFF
  · simp [turn, hstop]
  · simp only [turn, if_neg hstop]
    split_ifs <;> simp

/-- **`camThread` goes on with its capture.** -/
theorem cam_works (hchip : chip.Documented) (hsize : 0 < size) {c : σ}
    (h : Reachable (step chip size) (boot size c n) s) (hin : Contained size n s.captures)
    (hpc : s.pc.between = false) :
    CanReach (step chip size) s fun t => t.captures = s.captures ∧ work t < work s := by
  obtain ⟨evs, hs⟩ := linked_reachable hchip hsize h
  have hplaced := hs.placed
  have htable (op : Op) (pc : Pc) (hdo : Doing chip size op s.pc pc)
      (hready : op.Ready s.table.writer) (hlt : ∀ t, Past s pc t → work t < work s) :
      CanReach (step chip size) s fun t => t.captures = s.captures ∧ work t < work s := by
    obtain ⟨es, t, hes, table, rfl⟩ := op_done hdo hchip hsize h rfl hready
    exact ⟨es, _, hes, rfl, hlt _ ⟨table, rfl⟩⟩
  cases hspc : s.pc with
  | init | clear | start | poll | capture =>
    rw [hspc] at hpc
    cases hpc
  | flush =>
    rw [hspc] at hplaced
    refine htable .update .clear ⟨.inr rfl, fun t ht => ?_⟩ hplaced ?_
    · rw [hspc] at ht
      simp only [camStep, ht]
    · rintro t ⟨table, rfl⟩
      simp [work, hspc]
  | turn ops =>
    rw [hspc] at hplaced
    cases ops with
    | nil =>
      by_cases hlen : s.locals.len = 0
      · have hcam : step chip size s .cam = some { s with pc := .flush } := by
          simp only [step, camStep, hspc, if_pos hlen]
        exact .cons hcam (.refl ⟨rfl, by simp [work, hspc]⟩)
      · have hcam : step chip size s .cam = some { s with
            bus := (acamReadFifo chip s.bus).2
            locals := (turn size s.locals (acamReadFifo chip s.bus).1).1
            pc := .turn (turn size s.locals (acamReadFifo chip s.bus).1).2 } := by
          simp only [step, camStep, hspc, if_neg hlen]
        refine .cons hcam (.refl ⟨rfl, ?_⟩)
        have hturn : (turn size s.locals (acamReadFifo chip s.bus).1).2.length ≤ 4 := length_turn
        simp only [work, hspc, turn_len, List.length_nil]
        omega
    | cons op ops =>
      have hless {t : Sys σ} (hpc : t.pc = .turn ops) (hlocals : t.locals = s.locals) :
          work t < work s := by
        simp [work, hspc, hpc, hlocals]
      have hpast (t : Sys σ) (ht : Past s (.turn ops) t) : work t < work s := by
        obtain ⟨table, rfl⟩ := ht
        exact hless rfl rfl
      obtain ⟨hready, -, -⟩ := hplaced
      cases op with
      | get =>
        refine htable .get (.turn ops) ⟨.inl rfl, fun t ht => ?_⟩ hready hpast
        rw [hspc] at ht
        simp only [camStep, ht]
      | update =>
        refine htable .update (.turn ops) ⟨.inr rfl, fun t ht => ?_⟩ hready hpast
        rw [hspc] at ht
        simp only [camStep, ht]
      | burst =>
        have hcam : step chip size s .cam =
            some { s with bus := acamSetFifoBurst chip s.bus, pc := .turn ops } := by
          simp only [step, camStep, hspc]
        exact .cons hcam (.refl ⟨rfl, hless rfl rfl⟩)
      | store i v =>
        -- the store is one of the writer's
        obtain ⟨b, hb⟩ := hready
        have hlt : i < (s.table.tab.buffers b).length := by
          rw [hs.length]
          exact hs.store_lt hin _ _ _ hspc
        have hcam : step chip size s .cam = some { s with
            table := { s.table with tab := { s.table.tab with
              buffers := Function.update s.table.tab.buffers b
                ((s.table.tab.buffers b).set i v) } }
            pc := .turn ops } := by
          simp only [step, camStep, hspc, tableStep, Op.act, step_of_cases (.write hb hlt),
            Option.map_some, Op.over, if_true]
        exact .cons hcam (.refl ⟨rfl, hless rfl rfl⟩)

/-- **The video path never stops for good.**  From every reachable state, however the threads have
    been interleaved, the two can go on until the present capture has been read and every buffer
    has been sent, unless a capture writes beyond a buffer. -/
theorem video_delivers (hchip : chip.Documented) (hsize : 0 < size) (c : σ) (num_buffs : Capacity)
    (h : Reachable (step chip size) (boot size c num_buffs) s)
    (hin : Contained size num_buffs s.captures) :
    CanReach (step chip size) s fun t => t.captures = s.captures ∧ t.pc.between ∧
      sent t.table = t.table.commits.flatten := by
  induction hk : work s using Nat.strong_induction_on generalizing s with
  | h k ih =>
    cases hpc : s.pc.between with
    | false =>
      refine h.canReach_trans (cam_works hchip hsize h hin hpc) ?_
      rintro t ht ⟨hcaptures, hlt⟩
      rw [← hcaptures]
      exact ih _ (hk ▸ hlt) ht (by rw [hcaptures]; exact hin) rfl
    | true =>
      obtain ⟨evs, hs⟩ := linked_reachable hchip hsize h
      have hout := (placed_between hpc _).mp hs.placed
      refine h.canReach_trans (tcp_drains hchip hsize h (by rw [hout]; rfl)) ?_
      rintro t ht ⟨table, rfl, hasleep, -⟩
      exact .refl ⟨rfl, hpc, (sound_reachable hchip hsize ht).sent_all hasleep⟩

/-- The second buffer is being filled, and nothing has been sent. -/
def filling : Option (Sys Sim) :=
  exec (step sim 4) (boot 4 ⟨.idle, [[0xFF, 0xD8, 1, 2, 3, 0xFF, 0xD9]]⟩ NUM_CAM_BUFFERS)
    (List.replicate 24 .cam)

theorem video_delivers_filling : ∃ s : Sys Sim, s.pc.between = false ∧ sent s.table = [] ∧
    CanReach (step sim 4) s fun t => t.captures = s.captures ∧ t.pc.between ∧
      sent t.table = t.table.commits.flatten := by
  have hrun : filling = some (filling.get (by decide +kernel)) := (Option.some_get _).symm
  have hcaptures : (filling.get (by decide +kernel)).captures =
      [[0xFF, 0xD8, 1, 2, 3, 0xFF, 0xD9]] := by decide +kernel
  have hin : Contained 4 NUM_CAM_BUFFERS (filling.get (by decide +kernel)).captures := by
    rw [hcaptures]
    exact ⟨_, rfl⟩
  exact ⟨_, by decide +kernel, by decide +kernel, video_delivers sim_documented (by decide) _ _
    (Reachable.exec _ .init hrun) hin⟩

end Wheelson.Cam.Video
