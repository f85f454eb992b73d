import Mathlib.Logic.Function.Basic
import Wheelson.Lib.Machine
import Wheelson.Lib.Sem

/-!
# Sections under one mutex

Any number of threads run one program, a statement at a time and in any order.  `sem_wait` and
`sem_post` of a mutex bracket the sections of that program.

* `Instr`, `step` — the statements, and the machine in which every statement is a step.
* `Sections` — the mutex is held from `lock` to `unlock` and nowhere else; `Exclusive`, the
  mutual exclusion that follows.
* `Monitor` — the rule of the resource invariant: what holds of the shared memory whenever the
  mutex is free, and what holds of it at each point of a section.
* `atomicStep` — the machine in which a section is one step.  `within_reachable` is the
  reduction: when the statements outside commute with those of the sections (`Movers`), `step`
  reaches what `atomicStep` reaches, with at most one section still to be completed.
-/

namespace Lock

open Machine

/-- What a thread does at a control point. -/
inductive Instr (ι κ σ : Type*)
  /-- `sem_wait` of the mutex. -/
  | lock (next : κ)
  /-- A statement of a section, which sees and sets the shared memory. -/
  | body (f : σ → κ × σ)
  /-- `sem_post` of the mutex. -/
  | unlock (next : κ)
  /-- A statement outside the sections, `none` while it blocks. -/
  | free (f : ι → σ → Option (κ × σ))

variable {T ι κ σ : Type*}

/-- The mutex is held at this statement. -/
def Instr.held : Instr ι κ σ → Bool
  | .body _ | .unlock _ => true
  | .lock _ | .free _ => false

/-- The shared memory, the mutex, and where each thread is. -/
structure State (T κ σ : Type*) where
  mem : σ
  mutex : ℕ
  pc : T → κ

/-- A statement of the thread `a.1`; `a.2` is what the environment chooses for it. -/
def step [DecidableEq T] (prog : T → κ → Instr ι κ σ) (s : State T κ σ) (a : T × ι) :
    Option (State T κ σ) :=
  match prog a.1 (s.pc a.1) with
  | .lock next => (Sem.wait s.mutex).map fun n =>
      { s with mutex := n, pc := Function.update s.pc a.1 next }
  | .body f => some
      { s with mem := (f s.mem).2, pc := Function.update s.pc a.1 (f s.mem).1 }
  | .unlock next => some
      { s with mutex := Sem.post s.mutex, pc := Function.update s.pc a.1 next }
  | .free f => (f a.2 s.mem).map fun r =>
      { s with mem := r.2, pc := Function.update s.pc a.1 r.1 }

/-- The sections are entered by `lock`, left by `unlock`, and not otherwise. -/
structure Sections (prog : T → κ → Instr ι κ σ) : Prop where
  lock : ∀ t k next, prog t k = .lock next → (prog t next).held = true
  body : ∀ t k f m, prog t k = .body f → (prog t (f m).1).held = true
  unlock : ∀ t k next, prog t k = .unlock next → (prog t next).held = false
  free : ∀ t k f i m r, prog t k = .free f → f i m = some r → (prog t r.1).held = false

variable {prog : T → κ → Instr ι κ σ} {s s' c : State T κ σ} {a : T × ι}

/-- The thread is inside a section. -/
def State.inside (prog : T → κ → Instr ι κ σ) (s : State T κ σ) (t : T) : Prop :=
  (prog t (s.pc t)).held = true

/-- The mutex is free and no thread is inside, or it is taken and one thread is. -/
inductive Exclusive (prog : T → κ → Instr ι κ σ) (s : State T κ σ) : Prop
  | free (hmutex : s.mutex = 1) (hout : ∀ t, ¬ s.inside prog t)
  | taken (t : T) (hmutex : s.mutex = 0) (hin : s.inside prog t)
      (hout : ∀ u, u ≠ t → ¬ s.inside prog u)

theorem inside_of_eq {t : T} {x : Instr ι κ σ} (h : prog t (s.pc t) = x) :
    s.inside prog t ↔ x.held = true := by
  rw [State.inside, h]

/-- At most one thread is inside. -/
theorem Exclusive.eq (h : Exclusive prog s) {t u : T} (ht : s.inside prog t)
    (hu : s.inside prog u) : t = u := by
  cases h with
  | free _ hout => exact absurd ht (hout t)
  | taken v _ _ hout =>
    have htv : t = v := not_imp_comm.mp (hout t) (not_not.mpr ht)
    have huv : u = v := not_imp_comm.mp (hout u) (not_not.mpr hu)
    rw [htv, huv]

section step

variable [DecidableEq T]

/-- The steps of the machine, with their results written out. -/
inductive Step (prog : T → κ → Instr ι κ σ) (s : State T κ σ) : T × ι → State T κ σ → Prop
  | lock {t : T} {i : ι} {next : κ} {n : ℕ} (hk : prog t (s.pc t) = .lock next)
      (hn : s.mutex = Sem.post n) :
      Step prog s (t, i) { s with mutex := n, pc := Function.update s.pc t next }
  | body {t : T} {i : ι} {f : σ → κ × σ} (hk : prog t (s.pc t) = .body f) :
      Step prog s (t, i)
        { s with mem := (f s.mem).2, pc := Function.update s.pc t (f s.mem).1 }
  | unlock {t : T} {i : ι} {next : κ} (hk : prog t (s.pc t) = .unlock next) :
      Step prog s (t, i)
        { s with mutex := Sem.post s.mutex, pc := Function.update s.pc t next }
  | free {t : T} {i : ι} {f : ι → σ → Option (κ × σ)} {r : κ × σ}
      (hk : prog t (s.pc t) = .free f) (hr : f i s.mem = some r) :
      Step prog s (t, i) { s with mem := r.2, pc := Function.update s.pc t r.1 }

theorem step_cases (h : step prog s a = some s') : Step prog s a s' := by
  obtain ⟨t, i⟩ := a
  unfold step at h
  split at h
  · rename_i next hk
    obtain ⟨n, hn, rfl⟩ := Option.map_eq_some_iff.mp h
    exact .lock hk (Sem.wait_eq_some.mp hn)
  · rename_i f hk
    cases h
    exact .body hk
  · rename_i next hk
    cases h
    exact .unlock hk
  · rename_i f hk
    obtain ⟨r, hr, rfl⟩ := Option.map_eq_some_iff.mp h
    exact .free hk hr

section inside

variable {m : σ} {n : ℕ} {t u : T} {k : κ}

theorem inside_update_self :
    State.inside prog ⟨m, n, Function.update s.pc t k⟩ t ↔ (prog t k).held = true := by
  simp [State.inside]

theorem inside_update_of_ne (h : u ≠ t) :
    State.inside prog ⟨m, n, Function.update s.pc t k⟩ u ↔ s.inside prog u := by
  simp [State.inside, h]

end inside

/-- **Mutual exclusion.** -/
theorem exclusive_step (hp : Sections prog) (hs : Exclusive prog s)
    (h : step prog s a = some s') : Exclusive prog s' := by
  cases step_cases h with
  | @lock t i next n hk hn =>
    cases hs with
    | free hmutex hout =>
      refine .taken t ?_ (inside_update_self.mpr (hp.lock _ _ _ hk)) fun u hu => ?_
      · rw [hn] at hmutex
        exact Nat.succ_injective hmutex
      · rw [inside_update_of_ne hu]
        exact hout u
    | taken u hmutex _ _ =>
      rw [hn] at hmutex
      exact absurd hmutex (Nat.succ_ne_zero n)
  | @body t i f hk =>
    have ht : s.inside prog t := (inside_of_eq hk).mpr rfl
    cases hs with
    | free _ hout => exact absurd ht (hout t)
    | taken v hmutex hin hout =>
      obtain rfl : t = v := not_imp_comm.mp (hout t) (not_not.mpr ht)
      refine .taken t hmutex (inside_update_self.mpr (hp.body _ _ _ _ hk)) fun u hu => ?_
      rw [inside_update_of_ne hu]
      exact hout u hu
  | @unlock t i next hk =>
    have ht : s.inside prog t := (inside_of_eq hk).mpr rfl
    cases hs with
    | free _ hout => exact absurd ht (hout t)
    | taken v hmutex hin hout =>
      obtain rfl : t = v := not_imp_comm.mp (hout t) (not_not.mpr ht)
      refine .free (congrArg Sem.post hmutex) fun u => ?_
      by_cases hu : u = t
      · subst hu
        rw [inside_update_self, hp.unlock _ _ _ hk]
        exact Bool.false_ne_true
      · rw [inside_update_of_ne hu]
        exact hout u hu
  | @free t i f r hk hr =>
    have ht : ¬ s.inside prog t := by
      rw [inside_of_eq hk]
      exact Bool.false_ne_true
    have hstay : ∀ u, State.inside prog ⟨r.2, s.mutex, Function.update s.pc t r.1⟩ u →
        s.inside prog u := by
      intro u hu
      by_cases hut : u = t
      · subst hut
        rw [inside_update_self, hp.free _ _ _ _ _ _ hk hr] at hu
        exact absurd hu Bool.false_ne_true
      · exact (inside_update_of_ne hut).mp hu
    cases hs with
    | free hmutex hout => exact .free hmutex fun u hu => hout u (hstay u hu)
    | taken v hmutex hin hout =>
      have hv : v ≠ t := fun hv => ht (hv ▸ hin)
      exact .taken v hmutex ((inside_update_of_ne hv).mpr hin)
        fun u hu hin' => hout u hu (hstay u hin')

end step

/-! ### The resource invariant -/

section monitor

/-- `J` holds of the memory while the mutex is free, and `I t k` while the thread `t` is at the
    point `k` of a section. -/
structure Monitor (prog : T → κ → Instr ι κ σ) (J : σ → Prop) (I : T → κ → σ → Prop) :
    Prop where
  lock : ∀ t k next m, prog t k = .lock next → J m → I t next m
  body : ∀ t k f m, prog t k = .body f → I t k m → I t (f m).1 (f m).2
  unlock : ∀ t k next m, prog t k = .unlock next → I t k m → J m
  free : ∀ t k f i m r, prog t k = .free f → f i m = some r → J m → J r.2
  frame : ∀ t k f i m r, prog t k = .free f → f i m = some r →
    ∀ u j, (prog u j).held = true → I u j m → I u j r.2

/-- What `Monitor` keeps. -/
structure Monitored (prog : T → κ → Instr ι κ σ) (J : σ → Prop) (I : T → κ → σ → Prop)
    (s : State T κ σ) : Prop where
  exclusive : Exclusive prog s
  resource : s.mutex = 1 → J s.mem
  point : ∀ t, s.inside prog t → I t (s.pc t) s.mem

variable {J : σ → Prop} {I : T → κ → σ → Prop}

theorem Monitored.init (hmutex : s.mutex = 1) (hout : ∀ t, ¬ s.inside prog t) (hJ : J s.mem) :
    Monitored prog J I s :=
  ⟨.free hmutex hout, fun _ => hJ, fun t ht => absurd ht (hout t)⟩

variable [DecidableEq T]

/-- **Monitor rule.** -/
theorem monitored_step (hp : Sections prog) (hm : Monitor prog J I) (hs : Monitored prog J I s)
    (h : step prog s a = some s') : Monitored prog J I s' := by
  refine ⟨exclusive_step hp hs.exclusive h, ?_, ?_⟩
  · intro hmutex
    cases step_cases h with
    | @lock t i next n hk hn =>
      -- the count was 2
      cases hs.exclusive with
      | free hfree _ =>
        rw [hn, show n = 1 from hmutex] at hfree
        exact absurd hfree (by decide)
      | taken u htaken _ _ =>
        rw [hn] at htaken
        exact absurd htaken (Nat.succ_ne_zero n)
    | @body t i f hk =>
      have ht : s.inside prog t := (inside_of_eq hk).mpr rfl
      cases hs.exclusive with
      | free _ hout => exact absurd ht (hout t)
      | taken u htaken _ _ => exact absurd (htaken.symm.trans hmutex) (by decide)
    | @unlock t i next hk =>
      exact hm.unlock _ _ _ _ hk (hs.point t ((inside_of_eq hk).mpr rfl))
    | @free t i f r hk hr => exact hm.free _ _ _ _ _ _ hk hr (hs.resource hmutex)
  · intro u hu
    cases step_cases h with
    | @lock t i next n hk hn =>
      by_cases hut : u = t
      · subst hut
        show I u (Function.update s.pc u next u) s.mem
        rw [Function.update_self]
        refine hm.lock _ _ _ _ hk (hs.resource ?_)
        cases hs.exclusive with
        | free hfree _ => exact hfree
        | taken v htaken _ _ =>
          rw [hn] at htaken
          exact absurd htaken (Nat.succ_ne_zero n)
      · rw [inside_update_of_ne hut] at hu
        show I u (Function.update s.pc t next u) s.mem
        rw [Function.update_of_ne hut]
        exact hs.point u hu
    | @body t i f hk =>
      have ht : s.inside prog t := (inside_of_eq hk).mpr rfl
      by_cases hut : u = t
      · subst hut
        show I u (Function.update s.pc u _ u) _
        rw [Function.update_self]
        exact hm.body _ _ _ _ hk (hs.point u ht)
      · rw [inside_update_of_ne hut] at hu
        exact absurd (hs.exclusive.eq hu ht) hut
    | @unlock t i next hk =>
      have ht : s.inside prog t := (inside_of_eq hk).mpr rfl
      by_cases hut : u = t
      · subst hut
        rw [inside_update_self, hp.unlock _ _ _ hk] at hu
        exact absurd hu Bool.false_ne_true
      · rw [inside_update_of_ne hut] at hu
        exact absurd (hs.exclusive.eq hu ht) hut
    | @free t i f r hk hr =>
      by_cases hut : u = t
      · subst hut
        rw [inside_update_self, hp.free _ _ _ _ _ _ hk hr] at hu
        exact absurd hu Bool.false_ne_true
      · rw [inside_update_of_ne hut] at hu
        show I u (Function.update s.pc t r.1 u) r.2
        rw [Function.update_of_ne hut]
        exact hm.frame _ _ _ _ _ _ hk hr u _ hu (hs.point u hu)

theorem monitored_reachable (hp : Sections prog) (hm : Monitor prog J I)
    (hmutex : s.mutex = 1) (hout : ∀ t, ¬ s.inside prog t) (hJ : J s.mem)
    (h : Reachable (step prog) s s') : Monitored prog J I s' :=
  h.invariant (Monitored.init hmutex hout hJ) fun _ _ _ hs hstep => monitored_step hp hm hs hstep

end monitor

/-! ### Sections in one step -/

/-- `n` statements of a section, up to its `unlock`. -/
def settle (prog : T → κ → Instr ι κ σ) (t : T) : ℕ → κ × σ → κ × σ
  | 0, r => r
  | n + 1, r =>
    match prog t r.1 with
    | .body f => settle prog t n (f r.2)
    | .unlock next => (next, r.2)
    | .lock _ | .free _ => r

/-- A section has at most as many statements to go as `rank` says. -/
def Ranked (prog : T → κ → Instr ι κ σ) (rank : κ → ℕ) : Prop :=
  ∀ t k f m, prog t k = .body f → rank (f m).1 < rank k

/-- The section that the thread `t` is in at the point `k`, run to its end. -/
def complete (prog : T → κ → Instr ι κ σ) (rank : κ → ℕ) (t : T) (r : κ × σ) : κ × σ :=
  settle prog t (rank r.1 + 1) r

/-- The machine in which a section is one step. -/
def atomicStep [DecidableEq T] (prog : T → κ → Instr ι κ σ) (rank : κ → ℕ) (s : State T κ σ)
    (a : T × ι) : Option (State T κ σ) :=
  match prog a.1 (s.pc a.1) with
  | .lock next => some
      { s with
        mem := (complete prog rank a.1 (next, s.mem)).2
        pc := Function.update s.pc a.1 (complete prog rank a.1 (next, s.mem)).1 }
  | .free f => (f a.2 s.mem).map fun r =>
      { s with mem := r.2, pc := Function.update s.pc a.1 r.1 }
  | .body _ | .unlock _ => none

/-- What a thread does outside comes to the same before and after a statement of a section. -/
def Movers (prog : T → κ → Instr ι κ σ) : Prop :=
  ∀ t k f, prog t k = .body f → ∀ u j g, prog u j = .free g → ∀ i m r, g i m = some r →
    g i (f m).2 = some (r.1, (f r.2).2) ∧ (f r.2).1 = (f m).1

variable {rank : κ → ℕ} {t : T}

/-- More statements than the section has change nothing. -/
theorem settle_of_lt (hrank : Ranked prog rank) {n n' : ℕ} {r : κ × σ} (h : rank r.1 < n)
    (h' : rank r.1 < n') : settle prog t n r = settle prog t n' r := by
  induction n generalizing n' r with
  | zero => exact absurd h (Nat.not_lt_zero _)
  | succ n ih =>
    obtain ⟨n', rfl⟩ := Nat.exists_eq_succ_of_ne_zero (Nat.ne_zero_of_lt h')
    simp only [settle]
    split
    · rename_i f hk
      have hlt : rank (f r.2).1 < rank r.1 := hrank t r.1 f r.2 hk
      exact ih (by omega) (by omega)
    · rfl
    · rfl
    · rfl

theorem complete_unlock {k next : κ} (hk : prog t k = .unlock next) (m : σ) :
    complete prog rank t (k, m) = (next, m) := by
  simp only [complete, settle, hk]

theorem complete_body (hrank : Ranked prog rank) {k : κ} {f : σ → κ × σ}
    (hk : prog t k = .body f) (m : σ) :
    complete prog rank t (k, m) = complete prog rank t (f m) := by
  have hlt := hrank t k f m hk
  unfold complete
  rw [settle]
  simp only [hk]
  exact settle_of_lt hrank hlt (Nat.lt_succ_self _)

/-- The thread leaves the section. -/
theorem complete_held (hp : Sections prog) (hrank : Ranked prog rank) {k : κ} {m : σ}
    (h : (prog t k).held = true) : (prog t (complete prog rank t (k, m)).1).held = false := by
  cases hk : prog t k with
  | lock next | free f =>
    rw [hk] at h
    exact absurd h Bool.false_ne_true
  | unlock next =>
    rw [complete_unlock hk]
    exact hp.unlock _ _ _ hk
  | body f =>
    rw [complete_body hrank hk]
    exact complete_held hp hrank (hp.body _ _ _ _ hk)
  termination_by rank k
  decreasing_by exact hrank t k f m hk

/-- What a thread does outside comes to the same before and after the rest of a section. -/
theorem complete_free (hp : Sections prog) (hrank : Ranked prog rank) (hmove : Movers prog)
    {k : κ} {m : σ} (h : (prog t k).held = true) {u : T} {j : κ} {g : ι → σ → Option (κ × σ)}
    (hg : prog u j = .free g) {i : ι} {r : κ × σ} (hr : g i m = some r) :
    g i (complete prog rank t (k, m)).2 = some (r.1, (complete prog rank t (k, r.2)).2) ∧
      (complete prog rank t (k, r.2)).1 = (complete prog rank t (k, m)).1 := by
  cases hk : prog t k with
  | lock next | free f =>
    rw [hk] at h
    exact absurd h Bool.false_ne_true
  | unlock next =>
    rw [complete_unlock hk, complete_unlock hk]
    exact ⟨hr, rfl⟩
  | body f =>
    obtain ⟨hgf, hfst⟩ := hmove t k f hk u j g hg i m r hr
    have hrest := complete_free hp hrank hmove (hp.body t k f m hk) hg hgf
    rw [complete_body hrank hk, complete_body hrank hk]
    rw [← Prod.mk.eta (p := f r.2), hfst]
    exact hrest
  termination_by rank k
  decreasing_by exact hrank t k f m hk

/-- `c` is the state `s` with the section in progress, if there is one, run to its end. -/
inductive Within [DecidableEq T] (prog : T → κ → Instr ι κ σ) (rank : κ → ℕ) (s : State T κ σ) :
    State T κ σ → Prop
  | quiet (hmutex : s.mutex = 1) (hout : ∀ t, ¬ s.inside prog t) : Within prog rank s s
  | inside (t : T) (hmutex : s.mutex = 0) (hin : s.inside prog t)
      (hout : ∀ u, u ≠ t → ¬ s.inside prog u) :
      Within prog rank s
        { mem := (complete prog rank t (s.pc t, s.mem)).2
          mutex := 1
          pc := Function.update s.pc t (complete prog rank t (s.pc t, s.mem)).1 }

variable [DecidableEq T]

/-- The steps of the coarse machine, with their results written out. -/
inductive AtomicStep (prog : T → κ → Instr ι κ σ) (rank : κ → ℕ) (s : State T κ σ) :
    T × ι → State T κ σ → Prop
  | lock {t : T} {i : ι} {next : κ} (hk : prog t (s.pc t) = .lock next) :
      AtomicStep prog rank s (t, i)
        { s with
          mem := (complete prog rank t (next, s.mem)).2
          pc := Function.update s.pc t (complete prog rank t (next, s.mem)).1 }
  | free {t : T} {i : ι} {f : ι → σ → Option (κ × σ)} {r : κ × σ}
      (hk : prog t (s.pc t) = .free f) (hr : f i s.mem = some r) :
      AtomicStep prog rank s (t, i) { s with mem := r.2, pc := Function.update s.pc t r.1 }

theorem atomicStep_cases (h : atomicStep prog rank s a = some s') :
    AtomicStep prog rank s a s' := by
  obtain ⟨t, i⟩ := a
  unfold atomicStep at h
  split at h
  · rename_i next hk
    cases h
    exact .lock hk
  · rename_i f hk
    obtain ⟨r, hr, rfl⟩ := Option.map_eq_some_iff.mp h
    exact .free hk hr
  · cases h
  · cases h

/-- **Reduction, one step.** A statement of a section is not seen by the coarse machine, its
    `lock` is the whole section, and a statement outside is itself. -/
theorem within_step (hp : Sections prog) (hrank : Ranked prog rank) (hmove : Movers prog)
    (hs : Within prog rank s c) (h : step prog s a = some s') :
    Within prog rank s' c ∨
      ∃ c', atomicStep prog rank c a = some c' ∧ Within prog rank s' c' := by
  cases hs with
  | quiet hmutex hout =>
    cases step_cases h with
    | @lock t i next n hk hn =>
      have hnext := hp.lock _ _ _ hk
      obtain rfl : n = 0 := Nat.succ_injective (hn.symm.trans hmutex)
      have hwithin : Within prog rank _ _ := .inside
        (s := ⟨s.mem, 0, Function.update s.pc t next⟩) t rfl (inside_update_self.mpr hnext)
        fun u hu => mt (inside_update_of_ne hu).mp (hout u)
      simp only [Function.update_self, Function.update_idem] at hwithin
      refine Or.inr ⟨_, ?_, hwithin⟩
      simp only [atomicStep, hk, hmutex]
    | @body t i f hk => exact absurd ((inside_of_eq hk).mpr rfl) (hout t)
    | @unlock t i next hk => exact absurd ((inside_of_eq hk).mpr rfl) (hout t)
    | @free t i f r hk hr =>
      refine Or.inr ⟨_, by simp only [atomicStep, hk, hr, Option.map_some], .quiet hmutex ?_⟩
      intro u
      by_cases hu : u = t
      · subst hu
        rw [inside_update_self, hp.free _ _ _ _ _ _ hk hr]
        exact Bool.false_ne_true
      · rw [inside_update_of_ne hu]
        exact hout u
  | inside v hmutex hin hout =>
    have hout' : ∀ {t}, s.inside prog t → t = v := fun {t} ht =>
      not_imp_comm.mp (hout t) (not_not.mpr ht)
    cases step_cases h with
    | @lock t i next n hk hn => exact absurd (hn.symm.trans hmutex) (Nat.succ_ne_zero n)
    | @body t i f hk =>
      obtain rfl := hout' ((inside_of_eq hk).mpr rfl)
      have hwithin : Within prog rank _ _ := .inside
        (s := ⟨(f s.mem).2, s.mutex, Function.update s.pc t (f s.mem).1⟩) t hmutex
        (inside_update_self.mpr (hp.body _ _ _ _ hk))
        fun u hu => mt (inside_update_of_ne hu).mp (hout u hu)
      simp only [Function.update_self, Function.update_idem] at hwithin
      rw [complete_body hrank hk]
      exact Or.inl hwithin
    | @unlock t i next hk =>
      obtain rfl := hout' ((inside_of_eq hk).mpr rfl)
      rw [complete_unlock hk]
      rw [hmutex]
      refine Or.inl (.quiet rfl fun u => ?_)
      by_cases hu : u = t
      · subst hu
        rw [inside_update_self, hp.unlock _ _ _ hk]
        exact Bool.false_ne_true
      · rw [inside_update_of_ne hu]
        exact hout u hu
    | @free t i f r hk hr =>
      have ht : t ≠ v := by
        rintro rfl
        rw [inside_of_eq hk] at hin
        exact Bool.false_ne_true hin
      obtain ⟨hfree, hpc⟩ := complete_free hp hrank hmove hin hk hr
      refine Or.inr ⟨⟨(complete prog rank v (s.pc v, r.2)).2, 1, Function.update
        (Function.update s.pc v (complete prog rank v (s.pc v, s.mem)).1) t r.1⟩, ?_, ?_⟩
      · simp only [atomicStep, Function.update_of_ne ht, hk, hfree, Option.map_some]
      · have hwithin : Within prog rank _ _ := .inside
          (s := ⟨r.2, s.mutex, Function.update s.pc t r.1⟩) v hmutex
          ((inside_update_of_ne ht.symm).mpr hin) fun u hu hu' => ?_
        · simp only [Function.update_of_ne ht.symm, hpc] at hwithin
          rw [Function.update_comm ht.symm]
          exact hwithin
        · by_cases hut : u = t
          · subst hut
            rw [inside_update_self, hp.free _ _ _ _ _ _ hk hr] at hu'
            exact Bool.false_ne_true hu'
          · exact hout u hu ((inside_update_of_ne hut).mp hu')

/-- **Reduction.** Every state reached is one that is reached with each section as one step, but
    for the section in progress still to be completed. -/
theorem within_reachable (hp : Sections prog) (hrank : Ranked prog rank) (hmove : Movers prog)
    (hmutex : s.mutex = 1) (hout : ∀ t, ¬ s.inside prog t) (h : Reachable (step prog) s s') :
    ∃ c, Reachable (atomicStep prog rank) s c ∧ Within prog rank s' c := by
  induction h with
  | init => exact ⟨s, .init, .quiet hmutex hout⟩
  | step _ he ih =>
    obtain ⟨c, hc, hw⟩ := ih
    obtain hw | ⟨d, hd, hw⟩ := within_step hp hrank hmove hw he
    · exact ⟨c, hc, hw⟩
    · exact ⟨d, hc.step hd, hw⟩

end Lock
