import Mathlib.Data.List.Basic

/-!
# Machines driven by events

Two shapes of transition system and the induction rules used over them:

* a **total** machine `step : σ → ε → σ`, run by folding a list of events
  (`run`), with `run_invariant`, `run_invariant_of` (the events restricted), `Along`, that
  every state of one run satisfies a predicate, and `emitted`, what its steps show;
* a **partial** machine `step : σ → ε → Option σ`, where `none` is a step that is
  not enabled, with `Reachable` and its invariant rule `Reachable.invariant`,
  `exec`, the run of a given list of events, with `exec_invariant_of`, the budget rule
  `exec_countP_le` and the balance rule `exec_balance`, and `CanReach`, that some run reaches a set;
  a total machine is one of them (`total`).  `restrict` disables some of its events, `record`
  keeps a list of what its steps show;
* a **history**, the list of the events so far: `exec_history` is the run rule for states
  related to it, and `Since` says that one of them sets something that none after it clears.
-/

namespace Machine

variable {σ ε : Type*}

/-! ### Total machines -/

/-- The state reached from `s` on the events `es`. -/
def run (step : σ → ε → σ) (s : σ) (es : List ε) : σ := es.foldl step s

@[simp] theorem run_nil (step : σ → ε → σ) (s : σ) : run step s [] = s := rfl

@[simp] theorem run_cons (step : σ → ε → σ) (s : σ) (e : ε) (es : List ε) :
    run step s (e :: es) = run step (step s e) es := rfl

theorem run_append (step : σ → ε → σ) (s : σ) (es fs : List ε) :
    run step s (es ++ fs) = run step (run step s es) fs := by
  simp only [run, List.foldl_append]

theorem run_concat (step : σ → ε → σ) (s : σ) (es : List ε) (e : ε) :
    run step s (es ++ [e]) = step (run step s es) e := by
  rw [run_append, run_cons, run_nil]

/-- **Counted loop.** A loop whose state after `i` rounds is `f i`. -/
theorem run_replicate {step : σ → ε → σ} {e : ε} (f : ℕ → σ) {n : ℕ}
    (h : ∀ i < n, step (f i) e = f (i + 1)) :
    run step (f 0) (List.replicate n e) = f n := by
  induction n with
  | zero => rfl
  | succ n ih =>
    rw [List.replicate_succ', run_concat, ih fun i hi => h i (Nat.lt_succ_of_lt hi),
      h n (Nat.lt_succ_self n)]

/-- **Run rule, restricted.** What every step on an event satisfying `A` preserves, a
    run on such events preserves. -/
theorem run_invariant_of {step : σ → ε → σ} {I : σ → Prop} {A : ε → Prop}
    (hstep : ∀ s e, A e → I s → I (step s e)) :
    ∀ (es : List ε) (s : σ), (∀ e ∈ es, A e) → I s → I (run step s es) := by
  intro es
  induction es with
  | nil => intro s _ hs; exact hs
  | cons e es ih =>
    intro s hA hs
    rw [run_cons]
    exact ih _ (fun f hf => hA f (List.mem_cons_of_mem _ hf))
      (hstep s e (hA e List.mem_cons_self) hs)

/-- **Run rule.** What every step preserves, every run preserves. -/
theorem run_invariant {step : σ → ε → σ} {I : σ → Prop}
    (hstep : ∀ s e, I s → I (step s e)) (es : List ε) (s : σ) (hs : I s) :
    I (run step s es) :=
  run_invariant_of (A := fun _ => True) (fun s e _ h => hstep s e h) es s (fun _ _ => trivial) hs

/-! ### The states of one run -/

/-- `I` holds of every state of the run on the events `es`, the first and the last included. -/
def Along (step : σ → ε → σ) (I : σ → Prop) : σ → List ε → Prop
  | s, [] => I s
  | s, e :: es => I s ∧ Along step I (step s e) es

instance Along.decidable (step : σ → ε → σ) (I : σ → Prop) [DecidablePred I] :
    ∀ s es, Decidable (Along step I s es)
  | s, [] => inferInstanceAs (Decidable (I s))
  | s, e :: es =>
    have := Along.decidable step I (step s e) es
    inferInstanceAs (Decidable (I s ∧ Along step I (step s e) es))

@[simp] theorem along_nil {step : σ → ε → σ} {I : σ → Prop} {s : σ} :
    Along step I s ([] : List ε) ↔ I s := Iff.rfl

theorem Along.head {step : σ → ε → σ} {I : σ → Prop} {s : σ} {es : List ε}
    (h : Along step I s es) : I s := by
  cases es with
  | nil => exact h
  | cons e es => exact h.1

/-- The state after a part of the run. -/
theorem Along.of_initial {step : σ → ε → σ} {I : σ → Prop} {es fs : List ε} (hpre : fs <+: es) :
    ∀ {s : σ}, Along step I s es → I (run step s fs) := by
  obtain ⟨gs, rfl⟩ := hpre
  induction fs with
  | nil => exact fun h => h.head
  | cons f fs ih => exact fun h => ih h.2

/-- **Simulation rule.** Where the step respects `R` and `R` carries `I` over, a run that
    satisfies `I` throughout stays one from a related state. -/
theorem Along.of_rel {step : σ → ε → σ} {I : σ → Prop} {R : σ → σ → Prop}
    (hstep : ∀ s t e, R s t → R (step s e) (step t e)) (hI : ∀ s t, R s t → I s → I t)
    (es : List ε) : ∀ {s t : σ}, R s t → Along step I s es → Along step I t es := by
  induction es with
  | nil => exact fun hR h => hI _ _ hR h
  | cons e es ih => exact fun hR h => ⟨hI _ _ hR h.1, ih (hstep _ _ e hR) h.2⟩

/-- What a run shows, `obs` of the states before and after each step. -/
def emitted {ω : Type*} (step : σ → ε → σ) (obs : σ → σ → List ω) : σ → List ε → List ω
  | _, [] => []
  | s, e :: es => obs s (step s e) ++ emitted step obs (step s e) es

theorem emitted_append {ω : Type*} {step : σ → ε → σ} {obs : σ → σ → List ω} {s : σ}
    {es fs : List ε} :
    emitted step obs s (es ++ fs)
      = emitted step obs s es ++ emitted step obs (run step s es) fs := by
  induction es generalizing s with
  | nil => rfl
  | cons e es ih => simp only [List.cons_append, emitted, run_cons, ih, List.append_assoc]

/-! ### Partial machines -/

/-- The states a partial machine reaches from `s₀` by enabled steps. -/
inductive Reachable (step : σ → ε → Option σ) (s₀ : σ) : σ → Prop
  | init : Reachable step s₀ s₀
  | step {s s' : σ} {e : ε} : Reachable step s₀ s → step s e = some s' → Reachable step s₀ s'

/-- **Reachability rule.** What holds initially and is preserved by every enabled step
    holds of every reachable state. -/
theorem Reachable.invariant {step : σ → ε → Option σ} {s₀ s : σ} {I : σ → Prop}
    (h₀ : I s₀) (hstep : ∀ s e s', I s → step s e = some s' → I s')
    (h : Reachable step s₀ s) : I s := by
  induction h with
  | init => exact h₀
  | step _ he ih => exact hstep _ _ _ ih he

/-- The run of a partial machine on a list of events, `none` when some step of it is not
    enabled. -/
def exec (step : σ → ε → Option σ) : σ → List ε → Option σ
  | s, [] => some s
  | s, e :: es => (step s e).bind fun s' => exec step s' es

theorem exec_cons {step : σ → ε → Option σ} {s : σ} {e : ε} {es : List ε} :
    exec step s (e :: es) = (step s e).bind fun s' => exec step s' es := rfl

theorem exec_append {step : σ → ε → Option σ} {s : σ} {es fs : List ε} :
    exec step s (es ++ fs) = (exec step s es).bind fun s' => exec step s' fs := by
  induction es generalizing s with
  | nil => rfl
  | cons e es ih => simp only [List.cons_append, exec_cons, ih, Option.bind_assoc]

theorem exec_cons_eq_some {step : σ → ε → Option σ} {s t : σ} {e : ε} {es : List ε} :
    exec step s (e :: es) = some t ↔ ∃ s', step s e = some s' ∧ exec step s' es = some t := by
  rw [exec_cons, Option.bind_eq_some_iff]

theorem exec_append_eq_some {step : σ → ε → Option σ} {s t : σ} {es fs : List ε} :
    exec step s (es ++ fs) = some t ↔ ∃ s', exec step s es = some s' ∧ exec step s' fs = some t := by
  rw [exec_append, Option.bind_eq_some_iff]

/-- **Counted loop.** A loop whose rounds are enabled, and whose state after `i` of them is
    `f i`. -/
theorem exec_replicate {step : σ → ε → Option σ} {e : ε} (f : ℕ → σ) {n : ℕ}
    (h : ∀ i < n, step (f i) e = some (f (i + 1))) :
    exec step (f 0) (List.replicate n e) = some (f n) := by
  induction n with
  | zero => rfl
  | succ n ih =>
    rw [List.replicate_succ', exec_append, ih fun i hi => h i (Nat.lt_succ_of_lt hi),
      Option.bind_some, exec_cons, h n (Nat.lt_succ_self n)]
    rfl

/-- **Run rule, restricted.** What every enabled step on an event satisfying `A` preserves, a
    run on such events preserves. -/
theorem exec_invariant_of {step : σ → ε → Option σ} {I : σ → Prop} {A : ε → Prop}
    (hstep : ∀ s e s', A e → I s → step s e = some s' → I s') {es : List ε} {s t : σ}
    (h : exec step s es = some t) (hA : ∀ e ∈ es, A e) (hs : I s) : I t := by
  induction es generalizing s with
  | nil =>
    cases h
    exact hs
  | cons e es ih =>
    obtain ⟨s', hs', h⟩ := exec_cons_eq_some.mp h
    rw [List.forall_mem_cons] at hA
    exact ih h hA.2 (hstep s e s' hA.1 hs hs')

/-- **Budget rule.** Where a step on an event that `p` counts lowers the budget and no other
    raises it, a run has no more such events than it spends. -/
theorem exec_countP_le {step : σ → ε → Option σ} {I : σ → Prop} {p : ε → Bool} {budget : σ → ℕ}
    (hstep : ∀ s e s', I s → step s e = some s' →
      I s' ∧ (if p e then 1 else 0) + budget s' ≤ budget s) {es : List ε} {s t : σ}
    (h : exec step s es = some t) (hs : I s) : I t ∧ es.countP p + budget t ≤ budget s := by
  induction es generalizing s with
  | nil =>
    cases h
    exact ⟨hs, by simp⟩
  | cons e es ih =>
    obtain ⟨s', hs', h⟩ := exec_cons_eq_some.mp h
    obtain ⟨hI, hle⟩ := hstep s e s' hs hs'
    obtain ⟨hIt, hrest⟩ := ih h hI
    rw [List.countP_cons]
    exact ⟨hIt, by omega⟩

/-- **Balance rule.** Where a step raises `f` only on an event that `earns` counts, and lowers it
    on one that `spends` counts, the two counts of a run bound what `f` gains. -/
theorem exec_balance {step : σ → ε → Option σ} {f : σ → ℕ} {spends earns : ε → Bool}
    (hstep : ∀ s e s', step s e = some s' →
      f s' + (if spends e then 1 else 0) ≤ f s + if earns e then 1 else 0) {es : List ε} {s t : σ}
    (h : exec step s es = some t) : f t + es.countP spends ≤ f s + es.countP earns := by
  induction es generalizing s with
  | nil =>
    cases h
    exact Nat.le_refl _
  | cons e es ih =>
    obtain ⟨s', hs', h⟩ := exec_cons_eq_some.mp h
    have hfirst := hstep s e s' hs'
    have hrest := ih h
    rw [List.countP_cons, List.countP_cons]
    omega

/-- A total machine, as one whose steps are all enabled. -/
def total (step : σ → ε → σ) (s : σ) (e : ε) : Option σ := some (step s e)

theorem exec_total (step : σ → ε → σ) (s : σ) (es : List ε) :
    exec (total step) s es = some (run step s es) := by
  induction es generalizing s with
  | nil => rfl
  | cons e es ih => rw [exec_cons, total, Option.bind_some, ih, run_cons]

/-- A run of enabled steps stays reachable. -/
theorem Reachable.exec {step : σ → ε → Option σ} {s₀ : σ} (es : List ε) :
    ∀ {s s' : σ}, Reachable step s₀ s → exec step s es = some s' → Reachable step s₀ s' := by
  induction es with
  | nil =>
    intro s s' hs h
    rw [Machine.exec, Option.some.injEq] at h
    exact h ▸ hs
  | cons e es ih =>
    intro s s' hs h
    obtain ⟨t, ht, h⟩ := exec_cons_eq_some.mp h
    exact ih (hs.step ht) h

/-- **Leads-to rule.** If from every state satisfying `P` some step reaches `Q` or stays in
    `P` at a lower rank, then some run does reach `Q`. -/
theorem exec_leads_to {step : σ → ε → Option σ} {P Q : σ → Prop} (rank : σ → ℕ)
    (h : ∀ s, P s → ∃ e s', step s e = some s' ∧ (Q s' ∨ P s' ∧ rank s' < rank s)) (s : σ)
    (hs : P s) : ∃ es s', exec step s es = some s' ∧ Q s' := by
  obtain ⟨e, s', hstep, hQ | ⟨hP, hlt⟩⟩ := h s hs
  · exact ⟨[e], s', by rw [Machine.exec, hstep]; rfl, hQ⟩
  · obtain ⟨es, t, hes, hQ⟩ := exec_leads_to rank h s' hP
    exact ⟨e :: es, t, by rw [Machine.exec, hstep]; exact hes, hQ⟩
  termination_by rank s

/-- Some run from `s` reaches `Q`. -/
def CanReach (step : σ → ε → Option σ) (s : σ) (Q : σ → Prop) : Prop :=
  ∃ es s', exec step s es = some s' ∧ Q s'

theorem CanReach.refl {step : σ → ε → Option σ} {s : σ} {Q : σ → Prop} (h : Q s) :
    CanReach step s Q :=
  ⟨[], s, rfl, h⟩

theorem CanReach.cons {step : σ → ε → Option σ} {s s' : σ} {e : ε} {Q : σ → Prop}
    (he : step s e = some s') (h : CanReach step s' Q) : CanReach step s Q := by
  obtain ⟨es, t, hes, hQ⟩ := h
  exact ⟨e :: es, t, by rw [exec_cons, he]; exact hes, hQ⟩

theorem CanReach.trans {step : σ → ε → Option σ} {s : σ} {P Q : σ → Prop}
    (h : CanReach step s P) (hP : ∀ t, P t → CanReach step t Q) : CanReach step s Q := by
  obtain ⟨es, t, hes, ht⟩ := h
  obtain ⟨fs, u, hfs, hu⟩ := hP t ht
  refine ⟨es ++ fs, u, ?_, hu⟩
  rw [exec_append, hes]
  exact hfs

theorem Reachable.canReach {step : σ → ε → Option σ} {s₀ s : σ} {Q : σ → Prop}
    (hs : Reachable step s₀ s) (h : CanReach step s Q) : ∃ t, Reachable step s₀ t ∧ Q t := by
  obtain ⟨es, t, hes, ht⟩ := h
  exact ⟨t, hs.exec es hes, ht⟩

theorem Reachable.canReach_trans {step : σ → ε → Option σ} {s₀ s : σ} {P Q : σ → Prop}
    (hs : Reachable step s₀ s) (h : CanReach step s P)
    (hP : ∀ t, Reachable step s₀ t → P t → CanReach step t Q) : CanReach step s Q := by
  obtain ⟨es, t, hes, ht⟩ := h
  obtain ⟨fs, u, hfs, hu⟩ := hP t (hs.exec es hes) ht
  exact ⟨es ++ fs, u, exec_append_eq_some.mpr ⟨t, hes, hfs⟩, hu⟩

/-! ### Restricted runs -/

/-- The machine `step` with the events that `ok` rules out disabled. -/
def restrict (ok : σ → ε → Prop) [∀ s e, Decidable (ok s e)] (step : σ → ε → Option σ) (s : σ)
    (e : ε) : Option σ :=
  if ok s e then step s e else none

theorem restrict_eq_some {ok : σ → ε → Prop} [∀ s e, Decidable (ok s e)]
    {step : σ → ε → Option σ} {s s' : σ} {e : ε} :
    restrict ok step s e = some s' ↔ ok s e ∧ step s e = some s' := by
  rw [restrict, Option.ite_none_right_eq_some]

/-! ### Recorded runs -/

/-- The machine `step` that records `obs` of its steps. -/
def record {ω : Type*} (obs : σ → ε → List ω) (step : σ → ε → Option σ) (r : σ × List ω) (e : ε) :
    Option (σ × List ω) :=
  (step r.1 e).map fun s' => (s', r.2 ++ obs r.1 e)

theorem record_eq_some {ω : Type*} {obs : σ → ε → List ω} {step : σ → ε → Option σ}
    {r r' : σ × List ω} {e : ε} :
    record obs step r e = some r' ↔ step r.1 e = some r'.1 ∧ r'.2 = r.2 ++ obs r.1 e := by
  obtain ⟨s', os'⟩ := r'
  rw [record, Option.map_eq_some_iff]
  constructor
  · rintro ⟨t, ht, heq⟩
    cases heq
    exact ⟨ht, rfl⟩
  · rintro ⟨hs', rfl⟩
    exact ⟨s', hs', rfl⟩

/-! ### Histories -/

/-- **History rule.** If the step is enabled wherever `I` relates the state to the events so far,
    and keeps them related, then every sequence of events satisfying `A` is a run. -/
theorem exec_history {step : σ → ε → Option σ} {s₀ : σ} {I : List ε → σ → Prop} {A : ε → Prop}
    (h₀ : I [] s₀)
    (hstep : ∀ es s e, I es s → A e → ∃ s', step s e = some s' ∧ I (es ++ [e]) s')
    (es : List ε) (hes : ∀ e ∈ es, A e) : ∃ s, exec step s₀ es = some s ∧ I es s := by
  have hgo : ∀ (es fs : List ε) (s : σ), I fs s → (∀ e ∈ es, A e) →
      ∃ t, exec step s es = some t ∧ I (fs ++ es) t := by
    intro es
    induction es with
    | nil =>
      intro fs s hs _
      exact ⟨s, rfl, (List.append_nil fs).symm ▸ hs⟩
    | cons e es ih =>
      intro fs s hs hes
      rw [List.forall_mem_cons] at hes
      obtain ⟨s', hs', hI⟩ := hstep fs s e hs hes.1
      obtain ⟨t, ht, hI'⟩ := ih (fs ++ [e]) s' hI hes.2
      rw [List.append_assoc] at hI'
      exact ⟨t, exec_cons_eq_some.mpr ⟨s', hs', ht⟩, hI'⟩
  simpa using hgo es [] s₀ h₀ hes

/-- Some event of the history sets it, and none since clears it.  An event is judged by the
    history before it. -/
def Since (sets clears : List ε → ε → Prop) (es : List ε) : Prop :=
  ∃ before e after, es = before ++ e :: after ∧ sets before e ∧
    ∀ mid f rest, after = mid ++ f :: rest → ¬ clears (before ++ e :: mid) f

theorem not_since_nil {sets clears : List ε → ε → Prop} : ¬ Since sets clears [] := by
  rintro ⟨before, e, after, heq, -⟩
  exact List.append_ne_nil_of_right_ne_nil before (List.cons_ne_nil e after) heq.symm

theorem since_concat {sets clears : List ε → ε → Prop} {es : List ε} {e : ε} :
    Since sets clears (es ++ [e]) ↔ sets es e ∨ Since sets clears es ∧ ¬ clears es e := by
  constructor
  · rintro ⟨before, f, after, heq, hset, hclear⟩
    rcases List.eq_nil_or_concat after with rfl | ⟨after, g, rfl⟩
    · -- the last event sets it
      obtain ⟨rfl, hlast⟩ := List.append_inj' heq rfl
      cases hlast
      exact Or.inl hset
    · rw [List.concat_eq_append, ← List.cons_append, ← List.append_assoc] at heq
      obtain ⟨rfl, hlast⟩ := List.append_inj' heq rfl
      cases hlast
      refine Or.inr ⟨⟨before, f, after, rfl, hset, ?_⟩, hclear after e [] (List.concat_eq_append ..)⟩
      intro mid g rest hmid
      refine hclear mid g (rest ++ [e]) ?_
      rw [hmid, List.concat_eq_append, List.append_assoc, List.cons_append]
  · rintro (hset | ⟨⟨before, f, after, rfl, hset, hclear⟩, hlast⟩)
    · refine ⟨es, e, [], rfl, hset, ?_⟩
      intro mid g rest hmid
      exact absurd hmid.symm (List.append_ne_nil_of_right_ne_nil _ (List.cons_ne_nil g rest))
    · refine ⟨before, f, after ++ [e], by simp, hset, ?_⟩
      intro mid g rest hmid
      rcases List.eq_nil_or_concat rest with rfl | ⟨rest, k, rfl⟩
      · obtain ⟨rfl, hg⟩ := List.append_inj' hmid rfl
        cases hg
        exact hlast
      · rw [List.concat_eq_append, ← List.cons_append, ← List.append_assoc] at hmid
        obtain ⟨hmid, -⟩ := List.append_inj' hmid rfl
        exact hclear mid g rest hmid

end Machine
