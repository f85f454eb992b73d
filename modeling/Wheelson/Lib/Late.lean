import Wheelson.Lib.Scan

/-!
# A scanner that joins late

Two scanners read one stream, the second only from some letter on.

* `outputs` — what a scanner emits from now on; what it has emitted before makes no difference.
* `outputs_spoilt`, `outputs_missing` — the second one in a segment of the first, with and
  without having taken letters of it for a start marker.
* `outputs_late` — the second one emits what the first one emits, but for one segment at most.
-/

namespace Scan

open Machine

variable {α : Type*} [DecidableEq α] {m : Markers α} {st rf : State α}

/-- The scanner, with nothing emitted yet. -/
def State.fresh (st : State α) : State α := { st with images := [] }

variable (m) in
/-- What a scanner emits from now on. -/
def outputs (st : State α) (l : List α) : List (List α) := (run (step m) st.fresh l).images

/-- What has been emitted makes no difference to a letter. -/
theorem step_fresh (st : State α) (b : α) :
    (step m st b).fresh = (step m st.fresh b).fresh ∧
      (step m st b).images = st.images ++ (step m st.fresh b).images := by
  unfold step State.fresh
  split_ifs <;> simp

theorem run_images_append (st : State α) (l : List α) :
    (run (step m) st l).images = st.images ++ outputs m st l := by
  unfold outputs
  induction l generalizing st with
  | nil => exact (List.append_nil _).symm
  | cons b l ih =>
    obtain ⟨hfresh, himages⟩ := step_fresh (m := m) st b
    rw [run_cons, run_cons, ih, ih (step m st.fresh b), hfresh, himages, List.append_assoc]

theorem outputs_congr (h : st.fresh = rf.fresh) (l : List α) :
    outputs m st l = outputs m rf l := by
  rw [outputs, outputs, h]

theorem outputs_cons (st : State α) (b : α) (l : List α) :
    outputs m st (b :: l) = (step m st.fresh b).images ++ outputs m (step m st b) l := by
  rw [outputs, run_cons, run_images_append]
  congr 1
  exact outputs_congr (step_fresh st b).1.symm l

/-- A letter that ends no segment. -/
theorem outputs_cons_of_not_stop {b : α} (l : List α)
    (h : ¬ (st.header = true ∧ b = m.stop₂ ∧ st.temp = m.stop₁)) :
    outputs m st (b :: l) = outputs m (step m st b) l := by
  have himages : (step m st.fresh b).images = [] := by
    unfold step State.fresh
    split_ifs with hheader hstop
    · exact absurd ⟨hheader, hstop⟩ h
    all_goals rfl
  rw [outputs_cons, himages, List.nil_append]

/-- The last letter of a segment. -/
theorem outputs_cons_of_stop {b : α} (l : List α) (hst : st.header = true)
    (hb : b = m.stop₂ ∧ st.temp = m.stop₁) :
    outputs m st (b :: l) = (st.image ++ [b]) :: outputs m (step m st b) l := by
  have hfresh : st.fresh.header = true := hst
  rw [outputs_cons, step_stop hfresh hb]
  rfl

/-! ### Two scanners -/

/-- Behind the first letter of its segment the scanner has read the last one. -/
structure State.Tight (st : State α) : Prop where
  inside : st.header = true → st.image.tail.getLast? = some st.temp
  outside : st.header = false → st.image = []

omit [DecidableEq α] in
theorem State.tight_init (temp : α) : (State.init temp).Tight := ⟨nofun, fun _ => rfl⟩

theorem State.Tight.step (hst : st.Tight) (b : α) : (step m st b).Tight := by
  cases hheader : st.header with
  | true =>
    by_cases hb : b = m.stop₂ ∧ st.temp = m.stop₁
    · rw [step_stop hheader hb]
      exact ⟨nofun, fun _ => rfl⟩
    · rw [step_body hheader hb]
      refine ⟨fun _ => ?_, fun h => absurd (hheader.symm.trans h) (by decide)⟩
      have hlast := hst.inside hheader
      cases himage : st.image with
      | nil =>
        rw [himage] at hlast
        cases hlast
      | cons x q => simp
  | false =>
    have himage := hst.outside hheader
    by_cases hb : b = m.start₂ ∧ st.temp = m.start₁
    · rw [step_start hheader hb, himage]
      exact ⟨fun _ => rfl, nofun⟩
    · rw [step_idle hheader hb]
      exact ⟨fun h => absurd (hheader.symm.trans h) (by decide), fun _ => himage⟩

theorem State.Tight.run (hst : st.Tight) (l : List α) : (run (Scan.step m) st l).Tight := by
  induction l generalizing st with
  | nil => exact hst
  | cons b l ih => exact ih (hst.step b)

/-- The segments have their start marker at the beginning only. -/
def Clean (m : Markers α) (imgs : List (List α)) : Prop :=
  ∀ img ∈ imgs, NoPair m.start₁ m.start₂ img.tail

omit [DecidableEq α] in
theorem not_noPair_tail_concat {a b : α} {l : List α} (h : ¬ NoPair a b l.tail) (c : α) :
    ¬ NoPair a b (l ++ [c]).tail := by
  intro hc
  apply h
  cases l with
  | nil => exact noPair_nil a b
  | cons x l =>
    have hc : NoPair a b (l ++ [c]) := hc
    exact hc.left_of_append

omit [DecidableEq α] in
/-- The last letter of a segment and the next one. -/
theorem State.Tight.not_noPair (hst : st.Tight) (hheader : st.header = true) {b c : α}
    (htemp : st.temp = b) : ¬ NoPair b c (st.image ++ [c]).tail := by
  have hlast := hst.inside hheader
  rw [htemp] at hlast
  cases himage : st.image with
  | nil =>
    rw [himage] at hlast
    cases hlast
  | cons x q =>
    intro h
    have h : NoPair b c (q ++ [c]) := h
    rw [himage] at hlast
    exact (List.isChain_append.mp h).2.2 b hlast c rfl ⟨rfl, rfl⟩

/-- Both inside, the first one with a second start marker in its segment, which then cannot
    end. -/
theorem outputs_spoilt {l : List α} (st : State α) (hclean : Clean m (outputs m rf l))
    (hpair : ¬ NoPair m.start₁ m.start₂ rf.image.tail) (hst : st.header = true)
    (hrf : rf.header = true) (htemp : st.temp = rf.temp) :
    outputs m st l = [] ∧ outputs m rf l = [] := by
  induction l generalizing st rf with
  | nil => exact ⟨rfl, rfl⟩
  | cons b l ih =>
    have hmore := not_noPair_tail_concat hpair b
    by_cases hb : b = m.stop₂ ∧ rf.temp = m.stop₁
    · rw [outputs_cons_of_stop l hrf hb] at hclean
      exact absurd (hclean _ List.mem_cons_self) hmore
    · have hb' : ¬ (b = m.stop₂ ∧ st.temp = m.stop₁) := htemp ▸ hb
      rw [outputs_cons_of_not_stop l fun h => hb h.2, step_body hrf hb] at hclean ⊢
      rw [outputs_cons_of_not_stop l fun h => hb' h.2, step_body hst hb']
      exact ih _ hclean hmore hst hrf rfl

/-- The first one inside and the other outside: the other misses the segment. -/
theorem outputs_missing {l : List α} (hst : st.Idle) (hrf : rf.header = true) (htight : rf.Tight)
    (htemp : st.temp = rf.temp) (hclean : Clean m (outputs m rf l)) :
    outputs m st l = (outputs m rf l).drop 1 := by
  induction l generalizing st rf with
  | nil => rfl
  | cons b l ih =>
    have hout : ¬ (st.header = true ∧ b = m.stop₂ ∧ st.temp = m.stop₁) := by
      intro h
      exact Bool.noConfusion (hst.header.symm.trans h.1)
    rw [outputs_cons_of_not_stop l hout]
    by_cases hb : b = m.stop₂ ∧ rf.temp = m.stop₁
    · -- both go on outside
      have hstart : ¬ (b = m.start₂ ∧ st.temp = m.start₁) :=
        fun h => m.ends_ne (h.1.symm.trans hb.1)
      rw [outputs_cons_of_stop l hrf hb, List.drop_one, List.tail_cons, step_stop hrf hb,
        step_idle hst.header hstart]
      apply outputs_congr
      simp [State.fresh, hst.header, hst.image]
    · have htight' := htight.step (m := m) b
      rw [outputs_cons_of_not_stop l fun h => hb h.2, step_body hrf hb] at hclean ⊢
      rw [step_body hrf hb] at htight'
      by_cases hstart : b = m.start₂ ∧ st.temp = m.start₁
      · -- letters of the segment are taken for a start marker
        have hpair := htight.not_noPair hrf (c := b) (htemp.symm.trans hstart.2)
        rw [hstart.1] at hpair hclean ⊢
        rw [step_start hst.header ⟨rfl, hstart.2⟩]
        obtain ⟨hnone, hnone'⟩ := outputs_spoilt
          ⟨m.start₂, true, st.image ++ [st.temp, m.start₂], st.images⟩ hclean hpair rfl hrf rfl
        rw [hnone, hnone']
        rfl
      · rw [step_idle hst.header hstart]
        exact ih ⟨hst.header, hst.image⟩ hrf htight' rfl hclean

/-- **A late scanner** emits what the first one emits from then on, but for one segment at most:
    the one under way. -/
theorem outputs_late {l : List α} (hst : st.Idle) (htemp : st.temp ≠ m.start₁)
    (htight : rf.Tight) (hclean : Clean m (outputs m rf l)) :
    ∃ j ≤ 1, outputs m st l = (outputs m rf l).drop j := by
  cases l with
  | nil => exact ⟨0, Nat.zero_le 1, rfl⟩
  | cons b l =>
    have hout : ¬ (st.header = true ∧ b = m.stop₂ ∧ st.temp = m.stop₁) := by
      intro h
      exact Bool.noConfusion (hst.header.symm.trans h.1)
    have htight' := htight.step (m := m) b
    rw [outputs_cons_of_not_stop l hout, step_idle hst.header fun h => htemp h.2]
    cases hrf : rf.header with
    | true =>
      by_cases hb : b = m.stop₂ ∧ rf.temp = m.stop₁
      · refine ⟨1, le_rfl, ?_⟩
        rw [outputs_cons_of_stop l hrf hb, List.drop_one, List.tail_cons, step_stop hrf hb]
        apply outputs_congr
        simp [State.fresh, hst.header, hst.image]
      · rw [outputs_cons_of_not_stop l fun h => hb h.2, step_body hrf hb] at hclean ⊢
        rw [step_body hrf hb] at htight'
        exact ⟨1, le_rfl, outputs_missing ⟨hst.header, hst.image⟩ hrf htight' rfl hclean⟩
    | false =>
      have hout' : ¬ (rf.header = true ∧ b = m.stop₂ ∧ rf.temp = m.stop₁) := by
        intro h
        exact Bool.noConfusion (hrf.symm.trans h.1)
      rw [outputs_cons_of_not_stop l hout'] at hclean ⊢
      by_cases hb : b = m.start₂ ∧ rf.temp = m.start₁
      · -- the late one has missed the first letter of the start marker
        rw [step_start hrf hb] at hclean htight' ⊢
        exact ⟨1, le_rfl, outputs_missing ⟨hst.header, hst.image⟩ rfl htight' rfl hclean⟩
      · refine ⟨0, Nat.zero_le 1, ?_⟩
        rw [step_idle hrf hb, List.drop_zero]
        apply outputs_congr
        simp [State.fresh, hst.header, hst.image, hrf, htight.outside hrf]

end Scan
