import Mathlib.Data.List.Chain
import Mathlib.Data.List.Infix
import Wheelson.Lib.Machine

/-!
# Scanning a stream for segments between two-letter markers

A scanner waits for the two letters of a start marker, keeps everything up to the two
letters of a stop marker, and emits what it kept.

* `NoPair a b l` — the letters `a`, `b` never stand next to each other in `l`.
* `run_idle`, `run_body` — where no marker occurs the scanner keeps its mode.
* `IsFrame` — one start marker at the beginning and one stop marker at the end;
  `run_frame` emits it.
* `segment_run` — whatever the stream, what is emitted are segments of it.
* `segments` — the same by repeated search in the whole stream; `images_eq_segments` says that
  a scanner emits exactly these, and `laid_segments` that they lie in the stream in order.
-/

namespace Scan

open Machine

variable {α : Type*}

/-- `a` is never followed by `b`. -/
def NoPair (a b : α) (l : List α) : Prop := l.IsChain fun x y => ¬ (x = a ∧ y = b)

instance [DecidableEq α] (a b : α) (l : List α) : Decidable (NoPair a b l) :=
  inferInstanceAs (Decidable (List.IsChain _ l))

@[simp] theorem noPair_nil (a b : α) : NoPair a b [] := List.IsChain.nil

@[simp] theorem noPair_singleton (a b c : α) : NoPair a b [c] := List.IsChain.singleton c

@[simp] theorem noPair_cons_cons {a b x y : α} {l : List α} :
    NoPair a b (x :: y :: l) ↔ ¬ (x = a ∧ y = b) ∧ NoPair a b (y :: l) :=
  List.isChain_cons_cons

/-- A letter that does not start the pair may be put in front. -/
theorem NoPair.cons_of_ne {a b x : α} {l : List α} (h : NoPair a b l) (hx : x ≠ a) :
    NoPair a b (x :: l) :=
  List.isChain_cons.mpr ⟨fun _ _ hp => hx hp.1, h⟩

theorem NoPair.left_of_append {a b : α} {l r : List α} (h : NoPair a b (l ++ r)) : NoPair a b l :=
  List.IsChain.left_of_append h

theorem NoPair.drop {a b : α} {l : List α} (h : NoPair a b l) (n : ℕ) : NoPair a b (l.drop n) :=
  List.IsChain.drop h n

theorem NoPair.tail {a b : α} {l : List α} (h : NoPair a b l) : NoPair a b l.tail :=
  List.IsChain.tail h

/-- Behind the first letter, a letter may be added that does not end the pair. -/
theorem NoPair.tail_concat {a b c x : α} {l : List α} (h : NoPair a b l.tail)
    (hc : ¬ (l.getLastD x = a ∧ c = b)) : NoPair a b (l ++ [c]).tail := by
  cases l with
  | nil => exact noPair_nil a b
  | cons y l =>
    rw [List.getLastD_cons] at hc
    show NoPair a b (l ++ [c])
    refine List.isChain_append.mpr ⟨h, noPair_singleton a b c, ?_⟩
    intro z hz c' hc' hpair
    obtain rfl : c = c' := by simpa using hc'
    refine hc ⟨?_, hpair.2⟩
    rw [List.getLastD_eq_getLast?, Option.mem_def.mp hz]
    exact hpair.1

/-- Behind the first letter, two lists join where the first does not begin the pair. -/
theorem NoPair.tail_append {a b x : α} {l r : List α} (h : NoPair a b l.tail) (hl : l ≠ [])
    (hr : NoPair a b r) (hseam : r = [] ∨ l.getLastD x ≠ a) : NoPair a b (l ++ r).tail := by
  cases l with
  | nil => exact absurd rfl hl
  | cons y l =>
    rw [List.getLastD_cons] at hseam
    show NoPair a b (l ++ r)
    refine List.isChain_append.mpr ⟨h, hr, ?_⟩
    intro z hz w hw hpair
    rcases hseam with rfl | hseam
    · cases hw
    · rw [List.getLastD_eq_getLast?, Option.mem_def.mp hz] at hseam
      exact hseam hpair.1

/-- The markers: the start marker does not begin with the letter it ends with, and the two
    markers end differently. -/
structure Markers (α : Type*) where
  start₁ : α
  start₂ : α
  stop₁ : α
  stop₂ : α
  start_ne : start₁ ≠ start₂
  ends_ne : start₂ ≠ stop₂

/-- The scanner: the last letter, whether it is inside a segment, the segment so far, and
    what it has emitted. -/
structure State (α : Type*) where
  temp : α
  header : Bool
  image : List α
  images : List (List α)
deriving DecidableEq, Repr

/-- A scanner that has seen nothing but the letter `temp`. -/
def State.init (temp : α) : State α := ⟨temp, false, [], []⟩

/-- The scanner is outside a segment. -/
structure State.Idle (st : State α) : Prop where
  header : st.header = false
  image : st.image = []

theorem State.idle_init (temp : α) : (State.init temp).Idle := ⟨rfl, rfl⟩

variable [DecidableEq α] (m : Markers α)

def step (st : State α) (b : α) : State α :=
  if st.header then
    if b = m.stop₂ ∧ st.temp = m.stop₁ then
      { temp := b, header := false, image := [], images := st.images ++ [st.image ++ [b]] }
    else { st with temp := b, image := st.image ++ [b] }
  else if b = m.start₂ ∧ st.temp = m.start₁ then
    { st with temp := b, header := true, image := st.image ++ [st.temp, b] }
  else { st with temp := b }

variable {m} {st : State α}

@[simp] theorem step_temp (b : α) : (step m st b).temp = b := by
  unfold step
  split_ifs <;> rfl

theorem run_temp (st : State α) (l : List α) : (run (step m) st l).temp = l.getLastD st.temp := by
  induction l generalizing st with
  | nil => rfl
  | cons b l ih =>
    rw [run_cons, ih, step_temp, List.getLastD_cons]

/-- What has been emitted stays. -/
theorem images_prefix (st : State α) (l : List α) : st.images <+: (run (step m) st l).images := by
  induction l generalizing st with
  | nil => exact List.prefix_rfl
  | cons b l ih =>
    have hstep : st.images <+: (step m st b).images := by
      unfold step
      split_ifs
      · exact List.prefix_append _ _
      all_goals exact List.prefix_rfl
    exact hstep.trans (ih _)

/-! ### One letter, case by case -/

theorem step_idle {b : α} (hst : st.header = false) (hb : ¬ (b = m.start₂ ∧ st.temp = m.start₁)) :
    step m st b = { st with temp := b } := by
  unfold step
  rw [hst, if_neg Bool.false_ne_true, if_neg hb]

theorem step_body {b : α} (hst : st.header = true) (hb : ¬ (b = m.stop₂ ∧ st.temp = m.stop₁)) :
    step m st b = { st with temp := b, image := st.image ++ [b] } := by
  unfold step
  rw [if_pos hst, if_neg hb]

theorem step_stop {b : α} (hst : st.header = true) (hb : b = m.stop₂ ∧ st.temp = m.stop₁) :
    step m st b =
      { temp := b, header := false, image := [], images := st.images ++ [st.image ++ [b]] } := by
  unfold step
  rw [if_pos hst, if_pos hb]

theorem step_start {b : α} (hst : st.header = false) (hb : b = m.start₂ ∧ st.temp = m.start₁) :
    step m st b = { st with temp := b, header := true, image := st.image ++ [st.temp, b] } := by
  unfold step
  rw [hst, if_neg Bool.false_ne_true, if_pos hb]

/-- Outside a segment, letters without a start marker change nothing. -/
theorem run_idle {l : List α} (hst : st.header = false)
    (hl : NoPair m.start₁ m.start₂ (st.temp :: l)) :
    run (step m) st l = { st with temp := l.getLastD st.temp } := by
  induction l generalizing st with
  | nil => rfl
  | cons b l ih =>
    rw [noPair_cons_cons] at hl
    rw [run_cons, step_idle hst (fun h => hl.1 h.symm), ih (by exact hst) (by exact hl.2),
      List.getLastD_cons]

/-- Inside a segment, letters without a stop marker are kept. -/
theorem run_body {l : List α} (hst : st.header = true)
    (hl : NoPair m.stop₁ m.stop₂ (st.temp :: l)) :
    run (step m) st l = { st with temp := l.getLastD st.temp, image := st.image ++ l } := by
  induction l generalizing st with
  | nil => simp [run_nil]
  | cons b l ih =>
    rw [noPair_cons_cons] at hl
    rw [run_cons, step_body hst (fun h => hl.1 h.symm), ih (by exact hst) (by exact hl.2),
      List.getLastD_cons, List.append_assoc]
    rfl

/-! ### Frames -/

variable (m) in
/-- One start marker, at the beginning, and one stop marker, at the end. -/
structure IsFrame (F : List α) : Prop where
  starts : [m.start₁, m.start₂] <+: F
  start_once : NoPair m.start₁ m.start₂ F.tail
  stops : [m.stop₁, m.stop₂] <:+ F
  stop_once : NoPair m.stop₁ m.stop₂ F.dropLast

omit [DecidableEq α] in
/-- A frame is a start marker, a body, and the last letter of the stop marker. -/
theorem IsFrame.body {F : List α} (hF : IsFrame m F) :
    ∃ mid, F = m.start₁ :: m.start₂ :: (mid ++ [m.stop₂]) ∧
      mid.getLastD m.start₂ = m.stop₁ ∧ NoPair m.stop₁ m.stop₂ (m.start₂ :: mid) := by
  obtain ⟨t, rfl⟩ := hF.starts
  obtain ⟨p, hp⟩ := hF.stops
  rcases List.eq_nil_or_concat t with rfl | ⟨mid, e, rfl⟩
  · -- a frame of two letters would be both markers
    have hlen := congrArg List.length hp
    obtain rfl : p = [] := by
      rw [← List.length_eq_zero_iff]
      simpa using hlen
    simp only [List.nil_append, List.append_nil, List.cons.injEq, and_true] at hp
    exact absurd hp.2.symm m.ends_ne
  · have hsplit : p ++ [m.stop₁] ++ [m.stop₂] = (m.start₁ :: m.start₂ :: mid) ++ [e] := by
      simpa using hp
    obtain ⟨hpre, he⟩ := List.append_inj' hsplit rfl
    obtain rfl : m.stop₂ = e := by simpa using he
    refine ⟨mid, by simp, ?_, ?_⟩
    · have hlast : (p ++ [m.stop₁]).getLastD m.start₂
          = (m.start₁ :: m.start₂ :: mid).getLastD m.start₂ :=
        congrArg (fun l => l.getLastD m.start₂) hpre
      rw [List.getLastD_cons, List.getLastD_cons, List.getLastD_concat] at hlast
      exact hlast.symm
    · have hconcat : [m.start₁, m.start₂] ++ mid.concat m.stop₂
          = (m.start₁ :: m.start₂ :: mid) ++ [m.stop₂] := by
        simp
      have hdrop := hF.stop_once
      rw [hconcat, List.dropLast_concat] at hdrop
      exact hdrop.tail

/-- The start marker opens a segment. -/
theorem run_start (hst : st.Idle) :
    run (step m) st [m.start₁, m.start₂]
      = { st with temp := m.start₂, header := true, image := [m.start₁, m.start₂] } := by
  have hfirst : step m st m.start₁ = { st with temp := m.start₁ } :=
    step_idle hst.header fun h => m.start_ne h.1
  rw [run_cons, hfirst, run_cons, run_nil, step_start (by exact hst.header) ⟨rfl, rfl⟩]
  simp [hst.image]

/-- **A frame is emitted.** -/
theorem run_frame {F : List α} (hF : IsFrame m F) (hst : st.Idle) :
    run (step m) st F
      = { temp := m.stop₂, header := false, image := [], images := st.images ++ [F] } := by
  obtain ⟨mid, rfl, hlast, hmid⟩ := hF.body
  let opened : State α := { st with
    temp := m.start₂
    header := true
    image := [m.start₁, m.start₂] }
  have hbody : run (step m) opened mid
      = { opened with temp := m.stop₁, image := [m.start₁, m.start₂] ++ mid } := by
    rw [run_body rfl hmid, hlast]
  rw [show m.start₁ :: m.start₂ :: (mid ++ [m.stop₂]) = [m.start₁, m.start₂] ++ (mid ++ [m.stop₂])
    from rfl, run_append, run_start hst, run_append, hbody, run_cons, run_nil,
    step_stop rfl ⟨rfl, rfl⟩]
  simp [opened]

/-! ### Any stream -/

variable (m) in
/-- What a scanner holds are segments of the stream it has read. -/
structure Segment (l : List α) (st : State α) : Prop where
  images : ∀ img ∈ st.images, img <:+: l
  image : st.image <:+ l
  idle : st.header = false → st.image = []
  temp : st.temp = m.start₁ → ∃ p, l = p ++ [st.temp]

omit [DecidableEq α] in
theorem segment_init {temp : α} (htemp : temp ≠ m.start₁) : Segment m [] (State.init temp) where
  images := by simp [State.init]
  image := List.suffix_rfl
  idle _ := rfl
  temp h := absurd h htemp

theorem Segment.step {l : List α} (hs : Segment m l st) (b : α) :
    Segment m (l ++ [b]) (step m st b) := by
  have himages : ∀ img ∈ st.images, img <:+: l ++ [b] := fun img himg =>
    (hs.images img himg).trans (List.prefix_append l [b]).isInfix
  have himage : st.image ++ [b] <:+ l ++ [b] := by
    obtain ⟨p, hp⟩ := hs.image
    exact ⟨p, by rw [← List.append_assoc, hp]⟩
  unfold Scan.step
  split_ifs with hheader hstop hstart
  · -- the segment ends with this letter
    refine ⟨?_, List.nil_suffix, fun _ => rfl, fun _ => ⟨l, rfl⟩⟩
    intro img himg
    rcases List.mem_append.mp himg with hold | hnew
    · exact himages img hold
    · rw [List.mem_singleton.mp hnew]
      exact himage.isInfix
  · exact ⟨himages, himage, fun h => absurd (hheader.symm.trans h) (by decide), fun _ => ⟨l, rfl⟩⟩
  · -- a segment begins with the last letter and this one
    refine ⟨himages, ?_, fun h => Bool.noConfusion (show true = false from h), fun _ => ⟨l, rfl⟩⟩
    have hidle := hs.idle (by simpa using hheader)
    obtain ⟨p, hp⟩ := hs.temp hstart.2
    show st.image ++ [st.temp, b] <:+ l ++ [b]
    rw [hidle, hp]
    exact ⟨p, by simp⟩
  · refine ⟨himages, ?_, fun _ => hs.idle (by simpa using hheader), fun _ => ⟨l, rfl⟩⟩
    show st.image <:+ l ++ [b]
    rw [hs.idle (by simpa using hheader)]
    exact List.nil_suffix

/-- **Segments.**  What a scanner emits are segments of the stream. -/
theorem segment_run {temp : α} (htemp : temp ≠ m.start₁) (l : List α) :
    Segment m l (run (Scan.step m) (State.init temp) l) := by
  induction l using List.reverseRecOn with
  | nil => exact segment_init htemp
  | append_singleton l b ih =>
    rw [run_concat]
    exact ih.step b

/-! ### The reference scan -/

/-- The letters before the first pair `a`, `b`, and those behind it. -/
def cutPair (a b : α) : List α → Option (List α × List α)
  | x :: y :: l =>
    if x = a ∧ y = b then some ([], l)
    else (cutPair a b (y :: l)).map fun c => (x :: c.1, c.2)
  | _ => none

theorem noPair_of_cutPair {a b : α} {l : List α} (h : cutPair a b l = none) : NoPair a b l := by
  induction l with
  | nil => exact noPair_nil a b
  | cons x l ih =>
    cases l with
    | nil => exact noPair_singleton a b x
    | cons y l =>
      rw [cutPair] at h
      split at h
      · cases h
      · rename_i hpair
        rw [Option.map_eq_none_iff] at h
        exact noPair_cons_cons.mpr ⟨hpair, ih h⟩

/-- The pair stands behind the first part, and nowhere before. -/
theorem cutPair_spec {a b : α} {l p r : List α} (h : cutPair a b l = some (p, r)) :
    l = p ++ a :: b :: r ∧ NoPair a b (p ++ [a]) := by
  induction l generalizing p with
  | nil => cases h
  | cons x l ih =>
    cases l with
    | nil => cases h
    | cons y l =>
      rw [cutPair] at h
      split at h
      · rename_i hpair
        cases h
        rw [hpair.1, hpair.2]
        exact ⟨rfl, noPair_singleton a b a⟩
      · rename_i hpair
        obtain ⟨⟨p, r'⟩, hcut, hp⟩ := Option.map_eq_some_iff.mp h
        cases hp
        obtain ⟨hl, hno⟩ := ih hcut
        rw [hl]
        refine ⟨rfl, ?_⟩
        -- the second letter of the list is the first of what is cut off
        cases p with
        | nil =>
          obtain ⟨rfl, -⟩ := List.cons_eq_cons.mp hl
          exact noPair_cons_cons.mpr ⟨hpair, hno⟩
        | cons z p =>
          obtain ⟨rfl, -⟩ := List.cons_eq_cons.mp hl
          exact noPair_cons_cons.mpr ⟨hpair, hno⟩

theorem cutPair_length {a b : α} {l p r : List α} (h : cutPair a b l = some (p, r)) :
    r.length + 2 ≤ l.length := by
  rw [(cutPair_spec h).1, List.length_append, List.length_cons, List.length_cons]
  omega

variable (m) in
/-- Repeatedly: the first start marker, and from it to the first stop marker behind it. -/
def segments (l : List α) : List (List α) :=
  match hstart : cutPair m.start₁ m.start₂ l with
  | none => []
  | some (_, r) =>
    match hstop : cutPair m.stop₁ m.stop₂ r with
    | none => []
    | some (body, rest) =>
      have : rest.length < l.length := by
        have := cutPair_length hstart
        have := cutPair_length hstop
        omega
      (m.start₁ :: m.start₂ :: (body ++ [m.stop₁, m.stop₂])) :: segments rest
termination_by l.length

variable (m) in
/-- No marker can begin in the last letter of another. -/
structure Markers.Apart : Prop where
  start_stop : m.start₂ ≠ m.stop₁
  stop_start : m.stop₂ ≠ m.start₁

/-- The letters up to the first start marker, and the marker. -/
theorem run_to_start {p : List α} (hst : st.Idle) (htemp : st.temp ≠ m.start₁)
    (hp : NoPair m.start₁ m.start₂ (p ++ [m.start₁])) :
    run (step m) st (p ++ [m.start₁, m.start₂])
      = { st with temp := m.start₂, header := true, image := [m.start₁, m.start₂] } := by
  rw [run_append, run_idle hst.header (hp.left_of_append.cons_of_ne htemp)]
  exact run_start ⟨hst.header, hst.image⟩

/-- The letters of a segment up to the first stop marker, and the marker. -/
theorem run_to_stop {body : List α} (hst : st.header = true) (htemp : st.temp ≠ m.stop₁)
    (hbody : NoPair m.stop₁ m.stop₂ (body ++ [m.stop₁])) :
    run (step m) st (body ++ [m.stop₁, m.stop₂])
      = { temp := m.stop₂, header := false, image := []
          images := st.images ++ [st.image ++ (body ++ [m.stop₁, m.stop₂])] } := by
  have hsplit : body ++ [m.stop₁, m.stop₂] = (body ++ [m.stop₁]) ++ [m.stop₂] := by simp
  have hlast : (body ++ [m.stop₁]).getLastD st.temp = m.stop₁ := List.getLastD_concat ..
  rw [hsplit, run_concat, run_body hst (hbody.cons_of_ne htemp), hlast,
    step_stop (by exact hst) ⟨rfl, rfl⟩, List.append_assoc]

/-- **The scanner does the reference scan.**  The induction is on what is left of the stream
    after a segment. -/
theorem images_eq_segments (hm : m.Apart) (l : List α) (hst : st.Idle)
    (htemp : st.temp ≠ m.start₁) :
    (run (step m) st l).images = st.images ++ segments m l := by
  fun_induction segments m l generalizing st with
  | case1 l hstart =>
    rw [run_idle hst.header ((noPair_of_cutPair hstart).cons_of_ne htemp), List.append_nil]
  | case2 l p r hstart hstop =>
    -- the last segment is not terminated
    obtain ⟨rfl, hp⟩ := cutPair_spec hstart
    have hr := (noPair_of_cutPair hstop).cons_of_ne hm.start_stop
    rw [show p ++ m.start₁ :: m.start₂ :: r = p ++ [m.start₁, m.start₂] ++ r by simp,
      run_append, run_to_start hst htemp hp, run_body rfl hr, List.append_nil]
  | case3 l p r hstart body rest hstop _ ih =>
    obtain ⟨rfl, hp⟩ := cutPair_spec hstart
    obtain ⟨rfl, hbody⟩ := cutPair_spec hstop
    rw [show p ++ m.start₁ :: m.start₂ :: (body ++ m.stop₁ :: m.stop₂ :: rest)
        = p ++ [m.start₁, m.start₂] ++ (body ++ [m.stop₁, m.stop₂]) ++ rest by simp,
      run_append, run_append, run_to_start hst htemp hp, run_to_stop rfl hm.start_stop hbody,
      ih ⟨rfl, rfl⟩ hm.stop_start]
    simp

/-- The images lie in the stream one behind the other. -/
def Laid (l : List α) : List (List α) → Prop
  | [] => True
  | img :: imgs => ∃ gap rest, l = gap ++ img ++ rest ∧ Laid rest imgs

theorem laid_segments (l : List α) : Laid l (segments m l) := by
  fun_induction segments m l with
  | case1 | case2 => trivial
  | case3 l p r hstart body rest hstop _ ih =>
    obtain ⟨rfl, -⟩ := cutPair_spec hstart
    obtain ⟨rfl, -⟩ := cutPair_spec hstop
    exact ⟨p, rest, by simp, ih⟩

end Scan
