import Mathlib.Data.List.Forall2
import Mathlib.Data.List.Nodup
import Wheelson.Cam.Sync

namespace Wheelson.Cam

/-!
# Segments of captures in the stream

* `Faithful` — each image is a segment of one capture, and no segment is emitted twice.
* `faithful_of_harmless` — so it is at every moment of a run of harmless steps.
* `replays` — so it is not in general: an empty capture sends an old buffer again.
-/

open Machine Scan

variable {size num_buffs : ℕ} {base : List (List UInt8)} {cam cam' : Writer}

/-! ### Segments of captures -/

/-- A place in a run of captures. -/
structure Seg where
  capture : ℕ
  offset : ℕ
  length : ℕ
deriving DecidableEq, Repr

/-- The image is what stands there. -/
def Seg.Cut (captures : List (List UInt8)) (g : Seg) (img : List UInt8) : Prop :=
  ∃ content, captures[g.capture]? = some content ∧ g.offset + g.length ≤ content.length ∧
    img = (content.drop g.offset).take g.length

/-- No splice and no replay. -/
def Faithful (captures images : List (List UInt8)) : Prop :=
  ∃ segs : List Seg, segs.Nodup ∧ List.Forall₂ (Seg.Cut captures) segs images

theorem Seg.Cut.append {captures : List (List UInt8)} {g : Seg} {img : List UInt8}
    (h : g.Cut captures img) (more : List (List UInt8)) : g.Cut (captures ++ more) img := by
  obtain ⟨c, hc, hlen, himg⟩ := h
  refine ⟨c, ?_, hlen, himg⟩
  rw [List.getElem?_append_left (List.getElem?_eq_some_iff.mp hc).1]
  exact hc

theorem faithful_nil : Faithful [] [] := ⟨[], List.nodup_nil, .nil⟩

/-- Further captures take nothing away. -/
theorem Faithful.append {captures images : List (List UInt8)} (h : Faithful captures images)
    (more : List (List UInt8)) : Faithful (captures ++ more) images := by
  obtain ⟨segs, hnodup, hcut⟩ := h
  exact ⟨segs, hnodup, hcut.imp fun _ _ hg => hg.append more⟩

/-- A client that has not yet emitted all is faithful too. -/
theorem Faithful.earlier {captures images images' : List (List UInt8)}
    (h : Faithful captures images) (hpre : images' <+: images) : Faithful captures images' := by
  obtain ⟨segs, hnodup, hcut⟩ := h
  obtain ⟨rest, rfl⟩ := hpre
  exact ⟨segs.take images'.length, hnodup.sublist (List.take_sublist _ _),
    List.forall₂_take_append _ _ _ hcut⟩

/-- A further capture may add one segment of its own. -/
theorem Faithful.append_segment {captures images : List (List UInt8)} (h : Faithful captures images)
    {content img : List UInt8} (himg : img <:+: content) :
    Faithful (captures ++ [content]) (images ++ [img]) := by
  obtain ⟨segs, hnodup, hcut⟩ := h
  obtain ⟨p, q, rfl⟩ := himg
  have hlen : segs.length = images.length := hcut.length_eq
  refine ⟨segs ++ [⟨captures.length, p.length, img.length⟩], ?_, ?_⟩
  · rw [List.nodup_append]
    refine ⟨hnodup, List.nodup_singleton _, ?_⟩
    -- the segments so far are of earlier captures
    rintro g hg g' hg' rfl
    rw [List.mem_singleton] at hg'
    subst hg'
    obtain ⟨i, hi, hgi⟩ := List.getElem_of_mem hg
    obtain ⟨c, hc, -⟩ := hcut.get hi (hlen ▸ hi)
    rw [List.get_eq_getElem, hgi] at hc
    exact absurd (List.getElem?_eq_some_iff.mp hc).1 (lt_irrefl _)
  · have hold := hcut.imp fun _ _ hg => hg.append [p ++ img ++ q]
    refine List.rel_append hold (.cons ?_ .nil)
    refine ⟨p ++ img ++ q, ?_, ?_, ?_⟩
    · exact List.getElem?_concat_length ..
    · show p.length + img.length ≤ (p ++ img ++ q).length
      rw [List.length_append, List.length_append]
      omega
    · show img = ((p ++ img ++ q).drop p.length).take img.length
      rw [List.append_assoc, List.drop_left, List.take_left]

/-! ### Runs of harmless steps -/

/-- The bytes of a capture. -/
theorem sync_bytes {bytes pre : List UInt8}
    (hs : Sync size base (run (Scan.step jpeg) (.init 0) pre) cam)
    (h : exec (restrict (Harmless size) (step size num_buffs)) cam (bytes.map .byte) = some cam') :
    Sync size base (run (Scan.step jpeg) (.init 0) (pre ++ bytes)) cam' := by
  induction bytes generalizing pre cam with
  | nil =>
    cases h
    rw [List.append_nil]
    exact hs
  | cons b bytes ih =>
    rw [List.map_cons] at h
    obtain ⟨c, hc, h⟩ := exec_cons_eq_some.mp h
    rw [restrict_eq_some] at hc
    have hseg := segment_run (m := jpeg) (by decide : (0 : UInt8) ≠ jpeg.start₁) pre
    have hsync := sync_byte hs hseg.idle hc.1 hc.2
    rw [← run_concat (Scan.step jpeg)] at hsync
    rw [show pre ++ b :: bytes = pre ++ [b] ++ bytes by simp]
    exact ih hsync h

/-- The images of a client in step: those before the capture, and at most one of it. -/
theorem Sync.images {pre : List UInt8}
    (hs : Sync size base (run (Scan.step jpeg) (.init 0) pre) cam) :
    cam.client.images <+: base ∨ ∃ F, F <:+: pre ∧ cam.client.images <+: base ++ [F] := by
  have hahead : cam.client.images <+: cam.ahead.images := images_prefix _ _
  cases hheader : cam.is_header with
  | true =>
    rw [hs.inside hheader] at hahead
    exact .inl hahead
  | false =>
    obtain ⟨-, ⟨-, himages⟩ | ⟨-, -, F, hF, himages⟩⟩ := hs.outside hheader
    · exact .inl (himages ▸ hahead)
    · have hseg := segment_run (m := jpeg) (by decide : (0 : UInt8) ≠ jpeg.start₁) pre
      exact .inr ⟨F, hseg.images F (List.mem_of_getLast? hF), himages ▸ hahead⟩

/-- The beginning of a capture. -/
theorem sync_capture {content : List UInt8} (hr : Rest size cam)
    (h : exec (restrict (Harmless size) (step size num_buffs)) cam (.start :: content.map .byte)
      = some cam') :
    Sync size cam.client.images (run (Scan.step jpeg) (.init 0) content) cam' := by
  obtain ⟨c, hc, h⟩ := exec_cons_eq_some.mp h
  rw [restrict_eq_some] at hc
  have hsync : Sync size cam.client.images (run (Scan.step jpeg) (.init 0) []) c :=
    sync_begin hr hc.2
  exact sync_bytes hsync h

/-- **One capture.**  It adds a segment of its own, or nothing. -/
theorem capture_harmless {content : List UInt8} (hr : Rest size cam)
    (h : exec (restrict (Harmless size) (step size num_buffs)) cam (camCapture content)
      = some cam') :
    Rest size cam' ∧ (cam'.client.images = cam.client.images ∨
      ∃ F, F <:+: content ∧ cam'.client.images = cam.client.images ++ [F]) := by
  rw [camCapture, ← List.cons_append] at h
  obtain ⟨c, hbytes, hfinish⟩ := exec_append_eq_some.mp h
  have hsync := sync_capture hr hbytes
  obtain ⟨c', hfin, hend⟩ := exec_cons_eq_some.mp hfinish
  rw [restrict_eq_some] at hfin
  cases hend
  obtain ⟨hrest, hnone | ⟨-, F, hF, himages⟩⟩ := sync_finish hsync hfin.1 hfin.2
  · exact ⟨hrest, .inl hnone.2⟩
  · have hseg := segment_run (m := jpeg) (by decide : (0 : UInt8) ≠ jpeg.start₁) content
    exact ⟨hrest, .inr ⟨F, hseg.images F (List.mem_of_getLast? hF), himages⟩⟩

/-- **All captures.** -/
theorem thread_harmless {captures : List (List UInt8)}
    (h : exec (restrict (Harmless size) (step size num_buffs)) (boot size) (camThread captures)
      = some cam) :
    Rest size cam ∧ Faithful captures cam.client.images := by
  induction captures using List.reverseRecOn generalizing cam with
  | nil =>
    cases h
    exact ⟨rest_boot, faithful_nil⟩
  | append_singleton captures content ih =>
    rw [camThread_concat] at h
    obtain ⟨c, hc, h⟩ := exec_append_eq_some.mp h
    obtain ⟨hrest, hfaithful⟩ := ih hc
    obtain ⟨hrest', himages | ⟨F, hF, himages⟩⟩ := capture_harmless hrest h
    · rw [himages]
      exact ⟨hrest', hfaithful.append [content]⟩
    · rw [himages]
      exact ⟨hrest', hfaithful.append_segment hF⟩

/-- A capture cut short: nothing, or the start and some bytes, or all of it. -/
theorem prefix_camCapture {content : List UInt8} {es : List Ev} (h : es <+: camCapture content) :
    es = [] ∨ (∃ pre, pre <+: content ∧ es = .start :: pre.map .byte) ∨
      es = camCapture content := by
  rcases List.prefix_cons_iff.mp h with rfl | ⟨t, rfl, ht⟩
  · exact .inl rfl
  · rcases List.prefix_concat_iff.mp ht with rfl | ht
    · exact .inr (.inr rfl)
    · obtain ⟨pre, hpre, rfl⟩ := List.prefix_map_iff.mp ht
      exact .inr (.inl ⟨pre, hpre, rfl⟩)

/-- **Any moment of a run.** -/
theorem faithful_run {captures : List (List UInt8)} {es : List Ev} (hes : es <+: camThread captures)
    (h : exec (restrict (Harmless size) (step size num_buffs)) (boot size) es = some cam) :
    Faithful captures cam.client.images := by
  induction captures using List.reverseRecOn generalizing es cam with
  | nil =>
    obtain rfl : es = [] := List.prefix_nil.mp hes
    cases h
    exact faithful_nil
  | append_singleton captures content ih =>
    rw [camThread_concat] at hes
    rcases List.prefix_or_prefix_of_prefix hes (List.prefix_append _ _) with hold | ⟨t, rfl⟩
    · -- the run has not come to the last capture
      exact (ih hold h).append [content]
    · -- the run is in the last capture
      rw [List.prefix_append_right_inj] at hes
      obtain ⟨c, hc, h⟩ := exec_append_eq_some.mp h
      obtain ⟨hrest, hfaithful⟩ := thread_harmless hc
      rcases prefix_camCapture hes with rfl | ⟨pre, hpre, rfl⟩ | rfl
      · cases h
        exact hfaithful.append [content]
      · -- some of its bytes have been read
        rcases (sync_capture hrest h).images with himages | ⟨F, hF, himages⟩
        · exact (hfaithful.earlier himages).append [content]
        · exact (hfaithful.append_segment (hF.trans hpre.isInfix)).earlier himages
      · obtain ⟨-, himages | ⟨F, hF, himages⟩⟩ := capture_harmless hrest h
        · exact himages ▸ hfaithful.append [content]
        · exact himages ▸ hfaithful.append_segment hF

/-- **No splice and no replay in a run of harmless steps.**  Whatever the FIFO contents, at
    every moment of the run and of the transmission, and however the stream is cut. -/
theorem faithful_of_harmless (size num_buffs : ℕ) (captures : List (List UInt8)) {es : List Ev}
    (hes : es <+: camThread captures) {cam : Writer}
    (h : exec (restrict (Harmless size) (step size num_buffs)) (boot size) es = some cam)
    (datas : List (List UInt8)) (hdatas : datas.flatten <+: camTCP cam.commits) :
    Faithful captures (jpegClient datas).images := by
  obtain ⟨rest, hrest⟩ := hdatas
  have hsent : (jpegClient datas).images <+: cam.client.images := by
    have hclient : cam.client = run (Scan.step jpeg) (jpegClient datas) rest := by
      rw [jpegClient_flatten, ← run_append, hrest]
      rfl
    rw [hclient]
    exact images_prefix _ _
  exact (faithful_run hes h).earlier hsent

theorem faithful_of_harmless_two :
    ∃ cam, exec (restrict (Harmless 8) (step 8 2)) (boot 8)
        (camThread [[0xFF, 0xD8, 1, 0xFF, 0xD9, 7], [0xFF, 0xD9]]) = some cam ∧
      Faithful [[0xFF, 0xD8, 1, 0xFF, 0xD9, 7], [0xFF, 0xD9]]
        (jpegClient [camTCP cam.commits]).images ∧
      (jpegClient [camTCP cam.commits]).images = [[0xFF, 0xD8, 1, 0xFF, 0xD9]] :=
  ⟨_, rfl, faithful_of_harmless 8 2 _ List.prefix_rfl rfl _ (by simp), by decide⟩

/-! ### The replay -/

/-- The whole first capture stands in one place only when the others are empty. -/
theorem Seg.Cut.whole {F : List UInt8} {n : ℕ} {g : Seg} (hF : F ≠ [])
    (h : g.Cut (F :: List.replicate n []) F) : g = ⟨0, 0, F.length⟩ := by
  obtain ⟨capture, offset, length⟩ := g
  obtain ⟨content, hcontent, hle, himg⟩ := h
  have hlen : F.length = min length (content.length - offset) := by
    conv_lhs => rw [himg]
    simp
  have hpos : 0 < F.length := List.length_pos_iff.mpr hF
  cases capture with
  | zero =>
    obtain rfl : F = content := by simpa using hcontent
    simp only [Seg.mk.injEq, true_and]
    simp only at hle
    omega
  | succ k =>
    obtain ⟨-, rfl⟩ : k < n ∧ [] = content := by simpa [List.getElem?_replicate] using hcontent
    rw [List.length_nil] at hlen
    omega

/-- Two empty captures after a frame: the second sends the buffer of the frame again. -/
theorem replays :
    ¬ ∀ (size num_buffs : ℕ) (captures : List (List UInt8)) (cam : Writer)
        (datas : List (List UInt8)),
      exec (step size num_buffs) (boot size) (camThread captures) = some cam →
      datas.flatten = camTCP cam.commits → Faithful captures (jpegClient datas).images := by
  intro h
  have hrun : ∃ cam,
      exec (step 8 2) (boot 8) (camThread [[0xFF, 0xD8, 0xFF, 0xD9], [], []]) = some cam ∧
      (jpegClient [camTCP cam.commits]).images
        = [[0xFF, 0xD8, 0xFF, 0xD9], [0xFF, 0xD8, 0xFF, 0xD9]] :=
    ⟨_, rfl, by decide⟩
  obtain ⟨cam, hcam, himages⟩ := hrun
  obtain ⟨segs, hnodup, hcut⟩ := h 8 2 _ cam [camTCP cam.commits] hcam (by simp)
  rw [himages] at hcut
  obtain _ | ⟨hg, _ | ⟨hg', _⟩⟩ := hcut
  have hsame := (hg.whole (n := 2) (by decide)).trans
    (hg'.whole (n := 2) (by decide)).symm
  simp [hsame] at hnodup

end Wheelson.Cam
