import Wheelson.Cam.Frames
import Wheelson.Cam.Stream

namespace Wheelson.Cam

/-!
# Frames, at every moment

The buffers are sent while the captures are read, so the client may be asked at any moment.

* `images_part` — in the middle of a capture the client has the frames before it, and at most
  its own.
* `images_run` — so it has a beginning of the frames at every moment of the captures.
-/

open Machine Scan

variable {size num_buffs : ℕ} {base : List (List UInt8)} {cam cam' : Writer}
  {F pad pre : List UInt8}

/-- In the middle of a capture whose scan finds `F`. -/
theorem reading_images (hr : Reading size base pre cam)
    (hF : (run (Scan.step jpeg) (.init 0) pre).images <+: [F]) :
    cam.client.images <+: base ++ [F] := by
  have hahead : cam.client.images <+: cam.ahead.images := images_prefix _ _
  have hbase : base <+: base ++ [F] := List.prefix_append _ _
  cases hheader : cam.is_header with
  | true =>
    rw [hr.sync.inside hheader] at hahead
    exact hahead.trans hbase
  | false =>
    obtain ⟨-, ⟨-, himages⟩ | ⟨-, -, G, hG, himages⟩⟩ := hr.sync.outside hheader
    · exact (himages ▸ hahead).trans hbase
    · -- the frame of the writer is that of the scan
      have hmem := hF.subset (List.mem_of_getLast? hG)
      obtain rfl : G = F := by simpa using hmem
      exact himages ▸ hahead

/-- A capture, read in part. -/
theorem images_part (hr : Rest size cam) (hsw : Swept cam) (hF : IsFrame jpeg F)
    (h8 : NoPair 0xFF 0xD8 pad) (h9 : NoPair 0xFF 0xD9 pad) (hpre : pre <+: F ++ pad)
    (h : exec (step size num_buffs) cam (.start :: pre.map .byte) = some cam') :
    cam'.client.images <+: cam.client.images ++ [F] := by
  have hne : (0xD9 : UInt8) ≠ 0xFF := by decide
  have hscan : (run (Scan.step jpeg) (.init 0) (F ++ pad)).images = [F] := by
    rw [run_append, run_frame hF (State.idle_init 0), run_idle rfl (h8.cons_of_ne hne)]
    rfl
  have himages {base : List (List UInt8)} (hread : Reading size base pre cam') :
      cam'.client.images <+: base ++ [F] := by
    apply reading_images hread
    obtain ⟨rest, hrest⟩ := hpre
    rw [← hscan, ← hrest, run_append]
    exact images_prefix _ _
  have hsame (hclient : cam'.client = cam.client) :
      cam'.client.images <+: cam.client.images ++ [F] := by
    rw [hclient]
    exact List.prefix_append _ _
  rcases List.prefix_or_prefix_of_prefix hpre (List.prefix_append F pad) with hin | ⟨p, rfl⟩
  · obtain ⟨mid, rfl, -, hmid⟩ := hF.body
    have hall : NoPair 0xFF 0xD8 (0xD8 :: mid ++ [0xD9]) := hF.start_once
    rcases List.prefix_cons_iff.mp hin with rfl | ⟨t, rfl, ht⟩
    · cases h
      exact hsame rfl
    rcases List.prefix_cons_iff.mp ht with rfl | ⟨q, rfl, hq⟩
    · -- the first byte of the header
      cases h
      exact hsame rfl
    rcases List.prefix_concat_iff.mp hq with rfl | hq
    · have hclose := reading_frame hr hsw hF h
      exact himages hclose.1
    · have hsplit : exec (step size num_buffs) cam
          ([.start, .byte 0xFF, .byte 0xD8] ++ q.map .byte) = some cam' := h
      obtain ⟨c, hopen, h⟩ := exec_append_eq_some.mp hsplit
      obtain ⟨hread, htemp, -⟩ := reading_open hr hsw hopen
      obtain ⟨r, rfl⟩ := hq
      refine himages (reading_plain hread ?_ ?_ h).1
      · rw [htemp]
        have hbody : NoPair 0xFF 0xD8 (0xD8 :: q ++ r) := hall.left_of_append
        exact hbody.left_of_append
      · rw [htemp]
        have hbody : NoPair 0xFF 0xD9 (0xD8 :: q ++ r) := hmid
        exact hbody.left_of_append
  · rw [List.prefix_append_right_inj] at hpre
    obtain ⟨r, rfl⟩ := hpre
    rw [List.map_append, ← List.cons_append] at h
    obtain ⟨c, hframe, h⟩ := exec_append_eq_some.mp h
    obtain ⟨hread, htemp, -, -⟩ := reading_frame hr hsw hF hframe
    exact himages (reading_plain hread (htemp ▸ h8.left_of_append.cons_of_ne hne)
      (htemp ▸ h9.left_of_append.cons_of_ne hne) h).1

/-- **At every moment of the captures** the committed buffers hold a beginning of their frames. -/
theorem images_run {frames captures : List (List UInt8)}
    (hcaptures : List.Forall₂ FrameAndPadding frames captures) {es : List Ev}
    (hes : es <+: camThread captures)
    (h : exec (step size num_buffs) (boot size) es = some cam) : cam.client.images <+: frames := by
  induction captures using List.reverseRecOn generalizing frames es cam with
  | nil =>
    obtain rfl : es = [] := List.prefix_nil.mp hes
    cases h
    exact List.nil_prefix
  | append_singleton captures content ih =>
    have hold := List.forall₂_take_append _ _ _ hcaptures
    have hnew := List.forall₂_drop_append _ _ _ hcaptures
    obtain ⟨F, rest, ⟨pad, rfl, hF, h8, h9⟩, hnil, hdrop⟩ := List.forall₂_cons_right_iff.mp hnew
    obtain rfl := List.forall₂_nil_right_iff.mp hnil
    have hframes : frames = frames.take captures.length ++ [F] := by
      rw [← hdrop, List.take_append_drop]
    rw [camThread_concat] at hes
    rcases List.prefix_or_prefix_of_prefix hes (List.prefix_append _ _) with hin | ⟨t, rfl⟩
    · exact (ih hold hin h).trans (List.take_prefix _ _)
    · rw [List.prefix_append_right_inj] at hes
      obtain ⟨c, hc, h⟩ := exec_append_eq_some.mp h
      obtain ⟨hrest, hswept, himages⟩ := thread_frames hold hc
      rw [hframes, ← himages]
      rcases prefix_camCapture hes with rfl | ⟨pre, hpre, rfl⟩ | rfl
      · cases h
        exact List.prefix_append _ _
      · exact images_part hrest hswept hF h8 h9 hpre h
      · rw [(capture_frame hrest hswept hF h8 h9 h).2.2]

end Wheelson.Cam
