import Wheelson.Cam.Video
import Wheelson.Lib.Late

namespace Wheelson.Cam.Video

/-!
# A client that connects late

`camTCP` serves one client after the other, and takes no notice of where in a frame it stands when
a client connects.  What has gone to the clients before it, or was lost at the end of their
connections, is the beginning `before` of the stream; what the new client receives is what follows.

* `client_late` — the client has the frames from then on, one after the other, but for the one
  under way.
-/

open Machine Scan

variable {σ : Type} {chip : Chip σ} {size : ℕ} {s : Sys σ}

theorem frames_isFrame {frames captures : List (List UInt8)}
    (h : List.Forall₂ FrameAndPadding frames captures) : ∀ F ∈ frames, IsFrame jpeg F := by
  induction h with
  | nil => exact fun F hF => absurd hF List.not_mem_nil
  | cons hframe _ ih =>
    obtain ⟨pad, -, hF, -⟩ := hframe
    exact List.forall_mem_cons.mpr ⟨hF, ih⟩

/-- **A client that connects late.**  With `before` sent before it has connected, in every
    interleaving, a client has at every moment consecutive frames: from the first one that was
    not complete in `before`, or from the next; and between two captures, once all has been
    received, all of them.  No capture writes beyond a buffer. -/
theorem client_late (hchip : chip.Documented) (hsize : 0 < size) (c : σ) (num_buffs : Ipc.Capacity)
    (h : Reachable (step chip size) (boot size c num_buffs) s)
    (hin : Contained size num_buffs s.captures)
    {frames : List (List UInt8)} (hcaptures : List.Forall₂ FrameAndPadding frames s.captures)
    (before : List UInt8) (datas : List (List UInt8))
    (hdatas : before ++ datas.flatten <+: sent s.table) :
    s.Inside size ∧ ∃ j ≤ 1, (jpegClient datas).images
        <+: frames.drop ((jpegClient [before]).images.length + j) ∧
      (s.pc.between → before ++ datas.flatten = s.table.commits.flatten →
        (jpegClient datas).images
          = frames.drop ((jpegClient [before]).images.length + j)) := by
  obtain ⟨evs, hs⟩ := linked_reachable hchip hsize h
  obtain ⟨hpart, hall⟩ := hs.stream_images hcaptures hdatas
  rw [jpegClient_flatten, jpegClient_flatten, List.flatten_singleton]
  -- a client that had connected before would have read `before` first
  rw [run_append, run_images_append] at hpart hall
  have hclean : Clean jpeg
      (outputs jpeg (run (Scan.step jpeg) (.init 0) before) datas.flatten) := by
    intro img himg
    exact (frames_isFrame hcaptures img (hpart.subset (List.mem_append_right _ himg))).start_once
  obtain ⟨j, hj, hlate⟩ := outputs_late (State.idle_init 0) (by decide)
    ((State.tight_init 0).run before) hclean
  have himages : (run (Scan.step jpeg) (.init 0) datas.flatten).images
      = outputs jpeg (.init 0) datas.flatten := rfl
  refine ⟨hs.store_lt hin, j, hj, ?_, fun hpc hflat => ?_⟩
  · have hdrop := hpart.drop ((run (Scan.step jpeg) (.init 0) before).images.length + j)
    rw [← List.drop_drop, List.drop_left] at hdrop
    rw [himages, hlate]
    exact hdrop
  · rw [himages, hlate, ← hall hpc hflat, ← List.drop_drop, List.drop_left]

/-- Two captures, read and sent. -/
def lateRun : Option (Sys Sim) :=
  exec (step sim 4) (boot 4 ⟨.idle, [[0xFF, 0xD8, 1, 2, 3, 0xFF, 0xD9],
      [0xFF, 0xD8, 4, 5, 6, 0xFF, 0xD9]]⟩ NUM_CAM_BUFFERS)
    (List.replicate 24 .cam ++ List.replicate 7 .tcp ++ List.replicate 10 .cam ++
      List.replicate 19 .tcp ++ List.replicate 38 .cam ++ List.replicate 17 .tcp)

/-- The client connects when the first buffer has been sent. -/
theorem client_late_second : ∃ (s : Sys Sim) (j : ℕ), j ≤ 1 ∧
    sent s.table
      = [0xFF, 0xD8, 1, 2] ++ [[3, 0xFF, 0xD9, 0, 0xFF], [0xD8, 4, 5, 6, 0xFF, 0xD9, 0]].flatten ∧
    (jpegClient [[3, 0xFF, 0xD9, 0, 0xFF], [0xD8, 4, 5, 6, 0xFF, 0xD9, 0]]).images
      = [[0xFF, 0xD8, 1, 2, 3, 0xFF, 0xD9], [0xFF, 0xD8, 4, 5, 6, 0xFF, 0xD9]].drop
        ((jpegClient [[0xFF, 0xD8, 1, 2]]).images.length + j) := by
  have hrun : lateRun = some (lateRun.get (by decide +kernel)) := (Option.some_get _).symm
  have hcaptures : (lateRun.get (by decide +kernel)).captures =
      [[0xFF, 0xD8, 1, 2, 3, 0xFF, 0xD9], [0xFF, 0xD8, 4, 5, 6, 0xFF, 0xD9]] := by decide +kernel
  have hin : Contained 4 NUM_CAM_BUFFERS (lateRun.get (by decide +kernel)).captures := by
    rw [hcaptures]
    exact ⟨_, rfl⟩
  have hframes : List.Forall₂ FrameAndPadding
      [[0xFF, 0xD8, 1, 2, 3, 0xFF, 0xD9], [0xFF, 0xD8, 4, 5, 6, 0xFF, 0xD9]]
      (lateRun.get (by decide +kernel)).captures := by
    rw [hcaptures]
    refine .cons ⟨[], rfl, ?_, by decide, by decide⟩
      (.cons ⟨[], rfl, ?_, by decide, by decide⟩ .nil)
    · exact ⟨by decide, by decide, by decide, by decide⟩
    · exact ⟨by decide, by decide, by decide, by decide⟩
  have hsent : sent (lateRun.get (by decide +kernel)).table
      = [0xFF, 0xD8, 1, 2] ++
        [[3, 0xFF, 0xD9, 0, 0xFF], [0xD8, 4, 5, 6, 0xFF, 0xD9, 0]].flatten := by
    decide +kernel
  obtain ⟨-, j, hj, -, himages⟩ := client_late sim_documented (by decide) _ _
    (Reachable.exec _ .init hrun) hin hframes [0xFF, 0xD8, 1, 2] _ (by rw [hsent])
  exact ⟨_, j, hj, hsent, himages (by decide +kernel) (by decide +kernel)⟩

end Wheelson.Cam.Video
