import Wheelson.Lib.Scan

namespace Wheelson.Cam

/-!
# `jpeg_client.py`: the frames in the received stream

`jpegClient` runs the byte loop over the results of `server.receive()`; it is the scanner of
`Lib/Scan.lean` for the JPEG markers (`clientByte_eq_step`), and how the stream is cut makes
no difference (`jpegClient_flatten`).  So what it emits are the segments that a search in the
whole stream finds (`jpegClient_extracts`).
-/

open Machine

/-- The markers FF D8 and FF D9. -/
def jpeg : Scan.Markers UInt8 where
  start₁ := 0xFF
  start₂ := 0xD8
  stop₁ := 0xFF
  stop₂ := 0xD9
  start_ne := by decide
  ends_ne := by decide

/-- The variables of `jpeg_client`: `temp`, `header`, `new_image` and the images it has put on
    `write_queue`. -/
abbrev Client := Scan.State UInt8

/-- One turn of `for byte in data`. -/
def clientByte (client : Client) (byte : UInt8) : Client :=
  let temp_last := client.temp
  let client := { client with temp := byte }
  if client.header then
    -- look for the end of the image
    if client.temp = 0xD9 ∧ temp_last = 0xFF then
      let client := { client with header := false, image := client.image ++ [client.temp] }
      let client := { client with images := client.images ++ [client.image] }
      { client with image := [] }
    else { client with image := client.image ++ [client.temp] }
  else if client.temp = 0xD8 ∧ temp_last = 0xFF then
    let client := { client with header := true, image := client.image ++ [temp_last] }
    { client with image := client.image ++ [client.temp] }
  else client

/-- `jpeg_client`, over the data that `server.receive()` returns. -/
def jpegClient (datas : List (List UInt8)) : Client :=
  datas.foldl (fun client data => data.foldl clientByte client) (.init 0)

theorem clientByte_eq_step (client : Client) (byte : UInt8) :
    clientByte client byte = Scan.step jpeg client byte := by
  unfold clientByte Scan.step jpeg
  split_ifs <;> simp_all

/-- The client does not see how the stream is cut. -/
theorem jpegClient_flatten (datas : List (List UInt8)) :
    jpegClient datas = run (Scan.step jpeg) (.init 0) datas.flatten := by
  have hstep : clientByte = Scan.step jpeg := by
    funext client byte
    exact clientByte_eq_step client byte
  unfold jpegClient run
  rw [hstep, ← List.foldl_flatten]

theorem jpeg_apart : jpeg.Apart where
  start_stop := by decide
  stop_start := by decide

/-- **The images are the segments of the stream.**  However the stream is cut into `datas`, the
    images are those found by repeated search in the whole of it, and lie in it one behind the
    other. -/
theorem jpegClient_extracts (datas : List (List UInt8)) :
    (jpegClient datas).images = Scan.segments jpeg datas.flatten ∧
      Scan.Laid datas.flatten (jpegClient datas).images := by
  have himages : (jpegClient datas).images = Scan.segments jpeg datas.flatten := by
    rw [jpegClient_flatten,
      Scan.images_eq_segments jpeg_apart _ (Scan.State.idle_init 0) (by decide)]
    rfl
  refine ⟨himages, ?_⟩
  rw [himages]
  exact Scan.laid_segments _

end Wheelson.Cam
