import Wheelson.Cam.Capture
import Wheelson.Cam.JpegClient

namespace Wheelson.Cam

/-!
# Writes outside the buffer

`camCapture` tests `i < cam_buffer->size` before it stores a byte of a frame, but not before it
stores the last one.

* `InBounds` — no write of a capture is outside the buffer.
* `Fill` — how far the buffer is filled, from the part of the frame read so far.
* `inBounds_iff` — the writes stay in bounds exactly when no frame of the capture ends one byte
  behind a full buffer.
-/

open Machine Scan

variable {size num_buffs : ℕ} {d : Client} {cam : Writer} {b : UInt8}

/-- Whatever the table holds, the writes of the capture are inside the buffer. -/
def InBounds (size num_buffs : ℕ) (content : List UInt8) : Prop :=
  ∀ cam : Writer, (exec (step size num_buffs) cam (camCapture content)).isSome

/-- The last byte of the frame does not come just after a full buffer. -/
def Fits (size : ℕ) (F : List UInt8) : Prop := F.length % size ≠ 1

instance (size : ℕ) : DecidablePred (Fits size) := fun _ => inferInstanceAs (Decidable (¬ _))

/-! ### How far the buffer is filled -/

/-- The writer beside the scan `d` of the bytes read so far. -/
structure Fill (size : ℕ) (d : Client) (cam : Writer) : Prop where
  temp : cam.temp = d.temp
  header : cam.is_header = d.header
  inside : d.header = true →
    0 < cam.i ∧ cam.i ≤ size ∧ ∃ full, d.image.length = full * size + cam.i
  outside : d.header = false → cam.i = 0 ∧ d.image = []

theorem fill_start (cam : Writer) : Fill size (.init 0)
    { cam with temp := 0, is_header := false, i := 0, flushed := false, kept := 0 } where
  temp := rfl
  header := rfl
  inside h := by cases h
  outside _ := ⟨rfl, rfl⟩

/-- The store of the last byte is inside the buffer exactly when the frame fits. -/
theorem Fill.fits_iff (hsize : 2 ≤ size) (hs : Fill size d cam) (hd : d.header = true) :
    Fits size (d.image ++ [b]) ↔ cam.i < size := by
  obtain ⟨hpos, hle, full, hlen⟩ := hs.inside hd
  unfold Fits
  rw [List.length_append, hlen, List.length_singleton, Nat.add_assoc, Nat.mul_comm, Nat.mul_add_mod]
  rcases hle.lt_or_eq with hlt | heq
  · refine iff_of_true ?_ hlt
    rcases Nat.succ_le_of_lt hlt |>.lt_or_eq with hlt | heq
    · rw [Nat.mod_eq_of_lt hlt]
      omega
    · have heq : cam.i + 1 = size := heq
      rw [heq, Nat.mod_self]
      exact Nat.zero_ne_one
  · refine iff_of_false ?_ (by omega)
    rw [not_not, heq, Nat.add_mod_left, Nat.mod_eq_of_lt hsize]

theorem store_of_lt (cam : Writer) (h : cam.i < size) (v : UInt8) :
    ∃ cam', cam.store size v = some cam' ∧
    cam'.temp = cam.temp ∧ cam'.is_header = cam.is_header ∧ cam'.i = cam.i + 1 := by
  rw [Writer.store, if_pos h]
  exact ⟨_, rfl, rfl, rfl, rfl⟩

theorem store_of_not_lt (h : ¬ cam.i < size) (v : UInt8) : cam.store size v = none := if_neg h

/-! ### One byte -/

/-- The last byte of a frame goes one place beyond a full buffer. -/
theorem byte_overrun (hsize : 2 ≤ size) (hs : Fill size d cam) (hd : d.header = true)
    (hstop : b = 0xD9 ∧ d.temp = 0xFF) (hF : ¬ Fits size (d.image ++ [b])) :
    cam.byte size num_buffs b = none := by
  rw [hs.fits_iff hsize hd] at hF
  rw [byte_stop (hs.temp ▸ hstop), store_of_not_lt (by exact hF)]
  rfl

/-- The last byte of a frame that fits. -/
theorem fill_stop (hs : Fill size d cam) (hd : d.header = true) (hstop : b = 0xD9 ∧ d.temp = 0xFF)
    (hlt : cam.i < size) :
    ∃ cam', cam.byte size num_buffs b = some cam' ∧ Fill size (Scan.step jpeg d b) cam' := by
  obtain ⟨c, hc, htemp, -⟩ := store_of_lt { cam with temp := b } hlt b
  rw [byte_stop (hs.temp ▸ hstop), hc, step_stop hd hstop]
  refine ⟨_, rfl, htemp, rfl, ?_, fun _ => ⟨rfl, rfl⟩⟩
  intro h
  cases h

/-- An end marker outside a frame is stored at the front. -/
theorem fill_stray (hsize : 0 < size) (hs : Fill size d cam) (hd : d.header = false)
    (hstop : b = 0xD9 ∧ d.temp = 0xFF) :
    ∃ cam', cam.byte size num_buffs b = some cam' ∧ Fill size (Scan.step jpeg d b) cam' := by
  obtain ⟨hi, himage⟩ := hs.outside hd
  obtain ⟨c, hc, htemp, -⟩ := store_of_lt { cam with temp := b } (by exact hi ▸ hsize) b
  have hstart : ¬ (b = jpeg.start₂ ∧ d.temp = jpeg.start₁) := by
    rintro ⟨h, -⟩
    rw [hstop.1] at h
    cases h
  rw [byte_stop (hs.temp ▸ hstop), hc, step_idle hd hstart]
  refine ⟨_, rfl, htemp, hd.symm, ?_, fun _ => ⟨rfl, himage⟩⟩
  intro h
  cases hd.symm.trans h

/-- A byte of a frame, in this buffer or at the front of the next. -/
theorem fill_body (hsize : 0 < size) (hs : Fill size d cam) (hd : d.header = true)
    (hstop : ¬ (b = 0xD9 ∧ d.temp = 0xFF)) :
    ∃ cam', cam.byte size num_buffs b = some cam' ∧ Fill size (Scan.step jpeg d b) cam' := by
  obtain ⟨-, hle, full, hlen⟩ := hs.inside hd
  have hheader : cam.is_header = true := hs.header.trans hd
  rw [byte_body hheader (hs.temp ▸ hstop), step_body hd hstop]
  split
  · rename_i hlt
    obtain ⟨c, hc, htemp, hheader', hi⟩ := store_of_lt { cam with temp := b } hlt b
    refine ⟨c, hc, htemp, hheader'.trans hs.header, fun _ => ⟨?_, ?_, full, ?_⟩, ?_⟩
    · omega
    · rw [hi]
      exact hlt
    · show (d.image ++ [b]).length = _
      rw [List.length_append, hlen, hi]
      rfl
    · intro h
      cases hd.symm.trans h
  · rename_i hfull
    have hfull : cam.i = size := by omega
    obtain ⟨c, hc, htemp, hheader', hi⟩ := store_of_lt
      { Writer.update num_buffs { cam with temp := b } with i := 0, flushed := true } hsize b
    refine ⟨c, hc, htemp, hheader'.trans hs.header, fun _ => ⟨?_, ?_, full + 1, ?_⟩, ?_⟩
    · omega
    · rw [hi]
      exact hsize
    · show (d.image ++ [b]).length = _
      rw [List.length_append, hlen, hi, hfull, Nat.succ_mul]
      rfl
    · intro h
      cases hd.symm.trans h

/-- A header, or a byte that is skipped. -/
theorem fill_outside (hsize : 2 ≤ size) (hs : Fill size d cam) (hd : d.header = false)
    (hstop : ¬ (b = 0xD9 ∧ d.temp = 0xFF)) :
    ∃ cam', cam.byte size num_buffs b = some cam' ∧ Fill size (Scan.step jpeg d b) cam' := by
  obtain ⟨hi, himage⟩ := hs.outside hd
  have hheader : cam.is_header = false := hs.header.trans hd
  by_cases hstart : b = 0xD8 ∧ d.temp = 0xFF
  · -- two stores at the front
    obtain ⟨c, hc, htemp, hheader₁, hi₁⟩ := store_of_lt
      { cam with temp := b, is_header := true, kept := 0 } (by show cam.i < size; omega) cam.temp
    have hi₁ : c.i = 1 := by
      rw [hi₁]
      exact congrArg (· + 1) hi
    obtain ⟨c', hc', htemp', hheader', hi'⟩ := store_of_lt c (by omega : c.i < size) b
    rw [byte_start hheader (hs.temp ▸ hstart), hc, Option.bind_some, hc', step_start hd hstart]
    refine ⟨c', rfl, htemp'.trans htemp, hheader'.trans hheader₁, fun _ => ⟨?_, ?_, 0, ?_⟩, ?_⟩
    · omega
    · omega
    · show (d.image ++ [d.temp, b]).length = _
      rw [himage, hi', hi₁, Nat.zero_mul]
      rfl
    · intro h
      cases h
  · rw [byte_skip hheader (hs.temp ▸ hstop) (hs.temp ▸ hstart), step_idle hd hstart]
    refine ⟨_, rfl, rfl, hs.header, ?_, fun _ => ⟨hi, himage⟩⟩
    intro h
    cases hd.symm.trans h

/-- **Step rule.**  A byte is stored inside the buffer unless it ends a frame that does not
    fit. -/
theorem fill_byte (hsize : 2 ≤ size) (hs : Fill size d cam)
    (hF : d.header = true → b = 0xD9 ∧ d.temp = 0xFF → Fits size (d.image ++ [b])) :
    ∃ cam', cam.byte size num_buffs b = some cam' ∧ Fill size (Scan.step jpeg d b) cam' := by
  by_cases hstop : b = 0xD9 ∧ d.temp = 0xFF
  · cases hd : d.header with
    | true => exact fill_stop hs hd hstop ((hs.fits_iff hsize hd).mp (hF hd hstop))
    | false => exact fill_stray (by omega) hs hd hstop
  · cases hd : d.header with
    | true => exact fill_body (by omega) hs hd hstop
    | false => exact fill_outside hsize hs hd hstop

/-- The images after a byte all fit, if those before do and the byte does not end one that does
    not. -/
theorem step_fits (hold : ∀ F ∈ d.images, Fits size F)
    (hF : d.header = true → b = 0xD9 ∧ d.temp = 0xFF → Fits size (d.image ++ [b])) :
    ∀ F ∈ (Scan.step jpeg d b).images, Fits size F := by
  by_cases hd : d.header = true
  · by_cases hstop : b = 0xD9 ∧ d.temp = 0xFF
    · rw [step_stop hd hstop]
      rintro F hmem
      rcases List.mem_append.mp hmem with hmem | hmem
      · exact hold F hmem
      · rw [List.mem_singleton.mp hmem]
        exact hF hd hstop
    · rw [step_body hd hstop]
      exact hold
  · rw [Bool.not_eq_true] at hd
    by_cases hstart : b = 0xD8 ∧ d.temp = 0xFF
    · rw [step_start hd hstart]
      exact hold
    · rw [step_idle hd hstart]
      exact hold

/-! ### A capture -/

/-- The bytes of a capture.  The induction is on the bytes still to come. -/
theorem exec_bytes_iff (hsize : 2 ≤ size) (hs : Fill size d cam)
    (hold : ∀ F ∈ d.images, Fits size F) (content : List UInt8) :
    (exec (step size num_buffs) cam (content.map .byte)).isSome ↔
      ∀ F ∈ (run (Scan.step jpeg) d content).images, Fits size F := by
  induction content generalizing d cam with
  | nil => exact iff_of_true rfl hold
  | cons b content ih =>
    rw [List.map_cons, exec_cons, run_cons]
    by_cases hF : d.header = true → b = 0xD9 ∧ d.temp = 0xFF → Fits size (d.image ++ [b])
    · obtain ⟨cam', hbyte, hs'⟩ := fill_byte hsize hs hF
      rw [step, hbyte, Option.bind_some]
      exact ih hs' (step_fits hold hF)
    · -- the frame that does not fit is emitted, and stays
      simp only [Classical.not_imp] at hF
      obtain ⟨hd, hstop, hF⟩ := hF
      rw [step, byte_overrun hsize hs hd hstop hF]
      refine iff_of_false (by simp) fun hfits => hF (hfits _ ?_)
      have hkept : (Scan.step jpeg d b).images <+:
          (run (Scan.step jpeg) (Scan.step jpeg d b) content).images := images_prefix _ _
      apply hkept.subset
      rw [step_stop hd hstop]
      exact List.mem_append_right _ (List.mem_singleton_self _)

/-- **The writes stay in bounds exactly when every frame fits.**  Of the frames that a search
    finds in the FIFO content, none is one byte longer than a multiple of the buffer size. -/
theorem inBounds_iff (size num_buffs : ℕ) (hsize : 2 ≤ size) (content : List UInt8) :
    InBounds size num_buffs content ↔ ∀ F ∈ Scan.segments jpeg content, Fits size F := by
  have hexec (cam : Writer) : (exec (step size num_buffs) cam (camCapture content)).isSome ↔
      ∀ F ∈ Scan.segments jpeg content, Fits size F := by
    have himages : (run (Scan.step jpeg) (.init 0) content).images = Scan.segments jpeg content :=
      images_eq_segments jpeg_apart content (State.idle_init 0) (by decide)
    rw [← himages, ← exec_bytes_iff hsize (fill_start cam) fun _ hF => absurd hF List.not_mem_nil,
      camCapture, exec_cons, step, Option.bind_some, exec_append]
    -- the flush at the end writes nothing
    cases exec (step size num_buffs) _ (content.map .byte) <;> rfl
  exact ⟨fun h => (hexec (boot size)).mp (h _), fun h cam => (hexec cam).mpr h⟩

/-- A frame of two whole buffers. -/
theorem inBounds_iff_two : InBounds 4 2 [0xFF, 0xD8, 1, 2, 3, 4, 0xFF, 0xD9] ↔
    ∀ F ∈ Scan.segments jpeg [0xFF, 0xD8, 1, 2, 3, 4, 0xFF, 0xD9], Fits 4 F :=
  inBounds_iff 4 2 (by decide) _

/-- **A write one place beyond the buffer**: the end marker straddles its end. -/
theorem writes_beyond : ¬ ∀ size num_buffs content, 2 ≤ size → InBounds size num_buffs content := by
  intro h
  have hsome := h 4 2 [0xFF, 0xD8, 1, 0xFF, 0xD9] (by decide) (boot 4)
  revert hsome
  decide

end Wheelson.Cam
