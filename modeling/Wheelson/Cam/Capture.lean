import Mathlib.Logic.Function.Basic
import Wheelson.Lib.Machine

namespace Wheelson.Cam

/-!
# `camHandler.c`: captures cut into buffers

`camCapture` as a machine over the bytes it reads from the camera FIFO:

* `Ev.start` — the locals are initialised and the first buffer is got;
* `Ev.byte b` — one turn of `while(len--)`, with `ACAM_read_fifo` returning `b`;
* `Ev.finish` — the flush after the loop.

A write outside the buffer is a step that is not enabled.  The buffers are those of the
ping-pong table, which the writer uses in turn; `commits` are their contents at the
updates, which is what `camTCP` sends.
-/

open Machine

/-- The writer's side of the table, with the locals of `camCapture`. -/
structure Writer where
  buffers : ℕ → List UInt8
  /-- The index of `cam_buffer`. -/
  head : ℕ
  commits : List (List UInt8)
  temp : UInt8
  is_header : Bool
  i : ℕ
  /-- The capture has committed a buffer. -/
  flushed : Bool
  /-- How many bytes of the buffer end a frame of the capture, 0 for none. -/
  kept : ℕ

inductive Ev
  | start
  | byte (b : UInt8)
  | finish
deriving DecidableEq, Repr

/-- `cam_buffer`. -/
def Writer.buffer (cam : Writer) : List UInt8 := cam.buffers cam.head

variable (size num_buffs : ℕ)

/-- `cam_buffer->data[i++] = v`. -/
def Writer.store (cam : Writer) (v : UInt8) : Option Writer :=
  if cam.i < size then
    some { cam with
      buffers := Function.update cam.buffers cam.head (cam.buffer.set cam.i v)
      i := cam.i + 1 }
  else none

/-- `ppipc_update_buffer` and the next `ppipc_get_buffer`. -/
def Writer.update (cam : Writer) : Writer :=
  { cam with
    commits := cam.commits ++ [cam.buffer]
    head := (cam.head + 1) % num_buffs }

/-- One turn of the loop. -/
def Writer.byte (cam : Writer) (b : UInt8) : Option Writer := do
  let temp_last := cam.temp
  let cam := { cam with temp := b }
  -- end of frame
  let cam ←
    if b = 0xD9 ∧ temp_last = 0xFF then
      (cam.store size b).map fun c =>
        { c with is_header := false, i := 0, kept := if cam.is_header then c.i else 0 }
    else some cam
  -- body of the image
  if cam.is_header then
    if cam.i < size then cam.store size b
    else ({ cam.update num_buffs with i := 0, flushed := true }).store size b
  -- look for the header
  else if b = 0xD8 ∧ temp_last = 0xFF then
    (({ cam with is_header := true, kept := 0 }).store size temp_last).bind fun c => c.store size b
  else some cam

def step (cam : Writer) : Ev → Option Writer
  | .start => some { cam with temp := 0, is_header := false, i := 0, flushed := false, kept := 0 }
  | .byte b => cam.byte size num_buffs b
  | .finish => some (cam.update num_buffs)

/-- `camCapture` on a FIFO content: its events. -/
def camCapture (content : List UInt8) : List Ev := .start :: (content.map .byte ++ [.finish])

/-- The captures of a run, one after the other. -/
def camThread (captures : List (List UInt8)) : List Ev := (captures.map camCapture).flatten

/-- What `camTCP` sends: each committed buffer, always whole. -/
def camTCP (commits : List (List UInt8)) : List UInt8 := commits.flatten

/-- The table before the first capture, its buffers zeroed. -/
def boot : Writer where
  buffers := fun _ => List.replicate size 0
  head := 0
  commits := []
  temp := 0
  is_header := false
  i := 0
  flushed := false
  kept := 0

theorem camThread_concat (captures : List (List UInt8)) (content : List UInt8) :
    camThread (captures ++ [content]) = camThread captures ++ camCapture content := by
  simp [camThread]

/-! ### One turn of the loop, case by case -/

variable {size num_buffs} {cam : Writer} {b : UInt8}

/-- The last byte of a frame, or a stray end marker. -/
theorem byte_stop (h : b = 0xD9 ∧ cam.temp = 0xFF) :
    cam.byte size num_buffs b
      = (Writer.store size { cam with temp := b } b).map fun c =>
          { c with is_header := false, i := 0, kept := if cam.is_header then c.i else 0 } := by
  have hd8 : ¬ (b = 0xD8 ∧ cam.temp = 0xFF) := by
    rintro ⟨h', -⟩
    rw [h.1] at h'
    exact absurd h' (by decide)
  unfold Writer.byte
  rw [if_pos h]
  cases Writer.store size { cam with temp := b } b with
  | none => rfl
  | some c => simp [hd8]

/-- A byte of a frame. -/
theorem byte_body (hheader : cam.is_header = true) (h : ¬ (b = 0xD9 ∧ cam.temp = 0xFF)) :
    cam.byte size num_buffs b
      = if cam.i < size then Writer.store size { cam with temp := b } b
        else Writer.store size
          { Writer.update num_buffs { cam with temp := b } with i := 0, flushed := true } b := by
  unfold Writer.byte
  rw [if_neg h]
  simp [hheader]

/-- The header of a frame. -/
theorem byte_start (hheader : cam.is_header = false) (h : b = 0xD8 ∧ cam.temp = 0xFF) :
    cam.byte size num_buffs b
      = (Writer.store size { cam with temp := b, is_header := true, kept := 0 } cam.temp).bind fun c =>
          c.store size b := by
  have hd9 : ¬ (b = 0xD9 ∧ cam.temp = 0xFF) := by
    rintro ⟨h', -⟩
    rw [h.1] at h'
    exact absurd h' (by decide)
  unfold Writer.byte
  rw [if_neg hd9]
  simp [hheader, h]

/-- Any other byte is skipped. -/
theorem byte_skip (hheader : cam.is_header = false) (hstop : ¬ (b = 0xD9 ∧ cam.temp = 0xFF))
    (hstart : ¬ (b = 0xD8 ∧ cam.temp = 0xFF)) :
    cam.byte size num_buffs b = some { cam with temp := b } := by
  unfold Writer.byte
  rw [if_neg hstop]
  simp [hheader, hstart]

end Wheelson.Cam
