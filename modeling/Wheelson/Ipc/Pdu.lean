import Mathlib.Data.List.GetD
import Mathlib.Data.Vector.Basic

namespace Wheelson.Ipc

/-!
# `shared.h`: the protocol data unit

* `Pdu` — `pdu_t` with a one-byte `cmd`, so `PDU_SIZE` bytes.
* `pduFillBuffer`, `pduReadBuffer` — the conversions to and from a frame, the two start
  bytes followed by the bytes of the struct.
* `Buff.recv` — a chunk received over the start of a buffer that keeps its old bytes behind
  it; `Buff.at_recv` says which byte is which.
-/

/-! ### PDU codes -/

def PDU_MOVE : UInt8 := 0
def PDU_STOP : UInt8 := 1
def PDU_RESET : UInt8 := 2
def PDU_BLOCK : UInt8 := 3
def PDU_UPDATE : UInt8 := 4
def PDU_CHANGE_HEAD : UInt8 := 5
def PDU_GO_FORWARD : UInt8 := 6
def PDU_GO_REV : UInt8 := 7
def PDU_TURN_LEFT : UInt8 := 8
def PDU_TURN_RIGHT : UInt8 := 9

def PDU_FIFO_SIZE : ℕ := 64
def PDU_SIZE : ℕ := 36
def PDU_START_BYTE0 : UInt8 := 0x5E
def PDU_START_BYTE1 : UInt8 := 0xFF

/-! ### The struct and its frame -/

/-- `pdu_t`. -/
structure Pdu where
  cmd : UInt8
  x : UInt8
  y : UInt8
  msg_len : UInt8
  msg : List.Vector UInt8 32
deriving DecidableEq

/-- A `pdu_t` in zeroed memory. -/
def Pdu.zeroed : Pdu := ⟨0, 0, 0, 0, List.Vector.replicate 32 0⟩

/-- The C string in a `char` array. -/
def cstr (msg : List UInt8) : List UInt8 := msg.takeWhile (· ≠ 0)

/-- `uint8_t in_buff[PDU_SIZE+2]`. -/
abbrev Buff := List.Vector UInt8 (PDU_SIZE + 2)

/-- The byte `in_buff[i]`. -/
def Buff.at (in_buff : Buff) (i : ℕ) : UInt8 := in_buff.toList.getD i 0

/-- `pdu_fill_buffer`: the bytes it writes to `out_buff`. -/
def pduFillBuffer (in_pdu : Pdu) : Buff :=
  ⟨[PDU_START_BYTE0, PDU_START_BYTE1, in_pdu.cmd, in_pdu.x, in_pdu.y, in_pdu.msg_len]
    ++ in_pdu.msg.toList, by simp [PDU_SIZE]⟩

/-- The struct in the bytes of a frame after the start bytes. -/
def Buff.pdu (in_buff : Buff) : Pdu where
  cmd := in_buff.at 2
  x := in_buff.at 3
  y := in_buff.at 4
  msg_len := in_buff.at 5
  msg := ⟨in_buff.toList.drop 6, by rw [List.length_drop, in_buff.toList_length]; rfl⟩

/-- `pdu_read_buffer`: the return value and `*out_pdu` afterwards. -/
def pduReadBuffer (in_buff : Buff) (out_pdu : Pdu) : ℤ × Pdu :=
  if in_buff.at 0 ≠ PDU_START_BYTE0 ∨ in_buff.at 1 ≠ PDU_START_BYTE1 then (-1, out_pdu)
  else (0, in_buff.pdu)

/-- `recv` stores a chunk over the start of the buffer. -/
def Buff.recv (in_buff : Buff) (chunk : List UInt8) : Buff :=
  ⟨(chunk ++ in_buff.toList.drop chunk.length).take (PDU_SIZE + 2), by simp; omega⟩

/-! ### Lemmas -/

theorem pduReadBuffer_of_start {in_buff : Buff} (h0 : in_buff.at 0 = PDU_START_BYTE0)
    (h1 : in_buff.at 1 = PDU_START_BYTE1) (out_pdu : Pdu) :
    pduReadBuffer in_buff out_pdu = (0, in_buff.pdu) := by
  rw [pduReadBuffer, if_neg]
  simp [h0, h1]

theorem pduReadBuffer_of_not_start {in_buff : Buff}
    (h : in_buff.at 0 ≠ PDU_START_BYTE0 ∨ in_buff.at 1 ≠ PDU_START_BYTE1) (out_pdu : Pdu) :
    pduReadBuffer in_buff out_pdu = (-1, out_pdu) :=
  if_pos h

theorem Buff.toList_recv (in_buff : Buff) {chunk : List UInt8}
    (hlen : chunk.length ≤ PDU_SIZE + 2) :
    (in_buff.recv chunk).toList = chunk ++ in_buff.toList.drop chunk.length := by
  show (chunk ++ in_buff.toList.drop chunk.length).take (PDU_SIZE + 2) = _
  rw [List.take_of_length_le]
  rw [List.length_append, List.length_drop, in_buff.toList_length]
  omega

/-- Where a chunk lies over the buffer, and where the old bytes show through. -/
theorem Buff.at_recv (in_buff : Buff) {chunk : List UInt8} (hlen : chunk.length ≤ PDU_SIZE + 2)
    (i : ℕ) :
    (in_buff.recv chunk).at i = if i < chunk.length then chunk.getD i 0 else in_buff.at i := by
  unfold Buff.at
  rw [in_buff.toList_recv hlen]
  split
  · rename_i hi
    rw [List.getD_append _ _ _ _ hi]
  · rename_i hi
    rw [List.getD_append_right _ _ _ _ (not_lt.mp hi)]
    simp only [List.getD_eq_getElem?_getD, List.getElem?_drop]
    congr 3
    omega

end Wheelson.Ipc
