import Wheelson.Tcp.Command

namespace Wheelson.Tcp

/-!
# The wire format

The robot writes and reads frames of `PDU_SIZE + 2` bytes; the client writes frames that end
with the text.  Both kinds of frame have one reader.

* `pduReadBuffer_fill`, `fill_of_accepted` — writing and reading are inverse to each other on
  the frames of the robot.
* `recv_self` — a buffer that begins with a chunk is one over which the chunk was received,
  so what `Command.lean` says of received frames holds of it.
* `wire_agreement` — the robot reads its own frames, and those of the client whatever follows.
-/

open Ipc

/-! ### The robot's own frames -/

theorem pduReadBuffer_fill (in_pdu out_pdu : Pdu) :
    pduReadBuffer (pduFillBuffer in_pdu) out_pdu = (0, in_pdu) := by
  rw [pduReadBuffer_of_start rfl rfl]
  rfl

/-- A buffer is accepted by its two start bytes. -/
theorem accepted_iff (in_buff : Buff) (out_pdu : Pdu) : (pduReadBuffer in_buff out_pdu).1 = 0 ↔
    in_buff.at 0 = PDU_START_BYTE0 ∧ in_buff.at 1 = PDU_START_BYTE1 := by
  constructor
  · intro h
    by_contra hno
    rw [not_and_or] at hno
    rw [pduReadBuffer_of_not_start hno] at h
    cases h
  · rintro ⟨h0, h1⟩
    rw [pduReadBuffer_of_start h0 h1]

/-- The six bytes before the text, and the text. -/
theorem toList_eq_header (in_buff : Buff) : in_buff.toList =
    [in_buff.at 0, in_buff.at 1, in_buff.at 2, in_buff.at 3, in_buff.at 4, in_buff.at 5] ++
      in_buff.toList.drop 6 := by
  have hlen : in_buff.toList.length = 38 := in_buff.toList_length
  unfold Buff.at
  match in_buff.toList, hlen with
  | _ :: _ :: _ :: _ :: _ :: _ :: _, _ => rfl

theorem fill_of_accepted {in_buff : Buff} {out_pdu : Pdu}
    (h : (pduReadBuffer in_buff out_pdu).1 = 0) :
    pduFillBuffer (pduReadBuffer in_buff out_pdu).2 = in_buff := by
  obtain ⟨h0, h1⟩ := (accepted_iff in_buff out_pdu).mp h
  rw [pduReadBuffer_of_start h0 h1]
  -- the start bytes are the only part that the PDU does not hold
  apply List.Vector.toList_injective
  rw [toList_eq_header in_buff, h0, h1]
  rfl

/-! ### The frames of the client -/

/-- Receiving again what is there already changes nothing. -/
theorem recv_self {in_buff : Buff} {chunk : List UInt8} (h : chunk <+: in_buff.toList) :
    in_buff.recv chunk = in_buff := by
  have hlen : chunk.length ≤ PDU_SIZE + 2 := in_buff.toList_length ▸ h.length_le
  apply List.Vector.toList_injective
  rw [in_buff.toList_recv hlen]
  exact List.prefix_iff_eq_append.mp h

/-- **One format.**  The robot reads back what it writes, writes back what it accepts, and
    reads the frames of the client as the client means them, whatever follows them. -/
theorem wire_agreement :
    (∀ in_pdu out_pdu, pduReadBuffer (pduFillBuffer in_pdu) out_pdu = (0, in_pdu)) ∧
    (∀ in_buff out_pdu, (pduReadBuffer in_buff out_pdu).1 = 0 →
      pduFillBuffer (pduReadBuffer in_buff out_pdu).2 = in_buff) ∧
    ∀ p : PyPdu, p.Ok → ∃ bytes, p.putBuff = some bytes ∧
      ∀ (in_buff : Buff) (out_pdu : Pdu), bytes <+: in_buff.toList →
        (pduReadBuffer in_buff out_pdu).1 = 0 ∧
          Delivered p (pduReadBuffer in_buff out_pdu).2 := by
  refine ⟨pduReadBuffer_fill, fun _ _ h => fill_of_accepted h, ?_⟩
  intro p hp
  refine ⟨p.frame, putBuff_ok hp, ?_⟩
  intro in_buff out_pdu hpre
  have hdelivered := delivered_frame hp in_buff out_pdu
  have hstart := start_frame hp in_buff
  -- as if the frame had just been received into this buffer
  rw [recv_self hpre] at hdelivered hstart
  exact ⟨(accepted_iff in_buff out_pdu).mpr hstart, hdelivered⟩

end Wheelson.Tcp
