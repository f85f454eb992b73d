import Wheelson.Tcp.CmdClient
import Wheelson.Tcp.Receive

namespace Wheelson.Tcp

/-!
# The update channel

`updateTCP` sends one frame of `PDU_SIZE + 2` bytes for each PDU, and `update_process`
receives blocks of that size.

* `Shown p o` — the object `o` says what the PDU `p` says.
* `updateProcess_frames` — a frame is read as its PDU, whatever its text holds: the scan of
  `get_buff` stops at the first two bytes.
* `update_end_to_end` — every PDU is shown, however TCP splits the stream.
-/

open Ipc

/-- `updateTCP` on one connection, for what its `send` calls return: the bytes sent and the
    PDUs left in `tx_pdu_fifo_g`. -/
def updateTCP : List ℤ → List Pdu → List UInt8 × List Pdu
  | bytesSent :: results, out_pdu :: tx =>
    let out_buff := pduFillBuffer out_pdu
    if 0 ≤ bytesSent then
      let r := updateTCP results tx
      (out_buff.toList.take bytesSent.toNat ++ r.1, r.2)
    else ([], tx)
  | _, tx => ([], tx)

/-- A `pdu_t` whose `msg` is a NUL-terminated string of length `msg_len`. -/
structure Text (p : Pdu) : Prop where
  terminated : (cstr p.msg.toList).length ≤ 31
  msg_len : p.msg_len.toNat = (cstr p.msg.toList).length

/-- An object with the fields and the text of a PDU. -/
structure Shown (p : Pdu) (o : PyObj) : Prop where
  cmd : o.cmd = some p.cmd.toNat
  x : o.x = some p.x.toNat
  y : o.y = some p.y.toNat
  msg_len : o.msg_len = some p.msg_len.toNat
  text : o.msg.map (·.take p.msg_len.toNat) = some (cstr p.msg.toList)

/-- Complete sends transmit the frames. -/
theorem updateTCP_complete (ps : List Pdu) :
    updateTCP (List.replicate ps.length (PDU_SIZE + 2 : ℕ)) ps
      = ((ps.map fun p => (pduFillBuffer p).toList).flatten, []) := by
  induction ps with
  | nil => rfl
  | cons p ps ih =>
    rw [List.length_cons, List.replicate_succ, updateTCP, ih, if_pos (Int.natCast_nonneg _),
      Int.toNat_natCast, List.take_of_length_le (le_of_eq (pduFillBuffer p).toList_length)]
    rfl

/-- The text of a frame is the beginning of its `msg`. -/
theorem take_msg_len {p : Pdu} (hp : Text p) :
    p.msg.toList.take p.msg_len.toNat = cstr p.msg.toList := by
  rw [hp.msg_len]
  exact (List.prefix_iff_eq_take.mp (List.takeWhile_prefix _)).symm

/-- **One frame.** -/
theorem getBuff_frame {p : Pdu} (hp : Text p) (self : PyObj) :
    ∃ o, self.getBuff (pduFillBuffer p).toList = (o, false) ∧ Shown p o := by
  refine ⟨⟨p.cmd.toNat, p.x.toNat, p.y.toNat, p.msg_len.toNat, p.msg.toList⟩, rfl, rfl, rfl, rfl,
    rfl, ?_⟩
  exact congrArg some (take_msg_len hp)

theorem updateProcess_frames {ps : List Pdu} (hps : ∀ p ∈ ps, Text p) (rx_pdu : PyObj) :
    List.Forall₂ Shown ps
      (updateProcess rx_pdu (ps.map fun p => (pduFillBuffer p).toList)) := by
  induction ps generalizing rx_pdu with
  | nil => exact .nil
  | cons p ps ih =>
    rw [List.forall_mem_cons] at hps
    obtain ⟨o, ho, hshown⟩ := getBuff_frame hps.1 rx_pdu
    rw [List.map_cons, updateProcess, ho]
    exact .cons hshown (ih hps.2 o)

/-- **The update channel, end to end.**  The PDUs that `updateTCP` sends completely on one
    connection arrive on `out_fifo` one for one and in order, however TCP splits the stream. -/
theorem update_end_to_end {ps : List Pdu} (hps : ∀ p ∈ ps, Text p) {chunks : List (List UInt8)}
    (hreq : Requested (PDU_SIZE + 2) 0 chunks)
    (hstream : chunks.flatten
      = (updateTCP (List.replicate ps.length (PDU_SIZE + 2 : ℕ)) ps).1) :
    List.Forall₂ Shown ps
      (updateProcess .new (receives (PDU_SIZE + 2) (by decide) (chunks.map .data))) := by
  rw [updateTCP_complete] at hstream
  rw [receives_blocks _ _ hreq hstream]
  · exact updateProcess_frames hps _
  · intro block hblock
    obtain ⟨p, -, rfl⟩ := List.mem_map.mp hblock
    exact (pduFillBuffer p).toList_length

/-- A text that holds the first start byte, in two chunks. -/
theorem update_end_to_end_two :
    let p : Pdu := { Pdu.zeroed with
      cmd := PDU_UPDATE
      msg_len := 2
      msg := ⟨[0x5E, 0x5E] ++ List.replicate 30 0, rfl⟩ }
    let stream := (updateTCP (List.replicate [p, p].length (PDU_SIZE + 2 : ℕ)) [p, p]).1
    List.Forall₂ Shown [p, p] (updateProcess .new (receives (PDU_SIZE + 2) (by decide)
      ([stream.take 20, (stream.drop 20).take 18, stream.drop 38].map .data))) := by
  intro p stream
  refine update_end_to_end ?_ ?_ ?_
  · intro q hq
    obtain rfl : q = p := by simpa using hq
    exact ⟨by decide, by decide⟩
  · decide
  · decide

end Wheelson.Tcp
