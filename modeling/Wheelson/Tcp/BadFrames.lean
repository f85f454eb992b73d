import Wheelson.Tcp.Wire

namespace Wheelson.Tcp

/-!
# Bad frames

`pdu_read_buffer` returns -1 on a buffer without the start bytes and leaves `in_pdu` as it is;
`commandTCP` puts `in_pdu` into the FIFO all the same.

* `decoded` — the PDU that a call of `pdu_read_buffer` which returns 0 gives.
* `Obeys` — an iteration of `commandTCP` puts what it decoded, or nothing.
* `AllOpen` — every `recv` leaves the start bytes in the buffer, said of the chunks.
* `obeys_iff` — the one holds exactly when the other does.
-/

open Ipc

variable {in_buff : Buff} {in_pdu : Pdu} {chunks : List (List UInt8)} {chunk : List UInt8}

/-! ### One iteration -/

/-- The PDU in the buffer, if `pdu_read_buffer` returns 0 for it. -/
def decoded (in_buff : Buff) : Option Pdu :=
  let r := pduReadBuffer in_buff .zeroed
  if r.1 = 0 then some r.2 else none

/-- The start bytes are in the buffer. -/
def HasStart (in_buff : Buff) : Prop :=
  in_buff.at 0 = PDU_START_BYTE0 ∧ in_buff.at 1 = PDU_START_BYTE1

/-- The buffer after these chunks. -/
def bufferAfter (in_buff : Buff) (chunks : List (List UInt8)) : Buff :=
  chunks.foldl Buff.recv in_buff

/-- What an iteration puts is right only if `pdu_read_buffer` returns 0. -/
theorem put_decoded_iff (in_buff : Buff) (in_pdu : Pdu) :
    [(pduReadBuffer in_buff in_pdu).2] = (decoded in_buff).toList ↔ HasStart in_buff := by
  unfold decoded
  by_cases h : HasStart in_buff
  · rw [pduReadBuffer_of_start h.1 h.2, pduReadBuffer_of_start h.1 h.2]
    exact iff_of_true rfl h
  · refine iff_of_false ?_ h
    unfold HasStart at h
    rw [not_and_or] at h
    rw [pduReadBuffer_of_not_start h .zeroed]
    simp

/-- One more iteration, with `in_pdu` as the earlier ones left it. -/
theorem commandTCP_concat (in_buff : Buff) (in_pdu : Pdu) (chunks : List (List UInt8))
    (chunk : List UInt8) : ∃ in_pdu', commandTCP in_buff in_pdu (chunks ++ [chunk]) =
      commandTCP in_buff in_pdu chunks ++
        [(pduReadBuffer (bufferAfter in_buff (chunks ++ [chunk])) in_pdu').2] := by
  induction chunks generalizing in_buff in_pdu with
  | nil => exact ⟨in_pdu, rfl⟩
  | cons c chunks ih =>
    obtain ⟨in_pdu', h⟩ := ih (in_buff.recv c) (pduReadBuffer (in_buff.recv c) in_pdu).2
    exact ⟨in_pdu', congrArg _ h⟩

/-! ### All iterations -/

/-- Every iteration puts the PDU it decoded, and nothing if `pdu_read_buffer` returned -1. -/
def Obeys (in_buff : Buff) (in_pdu : Pdu) (chunks : List (List UInt8)) : Prop :=
  ∀ before chunk, before ++ [chunk] <+: chunks → commandTCP in_buff in_pdu (before ++ [chunk]) =
    commandTCP in_buff in_pdu before ++ (decoded (bufferAfter in_buff (before ++ [chunk]))).toList

/-- The chunk begins with the start bytes; of one byte it is enough if the buffer holds
    `second`. -/
def Opens (second : UInt8) (chunk : List UInt8) : Prop :=
  chunk.getD 0 0 = PDU_START_BYTE0 ∧ chunk.getD 1 second = PDU_START_BYTE1

/-- Every chunk does, the first over a buffer that holds `second`. -/
def AllOpen (second : UInt8) : List (List UInt8) → Prop
  | [] => True
  | chunk :: chunks => Opens second chunk ∧ ∀ chunk ∈ chunks, Opens PDU_START_BYTE1 chunk

theorem hasStart_recv_iff (hlen : 1 ≤ chunk.length ∧ chunk.length ≤ PDU_SIZE + 2) :
    HasStart (in_buff.recv chunk) ↔ Opens (in_buff.at 1) chunk := by
  unfold HasStart Opens
  rw [in_buff.at_recv hlen.2, in_buff.at_recv hlen.2, if_pos (by omega)]
  have hsecond : (if 1 < chunk.length then chunk.getD 1 0 else in_buff.at 1) =
      chunk.getD 1 (in_buff.at 1) := by
    split
    · rename_i hlt
      rw [List.getD_eq_getElem _ _ hlt, List.getD_eq_getElem _ _ hlt]
    · rename_i hle
      rw [List.getD_eq_default _ _ (Nat.le_of_not_lt hle)]
  rw [hsecond]

theorem allOpen_start_iff :
    AllOpen PDU_START_BYTE1 chunks ↔ ∀ chunk ∈ chunks, Opens PDU_START_BYTE1 chunk := by
  cases chunks with
  | nil => exact iff_of_true trivial (fun _ h => absurd h List.not_mem_nil)
  | cons chunk chunks => exact List.forall_mem_cons.symm

/-- Every buffer after a chunk has the start bytes. -/
def AllStart (in_buff : Buff) (chunks : List (List UInt8)) : Prop :=
  ∀ before chunk, before ++ [chunk] <+: chunks →
    HasStart (bufferAfter in_buff (before ++ [chunk]))

theorem allStart_cons : AllStart in_buff (chunk :: chunks) ↔
    HasStart (in_buff.recv chunk) ∧ AllStart (in_buff.recv chunk) chunks := by
  constructor
  · intro h
    refine ⟨h [] chunk (List.prefix_append [chunk] chunks), ?_⟩
    intro before c hpre
    exact h (chunk :: before) c (List.cons_prefix_cons.mpr ⟨rfl, hpre⟩)
  · rintro ⟨hfirst, hrest⟩ before c hpre
    cases before with
    | nil =>
      obtain ⟨rfl, -⟩ := List.cons_prefix_cons.mp hpre
      exact hfirst
    | cons b before =>
      obtain ⟨rfl, htail⟩ := List.cons_prefix_cons.mp hpre
      exact hrest before c htail

/-- All buffers have the start bytes exactly when all chunks open them.  The first chunk leaves
    the second start byte to the others. -/
theorem allStart_iff (hlen : ∀ chunk ∈ chunks, 1 ≤ chunk.length ∧ chunk.length ≤ PDU_SIZE + 2) :
    AllStart in_buff chunks ↔ AllOpen (in_buff.at 1) chunks := by
  induction chunks generalizing in_buff with
  | nil =>
    refine iff_of_true ?_ trivial
    intro before chunk hpre
    exact absurd (List.prefix_nil.mp hpre) (List.append_ne_nil_of_right_ne_nil _ (by simp))
  | cons chunk chunks ih =>
    rw [List.forall_mem_cons] at hlen
    rw [allStart_cons, ih hlen.2, AllOpen, ← hasStart_recv_iff hlen.1]
    refine and_congr_right fun hstart => ?_
    rw [hstart.2, allOpen_start_iff]

/-- **Only good frames are executed** exactly when every chunk opens its frame.  For every
    contents of the two locals. -/
theorem obeys_iff (in_buff : Buff) (in_pdu : Pdu) (chunks : List (List UInt8))
    (hlen : ∀ chunk ∈ chunks, 1 ≤ chunk.length ∧ chunk.length ≤ PDU_SIZE + 2) :
    Obeys in_buff in_pdu chunks ↔ AllOpen (in_buff.at 1) chunks := by
  rw [← allStart_iff hlen]
  refine forall₂_congr fun before chunk => forall_congr' fun _ => ?_
  obtain ⟨in_pdu', h⟩ := commandTCP_concat in_buff in_pdu before chunk
  rw [h, List.append_cancel_left_eq, put_decoded_iff]

/-- Three chunks that open a frame, one of them with its first byte alone. -/
theorem obeys_iff_three :
    Obeys (List.Vector.replicate _ 0) .zeroed [[0x5E, 0xFF, 6], [0x5E], [0x5E, 0xFF]] ↔
      AllOpen 0 [[0x5E, 0xFF, 6], [0x5E], [0x5E, 0xFF]] :=
  obeys_iff _ _ _ (by decide)

/-- **A command is repeated**: two bytes of no frame put the one before them again. -/
theorem repeats_command : ¬ ∀ (in_buff : Buff) (in_pdu : Pdu) (chunks : List (List UInt8)),
    (∀ chunk ∈ chunks, 1 ≤ chunk.length ∧ chunk.length ≤ PDU_SIZE + 2) →
    Obeys in_buff in_pdu chunks := by
  intro h
  have hput := h (List.Vector.replicate _ 0) .zeroed [[0x5E, 0xFF, PDU_GO_FORWARD], [0, 0]]
    (by decide) [[0x5E, 0xFF, PDU_GO_FORWARD]] [0, 0] List.prefix_rfl
  revert hput
  decide

end Wheelson.Tcp
