import Mathlib.Data.Set.Function
import Wheelson.Tcp.CmdClient

namespace Wheelson.Tcp

/-!
# Compass calibration

`pdu.put_buff_new_heading` sends four 16-bit headings, and copies them with the loop that
`put_buff` has for a text: one byte less than `msg_len`, then a zero.

* `putBuffNewHeading`, `sendCalibrate` — the frame.
* `Headings` — four headings; `Headings.bytes` is what the payload should be.
* `payload_frame` — the last byte of the payload is zero, the others are right.
* `lossless_iff` — nothing is lost exactly when the low byte of `W` is zero.
-/

open Ipc

/-- `pdu.put_buff_new_heading`: the object, whose fields it assigns without reading them, and
    the bytes it returns. -/
def putBuffNewHeading (N S E W : ℕ) : PyObj × Option (List UInt8) :=
  let cmd := PDU_CHANGE_HEAD.toNat
  let msg := [N >>> 8 &&& 0x00FF, N &&& 0x00FF, S >>> 8 &&& 0x00FF, S &&& 0x00FF,
    E >>> 8 &&& 0x00FF, E &&& 0x00FF, W >>> 8 &&& 0x00FF, W &&& 0x00FF]
  let msg_len := msg.length
  (⟨cmd, some 0, some 0, msg_len, msg.map UInt8.ofNat⟩,
    bytearray ([PDU_START_BYTE0.toNat, PDU_START_BYTE1.toNat, cmd, 0, 0, msg_len]
      ++ msg.take (msg_len - 1) ++ [0]))

/-- `send_calibrate`: the data of its `send`. -/
def sendCalibrate (N S E W : ℕ) : Option (List UInt8) := (putBuffNewHeading N S E W).2

/-- What follows the header of a frame, `msg_len` bytes. -/
def payload (frame : List UInt8) : List UInt8 := (frame.drop 6).take (frame.getD 5 0).toNat

/-! ### What is sent -/

/-- A 16-bit number, high byte first. -/
def be16 (n : ℕ) : List UInt8 := [UInt8.ofNat (n / 256), UInt8.ofNat (n % 256)]

/-- Four 16-bit headings. -/
@[ext] structure Headings where
  N : Fin 65536
  S : Fin 65536
  E : Fin 65536
  W : Fin 65536
deriving DecidableEq, Repr

namespace Headings

def bytes (q : Headings) : List UInt8 := be16 q.N ++ be16 q.S ++ be16 q.E ++ be16 q.W

def frame (q : Headings) : Option (List UInt8) := sendCalibrate q.N q.S q.E q.W

/-- The headings without the low byte of `W`. -/
def upper (q : Headings) : Fin 65536 × Fin 65536 × Fin 65536 × ℕ := (q.N, q.S, q.E, q.W / 256)

end Headings

variable {q q' : Headings}

theorem high_byte {n : ℕ} (hn : n < 65536) : n >>> 8 &&& 0x00FF = n / 256 := by
  rw [Nat.shiftRight_eq_div_pow, show 0x00FF = 2 ^ 8 - 1 from rfl, Nat.and_two_pow_sub_one_eq_mod]
  omega

theorem low_byte (n : ℕ) : n &&& 0x00FF = n % 256 :=
  Nat.and_two_pow_sub_one_eq_mod n 8

theorem ofNat_byte_inj {m n : ℕ} (hm : m < 256) (hn : n < 256) :
    UInt8.ofNat m = UInt8.ofNat n ↔ m = n := by
  rw [← UInt8.toNat_inj, UInt8.toNat_ofNat_of_lt' hm, UInt8.toNat_ofNat_of_lt' hn]

theorem be16_inj {m n : Fin 65536} : be16 m = be16 n ↔ m = n := by
  have hm := m.isLt
  have hn := n.isLt
  simp only [be16, List.cons.injEq, and_true]
  rw [ofNat_byte_inj (by omega) (by omega), ofNat_byte_inj (by omega) (by omega), Fin.ext_iff]
  omega

/-- The payload has the bytes of the headings, but for the last, which is zero. -/
theorem frame_eq (q : Headings) : q.frame = some ([PDU_START_BYTE0, PDU_START_BYTE1,
    PDU_CHANGE_HEAD, 0, 0, 8] ++ (be16 q.N ++ be16 q.S ++ be16 q.E) ++
      [UInt8.ofNat (q.W / 256), 0]) := by
  have hN := q.N.isLt
  have hS := q.S.isLt
  have hE := q.E.isLt
  have hW := q.W.isLt
  unfold Headings.frame sendCalibrate putBuffNewHeading bytearray
  simp only [high_byte hN, high_byte hS, high_byte hE, high_byte hW, low_byte]
  rw [if_pos]
  · rfl
  · intro n hn
    simp only [List.length_cons, List.length_nil, List.take_succ_cons, List.take_zero,
      List.cons_append, List.nil_append, List.mem_cons, List.not_mem_nil, or_false] at hn
    have hheader : PDU_START_BYTE0.toNat < 256 ∧ PDU_START_BYTE1.toNat < 256 ∧
        PDU_CHANGE_HEAD.toNat < 256 := by
      decide
    omega

/-- Two frames are the same exactly when the headings are, but for the low byte of `W`. -/
theorem frame_eq_iff : q.frame = q'.frame ↔ q.upper = q'.upper := by
  have hW := q.W.isLt
  have hW' := q'.W.isLt
  rw [frame_eq, frame_eq, Headings.upper, Headings.upper]
  constructor
  · intro h
    simp only [be16, List.cons_append, List.nil_append, Option.some.injEq, List.cons.injEq,
      and_true, true_and] at h
    obtain ⟨hN₁, hN₂, hS₁, hS₂, hE₁, hE₂, hhigh⟩ := h
    have hN : q.N = q'.N := be16_inj.mp (by rw [be16, be16, hN₁, hN₂])
    have hS : q.S = q'.S := be16_inj.mp (by rw [be16, be16, hS₁, hS₂])
    have hE : q.E = q'.E := be16_inj.mp (by rw [be16, be16, hE₁, hE₂])
    rw [ofNat_byte_inj (by omega) (by omega)] at hhigh
    rw [hN, hS, hE, hhigh]
  · intro h
    simp only [Prod.mk.injEq] at h
    obtain ⟨hN, hS, hE, hhigh⟩ := h
    rw [hN, hS, hE, hhigh]

theorem payload_frame (q : Headings) :
    q.frame.map payload
      = some (be16 q.N ++ be16 q.S ++ be16 q.E ++ [UInt8.ofNat (q.W / 256), 0]) := by
  rw [frame_eq]
  rfl

/-- The payload is right exactly when the byte that is left out is zero. -/
theorem payload_eq_bytes_iff (q : Headings) :
    q.frame.map payload = some q.bytes ↔ (q.W : ℕ) % 256 = 0 := by
  rw [payload_frame, Option.some.injEq, Headings.bytes, List.append_cancel_left_eq, be16]
  simp only [List.cons.injEq, and_true, true_and]
  rw [← UInt8.toNat_inj, UInt8.toNat_ofNat_of_lt' (Nat.mod_lt _ (by decide))]
  exact eq_comm

/-! ### What is lost -/

/-- The payloads of the headings `Q` are their bytes, and different headings have different
    frames. -/
structure Lossless (Q : Set Headings) : Prop where
  payload : ∀ q ∈ Q, q.frame.map payload = some q.bytes
  distinct : Set.InjOn Headings.frame Q

theorem injOn_frame_iff (Q : Set Headings) :
    Set.InjOn Headings.frame Q ↔ Set.InjOn Headings.upper Q := by
  constructor
  · intro h q hq q' hq' hupper
    exact h hq hq' (frame_eq_iff.mpr hupper)
  · intro h q hq q' hq' hframe
    exact h hq hq' (frame_eq_iff.mp hframe)

/-- Headings whose low byte of `W` is zero are known by the rest. -/
theorem injOn_upper {Q : Set Headings} (hQ : ∀ q ∈ Q, (q.W : ℕ) % 256 = 0) :
    Set.InjOn Headings.upper Q := by
  intro q hq q' hq' hupper
  simp only [Headings.upper, Prod.mk.injEq] at hupper
  obtain ⟨hN, hS, hE, hhigh⟩ := hupper
  have hlow := hQ q hq
  have hlow' := hQ q' hq'
  have hW : q.W = q'.W := by
    rw [Fin.ext_iff]
    omega
  exact Headings.ext hN hS hE hW

/-- **The calibration frame is lossless** exactly for headings whose low byte of `W` is zero;
    and frames differ exactly where the headings differ in more than that byte. -/
theorem lossless_iff (Q : Set Headings) :
    (Lossless Q ↔ ∀ q ∈ Q, (q.W : ℕ) % 256 = 0) ∧
      (Set.InjOn Headings.frame Q ↔ Set.InjOn Headings.upper Q) := by
  refine ⟨?_, injOn_frame_iff Q⟩
  constructor
  · intro h q hq
    exact (payload_eq_bytes_iff q).mp (h.payload q hq)
  · intro hQ
    refine ⟨fun q hq => (payload_eq_bytes_iff q).mpr (hQ q hq), ?_⟩
    exact (injOn_frame_iff Q).mpr (injOn_upper hQ)

/-- **A heading is lost**: west at 270 or at 256, one frame. -/
theorem west_lost :
    Headings.frame ⟨0, 180, 90, 270⟩ = Headings.frame ⟨0, 180, 90, 256⟩ ∧
      ¬ Lossless Set.univ := by
  refine ⟨rfl, fun h => ?_⟩
  have hpayload := h.payload ⟨0, 180, 90, 270⟩ (Set.mem_univ _)
  rw [payload_eq_bytes_iff] at hpayload
  cases hpayload

end Wheelson.Tcp
