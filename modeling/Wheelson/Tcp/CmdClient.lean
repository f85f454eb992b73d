import Wheelson.Ipc.Pdu

namespace Wheelson.Tcp

/-!
# `cmd_client.py`: PDUs as the client holds and sends them

* `PyPdu` — a Python `pdu` object whose fields are set; `PyPdu.Ok` is what the callers of
  `cmd_process` put in it.
* `putBuff` — `pdu.put_buff`, `none` where Python raises; `putBuff_ok` gives its bytes.
* `cmdProcess` — the frames `cmd_process` sends for a list of objects.
* `PyObj`, `getBuff` — the object `update_process` reads its data into, and `pdu.get_buff`.
* `updateProcess` — what `update_process` puts on `out_fifo`.
-/

open Ipc

/-- A Python `pdu` object. -/
structure PyPdu where
  cmd : ℕ
  x : ℕ
  y : ℕ
  msg_len : ℕ
  msg : List Char
deriving DecidableEq, Repr

/-- `bytearray(ret)`: raises on a value that is no byte. -/
def bytearray (ret : List ℕ) : Option (List UInt8) :=
  if ∀ n ∈ ret, n < 256 then some (ret.map UInt8.ofNat) else none

/-- `pdu.put_buff`: reads `msg[0]` to `msg[msg_len-2]`, and raises if there are fewer. -/
def PyPdu.putBuff (p : PyPdu) : Option (List UInt8) :=
  if p.msg_len - 1 ≤ p.msg.length then
    bytearray ([PDU_START_BYTE0.toNat, PDU_START_BYTE1.toNat, p.cmd, p.x, p.y, p.msg_len]
      ++ (p.msg.take (p.msg_len - 1)).map Char.toNat ++ [0])
  else none

/-- A command object: byte fields, and a non-NUL ASCII text with its length and NUL counted. -/
structure PyPdu.Ok (p : PyPdu) : Prop where
  cmd : p.cmd < 256
  x : p.x < 256
  y : p.y < 256
  msg_len : p.msg_len = p.msg.length + 1
  msg_len_le : p.msg_len ≤ 32
  ascii : ∀ c ∈ p.msg, c.toNat ≠ 0 ∧ c.toNat < 128

/-- `cmd_process`: the data of its `send` calls.  An object that raises is skipped. -/
def cmdProcess (ps : List PyPdu) : List (List UInt8) := ps.filterMap PyPdu.putBuff

/-- The bytes of a text. -/
def PyPdu.text (p : PyPdu) : List UInt8 := p.msg.map fun c => UInt8.ofNat c.toNat

/-- The frame of an object. -/
def PyPdu.frame (p : PyPdu) : List UInt8 :=
  [PDU_START_BYTE0, PDU_START_BYTE1, UInt8.ofNat p.cmd, UInt8.ofNat p.x, UInt8.ofNat p.y,
    UInt8.ofNat p.msg_len] ++ p.text ++ [0]

theorem PyPdu.length_frame (p : PyPdu) : p.frame.length = p.msg.length + 7 := by
  simp [PyPdu.frame, PyPdu.text]

theorem putBuff_ok {p : PyPdu} (hp : p.Ok) : p.putBuff = some p.frame := by
  have hlen : p.msg_len - 1 = p.msg.length := by
    rw [hp.msg_len]
    rfl
  have hbytes : ∀ n ∈ [PDU_START_BYTE0.toNat, PDU_START_BYTE1.toNat, p.cmd, p.x, p.y, p.msg_len]
      ++ (p.msg.take (p.msg_len - 1)).map Char.toNat ++ [0], n < 256 := by
    rw [hlen, List.take_length]
    intro n hn
    simp only [List.mem_append, List.mem_cons, List.not_mem_nil, or_false, List.mem_map] at hn
    have hcmd := hp.cmd
    have hx := hp.x
    have hy := hp.y
    have hmsg := hp.msg_len_le
    rcases hn with (((rfl | rfl | rfl | rfl | rfl | rfl) | ⟨c, hc, rfl⟩) | rfl)
    · decide
    · decide
    · exact hcmd
    · exact hx
    · exact hy
    · omega
    · have hascii := hp.ascii c hc
      omega
    · decide
  unfold PyPdu.putBuff bytearray
  rw [if_pos (le_of_eq hlen), if_pos hbytes, hlen, List.take_length]
  simp [PyPdu.frame, PyPdu.text, Function.comp_def]

theorem cmdProcess_ok {ps : List PyPdu} (hps : ∀ p ∈ ps, p.Ok) :
    cmdProcess ps = ps.map PyPdu.frame := by
  unfold cmdProcess
  rw [List.filterMap_congr (g := fun p => some p.frame) fun p hp => putBuff_ok (hps p hp)]
  simp

/-! ### Updates -/

/-- A Python `pdu` object whose fields may still be `None`. -/
structure PyObj where
  cmd : Option ℕ
  x : Option ℕ
  y : Option ℕ
  msg_len : Option ℕ
  msg : Option (List UInt8)
deriving DecidableEq, Repr

/-- `pdu()`. -/
def PyObj.new : PyObj := ⟨none, none, none, none, none⟩

/-- The assignments of `get_buff` from the bytes after the start bytes; the flag says that
    one of them raises `IndexError`. -/
def PyObj.assign (self : PyObj) : List UInt8 → PyObj × Bool
  | [] => (self, true)
  | [cmd] => ({ self with cmd := cmd.toNat }, true)
  | [cmd, x] => ({ self with cmd := cmd.toNat, x := x.toNat }, true)
  | [cmd, x, y] => ({ self with cmd := cmd.toNat, x := x.toNat, y := y.toNat }, true)
  | cmd :: x :: y :: msg_len :: msg =>
    (⟨cmd.toNat, x.toNat, y.toNat, msg_len.toNat, msg⟩, false)

/-- The loop of `get_buff`, from the value of `temp`. -/
def PyObj.scan (self : PyObj) : UInt8 → List UInt8 → PyObj × Bool
  | _, [] => (self, false)
  | temp_last, temp :: bytes =>
    if temp_last = PDU_START_BYTE0 ∧ temp = PDU_START_BYTE1 then self.assign bytes
    else self.scan temp bytes

/-- `pdu.get_buff`. -/
def PyObj.getBuff (self : PyObj) (bytes : List UInt8) : PyObj × Bool := self.scan 0 bytes

/-- `update_process`: the objects it puts on `out_fifo`, for the results of its `receive` calls.
    An iteration that raises puts nothing.  There is one `rx_pdu` for all iterations, and `put`
    is taken to copy it at the call: what a later `get_buff` makes of it does not change what
    has been put. -/
def updateProcess (rx_pdu : PyObj) : List (List UInt8) → List PyObj
  | [] => []
  | data :: datas =>
    let r := rx_pdu.getBuff data
    if r.2 then updateProcess r.1 datas else r.1 :: updateProcess r.1 datas

end Wheelson.Tcp
