import Mathlib.Data.List.TakeWhile
import Wheelson.Lcd.Driver
import Wheelson.Lib.Machine

namespace Wheelson.Lcd

/-!
# The edges of E

What is on the pins of the display when E falls.

* `Pins` — the pins of the display and U_ALERT, as the output registers hold them.
* `Edge`, `edges` — what is on the pins at the falling edges of E, call by call of `gpio.c`.
* `edges_lcdWrite`, `pins_lcdWrite` — one bit field: E falls at the first call, before the new
  nibble is driven.
* `edges_sendBytes` — one byte: its two nibbles.
* `lcd_path` — every sequence of calls of the controller.
-/

open Machine Ipc Motor AnyLcd

/-- The pins of the display and U_ALERT. -/
structure Pins where
  /-- P1.0. -/
  e : Bool
  /-- P1.1. -/
  rw : Bool
  /-- P1.2. -/
  rs : Bool
  /-- P1.4. -/
  u_alert : Bool
  /-- P7.3 to P7.0. -/
  nibble : BitVec 4
deriving DecidableEq, Repr

/-- The pins in the output registers. -/
def pins (r : Registers) : Pins where
  e := (r.pair .PA).out.getLsbD 0
  rw := (r.pair .PA).out.getLsbD 1
  rs := (r.pair .PA).out.getLsbD 2
  u_alert := (r.pair .PA).out.getLsbD 4
  nibble := (r.pair .PD).out.extractLsb' 0 4

/-- The pins at a falling edge of E. -/
structure Edge where
  rs : Bool
  rw : Bool
  nibble : BitVec 4
deriving DecidableEq, Repr

/-- The edge, if any, between two states of the registers. -/
def fallingEdge (r r' : Registers) : List Edge :=
  if (pins r).e = true ∧ (pins r').e = false then
    [⟨(pins r').rs, (pins r').rw, (pins r').nibble⟩]
  else []

/-- The falling edges of E in a sequence of calls. -/
def edges (r : Registers) (calls : List GpioCall) : List Edge :=
  emitted GpioCall.exec fallingEdge r calls

variable {r : Registers}

/-! ### One call -/

@[simp] theorem pins_setOutputLow_P1 (m : BitVec 16) :
    pins (GpioCall.exec r (.setOutputLow .P1 m)) = { pins r with
      e := (pins r).e && !m.getLsbD 0
      rw := (pins r).rw && !m.getLsbD 1
      rs := (pins r).rs && !m.getLsbD 2
      u_alert := (pins r).u_alert && !m.getLsbD 4 } := by
  simp [pins, GpioCall.exec, gpioSetOutputLowOnPin, Registers.modifyPair, gpioPortToBase,
    selectedBits, GpioPort.isEven]

@[simp] theorem pins_setOutputHigh_P1 (m : BitVec 16) :
    pins (GpioCall.exec r (.setOutputHigh .P1 m)) = { pins r with
      e := (pins r).e || m.getLsbD 0
      rw := (pins r).rw || m.getLsbD 1
      rs := (pins r).rs || m.getLsbD 2
      u_alert := (pins r).u_alert || m.getLsbD 4 } := by
  simp [pins, GpioCall.exec, gpioSetOutputHighOnPin, Registers.modifyPair, gpioPortToBase,
    selectedBits, GpioPort.isEven]

@[simp] theorem pins_setOutputLow_P7 (m : BitVec 16) :
    pins (GpioCall.exec r (.setOutputLow .P7 m)) = { pins r with
      nibble := (pins r).nibble &&& ~~~m.extractLsb' 0 4 } := by
  simp [pins, GpioCall.exec, gpioSetOutputLowOnPin, Registers.modifyPair, gpioPortToBase,
    selectedBits, GpioPort.isEven, BitVec.extractLsb'_and,
    BitVec.extractLsb'_not_of_lt (w := 16) (show 0 + 4 < 16 by decide)]

@[simp] theorem pins_setOutputHigh_P7 (m : BitVec 16) :
    pins (GpioCall.exec r (.setOutputHigh .P7 m)) = { pins r with
      nibble := (pins r).nibble ||| m.extractLsb' 0 4 } := by
  simp [pins, GpioCall.exec, gpioSetOutputHighOnPin, Registers.modifyPair, gpioPortToBase,
    selectedBits, GpioPort.isEven, BitVec.extractLsb'_or]

/-! ### One bit field -/

/-- The masks on P1 are the control bits of the bit field, reversed, and spare P1.4. -/
theorem p1Masks_spec : ∀ bitfield : BitVec 8,
    let low := ~~~((ctrlBits bitfield).setWidth 16 : BitVec 16) &&& 0x07
    let high := ((ctrlBits bitfield).setWidth 16 : BitVec 16) &&& 0x07
    (low.getLsbD 0 = !bitfield.getLsbD 2 ∧ low.getLsbD 1 = !bitfield.getLsbD 1 ∧
      low.getLsbD 2 = !bitfield.getLsbD 0 ∧ low.getLsbD 4 = false) ∧
    high.getLsbD 0 = bitfield.getLsbD 2 ∧ high.getLsbD 1 = bitfield.getLsbD 1 ∧
      high.getLsbD 2 = bitfield.getLsbD 0 ∧ high.getLsbD 4 = false := by
  decide +kernel

/-- The masks on P7 are its data bits. -/
theorem p7Masks_spec : ∀ bitfield : BitVec 8,
    ((~~~(bitfield.setWidth 16 : BitVec 16)).sshiftRight 4 &&& 0x0F).extractLsb' 0 4
        = ~~~bitfield.extractLsb' 4 4 ∧
      ((bitfield.setWidth 16 : BitVec 16).sshiftRight 4 &&& 0x0F).extractLsb' 0 4
        = bitfield.extractLsb' 4 4 := by
  decide +kernel

/-- The pins when the masks that clear P1 have been written. -/
theorem pins_clear (bitfield : BitVec 8) :
    pins (GpioCall.exec r (.setOutputLow .P1 (~~~(ctrlBits bitfield).setWidth 16 &&& 0x07)))
      = { pins r with
        e := (pins r).e && bitfield.getLsbD 2
        rw := (pins r).rw && bitfield.getLsbD 1
        rs := (pins r).rs && bitfield.getLsbD 0 } := by
  obtain ⟨⟨he, hrw, hrs, hu⟩, -⟩ := p1Masks_spec bitfield
  rw [pins_setOutputLow_P1, he, hrw, hrs, hu]
  simp only [Bool.not_not, Bool.not_false, Bool.and_true]

theorem and_or_self (a b : Bool) : (a && b || b) = b := by
  cases a <;> cases b <;> rfl

/-- The pins after a bit field. -/
theorem pins_lcdWrite (bitfield : BitVec 8) :
    pins (run GpioCall.exec r (lcdWrite bitfield)) = {
      e := bitfield.getLsbD 2
      rw := bitfield.getLsbD 1
      rs := bitfield.getLsbD 0
      u_alert := (pins r).u_alert
      nibble := bitfield.extractLsb' 4 4 } := by
  obtain ⟨-, he, hrw, hrs, hu⟩ := p1Masks_spec bitfield
  obtain ⟨hlow, hhigh⟩ := p7Masks_spec bitfield
  simp only [lcdWrite, run_cons, run_nil, pins_setOutputHigh_P7, pins_setOutputLow_P7,
    pins_setOutputHigh_P1, pins_clear, he, hrw, hrs, hu, hlow, hhigh, and_or_self, Bool.or_false]
  congr 1
  ext i hi
  simp

/-- **E falls at the first call**, while the nibble of the bit field before is on the pins. -/
theorem edges_lcdWrite (bitfield : BitVec 8) :
    edges r (lcdWrite bitfield) =
      if (pins r).e = true ∧ bitfield.getLsbD 2 = false then
        [⟨(pins r).rs && bitfield.getLsbD 0, (pins r).rw && bitfield.getLsbD 1, (pins r).nibble⟩]
      else [] := by
  obtain ⟨-, he, hrw, hrs, hu⟩ := p1Masks_spec bitfield
  simp only [edges, lcdWrite, emitted, fallingEdge, pins_setOutputHigh_P7, pins_setOutputLow_P7,
    pins_setOutputHigh_P1, pins_clear, he, and_or_self]
  cases (pins r).e <;> cases bitfield.getLsbD 2 <;> rfl

/-- No call of `lcdWrite` touches P1.4. -/
theorem alert_exec {bitfield : BitVec 8} {call : GpioCall} (h : call ∈ lcdWrite bitfield) :
    (pins (call.exec r)).u_alert = (pins r).u_alert := by
  obtain ⟨-, -, -, -, hu⟩ := p1Masks_spec bitfield
  simp only [lcdWrite, List.mem_cons, List.not_mem_nil, or_false] at h
  rcases h with rfl | rfl | rfl | rfl
  · rw [pins_clear]
  · rw [pins_setOutputHigh_P1, hu, Bool.or_false]
  · rw [pins_setOutputLow_P7]
  · rw [pins_setOutputHigh_P7]

/-! ### One byte -/

/-- Two bit fields that raise E with these pins and take it down again. -/
def Strobe (rs : Bool) (nibble : BitVec 4) (up down : BitVec 8) : Prop :=
  (up.getLsbD 2 = true ∧ up.getLsbD 1 = false ∧ up.getLsbD 0 = rs ∧ up.extractLsb' 4 4 = nibble) ∧
    down.getLsbD 2 = false ∧ down.getLsbD 0 = rs

instance (rs : Bool) (nibble : BitVec 4) (up down : BitVec 8) :
    Decidable (Strobe rs nibble up down) := inferInstanceAs (Decidable (_ ∧ _))

theorem edges_append {calls calls' : List GpioCall} :
    edges r (calls ++ calls') = edges r calls ++ edges (run GpioCall.exec r calls) calls' :=
  emitted_append

/-- A strobe shows its nibble once, whatever the pins were. -/
theorem edges_strobe {rs : Bool} {nibble : BitVec 4} {up down : BitVec 8}
    (h : Strobe rs nibble up down) :
    edges r (lcdWrite up ++ lcdWrite down) = [⟨rs, false, nibble⟩] := by
  obtain ⟨⟨hup, hrw, hrs, hnibble⟩, hdown, hrs'⟩ := h
  rw [edges_append, edges_lcdWrite, edges_lcdWrite, pins_lcdWrite, hup, hdown, hrw, hrs, hrs',
    hnibble]
  simp

/-- What the display gets of a byte. -/
def latched (rs : Bool) (data : BitVec 8) : List Edge :=
  [⟨rs, false, data.extractLsb' 4 4⟩, ⟨rs, false, data.extractLsb' 0 4⟩]

theorem edges_sendBytes {rs : Bool} {data : BitVec 8} {b0 b1 b2 b3 : BitVec 16}
    (hhigh : Strobe rs (data.extractLsb' 4 4) (b0.setWidth 8) (b1.setWidth 8))
    (hlow : Strobe rs (data.extractLsb' 0 4) (b2.setWidth 8) (b3.setWidth 8)) :
    edges r (sendBytes [b0, b1, b2, b3]) = latched rs data := by
  have hsplit : sendBytes [b0, b1, b2, b3]
      = (lcdWrite (b0.setWidth 8) ++ lcdWrite (b1.setWidth 8)) ++
        (lcdWrite (b2.setWidth 8) ++ lcdWrite (b3.setWidth 8)) := by
    simp [sendBytes]
  rw [hsplit, edges_append, edges_strobe hhigh, edges_strobe hlow]
  rfl

theorem edges_writeCMD (cmd : BitVec 8) :
    edges r (writeCMD (cmd.setWidth 16)) = latched false cmd := by
  apply edges_sendBytes
  · revert cmd
    decide +kernel
  · revert cmd
    decide +kernel

theorem edges_writeData (data : BitVec 8) :
    edges r (writeData (data.setWidth 16)) = latched true data := by
  apply edges_sendBytes
  · revert data
    decide +kernel
  · revert data
    decide +kernel

/-- `LCD_CLEAR` and `LCD_RETURN`. -/
def resetEdges : List Edge := latched false 0x01 ++ latched false 0x02

theorem edges_reset : edges r reset = resetEdges := by
  have hclear : edges r (writeCMD LCD_CLEAR) = latched false 0x01 := edges_writeCMD 0x01
  rw [reset, edges_append, hclear]
  exact congrArg _ (edges_writeCMD 0x02)

/-- **One byte of the bus.** -/
theorem edges_i2cDataHandler (data : UInt8) : edges r (i2cDataHandler data) =
    if data = RESET_LCD then resetEdges
    else if data = 0 then []
    else latched true data.toBitVec := by
  unfold i2cDataHandler
  split_ifs
  · exact edges_reset
  · rfl
  · exact edges_writeData _

/-! ### The calls of the controller -/

/-- A call of the controller; the string does not hold the reset code. -/
inductive LcdCall
  | reset
  | string (str : List UInt8) (h : LCD_RESET ∉ cstr str)

namespace LcdCall

/-- The bytes the call puts on the bus. -/
def bytes : LcdCall → List UInt8
  | .reset => Board.lcdReset
  | .string str _ => Board.lcdString str

/-- What the display gets. -/
def shown : LcdCall → List Edge
  | .reset => resetEdges
  | .string str _ => (cstr str).flatMap fun c => latched true c.toBitVec

end LcdCall

/-- The bus delivers each byte once and in order. -/
def gpioCalls (calls : List LcdCall) : List GpioCall :=
  (calls.flatMap LcdCall.bytes).flatMap i2cDataHandler

/-- A sequence whose parts show the same from every state. -/
theorem edges_flatMap {α : Type*} {f : α → List GpioCall} {g : α → List Edge} {as : List α}
    (h : ∀ a ∈ as, ∀ r, edges r (f a) = g a) : edges r (as.flatMap f) = as.flatMap g := by
  induction as generalizing r with
  | nil => rfl
  | cons a as ih =>
    rw [List.forall_mem_cons] at h
    rw [List.flatMap_cons, List.flatMap_cons, edges_append, h.1, ih h.2]

/-- The characters of a string are neither code of `i2c_data_handler`. -/
theorem edges_char {str : List UInt8} (h : LCD_RESET ∉ cstr str) {c : UInt8} (hc : c ∈ cstr str) :
    edges r (i2cDataHandler c) = latched true c.toBitVec := by
  have hreset : c ≠ RESET_LCD := by
    rintro rfl
    exact h hc
  have hnul : c ≠ 0 := by simpa using List.mem_takeWhile_imp hc
  rw [edges_i2cDataHandler, if_neg hreset, if_neg hnul]

theorem edges_call (call : LcdCall) :
    edges r (call.bytes.flatMap i2cDataHandler) = call.shown := by
  cases call with
  | reset =>
    show edges r (i2cDataHandler RESET_LCD ++ []) = resetEdges
    rw [List.append_nil, edges_i2cDataHandler, if_pos rfl]
  | string str h => exact edges_flatMap fun c hc r => edges_char h hc

/-- No call of `gpio.c` for a byte touches U_ALERT. -/
theorem alert_of_handler {data : UInt8} {call : GpioCall} (h : call ∈ i2cDataHandler data) :
    (pins (call.exec r)).u_alert = (pins r).u_alert := by
  have hwrite {buffer : List (BitVec 16)} (h : call ∈ sendBytes buffer) :
      (pins (call.exec r)).u_alert = (pins r).u_alert := by
    obtain ⟨bitfield, -, hcall⟩ := List.mem_flatMap.mp h
    exact alert_exec hcall
  unfold i2cDataHandler at h
  split_ifs at h
  · rcases List.mem_append.mp h with h | h
    · exact hwrite h
    · exact hwrite h
  · cases h
  · exact hwrite h

/-- No call of `gpio.c` on the way touches U_ALERT. -/
theorem alert_of_mem {calls : List LcdCall} {call : GpioCall} (h : call ∈ gpioCalls calls) :
    (pins (call.exec r)).u_alert = (pins r).u_alert := by
  obtain ⟨data, -, hcall⟩ := List.mem_flatMap.mp h
  exact alert_of_handler hcall

/-- **The LCD path.**  Whatever the pins are at first, the display gets at the falling edges of E
    exactly the bytes of the calls, high nibble first, with RS low for the two commands of a
    reset and high for a character, and RW low at each; no call of `gpio.c` changes U_ALERT. -/
theorem lcd_path (calls : List LcdCall) (r : Registers) :
    edges r (gpioCalls calls) = calls.flatMap LcdCall.shown ∧
      ∀ fs, fs <+: gpioCalls calls →
        (pins (run GpioCall.exec r fs)).u_alert = (pins r).u_alert := by
  constructor
  · rw [gpioCalls, List.flatMap_assoc]
    exact edges_flatMap fun call _ _ => edges_call call
  · intro fs hfs
    exact run_invariant_of (I := fun r' => (pins r').u_alert = (pins r).u_alert)
      (A := fun call => call ∈ gpioCalls calls) (fun _ _ hcall hr => (alert_of_mem hcall).trans hr)
      fs r (fun call hcall => hfs.subset hcall) rfl

end Wheelson.Lcd
