import Wheelson.Board.I2c
import Wheelson.Lcd.Ultra

namespace Wheelson.Lcd

/-!
# The display at the end of the shared bus

`controlThread` writes to the display through the second MCU.  The magnetometer and the camera
are on the same bus, and the second MCU measures distances meanwhile.

* `lcdTransfers` — the calls of `i2c_write` that `lcd_reset` and `lcd_string` make.
* `Delivers` — what the slave of the second MCU promises.
* `lcd_end_to_end` — the calls of the controller, up to the pins of the display.
-/

open Machine Lock I2c

variable {T δ : Type*} [DecidableEq T]

def MSP_SLAVE_ADDR : UInt8 := 0x48

/-- `lcd_write`. -/
def lcdWriteCall (data : UInt8) : Call := .write MSP_SLAVE_ADDR [data] 1

/-- The calls of a sequence of `lcd_reset` and `lcd_string`, each byte delivered. -/
def lcdTransfers (calls : List LcdCall) : List Call :=
  (calls.flatMap LcdCall.bytes).map lcdWriteCall

/-- The slave takes every byte; `received` lists the ones it has got. -/
def Delivers (xfer : UInt8 → δ → List UInt8 → ℕ → δ × List UInt8 × Bool)
    (received : δ → List UInt8) : Prop :=
  ∀ d w, received (xfer MSP_SLAVE_ADDR d w 0).1 = received d ++ w

variable {xfer : UInt8 → δ → List UInt8 → ℕ → δ × List UInt8 × Bool} {received : δ → List UInt8}

/-- The slave has got the bytes of the calls, in order. -/
theorem received_serial (hx : Delivers xfer received) (t : T) (bus : Bus T δ)
    (data : List UInt8) :
    received ((serial xfer bus ((data.map lcdWriteCall).map (t, ·))).dev MSP_SLAVE_ADDR) =
      received (bus.dev MSP_SLAVE_ADDR) ++ data := by
  induction data generalizing bus with
  | nil =>
    rw [List.append_nil]
    rfl
  | cons b data ih =>
    have hb : received ((perform xfer bus (t, lcdWriteCall b)).dev MSP_SLAVE_ADDR) =
        received (bus.dev MSP_SLAVE_ADDR) ++ [b] := by
      rw [perform_dev]
      show received (Function.update bus.dev MSP_SLAVE_ADDR _ MSP_SLAVE_ADDR) = _
      rw [Function.update_self]
      exact hx _ [b]
    rw [List.map_cons, List.map_cons, serial, run_cons]
    refine (ih _).trans ?_
    rw [hb, List.append_assoc]
    rfl

/-- The bytes that the events of the second MCU bring. -/
def rxBytes (es : List Event) : List UInt8 :=
  es.filterMap fun e =>
    match e with
    | .rx data => some data
    | .main _ => none

theorem shown_rxBytes (es : List Event) :
    es.flatMap Event.shown = (rxBytes es).flatMap byteEdges := by
  induction es with
  | nil => rfl
  | cons e es ih =>
    cases e with
    | main echo => exact ih
    | rx data => exact congrArg (byteEdges data ++ ·) ih

/-- What the display gets of the bytes of some calls. -/
theorem byteEdges_bytes (calls : List LcdCall) :
    (calls.flatMap LcdCall.bytes).flatMap byteEdges = calls.flatMap LcdCall.shown := by
  rw [List.flatMap_assoc]
  congr 1
  funext call
  cases call with
  | reset => simp [LcdCall.bytes, LcdCall.shown, Board.lcdReset, byteEdges, LCD_RESET, RESET_LCD]
  | string str h =>
    refine List.flatMap_congr fun c hc => ?_
    have hreset : c ≠ RESET_LCD := by
      rintro rfl
      exact h hc
    have hnul : c ≠ 0 := by simpa using List.mem_takeWhile_imp hc
    rw [byteEdges, if_neg hreset, if_neg hnul]

/-- **The display, end to end.**  Let a thread have the second MCU to itself on the bus, let its
    transfers so far be those of a sequence of `lcd_reset` and `lcd_string`, and let the interrupts
    of the second MCU bring the bytes that its slave has got.  Then for every interleaving of the
    statements of the threads on the bus, whatever transfers the others make, and for every
    interleaving of the interrupts with the loop that measures distances, the falling edges of E
    show exactly these calls. -/
theorem lcd_end_to_end (hx : Delivers xfer received) (i2cTransaction : Transaction T)
    (bus : Bus T δ) (s : State T I2c.Pc (Mem T δ))
    (h : Reachable (Lock.step (prog xfer)) (I2c.start i2cTransaction bus) s) (t : T)
    (hown : Owns t (· = MSP_SLAVE_ADDR) s.mem.calls) (calls : List LcdCall)
    (hcalls : s.mem.calls.filter (·.1 = t) = (lcdTransfers calls).map (t, ·))
    (regs : Motor.Registers) (es : List Event)
    (hes : received (s.mem.bus.dev MSP_SLAVE_ADDR) =
      received (bus.dev MSP_SLAVE_ADDR) ++ rxBytes es) :
    edges regs (trace (start regs) es) = calls.flatMap LcdCall.shown := by
  have hserial : s.mem.bus = serial xfer bus s.mem.calls := (serial_reachable h).2
  have hdev : (serial xfer bus s.mem.calls).dev MSP_SLAVE_ADDR = _ :=
    (serial_alone bus hown).dev MSP_SLAVE_ADDR rfl
  rw [hserial, hdev, hcalls, lcdTransfers, received_serial hx] at hes
  have hbytes := List.append_cancel_left hes
  have htrace : edges regs (trace (start regs) es) = es.flatMap Event.shown :=
    edges_trace (start regs) es
  rw [htrace, shown_rxBytes, ← hbytes, byteEdges_bytes]

/-- `lcd_string("A")` while another thread writes to the magnetometer. -/
def charRun : Option (State Bool I2c.Pc (Mem Bool (List UInt8))) :=
  exec (Lock.step (prog fun _ d w n => (d ++ w, List.replicate n 0, true)))
    (I2c.start ⟨[], 0, none, 0, 0⟩ ⟨fun _ => [], fun _ => [], fun _ => []⟩)
    ((false, lcdWriteCall 65) :: List.replicate 8 (true, .write 0x1E [9] 1)
      ++ List.replicate 7 (false, lcdWriteCall 65))

theorem lcd_end_to_end_char :
    edges ⟨fun _ => ⟨0, 0, 0, 0⟩, fun _ => ⟨0, 0, fun _ => 0, fun _ => 0⟩⟩
      (trace (start ⟨fun _ => ⟨0, 0, 0, 0⟩, fun _ => ⟨0, 0, fun _ => 0, fun _ => 0⟩⟩)
        [.main true, .rx 65]) = latched true 65 := by
  have hrun : charRun = some (charRun.get (by decide +kernel)) := (Option.some_get _).symm
  have hcalls : (charRun.get (by decide +kernel)).mem.calls =
      [(true, .write 0x1E [9] 1), (false, lcdWriteCall 65)] := by decide +kernel
  have hdev : (charRun.get (by decide +kernel)).mem.bus.dev MSP_SLAVE_ADDR = [65] := by
    decide +kernel
  have hdelivers : Delivers (fun _ d w n => (d ++ w, List.replicate n 0, true)) id :=
    fun _ _ => rfl
  refine lcd_end_to_end hdelivers _ _ _ (Reachable.exec _ .init hrun) false ?_
    [.string [65] (by decide)] ?_ _ _ hdev
  · rw [hcalls]
    simp [Owns, Call.addr, lcdWriteCall, MSP_SLAVE_ADDR]
  · rw [hcalls]
    rfl

end Wheelson.Lcd
