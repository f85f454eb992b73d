import Wheelson.Ipc.Pdu
import Wheelson.Motor.Driverlib

namespace Wheelson.Lcd

/-!
# The LCD, from the controller to the pins

The layers between a string and the pins, each as what it hands to the next:

* `Board` — `lcd_reset` and `lcd_string` of the controller, as the bytes they put on the I2C bus.
* `i2cDataHandler` — the second MCU, for one byte.
* `AnyLcd` — the nibbles of a byte, as the bit fields of the four calls of `lcdWrite`.
* `lcdWrite` — the calls of `gpio.c` for a bit field.

The delays between the calls touch no pin.
-/

open Ipc Motor

/-! ### The controller -/

def LCD_RESET : UInt8 := 0xFF

namespace Board

/-- The bytes of `lcd_reset`. -/
def lcdReset : List UInt8 := [LCD_RESET]

/-- The bytes of `lcd_string`, which would stop at one that `i2c_write` cannot deliver. -/
def lcdString (str : List UInt8) : List UInt8 := cstr str

end Board

/-! ### `lcdWrite` -/

/-- A call of `gpio.c` on output pins. -/
inductive GpioCall
  | setOutputHigh (selectedPort : GpioPort) (selectedPins : BitVec 16)
  | setOutputLow (selectedPort : GpioPort) (selectedPins : BitVec 16)
deriving DecidableEq, Repr

def GpioCall.exec (r : Registers) : GpioCall → Registers
  | .setOutputHigh port pins => gpioSetOutputHighOnPin port pins r
  | .setOutputLow port pins => gpioSetOutputLowOnPin port pins r

/-- `reverse_nibble_lookup`. -/
def reverseNibbleLookup : List (BitVec 8) := [0x0, 0x8, 0x4, 0xc, 0x2, 0xa, 0x6, 0xe]

def ctrlBits (bitfield : BitVec 8) : BitVec 8 :=
  reverseNibbleLookup.getD (bitfield &&& 0x07).toNat 0 >>> 1

/-- `lcdWrite`.  The operators work on `int`, which has 16 bits. -/
def lcdWrite (bitfield : BitVec 8) : List GpioCall :=
  let ctrl_bits : BitVec 16 := (ctrlBits bitfield).setWidth 16
  let bitfield : BitVec 16 := bitfield.setWidth 16
  [.setOutputLow .P1 (~~~ctrl_bits &&& 0x07),
    .setOutputHigh .P1 (ctrl_bits &&& 0x07),
    .setOutputLow .P7 ((~~~bitfield).sshiftRight 4 &&& 0x0F),
    .setOutputHigh .P7 (bitfield.sshiftRight 4 &&& 0x0F)]

/-! ### `ANY_LCD.c` -/

namespace AnyLcd

def LCD_E_bm : BitVec 16 := 0x04
def LCD_RnW_bm : BitVec 16 := 0x02
def LCD_RS_bm : BitVec 16 := 0x01
def LCD_LED_bm : BitVec 16 := 0x08

def LCD_CLEAR : BitVec 16 := 0x01
def LCD_RETURN : BitVec 16 := 0x02

/-- `LCD_MakeCMD`: the buffer it fills. -/
def makeCMD (data : BitVec 16) : List (BitVec 16) :=
  [((data &&& 0xF0) ||| LCD_LED_bm ||| LCD_E_bm) &&& ~~~LCD_RS_bm &&& ~~~LCD_RnW_bm,
    ((data &&& 0xF0) ||| LCD_LED_bm) &&& ~~~LCD_RS_bm &&& ~~~LCD_RnW_bm &&& ~~~LCD_E_bm,
    (((data <<< 4) &&& 0xF0) ||| LCD_LED_bm ||| LCD_E_bm) &&& ~~~LCD_RS_bm &&& ~~~LCD_RnW_bm,
    (((data <<< 4) &&& 0xF0) ||| LCD_LED_bm) &&& ~~~LCD_RS_bm &&& ~~~LCD_RnW_bm &&& ~~~LCD_E_bm]

/-- `LCD_MakeData`: the buffer it fills. -/
def makeData (data : BitVec 16) : List (BitVec 16) :=
  [((data &&& 0xF0) ||| LCD_LED_bm ||| LCD_E_bm ||| LCD_RS_bm) &&& ~~~LCD_RnW_bm,
    ((data &&& 0xF0) ||| LCD_LED_bm ||| LCD_RS_bm) &&& ~~~LCD_RnW_bm &&& ~~~LCD_E_bm,
    (((data <<< 4) &&& 0xF0) ||| LCD_LED_bm ||| LCD_E_bm ||| LCD_RS_bm) &&& ~~~LCD_RnW_bm,
    (((data <<< 4) &&& 0xF0) ||| LCD_LED_bm ||| LCD_RS_bm) &&& ~~~LCD_RnW_bm &&& ~~~LCD_E_bm]

/-- `LCD_SendBytes`: `lcd_write` takes a `uint8_t`. -/
def sendBytes (buffer : List (BitVec 16)) : List GpioCall :=
  buffer.flatMap fun bitfield => lcdWrite (bitfield.setWidth 8)

/-- `LCD_WriteCMD`. -/
def writeCMD (cmd : BitVec 16) : List GpioCall := sendBytes (makeCMD cmd)

/-- `LCD_WriteData`. -/
def writeData (data : BitVec 16) : List GpioCall := sendBytes (makeData data)

/-- `LCD_Reset`. -/
def reset : List GpioCall := writeCMD LCD_CLEAR ++ writeCMD LCD_RETURN

end AnyLcd

/-! ### The second MCU -/

def RESET_LCD : UInt8 := 0xFF

/-- `i2c_data_handler`. -/
def i2cDataHandler (data : UInt8) : List GpioCall :=
  if data = RESET_LCD then AnyLcd.reset
  else if data = 0 then []
  else AnyLcd.writeData (data.toBitVec.setWidth 16)

end Wheelson.Lcd
