import Mathlib.Logic.Function.Basic
import Mathlib.Tactic.Linarith

namespace Wheelson.Motor

/-!
# The driverlib calls of the motor board

The registers the motor driver touches and the calls of `gpio.c` and `timer_a.c` that
write them.

* `PortPair` — ports come in 16-bit pairs (PA = P1/P2, …, PD = P7/P8), the even port in
  the upper byte; each pair has two select registers, a direction and an output register.
* `TimerRegs` — the control register of one Timer_A and its capture/compare registers.
* `gpioSetAsOutputPin`, … — one definition per driverlib call, a read-modify-write of
  whole registers, exactly the masks the C code applies.
* `Registers.pinAt` — the bits of the registers as one pin sees them, with a simp lemma
  for each call saying which pin it changes and how.
-/

/-! ### Ports and pins -/

/-- The ports P1 to P8. -/
inductive GpioPort
  | P1 | P2 | P3 | P4 | P5 | P6 | P7 | P8
deriving DecidableEq, Repr

/-- The register block of a port pair. -/
inductive PairBase
  | PA | PB | PC | PD
deriving DecidableEq, Repr

/-- `GPIO_PORT_TO_BASE`. -/
def gpioPortToBase : GpioPort → PairBase
  | .P1 | .P2 => .PA
  | .P3 | .P4 => .PB
  | .P5 | .P6 => .PC
  | .P7 | .P8 => .PD

/-- The test `(selectedPort & 1) ^ 1`: an even port lives in the upper eight bits. -/
def GpioPort.isEven : GpioPort → Bool
  | .P2 | .P4 | .P6 | .P8 => true
  | .P1 | .P3 | .P5 | .P7 => false

/-- The mask `GPIO_PINk`. -/
def gpioPin (k : Fin 8) : BitVec 16 := 1#16 <<< k.val

/-- `selectedPins`, shifted up by eight when the port is even. -/
def selectedBits (selectedPort : GpioPort) (selectedPins : BitVec 16) : BitVec 16 :=
  if selectedPort.isEven then selectedPins <<< 8 else selectedPins

/-- The registers of one port pair. -/
structure PortPair where
  sel0 : BitVec 16
  sel1 : BitVec 16
  dir : BitVec 16
  out : BitVec 16
deriving DecidableEq, Repr

/-- A single pin, such as P4.0. -/
structure Pin where
  port : GpioPort
  bit : Fin 8
deriving DecidableEq, Repr

/-- The position of a pin inside the registers of its pair. -/
def Pin.idx (p : Pin) : ℕ := if p.port.isEven then p.bit.val + 8 else p.bit.val

theorem Pin.idx_lt (p : Pin) : p.idx < 16 := by
  have := p.bit.isLt
  unfold Pin.idx
  split <;> omega

/-- A pin is determined by its pair and its position in the pair. -/
theorem Pin.eq_of_idx {p q : Pin} (hbase : gpioPortToBase p.port = gpioPortToBase q.port)
    (hidx : p.idx = q.idx) : p = q := by
  obtain ⟨pp, pb⟩ := p
  obtain ⟨qp, qb⟩ := q
  have hp := pb.isLt
  have hq := qb.isLt
  cases pp <;> cases qp <;>
    simp [gpioPortToBase, Pin.idx, GpioPort.isEven] at hbase hidx ⊢ <;> omega

/-- The shifted mask of a single pin is the power of two at its position. -/
theorem selectedBits_gpioPin (p : Pin) :
    selectedBits p.port (gpioPin p.bit) = BitVec.twoPow 16 p.idx := by
  rw [BitVec.twoPow_eq]
  unfold selectedBits gpioPin Pin.idx
  split
  · rw [BitVec.shiftLeft_add]
  · rfl

/-- The mask of a single pin has exactly the bit of that pin. -/
theorem getLsbD_selectedBits (p : Pin) (j : ℕ) :
    (selectedBits p.port (gpioPin p.bit)).getLsbD j = decide (p.idx = j) := by
  rw [selectedBits_gpioPin, BitVec.getLsbD_twoPow]
  simp [p.idx_lt]

/-! ### Registers -/

/-- The two timers. -/
inductive TimerBase
  | TA0 | TA1
deriving DecidableEq, Repr

/-- `TIMER_A_CAPTURECOMPARE_REGISTER_0` to `_2`. -/
inductive CompareRegister
  | reg0 | reg1 | reg2
deriving DecidableEq, Repr

/-- The registers of one Timer_A. -/
structure TimerRegs where
  ctl : BitVec 16
  ex0 : BitVec 16
  cctl : CompareRegister → BitVec 16
  ccr : CompareRegister → BitVec 16

/-- Every register the motor driver touches. -/
structure Registers where
  pair : PairBase → PortPair
  timer : TimerBase → TimerRegs

/-- Rewrite the registers of the pair of a port. -/
def Registers.modifyPair (r : Registers) (b : PairBase) (f : PortPair → PortPair) : Registers :=
  { r with pair := Function.update r.pair b (f (r.pair b)) }

/-- Rewrite the registers of a timer. -/
def Registers.modifyTimer (r : Registers) (b : TimerBase) (f : TimerRegs → TimerRegs) :
    Registers :=
  { r with timer := Function.update r.timer b (f (r.timer b)) }

/-- What the registers say about one pin. -/
@[ext] structure PinState where
  sel0 : Bool
  sel1 : Bool
  dir : Bool
  out : Bool
deriving DecidableEq, Repr

/-- The four bits of a pin. -/
def PortPair.pinAt (w : PortPair) (q : Pin) : PinState where
  sel0 := w.sel0.getLsbD q.idx
  sel1 := w.sel1.getLsbD q.idx
  dir := w.dir.getLsbD q.idx
  out := w.out.getLsbD q.idx

/-- The four bits of a pin, read in the pair of its port. -/
def Registers.pinAt (r : Registers) (q : Pin) : PinState :=
  (r.pair (gpioPortToBase q.port)).pinAt q

/-- The pin is a plain GPIO output driven low. -/
def PinState.outputLow (p : PinState) : Bool := !p.sel0 && !p.sel1 && p.dir && !p.out

/-! ### `gpio.c` -/

/-- `GPIO_PRIMARY_MODULE_FUNCTION` and its two siblings. -/
inductive ModuleFunction
  | primary | secondary | ternary
deriving DecidableEq, Repr

/-- `GPIO_setAsOutputPin`. -/
def gpioSetAsOutputPin (selectedPort : GpioPort) (selectedPins : BitVec 16) (r : Registers) :
    Registers :=
  let bits := selectedBits selectedPort selectedPins
  r.modifyPair (gpioPortToBase selectedPort) fun p =>
    { p with sel0 := p.sel0 &&& ~~~bits, sel1 := p.sel1 &&& ~~~bits, dir := p.dir ||| bits }

/-- `GPIO_setAsPeripheralModuleFunctionOutputPin`. -/
def gpioSetAsPeripheralModuleFunctionOutputPin (selectedPort : GpioPort)
    (selectedPins : BitVec 16) (mode : ModuleFunction) (r : Registers) : Registers :=
  let bits := selectedBits selectedPort selectedPins
  r.modifyPair (gpioPortToBase selectedPort) fun p =>
    let p := { p with dir := p.dir ||| bits }
    match mode with
    | .primary => { p with sel0 := p.sel0 ||| bits, sel1 := p.sel1 &&& ~~~bits }
    | .secondary => { p with sel0 := p.sel0 &&& ~~~bits, sel1 := p.sel1 ||| bits }
    | .ternary => { p with sel0 := p.sel0 ||| bits, sel1 := p.sel1 ||| bits }

/-- `GPIO_setOutputHighOnPin`. -/
def gpioSetOutputHighOnPin (selectedPort : GpioPort) (selectedPins : BitVec 16)
    (r : Registers) : Registers :=
  let bits := selectedBits selectedPort selectedPins
  r.modifyPair (gpioPortToBase selectedPort) fun p => { p with out := p.out ||| bits }

/-- `GPIO_setOutputLowOnPin`. -/
def gpioSetOutputLowOnPin (selectedPort : GpioPort) (selectedPins : BitVec 16)
    (r : Registers) : Registers :=
  let bits := selectedBits selectedPort selectedPins
  r.modifyPair (gpioPortToBase selectedPort) fun p => { p with out := p.out &&& ~~~bits }

/-! ### `timer_a.c` -/

/-- `CAP`. -/
def CAP : BitVec 16 := 0x0100#16
/-- `CCIE`, which is `TIMER_A_CAPTURECOMPARE_INTERRUPT_ENABLE`. -/
def CCIE : BitVec 16 := 0x0010#16
/-- `OUTMOD_7`, which is `TIMER_A_OUTPUTMODE_RESET_SET`. -/
def OUTMOD_7 : BitVec 16 := 0x00E0#16
/-- `MC_1`, which is `TIMER_A_UP_MODE`. -/
def MC_1 : BitVec 16 := 0x0010#16
/-- `MC_3`, the mask of the two mode bits. -/
def MC_3 : BitVec 16 := 0x0030#16

/-- `Timer_A_initCompareModeParam`. -/
structure CompareModeParam where
  compareRegister : CompareRegister
  compareInterruptEnable : BitVec 16
  compareOutputMode : BitVec 16
  compareValue : BitVec 16
deriving DecidableEq, Repr

/-- `Timer_A_initUpModeParam`. -/
structure UpModeParam where
  clockSource : BitVec 16
  clockSourceDivider : BitVec 16
  timerPeriod : BitVec 16
  timerInterruptEnable_TAIE : BitVec 16
  captureCompareInterruptEnable_CCR0_CCIE : BitVec 16
  timerClear : BitVec 16
  startTimer : Bool
deriving DecidableEq, Repr

/-- `Timer_A_stop`. -/
def timerAStop (b : TimerBase) (r : Registers) : Registers :=
  r.modifyTimer b fun t => { t with ctl := t.ctl &&& ~~~MC_3 }

/-- `Timer_A_startCounter`. -/
def timerAStartCounter (b : TimerBase) (timerMode : BitVec 16) (r : Registers) : Registers :=
  r.modifyTimer b fun t => { t with ctl := (t.ctl &&& ~~~MC_3) ||| timerMode }

/-- `Timer_A_setCompareValue`. -/
def timerASetCompareValue (b : TimerBase) (c : CompareRegister) (compareValue : BitVec 16)
    (r : Registers) : Registers :=
  r.modifyTimer b fun t => { t with ccr := Function.update t.ccr c compareValue }

/-- `Timer_A_initCompareMode`. -/
def timerAInitCompareMode (b : TimerBase) (param : CompareModeParam) (r : Registers) :
    Registers :=
  r.modifyTimer b fun t =>
    let c := param.compareRegister
    let w := t.cctl c &&& ~~~CAP &&& ~~~(CCIE + OUTMOD_7)
    { t with
      cctl := Function.update t.cctl c
        (w ||| (param.compareInterruptEnable + param.compareOutputMode))
      ccr := Function.update t.ccr c param.compareValue }

/-- `Timer_A_initUpMode`.  The cleared bits are the clock source, mode, clear, interrupt
    and input-divider fields of `TAxCTL`. -/
def timerAInitUpMode (b : TimerBase) (param : UpModeParam) (r : Registers) : Registers :=
  r.modifyTimer b fun t =>
    let ctl := t.ctl &&& ~~~(0x0300#16 + MC_3 + 0x0004#16 + 0x0002#16 + 0x00C0#16)
    let ctl := ctl ||| (param.clockSource + param.timerClear +
      param.timerInterruptEnable_TAIE + (param.clockSourceDivider >>> 3) <<< 6)
    { t with
      ctl := if param.startTimer then ctl ||| MC_1 else ctl
      ex0 := (t.ex0 &&& ~~~0x0007#16) ||| (param.clockSourceDivider &&& 0x7#16)
      cctl := Function.update t.cctl .reg0
        (if param.captureCompareInterruptEnable_CCR0_CCIE = CCIE then t.cctl .reg0 ||| CCIE
         else t.cctl .reg0 &&& ~~~CCIE)
      ccr := Function.update t.ccr .reg0 param.timerPeriod }

/-- The mode bits of a timer are not `MC_0`: the counter runs. -/
def Registers.timerRunning (r : Registers) (b : TimerBase) : Bool :=
  (r.timer b).ctl &&& MC_3 ≠ 0

/-! ### What each call does to a pin -/

theorem getLsbD_or_mask {p q : Pin} (hb : gpioPortToBase q.port = gpioPortToBase p.port)
    (w : BitVec 16) :
    (w ||| selectedBits p.port (gpioPin p.bit)).getLsbD q.idx
      = if q = p then true else w.getLsbD q.idx := by
  rw [BitVec.getLsbD_or, getLsbD_selectedBits]
  by_cases h : q = p
  · simp [h]
  · have hidx : ¬ p.idx = q.idx := fun he => h (Pin.eq_of_idx hb he.symm)
    simp [h, hidx]

theorem getLsbD_and_mask {p q : Pin} (hb : gpioPortToBase q.port = gpioPortToBase p.port)
    (w : BitVec 16) :
    (w &&& ~~~selectedBits p.port (gpioPin p.bit)).getLsbD q.idx
      = if q = p then false else w.getLsbD q.idx := by
  rw [BitVec.getLsbD_and, BitVec.getLsbD_not, getLsbD_selectedBits]
  by_cases h : q = p
  · simp [h]
  · have hidx : ¬ p.idx = q.idx := fun he => h (Pin.eq_of_idx hb he.symm)
    simp [h, hidx, q.idx_lt]

/-- Rewriting one pair leaves the pins of the other pairs alone. -/
theorem pinAt_modifyPair (r : Registers) (b : PairBase) (f : PortPair → PortPair) (q : Pin) :
    (r.modifyPair b f).pinAt q
      = if gpioPortToBase q.port = b then (f (r.pair (gpioPortToBase q.port))).pinAt q
        else r.pinAt q := by
  unfold Registers.pinAt Registers.modifyPair
  by_cases h : gpioPortToBase q.port = b
  · subst h; simp
  · simp [h]

@[simp] theorem pinAt_modifyTimer (r : Registers) (b : TimerBase) (f : TimerRegs → TimerRegs)
    (q : Pin) : (r.modifyTimer b f).pinAt q = r.pinAt q := rfl

/-- A rewrite of the pair of `p` that changes only the bits of `p` acts on pins by `g`. -/
theorem pinAt_modifyPair_of (p : Pin) (r : Registers) (f : PortPair → PortPair)
    (g : PinState → PinState)
    (hfg : ∀ (w : PortPair) (q : Pin), gpioPortToBase q.port = gpioPortToBase p.port →
      (f w).pinAt q = if q = p then g (w.pinAt q) else w.pinAt q) (q : Pin) :
    (r.modifyPair (gpioPortToBase p.port) f).pinAt q
      = if q = p then g (r.pinAt q) else r.pinAt q := by
  rw [pinAt_modifyPair]
  by_cases hb : gpioPortToBase q.port = gpioPortToBase p.port
  · rw [if_pos hb, hfg _ q hb]; rfl
  · have hq : q ≠ p := fun h => hb (by rw [h])
    rw [if_neg hb, if_neg hq]

@[simp] theorem pinAt_gpioSetAsOutputPin (port : GpioPort) (k : Fin 8) (r : Registers) (q : Pin) :
    (gpioSetAsOutputPin port (gpioPin k) r).pinAt q
      = if q = ⟨port, k⟩ then { r.pinAt q with sel0 := false, sel1 := false, dir := true }
        else r.pinAt q := by
  rw [gpioSetAsOutputPin, pinAt_modifyPair_of ⟨port, k⟩ r _
    (fun s => { s with sel0 := false, sel1 := false, dir := true })]
  intro w q hb
  simp only [PortPair.pinAt, getLsbD_and_mask (p := ⟨port, k⟩) hb,
    getLsbD_or_mask (p := ⟨port, k⟩) hb]
  split <;> rfl

@[simp] theorem pinAt_gpioSetAsPeripheralModuleFunctionOutputPin (port : GpioPort) (k : Fin 8)
    (r : Registers) (q : Pin) :
    (gpioSetAsPeripheralModuleFunctionOutputPin port (gpioPin k) .primary r).pinAt q
      = if q = ⟨port, k⟩ then { r.pinAt q with sel0 := true, sel1 := false, dir := true }
        else r.pinAt q := by
  rw [gpioSetAsPeripheralModuleFunctionOutputPin, pinAt_modifyPair_of ⟨port, k⟩ r _
    (fun s => { s with sel0 := true, sel1 := false, dir := true })]
  intro w q hb
  simp only [PortPair.pinAt, getLsbD_and_mask (p := ⟨port, k⟩) hb,
    getLsbD_or_mask (p := ⟨port, k⟩) hb]
  split <;> rfl

@[simp] theorem pinAt_gpioSetOutputHighOnPin (port : GpioPort) (k : Fin 8) (r : Registers)
    (q : Pin) :
    (gpioSetOutputHighOnPin port (gpioPin k) r).pinAt q
      = if q = ⟨port, k⟩ then { r.pinAt q with out := true } else r.pinAt q := by
  rw [gpioSetOutputHighOnPin, pinAt_modifyPair_of ⟨port, k⟩ r _
    (fun s => { s with out := true })]
  intro w q hb
  simp only [PortPair.pinAt, getLsbD_or_mask (p := ⟨port, k⟩) hb]
  split <;> rfl

@[simp] theorem pinAt_gpioSetOutputLowOnPin (port : GpioPort) (k : Fin 8) (r : Registers)
    (q : Pin) :
    (gpioSetOutputLowOnPin port (gpioPin k) r).pinAt q
      = if q = ⟨port, k⟩ then { r.pinAt q with out := false } else r.pinAt q := by
  rw [gpioSetOutputLowOnPin, pinAt_modifyPair_of ⟨port, k⟩ r _
    (fun s => { s with out := false })]
  intro w q hb
  simp only [PortPair.pinAt, getLsbD_and_mask (p := ⟨port, k⟩) hb]
  split <;> rfl

end Wheelson.Motor
