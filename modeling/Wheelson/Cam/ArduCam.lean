import Mathlib.Data.Nat.Bitwise
import Mathlib.Tactic.NormNum

namespace Wheelson.Cam

/-!
# `ArduCAM_Generic.c`: the camera chip behind the SPI bus

* `Chip` — the other end of the bus: what it answers to a transfer, and what its FIFO holds.
* `Chip.Documented` — what the driver relies on: the registers it writes and reads.
* `Bus` — the chip with what the driver keeps: the select pin and the buffer of
  `ACAM_set_fifo_burst`.
* One lemma for each function says what it does to the FIFO.
-/

def ARDUCHIP_FIFO : UInt8 := 0x04
def FIFO_CLEAR_MASK : UInt8 := 0x01
def FIFO_START_MASK : UInt8 := 0x02
def BURST_FIFO_READ : UInt8 := 0x3C
def SINGLE_FIFO_READ : UInt8 := 0x3D
def ARDUCHIP_TRIG : UInt8 := 0x41
def CAP_DONE_MASK : UInt8 := 0x08
def FIFO_SIZE1 : UInt8 := 0x42
def FIFO_SIZE2 : UInt8 := 0x43
def FIFO_SIZE3 : UInt8 := 0x44
def MAX_FIFO_SIZE : ℕ := 0x5FFFF

/-! ### The chip -/

inductive Fifo
  | idle
  | capturing
  /-- A capture of `size` bytes, of which `rest` have not been read. -/
  | captured (size : ℕ) (rest : List UInt8)
deriving DecidableEq, Repr

structure Chip (σ : Type) where
  /-- A transfer, with the chip selected or not: the bytes that come back. -/
  transfer : σ → Bool → List UInt8 → List UInt8 × σ
  fifo : σ → Fifo

variable {σ : Type}

/-- The second byte that comes back from the selected chip. -/
def Chip.answer (chip : Chip σ) (c : σ) (data : List UInt8) : UInt8 :=
  (chip.transfer c true data).1.getD 1 0

/-- The FIFO after a transfer to the selected chip. -/
def Chip.after (chip : Chip σ) (c : σ) (data : List UInt8) : Fifo :=
  chip.fifo (chip.transfer c true data).2

/-- The registers of the chip.  A capture takes its time: it may be over at any poll. -/
structure Chip.Documented (chip : Chip σ) : Prop where
  clear : ∀ c, chip.after c [ARDUCHIP_FIFO ||| 0x80, FIFO_CLEAR_MASK] = .idle
  start : ∀ c, chip.fifo c = .idle →
    chip.after c [ARDUCHIP_FIFO ||| 0x80, FIFO_START_MASK] = .capturing
  poll : ∀ c, chip.fifo c = .capturing →
    chip.after c [ARDUCHIP_TRIG &&& 0x7F, 0] = .capturing ∧
        chip.answer c [ARDUCHIP_TRIG &&& 0x7F, 0] &&& CAP_DONE_MASK = 0 ∨
      ∃ content, content.length ≤ MAX_FIFO_SIZE ∧
        chip.after c [ARDUCHIP_TRIG &&& 0x7F, 0] = .captured content.length content
  done : ∀ c n rest, chip.fifo c = .captured n rest →
    chip.after c [ARDUCHIP_TRIG &&& 0x7F, 0] = .captured n rest ∧
      chip.answer c [ARDUCHIP_TRIG &&& 0x7F, 0] &&& CAP_DONE_MASK ≠ 0
  size : ∀ c n rest, chip.fifo c = .captured n rest →
    ∀ reg k, (reg, k) ∈ [(FIFO_SIZE1, 0), (FIFO_SIZE2, 1), (FIFO_SIZE3, 2)] →
      chip.after c [reg &&& 0x7F, 0] = .captured n rest ∧
        (chip.answer c [reg &&& 0x7F, 0]).toNat = n / 256 ^ k % 256
  single : ∀ c n b rest, chip.fifo c = .captured n (b :: rest) →
    chip.after c [SINGLE_FIFO_READ &&& 0x7F, 0] = .captured n rest ∧
      chip.answer c [SINGLE_FIFO_READ &&& 0x7F, 0] = b
  unselected : ∀ c data, chip.fifo (chip.transfer c false data).2 = chip.fifo c

/-- A chip with its captures to come, each done after the first poll. -/
structure Sim where
  fifo : Fifo
  upcoming : List (List UInt8)

def Sim.poll (c : Sim) : List UInt8 × Sim :=
  match c.fifo, c.upcoming with
  | .capturing, content :: upcoming =>
    let content := content.take MAX_FIFO_SIZE
    ([0, 0], ⟨.captured content.length content, upcoming⟩)
  | .captured _ _, _ => ([0, CAP_DONE_MASK], c)
  | _, _ => ([0, 0], c)

def Sim.size (c : Sim) (k : ℕ) : List UInt8 × Sim :=
  match c.fifo with
  | .captured n _ => ([0, UInt8.ofNat (n / 256 ^ k)], c)
  | _ => ([0, 0], c)

def Sim.single (c : Sim) : List UInt8 × Sim :=
  match c.fifo with
  | .captured n (b :: rest) => ([0, b], { c with fifo := .captured n rest })
  | _ => ([0, 0], c)

def sim : Chip Sim where
  fifo c := c.fifo
  transfer c selected data :=
    if !selected then (data, c)
    else if data = [0x84, FIFO_CLEAR_MASK] then (data, { c with fifo := .idle })
    else if data = [0x84, FIFO_START_MASK] then (data, { c with fifo := .capturing })
    else if data = [ARDUCHIP_TRIG, 0] then c.poll
    else if data = [FIFO_SIZE1, 0] then c.size 0
    else if data = [FIFO_SIZE2, 0] then c.size 1
    else if data = [FIFO_SIZE3, 0] then c.size 2
    else if data = [SINGLE_FIFO_READ, 0] then c.single
    else (data, c)

theorem sim_documented : sim.Documented where
  clear _ := rfl
  start _ _ := rfl
  poll c h := by
    obtain ⟨fifo, upcoming⟩ := c
    obtain rfl : fifo = .capturing := h
    cases upcoming with
    | nil => exact .inl ⟨rfl, rfl⟩
    | cons content upcoming => exact .inr ⟨_, List.length_take_le _ _, rfl⟩
  done c n rest h := by
    obtain ⟨fifo, upcoming⟩ := c
    obtain rfl : fifo = .captured n rest := h
    have hbit : (CAP_DONE_MASK &&& CAP_DONE_MASK : UInt8) ≠ 0 := by decide
    exact ⟨rfl, hbit⟩
  size c n rest h reg k hreg := by
    obtain ⟨fifo, upcoming⟩ := c
    obtain rfl : fifo = .captured n rest := h
    simp only [List.mem_cons, Prod.mk.injEq, List.not_mem_nil, or_false] at hreg
    rcases hreg with ⟨rfl, rfl⟩ | ⟨rfl, rfl⟩ | ⟨rfl, rfl⟩ <;> exact ⟨rfl, UInt8.toNat_ofNat'⟩
  single c n b rest h := by
    obtain ⟨fifo, upcoming⟩ := c
    obtain rfl : fifo = .captured n (b :: rest) := h
    exact ⟨rfl, rfl⟩
  unselected _ _ := rfl

/-! ### The driver -/

structure Bus (σ : Type) where
  chip : σ
  /-- `CAM_SPI_SS` is low. -/
  selected : Bool
  /-- The static `buffer[0]` of `ACAM_set_fifo_burst`. -/
  buffer : UInt8

def acamSpiCsLow (bus : Bus σ) : Bus σ := { bus with selected := true }

def acamSpiCsHigh (bus : Bus σ) : Bus σ := { bus with selected := false }

variable (chip : Chip σ)

/-- `acam_spi_write`.  What comes back replaces the data, for it is the receive buffer too. -/
def acamSpiWrite (bus : Bus σ) (data : List UInt8) : List UInt8 × Bus σ :=
  let (data, c) := chip.transfer bus.chip bus.selected data
  (data, { bus with chip := c })

/-- `acam_spi_read`, which does the same. -/
def acamSpiRead (bus : Bus σ) (data : List UInt8) : List UInt8 × Bus σ :=
  let (data, c) := chip.transfer bus.chip bus.selected data
  (data, { bus with chip := c })

def acamSpiWriteReg (bus : Bus σ) (addr data : UInt8) : Bus σ :=
  let bus := acamSpiCsLow bus
  let (_, bus) := acamSpiWrite chip bus [addr ||| 0x80, data]
  acamSpiCsHigh bus

def acamSpiReadReg (bus : Bus σ) (addr : UInt8) : UInt8 × Bus σ :=
  let bus := acamSpiCsLow bus
  let (buffer, bus) := acamSpiRead chip bus [addr &&& 0x7F, 0x00]
  (buffer.getD 1 0, acamSpiCsHigh bus)

def acamGetBit (bus : Bus σ) (addr bit : UInt8) : UInt8 × Bus σ :=
  let (temp, bus) := acamSpiReadReg chip bus addr
  (temp &&& bit, bus)

def acamStartCapture (bus : Bus σ) : Bus σ :=
  acamSpiWriteReg chip bus ARDUCHIP_FIFO FIFO_START_MASK

def acamClearFifoFlag (bus : Bus σ) : Bus σ :=
  acamSpiWriteReg chip bus ARDUCHIP_FIFO FIFO_CLEAR_MASK

def acamGetFifoLength (bus : Bus σ) : ℕ × Bus σ :=
  let (len1, bus) := acamSpiReadReg chip bus FIFO_SIZE1
  let (len2, bus) := acamSpiReadReg chip bus FIFO_SIZE2
  let (len3, bus) := acamSpiReadReg chip bus FIFO_SIZE3
  ((len3.toNat <<< 16 ||| len2.toNat <<< 8 ||| len1.toNat) &&& 0x07fffff, bus)

/-- `ACAM_set_fifo_burst`.  It does not select the chip. -/
def acamSetFifoBurst (bus : Bus σ) : Bus σ :=
  let (_, bus) := acamSpiWrite chip bus [bus.buffer]
  let (buffer, bus) := acamSpiWrite chip bus [0x00]
  { bus with buffer := buffer.getD 0 0 }

def acamReadFifo (bus : Bus σ) : UInt8 × Bus σ := acamSpiReadReg chip bus SINGLE_FIFO_READ

/-! ### What the functions do -/

variable {chip} {bus : Bus σ} {n : ℕ} {rest : List UInt8}

/-- What the FIFO holds. -/
def Bus.fifo (chip : Chip σ) (bus : Bus σ) : Fifo := chip.fifo bus.chip

theorem fifo_clear (hchip : chip.Documented) : (acamClearFifoFlag chip bus).fifo chip = .idle :=
  hchip.clear bus.chip

theorem fifo_start (hchip : chip.Documented) (h : bus.fifo chip = .idle) :
    (acamStartCapture chip bus).fifo chip = .capturing :=
  hchip.start bus.chip h

/-- A poll while the capture is under way, or after it. -/
theorem fifo_poll (hchip : chip.Documented) (h : bus.fifo chip = .capturing ∨
      ∃ content, content.length ≤ MAX_FIFO_SIZE ∧
        bus.fifo chip = .captured content.length content) :
    (acamGetBit chip bus ARDUCHIP_TRIG CAP_DONE_MASK).1 = 0 ∧
        (acamGetBit chip bus ARDUCHIP_TRIG CAP_DONE_MASK).2.fifo chip = .capturing ∨
      ∃ content, content.length ≤ MAX_FIFO_SIZE ∧
        (acamGetBit chip bus ARDUCHIP_TRIG CAP_DONE_MASK).2.fifo chip
          = .captured content.length content := by
  rcases h with h | ⟨content, hlen, h⟩
  · rcases hchip.poll bus.chip h with ⟨hafter, hbit⟩ | hdone
    · exact .inl ⟨hbit, hafter⟩
    · exact .inr hdone
  · exact .inr ⟨content, hlen, (hchip.done bus.chip _ _ h).1⟩

/-- The bytes of the three size registers. -/
theorem length_of_bytes {n : ℕ} (hn : n < 2 ^ 23) :
    ((n / 256 ^ 2 % 256) <<< 16 ||| (n / 256 ^ 1 % 256) <<< 8 ||| n / 256 ^ 0 % 256) &&& 0x07fffff
      = n := by
  have hlow : n / 256 ^ 0 % 256 < 2 ^ 8 := Nat.mod_lt _ (by norm_num)
  have hmid : (n / 256 ^ 1 % 256) <<< 8 < 2 ^ 16 := by
    rw [Nat.shiftLeft_eq]
    omega
  rw [Nat.lor_assoc, ← Nat.shiftLeft_add_eq_or_of_lt hlow]
  have hlower : (n / 256 ^ 1 % 256) <<< 8 + n / 256 ^ 0 % 256 < 2 ^ 16 := by
    rw [Nat.shiftLeft_eq]
    omega
  rw [← Nat.shiftLeft_add_eq_or_of_lt hlower, show (0x07fffff : ℕ) = 2 ^ 23 - 1 by norm_num,
    Nat.and_two_pow_sub_one_eq_mod, Nat.shiftLeft_eq, Nat.shiftLeft_eq]
  omega

/-- The length of a capture, as long as it fits the FIFO. -/
theorem getFifoLength (hchip : chip.Documented) (h : bus.fifo chip = .captured n rest)
    (hn : n ≤ MAX_FIFO_SIZE) :
    (acamGetFifoLength chip bus).1 = n ∧
      (acamGetFifoLength chip bus).2.fifo chip = .captured n rest ∧
      (acamGetFifoLength chip bus).2.selected = false := by
  have hread {bus : Bus σ} (h : bus.fifo chip = .captured n rest) (reg : UInt8) (k : ℕ)
      (hreg : (reg, k) ∈ [(FIFO_SIZE1, 0), (FIFO_SIZE2, 1), (FIFO_SIZE3, 2)]) :
      (acamSpiReadReg chip bus reg).1.toNat = n / 256 ^ k % 256 ∧
        (acamSpiReadReg chip bus reg).2.fifo chip = .captured n rest :=
    (hchip.size bus.chip n rest h reg k hreg).symm
  obtain ⟨hlen1, h1⟩ := hread h FIFO_SIZE1 0 (by simp)
  obtain ⟨hlen2, h2⟩ := hread h1 FIFO_SIZE2 1 (by simp)
  obtain ⟨hlen3, h3⟩ := hread h2 FIFO_SIZE3 2 (by simp)
  refine ⟨?_, h3, rfl⟩
  have hlength : (acamGetFifoLength chip bus).1 = ((n / 256 ^ 2 % 256) <<< 16 |||
      (n / 256 ^ 1 % 256) <<< 8 ||| n / 256 ^ 0 % 256) &&& 0x07fffff := by
    rw [← hlen1, ← hlen2, ← hlen3]
    rfl
  rw [hlength]
  exact length_of_bytes (hn.trans_lt (by norm_num [MAX_FIFO_SIZE]))

theorem readFifo (hchip : chip.Documented) {b : UInt8}
    (h : bus.fifo chip = .captured n (b :: rest)) :
    (acamReadFifo chip bus).1 = b ∧ (acamReadFifo chip bus).2.fifo chip = .captured n rest :=
  (hchip.single bus.chip n b rest h).symm

/-- The burst command does not reach the chip: no byte of the FIFO is lost. -/
theorem fifo_setFifoBurst (hchip : chip.Documented) (hbus : bus.selected = false) :
    (acamSetFifoBurst chip bus).fifo chip = bus.fifo chip := by
  obtain ⟨c, selected, buffer⟩ := bus
  obtain rfl : selected = false := hbus
  show chip.fifo (chip.transfer (chip.transfer c false [buffer]).2 false [0x00]).2 = chip.fifo c
  rw [hchip.unselected, hchip.unselected]

end Wheelson.Cam
