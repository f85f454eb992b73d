import Mathlib.Data.List.Induction
import Wheelson.Lib.Lock

namespace Wheelson.I2c

/-!
# The I2C bus of the controller

`i2c_write` and `i2c_read` of `board.c` fill in one global `i2cTransaction`, field by field, and
hand it to `I2C_transfer`.  The threads that use them talk to the LCD, the magnetometer and the
camera.

* `Transaction` — the struct; `transfer`, what `I2C_transfer` makes of it.  What the devices
  answer is a parameter.
* `prog` — the two functions by statements, each inside the section of `i2c_mutex`.
* `serial` — the calls one after the other, each with a transaction of its own.
* `serial_reachable` — under every interleaving the bus is as `serial` leaves it.
* `serial_alone`, `i2c_alone` — so a thread whose devices nobody else addresses uses the bus as
  if it was alone.
-/

open Machine Lock

/-- `I2C_Transaction`.  `writeBuf` is what its pointer points to, and `readBuf` the thread whose
    buffer its pointer points to. -/
structure Transaction (T : Type*) where
  writeBuf : List UInt8
  writeCount : ℕ
  readBuf : Option T
  readCount : ℕ
  slaveAddress : UInt8

/-- A call of `i2c_write` or `i2c_read`. -/
inductive Call
  | write (slave_addr : UInt8) (data : List UInt8) (data_len : ℕ)
  | read (slave_addr : UInt8) (data_len : ℕ)
deriving DecidableEq, Repr

def Call.addr : Call → UInt8
  | .write slave_addr _ _ | .read slave_addr _ => slave_addr

/-- The devices by their addresses, and what each thread has got so far: the bytes stored in the
    buffers it passed to `i2c_read`, and the return values of its calls. -/
structure Bus (T δ : Type*) where
  dev : UInt8 → δ
  data : T → List (List UInt8)
  rc : T → List ℤ

/-- The shared memory; `calls` lists the calls in the order of their transfers. -/
structure Mem (T δ : Type*) where
  i2cTransaction : Transaction T
  bus : Bus T δ
  calls : List (T × Call)

/-- Where a thread is in the two functions. -/
inductive Pc
  | outside
  | wait (c : Call)
  /-- At the assignment of the buffer of the call. -/
  | setBuf (c : Call)
  | setCount (c : Call)
  /-- At the assignment of 0 to the other count. -/
  | clearCount (c : Call)
  | setAddr (c : Call)
  | transfer (c : Call)
  | unlock
deriving DecidableEq, Repr

variable {T δ : Type*} [DecidableEq T]

section transfer

-- What a device does in a transfer that writes these bytes to it and reads so many: its next
-- state, the bytes read and whether the transfer succeeds.
variable (xfer : UInt8 → δ → List UInt8 → ℕ → δ × List UInt8 × Bool)

/-- `I2C_transfer` and the return value that the caller makes of it. -/
def transfer (t : T) (x : Transaction T) (bus : Bus T δ) : Bus T δ :=
  let (d, bytes, ok) := xfer x.slaveAddress (bus.dev x.slaveAddress)
    (x.writeBuf.take x.writeCount) x.readCount
  { dev := Function.update bus.dev x.slaveAddress d
    data :=
      match x.readBuf with
      | some u =>
        if x.readCount = 0 then bus.data
        else Function.update bus.data u (bus.data u ++ [bytes])
      | none => bus.data
    rc := Function.update bus.rc t (bus.rc t ++ [if ok then 0 else -1]) }

/-- `i2c_write` and `i2c_read`. -/
def prog (t : T) : Pc → Instr Call Pc (Mem T δ)
  | .outside => .free fun c m => some (.wait c, m)
  | .wait c => .lock (.setBuf c)
  | .setBuf c => .body fun m =>
      (.setCount c,
        match c with
        | .write _ data _ =>
          { m with i2cTransaction := { m.i2cTransaction with writeBuf := data } }
        | .read _ _ => { m with i2cTransaction := { m.i2cTransaction with readBuf := some t } })
  | .setCount c => .body fun m =>
      (.clearCount c,
        match c with
        | .write _ _ data_len =>
          { m with i2cTransaction := { m.i2cTransaction with writeCount := data_len } }
        | .read _ data_len =>
          { m with i2cTransaction := { m.i2cTransaction with readCount := data_len } })
  | .clearCount c => .body fun m =>
      (.setAddr c,
        match c with
        | .write _ _ _ => { m with i2cTransaction := { m.i2cTransaction with readCount := 0 } }
        | .read _ _ => { m with i2cTransaction := { m.i2cTransaction with writeCount := 0 } })
  | .setAddr c => .body fun m =>
      (.transfer c,
        { m with i2cTransaction := { m.i2cTransaction with slaveAddress := c.addr } })
  | .transfer c => .body fun m =>
      (.unlock,
        { m with
          bus := transfer xfer t m.i2cTransaction m.bus
          calls := m.calls ++ [(t, c)] })
  | .unlock => .unlock .outside

/-- Every thread outside, the struct and the bus as they are. -/
def start (i2cTransaction : Transaction T) (bus : Bus T δ) : State T Pc (Mem T δ) where
  mem := ⟨i2cTransaction, bus, []⟩
  mutex := 1
  pc := fun _ => .outside

/-! ### The calls one after the other -/

/-- The transaction that a call asks for. -/
def Call.transaction (t : T) : Call → Transaction T
  | .write slave_addr data data_len => ⟨data, data_len, none, 0, slave_addr⟩
  | .read slave_addr data_len => ⟨[], 0, some t, data_len, slave_addr⟩

/-- One call with a transaction of its own. -/
def perform (bus : Bus T δ) (c : T × Call) : Bus T δ :=
  transfer xfer c.1 (c.2.transaction c.1) bus

/-- These calls, one after the other. -/
def serial (bus : Bus T δ) (calls : List (T × Call)) : Bus T δ := run (perform xfer) bus calls

/-- What a call has set in the struct makes a transfer of it the one the call asks for, whatever
    the calls before have left there. -/
inductive Call.Filled (t : T) (x : Transaction T) : Call → Prop
  | write {slave_addr : UInt8} {data : List UInt8} {data_len : ℕ} (hbuf : x.writeBuf = data)
      (hcount : x.writeCount = data_len) (hread : x.readCount = 0)
      (haddr : x.slaveAddress = slave_addr) : Filled t x (.write slave_addr data data_len)
  | read {slave_addr : UInt8} {data_len : ℕ} (hbuf : x.readBuf = some t)
      (hcount : x.readCount = data_len) (hwrite : x.writeCount = 0)
      (haddr : x.slaveAddress = slave_addr) : Filled t x (.read slave_addr data_len)

theorem transfer_filled {t : T} {x : Transaction T} {c : Call} (h : c.Filled t x)
    (bus : Bus T δ) : transfer xfer t x bus = perform xfer bus (t, c) := by
  obtain ⟨writeBuf, writeCount, readBuf, readCount, slaveAddress⟩ := x
  cases h with
  | write hbuf hcount hread haddr =>
    dsimp only at hbuf hcount hread haddr
    subst hbuf hcount hread haddr
    -- the stale `readBuf` is not used
    cases readBuf <;> rfl
  | read hbuf hcount hwrite haddr =>
    dsimp only at hbuf hcount hwrite haddr
    subst hbuf hcount hwrite haddr
    rfl

end transfer

variable {xfer : UInt8 → δ → List UInt8 → ℕ → δ × List UInt8 × Bool}

/-! ### Every interleaving is serial -/

theorem sections : Sections (prog (T := T) xfer) where
  lock := by
    intro t k next hk
    cases k <;> simp only [prog, reduceCtorEq, Instr.lock.injEq] at hk
    subst hk
    rfl
  body := by
    intro t k f m hk
    cases k <;> simp only [prog, reduceCtorEq, Instr.body.injEq] at hk <;> subst hk <;> rfl
  unlock := by
    intro t k next hk
    cases k <;> simp only [prog, reduceCtorEq, Instr.unlock.injEq] at hk
    subst hk
    rfl
  free := by
    intro t k f c m r hk hr
    cases k <;> simp only [prog, reduceCtorEq, Instr.free.injEq] at hk
    subst hk
    cases hr
    rfl

/-- The bus is as the calls so far leave it one after the other. -/
def Mem.Serial (xfer : UInt8 → δ → List UInt8 → ℕ → δ × List UInt8 × Bool) (bus : Bus T δ)
    (m : Mem T δ) : Prop :=
  m.bus = serial xfer bus m.calls

/-- The fields of the struct that the thread `t` has set by the time it is at the point. -/
def Filling (t : T) : Pc → Transaction T → Prop
  | .setCount (.write _ data _), x => x.writeBuf = data
  | .setCount (.read _ _), x => x.readBuf = some t
  | .clearCount (.write _ data data_len), x => x.writeBuf = data ∧ x.writeCount = data_len
  | .clearCount (.read _ data_len), x => x.readBuf = some t ∧ x.readCount = data_len
  | .setAddr (.write _ data data_len), x =>
    x.writeBuf = data ∧ x.writeCount = data_len ∧ x.readCount = 0
  | .setAddr (.read _ data_len), x =>
    x.readBuf = some t ∧ x.readCount = data_len ∧ x.writeCount = 0
  | .transfer c, x => c.Filled t x
  | _, _ => True

theorem monitor (bus : Bus T δ) :
    Monitor (prog xfer) (Mem.Serial xfer bus)
      fun t k m => m.Serial xfer bus ∧ Filling t k m.i2cTransaction where
  lock := by
    intro t k next m hk hm
    cases k <;> simp only [prog, reduceCtorEq, Instr.lock.injEq] at hk
    subst hk
    exact ⟨hm, trivial⟩
  body := by
    rintro t k f m hk ⟨hm, hfill⟩
    cases k <;> simp only [prog, reduceCtorEq, Instr.body.injEq] at hk <;> subst hk
    case setBuf c => cases c <;> exact ⟨hm, rfl⟩
    case setCount c => cases c <;> exact ⟨hm, hfill, rfl⟩
    case clearCount c => cases c <;> exact ⟨hm, hfill.1, hfill.2, rfl⟩
    case setAddr c =>
      cases c with
      | write => exact ⟨hm, .write hfill.1 hfill.2.1 hfill.2.2 rfl⟩
      | read => exact ⟨hm, .read hfill.1 hfill.2.1 hfill.2.2 rfl⟩
    case transfer c =>
      refine ⟨?_, trivial⟩
      show transfer xfer t m.i2cTransaction m.bus = serial xfer bus (m.calls ++ [(t, c)])
      rw [serial, run_concat, transfer_filled xfer hfill, hm]
      rfl
  unlock := by
    intro t k next m hk hm
    exact hm.1
  free := by
    intro t k f c m r hk hr hm
    cases k <;> simp only [prog, reduceCtorEq, Instr.free.injEq] at hk
    subst hk
    cases hr
    exact hm
  frame := by
    intro t k f c m r hk hr u j _ hm
    cases k <;> simp only [prog, reduceCtorEq, Instr.free.injEq] at hk
    subst hk
    cases hr
    exact hm

/-- Whatever the threads do, the bus is as the calls leave it one after the other. -/
theorem serial_reachable {i2cTransaction : Transaction T} {bus : Bus T δ}
    {s : State T Pc (Mem T δ)}
    (h : Reachable (Lock.step (prog xfer)) (start i2cTransaction bus) s) :
    Exclusive (prog xfer) s ∧ s.mem.Serial xfer bus := by
  have hout : ∀ t, ¬ (start i2cTransaction bus).inside (prog xfer) t := fun _ => Bool.false_ne_true
  have hm := monitored_reachable sections (monitor bus) rfl hout
    (rfl : Mem.Serial xfer bus ⟨i2cTransaction, bus, []⟩) h
  refine ⟨hm.exclusive, ?_⟩
  cases hm.exclusive with
  | free hmutex _ => exact hm.resource hmutex
  | taken t _ hin _ => exact (hm.point t hin).1

/-! ### A thread with devices of its own -/

/-- The bytes that a call writes. -/
def Call.bytes : Call → List UInt8
  | .write _ data data_len => data.take data_len
  | .read _ _ => []

/-- How many bytes a call reads. -/
def Call.count : Call → ℕ
  | .write _ _ _ => 0
  | .read _ data_len => data_len

section perform

variable (xfer) (b : Bus T δ) (t : T) (c : Call)

/-- What the device answers to a call. -/
def answer : δ × List UInt8 × Bool := xfer c.addr (b.dev c.addr) c.bytes c.count

theorem perform_dev :
    (perform xfer b (t, c)).dev = Function.update b.dev c.addr (answer xfer b c).1 := by
  cases c <;> rfl

theorem perform_data :
    (perform xfer b (t, c)).data =
      if c.count = 0 then b.data
      else Function.update b.data t (b.data t ++ [(answer xfer b c).2.1]) := by
  cases c <;> rfl

theorem perform_rc :
    (perform xfer b (t, c)).rc =
      Function.update b.rc t (b.rc t ++ [if (answer xfer b c).2.2 then 0 else -1]) := by
  cases c <;> rfl

end perform

/-- Two states of the bus that the thread `t` cannot tell apart, as far as it uses the devices
    `A`. -/
structure Agree (t : T) (A : UInt8 → Prop) (b b' : Bus T δ) : Prop where
  dev : ∀ a, A a → b.dev a = b'.dev a
  data : b.data t = b'.data t
  rc : b.rc t = b'.rc t

variable {t : T} {A : UInt8 → Prop} {b b' : Bus T δ} {c : Call}

theorem agree_own (h : Agree t A b b') (hc : A c.addr) :
    Agree t A (perform xfer b (t, c)) (perform xfer b' (t, c)) := by
  have hans : answer xfer b c = answer xfer b' c := by
    unfold answer
    rw [h.dev _ hc]
  refine ⟨fun a ha => ?_, ?_, ?_⟩
  · rw [perform_dev, perform_dev, hans]
    by_cases hac : a = c.addr
    · subst hac
      rw [Function.update_self, Function.update_self]
    · rw [Function.update_of_ne hac, Function.update_of_ne hac]
      exact h.dev a ha
  · rw [perform_data, perform_data, hans]
    split
    · exact h.data
    · rw [Function.update_self, Function.update_self, h.data]
  · rw [perform_rc, perform_rc, hans, Function.update_self, Function.update_self, h.rc]

theorem agree_other (h : Agree t A b b') {u : T} (hu : u ≠ t) (hc : ¬ A c.addr) :
    Agree t A (perform xfer b (u, c)) b' := by
  refine ⟨fun a ha => ?_, ?_, ?_⟩
  · rw [perform_dev, Function.update_of_ne fun hac : a = c.addr => hc (hac ▸ ha)]
    exact h.dev a ha
  · rw [perform_data]
    split
    · exact h.data
    · rw [Function.update_of_ne hu.symm]
      exact h.data
  · rw [perform_rc, Function.update_of_ne hu.symm]
    exact h.rc

/-- The devices `A` are those of the thread `t`: it uses no other, and nobody else uses them. -/
def Owns (t : T) (A : UInt8 → Prop) (calls : List (T × Call)) : Prop :=
  ∀ uc ∈ calls, uc.1 = t ↔ A uc.2.addr

instance [DecidablePred A] (calls : List (T × Call)) : Decidable (Owns t A calls) :=
  inferInstanceAs (Decidable (∀ uc ∈ calls, uc.1 = t ↔ A uc.2.addr))

/-- **Alone.** What a thread does with devices of its own is what it would do without the
    others. -/
theorem serial_alone (bus : Bus T δ) {calls : List (T × Call)} (h : Owns t A calls) :
    Agree t A (serial xfer bus calls) (serial xfer bus (calls.filter (·.1 = t))) := by
  induction calls using List.reverseRecOn with
  | nil => exact ⟨fun _ _ => rfl, rfl, rfl⟩
  | append_singleton calls uc ih =>
    obtain ⟨u, c⟩ := uc
    have hagree := ih fun vc hvc => h vc (List.mem_append_left _ hvc)
    have huc := h (u, c) (List.mem_append_right _ List.mem_cons_self)
    rw [List.filter_append, serial, run_concat]
    by_cases hu : u = t
    · subst hu
      rw [List.filter_cons_of_pos (by simp), List.filter_nil, serial, run_concat]
      exact agree_own hagree (huc.mp rfl)
    · rw [List.filter_cons_of_neg (by simpa using hu), List.filter_nil, List.append_nil]
      exact agree_other hagree hu (mt huc.mpr hu)

/-- **The shared bus.**  For any devices, any number of threads that call `i2c_write` and
    `i2c_read`, whatever is left in `i2cTransaction`, and any interleaving of their statements: at
    most one thread is inside a section, each transfer is the one that its own caller has asked
    for, and the bus is as the calls leave it one after the other; for a thread that has its
    devices to itself, these devices, what it has read and its return values are as if no other
    thread had used the bus. -/
theorem i2c_alone (i2cTransaction : Transaction T) (bus : Bus T δ) (s : State T Pc (Mem T δ))
    (h : Reachable (Lock.step (prog xfer)) (start i2cTransaction bus) s) :
    Exclusive (prog xfer) s ∧ s.mem.bus = serial xfer bus s.mem.calls ∧
      ∀ t A, Owns t A s.mem.calls →
        Agree t A s.mem.bus (serial xfer bus (s.mem.calls.filter (·.1 = t))) := by
  obtain ⟨hex, hserial⟩ := serial_reachable h
  refine ⟨hex, hserial, fun t A hown => ?_⟩
  rw [hserial]
  exact serial_alone bus hown

/-- A device that keeps what is written to it, and answers with the last byte. -/
def keep (_ : UInt8) (d w : List UInt8) (n : ℕ) : List UInt8 × List UInt8 × Bool :=
  (d ++ w, List.replicate n (d.getLastD 0), true)

/-- Nothing written yet. -/
def blank : Bus Bool (List UInt8) := ⟨fun _ => [], fun _ => [], fun _ => []⟩

/-- An LCD byte that is written while another thread is between the register address it writes
    and the byte it then reads. -/
def twoRun : Option (State Bool Pc (Mem Bool (List UInt8))) :=
  exec (Lock.step (prog keep)) (start ⟨[], 0, none, 0, 0⟩ blank)
    (List.replicate 8 (true, .write 0x1E [9] 1) ++ List.replicate 8 (false, .write 0x48 [65] 1)
      ++ List.replicate 8 (true, .read 0x1E 1))

/-- The reader has its device to itself. -/
theorem i2c_alone_two : ∃ s : State Bool Pc (Mem Bool (List UInt8)),
    Reachable (Lock.step (prog keep)) (start ⟨[], 0, none, 0, 0⟩ blank) s ∧
      s.mem.calls = [(true, .write 0x1E [9] 1), (false, .write 0x48 [65] 1),
        (true, .read 0x1E 1)] ∧
      Owns true (· = 0x1E) s.mem.calls ∧ s.mem.bus.data true = [[9]] ∧
      Agree true (· = 0x1E) s.mem.bus (serial keep blank
        [(true, .write 0x1E [9] 1), (true, .read 0x1E 1)]) := by
  have hrun : twoRun = some (twoRun.get (by decide +kernel)) := (Option.some_get _).symm
  have hreach := Reachable.exec _ .init hrun
  have hcalls : (twoRun.get (by decide +kernel)).mem.calls = [(true, .write 0x1E [9] 1),
      (false, .write 0x48 [65] 1), (true, .read 0x1E 1)] := by decide +kernel
  have hown : Owns true (· = 0x1E) (twoRun.get (by decide +kernel)).mem.calls := by
    rw [hcalls]
    decide
  obtain ⟨-, -, halone⟩ := i2c_alone _ _ _ hreach
  have hagree := halone true _ hown
  rw [hcalls] at hagree
  exact ⟨_, hreach, hcalls, hown, by decide +kernel, hagree⟩

end Wheelson.I2c
