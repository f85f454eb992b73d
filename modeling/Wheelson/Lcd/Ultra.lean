import Wheelson.Lcd.Edges

namespace Wheelson.Lcd

/-!
# The main loop of the second MCU

It measures three distances and drives U_ALERT, and `USCIB0_ISR` writes to the display between
any two of its statements.  Both write port 1.

* `Sys`, `step` — the loop with each call of `gpio.c` and each sample of an echo pin as a step,
  and the interrupt, which runs to its end.
* `lead`, `width`, `Near` — an echo by its samples: how many are low at first, how many high
  after that, and which echoes are nearer than `too_close_cm`.
* `Measured`, `measured_step` — the invariant: what a measurement under way has seen, and that
  the finished ones are right.
* `alerts_step` — U_ALERT is that of the last round, whatever was written to the display.
* `edges_trace` — the display gets what the interrupts wrote, whatever the loop did.
* `alert_and_display` — both, after every run.
* `rounds_ge` — and a round ends at least once in 136 steps of the loop.
-/

open Machine Motor AnyLcd

def ULTRA_TIMEOUT : ℕ := 10

/-- `ultra_t`. -/
inductive Ultra
  | ULTRA_0 | ULTRA_1 | ULTRA_2
deriving DecidableEq, Repr

/-- `ULTRA_TRIG0` to `ULTRA_TRIG2`. -/
def Ultra.trig : Ultra → BitVec 16
  | .ULTRA_0 => 0x01
  | .ULTRA_1 => 0x04
  | .ULTRA_2 => 0x10

def UALERT_PIN : BitVec 16 := 0x10

def tooCloseCm : ℤ := 30

/-- Where the loop is. -/
inductive Pc
  /-- At the two calls of `trig_ultra`. -/
  | trigHigh (dev : Ultra)
  | trigLow (dev : Ultra)
  /-- At `check_echo_ultra` in the first loop of `check_ultra`. -/
  | waitHigh (dev : Ultra) (count : ℕ)
  /-- At `check_echo_ultra` in the second. -/
  | waitLow (dev : Ultra) (count : ℕ)
  /-- At the tests of the distances. -/
  | tests
deriving DecidableEq, Repr

/-- The registers, the loop and its distances.  `samples` are those of the last measurement of
    each sensor, and `rounds` those that the tests so far were made on. -/
structure Sys where
  regs : Registers
  pc : Pc
  dist : Ultra → ℤ
  samples : Ultra → List Bool
  rounds : List (Ultra → List Bool)

inductive Event
  /-- The loop goes on; `echo` is the echo pin, if it is read. -/
  | main (echo : Bool)
  /-- `USCIB0_ISR` with a byte. -/
  | rx (data : UInt8)
deriving DecidableEq, Repr

/-- The measurement after that of `dev`. -/
def Ultra.next : Ultra → Pc
  | .ULTRA_0 => .trigHigh .ULTRA_1
  | .ULTRA_1 => .trigHigh .ULTRA_2
  | .ULTRA_2 => .tests

/-- `check_ultra` returns; the distances are `int8_t`. -/
def Sys.finish (s : Sys) (dev : Ultra) (cm : ℤ) : Sys :=
  { s with dist := Function.update s.dist dev cm, pc := dev.next }

/-- A sample is read. -/
def Sys.sample (s : Sys) (dev : Ultra) (echo : Bool) : Sys :=
  { s with samples := Function.update s.samples dev (s.samples dev ++ [echo]) }

/-- The tests of the distances take the branches that call `u_alert_high`. -/
def Sys.tooClose (s : Sys) : Bool :=
  s.dist .ULTRA_0 < tooCloseCm || s.dist .ULTRA_1 < tooCloseCm || s.dist .ULTRA_2 < tooCloseCm

/-- The calls of `gpio.c` in a step. -/
def Sys.calls (s : Sys) : Event → List GpioCall
  | .rx data => i2cDataHandler data
  | .main _ =>
    match s.pc with
    | .trigHigh dev => [.setOutputHigh .P3 dev.trig]
    | .trigLow dev => [.setOutputLow .P3 dev.trig]
    | .waitHigh _ _ | .waitLow _ _ => []
    | .tests =>
      if s.tooClose then [.setOutputHigh .P1 UALERT_PIN] else [.setOutputLow .P1 UALERT_PIN]

/-- What a step of the loop does besides its calls. -/
def Sys.advance (s : Sys) (echo : Bool) : Sys :=
  match s.pc with
  | .trigHigh dev =>
    { s with pc := .trigLow dev, samples := Function.update s.samples dev [] }
  | .trigLow dev => { s with pc := .waitHigh dev 0 }
  | .waitHigh dev count =>
    let s := s.sample dev echo
    -- the time is out even if the sample is high
    if count > 3 * ULTRA_TIMEOUT then s.finish dev 100
    else if echo then { s with pc := .waitLow dev 0 }
    else { s with pc := .waitHigh dev (count + 1) }
  | .waitLow dev count =>
    let s := s.sample dev echo
    if count > ULTRA_TIMEOUT then s.finish dev 100
    else if echo then { s with pc := .waitLow dev (count + 1) }
    -- `CYCLES_TO_100US * US_TO_CM` is 3.4
    else s.finish dev (34 * (count + 1) / 10)
  | .tests => { s with pc := .trigHigh .ULTRA_0, rounds := s.rounds ++ [s.samples] }

/-- One step of the MCU. -/
def step (s : Sys) (e : Event) : Sys :=
  let regs := run GpioCall.exec s.regs (s.calls e)
  match e with
  | .rx _ => { s with regs := regs }
  | .main echo => { s.advance echo with regs := regs }

/-- At the loop for the first time. -/
def start (regs : Registers) : Sys where
  regs := regs
  pc := .trigHigh .ULTRA_0
  dist := fun _ => 0
  samples := fun _ => []
  rounds := []

/-! ### Echoes -/

/-- The samples before the echo. -/
def lead (w : List Bool) : ℕ := (w.takeWhile (!·)).length

/-- The samples of the echo. -/
def width (w : List Bool) : ℕ := ((w.dropWhile (!·)).takeWhile id).length

/-- There is an echo in time, and it is over after at most 8 samples. -/
def Near (w : List Bool) : Prop := lead w ≤ 30 ∧ 1 ≤ width w ∧ width w ≤ 8

instance (w : List Bool) : Decidable (Near w) := inferInstanceAs (Decidable (_ ∧ _))

section echo

variable (i h : ℕ) (w : List Bool)

theorem lead_low : lead (List.replicate i false ++ w) = i + lead w := by
  unfold lead
  rw [List.takeWhile_append_of_pos (by simp [List.mem_replicate]), List.length_append,
    List.length_replicate]

theorem width_low : width (List.replicate i false ++ w) = width w := by
  unfold width
  rw [List.dropWhile_append_of_pos (by simp [List.mem_replicate])]

theorem lead_high : lead (List.replicate (h + 1) true ++ w) = 0 := rfl

theorem width_high :
    width (List.replicate (h + 1) true ++ w) = h + 1 + (w.takeWhile id).length := by
  have hdrop : (List.replicate (h + 1) true ++ w).dropWhile (!·)
      = List.replicate (h + 1) true ++ w := by
    rw [List.replicate_succ, List.cons_append, List.dropWhile_cons_of_neg (by decide)]
  rw [width, hdrop, List.takeWhile_append_of_pos (by simp [List.mem_replicate]),
    List.length_append, List.length_replicate]

end echo

/-- An echo that is over is near when it took at most 8 samples. -/
theorem near_over {i h : ℕ} (hi : i ≤ 30) :
    Near (List.replicate i false ++ List.replicate (h + 1) true ++ [false]) ↔ h + 1 ≤ 8 := by
  rw [Near, List.append_assoc, lead_low, width_low, lead_high, width_high]
  simp [hi]

/-- An echo that takes longer is not, whatever the last sample. -/
theorem not_near_long {i h : ℕ} {echo : Bool} (hh : 8 ≤ h) :
    ¬ Near (List.replicate i false ++ List.replicate (h + 1) true ++ [echo]) := by
  rw [Near, List.append_assoc, width_low, width_high]
  omega

/-- Nor is one that has not begun in time. -/
theorem not_near_late {i : ℕ} {echo : Bool} (hi : 30 < i) :
    ¬ Near (List.replicate i false ++ [echo]) := by
  rw [Near, lead_low]
  omega

/-! ### One round -/

/-- The sensors measured before this one. -/
def Ultra.before : Ultra → List Ultra
  | .ULTRA_0 => []
  | .ULTRA_1 => [.ULTRA_0]
  | .ULTRA_2 => [.ULTRA_0, .ULTRA_1]

/-- The sensors that have been measured in this round. -/
def Pc.done : Pc → List Ultra
  | .trigHigh dev | .trigLow dev | .waitHigh dev _ | .waitLow dev _ => dev.before
  | .tests => [.ULTRA_0, .ULTRA_1, .ULTRA_2]

theorem Ultra.done_next (dev : Ultra) : dev.next.done = dev.before ++ [dev] := by
  cases dev <;> rfl

theorem Ultra.not_mem_before (dev : Ultra) : dev ∉ dev.before := by
  cases dev <;> decide

/-- What the measurement under way has seen. -/
def Seen : Pc → (Ultra → List Bool) → Prop
  | .trigLow dev, samples => samples dev = []
  | .waitHigh dev count, samples => count ≤ 31 ∧ samples dev = List.replicate count false
  | .waitLow dev count, samples =>
    count ≤ 11 ∧ ∃ i ≤ 30,
      samples dev = List.replicate i false ++ List.replicate (count + 1) true
  | .trigHigh _, _ | .tests, _ => True

/-- The measurements of this round: the one under way, and those that are finished. -/
structure Sys.Measured (s : Sys) : Prop where
  seen : Seen s.pc s.samples
  done : ∀ dev ∈ s.pc.done, s.dist dev < tooCloseCm ↔ Near (s.samples dev)

section measured

variable {s : Sys} {dev : Ultra} {echo : Bool}

theorem measured_finish {cm : ℤ}
    (hdone : ∀ d ∈ dev.before, s.dist d < tooCloseCm ↔ Near (s.samples d))
    (hcm : cm < tooCloseCm ↔ Near (s.samples dev ++ [echo])) :
    ((s.sample dev echo).finish dev cm).Measured := by
  refine ⟨by cases dev <;> trivial, fun d hd => ?_⟩
  have hd' : d ∈ dev.before ++ [dev] := dev.done_next ▸ hd
  show Function.update s.dist dev cm d < tooCloseCm ↔
    Near (Function.update s.samples dev (s.samples dev ++ [echo]) d)
  rcases List.mem_append.mp hd' with hd' | hd'
  · have hne : d ≠ dev := fun h => dev.not_mem_before (h ▸ hd')
    rw [Function.update_of_ne hne, Function.update_of_ne hne]
    exact hdone d hd'
  · obtain rfl := List.mem_singleton.mp hd'
    rw [Function.update_self, Function.update_self]
    exact hcm

/-- The measurements before `dev` are not touched by its samples. -/
theorem done_update {w : List Bool}
    (hdone : ∀ d ∈ dev.before, s.dist d < tooCloseCm ↔ Near (s.samples d)) :
    ∀ d ∈ dev.before, s.dist d < tooCloseCm ↔ Near (Function.update s.samples dev w d) := by
  intro d hd
  rw [Function.update_of_ne fun h : d = dev => dev.not_mem_before (h ▸ hd)]
  exact hdone d hd

theorem sample_self : (s.sample dev echo).samples dev = s.samples dev ++ [echo] :=
  Function.update_self _ _ _

theorem measured_advance (hs : s.Measured) (echo : Bool) : (s.advance echo).Measured := by
  obtain ⟨hseen, hdone⟩ := hs
  unfold Sys.advance
  split
  · rename_i dev hpc
    rw [hpc] at hdone
    exact ⟨Function.update_self _ _ _, done_update hdone⟩
  · rename_i dev hpc
    rw [hpc] at hseen hdone
    exact ⟨⟨Nat.zero_le _, hseen⟩, hdone⟩
  · rename_i dev count hpc
    rw [hpc] at hseen hdone
    obtain ⟨hcount, hw⟩ := hseen
    dsimp only
    split
    · rename_i hlate
      refine measured_finish hdone ⟨fun h => absurd h (by decide), fun hnear => ?_⟩
      rw [hw] at hnear
      exact absurd hnear (not_near_late hlate)
    · rename_i hlate
      have hcount' : count ≤ 30 := not_lt.mp hlate
      split
      · rename_i hecho
        refine ⟨⟨Nat.zero_le _, count, hcount', ?_⟩, done_update hdone⟩
        show (s.sample dev echo).samples dev = _
        rw [sample_self, hw, hecho]
        rfl
      · rename_i hecho
        refine ⟨⟨Nat.succ_le_succ hcount', ?_⟩, done_update hdone⟩
        show (s.sample dev echo).samples dev = _
        rw [sample_self, hw, Bool.eq_false_of_not_eq_true hecho, List.replicate_succ']
  · rename_i dev count hpc
    rw [hpc] at hseen hdone
    obtain ⟨hcount, i, hi, hw⟩ := hseen
    dsimp only
    split
    · rename_i hlong
      refine measured_finish hdone ⟨fun h => absurd h (by decide), fun hnear => ?_⟩
      rw [hw] at hnear
      have hlong' : 10 < count := hlong
      exact absurd hnear (not_near_long (by omega))
    · rename_i hlong
      have hcount' : count ≤ 10 := not_lt.mp hlong
      split
      · rename_i hecho
        refine ⟨⟨Nat.succ_le_succ hcount', i, hi, ?_⟩, done_update hdone⟩
        show (s.sample dev echo).samples dev = _
        rw [sample_self, hw, hecho, List.append_assoc, ← List.replicate_succ']
      · rename_i hecho
        refine measured_finish hdone ?_
        rw [hw, Bool.eq_false_of_not_eq_true hecho, near_over hi, tooCloseCm]
        omega
  · exact ⟨trivial, fun d hd => absurd hd List.not_mem_nil⟩

end measured

/-- **Step rule.** -/
theorem measured_step {s : Sys} (hs : s.Measured) (e : Event) : (step s e).Measured := by
  cases e with
  | rx data => exact ⟨hs.seen, hs.done⟩
  | main echo =>
    obtain ⟨hseen, hdone⟩ := measured_advance hs echo
    exact ⟨hseen, hdone⟩

theorem measured_start (regs : Registers) : (start regs).Measured :=
  ⟨trivial, fun _ hd => absurd hd List.not_mem_nil⟩

/-- The tests find what the samples say. -/
theorem tooClose_iff {s : Sys} (hs : s.Measured) (hpc : s.pc = .tests) :
    s.tooClose = true ↔ ∃ dev, Near (s.samples dev) := by
  have hdone : ∀ dev, s.dist dev < tooCloseCm ↔ Near (s.samples dev) := by
    intro dev
    refine hs.done dev ?_
    rw [hpc]
    cases dev <;> decide
  simp only [Sys.tooClose, Bool.or_eq_true, decide_eq_true_eq, hdone]
  constructor
  · rintro ((h | h) | h)
    · exact ⟨_, h⟩
    · exact ⟨_, h⟩
    · exact ⟨_, h⟩
  · rintro ⟨dev, h⟩
    cases dev with
    | ULTRA_0 => exact Or.inl (Or.inl h)
    | ULTRA_1 => exact Or.inl (Or.inr h)
    | ULTRA_2 => exact Or.inr h

/-! ### The pins -/

variable {r : Registers}

@[simp] theorem pins_setOutputLow_P3 (m : BitVec 16) :
    pins (GpioCall.exec r (.setOutputLow .P3 m)) = pins r := by
  simp [pins, GpioCall.exec, gpioSetOutputLowOnPin, Registers.modifyPair, gpioPortToBase]

@[simp] theorem pins_setOutputHigh_P3 (m : BitVec 16) :
    pins (GpioCall.exec r (.setOutputHigh .P3 m)) = pins r := by
  simp [pins, GpioCall.exec, gpioSetOutputHighOnPin, Registers.modifyPair, gpioPortToBase]

/-- `u_alert_high` and `u_alert_low` set P1.4 and no other pin. -/
theorem pins_uAlert :
    pins (GpioCall.exec r (.setOutputHigh .P1 UALERT_PIN)) = { pins r with u_alert := true } ∧
      pins (GpioCall.exec r (.setOutputLow .P1 UALERT_PIN)) = { pins r with u_alert := false } := by
  constructor
  · simp [UALERT_PIN]
  · simp [UALERT_PIN]

/-- The pins after a step of the loop. -/
theorem pins_main (s : Sys) (echo : Bool) :
    pins (step s (.main echo)).regs =
      if s.pc = .tests then { pins s.regs with u_alert := s.tooClose } else pins s.regs := by
  show pins (run GpioCall.exec s.regs (s.calls (.main echo))) = _
  unfold Sys.calls
  dsimp only
  split
  · rename_i hpc
    rw [if_neg (by simp [hpc]), run_cons, run_nil, pins_setOutputHigh_P3]
  · rename_i hpc
    rw [if_neg (by simp [hpc]), run_cons, run_nil, pins_setOutputLow_P3]
  · rename_i hpc
    rw [if_neg (by simp [hpc]), run_nil]
  · rename_i hpc
    rw [if_neg (by simp [hpc]), run_nil]
  · rename_i hpc
    rw [if_pos hpc]
    split
    · rename_i hclose
      rw [run_cons, run_nil, pins_uAlert.1, hclose]
    · rename_i hclose
      rw [run_cons, run_nil, pins_uAlert.2, Bool.eq_false_of_not_eq_true hclose]

/-- The interrupt does not touch U_ALERT. -/
theorem alert_rx (s : Sys) (data : UInt8) :
    (pins (step s (.rx data)).regs).u_alert = (pins s.regs).u_alert := by
  refine run_invariant_of (I := fun r' => (pins r').u_alert = (pins s.regs).u_alert)
    (A := fun call => call ∈ i2cDataHandler data) ?_ _ _ (fun _ hcall => hcall) rfl
  intro r' call hcall hr'
  exact (alert_of_handler hcall).trans hr'

/-- What the display gets of a byte. -/
def byteEdges (data : UInt8) : List Edge :=
  if data = RESET_LCD then resetEdges
  else if data = 0 then []
  else latched true data.toBitVec

/-- What the display gets of an event. -/
def Event.shown : Event → List Edge
  | .main _ => []
  | .rx data => byteEdges data

/-- The calls of `gpio.c` in a run. -/
def trace : Sys → List Event → List GpioCall
  | _, [] => []
  | s, e :: es => s.calls e ++ trace (step s e) es

theorem regs_step (s : Sys) (e : Event) :
    (step s e).regs = run GpioCall.exec s.regs (s.calls e) := by
  cases e <;> rfl

/-- Calls that leave E alone show nothing. -/
theorem edges_singleton {call : GpioCall} (h : (pins (call.exec r)).e = (pins r).e) :
    edges r [call] = [] := by
  simp [edges, emitted, fallingEdge, h]

theorem edges_calls (s : Sys) (e : Event) : edges s.regs (s.calls e) = e.shown := by
  cases e with
  | rx data => exact edges_i2cDataHandler data
  | main echo =>
    show edges s.regs (s.calls (.main echo)) = []
    unfold Sys.calls
    dsimp only
    split
    · exact edges_singleton (congrArg Pins.e (pins_setOutputHigh_P3 _))
    · exact edges_singleton (congrArg Pins.e (pins_setOutputLow_P3 _))
    · rfl
    · rfl
    · split
      · exact edges_singleton (by rw [pins_uAlert.1])
      · exact edges_singleton (by rw [pins_uAlert.2])

/-- The display gets what the interrupts write. -/
theorem edges_trace (s : Sys) (es : List Event) :
    edges s.regs (trace s es) = es.flatMap Event.shown := by
  induction es generalizing s with
  | nil => rfl
  | cons e es ih =>
    rw [trace, edges_append, edges_calls, ← regs_step, ih, List.flatMap_cons]

/-! ### U_ALERT -/

/-- U_ALERT is high if a sensor was near in the last round; before the first it is as it was. -/
structure Sys.Alerts (high : Bool) (s : Sys) : Prop where
  measured : s.Measured
  before : s.rounds = [] → (pins s.regs).u_alert = high
  after : ∀ w, s.rounds.getLast? = some w → ((pins s.regs).u_alert = true ↔ ∃ dev, Near (w dev))

theorem rounds_advance (s : Sys) (echo : Bool) :
    (s.advance echo).rounds =
      if s.pc = .tests then s.rounds ++ [s.samples] else s.rounds := by
  unfold Sys.advance
  split
  · rename_i hpc
    exact (if_neg (by simp [hpc])).symm
  · rename_i hpc
    exact (if_neg (by simp [hpc])).symm
  · rename_i hpc
    rw [if_neg (show ¬ s.pc = .tests by simp [hpc])]
    dsimp only
    split
    · rfl
    · split <;> rfl
  · rename_i hpc
    rw [if_neg (show ¬ s.pc = .tests by simp [hpc])]
    dsimp only
    split
    · rfl
    · split <;> rfl
  · rename_i hpc
    rw [if_pos hpc]

/-- **Step rule.** -/
theorem alerts_step {high : Bool} {s : Sys} (hs : s.Alerts high) (e : Event) :
    (step s e).Alerts high := by
  refine ⟨measured_step hs.measured e, ?_, ?_⟩
  · intro hrounds
    cases e with
    | rx data => exact (alert_rx s data).trans (hs.before hrounds)
    | main echo =>
      have hadv : (s.advance echo).rounds = [] := hrounds
      rw [rounds_advance] at hadv
      rw [pins_main]
      by_cases hpc : s.pc = .tests
      · rw [if_pos hpc] at hadv
        exact absurd hadv (List.append_ne_nil_of_right_ne_nil _ (List.cons_ne_nil _ _))
      · rw [if_neg hpc] at hadv ⊢
        exact hs.before hadv
  · intro w hw
    cases e with
    | rx data =>
      rw [alert_rx]
      exact hs.after w hw
    | main echo =>
      have hadv : (s.advance echo).rounds.getLast? = some w := hw
      rw [rounds_advance] at hadv
      rw [pins_main]
      by_cases hpc : s.pc = .tests
      · rw [if_pos hpc] at hadv ⊢
        rw [List.getLast?_concat, Option.some.injEq] at hadv
        rw [← hadv]
        exact tooClose_iff hs.measured hpc
      · rw [if_neg hpc] at hadv ⊢
        exact hs.after w hadv

/-- **U_ALERT and the display.**  For every state of the pins at the start of the loop, every
    sequence of echo samples and every placement of the interrupts of the display: after each
    round U_ALERT is high exactly if one of the three echoes of that round had begun within 31
    samples and was over after at most 8, and it stays so until the next round; and the falling
    edges of E show the bytes of the interrupts, each once and in order, and nothing else. -/
theorem alert_and_display (regs : Registers) (es : List Event) :
    let s := run step (start regs) es
    (s.rounds = [] → (pins s.regs).u_alert = (pins regs).u_alert) ∧
      (∀ w, s.rounds.getLast? = some w →
        ((pins s.regs).u_alert = true ↔ ∃ dev, Near (w dev))) ∧
      edges regs (trace (start regs) es) = es.flatMap Event.shown := by
  have h₀ : (start regs).Alerts (pins regs).u_alert :=
    ⟨measured_start regs, fun _ => rfl, fun _ hw => absurd hw (by simp [start])⟩
  have hs : (run step (start regs) es).Alerts (pins regs).u_alert :=
    run_invariant (I := Sys.Alerts _) (fun _ e hs => alerts_step hs e) es _ h₀
  exact ⟨hs.before, hs.after, edges_trace (start regs) es⟩

/-! ### How long a round takes -/

/-- The measurements left, the one of this sensor included. -/
def Ultra.left : Ultra → ℕ
  | .ULTRA_0 => 3
  | .ULTRA_1 => 2
  | .ULTRA_2 => 1

/-- The steps of the loop up to the tests, at most: 45 for a measurement, with 31 samples that
    are low at first, an echo of 12 samples that is given up and the two calls. -/
def Pc.togo : Pc → ℕ
  | .trigHigh dev => 45 * dev.left
  | .trigLow dev => 45 * dev.left - 1
  | .waitHigh dev count => 45 * dev.left - 2 - count
  | .waitLow dev count => 45 * dev.left - 33 - count
  | .tests => 0

theorem Ultra.togo_next (dev : Ultra) : dev.next.togo = 45 * dev.left - 45 := by
  cases dev <;> rfl

theorem Ultra.left_pos (dev : Ultra) : 1 ≤ dev.left := by
  cases dev <;> decide

/-- Each step of the loop brings the tests nearer, whatever the echo pin says. -/
theorem togo_advance {s : Sys} (hs : s.Measured) (hpc : s.pc ≠ .tests) (echo : Bool) :
    (s.advance echo).pc.togo < s.pc.togo := by
  have hseen := hs.seen
  unfold Sys.advance
  split
  · rename_i dev h
    have hleft := dev.left_pos
    simp only [h, Pc.togo]
    omega
  · rename_i dev h
    have hleft := dev.left_pos
    simp only [h, Pc.togo]
    omega
  · rename_i dev count h
    rw [h] at hseen
    obtain ⟨hcount, -⟩ := hseen
    have hleft := dev.left_pos
    dsimp only
    split
    · show dev.next.togo < s.pc.togo
      rw [dev.togo_next, h, Pc.togo]
      omega
    · rename_i hlate
      have hcount' : count ≤ 30 := not_lt.mp hlate
      split
      · simp only [h, Pc.togo]
        omega
      · simp only [h, Pc.togo]
        omega
  · rename_i dev count h
    rw [h] at hseen
    obtain ⟨hcount, -⟩ := hseen
    have hleft := dev.left_pos
    dsimp only
    split
    · show dev.next.togo < s.pc.togo
      rw [dev.togo_next, h, Pc.togo]
      omega
    · rename_i hlong
      have hcount' : count ≤ 10 := not_lt.mp hlong
      split
      · simp only [h, Pc.togo]
        omega
      · show dev.next.togo < s.pc.togo
        rw [dev.togo_next, h, Pc.togo]
        omega
  · rename_i h
    exact absurd h hpc

/-- A step of the loop. -/
def Event.isMain : Event → Bool
  | .main _ => true
  | .rx _ => false

/-- A step of the loop is paid for by the steps to go, and a round pays for the next. -/
theorem togo_step {s : Sys} (hs : s.Measured) (e : Event) :
    (if e.isMain then 1 else 0) + (step s e).pc.togo + 136 * s.rounds.length
      ≤ 136 * (step s e).rounds.length + s.pc.togo := by
  cases e with
  | rx data =>
    show 0 + s.pc.togo + 136 * s.rounds.length ≤ 136 * s.rounds.length + s.pc.togo
    omega
  | main echo =>
    show 1 + (s.advance echo).pc.togo + 136 * s.rounds.length
      ≤ 136 * (s.advance echo).rounds.length + s.pc.togo
    rw [rounds_advance]
    by_cases hpc : s.pc = .tests
    · have hnext : (s.advance echo).pc = .trigHigh .ULTRA_0 := by
        rw [Sys.advance, hpc]
      rw [if_pos hpc, List.length_append, hnext]
      show 1 + 135 + 136 * s.rounds.length ≤ 136 * (s.rounds.length + 1) + s.pc.togo
      omega
    · have hlt := togo_advance hs hpc echo
      rw [if_neg hpc]
      omega

/-- **U_ALERT is never stale for long.**  Whatever the echo pins do, a pin that never answers or
    is stuck included, and wherever the interrupts fall: the loop makes its tests at least once in
    every 136 of its steps. -/
theorem rounds_ge (regs : Registers) (es fs : List Event) :
    let s := run step (start regs) es
    fs.countP Event.isMain ≤ 136 * ((run step s fs).rounds.length - s.rounds.length) + 135 := by
  intro s
  have hs : s.Measured :=
    run_invariant (I := Sys.Measured) (fun _ e hs => measured_step hs e) es _
      (measured_start regs)
  have htogo : s.pc.togo ≤ 135 := by
    rcases h : s.pc with dev | dev | ⟨dev, count⟩ | ⟨dev, count⟩ | _ <;> (try cases dev) <;>
      simp only [Pc.togo, Ultra.left] <;> omega
  have hsum : ∀ (fs : List Event) (s : Sys), s.Measured →
      fs.countP Event.isMain + (run step s fs).pc.togo + 136 * s.rounds.length
        ≤ 136 * (run step s fs).rounds.length + s.pc.togo := by
    intro fs
    induction fs with
    | nil =>
      intro s _
      rw [List.countP_nil, run_nil]
      omega
    | cons e fs ih =>
      intro s hs
      have hstep := togo_step hs e
      have hrest := ih (step s e) (measured_step hs e)
      rw [List.countP_cons, run_cons]
      omega
  have hle := hsum fs s hs
  omega

end Wheelson.Lcd
