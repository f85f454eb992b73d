import Mathlib.Algebra.Order.Ring.Rat
import Mathlib.Data.Vector.Basic
import Mathlib.Tactic.NormNum
import Wheelson.Lib.Machine

namespace Wheelson.Sensor

/-!
# `sensorThread` and the magnetometer

The thread polls the LSM303 and adds a fixed offset to `mag_x` before it computes the heading.
The arithmetic is exact and `atan2` is a parameter.

* `Lsm303` — the driver; `orientationRound` is one round of the loop of `LSM303_getOrientation`,
  which returns without writing its outputs when the sensor is not ready.
* `sensorStep` — the thread from one poll to the next.
* `step_x`, `after_passed` — what an iteration passes to `atan2`.
* `offsetOnce_iff` — the offset is applied once exactly when every poll after the first is
  ready.
-/

open Machine

/-! ### The driver -/

/-- `lsm303MagGain`. -/
inductive MagGain
  | g1_3 | g1_9 | g2_5 | g4_0 | g4_7 | g5_6 | g8_1
deriving DecidableEq, Repr

/-- The next gain when the sensor saturates. -/
def MagGain.next : MagGain → Option MagGain
  | .g5_6 => some .g8_1
  | .g4_7 => some .g5_6
  | .g4_0 => some .g4_7
  | .g2_5 => some .g4_0
  | .g1_9 => some .g2_5
  | .g1_3 => some .g1_9
  | .g8_1 => none

/-- The fields of `lsm303_t` for the magnetometer. -/
structure Lsm303 where
  magGain : MagGain
  autoRange : Bool
  lsbXY : ℚ
  lsbZ : ℚ
  magData : ℚ × ℚ × ℚ

/-- What one poll reads: the status register, and the output registers from
    `LSM303_REGISTER_MAG_OUT_X_H_M` on. -/
structure Poll where
  reg_mg : UInt8
  magDataRaw : List.Vector UInt8 6

def Poll.Ready (p : Poll) : Prop := p.reg_mg &&& 0x1 ≠ 0

instance (p : Poll) : Decidable p.Ready := inferInstanceAs (Decidable (_ ≠ _))

/-- `(int16_t)(lo | ((int16_t)hi << 8))`. -/
def int16 (hi lo : UInt8) : ℤ := (BitVec.ofNat 16 (lo.toNat ||| hi.toNat <<< 8)).toInt

/-- The three axes of a raw sample. -/
def Poll.magData (p : Poll) : ℚ × ℚ × ℚ :=
  (int16 (p.magDataRaw.get 0) (p.magDataRaw.get 1),
    int16 (p.magDataRaw.get 2) (p.magDataRaw.get 3),
    int16 (p.magDataRaw.get 4) (p.magDataRaw.get 5))

/-- `SENSORS_GAUSS_TO_MICROTESLA`. -/
def SENSORS_GAUSS_TO_MICROTESLA : ℚ := 100

namespace Lsm303

/-- `LSM303_setMagGain`. -/
def setMagGain (sensor : Lsm303) (gain : MagGain) : Lsm303 :=
  let sensor := { sensor with magGain := gain }
  match gain with
  | .g1_3 => { sensor with lsbXY := 1100, lsbZ := 980 }
  | .g1_9 => { sensor with lsbXY := 855, lsbZ := 760 }
  | .g2_5 => { sensor with lsbXY := 670, lsbZ := 600 }
  | .g4_0 => { sensor with lsbXY := 450, lsbZ := 400 }
  | .g4_7 => { sensor with lsbXY := 400, lsbZ := 355 }
  | .g5_6 => { sensor with lsbXY := 330, lsbZ := 295 }
  | .g8_1 => { sensor with lsbXY := 230, lsbZ := 205 }

/-- `LSM303_struct_init` on zeroed memory. -/
def structInit : Lsm303 where
  magGain := .g1_3
  autoRange := false
  lsbXY := 1100
  lsbZ := 980
  magData := (0, 0, 0)

/-- `LSM303_sensor_init`. -/
def sensorInit (sensor : Lsm303) : Lsm303 := sensor.setMagGain .g1_3

/-- An axis is at the end of its range. -/
def Saturated (sensor : Lsm303) : Prop :=
  (sensor.magData.1 ≥ 2040 ∨ sensor.magData.1 ≤ -2040) ∨
    (sensor.magData.2.1 ≥ 2040 ∨ sensor.magData.2.1 ≤ -2040) ∨
      (sensor.magData.2.2 ≥ 2040 ∨ sensor.magData.2.2 ≤ -2040)

instance (sensor : Lsm303) : Decidable sensor.Saturated := inferInstanceAs (Decidable (_ ∨ _))

/-- The outputs `*x`, `*y`, `*z`. -/
def outputs (sensor : Lsm303) : ℚ × ℚ × ℚ :=
  (sensor.magData.1 / sensor.lsbXY * SENSORS_GAUSS_TO_MICROTESLA,
    sensor.magData.2.1 / sensor.lsbXY * SENSORS_GAUSS_TO_MICROTESLA,
    sensor.magData.2.2 / sensor.lsbZ * SENSORS_GAUSS_TO_MICROTESLA)

end Lsm303

/-- How a round of `LSM303_getOrientation` ends. -/
inductive Round
  /-- The function returns, its outputs not written. -/
  | notReady
  /-- The loop goes round again, with another gain. -/
  | again
  /-- The function returns its outputs. -/
  | valid
deriving DecidableEq, Repr

/-- One round of the loop of `LSM303_getOrientation`. -/
def orientationRound (sensor : Lsm303) (p : Poll) : Lsm303 × Round :=
  if p.Ready then
    -- `LSM303_readMagnetometerData`
    let sensor := { sensor with magData := p.magData }
    if sensor.autoRange then
      if sensor.Saturated then
        match sensor.magGain.next with
        | some gain => (sensor.setMagGain gain, .again)
        | none => (sensor, .valid)
      else (sensor, .valid)
    else (sensor, .valid)
  else (sensor, .notReady)

/-! ### The thread -/

def PI : ℚ := 3.14159

/-- `sensorThread` at a poll.  `heading` is `heading_g.heading`, `sends` lists the headings that
    `send_heading` reports and `passed` the `x` values that `atan2` got. -/
structure SensorThread where
  mag_sensor : Lsm303
  mag_x : ℚ
  mag_y : ℚ
  mag_z : ℚ
  heading : ℚ
  count : ℕ
  sends : List ℚ
  passed : List ℚ

/-- The thread at its first poll. -/
def start : SensorThread where
  mag_sensor := Lsm303.structInit.sensorInit
  mag_x := 0
  mag_y := 0
  mag_z := 0
  heading := 0
  count := 0
  sends := []
  passed := []

variable (atan2 : ℚ → ℚ → ℚ)

/-- The heading, in degrees from 0. -/
def headingOf (mag_y mag_x : ℚ) : ℚ :=
  let heading := atan2 mag_y mag_x * 180 / PI
  if heading < 0 then heading + 360 else heading

/-- The iteration after `LSM303_getOrientation` has returned. -/
def finish (s : SensorThread) : SensorThread :=
  let s := { s with mag_x := s.mag_x + 25 }
  let heading := headingOf atan2 s.mag_y s.mag_x
  let s := { s with heading := heading, passed := s.passed ++ [s.mag_x] }
  if s.count < 40 then { s with count := s.count + 1 }
  else { s with count := 0, sends := s.sends ++ [s.heading] }

/-- The thread from one poll to the next. -/
def sensorStep (s : SensorThread) (p : Poll) : SensorThread :=
  let (sensor, round) := orientationRound s.mag_sensor p
  let s := { s with mag_sensor := sensor }
  match round with
  | .notReady => finish atan2 s
  | .again => s
  | .valid =>
    let (x, y, z) := sensor.outputs
    finish atan2 { s with mag_x := x, mag_y := y, mag_z := z }

/-- The thread after these polls. -/
def after (polls : List Poll) : SensorThread := run (sensorStep atan2) start polls

/-! ### The offset -/

/-- The `x` of a ready sample, at the gain that `LSM303_sensor_init` sets. -/
def Poll.x (p : Poll) : ℚ := p.magData.1 / 1100 * SENSORS_GAUSS_TO_MICROTESLA

/-- The `x` of the most recent ready sample. -/
def lastX (polls : List Poll) : ℚ := polls.foldl (fun x p => if p.Ready then p.x else x) 0

/-- The poll `p` after `polls` makes one iteration, which passes the last sample and the offset;
    if it is not ready, the heading of the iteration before stays. -/
def AppliedOnce (polls : List Poll) (p : Poll) : Prop :=
  (after atan2 (polls ++ [p])).passed
      = (after atan2 polls).passed ++ [lastX (polls ++ [p]) + 25] ∧
    (polls ≠ [] → ¬ p.Ready →
      (after atan2 (polls ++ [p])).heading = (after atan2 polls).heading)

/-- Every iteration does. -/
def OffsetOnce (polls : List Poll) : Prop :=
  ∀ ps p, ps ++ [p] <+: polls → AppliedOnce atan2 ps p

variable {atan2} {s : SensorThread} {p : Poll} {polls : List Poll}

/-- The range is fixed, as `LSM303_sensor_init` leaves it. -/
structure Lsm303.Fixed (sensor : Lsm303) : Prop where
  autoRange : sensor.autoRange = false
  lsbXY : sensor.lsbXY = 1100

@[simp] theorem finish_sensor : (finish atan2 s).mag_sensor = s.mag_sensor := by
  unfold finish
  dsimp only
  split <;> rfl

@[simp] theorem finish_x : (finish atan2 s).mag_x = s.mag_x + 25 := by
  unfold finish
  dsimp only
  split <;> rfl

@[simp] theorem finish_passed : (finish atan2 s).passed = s.passed ++ [s.mag_x + 25] := by
  unfold finish
  dsimp only
  split <;> rfl

theorem round_ready {sensor : Lsm303} (hsensor : sensor.Fixed) (hp : p.Ready) :
    orientationRound sensor p = ({ sensor with magData := p.magData }, .valid) := by
  simp [orientationRound, hp, hsensor.autoRange]

theorem round_notReady {sensor : Lsm303} (hp : ¬ p.Ready) :
    orientationRound sensor p = (sensor, .notReady) := if_neg hp

/-- **Step rule.**  A ready poll passes its sample with the offset, any other adds the offset to
    what `mag_x` holds. -/
theorem step_x (hs : s.mag_sensor.Fixed) :
    (sensorStep atan2 s p).mag_x = (if p.Ready then p.x else s.mag_x) + 25 ∧
      (sensorStep atan2 s p).passed = s.passed ++ [(sensorStep atan2 s p).mag_x] := by
  unfold sensorStep
  by_cases hp : p.Ready
  · rw [round_ready hs hp, if_pos hp]
    simp [Lsm303.outputs, hs.lsbXY, Poll.x]
  · rw [round_notReady hp, if_neg hp]
    simp

theorem fixed_step (hs : s.mag_sensor.Fixed) : (sensorStep atan2 s p).mag_sensor.Fixed := by
  unfold sensorStep
  by_cases hp : p.Ready
  · rw [round_ready hs hp]
    exact ⟨(congrArg _ finish_sensor).trans hs.autoRange, (congrArg _ finish_sensor).trans hs.lsbXY⟩
  · rw [round_notReady hp]
    exact ⟨(congrArg _ finish_sensor).trans hs.autoRange, (congrArg _ finish_sensor).trans hs.lsbXY⟩

/-! ### Runs -/

theorem fixed_after : (after atan2 polls).mag_sensor.Fixed :=
  run_invariant (I := fun s => s.mag_sensor.Fixed) (fun _ _ hs => fixed_step hs) polls start
    ⟨rfl, rfl⟩

theorem after_concat : after atan2 (polls ++ [p]) = sensorStep atan2 (after atan2 polls) p :=
  run_concat _ _ _ _

theorem after_x : (after atan2 (polls ++ [p])).mag_x
    = (if p.Ready then p.x else (after atan2 polls).mag_x) + 25 := by
  rw [after_concat]
  exact (step_x fixed_after).1

theorem after_passed : (after atan2 (polls ++ [p])).passed
    = (after atan2 polls).passed ++ [(after atan2 (polls ++ [p])).mag_x] := by
  rw [after_concat]
  exact (step_x fixed_after).2

theorem lastX_concat : lastX (polls ++ [p]) = if p.Ready then p.x else lastX polls := by
  rw [lastX, List.foldl_append]
  rfl

/-- The `x` that an iteration passes is the one it leaves in `mag_x`. -/
theorem passed_iff : (after atan2 (polls ++ [p])).passed
      = (after atan2 polls).passed ++ [lastX (polls ++ [p]) + 25] ↔
    (after atan2 (polls ++ [p])).mag_x = lastX (polls ++ [p]) + 25 := by
  rw [after_passed, List.append_cancel_left_eq, List.singleton_inj]

/-- The iteration of a ready poll, or the first one. -/
theorem appliedOnce_of (h : polls = [] ∨ p.Ready) : AppliedOnce atan2 polls p := by
  refine ⟨passed_iff.mpr ?_, fun hne hp => absurd hp ?_⟩
  · rw [after_x, lastX_concat]
    split
    · rfl
    · rename_i hp
      obtain rfl := h.resolve_right hp
      rfl
  · exact not_not.mpr (h.resolve_left hne)

/-- The offset is applied again when the sensor is not ready. -/
theorem ready_of_appliedOnce {q : Poll} (hq : AppliedOnce atan2 polls q)
    (hp : AppliedOnce atan2 (polls ++ [q]) p) : p.Ready := by
  by_contra hready
  have hx := passed_iff.mp hp.1
  rw [after_x, if_neg hready, lastX_concat, if_neg hready, passed_iff.mp hq.1] at hx
  norm_num at hx

/-- The offset is applied once in every iteration, and a poll that is not ready keeps the
    heading, exactly when every poll after the first is ready. -/
theorem offsetOnce_iff (atan2 : ℚ → ℚ → ℚ) (polls : List Poll) :
    OffsetOnce atan2 polls ↔ ∀ p ∈ polls.tail, p.Ready := by
  constructor
  · intro h p hp
    obtain ⟨qs, rs, hsplit⟩ := List.append_of_mem hp
    cases polls with
    | nil => cases hp
    | cons q polls =>
      -- the poll before `p`
      obtain ⟨init, last, hinit⟩ : ∃ init last, q :: qs = init ++ [last] :=
        ⟨_, _, (List.dropLast_append_getLast (List.cons_ne_nil q qs)).symm⟩
      have hpolls : q :: polls = init ++ [last] ++ [p] ++ rs := by
        rw [← hinit, List.cons_append, List.cons_append, List.append_assoc]
        exact congrArg _ hsplit
      have hpre : init ++ [last] ++ [p] <+: q :: polls := ⟨rs, hpolls.symm⟩
      exact ready_of_appliedOnce (h init last ((List.prefix_append _ _).trans hpre))
        (h _ p hpre)
  · rintro h ps p ⟨rs, rfl⟩
    apply appliedOnce_of
    cases ps with
    | nil => exact Or.inl rfl
    | cons q ps => exact Or.inr (h p (by simp))

/-- A sensor that is not ready, twice: the second iteration passes 50. -/
theorem offset_twice : ∃ (atan2 : ℚ → ℚ → ℚ) (polls : List Poll),
    (after atan2 polls).passed = [25, 50] ∧ ¬ OffsetOnce atan2 polls := by
  refine ⟨fun _ _ => 0, List.replicate 2 ⟨0, List.Vector.replicate 6 0⟩, ?_, ?_⟩
  · decide +kernel
  · intro h
    have hfirst := h [] ⟨0, List.Vector.replicate 6 0⟩ ⟨[⟨0, List.Vector.replicate 6 0⟩], rfl⟩
    have hsecond := h [⟨0, List.Vector.replicate 6 0⟩] ⟨0, List.Vector.replicate 6 0⟩ ⟨[], rfl⟩
    exact absurd (ready_of_appliedOnce hfirst hsecond) (by decide)

end Wheelson.Sensor
