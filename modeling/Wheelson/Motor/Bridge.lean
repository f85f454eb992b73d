import Wheelson.Motor.StopWins

namespace Wheelson.Motor

/-!
# The two inputs of a bridge

Each motor hangs on two pins and one timer; with the timer running, a bridge is safe as long
as one of the two pins is a plain output driven low.

* `Bridge` — what the registers say about one motor: its two pins, and whether its timer runs.
* `Bridge.exec` — a statement of the driver as one motor sees it, with `bridge_exec`, that the
  registers follow it.
* `Bridge.Calmer` — the order in which the receive interrupt only goes up, and which every
  statement respects.
* `Boundary` — the registers at every statement boundary after `initMotors`.
* `guarded_of_boundary` — the bridges are safe at all of them.
-/

open Machine

/-! ### One motor -/

/-- The timer of a motor. -/
def MotorSelect.timer : MotorSelect → TimerBase
  | .MOTOR1 => .TA1
  | .MOTOR2 => .TA0

/-- The forward pin of a motor. -/
def MotorSelect.fwd : MotorSelect → Pin
  | .MOTOR1 => P4_0
  | .MOTOR2 => P1_7

/-- The backward pin of a motor. -/
def MotorSelect.bckwd : MotorSelect → Pin
  | .MOTOR1 => P8_3
  | .MOTOR2 => P1_6

/-- One input of a bridge: a plain output, and a low latch. -/
@[ext] structure Lead where
  plain : Bool
  low : Bool
deriving DecidableEq, Repr

def Lead.held (l : Lead) : Bool := l.plain && l.low

/-- A motor's two inputs and its timer. -/
@[ext] structure Bridge where
  fwd : Lead
  bckwd : Lead
  running : Bool
deriving DecidableEq, Repr

variable {h : Hw} {m : MotorSelect} {st : Stmt} {a b : Bridge}

/-- The two inputs are not both driven. -/
def Bridge.Guarded (a : Bridge) : Prop := a.running → a.fwd.held ∨ a.bckwd.held

instance : DecidablePred Bridge.Guarded := fun a => by
  unfold Bridge.Guarded; infer_instance

def PinState.lead (p : PinState) : Lead := ⟨!p.sel0 && !p.sel1 && p.dir, !p.out⟩

/-- The bridge of a motor, as the registers have it. -/
def Registers.bridge (r : Registers) (m : MotorSelect) : Bridge where
  fwd := (r.pinAt m.fwd).lead
  bckwd := (r.pinAt m.bckwd).lead
  running := r.timerRunning m.timer

/-- With its timer running, a motor has a pin that is a plain output driven low. -/
def Registers.Guarded (r : Registers) (m : MotorSelect) : Prop :=
  r.timerRunning m.timer → (r.pinAt m.fwd).outputLow ∨ (r.pinAt m.bckwd).outputLow

theorem guarded_bridge (r : Registers) (m : MotorSelect) : (r.bridge m).Guarded ↔ r.Guarded m :=
  Iff.rfl

/-! ### A statement, as one motor sees it -/

/-- Change the input at a pin. -/
def Bridge.modify (m : MotorSelect) (p : Pin) (f : Lead → Lead) (a : Bridge) : Bridge :=
  { a with
    fwd := if m.fwd = p then f a.fwd else a.fwd
    bckwd := if m.bckwd = p then f a.bckwd else a.bckwd }

/-- A statement on the bridge of a motor.  `Timer_A_initUpMode` runs in `initMotors` only. -/
def Bridge.exec (m : MotorSelect) (a : Bridge) : Stmt → Bridge
  | .timerAStop b => if b = m.timer then { a with running := false } else a
  | .timerAStartCounter b timerMode =>
    if b = m.timer then { a with running := decide (timerMode &&& MC_3 ≠ 0) } else a
  | .gpioSetAsOutputPin port k => a.modify m ⟨port, k⟩ fun l => { l with plain := true }
  | .gpioSetAsPeripheralModuleFunctionOutputPin port k =>
    a.modify m ⟨port, k⟩ fun l => { l with plain := false }
  | .gpioSetOutputHighOnPin port k => a.modify m ⟨port, k⟩ fun l => { l with low := false }
  | .gpioSetOutputLowOnPin port k => a.modify m ⟨port, k⟩ fun l => { l with low := true }
  | _ => a

/-- `Timer_A_initUpMode`. -/
def Stmt.setsUp : Stmt → Bool
  | .timerAInitUpMode _ _ => true
  | _ => false

/-- A rewrite of the pin `p` alone. -/
theorem bridge_of_pin {r r' : Registers} {p : Pin} {g : Lead → Lead}
    (hp : (r'.pinAt p).lead = g (r.pinAt p).lead) (hne : ∀ q ≠ p, r'.pinAt q = r.pinAt q)
    (htimer : r'.timer = r.timer) : r'.bridge m = (r.bridge m).modify m p g := by
  have hlead (q : Pin) : (r'.pinAt q).lead =
      if q = p then g (r.pinAt q).lead else (r.pinAt q).lead := by
    split
    · rename_i hq
      rw [hq, hp]
    · rename_i hq
      rw [hne q hq]
  unfold Registers.bridge Bridge.modify Registers.timerRunning
  rw [hlead, hlead, htimer]

/-- A rewrite of a timer. -/
theorem bridge_modifyTimer (r : Registers) (t : TimerBase) (f : TimerRegs → TimerRegs)
    (m : MotorSelect) : (r.modifyTimer t f).bridge m = { r.bridge m with
      running := if t = m.timer then decide ((f (r.timer t)).ctl &&& MC_3 ≠ 0)
        else (r.bridge m).running } := by
  unfold Registers.bridge Registers.timerRunning Registers.modifyTimer
  by_cases ht : t = m.timer
  · subst ht
    simp [Registers.pinAt]
  · have ht' : m.timer ≠ t := fun he => ht he.symm
    simp [ht, ht', Registers.pinAt]

/-- A rewrite of a timer that keeps its mode bits. -/
theorem bridge_modifyTimer_of {r : Registers} {t : TimerBase} {f : TimerRegs → TimerRegs}
    (hf : ∀ w, (f w).ctl = w.ctl) : (r.modifyTimer t f).bridge m = r.bridge m := by
  rw [bridge_modifyTimer, hf]
  refine Bridge.ext rfl rfl ?_
  dsimp only
  split
  · rename_i ht
    rw [ht]
    rfl
  · rfl

theorem mode_of_stop (w : BitVec 16) : w &&& ~~~MC_3 &&& MC_3 = 0 := by
  ext i hi
  cases hbit : MC_3[i] <;> simp [hbit]

theorem mode_of_start (w timerMode : BitVec 16) :
    (w &&& ~~~MC_3 ||| timerMode) &&& MC_3 = timerMode &&& MC_3 := by
  ext i hi
  cases hbit : MC_3[i] <;> simp [hbit]

/-- **The registers follow the abstract statement.** -/
theorem bridge_exec (hst : st.setsUp = false) :
    (st.exec h).regs.bridge m = (h.regs.bridge m).exec m st := by
  cases st with
  | timerAInitUpMode => cases hst
  | gpioSetAsOutputPin port k | gpioSetAsPeripheralModuleFunctionOutputPin port k
  | gpioSetOutputHighOnPin port k | gpioSetOutputLowOnPin port k =>
    rw [Bridge.exec]
    apply bridge_of_pin
    · simp [Stmt.exec, PinState.lead]
    · intro q hq
      simp [Stmt.exec, hq]
    · rfl
  | timerAStop b =>
    rw [Stmt.exec, timerAStop, bridge_modifyTimer, Bridge.exec]
    simp only [mode_of_stop]
    split <;> rfl
  | timerAStartCounter b timerMode =>
    rw [Stmt.exec, timerAStartCounter, bridge_modifyTimer, Bridge.exec]
    simp only [mode_of_start]
    split <;> rfl
  | timerAInitCompareMode b =>
    simp only [Stmt.exec, timerAInitCompareMode, Bridge.exec]
    refine bridge_modifyTimer_of ?_
    exact fun _ => rfl
  | timerASetCompareValue b =>
    simp only [Stmt.exec, timerASetCompareValue, Bridge.exec]
    refine bridge_modifyTimer_of ?_
    exact fun _ => rfl
  | setCompareInterruptEnable | setCompareOutputMode | setCompareValue | setCompareRegister => rfl

/-! ### Turning off only goes up -/

/-- `l'` is held wherever `l` is. -/
def Lead.Calmer (l l' : Lead) : Prop := (l.plain → l'.plain) ∧ (l.low → l'.low)

/-- Each input is held at least as much, and the timer runs at most as much. -/
structure Bridge.Calmer (a b : Bridge) : Prop where
  fwd : a.fwd.Calmer b.fwd
  bckwd : a.bckwd.Calmer b.bckwd
  running : b.running → a.running

theorem Lead.Calmer.held {l l' : Lead} (hl : l.Calmer l') (h : l.held) : l'.held := by
  unfold Lead.held at h ⊢
  rw [Bool.and_eq_true] at h ⊢
  exact ⟨hl.1 h.1, hl.2 h.2⟩

theorem Bridge.Calmer.refl (a : Bridge) : a.Calmer a := ⟨⟨id, id⟩, ⟨id, id⟩, id⟩

theorem Bridge.Calmer.trans {c : Bridge} (hab : a.Calmer b) (hbc : b.Calmer c) : a.Calmer c where
  fwd := ⟨fun h => hbc.fwd.1 (hab.fwd.1 h), fun h => hbc.fwd.2 (hab.fwd.2 h)⟩
  bckwd := ⟨fun h => hbc.bckwd.1 (hab.bckwd.1 h), fun h => hbc.bckwd.2 (hab.bckwd.2 h)⟩
  running := fun h => hab.running (hbc.running h)

theorem Bridge.Guarded.of_calmer (hab : a.Calmer b) (ha : a.Guarded) : b.Guarded := by
  intro hb
  exact (ha (hab.running hb)).imp hab.fwd.held hab.bckwd.held

theorem calmer_modify {p : Pin} {f : Lead → Lead}
    (hf : ∀ {l l' : Lead}, l.Calmer l' → (f l).Calmer (f l')) (hab : a.Calmer b) :
    (a.modify m p f).Calmer (b.modify m p f) := by
  unfold Bridge.modify
  refine ⟨?_, ?_, hab.running⟩
  · dsimp only
    split
    · exact hf hab.fwd
    · exact hab.fwd
  · dsimp only
    split
    · exact hf hab.bckwd
    · exact hab.bckwd

/-- Every statement respects the order. -/
theorem calmer_exec (m : MotorSelect) (st : Stmt) (hab : a.Calmer b) :
    (a.exec m st).Calmer (b.exec m st) := by
  cases st with
  | timerAStop t | timerAStartCounter t =>
    simp only [Bridge.exec]
    split
    · exact ⟨hab.fwd, hab.bckwd, id⟩
    · exact hab
  | gpioSetAsOutputPin port k =>
    simp only [Bridge.exec]
    refine calmer_modify ?_ hab
    exact fun hl => ⟨fun _ => rfl, hl.2⟩
  | gpioSetAsPeripheralModuleFunctionOutputPin port k =>
    simp only [Bridge.exec]
    refine calmer_modify ?_ hab
    exact fun hl => ⟨id, hl.2⟩
  | gpioSetOutputHighOnPin port k =>
    simp only [Bridge.exec]
    refine calmer_modify ?_ hab
    exact fun hl => ⟨hl.1, id⟩
  | gpioSetOutputLowOnPin port k =>
    simp only [Bridge.exec]
    refine calmer_modify ?_ hab
    exact fun hl => ⟨hl.1, fun _ => rfl⟩
  | _ => exact hab

/-- The statements that turn a motor off. -/
def Stmt.turnsOff : Stmt → Bool
  | .timerAStop _ | .gpioSetAsOutputPin _ _ | .gpioSetOutputLowOnPin _ _ => true
  | _ => false

/-- A statement that turns off goes up in the order. -/
theorem calmer_of_turnsOff (m : MotorSelect) (hst : st.turnsOff) : a.Calmer (a.exec m st) := by
  have hmodify {p : Pin} {f : Lead → Lead} (hf : ∀ l : Lead, l.Calmer (f l)) :
      a.Calmer (a.modify m p f) := by
    unfold Bridge.modify
    refine ⟨?_, ?_, id⟩
    · dsimp only
      split
      · exact hf _
      · exact ⟨id, id⟩
    · dsimp only
      split
      · exact hf _
      · exact ⟨id, id⟩
  cases st with
  | timerAStop t =>
    simp only [Bridge.exec]
    split
    · exact ⟨⟨id, id⟩, ⟨id, id⟩, fun h => by cases h⟩
    · exact .refl a
  | gpioSetAsOutputPin port k =>
    simp only [Bridge.exec]
    apply hmodify
    exact fun l => ⟨fun _ => rfl, id⟩
  | gpioSetOutputLowOnPin port k =>
    simp only [Bridge.exec]
    apply hmodify
    exact fun l => ⟨id, fun _ => rfl⟩
  | _ => cases hst

/-! ### The functions of the driver -/

/-- The hardware statements of `EUSCI_A0_ISR` for `MOTOR_STOP`. -/
def stopStmts : List Stmt := disableAlarm ++ turnOffMotor .MOTOR1 ++ turnOffMotor .MOTOR2

theorem stopStmts_turnsOff : ∀ st ∈ stopStmts, st.turnsOff := by
  decide

theorem turnOff_turnsOff : ∀ st ∈ turnOffMotor .MOTOR1 ++ turnOffMotor .MOTOR2, st.turnsOff := by
  decide

theorem setsUp_of_turnsOff (hst : st.turnsOff) : st.setsUp = false := by
  cases st with
  | timerAInitUpMode => cases hst
  | _ => rfl

theorem body_setsUp (m : Move) : ∀ st ∈ m.body, st.setsUp = false := by
  cases m <;> decide

/-- **A move function keeps both bridges safe**, from any registers in which they are. -/
theorem body_along (m : Move) (n : MotorSelect) (ha : a.Guarded) :
    Along (Bridge.exec n) Bridge.Guarded a m.body := by
  obtain ⟨⟨fp, fl⟩, ⟨bp, bl⟩, r⟩ := a
  -- 32 states of a bridge, four functions, two motors
  revert fp fl bp bl r
  cases m <;> cases n <;> decide

theorem along_of_turnsOff {l : List Stmt} (hl : ∀ st ∈ l, st.turnsOff) (m : MotorSelect) :
    ∀ {a : Bridge}, a.Guarded → Along (Bridge.exec m) Bridge.Guarded a l := by
  induction l with
  | nil => exact fun ha => ha
  | cons st l ih =>
    intro a ha
    have hst := calmer_of_turnsOff (a := a) m (hl st List.mem_cons_self)
    exact ⟨ha, ih (fun st hm => hl st (List.mem_cons_of_mem _ hm)) (ha.of_calmer hst)⟩

theorem calmer_run {l : List Stmt} (hl : ∀ st ∈ l, st.turnsOff) (m : MotorSelect) (a : Bridge) :
    a.Calmer (run (Bridge.exec m) a l) :=
  run_invariant_of (I := a.Calmer) (A := fun st => st.turnsOff)
    (fun _ _ hst hab => hab.trans (calmer_of_turnsOff m hst)) l a hl (.refl a)

theorem bridge_execAll (m : MotorSelect) {l : List Stmt} :
    ∀ {h : Hw}, (∀ st ∈ l, st.setsUp = false) →
      (execAll h l).regs.bridge m = run (Bridge.exec m) (h.regs.bridge m) l := by
  induction l with
  | nil => exact fun _ => rfl
  | cons st l ih =>
    intro h hl
    rw [run_cons, ← bridge_exec (hl st List.mem_cons_self),
      ← ih fun st hm => hl st (List.mem_cons_of_mem _ hm)]
    rfl

/-! ### Every run -/

/-- The statements of the driver function that the main loop is in. -/
def Pc.todo : Pc → List Stmt
  | .drive _ todo | .off todo => todo
  | _ => []

/-- Both bridges are safe now, and throughout the statements left in the function that the
    main loop is in. -/
def Board.Safe (b : Board) : Prop :=
  b.pc.shape ∧ ∀ m, Along (Bridge.exec m) Bridge.Guarded (b.hw.regs.bridge m) b.pc.todo

theorem along_mainStep {b : Board} (hb : b.Safe) (m : MotorSelect) :
    Along (Bridge.exec m) Bridge.Guarded ((mainStep b).hw.regs.bridge m) (mainStep b).pc.todo := by
  obtain ⟨hshape, halong⟩ := hb
  have halong := halong m
  have hnow := halong.head
  obtain ⟨pc, hw, rx, flag⟩ := b
  cases pc with
  | test => simp only [mainStep]; split <;> exact hnow
  | delay n => simp only [mainStep]; split <;> exact hnow
  | clearFlag => exact hnow
  | cmp move =>
    simp only [mainStep]
    split
    · -- a move function starts, perhaps after one that was left early
      exact body_along move m hnow
    · cases move <;> exact hnow
  | drive move todo =>
    cases todo with
    | nil => exact hnow
    | cons st todo =>
      have hst := body_setsUp move st (hshape.subset List.mem_cons_self)
      show Along _ _ ((st.exec hw).regs.bridge m) todo
      rw [bridge_exec hst]
      exact halong.2
  | wait loop2 duration =>
    simp only [mainStep]
    split
    · split
      · split <;> exact hnow
      · exact hnow
    · -- the two calls of `turnOffMotor`
      exact along_of_turnsOff turnOff_turnsOff m hnow
  | off todo =>
    cases todo with
    | nil => exact hnow
    | cons st todo =>
      have hst := turnOff_turnsOff st (hshape.subset List.mem_cons_self)
      show Along _ _ ((st.exec hw).regs.bridge m) todo
      rw [bridge_exec (setsUp_of_turnsOff hst)]
      exact halong.2
  | clearRX => exact hnow

theorem hw_isr_stop (b : Board) : (eusciA0Isr MOTOR_STOP b).hw = execAll b.hw stopStmts := rfl

/-- The interrupt goes up in the order, wherever the main loop is. -/
theorem along_isr {b : Board} (byte : UInt8) (hb : b.Safe) (m : MotorSelect) :
    Along (Bridge.exec m) Bridge.Guarded ((eusciA0Isr byte b).hw.regs.bridge m) b.pc.todo := by
  have halong := hb.2 m
  -- only the stop byte touches the hardware
  by_cases hbyte : byte = MOTOR_STOP
  · -- the rest of the function is safe from anything calmer
    subst hbyte
    rw [hw_isr_stop, bridge_execAll m fun st hm => setsUp_of_turnsOff (stopStmts_turnsOff st hm)]
    exact Along.of_rel (R := Bridge.Calmer) (fun _ _ st => calmer_exec m st)
      (fun _ _ => Bridge.Guarded.of_calmer) _ (calmer_run stopStmts_turnsOff m _) halong
  · simp only [eusciA0Isr, hbyte, if_false]
    exact halong

theorem safe_step {b : Board} (e : Event) (hb : b.Safe) : (step b e).Safe := by
  refine ⟨shape_step e hb.1, fun m => ?_⟩
  cases e with
  | main => exact along_mainStep hb m
  | rx byte =>
    show Along _ _ ((eusciA0Isr byte b).hw.regs.bridge m) (eusciA0Isr byte b).pc.todo
    rw [(rxData_isr byte b).2]
    exact along_isr byte hb m

/-! ### Start-up -/

/-- `initMotors` ends with both timers stopped. -/
theorem running_initMotors (h : Hw) (motorInitParam : UpModeParam) (m : MotorSelect) :
    ((execAll h (initMotors motorInitParam)).regs.bridge m).running = false := by
  -- the last two statements stop them
  obtain ⟨h', heq⟩ : ∃ h', execAll h (initMotors motorInitParam) =
      (Stmt.timerAStop .TA0).exec ((Stmt.timerAStop .TA1).exec h') := ⟨_, rfl⟩
  rw [heq, bridge_exec rfl, bridge_exec rfl]
  cases m <;> rfl

/-- No timer runs in `startupSound`. -/
theorem running_startupSound (h : Hw) (motorInitParam : UpModeParam) (m : MotorSelect)
    {pre : List Stmt} (hpre : pre <+: startupSound) :
    ((execAll h (initMotors motorInitParam ++ pre)).regs.bridge m).running = false := by
  have hsound : ∀ st ∈ startupSound, st.setsUp = false ∧ st.isGpio = true := by decide
  rw [execAll, List.foldl_append]
  show ((execAll (execAll h (initMotors motorInitParam)) pre).regs.bridge m).running = false
  rw [bridge_execAll m fun st hm => (hsound st (hpre.subset hm)).1]
  refine run_invariant_of (I := fun a : Bridge => a.running = false) (A := fun st => st.isGpio) ?_
    pre _ (fun st hm => (hsound st (hpre.subset hm)).2) (running_initMotors h motorInitParam m)
  intro a st hst ha
  cases st with
  | gpioSetAsOutputPin | gpioSetAsPeripheralModuleFunctionOutputPin | gpioSetOutputHighOnPin
  | gpioSetOutputLowOnPin => exact ha
  | _ => cases hst

theorem guarded_startupSound (h : Hw) (motorInitParam : UpModeParam) (m : MotorSelect)
    {pre : List Stmt} (hpre : pre <+: startupSound) :
    ((execAll h (initMotors motorInitParam ++ pre)).regs.bridge m).Guarded := by
  intro hrunning
  rw [running_startupSound h motorInitParam m hpre] at hrunning
  cases hrunning

theorem safe_boot (r : Registers) : (boot r).Safe := by
  refine ⟨trivial, fun m => ?_⟩
  have htodo : (boot r).pc.todo = [] := rfl
  have hhw : (boot r).hw =
      execAll ⟨r, timerCompInitParam⟩ (initMotors motorInitParam ++ startupSound) := rfl
  rw [htodo, along_nil, hhw]
  exact guarded_startupSound _ _ m List.prefix_rfl

theorem safe_run (r : Registers) (es : List Event) : (run step (boot r) es).Safe :=
  run_invariant (fun _ e hb => safe_step e hb) es _ (safe_boot r)

/-- The registers at the statement boundaries after `initMotors`. -/
inductive Boundary (r : Registers) : Hw → Prop
  /-- Before the main loop, with the interrupt still disabled. -/
  | start {pre : List Stmt} (hpre : pre <+: startupSound) :
      Boundary r (execAll ⟨r, timerCompInitParam⟩ (initMotors motorInitParam ++ pre))
  /-- Between two statements of the main loop and of the functions it calls. -/
  | main (es : List Event) : Boundary r (run step (boot r) es).hw
  /-- Inside the interrupt, on a STOP that comes at any of these. -/
  | isr (es : List Event) {pre : List Stmt} (hpre : pre <+: stopStmts) :
      Boundary r (execAll (run step (boot r) es).hw pre)

/-- **No bridge conflict.**  At every statement boundary after `initMotors`, a motor whose
    timer runs has a pin that is a plain output driven low. -/
theorem guarded_of_boundary {r : Registers} (hb : Boundary r h) (m : MotorSelect) :
    h.regs.Guarded m := by
  rw [← guarded_bridge]
  cases hb with
  | start hpre => exact guarded_startupSound _ _ m hpre
  | main es => exact ((safe_run r es).2 m).head
  | isr es hpre =>
    -- at any point of the interrupt: its statements only go up
    have hnow := ((safe_run r es).2 m).head
    rw [bridge_execAll m fun st hm =>
      setsUp_of_turnsOff (stopStmts_turnsOff st (hpre.subset hm))]
    exact (along_of_turnsOff stopStmts_turnsOff m hnow).of_initial hpre

/-- The board that has begun to move. -/
theorem guarded_of_boundary_moving :
    (run step (boot resetRegs) (byteThenDelay Move.forw.byte ++
      List.replicate 24 .main)).hw.regs.Guarded .MOTOR1 :=
  guarded_of_boundary (.main _) .MOTOR1

end Wheelson.Motor
