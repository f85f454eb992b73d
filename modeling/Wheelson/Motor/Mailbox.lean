import Wheelson.Motor.StopWins

namespace Wheelson.Motor

/-!
# The one-byte mailbox

`RXData` is written by the receive interrupt and cleared by the main loop at the end of each
round.  The clearing store does not look at what it clears.

* `Mail` — the board, the last byte received, and whether its move function was entered since.
* `Mail.Kept` — a movement byte that came last is pending, or its move function was entered.
* `Missed` — the positions of the main loop from which a byte is not compared any more.
* `kept_iff` — no movement byte is discarded exactly when none arrives at such a position.
-/

open Machine

/-! ### Observations -/

/-- The board, with the last byte received and whether its move function was entered since. -/
structure Mail where
  board : Board
  last : Option UInt8
  entered : Bool

variable {w : Mail} {m k : Move}

/-- The move function that the main loop enters with its next statement. -/
def Board.enters (b : Board) : Option Move :=
  match b.pc with
  | .cmp m => if b.RXData = m.byte then some m else none
  | _ => none

def mailStep (w : Mail) (e : Event) : Mail where
  board := step w.board e
  last := match e with
    | .rx byte => some byte
    | .main => w.last
  entered := match e with
    | .rx _ => false
    | .main => w.entered || w.board.enters.any fun m => w.last = some m.byte

def mailBoot (r : Registers) : Mail := ⟨boot r, none, false⟩

/-- The last byte, if it is a movement byte, is pending or was acted on. -/
def Mail.Kept (w : Mail) : Prop :=
  ∀ m : Move, w.last = some m.byte → w.board.RXData = m.byte ∨ w.entered

/-- The position of a comparison in the `else if` chain. -/
def Move.rank : Move → ℕ
  | .forw => 0
  | .rvrs => 1
  | .left => 2
  | .right => 3

/-- The main loop is past the comparison with a byte, and will clear `RXData` next. -/
def Missed (m : Move) : Pc → Prop
  | .cmp k => m.rank < k.rank
  | .drive _ _ | .wait _ _ | .off _ | .clearRX => True
  | .test | .delay _ | .clearFlag => False

/-- The runs in which the UART receives a byte only where `ok` says so. -/
def Lands (ok : Board → UInt8 → Prop) (w : Mail) : Event → Prop
  | .rx byte => ok w.board byte
  | .main => True

instance (ok : Board → UInt8 → Prop) [∀ b byte, Decidable (ok b byte)] (w : Mail) (e : Event) :
    Decidable (Lands ok w e) :=
  match e with
  | .rx byte => inferInstanceAs (Decidable (ok w.board byte))
  | .main => .isTrue trivial

/-! ### A byte that comes in time -/

theorem byte_inj (h : m.byte = k.byte) : m = k := by
  revert h
  cases m <;> cases k <;> decide

theorem byte_ne_zero (m : Move) : m.byte ≠ 0 := by
  cases m <;> decide

/-- The comparison after the one with `k`. -/
theorem missed_orElse (hk : k.rank ≤ m.rank) (hne : m ≠ k) : ¬ Missed m k.orElse := by
  revert hk hne
  cases m <;> cases k <;> simp [Missed, Move.orElse, Move.rank]

/-- The last byte was acted on, or is pending and will still be compared. -/
def Mail.InTime (w : Mail) : Prop :=
  ∀ m : Move, w.last = some m.byte → w.entered ∨ w.board.RXData = m.byte ∧ ¬ Missed m w.board.pc

theorem inTime_rx {byte : UInt8} (hbyte : ∀ m : Move, byte = m.byte → ¬ Missed m w.board.pc) :
    (mailStep w (.rx byte)).InTime := by
  intro m hlast
  right
  obtain ⟨hrx, hpc⟩ := rxData_isr byte w.board
  have hlast : byte = m.byte := Option.some.inj hlast
  refine ⟨hrx.trans hlast, ?_⟩
  show ¬ Missed m (eusciA0Isr byte w.board).pc
  rw [hpc]
  exact hbyte m hlast

/-- The main loop comes to the comparison with a byte that is in time. -/
theorem inTime_main (hw : w.InTime) : (mailStep w .main).InTime := by
  intro m hlast
  rcases hw m hlast with hentered | ⟨hrx, hpc⟩
  · left
    simp only [mailStep, hentered, Bool.true_or]
  · obtain ⟨⟨pc, hw, rx, flag⟩, last, entered⟩ := w
    change last = some m.byte at hlast
    have hrx : rx = m.byte := hrx
    -- the only ways out are the comparison that matches and the one that comes next
    cases pc with
    | test =>
      right
      have hne := hrx ▸ byte_ne_zero m
      simp only [mailStep, step, mainStep, if_pos hne]
      exact ⟨hrx, id⟩
    | delay n =>
      right
      simp only [mailStep, step, mainStep]
      split <;> exact ⟨hrx, id⟩
    | clearFlag =>
      right
      exact ⟨hrx, Nat.not_lt_zero _⟩
    | cmp k =>
      by_cases hk : rx = k.byte
      · left
        obtain rfl : k = m := byte_inj (hk.symm.trans hrx)
        simp only [mailStep, Board.enters, if_pos hk, hlast, Option.any_some, decide_true,
          Bool.or_true]
      · right
        simp only [mailStep, step, mainStep, if_neg hk]
        refine ⟨hrx, missed_orElse (Nat.not_lt.mp hpc) ?_⟩
        rintro rfl
        exact hk hrx
    | drive | wait | off | clearRX => exact absurd trivial hpc

/-! ### A byte that comes too late -/

/-- The last byte is a movement byte that will be cleared before it is compared. -/
structure Mail.Late (m : Move) (w : Mail) : Prop where
  last : w.last = some m.byte
  entered : w.entered = false
  pending : w.board.RXData = m.byte
  pc : Missed m w.board.pc

/-- The statements left, at most, before `RXData = 0`. -/
def Pc.toClear : Pc → ℕ
  | .clearRX => 0
  | .cmp k => 4 - k.rank
  | .off todo => todo.length + 1
  | .wait loop2 duration => (10 - loop2) * (TURN_DURATION + 1) + (TURN_DURATION - duration) + 12
  | .drive _ todo => todo.length + 11 * (TURN_DURATION + 1) + 12
  | _ => 0

theorem late_main (hw : w.Late m) : ¬ (mailStep w .main).Kept ∨
    (mailStep w .main).Late m ∧ (mailStep w .main).board.pc.toClear < w.board.pc.toClear := by
  obtain ⟨⟨pc, hw, rx, flag⟩, last, entered⟩ := w
  obtain ⟨hlast, hentered, hrx, hpc⟩ := hw
  change last = some m.byte at hlast
  change entered = false at hentered
  change rx = m.byte at hrx
  subst hentered
  cases pc with
  | test | delay | clearFlag => exact hpc.elim
  | clearRX =>
    -- the store discards it
    left
    intro hkept
    rcases hkept m hlast with hzero | hentered
    · exact byte_ne_zero m hzero.symm
    · cases hentered
  | cmp k =>
    right
    -- a later comparison is with another byte
    have hk : rx ≠ k.byte := by
      intro hk
      obtain rfl : k = m := byte_inj (hk.symm.trans hrx)
      exact lt_irrefl _ hpc
    change m.rank < k.rank at hpc
    refine ⟨⟨hlast, ?_, ?_, ?_⟩, ?_⟩
    · simp only [mailStep, Board.enters, if_neg hk, Option.any_none, Bool.or_false]
    · simp only [mailStep, step, mainStep, if_neg hk]
      exact hrx
    · simp only [mailStep, step, mainStep, if_neg hk]
      cases k with
      | right => trivial
      | forw | rvrs | left => exact Nat.lt_succ_of_lt hpc
    · simp only [mailStep, step, mainStep, if_neg hk]
      cases k <;> decide
  | drive k todo =>
    right
    cases todo with
    | nil =>
      refine ⟨⟨hlast, rfl, hrx, trivial⟩, ?_⟩
      simp only [mailStep, step, mainStep, Pc.toClear]
      omega
    | cons st todo =>
      refine ⟨⟨hlast, rfl, hrx, trivial⟩, ?_⟩
      simp only [mailStep, step, mainStep, Pc.toClear, List.length_cons]
      omega
  | wait loop2 duration =>
    right
    simp only [mailStep, step, mainStep]
    split
    · rename_i hloop2
      split
      · split
        · exact ⟨⟨hlast, rfl, hrx, trivial⟩, Nat.succ_pos _⟩
        · refine ⟨⟨hlast, rfl, hrx, trivial⟩, ?_⟩
          simp only [Pc.toClear]
          omega
      · -- the next round of the outer loop
        refine ⟨⟨hlast, rfl, hrx, trivial⟩, ?_⟩
        have hround : 10 - loop2 = 10 - (loop2 + 1) + 1 := by omega
        simp only [Pc.toClear, hround, Nat.succ_mul]
        omega
    · refine ⟨⟨hlast, rfl, hrx, trivial⟩, ?_⟩
      show 11 < _
      exact Nat.le_add_left _ _
  | off todo =>
    right
    cases todo with
    | nil => exact ⟨⟨hlast, rfl, hrx, trivial⟩, Nat.zero_lt_succ _⟩
    | cons st todo => exact ⟨⟨hlast, rfl, hrx, trivial⟩, Nat.lt_succ_self _⟩

/-- The clearing store is reached, and discards the byte. -/
theorem late_discarded {ok : Board → UInt8 → Prop} [∀ b byte, Decidable (ok b byte)]
    (hw : w.Late m) : CanReach (restrict (Lands ok) (total mailStep)) w fun w' => ¬ w'.Kept := by
  refine exec_leads_to (P := Mail.Late m) (fun w => w.board.pc.toClear) ?_ w hw
  intro w hw
  exact ⟨.main, mailStep w .main, restrict_eq_some.mpr ⟨trivial, rfl⟩, late_main hw⟩

/-! ### Exactly when no movement byte is discarded -/

/-- **No movement byte is discarded exactly when none comes too late.**  Over all runs in which
    bytes arrive only where `ok` allows it, the last byte is pending or acted on in every state
    if and only if no movement byte is allowed at a position past its comparison. -/
theorem kept_iff (ok : Board → UInt8 → Prop) [∀ b byte, Decidable (ok b byte)] (r : Registers) :
    (∀ w, Reachable (restrict (Lands ok) (total mailStep)) (mailBoot r) w → w.Kept) ↔
      ∀ w m, Reachable (restrict (Lands ok) (total mailStep)) (mailBoot r) w →
        ok w.board (Move.byte m) → ¬ Missed m w.board.pc := by
  constructor
  · intro hkept w m hw hok hpc
    -- receive the byte there: it is late, and the store is still to come
    have hstep : restrict (Lands ok) (total mailStep) w (.rx m.byte) =
        some (mailStep w (.rx m.byte)) := restrict_eq_some.mpr ⟨hok, rfl⟩
    have hlate : (mailStep w (.rx m.byte)).Late m :=
      ⟨rfl, rfl, (rxData_isr _ _).1, ((rxData_isr _ w.board).2 ▸ hpc :)⟩
    obtain ⟨w', hw', hlost⟩ := (hw.step hstep).canReach (late_discarded hlate)
    exact hlost (hkept w' hw')
  · intro hok w hw
    -- induction on the run: every byte that comes is in time
    have hinTime : w.InTime := by
      induction hw with
      | init => exact nofun
      | @step w w' e hw hstep ih =>
        obtain ⟨he, hstep⟩ := restrict_eq_some.mp hstep
        cases hstep
        cases e with
        | main => exact inTime_main ih
        | rx byte =>
          apply inTime_rx
          rintro m rfl
          exact hok w m hw he
    intro m hlast
    exact (hinTime m hlast).elim .inr fun h => .inl h.1

/-- A byte that is no command, and `'F'` after its comparison. -/
def lateByte : List Event :=
  byteThenDelay 1 ++ [.main, .main, .rx Move.forw.byte, .main, .main, .main, .main]

/-- **A movement byte can be discarded**: on `lateByte` the board is back at its idle test with
    nothing pending, and has not entered `moveForward`. -/
theorem not_always_kept :
    ¬ ∀ r w, Reachable (total mailStep) (mailBoot r) w → w.Kept := by
  intro hkept
  have hdelay := run_delay (f := mailStep)
    (fun pc => ⟨{ eusciA0Isr 1 (boot resetRegs) with pc := pc }, some 1, false⟩) fun n => by
      simp only [mailStep, step, mainStep]
      split <;> rfl
  have hrun : run mailStep (mailBoot resetRegs) lateByte =
      run mailStep ⟨{ eusciA0Isr 1 (boot resetRegs) with pc := .clearFlag }, some 1, false⟩
        [.main, .main, .rx Move.forw.byte, .main, .main, .main, .main] := by
    rw [lateByte, byteThenDelay, run_append, run_append, ← hdelay]
    rfl
  have hlost := hkept resetRegs _
    (Reachable.exec lateByte .init (exec_total mailStep (mailBoot resetRegs) lateByte))
    .forw (by rw [hrun]; rfl)
  rw [hrun] at hlost
  revert hlost
  decide

end Wheelson.Motor
