import Wheelson.Motor.Mailbox

namespace Wheelson.Motor

/-!
# The moves that the motor board makes

A byte may be overwritten before the main loop looks at it, and cleared after it has been
compared.  It does not make the board move twice, and not in another way than it says.

* `Board.asks` — the move that `RXData` still asks for.
* `Board.Within` — what has been made, and what is still asked for, is among the moves that the
  bytes received ask for; `within_main` and `within_rx` say what a statement of the main loop and
  the interrupt make of it.
* `moves_sublist` — the moves made are among those asked for, each once and in order.
-/

open Machine

variable {b : Board} {byte : UInt8} {m : Move}

/-- The move that a byte asks for. -/
def Move.ofByte (byte : UInt8) : Option Move :=
  [.forw, .rvrs, .left, .right].find? fun m => m.byte = byte

theorem ofByte_byte (m : Move) : Move.ofByte m.byte = some m := by
  cases m <;> rfl

/-- The move that `RXData` still asks for: none once a move function has been entered. -/
def Board.asks (b : Board) : Option Move :=
  match b.pc with
  | .test | .delay _ | .clearFlag | .cmp _ => Move.ofByte b.RXData
  | .drive _ _ | .wait _ _ | .off _ | .clearRX => none

/-- **Step rule, main loop.** What is entered, and what is still asked for then, has been asked
    for. -/
theorem asks_main (b : Board) :
    (b.enters.toList ++ (mainStep b).asks.toList).Sublist b.asks.toList := by
  cases hpc : b.pc with
  | test =>
    by_cases hrx : b.RXData ≠ 0
    · simp [Board.enters, Board.asks, mainStep, hpc, hrx]
    · simp [Board.enters, Board.asks, mainStep, hpc, hrx]
  | delay n =>
    by_cases hn : n < UINT16_MAX
    · simp [Board.enters, Board.asks, mainStep, hpc, hn]
    · simp [Board.enters, Board.asks, mainStep, hpc, hn]
  | clearFlag => simp [Board.enters, Board.asks, mainStep, hpc]
  | cmp m =>
    by_cases hm : b.RXData = m.byte
    · simp [Board.enters, Board.asks, mainStep, hpc, hm, ofByte_byte]
    · cases m <;> simp [Board.enters, Board.asks, mainStep, hpc, hm, Move.orElse]
  | drive m todo => cases todo <;> simp [Board.enters, Board.asks, mainStep, hpc]
  | wait loop2 duration =>
    simp only [Board.enters, Board.asks, mainStep, hpc]
    split_ifs <;> exact List.Sublist.refl []
  | off todo => cases todo <;> simp [Board.enters, Board.asks, mainStep, hpc]
  | clearRX => simp [Board.enters, Board.asks, mainStep, hpc]; rfl

/-- **Step rule, interrupt.** Only the byte received is asked for. -/
theorem asks_rx (byte : UInt8) (b : Board) :
    (eusciA0Isr byte b).asks.toList.Sublist (Move.ofByte byte).toList := by
  obtain ⟨hrx, hpc⟩ := rxData_isr byte b
  unfold Board.asks
  rw [hpc, hrx]
  cases b.pc with
  | test | delay | clearFlag | cmp => exact List.Sublist.refl _
  | drive | wait | off | clearRX => exact List.nil_sublist _

/-- The moves made, and the one still asked for, are among `asked`, in their order. -/
def Board.Within (b : Board) (made asked : List Move) : Prop :=
  (made ++ b.asks.toList).Sublist asked

variable {made asked asked' : List Move}

theorem Board.Within.sublist (h : b.Within made asked) : made.Sublist asked :=
  (List.sublist_append_left _ _).trans h

theorem Board.Within.mono (h : b.Within made asked) (hsub : asked.Sublist asked') :
    b.Within made asked' :=
  List.Sublist.trans h hsub

/-- A statement of the main loop makes a move, or stops asking for one. -/
theorem within_main (h : b.Within made asked) :
    (mainStep b).Within (made ++ b.enters.toList) asked := by
  have hmade : ((made ++ b.enters.toList) ++ (mainStep b).asks.toList).Sublist
      (made ++ b.asks.toList) := by
    rw [List.append_assoc]
    exact (asks_main b).append_left made
  exact hmade.trans h

/-- A byte is asked for, and the one before it no longer. -/
theorem within_rx (h : b.Within made asked) (byte : UInt8) :
    (eusciA0Isr byte b).Within made (asked ++ [byte].filterMap Move.ofByte) := by
  have hnew : [byte].filterMap Move.ofByte = (Move.ofByte byte).toList := by
    cases h : Move.ofByte byte <;> simp [h]
  rw [hnew]
  exact h.sublist.append (asks_rx byte b)

/-! ### Runs -/

/-- The board, the bytes received and the moves made. -/
structure Log where
  board : Board
  received : List UInt8
  made : List Move

def logStep (w : Log) (e : Event) : Log where
  board := step w.board e
  received := match e with
    | .rx byte => w.received ++ [byte]
    | .main => w.received
  made := match e with
    | .rx _ => w.made
    | .main => w.made ++ w.board.enters.toList

/-- What has been made, and what is still asked for, has been received. -/
def Log.Sound (w : Log) : Prop := w.board.Within w.made (w.received.filterMap Move.ofByte)

theorem sound_logStep {w : Log} (hw : w.Sound) (e : Event) : (logStep w e).Sound := by
  cases e with
  | main => exact within_main hw
  | rx byte =>
    show (eusciA0Isr byte w.board).Within w.made ((w.received ++ [byte]).filterMap Move.ofByte)
    rw [List.filterMap_append]
    exact within_rx hw byte

/-- **The moves made.**  Whatever the bytes and wherever the interrupt falls, the moves that the
    board has made are among those that the bytes received ask for, each made once at most, and
    in their order. -/
theorem moves_sublist (r : Registers) (es : List Event) :
    (run logStep ⟨boot r, [], []⟩ es).made.Sublist
      ((run logStep ⟨boot r, [], []⟩ es).received.filterMap Move.ofByte) := by
  have hsound : (run logStep ⟨boot r, [], []⟩ es).Sound :=
    run_invariant (I := Log.Sound) (fun _ e hw => sound_logStep hw e) es _ (List.Sublist.refl [])
  exact hsound.sublist

end Wheelson.Motor
