import Wheelson.Lib.Scan
import Wheelson.Tcp.CmdClient

namespace Wheelson.Tcp

/-!
# Damaged updates

`pdu.get_buff` assigns its fields one by one and says nothing of a list without start bytes;
`update_process` puts its one object on `out_fifo` after every call that does not raise.

* `decode` — the object that the bytes after the first start bytes stand for, if there are
  enough of them; `getBuff_eq` says what `get_buff` does in terms of these bytes.
* `allOrNothing_iff` — one call sets all fields or none exactly when it does not stop among
  the first three, or stops there with nothing changed.
* `honestUpdates_iff` — the iterations put what they decode exactly when no list lacks the start
  bytes.
-/

open Ipc Scan

variable {self rx_pdu : PyObj} {bytes rest : List UInt8}

/-! ### What a list says -/

/-- The bytes after the first start bytes. -/
def afterStart (bytes : List UInt8) : Option (List UInt8) :=
  (cutPair PDU_START_BYTE0 PDU_START_BYTE1 bytes).map Prod.snd

/-- The object whose fields are all set from these bytes. -/
def decode (bytes : List UInt8) : Option PyObj :=
  match afterStart bytes with
  | some (cmd :: x :: y :: msg_len :: msg) => some ⟨cmd.toNat, x.toNat, y.toNat, msg_len.toNat, msg⟩
  | _ => none

/-- The first start bytes, with the byte before the list. -/
theorem scan_eq (self : PyObj) (temp : UInt8) (bytes : List UInt8) :
    self.scan temp bytes = match afterStart (temp :: bytes) with
      | none => (self, false)
      | some rest => self.assign rest := by
  induction bytes generalizing temp with
  | nil => rfl
  | cons b bytes ih =>
    unfold PyObj.scan afterStart
    rw [cutPair]
    split
    · rfl
    · rw [ih b, afterStart, Option.map_map]
      cases cutPair PDU_START_BYTE0 PDU_START_BYTE1 (b :: bytes) <;> rfl

/-- `get_buff` assigns from the bytes after the first start bytes. -/
theorem getBuff_eq (self : PyObj) (bytes : List UInt8) :
    self.getBuff bytes = match afterStart bytes with
      | none => (self, false)
      | some rest => self.assign rest := by
  have hzero : afterStart (0 :: bytes) = afterStart bytes := by
    cases bytes with
    | nil => rfl
    | cons b bytes =>
      unfold afterStart
      rw [cutPair, if_neg (by rintro ⟨h, -⟩; cases h), Option.map_map]
      rfl
  rw [PyObj.getBuff, scan_eq, hzero]

theorem getBuff_none (h : afterStart bytes = none) : self.getBuff bytes = (self, false) := by
  rw [getBuff_eq, h]

theorem getBuff_some (h : afterStart bytes = some rest) :
    self.getBuff bytes = self.assign rest := by
  rw [getBuff_eq, h]

/-! ### All fields or none -/

/-- One call sets all fields from the bytes after the first start bytes, or leaves the object
    as it was. -/
def AllOrNothing (self : PyObj) (bytes : List UInt8) : Prop :=
  decode bytes = some (self.getBuff bytes).1 ∨ (self.getBuff bytes).1 = self

instance (self : PyObj) (bytes : List UInt8) : Decidable (AllOrNothing self bytes) :=
  inferInstanceAs (Decidable (_ ∨ _))

/-- The bytes after the start bytes are enough, or say what the first fields say already. -/
def Harmless (self : PyObj) (rest : List UInt8) : Prop :=
  4 ≤ rest.length ∨ rest.map (fun b => some b.toNat) <+: [self.cmd, self.x, self.y]

/-- A call that raises on bytes that are not enough. -/
theorem assign_short (self : PyObj) (h : rest.length < 4) :
    (self.assign rest).2 = true ∧ ((self.assign rest).1 = self ↔ Harmless self rest) := by
  obtain ⟨cmd, x, y, msg_len, msg⟩ := self
  match rest, h with
  | [], _ => simp [PyObj.assign, Harmless]
  | [_], _ => simp [PyObj.assign, Harmless]
  | [_, _], _ => simp [PyObj.assign, Harmless]
  | [_, _, _], _ => simp [PyObj.assign, Harmless]

theorem decode_short (h : afterStart bytes = some rest) (hlen : rest.length < 4) :
    decode bytes = none := by
  unfold decode
  rw [h]
  match rest, hlen with
  | [], _ | [_], _ | [_, _], _ | [_, _, _], _ => rfl

theorem assign_full (self : PyObj) (h : afterStart bytes = some rest) (hlen : 4 ≤ rest.length) :
    (self.assign rest).2 = false ∧ decode bytes = some (self.assign rest).1 := by
  unfold decode
  rw [h]
  match rest, hlen with
  | _ :: _ :: _ :: _ :: _, _ => exact ⟨rfl, rfl⟩

/-- **All fields or none.**  Exactly when after the first start bytes, if there are any, come
    enough bytes, or none but those that the first fields hold already. -/
theorem allOrNothing_iff (self : PyObj) (bytes : List UInt8) :
    AllOrNothing self bytes ↔ ∀ rest, afterStart bytes = some rest → Harmless self rest := by
  unfold AllOrNothing
  cases h : afterStart bytes with
  | none =>
    rw [getBuff_none h]
    simp
  | some rest =>
    rw [getBuff_some h]
    simp only [Option.some.injEq, forall_eq']
    rcases lt_or_ge rest.length 4 with hlen | hlen
    · rw [decode_short h hlen, ← (assign_short self hlen).2]
      simp
    · exact iff_of_true (.inl (assign_full self h hlen).2) (.inl hlen)

/-- **A frame cut short** changes the command and nothing else. -/
theorem torn_update : ¬ ∀ self bytes, AllOrNothing self bytes := by
  intro h
  have htorn := h .new [PDU_START_BYTE0, PDU_START_BYTE1, PDU_UPDATE]
  revert htorn
  decide

/-! ### What is put on `out_fifo` -/

/-- The object after these calls. -/
def PyObj.after (rx_pdu : PyObj) (datas : List (List UInt8)) : PyObj :=
  datas.foldl (fun rx_pdu data => (rx_pdu.getBuff data).1) rx_pdu

/-- One more iteration. -/
theorem updateProcess_concat (rx_pdu : PyObj) (datas : List (List UInt8)) (data : List UInt8) :
    updateProcess rx_pdu (datas ++ [data]) = updateProcess rx_pdu datas ++
      updateProcess (rx_pdu.after datas) [data] := by
  induction datas generalizing rx_pdu with
  | nil => rfl
  | cons d datas ih =>
    simp only [List.cons_append, updateProcess]
    split
    · exact ih _
    · exact congrArg _ (ih _)

/-- What one iteration puts, against what it should. -/
theorem put_eq_decode_iff (self : PyObj) (data : List UInt8) :
    updateProcess self [data] = (decode data).toList ↔ (afterStart data).isSome := by
  simp only [updateProcess]
  cases h : afterStart data with
  | none =>
    rw [getBuff_none h, decode, h]
    simp
  | some rest =>
    rw [getBuff_some h]
    refine iff_of_true ?_ rfl
    rcases lt_or_ge rest.length 4 with hlen | hlen
    · rw [decode_short h hlen, if_pos (assign_short self hlen).1]
      rfl
    · obtain ⟨hok, hdecode⟩ := assign_full self h hlen
      rw [hdecode, if_neg (by rw [hok]; exact Bool.false_ne_true)]
      rfl

/-- Every iteration puts the object that its own list stands for, and nothing if there is none. -/
def HonestUpdates (rx_pdu : PyObj) (datas : List (List UInt8)) : Prop :=
  ∀ before data, before ++ [data] <+: datas → updateProcess rx_pdu (before ++ [data]) =
    updateProcess rx_pdu before ++ (decode data).toList

/-- **No update is repeated or invented** exactly when every list holds the start bytes. -/
theorem honestUpdates_iff (rx_pdu : PyObj) (datas : List (List UInt8)) :
    HonestUpdates rx_pdu datas ↔ ∀ data ∈ datas, (afterStart data).isSome := by
  have hround (before : List (List UInt8)) (data : List UInt8) :
      updateProcess rx_pdu (before ++ [data]) =
        updateProcess rx_pdu before ++ (decode data).toList ↔ (afterStart data).isSome := by
    rw [updateProcess_concat, List.append_cancel_left_eq, put_eq_decode_iff]
  constructor
  · intro h data hmem
    obtain ⟨before, post, rfl⟩ := List.append_of_mem hmem
    exact (hround before data).mp (h before data ⟨post, by simp⟩)
  · intro h before data hpre
    apply (hround before data).mpr
    apply h
    exact hpre.subset (List.mem_append_right _ (List.mem_singleton_self _))

/-- **An update is repeated** when the connection fails. -/
theorem repeated_update : ¬ ∀ datas, HonestUpdates .new datas := by
  intro h
  have hrepeat := h [[PDU_START_BYTE0, PDU_START_BYTE1, PDU_UPDATE, 1, 2, 0], []]
    [[PDU_START_BYTE0, PDU_START_BYTE1, PDU_UPDATE, 1, 2, 0]] [] List.prefix_rfl
  revert hrepeat
  decide

end Wheelson.Tcp
