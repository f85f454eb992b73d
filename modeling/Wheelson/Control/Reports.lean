import Wheelson.Control.Journey

namespace Wheelson.Control

/-!
# What the robot reports

`controlThread` and `sensorThread` put their messages into `tx_pdu_fifo_g`, and `updateTCP`
takes them from it.

* `OutPdu.toPdu` — a message as the struct that is put, and `OutPdu.Fits`, that its text does
  not overflow `msg`.
* `Robot` — `controlThread` beside `sensorThread`, whose message waits between its
  `get_position` and its `pdu_fifo_put`.
-/

open Machine Ipc

variable {s s' : Sys} {a : Act} {junk : Pos}

/-! ### A message -/

/-- The bytes of the text. -/
def OutPdu.text (o : OutPdu) : List UInt8 := o.msg.toList.map fun c => UInt8.ofNat c.toNat

/-- `out_pdu.msg` once `sprintf` has written the text and a NUL over what the stack held. -/
def OutPdu.chars (stack : List.Vector UInt8 32) (o : OutPdu) : List.Vector UInt8 32 :=
  ⟨(o.text ++ 0 :: stack.toList.drop (o.text.length + 1)).take 32, by simp; omega⟩

/-- The struct, with `msg_len` as `strlen` counts it. -/
def OutPdu.toPdu (stack : List.Vector UInt8 32) (o : OutPdu) : Pdu where
  cmd := o.cmd
  x := o.x
  y := o.y
  msg_len := UInt8.ofNat (cstr (o.chars stack).toList).length
  msg := o.chars stack

/-- The position that a message reports. -/
def OutPdu.pos (o : OutPdu) : Pos := ⟨o.x, o.y⟩

/-- An ASCII text without NUL, of at most `n` characters. -/
structure Ascii (n : ℕ) (msg : String) : Prop where
  length : msg.toList.length ≤ n
  ascii : ∀ c ∈ msg.toList, c.toNat ≠ 0 ∧ c.toNat < 128

/-- The text leaves room for its NUL. -/
def OutPdu.Fits (o : OutPdu) : Prop := Ascii 31 o.msg

/-- The PDU reports a position: it is a `PDU_UPDATE` or a `PDU_BLOCK`. -/
def OutPdu.Located (o : OutPdu) : Prop := o.cmd = PDU_UPDATE ∨ o.cmd = PDU_BLOCK

/-- What fits is the string in the struct. -/
theorem cstr_chars {o : OutPdu} (ho : o.Fits) (stack : List.Vector UInt8 32) :
    cstr (o.chars stack).toList = o.text := by
  have hlen : o.text.length ≤ 31 := by
    rw [OutPdu.text, List.length_map]
    exact ho.length
  have hnul : ∀ b ∈ o.text, decide (b ≠ 0) = true := by
    intro b hb
    obtain ⟨c, hc, rfl⟩ := List.mem_map.mp hb
    have hascii := ho.ascii c hc
    rw [decide_eq_true_eq, ← UInt8.toNat_inj.ne,
      UInt8.toNat_ofNat_of_lt' (by show c.toNat < 256; omega)]
    exact hascii.1
  have hrest (rest : List UInt8) :
      (o.text ++ 0 :: rest).take 32 = o.text ++ 0 :: rest.take (31 - o.text.length) := by
    rw [List.take_append, List.take_of_length_le (by omega),
      show 32 - o.text.length = 31 - o.text.length + 1 by omega, List.take_succ_cons]
  show ((o.text ++ 0 :: _).take 32).takeWhile _ = _
  rw [hrest, List.takeWhile_append_of_pos hnul, List.takeWhile_cons_of_neg (by simp),
    List.append_nil]

/-- Texts add up. -/
theorem Ascii.append {m n : ℕ} {msg msg' : String} (h : Ascii m msg) (h' : Ascii n msg') :
    Ascii (m + n) (msg ++ msg') := by
  refine ⟨?_, ?_⟩
  · have hm := h.length
    have hn := h'.length
    rw [String.toList_append, List.length_append]
    omega
  · rw [String.toList_append]
    exact List.forall_mem_append.mpr ⟨h.ascii, h'.ascii⟩

/-- A bound may be raised. -/
theorem Ascii.mono {m n : ℕ} {msg : String} (h : Ascii m msg) (hle : m ≤ n) : Ascii n msg :=
  ⟨h.length.trans hle, h.ascii⟩

/-- The decimal digits of a byte. -/
theorem ascii_byte (n : UInt8) : Ascii 3 (toString n.toNat) := by
  have hlist : (toString n.toNat).toList = Nat.toDigits 10 n.toNat := Nat.toList_repr
  refine ⟨?_, fun c hc => ?_⟩
  · rw [hlist, Nat.length_toDigits_le_iff (by decide) (by decide)]
    exact lt_trans n.toNat_lt (by decide)
  · rw [hlist] at hc
    have hdigit := Char.isDigit_iff_toNat.mp
      (Nat.isDigit_of_mem_toDigits (by decide) (by decide) hc)
    have hzero : '0'.toNat = 48 := rfl
    have hnine : '9'.toNat = 57 := rfl
    omega

/-- Two coordinates of three digits, and what stands around them. -/
theorem ascii_text (pos : Pos) : Ascii 12 pos.text :=
  have hopen : Ascii 1 "\x7b" := ⟨by simp, by simp⟩
  have hcomma : Ascii 3 " , " := ⟨by simp, by simp⟩
  have hclose : Ascii 2 "\x7d " := ⟨by simp, by simp⟩
  (((hopen.append (ascii_byte pos.x)).append hcomma).append (ascii_byte pos.y)).append hclose

/-- Every message of `controlThread` fits, and reports the position recorded last. -/
theorem out_fits (s : Sys) (c : Call) :
    (c.out s).Fits ∧ (c.out s).Located ∧ (c.out s).pos = s.position_g := by
  have hpos : Ascii 24 ("POS UPDATE: " ++ s.position_g.text) :=
    have htext : Ascii 12 "POS UPDATE: " := ⟨by simp, by simp⟩
    htext.append (ascii_text s.position_g)
  cases c with
  | waitEnd | loopEnd => exact ⟨hpos.mono (by decide), .inl rfl, rfl⟩
  | turning =>
    refine ⟨?_, .inl rfl, rfl⟩
    show Ascii 31 (if s.rot.turn_left then "TURNING LEFT" else "TURNING RIGHT")
    split
    · exact ⟨by simp, by simp⟩
    · exact ⟨by simp, by simp⟩
  | forward | finished =>
    exact ⟨⟨by simp [Call.out, sendMsg], by simp [Call.out, sendMsg]⟩, .inl rfl, rfl⟩
  | blocked =>
    have htext : Ascii 13 "ROBOT BLOCK: " := ⟨by simp, by simp⟩
    exact ⟨(htext.append (ascii_text s.position_g)).mono (by decide), .inr rfl, rfl⟩

/-! ### Messages of a statement -/

/-- The message that a statement puts. -/
theorem tx_stmt (h : Stmt junk s s') :
    (∃ c o, s.pc = .put c o ∧ s'.tx_pdu_fifo_g = s.tx_pdu_fifo_g ++ [o] ∧ s'.pc = c.ret) ∨
      s'.tx_pdu_fifo_g = s.tx_pdu_fifo_g ∧ ∀ c o, s.pc ≠ .put c o := by
  cases h with
  | put hpc => exact .inl ⟨_, _, hpc, rfl, rfl⟩
  | finish hpc => exact .inl ⟨_, _, hpc, rfl, rfl⟩
  | exeBlocked hpc =>
    refine .inr ⟨rfl, fun c o hput => ?_⟩
    rcases hpc with hpc | hpc <;> cases hpc.symm.trans hput
  | _ hpc => exact .inr ⟨rfl, fun c o hput => by cases hpc.symm.trans hput⟩

/-- A message that waits to be put has just been written. -/
theorem msg_stmt (h : Stmt junk s s') {c : Call} {o : OutPdu} (hpc' : s'.pc = .put c o) :
    s.pc = .msg c ∧ o = c.out s := by
  cases h with
  | msg hpc =>
    cases hpc'
    exact ⟨hpc, rfl⟩
  | @put c _ hpc => cases c <;> cases hpc'
  | _ => cases hpc'

/-- A message is built from the position as it is then. -/
theorem write_stmt (h : Stmt junk s s') {c : Call} (hmsg : s.pc = .msg c) :
    s'.pc = .put c (c.out s) := by
  cases h with
  | msg hpc =>
    cases hmsg.symm.trans hpc
    rfl
  | exeBlocked hpc => rcases hpc with hpc | hpc <;> cases hmsg.symm.trans hpc
  | _ hpc => cases hmsg.symm.trans hpc

/-! ### The two threads that report -/

/-- `controlThread` beside `sensorThread` and `updateTCP`. -/
structure Robot where
  sys : Sys
  /-- `out_pdu` of `sensorThread`, between `get_position` and `pdu_fifo_put`. -/
  out_pdu : Option OutPdu
  /-- What `updateTCP` has taken. -/
  taken : List OutPdu

/-- A step of the robot. -/
inductive RobotAct
  | act (a : Act)
  /-- `send_heading` of `sensorThread` up to `pdu_fifo_put`; `num` is what `%.1f` makes of a
      heading, which lies between 0 and 360. -/
  | heading (num : String) (h : Ascii 5 num)
  /-- `pdu_fifo_put` of `sensorThread`. -/
  | put

/-- The message of a heading, from the text `num` of it. -/
def sendHeading (num : String) (pos : Pos) : OutPdu := sendMsg ("HEADING: " ++ num) pos

/-- What `updateTCP` takes. -/
def takes (s : Sys) : Act → List OutPdu
  | .drain => s.tx_pdu_fifo_g.take 1
  | .thread _ | .edge | .command _ | .sensor _ => []

/-- One step, over the machine `m` of `controlThread`. -/
def robotStep (m : Sys → Act → Option Sys) (r : Robot) : RobotAct → Option Robot
  | .act a =>
    match a with
    | .sensor _ => none
    | a => (m r.sys a).map fun s => { r with sys := s, taken := r.taken ++ takes r.sys a }
  | .heading num _ =>
    match r.out_pdu with
    | none => some { r with out_pdu := some (sendHeading num r.sys.position_g) }
    | some _ => none
  | .put => r.out_pdu.bind fun out_pdu =>
    (m r.sys (.sensor out_pdu)).map fun s => { r with sys := s, out_pdu := none }

/-- No message has been taken, and `sensorThread` has none in hand. -/
def robotBoot (pin : Bool) : Robot := ⟨boot pin, none, []⟩

/-- The messages put so far, in order. -/
def Robot.sent (r : Robot) : List OutPdu := r.taken ++ r.sys.tx_pdu_fifo_g

/-- The steps of the robot, with their results written out. -/
inductive RobotStep (m : Sys → Act → Option Sys) (r : Robot) : RobotAct → Robot → Prop
  | act {a : Act} {s' : Sys} (h : m r.sys a = some s') (ha : ∀ o, a ≠ .sensor o) :
      RobotStep m r (.act a) { r with sys := s', taken := r.taken ++ takes r.sys a }
  | heading {num : String} (h : Ascii 5 num) :
      RobotStep m r (.heading num h) { r with out_pdu := some (sendHeading num r.sys.position_g) }
  | put {o : OutPdu} {s' : Sys} (hhold : r.out_pdu = some o) (h : m r.sys (.sensor o) = some s') :
      RobotStep m r .put { r with sys := s', out_pdu := none }

variable {m : Sys → Act → Option Sys} {r r' : Robot} {e : RobotAct}

/-- **Inversion.** -/
theorem robotStep_cases (h : robotStep m r e = some r') : RobotStep m r e r' := by
  cases e with
  | act a =>
    cases a with
    | sensor o => cases h
    | thread | edge | command | drain =>
      obtain ⟨s', hs', rfl⟩ := Option.map_eq_some_iff.mp h
      exact .act hs' fun _ => nofun
  | heading num hnum =>
    simp only [robotStep] at h
    split at h
    · cases h
      exact .heading hnum
    · cases h
  | put =>
    obtain ⟨o, hhold, h⟩ := Option.bind_eq_some_iff.mp h
    obtain ⟨s', hs', rfl⟩ := Option.map_eq_some_iff.mp h
    exact .put hhold hs'

/-! ### What is reported -/

/-- A heading message of `sensorThread`. -/
def OutPdu.IsHeading (o : OutPdu) : Prop := "HEADING".toList <+: o.msg.toList

instance : DecidablePred OutPdu.IsHeading := fun _ => inferInstanceAs (Decidable (_ <+: _))

/-- A message that fits and reports a position of the run so far. -/
structure Sys.Saw (s : Sys) (o : OutPdu) : Prop where
  fits : o.Fits
  located : o.Located
  pos : o.pos ∈ origin :: s.records

/-- The position that `controlThread` has reported last. -/
def Robot.reported (r : Robot) : Pos :=
  ((r.sent.filter fun o => ¬ o.IsHeading).map OutPdu.pos).getLastD origin

/-- `send_new_pos` at the end of an iteration, which follows `change_position`. -/
def Pc.Pending : Pc → Prop
  | .msg .loopEnd | .put .loopEnd _ => True
  | _ => False

structure Robot.Reporting (r : Robot) : Prop where
  position : r.sys.position_g = r.sys.records.getLastD origin
  sent : ∀ o ∈ r.sent, r.sys.Saw o
  held : ∀ o, r.out_pdu = some o → r.sys.Saw o ∧ o.IsHeading
  message : ∀ c o, r.sys.pc = .put c o → r.sys.Saw o ∧ ¬ o.IsHeading ∧ o.pos = r.sys.position_g
  current : r.sys.pc.Pending ∨ r.reported = r.sys.position_g

/-- `controlThread` sends no heading. -/
theorem not_isHeading_out (s : Sys) (c : Call) : ¬ (c.out s).IsHeading := by
  unfold OutPdu.IsHeading
  cases c with
  | turning =>
    show ¬ _ <+: (if s.rot.turn_left then "TURNING LEFT" else "TURNING RIGHT").toList
    split <;> simp
  | waitEnd | loopEnd | forward | finished | blocked =>
    simp [Call.out, sendNewPos, sendMsg, sendBlockedMsg]

/-- What has been recorded stays recorded. -/
theorem Sys.Saw.mono {o : OutPdu} (h : s.Saw o) (hrecords : s.records <+: s'.records) :
    s'.Saw o where
  fits := h.fits
  located := h.located
  pos := by
    have hpos := h.pos
    rw [List.mem_cons] at hpos ⊢
    exact hpos.imp_right (hrecords.subset ·)

/-- A statement only adds to the positions recorded. -/
theorem records_stmt (h : Stmt junk s s') : s.records <+: s'.records := by
  rw [Sys.records, Sys.records, trace_stmt h, List.filterMap_append]
  exact List.prefix_append _ _

/-- What `controlThread` writes, it writes of the position recorded last. -/
theorem saw_out (hposition : s.position_g = s.records.getLastD origin) (c : Call) :
    s.Saw (c.out s) where
  fits := (out_fits s c).1
  located := (out_fits s c).2.1
  pos := by
    rw [(out_fits s c).2.2, hposition]
    exact List.getLastD_mem_cons ..

/-- `sensorThread` sends nothing else. -/
theorem isHeading_sendHeading (num : String) (pos : Pos) : (sendHeading num pos).IsHeading := by
  simp [OutPdu.IsHeading, sendHeading, sendMsg]

/-- `sensorThread` writes of that position, too. -/
theorem saw_heading {num : String} (hposition : s.position_g = s.records.getLastD origin)
    (hnum : Ascii 5 num) : s.Saw (sendHeading num s.position_g) where
  fits := by
    have htext : Ascii 9 "HEADING: " := ⟨by simp, by simp⟩
    exact (htext.append hnum).mono (by decide)
  located := .inl rfl
  pos := by
    show s.position_g ∈ _
    rw [hposition]
    exact List.getLastD_mem_cons ..

/-- The report after more messages: the last one that is no heading, or the one before. -/
theorem reported_of_sent {sent : List OutPdu} (h : r'.sent = r.sent ++ sent) : r'.reported =
    ((sent.filter fun o => ¬ o.IsHeading).map OutPdu.pos).getLastD r.reported := by
  rw [Robot.reported, h, List.filter_append, List.map_append]
  simp only [Robot.reported, List.getLastD_eq_getLast?, List.getLast?_append, Option.getD_or]

/-- Without a heading at the end, the message sent last is what `controlThread` has reported. -/
theorem reported_of_last (h : ∀ o, r.sent.getLast? = some o → ¬ o.IsHeading) :
    r.reported = (r.sent.map OutPdu.pos).getLastD origin := by
  rcases List.eq_nil_or_concat r.sent with hnil | ⟨sent, o, hconcat⟩
  · rw [Robot.reported, hnil]
    rfl
  · rw [List.concat_eq_append] at hconcat
    have ho : ¬ o.IsHeading := h o (by rw [hconcat, List.getLast?_concat])
    rw [Robot.reported, hconcat]
    simp [ho]

/-- Where the thread, the position and the messages stay, so does what is reported. -/
theorem reporting_of_same (hr : r.Reporting) (hsent : r'.sent = r.sent)
    (hheld : r'.out_pdu = r.out_pdu) (hrecords : r'.sys.records = r.sys.records)
    (hposition : r'.sys.position_g = r.sys.position_g) (hpc : r'.sys.pc = r.sys.pc) :
    r'.Reporting := by
  have hsaw {o : OutPdu} (h : r.sys.Saw o) : r'.sys.Saw o := h.mono (hrecords ▸ List.prefix_rfl)
  refine ⟨?_, ?_, ?_, ?_, ?_⟩
  · rw [hposition, hrecords, hr.position]
  · rw [hsent]
    exact fun o ho => hsaw (hr.sent o ho)
  · rw [hheld]
    exact fun o ho => (hr.held o ho).imp_left hsaw
  · rw [hpc, hposition]
    exact fun c o h => (hr.message c o h).imp_left hsaw
  · rw [hpc, hposition, Robot.reported, hsent]
    exact hr.current

/-- A statement of `controlThread`. -/
theorem reporting_stmt (hr : r.Reporting) (h : Stmt junk r.sys s') :
    ({ r with sys := s', taken := r.taken ++ [] } : Robot).Reporting := by
  have hrecords := records_stmt h
  have hsaw {o : OutPdu} (ho : r.sys.Saw o) : s'.Saw o := ho.mono hrecords
  have hposition := position_recorded h hr.position
  have hmessage (c : Call) (o : OutPdu) (hpc : s'.pc = .put c o) :
      s'.Saw o ∧ ¬ o.IsHeading ∧ o.pos = s'.position_g := by
    obtain ⟨hmsg, rfl⟩ := msg_stmt h hpc
    have hstay := (position_stmt h).resolve_right fun hchange => by cases hmsg.symm.trans hchange.1
    refine ⟨hsaw (saw_out hr.position c), not_isHeading_out _ c, ?_⟩
    rw [(out_fits r.sys c).2.2, hstay]
  rcases tx_stmt h with ⟨c, o, hpc, htx, hret⟩ | ⟨htx, hput⟩
  · -- the message is put
    obtain ⟨hsaw', hheading, hpos⟩ := hr.message c o hpc
    have hsent : Robot.sent { r with sys := s', taken := r.taken ++ [] } = r.sent ++ [o] := by
      rw [Robot.sent, Robot.sent, htx, List.append_nil, List.append_assoc]
    have hstay := (position_stmt h).resolve_right fun hchange => by cases hpc.symm.trans hchange.1
    refine ⟨hposition, ?_, fun o ho => (hr.held o ho).imp_left hsaw, hmessage, .inr ?_⟩
    · rw [hsent]
      exact List.forall_mem_append.mpr ⟨fun o ho => hsaw (hr.sent o ho), by simpa using hsaw hsaw'⟩
    · rw [reported_of_sent hsent]
      simp [hheading, hpos, hstay]
  · have hsent : Robot.sent { r with sys := s', taken := r.taken ++ [] } = r.sent := by
      rw [Robot.sent, Robot.sent, htx, List.append_nil]
    refine ⟨hposition, ?_, fun o ho => (hr.held o ho).imp_left hsaw, hmessage, ?_⟩
    · rw [hsent]
      exact fun o ho => hsaw (hr.sent o ho)
    by_cases hchange : r.sys.pc = .exe .change
    · rw [change_stmt h hchange]
      exact .inl trivial
    have hstay := (position_stmt h).resolve_right fun hpos => hchange hpos.1
    rcases hr.current with hpending | hcurrent
    · -- the report of the new position has not been put yet
      left
      cases hpc : r.sys.pc with
      | msg c =>
        rw [hpc] at hpending
        cases c with
        | loopEnd =>
          rw [write_stmt h hpc]
          trivial
        | _ => exact hpending.elim
      | put c o => exact absurd hpc (hput c o)
      | _ =>
        rw [hpc] at hpending
        exact hpending.elim
    · right
      rw [hstay, ← hcurrent, Robot.reported, Robot.reported, hsent]

/-- `sensorThread` puts its message. -/
theorem reporting_put {o : OutPdu} (hr : r.Reporting) (hsaw : r.sys.Saw o)
    (hheading : o.IsHeading) : Robot.Reporting { r with
      sys := { r.sys with tx_pdu_fifo_g := r.sys.tx_pdu_fifo_g ++ [o] }
      out_pdu := none } := by
  set r' : Robot := { r with
    sys := { r.sys with tx_pdu_fifo_g := r.sys.tx_pdu_fifo_g ++ [o] }
    out_pdu := none }
  have hsent : r'.sent = r.sent ++ [o] := (List.append_assoc ..).symm
  have hmono {o : OutPdu} (h : r.sys.Saw o) : r'.sys.Saw o := h.mono List.prefix_rfl
  refine ⟨hr.position, ?_, nofun, fun c o h => (hr.message c o h).imp_left hmono, ?_⟩
  · rw [hsent]
    exact List.forall_mem_append.mpr ⟨fun o ho => hmono (hr.sent o ho), by simpa using hmono hsaw⟩
  · rw [reported_of_sent hsent]
    simpa [hheading] using hr.current

/-- A falling edge records no position. -/
theorem records_fall (s : Sys) : s.fall.records = s.records := by
  simp [Sys.records, Sys.fall, Sys.log, Obs.recorded]

/-- Nor does a rising one. -/
theorem records_rise (s : Sys) : s.rise.records = s.records := by
  simp [Sys.records, Sys.rise, sendMotorCmd, Sys.log, Obs.recorded]

/-- **Step rule.** -/
theorem reporting_step (hm : ∀ s a s', m s a = some s' → step s a = some s') (hr : r.Reporting)
    (h : RobotStep m r e r') : r'.Reporting := by
  cases h with
  | @act a s' h ha =>
    cases step_cases (hm _ _ _ h) with
    | thread h => exact reporting_stmt hr h
    | fall =>
      refine reporting_of_same hr ?_ rfl (records_fall r.sys) rfl rfl
      simp [Robot.sent, takes, Sys.fall, Sys.log]
    | rise =>
      refine reporting_of_same hr ?_ rfl (records_rise r.sys) rfl rfl
      simp [Robot.sent, takes, Sys.rise, sendMotorCmd, Sys.log]
    | command => exact reporting_of_same hr (by simp [Robot.sent, takes]) rfl rfl rfl rfl
    | sensor => exact absurd rfl (ha _)
    | drain htx => exact reporting_of_same hr (by simp [Robot.sent, takes, htx]) rfl rfl rfl rfl
  | @heading num hnum =>
    refine ⟨hr.position, hr.sent, ?_, hr.message, hr.current⟩
    rintro o ⟨rfl⟩
    exact ⟨saw_heading hr.position hnum, isHeading_sendHeading num _⟩
  | @put o s' hheld h =>
    obtain ⟨hsaw, hheading⟩ := hr.held o hheld
    cases step_cases (hm _ _ _ h) with
    | sensor =>
      exact reporting_put hr hsaw hheading

/-- `controlThread` by itself. -/
theorem reachable_sys {pin : Bool} (h : Reachable (robotStep m) (robotBoot pin) r) :
    Reachable m (boot pin) r.sys := by
  induction h with
  | init => exact .init
  | step _ he ih =>
    cases robotStep_cases he with
    | act hs' => exact ih.step hs'
    | heading => exact ih
    | put _ hs' => exact ih.step hs'

/-- Nothing has been sent, and the robot is at the origin. -/
theorem reporting_boot (pin : Bool) : (robotBoot pin).Reporting :=
  ⟨rfl, nofun, nofun, nofun, .inr rfl⟩

/-- **Run rule.** -/
theorem reporting_reachable (hm : ∀ s a s', m s a = some s' → step s a = some s') {pin : Bool}
    (h : Reachable (robotStep m) (robotBoot pin) r) : r.Reporting :=
  h.invariant (reporting_boot pin) fun _ _ _ hr h => reporting_step hm hr (robotStep_cases h)

/-- **What the client is told.**  In every run of the robot, whatever the commands, the alerts and
    the order of the messages, with headings of at most five characters: every message that is put
    fits its buffer, is a report, and its position is the origin or one that has been recorded; and
    the position that `controlThread` has reported last is the one recorded, but for the time from
    `change_position` to the next report. -/
theorem robot_reports (pin : Bool) (h : Reachable (robotStep step) (robotBoot pin) r) :
    (∀ o ∈ r.sent, o.Fits ∧ o.Located ∧ o.pos ∈ origin :: r.sys.records) ∧
      (r.sys.pc.Pending ∨ r.reported = r.sys.position_g) := by
  have hr := reporting_reachable (fun _ _ _ h => h) h
  exact ⟨fun o ho => ⟨(hr.sent o ho).fits, (hr.sent o ho).located, (hr.sent o ho).pos⟩, hr.current⟩

/-- `sensorThread` reads the position before a step and puts its message after it. -/
def staleRun : Option Robot :=
  exec (robotStep step) (robotBoot false)
    ([.act (.command { Pdu.zeroed with y := 1 }), .heading "12.5" ⟨by simp, by simp⟩]
      ++ List.replicate 35 (.act (.thread ⟨7, 7⟩)) ++ [.act .drain, .put])

theorem robot_reports_stale :
    ∃ r : Robot, Reachable (robotStep step) (robotBoot false) r ∧
      r.sent.map OutPdu.pos = [⟨0, 0⟩, ⟨0, 0⟩, ⟨0, 0⟩, ⟨0, 1⟩, ⟨0, 0⟩] ∧
      (r.sys.pc.Pending ∨ r.reported = r.sys.position_g) :=
  have hrun : staleRun = some (staleRun.get (by decide +kernel)) := (Option.some_get _).symm
  have hr := Reachable.exec _ .init hrun
  ⟨_, hr, by decide +kernel, (robot_reports false hr).2⟩

end Wheelson.Control
