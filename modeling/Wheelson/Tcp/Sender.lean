import Wheelson.Ipc.PduFifo
import Wheelson.Tcp.Update

namespace Wheelson.Tcp

/-!
# Status updates and dropped clients

`updateTCP` takes a PDU from `tx_pdu_fifo_g`, sends it, and looks at what `send` returned only
in the condition of its inner loop.

* `Sender` — the thread in `updateTCP` with the FIFO and the producers of updates;
  `Sender.loop` is the condition of the inner loop.
* `gap_step`, `gap_exec` — a PDU is missed for each failing `send`.
* `undropped_iff` — nothing is lost exactly when no `send` fails.
* `puts_of_kept` — then every PDU put is sent, in hand or in the FIFO.
* `exec_connection` — while it has PDUs, one connection is a run of `updateTCP`.
-/

open Machine Ipc

/-- Where the thread is in `updateTCP`, its server socket listening. -/
inductive SendPc
  | accept
  /-- At the call of `pdu_fifo_get`. -/
  | call
  /-- In `pdu_fifo_get`. -/
  | get
  | send
deriving DecidableEq, Repr

/-- The thread in `updateTCP` and the producers `P` of `tx_pdu_fifo_g`.  `sent` lists the PDUs
    whose `send` succeeded and `wire` the bytes transmitted, over all connections. -/
structure Sender (P : Type*) where
  tx : Sys Pdu P Unit
  pc : SendPc
  bytesSent : ℤ
  out_pdu : Pdu
  sent : List Pdu
  wire : List UInt8

inductive SendAct (P : Type*)
  /-- The thread `p` calls `pdu_fifo_put(&tx_pdu_fifo_g, &input)`. -/
  | callPut (p : P) (input : Pdu)
  /-- The thread `p` goes on in `pdu_fifo_put`. -/
  | put (p : P)
  /-- A client connects. -/
  | accept
  /-- The thread goes on to or in `pdu_fifo_get`. -/
  | get
  /-- `send` returns. -/
  | send (bytesSent : ℤ)

namespace Sender

variable {P : Type*}

/-- The condition of the inner loop, and what follows the loop. -/
def loop (s : Sender P) : Sender P :=
  if 0 ≤ s.bytesSent then { s with pc := .call } else { s with bytesSent := 0, pc := .accept }

/-- `send` has returned: `out_buff` or what it took of it is transmitted unless it failed. -/
def send (s : Sender P) (bytesSent : ℤ) : Sender P :=
  let s := { s with bytesSent := bytesSent }
  if 0 ≤ bytesSent then
    { s with
      sent := s.sent ++ [s.out_pdu]
      wire := s.wire ++ (pduFillBuffer s.out_pdu).toList.take bytesSent.toNat }
  else s

/-- `updateTCP` before its first `accept`, on the FIFO of `main`. -/
def start (buffer : ℕ → Pdu) (size : Capacity) (out_pdu : Pdu) : Sender P where
  tx := Ipc.start buffer size
  pc := .accept
  bytesSent := 0
  out_pdu := out_pdu
  sent := []
  wire := []

/-- The PDU that waits for its `send`. -/
def inHand (s : Sender P) : List Pdu := if s.pc = .send then [s.out_pdu] else []

/-- The PDUs whose `send` succeeded are those taken from the FIFO, in order, but for the one
    that waits. -/
def Kept (s : Sender P) : Prop := s.tx.gets = s.sent ++ s.inHand

/-- The number of PDUs taken that are neither sent nor in hand. -/
def gap (s : Sender P) : ℤ := s.tx.gets.length - s.sent.length - s.inHand.length

variable {s s' : Sender P} {a : SendAct P}

@[simp] theorem loop_tx : s.loop.tx = s.tx := by
  unfold loop
  split <;> rfl

@[simp] theorem loop_sent : s.loop.sent = s.sent := by
  unfold loop
  split <;> rfl

@[simp] theorem loop_wire : s.loop.wire = s.wire := by
  unfold loop
  split <;> rfl

@[simp] theorem inHand_loop : s.loop.inHand = [] := by
  unfold loop inHand
  split <;> rfl

@[simp] theorem send_tx (bytesSent : ℤ) : (s.send bytesSent).tx = s.tx := by
  unfold send
  dsimp only
  split <;> rfl

theorem send_sent (bytesSent : ℤ) :
    (s.send bytesSent).sent = s.sent ++ if 0 ≤ bytesSent then [s.out_pdu] else [] := by
  unfold send
  dsimp only
  split
  · rfl
  · exact (List.append_nil _).symm

theorem send_wire (bytesSent : ℤ) :
    (s.send bytesSent).wire = s.wire ++ if 0 ≤ bytesSent then
      (pduFillBuffer s.out_pdu).toList.take bytesSent.toNat else [] := by
  unfold send
  dsimp only
  split
  · rfl
  · exact (List.append_nil _).symm

theorem gap_of_kept (hs : s.Kept) : s.gap = 0 := by
  unfold gap
  rw [hs, List.length_append]
  omega

variable [DecidableEq P]

/-- One step of one thread. -/
def step (s : Sender P) : SendAct P → Option (Sender P)
  | .callPut p input => (Ipc.step s.tx (.callPut p input)).map fun tx => { s with tx := tx }
  | .put p => (Ipc.step s.tx (.put p)).map fun tx => { s with tx := tx }
  | .accept =>
    match s.pc with
    | .accept => some s.loop
    | _ => none
  | .get =>
    match s.pc with
    | .call => (Ipc.step s.tx (.callGet ())).map fun tx => { s with tx := tx, pc := .get }
    | .get => (Ipc.step s.tx (.get ())).map fun tx =>
        if tx.get () = .outside then
          { s with tx := tx, out_pdu := s.tx.fifo.take.1, pc := .send }
        else { s with tx := tx }
    | _ => none
  | .send bytesSent =>
    match s.pc with
    | .send => some (s.send bytesSent).loop
    | _ => none

/-! ### One step -/

/-- The steps of the machine, with their results written out. -/
inductive Step (s : Sender P) : SendAct P → Sender P → Prop
  | callPut {p : P} {input : Pdu} {tx : Sys Pdu P Unit}
      (htx : Ipc.step s.tx (.callPut p input) = some tx) :
      Step s (.callPut p input) { s with tx := tx }
  | put {p : P} {tx : Sys Pdu P Unit} (htx : Ipc.step s.tx (.put p) = some tx) :
      Step s (.put p) { s with tx := tx }
  | accept (hpc : s.pc = .accept) : Step s .accept s.loop
  | callGet {tx : Sys Pdu P Unit} (hpc : s.pc = .call)
      (htx : Ipc.step s.tx (.callGet ()) = some tx) :
      Step s .get { s with tx := tx, pc := .get }
  | get {tx : Sys Pdu P Unit} (hpc : s.pc = .get) (htx : Ipc.step s.tx (.get ()) = some tx)
      (hin : tx.get () ≠ .outside) :
      Step s .get { s with tx := tx }
  | take {tx : Sys Pdu P Unit} (hpc : s.pc = .get) (htx : Ipc.step s.tx (.get ()) = some tx)
      (hout : tx.get () = .outside) :
      Step s .get { s with tx := tx, out_pdu := s.tx.fifo.take.1, pc := .send }
  | send {bytesSent : ℤ} (hpc : s.pc = .send) : Step s (.send bytesSent) (s.send bytesSent).loop

theorem step_cases (h : step s a = some s') : Step s a s' := by
  cases a with
  | callPut p input =>
    obtain ⟨tx, htx, rfl⟩ := Option.map_eq_some_iff.mp h
    exact .callPut htx
  | put p =>
    obtain ⟨tx, htx, rfl⟩ := Option.map_eq_some_iff.mp h
    exact .put htx
  | accept =>
    simp only [step] at h
    split at h
    · rename_i hpc
      cases h
      exact .accept hpc
    · cases h
  | get =>
    simp only [step] at h
    split at h
    · rename_i hpc
      obtain ⟨tx, htx, rfl⟩ := Option.map_eq_some_iff.mp h
      exact .callGet hpc htx
    · rename_i hpc
      obtain ⟨tx, htx, rfl⟩ := Option.map_eq_some_iff.mp h
      split
      · rename_i hout
        exact .take hpc htx hout
      · rename_i hin
        exact .get hpc htx hin
    · cases h
  | send bytesSent =>
    simp only [step] at h
    split at h
    · rename_i hpc
      cases h
      exact .send hpc
    · cases h

/-- The acts in which a `send` fails. -/
def fails : SendAct P → Bool
  | .send bytesSent => bytesSent < 0
  | _ => false

/-- What one step takes from the FIFO goes to the client or stays in hand, but for a PDU whose
    `send` fails. -/
theorem ledger_cases (h : step s a = some s') :
    (s'.tx.gets = s.tx.gets ∧ s'.sent = s.sent ∧ s'.inHand = s.inHand ∧ fails a = false) ∨
    (∃ p, s'.tx.gets = s.tx.gets ++ [p] ∧ s'.sent = s.sent ∧ s.inHand = [] ∧ s'.inHand = [p] ∧
      fails a = false) ∨
    (∃ p, s'.tx.gets = s.tx.gets ∧ s'.sent = s.sent ++ [p] ∧ s.inHand = [p] ∧ s'.inHand = [] ∧
      fails a = false) ∨
    (∃ p, s'.tx.gets = s.tx.gets ∧ s'.sent = s.sent ∧ s.inHand = [p] ∧ s'.inHand = [] ∧
      fails a = true) := by
  cases step_cases h with
  | callPut htx | put htx => exact Or.inl ⟨gets_eq (by simp) htx, rfl, rfl, rfl⟩
  | accept hpc =>
    have hhand : s.inHand = [] := by simp [inHand, hpc]
    exact Or.inl ⟨by simp, by simp, by simp [hhand], rfl⟩
  | callGet hpc htx =>
    exact Or.inl ⟨gets_eq (by simp) htx, rfl, by simp [inHand, hpc], rfl⟩
  | get hpc htx hin =>
    obtain ⟨hout, -⟩ | ⟨-, hgets⟩ := get_cases htx
    · exact absurd hout hin
    · exact Or.inl ⟨hgets, rfl, rfl, rfl⟩
  | take hpc htx hout =>
    obtain ⟨-, hgets⟩ | ⟨hin, -⟩ := get_cases htx
    · exact Or.inr (Or.inl ⟨_, hgets, rfl, by simp [inHand, hpc], rfl, rfl⟩)
    · exact absurd hout hin
  | send hpc =>
    rename_i bytesSent
    have hhand : s.inHand = [s.out_pdu] := by simp [inHand, hpc]
    by_cases hr : 0 ≤ bytesSent
    · exact Or.inr (Or.inr (Or.inl ⟨_, by simp, by simp [send_sent, hr], hhand, by simp,
        by simpa [fails] using hr⟩))
    · exact Or.inr (Or.inr (Or.inr ⟨_, by simp, by simp [send_sent, hr], hhand, by simp,
        by simpa [fails] using hr⟩))

/-! ### Runs -/

/-- **Step rule.** -/
theorem gap_step (h : step s a = some s') : s'.gap = s.gap + if fails a then 1 else 0 := by
  unfold gap
  obtain ⟨hg, hs, hi, hf⟩ | ⟨p, hg, hs, hi, hi', hf⟩ | ⟨p, hg, hs, hi, hi', hf⟩ |
    ⟨p, hg, hs, hi, hi', hf⟩ := ledger_cases h
  · rw [hg, hs, hi, hf, if_neg Bool.false_ne_true, add_zero]
  all_goals
    rw [hg, hs, hi, hi', hf]
    simp only [List.length_append, List.length_cons, List.length_nil, Bool.false_eq_true, if_false,
      if_true]
    omega

theorem gap_exec {es : List (SendAct P)} (h : exec step s es = some s') :
    s'.gap = s.gap + es.countP fails := by
  induction es generalizing s with
  | nil =>
    cases h
    exact (add_zero _).symm
  | cons a es ih =>
    obtain ⟨t, ht, h⟩ := exec_cons_eq_some.mp h
    rw [ih h, gap_step ht, List.countP_cons]
    split
    all_goals omega

theorem kept_step (h : step s a = some s') (ha : fails a = false) (hs : s.Kept) : s'.Kept := by
  unfold Kept at hs ⊢
  obtain ⟨hg, hsent, hi, -⟩ | ⟨p, hg, hsent, hi, hi', -⟩ | ⟨p, hg, hsent, hi, hi', -⟩ |
    ⟨p, -, -, -, -, hf⟩ := ledger_cases h
  · rw [hg, hs, hsent, hi]
  · rw [hg, hs, hsent, hi, hi', List.append_nil]
  · rw [hg, hs, hsent, hi, hi', List.append_nil]
  · rw [ha] at hf
    cases hf

/-- **No update is lost exactly when no `send` fails.**  The producers and the clients come and go
    as they like. -/
theorem undropped_iff {buffer : ℕ → Pdu} {size : Capacity} {out_pdu : Pdu} {es : List (SendAct P)}
    (h : exec step (start buffer size out_pdu) es = some s) :
    s.Kept ↔ ∀ bytesSent, .send bytesSent ∈ es → 0 ≤ bytesSent := by
  constructor
  · intro hs bytesSent hmem
    have hsum := gap_exec h
    rw [gap_of_kept hs] at hsum
    have hzero : es.countP fails = 0 := by
      have hstart : (start buffer size out_pdu : Sender P).gap = 0 := rfl
      omega
    have hfails := List.countP_eq_zero.mp hzero _ hmem
    simpa [fails] using hfails
  · intro hes
    refine exec_invariant_of (A := fun a => fails a = false)
      (fun s a s' ha hs hstep => kept_step hstep ha hs) h ?_ ?_
    · intro a ha
      cases a with
      | send bytesSent => simpa [fails] using hes bytesSent ha
      | _ => rfl
    · rfl

/-- One update, sent. -/
theorem undropped_iff_one : ∃ s : Sender Unit, s.sent = [Pdu.zeroed] ∧
    (s.Kept ↔ ∀ bytesSent, .send bytesSent ∈ [SendAct.callPut () Pdu.zeroed, .put (), .put (),
      .accept, .get, .get, .get, .send 38] → 0 ≤ bytesSent) := by
  have hrun : exec step
      (start (fun _ => Pdu.zeroed) ⟨PDU_FIFO_SIZE, by decide, by decide⟩ Pdu.zeroed)
      [SendAct.callPut () Pdu.zeroed, .put (), .put (), .accept, .get, .get, .get, .send 38]
      = some _ := rfl
  exact ⟨_, rfl, undropped_iff hrun⟩

/-- Two updates: the `send` of the first fails, and the client that connects next gets the
    second. -/
theorem update_lost :
    ∃ es : List (SendAct Unit), ∃ s, exec step
        (start (fun _ => Pdu.zeroed) ⟨PDU_FIFO_SIZE, by decide, by decide⟩ Pdu.zeroed) es = some s ∧
      s.tx.gets = [{ Pdu.zeroed with cmd := PDU_UPDATE }, { Pdu.zeroed with cmd := PDU_BLOCK }] ∧
      s.sent = [{ Pdu.zeroed with cmd := PDU_BLOCK }] ∧ ¬ s.Kept := by
  refine ⟨[.callPut () { Pdu.zeroed with cmd := PDU_UPDATE }, .put (), .put (),
    .callPut () { Pdu.zeroed with cmd := PDU_BLOCK }, .put (), .put (),
    .accept, .get, .get, .get, .send (-1), .accept, .get, .get, .get, .send 38], _, rfl,
    ?_, ?_, ?_⟩
  · rfl
  · rfl
  · intro h
    have hlen := congrArg List.length h
    cases hlen

/-! ### The FIFO behind the connection -/

theorem queued_step {size : Capacity} (hs : s.tx.Queued size) (h : step s a = some s') :
    s'.tx.Queued size := by
  cases step_cases h with
  | callPut htx | put htx | callGet _ htx | get _ htx | take _ htx => exact Ipc.queued_step hs htx
  | accept => rwa [loop_tx]
  | send => rwa [loop_tx, send_tx]

/-- What was put and is not lost is sent, in hand or still in the FIFO. -/
theorem puts_of_kept {buffer : ℕ → Pdu} {size : Capacity} {out_pdu : Pdu}
    (h : Reachable step (start buffer size out_pdu) s) (hs : s.Kept) :
    s.tx.puts = s.sent ++ s.inHand ++ s.tx.fifo.queue := by
  have hqueued : s.tx.Queued size :=
    h.invariant (I := fun s : Sender P => s.tx.Queued size) (queued_start buffer size)
      fun _ _ _ hs hstep => queued_step hs hstep
  rw [hqueued.ledger, hs]

/-! ### One connection -/

/-- The thread is at the call of `pdu_fifo_get` and the mutex of the FIFO is free. -/
structure Ready (s : Sender P) : Prop where
  pc : s.pc = .call
  outside : s.tx.get () = .outside
  mutex : s.tx.fifo.mutex = 1
  wf : s.tx.fifo.WF

/-- A call of `pdu_fifo_get` that need not wait, and the `send` after it. -/
theorem exec_get_send (hs : s.Ready) {out_pdu : Pdu} {tx : List Pdu}
    (hqueue : s.tx.fifo.queue = out_pdu :: tx) (bytesSent : ℤ) :
    ∃ s', exec step s [.get, .get, .get, .send bytesSent] = some s' ∧
      s'.tx.fifo.queue = tx ∧ (0 ≤ bytesSent → s'.Ready) ∧
      s'.wire = s.wire ++ if 0 ≤ bytesSent then
        (pduFillBuffer out_pdu).toList.take bytesSent.toNat else [] := by
  -- the FIFO in the critical section
  set f : Fifo Pdu := { s.tx.fifo with mutex := 0 } with hf
  have hwf : f.WF := hs.wf.sems _ _ _
  have hfq : f.queue = out_pdu :: tx := hqueue
  have havail : ¬ f.avail < 1 := by
    have hlen := congrArg List.length hfq
    rw [Fifo.length_queue, List.length_cons] at hlen
    omega
  have htake := take_spec hwf (Nat.not_lt.mp havail)
  rw [hfq, List.cons.injEq] at htake
  have hexec : exec step s [.get, .get, .get, .send bytesSent] = some (({ s with
      tx := { s.tx with
        fifo := { f.take.2 with mutex := 1 }
        get := fun _ => .outside
        gets := s.tx.gets ++ [f.take.1] }
      pc := .send
      out_pdu := f.take.1 } : Sender P).send bytesSent).loop := by
    have hget : ∀ g : Unit → GetPc, Function.update g () .outside = fun _ => .outside := by
      intro g
      ext
      rw [Function.update_self]
    simp only [exec, step, hs.pc, Ipc.step, hs.outside, hs.mutex, Sem.wait, Option.map_some,
      Option.bind_some, Function.update_self, reduceCtorEq, havail, if_false, ← hf, take_mutex,
      hget, if_true]
    rfl
  refine ⟨_, hexec, ?_, ?_, ?_⟩
  · rw [loop_tx, send_tx]
    exact htake.2.symm
  · intro hr
    rw [send, if_pos hr, loop, if_pos hr]
    exact ⟨rfl, rfl, rfl, (wf_take hwf (Nat.not_lt.mp havail)).sems _ _ _⟩
  · rw [loop_wire, send_wire, ← htake.1]

/-- **One connection.**  While the FIFO has PDUs for it, the thread goes through a connection as
    `updateTCP` says, to the first `send` that fails. -/
theorem exec_connection {results : List ℤ} (hs : s.Ready)
    (hlen : results.length ≤ s.tx.fifo.queue.length) (hok : ∀ r ∈ results.dropLast, 0 ≤ r) :
    ∃ s', exec step s (results.flatMap fun r => [.get, .get, .get, .send r]) = some s' ∧
      s'.wire = s.wire ++ (updateTCP results s.tx.fifo.queue).1 ∧
      s'.tx.fifo.queue = (updateTCP results s.tx.fifo.queue).2 := by
  induction results generalizing s with
  | nil => exact ⟨s, rfl, by simp [updateTCP], by simp [updateTCP]⟩
  | cons bytesSent results ih =>
    cases hqueue : s.tx.fifo.queue with
    | nil =>
      rw [hqueue] at hlen
      cases hlen
    | cons out_pdu tx =>
      obtain ⟨t, ht, htq, hready, hwire⟩ := exec_get_send hs hqueue bytesSent
      rw [List.flatMap_cons, exec_append, ht, Option.bind_some, updateTCP]
      by_cases hr : 0 ≤ bytesSent
      · rw [if_pos hr] at hwire ⊢
        have hlen' : results.length ≤ t.tx.fifo.queue.length := by
          rw [hqueue, List.length_cons, List.length_cons] at hlen
          rw [htq]
          omega
        have hok' : ∀ r ∈ results.dropLast, 0 ≤ r := by
          intro r hmem
          apply hok
          cases results with
          | nil => cases hmem
          | cons q results => exact List.mem_cons_of_mem _ hmem
        obtain ⟨s', hs', hw, hq⟩ := ih (hready hr) hlen' hok'
        rw [htq] at hw hq
        exact ⟨s', hs', by rw [hw, hwire, List.append_assoc], hq⟩
      · -- the failing `send` is the last
        rw [if_neg hr, List.append_nil] at hwire
        rw [if_neg hr]
        cases results with
        | nil => exact ⟨t, rfl, by rw [hwire, List.append_nil], htq⟩
        | cons q results => exact absurd (hok bytesSent List.mem_cons_self) hr

end Sender

end Wheelson.Tcp
