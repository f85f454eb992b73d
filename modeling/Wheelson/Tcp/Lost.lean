import Mathlib.Data.Nat.Find
import Wheelson.Tcp.Receive

namespace Wheelson.Tcp

/-!
# A lost connection

`jpeg_client` and `update_process` connect again when `receive` raises, and `receive` catches
the only thing `recv` raises.

* `Connection` — what `recv` returns on a connection, call by call.
* `ending` — how one call of `receive` ends on the outcomes it has seen.
* `receive_calls` — up to the first bad outcome the call has read the chunks so far.
* `reports_iff` — the call ends with `buffsize` bytes, or raises, exactly when the connection is
  not lost before these bytes have come.
-/

namespace Recv

/-- The bytes an outcome brings. -/
def bytes : Recv → List UInt8
  | .data bytes => bytes
  | .error => []

end Recv

/-- The outcomes of the first `n` calls of `recv`. -/
def calls (recv : ℕ → Recv) (n : ℕ) : List Recv := (List.range n).map recv

/-- The bytes these brought. -/
def bytesRead (recv : ℕ → Recv) (n : ℕ) : List UInt8 := (calls recv n).flatMap Recv.bytes

/-- A connection on which `receive` asks for what is missing of `buffsize` bytes: `recv` returns
    no more than that, and nothing from then on once the peer has closed. -/
structure Connection (buffsize : ℕ) where
  recv : ℕ → Recv
  requested : ∀ n, (bytesRead recv n).length < buffsize →
    (recv n).bytes.length ≤ buffsize - (bytesRead recv n).length
  closed : ∀ n, recv n = .data [] → recv (n + 1) = .data []

/-- How a call of `receive` ends. -/
inductive Ending
  | returned (data : List UInt8)
  | raised
deriving DecidableEq, Repr

/-- The call on the outcomes `os`, `none` while it still waits.  What `recv` raises is a
    `socket.error`; `receive` prints it, closes the socket and returns what it has. -/
def ending (buffsize : ℕ) (os : List Recv) : Option Ending :=
  (receive buffsize [] os).map fun r => .returned r.1

variable {buffsize : ℕ} {recv : ℕ → Recv} {ret_data : List UInt8} {os : List Recv} {m n : ℕ}

/-! ### The bytes of the calls -/

theorem calls_succ : calls recv (n + 1) = calls recv n ++ [recv n] := by
  simp [calls, List.range_succ]

theorem bytesRead_succ : bytesRead recv (n + 1) = bytesRead recv n ++ (recv n).bytes := by
  simp [bytesRead, calls_succ]

theorem bytesRead_le (h : m ≤ n) : (bytesRead recv m).length ≤ (bytesRead recv n).length := by
  induction n, h using Nat.le_induction with
  | base => exact Nat.le_refl _
  | succ n _ ih =>
    rw [bytesRead_succ, List.length_append]
    omega

/-- A call that has been made, with those before and after it. -/
theorem calls_split (h : m < n) : ∃ os, calls recv n = calls recv m ++ recv m :: os := by
  induction n, h using Nat.le_induction with
  | base => exact ⟨[], calls_succ⟩
  | succ n _ ih =>
    obtain ⟨os, hos⟩ := ih
    exact ⟨os ++ [recv n], by rw [calls_succ, hos, List.append_assoc, List.cons_append]⟩

/-- While no call has failed and bytes are missing, `receive` has read the chunks so far. -/
theorem receive_calls (h : ∀ k < m, recv k ≠ .error ∧ (bytesRead recv k).length < buffsize) :
    receive buffsize [] (calls recv m ++ os) = receive buffsize (bytesRead recv m) os := by
  induction m generalizing os with
  | zero => rfl
  | succ m ih =>
    obtain ⟨herr, hlt⟩ := h m (Nat.lt_succ_self m)
    rw [calls_succ, List.append_assoc, ih fun k hk => h k (Nat.lt_succ_of_lt hk), bytesRead_succ]
    simp only [List.singleton_append, receive, if_pos hlt]
    cases ho : recv m with
    | data bytes => rfl
    | error => exact absurd ho herr

/-- The same when the calls are all there are. -/
theorem receive_calls_only
    (h : ∀ k < m, recv k ≠ .error ∧ (bytesRead recv k).length < buffsize) :
    receive buffsize [] (calls recv m) = receive buffsize (bytesRead recv m) [] := by
  rw [← List.append_nil (calls recv m)]
  exact receive_calls h

/-! ### Reporting -/

namespace Connection

variable {c : Connection buffsize}

/-- After finitely many calls of `recv`, `receive` raises or returns `buffsize` bytes, the chunks
    in order. -/
def Reports (c : Connection buffsize) : Prop :=
  ∃ n, ending buffsize (calls c.recv n) = some .raised ∨
    ∃ data, ending buffsize (calls c.recv n) = some (.returned data) ∧
      data.length = buffsize ∧ data = bytesRead c.recv n

/-- The peer closes or `recv` fails before `buffsize` bytes have come. -/
def Lost (c : Connection buffsize) : Prop :=
  ∃ n, (bytesRead c.recv n).length < buffsize ∧ (c.recv n = .error ∨ c.recv n = .data [])

/-- Each call on a connection that is not lost brings a byte. -/
theorem bytes_come (h : ¬ c.Lost) : min n buffsize ≤ (bytesRead c.recv n).length := by
  induction n with
  | zero => rw [Nat.zero_min]; exact Nat.zero_le _
  | succ n ih =>
    rw [bytesRead_succ, List.length_append]
    by_cases hlt : (bytesRead c.recv n).length < buffsize
    · have hpos : 0 < (c.recv n).bytes.length := by
        apply Nat.pos_of_ne_zero
        intro hzero
        apply h
        refine ⟨n, hlt, ?_⟩
        cases ho : c.recv n with
        | data bytes =>
          rw [ho] at hzero
          exact Or.inr (congrArg Recv.data (List.eq_nil_of_length_eq_zero hzero))
        | error => exact Or.inl rfl
      omega
    · omega

/-- The last call before the block is full leaves nothing over. -/
theorem bytesRead_full (hlt : ∀ k < n, (bytesRead c.recv k).length < buffsize) :
    (bytesRead c.recv n).length ≤ buffsize := by
  cases n with
  | zero => exact Nat.zero_le _
  | succ n =>
    have hn := hlt n (Nat.lt_succ_self n)
    have hreq := c.requested n hn
    rw [bytesRead_succ, List.length_append]
    omega

theorem reports_of_not_lost (h : ¬ c.Lost) : c.Reports := by
  have hfull : ∃ n, buffsize ≤ (bytesRead c.recv n).length :=
    ⟨buffsize, Nat.le_trans (Nat.le_of_eq (Nat.min_self buffsize).symm) (bytes_come h)⟩
  -- the call that completes the block
  obtain ⟨n, hn, hmin⟩ : ∃ n, buffsize ≤ (bytesRead c.recv n).length ∧
      ∀ k < n, (bytesRead c.recv k).length < buffsize :=
    ⟨Nat.find hfull, Nat.find_spec hfull, fun k hk => Nat.lt_of_not_le (Nat.find_min hfull hk)⟩
  have hlen := Nat.le_antisymm (bytesRead_full hmin) hn
  have hrun : receive buffsize [] (calls c.recv n) = some (bytesRead c.recv n, []) := by
    rw [receive_calls_only fun k hk => ⟨fun herr => h ⟨k, hmin k hk, Or.inl herr⟩, hmin k hk⟩,
      receive, if_neg (by omega)]
  exact ⟨n, Or.inr ⟨_, by rw [ending, hrun]; rfl, hlen, rfl⟩⟩

/-- A closed peer sends nothing more. -/
theorem closed_after (h : c.recv m = .data []) (hle : m ≤ n) :
    c.recv n = .data [] ∧ bytesRead c.recv n = bytesRead c.recv m := by
  induction n, hle using Nat.le_induction with
  | base => exact ⟨h, rfl⟩
  | succ n _ ih =>
    obtain ⟨hn, hread⟩ := ih
    exact ⟨c.closed n hn, by rw [bytesRead_succ, hn, hread]; exact List.append_nil _⟩

/-- **Nothing comes of a closed peer.**  `receive` waits, however often it calls `recv`. -/
theorem receive_closed (hclosed : c.recv m = .data [])
    (hlt : (bytesRead c.recv m).length < buffsize) (hok : ∀ k < m, c.recv k ≠ .error) (n : ℕ) :
    receive buffsize [] (calls c.recv n) = none := by
  have hshort : ∀ k, (bytesRead c.recv k).length < buffsize := by
    intro k
    rcases Nat.le_total m k with hle | hle
    · rw [(closed_after hclosed hle).2]
      exact hlt
    · exact Nat.lt_of_le_of_lt (bytesRead_le hle) hlt
  have hdata : ∀ k, c.recv k ≠ .error := by
    intro k
    rcases Nat.lt_or_ge k m with hk | hle
    · exact hok k hk
    · rw [(closed_after hclosed hle).1]
      intro heq
      cases heq
  rw [receive_calls_only fun k _ => ⟨hdata k, hshort k⟩, receive, if_pos (hshort n)]

/-- **A failed `recv` is swallowed.**  `receive` returns what it has read. -/
theorem receive_failed (herr : c.recv m = .error)
    (hlt : (bytesRead c.recv m).length < buffsize) (hok : ∀ k < m, c.recv k ≠ .error)
    {n : ℕ} {r : List UInt8 × List Recv} (h : receive buffsize [] (calls c.recv n) = some r) :
    r.1 = bytesRead c.recv m := by
  have hshort : ∀ k ≤ m, (bytesRead c.recv k).length < buffsize := fun k hk =>
    Nat.lt_of_le_of_lt (bytesRead_le hk) hlt
  rcases Nat.lt_or_ge m n with hm | hle
  · obtain ⟨os, hos⟩ := calls_split hm
    rw [hos, receive_calls fun k hk => ⟨hok k hk, hshort k (Nat.le_of_lt hk)⟩, herr] at h
    simp only [receive, if_pos hlt, Option.some.injEq] at h
    rw [← h]
  · have hbefore : ∀ k < n, k < m := fun k hk => Nat.lt_of_lt_of_le hk hle
    rw [receive_calls_only fun k hk =>
        ⟨hok k (hbefore k hk), hshort k (Nat.le_of_lt (hbefore k hk))⟩,
      receive, if_pos (hshort n hle)] at h
    cases h

theorem not_lost_of_reports (h : c.Reports) : ¬ c.Lost := by
  intro hlost
  -- the first loss
  obtain ⟨m, ⟨hlt, hbad⟩, hmin⟩ : ∃ m, ((bytesRead c.recv m).length < buffsize ∧
      (c.recv m = .error ∨ c.recv m = .data [])) ∧ ∀ k < m, c.recv k ≠ .error := by
    classical
    refine ⟨Nat.find hlost, Nat.find_spec hlost, fun k hk herr => Nat.find_min hlost hk ?_⟩
    exact ⟨Nat.lt_of_le_of_lt (bytesRead_le (Nat.le_of_lt hk)) (Nat.find_spec hlost).1, Or.inl herr⟩
  obtain ⟨n, hend⟩ := h
  cases hrun : receive buffsize [] (calls c.recv n) with
  | none => simp [ending, hrun] at hend
  | some r =>
    obtain ⟨data, rest⟩ := r
    simp only [ending, hrun, Option.map_some, Option.some.injEq, reduceCtorEq,
      Ending.returned.injEq, false_or, exists_eq_left'] at hend
    obtain ⟨hlen, -⟩ := hend
    rcases hbad with herr | hclosed
    · have hdata := receive_failed herr hlt hmin hrun
      simp only at hdata
      rw [hdata] at hlen
      omega
    · rw [receive_closed hclosed hlt hmin n] at hrun
      cases hrun

/-- `receive` reports what becomes of a connection exactly when the connection is not lost before
    `buffsize` bytes have come. -/
theorem reports_iff (buffsize : ℕ) (c : Connection buffsize) : c.Reports ↔ ¬ c.Lost :=
  ⟨not_lost_of_reports, reports_of_not_lost⟩

/-- A peer that has closed before the first byte of a block of `jpeg_client`. -/
def peerClosed : Connection (10 * 1024) where
  recv _ := .data []
  requested _ _ := Nat.zero_le _
  closed _ _ := rfl

/-- `receive` never comes back from it: the caller does not reach its reconnect branch. -/
theorem waits_forever : ¬ ∀ buffsize, ∀ c : Connection buffsize, c.Reports := by
  intro h
  obtain ⟨n, hend⟩ := h _ peerClosed
  have hwait : receive (10 * 1024) [] (calls peerClosed.recv n) = none :=
    receive_closed (m := 0) rfl (by decide) (fun k hk => absurd hk (Nat.not_lt_zero k)) n
  simp [ending, hwait] at hend

end Connection

end Wheelson.Tcp
