import Mathlib.Data.List.Basic

namespace Wheelson.Tcp

/-!
# `wheelsonTCP.receive`

* `receive` — one call, over what the `recv` calls of the socket return.
* `receives` — the results of the calls made one after the other on a connection.
* `Requested` — no `recv` returns more than it was asked for.
* `receives_blocks` — then a stream of blocks of `buffsize` bytes is received block by block,
  however it is split.
-/

/-- What `socket.recv` does: it returns bytes, none of them once the peer has closed, or it
    raises `socket.error`. -/
inductive Recv
  | data (bytes : List UInt8)
  | error
deriving DecidableEq, Repr

/-- `wheelsonTCP.receive` with `ret_data` read so far: the data returned and the outcomes left,
    `none` while it waits in `recv`.  `bytes_read` is the length of `ret_data`. -/
def receive (buffsize : ℕ) (ret_data : List UInt8) : List Recv → Option (List UInt8 × List Recv)
  | [] => if ret_data.length < buffsize then none else some (ret_data, [])
  | o :: os =>
    if ret_data.length < buffsize then
      match o with
      | .data bytes => receive buffsize (ret_data ++ bytes) os
      | .error => some (ret_data, os)
    else some (ret_data, o :: os)

/-- A call that returns short of `buffsize` bytes has used an outcome. -/
theorem receive_length {buffsize : ℕ} {ret_data data : List UInt8} {os rest : List Recv}
    (h : receive buffsize ret_data os = some (data, rest)) :
    rest.length ≤ os.length ∧ (ret_data.length < buffsize → rest.length < os.length) := by
  induction os generalizing ret_data with
  | nil =>
    simp only [receive, Option.ite_none_left_eq_some, Option.some.injEq, Prod.mk.injEq] at h
    obtain ⟨hfull, -, rfl⟩ := h
    exact ⟨Nat.le_refl _, fun hlt => absurd hlt hfull⟩
  | cons o os ih =>
    simp only [receive] at h
    split at h
    · cases o with
      | data bytes =>
        have hle := (ih h).1
        rw [List.length_cons]
        exact ⟨by omega, fun _ => by omega⟩
      | error =>
        cases h
        rw [List.length_cons]
        exact ⟨by omega, fun _ => by omega⟩
    · rename_i hfull
      cases h
      exact ⟨Nat.le_refl _, fun hlt => absurd hlt hfull⟩

/-- The results of the calls of `receive` on one connection. -/
def receives (buffsize : ℕ) (hpos : 0 < buffsize) (os : List Recv) : List (List UInt8) :=
  match h : receive buffsize [] os with
  | none => []
  | some (data, rest) =>
    have : rest.length < os.length := (receive_length h).2 hpos
    data :: receives buffsize hpos rest
termination_by os.length

/-- No chunk is longer than what `recv` was asked for, `read` bytes of the current call having
    been read. -/
def Requested (buffsize : ℕ) : ℕ → List (List UInt8) → Prop
  | _, [] => True
  | read, chunk :: chunks =>
    chunk.length ≤ buffsize - read ∧
      Requested buffsize (if read + chunk.length < buffsize then read + chunk.length else 0) chunks

instance (buffsize : ℕ) : ∀ read chunks, Decidable (Requested buffsize read chunks)
  | _, [] => .isTrue trivial
  | read, chunk :: chunks =>
    have := instDecidableRequested buffsize
      (if read + chunk.length < buffsize then read + chunk.length else 0) chunks
    inferInstanceAs (Decidable (_ ∧ _))

/-- **One block.**  A call that has read `ret_data` goes on to the end of its block and no
    further.  The induction is on the chunks. -/
theorem receive_block {buffsize : ℕ} {chunks : List (List UInt8)} {ret_data block rest : List UInt8}
    (hreq : Requested buffsize ret_data.length chunks) (hlt : ret_data.length < buffsize)
    (hblock : block.length = buffsize) (h : ret_data ++ chunks.flatten = block ++ rest) :
    ∃ chunks', receive buffsize ret_data (chunks.map .data) = some (block, chunks'.map .data) ∧
      Requested buffsize 0 chunks' ∧ chunks'.flatten = rest := by
  induction chunks generalizing ret_data with
  | nil =>
    have hlen := congrArg List.length h
    simp only [List.flatten_nil, List.append_nil, List.length_append] at hlen
    omega
  | cons chunk chunks ih =>
    obtain ⟨hle, hreq⟩ := hreq
    rw [List.flatten_cons, ← List.append_assoc] at h
    rw [List.map_cons, receive, if_pos hlt]
    by_cases hmore : ret_data.length + chunk.length < buffsize
    · rw [if_pos hmore, ← List.length_append] at hreq
      exact ih hreq (by rw [List.length_append]; exact hmore) h
    · -- the block is complete
      rw [if_neg hmore] at hreq
      have hfull : (ret_data ++ chunk).length = buffsize := by
        rw [List.length_append]
        omega
      obtain ⟨rfl, rfl⟩ := List.append_inj h (hfull.trans hblock.symm)
      refine ⟨chunks, ?_, hreq, rfl⟩
      cases chunks with
      | nil => rw [List.map_nil, receive, if_neg (by omega)]
      | cons c cs => rw [List.map_cons, receive, if_neg (by omega)]

/-- A call waits for what is missing of its block. -/
theorem receive_waits {buffsize : ℕ} {chunks : List (List UInt8)} {ret_data : List UInt8}
    (h : (ret_data ++ chunks.flatten).length < buffsize) :
    receive buffsize ret_data (chunks.map .data) = none := by
  have hlt : ret_data.length < buffsize := by
    rw [List.length_append] at h
    omega
  induction chunks generalizing ret_data with
  | nil => rw [List.map_nil, receive, if_pos hlt]
  | cons chunk chunks ih =>
    rw [List.flatten_cons, ← List.append_assoc] at h
    rw [List.map_cons, receive, if_pos hlt]
    apply ih h
    rw [List.length_append] at h
    omega

/-- **Block by block.** -/
theorem receives_blocks {buffsize : ℕ} (hpos : 0 < buffsize) {blocks : List (List UInt8)}
    (hblocks : ∀ block ∈ blocks, block.length = buffsize) {chunks : List (List UInt8)}
    (hreq : Requested buffsize 0 chunks) (h : chunks.flatten = blocks.flatten) :
    receives buffsize hpos (chunks.map .data) = blocks := by
  induction blocks generalizing chunks with
  | nil =>
    have hwait : receive buffsize [] (chunks.map .data) = none := by
      apply receive_waits
      rw [List.nil_append, h]
      exact hpos
    rw [receives]
    split
    · rfl
    · rename_i data rest hsome
      rw [hwait] at hsome
      cases hsome
  | cons block blocks ih =>
    rw [List.forall_mem_cons] at hblocks
    have h' : [] ++ chunks.flatten = block ++ blocks.flatten := h
    obtain ⟨chunks', hrec, hreq', hrest⟩ := receive_block hreq hpos hblocks.1 h'
    rw [receives]
    split
    · rename_i hnone
      rw [hrec] at hnone
      cases hnone
    · rename_i data rest hsome
      rw [hrec] at hsome
      cases hsome
      rw [ih hblocks.2 hreq' hrest]

end Wheelson.Tcp
