import Mathlib.Algebra.GroupWithZero.Nat
import Mathlib.Data.List.SplitLengths
import Wheelson.Tcp.CmdClient

namespace Wheelson.Tcp

/-!
# The command channel

`commandTCP` does one `recv` for each PDU, into a buffer it does not clear.

* `Delivered p q` — the PDU `q` says what the object `p` says.
* `delivered_frames` — if each `recv` returns one frame, every object is delivered.
* `cut_eq_of_delivered` — if the first `recv` does not, there are objects with texts of the
  same lengths that are not delivered.
* `DeliversAll` — all objects with texts of given lengths are delivered over given cuts;
  `DeliversAll.cuts_eq` finds the cuts, frame by frame.
* `commandTCP_delivers_iff` — hence the cuts that are right for all objects with texts of
  given lengths are exactly the ends of the frames.
-/

open Ipc

/-- `commandTCP`: what it puts into `rx_pdu_fifo_g` for the chunks that its `recv` calls
    return, from the contents of its locals `in_buff` and `in_pdu`. -/
def commandTCP : Buff → Pdu → List (List UInt8) → List Pdu
  | _, _, [] => []
  | in_buff, in_pdu, chunk :: chunks =>
    let in_buff := in_buff.recv chunk
    let in_pdu := (pduReadBuffer in_buff in_pdu).2 -- the return value is not looked at
    in_pdu :: commandTCP in_buff in_pdu chunks

/-- A PDU with the fields and the text of an object. -/
structure Delivered (p : PyPdu) (q : Pdu) : Prop where
  cmd : q.cmd.toNat = p.cmd
  x : q.x.toNat = p.x
  y : q.y.toNat = p.y
  msg_len : q.msg_len.toNat = p.msg_len
  text : cstr q.msg.toList = p.text

@[simp] theorem length_commandTCP (in_buff : Buff) (in_pdu : Pdu) (chunks : List (List UInt8)) :
    (commandTCP in_buff in_pdu chunks).length = chunks.length := by
  induction chunks generalizing in_buff in_pdu with
  | nil => rfl
  | cons chunk chunks ih => simp [commandTCP, ih]

/-! ### One frame for each `recv` -/

theorem PyPdu.Ok.length_frame_le {p : PyPdu} (hp : p.Ok) : p.frame.length ≤ PDU_SIZE + 2 := by
  have hlen := hp.msg_len
  have hle := hp.msg_len_le
  rw [p.length_frame, PDU_SIZE]
  omega

/-- The text stops at the NUL of the frame, whatever lies behind it. -/
theorem cstr_text {p : PyPdu} (hp : p.Ok) (rest : List UInt8) :
    cstr (p.text ++ 0 :: rest) = p.text := by
  have hne : ∀ b ∈ p.text, decide (b ≠ 0) = true := by
    intro b hb
    obtain ⟨c, hc, rfl⟩ := List.mem_map.mp hb
    obtain ⟨hc0, hc128⟩ := hp.ascii c hc
    rw [decide_eq_true_eq, ← UInt8.toNat_inj.ne,
      UInt8.toNat_ofNat_of_lt' (lt_trans hc128 (by decide))]
    exact hc0
  unfold cstr
  rw [List.takeWhile_append_of_pos hne]
  simp

/-- A received frame begins with the start bytes. -/
theorem start_frame {p : PyPdu} (hp : p.Ok) (in_buff : Buff) :
    (in_buff.recv p.frame).at 0 = PDU_START_BYTE0 ∧
      (in_buff.recv p.frame).at 1 = PDU_START_BYTE1 := by
  have hlen := p.length_frame
  rw [in_buff.at_recv hp.length_frame_le, in_buff.at_recv hp.length_frame_le, if_pos (by omega),
    if_pos (by omega)]
  exact ⟨rfl, rfl⟩

/-- **One frame.**  A frame received over any buffer is read as its object. -/
theorem delivered_frame {p : PyPdu} (hp : p.Ok) (in_buff : Buff) (out_pdu : Pdu) :
    Delivered p (pduReadBuffer (in_buff.recv p.frame) out_pdu).2 := by
  have hlist := in_buff.toList_recv hp.length_frame_le
  have hmsg : p.msg_len < 256 := lt_of_le_of_lt hp.msg_len_le (by decide)
  have hat (i : ℕ) : (in_buff.recv p.frame).at i
      = (p.frame ++ in_buff.toList.drop p.frame.length).getD i 0 := by
    rw [← hlist]
    rfl
  rw [pduReadBuffer_of_start (start_frame hp in_buff).1 (start_frame hp in_buff).2]
  refine ⟨?_, ?_, ?_, ?_, ?_⟩
  · show ((in_buff.recv p.frame).at 2).toNat = p.cmd
    rw [hat]
    exact UInt8.toNat_ofNat_of_lt' hp.cmd
  · show ((in_buff.recv p.frame).at 3).toNat = p.x
    rw [hat]
    exact UInt8.toNat_ofNat_of_lt' hp.x
  · show ((in_buff.recv p.frame).at 4).toNat = p.y
    rw [hat]
    exact UInt8.toNat_ofNat_of_lt' hp.y
  · show ((in_buff.recv p.frame).at 5).toNat = p.msg_len
    rw [hat]
    exact UInt8.toNat_ofNat_of_lt' hmsg
  · show cstr ((in_buff.recv p.frame).toList.drop 6) = p.text
    rw [hlist, ← cstr_text hp (in_buff.toList.drop p.frame.length)]
    congr 1
    simp [PyPdu.frame]

/-- **One frame for each `recv`.** -/
theorem delivered_frames {ps : List PyPdu} (hps : ∀ p ∈ ps, p.Ok) (in_buff : Buff)
    (in_pdu : Pdu) :
    List.Forall₂ Delivered ps (commandTCP in_buff in_pdu (ps.map PyPdu.frame)) := by
  induction ps generalizing in_buff in_pdu with
  | nil => exact .nil
  | cons p ps ih =>
    rw [List.forall_mem_cons] at hps
    exact .cons (delivered_frame hps.1 _ _) (ih hps.2 _ _)

/-! ### Any other cut -/

/-- An object with command `cmd` and a text of `m` letters. -/
def sample (cmd m : ℕ) : PyPdu := ⟨cmd, 0, 0, m + 1, List.replicate m 'A'⟩

theorem sample_ok {cmd m : ℕ} (hcmd : cmd < 256) (hm : m ≤ 31) : (sample cmd m).Ok where
  cmd := hcmd
  x := by simp [sample]
  y := by simp [sample]
  msg_len := by simp [sample]
  msg_len_le := by simp only [sample]; omega
  ascii c hc := by
    obtain rfl := List.eq_of_mem_replicate hc
    decide

/-- The first start byte stands only at the start of a sample's frame. -/
theorem sample_start {cmd m i : ℕ} (hcmd : cmd < 2) (hm : m ≤ 31)
    (h : (sample cmd m).frame[i]? = some PDU_START_BYTE0) : i = 0 := by
  have hlen : UInt8.ofNat (m + 1) ≠ PDU_START_BYTE0 := by
    rw [← UInt8.toNat_inj.ne, UInt8.toNat_ofNat_of_lt' (by show m + 1 < 256; omega)]
    have hbyte : PDU_START_BYTE0.toNat = 94 := by decide
    omega
  have hcmd' : UInt8.ofNat cmd ≠ PDU_START_BYTE0 := by
    rcases Nat.lt_succ_iff_lt_or_eq.mp hcmd with h0 | rfl
    · obtain rfl : cmd = 0 := by omega
      decide
    · decide
  cases i with
  | zero => rfl
  | succ i =>
    have hmem := List.mem_of_getElem? (show ((sample cmd m).frame.drop 1)[i]? = some PDU_START_BYTE0
      by rw [List.getElem?_drop, Nat.add_comm]; exact h)
    simp only [PyPdu.frame, sample, PyPdu.text, List.cons_append, List.nil_append,
      List.drop_succ_cons, List.drop_zero, List.map_replicate, List.mem_cons, List.mem_append,
      List.mem_replicate, List.not_mem_nil, or_false] at hmem
    -- the second start byte, the four fields, the letters, the NUL
    rcases hmem with h | h | h | h | h | h | h
    · exact absurd h (by decide)
    · exact absurd h.symm hcmd'
    · exact absurd h (by decide)
    · exact absurd h (by decide)
    · exact absurd h.symm hlen
    · exact absurd h.2 (by decide)
    · exact absurd h (by decide)

/-- In a stream of samples with command 0, a first start byte begins a frame of command 0. -/
theorem samples_start {ms : List ℕ} (hms : ∀ m ∈ ms, m ≤ 31) {i : ℕ}
    (h : ((ms.map (sample 0)).map PyPdu.frame).flatten[i]? = some PDU_START_BYTE0) :
    ((ms.map (sample 0)).map PyPdu.frame).flatten[i + 2]? = some 0 := by
  induction ms generalizing i with
  | nil => simp at h
  | cons m ms ih =>
    rw [List.forall_mem_cons] at hms
    simp only [List.map_cons, List.flatten_cons] at h ⊢
    have hlen := (sample 0 m).length_frame
    by_cases hi : i < (sample 0 m).frame.length
    · rw [List.getElem?_append_left hi] at h
      obtain rfl := sample_start (by decide) hms.1 h
      rw [List.getElem?_append_left (by omega)]
      rfl
    · rw [not_lt] at hi
      rw [List.getElem?_append_right hi] at h
      rw [List.getElem?_append_right (by omega),
        show i + 2 - (sample 0 m).frame.length = i - (sample 0 m).frame.length + 2 by omega]
      exact ih hms.2 h

/-- The stream of two samples with commands 0 and 1 and of more with command 0: where it has
    a first start byte. -/
theorem stream_start {m m' : ℕ} {ms : List ℕ} (hm : m ≤ 31) (hm' : m' ≤ 31)
    (hms : ∀ k ∈ ms, k ≤ 31) {S : List UInt8}
    (hS : S = (sample 0 m).frame ++ ((sample 1 m').frame
      ++ ((ms.map (sample 0)).map PyPdu.frame).flatten))
    {i : ℕ} (h : S[i]? = some PDU_START_BYTE0) :
    i = 0 ∨ i = m + 7 ∨ m + 7 < i ∧ S[i + 2]? = some 0 := by
  have hlen : (sample 0 m).frame.length = m + 7 := by simp [PyPdu.length_frame, sample]
  have hlen' : (sample 1 m').frame.length = m' + 7 := by simp [PyPdu.length_frame, sample]
  subst hS
  by_cases hi : i < m + 7
  · -- in the first frame
    rw [List.getElem?_append_left (by omega)] at h
    exact .inl (sample_start (by decide) hm h)
  rw [List.getElem?_append_right (by omega), hlen] at h
  by_cases hi' : i - (m + 7) < m' + 7
  · -- in the second
    rw [List.getElem?_append_left (by omega)] at h
    have h0 := sample_start (by decide) hm' h
    exact .inr (.inl (by omega))
  · -- in one of the others
    rw [List.getElem?_append_right (by omega), hlen'] at h
    refine .inr (.inr ⟨by omega, ?_⟩)
    rw [List.getElem?_append_right (by omega), List.getElem?_append_right (by omega), hlen, hlen',
      show i + 2 - (m + 7) - (m' + 7) = i - (m + 7) - (m' + 7) + 2 by omega]
    exact samples_start hms h

/-- **A wrong first cut.**  If the second `recv` does not start at the second frame, it does
    not deliver a second object whose command differs from all others. -/
theorem cut_eq_of_delivered {m m' c c' : ℕ} {ms cuts : List ℕ} (hm : m ≤ 31) (hm' : m' ≤ 31)
    (hms : ∀ k ∈ ms, k ≤ 31) (hc : 1 ≤ c ∧ c ≤ 38) (hc' : 1 ≤ c' ∧ c' ≤ 38) {S : List UInt8}
    (hS : S = (sample 0 m).frame ++ ((sample 1 m').frame
      ++ ((ms.map (sample 0)).map PyPdu.frame).flatten))
    (hlen : c < S.length) {in_buff : Buff} {in_pdu : Pdu}
    (h : List.Forall₂ Delivered (sample 0 m :: sample 1 m' :: ms.map (sample 0))
      (commandTCP in_buff in_pdu ((c :: c' :: cuts).splitLengths S))) : c = m + 7 := by
  simp only [List.splitLengths_cons, commandTCP, List.forall₂_cons] at h
  obtain ⟨hd, hd', -⟩ := h
  set in_buff₁ := in_buff.recv (S.take c) with hbuff₁
  set pdu₁ := (pduReadBuffer in_buff₁ in_pdu).2
  set in_buff₂ := in_buff₁.recv ((S.drop c).take c') with hbuff₂
  have hcmd : pdu₁.cmd = 0 := UInt8.toNat_inj.mp hd.cmd
  -- the second `recv` finds a start byte, or the first PDU would be put again
  have hstart : in_buff₂.at 0 = PDU_START_BYTE0 ∧ in_buff₂.at 1 = PDU_START_BYTE1 := by
    by_contra hno
    rw [not_and_or] at hno
    rw [pduReadBuffer_of_not_start hno] at hd'
    have hcmd' := hd'.cmd
    rw [hcmd] at hcmd'
    exact Nat.zero_ne_one hcmd'
  rw [pduReadBuffer_of_start hstart.1 hstart.2] at hd'
  have hcmd' : in_buff₂.at 2 = 1 := UInt8.toNat_inj.mp hd'.cmd
  have hlen₁ : (S.take c).length = c := by
    rw [List.length_take]
    omega
  have hlen₂ : ((S.drop c).take c').length = min c' (S.length - c) := by
    rw [List.length_take, List.length_drop]
  have hat (i : ℕ) : in_buff₂.at i
      = if i < min c' (S.length - c) then S.getD (c + i) 0 else in_buff₁.at i := by
    rw [hbuff₂, Buff.at_recv _ (by rw [hlen₂, PDU_SIZE]; omega), hlen₂]
    split
    · rw [List.getD_eq_getElem?_getD, List.getElem?_take_of_lt (by omega), List.getElem?_drop,
        ← List.getD_eq_getElem?_getD]
    · rfl
  have hS0 : S[c]? = some PDU_START_BYTE0 := by
    have h0 := hstart.1
    rw [hat, if_pos (by omega), Nat.add_zero, List.getD_eq_getElem _ _ hlen] at h0
    rw [List.getElem?_eq_getElem hlen, h0]
  -- where the second `recv` starts
  rcases stream_start hm hm' hms hS hS0 with h0 | hcut | ⟨hgt, hS2⟩
  · omega
  · exact hcut
  · -- a later frame, of command 0; the byte before it in the buffer says the same
    exfalso
    rw [hat] at hcmd'
    split at hcmd'
    · rw [List.getD_eq_getElem?_getD, hS2] at hcmd'
      exact absurd hcmd' (by decide)
    · rw [hbuff₁, Buff.at_recv _ (by rw [hlen₁, PDU_SIZE]; omega), hlen₁, if_pos (by omega),
        List.getD_eq_getElem?_getD, List.getElem?_take_of_lt (by omega), hS] at hcmd'
      exact absurd (show (0 : UInt8) = 1 from hcmd') (by decide)

/-! ### Exactly the ends of the frames -/

theorem frames_splitLengths (frames : List (List UInt8)) :
    (frames.map List.length).splitLengths frames.flatten = frames := by
  induction frames with
  | nil => rfl
  | cons frame frames ih => simp [ih]

theorem length_frames {ps : List PyPdu} {lens : List ℕ} (h : ps.map (·.msg.length) = lens) :
    (ps.map PyPdu.frame).map List.length = lens.map (· + 7) := by
  rw [← h, List.map_map, List.map_map]
  exact List.map_congr_left fun p _ => p.length_frame

/-- All lists of objects with texts of these lengths are delivered over these cuts. -/
def DeliversAll (in_buff : Buff) (in_pdu : Pdu) (lens cuts : List ℕ) : Prop :=
  ∀ ps : List PyPdu, (∀ p ∈ ps, p.Ok) → ps.map (·.msg.length) = lens →
    List.Forall₂ Delivered ps
      (commandTCP in_buff in_pdu (cuts.splitLengths (ps.map PyPdu.frame).flatten))

theorem samples_ok {lens : List ℕ} (hlens : ∀ m ∈ lens, m ≤ 31) :
    ∀ p ∈ lens.map (sample 0), p.Ok := by
  intro p hp
  obtain ⟨k, hk, rfl⟩ := List.mem_map.mp hp
  exact sample_ok (by decide) (hlens k hk)

/-- There is one cut for each object. -/
theorem DeliversAll.length_eq {in_buff : Buff} {in_pdu : Pdu} {lens cuts : List ℕ}
    (hlens : ∀ m ∈ lens, m ≤ 31) (h : DeliversAll in_buff in_pdu lens cuts) :
    lens.length = cuts.length := by
  have hcount := (h (lens.map (sample 0)) (samples_ok hlens)
    (by simp [sample, Function.comp_def])).length_eq
  simpa using hcount

/-- The first cut is the end of the first frame. -/
theorem DeliversAll.first {in_buff : Buff} {in_pdu : Pdu} {m c : ℕ} {lens cuts : List ℕ}
    (hlens : ∀ k ∈ m :: lens, k ≤ 31) (hcuts : ∀ k ∈ c :: cuts, 1 ≤ k ∧ k ≤ 38)
    (hsum : (c :: cuts).sum = ((m :: lens).map (· + 7)).sum)
    (h : DeliversAll in_buff in_pdu (m :: lens) (c :: cuts)) : c = m + 7 := by
  have hcount := h.length_eq hlens
  cases lens with
  | nil =>
    -- the only frame is all there is
    obtain rfl : cuts = [] := by simpa [eq_comm] using hcount
    simpa using hsum
  | cons m' lens =>
    cases cuts with
    | nil => simp at hcount
    | cons c' cuts =>
      simp only [List.forall_mem_cons] at hlens hcuts
      obtain ⟨hm, hm', hms⟩ := hlens
      -- the second object is the one whose command differs
      have hps : ∀ p ∈ sample 0 m :: sample 1 m' :: lens.map (sample 0), p.Ok :=
        List.forall_mem_cons.mpr ⟨sample_ok (by decide) hm,
          List.forall_mem_cons.mpr ⟨sample_ok (by decide) hm', samples_ok hms⟩⟩
      have hdel := h _ hps (by simp [sample, Function.comp_def])
      refine cut_eq_of_delivered hm hm' hms hcuts.1 hcuts.2.1 rfl ?_ hdel
      simp only [List.map_cons, List.sum_cons] at hsum
      simp only [List.map_map, List.length_append, List.length_flatten, PyPdu.length_frame,
        Function.comp_def, sample, List.length_replicate]
      omega

/-- Once the first frame has been received, the others are delivered from what it leaves in
    the two locals. -/
theorem DeliversAll.tail {in_buff : Buff} {in_pdu : Pdu} {m : ℕ} {lens cuts : List ℕ} (hm : m ≤ 31)
    (h : DeliversAll in_buff in_pdu (m :: lens) ((m + 7) :: cuts)) :
    DeliversAll (in_buff.recv (sample 0 m).frame)
      (pduReadBuffer (in_buff.recv (sample 0 m).frame) in_pdu).2 lens cuts := by
  intro ps hps hlen
  have hok : (sample 0 m).Ok := sample_ok (by decide) hm
  have hall := h (sample 0 m :: ps) (List.forall_mem_cons.mpr ⟨hok, hps⟩) (by simp [sample, hlen])
  have hframe : (sample 0 m).frame.length = m + 7 := by simp [PyPdu.length_frame, sample]
  rw [List.map_cons, List.flatten_cons, List.splitLengths_cons, List.take_left' hframe,
    List.drop_left' hframe] at hall
  exact (List.forall₂_cons.mp hall).2

/-- The cuts are the ends of the frames.  The induction is on the lengths. -/
theorem DeliversAll.cuts_eq {in_buff : Buff} {in_pdu : Pdu} {lens cuts : List ℕ}
    (hlens : ∀ m ∈ lens, m ≤ 31) (hcuts : ∀ c ∈ cuts, 1 ≤ c ∧ c ≤ 38)
    (hsum : cuts.sum = (lens.map (· + 7)).sum) (h : DeliversAll in_buff in_pdu lens cuts) :
    cuts = lens.map (· + 7) := by
  induction lens generalizing cuts in_buff in_pdu with
  | nil =>
    have hcount := h.length_eq hlens
    simpa [eq_comm] using hcount
  | cons m lens ih =>
    cases cuts with
    | nil =>
      have hcount := h.length_eq hlens
      simp at hcount
    | cons c cuts =>
      obtain rfl := h.first hlens hcuts hsum
      rw [List.forall_mem_cons] at hlens hcuts
      rw [List.map_cons, ih hlens.2 hcuts.2 (by simpa using hsum) (h.tail hlens.1)]

/-- **Every object is delivered if and only if each `recv` returns one frame.**  For every
    list of text lengths, every list of `recv` lengths with the same total, and every contents
    of the two locals. -/
theorem commandTCP_delivers_iff (in_buff : Buff) (in_pdu : Pdu) (lens cuts : List ℕ)
    (hlens : ∀ m ∈ lens, m ≤ 31) (hcuts : ∀ c ∈ cuts, 1 ≤ c ∧ c ≤ PDU_SIZE + 2)
    (hsum : cuts.sum = (lens.map (· + 7)).sum) :
    (∀ ps : List PyPdu, (∀ p ∈ ps, p.Ok) → ps.map (·.msg.length) = lens →
        List.Forall₂ Delivered ps
          (commandTCP in_buff in_pdu (cuts.splitLengths (cmdProcess ps).flatten))) ↔
      cuts = lens.map (· + 7) := by
  constructor
  · intro h
    have hall : DeliversAll in_buff in_pdu lens cuts := by
      intro ps hps hlen
      rw [← cmdProcess_ok hps]
      exact h ps hps hlen
    exact hall.cuts_eq hlens hcuts hsum
  · rintro rfl ps hps hlen
    rw [cmdProcess_ok hps, ← length_frames hlen, frames_splitLengths]
    exact delivered_frames hps _ _

/-- Two commands with texts of two and three characters, in one `recv` each. -/
theorem commandTCP_delivers_iff_two :
    (∀ ps : List PyPdu, (∀ p ∈ ps, p.Ok) → ps.map (·.msg.length) = [2, 3] →
        List.Forall₂ Delivered ps (commandTCP (List.Vector.replicate _ 0) Pdu.zeroed
          ([9, 10].splitLengths (cmdProcess ps).flatten))) ↔
      [9, 10] = [2, 3].map (· + 7) :=
  commandTCP_delivers_iff _ _ [2, 3] [9, 10] (by decide) (by decide) (by decide)

/-- **A command is lost** when TCP merges two frames into one `recv`. -/
theorem command_lost :
    ¬ ∀ (ps : List PyPdu) (chunks : List (List UInt8)) (in_buff : Buff) (in_pdu : Pdu),
      (∀ p ∈ ps, p.Ok) → (∀ chunk ∈ chunks, 1 ≤ chunk.length ∧ chunk.length ≤ PDU_SIZE + 2) →
      chunks.flatten = (cmdProcess ps).flatten →
      List.Forall₂ Delivered ps (commandTCP in_buff in_pdu chunks) := by
  intro h
  let ps : List PyPdu := [⟨6, 0, 0, 1, []⟩, ⟨1, 0, 0, 1, []⟩]
  have hps : ∀ p ∈ ps, p.Ok := by
    intro p hp
    simp only [ps, List.mem_cons, List.not_mem_nil, or_false] at hp
    rcases hp with rfl | rfl
    · exact ⟨by decide, by decide, by decide, by decide, by decide, by simp⟩
    · exact ⟨by decide, by decide, by decide, by decide, by decide, by simp⟩
  have hall := h ps [(cmdProcess ps).flatten] (List.Vector.replicate _ 0) Pdu.zeroed hps
    (by decide) (by simp)
  exact absurd hall.length_eq (by decide)

end Wheelson.Tcp
