import Wheelson.Cam.Capture
import Wheelson.Cam.JpegClient

namespace Wheelson.Cam

/-!
# The client in step with the capture

While a capture is read, three scanners run over the same markers: `camCapture` itself, the
client on the buffers committed so far, and a scan of the FIFO content read so far.

* `Writer.ahead` — the client after the committed buffers and the frame bytes in the present
  buffer.
* `Sync` — `ahead` is where the scan of the capture is, and it has emitted no more than the
  last frame of the capture.
* `Harmless` — the steps that keep this; `sync_byte`, `sync_finish`.
-/

open Machine Scan

/-! ### The client and the buffer -/

/-- The client after the committed buffers. -/
def Writer.client (cam : Writer) : Client := run (Scan.step jpeg) (.init 0) cam.commits.flatten

/-- How many bytes of the buffer belong to a frame of the capture. -/
def Writer.used (cam : Writer) : ℕ := if cam.is_header then cam.i else cam.kept

/-- The client after these bytes too. -/
def Writer.ahead (cam : Writer) : Client :=
  run (Scan.step jpeg) cam.client (cam.buffer.take cam.used)

/-- The last byte sent, 0 before the first. -/
def Writer.lastSent (cam : Writer) : UInt8 := cam.commits.flatten.getLastD 0

/-- The steps that do no harm.  An end marker ends a frame within the buffer, or stands
    outside a frame before the capture has flushed; a header outside a frame comes before the
    capture has flushed; and when the last buffer is flushed, no frame is open and the bytes
    behind the last frame hold no header. -/
def Harmless (size : ℕ) (cam : Writer) : Ev → Prop
  | .start => True
  | .byte b =>
    (b = 0xD9 ∧ cam.temp = 0xFF →
      if cam.is_header then cam.i < size else cam.flushed = false) ∧
    (b = 0xD8 ∧ cam.temp = 0xFF → cam.is_header = true ∨ cam.flushed = false)
  | .finish =>
    cam.is_header = false ∧ NoPair 0xFF 0xD8 ((cam.lastSent :: cam.buffer).drop cam.kept)

instance (size : ℕ) (cam : Writer) (e : Ev) : Decidable (Harmless size cam e) := by
  cases e <;> unfold Harmless <;> infer_instance

/-- The client is in step with the scan `d` of the capture, having emitted `base` before it. -/
structure Sync (size : ℕ) (base : List (List UInt8)) (d : Client) (cam : Writer) : Prop where
  -- `camCapture` looks for the same markers as the scan
  temp : cam.temp = d.temp
  header : cam.is_header = d.header
  length : ∀ k, (cam.buffers k).length = size
  i_le : cam.i ≤ size
  i_zero : cam.is_header = false → cam.i = 0
  kept_le : cam.kept ≤ size
  -- the client takes part in the present frame, and in the last one, which is still to be sent
  inside : cam.is_header = true → cam.ahead = { d with images := base }
  outside : cam.is_header = false → cam.ahead.Idle ∧
    (cam.kept = 0 ∧ cam.ahead.images = base ∨
      0 < cam.kept ∧ cam.ahead.temp = 0xD9 ∧
        ∃ F, d.images.getLast? = some F ∧ cam.ahead.images = base ++ [F])
  unflushed : cam.flushed = false → cam.client.Idle ∧ cam.client.images = base

variable {size num_buffs : ℕ} {base : List (List UInt8)} {d : Client} {cam cam' : Writer}
  {b : UInt8}

/-! ### Storing bytes -/

/-- What a store does to the writer. -/
structure Stored (size : ℕ) (v : UInt8) (cam cam' : Writer) : Prop where
  lt : cam.i < size
  i : cam'.i = cam.i + 1
  buffer : cam'.buffer = cam.buffer.set cam.i v
  other : ∀ k, k ≠ cam.head → cam'.buffers k = cam.buffers k
  head : cam'.head = cam.head
  commits : cam'.commits = cam.commits
  temp : cam'.temp = cam.temp
  is_header : cam'.is_header = cam.is_header
  flushed : cam'.flushed = cam.flushed
  kept : cam'.kept = cam.kept

theorem stored_of_store {v : UInt8} (h : cam.store size v = some cam') :
    Stored size v cam cam' := by
  unfold Writer.store at h
  rw [Option.ite_none_right_eq_some] at h
  obtain ⟨hlt, heq⟩ := h
  cases heq
  exact ⟨hlt, rfl, Function.update_self .., fun k hk => Function.update_of_ne hk _ _, rfl, rfl, rfl,
    rfl, rfl, rfl⟩

theorem Stored.length {v : UInt8} (h : Stored size v cam cam')
    (hlen : ∀ k, (cam.buffers k).length = size) (k : ℕ) : (cam'.buffers k).length = size := by
  by_cases hk : k = cam.head
  · rw [hk, ← h.head]
    show cam'.buffer.length = size
    rw [h.buffer, List.length_set]
    exact hlen _
  · rw [h.other k hk]
    exact hlen k

theorem client_congr (h : cam'.commits = cam.commits) : cam'.client = cam.client := by
  unfold Writer.client
  rw [h]

theorem client_update : (cam.update num_buffs).client
    = run (Scan.step jpeg) cam.client cam.buffer := by
  unfold Writer.client Writer.update
  rw [List.flatten_append, run_append]
  simp

/-- The bytes before the stored one stay, and it comes behind them. -/
theorem take_set {l : List UInt8} {i : ℕ} (hi : i < l.length) (v : UInt8) :
    (l.set i v).take (i + 1) = l.take i ++ [v] := by
  rw [List.take_add_one, List.take_set_of_le le_rfl, List.getElem?_set_self hi]
  rfl

/-- One more frame byte in the buffer is one more step of the client. -/
theorem ahead_store (hclient : cam'.client = cam.client)
    (hbuffer : cam'.buffer = cam.buffer.set cam.used b) (hused : cam'.used = cam.used + 1)
    (hlt : cam.used < cam.buffer.length) : cam'.ahead = Scan.step jpeg cam.ahead b := by
  unfold Writer.ahead
  rw [hclient, hbuffer, hused, take_set hlt, run_concat]

theorem used_inside (h : cam.is_header = true) : cam.used = cam.i := if_pos h

theorem used_outside (h : cam.is_header = false) : cam.used = cam.kept :=
  if_neg (by rw [h]; exact Bool.false_ne_true)

/-! ### One byte -/

/-- The client in a frame takes a byte as the scan of the capture does. -/
theorem step_images (hheader : d.header = true) (hstop : ¬ (b = 0xD9 ∧ d.temp = 0xFF)) :
    Scan.step jpeg { d with images := base } b = { Scan.step jpeg d b with images := base } := by
  rw [step_body hheader hstop, step_body (by exact hheader) (by exact hstop)]

/-- A body byte, stored so that the client is ahead by it. -/
theorem sync_inside (hs : Sync size base d cam) (hheader : cam.is_header = true)
    (hstop : ¬ (b = 0xD9 ∧ cam.temp = 0xFF)) (htemp : cam'.temp = b)
    (hheader' : cam'.is_header = true) (hlen : ∀ k, (cam'.buffers k).length = size)
    (hi : cam'.i ≤ size) (hkept : cam'.kept = cam.kept)
    (hahead : cam'.ahead = Scan.step jpeg cam.ahead b)
    (hunflushed : cam'.flushed = false → cam.flushed = false ∧ cam'.client = cam.client) :
    Sync size base (Scan.step jpeg d b) cam' := by
  have hd : d.header = true := hs.header ▸ hheader
  have hdstop : ¬ (b = 0xD9 ∧ d.temp = 0xFF) := hs.temp ▸ hstop
  have houtside {P : Prop} (hh : cam'.is_header = false) : P :=
    absurd (hheader'.symm.trans hh) (by decide)
  refine ⟨?_, ?_, hlen, hi, houtside, ?_, ?_, houtside, ?_⟩
  · rw [step_temp]
    exact htemp
  · rw [hheader', step_body hd hdstop]
    exact hd.symm
  · rw [hkept]
    exact hs.kept_le
  · intro _
    rw [hahead, hs.inside hheader, step_images hd hdstop]
  · intro hf
    obtain ⟨hold, hclient⟩ := hunflushed hf
    rw [hclient]
    exact hs.unflushed hold

/-- A body byte that fits the buffer. -/
theorem sync_body (hs : Sync size base d cam) (hheader : cam.is_header = true)
    (hstop : ¬ (b = 0xD9 ∧ cam.temp = 0xFF))
    (h : Writer.store size { cam with temp := b } b = some cam') :
    Sync size base (Scan.step jpeg d b) cam' := by
  have hst := stored_of_store h
  have hheader' : cam'.is_header = true := hst.is_header.trans hheader
  have hi : cam'.i = cam.i + 1 := hst.i
  have hlt : cam.i < size := hst.lt
  have hclient : cam'.client = cam.client := client_congr hst.commits
  have hahead : cam'.ahead = Scan.step jpeg cam.ahead b := by
    apply ahead_store hclient
    · rw [used_inside hheader]
      exact hst.buffer
    · rw [used_inside hheader, used_inside hheader', hi]
    · rw [used_inside hheader]
      exact (hs.length cam.head).symm ▸ hlt
  exact sync_inside hs hheader hstop hst.temp hheader' (hst.length hs.length) (by omega) hst.kept
    hahead fun hf => ⟨hst.flushed ▸ hf, hclient⟩

/-- A body byte for the next buffer. -/
theorem sync_flush (hs : Sync size base d cam) (hheader : cam.is_header = true)
    (hstop : ¬ (b = 0xD9 ∧ cam.temp = 0xFF)) (hfull : ¬ cam.i < size)
    (h : Writer.store size
      { Writer.update num_buffs { cam with temp := b } with i := 0, flushed := true } b = some cam') :
    Sync size base (Scan.step jpeg d b) cam' := by
  have hst := stored_of_store h
  have hheader' : cam'.is_header = true := hst.is_header.trans hheader
  have hi : cam'.i = 1 := hst.i
  have hpos : 0 < size := hst.lt
  -- the whole buffer is sent, so the client is where it was expected
  have hclient : cam'.client = cam.ahead := by
    have hupdate : cam'.client = (Writer.update num_buffs { cam with temp := b }).client :=
      client_congr hst.commits
    rw [hupdate, client_update]
    unfold Writer.ahead
    rw [used_inside hheader, List.take_of_length_le]
    · rfl
    · have hlen : cam.buffer.length = size := hs.length cam.head
      omega
  have hahead : cam'.ahead = Scan.step jpeg cam.ahead b := by
    have hbuffer : cam'.buffer.take 1 = [b] := by
      rw [hst.buffer]
      refine take_set (i := 0) ?_ b
      exact (hs.length _).symm ▸ hpos
    rw [Writer.ahead, used_inside hheader', hi, hbuffer, hclient, run_cons, run_nil]
  refine sync_inside hs hheader hstop hst.temp hheader' (hst.length hs.length) (by omega) hst.kept
    hahead ?_
  intro hf
  rw [hst.flushed] at hf
  cases hf

/-- The last byte of a frame. -/
theorem sync_stop (hs : Sync size base d cam) (hheader : cam.is_header = true)
    (hstop : b = 0xD9 ∧ cam.temp = 0xFF)
    (h : (Writer.store size { cam with temp := b } b).map (fun c =>
      { c with is_header := false, i := 0, kept := if cam.is_header then c.i else 0 }) = some cam') :
    Sync size base (Scan.step jpeg d b) cam' := by
  obtain ⟨c, hc, rfl⟩ := Option.map_eq_some_iff.mp h
  have hst := stored_of_store hc
  have hd : d.header = true := hs.header ▸ hheader
  have hi : c.i = cam.i + 1 := hst.i
  have hlt : cam.i < size := hst.lt
  rw [if_pos hheader]
  have hdt : d.temp = 0xFF := hs.temp.symm.trans hstop.2
  rw [step_stop hd ⟨hstop.1, hdt⟩]
  have hahead : Writer.ahead { c with is_header := false, i := 0, kept := c.i }
      = { temp := b, header := false, image := [], images := base ++ [d.image ++ [b]] } := by
    have hstore : Writer.ahead { c with is_header := false, i := 0, kept := c.i }
        = Scan.step jpeg cam.ahead b := by
      refine ahead_store (client_congr hst.commits) ?_ ?_ ?_
      · rw [used_inside hheader]
        exact hst.buffer
      · rw [used_inside hheader]
        exact hi
      · rw [used_inside hheader]
        exact (hs.length cam.head).symm ▸ hlt
    rw [hstore, hs.inside hheader]
    exact step_stop hd ⟨hstop.1, hdt⟩
  refine ⟨hst.temp, rfl, hst.length hs.length, Nat.zero_le _, fun _ => rfl, ?_, ?_, ?_, ?_⟩
  · show c.i ≤ size
    omega
  · intro hh
    cases hh
  · -- the frame is complete, in the buffer that the capture will send last
    intro _
    rw [hahead]
    refine ⟨⟨rfl, rfl⟩, .inr ⟨?_, hstop.1, d.image ++ [b], ?_, rfl⟩⟩
    · show 0 < c.i
      omega
    · simp
  · intro hf
    have hclient : c.client = cam.client := client_congr hst.commits
    show c.client.Idle ∧ c.client.images = base
    rw [hclient]
    exact hs.unflushed (hst.flushed ▸ hf)

/-- An end marker outside a frame: it overwrites the first byte of the buffer. -/
theorem sync_stray (hs : Sync size base d cam) (hheader : cam.is_header = false)
    (hstop : b = 0xD9 ∧ cam.temp = 0xFF) (hflushed : cam.flushed = false)
    (h : (Writer.store size { cam with temp := b } b).map (fun c =>
      { c with is_header := false, i := 0, kept := if cam.is_header then c.i else 0 }) = some cam') :
    Sync size base (Scan.step jpeg d b) cam' := by
  obtain ⟨c, hc, rfl⟩ := Option.map_eq_some_iff.mp h
  have hst := stored_of_store hc
  have hd : d.header = false := hs.header ▸ hheader
  have hclient : c.client = cam.client := client_congr hst.commits
  have hunflushed := hs.unflushed hflushed
  rw [if_neg (by rw [hheader]; exact Bool.false_ne_true)]
  have hstart : ¬ (b = jpeg.start₂ ∧ d.temp = jpeg.start₁) := by
    rintro ⟨h', -⟩
    rw [hstop.1] at h'
    exact absurd h' (by decide)
  rw [step_idle hd hstart]
  refine ⟨hst.temp, hd.symm, hst.length hs.length, Nat.zero_le _, fun _ => rfl, Nat.zero_le _, ?_,
    ?_, ?_⟩
  · intro hh
    cases hh
  · -- no byte of the buffer counts any more, and none of a frame has been sent
    intro _
    have hahead : Writer.ahead { c with is_header := false, i := 0, kept := 0 } = c.client := rfl
    rw [hahead, hclient]
    exact ⟨hunflushed.1, .inl ⟨rfl, hunflushed.2⟩⟩
  · intro _
    show c.client.Idle ∧ c.client.images = base
    rw [hclient]
    exact hunflushed

/-- The header of a frame. -/
theorem sync_start (hs : Sync size base d cam) (hheader : cam.is_header = false)
    (hidle : d.header = false → d.image = []) (hstart : b = 0xD8 ∧ cam.temp = 0xFF)
    (hflushed : cam.flushed = false)
    (h : (Writer.store size { cam with temp := b, is_header := true, kept := 0 } cam.temp).bind
      (fun c => c.store size b) = some cam') :
    Sync size base (Scan.step jpeg d b) cam' := by
  obtain ⟨c, hc, hc'⟩ := Option.bind_eq_some_iff.mp h
  have hst := stored_of_store hc
  have hst' := stored_of_store hc'
  have hd : d.header = false := hs.header ▸ hheader
  have hdtemp : d.temp = 0xFF := hs.temp.symm.trans hstart.2
  have hheader' : cam'.is_header = true := hst'.is_header.trans hst.is_header
  have hi0 : cam.i = 0 := hs.i_zero hheader
  have hi1 : c.i = 1 := by
    have hi : c.i = cam.i + 1 := hst.i
    omega
  have hi2 : cam'.i = 2 := by
    have hi := hst'.i
    omega
  have hsize : 1 < size := hi1 ▸ hst'.lt
  have hkept : cam'.kept = 0 := hst'.kept.trans hst.kept
  have hclient : cam'.client = cam.client :=
    (client_congr hst'.commits).trans (client_congr hst.commits)
  have hunflushed := hs.unflushed hflushed
  rw [step_start hd ⟨hstart.1, hdtemp⟩]
  have hlen := hs.length cam.head
  have houtside {P : Prop} (hh : cam'.is_header = false) : P :=
    absurd (hheader'.symm.trans hh) (by decide)
  refine ⟨?_, hheader', hst'.length (hst.length hs.length), by omega, houtside, by omega, ?_,
    houtside, ?_⟩
  · exact hst'.temp.trans hst.temp
  · -- the header overwrites the beginning of the buffer, and the client has had no byte of a frame
    intro _
    have hfirst : c.buffer = cam.buffer.set 0 cam.temp := by
      rw [← hi0]
      exact hst.buffer
    have hbuffer : cam'.buffer.take 2 = [0xFF, 0xD8] := by
      rw [hst'.buffer, hi1, hfirst, take_set (by rw [List.length_set]; exact hlen.symm ▸ hsize),
        take_set (by exact hlen.symm ▸ Nat.lt_of_succ_lt hsize), hstart.1, hstart.2]
      rfl
    unfold Writer.ahead
    rw [used_inside hheader', hi2, hbuffer, hclient]
    rw [show [0xFF, 0xD8] = [jpeg.start₁, jpeg.start₂] from rfl, run_start hunflushed.1,
      hidle hd, hunflushed.2, hdtemp, hstart.1]
    rfl
  · intro _
    rw [hclient]
    exact hunflushed

/-- Any other byte outside a frame. -/
theorem sync_skip (hs : Sync size base d cam) (hheader : cam.is_header = false)
    (hstart : ¬ (b = 0xD8 ∧ cam.temp = 0xFF)) :
    Sync size base (Scan.step jpeg d b) { cam with temp := b } := by
  have hd : d.header = false := hs.header ▸ hheader
  have hdstart : ¬ (b = 0xD8 ∧ d.temp = 0xFF) := hs.temp ▸ hstart
  rw [step_idle hd hdstart]
  refine ⟨rfl, hs.header, hs.length, hs.i_le, hs.i_zero, hs.kept_le, ?_, hs.outside, hs.unflushed⟩
  intro hh
  exact absurd (hheader.symm.trans hh) (by decide)

/-- **Step rule.** -/
theorem sync_byte (hs : Sync size base d cam) (hidle : d.header = false → d.image = [])
    (hh : Harmless size cam (.byte b)) (h : step size num_buffs cam (.byte b) = some cam') :
    Sync size base (Scan.step jpeg d b) cam' := by
  have h' : cam.byte size num_buffs b = some cam' := h
  by_cases hstop : b = 0xD9 ∧ cam.temp = 0xFF
  · rw [byte_stop hstop] at h'
    have hharm := hh.1 hstop
    cases hheader : cam.is_header with
    | true => exact sync_stop hs hheader hstop h'
    | false =>
      rw [hheader, if_neg Bool.false_ne_true] at hharm
      exact sync_stray hs hheader hstop hharm h'
  · cases hheader : cam.is_header with
    | true =>
      rw [byte_body hheader hstop] at h'
      split at h'
      · exact sync_body hs hheader hstop h'
      · rename_i hfull
        exact sync_flush hs hheader hstop hfull h'
    | false =>
      by_cases hstart : b = 0xD8 ∧ cam.temp = 0xFF
      · rw [byte_start hheader hstart] at h'
        have hflushed := (hh.2 hstart).resolve_left (by rw [hheader]; exact Bool.false_ne_true)
        exact sync_start hs hheader hidle hstart hflushed h'
      · rw [byte_skip hheader hstop hstart, Option.some.injEq] at h'
        subst h'
        exact sync_skip hs hheader hstart

/-! ### One capture -/

/-- The writer between two captures. -/
structure Rest (size : ℕ) (cam : Writer) : Prop where
  client : cam.client.Idle
  length : ∀ k, (cam.buffers k).length = size

theorem rest_boot : Rest size (boot size) where
  client := ⟨rfl, rfl⟩
  length _ := List.length_replicate

theorem sync_begin (hr : Rest size cam) (h : step size num_buffs cam .start = some cam') :
    Sync size cam.client.images (.init 0) cam' := by
  cases h
  refine ⟨rfl, rfl, hr.length, Nat.zero_le _, fun _ => rfl, Nat.zero_le _, ?_, ?_, ?_⟩
  · intro hh
    cases hh
  · intro _
    exact ⟨hr.client, .inl ⟨rfl, rfl⟩⟩
  · intro _
    exact ⟨hr.client, rfl⟩

/-- The list behind its first `k` letters, with the letter before it. -/
theorem drop_cons_eq {α : Type*} (x : α) (l : List α) {k : ℕ} (hk : k ≤ l.length) :
    (x :: l).drop k = (l.take k).getLastD x :: l.drop k := by
  induction l generalizing x k with
  | nil =>
    obtain rfl : k = 0 := by simpa using hk
    rfl
  | cons y l ih =>
    cases k with
    | zero => rfl
    | succ k =>
      rw [List.drop_succ_cons, ih y (by simpa using hk), List.take_succ_cons, List.getLastD_cons,
        List.drop_succ_cons]

theorem lastSent_eq : cam.lastSent = cam.client.temp := by
  unfold Writer.lastSent Writer.client
  rw [run_temp]
  rfl

theorem ahead_temp : cam.ahead.temp = (cam.buffer.take cam.used).getLastD cam.lastSent := by
  unfold Writer.ahead
  rw [run_temp, lastSent_eq]

/-- The flush at the end emits the last frame of the capture, or nothing. -/
theorem sync_finish (hs : Sync size base d cam) (hh : Harmless size cam .finish)
    (h : step size num_buffs cam .finish = some cam') :
    Rest size cam' ∧ (cam.kept = 0 ∧ cam'.client.images = base ∨
      0 < cam.kept ∧ ∃ F, d.images.getLast? = some F ∧ cam'.client.images = base ++ [F]) := by
  obtain ⟨hheader, hstale⟩ := hh
  obtain ⟨hidle, himages⟩ := hs.outside hheader
  cases h
  have hlen : cam.kept ≤ cam.buffer.length := (hs.length cam.head).symm ▸ hs.kept_le
  rw [drop_cons_eq _ _ hlen, ← used_outside hheader, ← ahead_temp] at hstale
  -- the old bytes behind the last frame hold no header for the client
  have hclient : (cam.update num_buffs).client
      = { cam.ahead with temp := (cam.buffer.drop cam.used).getLastD cam.ahead.temp } := by
    rw [client_update, ← run_idle (m := jpeg) hidle.header hstale]
    unfold Writer.ahead
    rw [← run_append, List.take_append_drop]
  rw [hclient]
  refine ⟨⟨?_, hs.length⟩, ?_⟩
  · rw [hclient]
    exact ⟨hidle.header, hidle.image⟩
  · rcases himages with hnone | ⟨hpos, -, hF⟩
    · exact .inl hnone
    · exact .inr ⟨hpos, hF⟩

end Wheelson.Cam
