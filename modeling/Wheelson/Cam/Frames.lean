import Mathlib.Data.List.Forall2
import Wheelson.Cam.Sync

namespace Wheelson.Cam

/-!
# Frames, end to end

The buffers are sent whole, with the bytes that older frames left in them.

* `Swept` — behind its first byte no buffer holds a header, so old bytes start nothing.
* `Tidy` — the same while a frame overwrites a buffer from the front: the seam between new
  and old bytes is not counted.
* `stream_end_to_end` — a frame a capture, whatever follows it, comes out at the client.
-/

open Machine Scan

variable {size num_buffs : ℕ} {base : List (List UInt8)} {d : Client} {cam cam' : Writer}
  {b : UInt8}

/-! ### Old bytes -/

/-- No buffer holds a header behind its first byte. -/
def Swept (cam : Writer) : Prop := ∀ k, NoPair 0xFF 0xD8 (cam.buffers k).tail

/-- No header in the other buffers, nor in the new bytes of this one behind the first, nor in
    its old bytes. -/
structure Tidy (cam : Writer) : Prop where
  others : ∀ k, k ≠ cam.head → NoPair 0xFF 0xD8 (cam.buffers k).tail
  front : NoPair 0xFF 0xD8 (cam.buffer.take cam.used).tail
  back : NoPair 0xFF 0xD8 (cam.buffer.drop (max cam.used 1))
  positive : cam.is_header = true → 0 < cam.i

/-- A frame that has one byte in the buffer, or none, disturbs nothing. -/
theorem Swept.tidy (hsw : Swept cam) (hused : cam.used ≤ 1)
    (hpos : cam.is_header = true → 0 < cam.i) : Tidy cam where
  others k _ := hsw k
  front := by
    have hlen : (cam.buffer.take cam.used).tail = [] := by
      rw [← List.length_eq_zero_iff, List.length_tail, List.length_take]
      omega
    rw [hlen]
    exact noPair_nil _ _
  back := by
    rw [max_eq_right hused, List.drop_one]
    exact hsw cam.head
  positive := hpos

/-- Writing the first byte of a buffer keeps the others. -/
theorem Swept.store (hsw : Swept cam) {v : UInt8} (hst : Stored size v cam cam') (hi : cam.i = 0) :
    Swept cam' := by
  intro k
  by_cases hk : k = cam.head
  · have hbuffer : cam'.buffers k = cam.buffer.set 0 v := by
      rw [hk, ← hst.head, ← hi]
      exact hst.buffer
    have htail : (cam.buffer.set 0 v).tail = cam.buffer.tail := by
      cases cam.buffer <;> rfl
    rw [hbuffer, htail]
    exact hsw cam.head
  · rw [hst.other k hk]
    exact hsw k

/-- Where the new bytes fill the buffer, or do not end in the first byte of a header, the
    seam holds no header either. -/
theorem Tidy.swept (ht : Tidy cam) (hpos : 0 < cam.used) (hlen : 0 < cam.buffer.length)
    (hseam : cam.buffer.length ≤ cam.used ∨ cam.ahead.temp ≠ 0xFF) : Swept cam := by
  intro k
  by_cases hk : k = cam.head
  · have hnew : cam.buffer.take cam.used ≠ [] := by
      rw [← List.length_pos_iff, List.length_take]
      omega
    have hold : NoPair 0xFF 0xD8 (cam.buffer.drop cam.used) := by
      have hback := ht.back
      rwa [max_eq_left hpos] at hback
    have hjoin := ht.front.tail_append (x := cam.lastSent) hnew hold <|
      hseam.imp List.drop_of_length_le (by rw [ahead_temp]; exact id)
    rw [List.take_append_drop] at hjoin
    exact hk ▸ hjoin
  · exact ht.others k hk

/-- A frame grows by a byte in the buffer. -/
theorem Tidy.store (ht : Tidy cam) {v : UInt8} (hst : Stored size v cam cam')
    (hlt : cam.used < cam.buffer.length) (hi : cam.used = cam.i) (hpos : 0 < cam.i)
    (hused : cam'.used = cam.used + 1)
    (hseam : cam.used = 1 ∨ ¬ (cam.ahead.temp = 0xFF ∧ v = 0xD8)) : Tidy cam' := by
  have hbuffer : cam'.buffer = cam.buffer.set cam.used v := by
    rw [hi]
    exact hst.buffer
  refine ⟨?_, ?_, ?_, ?_⟩
  · -- the other buffers are as they were
    intro k hk
    rw [hst.head] at hk
    rw [hst.other k hk]
    exact ht.others k hk
  · rw [hused, hbuffer, take_set hlt]
    rcases hseam with hone | hseam
    · -- the second byte of the frame is the only one behind the first
      have hfirst : (cam.buffer.take cam.used ++ [v]).tail = [v] := by
        obtain ⟨x, hx⟩ : ∃ x, cam.buffer.take cam.used = [x] := by
          rw [← List.length_eq_one_iff, List.length_take]
          omega
        rw [hx]
        rfl
      rw [hfirst]
      exact noPair_singleton _ _ _
    · rw [ahead_temp] at hseam
      exact ht.front.tail_concat hseam
  · -- one old byte less
    have hback := ht.back
    rw [max_eq_left (by omega)] at hback
    rw [hused, max_eq_left (by omega), hbuffer, List.drop_set_of_lt (by omega), ← List.drop_drop]
    exact hback.drop 1
  · intro _
    have hi' := hst.i
    omega

/-! ### One byte -/

/-- The bytes of a capture that holds one frame: end markers only in it, and one header,
    before anything is in the buffer. -/
structure Framed (cam : Writer) (b : UInt8) : Prop where
  stop : b = 0xD9 ∧ cam.temp = 0xFF → cam.is_header = true
  start : b = 0xD8 ∧ cam.temp = 0xFF → cam.is_header = false ∧ cam.flushed = false ∧ cam.kept = 0

/-- A byte that ends no marker is framed. -/
theorem framed_of_noPair (h8 : ¬ (cam.temp = 0xFF ∧ b = 0xD8))
    (h9 : ¬ (cam.temp = 0xFF ∧ b = 0xD9)) :
    Framed cam b where
  stop h := absurd h.symm h9
  start h := absurd h.symm h8

/-- The writer stays in the frame, in the buffer it is in. -/
theorem tidy_body (hs : Sync size base d cam) (ht : Tidy cam) (hheader : cam.is_header = true)
    (h8 : ¬ (b = 0xD8 ∧ cam.temp = 0xFF))
    (hst : Stored size b { cam with temp := b } cam') (hused : cam'.used = cam.i + 1) :
    Tidy cam' := by
  have hcam : cam.used = cam.i := used_inside hheader
  have hlt : cam.i < size := hst.lt
  have htemp : cam.ahead.temp = cam.temp := by
    rw [hs.inside hheader, hs.temp]
  have ht' : Tidy { cam with temp := b } := ⟨ht.others, ht.front, ht.back, ht.positive⟩
  refine ht'.store hst ?_ hcam (ht.positive hheader) ?_ (.inr ?_)
  · show cam.used < cam.buffer.length
    rw [hcam]
    exact (hs.length cam.head).symm ▸ hlt
  · exact hused.trans (congrArg (· + 1) hcam.symm)
  · show ¬ (cam.ahead.temp = 0xFF ∧ b = 0xD8)
    rw [htemp]
    exact fun h => h8 h.symm

/-- The header of a frame goes to the beginning of the buffer. -/
theorem tidy_start (ht : Tidy cam) (hused : cam.used = 0) (hi : cam.i = 0)
    (hlen : ∀ k, (cam.buffers k).length = size)
    (h : (Writer.store size { cam with temp := b, is_header := true, kept := 0 } cam.temp).bind
      (fun c => c.store size b) = some cam') : Tidy cam' := by
  obtain ⟨c, hc, hc'⟩ := Option.bind_eq_some_iff.mp h
  have hst := stored_of_store hc
  have hst' := stored_of_store hc'
  have hsw : Swept { cam with temp := b, is_header := true, kept := 0 } := by
    intro k
    by_cases hk : k = cam.head
    · have hback := ht.back
      rw [hused, max_eq_right (Nat.zero_le 1), List.drop_one] at hback
      show NoPair 0xFF 0xD8 (cam.buffers k).tail
      rw [hk]
      exact hback
    · exact ht.others k hk
  have hswc : Swept c := hsw.store hst hi
  have hic : c.i = 1 := by
    rw [hst.i]
    exact congrArg (· + 1) hi
  have husedc : c.used = 1 := (used_inside hst.is_header).trans hic
  have htc : Tidy c := hswc.tidy (by omega) (fun _ => by omega)
  refine htc.store hst' ?_ (by omega) (by omega) ?_ (.inl husedc)
  · have hlenc : c.buffer.length = size := hst.length hlen c.head
    have hlt := hst'.lt
    omega
  · have hi' := hst'.i
    rw [used_inside (hst'.is_header.trans hst.is_header)]
    omega

/-- **Step rule.** -/
theorem tidy_byte (hs : Sync size base d cam) (ht : Tidy cam) (hf : Framed cam b)
    (h : step size num_buffs cam (.byte b) = some cam') : Tidy cam' := by
  have h' : cam.byte size num_buffs b = some cam' := h
  by_cases hstop : b = 0xD9 ∧ cam.temp = 0xFF
  · -- the last byte of the frame
    have hheader := hf.stop hstop
    rw [byte_stop hstop] at h'
    obtain ⟨c, hc, rfl⟩ := Option.map_eq_some_iff.mp h'
    have hst := stored_of_store hc
    have hd8 : ¬ (b = 0xD8 ∧ cam.temp = 0xFF) := by
      rintro ⟨hb, -⟩
      rw [hstop.1] at hb
      exact absurd hb (by decide)
    have hused : c.used = cam.i + 1 := (used_inside (hst.is_header.trans hheader)).trans hst.i
    have htc := tidy_body hs ht hheader hd8 hst hused
    rw [if_pos hheader]
    have hkept : Writer.used { c with is_header := false, i := 0, kept := c.i } = c.used :=
      (used_inside (hst.is_header.trans hheader)).symm
    refine ⟨htc.others, ?_, ?_, fun hh => Bool.noConfusion hh⟩
    · rw [hkept]
      exact htc.front
    · rw [hkept]
      exact htc.back
  · cases hheader : cam.is_header with
    | true =>
      -- a frame has no second header
      have hd8 : ¬ (b = 0xD8 ∧ cam.temp = 0xFF) := by
        intro hstart
        exact absurd (hheader.symm.trans (hf.start hstart).1) (by decide)
      rw [byte_body hheader hstop] at h'
      split at h'
      · have hst := stored_of_store h'
        exact tidy_body hs ht hheader hd8 hst
          ((used_inside (hst.is_header.trans hheader)).trans hst.i)
      · -- the buffer is full: the next one has one new byte
        rename_i hfull
        have hst := stored_of_store h'
        have hpos := ht.positive hheader
        have hlen : cam.buffer.length = size := hs.length cam.head
        have hused : cam.used = cam.i := used_inside hheader
        have hsize : 0 < size := hst.lt
        have hsw : Swept { Writer.update num_buffs { cam with temp := b } with
            i := 0, flushed := true } :=
          ht.swept (by omega) (by omega) (.inl (by omega))
        have hsw' : Swept cam' := hsw.store hst rfl
        have hi : cam'.i = 1 := hst.i
        refine hsw'.tidy ?_ (fun _ => by omega)
        rw [used_inside (hst.is_header.trans hheader)]
        omega
    | false =>
      by_cases hstart : b = 0xD8 ∧ cam.temp = 0xFF
      · obtain ⟨-, -, hkept⟩ := hf.start hstart
        have hused : cam.used = 0 := (used_outside hheader).trans hkept
        rw [byte_start hheader hstart] at h'
        exact tidy_start ht hused (hs.i_zero hheader) hs.length h'
      · rw [byte_skip hheader hstop hstart, Option.some.injEq] at h'
        subst h'
        exact ⟨ht.others, ht.front, ht.back, ht.positive⟩

/-! ### One capture -/

/-- The writer after the bytes `pre` of a capture. -/
structure Reading (size : ℕ) (base : List (List UInt8)) (pre : List UInt8) (cam : Writer) : Prop where
  sync : Sync size base (run (Scan.step jpeg) (.init 0) pre) cam
  tidy : Tidy cam

theorem reading_byte {pre : List UInt8} (hr : Reading size base pre cam) (hf : Framed cam b)
    (h : step size num_buffs cam (.byte b) = some cam') : Reading size base (pre ++ [b]) cam' := by
  have hseg := segment_run (m := jpeg) (by decide : (0 : UInt8) ≠ jpeg.start₁) pre
  have hharm : Harmless size cam (.byte b) := by
    refine ⟨?_, fun hstart => .inr (hf.start hstart).2.1⟩
    intro hstop
    rw [if_pos (hf.stop hstop)]
    -- the store of the end marker is within the buffer
    have h' : cam.byte size num_buffs b = some cam' := h
    rw [byte_stop hstop] at h'
    obtain ⟨c, hc, -⟩ := Option.map_eq_some_iff.mp h'
    exact (stored_of_store hc).lt
  refine ⟨?_, tidy_byte hr.sync hr.tidy hf h⟩
  rw [run_concat]
  exact sync_byte hr.sync hseg.idle hharm h

/-- A byte that ends no marker leaves the mode and the end of the last frame alone. -/
theorem byte_plain (h8 : ¬ (cam.temp = 0xFF ∧ b = 0xD8)) (h9 : ¬ (cam.temp = 0xFF ∧ b = 0xD9))
    (h : step size num_buffs cam (.byte b) = some cam') :
    cam'.temp = b ∧ cam'.is_header = cam.is_header ∧ cam'.kept = cam.kept := by
  have h' : cam.byte size num_buffs b = some cam' := h
  have hstop : ¬ (b = 0xD9 ∧ cam.temp = 0xFF) := fun hp => h9 hp.symm
  cases hheader : cam.is_header with
  | true =>
    rw [byte_body hheader hstop] at h'
    split at h'
    all_goals
      have hst := stored_of_store h'
      exact ⟨hst.temp, hst.is_header.trans hheader, hst.kept⟩
  | false =>
    rw [byte_skip hheader hstop fun hp => h8 hp.symm, Option.some.injEq] at h'
    subst h'
    exact ⟨rfl, hheader, rfl⟩

/-- Bytes without markers. -/
theorem reading_plain {pre bytes : List UInt8} (hr : Reading size base pre cam)
    (h8 : NoPair 0xFF 0xD8 (cam.temp :: bytes)) (h9 : NoPair 0xFF 0xD9 (cam.temp :: bytes))
    (h : exec (step size num_buffs) cam (bytes.map .byte) = some cam') :
    Reading size base (pre ++ bytes) cam' ∧ cam'.temp = bytes.getLastD cam.temp ∧
      cam'.is_header = cam.is_header ∧ cam'.kept = cam.kept := by
  induction bytes generalizing pre cam with
  | nil =>
    cases h
    rw [List.append_nil]
    exact ⟨hr, rfl, rfl, rfl⟩
  | cons b bytes ih =>
    rw [List.map_cons] at h
    obtain ⟨c, hc, h⟩ := exec_cons_eq_some.mp h
    rw [noPair_cons_cons] at h8 h9
    have hstep := reading_byte hr (framed_of_noPair h8.1 h9.1) hc
    obtain ⟨htemp, hheader, hkept⟩ := byte_plain h8.1 h9.1 hc
    rw [← htemp] at h8 h9
    obtain ⟨hrun, htemp', hheader', hkept'⟩ := ih hstep h8.2 h9.2 h
    rw [List.append_assoc] at hrun
    refine ⟨hrun, ?_, hheader'.trans hheader, hkept'.trans hkept⟩
    rw [htemp', htemp, List.getLastD_cons]

/-- The beginning of a capture, up to the header. -/
theorem reading_open (hr : Rest size cam) (hsw : Swept cam)
    (h : exec (step size num_buffs) cam [.start, .byte 0xFF, .byte 0xD8] = some cam') :
    Reading size cam.client.images [0xFF, 0xD8] cam' ∧ cam'.temp = 0xD8 ∧ cam'.is_header = true := by
  obtain ⟨c₀, h₀, h⟩ := exec_cons_eq_some.mp h
  have hbegin : Sync size cam.client.images (run (Scan.step jpeg) (.init 0) []) c₀ :=
    sync_begin hr h₀
  have hcam : c₀ = { cam with
      temp := 0, is_header := false, i := 0, flushed := false, kept := 0 } :=
    (Option.some.inj h₀).symm
  have hread₀ : Reading size cam.client.images [] c₀ := by
    refine ⟨hbegin, Swept.tidy ?_ ?_ ?_⟩
    · rw [hcam]
      exact hsw
    · rw [hcam]
      exact Nat.zero_le 1
    · rw [hcam]
      exact fun hh => Bool.noConfusion hh
  obtain ⟨c₁, h₁, h⟩ := exec_cons_eq_some.mp h
  have hread₁ : Reading size cam.client.images [0xFF] c₁ := by
    refine reading_byte hread₀ (framed_of_noPair ?_ ?_) h₁
    all_goals exact fun hp => absurd hp.2 (by decide)
  have hskip : c₁ = { c₀ with temp := 0xFF } := by
    have hheader : c₀.is_header = false := by rw [hcam]
    have hbyte : c₀.byte size num_buffs 0xFF = some { c₀ with temp := 0xFF } :=
      byte_skip hheader (fun hp => absurd hp.1 (by decide)) (fun hp => absurd hp.1 (by decide))
    exact Option.some.inj (h₁.symm.trans hbyte)
  obtain ⟨c₂, h₂, hend⟩ := exec_cons_eq_some.mp h
  obtain rfl := Option.some.inj hend
  have hread₂ : Reading size cam.client.images [0xFF, 0xD8] c₂ := by
    refine reading_byte hread₁ ⟨fun hp => absurd hp.1 (by decide), fun _ => ?_⟩ h₂
    rw [hskip, hcam]
    exact ⟨rfl, rfl, rfl⟩
  exact ⟨hread₂, hread₂.sync.temp, hread₂.sync.header⟩

/-- The end of a frame. -/
theorem reading_close {pre : List UInt8} (hr : Reading size base pre cam)
    (hheader : cam.is_header = true) (htemp : cam.temp = 0xFF)
    (h : step size num_buffs cam (.byte 0xD9) = some cam') :
    Reading size base (pre ++ [0xD9]) cam' ∧ cam'.temp = 0xD9 ∧ cam'.is_header = false ∧
      0 < cam'.kept := by
  refine ⟨reading_byte hr ⟨fun _ => hheader, fun hp => absurd hp.1 (by decide)⟩ h, ?_⟩
  have h' : cam.byte size num_buffs 0xD9 = some cam' := h
  rw [byte_stop ⟨rfl, htemp⟩] at h'
  obtain ⟨c, hc, rfl⟩ := Option.map_eq_some_iff.mp h'
  have hst := stored_of_store hc
  refine ⟨hst.temp, rfl, ?_⟩
  rw [if_pos hheader, hst.i]
  exact Nat.succ_pos _

/-- A capture, up to the end of its frame. -/
theorem reading_frame {F : List UInt8} (hr : Rest size cam) (hsw : Swept cam) (hF : IsFrame jpeg F)
    (h : exec (step size num_buffs) cam (.start :: F.map .byte) = some cam') :
    Reading size cam.client.images F cam' ∧ cam'.temp = 0xD9 ∧ cam'.is_header = false ∧
      0 < cam'.kept := by
  obtain ⟨mid, rfl, hlast, h9⟩ := hF.body
  have hall : NoPair 0xFF 0xD8 (0xD8 :: mid ++ [0xD9]) := hF.start_once
  rw [show Ev.start :: (jpeg.start₁ :: jpeg.start₂ :: (mid ++ [jpeg.stop₂])).map Ev.byte
      = [.start, .byte 0xFF, .byte 0xD8] ++ (mid.map .byte ++ [.byte 0xD9]) by simp [jpeg]] at h
  obtain ⟨c, hopen, h⟩ := exec_append_eq_some.mp h
  obtain ⟨hread, htemp, hheader⟩ := reading_open hr hsw hopen
  obtain ⟨c', hmid, hstop⟩ := exec_append_eq_some.mp h
  have h8 : NoPair 0xFF 0xD8 (c.temp :: mid) := by
    rw [htemp]
    exact hall.left_of_append
  -- the bytes between the two markers
  obtain ⟨hread', htemp', hheader', -⟩ := reading_plain hread h8 (htemp ▸ h9) hmid
  obtain ⟨c'', hd9, hend⟩ := exec_cons_eq_some.mp hstop
  obtain rfl := Option.some.inj hend
  have hff : c'.temp = 0xFF := by
    rw [htemp', htemp]
    exact hlast
  exact reading_close hread' (hheader'.trans hheader) hff hd9

/-- **One capture.**  Its frame comes out, and the buffers stay swept. -/
theorem capture_frame {F pad : List UInt8} (hr : Rest size cam) (hsw : Swept cam)
    (hF : IsFrame jpeg F) (h8 : NoPair 0xFF 0xD8 pad) (h9 : NoPair 0xFF 0xD9 pad)
    (h : exec (step size num_buffs) cam (camCapture (F ++ pad)) = some cam') :
    Rest size cam' ∧ Swept cam' ∧ cam'.client.images = cam.client.images ++ [F] := by
  rw [camCapture, List.map_append, List.append_assoc, ← List.cons_append] at h
  obtain ⟨c, hframe, h⟩ := exec_append_eq_some.mp h
  obtain ⟨hread, htemp, hheader, hkept⟩ := reading_frame hr hsw hF hframe
  obtain ⟨c', hpad, hfinish⟩ := exec_append_eq_some.mp h
  have hne : (0xD9 : UInt8) ≠ 0xFF := by decide
  obtain ⟨hread', -, hheader', hkept'⟩ := reading_plain hread
    (htemp ▸ h8.cons_of_ne hne) (htemp ▸ h9.cons_of_ne hne) hpad
  obtain ⟨c'', hfin, hend⟩ := exec_cons_eq_some.mp hfinish
  obtain rfl := Option.some.inj hend
  have hout : c'.is_header = false := hheader'.trans hheader
  have hused : c'.used = c'.kept := used_outside hout
  have hpos : 0 < c'.used := by omega
  have hlen := hread'.sync.length c'.head
  -- the last byte of the frame begins no header
  have hahead : c'.ahead.temp ≠ 0xFF := by
    obtain ⟨-, ⟨hzero, -⟩ | ⟨-, hd9, -⟩⟩ := hread'.sync.outside hout
    · omega
    · rw [hd9]
      exact hne
  have hle : c'.kept ≤ c'.buffer.length := hlen.symm ▸ hread'.sync.kept_le
  have hswept : Swept c' := hread'.tidy.swept hpos (by omega) (.inr hahead)
  have hstale : NoPair 0xFF 0xD8 ((c'.lastSent :: c'.buffer).drop c'.kept) := by
    rw [drop_cons_eq _ _ hle, ← hused, ← ahead_temp]
    have hback := hread'.tidy.back
    rw [max_eq_left hpos] at hback
    exact hback.cons_of_ne hahead
  obtain ⟨hrest, ⟨hzero, -⟩ | ⟨-, G, hG, himages⟩⟩ := sync_finish hread'.sync ⟨hout, hstale⟩ hfin
  · omega
  · -- the scan of the capture has found the frame and nothing else
    have hscan : run (Scan.step jpeg) (.init 0) (F ++ pad)
        = { temp := pad.getLastD 0xD9, header := false, image := [], images := [F] } := by
      rw [run_append, run_frame hF (State.idle_init 0), run_idle rfl (h8.cons_of_ne hne)]
      rfl
    rw [hscan] at hG
    obtain rfl : F = G := by simpa using hG
    refine ⟨hrest, ?_, himages⟩
    cases hfin
    exact hswept

/-! ### All captures -/

/-- The FIFO holds the frame, and padding without markers. -/
def FrameAndPadding (F content : List UInt8) : Prop :=
  ∃ pad, content = F ++ pad ∧ IsFrame jpeg F ∧ NoPair 0xFF 0xD8 pad ∧ NoPair 0xFF 0xD9 pad

theorem swept_boot : Swept (boot size) := by
  intro k
  show NoPair 0xFF 0xD8 (List.replicate size 0).tail
  rw [List.tail_replicate]
  exact List.isChain_replicate_of_rel _ (by decide)

theorem thread_frames {frames captures : List (List UInt8)}
    (hcaptures : List.Forall₂ FrameAndPadding frames captures)
    (h : exec (step size num_buffs) (boot size) (camThread captures) = some cam) :
    Rest size cam ∧ Swept cam ∧ cam.client.images = frames := by
  induction captures using List.reverseRecOn generalizing frames cam with
  | nil =>
    obtain rfl := List.forall₂_nil_right_iff.mp hcaptures
    cases h
    exact ⟨rest_boot, swept_boot, rfl⟩
  | append_singleton captures content ih =>
    have hold := List.forall₂_take_append _ _ _ hcaptures
    have hnew := List.forall₂_drop_append _ _ _ hcaptures
    obtain ⟨F, rest, ⟨pad, rfl, hF, h8, h9⟩, hnil, hdrop⟩ := List.forall₂_cons_right_iff.mp hnew
    obtain rfl := List.forall₂_nil_right_iff.mp hnil
    rw [camThread_concat] at h
    obtain ⟨c, hc, h⟩ := exec_append_eq_some.mp h
    obtain ⟨hrest, hswept, himages⟩ := ih hold hc
    obtain ⟨hrest', hswept', himages'⟩ := capture_frame hrest hswept hF h8 h9 h
    refine ⟨hrest', hswept', ?_⟩
    rw [himages', himages, ← hdrop, List.take_append_drop]

/-- **Camera stream, end to end.**  With a frame a capture and no write outside its buffer,
    the client emits the frames, however the stream is cut. -/
theorem stream_end_to_end (size num_buffs : ℕ) {frames captures : List (List UInt8)}
    (hcaptures : List.Forall₂ FrameAndPadding frames captures) {cam : Writer}
    (h : exec (step size num_buffs) (boot size) (camThread captures) = some cam)
    (datas : List (List UInt8)) (hdatas : datas.flatten = camTCP cam.commits) :
    (jpegClient datas).images = frames := by
  rw [jpegClient_flatten, hdatas]
  exact (thread_frames hcaptures h).2.2

/-- A frame over two buffers, then a short one with padding, in the old bytes of the first. -/
theorem stream_end_to_end_two :
    ∃ cam, exec (step 4 2) (boot 4)
        (camThread [[0xFF, 0xD8, 1, 2, 3, 0xFF, 0xD9], [0xFF, 0xD8, 0xFF, 0xD9, 0, 0]]) = some cam ∧
      (jpegClient [camTCP cam.commits]).images
        = [[0xFF, 0xD8, 1, 2, 3, 0xFF, 0xD9], [0xFF, 0xD8, 0xFF, 0xD9]] := by
  have hcaptures : List.Forall₂ FrameAndPadding
      [[0xFF, 0xD8, 1, 2, 3, 0xFF, 0xD9], [0xFF, 0xD8, 0xFF, 0xD9]]
      [[0xFF, 0xD8, 1, 2, 3, 0xFF, 0xD9], [0xFF, 0xD8, 0xFF, 0xD9, 0, 0]] := by
    refine .cons ⟨[], rfl, ?_, by decide, by decide⟩
      (.cons ⟨[0, 0], rfl, ?_, by decide, by decide⟩ .nil)
    · exact ⟨by decide, by decide, by decide, by decide⟩
    · exact ⟨by decide, by decide, by decide, by decide⟩
  exact ⟨_, rfl, stream_end_to_end 4 2 hcaptures rfl _ (List.append_nil _)⟩

end Wheelson.Cam
