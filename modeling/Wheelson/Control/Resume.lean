import Wheelson.Control.Alert
import Wheelson.Control.Move

namespace Wheelson.Control

/-!
# The way back

Where the thread can go from any of its statements when the alert leaves it alone, and what
an alert at the loop top brings back.

* `Permits` — the restrictions of the machine under which the thread can go on.
* `resumes_of_blocked` — an alert seen at the loop top ends in `exe_handler`, with the command
  in hand.
* `home_stmt` — outside `exe_handler`, every statement comes closer to `pdu_fifo_get` or to
  `exe_handler`.
* `reaches_get` — hence the thread can always come to take its next command.
-/

open Machine Ipc MotorCmd

variable {s s' : Sys} {a : Act} {junk : Pos}

/-! ### An alert at the loop top -/

/-- The restrictions under which the thread can go on: its statements, the end of an alert and
    `updateTCP` are free. -/
structure Permits (ok : Sys → Act → Prop) : Prop where
  thread : ∀ s junk, ok s (.thread junk)
  fall : ∀ s, s.u_alert = true → ok s .edge
  drain : ∀ s, ok s .drain

theorem permits_risesIn (ok : Sys → Prop) : Permits (RisesIn ok) where
  thread _ _ := nofun
  fall _ hpin := fun _ hlow => Bool.noConfusion (hpin.symm.trans hlow)
  drain _ := nofun

/-- **An alert resumes the command in hand.**  Whatever its state, at the loop top. -/
theorem resumes_of_blocked {ok : Sys → Act → Prop} [∀ s a, Decidable (ok s a)] (hok : Permits ok)
    (hpc : s.pc = .top) (hflag : s.blocked_flag = true) (hpin : s.u_alert = true) :
    CanReach (restrict ok step) s
      (· = { s.fall with state := .ST_EXE_CMD, pc := .exe .entry }) := by
  obtain ⟨pc, state, rx_pdu, flag, pin⟩ := s
  cases hpc
  cases hflag
  cases hpin
  have hgo {t t' : Sys} (h : controlThread ⟨0, 0⟩ t = some t') :
      restrict ok step t (.thread ⟨0, 0⟩) = some t' :=
    restrict_eq_some.mpr ⟨hok.thread _ _, h⟩
  -- to the test of the pin, where the alert ends
  refine .cons (hgo rfl) ?_
  refine .cons (hgo rfl) ?_
  refine .cons (restrict_eq_some.mpr ⟨hok.fall _ rfl, rfl⟩) ?_
  -- and round the loop again
  refine .cons (hgo rfl) ?_
  refine .cons (hgo rfl) ?_
  refine .cons (hgo rfl) ?_
  refine .cons (hgo rfl) ?_
  exact .refl rfl

/-! ### To the next command -/

/-- The statements left, at most, to `pdu_fifo_get` or to the entry of `exe_handler`, with the
    pin low. -/
def homeAt (state : State) : Pc → ℕ
  | .wait .stop => 1
  | .switch =>
    match state with
    | .ST_WAIT_CMD => 2
    | .ST_EXE_CMD => 1
    | .ST_COL => 8
    | .ST_RESET => 5
  | .top =>
    match state with
    | .ST_WAIT_CMD => 3
    | .ST_EXE_CMD => 2
    | .ST_COL => 9
    | .ST_RESET => 6
  | .reset => 4
  | .col .ret => 3
  | .col .test => 4
  | .col .sleep => 5
  | .put .blocked _ => 6
  | .msg .blocked => 7
  | .col .stop => 8
  | .exe .ret => 10
  | .put .waitEnd _ => 10
  | .msg .waitEnd => 11
  | .wait (.drive _) => 12
  | .wait .switch => 13
  | _ => 0

theorem homeAt_top_le (state : State) : homeAt state .top ≤ 9 := by
  cases state <;> decide

/-- Outside `exe_handler`, every statement comes closer. -/
theorem home_stmt (h : Stmt junk s s') (hflag : s.blocked_flag = false)
    (hpin : s.u_alert = false) (hin : ¬ s.pc.InExe) (hget : s.pc ≠ .wait .get) :
    s'.pc.InExe ∨ homeAt s'.state s'.pc < homeAt s.state s.pc := by
  cases h with
  | waitGet hpc => exact absurd hpc hget
  | top hpc =>
    right
    -- an alert that is off sends no state to `ST_COL`
    rw [hpc]
    show homeAt (if s.blocked_flag then _ else s.state) .switch < homeAt s.state .top
    rw [hflag]
    cases hstate : s.state <;> decide
  | toExe hpc => exact .inl trivial
  | toWait hpc hstate | toCol hpc hstate | toReset hpc hstate =>
    right
    rw [hpc, hstate]
    exact Nat.le_of_ble_eq_true rfl
  | waitStop hpc | waitMove hpc | waitReset hpc | waitDirect hpc | waitHalt hpc
  | waitGarbage hpc | waitDrive hpc | exeRet hpc | colLow hpc | colStop hpc | colSleep hpc
  | colRet hpc | reset hpc =>
    right
    rw [hpc]
    exact Nat.le_of_ble_eq_true rfl
  | colHigh hpc hhigh => cases hpin.symm.trans hhigh
  | @msg c hpc =>
    rw [hpc] at hin ⊢
    cases c with
    | waitEnd | blocked => exact .inr (Nat.le_of_ble_eq_true rfl)
    | turning | forward | loopEnd | finished => exact absurd trivial hin
  | @put c _ hpc =>
    rw [hpc] at hin ⊢
    cases c with
    | waitEnd => exact .inr (Nat.lt_succ_of_le (homeAt_top_le _))
    | blocked => exact .inr (Nat.le_of_ble_eq_true rfl)
    | turning | forward | loopEnd | finished => exact absurd trivial hin
  | exeBlocked hpc =>
    rcases hpc with hpc | hpc <;> rw [hpc] at hin <;> exact absurd trivial hin
  | _ hpc =>
    rw [hpc] at hin
    exact absurd trivial hin

/-- What the statements of the thread preserve up to the next command. -/
structure Stable (J : Sys → Prop) : Prop where
  stmt : ∀ s s', s.pc ≠ .wait .get → J s → Stmt ⟨0, 0⟩ s s' → J s'
  tx : ∀ s tx, J s → J { s with tx_pdu_fifo_g := tx }

/-- The alert is off. -/
structure Sys.Calm (s : Sys) : Prop where
  flag : s.blocked_flag = false
  pin : s.u_alert = false
  tracks : s.Tracks

theorem calm_stmt (h : Stmt junk s s') (hs : s.Calm) : s'.Calm :=
  ⟨(flag_stmt h).trans hs.flag, (pin_stmt h).trans hs.pin, tracks_stmt h hs.tracks⟩

section way

variable {ok : Sys → Act → Prop} [∀ s a, Decidable (ok s a)] {J : Sys → Prop}

/-- From outside `exe_handler`. -/
theorem home_or_exe (hok : Permits ok) (hJ : Stable J) (hs : s.Calm) (h : J s)
    (hin : ¬ s.pc.InExe) :
    CanReach (restrict ok step) s fun t => (t.pc = .wait .get ∨ t.pc.InExe) ∧ t.Calm ∧ J t := by
  by_cases hget : s.pc = .wait .get
  · exact .refl ⟨.inl hget, hs, h⟩
  refine thread_leads_to
    (P := fun t => t.Calm ∧ J t ∧ ¬ t.pc.InExe ∧ t.pc ≠ .wait .get)
    (fun t => homeAt t.state t.pc) ⟨0, 0⟩ (fun t ht => ht.2.2.2)
    (fun t _ => ⟨hok.thread _ _, hok.drain _⟩) ?_ ?_ s ⟨hs, h, hin, hget⟩
  · rintro t tx ⟨hs, h, hrest⟩
    exact ⟨⟨⟨hs.flag, hs.pin, hs.tracks⟩, hJ.tx t tx h, hrest⟩, rfl⟩
  · rintro t t' ⟨hs, h, hin, hget⟩ hstmt
    have hs' := calm_stmt hstmt hs
    have h' := hJ.stmt t t' hget h hstmt
    obtain hin' | hlt := home_stmt hstmt hs.flag hs.pin hin hget
    · exact .inl ⟨.inr hin', hs', h'⟩
    · by_cases hdone : t'.pc = .wait .get ∨ t'.pc.InExe
      · exact .inl ⟨hdone, hs', h'⟩
      · rw [not_or] at hdone
        exact .inr ⟨⟨hs', h', hdone.2, hdone.1⟩, hlt⟩

/-- From `exe_handler`, to its end. -/
theorem ret_of_exe (hok : Permits ok) (hJ : Stable J) (hs : s.Calm) (h : J s)
    (hin : s.pc.InExe) :
    CanReach (restrict ok step) s fun t => t.pc = .exe .ret ∧ t.Calm ∧ J t := by
  refine exe_ends (J := fun t => t.Calm ∧ J t) (fun _ _ => ⟨hok.thread _ _, hok.drain _⟩) ?_ ?_
    hs.flag hs.tracks hin ⟨hs, h⟩
  · rintro t tx ⟨ht, h⟩
    exact ⟨⟨ht.flag, ht.pin, ht.tracks⟩, hJ.tx t tx h⟩
  · rintro t t' hin ⟨ht, h⟩ hstmt
    exact ⟨calm_stmt hstmt ht, hJ.stmt t t' (inExe_get hin) h hstmt⟩

/-- From the end of `exe_handler`, to the next command. -/
theorem get_of_ret (hok : Permits ok) (hJ : Stable J) (hs : s.Calm) (h : J s)
    (hpc : s.pc = .exe .ret) :
    CanReach (restrict ok step) s fun t => t.pc = .wait .get ∧ t.Calm ∧ J t := by
  obtain ⟨pc, state, rx_pdu, flag, pin⟩ := s
  cases hpc
  cases hs.flag
  have hgo {t t' : Sys} {Q : Sys → Prop} (h : controlThread ⟨0, 0⟩ t = some t')
      (hget : t.pc ≠ .wait .get) (ht : t.Calm ∧ J t)
      (hnext : t'.Calm ∧ J t' → CanReach (restrict ok step) t' Q) :
      CanReach (restrict ok step) t Q :=
    .cons (restrict_eq_some.mpr ⟨hok.thread _ _, h⟩) (hnext
      ⟨calm_stmt (stmt_of_controlThread h) ht.1,
        hJ.stmt t t' hget ht.2 (stmt_of_controlThread h)⟩)
  -- the loop top, the switch, and `wait_handler` up to `pdu_fifo_get`
  refine hgo rfl nofun ⟨hs, h⟩ fun ht => ?_
  refine hgo rfl nofun ht fun ht => ?_
  refine hgo rfl nofun ht fun ht => ?_
  refine hgo rfl nofun ht fun ht => ?_
  exact .refl ⟨rfl, ht⟩

/-- **The next command.**  From every statement, with the alert off, the thread can come to
    take its next command, with what its statements preserve. -/
theorem reaches_get (hok : Permits ok) (hJ : Stable J) (hs : s.Calm) (h : J s) :
    CanReach (restrict ok step) s fun t => t.pc = .wait .get ∧ t.Calm ∧ J t := by
  have hexe (t : Sys) (ht : t.Calm) (h : J t) (hin : t.pc.InExe) :
      CanReach (restrict ok step) t fun t => t.pc = .wait .get ∧ t.Calm ∧ J t := by
    refine (ret_of_exe hok hJ ht h hin).trans ?_
    rintro u ⟨hret, hu, h⟩
    exact get_of_ret hok hJ hu h hret
  by_cases hin : s.pc.InExe
  · exact hexe s hs h hin
  · refine (home_or_exe hok hJ hs h hin).trans ?_
    rintro t ⟨hget | hin, ht, h⟩
    · exact .refl ⟨hget, ht, h⟩
    · exact hexe t ht h hin

end way

end Wheelson.Control
