import Mathlib.Data.Nat.Basic
import Mathlib.Tactic.Linarith
import Wheelson.Lib.Machine

/-!
# Counting semaphores, lost wake-ups and tokens left over

`sem_wait` and `sem_post` on a count, for the pattern *test a condition under a lock, release
the lock, wait on a semaphore*, with a post at each end of the condition.  `Gauge` is such a
semaphore of a machine with its waiter, and `Gauge.Move` is what a step may do to it.

* No wake-up is lost: a waiter that has gone to sleep is still blocked, or a token is waiting
  for it (`NoLostWakeup`, `Gauge.Move.noLostWakeup`).
* The posts are made whether or not the waiter sleeps, so tokens are left over:
  `Gauge.count_le_idlePosts` bounds the count by the posts of a run that find nobody asleep,
  and `exists_tokens` says that on a ring posted at both ends they are not bounded.
-/

namespace Sem

/-- `sem_wait`: enabled when the count is positive. -/
def wait : ℕ → Option ℕ
  | 0 => none
  | n + 1 => some n

/-- `sem_post`. -/
def post (n : ℕ) : ℕ := n + 1

theorem wait_eq_some {n m : ℕ} : wait n = some m ↔ n = post m := by
  cases n <;> simp [wait, post]

/-- A waiter that sleeps is still blocked or has a token waiting. -/
def NoLostWakeup (asleep blocked : Prop) (count : ℕ) : Prop :=
  asleep → blocked ∨ 0 < count

variable {asleep blocked : Prop} {count : ℕ}

/-- A waiter that is awake loses nothing. -/
theorem NoLostWakeup.awake (h : ¬ asleep) : NoLostWakeup asleep blocked count :=
  fun ha => absurd ha h

/-- Going to sleep while blocked. -/
theorem NoLostWakeup.park (h : blocked) : NoLostWakeup asleep blocked count :=
  fun _ => Or.inl h

/-- Posting a token. -/
theorem NoLostWakeup.signal : NoLostWakeup asleep blocked (post count) :=
  fun _ => Or.inr (Nat.succ_pos _)

/-! ### A semaphore of a machine -/

/-- A semaphore of a machine with one waiter: its count, whether the waiter sleeps at it, and
    the condition that the waiter waits out. -/
structure Gauge (σ : Type*) where
  count : σ → ℕ
  asleep : σ → Bool
  blocked : σ → Prop

section Gauge

open Machine

variable {σ ε : Type*} {g : Gauge σ}

/-- What a step may do to the semaphore. -/
inductive Gauge.Move (g : Gauge σ) (s s' : σ) : Prop
  /-- A token is posted as the condition ends. -/
  | post (hblocked : g.blocked s) (hfree : ¬ g.blocked s') (hcount : g.count s' = post (g.count s))
      (hasleep : g.asleep s' = g.asleep s)
  /-- The waiter takes a token. -/
  | take (hasleep : g.asleep s) (hawake : ¬ g.asleep s') (hcount : g.count s = post (g.count s'))
  /-- The waiter goes to sleep. -/
  | park (hawake : ¬ g.asleep s) (hblocked : g.blocked s') (hcount : g.count s' = g.count s)
  /-- No token moves, and the condition stays as it is while the waiter sleeps. -/
  | frame (hasleep : g.asleep s' = g.asleep s)
      (hblocked : g.asleep s → (g.blocked s' ↔ g.blocked s)) (hcount : g.count s' = g.count s)

/-- **No wake-up is lost** by such steps. -/
theorem Gauge.Move.noLostWakeup {s s' : σ} (h : g.Move s s')
    (hs : NoLostWakeup (g.asleep s) (g.blocked s) (g.count s)) :
    NoLostWakeup (g.asleep s') (g.blocked s') (g.count s') := by
  cases h with
  | post hblocked hfree hcount hasleep =>
    rw [hcount]
    exact .signal
  | take hasleep hawake hcount => exact .awake hawake
  | park hawake hblocked hcount => exact .park hblocked
  | frame hasleep hblocked hcount =>
    intro ha
    rw [hasleep] at ha
    rw [hblocked ha, hcount]
    exact hs ha

/-! ### Tokens left over -/

/-- The posts of the run on the events `es` that find nobody asleep. -/
def Gauge.idlePosts (g : Gauge σ) (step : σ → ε → Option σ) : σ → List ε → ℕ
  | _, [] => 0
  | s, e :: es =>
    match step s e with
    | none => 0
    | some s' => (if g.count s < g.count s' ∧ ¬ g.asleep s then 1 else 0) + g.idlePosts step s' es

/-- `n` tokens, and one more if it is for a waiter that sleeps although it need not. -/
def Gauge.Within (g : Gauge σ) (n : ℕ) (s : σ) : Prop :=
  g.count s ≤ n + 1 ∧ ((g.asleep s → g.blocked s) → g.count s ≤ n)

/-- **Step rule.** -/
theorem Gauge.Move.within {s s' : σ} {n : ℕ} (h : g.Move s s') (hs : g.Within n s) :
    g.Within (n + if g.count s < g.count s' ∧ ¬ g.asleep s then 1 else 0) s' := by
  obtain ⟨hle, hfree⟩ := hs
  cases h with
  | post hblocked hfree' hcount hasleep =>
    have hn := hfree fun _ => hblocked
    rw [Sem.post] at hcount
    by_cases ha : g.asleep s
    · -- the token is for the sleeper
      rw [if_neg fun h => h.2 ha]
      exact ⟨by omega, fun h => absurd (h (hasleep.trans ha)) hfree'⟩
    · rw [if_pos ⟨by omega, ha⟩]
      exact ⟨by omega, fun _ => by omega⟩
  | take hasleep hawake hcount =>
    rw [Sem.post] at hcount
    rw [if_neg fun h => h.2 hasleep]
    exact ⟨by omega, fun _ => by omega⟩
  | park hawake hblocked hcount =>
    rw [if_neg fun h => by omega]
    have hn := hfree fun ha => absurd ha hawake
    exact ⟨by omega, fun _ => by omega⟩
  | frame hasleep hblocked hcount =>
    rw [if_neg fun h => by omega]
    refine ⟨by omega, fun h => ?_⟩
    rw [hcount]
    exact hfree fun ha => (hblocked ha).mp (h (hasleep.trans ha))

/-- **Run rule.** -/
theorem Gauge.within_exec {step : σ → ε → Option σ} {I : σ → Prop}
    (hstep : ∀ s e s', I s → step s e = some s' → I s' ∧ g.Move s s') {es : List ε} {s t : σ}
    {n : ℕ} (h : exec step s es = some t) (hI : I s) (hs : g.Within n s) :
    g.Within (n + g.idlePosts step s es) t := by
  induction es generalizing s n with
  | nil =>
    cases h
    exact hs
  | cons e es ih =>
    obtain ⟨s', hs', h⟩ := exec_cons_eq_some.mp h
    obtain ⟨hI', hmove⟩ := hstep s e s' hI hs'
    rw [Gauge.idlePosts, hs', ← Nat.add_assoc]
    exact ih h hI' (hmove.within hs)

/-- **Tokens left over.**  From a count of 0 the count is at most one more than the posts that
    have found nobody asleep. -/
theorem Gauge.count_le_idlePosts {step : σ → ε → Option σ} {I : σ → Prop}
    (hstep : ∀ s e s', I s → step s e = some s' → I s' ∧ g.Move s s') {es : List ε} {s t : σ}
    (h : exec step s es = some t) (hI : I s) (h0 : g.count s = 0) :
    g.count t ≤ g.idlePosts step s es + 1 := by
  have hs : g.Within 0 s := ⟨by omega, fun _ => by omega⟩
  have ht := (g.within_exec hstep h hI hs).1
  omega

end Gauge

/-- **The tokens are not bounded** on a ring that is posted at both ends: `R a fl em` says that
    `a` values and the counts `fl` and `em` can be reached, puts and gets as whole calls. -/
theorem exists_tokens {size : ℕ} (hsize : 0 < size) {R : ℕ → ℕ → ℕ → Prop} (h0 : R 0 0 0)
    (hput : ∀ a fl em, a < size → R a fl em → R (a + 1) fl (if a = 0 then em + 1 else em))
    (hget : ∀ a fl em, R (a + 1) fl em → R a (if a = size - 1 then fl + 1 else fl) em) (n : ℕ) :
    ∃ a fl em, R a fl em ∧ n ≤ fl ∧ n ≤ em := by
  -- a put and a get at the empty end, `n` times
  have hempty : ∀ n, ∃ fl em, R 0 fl em ∧ n ≤ em := by
    intro n
    induction n with
    | zero => exact ⟨0, 0, h0, le_rfl⟩
    | succ n ih =>
      obtain ⟨fl, em, hR, hn⟩ := ih
      exact ⟨_, em + 1, hget 0 fl _ (hput 0 fl em hsize hR), by omega⟩
  have hfill : ∀ k ≤ size, ∃ fl em, R k fl em ∧ n ≤ em := by
    intro k
    induction k with
    | zero => exact fun _ => hempty n
    | succ k ih =>
      intro hk
      obtain ⟨fl, em, hR, hn⟩ := ih (by omega)
      exact ⟨fl, _, hput k fl em hk hR, by split <;> omega⟩
  -- a get and a put at the full end, `m` times
  have hfull : ∀ m, ∃ fl em, R size fl em ∧ m ≤ fl ∧ n ≤ em := by
    intro m
    have hsucc : size - 1 + 1 = size := by omega
    induction m with
    | zero =>
      obtain ⟨fl, em, hR, hn⟩ := hfill size le_rfl
      exact ⟨fl, em, hR, by omega, hn⟩
    | succ m ih =>
      obtain ⟨fl, em, hR, hm, hn⟩ := ih
      have hR' := hget (size - 1) fl em (by rwa [hsucc])
      rw [if_pos rfl] at hR'
      have hR'' := hput (size - 1) (fl + 1) em (by omega) hR'
      rw [hsucc] at hR''
      exact ⟨fl + 1, _, hR'', by omega, by split <;> omega⟩
  obtain ⟨fl, em, hR, hfl, hem⟩ := hfull n
  exact ⟨size, fl, em, hR, hfl, hem⟩

end Sem
