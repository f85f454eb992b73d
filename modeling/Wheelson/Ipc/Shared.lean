import Wheelson.Lib.Lock

namespace Wheelson.Ipc.Shared

/-!
# `heading_g` and `position_g`: structs behind a mutex

`shared.c` keeps the heading and the position in structs of their own.  Each of the four
functions copies the fields one at a time between the struct and its arguments, inside a section.

* `prog` — such a pair of functions for a struct of `n` fields; `updateHeading`, `getHeading`,
  `changePosition` and `getPosition` are the calls of `shared.c`.
* `current`, `Consistent` — the value after a list of accesses, and that every access that reads
  gets the value the accesses before it have left.
* `shared_atomic` — so it is, for any number of threads, in the order of their sections.
-/

open Machine Lock

/-- A completed access, with the fields it set or returned. -/
inductive Access (n : ℕ) (β : Type*)
  | set (v : Fin n → β)
  | got (v : Fin n → β)

/-- The struct without its mutex, and the accesses so far in the order of their sections. -/
structure Mem (n : ℕ) (β : Type*) where
  val : Fin n → β
  accesses : List (Access n β)

/-- A call: the fields to set, or what the variables hold that the fields are to be read to. -/
inductive Call (n : ℕ) (β : Type*)
  | change (v : Fin n → β)
  | get (out : Fin n → β)

/-- Where a thread is in the two functions, `i` fields copied. -/
inductive Pc (n : ℕ) (β : Type*)
  | outside
  | changeWait (v : Fin n → β)
  | change (v : Fin n → β) (i : ℕ)
  | getWait (out : Fin n → β)
  | get (out : Fin n → β) (i : ℕ)
  | unlock

variable {n : ℕ} {β T : Type*}

/-- The two functions: the next field, or the end of the section. -/
def prog : Pc n β → Instr (Call n β) (Pc n β) (Mem n β)
  | .outside => .free fun call m =>
      match call with
      | .change v => some (.changeWait v, m)
      | .get out => some (.getWait out, m)
  | .changeWait v => .lock (.change v 0)
  | .change v i => .body fun m =>
      if hi : i < n then
        (.change v (i + 1), { m with val := Function.update m.val ⟨i, hi⟩ (v ⟨i, hi⟩) })
      else (.unlock, { m with accesses := m.accesses ++ [.set v] })
  | .getWait out => .lock (.get out 0)
  | .get out i => .body fun m =>
      if hi : i < n then (.get (Function.update out ⟨i, hi⟩ (m.val ⟨i, hi⟩)) (i + 1), m)
      else (.unlock, { m with accesses := m.accesses ++ [.got out] })
  | .unlock => .unlock .outside

/-- `update_heading`. -/
def updateHeading (heading : β) : Call 1 β := .change fun _ => heading

/-- `get_heading`, its `ret` not yet assigned. -/
def getHeading (ret : β) : Call 1 β := .get fun _ => ret

/-- The fields of a `wheelson_pos_t`, `x` first. -/
def posFields (x y : UInt8) (b : Fin 2) : UInt8 := if b.val = 0 then x else y

/-- `change_position`. -/
def changePosition (x y : UInt8) : Call 2 UInt8 := .change (posFields x y)

/-- `get_position`, where the caller's variables hold `x` and `y`. -/
def getPosition (x y : UInt8) : Call 2 UInt8 := .get (posFields x y)

/-- Every thread runs the two functions. -/
abbrev threads (T : Type*) (n : ℕ) (β : Type*) :
    T → Pc n β → Instr (Call n β) (Pc n β) (Mem n β) :=
  fun _ => prog

/-- After the initialisation with `v`, every thread outside. -/
def start (v : Fin n → β) : State T (Pc n β) (Mem n β) where
  mem := ⟨v, []⟩
  mutex := 1
  pc := fun _ => .outside

/-! ### Accesses in the order of their sections -/

/-- The value that an access leaves. -/
def Access.leaves (v : Fin n → β) : Access n β → Fin n → β
  | .set w => w
  | .got _ => v

/-- The value after these accesses. -/
def current (v₀ : Fin n → β) (as : List (Access n β)) : Fin n → β := as.foldl Access.leaves v₀

@[simp] theorem current_concat (v₀ : Fin n → β) (as : List (Access n β)) (a : Access n β) :
    current v₀ (as ++ [a]) = a.leaves (current v₀ as) := by
  simp only [current, List.foldl_append, List.foldl_cons, List.foldl_nil]

/-- Whatever is read is what the accesses before have left. -/
def Consistent (v₀ : Fin n → β) (as : List (Access n β)) : Prop :=
  ∀ pre v post, as = pre ++ .got v :: post → v = current v₀ pre

theorem Consistent.concat {v₀ : Fin n → β} {as : List (Access n β)} {a : Access n β}
    (h : Consistent v₀ as) (ha : ∀ v, a = .got v → v = current v₀ as) :
    Consistent v₀ (as ++ [a]) := by
  intro pre v post heq
  rcases List.eq_nil_or_concat post with rfl | ⟨post, b, rfl⟩
  · obtain ⟨rfl, hlast⟩ := List.append_inj' heq rfl
    exact ha v (List.cons.inj hlast).1
  · rw [List.concat_eq_append, ← List.cons_append, ← List.append_assoc] at heq
    exact h pre v post (List.append_inj' heq rfl).1

/-- The struct holds what the accesses have left. -/
structure Mem.Settled (v₀ : Fin n → β) (m : Mem n β) : Prop where
  val_eq : m.val = current v₀ m.accesses
  consistent : Consistent v₀ m.accesses

/-- What holds inside a section: some fields are still those of the value before. -/
def Midway (v₀ : Fin n → β) : Pc n β → Mem n β → Prop
  | .change v i, m => Consistent v₀ m.accesses ∧ ∀ b : Fin n, b.val < i → m.val b = v b
  | .get out i, m => m.Settled v₀ ∧ ∀ b : Fin n, b.val < i → out b = m.val b
  | .unlock, m => m.Settled v₀
  | _, _ => True

theorem sections : Sections (threads T n β) where
  lock := by
    intro _ k next hk
    cases k <;> simp only [threads, prog, reduceCtorEq, Instr.lock.injEq] at hk <;> subst hk <;>
      rfl
  body := by
    intro _ k f m hk
    cases k <;> simp only [threads, prog, reduceCtorEq, Instr.body.injEq] at hk <;> subst hk <;>
      dsimp only <;> split <;> rfl
  unlock := by
    intro _ k next hk
    cases k <;> simp only [threads, prog, reduceCtorEq, Instr.unlock.injEq] at hk
    subst hk
    rfl
  free := by
    intro _ k f call m r hk hr
    cases k <;> simp only [threads, prog, reduceCtorEq, Instr.free.injEq] at hk
    subst hk
    cases call <;> cases hr <;> rfl

theorem monitor (v₀ : Fin n → β) :
    Monitor (threads T n β) (Mem.Settled v₀) (fun _ => Midway v₀) where
  lock := by
    intro _ k next m hk hm
    cases k <;> simp only [threads, prog, reduceCtorEq, Instr.lock.injEq] at hk <;> subst hk
    · exact ⟨hm.consistent, fun b hb => absurd hb (Nat.not_lt_zero _)⟩
    · exact ⟨hm, fun b hb => absurd hb (Nat.not_lt_zero _)⟩
  body := by
    intro _ k f m hk hm
    cases k <;> simp only [threads, prog, reduceCtorEq, Instr.body.injEq] at hk <;> subst hk <;>
      dsimp only
    case change v i =>
      obtain ⟨hcon, hset⟩ := hm
      split
      · rename_i hi
        refine ⟨hcon, fun b hb => ?_⟩
        by_cases hbi : b = ⟨i, hi⟩
        · subst hbi
          exact Function.update_self _ _ _
        · show Function.update m.val ⟨i, hi⟩ _ b = v b
          rw [Function.update_of_ne hbi]
          exact hset b (lt_of_le_of_ne (Nat.le_of_lt_succ hb) fun h => hbi (Fin.ext h))
      · rename_i hi
        refine ⟨?_, hcon.concat fun w hw => absurd hw (by simp)⟩
        rw [current_concat]
        exact funext fun b => hset b (lt_of_lt_of_le b.isLt (not_lt.mp hi))
    case get out i =>
      obtain ⟨hset, hout⟩ := hm
      split
      · rename_i hi
        refine ⟨hset, fun b hb => ?_⟩
        by_cases hbi : b = ⟨i, hi⟩
        · subst hbi
          exact Function.update_self _ _ _
        · rw [Function.update_of_ne hbi]
          exact hout b (lt_of_le_of_ne (Nat.le_of_lt_succ hb) fun h => hbi (Fin.ext h))
      · rename_i hi
        have hval : out = m.val := funext fun b => hout b (lt_of_lt_of_le b.isLt (not_lt.mp hi))
        refine ⟨?_, hset.consistent.concat fun w hw => ?_⟩
        · rw [current_concat]
          exact hset.val_eq
        · cases hw
          rw [hval, hset.val_eq]
  unlock := by
    intro _ k next m hk hm
    cases k <;> simp only [threads, prog, reduceCtorEq, Instr.unlock.injEq] at hk
    exact hm
  free := by
    intro _ k f call m r hk hr hm
    cases k <;> simp only [threads, prog, reduceCtorEq, Instr.free.injEq] at hk
    subst hk
    cases call <;> cases hr <;> exact hm
  frame := by
    intro _ k f call m r hk hr _ j _ hm
    cases k <;> simp only [threads, prog, reduceCtorEq, Instr.free.injEq] at hk
    subst hk
    cases call <;> cases hr <;> exact hm

/-- **Nothing is torn.**  For any number of threads that set and read such a struct, and any
    interleaving of their statements: whatever a call returns is, as a whole, the value of the
    last section before its own that set the struct, or the one it was initialised with; and at
    most one thread is inside a section. -/
theorem shared_atomic [DecidableEq T] (v₀ : Fin n → β) (s : State T (Pc n β) (Mem n β))
    (h : Reachable (Lock.step (threads T n β)) (start v₀) s) :
    Exclusive (threads T n β) s ∧ Consistent v₀ s.mem.accesses ∧
      (s.mutex = 1 → s.mem.val = current v₀ s.mem.accesses) := by
  have hout : ∀ t, ¬ (start v₀ : State T _ _).inside (threads T n β) t :=
    fun _ => Bool.false_ne_true
  have hstart : Mem.Settled v₀ ⟨v₀, []⟩ :=
    ⟨rfl, fun pre v post heq => absurd heq (List.append_ne_nil_of_right_ne_nil _ (by simp)).symm⟩
  have hm := monitored_reachable sections (monitor v₀) rfl hout hstart h
  refine ⟨hm.exclusive, ?_, fun hmutex => (hm.resource hmutex).val_eq⟩
  cases hm.exclusive with
  | free hmutex _ => exact (hm.resource hmutex).consistent
  | taken t _ hin _ =>
    have hpoint := hm.point t hin
    cases hpc : s.pc t <;> rw [hpc] at hpoint
    case change => exact hpoint.1
    case get => exact hpoint.1.consistent
    case unlock => exact hpoint.consistent
    all_goals
      rw [State.inside, hpc] at hin
      exact absurd hin Bool.false_ne_true

/-- A `get_position` that has begun before a `change_position` and reads after it. -/
def changedRun : Option (State Bool (Pc 2 UInt8) (Mem 2 UInt8)) :=
  exec (Lock.step (threads Bool 2 UInt8)) (start (posFields 0 0))
    ((true, getPosition 9 9) :: List.replicate 6 (false, changePosition 3 4)
      ++ List.replicate 5 (true, getPosition 9 9))

theorem shared_atomic_position :
    ∃ s : State Bool (Pc 2 UInt8) (Mem 2 UInt8),
      Reachable (Lock.step (threads Bool 2 UInt8)) (start (posFields 0 0)) s ∧
        s.mem.accesses.length = 2 ∧ Consistent (posFields 0 0) s.mem.accesses :=
  have hrun : changedRun = some (changedRun.get (by decide +kernel)) := (Option.some_get _).symm
  have hr := Reachable.exec _ .init hrun
  ⟨_, hr, by decide +kernel, (shared_atomic _ _ hr).2.1⟩

end Wheelson.Ipc.Shared
