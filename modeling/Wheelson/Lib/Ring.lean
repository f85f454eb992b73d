import Mathlib.Data.List.Basic
import Mathlib.Data.Nat.ModEq
import Mathlib.Logic.Function.Basic
import Mathlib.Tactic.Linarith

/-!
# Ring buffers

A ring of `size` slots read as a queue: `contents buf size tail n` lists the `n` slots from
`tail` on, wrapping at `size`.

* `WF` — the indices of a ring: `head` is `avail` slots past `tail`; `WF.push` and `WF.pop`
  move them.
* `contents_push` — writing the slot past the window appends to the queue.
* `contents_pop` — the slot at `tail` is the head of the queue.
* `contents_update_of_free` — writing a slot outside the window changes nothing.
-/

namespace Ring

variable {α : Type*}

/-- The `n` slots from `tail` on, wrapping at `size`. -/
def contents (buf : ℕ → α) (size tail n : ℕ) : List α :=
  (List.range n).map fun i => buf ((tail + i) % size)

@[simp] theorem length_contents (buf : ℕ → α) (size tail n : ℕ) :
    (contents buf size tail n).length = n := by
  simp [contents]

/-- Two offsets below `size` reach different slots. -/
theorem slot_inj {size tail i j : ℕ} (hi : i < size) (hj : j < size)
    (h : (tail + i) % size = (tail + j) % size) : i = j := by
  have hmod : Nat.ModEq size i j := Nat.ModEq.add_left_cancel' tail h
  rw [Nat.ModEq, Nat.mod_eq_of_lt hi, Nat.mod_eq_of_lt hj] at hmod
  exact hmod

/-- **Frame.** Writing a slot that is not in the window leaves the queue as it is. -/
theorem contents_update_of_free {buf : ℕ → α} {size tail n k : ℕ} (a : α)
    (hk : ∀ i < n, (tail + i) % size ≠ k) :
    contents (Function.update buf k a) size tail n = contents buf size tail n := by
  unfold contents
  apply List.map_congr_left
  intro i hi
  rw [Function.update_of_ne (hk i (List.mem_range.mp hi))]

/-- **Push.** Writing the slot past the window appends to the queue. -/
theorem contents_push {buf : ℕ → α} {size tail n : ℕ} (a : α) (hn : n < size) :
    contents (Function.update buf ((tail + n) % size) a) size tail (n + 1)
      = contents buf size tail n ++ [a] := by
  have hfree : ∀ i < n, (tail + i) % size ≠ (tail + n) % size := by
    intro i hi he
    have := slot_inj (by omega) hn he
    omega
  have hpre : contents (Function.update buf ((tail + n) % size) a) size tail n
      = contents buf size tail n := contents_update_of_free a hfree
  unfold contents at hpre ⊢
  rw [List.range_succ, List.map_append, hpre]
  simp

/-- **Pop.** The slot at `tail` is the head of the queue. -/
theorem contents_pop {buf : ℕ → α} {size tail n : ℕ} (ht : tail < size) :
    contents buf size tail (n + 1) = buf tail :: contents buf size ((tail + 1) % size) n := by
  unfold contents
  rw [List.range_succ_eq_map, List.map_cons, List.map_map, Nat.add_zero, Nat.mod_eq_of_lt ht]
  congr 1
  apply List.map_congr_left
  intro i _
  show buf ((tail + (i + 1)) % size) = buf (((tail + 1) % size + i) % size)
  rw [Nat.mod_add_mod]
  congr 2
  omega

/-! ### The indices of a ring -/

/-- `head` is the slot `avail` places past `tail`, all in range. -/
structure WF (size avail tail head : ℕ) : Prop where
  size_pos : 0 < size
  avail_le : avail ≤ size
  tail_lt : tail < size
  head_eq : head = (tail + avail) % size

variable {size avail tail head : ℕ}

/-- The empty ring. -/
theorem WF.empty (h : 0 < size) : WF size 0 0 0 :=
  ⟨h, Nat.zero_le _, h, by simp⟩

theorem WF.head_lt (h : WF size avail tail head) : head < size := by
  rw [h.head_eq]
  exact Nat.mod_lt _ h.size_pos

/-- One more slot is in use. -/
theorem WF.push (h : WF size avail tail head) (hlt : avail < size) :
    WF size (avail + 1) tail ((head + 1) % size) where
  size_pos := h.size_pos
  avail_le := hlt
  tail_lt := h.tail_lt
  head_eq := by rw [h.head_eq, Nat.mod_add_mod, Nat.add_assoc]

/-- One slot less is in use. -/
theorem WF.pop (h : WF size avail tail head) (hpos : 1 ≤ avail) :
    WF size (avail - 1) ((tail + 1) % size) head where
  size_pos := h.size_pos
  avail_le := (Nat.sub_le _ _).trans h.avail_le
  tail_lt := Nat.mod_lt _ h.size_pos
  head_eq := by
    rw [h.head_eq, Nat.mod_add_mod]
    congr 1
    omega

/-- The slot at `head` is outside the window unless the ring is full. -/
theorem WF.head_free (h : WF size avail tail head) (hlt : avail < size) :
    ∀ i < avail, (tail + i) % size ≠ head := by
  intro i hi he
  rw [h.head_eq] at he
  have := slot_inj (by omega) hlt he
  omega

/-- On a ring neither empty nor full, `head` and `tail` are different slots. -/
theorem WF.head_ne_tail (h : WF size avail tail head) (hpos : 1 ≤ avail) (hlt : avail < size) :
    head ≠ tail := by
  have hfree := h.head_free hlt 0 hpos
  rw [Nat.add_zero, Nat.mod_eq_of_lt h.tail_lt] at hfree
  exact hfree.symm

end Ring
