import Mathlib.Tactic.Abel

/-!
Two-step lifting on a line of `n` samples, mirrored at both ends.

Every other position is a high-pass position: its value is replaced by the difference to a
prediction from its two neighbours. The remaining, low-pass positions are then corrected from
the differences next to them. Both steps leave what they read untouched, so they can be
undone in the opposite order, whatever the two step functions are.
-/

namespace GrokCodec.Lifting

universe u

/-- The neighbour on the left, mirrored at the first sample. -/
def prev (k : Nat) : Nat := if k = 0 then 1 else k - 1

/-- The neighbour on the right, mirrored at the last of `n` samples. -/
def next (n k : Nat) : Nat := if k + 1 < n then k + 1 else k - 1

/-- Position `k` of a line whose first sample has parity `p` is a low-pass position. -/
def IsLow (p k : Nat) : Prop := (k + p) % 2 = 0

instance (p k : Nat) : Decidable (IsLow p k) := inferInstanceAs (Decidable (_ = _))

@[simp] theorem prev_succ (k : Nat) : prev (k + 1) = k := rfl

@[simp] theorem prev_zero : prev 0 = 1 := rfl

variable {k : Nat}

theorem prev_of_pos (h : 0 < k) : prev k = k - 1 := if_neg (by omega)

theorem next_of_lt {n : Nat} (h : k + 1 < n) : next n k = k + 1 := if_pos h

theorem next_of_last {n : Nat} (h : n ≤ k + 1) : next n k = k - 1 := if_neg (by omega)

theorem prev_lt {n : Nat} (hn : 2 ≤ n) (hk : k < n) : prev k < n := by
  unfold prev; split <;> omega

theorem next_lt {n : Nat} (hk : k < n) : next n k < n := by
  unfold next; split <;> omega

theorem isLow_prev {p : Nat} : IsLow p (prev k) ↔ ¬ IsLow p k := by
  unfold IsLow prev; split <;> omega

theorem isLow_next {n p : Nat} (hn : 2 ≤ n) (hk : k < n) : IsLow p (next n k) ↔ ¬ IsLow p k := by
  unfold IsLow next; split <;> omega

section Steps

variable {α : Type u} [AddCommGroup α] (predict update : α → α → α) (p n : Nat)

/-- The difference between a sample and its prediction. -/
def high (x : Nat → α) (k : Nat) : α := x k - predict (x (prev k)) (x (next n k))

/-- Both lifting steps; position `k` holds a low-pass or a high-pass value by its parity. -/
def analyze (x : Nat → α) (k : Nat) : α :=
  if IsLow p k then
    x k + update (high predict n x (prev k)) (high predict n x (next n k))
  else high predict n x k

/-- The sample at a low-pass position, from the values next to it. -/
def restore (y : Nat → α) (k : Nat) : α := y k - update (y (prev k)) (y (next n k))

/-- Both steps undone. -/
def synthesize (y : Nat → α) (k : Nat) : α :=
  if IsLow p k then restore update n y k
  else y k + predict (restore update n y (prev k)) (restore update n y (next n k))

variable {predict update p n} {x : Nat → α}

theorem analyze_of_low {k : Nat} (h : IsLow p k) :
    analyze predict update p n x k =
      x k + update (high predict n x (prev k)) (high predict n x (next n k)) := if_pos h

theorem analyze_of_high {k : Nat} (h : ¬ IsLow p k) :
    analyze predict update p n x k = high predict n x k := if_neg h

variable {y : Nat → α}

theorem synthesize_of_low {k : Nat} (h : IsLow p k) :
    synthesize predict update p n y k = restore update n y k := if_pos h

theorem synthesize_of_high {k : Nat} (h : ¬ IsLow p k) :
    synthesize predict update p n y k =
      y k + predict (restore update n y (prev k)) (restore update n y (next n k)) := if_neg h

theorem restore_analyze {k : Nat} (hn : 2 ≤ n) (hk : k < n) (h : IsLow p k) :
    restore update n (analyze predict update p n x) k = x k := by
  have hprev : ¬ IsLow p (prev k) := fun low => isLow_prev.mp low h
  have hnext : ¬ IsLow p (next n k) := fun low => (isLow_next hn hk).mp low h
  unfold restore
  rw [analyze_of_low h, analyze_of_high hprev, analyze_of_high hnext, add_sub_cancel_right]

theorem synthesize_analyze {k : Nat} (hn : 2 ≤ n) (hk : k < n) :
    synthesize predict update p n (analyze predict update p n x) k = x k := by
  by_cases h : IsLow p k
  · rw [synthesize_of_low h, restore_analyze hn hk h]
  · have hprev := isLow_prev.mpr h
    have hnext := (isLow_next hn hk).mpr h
    rw [synthesize_of_high h, restore_analyze hn (prev_lt hn hk) hprev,
      restore_analyze hn (next_lt hk) hnext, analyze_of_high h]
    exact sub_add_cancel _ _

theorem synthesize_congr {z : Nat → α} (hn : 2 ≤ n) (h : ∀ k, k < n → y k = z k) {k : Nat}
    (hk : k < n) : synthesize predict update p n y k = synthesize predict update p n z k := by
  have at_low : ∀ j, j < n → restore update n y j = restore update n z j := by
    intro j hj
    unfold restore
    rw [h j hj, h _ (prev_lt hn hj), h _ (next_lt hj)]
  unfold synthesize
  rw [h k hk, at_low k hk, at_low _ (prev_lt hn hk), at_low _ (next_lt hk)]

end Steps

end GrokCodec.Lifting
