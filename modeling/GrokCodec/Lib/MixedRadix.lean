import Mathlib.Tactic.Common
import Mathlib.Data.Nat.Init

/-!
Numbers in mixed radix: pairs in a rectangle laid out row by row in one flat range.
-/

namespace GrokCodec.MixedRadix

open Nat

variable {w n x y x' y' : Nat}

/-- Column and row of a place. -/
theorem index_iff {k : Nat} :
    (x < w ∧ y < n ∧ k = x + y * w) ↔ (k < w * n ∧ x = k % w ∧ y = k / w) := by
  constructor
  · rintro ⟨hx, hy, rfl⟩
    have hw : 0 < w := by omega
    refine ⟨?_, ?_, ?_⟩
    · have := mul_le_mul_right w (succ_le_of_lt hy)
      rw [succ_mul, Nat.mul_comm n] at this
      omega
    · rw [add_mul_mod_self_right, mod_eq_of_lt hx]
    · rw [add_mul_div_right _ _ hw, div_eq_of_lt hx, Nat.zero_add]
  · rintro ⟨hk, rfl, rfl⟩
    have hw : 0 < w := Nat.pos_of_ne_zero fun h => by simp [h] at hk
    refine ⟨mod_lt _ hw, ?_, ?_⟩
    · rw [div_lt_iff_lt_mul hw, Nat.mul_comm]
      exact hk
    · have := div_add_mod k w
      rw [Nat.mul_comm] at this
      omega

theorem index_lt_iff (hx : x < w) (hx' : x' < w) :
    x + y * w < x' + y' * w ↔ y < y' ∨ y = y' ∧ x < x' := by
  rcases Nat.lt_trichotomy y y' with h | rfl | h
  · have := mul_le_mul_right w (succ_le_of_lt h)
    rw [succ_mul] at this
    omega
  · omega
  · have := mul_le_mul_right w (succ_le_of_lt h)
    rw [succ_mul] at this
    omega

theorem index_inj (hx : x < w) (hx' : x' < w) (h : y * w + x = y' * w + x') : y = y' ∧ x = x' := by
  have hlt := @index_lt_iff _ _ y _ y' hx hx'
  have hgt := @index_lt_iff _ _ y' _ y hx' hx
  omega

end GrokCodec.MixedRadix
