import Mathlib.Data.List.Infix
import Mathlib.Tactic.Ring

/-!
Interval coding with exact numbers. A message narrows an interval with dyadic ends; its code
is a string of binary digits that names a point of the final interval. The digits may have
different widths, and a digit may exceed its width, the excess being a carry into the digit
before it.
-/

namespace GrokCodec.IntervalCoding

open List Nat

/-- The interval from `low / 2 ^ scale` up to, not including, `(low + size) / 2 ^ scale`. -/
structure Span where
  low : Nat
  size : Nat
  scale : Nat
  deriving DecidableEq, Repr

namespace Span

/-- The part of the interval below `q`. -/
def lower (s : Span) (q : Nat) : Span := { s with size := q }

/-- The part of the interval from `q` on. -/
def upper (s : Span) (q : Nat) : Span := { s with low := s.low + q, size := s.size - q }

/-- The same interval with one more bit of precision. -/
def double (s : Span) : Span := ⟨2 * s.low, 2 * s.size, s.scale + 1⟩

/-- Doubles at least once and until the size is at least `least`, or the fuel is used up. -/
def renorm (least : Nat) : Nat → Span → Span
  | 0, s => s
  | fuel + 1, s => if s.double.size < least then renorm least fuel s.double else s.double

/-- One interval inside another, whatever the precision of the two. -/
structure Within (s t : Span) : Prop where
  low : t.low * 2 ^ s.scale ≤ s.low * 2 ^ t.scale
  high : (s.low + s.size) * 2 ^ t.scale ≤ (t.low + t.size) * 2 ^ s.scale

end Span

/-- Fractions with powers of two below are compared through a third one. -/
theorem scaled_lt_of_le_of_lt {a b c i j k : Nat} (hab : a * 2 ^ j ≤ b * 2 ^ i)
    (hbc : b * 2 ^ k < c * 2 ^ j) : a * 2 ^ k < c * 2 ^ i := by
  refine Nat.lt_of_mul_lt_mul_right (a := 2 ^ j) ?_
  calc a * 2 ^ k * 2 ^ j = a * 2 ^ j * 2 ^ k := by ring
    _ ≤ b * 2 ^ i * 2 ^ k := mul_le_mul_right _ hab
    _ = b * 2 ^ k * 2 ^ i := by ring
    _ < c * 2 ^ j * 2 ^ i := Nat.mul_lt_mul_of_pos_right hbc (Nat.two_pow_pos i)
    _ = c * 2 ^ i * 2 ^ j := by ring

theorem scaled_le_trans {a b c i j k : Nat} (hab : a * 2 ^ j ≤ b * 2 ^ i)
    (hbc : b * 2 ^ k ≤ c * 2 ^ j) : a * 2 ^ k ≤ c * 2 ^ i := by
  by_contra hlt
  exact Nat.not_lt.mpr hab (scaled_lt_of_le_of_lt hbc (Nat.not_le.mp hlt))

/-- A whole number below the next one at a precision that is fine enough is not above it. -/
theorem scaled_le_of_lt_succ {a b i j : Nat} (hij : i ≤ j)
    (h : a * 2 ^ j < (b + 1) * 2 ^ i) : a * 2 ^ j ≤ b * 2 ^ i := by
  obtain ⟨k, rfl⟩ := Nat.exists_eq_add_of_le hij
  have hsplit : a * 2 ^ (i + k) = a * 2 ^ k * 2 ^ i := by ring
  rw [hsplit] at h ⊢
  exact mul_le_mul_right _ (le_of_lt_succ (Nat.lt_of_mul_lt_mul_right h))

namespace Span

variable {s t u : Span}

theorem Within.refl (s : Span) : s.Within s := ⟨Nat.le_refl _, Nat.le_refl _⟩

theorem Within.trans (hst : s.Within t) (htu : t.Within u) : s.Within u :=
  ⟨scaled_le_trans htu.low hst.low, scaled_le_trans hst.high htu.high⟩

theorem within_of_scale_eq (hscale : s.scale = t.scale) (hlow : t.low ≤ s.low)
    (hhigh : s.low + s.size ≤ t.low + t.size) : s.Within t := by
  constructor
  · rw [hscale]; exact mul_le_mul_right _ hlow
  · rw [hscale]; exact mul_le_mul_right _ hhigh

theorem lower_within {q : Nat} (hq : q ≤ s.size) : (s.lower q).Within s :=
  within_of_scale_eq rfl (Nat.le_refl _) (Nat.add_le_add_left hq _)

theorem upper_within {q : Nat} (hq : q ≤ s.size) : (s.upper q).Within s :=
  within_of_scale_eq rfl (le_add_right _ _) (by simp only [upper]; omega)

theorem double_within (s : Span) : s.double.Within s := by
  constructor <;> simp only [double, Nat.pow_succ] <;> apply Nat.le_of_eq <;> ring

end Span

section Digits

variable (w : Nat → Nat)

/-- Bits taken by a string of digits, last digit first. A digit's width depends on the digit
before it; the first one follows a zero. -/
def bits : List Nat → Nat
  | [] => 0
  | _ :: l => bits l + w (l.headD 0)

/-- The number a string of digits spells, last digit first. -/
def value : List Nat → Nat
  | [] => 0
  | b :: l => value l * 2 ^ w (l.headD 0) + b

variable {w}

theorem value_suffix {p l : List Nat} (h : p <:+ l) :
    value w p * 2 ^ bits w l ≤ value w l * 2 ^ bits w p := by
  induction l with
  | nil => rw [suffix_nil.mp h]
  | cons b l ih =>
    rcases suffix_cons_iff.mp h with rfl | h
    · exact Nat.le_refl _
    · calc value w p * 2 ^ bits w (b :: l)
          = value w p * 2 ^ bits w l * 2 ^ w (l.headD 0) := by rw [bits]; ring
        _ ≤ value w l * 2 ^ bits w p * 2 ^ w (l.headD 0) := mul_le_mul_right _ (ih h)
        _ = value w l * 2 ^ w (l.headD 0) * 2 ^ bits w p := by ring
        _ ≤ value w (b :: l) * 2 ^ bits w p := mul_le_mul_right _ (le_add_right _ _)

theorem bits_suffix {p l : List Nat} (h : p <:+ l) : bits w p ≤ bits w l := by
  induction l with
  | nil => rw [suffix_nil.mp h]
  | cons b l ih =>
    rcases suffix_cons_iff.mp h with rfl | h
    · exact Nat.le_refl _
    · exact Nat.le_trans (ih h) (le_add_right _ _)

variable (w) in
/-- The digits spelled so far do not fall below the interval, as soon as they are at least as
fine as it is. -/
def Span.Above (s : Span) (l : List Nat) : Prop :=
  ∀ p, p <:+ l → s.scale ≤ bits w p → s.low * 2 ^ bits w p ≤ value w p * 2 ^ s.scale

variable (w) in
/-- The digits followed by any number of ones stay below the end of the interval. -/
def Span.Below (s : Span) (l : List Nat) : Prop :=
  (value w l + 1) * 2 ^ s.scale ≤ (s.low + s.size) * 2 ^ bits w l

variable (w) in
/-- The digits, cut off anywhere behind the last one, do not fall below the interval. -/
def Span.Reached (s : Span) (l : List Nat) : Prop :=
  s.low * 2 ^ bits w l < (value w l + 1) * 2 ^ s.scale

variable {s t : Span} {b : Nat} {l : List Nat}

theorem Span.above_of_bits_lt (h : bits w l < s.scale) : s.Above w l := fun _ hp hs =>
  absurd (Nat.le_trans hs (bits_suffix hp)) (Nat.not_le.mpr h)

theorem Span.Above.cons (h : s.Above w l) (hb : s.Reached w (b :: l)) : s.Above w (b :: l) := by
  intro p hp hs
  rcases suffix_cons_iff.mp hp with rfl | hp
  · exact scaled_le_of_lt_succ hs hb
  · exact h p hp hs

/-- Raising the last digit, as a carry does. -/
theorem Span.Above.raise (h : s.Above w (b :: l)) (k : Nat) : s.Above w ((b + k) :: l) := by
  intro p hp hs
  rcases suffix_cons_iff.mp hp with rfl | hp
  · have hvalue : value w (b :: l) ≤ value w ((b + k) :: l) := by
      simp only [value]
      omega
    exact Nat.le_trans (h (b :: l) suffix_rfl hs) (mul_le_mul_right _ hvalue)
  · exact h p (hp.trans (suffix_cons b l)) hs

/-- Digits cut off those of the base of an interval that lies within. -/
theorem Span.reached_of_lt {r : Nat} (hts : t.Within s) (hscale : t.scale = r + bits w l)
    (hlt : t.low < (value w l + 1) * 2 ^ r) : s.Reached w l := by
  refine scaled_lt_of_le_of_lt hts.low ?_
  calc t.low * 2 ^ bits w l < (value w l + 1) * 2 ^ r * 2 ^ bits w l :=
        Nat.mul_lt_mul_of_pos_right hlt (Nat.two_pow_pos _)
    _ = (value w l + 1) * 2 ^ t.scale := by rw [hscale]; ring

theorem Span.Below.of_within (h : t.Below w l) (hts : t.Within s) : s.Below w l :=
  scaled_le_trans h hts.high

end Digits

end GrokCodec.IntervalCoding
