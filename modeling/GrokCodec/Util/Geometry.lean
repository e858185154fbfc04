import Mathlib.Algebra.Order.Floor.Div
import Mathlib.Tactic.Ring

/-!
Integer helpers and rectangles, with the widths the source computes in. Values of the
unsigned types are natural numbers; a conversion to 32 bits is written `u32`.
-/

namespace GrokCodec

open Nat

/-- Conversion to `uint8_t`. -/
def u8 (n : Nat) : Nat := n % 2 ^ 8

/-- Conversion to `uint16_t`. -/
def u16 (n : Nat) : Nat := n % 2 ^ 16

/-- Conversion to `uint32_t`. -/
def u32 (n : Nat) : Nat := n % 2 ^ 32

/-- `uint32_t` subtraction. -/
def sub32 (a b : Nat) : Nat := u32 (a + 2 ^ 32 - b)

def uintMax : Nat := 2 ^ 32 - 1

def ceildiv (a b : Nat) : Nat := u32 ((a + b - 1) / b)

/-- `ceildivpow2<uint64_t>`, whose result is not narrowed. -/
def ceildivpow2 (a b : Nat) : Nat := (a + 2 ^ b - 1) >>> b

def floordivpow2 (a b : Nat) : Nat := a >>> b

theorem u32_of_lt {n : Nat} (h : n < 2 ^ 32) : u32 n = n := mod_eq_of_lt h

theorem u32_lt (n : Nat) : u32 n < 2 ^ 32 := mod_lt _ (by decide)

theorem sub32_of_le {a b : Nat} (hab : b ≤ a) (ha : a < 2 ^ 32) : sub32 a b = a - b := by
  unfold sub32 u32
  have : a + 2 ^ 32 - b = (a - b) + 2 ^ 32 := by omega
  rw [this, add_mod_right, mod_eq_of_lt (by omega)]

@[simp] theorem sub32_self (a : Nat) : sub32 a a = 0 := by
  unfold sub32 u32
  rw [Nat.add_sub_cancel_left]
  exact mod_self _

theorem lt_ceilDiv_iff {a b c : Nat} (hb : 0 < b) : c < a ⌈/⌉ b ↔ b * c < a := by
  rw [← not_le, ceilDiv_le_iff_le_mul hb, not_le]

theorem ceilDiv_le_self {a b : Nat} (hb : 0 < b) : a ⌈/⌉ b ≤ a := by
  rw [ceilDiv_le_iff_le_mul hb]
  exact Nat.le_mul_of_pos_left a hb

theorem mul_ceilDiv_cancel {b : Nat} (hb : 0 < b) (c : Nat) : (b * c) ⌈/⌉ b = c :=
  smul_ceilDiv hb c

theorem ceilDiv_ceilDiv {b c : Nat} (a : Nat) (hb : 0 < b) (hc : 0 < c) :
    a ⌈/⌉ b ⌈/⌉ c = a ⌈/⌉ (b * c) := by
  apply eq_of_forall_ge_iff
  intro k
  rw [ceilDiv_le_iff_le_mul hc, ceilDiv_le_iff_le_mul hb, ceilDiv_le_iff_le_mul (Nat.mul_pos hb hc),
    Nat.mul_assoc]

theorem ceildiv_eq {a b : Nat} (hb : 0 < b) (ha : a < 2 ^ 32) : ceildiv a b = a ⌈/⌉ b :=
  u32_of_lt (lt_of_le_of_lt (ceilDiv_le_self hb) ha)

theorem ceildivpow2_eq (a b : Nat) : ceildivpow2 a b = a ⌈/⌉ 2 ^ b := by
  rw [ceildivpow2, shiftRight_eq_div_pow, ceilDiv_eq_add_pred_div]

theorem floordivpow2_eq (a b : Nat) : floordivpow2 a b = a / 2 ^ b :=
  shiftRight_eq_div_pow a b

/-- `Rect`: half open in both axes. -/
structure Rect where
  x0 : Nat
  y0 : Nat
  x1 : Nat
  y1 : Nat
  deriving DecidableEq, Repr

namespace Rect

variable (r : Rect)

/-- `Rect32::scaleDownCeil`. -/
def scaleDownCeil (denx deny : Nat) : Rect :=
  ⟨ceildiv r.x0 denx, ceildiv r.y0 deny, ceildiv r.x1 denx, ceildiv r.y1 deny⟩

/-- `Rect32::scaleDown`: the upper bounds round up. -/
def scaleDown (denx deny : Nat) : Rect :=
  ⟨u32 (r.x0 / denx), u32 (r.y0 / deny), ceildiv r.x1 denx, ceildiv r.y1 deny⟩

/-- `Rect<uint64_t>` with each axis multiplied. -/
def scale (mx my : Nat) : Rect := ⟨r.x0 * mx, r.y0 * my, r.x1 * mx, r.y1 * my⟩

/-- `Rect32::width`. -/
def width : Nat := sub32 r.x1 r.x0

/-- `Rect32::height`. -/
def height : Nat := sub32 r.y1 r.y0

def area : Nat := r.width * r.height

def empty : Bool := r.x0 ≥ r.x1 || r.y0 ≥ r.y1

def clip (r s : Rect) : Rect := ⟨max r.x0 s.x0, max r.y0 s.y0, min r.x1 s.x1, min r.y1 s.y1⟩

/-- `Rect32::grow_IN_PLACE` with saturating arithmetic. -/
def grow (bx bY : Nat) : Rect :=
  ⟨r.x0 - bx, r.y0 - bY, min (r.x1 + bx) uintMax, min (r.y1 + bY) uintMax⟩

end Rect

end GrokCodec
