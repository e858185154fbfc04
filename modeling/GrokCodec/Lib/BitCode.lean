import Mathlib.Data.List.Basic
import Mathlib.Tactic.Ring

/-!
Fixed-width binary codes as lists of bits, most significant bit first, and bit stuffing: after a
byte `0xff` the next byte carries only seven bits.
-/

namespace GrokCodec.BitCode

open List Nat

/-- The number a list of bits stands for. -/
def value : List Bool → Nat
  | [] => 0
  | b :: bs => b.toNat * 2 ^ bs.length + value bs

/-- The lowest `n` bits of a number. -/
def bitsOf : Nat → Nat → List Bool
  | 0, _ => []
  | n + 1, v => (v >>> n % 2 == 1) :: bitsOf n v

@[simp] theorem length_bitsOf (n v : Nat) : (bitsOf n v).length = n := by
  induction n with
  | zero => rfl
  | succ n ih => simp [bitsOf, ih]

theorem value_append (as bs : List Bool) :
    value (as ++ bs) = value as * 2 ^ bs.length + value bs := by
  induction as with
  | nil => simp [value]
  | cons a as ih =>
    simp only [cons_append, value, ih, length_append, Nat.pow_add]
    ring

theorem value_lt (bs : List Bool) : value bs < 2 ^ bs.length := by
  induction bs with
  | nil => simp [value]
  | cons b bs ih =>
    have hb : b.toNat ≤ 1 := Bool.toNat_le b
    have hpow : 2 ^ (b :: bs).length = 2 * 2 ^ bs.length := by
      rw [length_cons, Nat.pow_succ, Nat.mul_comm]
    have hmul : b.toNat * 2 ^ bs.length ≤ 1 * 2 ^ bs.length := mul_le_mul_right _ hb
    rw [value, hpow]
    omega

theorem bit_toNat (v : Nat) : (v % 2 == 1).toNat = v % 2 := by
  rcases mod_two_eq_zero_or_one v with h | h <;> simp [h]

theorem value_bitsOf {n v : Nat} (h : v < 2 ^ n) : value (bitsOf n v) = v := by
  have hmod (n : Nat) : value (bitsOf n v) = v % 2 ^ n := by
    induction n with
    | zero => simp [bitsOf, value, mod_one]
    | succ n ih =>
      rw [bitsOf, value, length_bitsOf, ih, bit_toNat, shiftRight_eq_div_pow, Nat.pow_succ,
        mod_mul]
      ring
  rw [hmod, mod_eq_of_lt h]

/-- The bytes that carry `bits` if the first of them has room for `k` bits. The last byte is
filled up with zeros, and a last byte `0xff` is followed by a zero. -/
inductive Stuffed : Nat → List Bool → List Nat → Prop
  | last {k : Nat} {bits : List Bool} (hlen : bits.length ≤ k)
      (hbyte : value bits * 2 ^ (k - bits.length) ≠ 0xff) :
      Stuffed k bits [value bits * 2 ^ (k - bits.length)]
  | lastFF {k : Nat} {bits : List Bool} (hlen : bits.length ≤ k)
      (hbyte : value bits * 2 ^ (k - bits.length) = 0xff) : Stuffed k bits [0xff, 0]
  | next {k : Nat} {first rest : List Bool} {bytes : List Nat} (hlen : first.length = k)
      (hrest : rest ≠ []) (h : Stuffed (if value first = 0xff then 7 else 8) rest bytes) :
      Stuffed k (first ++ rest) (value first :: bytes)

variable {bits : List Bool}

theorem value_shift_lt {k : Nat} (h : bits.length ≤ k) :
    value bits * 2 ^ (k - bits.length) < 2 ^ k := by
  have hpow : 2 ^ bits.length * 2 ^ (k - bits.length) = 2 ^ k := by
    rw [← Nat.pow_add, Nat.add_sub_cancel' h]
  rw [← hpow]
  exact Nat.mul_lt_mul_of_pos_right (value_lt bits) (Nat.two_pow_pos _)

/-- The room of a byte after `prev`. -/
def room (prev : Nat) : Nat := if prev = 0xff then 7 else 8

theorem room_le (prev : Nat) : room prev ≤ 8 := by
  unfold room
  split <;> omega

namespace Stuffed

variable {bytes : List Nat}

/-- **No byte with its top bit set follows a byte `0xff`.** -/
theorem isChain {prev : Nat} (h : Stuffed (room prev) bits bytes) :
    IsChain (fun a b => a = 0xff → b < 0x80) (prev :: bytes) := by
  have hfirst {byte : Nat} (hbyte : byte < 2 ^ room prev) : prev = 0xff → byte < 0x80 := by
    intro hprev
    rw [room, if_pos hprev] at hbyte
    exact hbyte
  generalize hk : room prev = k at h
  induction h generalizing prev with
  | last hlen hbyte =>
    subst hk
    exact List.isChain_cons_cons.mpr ⟨hfirst (value_shift_lt hlen), .singleton _⟩
  | lastFF hlen hbyte =>
    subst hk
    have hlt := value_shift_lt hlen
    rw [hbyte] at hlt
    exact List.isChain_cons_cons.mpr ⟨hfirst hlt,
      List.isChain_cons_cons.mpr ⟨fun _ => by omega, .singleton _⟩⟩
  | @next k first rest bytes hlen hrest _ ih =>
    subst hk
    have hlt := value_lt first
    rw [hlen] at hlt
    refine List.isChain_cons_cons.mpr ⟨hfirst hlt, ih ?_ rfl⟩
    intro byte hbyte hff
    rw [room, if_pos hff] at hbyte
    exact hbyte

/-- **The last byte is not `0xff`.** -/
theorem getLast_ne {k : Nat} (h : Stuffed k bits bytes) : bytes.getLast? ≠ some 0xff := by
  induction h with
  | last hlen hbyte => simpa using hbyte
  | lastFF hlen hbyte => simp
  | next hlen hrest h ih =>
    rw [getLast?_cons_of_ne_nil ?_]
    · exact ih
    · cases h <;> simp

theorem length_le {k : Nat} (h : Stuffed k bits bytes) (hk : k ≤ 8) :
    bits.length ≤ 8 * bytes.length := by
  induction h with
  | last hlen hbyte => simpa using hlen.trans hk
  | lastFF hlen hbyte => simpa using (hlen.trans hk).trans (by omega)
  | @next k first rest bytes hlen hrest h ih =>
    have hroom := ih (room_le (value first))
    rw [length_append, length_cons]
    omega

end Stuffed

end GrokCodec.BitCode
