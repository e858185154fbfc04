import Mathlib.Data.List.Induction
import Mathlib.Tactic.Ring

/-!
Byte streams with random access. Bytes are natural numbers; `Occurs seg src pos` says that the
bytes `seg` stand at position `pos` of the stream, and every read of a stream built by
concatenation follows from it.
-/

namespace GrokCodec.ByteStream

open List Option

/-- Big-endian 16-bit value. -/
def be16 (v : Nat) : List Nat := [v / 256 % 256, v % 256]

/-- Big-endian 32-bit value. -/
def be32 (v : Nat) : List Nat := [v / 16777216 % 256, v / 65536 % 256, v / 256 % 256, v % 256]

def readU16 (src : List Nat) (pos : Nat) : Option Nat :=
  match src.drop pos with
  | a :: b :: _ => some (a * 256 + b)
  | _ => none

def readU32 (src : List Nat) (pos : Nat) : Option Nat :=
  match src.drop pos with
  | a :: b :: c :: d :: _ => some (((a * 256 + b) * 256 + c) * 256 + d)
  | _ => none

/-- Seek to `pos` and read `n` bytes, all of them or none. -/
def readAt (src : List Nat) (pos n : Nat) : Option (List Nat) :=
  if pos + n ≤ src.length then some ((src.drop pos).take n) else none

@[simp] theorem length_be16 (v : Nat) : (be16 v).length = 2 := rfl
@[simp] theorem length_be32 (v : Nat) : (be32 v).length = 4 := rfl

/-- The bytes `seg` stand at position `pos`. -/
def Occurs (seg src : List Nat) (pos : Nat) : Prop := pos ≤ src.length ∧ seg <+: src.drop pos

namespace Occurs

variable {a b seg src : List Nat} {pos : Nat}

theorem self (src : List Nat) : Occurs src src 0 := ⟨Nat.zero_le _, prefix_rfl⟩

theorem append_iff : Occurs (a ++ b) src pos ↔ Occurs a src pos ∧ Occurs b src (pos + a.length) := by
  constructor
  · rintro ⟨hpos, rest, h⟩
    have hlen := congrArg List.length h
    simp only [length_append, length_drop] at hlen
    refine ⟨⟨hpos, b ++ rest, by rw [← h, append_assoc]⟩, by omega, rest, ?_⟩
    rw [← drop_drop, ← h, append_assoc, drop_left]
  · rintro ⟨⟨hpos, resta, ha⟩, -, restb, hb⟩
    refine ⟨hpos, restb, ?_⟩
    rw [← drop_drop, ← ha, drop_left] at hb
    rw [← ha, ← hb, append_assoc]

theorem left (h : Occurs (a ++ b) src pos) : Occurs a src pos := (append_iff.mp h).1

theorem right (h : Occurs (a ++ b) src pos) : Occurs b src (pos + a.length) := (append_iff.mp h).2

theorem add_length_le (h : Occurs seg src pos) : pos + seg.length ≤ src.length := by
  obtain ⟨hpos, rest, h⟩ := h
  have := congrArg List.length h
  simp only [length_append, length_drop] at this
  omega

theorem readAt_eq (h : Occurs seg src pos) : readAt src pos seg.length = some seg := by
  obtain ⟨rest, hr⟩ := h.2
  rw [readAt, if_pos h.add_length_le, ← hr, take_left]

theorem readU16_eq {v : Nat} (h : Occurs (be16 v) src pos) (hv : v < 65536) :
    readU16 src pos = some v := by
  obtain ⟨rest, hr⟩ := h.2
  rw [readU16, ← hr]
  simp only [be16, cons_append, nil_append, some.injEq]
  omega

theorem readU32_eq {v : Nat} (h : Occurs (be32 v) src pos) (hv : v < 4294967296) :
    readU32 src pos = some v := by
  obtain ⟨rest, hr⟩ := h.2
  rw [readU32, ← hr]
  simp only [be32, cons_append, nil_append, some.injEq]
  omega

end Occurs

theorem occurs_of_readAt {src seg : List Nat} {pos n : Nat} (h : readAt src pos n = some seg) :
    Occurs seg src pos ∧ seg.length = n := by
  unfold readAt at h
  split at h
  case isFalse => cases h
  case isTrue hle =>
    obtain rfl := some.inj h
    refine ⟨⟨by omega, take_prefix _ _⟩, ?_⟩
    rw [length_take, length_drop]
    omega

/-- A value that does not fit reads back as something else. -/
theorem readU32_be32 (v : Nat) : readU32 (be32 v) 0 = some (v % 4294967296) := by
  simp only [readU32, be32, drop_zero, some.injEq]
  omega

/-- Big-endian value of `n` bytes. -/
def beBytes : Nat → Nat → List Nat
  | 0, _ => []
  | n + 1, v => beBytes n (v / 256) ++ [v % 256]

def ofBytes (bytes : List Nat) : Nat := bytes.foldl (fun v b => v * 256 + b) 0

@[simp] theorem length_beBytes (n v : Nat) : (beBytes n v).length = n := by
  induction n generalizing v with
  | zero => rfl
  | succ n ih => rw [beBytes, length_append, ih, length_singleton]

theorem beBytes_lt {n v b : Nat} (h : b ∈ beBytes n v) : b < 256 := by
  induction n generalizing v with
  | zero => exact absurd h not_mem_nil
  | succ n ih =>
    rcases mem_append.mp h with h | h
    · exact ih h
    · rw [mem_singleton.mp h]
      exact Nat.mod_lt _ (by decide)

theorem ofBytes_append_singleton (bytes : List Nat) (b : Nat) :
    ofBytes (bytes ++ [b]) = ofBytes bytes * 256 + b := by
  rw [ofBytes, foldl_append]
  rfl

theorem ofBytes_lt {bytes : List Nat} (h : ∀ b ∈ bytes, b < 256) :
    ofBytes bytes < 256 ^ bytes.length := by
  induction bytes using reverseRecOn with
  | nil => decide
  | append_singleton bytes b ih =>
    have hb := h b (by simp)
    have hlow := ih fun c hc => h c (mem_append_left _ hc)
    rw [ofBytes_append_singleton, length_append, length_singleton, Nat.pow_succ]
    omega

theorem ofBytes_beBytes {n v : Nat} (hv : v < 256 ^ n) : ofBytes (beBytes n v) = v := by
  induction n generalizing v with
  | zero =>
    obtain rfl : v = 0 := by omega
    rfl
  | succ n ih =>
    have hhigh : v / 256 < 256 ^ n := by
      rw [Nat.pow_succ] at hv
      exact Nat.div_lt_of_lt_mul (by rwa [Nat.mul_comm] at hv)
    rw [beBytes, ofBytes_append_singleton, ih hhigh]
    omega

end GrokCodec.ByteStream
