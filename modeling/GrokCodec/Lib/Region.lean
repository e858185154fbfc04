import Mathlib.Data.List.Range

/-!
Memory as a function on addresses: regions that are read out and written over.
-/

namespace GrokCodec.Region

open List

variable {α : Type}

/-- The values of `n` places from `pos` on. -/
def slice (mem : Nat → α) (pos n : Nat) : List α := (List.range n).map fun i => mem (pos + i)

/-- Values are written from `pos` on. -/
def splice (mem : Nat → α) (pos : Nat) (vals : List α) (i : Nat) : α :=
  if pos ≤ i then vals.getD (i - pos) (mem i) else mem i

@[simp] theorem length_slice (mem : Nat → α) (pos n : Nat) : (slice mem pos n).length = n := by
  rw [slice, length_map, length_range]

theorem slice_add (mem : Nat → α) (pos m n : Nat) :
    slice mem pos (m + n) = slice mem pos m ++ slice mem (pos + m) n := by
  rw [slice, slice, slice, range_add, map_append, map_map]
  congr 1
  apply map_congr_left
  intro i _
  show mem (pos + (m + i)) = mem (pos + m + i)
  rw [Nat.add_assoc]

variable {mem : Nat → α} {pos : Nat}

theorem slice_congr {mem' : Nat → α} {pos' n : Nat} (h : ∀ i < n, mem (pos + i) = mem' (pos' + i)) :
    slice mem pos n = slice mem' pos' n :=
  map_congr_left fun i hi => h i (mem_range.mp hi)

theorem getElem?_slice (mem : Nat → α) (pos : Nat) {n i : Nat} (h : i < n) :
    (slice mem pos n)[i]? = some (mem (pos + i)) := by
  rw [slice, List.getElem?_map, List.getElem?_range h, Option.map_some]

theorem splice_nil (mem : Nat → α) (pos : Nat) : splice mem pos [] = mem := by
  funext i
  rw [splice, getD_nil, ite_self]

theorem splice_of_lt {i : Nat} (vals : List α) (h : i < pos) :
    splice mem pos vals i = mem i := if_neg (Nat.not_le.mpr h)

variable {vals : List α}

theorem splice_of_ge {i : Nat} (h : pos + vals.length ≤ i) : splice mem pos vals i = mem i := by
  rw [splice, if_pos (by omega), getD_eq_getElem?_getD, List.getElem?_eq_none (by omega)]
  rfl

theorem splice_add {k : Nat} {v : α} (h : vals[k]? = some v) :
    splice mem pos vals (pos + k) = v := by
  rw [splice, if_pos (Nat.le_add_right _ _), Nat.add_sub_cancel_left, getD_eq_getElem?_getD, h]
  rfl

theorem slice_splice (mem : Nat → α) (pos : Nat) (vals : List α) :
    slice (splice mem pos vals) pos vals.length = vals := by
  apply ext_getElem?
  intro k
  by_cases hk : k < vals.length
  · rw [getElem?_slice _ _ hk, splice_add (List.getElem?_eq_getElem hk), List.getElem?_eq_getElem hk]
  · rw [List.getElem?_eq_none (by rw [length_slice]; omega), List.getElem?_eq_none (by omega)]

theorem slice_splice_of_le {start n : Nat} (vals : List α) (h : start + n ≤ pos) :
    slice (splice mem pos vals) start n = slice mem start n :=
  slice_congr fun _ hi => splice_of_lt vals (by omega)

theorem splice_append (mem : Nat → α) (pos : Nat) (vals vals' : List α) :
    splice (splice mem pos vals) (pos + vals.length) vals' = splice mem pos (vals ++ vals') := by
  funext i
  by_cases hlow : i < pos + vals.length
  · rw [splice_of_lt vals' hlow]
    by_cases hpos : i < pos
    · rw [splice_of_lt _ hpos, splice_of_lt _ hpos]
    · obtain ⟨k, rfl⟩ := Nat.exists_eq_add_of_le (Nat.le_of_not_lt hpos)
      have hk : k < vals.length := by omega
      rw [splice_add (List.getElem?_eq_getElem hk),
        splice_add ((List.getElem?_append_left hk).trans (List.getElem?_eq_getElem hk))]
  · obtain ⟨k, rfl⟩ := Nat.exists_eq_add_of_le (Nat.le_of_not_lt hlow)
    by_cases hk : k < vals'.length
    · rw [splice_add (List.getElem?_eq_getElem hk), Nat.add_assoc]
      symm
      apply splice_add
      rw [List.getElem?_append_right (Nat.le_add_right _ _), Nat.add_sub_cancel_left,
        List.getElem?_eq_getElem hk]
    · rw [splice_of_ge (by omega), splice_of_ge (by omega),
        splice_of_ge (by rw [length_append]; omega)]

end GrokCodec.Region
