import GrokCodec.Lib.MixedRadix
import Mathlib.Tactic.Ring

/-!
`TileProcessorCompress::ingestUncompressedData`: the components of a tile are taken from one source,
where they lie one after the other. The source pointer moves by the same share of the source for
each of them, counted in samples.
-/

namespace GrokCodec.TileProcessor

open Function List

structure IngestComp where
  prec : Nat
  sgnd : Bool
  width : Nat
  height : Nat
  stride : Nat
  prec_range : 1 ≤ prec ∧ prec ≤ 16
  width_le : width ≤ stride

namespace IngestComp

def sizeComp (c : IngestComp) : Nat := (c.prec + 7) >>> 3

def area (c : IngestComp) : Nat := c.width * c.height

def bytes (c : IngestComp) : Nat := c.sizeComp * c.area

theorem sizeComp_eq (c : IngestComp) : c.sizeComp = 1 ∨ c.sizeComp = 2 := by
  have := c.prec_range
  rw [sizeComp, Nat.shiftRight_eq_div_pow]
  omega

end IngestComp

/-- A sample of one or two bytes, low byte first. There is none outside the source. -/
def sampleAt (src : List UInt8) (size : Nat) (sgnd : Bool) (pos : Nat) : Option Int := do
  let low ← src[pos]?
  let high ← if size = 2 then src[pos + 1]? else some 0
  let v := low.toNat + 256 * high.toNat
  return if sgnd ∧ 2 ^ (8 * size - 1) ≤ v then v - 2 ^ (8 * size) else v

section Copy

variable {β : Type} (src : Nat → β)

def copyRow : Nat → Nat → Nat → (Nat → β) → Nat → β
  | 0, _, _, dest => dest
  | w + 1, src_ind, dest_ind, dest =>
    copyRow w (src_ind + 1) (dest_ind + 1) (update dest dest_ind (src src_ind))

/-- `grk_copy_strided`, from the two indices on. -/
def copyStrided (w stride : Nat) : Nat → Nat → Nat → (Nat → β) → Nat → β
  | 0, _, _, dest => dest
  | h + 1, src_ind, dest_ind, dest =>
    copyStrided w stride h (src_ind + w) (dest_ind + w + (stride - w))
      (copyRow src w src_ind dest_ind dest)

variable {src} {w stride : Nat}

theorem copyRow_apply (s d k : Nat) (dest : Nat → β) :
    copyRow src w s d dest k = if d ≤ k ∧ k < d + w then src (s + (k - d)) else dest k := by
  induction w generalizing s d dest with
  | zero => rw [copyRow, if_neg (by omega)]
  | succ w ih =>
    rw [copyRow, ih]
    by_cases hk : k = d
    · subst hk
      rw [if_neg (by omega), if_pos (by omega), update_self, Nat.sub_self, Nat.add_zero]
    · rw [update_of_ne hk]
      refine ite_congr (by simp only [eq_iff_iff]; omega) (fun h => ?_) fun _ => rfl
      rw [show s + 1 + (k - (d + 1)) = s + (k - d) by omega]

theorem copyStrided_of_lt {h s d k : Nat} {dest : Nat → β} (hk : k < d) :
    copyStrided src w stride h s d dest k = dest k := by
  induction h generalizing s d dest with
  | zero => rfl
  | succ h ih => rw [copyStrided, ih (by omega), copyRow_apply, if_neg (by omega)]

theorem copyStrided_apply {h s d j i : Nat} (dest : Nat → β) (hw : w ≤ stride) (hj : j < h)
    (hi : i < w) :
    copyStrided src w stride h s d dest (d + j * stride + i) = src (s + j * w + i) := by
  induction h generalizing s d j dest with
  | zero => omega
  | succ h ih =>
    rw [copyStrided]
    cases j with
    | zero =>
      rw [copyStrided_of_lt (by omega), copyRow_apply, if_pos (by omega)]
      congr 1
      omega
    | succ j =>
      have := ih (s := s + w) (d := d + w + (stride - w)) (copyRow src w s d dest)
        (by omega : j < h)
      rw [Nat.succ_mul, Nat.succ_mul]
      convert this using 2 <;> omega

end Copy

/-- The loop over the components, from the source position `pos` on. -/
def ingestFrom (src : List UInt8) (lengthPerComponent : Nat) :
    List IngestComp → Nat → List (Nat → Option Int)
  | [], _ => []
  | c :: comps, pos =>
    copyStrided (fun i => sampleAt src c.sizeComp c.sgnd (pos + i * c.sizeComp)) c.width c.stride
        c.height 0 0 (fun _ => none) ::
      ingestFrom src lengthPerComponent comps (pos + lengthPerComponent * c.sizeComp)

def tileSize (comps : List IngestComp) : Nat := (comps.map IngestComp.bytes).sum

def ingestUncompressedData (comps : List IngestComp) (src : List UInt8) :
    Option (List (Nat → Option Int)) :=
  if tileSize comps ≠ src.length then none
  else some (ingestFrom src (src.length / comps.length) comps 0)

/-- Where the block of component `k` starts. -/
def blockStart (comps : List IngestComp) (k : Nat) : Nat := tileSize (comps.take k)

/-- Where the source pointer is for component `k`. -/
def pointerAt (comps : List IngestComp) (k : Nat) : Nat :=
  tileSize comps / comps.length * ((comps.take k).map IngestComp.sizeComp).sum

/-- The window of `c` holds the samples of the block at `start`, all of which are there. -/
def HoldsBlock (src : List UInt8) (c : IngestComp) (start : Nat) (window : Nat → Option Int) :
    Prop :=
  ∀ j < c.height, ∀ i < c.width, ∃ v,
    sampleAt src c.sizeComp c.sgnd (start + (j * c.width + i) * c.sizeComp) = some v ∧
      window (j * c.stride + i) = some v

variable {src : List UInt8} {comps : List IngestComp}

theorem ingestFrom_getElem? {lengthPerComponent pos k : Nat} {c : IngestComp}
    (hc : comps[k]? = some c) :
    (ingestFrom src lengthPerComponent comps pos)[k]? = some (copyStrided
      (fun i => sampleAt src c.sizeComp c.sgnd (pos + lengthPerComponent *
        ((comps.take k).map IngestComp.sizeComp).sum + i * c.sizeComp))
      c.width c.stride c.height 0 0 (fun _ => none)) := by
  induction comps generalizing pos k with
  | nil => simp at hc
  | cons d comps ih =>
    cases k with
    | zero =>
      obtain rfl : d = c := by simpa using hc
      simp [ingestFrom]
    | succ k =>
      rw [ingestFrom, getElem?_cons_succ, ih (by simpa using hc)]
      simp only [take_succ_cons, map_cons, sum_cons, Nat.mul_add, Nat.add_assoc]

theorem ingest_window {k : Nat} {c : IngestComp} (hc : comps[k]? = some c)
    (hlen : src.length = tileSize comps) :
    ∃ windows, ingestUncompressedData comps src = some windows ∧ ∃ window,
      windows[k]? = some window ∧ ∀ j < c.height, ∀ i < c.width, window (j * c.stride + i) =
        sampleAt src c.sizeComp c.sgnd (pointerAt comps k + (j * c.width + i) * c.sizeComp) := by
  refine ⟨_, if_neg (not_not.mpr hlen.symm), _, ingestFrom_getElem? hc, fun j hj i hi => ?_⟩
  conv_lhs => rw [← Nat.zero_add (j * c.stride)]
  rw [copyStrided_apply _ c.width_le hj hi]
  simp only [Nat.zero_add, hlen, pointerAt]

theorem exists_sampleAt {size pos : Nat} (sgnd : Bool) (hsize : 1 ≤ size)
    (h : pos + size ≤ src.length) : ∃ v, sampleAt src size sgnd pos = some v := by
  have hlow : src[pos]? = some src[pos] := getElem?_eq_getElem (by omega)
  by_cases htwo : size = 2
  · have hhigh : src[pos + 1]? = some src[pos + 1] := getElem?_eq_getElem (by omega)
    simp [sampleAt, hlow, hhigh, htwo]
  · simp [sampleAt, hlow, htwo]

/-- A source with a single 1 tells the places apart. -/
theorem sampleAt_one {n p q size : Nat} {sgnd : Bool} {v : Int} (hsize : size = 1 ∨ size = 2)
    (hp : sampleAt ((replicate n 0).set p 1) size sgnd p = some v)
    (hq : sampleAt ((replicate n 0).set p 1) size sgnd q = some v) : q = p := by
  by_contra hne
  rcases hsize with rfl | rfl <;>
    simp [sampleAt, getElem?_set, getElem?_replicate, Ne.symm hne, Option.bind_eq_some_iff] at hp hq
      <;> grind

theorem blockStart_add_le {k : Nat} {c : IngestComp} (hc : comps[k]? = some c) :
    blockStart comps k + c.bytes ≤ tileSize comps := by
  obtain ⟨hk, rfl⟩ := List.getElem?_eq_some_iff.mp hc
  conv_rhs => rw [← take_append_drop k comps, drop_eq_getElem_cons hk, tileSize, map_append,
    map_cons, sum_append_nat, sum_cons]
  exact Nat.add_le_add_left (Nat.le_add_right _ _) _

/-- **Every component gets its own block exactly if the share of the source that is skipped for each
component brings those with samples to their blocks.** -/
theorem ingest_holdsBlocks_iff (comps : List IngestComp) :
    (∀ src : List UInt8, src.length = tileSize comps → ∀ k c, comps[k]? = some c →
      ∃ windows, ingestUncompressedData comps src = some windows ∧
        ∃ window, windows[k]? = some window ∧ HoldsBlock src c (blockStart comps k) window) ↔
      ∀ k c, comps[k]? = some c → 0 < c.area → pointerAt comps k = blockStart comps k := by
  constructor
  · intro h k c hc harea
    have hlen : ((replicate (tileSize comps) (0 : UInt8)).set (blockStart comps k) 1).length =
        tileSize comps := by simp
    obtain ⟨_, hsome, _, hwindow, hholds⟩ := h _ hlen k c hc
    obtain ⟨_, hsome', _, hwindow', hread⟩ := ingest_window hc hlen
    obtain rfl := Option.some.inj (hsome.symm.trans hsome')
    obtain rfl := Option.some.inj (hwindow.symm.trans hwindow')
    have hh := Nat.pos_of_mul_pos_left harea
    have hw := Nat.pos_of_mul_pos_right harea
    obtain ⟨v, hv, hstored⟩ := hholds 0 hh 0 hw
    rw [hread 0 hh 0 hw] at hstored
    simp only [Nat.zero_mul, Nat.add_zero] at hv hstored
    exact sampleAt_one c.sizeComp_eq hv hstored
  · intro h src hlen k c hc
    obtain ⟨windows, hsome, window, hwindow, hread⟩ := ingest_window hc hlen
    refine ⟨windows, hsome, window, hwindow, fun j hj i hi => ?_⟩
    have harea : j * c.width + i < c.area := by
      rw [Nat.add_comm]
      exact (MixedRadix.index_iff.mp ⟨hi, hj, rfl⟩).1
    have hlast : (j * c.width + i + 1) * c.sizeComp ≤ c.bytes := by
      rw [IngestComp.bytes, Nat.mul_comm c.sizeComp]
      exact Nat.mul_le_mul_right _ harea
    have hroom := blockStart_add_le hc
    rw [Nat.succ_mul] at hlast
    rw [hread j hj i hi, h k c hc (Nat.zero_lt_of_lt harea)]
    have hsize := c.sizeComp_eq
    obtain ⟨v, hv⟩ := exists_sampleAt c.sgnd (by omega) (by omega :
      blockStart comps k + (j * c.width + i) * c.sizeComp + c.sizeComp ≤ src.length)
    exact ⟨v, hv, hv⟩

def sixteenBits : IngestComp where
  prec := 16
  sgnd := false
  width := 1
  height := 1
  stride := 1
  prec_range := by decide
  width_le := Nat.le_refl 1

/-- Two components of one pixel each: the second is looked for behind the source. -/
theorem not_ingest_holdsBlocks :
    ¬ ∃ windows window,
      ingestUncompressedData [sixteenBits, sixteenBits] [1, 0, 2, 0] = some windows ∧
      windows[1]? = some window ∧
      HoldsBlock [1, 0, 2, 0] sixteenBits (blockStart [sixteenBits, sixteenBits] 1) window := by
  rintro ⟨_, _, hwindows, hwindow, hholds⟩
  obtain rfl := Option.some.inj hwindows
  obtain rfl := Option.some.inj hwindow
  obtain ⟨v, -, hstored⟩ := hholds 0 (by decide) 0 (by decide)
  cases hstored

end GrokCodec.TileProcessor
