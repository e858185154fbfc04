import GrokCodec.Canvas.PrecinctGrid
import GrokCodec.Lib.Tiling

/-!
How a sub-band is cut into precincts and a precinct into code blocks. Precincts are laid out on
the grid of the resolution and mapped to the band, which has half its size along every axis that
the level splits. Rectangles of precincts and code blocks hold 32-bit corners and 16-bit sizes.
-/

namespace GrokCodec.Canvas

open Tiling Nat List
open Nat (mul_comm sub_le succ_mul two_pow_pos)

structure Rect32_16 where
  x0 : Nat
  y0 : Nat
  w : Nat
  h : Nat
  deriving DecidableEq, Repr

namespace Rect32_16

variable (r : Rect32_16)

def x1 : Nat := u32 (r.x0 + r.w)

def y1 : Nat := u32 (r.y0 + r.h)

/-- The points of a rectangle, without wrapping. -/
def Contains (p : Nat × Nat) : Prop :=
  (r.x0 ≤ p.1 ∧ p.1 < r.x0 + r.w) ∧ r.y0 ≤ p.2 ∧ p.2 < r.y0 + r.h

def intersection (r s : Rect32_16) : Rect32_16 :=
  let x := max r.x0 s.x0
  let y := max r.y0 s.y0
  ⟨x, y, u16 (sub32 (min r.x1 s.x1) x), u16 (sub32 (min r.y1 s.y1) y)⟩

end Rect32_16

/-- `intersect` of a sub-band with the bounds of a precinct. -/
def intersect (lhs : Rect) (rhs : Rect32_16) : Rect32_16 :=
  let x := max lhs.x0 rhs.x0
  let y := max lhs.y0 rhs.y0
  ⟨x, y, u16 (sub32 (min lhs.x1 rhs.x1) x), u16 (sub32 (min lhs.y1 rhs.y1) y)⟩

/-- `Subband::generateBandPrecinctBounds`. -/
def generateBandPrecinctBounds (band : Rect) (precinctIndex : Nat) (bandPrecinctPartition : Rect)
    (expnX expnY precinctGridWidth : Nat) : Rect32_16 :=
  let left := u32 (bandPrecinctPartition.x0 + u32 ((precinctIndex % precinctGridWidth) <<< expnX))
  let top := u32 (bandPrecinctPartition.y0 + u32 ((precinctIndex / precinctGridWidth) <<< expnY))
  intersect band ⟨left, top, u16 (2 ^ expnX), u16 (2 ^ expnY)⟩

variable (prec : Rect32_16)

/-- `PrecinctImpl::genCodeBlockGrid`. -/
def genCodeBlockGrid (expnX expnY : Nat) : Rect32_16 :=
  let x := floordivpow2 prec.x0 expnX
  let y := floordivpow2 prec.y0 expnY
  ⟨x, y, u16 (sub32 (u32 (ceildivpow2 prec.x1 expnX)) x),
    u16 (sub32 (u32 (ceildivpow2 prec.y1 expnY)) y)⟩

/-- `PrecinctImpl::getCodeBlockBounds`. -/
def getCodeBlockBounds (expnX expnY cblkno : Nat) : Rect32_16 :=
  let grid := genCodeBlockGrid prec expnX expnY
  let left := u32 (u32 (grid.x0 + cblkno % grid.w) <<< expnX)
  let top := u32 (u32 (grid.y0 + cblkno / grid.w) <<< expnY)
  Rect32_16.intersection ⟨left, top, u16 (2 ^ expnX), u16 (2 ^ expnY)⟩ prec

inductive DecompositionSplit where
  | none
  | both
  | horizontal
  | vertical
  deriving DecidableEq, Repr

def splitsHorizontally (split : DecompositionSplit) : Bool := split = .both ∨ split = .horizontal

def splitsVertically (split : DecompositionSplit) : Bool := split = .both ∨ split = .vertical

/-- The coding parameters that lay out the bands of a tile component, in the ranges that the COD
and COC readers let through. -/
structure TileComponentCodingParams where
  numresolutions : Nat
  splits : Nat → DecompositionSplit
  precWidthExp : Nat → Nat
  precHeightExp : Nat → Nat
  cblkw_expn : Nat
  cblkh_expn : Nat
  numresolutions_range : 1 ≤ numresolutions ∧ numresolutions ≤ 33
  precWidthExp_le : ∀ r, precWidthExp r ≤ 15
  precHeightExp_le : ∀ r, precHeightExp r ≤ 15
  /-- Exponent 0 is only allowed for the lowest resolution. -/
  precExp_pos : ∀ r, r ≠ 0 → 1 ≤ precWidthExp r ∧ 1 ≤ precHeightExp r
  cblk_range : 2 ≤ cblkw_expn ∧ 2 ≤ cblkh_expn ∧ cblkw_expn + cblkh_expn ≤ 12

namespace TileComponentCodingParams

variable (tccp : TileComponentCodingParams)

/-- `horizontalDepth_`: horizontal splits in the first levels. -/
def horizontalDepth : Nat → Nat
  | 0 => 0
  | level + 1 => horizontalDepth level + (splitsHorizontally (tccp.splits (level + 1))).toNat

def verticalDepth : Nat → Nat
  | 0 => 0
  | level + 1 => verticalDepth level + (splitsVertically (tccp.splits (level + 1))).toNat

def splitOfResolution (resno : Nat) : DecompositionSplit :=
  tccp.splits (if resno = 0 then tccp.numresolutions - 1 else tccp.numresolutions - resno)

/-- The orientations of the bands of a resolution. -/
def orientations (resno : Nat) : List Nat :=
  if resno = 0 then [0]
  else
    match tccp.splitOfResolution resno with
    | .none => []
    | .both => [1, 2, 3]
    | .horizontal => [1]
    | .vertical => [2]

end TileComponentCodingParams

/-- `ResSimple::bandCoordinate`. -/
def bandCoordinate (coordinate numDecomps high : Nat) : Nat :=
  if numDecomps = 0 then coordinate
  else
    let offset := u32 (2 ^ (numDecomps - 1) * high)
    if coordinate ≤ offset then 0 else u32 (ceildivpow2 (coordinate - offset) numDecomps)

/-- `ResSimple::getBandWindow`. -/
def getBandWindow (numDecompsX numDecompsY orientation : Nat) (tc : Rect) : Rect :=
  let highX := orientation % 2
  let highY := orientation / 2
  ⟨bandCoordinate tc.x0 numDecompsX highX, bandCoordinate tc.y0 numDecompsY highY,
    bandCoordinate tc.x1 numDecompsX highX, bandCoordinate tc.y1 numDecompsY highY⟩

/-- A resolution of a tile component. -/
structure Resolution where
  tccp : TileComponentCodingParams
  /-- The unreduced tile component. -/
  tc : Rect
  resno : Nat
  tc_rect : IsRect32 tc
  resno_lt : resno < tccp.numresolutions

namespace Resolution

variable (r : Resolution)

def levelsDone : Nat := r.tccp.numresolutions - (r.resno + 1)

/-- The level that produced the bands; the lowest resolution is its level's low band. -/
def level : Nat :=
  if r.resno = 0 then r.tccp.numresolutions - 1 else r.tccp.numresolutions - r.resno

def bounds : Rect :=
  getBandWindow (r.tccp.horizontalDepth r.levelsDone) (r.tccp.verticalDepth r.levelsDone) 0 r.tc

def band (orientation : Nat) : Rect :=
  getBandWindow (r.tccp.horizontalDepth r.level) (r.tccp.verticalDepth r.level) orientation r.tc

def precWidthExp : Nat := r.tccp.precWidthExp r.resno

def precHeightExp : Nat := r.tccp.precHeightExp r.resno

def precinctPartition : Rect := genPrecinctPartition r.bounds r.precWidthExp r.precHeightExp

def precinctGrid : Rect := r.precinctPartition.scaleDownPow2 r.precWidthExp r.precHeightExp

/-- A band is half the resolution along each axis its level splits. -/
def shiftX : Nat :=
  if r.resno = 0 then 0 else (splitsHorizontally (r.tccp.splitOfResolution r.resno)).toNat

def shiftY : Nat :=
  if r.resno = 0 then 0 else (splitsVertically (r.tccp.splitOfResolution r.resno)).toNat

def bandPrecinctPartition : Rect :=
  if r.resno = 0 then r.precinctPartition
  else r.precinctPartition.scaleDownPow2 r.shiftX r.shiftY

def bandPrecinctExpnX : Nat := r.precWidthExp - r.shiftX

def bandPrecinctExpnY : Nat := r.precHeightExp - r.shiftY

def cblkExpnX : Nat := min r.tccp.cblkw_expn r.bandPrecinctExpnX

def cblkExpnY : Nat := min r.tccp.cblkh_expn r.bandPrecinctExpnY

/-- The rectangle of a precinct in a band. -/
def precinct (orientation precinctIndex : Nat) : Rect32_16 :=
  generateBandPrecinctBounds (r.band orientation) precinctIndex r.bandPrecinctPartition
    r.bandPrecinctExpnX r.bandPrecinctExpnY r.precinctGrid.width

/-- The rectangle of a code block. -/
def codeBlock (orientation precinctIndex cblkno : Nat) : Rect32_16 :=
  getCodeBlockBounds (r.precinct orientation precinctIndex) r.cblkExpnX r.cblkExpnY cblkno

/-- The number of code blocks of a precinct. -/
def numCodeBlocks (orientation precinctIndex : Nat) : Nat :=
  let grid := genCodeBlockGrid (r.precinct orientation precinctIndex) r.cblkExpnX r.cblkExpnY
  grid.w * grid.h

/-- The precincts partition the band, and the code blocks of every precinct partition it. -/
structure Partitioned (orientation : Nat) : Prop where
  precincts : Splits r.precinctGrid.area (fun k => (r.precinct orientation k).Contains) fun p =>
    ((r.band orientation).x0 ≤ p.1 ∧ p.1 < (r.band orientation).x1) ∧
      (r.band orientation).y0 ≤ p.2 ∧ p.2 < (r.band orientation).y1
  codeBlocks : ∀ k, k < r.precinctGrid.area →
    Splits (r.numCodeBlocks orientation k) (fun b => (r.codeBlock orientation k b).Contains)
      (r.precinct orientation k).Contains

end Resolution

section Axis

/-- One axis of a cell cut to an interval: where it starts and how long it is. -/
def cut (lo hi start size : Nat) : Nat × Nat :=
  (max lo start, u16 (sub32 (min hi (u32 (start + size))) (max lo start)))

variable (piece : Nat × Nat)

/-- The points of one axis of a rectangle. -/
def Within (v : Nat) : Prop := piece.1 ≤ v ∧ v < piece.1 + piece.2

variable {lo hi start size q n : Nat}

/-- A cell that meets or touches the interval and ends below `2 ^ 32` is cut exactly. -/
theorem cut_eq (hle : lo ≤ hi) (hhi : hi < 2 ^ 32) (hstop : start + size < 2 ^ 32)
    (hlo : lo ≤ start + size) (hstart : start ≤ hi) (hsize : size < 2 ^ 16) :
    cut lo hi start size = (max lo start, min hi (start + size) - max lo start) := by
  have hlen : min hi (start + size) - max lo start < 2 ^ 16 := by omega
  rw [cut, u32_of_lt hstop, sub32_of_le (by omega) (by omega), u16, Nat.mod_eq_of_lt hlen]

/-- A cell that ends at `2 ^ 32` is not cut at the upper bound of the interval. -/
theorem cut_wrapped (hlo : lo < 2 ^ 32) (hsize : 0 < size) (hsize16 : size < 2 ^ 16)
    (hstop : start + size = 2 ^ 32) : Within (cut lo hi start size) (2 ^ 32 - 1) := by
  have hzero : u32 (start + size) = 0 := by
    rw [hstop]
    rfl
  have hlen : 2 ^ 32 - max lo start < 2 ^ 16 := by omega
  have hsub : sub32 0 (max lo start) = 2 ^ 32 - max lo start := by
    rw [sub32, zero_add]
    exact u32_of_lt (by omega)
  simp only [Within, cut, hzero, min_zero, hsub, u16, Nat.mod_eq_of_lt hlen]
  omega

/-- Cells `q` to `q + n - 1` of a size cover the interval, and each meets or touches it. -/
structure Cells (lo hi q n size : Nat) : Prop where
  le : lo ≤ hi
  lower : q * size ≤ lo
  first : lo ≤ (q + 1) * size
  last : ∀ i, i < n → (q + i) * size ≤ hi
  upper : hi ≤ (q + n) * size

theorem Cells.cut_eq (h : Cells lo hi q n size) (hhi : hi < 2 ^ 32)
    (hfits : (q + n) * size < 2 ^ 32) (hsize : size < 2 ^ 16) {i : Nat} (hi' : i < n) :
    cut lo hi ((q + i) * size) size =
      (max lo ((q + i) * size), min hi ((q + i + 1) * size) - max lo ((q + i) * size)) := by
  have hstop : (q + i) * size + size ≤ (q + n) * size := by
    rw [← succ_mul]
    exact Nat.mul_le_mul_right size (by omega)
  have hfirst : (q + 1) * size ≤ (q + i) * size + size := by
    rw [← succ_mul]
    exact Nat.mul_le_mul_right size (by omega)
  rw [Canvas.cut_eq h.le hhi (by omega) (h.first.trans hfirst) (h.last i hi') hsize, succ_mul]

theorem Cells.splits (h : Cells lo hi q n size) (hhi : hi < 2 ^ 32)
    (hfits : (q + n) * size < 2 ^ 32) (hsize : size < 2 ^ 16) :
    Splits n (fun i => Within (cut lo hi ((q + i) * size) size)) fun v => lo ≤ v ∧ v < hi := by
  refine (splits_cells h.lower h.upper).congr ?_
  intro i hi' v
  rw [h.cut_eq hhi hfits hsize hi', Within]
  constructor
  · intro hv
    omega
  · intro hv
    simp only
    omega

theorem cells_of_le (hle : lo ≤ hi) (hpos : 0 < size) :
    Cells lo hi (lo / size) (hi ⌈/⌉ size - lo / size) size where
  le := hle
  lower := div_mul_le_self lo size
  first := by
    rw [mul_comm]
    exact (Nat.lt_mul_div_succ lo hpos).le
  last := by
    intro i hi'
    have hlt : lo / size + i < hi ⌈/⌉ size := by omega
    rw [lt_ceilDiv_iff hpos, mul_comm] at hlt
    exact hlt.le
  upper := by
    have hceil : hi ≤ size * (hi ⌈/⌉ size) := (ceilDiv_le_iff_le_mul hpos).mp le_rfl
    refine hceil.trans ?_
    rw [mul_comm]
    exact Nat.mul_le_mul_right size (by omega)

theorem Cells.half {lo' hi' size' : Nat} (h : Cells lo hi q n size) (hlast : ∀ i, i < n →
    (q + i) * size < hi) (hsize : size = 2 * size') (hle : lo' ≤ hi')
    (hlo : lo / 2 ≤ lo' ∧ lo' ≤ (lo + 1) / 2) (hhi : hi / 2 ≤ hi' ∧ hi' ≤ (hi + 1) / 2)
    (hfirst : lo < (q + 1) * size) : Cells lo' hi' q n size' := by
  have hdouble : ∀ k, k * size = 2 * (k * size') := by
    intro k
    rw [hsize, mul_left_comm]
  have hlower := h.lower
  have hupper := h.upper
  rw [hdouble] at hlower hupper hfirst
  refine ⟨hle, by omega, by omega, ?_, by omega⟩
  intro i hi''
  have := hlast i hi''
  rw [hdouble] at this
  omega

/-- One axis of `generateBandPrecinctBounds`. -/
def axisPrecinct (lo hi partition0 expn i : Nat) : Nat × Nat :=
  cut lo hi (u32 (partition0 + u32 (i <<< expn))) (u16 (2 ^ expn))

/-- One axis of `genCodeBlockGrid`. -/
def axisBlockCount (expn : Nat) : Nat :=
  u16 (sub32 (u32 (ceildivpow2 (u32 (piece.1 + piece.2)) expn)) (floordivpow2 piece.1 expn))

/-- One axis of `getCodeBlockBounds`. -/
def axisBlock (expn j : Nat) : Nat × Nat :=
  cut piece.1 (u32 (piece.1 + piece.2)) (u32 (u32 (floordivpow2 piece.1 expn + j) <<< expn))
    (u16 (2 ^ expn))

theorem getCodeBlockBounds_contains (expnX expnY cblkno : Nat) (p : Nat × Nat) :
    (getCodeBlockBounds prec expnX expnY cblkno).Contains p ↔
      Within (axisBlock (prec.x0, prec.w) expnX
          (cblkno % axisBlockCount (prec.x0, prec.w) expnX)) p.1 ∧
        Within (axisBlock (prec.y0, prec.h) expnY
          (cblkno / axisBlockCount (prec.x0, prec.w) expnX)) p.2 := by
  simp only [Within, axisBlock, cut]
  rw [max_comm prec.x0, max_comm prec.y0, min_comm (u32 (prec.x0 + prec.w)),
    min_comm (u32 (prec.y0 + prec.h))]
  exact Iff.rfl

theorem u16_two_pow {e : Nat} (he : e ≤ 15) : u16 (2 ^ e) = 2 ^ e :=
  Nat.mod_eq_of_lt (lt_of_le_of_lt (Nat.pow_le_pow_right (by decide) he) (by decide))

theorem axisPrecinct_eq {expn i : Nat} (he : expn ≤ 15) (hfits : (q + i) * 2 ^ expn < 2 ^ 32) :
    axisPrecinct lo hi (q * 2 ^ expn) expn i = cut lo hi ((q + i) * 2 ^ expn) (2 ^ expn) := by
  rw [add_mul] at hfits
  rw [axisPrecinct, u16_two_pow he, shiftLeft_eq, u32_of_lt (by omega : i * 2 ^ expn < 2 ^ 32),
    ← add_mul, u32_of_lt (by rw [add_mul]; exact hfits)]

theorem splits_blocks {piece : Nat × Nat} {k e c : Nat} (hlower : k * 2 ^ e ≤ piece.1)
    (hupper : piece.1 + piece.2 ≤ (k + 1) * 2 ^ e) (hfits : (k + 1) * 2 ^ e < 2 ^ 32) (he : e ≤ 15)
    (hc : c ≤ e) :
    Splits (axisBlockCount piece c) (fun j => Within (axisBlock piece c j)) (Within piece) := by
  obtain ⟨x, w⟩ := piece
  have hpos := two_pow_pos c
  have hend : u32 (x + w) = x + w := u32_of_lt (by omega)
  have hcells := cells_of_le (le_add_right x w) hpos
  -- the blocks stay inside the cell, whose bounds are multiples of the block size
  have hdouble : 2 ^ e = 2 ^ (e - c) * 2 ^ c := by
    rw [← Nat.pow_add, Nat.sub_add_cancel hc]
  have hhigh : (x + w) ⌈/⌉ 2 ^ c ≤ (k + 1) * 2 ^ (e - c) := by
    rw [ceilDiv_le_iff_le_mul hpos, mul_comm, Nat.mul_assoc, ← hdouble]
    exact hupper
  have hlow : k * 2 ^ (e - c) ≤ x / 2 ^ c := by
    rw [le_div_iff_mul_le hpos, Nat.mul_assoc, ← hdouble]
    exact hlower
  have hle : x / 2 ^ c ≤ (x + w) ⌈/⌉ 2 ^ c := div_le_ceilDiv (le_add_right x w)
  have hcount : (x + w) ⌈/⌉ 2 ^ c - x / 2 ^ c < 2 ^ 16 := by
    have hsmall : 2 ^ (e - c) ≤ 2 ^ 15 := Nat.pow_le_pow_right (by decide) (by omega)
    rw [succ_mul] at hhigh
    omega
  have hceil : (x + w) ⌈/⌉ 2 ^ c < 2 ^ 32 := (ceilDiv_le_self hpos).trans_lt (by omega)
  have hn : axisBlockCount (x, w) c = (x + w) ⌈/⌉ 2 ^ c - x / 2 ^ c := by
    simp only [axisBlockCount, hend, ceildivpow2_eq, floordivpow2_eq, u32_of_lt hceil]
    rw [sub32_of_le hle hceil, u16, Nat.mod_eq_of_lt hcount]
  have hall : (x / 2 ^ c + ((x + w) ⌈/⌉ 2 ^ c - x / 2 ^ c)) * 2 ^ c < 2 ^ 32 := by
    rw [Nat.add_sub_cancel' hle]
    refine (Nat.mul_le_mul_right _ hhigh).trans_lt ?_
    rw [Nat.mul_assoc, ← hdouble]
    exact hfits
  have hsize : 2 ^ c < 2 ^ 16 := Nat.pow_lt_pow_right (by decide) (by omega)
  rw [hn]
  refine (hcells.splits (by omega) hall hsize).congr ?_
  intro j hj v
  have hcell : (x / 2 ^ c + j) * 2 ^ c < 2 ^ 32 :=
    (Nat.mul_le_mul_right _ (by omega)).trans_lt hall
  have hindex : x / 2 ^ c + j < 2 ^ 32 := by omega
  simp only [axisBlock, hend, floordivpow2_eq, u16_two_pow (hc.trans he), shiftLeft_eq,
    u32_of_lt hindex, u32_of_lt hcell]

/-- Along an axis the pieces partition the interval, and the code blocks of each partition it. -/
structure AxisSplits (lo hi n : Nat) (piece : Nat → Nat × Nat) (c : Nat) : Prop where
  pieces : Splits n (fun i => Within (piece i)) fun v => lo ≤ v ∧ v < hi
  blocks : ∀ i, i < n →
    Splits (axisBlockCount (piece i) c) (fun j => Within (axisBlock (piece i) c j)) (Within (piece i))

theorem Cells.axisSplits {e c : Nat} (h : Cells lo hi q n (2 ^ e)) (hhi : hi < 2 ^ 32)
    (hfits : (q + n) * 2 ^ e < 2 ^ 32) (he : e ≤ 15) (hc : c ≤ e) :
    AxisSplits lo hi n (axisPrecinct lo hi (q * 2 ^ e) e) c := by
  have hsize : 2 ^ e < 2 ^ 16 := Nat.pow_lt_pow_right (by decide) (by omega)
  have hcell : ∀ {i}, i < n → (q + i + 1) * 2 ^ e < 2 ^ 32 := fun hi' =>
    (Nat.mul_le_mul_right _ (by omega)).trans_lt hfits
  have hpiece : ∀ {i}, i < n → axisPrecinct lo hi (q * 2 ^ e) e i =
      (max lo ((q + i) * 2 ^ e), min hi ((q + i + 1) * 2 ^ e) - max lo ((q + i) * 2 ^ e)) := by
    intro i hi'
    have hstart : (q + i) * 2 ^ e < 2 ^ 32 :=
      (Nat.mul_le_mul_right _ (le_succ _)).trans_lt (hcell hi')
    rw [axisPrecinct_eq he hstart, h.cut_eq hhi hfits hsize hi']
  constructor
  · refine (h.splits hhi hfits hsize).congr ?_
    intro i hi' v
    rw [hpiece hi', h.cut_eq hhi hfits hsize hi']
  · intro i hi'
    have hfirst : (q + 1) * 2 ^ e ≤ (q + i + 1) * 2 ^ e := Nat.mul_le_mul_right _ (by omega)
    have hlo := h.first
    have hstep : (q + i) * 2 ^ e ≤ (q + i + 1) * 2 ^ e := Nat.mul_le_mul_right _ (le_succ _)
    refine splits_blocks (k := q + i) ?_ ?_ (hcell hi') he hc
    · rw [hpiece hi']
      exact le_max_right _ _
    · rw [hpiece hi']
      simp only
      omega

/-- Precincts that end at `2 ^ 32` reach past the interval. -/
theorem Cells.reaches {e part : Nat} (h : Cells lo hi q n (2 ^ e)) (hhi : hi < 2 ^ 32)
    (hend : (q + n) * 2 ^ e = 2 ^ 32) (he : e ≤ 15) (hpart : part = q * 2 ^ e) :
    ∃ i, i < n ∧ Within (axisPrecinct lo hi part e i) (2 ^ 32 - 1) := by
  have hpow := two_pow_pos e
  have hlower := h.lower
  have hle := h.le
  have hpos : 0 < n := by
    apply pos_of_ne_zero
    rintro rfl
    rw [add_zero] at hend
    omega
  have hlast : (q + (n - 1)) * 2 ^ e + 2 ^ e = 2 ^ 32 := by
    rw [← succ_mul, ← hend]
    congr 1
    omega
  refine ⟨n - 1, by omega, ?_⟩
  rw [hpart, axisPrecinct_eq he (by omega)]
  exact cut_wrapped (by omega) hpow (Nat.pow_lt_pow_right (by decide) (by omega)) hlast

theorem AxisSplits.void {piece : Nat → Nat × Nat} {c : Nat} (h : AxisSplits lo hi n piece c)
    (hempty : hi ≤ lo) {i : Nat} (hi' : i < n) (v : Nat) :
    ¬ Within (piece i) v ∧
      ∀ j, j < axisBlockCount (piece i) c → ¬ Within (axisBlock (piece i) c j) v := by
  have hnone : ¬ Within (piece i) v := by
    intro hv
    have := (h.pieces.union v).mp ⟨i, hi', hv⟩
    omega
  refine ⟨hnone, ?_⟩
  intro j hj hv
  exact hnone (((h.blocks i hi').union v).mp ⟨j, hj, hv⟩)

end Axis

section BandCoordinate

variable {t t' D : Nat}

theorem bandCoordinate_low (ht : t ≤ uintMax) (D : Nat) : bandCoordinate t D 0 = t ⌈/⌉ 2 ^ D := by
  have hsmall : t ⌈/⌉ 2 ^ D < 2 ^ 32 :=
    (ceilDiv_le_self (two_pow_pos D)).trans_lt (ht.trans_lt (by decide))
  unfold bandCoordinate
  split
  case isTrue hzero =>
    rw [hzero, pow_zero, ceilDiv_one]
  case isFalse =>
    simp only [mul_zero, show u32 0 = 0 from rfl, Nat.sub_zero, ceildivpow2_eq, u32_of_lt hsmall]
    split
    case isTrue hle =>
      obtain rfl : t = 0 := by omega
      rw [zero_ceilDiv]
    case isFalse => rfl

/-- The high band starts half a sample later, which rounds down what the low band rounds up. -/
theorem bandCoordinate_high (ht : t ≤ uintMax) (hD : D ≤ 31) :
    bandCoordinate t (D + 1) 1 = (t ⌈/⌉ 2 ^ D) / 2 := by
  have hpow := two_pow_pos D
  have hoffset : u32 (2 ^ D * 1) = 2 ^ D := by
    rw [Nat.mul_one]
    exact u32_of_lt (Nat.pow_lt_pow_right (by decide) (by omega))
  simp only [bandCoordinate, Nat.add_sub_cancel, hoffset, ceildivpow2_eq, Nat.succ_ne_zero, if_false]
  split
  case isTrue hle =>
    have hone : t ⌈/⌉ 2 ^ D ≤ 1 := by
      rw [ceilDiv_le_iff_le_mul hpow]
      omega
    omega
  case isFalse hlt =>
    have hsmall : (t - 2 ^ D) ⌈/⌉ 2 ^ (D + 1) < 2 ^ 32 :=
      (ceilDiv_le_self (two_pow_pos _)).trans_lt
        ((sub_le t _).trans_lt (ht.trans_lt (by decide)))
    have hsub : (t - 2 ^ D) ⌈/⌉ 2 ^ D = t ⌈/⌉ 2 ^ D - 1 := by
      apply eq_of_forall_ge_iff
      intro k
      rw [ceilDiv_le_iff_le_mul hpow, Nat.sub_le_iff_le_add, Nat.sub_le_iff_le_add,
        ceilDiv_le_iff_le_mul hpow, Nat.mul_succ]
    rw [u32_of_lt hsmall, Nat.pow_succ, ← ceilDiv_ceilDiv _ hpow (by decide), hsub,
      Nat.ceilDiv_eq_add_pred_div]
    omega

theorem ceilDiv_two (n : Nat) : n ⌈/⌉ 2 = (n + 1) / 2 := by
  rw [Nat.ceilDiv_eq_add_pred_div]
  rfl

/-- A band bound is the resolution bound, or half of it with one of the two roundings. -/
theorem bandCoordinate_of_split (ht : t ≤ uintMax) {s high : Nat} (hs : s ≤ 1) (hh : high ≤ s)
    (hD : D + s ≤ 32) : bandCoordinate t (D + s) high =
      if s = 0 then t ⌈/⌉ 2 ^ D else (t ⌈/⌉ 2 ^ D + 1 - high) / 2 := by
  obtain rfl | rfl : s = 0 ∨ s = 1 := by omega
  · obtain rfl : high = 0 := by omega
    rw [if_pos rfl]
    exact bandCoordinate_low ht D
  · rw [if_neg (by decide)]
    obtain rfl | rfl : high = 0 ∨ high = 1 := by omega
    · rw [bandCoordinate_low ht, Nat.pow_succ,
        ← ceilDiv_ceilDiv _ (two_pow_pos D) (by decide), ceilDiv_two]
      rfl
    · rw [bandCoordinate_high ht (by omega), Nat.add_sub_cancel]

theorem ceilDiv_mono {a b d : Nat} (hd : 0 < d) (h : a ≤ b) : a ⌈/⌉ d ≤ b ⌈/⌉ d :=
  (gc_mul_ceilDiv hd).monotone_l h

theorem bandCells (hle : t ≤ t') (ht : t' ≤ uintMax) {s high p : Nat} (hs : s ≤ 1) (hh : high ≤ s)
    (hD : D + s ≤ 32) (hp : s ≤ p) :
    Cells (bandCoordinate t (D + s) high) (bandCoordinate t' (D + s) high)
      (bandCoordinate t D 0 / 2 ^ p)
      (bandCoordinate t' D 0 ⌈/⌉ 2 ^ p - bandCoordinate t D 0 / 2 ^ p) (2 ^ (p - s)) := by
  have hres := ceilDiv_mono (two_pow_pos D) hle
  rw [bandCoordinate_of_split (hle.trans ht) hs hh hD, bandCoordinate_of_split ht hs hh hD,
    bandCoordinate_low (hle.trans ht), bandCoordinate_low ht]
  generalize t ⌈/⌉ 2 ^ D = lo at hres ⊢
  generalize t' ⌈/⌉ 2 ^ D = hi at hres ⊢
  have hcells := cells_of_le hres (two_pow_pos p)
  obtain rfl | rfl : s = 0 ∨ s = 1 := by omega
  · simpa using hcells
  · simp only [one_ne_zero, if_false]
    refine hcells.half ?_ ?_ (by omega) ⟨by omega, by omega⟩ ⟨by omega, by omega⟩ ?_
    · intro i hi'
      have hlt : lo / 2 ^ p + i < hi ⌈/⌉ 2 ^ p := by omega
      rwa [lt_ceilDiv_iff (two_pow_pos p), mul_comm] at hlt
    · rw [← Nat.pow_succ', Nat.succ_eq_add_one, Nat.sub_add_cancel hp]
    · rw [mul_comm]
      exact Nat.lt_mul_div_succ lo (two_pow_pos p)

theorem bandCoordinate_le {s high : Nat} (ht : t ≤ uintMax) (hs : s ≤ 1) (hh : high ≤ s)
    (hD : D + s ≤ 32) : bandCoordinate t (D + s) high ≤ uintMax := by
  have hle := ceilDiv_le_self (a := t) (two_pow_pos D)
  rw [bandCoordinate_of_split ht hs hh hD]
  split <;> omega

theorem cells_end {lo hi p s : Nat} (hle : lo ≤ hi) (hhi : hi ≤ uintMax) (hp : p ≤ 15)
    (hs : s ≤ 1) (hsp : s ≤ p) :
    (s = 0 ∧ 2 ^ 32 < hi + 2 ^ p →
      (lo / 2 ^ p + (hi ⌈/⌉ 2 ^ p - lo / 2 ^ p)) * 2 ^ (p - s) = 2 ^ 32) ∧
    (¬ (s = 0 ∧ 2 ^ 32 < hi + 2 ^ p) →
      (lo / 2 ^ p + (hi ⌈/⌉ 2 ^ p - lo / 2 ^ p)) * 2 ^ (p - s) < 2 ^ 32) := by
  have hmul := mul_ceilDiv_le (p := p) hhi (by omega)
  have hiff := mul_ceilDiv_eq_iff (p := p) hhi (by omega)
  rw [Nat.add_sub_cancel' (div_le_ceilDiv hle)]
  obtain rfl | rfl : s = 0 ∨ s = 1 := by omega
  · simp only [Nat.sub_zero, true_and]
    exact ⟨hiff.mpr, fun hno => lt_of_le_of_ne hmul (mt hiff.mp hno)⟩
  · have hdouble : hi ⌈/⌉ 2 ^ p * 2 ^ p = 2 * (hi ⌈/⌉ 2 ^ p * 2 ^ (p - 1)) := by
      rw [mul_left_comm, ← Nat.pow_succ', Nat.succ_eq_add_one, Nat.sub_add_cancel hsp]
    refine ⟨fun h => absurd h.1 (by decide), fun _ => by omega⟩

/-- An axis of a band that is cut into precincts: it wraps round, or its pieces partition it. -/
structure BandAxis (wraps : Prop) (lo hi n : Nat) (piece : Nat → Nat × Nat) (c : Nat) : Prop where
  hi_lt : hi < 2 ^ 32
  splits : ¬ wraps → AxisSplits lo hi n piece c
  reaches : wraps → ∃ i, i < n ∧ Within (piece i) (2 ^ 32 - 1)

theorem BandAxis.exists_mem {wraps : Prop} {lo hi n c : Nat} {piece : Nat → Nat × Nat}
    (h : BandAxis wraps lo hi n piece c) (hne : wraps ∨ lo < hi) :
    ∃ i x, i < n ∧ Within (piece i) x := by
  by_cases hw : wraps
  · obtain ⟨i, hi, hx⟩ := h.reaches hw
    exact ⟨i, _, hi, hx⟩
  · obtain ⟨i, hi, hx⟩ := ((h.splits hw).pieces.union _).mpr ⟨le_rfl, hne.resolve_left hw⟩
    exact ⟨i, _, hi, hx⟩

theorem bandAxis (hle : t ≤ t') (ht : t' ≤ uintMax) {s high p part c : Nat} (hs : s ≤ 1)
    (hh : high ≤ s) (hD : D + s ≤ 32) (hsp : s ≤ p) (hp : p ≤ 15) (hc : c ≤ p - s)
    (hpart : part = bandCoordinate t D 0 / 2 ^ p * 2 ^ (p - s)) :
    BandAxis (s = 0 ∧ 2 ^ 32 < bandCoordinate t' D 0 + 2 ^ p) (bandCoordinate t (D + s) high)
      (bandCoordinate t' (D + s) high)
      (bandCoordinate t' D 0 ⌈/⌉ 2 ^ p - bandCoordinate t D 0 / 2 ^ p)
      (axisPrecinct (bandCoordinate t (D + s) high) (bandCoordinate t' (D + s) high) part (p - s))
      c := by
  have hcells := bandCells hle ht hs hh hD hsp
  have hlt := (bandCoordinate_le ht hs hh hD).trans_lt (by decide : uintMax < 2 ^ 32)
  have hmono : bandCoordinate t D 0 ≤ bandCoordinate t' D 0 := by
    rw [bandCoordinate_low (hle.trans ht), bandCoordinate_low ht]
    exact ceilDiv_mono (two_pow_pos D) hle
  have hends := cells_end hmono (bandCoordinate_le ht zero_le_one le_rfl (by omega)) hp hs hsp
  subst hpart
  exact ⟨hlt, fun hw => hcells.axisSplits hlt (hends.2 hw) (by omega) hc,
    fun hw => hcells.reaches hlt (hends.1 hw) (by omega) rfl⟩

end BandCoordinate

namespace Resolution

variable {r : Resolution} {o : Nat}

/-- The bands are as many splits deep as the resolution, and one more where the level splits. -/
theorem depth_level {depth : Nat → Nat} {f : Nat → Bool} (hzero : depth 0 = 0)
    (hsucc : ∀ l, depth (l + 1) = depth l + (f (l + 1)).toNat) :
    depth r.level = depth r.levelsDone + (if r.resno = 0 then 0 else (f r.level).toNat) ∧
      depth r.level ≤ 32 := by
  have hle : ∀ l, depth l ≤ l := by
    intro l
    induction l with
    | zero => exact hzero.le
    | succ l ih =>
      have := Bool.toNat_le (f (l + 1))
      rw [hsucc]
      omega
  have hlt := r.resno_lt
  have hrange := r.tccp.numresolutions_range
  have hlevel := hle r.level
  unfold level levelsDone at *
  split
  case isTrue hres =>
    rw [if_pos hres] at hlevel
    exact ⟨by simp [hres], by omega⟩
  case isFalse hres =>
    rw [if_neg hres] at hlevel
    rw [show r.tccp.numresolutions - r.resno = r.tccp.numresolutions - (r.resno + 1) + 1 by omega]
      at hlevel ⊢
    exact ⟨hsucc _, by omega⟩

theorem horizontalDepth_level :
    r.tccp.horizontalDepth r.level = r.tccp.horizontalDepth r.levelsDone + r.shiftX ∧
      r.tccp.horizontalDepth r.level ≤ 32 :=
  depth_level (f := fun l => splitsHorizontally (r.tccp.splits l)) rfl fun _ => rfl

theorem verticalDepth_level :
    r.tccp.verticalDepth r.level = r.tccp.verticalDepth r.levelsDone + r.shiftY ∧
      r.tccp.verticalDepth r.level ≤ 32 :=
  depth_level (f := fun l => splitsVertically (r.tccp.splits l)) rfl fun _ => rfl

theorem shiftX_le : r.shiftX ≤ 1 ∧ r.shiftX ≤ r.precWidthExp := by
  unfold shiftX precWidthExp
  split
  · omega
  case isFalse hne =>
    have := Bool.toNat_le (splitsHorizontally (r.tccp.splitOfResolution r.resno))
    have := (r.tccp.precExp_pos r.resno hne).1
    omega

theorem shiftY_le : r.shiftY ≤ 1 ∧ r.shiftY ≤ r.precHeightExp := by
  unfold shiftY precHeightExp
  split
  · omega
  case isFalse hne =>
    have := Bool.toNat_le (splitsVertically (r.tccp.splitOfResolution r.resno))
    have := (r.tccp.precExp_pos r.resno hne).2
    omega

theorem high_le (ho : o ∈ r.tccp.orientations r.resno) :
    o % 2 ≤ r.shiftX ∧ o / 2 ≤ r.shiftY := by
  unfold TileComponentCodingParams.orientations at ho
  unfold shiftX shiftY
  split at ho
  case isTrue hzero =>
    rw [List.mem_singleton.mp ho]
    exact ⟨zero_le _, zero_le _⟩
  case isFalse hne =>
    rw [if_neg hne, if_neg hne]
    cases hsplit : r.tccp.splitOfResolution r.resno with
    | none => simp [hsplit] at ho
    | both =>
      simp only [hsplit, mem_cons, not_mem_nil, or_false] at ho
      rcases ho with rfl | rfl | rfl <;> decide
    | horizontal =>
      simp only [hsplit, mem_singleton] at ho
      subst ho
      decide
    | vertical =>
      simp only [hsplit, mem_singleton] at ho
      subst ho
      decide

theorem bounds_rect (r : Resolution) : IsRect32 r.bounds := by
  have hx := ceilDiv_mono (two_pow_pos (r.tccp.horizontalDepth r.levelsDone)) r.tc_rect.x_le
  have hy := ceilDiv_mono (two_pow_pos (r.tccp.verticalDepth r.levelsDone)) r.tc_rect.y_le
  have hx1 := ceilDiv_le_self (a := r.tc.x1) (two_pow_pos (r.tccp.horizontalDepth r.levelsDone))
  have hy1 := ceilDiv_le_self (a := r.tc.y1) (two_pow_pos (r.tccp.verticalDepth r.levelsDone))
  have htx := r.tc_rect.x_le.trans r.tc_rect.x1_le
  have hty := r.tc_rect.y_le.trans r.tc_rect.y1_le
  refine ⟨?_, ?_, ?_, ?_⟩ <;>
    simp only [bounds, getBandWindow, bandCoordinate_low r.tc_rect.x1_le,
      bandCoordinate_low r.tc_rect.y1_le, bandCoordinate_low htx, bandCoordinate_low hty]
  · exact hx
  · exact hy
  · exact hx1.trans r.tc_rect.x1_le
  · exact hy1.trans r.tc_rect.y1_le

/-- The precincts along the horizontal axis. -/
def columns (r : Resolution) : Nat :=
  r.bounds.x1 ⌈/⌉ 2 ^ r.precWidthExp - r.bounds.x0 / 2 ^ r.precWidthExp

def rows (r : Resolution) : Nat :=
  r.bounds.y1 ⌈/⌉ 2 ^ r.precHeightExp - r.bounds.y0 / 2 ^ r.precHeightExp

theorem precWidthExp_le (r : Resolution) : r.precWidthExp ≤ 15 := r.tccp.precWidthExp_le _

theorem precHeightExp_le (r : Resolution) : r.precHeightExp ≤ 15 := r.tccp.precHeightExp_le _

theorem precinctGrid_width : r.precinctGrid.width = r.columns := by
  have hgrid := precinctGrid_eq r.bounds_rect (r.precWidthExp_le.trans (by decide : 15 ≤ 32))
    (r.precHeightExp_le.trans (by decide : 15 ≤ 32))
  change (Canvas.precinctGrid _ _ _).width = _
  rw [hgrid, Rect.width, sub32_grid r.bounds_rect.x_le r.bounds_rect.x1_le, columns]

theorem precinctGrid_height : r.precinctGrid.height = r.rows := by
  have hgrid := precinctGrid_eq r.bounds_rect (r.precWidthExp_le.trans (by decide : 15 ≤ 32))
    (r.precHeightExp_le.trans (by decide : 15 ≤ 32))
  change (Canvas.precinctGrid _ _ _).height = _
  rw [hgrid, Rect.height, sub32_grid r.bounds_rect.y_le r.bounds_rect.y1_le, rows]

theorem bandPrecinctPartition_eq :
    r.bandPrecinctPartition.x0 = r.bounds.x0 / 2 ^ r.precWidthExp * 2 ^ r.bandPrecinctExpnX ∧
      r.bandPrecinctPartition.y0 = r.bounds.y0 / 2 ^ r.precHeightExp * 2 ^ r.bandPrecinctExpnY := by
  have hshift : ∀ {k p s : Nat}, s ≤ p → (k * 2 ^ p) >>> s = k * 2 ^ (p - s) := by
    intro k p s hs
    rw [Nat.shiftRight_eq_div_pow]
    apply Nat.div_eq_of_eq_mul_left (two_pow_pos s)
    rw [Nat.mul_assoc, ← Nat.pow_add, Nat.sub_add_cancel hs]
  unfold bandPrecinctPartition precinctPartition bandPrecinctExpnX bandPrecinctExpnY
  rw [genPrecinctPartition_eq r.bounds_rect]
  split
  case isTrue hzero => simp [shiftX, shiftY, hzero]
  case isFalse =>
    simp only [Rect.scaleDownPow2]
    rw [hshift r.shiftX_le.2, hshift r.shiftY_le.2]
    exact ⟨rfl, rfl⟩

/-- The precincts of the resolution end at `2 ^ 32` along an axis that its level does not split. -/
def WrapsX (r : Resolution) : Prop := r.shiftX = 0 ∧ 2 ^ 32 < r.bounds.x1 + 2 ^ r.precWidthExp

def WrapsY (r : Resolution) : Prop := r.shiftY = 0 ∧ 2 ^ 32 < r.bounds.y1 + 2 ^ r.precHeightExp

/-- Precinct column `i` of a band. -/
def column (r : Resolution) (orientation i : Nat) : Nat × Nat :=
  axisPrecinct (r.band orientation).x0 (r.band orientation).x1 r.bandPrecinctPartition.x0
    r.bandPrecinctExpnX i

/-- Precinct row `j` of a band. -/
def row (r : Resolution) (orientation j : Nat) : Nat × Nat :=
  axisPrecinct (r.band orientation).y0 (r.band orientation).y1 r.bandPrecinctPartition.y0
    r.bandPrecinctExpnY j

theorem axisX (ho : o ∈ r.tccp.orientations r.resno) :
    BandAxis r.WrapsX (r.band o).x0 (r.band o).x1 r.columns (r.column o) r.cblkExpnX := by
  obtain ⟨hlevel, hdepth⟩ := horizontalDepth_level (r := r)
  rw [hlevel] at hdepth
  have haxis := bandAxis r.tc_rect.x_le r.tc_rect.x1_le shiftX_le.1 (high_le ho).1 hdepth shiftX_le.2
    r.precWidthExp_le (min_le_right _ _ : r.cblkExpnX ≤ _) bandPrecinctPartition_eq.1
  rwa [← hlevel] at haxis

theorem axisY (ho : o ∈ r.tccp.orientations r.resno) :
    BandAxis r.WrapsY (r.band o).y0 (r.band o).y1 r.rows (r.row o) r.cblkExpnY := by
  obtain ⟨hlevel, hdepth⟩ := verticalDepth_level (r := r)
  rw [hlevel] at hdepth
  have haxis := bandAxis r.tc_rect.y_le r.tc_rect.y1_le shiftY_le.1 (high_le ho).2 hdepth shiftY_le.2
    r.precHeightExp_le (min_le_right _ _ : r.cblkExpnY ≤ _) bandPrecinctPartition_eq.2
  rwa [← hlevel] at haxis

theorem precinct_contains (o k : Nat) (p : Nat × Nat) :
    (r.precinct o k).Contains p ↔ Within (r.column o (k % r.columns)) p.1 ∧
      Within (r.row o (k / r.columns)) p.2 := by
  rw [precinct, precinctGrid_width]
  exact Iff.rfl

theorem precinctGrid_area : r.precinctGrid.area = r.columns * r.rows := by
  rw [Rect.area, precinctGrid_width, precinctGrid_height]

/-- The code blocks along the horizontal axis of precinct `k`. -/
def blockColumns (r : Resolution) (orientation k : Nat) : Nat :=
  axisBlockCount (r.column orientation (k % r.columns)) r.cblkExpnX

def blockRows (r : Resolution) (orientation k : Nat) : Nat :=
  axisBlockCount (r.row orientation (k / r.columns)) r.cblkExpnY

theorem numCodeBlocks_eq (o k : Nat) :
    r.numCodeBlocks o k = r.blockColumns o k * r.blockRows o k := by
  rw [numCodeBlocks, precinct, precinctGrid_width]
  rfl

theorem codeBlock_contains (o k b : Nat) (p : Nat × Nat) :
    (r.codeBlock o k b).Contains p ↔
      Within (axisBlock (r.column o (k % r.columns)) r.cblkExpnX
          (b % r.blockColumns o k)) p.1 ∧
        Within (axisBlock (r.row o (k / r.columns)) r.cblkExpnY
          (b / r.blockColumns o k)) p.2 := by
  rw [codeBlock, precinct, precinctGrid_width, getCodeBlockBounds_contains]
  exact Iff.rfl

theorem partitioned_of_axes
    (hx : AxisSplits (r.band o).x0 (r.band o).x1 r.columns
      (r.column o) r.cblkExpnX)
    (hy : AxisSplits (r.band o).y0 (r.band o).y1 r.rows (r.row o)
      r.cblkExpnY) : r.Partitioned o where
  precincts := by
    rw [precinctGrid_area]
    exact (hx.pieces.prod hy.pieces).congr fun k _ p => precinct_contains o k p
  codeBlocks := by
    intro k hk
    rw [precinctGrid_area] at hk
    have hcolumns := Nat.pos_of_mul_pos_right (Nat.zero_lt_of_lt hk)
    have hblocks := (hx.blocks _ (Nat.mod_lt k hcolumns)).prod
      (hy.blocks _ (Nat.div_lt_of_lt_mul hk))
    have hwhole : (r.precinct o k).Contains = fun p =>
        Within (r.column o (k % r.columns)) p.1 ∧
          Within (r.row o (k / r.columns)) p.2 :=
      funext fun p => propext (precinct_contains o k p)
    rw [numCodeBlocks_eq, hwhole]
    exact hblocks.congr fun b _ p => codeBlock_contains o k b p

/-- Where no piece or block of one axis holds a point, nothing is left to partition. -/
theorem partitioned_of_void (hband : ∀ p : Nat × Nat,
      ¬ (((r.band o).x0 ≤ p.1 ∧ p.1 < (r.band o).x1) ∧
        (r.band o).y0 ≤ p.2 ∧ p.2 < (r.band o).y1))
    (hprecinct : ∀ k, k < r.precinctGrid.area → ∀ p, ¬ (r.precinct o k).Contains p)
    (hblock : ∀ k, k < r.precinctGrid.area → ∀ b, b < r.numCodeBlocks o k →
      ∀ p, ¬ (r.codeBlock o k b).Contains p) : r.Partitioned o where
  precincts := Splits.of_void hprecinct hband
  codeBlocks := fun k hk => Splits.of_void (hblock k hk) (hprecinct k hk)

theorem partitioned_of_voidX (hx : AxisSplits (r.band o).x0 (r.band o).x1
      r.columns (r.column o) r.cblkExpnX)
    (hempty : (r.band o).x1 ≤ (r.band o).x0) : r.Partitioned o := by
  have hcolumn : ∀ {k}, k < r.precinctGrid.area → k % r.columns < r.columns := by
    intro k hk
    rw [precinctGrid_area] at hk
    exact Nat.mod_lt k (Nat.pos_of_mul_pos_right (Nat.zero_lt_of_lt hk))
  refine partitioned_of_void (fun p hp => by omega) ?_ ?_
  · intro k hk p hp
    rw [precinct_contains] at hp
    exact (hx.void hempty (hcolumn hk) p.1).1 hp.1
  · intro k hk b hb p hp
    rw [codeBlock_contains] at hp
    rw [numCodeBlocks_eq] at hb
    exact (hx.void hempty (hcolumn hk) p.1).2 _
      (Nat.mod_lt b (Nat.pos_of_mul_pos_right (Nat.zero_lt_of_lt hb))) hp.1

theorem partitioned_of_voidY (hy : AxisSplits (r.band o).y0 (r.band o).y1
      r.rows (r.row o) r.cblkExpnY)
    (hempty : (r.band o).y1 ≤ (r.band o).y0) : r.Partitioned o := by
  have hrow : ∀ {k}, k < r.precinctGrid.area → k / r.columns < r.rows := by
    intro k hk
    rw [precinctGrid_area] at hk
    exact Nat.div_lt_of_lt_mul hk
  refine partitioned_of_void (fun p hp => by omega) ?_ ?_
  · intro k hk p hp
    rw [precinct_contains] at hp
    exact (hy.void hempty (hrow hk) p.2).1 hp.2
  · intro k hk b hb p hp
    rw [codeBlock_contains] at hp
    rw [numCodeBlocks_eq] at hb
    exact (hy.void hempty (hrow hk) p.2).2 _ (Nat.div_lt_of_lt_mul hb) hp.2

/-- Every column and every row meet in a precinct of the band. -/
theorem Partitioned.band_of_mem (h : r.Partitioned o) {i j x y : Nat}
    (hi : i < r.columns) (hj : j < r.rows) (hx : Within (r.column o i) x)
    (hy : Within (r.row o j) y) :
    x < (r.band o).x1 ∧ y < (r.band o).y1 := by
  obtain ⟨hindex, hcolumn, hrow⟩ := MixedRadix.index_iff.mp ⟨hi, hj, rfl⟩
  rw [← precinctGrid_area] at hindex
  have hmem := (precinct_contains o _ (x, y)).mpr ⟨hcolumn ▸ hx, hrow ▸ hy⟩
  have hband := (h.precincts.union (x, y)).mp ⟨_, hindex, hmem⟩
  exact ⟨hband.1.2, hband.2.2⟩

end Resolution

open Resolution in
/-- **The precincts of a band partition it, and the code blocks of every precinct partition the
precinct, exactly when no precinct that can hold a point ends at `2 ^ 32`.** -/
theorem partitioned_iff (r : Resolution) {orientation : Nat}
    (ho : orientation ∈ r.tccp.orientations r.resno) :
    r.Partitioned orientation ↔
      ¬ (r.WrapsX ∧ (r.WrapsY ∨ (r.band orientation).y0 < (r.band orientation).y1)) ∧
        ¬ (r.WrapsY ∧ (r.WrapsX ∨ (r.band orientation).x0 < (r.band orientation).x1)) := by
  constructor
  · intro h
    constructor
    · rintro ⟨hw, hy⟩
      obtain ⟨i, hi, hx⟩ := (axisX ho).reaches hw
      obtain ⟨j, y, hj, hy⟩ := (axisY ho).exists_mem hy
      have hlt := (axisX ho).hi_lt
      have := (h.band_of_mem hi hj hx hy).1
      omega
    · rintro ⟨hw, hx⟩
      obtain ⟨j, hj, hy⟩ := (axisY ho).reaches hw
      obtain ⟨i, x, hi, hx⟩ := (axisX ho).exists_mem hx
      have hlt := (axisY ho).hi_lt
      have := (h.band_of_mem hi hj hx hy).2
      omega
  · rintro ⟨hnx, hny⟩
    by_cases hwx : r.WrapsX
    · have hy : ¬ (r.WrapsY ∨ (r.band orientation).y0 < (r.band orientation).y1) := fun h =>
        hnx ⟨hwx, h⟩
      rw [not_or, not_lt] at hy
      exact partitioned_of_voidY ((axisY ho).splits hy.1) hy.2
    · by_cases hwy : r.WrapsY
      · have hx : ¬ (r.WrapsX ∨ (r.band orientation).x0 < (r.band orientation).x1) := fun h =>
          hny ⟨hwy, h⟩
        rw [not_or, not_lt] at hx
        exact partitioned_of_voidX ((axisX ho).splits hx.1) hx.2
      · exact partitioned_of_axes ((axisX ho).splits hwx) ((axisY ho).splits hwy)

/-- Five levels that split both axes, with the default precincts and 64 by 64 code blocks. -/
def defaultCoding : TileComponentCodingParams where
  numresolutions := 6
  splits := fun _ => .both
  precWidthExp := fun _ => 15
  precHeightExp := fun _ => 15
  cblkw_expn := 6
  cblkh_expn := 6
  numresolutions_range := by decide
  precWidthExp_le := fun _ => le_rfl
  precHeightExp_le := fun _ => le_rfl
  precExp_pos := fun _ _ => by decide
  cblk_range := by decide

/-- The high diagonal band of a tile component that starts at an odd place. -/
theorem partitioned_hh : Resolution.Partitioned
    ⟨defaultCoding, ⟨1001, 517, 70001, 40003⟩, 5, ⟨by decide, by decide, by decide, by decide⟩,
      by decide⟩ 3 := by
  refine (partitioned_iff _ (by decide)).mpr ⟨?_, ?_⟩
  · rintro ⟨⟨hshift, _⟩, _⟩
    exact absurd hshift (by decide)
  · rintro ⟨⟨hshift, _⟩, _⟩
    exact absurd hshift (by decide)

/-- No decomposition and the default precincts. -/
def undecomposed : TileComponentCodingParams :=
  { defaultCoding with numresolutions := 1, numresolutions_range := by decide }

/-- One row of samples as wide as an image can be: the last of its precincts holds a sample to the
right of the band. -/
theorem partitioned_fails : ¬ Resolution.Partitioned
    ⟨undecomposed, ⟨0, 0, 2 ^ 32 - 1, 1⟩, 0, ⟨by decide, by decide, by decide, by decide⟩,
      by decide⟩ 0 := by
  intro h
  have hcontains : (Resolution.precinct ⟨undecomposed, ⟨0, 0, 2 ^ 32 - 1, 1⟩, 0,
      ⟨by decide, by decide, by decide, by decide⟩, by decide⟩ 0 (2 ^ 17 - 1)).Contains
        (2 ^ 32 - 1, 0) := by
    refine ⟨⟨?_, ?_⟩, ?_, ?_⟩ <;> decide +kernel
  have hband := (h.precincts.union (2 ^ 32 - 1, 0)).mp ⟨2 ^ 17 - 1, by decide +kernel, hcontains⟩
  exact absurd hband.1.2 (by decide +kernel)

end GrokCodec.Canvas
