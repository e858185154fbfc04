import GrokCodec.Wavelet.Tile53

/-!
The lossless sample pipeline of a tile: DC shift, reversible colour transform and 5/3 wavelet,
and back.

The DC shift has no fixed place. The compressor takes it off in the colour transform, in the
first vertical pass of the wavelet, or in a pass of its own when a component has no wavelet; the
decompressor makes the same choice from the same parameters and also clamps there.

The width of the arithmetic is not chosen alike. The compressor decides it component by component,
the decompressor for all of them together.
-/

namespace GrokCodec.PointTransform

open Wavelet

/-- What the pipeline knows about a component; sizes are those of its tile component. -/
structure Component where
  bounds : TileCompBounds
  numResolutions : Nat
  prec : Nat
  sgnd : Bool
  numResolutions_pos : 0 < numResolutions
  prec_pos : 0 < prec

namespace Component

variable (c : Component)

/-- `dcLevelShift_`: half the range of an unsigned component. -/
def dcLevelShift : Int := if c.sgnd then 0 else 2 ^ (c.prec - 1)

def minSample : Int := if c.sgnd then -2 ^ (c.prec - 1) else 0

def maxSample : Int := if c.sgnd then 2 ^ (c.prec - 1) - 1 else 2 ^ c.prec - 1

/-- Shift and range as both directions hand them to the wavelet. -/
def dcShift (enabled : Bool) : DcShiftParam :=
  ⟨c.dcLevelShift, c.minSample, c.maxSample, enabled⟩

def componentsEqual (d : Component) : Bool :=
  c.bounds.toRect = d.bounds.toRect && c.sgnd = d.sgnd

end Component

/-- A tile and its coding parameters; `mct` is set when the codestream signals the colour
transform of the first three components. -/
structure Tile where
  mct : Bool
  numcomps : Nat
  comps : Nat → Component

abbrev Image := Nat → Plane

structure ShiftInfo where
  min : Int
  max : Int
  shift : Int

namespace Tile

variable (t : Tile)

def needsMctDecompress : Bool :=
  t.mct && 3 ≤ t.numcomps && (t.comps 0).componentsEqual (t.comps 1) &&
    (t.comps 0).componentsEqual (t.comps 2)

/-- `needsMctDecompress(compno)`. -/
def isMctComp (compno : Nat) : Bool := t.needsMctDecompress && compno ≤ 2

def genShift (compno : Nat) (sign : Int) : ShiftInfo :=
  let c := t.comps compno
  ⟨c.minSample, c.maxSample, sign * c.dcLevelShift⟩

/-- The separate pass for components without a wavelet. -/
def dcLevelShiftCompress (img : Image) : Image := fun compno =>
  let c := t.comps compno
  if 1 < c.numResolutions then img compno
  else if t.isMctComp compno then img compno
  else if c.dcLevelShift = 0 then img compno
  else fun y x => img compno y x - c.dcLevelShift

/-- `CompressRev`, with the shift of each channel added first. -/
def compressRev (img : Image) : Image := fun compno y x =>
  let r := img 0 y x + (t.genShift 0 (-1)).shift
  let g := img 1 y x + (t.genShift 1 (-1)).shift
  let b := img 2 y x + (t.genShift 2 (-1)).shift
  match compno with
  | 0 => (g + g + b + r) / 4
  | 1 => b - g
  | 2 => r - g
  | _ => img compno y x

/-- The shift that the compressor's first vertical pass takes off. -/
def encodeShift (compno : Nat) : Int :=
  let c := t.comps compno
  let dc := if 1 < c.numResolutions ∧ ¬ t.isMctComp compno
    then c.dcShift (c.dcLevelShift ≠ 0) else {}
  if dc.enabled then dc.shift else 0

/-- `grk_get_data_type` gives the component 16 bits: the precision and the growth of the transforms
fit. -/
def fits16 (compno : Nat) : Bool :=
  (t.comps compno).prec + (if t.isMctComp compno then 5 else 4) ≤ 16

/-- `is16BitDwt` of a component that is compressed. -/
def compress16 (compno : Nat) : Bool := 1 < (t.comps compno).numResolutions && t.fits16 compno

/-- `use16BitDwt_`, the one decision of the decompressor. -/
def decompress16 : Bool := (List.range t.numcomps).all t.fits16

/-- `doCompress` up to the coefficients, on a machine with `lanes` 16-bit lanes. -/
def compress (lanes : Nat) (scratch : Line) (img : Image) : Image :=
  let img := t.dcLevelShiftCompress img
  let img := if t.mct then t.compressRev img else img
  fun compno =>
    let c := t.comps compno
    if t.compress16 compno then
      encodeTile5316 lanes c.bounds c.numResolutions (t.encodeShift compno) (img compno)
    else encodeTile53 scratch c.bounds c.numResolutions (t.encodeShift compno) (img compno)

/-- The shift that the decompressor's last vertical pass adds; a zero shift still clamps. -/
def decodeShift (compno : Nat) : DcShiftParam :=
  let c := t.comps compno
  if 1 < c.numResolutions then
    if t.isMctComp compno then {} else c.dcShift true
  else {}

def decompressDcShiftRev (compno : Nat) (p : Plane) : Plane := fun y x =>
  let info := t.genShift compno 1
  clamp (p y x + info.shift) info.min info.max

/-- `DecompressRev`; windows of different sizes are left alone, where `stride` is the aligned
width of a window. -/
def decompressRev (stride : Nat → Nat) (img : Image) : Image :=
  let w := fun i => stride (t.comps i).bounds.width
  let h := fun i => (t.comps i).bounds.height
  if w 0 ≠ w 1 ∨ w 1 ≠ w 2 ∨ h 0 ≠ h 1 ∨ h 1 ≠ h 2 then img
  else fun compno y x =>
    let g := img 0 y x - (img 1 y x + img 2 y x) / 4
    let r := img 2 y x + g
    let b := img 1 y x + g
    let info := t.genShift compno 1
    match compno with
    | 0 => clamp (r + info.shift) info.min info.max
    | 1 => clamp (g + info.shift) info.min info.max
    | 2 => clamp (b + info.shift) info.min info.max
    | _ => img compno y x

/-- The whole-tile decompressor from the coefficients on, for a tile it does not decode in 16 bits;
`wide` says which columns of which resolution of a component go to a vector kernel. -/
def decompress (wide : Nat → Nat → Nat → Bool) (stride : Nat → Nat) (scratch : Line)
    (coefficients : Image) : Image :=
  let img : Image := fun compno =>
    let c := t.comps compno
    let p := tile53 (wide compno) scratch c.bounds c.numResolutions (t.decodeShift compno)
      (coefficients compno)
    -- a shift of its own when the wavelet did not take it
    if ¬ t.isMctComp compno ∧ ¬ 1 < c.numResolutions then t.decompressDcShiftRev compno p else p
  if t.needsMctDecompress then t.decompressRev stride img else img

end Tile

section Shift

variable {c : Component} {v : Int}

/-- The range of a component, as an image is checked against it on input. -/
def Component.InRange (c : Component) (v : Int) : Prop := c.minSample ≤ v ∧ v ≤ c.maxSample

theorem clamp_of_inRange (h : c.InRange v) : clamp v c.minSample c.maxSample = v := by
  unfold clamp
  rw [if_neg (Int.not_lt.mpr h.1), if_neg (Int.not_lt.mpr h.2)]

theorem minSample_lt_maxSample (c : Component) : c.minSample < c.maxSample := by
  have half : (1 : Int) ≤ 2 ^ (c.prec - 1) := one_le_pow₀ (by decide)
  have whole : (2 : Int) ^ c.prec = 2 * 2 ^ (c.prec - 1) := by
    rw [← pow_succ', Nat.sub_add_cancel c.prec_pos]
  unfold Component.minSample Component.maxSample
  split <;> omega

theorem dcShift_fusable (c : Component) : (c.dcShift true).Fusable := by
  exact minSample_lt_maxSample c

theorem dcShift_finish (h : c.InRange v) :
    (c.dcShift true).finish (v - c.dcLevelShift) = v := by
  show clamp (v - c.dcLevelShift + c.dcLevelShift) c.minSample c.maxSample = v
  rw [sub_add_cancel, clamp_of_inRange h]

end Shift

namespace Tile

variable {t : Tile} {img : Image} {compno : Nat} {scratch scratch' : Line}
  {wide : Nat → Nat → Nat → Bool} {stride : Nat → Nat} {lanes : Nat}

/-- Both directions stay in 32 bits. -/
structure Wide (t : Tile) : Prop where
  compress : ∀ compno < t.numcomps, t.compress16 compno = false
  decompress : t.decompress16 = false

theorem compress_of_wide (lanes : Nat) (hwide : t.Wide) (hc : compno < t.numcomps) :
    t.compress lanes scratch img compno =
      encodeTile53 scratch (t.comps compno).bounds (t.comps compno).numResolutions
        (t.encodeShift compno) ((if t.mct then t.compressRev (t.dcLevelShiftCompress img)
          else t.dcLevelShiftCompress img) compno) := by
  simp only [compress, hwide.compress compno hc, Bool.false_eq_true, if_false]

/-- Every sample of every component lies in the range of its component. -/
def InRange (t : Tile) (img : Image) : Prop :=
  ∀ compno y x, compno < t.numcomps → y < ((t.comps compno).bounds.resolution 0).height →
    x < ((t.comps compno).bounds.resolution 0).width → (t.comps compno).InRange (img compno y x)

theorem encodeShift_eq (wavelet : 1 < (t.comps compno).numResolutions)
    (own : t.isMctComp compno = false) :
    t.encodeShift compno = (t.comps compno).dcLevelShift := by
  by_cases none : (t.comps compno).dcLevelShift = 0 <;>
    simp [encodeShift, wavelet, own, Component.dcShift, none]

theorem encodeShift_of_mct (mct : t.isMctComp compno = true) : t.encodeShift compno = 0 := by
  simp [encodeShift, mct]

theorem decodeShift_eq (wavelet : 1 < (t.comps compno).numResolutions)
    (own : t.isMctComp compno = false) :
    t.decodeShift compno = (t.comps compno).dcShift true := by
  simp [decodeShift, wavelet, own]

theorem decodeShift_of_mct (mct : t.isMctComp compno = true) : t.decodeShift compno = {} := by
  simp [decodeShift, mct]

theorem three_le_of_own (on : t.needsMctDecompress = true) (own : t.isMctComp compno = false) :
    3 ≤ compno := by
  simp only [isMctComp, on, Bool.true_and, decide_eq_false_iff_not] at own
  omega

theorem compressRev_of_three_le (h : 3 ≤ compno) : t.compressRev img compno = img compno := by
  obtain ⟨k, rfl⟩ := Nat.exists_eq_add_of_le' h
  rfl

theorem decompressRev_of_three_le (h : 3 ≤ compno) :
    t.decompressRev stride img compno = img compno := by
  obtain ⟨k, rfl⟩ := Nat.exists_eq_add_of_le' h
  unfold decompressRev
  split <;> rfl

theorem tile53_of_one {wide : Nat → Nat → Bool} {b : TileCompBounds} {dc : DcShiftParam}
    {shift : Int} {n : Nat} (one : ¬ 1 < n) (p : Plane) :
    tile53 wide scratch' b n dc (encodeTile53 scratch b n shift p) = p := by
  have none : n - 1 = 0 := by omega
  simp only [tile53, encodeTile53, none, Loop.countTo]

/-- A component outside the colour transform: the shift is in the wavelet, or in the passes of
its own when there is none. -/
theorem own_round_trip (hwide : t.Wide) (on : t.mct = true → t.needsMctDecompress = true)
    (hc : compno < t.numcomps) (own : t.isMctComp compno = false) (range : t.InRange img)
    {y x : Nat} (hy : y < ((t.comps compno).bounds.resolution 0).height)
    (hx : x < ((t.comps compno).bounds.resolution 0).width) :
    t.decompress wide stride scratch' (t.compress lanes scratch img) compno y x = img compno y x := by
  have colour : ∀ img', (if t.mct then t.compressRev img' else img') compno = img' compno := by
    intro img'
    split
    next mct => exact compressRev_of_three_le (three_le_of_own (on mct) own)
    next => rfl
  have back : ∀ img', (if t.needsMctDecompress then t.decompressRev stride img' else img') compno =
      img' compno := by
    intro img'
    split
    next mct => exact decompressRev_of_three_le (three_le_of_own mct own)
    next => rfl
  unfold decompress
  simp only [back, compress_of_wide lanes hwide hc, colour]
  by_cases wavelet : 1 < (t.comps compno).numResolutions
  · have plane : t.dcLevelShiftCompress img compno = img compno := by
      simp [dcLevelShiftCompress, wavelet]
    rw [if_neg (by simp [wavelet]), plane, encodeShift_eq wavelet own, decodeShift_eq wavelet own,
      tile53_encodeTile53 (dcShift_fusable _)
        fun y x hy hx => dcShift_finish (range compno y x hc hy hx)]
  · have plane : t.dcLevelShiftCompress img compno y x =
        img compno y x - (t.comps compno).dcLevelShift := by
      by_cases none : (t.comps compno).dcLevelShift = 0 <;>
        simp [dcLevelShiftCompress, wavelet, own, none]
    rw [if_pos ⟨by simp [own], wavelet⟩, tile53_of_one wavelet]
    simp only [decompressDcShiftRev, genShift, plane, one_mul, sub_add_cancel]
    exact clamp_of_inRange (range compno y x hc hy hx)

/-- Planes 0 to 2 between the two colour transforms are those the first one produced. -/
theorem mct_plane (mct : t.isMctComp compno = true) (p : Plane) :
    tile53 (wide compno) scratch' (t.comps compno).bounds (t.comps compno).numResolutions
      (t.decodeShift compno) (encodeTile53 scratch (t.comps compno).bounds
        (t.comps compno).numResolutions (t.encodeShift compno) p) = p := by
  rw [encodeShift_of_mct mct, decodeShift_of_mct mct]
  exact tile53_encodeTile53 fusable_default fun y x _ _ => by rw [finish_default, sub_zero]

theorem windows_equal (on : t.needsMctDecompress = true) :
    (t.comps 1).bounds.toRect = (t.comps 0).bounds.toRect ∧
      (t.comps 2).bounds.toRect = (t.comps 0).bounds.toRect := by
  simp only [needsMctDecompress, Component.componentsEqual, Bool.and_eq_true,
    decide_eq_true_eq] at on
  exact ⟨on.1.2.1.symm, on.2.1.symm⟩

/-- The colour transform of one pixel is undone, each channel with its own shift. -/
theorem decompressRev_compressRev (on : t.needsMctDecompress = true) {img' : Image} {y x : Nat}
    (planes : ∀ i, i ≤ 2 → img' i y x = t.compressRev img i y x) (hc : compno ≤ 2)
    (range : (t.comps compno).InRange (img compno y x)) :
    t.decompressRev stride img' compno y x = img compno y x := by
  obtain ⟨second, third⟩ := windows_equal on
  unfold decompressRev
  simp only [second, third, ne_eq, not_true_eq_false, or_self, if_false]
  rw [planes 0 (by decide), planes 1 (by decide), planes 2 (by decide)]
  have back := clamp_of_inRange range
  obtain rfl | rfl | rfl : compno = 0 ∨ compno = 1 ∨ compno = 2 := (by omega)
  all_goals
    simp only [compressRev, genShift, one_mul] at back ⊢
    refine Eq.trans (congrArg (fun v => clamp v _ _) ?_) back
    omega

theorem mct_round_trip (hwide : t.Wide) (hc : compno < t.numcomps) (mct : t.isMctComp compno = true)
    (range : t.InRange img) {y x : Nat}
    (hy : y < ((t.comps compno).bounds.resolution 0).height)
    (hx : x < ((t.comps compno).bounds.resolution 0).width) :
    t.decompress wide stride scratch' (t.compress lanes scratch img) compno y x = img compno y x := by
  obtain ⟨on, first⟩ : t.needsMctDecompress = true ∧ compno ≤ 2 := by
    simpa [isMctComp] using mct
  obtain ⟨signalled, three⟩ : t.mct = true ∧ 3 ≤ t.numcomps := by
    simp only [needsMctDecompress, Bool.and_eq_true, decide_eq_true_eq] at on
    exact on.1.1
  have isMct : ∀ i, i ≤ 2 → t.isMctComp i = true := fun i hi => by simp [isMctComp, on, hi]
  have plain : ∀ i, i ≤ 2 → t.dcLevelShiftCompress img i = img i := fun i hi => by
    simp [dcLevelShiftCompress, isMct i hi]
  unfold decompress
  simp only [on, if_true]
  refine decompressRev_compressRev on (fun i hi => ?_) first (range compno y x hc hy hx)
  rw [if_neg (by simp [isMct i hi]), compress_of_wide lanes hwide (by omega), mct_plane (isMct i hi),
    if_pos signalled]
  unfold compressRev
  rw [plain 0 (by decide), plain 1 (by decide), plain 2 (by decide)]
  obtain rfl | rfl | rfl : i = 0 ∨ i = 1 ∨ i = 2 := (by omega) <;> rfl

/-- Bounds with odd origins on both axes, and a last row and column of their own. -/
def oddBounds : TileCompBounds := ⟨⟨1, 3, 4, 8⟩, by decide, by decide, by decide, by decide⟩

/-- Three unsigned components with the colour transform and a signed fourth one, of 13 bits. -/
def fourComponents : Tile :=
  ⟨true, 4, fun i => ⟨oddBounds, if i = 3 then 1 else 3, 13, i = 3, by split <;> decide, by decide⟩⟩

/-- A column of two pixels, of 8 bits in the first two components and of 16 in the third. -/
def mixedPrecisions : Tile :=
  ⟨true, 3, fun i => ⟨⟨⟨0, 0, 1, 2⟩, by decide, by decide, by decide, by decide⟩, 2,
    if i = 2 then 16 else 8, false, by decide, by split <;> decide⟩⟩

end Tile

end GrokCodec.PointTransform
