import GrokCodec.Codestream.TileCodingParams
import Mathlib.Data.Nat.Log

/-!
The coding parameters of the compressor: what `CodeStreamCompress` makes of the parameters of the
caller and the image, as far as it gets into the main header.
-/

namespace GrokCodec.Codestream

open Nat

/-- The parameters of the caller that the main header depends on. -/
structure CParameters where
  tileSizeOn : Bool
  tx0 : UInt32
  ty0 : UInt32
  tWidth : UInt32
  tHeight : UInt32
  numlayers : UInt16
  csty : UInt8
  numgbits : UInt8
  progOrder : Int
  numresolution : UInt8
  cblockwInit : UInt32
  cblockhInit : UInt32
  cblkSty : UInt8
  irreversible : Bool
  qfactor : UInt8
  resSpec : UInt32
  prcwInit : Nat → UInt32
  prchInit : Nat → UInt32
  mct : UInt8
  mctData : Bool
  rsiz : UInt16

structure ImageComponent where
  prec : UInt8
  sgnd : Bool
  dx : UInt8
  dy : UInt8
  w : UInt32
  h : UInt32

/-- `isYcc`: the colour space is sYCC or eYCC. -/
structure CImage where
  x0 : UInt32
  y0 : UInt32
  x1 : UInt32
  y1 : UInt32
  comps : List ImageComponent
  isYcc : Bool

/-- What the quantizers compute with floating-point numbers: the entries of a QCD segment, and the
exponents and mantissas for a quality factor before they are limited. -/
structure Quantizers where
  generate : (isHT reversible : Bool) → (decomps prec : Nat) → (colorTransform isSigned : Bool) →
    Nat → Nat
  qfactorStep : (qfactor decomps prec compno : Nat) → CImage → Nat → Int × Nat

/-- The coding parameters of the compressor. All tiles have the same. -/
structure Encoder where
  siz : Siz
  csty : Nat
  prg : Int
  numLayers : Nat
  mct : Nat
  tccps : Nat → TileComponentCodingParams

def maxRlvls : Nat := 33

def floorlog2 (a : Nat) : Nat := log2 a

namespace CParameters

variable (p : CParameters)

def isHT : Bool := p.cblkSty &&& 0x7f = 0x40

/-- `Quantizer::pull`, for one band. -/
def pull (reversible : Bool) (spqcd : Nat) : Stepsize :=
  if reversible then ⟨u8 spqcd >>> 3, 0⟩ else ⟨u16 spqcd >>> 11, u16 spqcd &&& 0x7ff⟩

/-- `packStepsize`: the limits on exponent and mantissa. -/
def packStepsize (step : Int × Nat) : Stepsize :=
  let step := if step.2 > 2047 then (step.1 - 1, 0) else step
  let step := if step.1 > 31 then (31, 0) else step
  if step.1 < 0 then ⟨0, 2047⟩ else ⟨step.1.toNat, step.2⟩

variable (q : Quantizers)

/-- The step sizes of a component. -/
def stepsizes (p : CParameters) (image : CImage) (compno bandno : Nat) : Stepsize :=
  let decomps := p.numresolution.toNat - 1
  let comp (i : Nat) := image.comps.getD i ⟨0, false, 0, 0, 0, 0⟩
  if bandno ≥ 3 * decomps + 1 then {}
  else if p.qfactor ≠ 0 then
    packStepsize
      (q.qfactorStep p.qfactor.toNat decomps (comp compno).prec.toNat compno image bandno)
  else
    pull (!p.irreversible)
      (q.generate p.isHT (!p.irreversible) decomps (comp 0).prec.toNat (p.mct > 0) (comp 0).sgnd
        bandno)

/-- The precinct size exponent of a resolution, from the sizes of the caller. -/
def precinctExp (init : Nat → UInt32) (itRes : Nat) : Nat :=
  let resSpec := p.resSpec.toNat
  let i := p.numresolution.toNat - 1 - itRes
  if p.csty.toNat &&& 1 ≠ 0 ∧ resSpec ≠ 0 then
    let size := if i < resSpec then (init i).toNat
      else (init (resSpec - 1)).toNat >>> (i - (resSpec - 1))
    if size < 1 then 1 else floorlog2 size
  else 15

def tccp (p : CParameters) (image : CImage) (compno : Nat) : TileComponentCodingParams :=
  { csty := p.csty.toNat &&& 1
    numresolutions := p.numresolution.toNat
    cblkwExpn := floorlog2 p.cblockwInit.toNat
    cblkhExpn := floorlog2 p.cblockhInit.toNat
    cblkStyle := p.cblkSty.toNat
    qmfbid := if p.irreversible then 0 else 1
    qntsty := if p.irreversible then qntstySeqnt else qntstyNoqnt
    numgbits := p.numgbits.toNat
    stepsizes := p.stepsizes q image compno
    precWidthExp := p.precinctExp p.prcwInit
    precHeightExp := p.precinctExp p.prchInit }

variable (image : CImage)

/-- The component transform. The standard one is left out for colour spaces that are transformed
already, and if the first three components differ in size. -/
def initMct : Nat :=
  let differ : Bool := match image.comps with
    | a :: b :: c :: _ => a.dx != b.dx || a.dx != c.dx || a.dy != b.dy || a.dy != c.dy
    | _ => false
  if p.mctData then 2
  else if p.mct = 1 ∧ (image.isYcc ∨ differ) then 0
  else p.mct.toNat

/-- The checks on the image. -/
def imageOk : Bool :=
  image.comps.length ≠ 0 && image.comps.length ≤ SIZMarker.maxNumComponentsJ2K &&
    image.x0 ≤ image.x1 && image.y0 ≤ image.y1 &&
    image.comps.all fun comp => comp.w ≠ 0 && comp.h ≠ 0 && comp.prec ≠ 0

def tileWidth : UInt32 :=
  if p.tileSizeOn then p.tWidth else image.x1 - p.tx0

def tileHeight : UInt32 :=
  if p.tileSizeOn then p.tHeight else image.y1 - p.ty0

/-- The checks on the tiles: there are some, and not too many. -/
def tilesOk : Bool :=
  !p.tileSizeOn ||
    (let tgw := ceildiv (image.x1 - p.tx0).toNat p.tWidth.toNat
     let tgh := ceildiv (image.y1 - p.ty0).toNat p.tHeight.toNat
     p.tWidth ≠ 0 && p.tHeight ≠ 0 && tgw * tgh ≤ SIZMarker.maxNumTilesJ2K &&
       u16 (u16 tgw * u16 tgh) ≠ 0)

/-- The loop that finds the number of resolutions that is useful for the tiles. -/
def maxRes (minTileDim : Nat) : Nat → Nat → Nat
  | 0, r => r
  | fuel + 1, r => if 2 ^ r ≤ minTileDim ∧ r < maxRlvls then maxRes minTileDim fuel (r + 1) else r

def clampResolutions : CParameters :=
  let limit := maxRes (min (p.tileWidth image).toNat (p.tileHeight image).toNat) maxRlvls 1
  if p.numresolution.toNat > limit then { p with numresolution := UInt8.ofNat limit } else p

def qfactorOk : Bool :=
  p.qfactor = 0 ||
    p.qfactor ≤ 100 && p.irreversible && (image.comps.length = 1 || image.comps.length = 3)

/-- The header fields of image and tiles. -/
def siz : Siz :=
  { rsiz := p.rsiz.toNat
    x1 := image.x1.toNat, y1 := image.y1.toNat, x0 := image.x0.toNat, y0 := image.y0.toNat
    tWidth := (p.tileWidth image).toNat, tHeight := (p.tileHeight image).toNat
    tx0 := p.tx0.toNat, ty0 := p.ty0.toNat
    comps := image.comps.map fun comp =>
      ⟨comp.prec.toNat, comp.sgnd, comp.dx.toNat, comp.dy.toNat⟩ }

def encoder (p : CParameters) (image : CImage) : Encoder :=
  { siz := p.siz image
    csty := p.csty.toNat
    prg := p.progOrder
    numLayers := p.numlayers.toNat
    mct := p.initMct image
    tccps := p.tccp q image }

/-- Rates are not for HT code blocks, and there is at least one layer. -/
def initLayers : CParameters :=
  if p.isHT then { p with numlayers := 1, rsiz := p.rsiz ||| 0x4000 }
  else if p.numlayers = 0 then { p with numlayers := 1 } else p

/-- `compressValidation` and `mct_validation`. -/
def startOk (e : Encoder) : Bool :=
  (e.tccps 0).numresolutions ≠ 0 && (e.tccps 0).numresolutions ≤ maxRlvls && e.siz.tWidth ≠ 0 &&
    e.siz.tHeight ≠ 0 && !(e.mct = 1 && e.siz.comps.length < 3) &&
    !(e.siz.rsiz &&& 0x8200 = 0x8200 && e.mct = 2 && (e.tccps 0).qmfbid = 1)

/-- What `doCompress` and `buildCompressDAG` refuse: a component transform of the caller. -/
def compressOk (e : Encoder) : Bool := e.mct ≠ 2

end CParameters

open CParameters in
/-- `CodeStreamCompress::init`, the validation at the start of `start`, and what the tile processors
refuse later. `profile` is what is done for the profile that is asked for. The checks on progression
order changes and on the matrix of a component transform are left out: they only reject
parameters. -/
def initCompress (q : Quantizers) (profile : CParameters → CImage → Option CParameters)
    (p : CParameters) (image : CImage) : Option Encoder :=
  if ¬imageOk image ∨ p.numresolution = 0 ∨ p.numresolution.toNat > maxRlvls then none
  else (profile p.initLayers image).bind fun p =>
    if ¬p.tilesOk image ∨ p.numgbits > 7 ∨ ¬p.qfactorOk image then none
    else
      let e := (p.clampResolutions image).encoder q image
      if startOk e && compressOk e then some e else none

/-- A step size that a segment can hold. Reversible ones have no mantissa. -/
structure Stepsize.Fits (s : Stepsize) (qntsty : Nat) : Prop where
  expn_lt : s.expn < 32
  mant_lt : s.mant < 2048
  mant_eq : qntsty = qntstyNoqnt → s.mant = 0

namespace Encoder

/-- What is known of the coding parameters that the compressor accepts. -/
structure Accepted (e : Encoder) : Prop where
  siz_fits : e.siz.Fits
  comps_ne : e.siz.comps ≠ []
  comps_le : e.siz.comps.length ≤ SIZMarker.maxNumComponentsJ2K
  comps : ∀ c ∈ e.siz.comps, 0 < c.prec ∧ c.dx < 256 ∧ c.dy < 256
  csty_lt : e.csty < 256
  numLayers_lt : e.numLayers < 2 ^ 16
  mct_lt : e.mct < 256
  same : ∀ i, e.tccps i = { e.tccps 0 with stepsizes := (e.tccps i).stepsizes }
  csty_eq : (e.tccps 0).csty = e.csty &&& 1
  numresolutions_pos : 0 < (e.tccps 0).numresolutions
  numresolutions_le : (e.tccps 0).numresolutions ≤ maxRlvls
  cblkw_lt : (e.tccps 0).cblkwExpn < 32
  cblkh_lt : (e.tccps 0).cblkhExpn < 32
  cblkStyle_lt : (e.tccps 0).cblkStyle < 256
  qmfbid_le : (e.tccps 0).qmfbid ≤ 1
  qntsty_or : (e.tccps 0).qntsty = qntstyNoqnt ∨ (e.tccps 0).qntsty = qntstySeqnt
  numgbits_le : (e.tccps 0).numgbits ≤ 7
  steps : ∀ i bandNo, ((e.tccps i).stepsizes bandNo).Fits (e.tccps 0).qntsty
  precincts : e.csty % 2 ≠ 1 → ∀ r,
    (e.tccps 0).precWidthExp r = 15 ∧ (e.tccps 0).precHeightExp r = 15

end Encoder

namespace CParameters

variable (q : Quantizers) (p : CParameters) (image : CImage)

theorem pull_fits (reversible : Bool) (spqcd : Nat) :
    (pull reversible spqcd).Fits (if reversible then qntstyNoqnt else qntstySeqnt) := by
  have h8 : u8 spqcd < 256 := mod_lt _ (by decide)
  have h16 : u16 spqcd < 65536 := mod_lt _ (by decide)
  cases reversible with
  | true =>
    refine ⟨?_, (by decide : 0 < 2048), fun _ => rfl⟩
    show u8 spqcd >>> 3 < 32
    rw [shiftRight_eq_div_pow]
    omega
  | false =>
    refine ⟨?_, ?_, fun h => nomatch h⟩
    · show u16 spqcd >>> 11 < 32
      rw [shiftRight_eq_div_pow]
      omega
    · show u16 spqcd &&& 0x7ff < 2048
      rw [show (0x7ff : Nat) = 2 ^ 11 - 1 from rfl, and_two_pow_sub_one_eq_mod]
      exact mod_lt _ (by decide)

theorem packStepsize_fits (step : Int × Nat) : (packStepsize step).Fits qntstySeqnt := by
  unfold packStepsize
  dsimp only
  refine ⟨?_, ?_, fun h => nomatch h⟩
  · split_ifs <;> dsimp only <;> omega
  · split_ifs <;> dsimp only <;> omega

theorem stepsizes_fits (hq : p.qfactorOk image = true) (compno bandno : Nat) :
    (p.stepsizes q image compno bandno).Fits
      (if p.irreversible then qntstySeqnt else qntstyNoqnt) := by
  unfold stepsizes
  dsimp only
  split
  · exact ⟨by decide, by decide, fun _ => rfl⟩
  · split
    · rename_i hqfactor
      have hirr : p.irreversible = true := by
        simp only [qfactorOk, Bool.or_eq_true, Bool.and_eq_true, decide_eq_true_eq] at hq
        exact (hq.resolve_left hqfactor).1.2
      rw [hirr]
      exact packStepsize_fits _
    · have hfits := pull_fits (!p.irreversible) (q.generate p.isHT (!p.irreversible)
        (p.numresolution.toNat - 1) (image.comps.getD 0 ⟨0, false, 0, 0, 0, 0⟩).prec.toNat
        (decide (p.mct > 0)) (image.comps.getD 0 ⟨0, false, 0, 0, 0, 0⟩).sgnd bandno)
      cases hirr : p.irreversible with
      | true =>
        rw [hirr] at hfits
        exact hfits
      | false =>
        rw [hirr] at hfits
        exact hfits

theorem floorlog2_lt (a : UInt32) : floorlog2 a.toNat < 32 := by
  by_cases h : a.toNat = 0
  · rw [h]
    decide
  · exact (log2_lt h).mpr a.toNat_lt

theorem initMct_lt : p.initMct image < 256 := by
  have hmct : ∀ c [Decidable c], (if c then 0 else p.mct.toNat) < 256 := by
    intro c _
    split
    · decide
    · exact p.mct.toNat_lt
  unfold initMct
  dsimp only
  split
  · decide
  · exact hmct _

theorem precinctExp_default (h : p.csty.toNat % 2 ≠ 1) (init : Nat → UInt32) (r : Nat) :
    p.precinctExp init r = 15 := by
  unfold precinctExp
  rw [if_neg]
  rintro ⟨hcsty, _⟩
  rw [show (1 : Nat) = 2 ^ 1 - 1 from rfl, and_two_pow_sub_one_eq_mod] at hcsty
  omega

theorem siz_fits : (p.siz image).Fits where
  rsiz := p.rsiz.toNat_lt
  x1 := image.x1.toNat_lt
  y1 := image.y1.toNat_lt
  x0 := image.x0.toNat_lt
  y0 := image.y0.toNat_lt
  tWidth := (p.tileWidth image).toNat_lt
  tHeight := (p.tileHeight image).toNat_lt
  tx0 := p.tx0.toNat_lt
  ty0 := p.ty0.toNat_lt

/-- The coding parameters, if the checks on the parameters and at the start are passed. -/
theorem encoder_accepted (himage : imageOk image = true) (hgbits : ¬p.numgbits > 7)
    (hq : p.qfactorOk image = true) (hstart : startOk (p.encoder q image) = true) :
    (p.encoder q image).Accepted := by
  simp only [imageOk, Bool.and_eq_true, decide_eq_true_eq, List.all_eq_true] at himage
  obtain ⟨⟨⟨⟨hne, hle⟩, _⟩, _⟩, hcomps⟩ := himage
  simp only [startOk, Bool.and_eq_true, decide_eq_true_eq] at hstart
  obtain ⟨⟨⟨⟨⟨hres, hmax⟩, _⟩, _⟩, _⟩, _⟩ := hstart
  refine
    { siz_fits := p.siz_fits image
      comps_ne := ?_
      comps_le := (List.length_map _).le.trans hle
      comps := ?_
      csty_lt := p.csty.toNat_lt
      numLayers_lt := p.numlayers.toNat_lt
      mct_lt := p.initMct_lt image
      same := fun _ => rfl
      csty_eq := rfl
      numresolutions_pos := Nat.pos_of_ne_zero hres
      numresolutions_le := hmax
      cblkw_lt := floorlog2_lt _
      cblkh_lt := floorlog2_lt _
      cblkStyle_lt := p.cblkSty.toNat_lt
      qmfbid_le := ?_
      qntsty_or := ?_
      numgbits_le := ?_
      steps := fun i bandNo => p.stepsizes_fits q image hq i bandNo
      precincts := fun h r => ⟨p.precinctExp_default h _ r, p.precinctExp_default h _ r⟩ }
  · intro hnil
    exact hne (List.length_eq_zero_iff.mpr (List.map_eq_nil_iff.mp hnil))
  · intro c hc
    obtain ⟨comp, hmem, rfl⟩ := List.mem_map.mp hc
    refine ⟨?_, comp.dx.toNat_lt, comp.dy.toNat_lt⟩
    apply Nat.pos_of_ne_zero
    intro hzero
    exact (hcomps comp hmem).2 (UInt8.toNat_inj.mp hzero)
  · show (if p.irreversible = true then 0 else 1) ≤ 1
    split <;> decide
  · show (if p.irreversible = true then qntstySeqnt else qntstyNoqnt) = qntstyNoqnt ∨
      (if p.irreversible = true then qntstySeqnt else qntstyNoqnt) = qntstySeqnt
    cases p.irreversible with
    | true => exact Or.inr rfl
    | false => exact Or.inl rfl
  · have hgbits' := UInt8.not_lt.mp hgbits
    exact UInt8.le_iff_toNat_le.mp hgbits'

end CParameters

variable {q : Quantizers} {profile : CParameters → CImage → Option CParameters} {p : CParameters}
  {image : CImage} {e : Encoder}

theorem initCompress_accepted (h : initCompress q profile p image = some e) : e.Accepted := by
  unfold initCompress at h
  split at h
  · exact nomatch h
  · rename_i himage
    obtain ⟨himage, _⟩ := not_or.mp himage
    obtain ⟨p', _, h⟩ := Option.bind_eq_some_iff.mp h
    split at h
    · exact nomatch h
    · rename_i hok
      obtain ⟨_, hgbits, hq⟩ : _ ∧ ¬p'.numgbits > 7 ∧ ¬¬p'.qfactorOk image = true := by
        simpa only [not_or] using hok
      dsimp only at h
      split at h
      · rename_i hstart
        cases h
        have hclamp : ∀ image, (p'.clampResolutions image).numgbits = p'.numgbits ∧
            (p'.clampResolutions image).qfactorOk image = p'.qfactorOk image := by
          intro image
          unfold CParameters.clampResolutions
          dsimp only
          split <;> exact ⟨rfl, rfl⟩
        obtain ⟨hgbits', hq'⟩ := hclamp image
        have hstart := (Bool.and_eq_true _ _ ▸ hstart).1
        apply CParameters.encoder_accepted q _ image (not_not.mp himage) _ _ hstart
        · rw [hgbits']
          exact hgbits
        · rw [hq']
          exact not_not.mp hq
      · exact nomatch h

end GrokCodec.Codestream
