import GrokCodec.Codestream.SIZMarker

/-!
Mercury's tile geometry next to the classic one. Mercury computes in 32 bits, where an overflow or
an oversized shift is a panic; the classic geometry computes the upper edges of tiles in 64 bits.
-/

namespace GrokCodec.Mercury.Geometry

open Codestream List SIZMarker Nat

/-- `u32` addition. -/
def add32 (a b : Nat) : Option Nat := if a + b < 2 ^ 32 then some (a + b) else none

/-- `u32` multiplication. -/
def mul32 (a b : Nat) : Option Nat := if a * b < 2 ^ 32 then some (a * b) else none

/-- `u32` subtraction. -/
def checkedSub32 (a b : Nat) : Option Nat := if b ≤ a then some (a - b) else none

/-- `1u32 << n`. -/
def shl32 (n : Nat) : Option Nat := if n < 32 then some (1 <<< n) else none

/-- `1u64 << n`. -/
def shl64 (n : Nat) : Option Nat := if n < 64 then some (1 <<< n) else none

structure SubbandGeom where
  bandType : Nat
  dims : Rect
  blocksWide : Nat
  blocksHigh : Nat
  deriving DecidableEq, Repr

structure ResolutionGeom where
  dims : Rect
  subbands : List SubbandGeom
  deriving DecidableEq, Repr

structure TileGeom where
  tileX0 : Nat
  tileY0 : Nat
  components : List (List ResolutionGeom)
  deriving DecidableEq, Repr

/-- What the geometry reads of COD. Block sizes are powers of two. -/
structure CodParams where
  numLevels : Nat
  blockWidth : Nat
  blockHeight : Nat

def tilesAcross (siz : Siz) : Option Nat :=
  if siz.tWidth = 0 then some 1
  else do
    let span ← checkedSub32 siz.x1 siz.tx0
    return span ⌈/⌉ siz.tWidth

/-- Number of blocks along one axis of a band. The grid is anchored at the origin. -/
def blocksAlong (lo hi block : Nat) : Nat := if hi > lo then hi ⌈/⌉ block - lo / block else 0

def subband (cod : CodParams) (bandType : Nat) (dims : Rect) : SubbandGeom :=
  ⟨bandType, dims, blocksAlong dims.x0 dims.x1 cod.blockWidth,
    blocksAlong dims.y0 dims.y1 cod.blockHeight⟩

/-- `make_subband`: `xb` and `yb` are 1 where the band is a high pass. -/
def makeSubband (cod : CodParams) (comp : Rect) (step denom xb yb bandType : Nat) : SubbandGeom :=
  let edge (c b : Nat) : Nat := u32 ((c - b * step) ⌈/⌉ denom)
  subband cod bandType ⟨edge comp.x0 xb, edge comp.y0 yb, edge comp.x1 xb, edge comp.y1 yb⟩

/-- Resolution `r` of a tile component. -/
def resolutionGeom (cod : CodParams) (comp : Rect) (r : Nat) : Option ResolutionGeom := do
  let nL := cod.numLevels - r
  let span ← shl32 nL
  let dims : Rect := ⟨comp.x0 ⌈/⌉ span, comp.y0 ⌈/⌉ span, comp.x1 ⌈/⌉ span, comp.y1 ⌈/⌉ span⟩
  if r = 0 then return ⟨dims, [subband cod 0 dims]⟩
  else
    let step ← shl64 nL
    let denom ← shl64 (nL + 1)
    return ⟨dims, [makeSubband cod comp step denom 1 0 1, makeSubband cod comp step denom 0 1 2,
      makeSubband cod comp step denom 1 1 3]⟩

def componentGeom (cod : CodParams) (tile : Rect) (comp : SizComponent) :
    Option (List ResolutionGeom) :=
  let dims : Rect := ⟨tile.x0 ⌈/⌉ comp.dx, tile.y0 ⌈/⌉ comp.dy, tile.x1 ⌈/⌉ comp.dx,
    tile.y1 ⌈/⌉ comp.dy⟩
  (List.range (cod.numLevels + 1)).mapM (resolutionGeom cod dims)

def chartTileGeom (siz : Siz) (cod : CodParams) (tileIdx : Nat) : Option TileGeom := do
  let ntx ← tilesAcross siz
  let tx := tileIdx % ntx
  let ty := tileIdx / ntx
  let tileX0 := max (← add32 siz.tx0 (← mul32 tx siz.tWidth)) siz.x0
  let tileY0 := max (← add32 siz.ty0 (← mul32 ty siz.tHeight)) siz.y0
  let tileX1 := min (← add32 siz.tx0 (← mul32 (tx + 1) siz.tWidth)) siz.x1
  let tileY1 := min (← add32 siz.ty0 (← mul32 (ty + 1) siz.tHeight)) siz.y1
  let components ← siz.comps.mapM (componentGeom cod ⟨tileX0, tileY0, tileX1, tileY1⟩)
  return ⟨tileX0, tileY0, components⟩

/-- `CodingParams::getTileBounds`. -/
def getTileBounds (siz : Siz) (tileX tileY : Nat) : Rect :=
  ⟨max (u32 (siz.tx0 + u32 (tileX * siz.tWidth))) siz.x0,
    max (u32 (siz.ty0 + u32 (tileY * siz.tHeight))) siz.y0,
    let temp := siz.tx0 + (tileX + 1) * siz.tWidth
    if temp > siz.x1 then siz.x1 else u32 temp,
    let temp := siz.ty0 + (tileY + 1) * siz.tHeight
    if temp > siz.y1 then siz.y1 else u32 temp⟩

/-- `ResSimple::bandCoordinate`. -/
def bandCoordinate (coordinate numDecomps high : Nat) : Nat :=
  if numDecomps = 0 then coordinate
  else
    let offset := u32 (u32 (1 <<< (numDecomps - 1)) * high)
    if coordinate ≤ offset then 0 else u32 (ceildivpow2 (coordinate - offset) numDecomps)

/-- `ResSimple::getBandWindow`. -/
def getBandWindow (numDecomps orientation : Nat) (tc : Rect) : Rect :=
  let highX := orientation &&& 1
  let highY := orientation >>> 1
  ⟨bandCoordinate tc.x0 numDecomps highX, bandCoordinate tc.y0 numDecomps highY,
    bandCoordinate tc.x1 numDecomps highX, bandCoordinate tc.y1 numDecomps highY⟩

/-- The rectangles of a resolution and of its bands. -/
abbrev ResolutionRects := Rect × List Rect

def classicResolution (numLevels : Nat) (tc : Rect) (r : Nat) : ResolutionRects :=
  (getBandWindow (numLevels - r) 0 tc,
    if r = 0 then [getBandWindow numLevels 0 tc]
    else [1, 2, 3].map fun orientation => getBandWindow (numLevels - r + 1) orientation tc)

/-- The classic geometry of a tile: resolutions and bands of each component. -/
def classicGeom (siz : Siz) (numLevels tileIdx : Nat) : List (List ResolutionRects) :=
  let width := tGridWidth siz
  let tile := getTileBounds siz (tileIdx % width) (tileIdx / width)
  siz.comps.map fun comp =>
    (List.range (numLevels + 1)).map
      (classicResolution numLevels (tile.scaleDownCeil comp.dx comp.dy))

def ResolutionGeom.rects (res : ResolutionGeom) : ResolutionRects :=
  (res.dims, res.subbands.map (·.dims))

def TileGeom.rects (geom : TileGeom) : List (List ResolutionRects) :=
  geom.components.map fun resolutions => resolutions.map ResolutionGeom.rects

section Lists

variable {α β γ : Type}

variable {f : α → Option β} {l : List α}

theorem map_mapM_of_forall {g : β → γ} {h : α → γ} (hl : ∀ a ∈ l, (f a).map g = some (h a)) :
    (l.mapM f).map (List.map g) = some (l.map h) := by
  induction l with
  | nil => rfl
  | cons a l ih =>
    obtain ⟨b, hb, hgb⟩ := Option.map_eq_some_iff.mp (hl a mem_cons_self)
    obtain ⟨bs, hbs, hgbs⟩ :=
      Option.map_eq_some_iff.mp (ih fun a ha => hl a (mem_cons_of_mem _ ha))
    rw [mapM_cons, hb, hbs, map_cons, ← hgb, ← hgbs]
    rfl

theorem mapM_none_of_mem {a : α} (ha : a ∈ l) (h : f a = none) : l.mapM f = none := by
  induction l with
  | nil => exact nomatch ha
  | cons b l ih =>
    rw [mapM_cons]
    rcases mem_cons.mp ha with rfl | ha
    · rw [h]
      rfl
    · rw [ih ha]
      cases f b <;> rfl

end Lists

section Bands

variable {c n : Nat}

theorem bandCoordinate_low (hc : c < 2 ^ 32) : bandCoordinate c n 0 = c ⌈/⌉ 2 ^ n := by
  have hlt := (ceilDiv_le_self (Nat.two_pow_pos n)).trans_lt hc
  unfold bandCoordinate
  by_cases hn : n = 0
  · subst hn
    rw [if_pos rfl, Nat.pow_zero, ceilDiv_one]
  · rw [if_neg hn, Nat.mul_zero]
    show (if c ≤ 0 then 0 else u32 (ceildivpow2 (c - 0) n)) = _
    by_cases hzero : c ≤ 0
    · rw [if_pos hzero, Nat.le_zero.mp hzero, zero_ceilDiv]
    · rw [if_neg hzero, Nat.sub_zero, ceildivpow2_eq, u32_of_lt hlt]

theorem bandCoordinate_succ {b : Nat} (hn : n < 32) (hb : b ≤ 1) :
    bandCoordinate c (n + 1) b = u32 ((c - b * 1 <<< n) ⌈/⌉ (1 <<< (n + 1))) := by
  have hpow : 2 ^ n < 2 ^ 32 := Nat.pow_lt_pow_right (by decide) hn
  have hoffset : u32 (u32 (1 <<< n) * b) = b * 2 ^ n := by
    have hle : 2 ^ n * b ≤ 2 ^ n * 1 := mul_le_mul_left _ hb
    rw [one_shiftLeft, u32_of_lt hpow, u32_of_lt (by omega), Nat.mul_comm]
  unfold bandCoordinate
  rw [if_neg (succ_ne_zero n), Nat.add_sub_cancel, hoffset, one_shiftLeft,
    one_shiftLeft]
  by_cases hle : c ≤ b * 2 ^ n
  · simp only [if_pos hle, Nat.sub_eq_zero_of_le hle, zero_ceilDiv]
    rfl
  · simp only [if_neg hle, ceildivpow2_eq]

end Bands

section Resolutions

variable {cod : CodParams} {comp : Rect}

/-- All coordinates are 32-bit numbers. -/
def Fits32 (r : Rect) : Prop := r.x0 < 2 ^ 32 ∧ r.y0 < 2 ^ 32 ∧ r.x1 < 2 ^ 32 ∧ r.y1 < 2 ^ 32

theorem dims_makeSubband (cod : CodParams) (comp : Rect) {n b xb yb : Nat} (hn : n < 32)
    (hxb : xb ≤ 1) (hyb : yb ≤ 1) (hb : b &&& 1 = xb ∧ b >>> 1 = yb) (bandType : Nat) :
    (makeSubband cod comp (1 <<< n) (1 <<< (n + 1)) xb yb bandType).dims =
      getBandWindow (n + 1) b comp := by
  simp only [makeSubband, subband, getBandWindow, hb.1, hb.2, bandCoordinate_succ hn hxb,
    bandCoordinate_succ hn hyb]

/-- **A resolution that is shifted by less than 32 has the classic rectangles.** -/
theorem resolutionGeom_rects (h : Fits32 comp) {r : Nat} (hlevels : cod.numLevels - r < 32) :
    (resolutionGeom cod comp r).map ResolutionGeom.rects =
      some (classicResolution cod.numLevels comp r) := by
  have hdims : (⟨comp.x0 ⌈/⌉ (1 <<< (cod.numLevels - r)), comp.y0 ⌈/⌉ (1 <<< (cod.numLevels - r)),
      comp.x1 ⌈/⌉ (1 <<< (cod.numLevels - r)), comp.y1 ⌈/⌉ (1 <<< (cod.numLevels - r))⟩ : Rect) =
      getBandWindow (cod.numLevels - r) 0 comp := by
    obtain ⟨hx0, hy0, hx1, hy1⟩ := h
    simp only [getBandWindow, one_shiftLeft, zero_and, zero_shiftRight,
      bandCoordinate_low hx0, bandCoordinate_low hy0, bandCoordinate_low hx1,
      bandCoordinate_low hy1]
  have hspan : shl32 (cod.numLevels - r) = some (1 <<< (cod.numLevels - r)) := if_pos hlevels
  unfold resolutionGeom
  by_cases hzero : r = 0
  · subst hzero
    rw [Nat.sub_zero] at hspan hdims
    simp only [hspan, Option.bind_eq_bind, Option.bind_some, if_pos, pure, Option.map_some,
      ResolutionGeom.rects, hdims, classicResolution, map_cons, map_nil, subband,
      Nat.sub_zero]
  · have hhl := dims_makeSubband cod comp hlevels (by decide) (by decide)
      (show 1 &&& 1 = 1 ∧ 1 >>> 1 = 0 by decide) 1
    have hlh := dims_makeSubband cod comp hlevels (by decide) (by decide)
      (show 2 &&& 1 = 0 ∧ 2 >>> 1 = 1 by decide) 2
    have hhh := dims_makeSubband cod comp hlevels (by decide) (by decide)
      (show 3 &&& 1 = 1 ∧ 3 >>> 1 = 1 by decide) 3
    have hstep : shl64 (cod.numLevels - r) = some (1 <<< (cod.numLevels - r)) :=
      if_pos (by omega)
    have hdenom : shl64 (cod.numLevels - r + 1) = some (1 <<< (cod.numLevels - r + 1)) :=
      if_pos (by omega)
    simp [hspan, hstep, hdenom, if_neg hzero, pure, ResolutionGeom.rects, hdims, classicResolution,
      hhl, hlh, hhh]

variable {tile : Rect}

/-- **The resolutions of a component, if no shift is oversized.** -/
theorem componentGeom_rects (h : Fits32 tile) {comp : SizComponent} (hdx : 0 < comp.dx)
    (hdy : 0 < comp.dy) (hlevels : cod.numLevels < 32) :
    (componentGeom cod tile comp).map (List.map ResolutionGeom.rects) =
      some ((List.range (cod.numLevels + 1)).map
        (classicResolution cod.numLevels (tile.scaleDownCeil comp.dx comp.dy))) := by
  obtain ⟨hx0, hy0, hx1, hy1⟩ := h
  have hdims : (⟨tile.x0 ⌈/⌉ comp.dx, tile.y0 ⌈/⌉ comp.dy, tile.x1 ⌈/⌉ comp.dx,
      tile.y1 ⌈/⌉ comp.dy⟩ : Rect) = tile.scaleDownCeil comp.dx comp.dy := by
    rw [Rect.scaleDownCeil, ceildiv_eq hdx hx0, ceildiv_eq hdy hy0, ceildiv_eq hdx hx1,
      ceildiv_eq hdy hy1]
  have hfits : Fits32 (tile.scaleDownCeil comp.dx comp.dy) :=
    ⟨u32_lt _, u32_lt _, u32_lt _, u32_lt _⟩
  rw [componentGeom, hdims]
  apply map_mapM_of_forall
  intro r _
  exact resolutionGeom_rects hfits (by omega)

theorem componentGeom_none {comp : SizComponent} (hlevels : 32 ≤ cod.numLevels) :
    componentGeom cod tile comp = none := by
  apply mapM_none_of_mem (mem_range.mpr (succ_pos _))
  have hspan : shl32 (cod.numLevels - 0) = none := if_neg (by omega)
  simp only [resolutionGeom, hspan]
  rfl

end Resolutions

section Tile

variable {siz : Siz} {reduce tileIdx : Nat}

/-- What the geometry needs of an accepted segment. -/
structure Accepted (siz : Siz) : Prop where
  fits : siz.Fits
  comps_ne : siz.comps ≠ []
  x0_lt : siz.x0 < siz.x1
  y0_lt : siz.y0 < siz.y1
  tWidth_pos : 0 < siz.tWidth
  tHeight_pos : 0 < siz.tHeight
  tx0_le : siz.tx0 ≤ siz.x0
  ty0_le : siz.ty0 ≤ siz.y0
  comps : ∀ comp ∈ siz.comps, 0 < comp.dx ∧ 0 < comp.dy

theorem accepted_of_read {headerData : List Nat} (hbytes : ∀ b ∈ headerData, b < 256)
    (h : read reduce headerData = some siz) : Accepted siz := by
  obtain ⟨hfits, hne, hok⟩ := read_some hbytes h
  simp only [fieldsOk, gridOk, Bool.and_eq_true, decide_eq_true_eq,
    all_eq_true, componentOk] at hok
  obtain ⟨⟨⟨⟨-, hgrid⟩, hcomps⟩, -⟩, -⟩ := hok
  obtain ⟨⟨⟨⟨⟨⟨⟨⟨hx, hy⟩, hw⟩, hh⟩, -⟩, htx⟩, hty⟩, -⟩, -⟩ := hgrid
  exact ⟨hfits, hne, hx, hy, Nat.pos_of_ne_zero hw, Nat.pos_of_ne_zero hh, htx, hty, fun comp hcomp =>
    ⟨Nat.pos_of_ne_zero (hcomps comp hcomp).1.1, Nat.pos_of_ne_zero (hcomps comp hcomp).1.2⟩⟩

/-- The upper edges of the tile are 32-bit numbers before they are clipped. -/
def EdgesFit (siz : Siz) (tileIdx : Nat) : Prop :=
  let width := tGridWidth siz
  siz.tx0 + (tileIdx % width + 1) * siz.tWidth < 2 ^ 32 ∧
    siz.ty0 + (tileIdx / width + 1) * siz.tHeight < 2 ^ 32

theorem bind_edge {α : Type} (o t w : Nat) (k : Nat → Option α) :
    ((mul32 t w).bind fun p => (add32 o p).bind k) =
      if o + t * w < 2 ^ 32 then k (o + t * w) else none := by
  unfold mul32 add32
  by_cases hsum : o + t * w < 2 ^ 32
  · rw [if_pos (by omega), if_pos hsum, Option.bind_some, if_pos hsum]
    rfl
  · rw [if_neg hsum]
    split
    · rw [Option.bind_some, if_neg hsum]
      rfl
    · rfl

theorem tile_start_lt {o t w hi : Nat} (hw : 0 < w) (ht : t < (hi - o) ⌈/⌉ w) : o + t * w < hi := by
  rw [lt_ceilDiv_iff hw, Nat.mul_comm] at ht
  omega

theorem tGridWidth_eq (h : Accepted siz) :
    tGridWidth siz = (siz.x1 - siz.tx0) ⌈/⌉ siz.tWidth :=
  ceildiv_eq h.tWidth_pos (by have := h.fits.x1; omega)

theorem tGridHeight_eq (h : Accepted siz) :
    tGridHeight siz = (siz.y1 - siz.ty0) ⌈/⌉ siz.tHeight :=
  ceildiv_eq h.tHeight_pos (by have := h.fits.y1; omega)

theorem lower_edge {o t w : Nat} (hfit : o + t * w < 2 ^ 32) :
    u32 (o + u32 (t * w)) = o + t * w := by
  rw [u32_of_lt (by omega : t * w < 2 ^ 32), u32_of_lt hfit]

theorem upper_edge {temp hi : Nat} (hfit : temp < 2 ^ 32) :
    (if temp > hi then hi else u32 temp) = min temp hi := by
  rw [u32_of_lt hfit]
  split <;> omega

/-- **The tile is charted from the classic bounds, or an upper edge overflows.** -/
theorem chartTileGeom_eq (h : Accepted siz) (cod : CodParams)
    (htile : tileIdx < tGridWidth siz * tGridHeight siz) :
    let width := tGridWidth siz
    let tile := getTileBounds siz (tileIdx % width) (tileIdx / width)
    (EdgesFit siz tileIdx → chartTileGeom siz cod tileIdx =
      (siz.comps.mapM (componentGeom cod tile)).map (TileGeom.mk tile.x0 tile.y0)) ∧
    (¬ EdgesFit siz tileIdx → chartTileGeom siz cod tileIdx = none) := by
  intro width tile
  have hwidth : 0 < width := Nat.pos_of_ne_zero fun hzero => by
    rw [show tGridWidth siz = 0 from hzero, Nat.zero_mul] at htile
    omega
  have htx : siz.tx0 + tileIdx % width * siz.tWidth < siz.x1 := by
    apply tile_start_lt h.tWidth_pos
    rw [← tGridWidth_eq h]
    exact mod_lt _ hwidth
  have hty : siz.ty0 + tileIdx / width * siz.tHeight < siz.y1 := by
    apply tile_start_lt h.tHeight_pos
    rw [← tGridHeight_eq h]
    exact Nat.div_lt_of_lt_mul htile
  have hx1 := h.fits.x1
  have hy1 := h.fits.y1
  have hacross : tilesAcross siz = some width := by
    rw [tilesAcross, if_neg (Nat.pos_iff_ne_zero.mp h.tWidth_pos), checkedSub32, if_pos (by omega)]
    exact congrArg some (tGridWidth_eq h).symm
  have hchart : chartTileGeom siz cod tileIdx =
      if siz.tx0 + (tileIdx % width + 1) * siz.tWidth < 2 ^ 32 then
        if siz.ty0 + (tileIdx / width + 1) * siz.tHeight < 2 ^ 32 then
          (siz.comps.mapM (componentGeom cod
            ⟨max (siz.tx0 + tileIdx % width * siz.tWidth) siz.x0,
              max (siz.ty0 + tileIdx / width * siz.tHeight) siz.y0,
              min (siz.tx0 + (tileIdx % width + 1) * siz.tWidth) siz.x1,
              min (siz.ty0 + (tileIdx / width + 1) * siz.tHeight) siz.y1⟩)).map
            (TileGeom.mk (max (siz.tx0 + tileIdx % width * siz.tWidth) siz.x0)
              (max (siz.ty0 + tileIdx / width * siz.tHeight) siz.y0))
        else none
      else none := by
    unfold chartTileGeom
    simp only [hacross, Option.bind_eq_bind, Option.bind_some, bind_edge]
    rw [if_pos (htx.trans hx1), if_pos (hty.trans hy1)]
    split
    · split
      · cases List.mapM (m := Option) _ siz.comps <;> rfl
      · rfl
    · rfl
  refine ⟨?_, ?_⟩
  · intro hfit
    have htile : tile = ⟨max (siz.tx0 + tileIdx % width * siz.tWidth) siz.x0,
        max (siz.ty0 + tileIdx / width * siz.tHeight) siz.y0,
        min (siz.tx0 + (tileIdx % width + 1) * siz.tWidth) siz.x1,
        min (siz.ty0 + (tileIdx / width + 1) * siz.tHeight) siz.y1⟩ := by
      have hx : siz.tx0 + (tileIdx % width + 1) * siz.tWidth < 2 ^ 32 := hfit.1
      have hy : siz.ty0 + (tileIdx / width + 1) * siz.tHeight < 2 ^ 32 := hfit.2
      show getTileBounds siz _ _ = _
      simp only [getTileBounds, upper_edge hx, upper_edge hy, lower_edge (htx.trans hx1),
        lower_edge (hty.trans hy1)]
    rw [hchart, if_pos hfit.1, if_pos hfit.2, htile]
  · intro hfit
    rw [hchart]
    split
    next hx =>
      rw [if_neg]
      exact fun hy => hfit ⟨hx, hy⟩
    next => rfl

end Tile

/-- **Mercury's geometry of a tile is the classic one, unless an upper edge of the tile overflows
or there are 32 levels.** -/
theorem chartTileGeom_classic_iff {siz : Siz} {reduce : Nat} {headerData : List Nat}
    (hbytes : ∀ b ∈ headerData, b < 256) (hread : read reduce headerData = some siz)
    {tileIdx : Nat} (htile : tileIdx < tGridWidth siz * tGridHeight siz)
    (cod : CodParams) (hlevels : cod.numLevels ≤ 32) :
    (chartTileGeom siz cod tileIdx).map TileGeom.rects =
        some (classicGeom siz cod.numLevels tileIdx) ↔
      EdgesFit siz tileIdx ∧ cod.numLevels ≤ 31 := by
  have h := accepted_of_read hbytes hread
  obtain ⟨hfit, hnofit⟩ := chartTileGeom_eq h cod htile
  constructor
  · intro heq
    by_cases hedges : EdgesFit siz tileIdx
    · refine ⟨hedges, ?_⟩
      by_contra hmany
      obtain ⟨comp, hcomp⟩ := exists_mem_of_ne_nil _ h.comps_ne
      rw [hfit hedges, mapM_none_of_mem hcomp (componentGeom_none (by omega))] at heq
      exact nomatch heq
    · rw [hnofit hedges] at heq
      exact nomatch heq
  · rintro ⟨hedges, hfew⟩
    have hbounds : Fits32 (getTileBounds siz (tileIdx % tGridWidth siz)
        (tileIdx / tGridWidth siz)) := by
      have hx0 := h.fits.x0
      have hy0 := h.fits.y0
      have hx1 := h.fits.x1
      have hy1 := h.fits.y1
      refine ⟨max_lt (u32_lt _) hx0, max_lt (u32_lt _) hy0, ?_, ?_⟩
      · show (if _ then siz.x1 else u32 _) < _
        split
        · exact hx1
        · exact u32_lt _
      · show (if _ then siz.y1 else u32 _) < _
        split
        · exact hy1
        · exact u32_lt _
    rw [hfit hedges, Option.map_map]
    exact map_mapM_of_forall fun comp hcomp =>
      componentGeom_rects hbounds (h.comps comp hcomp).1 (h.comps comp hcomp).2 (by omega)

/-- One component of `2 ^ 32 - 1` by 2 samples, in tiles of `width` by 2 samples. -/
def wideSegment (width : Nat) : List Nat :=
  write ⟨0, 2 ^ 32 - 1, 2, 0, 0, width, 2, 0, 0, [⟨8, false, 1, 1⟩]⟩

def blocks64 (numLevels : Nat) : CodParams := ⟨numLevels, 64, 64⟩

/-- The fourth of five tiles. -/
theorem chartTileGeom_classic_iff_four :
    ∃ siz, read 0 (wideSegment (2 ^ 30 - 1)) = some siz ∧
      (chartTileGeom siz (blocks64 2) 3).map TileGeom.rects = some (classicGeom siz 2 3) := by
  have hread : read 0 (wideSegment (2 ^ 30 - 1)) =
      some ⟨0, 2 ^ 32 - 1, 2, 0, 0, 2 ^ 30 - 1, 2, 0, 0, [⟨8, false, 1, 1⟩]⟩ := by decide +kernel
  have hbytes : ∀ b ∈ wideSegment (2 ^ 30 - 1), b < 256 := by decide +kernel
  refine ⟨_, hread, ?_⟩
  apply (chartTileGeom_classic_iff hbytes hread (by decide +kernel) (blocks64 2) (by decide)).mpr
  exact ⟨⟨by decide +kernel, by decide +kernel⟩, by decide⟩

/-- The second of two tiles ends at `2 ^ 32`, and clipping it to the image comes too late. -/
theorem chartTileGeom_overflows :
    ∃ siz, read 0 (wideSegment (2 ^ 31)) = some siz ∧
      1 < tGridWidth siz * tGridHeight siz ∧
      chartTileGeom siz (blocks64 0) 1 = none ∧
      classicGeom siz 0 1 = [[(⟨2 ^ 31, 0, 2 ^ 32 - 1, 2⟩, [⟨2 ^ 31, 0, 2 ^ 32 - 1, 2⟩])]] := by
  refine ⟨⟨0, 2 ^ 32 - 1, 2, 0, 0, 2 ^ 31, 2, 0, 0, [⟨8, false, 1, 1⟩]⟩, ?_, ?_, ?_, ?_⟩ <;>
    decide +kernel

end GrokCodec.Mercury.Geometry
