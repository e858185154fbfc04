import GrokCodec.PacketIter.LayerWalk
import Mathlib.GroupTheory.GroupAction.Ring

/-!
Mercury's packet schedule. `comb_tile` lists the packets of a tile with a sort key for its
progression order and sorts the list; nothing is walked. Precincts smaller than a code-block are
refused before that.
-/

namespace GrokCodec.Mercury

open PacketIter Ordered Resumable List Nat

inductive ProgressionOrder where
  | lrcp
  | rlcp
  | rpcl
  | pcrl
  | cprl
  deriving DecidableEq, Repr

/-- What the schedule reads of the coding style. -/
structure CodParams where
  order : ProgressionOrder
  numLayers : Nat
  numLevels : Nat
  precinctWidth : Nat → Nat
  precinctHeight : Nat → Nat

/-- What the schedule reads of the tile geometry: `components c r` is the rectangle of resolution
`r` of component `c`. -/
structure TileGeom where
  tileX0 : Nat
  tileY0 : Nat
  numComps : Nat
  components : Nat → Nat → Rect

/-- One axis of the SIZ parameters: the image area, and the size and offset of its tiles. The ranges
are those the SIZ reader lets through. -/
structure SizAxis where
  siz : Nat
  oSiz : Nat
  tSiz : Nat
  tOSiz : Nat
  siz_le : siz ≤ uintMax
  tSiz_range : 1 ≤ tSiz ∧ tSiz ≤ uintMax
  oSiz_lt : oSiz < siz
  tOSiz_le : tOSiz ≤ oSiz

structure SizParams where
  x : SizAxis
  y : SizAxis

/-- `tiles_across` and `tiles_down`. -/
def SizAxis.tiles (a : SizAxis) : Nat := (a.siz - a.tOSiz) ⌈/⌉ a.tSiz

/-- The edges of tile `t` along an axis in `chart_tile_geom`, in 32-bit arithmetic. -/
def SizAxis.edges (a : SizAxis) (t : Nat) : Nat × Nat :=
  (max (u32 (a.tOSiz + u32 (t * a.tSiz))) a.oSiz,
    min (u32 (a.tOSiz + u32 ((t + 1) * a.tSiz))) a.siz)

/-- The edges in `CodingParams::getTileBounds`, where the upper one is computed in 64 bits. -/
def SizAxis.classicEdges (a : SizAxis) (t : Nat) : Nat × Nat :=
  (max (u32 (a.tOSiz + u32 (t * a.tSiz))) a.oSiz, min (a.tOSiz + (t + 1) * a.tSiz) a.siz)

namespace SizParams

variable (siz : SizParams)

def numTiles : Nat := siz.x.tiles * siz.y.tiles

/-- The tile's bounds in `chart_tile_geom`. -/
def tileBounds (tileIdx : Nat) : Rect :=
  let ex := siz.x.edges (tileIdx % siz.x.tiles)
  let ey := siz.y.edges (tileIdx / siz.x.tiles)
  ⟨ex.1, ey.1, ex.2, ey.2⟩

def getTileBounds (tileIdx : Nat) : Rect :=
  let ex := siz.x.classicEdges (tileIdx % siz.x.tiles)
  let ey := siz.y.classicEdges (tileIdx / siz.x.tiles)
  ⟨ex.1, ey.1, ex.2, ey.2⟩

end SizParams

/-- The resolutions of a tile with given bounds, for components that are not subsampled. The
divisor is a 32-bit shift, whose count is taken modulo 32. -/
def geomOfBounds (bounds : Rect) (numComps numLevels : Nat) : TileGeom where
  tileX0 := bounds.x0
  tileY0 := bounds.y0
  numComps
  components _ r :=
    let step := 2 ^ ((numLevels - r) % 32)
    ⟨bounds.x0 ⌈/⌉ step, bounds.y0 ⌈/⌉ step, bounds.x1 ⌈/⌉ step, bounds.y1 ⌈/⌉ step⟩

def chartTileGeom (siz : SizParams) (numComps numLevels tileIdx : Nat) : TileGeom :=
  geomOfBounds (siz.tileBounds tileIdx) numComps numLevels

/-- One axis of a precinct grid: first index and count. -/
def gridAxis (lo hi span : Nat) : Nat × Nat := (lo / span, (hi - 1) / span - lo / span + 1)

/-- The precinct grid of a resolution: `(px0, npx)` and `(py0, npy)`. -/
def grid (cod : CodParams) (dims : Rect) (r : Nat) : (Nat × Nat) × (Nat × Nat) :=
  if dims.x1 ≤ dims.x0 ∨ dims.y1 ≤ dims.y0 then ((0, 0), (0, 0))
  else
    (gridAxis dims.x0 dims.x1 (cod.precinctWidth r),
      gridAxis dims.y0 dims.y1 (cod.precinctHeight r))

def precPosition (index firstIndex precSpan resOrigin tileOrigin projection : Nat) : Nat :=
  if index = firstIndex ∧ resOrigin % precSpan ≠ 0 then tileOrigin
  else index * precSpan * projection

/-- The loop variables of the schedule. -/
structure Slot where
  c : Nat
  r : Nat
  py : Nat
  px : Nat
  l : Nat
  deriving DecidableEq, Repr

section Schedule

variable (cod : CodParams) (geom : TileGeom)

def slots : List Slot :=
  (List.range geom.numComps).flatMap fun c =>
    (List.range (cod.numLevels + 1)).flatMap fun r =>
      let g := grid cod (geom.components c r) r
      (List.range' g.2.1 g.2.2).flatMap fun py =>
        (List.range' g.1.1 g.1.2).flatMap fun px =>
          (List.range cod.numLayers).map fun l => ⟨c, r, py, px, l⟩

/-- The sort key of a packet. -/
def key (s : Slot) : List Nat :=
  let dims := geom.components s.c s.r
  let g := grid cod dims s.r
  let scale := 2 ^ (cod.numLevels - s.r)
  let ypos := precPosition s.py g.2.1 (cod.precinctHeight s.r) dims.y0 geom.tileY0 scale
  let xpos := precPosition s.px g.1.1 (cod.precinctWidth s.r) dims.x0 geom.tileX0 scale
  match cod.order with
  | .lrcp => [s.l, s.r, s.c, s.py, s.px]
  | .rlcp => [s.r, s.l, s.c, s.py, s.px]
  | .rpcl => [s.r, ypos, xpos, s.c, s.l]
  | .pcrl => [ypos, xpos, s.c, s.r, s.l]
  | .cprl => [s.c, ypos, xpos, s.r, s.l]

/-- The packet of a slot; its raster index is a 32-bit number. -/
def packet (s : Slot) : Packet :=
  let g := grid cod (geom.components s.c s.r) s.r
  ⟨s.c, s.r, u32 ((s.py - g.2.1) * g.1.2 + (s.px - g.1.1)), s.l⟩

/-- The packets of a tile in progression order. -/
def schedule : List Packet :=
  ((slots cod geom).mergeSort fun a b => decide (key cod geom a ≤ key cod geom b)).map
    (packet cod geom)

/-- A precinct of the resolution, as its bands cut it, is smaller than a code-block. -/
def tooSmall (blockW blockH r : Nat) : Bool :=
  let scale := if r = 0 then 1 else 2
  cod.precinctWidth r / scale < blockW || cod.precinctHeight r / scale < blockH

/-- `comb_tile` up to the schedule. -/
def combTile (blockW blockH : Nat) : Except String (List Packet) :=
  match (List.range (cod.numLevels + 1)).find? (tooSmall cod blockW blockH) with
  | some r =>
    let width := cod.precinctWidth r
    let height := cod.precinctHeight r
    .error (s!"plan: res {r} precinct {width}x{height} smaller than code-block {blockW}x{blockH} " ++
      "(effective block clamping not wired)")
  | none => .ok (schedule cod geom)

theorem combTile_eq_ok_iff {blockW blockH : Nat} {ps : List Packet} :
    combTile cod geom blockW blockH = .ok ps ↔
      (∀ r ≤ cod.numLevels, tooSmall cod blockW blockH r = false) ∧ schedule cod geom = ps := by
  unfold combTile
  cases hfind : (List.range (cod.numLevels + 1)).find? (tooSmall cod blockW blockH) with
  | some r =>
    have hr := mem_range.mp (mem_of_find?_eq_some hfind)
    have hsmall := find?_some hfind
    simp only [reduceCtorEq, false_iff]
    rintro ⟨hfit, -⟩
    rw [hfit r (by omega)] at hsmall
    cases hsmall
  | none =>
    simp only [find?_eq_none, mem_range, Nat.lt_succ_iff, Bool.not_eq_true] at hfind
    rw [Except.ok.injEq, and_iff_right hfind]

theorem mem_schedule {p : Packet} :
    p ∈ schedule cod geom ↔ ∃ s ∈ slots cod geom, packet cod geom s = p := by
  rw [schedule, mem_map]
  simp

theorem mem_slots {s : Slot} : s ∈ slots cod geom ↔ s.c < geom.numComps ∧ s.r < cod.numLevels + 1 ∧
    (∃ j < (grid cod (geom.components s.c s.r) s.r).2.2,
      s.py = (grid cod (geom.components s.c s.r) s.r).2.1 + j) ∧
    (∃ i < (grid cod (geom.components s.c s.r) s.r).1.2,
      s.px = (grid cod (geom.components s.c s.r) s.r).1.1 + i) ∧ s.l < cod.numLayers := by
  simp only [slots, mem_flatMap, mem_map, mem_range, mem_range'_1]
  constructor
  · rintro ⟨c, hc, r, hr, py, ⟨hy0, hy1⟩, px, ⟨hx0, hx1⟩, l, hl, rfl⟩
    obtain ⟨j, hj⟩ := Nat.exists_eq_add_of_le hy0
    obtain ⟨i, hi⟩ := Nat.exists_eq_add_of_le hx0
    refine ⟨hc, hr, ⟨j, ?_, hj⟩, ⟨i, ?_, hi⟩, hl⟩
    · show j < (grid cod (geom.components c r) r).2.2
      omega
    · show i < (grid cod (geom.components c r) r).1.2
      omega
  · rintro ⟨hc, hr, ⟨j, hj, hpy⟩, ⟨i, hi, hpx⟩, hl⟩
    exact ⟨_, hc, _, hr, _, ⟨by omega, by omega⟩, _, ⟨by omega, by omega⟩, _, hl, rfl⟩

theorem nodup_slots : (slots cod geom).Nodup := by
  have hsorted : KeySorted (fun s : Slot => [s.c, s.r, s.py, s.px, s.l]) (slots cod geom) := by
    exact SortedUnder.sorted (.flatMap pairwise_lt_range fun _ _ => .flatMap pairwise_lt_range
      fun _ _ => .flatMap pairwise_lt_range' fun _ _ => .flatMap pairwise_lt_range' fun _ _ =>
        .map pairwise_lt_range fun _ => rfl)
  exact hsorted.nodup

end Schedule

theorem precPosition_eq {a : Axis} {k : Nat} :
    precPosition (a.grid0 + k) a.grid0 (2 ^ a.precExp) a.res0 a.t0 a.dPRJ = a.corner k := by
  have hstride : (a.grid0 + k) * 2 ^ a.precExp * a.dPRJ = (a.grid0 + k) * a.stride := by
    rw [Axis.stride, Nat.mul_assoc, Nat.mul_comm a.dPRJ]
  have hmul : a.dPRJ * (2 ^ a.precExp * a.grid0) = a.grid0 * a.stride := by
    rw [Axis.stride]
    ring
  unfold precPosition
  rw [hstride]
  rcases Nat.eq_zero_or_pos k with rfl | hk
  · split
    case isTrue h =>
      -- the tile's own edge cuts the first precinct
      have hlt : 2 ^ a.precExp * a.grid0 < a.res0 := by
        refine lt_of_le_of_ne (mul_div_le _ _) fun heq => h.2 ?_
        rw [← heq, mul_mod_right]
      have := Axis.lt_res0_iff.mp hlt
      rw [hmul] at this
      exact (max_eq_left this.le).symm
    case isFalse h =>
      have haligned : 2 ^ a.precExp ∣ a.res0 := by
        by_contra hnot
        exact h ⟨rfl, fun hmod => hnot (dvd_of_mod_eq_zero hmod)⟩
      have heq : 2 ^ a.precExp * a.grid0 = a.res0 := Nat.mul_div_cancel' haligned
      have hle : a.t0 ≤ a.dPRJ * a.res0 := Axis.res0_le_iff.mp le_rfl
      rw [← heq, hmul] at hle
      exact (max_eq_right hle).symm
  · rw [if_neg (fun h => by omega), Axis.corner_of_pos hk]

theorem gridAxis_eq {a : Axis} (h : a.res0 < a.res1) :
    gridAxis a.res0 a.res1 (2 ^ a.precExp) = (a.grid0, a.count) := by
  have hpow := Nat.two_pow_pos a.precExp
  have hlast : a.grid1 = (a.res1 - 1) / 2 ^ a.precExp + 1 := by
    have hsplit : a.res1 + 2 ^ a.precExp - 1 = a.res1 - 1 + 2 ^ a.precExp := by omega
    rw [Axis.grid1, ceilDiv_eq_add_pred_div, hsplit, add_div_right _ hpow]
  have hlt := Axis.grid0_lt_grid1 h
  rw [gridAxis, Axis.count, if_pos h, hlast]
  have : a.res0 / 2 ^ a.precExp = a.grid0 := rfl
  rw [this]
  congr 1
  omega

/-- The tile's coding style as it is handed to mercury. -/
def codParams (T : Tile) (order : ProgressionOrder) : CodParams where
  order
  numLayers := T.numLayers
  numLevels := (T.comps 0).numresolutions - 1
  precinctWidth r := 2 ^ (T.comps 0).precWidthExp r
  precinctHeight r := 2 ^ (T.comps 0).precHeightExp r

/-- The geometry of a tile whose bounds mercury has right. -/
def tileGeom (T : Tile) : TileGeom :=
  geomOfBounds T.bounds T.numcomps ((T.comps 0).numresolutions - 1)

/-- Components without subsampling that share a Part 1 coding style. -/
def Alike (T : Tile) : Prop :=
  ∀ c < T.numcomps, (T.comps c).dx = 1 ∧ (T.comps c).dy = 1 ∧
    (T.comps c).usesPart2Transform = false ∧
    (T.comps c).numresolutions = (T.comps 0).numresolutions ∧
    (T.comps c).precWidthExp = (T.comps 0).precWidthExp ∧
    (T.comps c).precHeightExp = (T.comps 0).precHeightExp

section Geometry

variable (T : Tile)

/-- The horizontal axis of a resolution as `chart_tile_geom` computes it. -/
def axisX (r : Nat) : Axis where
  t0 := T.bounds.x0
  t1 := T.bounds.x1
  dPRJ := 2 ^ (((T.comps 0).numresolutions - 1 - r) % 32)
  precExp := (T.comps 0).precWidthExp r
  t_le := T.x_le
  t1_lt := T.x1_lt
  dPRJ_pos := Nat.two_pow_pos _

def axisY (r : Nat) : Axis where
  t0 := T.bounds.y0
  t1 := T.bounds.y1
  dPRJ := 2 ^ (((T.comps 0).numresolutions - 1 - r) % 32)
  precExp := (T.comps 0).precHeightExp r
  t_le := T.y_le
  t1_lt := T.y1_lt
  dPRJ_pos := Nat.two_pow_pos _

/-- Resolution 0 below 32 decomposition levels, for which the shift of `chart_tile_geom` is out of
range. -/
def ShiftLost (r : Nat) : Prop := (T.comps 0).numresolutions = 33 ∧ r = 0

variable (order : ProgressionOrder)

theorem grid_eq (c r : Nat) :
    grid (codParams T order) ((tileGeom T).components c r) r =
      if (axisX T r).res0 < (axisX T r).res1 ∧ (axisY T r).res0 < (axisY T r).res1 then
        (((axisX T r).grid0, (axisX T r).count), ((axisY T r).grid0, (axisY T r).count))
      else ((0, 0), (0, 0)) := by
  have hempty : ((tileGeom T).components c r).x1 ≤ ((tileGeom T).components c r).x0 ∨
      ((tileGeom T).components c r).y1 ≤ ((tileGeom T).components c r).y0 ↔
      ¬ ((axisX T r).res0 < (axisX T r).res1 ∧ (axisY T r).res0 < (axisY T r).res1) := by
    change (axisX T r).res1 ≤ (axisX T r).res0 ∨ (axisY T r).res1 ≤ (axisY T r).res0 ↔ _
    omega
  unfold grid
  by_cases h : (axisX T r).res0 < (axisX T r).res1 ∧ (axisY T r).res0 < (axisY T r).res1
  · rw [if_neg (fun he => hempty.mp he h), if_pos h]
    exact Prod.ext (gridAxis_eq h.1) (gridAxis_eq h.2)
  · rw [if_pos (hempty.mpr h), if_neg h]

theorem grid_of_pos (c : Nat) {r : Nat} (hx : 0 < (axisX T r).count)
    (hy : 0 < (axisY T r).count) : grid (codParams T order) ((tileGeom T).components c r) r =
      (((axisX T r).grid0, (axisX T r).count), ((axisY T r).grid0, (axisY T r).count)) := by
  rw [grid_eq, if_pos ⟨Axis.lt_of_count_pos hx, Axis.lt_of_count_pos hy⟩]

/-- The slot of grid position `(i, j)` in layer `l`. -/
def slot (c r i j l : Nat) : Slot := ⟨c, r, (axisY T r).grid0 + j, (axisX T r).grid0 + i, l⟩

theorem mem_slots_iff {s : Slot} :
    s ∈ slots (codParams T order) (tileGeom T) ↔
      ∃ c < T.numcomps, ∃ r < (T.comps 0).numresolutions, ∃ j < (axisY T r).count,
        ∃ i < (axisX T r).count, ∃ l < T.numLayers, s = slot T c r i j l := by
  have hlevels : (codParams T order).numLevels + 1 = (T.comps 0).numresolutions :=
    Nat.sub_add_cancel (T.comps 0).numresolutions_range.1
  rw [mem_slots, hlevels]
  constructor
  · rintro ⟨hc, hr, ⟨j, hj, hpy⟩, ⟨i, hi, hpx⟩, hl⟩
    rw [grid_eq] at hj hi hpy hpx
    split at hj
    case isFalse => cases hj
    case isTrue h =>
      rw [if_pos h] at hi hpy hpx
      refine ⟨s.c, hc, s.r, hr, j, hj, i, hi, s.l, hl, ?_⟩
      rw [slot, ← hpy, ← hpx]
  · rintro ⟨c, hc, r, hr, j, hj, i, hi, l, hl, rfl⟩
    have hgrid := grid_of_pos T order c (zero_lt_of_lt hi) (zero_lt_of_lt hj)
    refine ⟨hc, hr, ⟨j, ?_, ?_⟩, ⟨i, ?_, ?_⟩, hl⟩ <;> simp only [slot, hgrid]
    · exact hj
    · exact hi

theorem packet_slot {c r i j l : Nat} (hj : j < (axisY T r).count) (hi : i < (axisX T r).count) :
    packet (codParams T order) (tileGeom T) (slot T c r i j l) =
      ⟨c, r, u32 (i + j * (axisX T r).count), l⟩ := by
  have hgrid := grid_of_pos T order c (zero_lt_of_lt hi) (zero_lt_of_lt hj)
  simp only [packet, slot, hgrid, Nat.add_sub_cancel_left, Nat.add_comm i]

end Geometry

end GrokCodec.Mercury
