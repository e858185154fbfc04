import GrokCodec.Util.Geometry

/-!
Coding parameters of a tile, the precinct grids derived from them, and the geometric state
the packet iterator caches for every resolution.
-/

namespace GrokCodec.PacketIter

open List

/-- `GRK_PROG_ORDER`. -/
inductive ProgOrder where
  | lrcp
  | rlcp
  | rpcl
  | pcrl
  | cprl
  | prcl
  deriving DecidableEq, Repr

/-- An image component together with its tile component coding parameters. The ranges are
those the SIZ, COD and COC readers let through (`readSPCodSPCoc` takes precinct exponent 0 at
the lowest resolution only); the depth tables are the identity unless a Part 2 decomposition
style is in use. -/
structure Component where
  dx : Nat
  dy : Nat
  numresolutions : Nat
  precWidthExp : Nat → Nat
  precHeightExp : Nat → Nat
  horizontalDepth : Nat → Nat
  verticalDepth : Nat → Nat
  usesPart2Transform : Bool
  dx_range : 1 ≤ dx ∧ dx ≤ 255
  dy_range : 1 ≤ dy ∧ dy ≤ 255
  numresolutions_range : 1 ≤ numresolutions ∧ numresolutions ≤ 33
  precWidthExp_le : ∀ r, precWidthExp r ≤ 15
  precHeightExp_le : ∀ r, precHeightExp r ≤ 15
  precExp_pos : ∀ r, r ≠ 0 → 1 ≤ precWidthExp r ∧ 1 ≤ precHeightExp r
  depth_zero : horizontalDepth 0 = 0 ∧ verticalDepth 0 = 0
  depth_succ : ∀ i, horizontalDepth (i + 1) ≤ horizontalDepth i + 1 ∧
    verticalDepth (i + 1) ≤ verticalDepth i + 1
  depth_part1 : usesPart2Transform = false → ∀ i, horizontalDepth i = i ∧ verticalDepth i = i

/-- What the iterator reads of the image and the tile coding parameters. -/
structure Tile where
  bounds : Rect
  numcomps : Nat
  comps : Nat → Component
  numLayers : Nat
  x_le : bounds.x0 ≤ bounds.x1
  y_le : bounds.y0 ≤ bounds.y1
  x1_le : bounds.x1 ≤ uintMax
  y1_le : bounds.y1 ≤ uintMax
  numcomps_range : 1 ≤ numcomps ∧ numcomps ≤ 16384
  numLayers_range : 1 ≤ numLayers ∧ numLayers ≤ 65535

variable (T : Tile)

theorem Tile.x1_lt : T.bounds.x1 < 2 ^ 32 := lt_of_le_of_lt T.x1_le (by decide)

theorem Tile.y1_lt : T.bounds.y1 < 2 ^ 32 := lt_of_le_of_lt T.y1_le (by decide)

/-- One precinct exponent for all resolutions, raised to 1 where the readers refuse 0. -/
def oneExp (e r : Nat) : Nat := if r = 0 then e else max e 1

theorem oneExp_le {e : Nat} (he : e ≤ 15) (r : Nat) : oneExp e r ≤ 15 := by
  rw [oneExp]
  split <;> omega

theorem oneExp_pos (pw ph r : Nat) (hr : r ≠ 0) : 1 ≤ oneExp pw r ∧ 1 ≤ oneExp ph r := by
  rw [oneExp, oneExp, if_neg hr, if_neg hr]
  omega

/-- A component of a Part 1 image with one precinct size for all resolutions. -/
def Component.part1 (d numresolutions pw ph : Nat) (hd : 1 ≤ d ∧ d ≤ 255)
    (hres : 1 ≤ numresolutions ∧ numresolutions ≤ 33) (hpw : pw ≤ 15) (hph : ph ≤ 15) :
    Component where
  dx := d
  dy := d
  numresolutions
  precWidthExp := oneExp pw
  precHeightExp := oneExp ph
  horizontalDepth := id
  verticalDepth := id
  usesPart2Transform := false
  dx_range := hd
  dy_range := hd
  numresolutions_range := hres
  precWidthExp_le := oneExp_le hpw
  precHeightExp_le := oneExp_le hph
  precExp_pos := oneExp_pos pw ph
  depth_zero := ⟨rfl, rfl⟩
  depth_succ := fun _ => ⟨le_rfl, le_rfl⟩
  depth_part1 := fun _ _ => ⟨rfl, rfl⟩

-- The ranges of the smallest and the largest parameters.
theorem unit_range : 1 ≤ 1 ∧ 1 ≤ 255 := by decide
theorem one_res : 1 ≤ 1 ∧ 1 ≤ 33 := by decide
theorem two_res : 1 ≤ 2 ∧ 2 ≤ 33 := by decide
theorem zero_exp : 0 ≤ 15 := by decide
theorem one_exp : 1 ≤ 15 := by decide
theorem max_exp : 15 ≤ 15 := le_rfl
theorem one_comp : 1 ≤ 1 ∧ 1 ≤ 16384 := by decide
theorem one_layer : 1 ≤ 1 ∧ 1 ≤ 65535 := by decide

variable (c : Component)

/-- Number of decomposition levels between resolution `r` and the highest one. -/
def Component.levelsDone (r : Nat) : Nat := c.numresolutions - 1 - r

def Component.depthX (r : Nat) : Nat := c.horizontalDepth (c.levelsDone r)

def Component.depthY (r : Nat) : Nat := c.verticalDepth (c.levelsDone r)

/-- The precinct counts `PacketManager::getParams` stores for one axis: bounds are aligned
to precincts in 32 bits before they are subtracted. -/
def gridExtent (lo hi precExp : Nat) : Nat :=
  if sub32 hi lo = 0 then 0
  else sub32 (u32 (u32 (ceildivpow2 hi precExp) <<< precExp))
    (u32 (floordivpow2 lo precExp <<< precExp)) >>> precExp

variable (tileBounds : Rect)

/-- The resolution rectangle, as `PacketManager::getParams` derives it. -/
def Component.resBounds (r : Nat) : Rect :=
  (tileBounds.scaleDownCeil c.dx c.dy).scaleDownCeil (2 ^ c.depthX r) (2 ^ c.depthY r)

def Component.precinctGridWidth (r : Nat) : Nat :=
  let res := c.resBounds tileBounds r
  gridExtent res.x0 res.x1 (c.precWidthExp r)

def Component.precinctGridHeight (r : Nat) : Nat :=
  let res := c.resBounds tileBounds r
  gridExtent res.y0 res.y1 (c.precHeightExp r)

/-- `max_res` of `PacketManager::getParams`. -/
def Tile.maxRes : Nat :=
  (range T.numcomps).foldl (fun m c => max m (T.comps c).numresolutions) 0

/-- `ResPrecinctInfo`. Fields ending in `PRJ` are in coordinates of the reference grid. -/
structure ResPrecinctInfo where
  precWidthExp : Nat
  precHeightExp : Nat
  precWidthExpPRJ : Nat := 0
  precHeightExpPRJ : Nat := 0
  resOffsetX0PRJ : Nat := 0
  resOffsetY0PRJ : Nat := 0
  precWidthPRJ : Nat := 0
  precHeightPRJ : Nat := 0
  numPrecincts : Nat := 0
  dxPRJ : Nat := 0
  dyPRJ : Nat := 0
  resInPrecGridX0 : Nat := 0
  resInPrecGridY0 : Nat := 0
  decompLevel : Nat := 0
  tileBoundsPrecPRJ : Rect := ⟨0, 0, 0, 0⟩
  tileBoundsPrecGrid : Rect := ⟨0, 0, 0, 0⟩
  winPrecPRJ : Rect := ⟨0, 0, 0, 0⟩
  winPrecGrid : Rect := ⟨0, 0, 0, 0⟩
  winPrecinctsLeft : Nat := 0
  winPrecinctsRight : Nat := 0
  winPrecinctsTop : Nat := 0
  winPrecinctsBottom : Nat := 0
  valid : Bool := false
  deriving DecidableEq, Repr

/-- `ResPrecinctInfo::init`; the returned flag of the source is the field `valid`. The window
is `none` when the whole tile is decoded. -/
def ResPrecinctInfo.init (precWidthExp precHeightExp decompLevelX decompLevelY : Nat)
    (tileBounds : Rect) (compDx compDy : Nat) (window : Option Rect) : ResPrecinctInfo :=
  let res := tileBounds.scaleDownCeil (compDx <<< decompLevelX) (compDy <<< decompLevelY)
  if res.x0 = res.x1 ∨ res.y0 = res.y1 then
    { precWidthExp, precHeightExp, decompLevel := decompLevelX }
  else
    let precWidthPRJ := compDx <<< (precWidthExp + decompLevelX)
    let precHeightPRJ := compDy <<< (precHeightExp + decompLevelY)
    let winPrecGrid := match window with
      | none => ⟨0, 0, 0, 0⟩
      | some w =>
        (((w.scaleDownCeil (compDx <<< decompLevelX) (compDy <<< decompLevelY)).grow
          (2 ^ precWidthExp) (2 ^ precHeightExp)).clip res).scaleDown
            (2 ^ precWidthExp) (2 ^ precHeightExp)
    let grid := res.scaleDown (2 ^ precWidthExp) (2 ^ precHeightExp)
    { precWidthExp
      precHeightExp
      precWidthExpPRJ := precWidthExp + decompLevelX
      precHeightExpPRJ := precHeightExp + decompLevelY
      resOffsetX0PRJ := u32 ((res.x0 <<< decompLevelX) % 2 ^ (precWidthExp + decompLevelX))
      resOffsetY0PRJ := u32 ((res.y0 <<< decompLevelY) % 2 ^ (precHeightExp + decompLevelY))
      precWidthPRJ
      precHeightPRJ
      numPrecincts := grid.area
      dxPRJ := compDx <<< decompLevelX
      dyPRJ := compDy <<< decompLevelY
      resInPrecGridX0 := floordivpow2 res.x0 precWidthExp
      resInPrecGridY0 := floordivpow2 res.y0 precHeightExp
      decompLevel := decompLevelX
      tileBoundsPrecPRJ := grid.scale precWidthPRJ precHeightPRJ
      tileBoundsPrecGrid := grid
      winPrecPRJ := winPrecGrid.scale precWidthPRJ precHeightPRJ
      winPrecGrid
      valid := true }

/-- The info `genPrecinctInfo` (or, when compressing, `validatePrecinct`) builds for
resolution `r` of a component on the generic path. -/
def Component.precinctInfo (window : Option Rect) (r : Nat) : ResPrecinctInfo :=
  ResPrecinctInfo.init (c.precWidthExp r) (c.precHeightExp r) (c.depthX r) (c.depthY r)
    tileBounds c.dx c.dy window

/-- `grk_progression`: the order and the bounds of the iteration. -/
structure Progression where
  progression : ProgOrder
  lay_s : Nat := 0
  lay_e : Nat
  res_s : Nat := 0
  res_e : Nat
  comp_s : Nat := 0
  comp_e : Nat
  prec_s : Nat := 0
  tx0 : Nat
  ty0 : Nat
  tx1 : Nat
  ty1 : Nat
  deriving DecidableEq, Repr

/-- The acceptance test of `PacketIter::genPrecinctInfoOPT`. -/
def acceptsOPT (progression : ProgOrder) (compression singleProgression : Bool) : Bool :=
  let first := T.comps 0
  !compression && singleProgression &&
    (range T.numcomps).all (fun c =>
      let comp := T.comps c
      comp.dx == 1 && comp.dy == 1 && !comp.usesPart2Transform &&
        comp.numresolutions == first.numresolutions) &&
    match progression with
    | .pcrl | .cprl =>
      T.bounds.x0 == 0 && T.bounds.y0 == 0 &&
        (range (first.numresolutions - 1)).all (fun r =>
          let decompLevel := first.numresolutions - 1 - r
          let highest := first.numresolutions - 1
          decide (first.precWidthExp highest ≤ first.precWidthExp r + decompLevel) &&
            decide (first.precHeightExp highest ≤ first.precHeightExp r + decompLevel))
    | _ => true

/-- The table `precinctInfoOPT_`: one entry per resolution, from the first component. -/
def precinctInfoOPT (window : Option Rect) (r : Nat) : ResPrecinctInfo :=
  let first := T.comps 0
  ResPrecinctInfo.init (first.precWidthExp r) (first.precHeightExp r) (first.levelsDone r)
    (first.levelsDone r) T.bounds first.dx first.dy window

/-- One axis of one resolution in `update_dxy_for_comp`: strides that do not fit are ignored. -/
def minStride (acc stride : Nat) : Nat :=
  if stride < uintMax then if acc = 0 then stride else min acc stride else acc

/-- Projected precinct width of a resolution, the candidate step of the `x` loop. -/
def Component.strideX (r : Nat) : Nat := c.dx * 2 ^ (c.precWidthExp r + c.depthX r)

def Component.strideY (r : Nat) : Nat := c.dy * 2 ^ (c.precHeightExp r + c.depthY r)

/-- `update_dxy_for_comp`, horizontal part, starting from the value already in `dx`. -/
def Component.updateDx (dx : Nat) : Nat :=
  (range c.numresolutions).foldl (fun acc r => minStride acc (c.strideX r)) dx

def Component.updateDy (dy : Nat) : Nat :=
  (range c.numresolutions).foldl (fun acc r => minStride acc (c.strideY r)) dy

/-- `update_dxy`: the smallest steps over all components. -/
def Tile.updateDx (T : Tile) : Nat :=
  (range T.numcomps).foldl (fun acc c => (T.comps c).updateDx acc) 0

def Tile.updateDy (T : Tile) : Nat :=
  (range T.numcomps).foldl (fun acc c => (T.comps c).updateDy acc) 0

end GrokCodec.PacketIter
