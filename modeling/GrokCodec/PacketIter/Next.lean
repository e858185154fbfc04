import GrokCodec.Lib.Resumable
import GrokCodec.PacketIter.Basic

/-!
The iterator itself: `PacketIter::init` and the `next` function of every progression order.
The fields `px0grid_` and `py0grid_` of the source are written right before every read, so
the two coordinates are passed as values here.
-/

namespace GrokCodec.PacketIter

open Resumable

/-- One packet of the tile. -/
structure Packet where
  compno : Nat
  resno : Nat
  precinctIndex : Nat
  layno : Nat
  deriving DecidableEq, Repr

/-- The part of `PacketIter` that `init` fixes. `opt` says whether `precinctInfoOPT_` is set,
`plt` whether `next` is passed a packet buffer with known packet lengths. -/
structure Iter where
  tile : Tile
  prog : Progression
  compression : Bool
  singleProgression : Bool
  wholeTile : Bool
  tileWindow : Rect
  opt : Bool
  plt : Bool
  maxNumDecompositionResolutions : Nat

/-- The part of `PacketIter` that `next` changes, with the include tracker and what is left of
the packet lengths and of the packet buffer. -/
structure State where
  compno : Nat := 0
  resno : Nat := 0
  precinctIndex : Nat := 0
  layno : Nat := 0
  x : Nat
  y : Nat
  dx : Nat
  dy : Nat
  dxActive : Nat
  dyActive : Nat
  incrementInner : Bool := false
  skippedLeft : Bool := false
  included : List (Nat × Nat × Nat) := []
  packetLengths : List Nat := []
  bytesLeft : Nat := 0
  processedPackets : Nat := 0
  deriving DecidableEq, Repr

def State.packet (s : State) : Packet := ⟨s.compno, s.resno, s.precinctIndex, s.layno⟩

/-- The iteration bounds `init` sets up when there is no progression order change. -/
def Tile.fullProgression (T : Tile) (order : ProgOrder) : Progression where
  progression := order
  lay_e := T.numLayers
  res_e := T.maxRes
  comp_e := T.numcomps
  tx0 := T.bounds.x0
  ty0 := T.bounds.y0
  tx1 := T.bounds.x1
  ty1 := T.bounds.y1

/-- `PacketIter::init`, up to the single progression limits of its last part. -/
def Iter.init (T : Tile) (order : ProgOrder) (compression singleProgression wholeTile plt : Bool)
    (tileWindow : Rect) (maxNumDecompositionResolutions layersToDecompress : Nat) : Iter :=
  let full := T.fullProgression order
  let prog := match singleProgression, order with
    | true, .lrcp => { full with lay_e := min full.lay_e layersToDecompress }
    | true, .rlcp | true, .rpcl =>
      { full with res_e := min full.res_e maxNumDecompositionResolutions }
    | _, _ => full
  { tile := T
    prog
    compression
    singleProgression
    wholeTile := compression || wholeTile
    tileWindow
    opt := acceptsOPT T order compression singleProgression
    plt
    maxNumDecompositionResolutions }

/-- The state `init` leaves behind, with a fresh include tracker. -/
def Iter.start (it : Iter) (packetLengths : List Nat) (bytesLeft : Nat) : State :=
  let x := it.prog.tx0
  let y := it.prog.ty0
  let dx := it.tile.updateDx
  let dy := it.tile.updateDy
  { x, y, dx, dy
    dxActive := if dx > 0 then dx - x % dx else 0
    dyActive := if dy > 0 then dy - y % dy else 0
    packetLengths, bytesLeft }

namespace Iter

variable (it : Iter) (s : State) (body : State → Outcome State)

def comp (c : Nat) : Component := it.tile.comps c

/-- The window handed to `ResPrecinctInfo::init`. -/
def infoWindow : Option Rect := if it.wholeTile then none else some it.tileWindow

/-- Entry `r` of `precinctInfoOPT_`, with the skip counts `init` adds for RPCL. -/
def infoOPT (r : Nat) : ResPrecinctInfo :=
  let inf := precinctInfoOPT it.tile it.infoWindow r
  if it.prog.progression = .rpcl then
    let compLayer := it.prog.comp_e * it.prog.lay_e
    let grid := inf.tileBoundsPrecGrid
    { inf with
      winPrecinctsLeft := inf.winPrecGrid.x0 * compLayer
      winPrecinctsRight := sub32 grid.x1 inf.winPrecGrid.x1 * compLayer
      winPrecinctsTop := inf.winPrecGrid.y0 * grid.width * compLayer
      winPrecinctsBottom := sub32 grid.y1 inf.winPrecGrid.y1 * grid.width * compLayer }
  else inf

/-- The precinct info `validatePrecinct` consults, if there is a valid one. -/
def info (c r : Nat) : ResPrecinctInfo :=
  if it.opt then it.infoOPT r else (it.comp c).precinctInfo it.tile.bounds it.infoWindow r

def gridWidth (c r : Nat) : Nat := (it.comp c).precinctGridWidth it.tile.bounds r

def gridHeight (c r : Nat) : Nat := (it.comp c).precinctGridHeight it.tile.bounds r

/-- `numPrecinctsPerRes` of the include tracker. -/
def numPrecinctsPerRes (r : Nat) : Nat :=
  (List.range it.tile.numcomps).foldl (fun m c =>
    if r < (it.comp c).numresolutions then max m (it.gridWidth c r * it.gridHeight c r) else m) 0

/-- The bit of the include tracker that stands for a packet. -/
def includeKey (p : Packet) : Nat × Nat × Nat :=
  (p.layno, p.resno, p.compno * it.numPrecinctsPerRes p.resno + p.precinctIndex)

/-- `update_include`: true the first time a packet is seen. -/
def updateInclude : Bool × State :=
  if it.singleProgression then (true, s)
  else
    let key := it.includeKey s.packet
    if key ∈ s.included then (false, s) else (true, { s with included := key :: s.included })

/-- `genPrecinctY0Grid` and `genPrecinctX0Grid`: the precinct row or column that starts at
position `p` of one axis, if any. -/
def genPrecinct0Grid (p tile0 precPRJ resOffset0PRJ dPRJ precExp resInPrecGrid0 : Nat) :
    Option Nat :=
  if p % precPRJ = 0 ∨ (p = tile0 ∧ resOffset0PRJ ≠ 0) then
    some (sub32 (floordivpow2 (ceildiv p dPRJ) precExp) resInPrecGrid0)
  else none

def genPrecinctY0Grid (inf : ResPrecinctInfo) (y : Nat) : Option Nat :=
  genPrecinct0Grid y it.tile.bounds.y0 inf.precHeightPRJ inf.resOffsetY0PRJ inf.dyPRJ
    inf.precHeightExp inf.resInPrecGridY0

def genPrecinctX0Grid (inf : ResPrecinctInfo) (x : Nat) : Option Nat :=
  genPrecinct0Grid x it.tile.bounds.x0 inf.precWidthPRJ inf.resOffsetX0PRJ inf.dxPRJ
    inf.precWidthExp inf.resInPrecGridX0

/-- `validatePrecinct`: grid coordinates of the precinct of component `c` and resolution `r`
whose corner is at `(x, y)`. -/
def validatePrecinct (c r x y : Nat) : Option (Nat × Nat) :=
  if (it.comp c).numresolutions ≤ r then none
  else if it.gridWidth c r = 0 ∨ it.gridHeight c r = 0 then none
  else
    let inf := it.info c r
    if inf.valid then
      match it.genPrecinctY0Grid inf y with
      | none => none
      | some py => (it.genPrecinctX0Grid inf x).map fun px => (px, py)
    else none

/-- The end of every inner loop body: start over with the first layer. -/
def resetLayer : State := { s with layno := it.prog.lay_s, incrementInner := false }

/-- Bring the layer of the current precinct forward and hand the packet out. -/
def visitLayer (index : Nat) (s : State) : Outcome State :=
  let s := if s.incrementInner then { s with layno := s.layno + 1 } else s
  if s.layno < it.prog.lay_e then
    let (fresh, s) := it.updateInclude { s with incrementInner := true, precinctIndex := index }
    if fresh then .yield s else .done (it.resetLayer s)
  else .done (it.resetLayer s)

/-- The innermost loop body of the generic spatial progressions. -/
def visit : Outcome State :=
  match it.validatePrecinct s.compno s.resno s.x s.y with
  | none => .done s
  | some (px, py) => it.visitLayer (px + py * it.gridWidth s.compno s.resno) s

/-- `for(; compno < prog.comp_e; compno++)`. -/
def compLoop : State → Outcome State :=
  forLoop (fun s => it.prog.comp_e - s.compno) (fun s => decide (s.compno < it.prog.comp_e))
    (fun s => { s with compno := s.compno + 1 }) body

/-- `for(; resno < prog.res_e; resno++)`. -/
def resLoop : State → Outcome State :=
  forLoop (fun s => it.prog.res_e - s.resno) (fun s => decide (s.resno < it.prog.res_e))
    (fun s => { s with resno := s.resno + 1 }) body

/-- `for(; layno < prog.lay_e; layno++)`. -/
def layLoop : State → Outcome State :=
  forLoop (fun s => it.prog.lay_e - s.layno) (fun s => decide (s.layno < it.prog.lay_e))
    (fun s => { s with layno := s.layno + 1 }) body

/-- `for(; y < prog.ty1; y += dyActive, dyActive = dy)`. -/
def yLoop : State → Outcome State :=
  forLoop (fun s => it.prog.ty1 - s.y) (fun s => decide (s.y < it.prog.ty1))
    (fun s => { s with y := s.y + s.dyActive, dyActive := s.dy }) body

/-- `for(; x < prog.tx1; x += dxActive, dxActive = dx)`. -/
def xLoop : State → Outcome State :=
  forLoop (fun s => it.prog.tx1 - s.x) (fun s => decide (s.x < it.prog.tx1))
    (fun s => { s with x := s.x + s.dxActive, dxActive := s.dx }) body

def resetComp : State := { s with compno := it.prog.comp_s }

def resetRes : State := { s with resno := it.prog.res_s }

def resetLay : State := { s with layno := it.prog.lay_s }

def resetX : State :=
  { s with x := it.prog.tx0, dxActive := s.dx - it.prog.tx0 % s.dx }

def resetY : State :=
  { s with y := it.prog.ty0, dyActive := s.dy - it.prog.ty0 % s.dy }

/-- The end of a component in `next_cprl`: the steps are recomputed from the component whose
packets have just been handed out. -/
def updateDxyForComp : State :=
  let comp := it.comp s.compno
  let dx := comp.updateDx 0
  let dy := comp.updateDy 0
  { s with y := it.prog.ty0, dx, dy, dxActive := dx - s.x % dx,
           dyActive := dy - it.prog.ty0 % dy }

def nextCprl : State → Outcome State :=
  it.compLoop fun s =>
    (it.yLoop (fun s =>
      (it.xLoop (fun s => (it.resLoop it.visit s).after it.resetRes) s).after it.resetX)
        s).after it.updateDxyForComp

/-- The test by which `next_pcrl` leaves a windowed decode. -/
def pastWindow : Bool :=
  let win := it.tileWindow
  it.singleProgression && !win.empty &&
    (decide (s.y ≥ win.y1) || (decide (win.y1 > 0) && s.y == win.y1 - 1 && decide (s.x ≥ win.x1)))

def nextPcrl : State → Outcome State :=
  it.yLoop fun s =>
    (it.xLoop (fun s =>
      if it.pastWindow s then .stop s
      else (it.compLoop (fun s => (it.resLoop it.visit s).after it.resetRes) s).after
        it.resetComp) s).after it.resetX

def nextPrcl : State → Outcome State :=
  it.yLoop fun s =>
    (it.xLoop (fun s =>
      (it.resLoop (fun s => (it.compLoop it.visit s).after it.resetComp) s).after
        it.resetRes) s).after it.resetX

/-- Whether some component from `compno` on has precincts in resolution `resno`. -/
def sane : Bool :=
  (List.range' s.compno (it.prog.comp_e - s.compno)).any fun c =>
    decide (s.resno < (it.comp c).numresolutions) && decide (it.gridWidth c s.resno > 0) &&
      decide (it.gridHeight c s.resno > 0)

def nextRpcl : State → Outcome State :=
  it.resLoop fun s =>
    if it.sane s then
      (it.yLoop (fun s =>
        (it.xLoop (fun s => (it.compLoop it.visit s).after it.resetComp) s).after it.resetX)
          s).after it.resetY
    else .done s

/-- Bring the precinct index forward and hand the packet out, as `next_lrcp` and `next_rlcp`
do below their component loop. -/
def visitPrecinct (prec_e : Nat) (s : State) : Outcome State :=
  let s := if s.incrementInner then { s with precinctIndex := s.precinctIndex + 1 } else s
  let reset (s : State) := { s with precinctIndex := it.prog.prec_s, incrementInner := false }
  if s.precinctIndex < prec_e then
    let (fresh, s) := it.updateInclude { s with incrementInner := true }
    if fresh then .yield s else .done (reset s)
  else .done (reset s)

def visitComp : Outcome State :=
  if (it.comp s.compno).numresolutions ≤ s.resno then .done s
  else it.visitPrecinct (it.gridWidth s.compno s.resno * it.gridHeight s.compno s.resno) s

def nextLrcp : State → Outcome State :=
  it.layLoop fun s =>
    (it.resLoop (fun s => (it.compLoop it.visitComp s).after it.resetComp) s).after it.resetRes

def nextRlcp : State → Outcome State :=
  it.resLoop fun s =>
    (it.layLoop (fun s => (it.compLoop it.visitComp s).after it.resetComp) s).after it.resetLay

end Iter

end GrokCodec.PacketIter
