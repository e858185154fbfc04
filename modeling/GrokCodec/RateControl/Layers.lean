import Mathlib.Algebra.Order.Ring.Rat
import GrokCodec.Lib.Loop
import GrokCodec.T2.CompressPackets

/-!
Quality layers of compressed code blocks. A layer takes a run of coding passes of every block, by the
slopes of the feasible truncation points, by rate and distortion of each pass, or by taking all that
is left. Every layer that has a target gets the threshold that a bisection finds for it: a search ends
on its upper bound, and the next layer searches below the lower bound of this one.
-/

namespace GrokCodec.RateControl

open List Function

/-- The operations of `double` that rate control uses. -/
class Double (D : Type) extends Zero D, One D, Add D, Sub D, Neg D, Div D, NatCast D, LT D, BEq D where
  decidableLT : DecidableLT D
  dblMax : D

instance decidableLT {D : Type} [Double D] : DecidableLT D := Double.decidableLT

/-- Doubles without rounding. -/
instance : Double ℚ where
  decidableLT := inferInstance
  dblMax := 2 ^ 1024 - 2 ^ 971

/-- `rate` counts the bytes of the block up to and including this pass, and `len` those of the pass.
A pass with slope zero is no feasible truncation point. -/
structure CodePass (D : Type) where
  rate : Nat
  distortiondec : D
  len : Nat
  term : Bool
  slope : Nat

/-- `data` is an offset into the bytes of the block. -/
@[ext]
structure Layer (D : Type) where
  totalPasses : Nat
  len : Nat
  distortion : D
  data : Nat
  deriving DecidableEq

structure CodeblockCompress (D : Type) where
  passes : List (CodePass D)
  numPassesInPreviousLayers : Nat
  layers : Nat → Layer D

variable {D : Type}

namespace CodeblockCompress

variable (cblk : CodeblockCompress D)

def numPasses : Nat := cblk.passes.length

/-- Passes up to the first feasible one whose slope is not above `thresh`. -/
def scanFeasible (thresh : Nat) : List (CodePass D) → Nat → Nat → Nat
  | [], _, included => included
  | pass :: rest, passno, included =>
    -- truncate or include feasible, otherwise ignore
    if pass.slope = 0 then scanFeasible thresh rest (passno + 1) included
    else if pass.slope ≤ thresh then included
    else scanFeasible thresh rest (passno + 1) (passno + 1)

def includedFeasible (thresh : Nat) : Nat :=
  let previous := cblk.numPassesInPreviousLayers
  scanFeasible thresh (cblk.passes.drop previous) previous previous

def includedFinal : Nat :=
  if cblk.numPasses > cblk.numPassesInPreviousLayers then cblk.numPasses
  else cblk.numPassesInPreviousLayers

theorem scanFeasible_bounds (thresh : Nat) (rest : List (CodePass D)) {passno included : Nat}
    (hle : included ≤ passno) :
    included ≤ scanFeasible thresh rest passno included ∧
      scanFeasible thresh rest passno included ≤ passno + rest.length := by
  induction rest generalizing passno included with
  | nil => exact ⟨le_rfl, hle⟩
  | cons pass rest ih =>
    rw [scanFeasible, length_cons]
    split
    · have := ih (show included ≤ passno + 1 by omega)
      omega
    · split
      · omega
      · have := ih (le_refl (passno + 1))
        omega

theorem scanFeasible_antitone {thresh thresh' : Nat} (hthresh : thresh ≤ thresh')
    (rest : List (CodePass D)) {passno included : Nat} (hle : included ≤ passno) :
    scanFeasible thresh' rest passno included ≤ scanFeasible thresh rest passno included := by
  induction rest generalizing passno included with
  | nil => exact le_rfl
  | cons pass rest ih =>
    rw [scanFeasible, scanFeasible]
    by_cases hzero : pass.slope = 0
    · rw [if_pos hzero, if_pos hzero]
      exact ih (show included ≤ passno + 1 by omega)
    · rw [if_neg hzero, if_neg hzero]
      by_cases hslope : pass.slope ≤ thresh'
      · rw [if_pos hslope]
        split
        · exact le_rfl
        · have := (scanFeasible_bounds thresh rest (le_refl (passno + 1))).1
          omega
      · rw [if_neg hslope, if_neg (by omega)]
        exact ih le_rfl

theorem includedFeasible_bounds {cblk : CodeblockCompress D} (thresh : Nat)
    (hle : cblk.numPassesInPreviousLayers ≤ cblk.numPasses) :
    cblk.numPassesInPreviousLayers ≤ cblk.includedFeasible thresh ∧
      cblk.includedFeasible thresh ≤ cblk.numPasses := by
  have := scanFeasible_bounds thresh (cblk.passes.drop cblk.numPassesInPreviousLayers)
    (le_refl cblk.numPassesInPreviousLayers)
  rw [length_drop] at this
  unfold includedFeasible
  unfold numPasses at hle ⊢
  dsimp only
  omega

theorem includedFinal_eq {cblk : CodeblockCompress D}
    (hle : cblk.numPassesInPreviousLayers ≤ cblk.numPasses) :
    cblk.includedFinal = cblk.numPasses := by
  unfold includedFinal
  split <;> omega

variable [Double D]

def getPass (passno : Nat) : CodePass D :=
  cblk.passes.getD passno ⟨0, 0, 0, false, 0⟩

/-- A block as block coding leaves it. -/
def fresh : CodeblockCompress D :=
  { cblk with numPassesInPreviousLayers := 0, layers := fun _ => ⟨0, 0, 0, 0⟩ }

/-- The layer with the passes up to `included`. A layer without passes keeps its length. -/
def updatedLayer (layno included : Nat) : Layer D :=
  let previous := cblk.numPassesInPreviousLayers
  let totalPasses := included - previous
  let last := cblk.getPass (included - 1)
  let before := cblk.getPass (previous - 1)
  if totalPasses = 0 then { cblk.layers layno with totalPasses := 0, distortion := 0 }
  else if previous = 0 then ⟨totalPasses, last.rate, last.distortiondec, 0⟩
  else
    ⟨totalPasses, u16 (sub32 last.rate before.rate), last.distortiondec - before.distortiondec,
      before.rate⟩

/-- The block after it was given a layer. Only a final attempt counts the passes as placed. -/
def setLayer (layno included : Nat) (finalAttempt : Bool) : CodeblockCompress D :=
  let layer := cblk.updatedLayer layno included
  { cblk with
    layers := update cblk.layers layno layer
    numPassesInPreviousLayers :=
      if layer.totalPasses ≠ 0 ∧ finalAttempt then included else cblk.numPassesInPreviousLayers }

def dblEpsilon : D := 1 / ((2 ^ 52 : Nat) : D)

/-- Whether one more pass is taken, measured from the last pass taken so far. -/
def scanSimple (thresh : D) (included passno : Nat) : Nat :=
  let pass := cblk.getPass passno
  let taken := cblk.getPass (included - 1)
  let dr := if included = 0 then pass.rate else sub32 pass.rate taken.rate
  let dd := if included = 0 then pass.distortiondec else pass.distortiondec - taken.distortiondec
  if dr = 0 then if dd == 0 then included else passno + 1
  else if thresh - dd / (dr : D) < dblEpsilon then passno + 1
  else included

def includedSimple (thresh : D) : Nat :=
  let previous := cblk.numPassesInPreviousLayers
  if thresh == 0 then cblk.numPasses
  else (range' previous (cblk.numPasses - previous)).foldl (cblk.scanSimple thresh) previous

/-- One block of `makeLayerFeasible`. Layer 0 starts counting afresh. -/
def feasibleStep (layno thresh : Nat) (finalAttempt : Bool) (cblk : CodeblockCompress D) :
    CodeblockCompress D :=
  let cblk := if layno = 0 then { cblk with numPassesInPreviousLayers := 0 } else cblk
  cblk.setLayer layno (cblk.includedFeasible thresh) finalAttempt

/-- One block of `makeLayerSimple`. -/
def simpleStep (layno : Nat) (thresh : D) (finalAttempt : Bool) (cblk : CodeblockCompress D) :
    CodeblockCompress D :=
  cblk.setLayer layno (cblk.includedSimple thresh) finalAttempt

/-- One block of `makeLayerFinal`. -/
def finalStep (layno : Nat) (cblk : CodeblockCompress D) : CodeblockCompress D :=
  cblk.setLayer layno cblk.includedFinal true

section Counting

variable {cblk} {layno included : Nat} {finalAttempt : Bool}

@[simp] theorem setLayer_passes :
    (cblk.setLayer layno included finalAttempt).passes = cblk.passes := rfl

theorem setLayer_layers_self :
    (cblk.setLayer layno included finalAttempt).layers layno = cblk.updatedLayer layno included :=
  update_self _ _ _

theorem setLayer_layers_of_ne {l : Nat} (hl : l ≠ layno) :
    (cblk.setLayer layno included finalAttempt).layers l = cblk.layers l :=
  update_of_ne hl _ _

theorem updatedLayer_totalPasses : (cblk.updatedLayer layno included).totalPasses =
    included - cblk.numPassesInPreviousLayers := by
  unfold updatedLayer
  dsimp only
  split
  · exact Eq.symm ‹_›
  · split <;> rfl

theorem setLayer_counter (hle : cblk.numPassesInPreviousLayers ≤ included) :
    (cblk.setLayer layno included finalAttempt).numPassesInPreviousLayers =
      if finalAttempt then included else cblk.numPassesInPreviousLayers := by
  unfold setLayer
  dsimp only
  rw [updatedLayer_totalPasses]
  cases finalAttempt with
  | false => simp
  | true =>
    split
    · rfl
    · simp_all
      omega

theorem scanSimple_eq (cblk : CodeblockCompress D) (thresh : D) (included passno : Nat) :
    cblk.scanSimple thresh included passno = included ∨
      cblk.scanSimple thresh included passno = passno + 1 := by
  unfold scanSimple
  extract_lets pass taken dr dd
  by_cases hdr : dr = 0
  · rw [if_pos hdr]
    cases dd == 0 with
    | true => exact .inl rfl
    | false => exact .inr rfl
  · rw [if_neg hdr]
    split
    · exact .inr rfl
    · exact .inl rfl

theorem foldl_scanSimple_bounds (cblk : CodeblockCompress D) (thresh : D) (count : Nat)
    {passno included : Nat} (hle : included ≤ passno) :
    included ≤ (range' passno count).foldl (cblk.scanSimple thresh) included ∧
      (range' passno count).foldl (cblk.scanSimple thresh) included ≤ passno + count := by
  induction count generalizing passno included with
  | zero => exact ⟨le_rfl, hle⟩
  | succ count ih =>
    rw [range'_succ, foldl_cons]
    rcases cblk.scanSimple_eq thresh included passno with h | h
    · rw [h]
      have := ih (show included ≤ passno + 1 by omega)
      omega
    · rw [h]
      have := ih (le_refl (passno + 1))
      omega

theorem includedSimple_bounds (thresh : D)
    (hle : cblk.numPassesInPreviousLayers ≤ cblk.numPasses) :
    cblk.numPassesInPreviousLayers ≤ cblk.includedSimple thresh ∧
      cblk.includedSimple thresh ≤ cblk.numPasses := by
  unfold includedSimple
  dsimp only
  split
  · exact ⟨hle, le_rfl⟩
  · have := cblk.foldl_scanSimple_bounds thresh (cblk.numPasses - cblk.numPassesInPreviousLayers)
      (le_refl cblk.numPassesInPreviousLayers)
    omega

end Counting

end CodeblockCompress

variable [Double D]

/-- The code blocks of a tile, in the order in which rate control visits them. -/
abbrev Blocks (D : Type) := List (CodeblockCompress D)

namespace Blocks

def makeLayerFeasible (layno thresh : Nat) (finalAttempt : Bool) (blocks : Blocks D) : Blocks D :=
  blocks.map (CodeblockCompress.feasibleStep layno thresh finalAttempt)

def makeLayerSimple (layno : Nat) (thresh : D) (finalAttempt : Bool) (blocks : Blocks D) :
    Blocks D :=
  blocks.map (CodeblockCompress.simpleStep layno thresh finalAttempt)

def makeLayerFinal (layno : Nat) (blocks : Blocks D) : Blocks D :=
  blocks.map (CodeblockCompress.finalStep layno)

/-- Some block has passes in the layer. -/
def allocationChanged (blocks : Blocks D) (layno : Nat) : Bool :=
  blocks.any fun cblk => (cblk.layers layno).totalPasses ≠ 0

/-- The distortion that making the layer adds up. -/
def layerDistortion (blocks : Blocks D) (layno : Nat) : D :=
  blocks.foldl (fun sum cblk =>
    let layer := cblk.layers layno
    if layer.totalPasses = 0 then sum else sum + layer.distortion) 0

def bodyBytes (blocks : Blocks D) (layno : Nat) : Nat :=
  blocks.foldl (fun sum cblk =>
    let layer := cblk.layers layno
    if layer.totalPasses = 0 then sum else sum + layer.len) 0

end Blocks

open Loop

/-- What a packet shows of a layer. -/
def Layer.visible (layer : Layer D) : Layer D :=
  if layer.totalPasses = 0 then ⟨0, 0, 0, 0⟩ else layer

/-- The first `max_layers` layers of all blocks, as packets show them. -/
def Blocks.view (blocks : Blocks D) (max_layers : Nat) : List (List (Layer D)) :=
  blocks.map fun cblk => (List.range max_layers).map fun layno => (cblk.layers layno).visible

def ushrtMax : Nat := 2 ^ 16 - 1

/-- Coding parameters of a tile, and what rate control calls. -/
structure Settings (D : Type) where
  rateControlAlgorithm : Nat
  numLayers : Nat
  allocationByRateDistortion : Bool
  allocationByFixedQuality : Bool
  /-- Bytes of each layer, rounded up. Zero stands for no target. -/
  rates : Nat → Nat
  /-- Layers with a quality target, and the distortion it stands for. -/
  distortion : Nat → Bool
  distortionTarget : Nat → D
  /-- Blocks are shared out to several workers. -/
  useParallel : Bool
  /-- What `cumulativeDistortion` holds before it is written. -/
  uninitialized : Nat → D
  /-- `compressPacketsSimulate` on the first layers, in no more than a number of bytes. -/
  simulate : Nat → List (List (Layer D)) → Nat → Bool

/-- Passes and bytes of the layers in a view. -/
def tableOf (view : List (List (Layer D))) : T2.LayerTable where
  totalPasses i layno := ((view.getD i []).getD layno ⟨0, 0, 0, 0⟩).totalPasses
  len i layno := ((view.getD i []).getD layno ⟨0, 0, 0, 0⟩).len

/-- `compressPacketsSimulate` for the packets of a tile. -/
def simulateTile (o : T2.PacketOptions) (rounds : List (List PacketIter.Packet))
    (canvas : T2.Canvas) (max_layers : Nat) (view : List (List (Layer D))) (maxBytes : Nat) : Bool :=
  (T2.compressPacketsSimulate o rounds canvas (tableOf view) max_layers maxBytes).isSome

variable (c : Settings D) (disableRateControl : Bool) (blocks : Blocks D)

namespace Settings

def layerNeedsRateControl (layno : Nat) : Bool :=
  (c.allocationByRateDistortion && decide (c.rates layno > 0)) ||
    (c.allocationByFixedQuality && c.distortion layno)

def needsRateControl : Bool := (List.range c.numLayers).any c.layerNeedsRateControl

def maxLayerLength (layno : Nat) : Nat :=
  if !disableRateControl && decide (c.rates layno > 0) then c.rates layno else uintMax

end Settings

/-- A search for the threshold of a layer. `prevthresh` is the threshold of the round before, and
`done` says that the loop was left. -/
structure Search (B D : Type) where
  blocks : Blocks D
  lowerBound : B
  upperBound : B
  prevthresh : B
  thresh : B
  done : Bool := false

/-- What one layer hands to the next. -/
structure Progress (B D : Type) where
  blocks : Blocks D
  upperBound : B
  cumulativeDistortion : Nat → D

/-- The distortion of the layers up to this one. -/
def distoachieved (cumulativeDistortion : Nat → D) (blocks : Blocks D) (layno : Nat) : D :=
  if layno = 0 then blocks.layerDistortion 0
  else cumulativeDistortion (layno - 1) + blocks.layerDistortion layno

/-- The packets of the layers up to this one fit. -/
def Settings.fits (maxLayerLength layno : Nat) (blocks : Blocks D) : Bool :=
  !(c.useParallel && decide (blocks.bodyBytes layno > maxLayerLength)) &&
    c.simulate (layno + 1) (blocks.view (layno + 1)) maxLayerLength

variable (maxLayerLength layno : Nat) (cumulativeDistortion : Nat → D)

section Feasible

/-- The smallest slope of a feasible truncation point. -/
def minimumSlope : Nat :=
  (blocks.flatMap CodeblockCompress.passes).foldl
    (fun minimum pass => if pass.slope = 0 then minimum else min pass.slope minimum) ushrtMax

/-- Whether a threshold becomes the upper bound. -/
def Settings.acceptFeasible (blocks : Blocks D) : Bool :=
  if c.allocationByFixedQuality then
    decide (distoachieved cumulativeDistortion blocks layno < c.distortionTarget layno)
  else !(blocks.allocationChanged layno && !c.fits maxLayerLength layno blocks)

def midpoint (lowerBound upperBound : Nat) : Nat := ((lowerBound + upperBound) % 2 ^ 32) >>> 1

/-- One round of the search. -/
def Settings.feasibleRound (s : Search Nat D) : Search Nat D :=
  let thresh := midpoint s.lowerBound s.upperBound
  if s.prevthresh ≠ 0 ∧ s.prevthresh = thresh then { s with thresh, done := true }
  else
    let blocks := s.blocks.makeLayerFeasible layno (thresh % 2 ^ 16) false
    let s := { s with blocks, prevthresh := thresh, thresh }
    if c.acceptFeasible maxLayerLength layno cumulativeDistortion blocks
    then { s with upperBound := thresh } else { s with lowerBound := thresh }

def Settings.feasibleSearch (s : Search Nat D) : Search Nat D :=
  repeatWhile (fun s => !s.done) (c.feasibleRound maxLayerLength layno cumulativeDistortion) 128 s

/-- One layer of `pcrdBisectFeasible`. -/
def Settings.feasibleLayer (min_slope layno : Nat) (p : Progress Nat D) : Progress Nat D :=
  if c.layerNeedsRateControl layno then
    let s := c.feasibleSearch (c.maxLayerLength disableRateControl layno) layno
      p.cumulativeDistortion ⟨p.blocks, min_slope, p.upperBound, 0, 0, false⟩
    -- choose conservative value for goodthresh
    let blocks := s.blocks.makeLayerFeasible layno (s.upperBound % 2 ^ 16) true
    { blocks
      upperBound := sub32 s.lowerBound 1
      cumulativeDistortion :=
        if c.allocationByFixedQuality then
          Function.update p.cumulativeDistortion layno
            (distoachieved p.cumulativeDistortion blocks layno)
        else p.cumulativeDistortion }
  else { p with blocks := p.blocks.makeLayerFinal layno }

end Feasible

section Simple

/-- Slope of a pass against the pass before it, unless it adds no bytes. -/
def rdslope (cblk : CodeblockCompress D) (passno : Nat) : Option D :=
  let pass := cblk.getPass passno
  let before := cblk.getPass (passno - 1)
  let dr : Int := if passno = 0 then pass.rate else (pass.rate : Int) - before.rate
  let dd := if passno = 0 then pass.distortiondec else pass.distortiondec - before.distortiondec
  if dr = 0 then none else some (dd / (if dr < 0 then -(dr.natAbs : D) else (dr.natAbs : D)))

def rdslopes : List D :=
  blocks.flatMap fun cblk => (List.range cblk.numPasses).filterMap (rdslope cblk)

def minRDSlope : D :=
  (rdslopes blocks).foldl (fun minimum slope => if slope < minimum then slope else minimum)
    Double.dblMax

def maxRDSlope : D :=
  (rdslopes blocks).foldl (fun maximum slope => if maximum < slope then slope else maximum) (-1)

/-- Whether a threshold becomes the upper bound. -/
def Settings.acceptSimple (blocks : Blocks D) : Bool :=
  if c.allocationByFixedQuality then
    decide (distoachieved cumulativeDistortion blocks layno < c.distortionTarget layno)
  else c.fits maxLayerLength layno blocks

def fabs (x : D) : D := if x < 0 then -x else x

/-- Two thresholds are too close to go on. -/
def closeTo (prevthresh thresh : D) : Bool :=
  !(prevthresh == -1) && decide (fabs (prevthresh - thresh) < 1 / ((1000 : Nat) : D))

/-- One round of the search. -/
def Settings.simpleRound (s : Search D D) : Search D D :=
  let thresh := if s.upperBound == -1 then s.lowerBound
    else s.lowerBound + (s.upperBound - s.lowerBound) / ((2 : Nat) : D)
  let blocks := s.blocks.makeLayerSimple layno thresh false
  if closeTo s.prevthresh thresh then { s with blocks, thresh, done := true }
  else
    let s := { s with blocks, prevthresh := thresh, thresh }
    if c.acceptSimple maxLayerLength layno cumulativeDistortion blocks
    then { s with upperBound := thresh } else { s with lowerBound := thresh }

def Settings.simpleSearch (s : Search D D) : Search D D :=
  repeatWhile (fun s => !s.done) (c.simpleRound maxLayerLength layno cumulativeDistortion) 128 s

/-- One layer of `pcrdBisectSimple`. -/
def Settings.simpleLayer (min_slope : D) (layno : Nat) (p : Progress D D) : Progress D D :=
  if c.layerNeedsRateControl layno then
    let s := c.simpleSearch (c.maxLayerLength disableRateControl layno) layno
      p.cumulativeDistortion ⟨p.blocks, min_slope, p.upperBound, -1, 0, false⟩
    let goodthresh := if s.upperBound == -1 then s.thresh else s.upperBound
    let blocks := s.blocks.makeLayerSimple layno goodthresh true
    { blocks
      upperBound := s.lowerBound - 1
      cumulativeDistortion := Function.update p.cumulativeDistortion layno
        (distoachieved p.cumulativeDistortion blocks layno) }
  else { p with blocks := p.blocks.makeLayerFinal layno }

end Simple

/-- The layers of a tile when no layer has a target. -/
def Settings.makeLayersFinal : Blocks D :=
  countTo Blocks.makeLayerFinal c.numLayers blocks

def Settings.feasibleLayers (numLayers : Nat) : Progress Nat D :=
  countTo (c.feasibleLayer disableRateControl (minimumSlope blocks)) numLayers
    ⟨blocks, ushrtMax, c.uninitialized⟩

def Settings.simpleLayers (numLayers : Nat) : Progress D D :=
  countTo (c.simpleLayer disableRateControl (minRDSlope blocks)) numLayers
    ⟨blocks, maxRDSlope blocks, c.uninitialized⟩

/-- The last simulation: all layers, within the length of the last one. -/
def Settings.finish (maxBytes : Nat) : Blocks D × Bool :=
  (blocks, c.simulate c.numLayers (blocks.view c.numLayers) maxBytes)

/-- `maxLayerLength` after the loop over the layers. -/
def Settings.lastLayerLength : Nat :=
  if c.numLayers = 0 then uintMax else c.maxLayerLength disableRateControl (c.numLayers - 1)

def Settings.pcrdBisectFeasible : Blocks D × Bool :=
  if !c.needsRateControl then c.finish (c.makeLayersFinal blocks) uintMax
  else
    c.finish (c.feasibleLayers disableRateControl blocks c.numLayers).blocks
      (c.lastLayerLength disableRateControl)

def Settings.pcrdBisectSimple : Blocks D × Bool :=
  if !c.needsRateControl then c.finish (c.makeLayersFinal blocks) uintMax
  else
    c.finish (c.simpleLayers disableRateControl blocks c.numLayers).blocks
      (c.lastLayerLength disableRateControl)

/-- The blocks with their layers, and whether their packets fit. -/
def Settings.rateAllocate : Blocks D × Bool :=
  if c.rateControlAlgorithm = 0 then c.pcrdBisectSimple disableRateControl blocks
  else c.pcrdBisectFeasible disableRateControl blocks

end GrokCodec.RateControl
