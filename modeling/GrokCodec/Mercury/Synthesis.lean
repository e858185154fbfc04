import GrokCodec.Mercury.VliftQueue
import GrokCodec.Wavelet.Fwd53

/-!
Mercury's streaming 5/3 synthesis of one resolution level. `try_draw` hands out one row at a time. It
pulls rows of the four subbands from a source that may not have them yet, runs the horizontal
transform on each, and drives the vertical lifting steps as a ladder: a rung that lacks a row sends
the loop to a higher rung first.
-/

namespace GrokCodec.Mercury

open Loop Wavelet Function

/-- A band's position and size. In the source these are `i32`, and so is all that is computed from
them; integers stand for them on levels that leave room for it. -/
structure BandDims where
  x0 : Int
  y0 : Int
  w : Int
  h : Int
  deriving DecidableEq, Repr

/-- The geometry inputs of one resolution level. -/
structure LevelSpec where
  node : BandDims
  ll : BandDims
  hl : BandDims
  lh : BandDims

/-- The two entries of an array indexed by parity or phase. -/
def two {α : Type} (a b : α) : Nat → α := fun c => if c = 0 then a else b

structure SynthesisParams where
  yMinOut : Int := 0
  yMaxOut : Int := 0
  xMinOut : Int := 0
  xMaxOut : Int := 0
  xMinPull : Int := 0
  xMinBuf : Int := 0
  yMinIn : Nat → Int := fun _ => 0
  yMaxIn : Nat → Int := fun _ => 0
  xMinIn : Int := 0
  xMaxIn : Int := 0
  phaseOffIn : Nat → Int := fun _ => 0
  phaseWidthIn : Nat → Int := fun _ => 0
  requestOffset : Nat → Int := fun _ => 0
  requestWidth : Nat → Int := fun _ => 0
  leftFill : Nat → Int := fun _ => 0
  rightFill : Nat → Int := fun _ => 0
  phaseOffOut : Nat → Int := fun _ => 0
  phaseWidthOut : Nat → Int := fun _ => 0
  numVertSteps : Nat := 0
  numHorSteps : Nat := 0
  vertSymmetricExtension : Bool := false
  horSymmetricExtension : Bool := false
  reversible : Bool
  unitHeight : Bool := false
  unitWidth : Bool := false
  empty : Bool := false

def requireSingleLine (min max : Int) (empty axis other : String) : Except String Unit :=
  if min = max then .ok ()
  else .error s!"{empty} subband has no {axis} but {other} spans {min}..{max}"

/-- One axis of the geometry: where the even and the odd samples of the inputs begin and end, and
whether the level is a single sample across. -/
def draftAxis (even0 evenLen odd0 oddLen : Int) (axis even odd : String) :
    Except String ((Nat → Int) × (Nat → Int) × Bool) := do
  let minIn := two (2 * even0) (2 * odd0 + 1)
  let maxIn := two (2 * (even0 + evenLen - 1)) (2 * (odd0 + oddLen - 1) + 1)
  let (minIn, maxIn, unit) ←
    if oddLen ≤ 0 then do
      requireSingleLine (minIn 0) (maxIn 0) odd axis even
      pure (two (minIn 0) (minIn 0 + 1), two (maxIn 0) (minIn 0 - 1), true)
    else pure (minIn, maxIn, false)
  if evenLen ≤ 0 then do
    requireSingleLine (minIn 1) (maxIn 1) even axis odd
    pure (two (minIn 1 + 1) (minIn 1), two (minIn 1 - 1) (maxIn 1), true)
  else pure (minIn, maxIn, unit)

/-- `draft_params`; `alignment` is the number of samples in a vector. -/
def draftParams (spec : LevelSpec) (alignment : Nat) (reversible : Bool) (numSteps : Nat)
    (symmetricExtension : Bool) : Except String SynthesisParams := do
  let node := spec.node
  let yMinOut := node.y0
  let yMaxOut := node.y0 + node.h - 1
  let xMinOut := node.x0
  let xMaxOut := node.x0 + node.w - 1
  let xMinPull := xMinOut
  if node.w ≤ 0 ∨ node.h ≤ 0 then
    pure { reversible, empty := true, unitHeight := yMinOut == yMaxOut
           unitWidth := xMinOut == xMaxOut }
  else
    let (yMinIn, yMaxIn, unitHeight) ←
      draftAxis spec.ll.y0 spec.ll.h spec.lh.y0 spec.lh.h "height" "ll" "lh"
    let (minIn, maxIn, unitWidth) ←
      draftAxis spec.ll.x0 spec.ll.w spec.hl.x0 spec.hl.w "width" "ll" "hl"
    let xMinIn := min (minIn 0) (minIn 1)
    let xMaxIn := max (maxIn 0) (maxIn 1)
    let xMinBuf := repeatWhile (fun x => decide (xMinIn < x)) (fun x => x - alignment)
      (xMinPull - xMinIn).toNat xMinPull
    let phaseOffIn := two ((xMinIn + 1) / 2 - (xMinBuf + 1) / 2) (xMinIn / 2 - xMinBuf / 2)
    let phaseWidthIn := two (1 + xMaxIn / 2 - (xMinIn + 1) / 2) (1 + (xMaxIn - 1) / 2 - xMinIn / 2)
    let requestOffset := two (spec.ll.x0 - (xMinBuf + 1) / 2) (spec.hl.x0 - xMinBuf / 2)
    let requestWidth := two spec.ll.w spec.hl.w
    let left0 := requestOffset 0 - phaseOffIn 0
    let left1 := requestOffset 1 - phaseOffIn 1
    let right0 := phaseOffIn 0 + phaseWidthIn 0 - (requestOffset 0 + requestWidth 0)
    let right1 := phaseOffIn 1 + phaseWidthIn 1 - (requestOffset 1 + requestWidth 1)
    if [left0, left1, right0, right1].all fun f => decide (0 ≤ f ∧ f < 256) then
      pure {
        yMinOut, yMaxOut, xMinOut, xMaxOut, xMinPull, xMinBuf, yMinIn, yMaxIn, xMinIn, xMaxIn
        phaseOffIn, phaseWidthIn, requestOffset, requestWidth
        leftFill := two left0 left1
        rightFill := two right0 right1
        phaseOffOut := two ((xMinOut + 1) / 2 - (xMinBuf + 1) / 2) (xMinOut / 2 - xMinBuf / 2)
        phaseWidthOut :=
          two (1 + xMaxOut / 2 - (xMinOut + 1) / 2) (1 + (xMaxOut - 1) / 2 - xMinOut / 2)
        numVertSteps := numSteps
        numHorSteps := numSteps
        vertSymmetricExtension := symmetricExtension
        horSymmetricExtension := symmetricExtension
        reversible, unitHeight, unitWidth }
    else .error s!"level fill out of range: left [{left0}, {left1}] right [{right0}, {right1}]"

/-- A lifting step of the tables. -/
structure StepSpec where
  supportMin : Int
  supportLength : Nat
  downshift : Nat
  roundingOffset : Int
  icoeffs : List Int

/-- What a step subtracts from a sample. -/
def StepSpec.lift (step : StepSpec) (taps : List Int) : Int :=
  (step.roundingOffset + (List.zipWith (· * ·) step.icoeffs taps).sum) / 2 ^ step.downshift

def w5x3Draft : List StepSpec := [⟨0, 2, 1, 1, [-1, -1]⟩, ⟨-1, 2, 2, 2, [1, 1]⟩]

/-- A line buffer: sample `k` of phase `c`, phase 0 holding the even columns. -/
abbrev VliftLine := Nat → Int → Int

def VliftLine.set (l : VliftLine) (c : Nat) (k v : Int) : VliftLine :=
  update l c (update (l c) k v)

/-- The fixed part of an engine: its geometry and lifting tables. -/
structure SynthesisSetup where
  params : SynthesisParams
  steps : List StepSpec

namespace SynthesisSetup

variable (E : SynthesisSetup)

def step (s : Nat) : StepSpec := E.steps.getD s ⟨0, 0, 0, 0, []⟩

/-- How many samples a horizontal step needs beyond each end of a row. -/
def extend (s : Nat) : Nat :=
  let left := -(E.step s).supportMin + (if E.params.xMinIn % 2 ≠ 0 then
    if s % 2 ≠ 0 then -1 else 1 else 0)
  let right := (E.step s).supportMin - 1 + (E.step s).supportLength + (if E.params.xMaxIn % 2 = 0 then
    if s % 2 ≠ 0 then 1 else -1 else 0)
  (max (max left right) 0).toNat

/-- The boundary extension of `mercury_hweave` for the source phase of step `s`. -/
def extendPhase (s : Nat) (first last : Int) (phase : Int → Int) : Int → Int :=
  countTo (fun i phase =>
    let k : Int := i + 1
    if E.params.horSymmetricExtension then
      let phase := update phase (first - k)
        (phase (first + (k - (E.params.xMinIn + s) % 2)))
      update phase (last + k) (phase (last - (k - (E.params.xMaxIn + s) % 2)))
    else
      let phase := update phase (first - k) (phase first)
      update phase (last + k) (phase last)) (E.extend s) phase

/-- One horizontal step: phase `c` is lifted from the extended other phase. -/
def hlift (s : Nat) (line : VliftLine) : VliftLine :=
  let p := E.params
  let c := 1 - s % 2
  let first := p.phaseOffIn (1 - c)
  let source := E.extendPhase s first (first + p.phaseWidthIn (1 - c) - 1) (line (1 - c))
  let sp := first - (if p.xMinIn % 2 ≠ 0 then 2 * (c : Int) - 1 else 0) + (E.step s).supportMin -
    p.phaseOffIn c
  let width := p.phaseWidthIn c + p.phaseOffIn c
  let lifted : Int → Int := fun k =>
    if 0 ≤ k ∧ k < width then
      line c k - (E.step s).lift
        ((List.range (E.step s).supportLength).map fun t : Nat => source (sp + k + t))
    else line c k
  update (update line (1 - c) source) c lifted

/-- The horizontal steps of `mercury_hweave`, the last of the table first. -/
def hliftFrom : Nat → VliftLine → VliftLine
  | 0, line => line
  | s + 1, line => hliftFrom s (if (E.step s).supportLength = 0 then line else E.hlift s line)

/-- The horizontal transform of a filled line. -/
def hsynth (line : VliftLine) : VliftLine :=
  let p := E.params
  if p.numHorSteps = 0 then line
  else if p.unitWidth then
    if p.reversible && p.xMinIn % 2 != 0 then line.set 1 (p.phaseOffIn 1) (line 1 (p.phaseOffIn 1) / 2)
    else line
  else E.hliftFrom p.numHorSteps line

/-- A row of subband samples put into phase `c` of a line, with the fills at its ends. -/
def packPhase (c : Nat) (row : Nat → Int) (line : VliftLine) : VliftLine :=
  let p := E.params
  let first := p.requestOffset c
  let past := first + p.requestWidth c
  update line c fun k =>
    if first ≤ k ∧ k < past then row (k - first).toNat
    else if first - p.leftFill c ≤ k ∧ k < first then row 0
    else if past ≤ k ∧ k < past + p.rightFill c then row (past - 1 - first).toNat
    else line c k

/-- `ply_vlift_step` on the two phases of a line. -/
def plyVlift (s : Nat) (sources : List VliftLine) (vin vout : VliftLine) : VliftLine := fun c k =>
  let p := E.params
  if p.phaseOffOut c ≤ k ∧ k < p.phaseOffOut c + p.phaseWidthOut c then
    vin c k - (E.step s).lift (sources.map fun l => l c k)
  else vout c k

def halvePick (line : VliftLine) : VliftLine := fun c k =>
  let p := E.params
  if p.phaseOffOut c ≤ k ∧ k < p.phaseOffOut c + p.phaseWidthOut c then line c k / 2 else line c k

/-- `splice_output`: the samples of the two phases in turn. -/
def spliceOutput (line : VliftLine) : Line := fun n =>
  let p := E.params
  let c := (p.xMinPull % 2).toNat
  let srcOff := (p.xMinPull - p.xMinBuf) / 2
  if n % 2 = 0 then line c (srcOff + n / 2) else line (1 - c) (srcOff + n / 2)

end SynthesisSetup

/-- A source of subband rows, by subband (0 LL, 1 HL, 2 LH, 3 HH). `answer n` is what the `n`-th
question of `subband_ready` will be told; rows are supplied in order. -/
structure RowSource where
  answer : Nat → Bool
  asked : Nat
  rows : Nat → Nat → Line
  taken : Nat → Nat

namespace RowSource

def subbandReady (src : RowSource) : Bool × RowSource :=
  (src.answer src.asked, { src with asked := src.asked + 1 })

def pack (src : RowSource) (band : Nat) : Line × RowSource :=
  (src.rows band (src.taken band),
    { src with taken := update src.taken band (src.taken band + 1) })

end RowSource

/-- The mutable part of an engine. -/
structure Synthesis where
  lines : Nat → VliftLine
  numLines : Nat
  freeList : List Nat
  queues : Nat → VliftQueue
  stepNextRowPos : Nat → Int
  yNextOut : Int
  yNextIn : Nat → Int
  initialized : Bool

namespace Synthesis

variable (E : SynthesisSetup)

/-- The queues of `assemble`; queue `n` feeds step `n - 1`, queue 0 is the output of the first
step. -/
def warpQueue (n : Nat) : Option VliftQueue :=
  let p := E.params
  let s : Int := n - 1
  let parity := (s % 2).toNat
  let yMin := min (p.yMinIn 0) (p.yMinIn 1)
  let yMax := max (p.yMaxIn 0) (p.yMaxIn 1)
  let localYMin := if yMin + 1 < p.yMinIn parity then p.yMinIn parity else yMin
  let localYMax := if p.yMaxIn parity < yMax - 1 then p.yMaxIn parity else yMax
  let maxSourceRequestIdx :=
    if 0 ≤ s then
      p.yMaxIn parity + 2 * ((E.step (n - 1)).supportMin - 1 + (E.step (n - 1)).supportLength)
    else localYMax - (localYMax - s) % 2
  VliftQueue.warpUp localYMin localYMax s p.vertSymmetricExtension maxSourceRequestIdx

/-- `assemble`, before the first row is drawn. -/
def assemble : Option Synthesis := do
  let p := E.params
  let queues ←
    if p.numVertSteps = 0 ∨ p.unitHeight then some []
    else (List.range (p.numVertSteps + 1)).mapM (warpQueue E)
  some {
    lines := fun _ _ _ => 0
    numLines := 0
    freeList := []
    queues := fun n => queues.getD n ⟨0, 0, [], 0, 0, 0, 0, 0, false, 0⟩
    stepNextRowPos := fun s => p.yMinIn (1 - s % 2)
    yNextOut := 0
    yNextIn := fun _ => 0
    initialized := false }

variable (st : Synthesis)

def warpOutput : Synthesis :=
  { st with yNextOut := E.params.yMinOut, yNextIn := E.params.yMinIn, initialized := true }

/-- Every output row has been produced. -/
def woven : Bool := E.params.empty || (st.initialized && decide (E.params.yMaxOut < st.yNextOut))

def ensureSlackLine : Synthesis :=
  if st.freeList = [] then { st with numLines := st.numLines + 1, freeList := [st.numLines] } else st

/-- `free_list.pop()`. -/
def popLine : Option (Nat × Synthesis) :=
  match st.freeList with
  | [] => none
  | line :: rest => some (line, { st with freeList := rest })

def setLine (n : Nat) (line : VliftLine) : Synthesis :=
  { st with lines := update st.lines n line }

def setQueue (n : Nat) (q : VliftQueue) : Synthesis :=
  { st with queues := update st.queues n q }

def pushPick (n : Nat) (idx : Int) (line : Nat) : Option Synthesis := do
  let (q, freeList) ← (st.queues n).pushPick idx line st.freeList
  some { st.setQueue n q with freeList }

def tapUpdate (n : Nat) (idx : Int) : Option (Option Nat × Synthesis) := do
  let (line, q, freeList) ← (st.queues n).tapUpdate idx st.freeList
  some (line, { st.setQueue n q with freeList })

def tapSource (n : Nat) (idx : Int) (num : Nat) : Option (Option (List Nat) × Synthesis) := do
  let (lines, q, freeList) ← (st.queues n).tapSource idx num st.freeList
  some (lines, { st.setQueue n q with freeList })

/-- `fresh_pick_ready`: both subbands of a row are asked, unless the first says no. -/
def freshPickReady (src : RowSource) : Bool × RowSource :=
  let (first, src) := if 0 < E.params.requestWidth 0 then src.subbandReady else (true, src)
  if first = false then (false, src)
  else if 0 < E.params.requestWidth 1 then src.subbandReady else (true, src)

/-- The next row of one subband, into its phase of a line. -/
def pullPhase (parity c : Nat) (line : VliftLine) (src : RowSource) : VliftLine × RowSource :=
  if 0 < E.params.requestWidth c then
    let (row, src) := src.pack (2 * parity + c)
    (E.packPhase c row line, src)
  else (line, src)

/-- The next row of a parity, from both of its subbands, horizontally transformed. -/
def pullRow (parity : Nat) (line : VliftLine) (src : RowSource) : VliftLine × RowSource :=
  let (line, src) := pullPhase E parity 0 line src
  let (line, src) := pullPhase E parity 1 line src
  (E.hsynth line, src)

def hweave (n parity : Nat) (src : RowSource) : Synthesis × RowSource :=
  let (line, src) := pullRow E parity (st.lines n) src
  (st.setLine n line, src)

/-- How a rung of the ladder ends. -/
inductive Rung where
  | next
  | broke (sMax : Nat)
  | stalled
  deriving DecidableEq, Repr

/-- The top rung: a fresh row for the queue of the last step. -/
def freshRung (s : Nat) (src : RowSource) : Option (Rung × Synthesis × RowSource) :=
  let parity := 1 - s % 2
  if E.params.yMaxIn parity < st.yNextIn parity then some (.next, st, src)
  else
    let (ready, src) := freshPickReady E src
    if ready = false then some (.stalled, st, src)
    else do
      let (line, st) ← st.ensureSlackLine.popLine
      let (st, src) := st.hweave E line parity src
      let st ← st.pushPick s (st.yNextIn parity) line
      let yNextIn := update st.yNextIn parity (st.yNextIn parity + 2)
      some (.next, { st with yNextIn }, src)

/-- `idx ^ 1`. -/
def flip (idx : Int) : Int := if idx % 2 = 0 then idx + 1 else idx - 1

/-- The row a step lifts: the last step pulls it fresh into a free line that stays on top of the free
list; the others take it from the queue of the next step. -/
def stepInput (s : Nat) (stepRow : Int) (src : RowSource) : Option (Nat × Synthesis × RowSource) :=
  let parity := 1 - s % 2
  if s + 1 = E.params.numVertSteps then
    let st := st.ensureSlackLine
    if stepRow ≠ st.yNextIn parity then none
    else do
      let line ← st.freeList.head?
      let (st, src) := st.hweave E line parity src
      let yNextIn := update st.yNextIn parity (st.yNextIn parity + 2)
      some (line, { st with yNextIn }, src)
  else do
    let (line, st) ← st.tapUpdate (s + 2) stepRow
    let line ← line
    some (line, st.ensureSlackLine, src)

/-- A lifting step with its source rows at hand. -/
def applyStep (s : Nat) (stepRow : Int) (sources : List Nat) (src : RowSource) :
    Option (Rung × Synthesis × RowSource) := do
  let (vlineIn, st, src) ← st.stepInput E s stepRow src
  let (vlineOut, st) ← st.popLine
  let st ← st.pushPick s stepRow vlineOut
  let line := if (E.step s).supportLength = 0 then st.lines vlineIn
    else E.plyVlift s (sources.map st.lines) (st.lines vlineIn) (st.lines vlineOut)
  let stepNextRowPos := update st.stepNextRowPos s (stepRow + 2)
  some (.next, { st.setLine vlineOut line with stepNextRowPos }, src)

/-- A lifting rung. -/
def liftRung (s : Nat) (src : RowSource) : Option (Rung × Synthesis × RowSource) :=
  let parity := 1 - s % 2
  let last := s + 1 = E.params.numVertSteps
  let stepRow := st.stepNextRowPos s
  if E.params.yMaxIn parity < stepRow then some (.next, st, src)
  else
    let (found, q) :=
      if last then (true, st.queues (s + 2)) else (st.queues (s + 2)).probeUpdate stepRow
    let st := st.setQueue (s + 2) q
    if found = false then some (.broke (s + 2), st, src)
    else
      let (ready, src) := if last then freshPickReady E src else (true, src)
      if ready = false then some (.stalled, st, src)
      else
        let srcIdx := flip stepRow + 2 * (E.step s).supportMin
        let st := if last then st.setQueue 1 ((st.queues 1).setBeatLimit (srcIdx - 2)) else st
        if (E.step s).supportLength = 0 then st.applyStep E s stepRow [] src
        else do
          let (sources, st) ← st.tapSource (s + 1) srcIdx (E.step s).supportLength
          match sources with
          | none => some (.broke (s + 1), st, src)
          | some sources => st.applyStep E s stepRow sources src

def rung (s : Nat) (src : RowSource) : Option (Rung × Synthesis × RowSource) :=
  if s = E.params.numVertSteps then st.freshRung E s src else st.liftRung E s src

/-- `for (s = s_max; s >= 0; s--)`, from rung `n - 1` down. -/
def climb : Nat → Synthesis → RowSource → Option (Rung × Synthesis × RowSource)
  | 0, st, src => some (.next, st, src)
  | s + 1, st, src => do
    let (r, st, src) ← st.rung E s src
    match r with
    | .next => climb s st src
    | r => some (r, st, src)

/-- The loop of `vweave`, entered at most `bound` times. The result is the line of the finished row,
or `none` for a stall. -/
def weaveLoop : Nat → Nat → Synthesis → RowSource → Option (Option Nat × Synthesis × RowSource)
  | 0, _, _, _ => none
  | bound + 1, n, st, src => do
    let (r, st, src) ← climb E n st src
    match r with
    | .stalled => some (none, st, src)
    | .broke sMax => weaveLoop bound (sMax + 1) st src
    | .next =>
      let sMax := (1 - st.yNextOut % 2).toNat
      let (line, st) ← st.tapUpdate sMax st.yNextOut
      match line with
      | some line => some (some line, st, src)
      | none => weaveLoop bound (sMax + 1) st src

/-- Bound for the loop of `vweave`: each entry takes a row, finishes a row, or starts on a higher
rung. -/
def weaveBound : Nat := 8 * ((E.params.yMaxOut - E.params.yMinOut).toNat + 4)

def vweave (src : RowSource) : Option (Option Nat × Synthesis × RowSource) :=
  weaveLoop E (weaveBound E) 0 st src

inductive PullStatus where
  | row
  | stalled
  deriving DecidableEq, Repr

/-- `try_draw`. The result is the status and the output row. -/
def tryDraw (output : Line) (src : RowSource) :
    Option (PullStatus × Line × Synthesis × RowSource) :=
  if E.params.empty then some (.row, output, st, src)
  else
    let st := if st.initialized then st else st.warpOutput E
    if E.params.yMaxOut < st.yNextOut then none
    else if E.params.numVertSteps = 0 ∨ E.params.unitHeight then
      let (ready, src) := freshPickReady E src
      if ready = false then some (.stalled, output, st, src)
      else do
        let parity := (st.yNextOut % 2).toNat
        let st := st.ensureSlackLine
        let line ← st.freeList.head?
        let (st, src) := st.hweave E line parity src
        let st := if E.params.unitHeight && E.params.reversible && st.yNextOut % 2 != 0 then
          st.setLine line (E.halvePick (st.lines line)) else st
        some (.row, E.spliceOutput (st.lines line), { st with yNextOut := st.yNextOut + 1 }, src)
    else do
      let (line, st, src) ← st.vweave E src
      match line with
      | none => some (.stalled, output, st, src)
      | some line =>
        some (.row, E.spliceOutput (st.lines line), { st with yNextOut := st.yNextOut + 1 }, src)

end Synthesis

end GrokCodec.Mercury
