import GrokCodec.Codestream.SIZMarker

/-!
The COD, COC, QCD and QCC marker segments of a header, and the coding parameters they set: those of
a tile, or of all tiles in the main header.
-/

namespace GrokCodec.Codestream

open ByteStream

structure Stepsize where
  expn : Nat := 0
  mant : Nat := 0
  deriving DecidableEq, Repr

structure TileComponentCodingParams where
  csty : Nat := 0
  numresolutions : Nat := 0
  cblkwExpn : Nat := 0
  cblkhExpn : Nat := 0
  cblkStyle : Nat := 0
  qmfbid : Nat := 0
  atkIndex : Nat := 0
  dfsIndex : Nat := 0
  quantizationMarkerSet : Bool := false
  fromQCC : Bool := false
  fromTileHeader : Bool := false
  qntsty : Nat := 0
  stepsizes : Nat → Stepsize := fun _ => {}
  numStepSizes : Nat := 0
  numgbits : Nat := 0
  precWidthExp : Nat → Nat := fun _ => 0
  precHeightExp : Nat → Nat := fun _ => 0

structure TileCodingParams where
  numComps : Nat
  tccps : Nat → TileComponentCodingParams := fun _ => {}
  csty : Nat := 0
  prg : Option Nat := none
  numLayers : Nat := 0
  layersToDecompress : Nat := 0
  mct : Nat := 0
  mainQcdQntsty : Nat := 0
  mainQcdNumStepSizes : Nat := 0
  cod : Nat := 0
  sawCoc : Bool := false

/-- The settings of the decompressor that the markers are checked against. -/
structure DecompressorParams where
  reduce : Nat := 0
  layersToDecompress : Nat := 0

def maxDecompLvls : Nat := 32

def maxBands : Nat := 3 * (maxDecompLvls + 1) - 2

def numProgressionOrders : Nat := 6

def dfsReferenceFlag : Nat := 0x80

def qntstyNoqnt : Nat := 0
def qntstySiqnt : Nat := 1
def qntstySeqnt : Nat := 2

namespace TileComponentCodingParams

variable (tccp : TileComponentCodingParams) (fromTileHeader fromQCC : Bool)

/-- The marker does not count for the component, by the scoping rules. -/
def ignores : Bool :=
  tccp.quantizationMarkerSet &&
    (let setMainQCD := !tccp.fromQCC && !tccp.fromTileHeader
     let setMainQCC := tccp.fromQCC && !tccp.fromTileHeader
     let setTileHeaderQCD := !tccp.fromQCC && tccp.fromTileHeader
     let setTileHeaderQCC := tccp.fromQCC && tccp.fromTileHeader
     if fromTileHeader then setTileHeaderQCC || setTileHeaderQCD && !fromQCC
     else setMainQCC || !fromQCC && setMainQCD)

/-- The number of step sizes of a segment, from its length. -/
def countStepSizes (qntsty headerSize : Nat) : Nat :=
  if qntsty = qntstySiqnt then 1
  else if qntsty = qntstyNoqnt then u8 headerSize else u8 (headerSize / 2)

/-- The bytes of one step size. -/
def stepWidth (qntsty : Nat) : Nat := if qntsty = qntstyNoqnt then 1 else 2

def readStepsize (qntsty : Nat) (body : List Nat) (bandNo : Nat) : Stepsize :=
  let tmp := (grkRead (stepWidth qntsty) (body.drop (stepWidth qntsty * bandNo))).1
  if qntsty = qntstyNoqnt then ⟨u8 (tmp >>> 3), 0⟩ else ⟨u8 (tmp >>> 11), u16 (tmp &&& 0x7ff)⟩

/-- The step sizes that are not signalled, from the first one. -/
def deriveStepsizes (stepsizes : Nat → Stepsize) (bandNo : Nat) : Stepsize :=
  if 1 ≤ bandNo ∧ bandNo < maxBands then
    let bandDividedBy3 := u8 ((bandNo - 1) / 3)
    let expn := if (stepsizes 0).expn > bandDividedBy3 then
      u8 ((stepsizes 0).expn - bandDividedBy3) else 0
    ⟨expn, (stepsizes 0).mant⟩
  else stepsizes bandNo

/-- The quantization of a component is set from a segment. -/
def setQuantization (sqcx : Nat) (body : List Nat) : TileComponentCodingParams :=
  let qntsty := sqcx &&& 0x1f
  let numStepSizes := countStepSizes qntsty body.length
  let stepsizes := fun bandNo =>
    if bandNo < numStepSizes ∧ bandNo < maxBands then readStepsize qntsty body bandNo
    else tccp.stepsizes bandNo
  { tccp with
    quantizationMarkerSet := true, fromQCC, fromTileHeader, qntsty, numStepSizes
    numgbits := u8 (sqcx >>> 5)
    stepsizes := if qntsty = qntstySiqnt then deriveStepsizes stepsizes else stepsizes }

/-- `readSQcdSQcc`, for the component: its parameters and the rest of the segment. The step sizes
of a marker that does not count are passed over by the number of those that do. -/
def readSQcdSQcc :
    List Nat → Option (TileComponentCodingParams × List Nat)
  | [] => none
  | sqcx :: body =>
    let qntsty := sqcx &&& 0x1f
    let next := if tccp.ignores fromTileHeader fromQCC then tccp
      else tccp.setQuantization fromTileHeader fromQCC sqcx body
    if qntsty > qntstySeqnt ∨ body.length < stepWidth qntsty * next.numStepSizes then none
    else some (next, body.drop (stepWidth qntsty * next.numStepSizes))

def cblkStyleOk (cblkStyle : Nat) : Bool :=
  let lower6 := cblkStyle &&& 0x3f
  !(cblkStyle &&& 0x40 = 0x40 && (lower6 &&& 0x01) ||| (lower6 &&& 0x02) ≠ 0) && cblkStyle >>> 6 ≠ 2

/-- The number of resolutions and the DFS marker, from the first byte of SPcod or SPcoc. -/
def readLevels (fromCoc : Bool) (levels : Nat) : Option TileComponentCodingParams :=
  if levels &&& dfsReferenceFlag ≠ 0 then
    if !fromCoc ∨ tccp.numresolutions = 0 then none
    else some { tccp with dfsIndex := levels &&& 0x7f }
  else if levels > maxDecompLvls then none
  else some { tccp with numresolutions := u8 (levels + 1), dfsIndex := 0 }

/-- Only the lowest resolution may have precincts of one sample. -/
def precinctOk (i byte : Nat) : Bool := i = 0 || byte &&& 0xf ≠ 0 && byte >>> 4 ≠ 0

/-- The precinct sizes: those of the segment, or the default. -/
def readPrecincts (data : List Nat) : Option (TileComponentCodingParams × List Nat) :=
  let sizes (f : Nat → Nat) (old : Nat → Nat) (i : Nat) :=
    if i < tccp.numresolutions then f i else old i
  if tccp.csty &&& 1 ≠ 0 then
    if data.length < tccp.numresolutions ∨
        ¬(List.range tccp.numresolutions).all fun i => precinctOk i (data.getD i 0) then none
    else some (
      { tccp with
        precWidthExp := sizes (fun i => data.getD i 0 &&& 0xf) tccp.precWidthExp
        precHeightExp := sizes (fun i => data.getD i 0 >>> 4) tccp.precHeightExp },
      data.drop tccp.numresolutions)
  else some (
    { tccp with
      precWidthExp := sizes (fun _ => 15) tccp.precWidthExp
      precHeightExp := sizes (fun _ => 15) tccp.precHeightExp }, data)

/-- Code blocks and transform. A transform above 1 is that of an ATK marker. -/
def setCodeblocks (cblkw cblkh cblkStyle transform : Nat) : TileComponentCodingParams :=
  { tccp with
    cblkwExpn := u8 (cblkw + 2), cblkhExpn := u8 (cblkh + 2), cblkStyle
    atkIndex := if transform > 1 then transform else 0
    qmfbid := if transform > 1 then 0 else transform }

/-- `readSPCodSPCoc`, for the component: its parameters and the rest of the segment. -/
def readSPCodSPCoc (dec : DecompressorParams) (fromCoc : Bool) (tccp : TileComponentCodingParams) :
    List Nat → Option (TileComponentCodingParams × List Nat)
  | levels :: cblkw :: cblkh :: cblkStyle :: transform :: rest => do
    let tccp ← tccp.readLevels fromCoc levels
    if dec.reduce ≥ tccp.numresolutions ∨ cblkw > 8 ∨ cblkh > 8 ∨ cblkw + cblkh > 8 ∨
        !cblkStyleOk cblkStyle then none
    else (tccp.setCodeblocks cblkw cblkh cblkStyle transform).readPrecincts rest
  | _ => none

/-- What the other components take from the first one after a COD marker. -/
def copyCodingStyle (tccp ref : TileComponentCodingParams) : TileComponentCodingParams :=
  { tccp with
    numresolutions := ref.numresolutions, cblkwExpn := ref.cblkwExpn, cblkhExpn := ref.cblkhExpn
    cblkStyle := ref.cblkStyle, qmfbid := ref.qmfbid, atkIndex := ref.atkIndex
    precWidthExp := fun i =>
      if i < ref.numresolutions then ref.precWidthExp i else tccp.precWidthExp i
    precHeightExp := fun i =>
      if i < ref.numresolutions then ref.precHeightExp i else tccp.precHeightExp i }

/-- What the other components take from the first one after a QCD marker. -/
def copyQuantization (tccp src : TileComponentCodingParams) : TileComponentCodingParams :=
  if tccp.fromQCC && (!src.fromTileHeader || tccp.fromTileHeader) then tccp
  else { tccp with
    qntsty := src.qntsty, numgbits := src.numgbits
    stepsizes := fun bandNo =>
      if bandNo < maxBands then src.stepsizes bandNo else tccp.stepsizes bandNo }

end TileComponentCodingParams

namespace TileCodingParams

open TileComponentCodingParams

variable (tcp : TileCodingParams) (dec : DecompressorParams)

/-- `TileCodingParams` of a tile, from those of the main header. -/
def copy : TileCodingParams := { tcp with cod := 0, sawCoc := false }

def setTccp (compno : Nat) (tccp : TileComponentCodingParams) : TileCodingParams :=
  { tcp with tccps := Function.update tcp.tccps compno tccp }

/-- The bytes of a component number. -/
def compRoom (numComps : Nat) : Nat := if numComps ≤ 256 then 1 else 2

theorem compNo_eq {numComps i : Nat} (hn : numComps ≤ 65536) (hi : i < numComps) (rest : List Nat) :
    (grkRead (compRoom numComps) (beBytes (compRoom numComps) i ++ rest)).1 = i := by
  rw [grkRead, List.take_left' (length_beBytes _ _)]
  apply ofBytes_beBytes
  rw [compRoom]
  split <;> omega

def readQcd (fromTileHeader : Bool) (headerData : List Nat) : Option TileCodingParams := do
  let old := tcp.tccps 0
  let (src, rest) ← old.readSQcdSQcc fromTileHeader false headerData
  if rest ≠ [] then none
  else
    let mainQCD := !fromTileHeader && !old.ignores fromTileHeader false
    some { tcp with
      tccps := fun i => if i = 0 then src
        else if i < tcp.numComps then (tcp.tccps i).copyQuantization src else tcp.tccps i
      mainQcdQntsty := if mainQCD then src.qntsty else tcp.mainQcdQntsty
      mainQcdNumStepSizes := if mainQCD then src.numStepSizes else tcp.mainQcdNumStepSizes }

def readQcc (fromTileHeader : Bool) (headerData : List Nat) : Option TileCodingParams :=
  let room := compRoom tcp.numComps
  if headerData.length < room then none
  else
    let compNo := (grkRead room headerData).1
    if compNo ≥ tcp.numComps then none
    else do
      let (tccp, rest) ← (tcp.tccps compNo).readSQcdSQcc fromTileHeader true (headerData.drop room)
      if rest ≠ [] then none else some (tcp.setTccp compNo tccp)

def readCoc (headerData : List Nat) : Option TileCodingParams :=
  let room := compRoom tcp.numComps
  if headerData.length < room + 1 then none
  else
    let compNo := (grkRead room headerData).1
    if compNo ≥ tcp.numComps then none
    else do
      let csty := headerData.getD room 0
      let (tccp, rest) ← { tcp.tccps compNo with csty }.readSPCodSPCoc dec true
        (headerData.drop (room + 1))
      if rest ≠ [] then none else some { tcp.setTccp compNo tccp with sawCoc := true }

def updateLayersToDecompress (numLayers : Nat) : Nat :=
  let max := max tcp.layersToDecompress dec.layersToDecompress
  if max ≠ 0 then max else numLayers

/-- `readCod`. A second COD marker is passed over. -/
def readCod (headerData : List Nat) : Option TileCodingParams :=
  if tcp.cod + 1 > 1 then some { tcp with cod := tcp.cod + 1 }
  else match headerData with
  | csty :: prg :: layersHi :: layersLo :: mct :: rest => do
    let numLayers := ofBytes [layersHi, layersLo]
    if csty &&& 0xf8 ≠ 0 ∨ prg ≥ numProgressionOrders ∨ numLayers = 0 ∨ mct > 1 then none
    else
      let styled := fun i => { tcp.tccps i with csty := csty &&& 1 }
      let (ref, rest) ← (styled 0).readSPCodSPCoc dec false rest
      if rest ≠ [] then none
      else some { tcp with
        cod := tcp.cod + 1, csty, prg := some prg, numLayers, mct
        layersToDecompress := tcp.updateLayersToDecompress dec numLayers
        tccps := fun i => if i = 0 then ref
          else if i < tcp.numComps then (styled i).copyCodingStyle ref else tcp.tccps i }
  | _ => none

end TileCodingParams

end GrokCodec.Codestream
