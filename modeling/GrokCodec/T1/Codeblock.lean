import GrokCodec.Lib.Relational
import GrokCodec.Util.Geometry

/-!
A code block while packets are parsed. The packet header says which passes and how many bytes a
layer adds to which segment of the code block, and the packet data is then cut into chunks for
these segments. Both work on the same list of segments.
-/

namespace GrokCodec.T1

open Relational Function

inductive HeaderError where
  | truncatedPacketHeader
  | invalidMarker (marker : Nat)
  | corruptPacketHeader
  /-- A loop of the model ran out of rounds. -/
  | outOfFuel
  deriving DecidableEq, Repr

/-- A reader of bits: `ct` bits of `buf` are left. -/
structure BitIO where
  start : List Nat
  offset : Nat := 0
  buf : Nat := 0
  ct : Nat := 0
  read0xFF : Bool := false
  deriving DecidableEq, Repr

namespace BitIO

def bytein (b : BitIO) : Except HeaderError BitIO :=
  match b.start[b.offset]? with
  | none => .error .truncatedPacketHeader
  | some byte =>
    if b.read0xFF ∧ b.buf ≥ 0x90 then .error (.invalidMarker (0xFF00 + b.buf))
    else
      let read0xFF := decide (b.buf = 0xff)
      .ok { b with read0xFF, ct := if read0xFF then 7 else 8, buf := byte, offset := b.offset + 1 }

/-- `getbit`: the bit and the reader after it. -/
def getbit (b : BitIO) : Except HeaderError (Nat × BitIO) := do
  let b ← if b.ct = 0 then b.bytein else pure b
  let ct := b.ct - 1
  return ((b.buf >>> ct) % 2, { b with ct })

/-- No more bits than these can be read. -/
def bitsLeft (b : BitIO) : Nat := b.ct + 8 * (b.start.length - b.offset)

end BitIO

structure Segment where
  /-- Passes whose data was parsed. -/
  totalPasses : UInt8 := 0
  /-- Passes that headers announced. -/
  headerTotalPasses : UInt8 := 0
  maxPasses : UInt8 := 0
  calculatedPassesInLayer : Nat → UInt8 := fun _ => 0
  totalBytes : Nat := 0
  signalledBytesInLayer : Nat → Nat := fun _ => 0
  /-- Offset and length of every chunk. -/
  dataChunks : List (Nat × Nat) := []

instance : Inhabited Segment := ⟨{}⟩

inductive HTState where
  | none
  | placeholders
  | coded
  | part1
  deriving DecidableEq, Repr

/-- `CodeblockDecompressImpl`, as far as parsing goes. -/
structure Codeblock where
  segs : List Segment := []
  signalledPassesByLayer : Nat → UInt8 := fun _ => 0
  numlenbits : UInt8 := 0
  htState : HTState := .none
  numDataParsedSegments : UInt8 := 0
  dataParsedLayers : Nat := 0

variable (cblk : Codeblock)

namespace Codeblock

/-- `segs_.back()`. -/
def back : Segment := cblk.segs.getLastD default

def modifyBack (f : Segment → Segment) : Codeblock :=
  { cblk with segs := cblk.segs.modify (cblk.segs.length - 1) f }

def push (maxPasses : UInt8) : Codeblock :=
  { cblk with segs := cblk.segs ++ [{ maxPasses }] }

/-- `std::accumulate` in eight bits. -/
def totalHeaderPasses : UInt8 :=
  cblk.segs.foldl (fun total seg => total + seg.headerTotalPasses) 0

end Codeblock

def maxPassesPerSegmentJ2K : UInt8 := 112

def maxSegmentLengthBits : UInt8 := 16

def htOpenSegmentPasses : UInt8 := 255

def hasStyle (cblk_sty flag : UInt8) : Bool := cblk_sty &&& flag ≠ 0

/-- `GRK_CBLKSTY_LAZY`, `GRK_CBLKSTY_TERMALL`, `GRK_CBLKSTY_HT_ONLY`, `GRK_CBLKSTY_HT_MIXED`. -/
def styLazy : UInt8 := 0x01
def styTermAll : UInt8 := 0x04
def styHTOnly : UInt8 := 0x40
def styHTMixed : UInt8 := 0xC0

def partOneMaxPasses (cblk_sty previousMaxPasses : UInt8) : UInt8 :=
  if hasStyle cblk_sty styTermAll then 1
  else if hasStyle cblk_sty styLazy then
    if previousMaxPasses = 0 then 10
    else if previousMaxPasses = 1 ∨ previousMaxPasses = 10 then 2 else 1
  else maxPassesPerSegmentJ2K

def floorlog2 (a : UInt8) : UInt8 := .ofNat a.toNat.log2

/-- What a call of `readPacketHeader` works on. `contributions` collects the passes and bytes that
it records for the layer, segment by segment. -/
structure Reader where
  cblk : Codeblock
  bio : BitIO
  signalledLayerDataBytes : Nat := 0
  contributions : List (UInt8 × Nat) := []

abbrev HeaderM := Program Reader HeaderError

def onCblk (f : Codeblock → Codeblock) : HeaderM PUnit := modify fun s => { s with cblk := f s.cblk }

/-- `bio->read()`. -/
def readBit : HeaderM Nat := do
  match ← gets fun s => s.bio.getbit with
  | .error e => throw e
  | .ok (bit, bio) =>
    modify fun s => { s with bio }
    return bit

/-- `bio->read(&bits, n)`, the most significant bit first. -/
def readBits : Nat → HeaderM Nat
  | 0 => return 0
  | n + 1 => do
    let bit ← readBit
    let rest ← readBits n
    return bit <<< n ||| rest

def commaRounds : Nat → UInt8 → HeaderM UInt8
  | 0, _ => throw .outOfFuel
  | fuel + 1, n => do
    let bit ← readBit
    if bit = 0 then return n else commaRounds fuel (n + 1)

def getcommacode : HeaderM UInt8 := do
  let fuel ← gets fun s => s.bio.bitsLeft + 1
  commaRounds fuel 0

def getnumpasses : HeaderM UInt8 := do
  let n ← readBit
  if n = 0 then return 1
  else
    let n ← readBit
    if n = 0 then return 2
    else
      let n ← readBits 2
      if n ≠ 3 then return .ofNat (n + 3)
      else
        let n ← readBits 5
        if n ≠ 31 then return .ofNat (n + 6)
        else
          let n ← readBits 7
          return .ofNat (n + 37)

def readLength (bits : UInt8) : HeaderM Nat := do
  if bits > maxSegmentLengthBits then throw .corruptPacketHeader
  else
    let bytes ← readBits bits.toNat
    if bytes > 0xFFFF then throw .corruptPacketHeader else return bytes

/-- The length field of a contribution of some passes. -/
def readLengthOf (passes : UInt8) : HeaderM Nat := do
  let numlenbits ← gets fun s => s.cblk.numlenbits
  readLength (numlenbits + floorlog2 passes)

variable (layno : Nat)

/-- `recordLayerContribution` for the last segment. -/
def recordLayerContribution (passes : UInt8) (bytes : Nat) : HeaderM PUnit :=
  modify fun s => { s with
    cblk := s.cblk.modifyBack fun seg => { seg with
      calculatedPassesInLayer := update seg.calculatedPassesInLayer layno passes
      signalledBytesInLayer := update seg.signalledBytesInLayer layno (u16 bytes)
      headerTotalPasses := seg.headerTotalPasses + passes }
    signalledLayerDataBytes := u32 (s.signalledLayerDataBytes + bytes)
    contributions := s.contributions ++ [(passes, u16 bytes)] }

def newSegment (cblk_sty : UInt8) : HeaderM PUnit :=
  onCblk fun cblk =>
    cblk.push (partOneMaxPasses cblk_sty (if cblk.segs.isEmpty then 0 else cblk.back.maxPasses))

/-- The passes of a layer that fit into a segment. -/
def fittingPasses (maxPasses headerTotalPasses remainingPassesInLayer : UInt8) : HeaderM UInt8 :=
  if maxPasses = maxPassesPerSegmentJ2K then
    if remainingPassesInLayer > maxPassesPerSegmentJ2K then throw .corruptPacketHeader
    else pure remainingPassesInLayer
  else pure (min (maxPasses - headerTotalPasses) remainingPassesInLayer)

/-- The passes of a layer that the current segment takes. -/
def segmentPasses (remainingPassesInLayer : UInt8) : HeaderM UInt8 := do
  let maxPasses ← gets fun s => s.cblk.back.maxPasses
  let headerTotalPasses ← gets fun s => s.cblk.back.headerTotalPasses
  let passes ← fittingPasses maxPasses headerTotalPasses remainingPassesInLayer
  onCblk fun cblk => cblk.modifyBack fun seg => { seg with
    calculatedPassesInLayer := update seg.calculatedPassesInLayer layno passes }
  if passes > remainingPassesInLayer then throw .corruptPacketHeader else return passes

/-- The loop over the segments of a layer. -/
def parseSegments (cblk_sty : UInt8) (layno : Nat) : Nat → UInt8 → HeaderM PUnit
  | 0, _ => throw .outOfFuel
  | fuel + 1, remainingPassesInLayer => do
    let passes ← segmentPasses layno remainingPassesInLayer
    let bytes ← readLengthOf passes
    recordLayerContribution layno passes bytes
    let remainingPassesInLayer := remainingPassesInLayer - passes
    if remainingPassesInLayer > 0 then
      newSegment cblk_sty
      parseSegments cblk_sty layno fuel remainingPassesInLayer
    else return ⟨⟩

def newHTSegment (maxPasses : UInt8) : HeaderM PUnit := onCblk fun cblk => cblk.push maxPasses

def readExtraBits : Nat → Nat → HeaderM Nat
  | 0, bytes => return bytes
  | n + 1, bytes => do
    let bit ← readBit
    readExtraBits n (bytes <<< 1 ||| bit)

/-- What the length field of a placeholder contribution turns out to be: the passes and the bytes
it covers. It also finds the first cleanup pass. -/
def readPlaceholderLength (mixed : Bool) (remainingPassesInLayer refinementPasses : UInt8) :
    HeaderM (UInt8 × Nat) := do
  if remainingPassesInLayer ≤ refinementPasses then
    let bytes ← readLengthOf remainingPassesInLayer
    return (remainingPassesInLayer, bytes)
  else
    let passes := remainingPassesInLayer - refinementPasses
    let numlenbits ← gets fun s => s.cblk.numlenbits
    let lengthBits := numlenbits + floorlog2 passes
    let bytes ← readLength lengthBits
    let lengthMsbClear := decide (bytes >>> (lengthBits.toNat - 1) = 0)
    let cleanupFound :=
      decide (bytes ≠ 0) &&
        (!mixed || (decide (numlenbits > 3) && decide (bytes > 1) && lengthMsbClear))
    if cleanupFound then
      if bytes < 2 then throw .corruptPacketHeader
      else
        onCblk fun cblk => { cblk with htState := .coded }
        return (passes, bytes)
    else
      let extraBits := floorlog2 remainingPassesInLayer - floorlog2 passes
      let bytes ← readExtraBits extraBits.toNat bytes
      return (remainingPassesInLayer, bytes)

/-- Bytes where only placeholders can be belong to a Part 1 code block. -/
def enterPartOne (mixed : Bool) (cblk_sty : UInt8) : HeaderM PUnit :=
  if mixed then
    onCblk fun cblk =>
      { cblk.modifyBack (fun seg => { seg with maxPasses := partOneMaxPasses cblk_sty 0 }) with
        htState := .part1 }
  else throw .corruptPacketHeader

/-- The part of `readHTPacketHeader` for a block without a cleanup pass so far; returns the passes
that are left for the segments after it. -/
def readPlaceholders (remainingPassesInLayer cblk_sty : UInt8) : HeaderM UInt8 := do
  let mixed := decide (cblk_sty &&& styHTMixed = styHTMixed)
  let empty ← gets fun s => s.cblk.segs.isEmpty
  whenever empty (newHTSegment htOpenSegmentPasses)
  let passIndex ← gets fun s => s.cblk.back.headerTotalPasses
  let refinementPasses : UInt8 :=
    .ofNat ((passIndex.toNat + remainingPassesInLayer.toNat - 1) % 3)
  let covered ← readPlaceholderLength mixed remainingPassesInLayer refinementPasses
  let partOne ← gets fun s => decide (s.cblk.htState ≠ .coded ∧ covered.2 ≠ 0)
  whenever partOne (enterPartOne mixed cblk_sty)
  recordLayerContribution layno covered.1 covered.2
  let htState ← gets fun s => s.cblk.htState
  if htState ≠ .coded then return 0
  else
    onCblk fun cblk => cblk.modifyBack fun seg => { seg with maxPasses := seg.headerTotalPasses }
    return remainingPassesInLayer - covered.1

/-- Cleanup passes form one segment, the refinement passes of the same set another. -/
def openHTSegment (phase maxPasses headerTotalPasses : UInt8) : HeaderM PUnit :=
  if phase = 0 then newHTSegment 1
  else whenever (!decide (maxPasses = 2 ∧ headerTotalPasses < 2)) (newHTSegment 2)

/-- The loop over cleanup and refinement segments. -/
def parseHTSegments (layno : Nat) : Nat → UInt8 → HeaderM PUnit
  | 0, remainingPassesInLayer =>
    if remainingPassesInLayer = 0 then return ⟨⟩ else throw .outOfFuel
  | fuel + 1, remainingPassesInLayer => do
    if remainingPassesInLayer = 0 then return ⟨⟩
    else
      let phase ← gets fun s => s.cblk.totalHeaderPasses % 3
      let maxPasses ← gets fun s => s.cblk.back.maxPasses
      let headerTotalPasses ← gets fun s => s.cblk.back.headerTotalPasses
      let passes : UInt8 := if phase = 0 then 1 else min (3 - phase) remainingPassesInLayer
      openHTSegment phase maxPasses headerTotalPasses
      let bytes ← readLengthOf passes
      whenever (decide (phase = 0 ∧ bytes = 1)) (throw .corruptPacketHeader)
      recordLayerContribution layno passes bytes
      parseHTSegments layno fuel (remainingPassesInLayer - passes)

def readHTPacketHeader (remainingPassesInLayer cblk_sty : UInt8) : HeaderM PUnit := do
  let htState ← gets fun s => s.cblk.htState
  if htState = .placeholders then
    let remainingPassesInLayer ← readPlaceholders layno remainingPassesInLayer cblk_sty
    parseHTSegments layno 256 remainingPassesInLayer
  else parseHTSegments layno 256 remainingPassesInLayer

/-- The Part 1 rules: a new segment if there is none or the last one is full. -/
def readPartOnePacketHeader (passes cblk_sty : UInt8) : HeaderM PUnit := do
  let full ← gets fun s =>
    s.cblk.segs.isEmpty || s.cblk.back.headerTotalPasses == s.cblk.back.maxPasses
  whenever full (newSegment cblk_sty)
  parseSegments cblk_sty layno 256 passes

def readPacketHeader (cblk_sty : UInt8) : HeaderM PUnit := do
  let passes ← getnumpasses
  onCblk fun cblk => { cblk with
    signalledPassesByLayer := update cblk.signalledPassesByLayer layno passes }
  let increment ← getcommacode
  onCblk fun cblk => { cblk with numlenbits := cblk.numlenbits + increment }
  let empty ← gets fun s => s.cblk.segs.isEmpty
  whenever (empty && hasStyle cblk_sty styHTOnly)
    (onCblk fun cblk => { cblk with htState := .placeholders })
  let htState ← gets fun s => s.cblk.htState
  if htState = .placeholders ∨ htState = .coded then readHTPacketHeader layno passes cblk_sty
  else readPartOnePacketHeader layno passes cblk_sty

/-- What `parsePacketData` is passed by reference. -/
structure DataIO where
  remainingTilePartBytes : Nat
  layerDataOffset : Nat
  deriving DecidableEq, Repr

namespace Codeblock

def release : Codeblock := { cblk with segs := [], numDataParsedSegments := 0 }

/-- Position of the segment whose data is being parsed; none is the end of the list. -/
def currDataParsedSegment : Option Nat :=
  if cblk.numDataParsedSegments = 0 then none else some (cblk.numDataParsedSegments.toNat - 1)

def nextDataParsedSegment : Codeblock × Option Nat :=
  if cblk.numDataParsedSegments.toNat ≥ cblk.segs.length then (cblk, none)
  else
    let cblk := { cblk with numDataParsedSegments := cblk.numDataParsedSegments + 1 }
    (cblk, cblk.currDataParsedSegment)

def seg (i : Nat) : Segment := cblk.segs.getD i default

def modifySeg (i : Nat) (f : Segment → Segment) : Codeblock :=
  { cblk with segs := cblk.segs.modify i f }

/-- The loop over the segments of a layer. `CorruptPacketDataException` is the result `none` for
the number of passes left. -/
def parseSegmentData (layno : Nat) (isHT : Bool) :
    Nat → Nat → UInt8 → Codeblock → DataIO → Codeblock × DataIO × Option UInt8
  | 0, _, passes, cblk, io => (cblk, io, some passes)
  | fuel + 1, i, passes, cblk, io =>
    let bytes := (cblk.seg i).signalledBytesInLayer layno
    if bytes > io.remainingTilePartBytes then
      -- after `release` the two fields are written in the deleted segment
      if isHT then (cblk.release, io, some passes)
      else
        (cblk.modifySeg i fun seg => { seg with
          signalledBytesInLayer := update seg.signalledBytesInLayer layno 0
          totalPasses := 0 }, io, some passes)
    else if bytes ≠ 0 ∧ uintMax - bytes < (cblk.seg i).totalBytes then (cblk, io, none)
    else
      let chunk := if bytes = 0 then [] else [(io.layerDataOffset, bytes)]
      let cblk := cblk.modifySeg i fun seg => { seg with
        dataChunks := seg.dataChunks ++ chunk
        totalBytes := seg.totalBytes + bytes
        totalPasses := seg.totalPasses + seg.calculatedPassesInLayer layno }
      let io : DataIO := ⟨io.remainingTilePartBytes - bytes, u32 (io.layerDataOffset + bytes)⟩
      let passes := passes - (cblk.seg i).calculatedPassesInLayer layno
      if passes > 0 then
        match cblk.nextDataParsedSegment with
        | (cblk, none) => (cblk, io, some passes)
        | (cblk, some i) => parseSegmentData layno isHT fuel i passes cblk io
      else (cblk, io, some passes)

/-- The segment at which the data of a layer starts. -/
def firstDataSegment : Codeblock × Option Nat :=
  match cblk.currDataParsedSegment with
  | none => cblk.nextDataParsedSegment
  | some i =>
    if (cblk.seg i).totalPasses = (cblk.seg i).maxPasses then cblk.nextDataParsedSegment
    else (cblk, some i)

def parsePacketData (isHT : Bool) (io : DataIO) : Codeblock × DataIO :=
  if cblk.signalledPassesByLayer layno = 0 then (cblk, io)
  else
    match cblk.firstDataSegment with
    | (cblk, none) => (cblk, io)
    | (cblk, some i) =>
      let cblk := { cblk with dataParsedLayers := max cblk.dataParsedLayers (u16 (layno + 1)) }
      let (cblk, io, _) :=
        parseSegmentData layno isHT (cblk.segs.length + 1) i (cblk.signalledPassesByLayer layno)
          cblk io
      (cblk, io)

end Codeblock

end GrokCodec.T1
