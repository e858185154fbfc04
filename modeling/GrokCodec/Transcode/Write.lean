import GrokCodec.Transcode.Source

/-!
`FileFormatJP2Compress::transcodeCodestream`: how packet records are assigned to tile parts, the
tile-part lengths that follow from them, and what is written.
-/

namespace GrokCodec.Transcode

open ByteStream Codestream

/-- The value of a `GRK_PROG_ORDER`. -/
def progByte : PacketIter.ProgOrder → Nat
  | .lrcp => 0
  | .rlcp => 1
  | .rpcl => 2
  | .pcrl => 3
  | .cprl => 4
  | .prcl => 5

structure TilePartPacket where
  totalLength : Nat
  headerLength : Nat
  deriving DecidableEq, Repr

def RecordedPacketInfo.tilePartPacket (p : RecordedPacketInfo) : TilePartPacket :=
  ⟨p.totalLength, p.headerLength⟩

/-- The inner loop of the original mapping: packets go to a tile part as long as they have not
filled its data. Returns them and what is left. -/
def takePackets (dataSize : Nat) : Nat → List RecordedPacketInfo →
    List RecordedPacketInfo × List RecordedPacketInfo
  | _, [] => ([], [])
  | cumulated, p :: ps =>
    if cumulated < dataSize then
      let (here, later) := takePackets dataSize (u32 (cumulated + p.totalLength)) ps
      (p :: here, later)
    else ([], p :: ps)

/-- The original mapping. `rest` holds what each tile still has to give away; the tiles do not
touch each other's tile parts, so their order does not matter. -/
def mapInOrder : List TilePartInfo → (Nat → List RecordedPacketInfo) →
    List (List RecordedPacketInfo)
  | [], _ => []
  | tp :: tps, rest =>
    let (here, later) := takePackets tp.dataSize 0 (rest tp.tileIndex)
    here :: mapInOrder tps (Function.update rest tp.tileIndex later)

/-- When filtering or reordering, all packets of a tile go to its first tile part. -/
def mapToFirst : List TilePartInfo → (Nat → List RecordedPacketInfo) →
    List (List RecordedPacketInfo)
  | [], _ => []
  | tp :: tps, rest =>
    rest tp.tileIndex :: mapToFirst tps (Function.update rest tp.tileIndex [])

namespace Options

variable (o : Options)

def tpPackets (recorded : Nat → List RecordedPacketInfo) (tps : List TilePartInfo) :
    List (List TilePartPacket) :=
  if o.needPacketInfo then
    let filtered (tile : Nat) := o.filtered (recorded tile)
    (if o.reorganizing then mapToFirst tps filtered else mapInOrder tps filtered).map
      fun ps => ps.map RecordedPacketInfo.tilePartPacket
  else tps.map fun _ => []

/-- Length of a packet with the markers that are put into it. -/
def adjLen (p : TilePartPacket) : Nat :=
  u32 (p.totalLength + (if o.writeSop then 6 else 0) + (if o.writeEph then 2 else 0))

/-- `pltSizer` and `pltWriter`, which go through the same calls. -/
def pltMarker (ps : List TilePartPacket) : PLMarker :=
  if o.writePlt then PLMarker.pushAll (ps.map o.adjLen) else {}

/-- `adjustedLengths`. -/
def adjustedLength (tp : TilePartInfo) (ps : List TilePartPacket) : Nat :=
  let pltMarkerSize := (o.pltMarker ps).totalBytesWritten
  if ps.isEmpty then
    let existingPltSize := ((tp.headerMarkers.filter fun m => m.type = PLT).map
      fun m => 2 + m.segLen).sum
    u32 (tp.length + pltMarkerSize + 2 ^ 32 - u32 existingPltSize)
  else
    let headerSize := 12 + ((tp.headerMarkers.filter fun m => m.type ≠ PLT).map
      fun m => 2 + m.segLen).sum
    u32 (headerSize + pltMarkerSize + 2 + (ps.map o.adjLen).sum)

end Options

/-- A packet as it is written. -/
structure WrittenPacket where
  sop : List Nat
  header : List Nat
  eph : List Nat
  data : List Nat
  deriving DecidableEq, Repr

def WrittenPacket.bytes (w : WrittenPacket) : List Nat := w.sop ++ w.header ++ w.eph ++ w.data

/-- What follows SOD: packets one by one, or the data of the source tile part. -/
inductive TilePartData where
  | packets (ps : List WrittenPacket)
  | blob (bytes : List Nat)
  deriving DecidableEq, Repr

def TilePartData.bytes : TilePartData → List Nat
  | .packets ps => ps.flatMap WrittenPacket.bytes
  | .blob bytes => bytes

/-- A tile part as it is written. -/
structure WrittenTilePart where
  sot : List Nat
  plt : List (List Nat)
  markers : List Nat
  data : TilePartData
  deriving DecidableEq, Repr

def WrittenTilePart.bytes (w : WrittenTilePart) : List Nat :=
  w.sot ++ w.plt.flatMap PLMarker.segmentBytes ++ w.markers ++ be16 SOD ++ w.data.bytes

/-- The codestream as it is written; `tlm` lists tile index and length of each tile part. -/
structure Written where
  main : List Nat
  tlm : Option (List (Nat × Nat))
  parts : List WrittenTilePart
  deriving DecidableEq, Repr

def Written.tlmBytes (w : Written) : List Nat :=
  match w.tlm with
  | none => []
  | some entries =>
    be16 TLM ++ be16 (4 + 6 * entries.length) ++ [0, 0x60] ++
      entries.flatMap fun e => be16 e.1 ++ be32 e.2

def Written.bytes (w : Written) : List Nat :=
  be16 SOC ++ w.main ++ w.tlmBytes ++ w.parts.flatMap WrittenTilePart.bytes ++ be16 EOC

def sopMarker (sequenceNumber : Nat) : List Nat := [0xff, 0x91, 0, 4] ++ be16 sequenceNumber

def ephMarker : List Nat := [0xff, 0x92]

/-- Replace the 32-bit field at `off`. -/
def patch32 (off : Nat) (f : Nat → Nat) (buf : List Nat) : List Nat :=
  match readU32 buf off with
  | none => buf
  | some v => buf.take off ++ be32 (f v) ++ buf.drop (off + 4)

/-- The COD patches: SOP and EPH flags, progression order, layers and decomposition levels. -/
def patchCod (o : Options) (buf : List Nat) : List Nat :=
  if buf.length < 9 then buf
  else
    let buf := if o.writeSop then buf.modify 4 (· ||| 2) else buf
    let buf := if o.writeEph then buf.modify 4 (· ||| 4) else buf
    let buf := match o.progOrder with
      | none => buf
      | some order => buf.set 5 (progByte order)
    let buf := if o.maxLayers > 0 then (buf.set 6 (o.maxLayers / 256 % 256)).set 7 (o.maxLayers % 256)
      else buf
    if o.maxRes > 0 then buf.modify 9 fun levels => min levels (o.maxRes - 1) else buf

/-- The SIZ patch: image and tile size and offset, divided by the levels that are stripped. -/
def patchSiz (o : Options) (origDecompLevels : Nat) (buf : List Nat) : List Nat :=
  let origResolutions := (origDecompLevels + 1) % 256
  if o.maxRes > 0 ∧ 42 ≤ buf.length ∧ o.maxRes < origResolutions then
    let d := u32 (1 <<< (origResolutions - o.maxRes))
    [6, 10, 14, 18, 22, 26, 30, 34].foldl
      (fun buf off => patch32 off (fun n => u32 (n + d - 1) / d) buf) buf
  else buf

/-- `sopSequenceNumber` after a packet. -/
def Options.nextSequence (o : Options) (seq : Nat) : Nat :=
  if o.writeSop then (seq + 1) % 65536 else seq

section Write

variable (o : Options) (src : List Nat)

/-- Packet-level copy: the source is read on from where it stands. -/
def copyPackets : List TilePartPacket → Nat → Nat → Option (List WrittenPacket × Nat)
  | [], _, seq => some ([], seq)
  | p :: ps, pos, seq => do
    let header ← readAt src pos p.headerLength
    let data ← readAt src (pos + p.headerLength) (sub32 p.totalLength p.headerLength)
    let w : WrittenPacket :=
      { sop := if o.writeSop then sopMarker seq else []
        header
        eph := if o.writeEph then ephMarker else []
        data }
    let (ws, next) ← copyPackets ps (pos + p.headerLength + data.length) (o.nextSequence seq)
    return (w :: ws, next)

/-- The header markers other than PLT, one after the other. -/
def copyMarkers : List HeaderMarker → Option (List Nat)
  | [] => some []
  | m :: ms =>
    if m.type = PLT then copyMarkers ms
    else do
      let buf ← readAt src m.offset (2 + m.segLen)
      let rest ← copyMarkers ms
      return buf ++ rest

/-- Overwrite Psot. -/
def patchPsot (sot : List Nat) (newPsot : Nat) : List Nat :=
  sot.take 6 ++ be32 newPsot ++ sot.drop 10

/-- The copy of what follows SOD. -/
def copyData (tp : TilePartInfo) (ps : List TilePartPacket) (seq : Nat) :
    Option (TilePartData × Nat) :=
  if ps.isEmpty then do
    let blob ← readAt src (tp.sodOffset + 2) tp.dataSize
    return (.blob blob, seq)
  else do
    let (ws, next) ← copyPackets o src ps (tp.sodOffset + 2) seq
    return (.packets ws, next)

/-- One round of the loop that writes the tile parts. -/
def writeTilePart (tp : TilePartInfo) (ps : List TilePartPacket) (seq : Nat) :
    Option (WrittenTilePart × Nat) := do
  let sot ← readAt src tp.srcOffset 12
  let markers ← copyMarkers src tp.headerMarkers
  let (data, next) ← copyData o src tp ps seq
  return (⟨patchPsot sot (o.adjustedLength tp ps), (o.pltMarker ps).segments, markers, data⟩, next)

def writeTileParts : List (TilePartInfo × List TilePartPacket) → Nat → Option (List WrittenTilePart)
  | [], _ => some []
  | (tp, ps) :: rest, seq => do
    let (w, next) ← writeTilePart o src tp ps seq
    let ws ← writeTileParts rest next
    return w :: ws

/-- Decomposition levels in the first COD marker. -/
def decompLevels (mains : List HeaderMarker) : Nat :=
  match mains.find? fun m => m.type = COD with
  | none => 0
  | some m => if 2 + m.segLen < 10 then 0 else (src.drop m.offset).getD 9 0

/-- The main header markers other than TLM, patched. -/
def copyMain (levels : Nat) : List HeaderMarker → Option (List Nat)
  | [] => some []
  | m :: ms =>
    if m.type = TLM then copyMain levels ms
    else do
      let buf ← readAt src m.offset (2 + m.segLen)
      let buf := if m.type = COD then patchCod o buf else buf
      let buf := if m.type = SIZ then patchSiz o levels buf else buf
      let rest ← copyMain levels ms
      return buf ++ rest

/-- `transcodeCodestream`, after the T2-only decompress of the source; `none` where it gives up
and returns zero. -/
def transcodeCodestream (recorded : Nat → List RecordedPacketInfo) (csStart csLength : Nat) :
    Option Written := do
  let csEnd := csStart + csLength
  guard (readU16 src csStart = some SOC)
  let (mains, pos) ← scanMainHeader src csEnd (csEnd + 1) (csStart + 2)
  let tps ← scanTileParts src csEnd (csEnd + 1) pos
  guard (tps ≠ [] ∧ tps.length ≤ 10921)
  let work := tps.zip (o.tpPackets recorded tps)
  let main ← copyMain o src (decompLevels src mains) mains
  let parts ← writeTileParts o src work 0
  let tlm := if o.writeTlm ∨ mains.any (fun m => m.type = TLM) then
      some (work.map fun (tp, ps) => (tp.tileIndex, o.adjustedLength tp ps))
    else none
  return { main, tlm, parts }

end Write

end GrokCodec.Transcode
