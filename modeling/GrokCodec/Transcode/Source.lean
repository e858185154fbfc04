import GrokCodec.PacketIter.Next
import GrokCodec.Codestream.PLReader

/-!
The source of a transcode. `transcodeCodestream` knows the source codestream as a byte stream
that it scans for marker segments and tile parts, and as the packet records of a T2-only
decompress, which it filters and orders.
-/

namespace GrokCodec.Transcode

open List

open PacketIter (Packet ProgOrder)

/-- `CodingParams::RecordedPacketInfo`. -/
structure RecordedPacketInfo where
  compno : Nat
  resno : Nat
  layno : Nat
  precinctIndex : Nat
  totalLength : Nat
  headerLength : Nat
  deriving DecidableEq, Repr

def RecordedPacketInfo.packet (p : RecordedPacketInfo) : Packet :=
  ⟨p.compno, p.resno, p.precinctIndex, p.layno⟩

/-- The transcode settings: `write_tlm_transcode_`, `write_plt_transcode_`,
`write_sop_transcode_`, `write_eph_transcode_`, `max_layers_transcode_`, `max_res_transcode_`
and `transcode_prog_order_`, which is `none` for `GRK_PROG_UNKNOWN`. -/
structure Options where
  writeTlm : Bool := false
  writePlt : Bool := false
  writeSop : Bool := false
  writeEph : Bool := false
  maxLayers : Nat := 0
  maxRes : Nat := 0
  progOrder : Option ProgOrder := none
  deriving DecidableEq, Repr

namespace Options

variable (o : Options)

def needPacketInfo : Bool :=
  o.writePlt || o.writeSop || o.writeEph || decide (o.maxLayers > 0) || decide (o.maxRes > 0) ||
    o.progOrder.isSome

def reorganizing : Bool := decide (o.maxLayers > 0) || decide (o.maxRes > 0) || o.progOrder.isSome

/-- Layer truncation and resolution stripping. -/
def keeps (p : Packet) : Bool :=
  !(decide (o.maxLayers > 0) && decide (p.layno ≥ o.maxLayers)) &&
    !(decide (o.maxRes > 0) && decide (p.resno ≥ o.maxRes))

end Options

/-- One case of the comparison lambda: the first field that differs decides. -/
def lessBy : List (RecordedPacketInfo → Nat) → RecordedPacketInfo → RecordedPacketInfo → Bool
  | [], _, _ => false
  | f :: fs, a, b => if f a ≠ f b then decide (f a < f b) else lessBy fs a b

/-- The fields the comparison lambda looks at for a target progression. -/
def sortFields : ProgOrder → List (RecordedPacketInfo → Nat)
  | .lrcp => [(·.layno), (·.resno), (·.compno), (·.precinctIndex)]
  | .rlcp => [(·.resno), (·.layno), (·.compno), (·.precinctIndex)]
  | .rpcl => [(·.resno), (·.precinctIndex), (·.compno), (·.layno)]
  | .pcrl => [(·.precinctIndex), (·.compno), (·.resno), (·.layno)]
  | .cprl => [(·.compno), (·.precinctIndex), (·.resno), (·.layno)]
  | .prcl => []

/-- The comparison of `std::stable_sort`. -/
def less (order : ProgOrder) : RecordedPacketInfo → RecordedPacketInfo → Bool :=
  lessBy (sortFields order)

/-- `std::stable_sort` with `less`: insertion keeps records that compare equal in place. -/
def sortPackets (order : ProgOrder) (ps : List RecordedPacketInfo) : List RecordedPacketInfo :=
  ps.insertionSort fun a b => less order b a = false

/-- The records of one tile that are written, in the order in which they are written. -/
def Options.filtered (o : Options) (packets : List RecordedPacketInfo) : List RecordedPacketInfo :=
  let kept := packets.filter fun p => o.keeps p.packet
  match o.progOrder with
  | none => kept
  | some order => sortPackets order kept

/-- The sort key: the values of the fields, most significant first. -/
def sortKey (order : ProgOrder) (p : RecordedPacketInfo) : List Nat :=
  (sortFields order).map fun f => f p

theorem lessBy_iff (fs : List (RecordedPacketInfo → Nat)) (a b : RecordedPacketInfo) :
    lessBy fs a b = true ↔ fs.map (fun f => f a) < fs.map (fun f => f b) := by
  induction fs with
  | nil => simp [lessBy]
  | cons f fs ih =>
    rw [lessBy, map_cons, map_cons, cons_lt_cons_iff]
    split
    case isTrue h => simp [h]
    case isFalse h =>
      have h : f a = f b := by simpa using h
      simp [h, ih]

variable (order : ProgOrder)

variable (a b : RecordedPacketInfo)

theorem less_iff : less order a b = true ↔ sortKey order a < sortKey order b :=
  lessBy_iff _ a b

theorem not_less_iff : less order b a = false ↔ ¬ sortKey order b < sortKey order a := by
  rw [← Bool.not_eq_true, less_iff]

theorem sortPackets_perm (ps : List RecordedPacketInfo) : (sortPackets order ps).Perm ps :=
  perm_insertionSort _ ps

theorem sortPackets_sorted (ps : List RecordedPacketInfo) :
    (sortPackets order ps).Pairwise fun a b => ¬ sortKey order b < sortKey order a := by
  have hrel : (fun a b => less order b a = false) =
      fun a b => ¬ sortKey order b < sortKey order a := by
    funext a b
    exact propext (not_less_iff order a b)
  have htotal : Std.Total fun a b : RecordedPacketInfo => less order b a = false :=
    hrel ▸ ⟨fun a b => List.le_total _ _⟩
  have htrans : IsTrans RecordedPacketInfo fun a b => less order b a = false :=
    hrel ▸ ⟨fun a b c => List.le_trans⟩
  exact (pairwise_insertionSort (fun a b => less order b a = false) ps).imp
    fun h => (not_less_iff order _ _).mp h

open ByteStream Codestream PacketIter

/-- `MainHeaderMarker` and `TilePartHeaderMarker`. -/
structure HeaderMarker where
  offset : Nat
  type : Nat
  segLen : Nat
  deriving DecidableEq, Repr

structure TilePartInfo where
  tileIndex : Nat
  length : Nat
  srcOffset : Nat
  headerMarkers : List HeaderMarker
  sodOffset : Nat
  dataSize : Nat
  deriving DecidableEq, Repr

section Scan

variable (src : List Nat) (csEnd : Nat)

/-- Phase 1: the markers of the main header, and where the first tile part starts. -/
def scanMainHeader : Nat → Nat → Option (List HeaderMarker × Nat)
  | 0, _ => none
  | n + 1, pos =>
    if pos < csEnd then
      match readU16 src pos with
      | none => none
      | some marker =>
        if marker = SOT ∨ marker = EOC then some ([], pos)
        else match readU16 src (pos + 2) with
          | none => none
          | some segLen =>
            if segLen > 2 ∧ src.length < pos + 4 + (segLen - 2) then none
            else (scanMainHeader n (pos + 4 + (segLen - 2))).map fun (markers, next) =>
              (⟨pos, marker, segLen⟩ :: markers, next)
    else some ([], pos)

/-- The markers of a tile-part header, and the position of its SOD. -/
def scanTilePartHeader (tpEnd : Nat) : Nat → Nat → List HeaderMarker × Option Nat
  | 0, _ => ([], none)
  | n + 1, pos =>
    if pos < tpEnd then
      match readU16 src pos with
      | none => ([], none)
      | some marker =>
        if marker = SOD then ([], some pos)
        else match readU16 src (pos + 2) with
          | none => ([], none)
          | some segLen =>
            let (markers, sod) := scanTilePartHeader tpEnd n (pos + 4 + (segLen - 2))
            (⟨pos, marker, segLen⟩ :: markers, sod)
    else ([], none)

/-- One tile part of phase 2, from its SOT fields. -/
def scanTilePart (sotPos isot psot : Nat) : TilePartInfo :=
  let length := if psot = 0 then u32 (csEnd - sotPos - 2) else psot
  let tpEnd := sotPos + length
  let (headerMarkers, sod) := scanTilePartHeader src tpEnd length (sotPos + 12)
  { tileIndex := isot, length, srcOffset := sotPos, headerMarkers
    sodOffset := sod.getD 0
    dataSize := match sod with
      | none => 0
      | some mPos => u32 (tpEnd - (mPos + 2)) }

/-- Phase 2: the tile parts up to EOC. -/
def scanTileParts : Nat → Nat → Option (List TilePartInfo)
  | 0, _ => none
  | n + 1, pos =>
    if pos < csEnd then
      match readU16 src pos with
      | none => some []
      | some marker =>
        if marker = EOC then some []
        else if marker ≠ SOT then none
        else match readU16 src (pos + 2), readU16 src (pos + 4), readU32 src (pos + 6) with
          | some _, some isot, some psot =>
            let tp := scanTilePart src csEnd pos isot psot
            if psot = 0 then some [tp]
            else (scanTileParts n (pos + psot)).map (tp :: ·)
          | _, _, _ => none
    else some []

end Scan

/-- A marker segment. -/
structure Segment where
  type : Nat
  payload : List Nat
  deriving DecidableEq, Repr

def Segment.bytes (s : Segment) : List Nat :=
  be16 s.type ++ be16 (s.payload.length + 2) ++ s.payload

/-- A packet of the source. `listed` says that its length is known from a PLT marker. With
`packed`, its header is in a PPM or PPT marker, followed there by an EPH if `packedEph`. -/
structure SourcePacket where
  packet : Packet
  sop : List Nat := []
  header : List Nat
  eph : List Nat := []
  body : List Nat
  listed : Bool := false
  packed : Bool := false
  packedEph : Bool := false
  deriving DecidableEq, Repr

namespace SourcePacket

variable (p : SourcePacket)

def bytes : List Nat := p.sop ++ p.header ++ p.eph ++ p.body

/-- The length that a PLT marker should give: zero where none lists the packet. -/
def plLength : Nat := if p.listed then p.bytes.length else 0

/-- `headerLength_` after `readHeader`: what it has consumed of the packet data, which is no more
than the SOP when the header comes from elsewhere. -/
def readHeader : Nat :=
  if p.packed then p.sop.length else (p.sop ++ p.header ++ p.eph).length

/-- What `parsePacket` records. With a length from a PLT marker, which is not zero, the header is
not read before its length is asked for. -/
def parsePacket (plLength : Nat) : Option RecordedPacketInfo :=
  let packetLength := if plLength = 0 then p.bytes.length else plLength
  let headerLength := if plLength = 0 then p.readHeader else 0
  if packetLength = 0 then none
  else some ⟨p.packet.compno, p.packet.resno, p.packet.layno, p.packet.precinctIndex, packetLength,
    headerLength⟩

end SourcePacket

structure SourceTilePart where
  tileIndex : Nat
  tpsot : Nat
  tnsot : Nat
  psotZero : Bool := false
  segments : List Segment
  packets : List SourcePacket
  deriving DecidableEq, Repr

namespace SourceTilePart

variable (p : SourceTilePart)

def headerBytes : List Nat := p.segments.flatMap Segment.bytes

def data : List Nat := p.packets.flatMap SourcePacket.bytes

/-- Bytes from SOT to the end of the tile part. -/
def length : Nat := 12 + p.headerBytes.length + 2 + p.data.length

def sot (psot : Nat) : List Nat :=
  be16 SOT ++ (be16 10 ++ (be16 p.tileIndex ++ (be32 psot ++ [p.tpsot, p.tnsot])))

def psot : Nat := if p.psotZero then 0 else p.length

def bytes : List Nat := p.sot p.psot ++ (p.headerBytes ++ (be16 SOD ++ p.data))

end SourceTilePart

structure Source where
  main : List Segment
  parts : List SourceTilePart
  deriving DecidableEq, Repr

def Source.bytes (cs : Source) : List Nat :=
  be16 SOC ++ (cs.main.flatMap Segment.bytes ++ (cs.parts.flatMap SourceTilePart.bytes ++ be16 EOC))

namespace Source

variable (cs : Source) (tile : Nat)

/-- The packets of a tile, tile part after tile part. -/
def tilePackets : List SourcePacket :=
  (cs.parts.filter fun p => p.tileIndex = tile).flatMap SourceTilePart.packets

/-- The PLT markers of a tile, each with the number of its tile part. -/
def pltMarkers : List (Int × List Nat) :=
  (cs.parts.filter fun p => p.tileIndex = tile).zipIdx.flatMap fun e =>
    (e.1.segments.filter fun s => s.type = PLT).map fun s => ((e.2 : Int), s.payload)

/-- What `PacketLengthCache::next` returns for the packets of a tile, one after the other: zero where
the PLT markers do not serve, and when the main header has a PLM marker. -/
def packetLengths : List Nat :=
  let count := (cs.tilePackets tile).length
  match PLReader.readPLTs {} (cs.pltMarkers tile) with
  | some m =>
    if m.rewind.enabled && cs.main.all (fun s => s.type ≠ PLM) then m.rewind.popN count
    else List.replicate count 0
  | none => List.replicate count 0

/-- What the T2-only decompress records for a tile. -/
def recordedPacketInfo : List RecordedPacketInfo :=
  ((cs.tilePackets tile).zip (cs.packetLengths tile)).filterMap fun e => e.1.parsePacket e.2

end Source

/-- The SOP and EPH markers of a packet are whole, a header in the packet is not empty and, its
bits being stuffed, does not look like an EPH. -/
structure SourcePacket.WellFormed (p : SourcePacket) : Prop where
  sop : p.sop = [] ∨ ∃ n, p.sop = [0xff, 0x91, 0, 4] ++ be16 n
  eph : p.eph = [] ∨ p.eph = [0xff, 0x92]
  packed : p.packed = true → p.header = [] ∧ p.eph = []
  header : p.packed = false → p.header ≠ [] ∧ ¬ [0xff, 0x92] <+: p.header

def Segment.Fits (s : Segment) : Prop := s.type < 65536 ∧ s.payload.length + 2 < 65536

structure SourceTilePart.WellFormed (p : SourceTilePart) : Prop where
  tileIndex : p.tileIndex < 65536
  length : p.length < 2 ^ 32
  segments : ∀ s ∈ p.segments, s.Fits ∧ s.type ≠ SOD
  packets : ∀ q ∈ p.packets, q.WellFormed

structure Source.WellFormed (cs : Source) : Prop where
  main : ∀ s ∈ cs.main, s.Fits ∧ s.type ≠ SOT ∧ s.type ≠ EOC
  parts : ∀ p ∈ cs.parts, p.WellFormed
  nonempty : cs.parts ≠ []
  psotZero : ∀ p ∈ cs.parts.dropLast, p.psotZero = false
  /-- The reader has for every packet its own length, or none. -/
  plt : ∀ tile, cs.packetLengths tile = (cs.tilePackets tile).map SourcePacket.plLength

theorem Segment.length_bytes (s : Segment) : s.bytes.length = s.payload.length + 4 := by
  simp [Segment.bytes]
  omega

@[simp] theorem SourceTilePart.length_sot (p : SourceTilePart) (psot : Nat) :
    (p.sot psot).length = 12 := rfl

theorem SourceTilePart.length_bytes (p : SourceTilePart) : p.bytes.length = p.length := by
  simp [SourceTilePart.bytes, SourceTilePart.length]
  omega

/-- The markers found where the segments start at `pos`. -/
def markersAt : Nat → List Segment → List HeaderMarker
  | _, [] => []
  | pos, s :: segs => ⟨pos, s.type, s.payload.length + 2⟩ :: markersAt (pos + s.bytes.length) segs

/-- The tile part found at `pos`. -/
def SourceTilePart.infoAt (p : SourceTilePart) (pos : Nat) : TilePartInfo where
  tileIndex := p.tileIndex
  length := p.length
  srcOffset := pos
  headerMarkers := markersAt (pos + 12) p.segments
  sodOffset := pos + 12 + p.headerBytes.length
  dataSize := p.data.length

/-- The tile parts found where the first one starts at `pos`. -/
def infosAt : Nat → List SourceTilePart → List TilePartInfo
  | _, [] => []
  | pos, p :: parts => p.infoAt pos :: infosAt (pos + p.bytes.length) parts

section Scan

variable {src : List Nat} {csEnd : Nat}

variable {pos : Nat}

theorem Segment.Fits.read {s : Segment} (hs : s.Fits) (h : Occurs s.bytes src pos) :
    readU16 src pos = some s.type ∧ readU16 src (pos + 2) = some (s.payload.length + 2) := by
  rw [Segment.bytes, append_assoc] at h
  exact ⟨h.left.readU16_eq hs.1, h.right.left.readU16_eq hs.2⟩

theorem Segment.end_eq (s : Segment) :
    pos + 4 + (s.payload.length + 2 - 2) = pos + s.bytes.length := by
  rw [Segment.length_bytes]
  omega

variable {segs : List Segment}

theorem scanMainHeader_eq {next : Nat} (hsegs : ∀ s ∈ segs, s.Fits ∧ s.type ≠ SOT ∧ s.type ≠ EOC)
    (hnext : next = SOT ∨ next = EOC) {fuel : Nat} (hfuel : segs.length < fuel)
    (h : Occurs (segs.flatMap Segment.bytes ++ be16 next) src pos)
    (hend : pos + (segs.flatMap Segment.bytes).length < csEnd) :
    scanMainHeader src csEnd fuel pos =
      some (markersAt pos segs, pos + (segs.flatMap Segment.bytes).length) := by
  induction segs generalizing fuel pos with
  | nil =>
    obtain ⟨n, rfl⟩ : ∃ n, fuel = n + 1 := ⟨fuel - 1, by simp at hfuel; omega⟩
    have hread : readU16 src pos = some next :=
      h.readU16_eq (by rcases hnext with rfl | rfl <;> decide)
    have hpos : pos < csEnd := by simpa using hend
    simp [scanMainHeader, hpos, hread, hnext, markersAt]
  | cons s segs ih =>
    obtain ⟨n, rfl⟩ : ∃ n, fuel = n + 1 := ⟨fuel - 1, by simp at hfuel; omega⟩
    obtain ⟨hfits, hsot, heoc⟩ := hsegs s mem_cons_self
    rw [flatMap_cons, append_assoc] at h
    obtain ⟨h1, h2⟩ := hfits.read h.left
    have hlen := h.left.add_length_le
    rw [flatMap_cons, length_append] at hend
    have hrest := ih (fun s hs => hsegs s (mem_cons_of_mem _ hs))
      (by simpa using hfuel : segs.length < n) h.right (by omega)
    have hskip : ¬ (s.payload.length + 2 > 2 ∧ src.length < pos + s.bytes.length) := by omega
    rw [scanMainHeader, if_pos (by omega), h1]
    simp only [hsot, heoc, or_self, if_false, h2, s.end_eq, hskip, hrest, Option.map_some, markersAt,
      flatMap_cons, length_append, Nat.add_assoc]

theorem scanTilePartHeader_eq (hsegs : ∀ s ∈ segs, s.Fits ∧ s.type ≠ SOD) {fuel tpEnd : Nat}
    (hfuel : segs.length < fuel) (h : Occurs (segs.flatMap Segment.bytes ++ be16 SOD) src pos)
    (hend : pos + (segs.flatMap Segment.bytes).length < tpEnd) :
    scanTilePartHeader src tpEnd fuel pos =
      (markersAt pos segs, some (pos + (segs.flatMap Segment.bytes).length)) := by
  induction segs generalizing fuel pos with
  | nil =>
    obtain ⟨n, rfl⟩ : ∃ n, fuel = n + 1 := ⟨fuel - 1, by simp at hfuel; omega⟩
    have hread := h.readU16_eq (by decide)
    have hpos : pos < tpEnd := by simpa using hend
    simp [scanTilePartHeader, hpos, hread, markersAt]
  | cons s segs ih =>
    obtain ⟨n, rfl⟩ : ∃ n, fuel = n + 1 := ⟨fuel - 1, by simp at hfuel; omega⟩
    obtain ⟨hfits, hsod⟩ := hsegs s mem_cons_self
    rw [flatMap_cons, append_assoc] at h
    obtain ⟨h1, h2⟩ := hfits.read h.left
    rw [flatMap_cons, length_append] at hend
    have hrest := ih (fun s hs => hsegs s (mem_cons_of_mem _ hs))
      (by simpa using hfuel : segs.length < n) h.right (by omega)
    rw [scanTilePartHeader, if_pos (by omega), h1]
    simp only [hsod, if_false, h2, s.end_eq, hrest, markersAt, flatMap_cons, length_append,
      Nat.add_assoc]

theorem length_le_flatMap_bytes (segs : List Segment) :
    segs.length ≤ (segs.flatMap Segment.bytes).length := by
  induction segs with
  | nil => simp
  | cons s segs ih =>
    simp only [length_cons, flatMap_cons, length_append, Segment.length_bytes]
    omega

theorem SourceTilePart.WellFormed.scan {p : SourceTilePart} (hp : p.WellFormed)
    (h : Occurs p.bytes src pos) (hlast : p.psotZero = true → csEnd = pos + p.length + 2) :
    scanTilePart src csEnd pos p.tileIndex p.psot = p.infoAt pos := by
  have hlen : (if p.psot = 0 then u32 (csEnd - pos - 2) else p.psot) = p.length := by
    have hpos : p.length ≠ 0 := by unfold SourceTilePart.length; omega
    unfold SourceTilePart.psot
    by_cases hz : p.psotZero = true
    · rw [if_pos hz, if_pos rfl, hlast hz, show pos + p.length + 2 - pos - 2 = p.length by omega,
        u32_of_lt hp.length]
    · rw [if_neg hz, if_neg hpos]
  have hhead : Occurs (p.headerBytes ++ be16 SOD) src (pos + 12) := by
    have := h.right
    rw [← append_assoc, length_sot] at this
    exact this.left
  have hle : p.segments.length < p.length := by
    have := length_le_flatMap_bytes p.segments
    unfold SourceTilePart.length SourceTilePart.headerBytes
    omega
  have hscan := scanTilePartHeader_eq hp.segments hle hhead
    (by unfold SourceTilePart.length SourceTilePart.headerBytes; omega :
      pos + 12 + (p.segments.flatMap Segment.bytes).length < pos + p.length)
  have hdata : u32 (pos + p.length - (pos + 12 + p.headerBytes.length + 2)) = p.data.length := by
    have := hp.length
    unfold SourceTilePart.length at this ⊢
    rw [u32_of_lt (by omega)]
    omega
  unfold scanTilePart
  simp only [hlen, hscan]
  exact congrArg (TilePartInfo.mk _ _ _ _ _) hdata

theorem scanTileParts_eq {parts : List SourceTilePart} (hparts : ∀ p ∈ parts, p.WellFormed)
    (hzero : ∀ p ∈ parts.dropLast, p.psotZero = false) {fuel : Nat} (hfuel : parts.length < fuel)
    (h : Occurs (parts.flatMap SourceTilePart.bytes ++ be16 EOC) src pos)
    (hend : csEnd = pos + (parts.flatMap SourceTilePart.bytes).length + 2) :
    scanTileParts src csEnd fuel pos = some (infosAt pos parts) := by
  induction parts generalizing fuel pos with
  | nil =>
    obtain ⟨n, rfl⟩ : ∃ n, fuel = n + 1 := ⟨fuel - 1, by simp at hfuel; omega⟩
    have hread := h.readU16_eq (by decide)
    have hpos : pos < csEnd := by simp at hend; omega
    simp [scanTileParts, hpos, hread, infosAt]
  | cons p parts ih =>
    obtain ⟨n, rfl⟩ : ∃ n, fuel = n + 1 := ⟨fuel - 1, by simp at hfuel; omega⟩
    have hp := hparts p mem_cons_self
    rw [flatMap_cons, append_assoc] at h
    rw [flatMap_cons, length_append, p.length_bytes] at hend
    have hsot := h.left.left
    have hfields := hsot.right.right
    have h1 := hsot.left.readU16_eq (by decide)
    have h2 : readU16 src (pos + 2) = some 10 := hsot.right.left.readU16_eq (by decide)
    have h3 : readU16 src (pos + 4) = some p.tileIndex := hfields.left.readU16_eq hp.tileIndex
    have hpsot : p.psot < 4294967296 := by
      have := hp.length
      unfold SourceTilePart.psot
      split <;> omega
    have h4 : readU32 src (pos + 6) = some p.psot := hfields.right.left.readU32_eq hpsot
    -- only the last tile part may leave its length open
    have hlast : p.psotZero = true → parts = [] := by
      intro hz
      by_contra hne
      have := hzero p (by rw [dropLast_cons_of_ne_nil hne]; exact mem_cons_self)
      rw [hz] at this
      cases this
    have hinfo : scanTilePart src csEnd pos p.tileIndex p.psot = p.infoAt pos := by
      refine hp.scan h.left fun hz => ?_
      rw [hlast hz] at hend
      simpa using hend
    have hlen : 0 < p.length := by unfold SourceTilePart.length; omega
    have hne : SOT ≠ EOC := by decide
    rw [scanTileParts, if_pos (by omega), h1]
    simp only [hne, if_false, ne_eq, not_true_eq_false, h2, h3, h4, hinfo]
    by_cases hz : p.psotZero = true
    · have hps : p.psot = 0 := if_pos hz
      rw [if_pos hps, hlast hz]
      rfl
    · have hps : p.psot = p.bytes.length := (if_neg hz).trans p.length_bytes.symm
      have hrest := ih (fun q hq => hparts q (mem_cons_of_mem _ hq)) (fun q hq => ?_)
        (by simpa using hfuel : parts.length < n) h.right (by rw [p.length_bytes]; omega)
      · rw [if_neg (by rw [hps, p.length_bytes]; omega), hps, hrest]
        rfl
      · refine hzero q ?_
        cases parts with
        | nil => simp at hq
        | cons q' parts =>
          rw [dropLast_cons_of_ne_nil (cons_ne_nil _ _)]
          exact mem_cons_of_mem _ hq

end Scan

end GrokCodec.Transcode
