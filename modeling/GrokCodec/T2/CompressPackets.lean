import GrokCodec.PacketIter.Next
import GrokCodec.T2.CompressHeader

/-!
Packets on the side of the compressor. Before a tile is written its packets are simulated: headers
are coded and bodies are counted, within a number of bytes.
-/

namespace GrokCodec.T2

open PacketIter

/-- SOP and EPH markers, and the most bytes that a component may take. Zero is no limit. -/
structure PacketOptions where
  sop : Bool := false
  eph : Bool := false
  maxComponentRate : Nat := 0

/-- Component, resolution and precinct of a packet. -/
def precinctKey (p : Packet) : Nat × Nat × Nat := (p.compno, p.resno, p.precinctIndex)

/-- The bands of every precinct of every resolution. -/
abbrev Canvas := Nat × Nat × Nat → Option (List Precinct)

/-- The precincts, and the packets that were coded. -/
structure PacketCoder where
  canvas : Canvas
  tracker : List Packet

/-- Bytes left after `bytes` more. `UINT_MAX` stands for no limit. -/
def spend (available bytes : Nat) : Option Nat :=
  if available < bytes then none
  else if available = uintMax then some available
  else some (available - bytes)

/-- The bodies of blocks: bytes left, bytes counted and the blocks after them. -/
def simulateBlocks (layno : Nat) (table : LayerTable) :
    Nat → List Block → Option (Nat × Nat × List Block)
  | available, [] => some (available, 0, [])
  | available, cblk :: rest =>
    let totalPasses := table.totalPasses cblk.index layno
    if totalPasses = 0 then do
      let (available, bytes, rest) ← simulateBlocks layno table available rest
      return (available, bytes, cblk :: rest)
    else do
      let len := table.len cblk.index layno
      let available ← spend available len
      let (available, bytes, rest) ← simulateBlocks layno table available rest
      let numPassesInPackets := u8 (cblk.numPassesInPackets + totalPasses)
      return (available, len + bytes, { cblk with numPassesInPackets } :: rest)

/-- The body of a packet. Empty bands are not left out. -/
def simulateBody (layno : Nat) (table : LayerTable) :
    Nat → List Precinct → Option (Nat × List Precinct)
  | _, [] => some (0, [])
  | available, prc :: rest => do
    let (available, bytes, blocks) ← simulateBlocks layno table available prc.blocks
    let (more, rest) ← simulateBody layno table available rest
    return (bytes + more, { prc with blocks } :: rest)

variable (o : PacketOptions) (table : LayerTable)

def compressPacketSimulate (coder : PacketCoder) (p : Packet) (max_bytes_available : Nat) :
    Option (Nat × PacketCoder) :=
  if p ∈ coder.tracker then some (0, coder)
  else do
    let bands ← coder.canvas (precinctKey p)
    let sop := if o.sop then 6 else 0
    let available ← spend max_bytes_available sop
    let (w, bands) ← compressHeader { bufLen := some available } p.layno table bands
    let available ← spend available w.bytes.length
    let eph := if o.eph then 2 else 0
    let available ← spend available eph
    let (body, bands) ← simulateBody p.layno table available bands
    let byteCount := sop + w.bytes.length + eph + body
    if byteCount > uintMax then none
    else
      return (byteCount,
        { canvas := Function.update coder.canvas (precinctKey p) (some bands)
          tracker := p :: coder.tracker })

/-- A simulation on its way. -/
structure Simulation where
  coder : PacketCoder
  maxBytes : Nat
  componentBytes : Nat := 0
  allPacketBytes : Nat := 0

def simulatePacket (max_layers : Nat) (s : Simulation) (p : Packet) : Option Simulation :=
  if p.layno < max_layers then do
    let (bytesInLayer, coder) ← compressPacketSimulate o table s.coder p s.maxBytes
    let componentBytes := s.componentBytes + bytesInLayer
    let maxBytes ← spend s.maxBytes bytesInLayer
    if o.maxComponentRate ≠ 0 ∧ componentBytes > o.maxComponentRate then none
    else
      return { coder, maxBytes, componentBytes
               allPacketBytes := u32 (s.allPacketBytes + bytesInLayer) }
  else some s

/-- The packets that are simulated for one component. -/
def simulateRound (max_layers : Nat) (s : Simulation) (packets : List Packet) : Option Simulation :=
  packets.foldlM (simulatePacket o table max_layers) { s with componentBytes := 0 }

/-- `compressPacketsSimulate` over what the packet iterator yields for each component. There is one
round for all components unless the component rate is limited. -/
def compressPacketsSimulate (rounds : List (List Packet)) (canvas : Canvas) (table : LayerTable)
    (max_layers maxBytes : Nat) : Option Simulation :=
  rounds.foldlM (simulateRound o table max_layers) { coder := ⟨canvas, []⟩, maxBytes }

/-- Bodies that are written: their bytes and the blocks after them. -/
def writeBlocks (layno : Nat) (table : LayerTable) : List Block → Nat × List Block
  | [] => (0, [])
  | cblk :: rest =>
    let totalPasses := table.totalPasses cblk.index layno
    let (bytes, rest) := writeBlocks layno table rest
    if totalPasses = 0 then (bytes, cblk :: rest)
    else
      let numPassesInPackets := u8 (cblk.numPassesInPackets + totalPasses)
      (table.len cblk.index layno + bytes, { cblk with numPassesInPackets } :: rest)

def writeBody (layno : Nat) (table : LayerTable) : List Precinct → Nat × List Precinct
  | [] => (0, [])
  | prc :: rest =>
    let (more, rest) := writeBody layno table rest
    if prc.skipped then (more, prc :: rest)
    else
      let (bytes, blocks) := writeBlocks layno table prc.blocks
      (bytes + more, { prc with blocks } :: rest)

/-- `compressPacket`: the number of bytes in the stream. -/
def compressPacket (coder : PacketCoder) (p : Packet) : Option (Nat × PacketCoder) :=
  if p ∈ coder.tracker then some (0, coder)
  else do
    let bands ← coder.canvas (precinctKey p)
    let (w, bands) ← compressHeader {} p.layno table bands
    let (body, bands) := writeBody p.layno table bands
    return ((if o.sop then 6 else 0) + w.bytes.length + (if o.eph then 2 else 0) + body,
      { canvas := Function.update coder.canvas (precinctKey p) (some bands)
        tracker := p :: coder.tracker })

/-- `compressPackets` over what the packet iterator yields: the number of bytes in the stream. -/
def compressPackets (o : PacketOptions) (table : LayerTable) (max_layers : Nat) :
    PacketCoder → List Packet → Option (Nat × PacketCoder)
  | coder, [] => some (0, coder)
  | coder, p :: rest =>
    if p.layno < max_layers then do
      let (bytes, coder) ← compressPacket o table coder p
      let (more, coder) ← compressPackets o table max_layers coder rest
      return (bytes + more, coder)
    else compressPackets o table max_layers coder rest

end GrokCodec.T2
