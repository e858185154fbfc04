import GrokCodec.Lib.BitCode
import GrokCodec.T2.TagTree

/-!
Packet headers on the side of the compressor. The bits of a header are collected first and then
written with bit stuffing, into a stream or into a number of bytes that may not be exceeded.
-/

namespace GrokCodec.T2

open BitCode

/-- A `BitIO` that writes. `bufLen` bounds the number of bytes. -/
structure BitWriter where
  bytes : List Nat := []
  buf : Nat := 0
  ct : Nat := 8
  bufLen : Option Nat := none
  deriving DecidableEq

variable (w : BitWriter)

namespace BitWriter

def write8u : Option BitWriter :=
  if w.bufLen = some w.bytes.length then none
  else some { w with bytes := w.bytes ++ [w.buf], ct := if w.buf = 0xff then 7 else 8, buf := 0 }

/-- A byte is written when the next bit needs its room. -/
def makeRoom : Option BitWriter := if w.ct = 0 then w.write8u else some w

def putbit (b : Bool) : Option BitWriter := do
  let w ← w.makeRoom
  let ct := w.ct - 1
  return { w with ct, buf := w.buf ||| (b.toNat <<< ct) }

def putbits (bits : List Bool) : Option BitWriter := bits.foldlM putbit w

def flush : Option BitWriter := do
  let w ← w.write8u
  if w.ct = 7 then w.write8u else some w

end BitWriter

structure Pass where
  len : Nat
  term : Bool
  deriving DecidableEq

/-- A code block as packets see it. `index` is its place in the layers of the tile. -/
structure Block where
  index : Nat
  passes : List Pass
  numbps : Nat
  /-- `getNumPassesInLayer(0)`: the passes in packets so far. -/
  numPassesInPackets : Nat := 0
  numlenbits : Nat := 0
  deriving DecidableEq

/-- A precinct of one band. -/
structure Precinct where
  bandEmpty : Bool
  maxBitPlanes : Nat
  inclTree : TagTree
  imsbTree : TagTree
  blocks : List Block
  deriving DecidableEq

/-- Number of passes and of bytes of each block in each layer. -/
structure LayerTable where
  totalPasses : Nat → Nat → Nat
  len : Nat → Nat → Nat

def floorlog2 (a : Nat) : Nat := Nat.log2 a

def putcommacode (n : Nat) : List Bool := List.replicate n true ++ [false]

/-- Nothing is written for more than 164 passes. -/
def putnumpasses (n : Nat) : List Bool :=
  if n = 1 then [false]
  else if n = 2 then bitsOf 2 2
  else if n ≤ 5 then bitsOf 4 (0xc ||| (n - 3))
  else if n ≤ 36 then bitsOf 9 (0x1e0 ||| (n - 6))
  else if n ≤ 164 then bitsOf 16 (0xff80 ||| (n - 37))
  else []

/-- Length and number of passes of each codeword segment of these passes. The last pass ends a
segment in any case. -/
def codewordSegments : List Pass → Nat → Nat → List (Nat × Nat)
  | [], _, _ => []
  | [pass], len, nump => [(len + pass.len, nump + 1)]
  | pass :: rest, len, nump =>
    if pass.term then (len + pass.len, nump + 1) :: codewordSegments rest 0 0
    else codewordSegments rest (len + pass.len) (nump + 1)

/-- By how much the length indicator grows. -/
def lengthIncrement (numlenbits : Nat) (segments : List (Nat × Nat)) : Nat :=
  segments.foldl (fun increment (len, nump) =>
    max increment (floorlog2 len + 1 - (numlenbits + floorlog2 nump))) 0

/-- The contribution of a block that is included in the layer. -/
def includedBits (cblk : Block) (totalPasses : Nat) : List Bool × Block :=
  let segments := codewordSegments ((cblk.passes.drop cblk.numPassesInPackets).take totalPasses) 0 0
  let increment := lengthIncrement cblk.numlenbits segments
  let numlenbits := cblk.numlenbits + increment
  (putnumpasses totalPasses ++ putcommacode increment ++
    segments.flatMap fun (len, nump) => bitsOf (numlenbits + floorlog2 nump) len,
    { cblk with numlenbits })

/-- One block of a packet header, with the tag trees. -/
def blockBits (layno totalPasses cblkno : Nat) (inclTree imsbTree : TagTree) (cblk : Block) :
    List Bool × TagTree × TagTree × Block :=
  let first := cblk.numPassesInPackets = 0
  let (inclusion, inclTree) :=
    if first then inclTree.encode cblkno (layno + 1) else ([decide (totalPasses ≠ 0)], inclTree)
  if totalPasses = 0 then (inclusion, inclTree, imsbTree, cblk)
  else
    let (msb, imsbTree) :=
      if first then imsbTree.encode cblkno imsbTree.uninitializedValue else ([], imsbTree)
    let cblk := if first then { cblk with numlenbits := 3 } else cblk
    let (bits, cblk) := includedBits cblk totalPasses
    (inclusion ++ msb ++ bits, inclTree, imsbTree, cblk)

/-- The blocks of a precinct from number `cblkno` on. -/
def blocksBits (layno : Nat) (table : LayerTable) :
    Nat → List Block → TagTree → TagTree → List Bool × TagTree × TagTree × List Block
  | _, [], inclTree, imsbTree => ([], inclTree, imsbTree, [])
  | cblkno, cblk :: rest, inclTree, imsbTree =>
    let (bits, inclTree, imsbTree, cblk) :=
      blockBits layno (table.totalPasses cblk.index layno) cblkno inclTree imsbTree cblk
    let (more, inclTree, imsbTree, rest) := blocksBits layno table (cblkno + 1) rest inclTree imsbTree
    (bits ++ more, inclTree, imsbTree, cblk :: rest)

/-- The inclusion tree learns which blocks the layer includes first. -/
def includeFirst (layno : Nat) (table : LayerTable) : Nat → List Block → TagTree → TagTree
  | _, [], inclTree => inclTree
  | cblkno, cblk :: rest, inclTree =>
    let inclTree :=
      if cblk.numPassesInPackets = 0 ∧ table.totalPasses cblk.index layno ≠ 0
      then inclTree.set cblkno layno else inclTree
    includeFirst layno table (cblkno + 1) rest inclTree

/-- `band->empty() || !nb_blocks`. -/
def Precinct.skipped (prc : Precinct) : Bool := prc.bandEmpty || prc.blocks.isEmpty

def Precinct.headerBits (layno : Nat) (table : LayerTable) (prc : Precinct) :
    List Bool × Precinct :=
  if prc.skipped then ([], prc)
  else
    let inclTree := includeFirst layno table 0 prc.blocks prc.inclTree
    let (bits, inclTree, imsbTree, blocks) :=
      blocksBits layno table 0 prc.blocks inclTree prc.imsbTree
    (bits, { prc with inclTree, imsbTree, blocks })

/-- Missing bit planes of the blocks from number `cblkno` on. -/
def setMissing (maxBitPlanes : Nat) : Nat → List Block → TagTree → TagTree
  | _, [], imsbTree => imsbTree
  | cblkno, cblk :: rest, imsbTree =>
    setMissing maxBitPlanes (cblkno + 1) rest (imsbTree.set cblkno (maxBitPlanes - cblk.numbps))

/-- What the first layer does to a precinct. A block with too many bit planes is an error. -/
def Precinct.begin (prc : Precinct) : Option Precinct :=
  if prc.skipped then some prc
  else if prc.blocks.any fun cblk => cblk.numbps > prc.maxBitPlanes then none
  else
    some { prc with
      inclTree := prc.inclTree.reset
      imsbTree := setMissing prc.maxBitPlanes 0 prc.blocks prc.imsbTree.reset
      blocks := prc.blocks.map fun cblk => { cblk with numPassesInPackets := 0 } }

/-- The precincts of all bands before a layer. -/
def beginBands (layno : Nat) (bands : List Precinct) : Option (List Precinct) :=
  if layno = 0 then bands.mapM Precinct.begin else some bands

/-- The bits of all bands of a resolution, and the precincts after them. -/
def bandsBits (layno : Nat) (table : LayerTable) :
    List Precinct → List Bool × List Precinct
  | [] => ([], [])
  | prc :: rest =>
    let (bits, prc) := prc.headerBits layno table
    let (more, rest) := bandsBits layno table rest
    (bits ++ more, prc :: rest)

/-- `compressHeader`: the precincts of all bands of a resolution, and the writer after them. The
bit for an empty packet always says that the packet is not empty. -/
def compressHeader (layno : Nat) (table : LayerTable) (bands : List Precinct) :
    Option (BitWriter × List Precinct) := do
  let bands ← beginBands layno bands
  let (bits, bands) := bandsBits layno table bands
  let w ← w.putbits (true :: bits)
  let w ← w.flush
  return (w, bands)

end GrokCodec.T2
