import GrokCodec.Canvas.PrecinctGrid
import GrokCodec.Lib.Assign

/-!
A canvas of samples that is stored in blocks, of which only those that are needed are allocated.
Windows of it are read into and written from an external buffer with spacings of its own.
-/

namespace GrokCodec.Canvas

open Assign

variable {T : Type}

/-- Memory of `area` samples. -/
structure SparseBlock (T : Type) where
  area : Nat
  data : Nat → T

/-- A sample of a block, if it is one. -/
def SparseBlock.get (b : SparseBlock T) (i : Nat) : Option T :=
  if i < b.area then some (b.data i) else none

/-- `SparseCanvas`: blocks of `2 ^ lbw` by `2 ^ lbh` samples. -/
structure SparseCanvas (T : Type) where
  lbw : Nat
  lbh : Nat
  bounds : Rect
  blocks : Nat → Option (SparseBlock T) := fun _ => none

/-- The part of a window in one row or column of blocks: its block, where it starts in the window
and in the block, and its length. -/
structure Piece where
  grid : Nat
  start : Nat
  offset : Nat
  len : Nat
  deriving DecidableEq, Repr

/-- The loop over the blocks along one axis. -/
def pieces (lb hi : Nat) : Nat → Bool → Nat → Nat → List Piece
  | 0, _, _, _ => []
  | fuel + 1, first, grid, y =>
    if y < hi then
      let blockLen := if first then 2 ^ lb - y % 2 ^ lb else 2 ^ lb
      let len := min blockLen (hi - y)
      ⟨grid, y, 2 ^ lb - blockLen, len⟩ :: pieces lb hi fuel false (grid + 1) (y + len)
    else []

def axisPieces (lb lo hi : Nat) : List Piece := pieces lb hi (hi - lo) true (lo >>> lb) lo

/-- Column and row of the samples of a part of a block, in the order of the loops. -/
def cells (width height : Nat) : List (Nat × Nat) :=
  (List.range height).flatMap fun y => (List.range width).map fun x => (x, y)

/-- The loops over the blocks of a window. They end at a block that is not in the grid. -/
def overBlocks {σ : Type} (grid : Rect) (f : Piece → Piece → σ → Option σ) :
    List (Piece × Piece) → σ → Option (Bool × σ)
  | [], s => some (true, s)
  | (px, py) :: rest, s =>
    if grid.x0 ≤ px.grid ∧ grid.y0 ≤ py.grid ∧ px.grid < grid.x1 ∧ py.grid < grid.y1 then
      (f px py s).bind (overBlocks grid f rest)
    else some (false, s)

namespace SparseCanvas

variable (c : SparseCanvas T)

def grid : Rect := c.bounds.scaleDownPow2 c.lbw c.lbh

variable (gridX gridY : Nat)

def blockIndex : Nat :=
  sub32 gridY c.grid.y0 * c.grid.width + sub32 gridX c.grid.x0

def getBlock : Option (SparseBlock T) :=
  c.blocks (c.blockIndex gridX gridY)

variable (win : Rect)

def isWindowValid : Bool :=
  !(win.x0 ≥ c.bounds.x1 || win.x1 ≤ win.x0 || win.x1 > c.bounds.x1 || win.y0 ≥ c.bounds.y1 ||
    win.y1 ≤ win.y0 || win.y1 > c.bounds.y1)

def blockPairs : List (Piece × Piece) :=
  (axisPieces c.lbh win.y0 win.y1).flatMap fun py =>
    (axisPieces c.lbw win.x0 win.x1).map fun px => (px, py)

def setBlock (b : SparseBlock T) : SparseCanvas T :=
  { c with blocks := Function.update c.blocks (c.blockIndex gridX gridY) (some b) }

/-- The number of samples of a block is computed in 32 bits. What new memory holds is not known
unless it is zeroed. -/
def allocBlock [Zero T] (zeroOutBuffer : Bool) (memory : Nat → Nat → T) (px py : Piece)
    (c : SparseCanvas T) : SparseCanvas T :=
  match c.getBlock px.grid py.grid with
  | some _ => c
  | none =>
    c.setBlock px.grid py.grid
      ⟨u32 (2 ^ c.lbw * 2 ^ c.lbh),
        if zeroOutBuffer then fun _ => 0 else memory (c.blockIndex px.grid py.grid)⟩

def alloc [Zero T] (c : SparseCanvas T) (win : Rect) (zeroOutBuffer : Bool)
    (memory : Nat → Nat → T) : Option (Bool × SparseCanvas T) :=
  if c.isWindowValid win then
    overBlocks c.grid (fun px py c => some (allocBlock zeroOutBuffer memory px py c))
      (c.blockPairs win) c
  else some (true, c)

/-- Where a sample of a block is in the data of the block. -/
def dataIndex (px py : Piece) (cell : Nat × Nat) : Nat :=
  (py.offset + cell.2) <<< c.lbw + px.offset + cell.1

/-- Where a sample of a block is in the buffer. The place of the first sample of the block is
computed in 32 bits along each axis. -/
def place (spacingX spacingY : Nat) (px py : Piece) (cell : Nat × Nat) : Nat :=
  u32 (sub32 py.start win.y0 * spacingY) + u32 (sub32 px.start win.x0 * spacingX) +
    cell.2 * spacingY + cell.1 * spacingX

/-- Reading from one block. An access outside of its memory is an error. -/
def readBlock (spacingX spacingY : Nat) (px py : Piece) (dest : Nat → T) : Option (Nat → T) :=
  match c.getBlock px.grid py.grid with
  | none => some dest
  | some b => do
    let pairs ← (cells px.len py.len).mapM fun cell =>
      (b.get (c.dataIndex px py cell)).map fun v => (place win spacingX spacingY px py cell, v)
    return assign pairs dest

def read (dest : Nat → T) (spacingX spacingY : Nat) : Option (Bool × (Nat → T)) :=
  if win.x0 ≤ win.x1 ∧ win.y0 ≤ win.y1 ∧ c.isWindowValid win then
    overBlocks c.grid (c.readBlock win spacingX spacingY) (c.blockPairs win) dest
  else some (false, dest)

/-- A sample of the buffer, or zero without a buffer. -/
def source [Zero T] (src : Option (Nat → T)) (i : Nat) : T := src.elim 0 (· i)

def writeBlock [Zero T] (win : Rect) (src : Option (Nat → T)) (spacingX spacingY : Nat)
    (px py : Piece) (c : SparseCanvas T) : Option (SparseCanvas T) :=
  match c.getBlock px.grid py.grid with
  | none => some c
  | some b => do
    let pairs ← (cells px.len py.len).mapM fun cell =>
      (b.get (c.dataIndex px py cell)).map fun _ =>
        (c.dataIndex px py cell, source src (place win spacingX spacingY px py cell))
    return c.setBlock px.grid py.grid { b with data := assign pairs b.data }

def write [Zero T] (c : SparseCanvas T) (win : Rect) (src : Option (Nat → T))
    (spacingX spacingY : Nat) : Option (Bool × SparseCanvas T) :=
  if win.x0 ≤ win.x1 ∧ win.y0 ≤ win.y1 ∧ c.isWindowValid win then
    overBlocks c.grid (writeBlock win src spacingX spacingY) (c.blockPairs win) c
  else some (false, c)

end SparseCanvas

end GrokCodec.Canvas
