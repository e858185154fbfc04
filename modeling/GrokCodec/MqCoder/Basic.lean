import GrokCodec.Util.Geometry

/-!
The MQ coder: the table of probability states, the encoder with its carry propagation and bit
stuffing, and the decoder with its list of buffers. A register shared by encoder and decoder
in the source is modelled once on each side.
-/

namespace GrokCodec.MqCoder

/-- An entry of the state table; the next states are indices into the table. -/
structure MqcState where
  qeval : Nat
  mps : Bool
  nmps : Fin 94
  nlps : Fin 94
  deriving DecidableEq, Repr

def mqcStates : Vector MqcState 94 := #v[
  ⟨0x5601, false, 2, 3⟩, ⟨0x5601, true, 3, 2⟩,
  ⟨0x3401, false, 4, 12⟩, ⟨0x3401, true, 5, 13⟩,
  ⟨0x1801, false, 6, 18⟩, ⟨0x1801, true, 7, 19⟩,
  ⟨0x0ac1, false, 8, 24⟩, ⟨0x0ac1, true, 9, 25⟩,
  ⟨0x0521, false, 10, 58⟩, ⟨0x0521, true, 11, 59⟩,
  ⟨0x0221, false, 76, 66⟩, ⟨0x0221, true, 77, 67⟩,
  ⟨0x5601, false, 14, 13⟩, ⟨0x5601, true, 15, 12⟩,
  ⟨0x5401, false, 16, 28⟩, ⟨0x5401, true, 17, 29⟩,
  ⟨0x4801, false, 18, 28⟩, ⟨0x4801, true, 19, 29⟩,
  ⟨0x3801, false, 20, 28⟩, ⟨0x3801, true, 21, 29⟩,
  ⟨0x3001, false, 22, 34⟩, ⟨0x3001, true, 23, 35⟩,
  ⟨0x2401, false, 24, 36⟩, ⟨0x2401, true, 25, 37⟩,
  ⟨0x1c01, false, 26, 40⟩, ⟨0x1c01, true, 27, 41⟩,
  ⟨0x1601, false, 58, 42⟩, ⟨0x1601, true, 59, 43⟩,
  ⟨0x5601, false, 30, 29⟩, ⟨0x5601, true, 31, 28⟩,
  ⟨0x5401, false, 32, 28⟩, ⟨0x5401, true, 33, 29⟩,
  ⟨0x5101, false, 34, 30⟩, ⟨0x5101, true, 35, 31⟩,
  ⟨0x4801, false, 36, 32⟩, ⟨0x4801, true, 37, 33⟩,
  ⟨0x3801, false, 38, 34⟩, ⟨0x3801, true, 39, 35⟩,
  ⟨0x3401, false, 40, 36⟩, ⟨0x3401, true, 41, 37⟩,
  ⟨0x3001, false, 42, 38⟩, ⟨0x3001, true, 43, 39⟩,
  ⟨0x2801, false, 44, 38⟩, ⟨0x2801, true, 45, 39⟩,
  ⟨0x2401, false, 46, 40⟩, ⟨0x2401, true, 47, 41⟩,
  ⟨0x2201, false, 48, 42⟩, ⟨0x2201, true, 49, 43⟩,
  ⟨0x1c01, false, 50, 44⟩, ⟨0x1c01, true, 51, 45⟩,
  ⟨0x1801, false, 52, 46⟩, ⟨0x1801, true, 53, 47⟩,
  ⟨0x1601, false, 54, 48⟩, ⟨0x1601, true, 55, 49⟩,
  ⟨0x1401, false, 56, 50⟩, ⟨0x1401, true, 57, 51⟩,
  ⟨0x1201, false, 58, 52⟩, ⟨0x1201, true, 59, 53⟩,
  ⟨0x1101, false, 60, 54⟩, ⟨0x1101, true, 61, 55⟩,
  ⟨0x0ac1, false, 62, 56⟩, ⟨0x0ac1, true, 63, 57⟩,
  ⟨0x09c1, false, 64, 58⟩, ⟨0x09c1, true, 65, 59⟩,
  ⟨0x08a1, false, 66, 60⟩, ⟨0x08a1, true, 67, 61⟩,
  ⟨0x0521, false, 68, 62⟩, ⟨0x0521, true, 69, 63⟩,
  ⟨0x0441, false, 70, 64⟩, ⟨0x0441, true, 71, 65⟩,
  ⟨0x02a1, false, 72, 66⟩, ⟨0x02a1, true, 73, 67⟩,
  ⟨0x0221, false, 74, 68⟩, ⟨0x0221, true, 75, 69⟩,
  ⟨0x0141, false, 76, 70⟩, ⟨0x0141, true, 77, 71⟩,
  ⟨0x0111, false, 78, 72⟩, ⟨0x0111, true, 79, 73⟩,
  ⟨0x0085, false, 80, 74⟩, ⟨0x0085, true, 81, 75⟩,
  ⟨0x0049, false, 82, 76⟩, ⟨0x0049, true, 83, 77⟩,
  ⟨0x0025, false, 84, 78⟩, ⟨0x0025, true, 85, 79⟩,
  ⟨0x0015, false, 86, 80⟩, ⟨0x0015, true, 87, 81⟩,
  ⟨0x0009, false, 88, 82⟩, ⟨0x0009, true, 89, 83⟩,
  ⟨0x0005, false, 90, 84⟩, ⟨0x0005, true, 91, 85⟩,
  ⟨0x0001, false, 90, 86⟩, ⟨0x0001, true, 91, 87⟩,
  ⟨0x5601, false, 92, 92⟩, ⟨0x5601, true, 93, 93⟩
]

/-- The state of each of the 19 contexts. -/
abbrev Contexts := Fin 19 → Fin 94

variable (ctxs : Contexts)

/-- `**curctx` for the context number `x`. -/
def curctx (x : Fin 19) : MqcState := mqcStates.get (ctxs x)

/-- `A_MIN`, the least normalised value of the interval register. -/
def aMin : Nat := 0x8000

/-! ### Encoder -/

structure Encoder where
  a : Nat
  c : Nat
  ct : Nat
  /-- The bytes below `bp`, nearest first, down to the one before `start`. -/
  below : List Nat
  /-- The byte at `bp`. -/
  byte : Nat
  ctxs : Contexts

namespace Encoder

variable (m : Encoder)

/-- `bp++; *bp = b`, with the registers the byte leaves behind. -/
def advance (b c ct : Nat) : Encoder :=
  { m with below := m.byte :: m.below, byte := b, c, ct }

def byteout : Encoder :=
  if m.byte = 0xff then
    m.advance ((m.c >>> 20) % 256) (m.c &&& 0xfffff) 7
  else if m.c &&& 0x8000000 = 0 then
    m.advance ((m.c >>> 19) % 256) (m.c &&& 0x7ffff) 8
  else
    -- the carry goes into the byte written last
    let m := { m with byte := (m.byte + 1) % 256 }
    if m.byte = 0xff then
      let c := m.c &&& 0x7ffffff
      m.advance ((c >>> 20) % 256) (c &&& 0xfffff) 7
    else
      m.advance ((m.c >>> 19) % 256) (m.c &&& 0x7ffff) 8

/-- One turn of the loop of `renorme`. -/
def shift : Encoder :=
  let m := { m with a := u32 (m.a <<< 1), c := u32 (m.c <<< 1), ct := m.ct - 1 }
  if m.ct = 0 then m.byteout else m

def renormeLoop : Nat → Encoder → Encoder
  | 0, m => m
  | fuel + 1, m => if m.shift.a &&& 0x8000 = 0 then renormeLoop fuel m.shift else m.shift

/-- A positive interval register is normalised after at most 15 turns. -/
def renorme : Encoder := renormeLoop 15 m

def setCtx (x : Fin 19) (st : Fin 94) : Encoder :=
  { m with ctxs := Function.update m.ctxs x st }

def codemps (x : Fin 19) : Encoder :=
  let st := curctx m.ctxs x
  let a := sub32 m.a st.qeval
  if a &&& 0x8000 = 0 then
    let m := if a < st.qeval then { m with a := st.qeval }
      else { m with a := a, c := u32 (m.c + st.qeval) }
    (m.setCtx x st.nmps).renorme
  else
    { m with a := a, c := u32 (m.c + st.qeval) }

def codelps (x : Fin 19) : Encoder :=
  let st := curctx m.ctxs x
  let a := sub32 m.a st.qeval
  let m := if a < st.qeval then { m with a := a, c := u32 (m.c + st.qeval) }
    else { m with a := st.qeval }
  (m.setCtx x st.nlps).renorme

def encode (x : Fin 19) (d : Bool) : Encoder :=
  if (curctx m.ctxs x).mps = d then m.codemps x else m.codelps x

def encodeAll (symbols : List (Fin 19 × Bool)) : Encoder :=
  symbols.foldl (fun m s => m.encode s.1 s.2) m

/-- `bp` starts one byte before the buffer, on a byte that is set to zero. -/
def initEnc : Encoder :=
  { a := 0x8000, c := 0, ct := 12, below := [], byte := 0, ctxs }

def setbitsEnc : Encoder :=
  let tempc := u32 (m.c + m.a)
  let c := m.c ||| 0xffff
  { m with c := if tempc ≤ c then sub32 c 0x8000 else c }

/-- `c <<= ct` and a byte. -/
def flushByte : Encoder := { m with c := u32 (m.c <<< m.ct) }.byteout

/-- The byte at the new `bp` has not been written; nothing reads it. -/
def flushEnc : Encoder :=
  let m := m.setbitsEnc.flushByte.flushByte
  if m.byte ≠ 0xff then { m with below := m.byte :: m.below, byte := 0 } else m

/-- `(uint16_t)(bp - start)`; `bp` is `start - 1` when nothing lies below it. -/
def numbytesEnc : Nat := (m.below.length + (2 ^ 16 - 1)) % 2 ^ 16

/-- The bytes from `start` up to `bp`. -/
def written : List Nat := m.below.reverse.drop 1

/-- The bytes handed on after a flush: `numbytes_enc` of them from `start`. -/
def output : List Nat := m.written.take m.numbytesEnc

end Encoder

/-! ### Decoder -/

structure Decoder where
  a : Nat
  c : Nat
  ct : Nat
  /-- Empty when the source's pointer is null. -/
  buffers : List (List Nat)
  curBufferIndex : Nat
  /-- Position of `bp` in the current buffer. -/
  bp : Nat
  overflow : Bool
  endOfByteStreamCounter : Nat
  ctxs : Contexts

namespace Decoder

variable (m : Decoder)

/-- A byte of a buffer. Nothing is known about memory behind the end of a buffer; the value
given here for it plays no part when no buffer is empty. -/
def byteAt (buffer i : Nat) : Nat := (m.buffers.getD buffer []).getD i 0

/-- `end`, as a position in the current buffer. -/
def bufferEnd : Nat := (m.buffers.getD m.curBufferIndex []).length

/-- The byte at `bp`, after moving to the next buffer when the current one is used up. -/
def readCur : Decoder × Nat :=
  if m.bufferEnd ≤ m.bp then
    if m.curBufferIndex + 1 < m.buffers.length then
      ({ m with curBufferIndex := m.curBufferIndex + 1, bp := 0 },
        m.byteAt (m.curBufferIndex + 1) 0)
    else (m, 0xff)
  else (m, m.byteAt m.curBufferIndex m.bp)

/-- The byte after `bp`, which may be the first one of the next buffer. -/
def peekNext : Decoder × Nat :=
  if m.bufferEnd ≤ m.bp + 1 then
    if m.curBufferIndex + 1 < m.buffers.length then (m, m.byteAt (m.curBufferIndex + 1) 0)
    else ({ m with overflow := true }, 0xff)
  else (m, m.byteAt m.curBufferIndex (m.bp + 1))

/-- The eight ones that stand for every byte after the end. -/
def fillOnes : Decoder :=
  { m with c := u32 (m.c + 0xff00), ct := 8,
           endOfByteStreamCounter := u32 (m.endOfByteStreamCounter + 1) }

def bytein : Decoder :=
  let (m, cur) := m.readCur
  let (m, next) := m.peekNext
  let curff := if cur = 0xff then 1 else 0
  if cur = 0xff ∧ 0x8f < next then m.fillOnes
  else { m with bp := m.bp + 1, c := u32 (m.c + next <<< (8 + curff)), ct := 8 - curff }

/-- One turn of the loop of `renorm`. -/
def shift : Decoder :=
  let m :=
    if m.ct = 0 then
      if m.curBufferIndex = 0 ∧ m.bufferEnd = 0 then m.fillOnes else m.bytein
    else m
  { m with a := u32 (m.a <<< 1), c := u32 (m.c <<< 1), ct := m.ct - 1 }

def renormLoop : Nat → Decoder → Decoder
  | 0, m => m
  | fuel + 1, m => if m.shift.a < aMin then renormLoop fuel m.shift else m.shift

/-- A positive interval register is normalised after at most 15 turns. -/
def renorm : Decoder := renormLoop 15 m

def setCtx (x : Fin 19) (st : Fin 94) : Decoder :=
  { m with ctxs := Function.update m.ctxs x st }

def decode (x : Fin 19) : Bool × Decoder :=
  let ctx := curctx m.ctxs x
  let a := sub32 m.a ctx.qeval
  let qevalShift := u32 (ctx.qeval <<< 16)
  let mask := decide (a < ctx.qeval)
  if m.c < qevalShift then
    (ctx.mps ^^ !mask,
      ({ m with a := ctx.qeval }.setCtx x (if mask then ctx.nmps else ctx.nlps)).renorm)
  else
    let m := { m with a := a, c := sub32 m.c qevalShift }
    if a < aMin then
      (ctx.mps ^^ mask, (m.setCtx x (if mask then ctx.nlps else ctx.nmps)).renorm)
    else (ctx.mps, m)

def decodeAll (m : Decoder) : List (Fin 19) → List Bool
  | [] => []
  | x :: xs => (m.decode x).1 :: (m.decode x).2.decodeAll xs

def initDec (buffers : List (List Nat)) : Decoder :=
  let m : Decoder :=
    { a := 0, c := 0, ct := 0, buffers, curBufferIndex := 0, bp := 0, overflow := false,
      endOfByteStreamCounter := 0, ctxs }
  let m := { m with c := (if buffers = [] then 0xff else m.byteAt 0 0) <<< 16 }
  let m := if buffers = [] then m.fillOnes else m.bytein
  { m with c := u32 (m.c <<< 7), ct := m.ct - 7, a := aMin }

end Decoder

end GrokCodec.MqCoder
