import GrokCodec.Lib.ByteStream
import GrokCodec.Lib.Region

/-!
Write streams: bytes are collected in a buffer before they go to the media, or go to memory at once.
The write and seek callbacks of the media do what they are asked to; those of memory refuse what is
not in it.
-/

namespace GrokCodec.Stream

open ByteStream Region List Option Nat

/-- `BufferedStream`, for output. A memory stream has the media as its buffer. -/
structure WriteStream where
  isMemStream : Bool
  media : Nat → Nat
  cursor : Nat := 0
  buf : Nat → Nat
  numElts : Nat
  offset : Nat := 0
  bufferedBytes : Nat := 0
  streamOffset : Nat := 0

namespace WriteStream

variable (s : WriteStream)

def tell : Nat := s.streamOffset

/-- What is allocated. `grk_aligned_malloc` rounds the size of a buffer up to whole pages. -/
def capacity : Nat := if s.isMemStream then s.numElts else (s.numElts + 4095) / 4096 * 4096

/-- `num_elts() - bufferedBytes_`, which wraps if the buffer holds more than its size. -/
def available : Nat :=
  if s.bufferedBytes ≤ s.numElts then s.numElts - s.bufferedBytes
  else s.numElts + 2 ^ 64 - s.bufferedBytes

/-- Bytes are written at the current place of the buffer. Writing past what is allocated is an
error. -/
def store (bytes : List Nat) : Option WriteStream :=
  if s.offset + bytes.length ≤ s.capacity then
    some (if s.isMemStream then { s with media := splice s.media s.offset bytes }
      else { s with buf := splice s.buf s.offset bytes })
  else none

/-- `Buffer::increment_offset`. -/
def incrementOffset (len : Nat) : Nat := min (s.offset + len) s.numElts

def writeIncrement (len : Nat) : WriteStream :=
  { s with
    offset := s.incrementOffset len
    bufferedBytes := if s.isMemStream then s.bufferedBytes else s.bufferedBytes + len
    streamOffset := s.streamOffset + len }

/-- The seek callback. That of memory, `memStreamSeek`, refuses the end of the memory and what is
behind it. -/
def seekCallback (offset : Nat) : Option WriteStream :=
  if s.isMemStream ∧ s.numElts ≤ offset then none else some { s with cursor := offset }

/-- The write callback. -/
def writeCallback (bytes : List Nat) : WriteStream :=
  { s with media := splice s.media s.cursor bytes, cursor := s.cursor + bytes.length }

/-- `flush`. Reading past what is allocated is an error. -/
def flush : Option WriteStream :=
  if s.isMemStream then some s
  else if s.bufferedBytes ≤ s.capacity then
    some { s.writeCallback (slice s.buf 0 s.bufferedBytes) with bufferedBytes := 0, offset := 0 }
  else none

/-- The part of the bytes that fills the buffer up. -/
def fill (bytes : List Nat) : Option WriteStream :=
  if bytes = [] then some s
  else (s.store bytes).map fun s =>
    { s with
      offset := 0, bufferedBytes := s.bufferedBytes + bytes.length
      streamOffset := s.streamOffset + bytes.length }

/-- The loop of `writeBytes`. -/
def writeLoop : Nat → WriteStream → List Nat → Option WriteStream
  | 0, _, _ => none
  | fuel + 1, s, bytes =>
    if bytes.length ≤ s.available then (s.store bytes).map (writeIncrement · bytes.length)
    else do
      let rest := bytes.drop s.available
      let s ← s.fill (bytes.take s.available)
      let s ← s.flush
      writeLoop fuel s rest

/-- `writeBytes`. `memStreamWrite` writes as many bytes as there is memory for, and fewer than asked
for are an error. -/
def writeBytes (bytes : List Nat) : Option WriteStream :=
  if bytes = [] then some s
  else if s.isMemStream then
    if s.cursor + bytes.length ≤ s.numElts then
      some ((s.writeCallback bytes).writeIncrement bytes.length)
    else none
  else writeLoop (bytes.length + 2) s bytes

/-- `write_non_template`, of the low bytes of a value. -/
def writeNonTemplate (value numBytes : Nat) : Option WriteStream :=
  let bytes := beBytes numBytes value
  (if s.isMemStream then s.seekCallback (s.streamOffset + numBytes)
    else if s.available < numBytes then s.flush else some s).bind fun s =>
      (s.store bytes).map (writeIncrement · numBytes)

def writeSeek (offset : Nat) : Option WriteStream :=
  s.flush.bind fun s => (s.seekCallback offset).map fun s =>
    { s with
      offset := if s.isMemStream then offset else 0
      bufferedBytes := 0, streamOffset := offset }

/-- `writeSkip`. A place before the start is refused. -/
def writeSkip (len : Int) : Option WriteStream :=
  if s.streamOffset + len < 0 then some s else s.writeSeek (s.streamOffset + len).toNat

end WriteStream

/-- A call on a write stream. Typed values have at most the 8 bytes of a `uint64_t`. -/
inductive WriteOp where
  | bytes (bytes : List Nat)
  | value (value : Nat) (numBytes : Fin 9)
  | seek (offset : Nat)
  | skip (len : Int)
  | flush

namespace WriteOp

def run (s : WriteStream) : WriteOp → Option WriteStream
  | bytes bs => s.writeBytes bs
  | value v n => s.writeNonTemplate v n
  | seek offset => s.writeSeek offset
  | skip len => s.writeSkip len
  | flush => s.flush

/-- The bytes of the call. -/
def written : WriteOp → List Nat
  | bytes bs => bs
  | value v n => beBytes n v
  | _ => []

/-- The place in a file after the call. -/
def position (pos : Nat) : WriteOp → Nat
  | bytes bs => pos + bs.length
  | value _ n => pos + n
  | seek offset => offset
  | skip len => if pos + len < 0 then pos else (pos + len).toNat
  | flush => pos

end WriteOp

/-- Every call acts on the stream as on a file, whose content is on the media after a flush. -/
def WriteStream.Refines (s : WriteStream) (content : Nat → Nat) (pos : Nat) : List WriteOp → Prop
  | [] => s.tell = pos ∧ ∃ s', s.flush = some s' ∧ s'.media = content ∧ s'.tell = pos
  | op :: ops => s.tell = pos ∧
    ∃ s', op.run s = some s' ∧ s'.Refines (splice content pos op.written) (op.position pos) ops

namespace WriteStream

/-- The stream stands for a file: the media, with the buffered bytes at its cursor. -/
structure Represents (s : WriteStream) (content : Nat → Nat) (pos : Nat) : Prop where
  tell_eq : s.streamOffset = pos
  mem : s.isMemStream = true → s.offset = pos ∧ s.cursor = pos ∧ s.bufferedBytes = 0 ∧
    s.media = content
  buffered : s.isMemStream = false → s.offset = min s.bufferedBytes s.numElts ∧
    s.bufferedBytes ≤ s.capacity ∧ s.cursor + s.bufferedBytes = pos ∧
    splice s.media s.cursor (slice s.buf 0 s.bufferedBytes) = content

/-- The parts of a stream that do not change. -/
structure SameKind (s s' : WriteStream) : Prop where
  isMemStream_eq : s'.isMemStream = s.isMemStream
  numElts_eq : s'.numElts = s.numElts

variable {s s' : WriteStream} {content : Nat → Nat} {pos : Nat}

theorem SameKind.trans {s'' : WriteStream} (h : s.SameKind s') (h' : s'.SameKind s'') :
    s.SameKind s'' :=
  ⟨h'.isMemStream_eq.trans h.isMemStream_eq, h'.numElts_eq.trans h.numElts_eq⟩

theorem numElts_le_capacity : s.numElts ≤ s.capacity := by
  unfold capacity
  split <;> omega

theorem page_le_capacity (hmem : s.isMemStream = false) (hpos : 0 < s.numElts) :
    4096 ≤ s.capacity := by
  rw [capacity, if_neg (by rw [hmem]; decide)]
  omega

theorem available_eq (hfull : s.bufferedBytes ≤ s.numElts) :
    s.available = s.numElts - s.bufferedBytes := if_pos hfull

variable (h : s.Represents content pos)

include h

theorem flush_spec :
    ∃ s', s.flush = some s' ∧ s'.Represents content pos ∧ s.SameKind s' ∧ s'.bufferedBytes = 0 ∧
      s'.media = content := by
  unfold flush
  cases hmem : s.isMemStream with
  | true =>
    obtain ⟨_, _, hzero, hmedia⟩ := h.mem hmem
    exact ⟨s, if_pos rfl, h, ⟨rfl, rfl⟩, hzero, hmedia⟩
  | false =>
    obtain ⟨_, hle, hcursor, hcontent⟩ := h.buffered hmem
    refine ⟨_, (if_neg Bool.false_ne_true).trans (if_pos hle), ⟨h.tell_eq, ?_, ?_⟩, ⟨rfl, rfl⟩, rfl,
      hcontent⟩
    · exact fun hmem' => nomatch hmem.symm.trans hmem'
    · refine fun _ => ⟨(zero_min _).symm, zero_le _, ?_, ?_⟩
      · show s.cursor + (slice s.buf 0 s.bufferedBytes).length + 0 = pos
        rw [length_slice, Nat.add_zero, hcursor]
      · exact (splice_nil _ _).trans hcontent

variable (hmem : s.isMemStream = false) (hfull : s.bufferedBytes ≤ s.numElts)

include hmem hfull

variable {bytes : List Nat}

theorem store_spec (hroom : s.bufferedBytes + bytes.length ≤ s.capacity) :
    ∃ s', s.store bytes = some s' ∧ s' = { s with buf := s'.buf } ∧
      splice s.media s.cursor (slice s'.buf 0 (s.bufferedBytes + bytes.length)) =
        splice content pos bytes := by
  obtain ⟨hoff, _, hcursor, hcontent⟩ := h.buffered hmem
  rw [min_eq_left hfull] at hoff
  have hstore : s.store bytes = some { s with buf := splice s.buf s.offset bytes } := by
    rw [store, if_pos (hoff ▸ hroom), hmem]
    rfl
  refine ⟨_, hstore, rfl, ?_⟩
  have hslice : slice (splice s.buf s.offset bytes) 0 (s.bufferedBytes + bytes.length) =
      slice s.buf 0 s.bufferedBytes ++ bytes := by
    rw [slice_add, hoff, Nat.zero_add, slice_splice, slice_splice_of_le bytes (by omega)]
  rw [hslice, ← splice_append, hcontent, length_slice, hcursor]

theorem storeIncrement_spec (hroom : s.bufferedBytes + bytes.length ≤ s.capacity) :
    ∃ s', (s.store bytes).map (writeIncrement · bytes.length) = some s' ∧
      s'.Represents (splice content pos bytes) (pos + bytes.length) ∧ s.SameKind s' ∧
      s'.bufferedBytes = s.bufferedBytes + bytes.length := by
  obtain ⟨s₁, hstore, hs₁, hcontent⟩ := store_spec h hmem hfull hroom
  obtain ⟨hoff, _, hcursor, _⟩ := h.buffered hmem
  rw [hstore, hs₁]
  refine ⟨_, rfl, ⟨?_, ?_, ?_⟩, ⟨rfl, rfl⟩, ?_⟩
  · exact congrArg (· + bytes.length) h.tell_eq
  · exact fun hmem' => nomatch hmem.symm.trans hmem'
  · intro _
    simp only [writeIncrement, incrementOffset, hmem, Bool.false_eq_true, if_false]
    exact ⟨by omega, by simpa [capacity, hmem] using hroom, by omega, hcontent⟩
  · simp [writeIncrement, hmem]

theorem fill_flush_spec (hroom : s.bufferedBytes + bytes.length ≤ s.numElts) :
    ∃ s', (s.fill bytes).bind flush = some s' ∧
      s'.Represents (splice content pos bytes) (pos + bytes.length) ∧ s.SameKind s' ∧
      s'.bufferedBytes = 0 := by
  by_cases hnil : bytes = []
  · subst hnil
    obtain ⟨s', hflush, hrep, hkind, hzero, _⟩ := flush_spec h
    refine ⟨s', by rw [fill, if_pos rfl]; exact hflush, ?_, hkind, hzero⟩
    rwa [splice_nil]
  · have hcap : s.bufferedBytes + bytes.length ≤ s.capacity := hroom.trans numElts_le_capacity
    obtain ⟨s₁, hstore, hs₁, hcontent⟩ := store_spec h hmem hfull hcap
    obtain ⟨hoff, _, hcursor, _⟩ := h.buffered hmem
    rw [fill, if_neg hnil, hstore, hs₁, map_some, bind_some]
    unfold flush
    refine ⟨_, (if_neg (by rw [hmem]; decide)).trans (if_pos hcap), ⟨?_, ?_, ?_⟩, ⟨rfl, rfl⟩, rfl⟩
    · exact congrArg (· + bytes.length) h.tell_eq
    · exact fun hmem' => nomatch hmem.symm.trans hmem'
    · refine fun _ => ⟨(zero_min _).symm, zero_le _, ?_, ?_⟩
      · show s.cursor + (slice s₁.buf 0 (s.bufferedBytes + bytes.length)).length + 0 = _
        rw [length_slice]
        omega
      · exact (splice_nil _ _).trans hcontent

theorem writeLoop_step (bytes : List Nat) (fuel : Nat) :
    (∃ s', writeLoop (fuel + 1) s bytes = some s' ∧
      s'.Represents (splice content pos bytes) (pos + bytes.length) ∧ s.SameKind s' ∧
      s'.bufferedBytes ≤ s'.numElts) ∨
    ∃ chunk rest s', bytes = chunk ++ rest ∧ chunk.length = s.numElts - s.bufferedBytes ∧
      writeLoop (fuel + 1) s bytes = writeLoop fuel s' rest ∧
      s'.Represents (splice content pos chunk) (pos + chunk.length) ∧ s.SameKind s' ∧
      s'.bufferedBytes = 0 := by
  by_cases hfits : bytes.length ≤ s.numElts - s.bufferedBytes
  · left
    rw [writeLoop, available_eq hfull, if_pos hfits]
    have hroom : s.bufferedBytes + bytes.length ≤ s.numElts := by omega
    obtain ⟨s', hrun, hrep, hkind, hbuffered⟩ :=
      storeIncrement_spec h hmem hfull (hroom.trans numElts_le_capacity)
    exact ⟨s', hrun, hrep, hkind, by rw [hbuffered, hkind.numElts_eq]; exact hroom⟩
  · have hlen : (bytes.take (s.numElts - s.bufferedBytes)).length =
        s.numElts - s.bufferedBytes := by
      rw [length_take]
      omega
    obtain ⟨s', hrun, hrep, hkind, hzero⟩ := fill_flush_spec h hmem hfull
      (show s.bufferedBytes + (bytes.take (s.numElts - s.bufferedBytes)).length ≤ s.numElts by omega)
    refine Or.inr ⟨_, _, s', (take_append_drop _ bytes).symm, hlen, ?_, hrep, hkind, hzero⟩
    rw [writeLoop, available_eq hfull, if_neg hfits]
    simp only [bind_eq_bind]
    rw [← bind_assoc, hrun, bind_some]

omit hmem h hfull

/-- Only the first iteration may start with bytes in the buffer, and it may find no room. -/
theorem writeLoop_spec {fuel : Nat} : ∀ {s : WriteStream} {content : Nat → Nat} {pos : Nat}
    {bytes : List Nat}, s.Represents content pos → s.isMemStream = false →
    s.bufferedBytes ≤ s.numElts → 0 < s.numElts → bytes.length + min 1 s.bufferedBytes < fuel →
    ∃ s', writeLoop fuel s bytes = some s' ∧
      s'.Represents (splice content pos bytes) (pos + bytes.length) ∧ s.SameKind s' ∧
      s'.bufferedBytes ≤ s'.numElts := by
  induction fuel with
  | zero => intro s content pos bytes _ _ _ _ hfuel; exact absurd hfuel (not_lt_zero _)
  | succ fuel ih =>
    intro s content pos bytes h hmem hfull hpos hfuel
    rcases writeLoop_step h hmem hfull bytes fuel with
      hdone | ⟨chunk, rest, s₁, rfl, hlen, hrun, h₁, hkind, hzero₁⟩
    · exact hdone
    · rw [length_append] at hfuel
      obtain ⟨s₂, hrun₂, h₂, hkind₂, hfull₂⟩ := ih h₁
        (hkind.isMemStream_eq.trans hmem) (by omega) (hkind.numElts_eq ▸ hpos)
        (show rest.length + _ < fuel by omega)
      refine ⟨s₂, hrun.trans hrun₂, ?_, hkind.trans hkind₂, hfull₂⟩
      rwa [splice_append, Nat.add_assoc, ← length_append] at h₂

theorem writeBytes_spec (h : s.Represents content pos) (hpos : 0 < s.numElts) (hne : bytes ≠ [])
    (hmemFits : s.isMemStream = true → pos + bytes.length ≤ s.numElts)
    (hfull : s.isMemStream = false → s.bufferedBytes ≤ s.numElts) :
    ∃ s', s.writeBytes bytes = some s' ∧
      s'.Represents (splice content pos bytes) (pos + bytes.length) ∧ s.SameKind s' ∧
      s'.bufferedBytes ≤ s'.numElts := by
  rw [writeBytes, if_neg hne]
  cases hmem : s.isMemStream with
  | true =>
    obtain ⟨hoff, hcursor, hzero, rfl⟩ := h.mem hmem
    have hroom := hmemFits hmem
    rw [if_pos rfl, if_pos (by omega)]
    refine ⟨_, rfl, ⟨congrArg (· + bytes.length) h.tell_eq, ?_, ?_⟩, ⟨rfl, rfl⟩, ?_⟩
    · intro _
      simp only [writeIncrement, incrementOffset, writeCallback, hmem, if_true]
      refine ⟨by omega, by omega, hzero, by rw [hcursor]⟩
    · exact fun hmem' => nomatch hmem.symm.trans hmem'
    · simp [writeIncrement, writeCallback, hmem, hzero]
  | false =>
    rw [if_neg Bool.false_ne_true]
    exact writeLoop_spec h hmem (hfull hmem) hpos (by omega)

/-- A value goes into what is left of the buffer, or to the start of an empty one, even if it is
wider than the buffer. -/
theorem writeNonTemplate_spec (h : s.Represents content pos) (hpos : 0 < s.numElts) (value : Nat)
    {numBytes : Nat} (htyped : numBytes ≤ 8)
    (hmemFits : s.isMemStream = true → pos + numBytes < s.numElts)
    (hfull : s.isMemStream = false → s.bufferedBytes ≤ s.numElts) :
    ∃ s', s.writeNonTemplate value numBytes = some s' ∧
      s'.Represents (splice content pos (beBytes numBytes value)) (pos + numBytes) ∧
      s.SameKind s' ∧ (numBytes ≤ s.numElts → s'.bufferedBytes ≤ s'.numElts) := by
  have hlen := length_beBytes numBytes value
  unfold writeNonTemplate
  cases hmem : s.isMemStream with
  | true =>
    obtain ⟨hoff, _, hzero, rfl⟩ := h.mem hmem
    have hroom := hmemFits hmem
    have htell := h.tell_eq
    have hcap : s.offset + (beBytes numBytes value).length ≤ s.capacity := by
      rw [hoff, hlen]
      exact hroom.le.trans numElts_le_capacity
    rw [if_pos rfl, seekCallback, if_neg (by omega), bind_some]
    unfold store
    rw [if_pos hmem]
    refine ⟨_, congrArg (Option.map _) (if_pos hcap), ⟨congrArg (· + numBytes) htell, ?_, ?_⟩,
      ⟨rfl, rfl⟩, ?_⟩
    · intro _
      simp only [writeIncrement, incrementOffset, hmem, if_true, hoff]
      exact ⟨by omega, by omega, hzero, trivial⟩
    · exact fun hmem' => nomatch hmem.symm.trans hmem'
    · intro _
      simp [writeIncrement, hmem, hzero]
  | false =>
    rw [if_neg Bool.false_ne_true]
    have hbuffered := hfull hmem
    obtain ⟨s₁, hflush, h₁, hkind, hfull₁, hroom, hsum⟩ : ∃ s₁,
        (if s.available < numBytes then s.flush else some s) = some s₁ ∧
        s₁.Represents content pos ∧ s.SameKind s₁ ∧ s₁.bufferedBytes ≤ s₁.numElts ∧
        s₁.bufferedBytes + numBytes ≤ s₁.capacity ∧
        (numBytes ≤ s.numElts → s₁.bufferedBytes + numBytes ≤ s₁.numElts) := by
      have hpage := page_le_capacity hmem hpos
      rw [available_eq hbuffered]
      by_cases hfew : s.numElts - s.bufferedBytes < numBytes
      · obtain ⟨s₁, hflush, h₁, hkind, hzero, _⟩ := flush_spec h
        have hpage₁ := page_le_capacity (hkind.isMemStream_eq.trans hmem) (hkind.numElts_eq ▸ hpos)
        refine ⟨s₁, (if_pos hfew).trans hflush, h₁, hkind, ?_⟩
        rw [hzero, hkind.numElts_eq]
        omega
      · have hcap := numElts_le_capacity (s := s)
        exact ⟨s, if_neg hfew, h, ⟨rfl, rfl⟩, hbuffered, by omega, by omega⟩
    rw [← hlen] at hroom
    obtain ⟨s₂, hstore, h₂, hkind₂, hbytes⟩ :=
      storeIncrement_spec h₁ (hkind.isMemStream_eq.trans hmem) hfull₁ hroom
    rw [hlen] at hstore h₂ hbytes
    refine ⟨s₂, by rw [hflush, bind_some, hstore], h₂, hkind.trans hkind₂, fun hwidth => ?_⟩
    rw [hbytes, hkind₂.numElts_eq]
    exact hsum hwidth

theorem writeSeek_spec (h : s.Represents content pos) {offset : Nat}
    (hin : s.isMemStream = true → offset < s.numElts) :
    ∃ s', s.writeSeek offset = some s' ∧ s'.Represents content offset ∧ s.SameKind s' ∧
      s'.bufferedBytes = 0 := by
  obtain ⟨s₁, hflush, h₁, hkind, _, hmedia⟩ := flush_spec h
  have hseek : ¬(s₁.isMemStream = true ∧ s₁.numElts ≤ offset) := by
    rw [hkind.isMemStream_eq, hkind.numElts_eq]
    exact fun hout => Nat.not_le.mpr (hin hout.1) hout.2
  rw [writeSeek, hflush, bind_some, seekCallback, if_neg hseek]
  refine ⟨_, rfl, ⟨rfl, ?_, ?_⟩, ⟨hkind.isMemStream_eq, hkind.numElts_eq⟩, rfl⟩
  · exact fun hmem => ⟨if_pos hmem, rfl, rfl, hmedia⟩
  · intro hmem
    exact ⟨(if_neg (by rw [show s₁.isMemStream = false from hmem]; decide)).trans (zero_min _).symm,
      zero_le _, rfl, (splice_nil _ _).trans hmedia⟩

end WriteStream

/-- What a call needs: on memory its place is in the memory, for a value and a seek before the end;
a buffer takes bytes and values while it holds no more than its size. -/
def WriteOp.Fits (isMemStream overfull : Bool) (numElts pos : Nat) : WriteOp → Prop
  | .bytes bs => if isMemStream then bs = [] ∨ pos + bs.length ≤ numElts else overfull = false
  | .value _ n => if isMemStream then pos + n < numElts else overfull = false
  | .seek offset => isMemStream = true → offset < numElts
  | .skip len => isMemStream = true → pos + len < numElts
  | .flush => True

/-- The buffer may hold more than its size after the call: that is so after a wide value, until the
buffer is written out. -/
def WriteOp.overfills (overfull : Bool) (numElts pos : Nat) : WriteOp → Bool
  | .bytes _ => overfull
  | .value _ n => decide (numElts < n)
  | .seek _ => false
  | .skip len => decide (pos + len < 0) && overfull
  | .flush => false

/-- All calls fit, from a place on. -/
def FitAll (isMemStream : Bool) (numElts : Nat) : Bool → Nat → List WriteOp → Prop
  | _, _, [] => True
  | overfull, pos, op :: ops => op.Fits isMemStream overfull numElts pos ∧
    FitAll isMemStream numElts (op.overfills overfull numElts pos) (op.position pos) ops

namespace WriteStream

variable {s : WriteStream} {content : Nat → Nat} {pos : Nat} {overfull : Bool}

theorem run_spec {op : WriteOp} (h : s.Represents content pos) (hpos : 0 < s.numElts)
    (hfull : overfull = false → s.bufferedBytes ≤ s.numElts)
    (hfits : op.Fits s.isMemStream overfull s.numElts pos) :
    ∃ s', op.run s = some s' ∧ s'.Represents (splice content pos op.written) (op.position pos) ∧
      s.SameKind s' ∧
      (op.overfills overfull s.numElts pos = false → s'.bufferedBytes ≤ s'.numElts) := by
  have hzero {s' : WriteStream} (h0 : s'.bufferedBytes = 0) : s'.bufferedBytes ≤ s'.numElts := by
    omega
  have hseek {offset : Nat} (hin : s.isMemStream = true → offset < s.numElts) :
      ∃ s', s.writeSeek offset = some s' ∧ s'.Represents (splice content pos []) offset ∧
        s.SameKind s' ∧ s'.bufferedBytes ≤ s'.numElts := by
    obtain ⟨s', hrun, hrep, hkind, h0⟩ := writeSeek_spec h hin
    rw [splice_nil]
    exact ⟨s', hrun, hrep, hkind, hzero h0⟩
  cases op with
  | bytes bs =>
    simp only [WriteOp.Fits] at hfits
    by_cases hnil : bs = []
    · subst hnil
      refine ⟨s, show s.writeBytes [] = some s from if_pos rfl, ?_, ⟨rfl, rfl⟩, hfull⟩
      show s.Represents (splice content pos []) (pos + 0)
      rwa [splice_nil]
    obtain ⟨s', hrun, hrep, hkind, hle⟩ := writeBytes_spec h hpos hnil
      (fun hmem => by rw [if_pos hmem] at hfits; exact hfits.resolve_left hnil)
      (fun hmem => by rw [if_neg (by rw [hmem]; decide)] at hfits; exact hfull hfits)
    exact ⟨s', hrun, hrep, hkind, fun _ => hle⟩
  | value v n =>
    simp only [WriteOp.Fits] at hfits
    obtain ⟨s', hrun, hrep, hkind, hle⟩ := writeNonTemplate_spec h hpos v (Nat.le_of_lt_succ n.isLt)
      (fun hmem => by rwa [if_pos hmem] at hfits)
      (fun hmem => by rw [if_neg (by rw [hmem]; decide)] at hfits; exact hfull hfits)
    exact ⟨s', hrun, hrep, hkind, fun hwide => hle (Nat.not_lt.mp (of_decide_eq_false hwide))⟩
  | seek offset =>
    obtain ⟨s', hrun, hrep, hkind, hle⟩ := hseek hfits
    exact ⟨s', hrun, hrep, hkind, fun _ => hle⟩
  | skip len =>
    show ∃ s', s.writeSkip len = some s' ∧ s'.Represents (splice content pos [])
      (if (pos : Int) + len < 0 then pos else (pos + len).toNat) ∧ _
    rw [writeSkip, h.tell_eq]
    by_cases hneg : (pos : Int) + len < 0
    · rw [if_pos hneg, if_pos hneg, splice_nil]
      refine ⟨s, rfl, h, ⟨rfl, rfl⟩, fun hskip => hfull ?_⟩
      rwa [WriteOp.overfills, decide_eq_true hneg, Bool.true_and] at hskip
    · rw [if_neg hneg, if_neg hneg]
      obtain ⟨s', hrun, hrep, hkind, hle⟩ := hseek fun hmem => show (pos + len).toNat < _ by
        have := hfits hmem
        omega
      exact ⟨s', hrun, hrep, hkind, fun _ => hle⟩
  | flush =>
    show ∃ s', s.flush = some s' ∧ s'.Represents (splice content pos []) pos ∧ _
    rw [splice_nil]
    obtain ⟨s', hflush, hrep, hkind, h0, _⟩ := flush_spec h
    exact ⟨s', hflush, hrep, hkind, fun _ => hzero h0⟩

/-- On memory a call that does not fit is refused. -/
theorem fits_of_run {op : WriteOp} (h : s.Represents content pos) (hmem : s.isMemStream = true)
    {s' : WriteStream} (hrun : op.run s = some s') : op.Fits true overfull s.numElts pos := by
  obtain ⟨_, hcursor, _, _⟩ := h.mem hmem
  have hseek {t : WriteStream} {offset : Nat} (hseek : s.seekCallback offset = some t) :
      offset < s.numElts := by
    by_contra hout
    rw [seekCallback, if_pos ⟨hmem, Nat.not_lt.mp hout⟩] at hseek
    cases hseek
  have hwriteSeek {t : WriteStream} {offset : Nat} (hrun : s.writeSeek offset = some t) :
      offset < s.numElts := by
    rw [writeSeek, flush, if_pos hmem, bind_some] at hrun
    obtain ⟨_, hcall, _⟩ := map_eq_some_iff.mp hrun
    exact hseek hcall
  cases op with
  | bytes bs =>
    change s.writeBytes bs = some s' at hrun
    show bs = [] ∨ pos + bs.length ≤ s.numElts
    refine or_iff_not_imp_left.mpr fun hnil => ?_
    rw [writeBytes, if_neg hnil, if_pos hmem, hcursor] at hrun
    by_contra hout
    rw [if_neg hout] at hrun
    cases hrun
  | value v n =>
    change s.writeNonTemplate v n = some s' at hrun
    rw [writeNonTemplate, if_pos hmem, h.tell_eq] at hrun
    obtain ⟨_, hcall, _⟩ := bind_eq_some_iff.mp hrun
    exact hseek hcall
  | seek offset => exact fun _ => hwriteSeek hrun
  | skip len =>
    intro _
    change s.writeSkip len = some s' at hrun
    rw [writeSkip, h.tell_eq] at hrun
    split at hrun
    · omega
    · have := hwriteSeek hrun
      omega
  | flush => trivial

theorem refines_of_fitAll {ops : List WriteOp} (h : s.Represents content pos) (hpos : 0 < s.numElts)
    (hfull : overfull = false → s.bufferedBytes ≤ s.numElts)
    (hfits : FitAll s.isMemStream s.numElts overfull pos ops) : s.Refines content pos ops := by
  induction ops generalizing s content pos overfull with
  | nil =>
    obtain ⟨s', hflush, hrep, _, _, hmedia⟩ := flush_spec h
    exact ⟨h.tell_eq, s', hflush, hmedia, hrep.tell_eq⟩
  | cons op ops ih =>
    obtain ⟨s', hrun, h', hkind, hfull'⟩ := run_spec h hpos hfull hfits.1
    refine ⟨h.tell_eq, s', hrun, ih h' (hkind.numElts_eq ▸ hpos) hfull' ?_⟩
    rw [hkind.isMemStream_eq, hkind.numElts_eq]
    exact hfits.2

theorem fitAll_of_refines {ops : List WriteOp} (hmem : s.isMemStream = true)
    (h : s.Represents content pos) (hpos : 0 < s.numElts) (hrefines : s.Refines content pos ops) :
    FitAll true s.numElts overfull pos ops := by
  induction ops generalizing s content pos overfull with
  | nil => trivial
  | cons op ops ih =>
    obtain ⟨_, s', hrun, hrest⟩ := hrefines
    have hfits : op.Fits true overfull s.numElts pos := fits_of_run h hmem hrun
    obtain ⟨_, _, hzero, _⟩ := h.mem hmem
    obtain ⟨s₁, hrun₁, h₁, hkind, _⟩ := run_spec h hpos (fun _ => by omega) (hmem.symm ▸ hfits)
    obtain rfl : s₁ = s' := some.inj (hrun₁.symm.trans hrun)
    refine ⟨hfits, ?_⟩
    rw [← hkind.numElts_eq]
    exact ih (hkind.isMemStream_eq.trans hmem) h₁ (hkind.numElts_eq ▸ hpos) hrest

/-- A new stream on media with some content. -/
def new (isMemStream : Bool) (media buf : Nat → Nat) (initialBufferSize bufferSize : Nat) :
    WriteStream :=
  { isMemStream, media, buf, numElts := max initialBufferSize bufferSize }

/-- **A write stream with a buffer acts as a file if nothing is written after a value that is wider
than the buffer until that was written out; one on memory does if and only if all calls stay in the
memory.** -/
theorem refines_file (isMemStream : Bool) (media buf : Nat → Nat)
    (initialBufferSize bufferSize : Nat) (hsize : bufferSize ≠ 0) (ops : List WriteOp) :
    (FitAll isMemStream (max initialBufferSize bufferSize) false 0 ops →
      (new isMemStream media buf initialBufferSize bufferSize).Refines media 0 ops) ∧
    (isMemStream = true →
      (new isMemStream media buf initialBufferSize bufferSize).Refines media 0 ops →
      FitAll true (max initialBufferSize bufferSize) false 0 ops) := by
  have hpos : 0 < (new isMemStream media buf initialBufferSize bufferSize).numElts := by
    show 0 < max initialBufferSize bufferSize
    omega
  have hnew : (new isMemStream media buf initialBufferSize bufferSize).Represents media 0 :=
    ⟨rfl, fun _ => ⟨rfl, rfl, rfl, rfl⟩,
      fun _ => ⟨(zero_min _).symm, zero_le _, rfl, splice_nil _ _⟩⟩
  exact ⟨refines_of_fitAll hnew hpos fun _ => zero_le _,
    fun hmem hrefines => fitAll_of_refines hmem hnew hpos hrefines⟩

/-- A write across the end of the buffer, a seek back, and a value that is wider than the buffer and
is written out before the next byte. -/
theorem refines_file_wide : (new false (fun _ => 0) (fun _ => 0) 0 2).Refines (fun _ => 0) 0
    [.bytes [1, 2, 3], .seek 1, .value 0x04050607 4, .flush, .bytes [8]] :=
  (refines_file false _ _ 0 2 (by decide) _).1
    ⟨rfl, fun h => absurd h (by decide), rfl, trivial, rfl, trivial⟩

/-- Two values of four bytes through a buffer of two: the second is written over the first. -/
theorem not_refines_values : ¬(new false (fun _ => 0) (fun _ => 0) 0 2).Refines (fun _ => 0) 0
    [.value 0x01020304 4, .value 0x05060708 4] := by
  rintro ⟨_, s₁, hfirst, _, s₂, hsecond, _, s₃, hflush, hmedia, _⟩
  have hbyte : (((WriteOp.value 0x01020304 4).run (new false (fun _ => 0) (fun _ => 0) 0 2)).bind
      fun s => ((WriteOp.value 0x05060708 4).run s).bind fun s => s.flush.map (·.media 2)) =
        some 5 := by decide
  rw [hfirst, bind_some, hsecond, bind_some, hflush, map_some, hmedia] at hbyte
  exact absurd hbyte (by decide)

end WriteStream

end GrokCodec.Stream
