import GrokCodec.Lib.Region

/-!
Read streams: bytes come from the media through a buffer, or are in memory. The read callback of the
media may return fewer bytes than it was asked for.
-/

namespace GrokCodec.Stream

open Region Nat

/-- `BufferedStream`, for input, with its source of `len` bytes and the place `off` of the callbacks
in it. A memory stream has the source as its buffer. `grants` says how many bytes each call of the
read callback would return. -/
structure ReadStream where
  isMemStream : Bool
  src : Nat → Nat
  len : Nat
  off : Nat := 0
  grants : Nat → Nat
  calls : Nat := 0
  buf : Nat → Nat
  numElts : Nat
  originalBufferLength : Nat
  offset : Nat := 0
  bufferedBytes : Nat := 0
  readBytesSeekable : Nat := 0
  streamOffset : Nat := 0
  firstCache : Bool := true
  atEnd : Bool := false
  error : Bool := false

namespace ReadStream

def tell (s : ReadStream) : Nat := s.streamOffset

/-- The memory of the buffer. -/
def memory (s : ReadStream) : Nat → Nat := if s.isMemStream then s.src else s.buf

/-- The number of bytes that the read callback returns. -/
def granted (s : ReadStream) (numBytes : Nat) : Nat :=
  if s.isMemStream then min numBytes (s.len - s.off)
  else min (max 1 (s.grants s.calls)) (min numBytes (s.len - s.off))

/-- The read callback, into the buffer. `memStreamRead` copies within the source unless the bytes are
where they should go. -/
def readCallback (s : ReadStream) (numBytes : Nat) : Nat × ReadStream :=
  let nbRead := s.granted numBytes
  let bytes := slice s.src s.off nbRead
  let next := { s with off := s.off + nbRead, calls := s.calls + 1 }
  (nbRead,
    if s.isMemStream then
      if s.offset = s.off then next else { next with src := splice s.src s.offset bytes }
    else { next with buf := splice s.buf s.offset bytes })

def invalidateBuffer (s : ReadStream) : ReadStream :=
  { s with offset := 0, bufferedBytes := 0, readBytesSeekable := 0 }

/-- `readDirect`: the callback reads into the caller's memory. -/
def readDirect : Nat → ReadStream → Nat → List Nat × ReadStream
  | 0, s, _ => ([], s)
  | fuel + 1, s, remaining =>
    let nbRead := s.granted remaining
    if nbRead = 0 then ([], { s with atEnd := true })
    else
      let bytes := slice s.src s.off nbRead
      let s := { s with
        off := s.off + nbRead, calls := s.calls + 1, streamOffset := s.streamOffset + nbRead }
      if nbRead = remaining then (bytes, s)
      else
        let rest := readDirect fuel s (remaining - nbRead)
        (bytes ++ rest.1, rest.2)

/-- The loop of `read` that fills the buffer until there are enough bytes. -/
def readLoop : Nat → ReadStream → Nat → List Nat × ReadStream
  | 0, s, _ => ([], s)
  | fuel + 1, s, len =>
    let (nbRead, s) := s.readCallback s.numElts
    let s := { s with bufferedBytes := nbRead, readBytesSeekable := nbRead }
    if nbRead = 0 then ([], { s.invalidateBuffer with atEnd := true })
    else if nbRead < len then
      let bytes := slice s.memory s.offset nbRead
      let rest := readLoop fuel { s.invalidateBuffer with streamOffset := s.streamOffset + nbRead }
        (len - nbRead)
      (bytes ++ rest.1, rest.2)
    else
      (slice s.memory s.offset len,
        { s with
          offset := min (s.offset + len) s.numElts, bufferedBytes := nbRead - len
          streamOffset := s.streamOffset + len })

/-- Reading from the media, with nothing in the buffer. -/
def readMedia (s : ReadStream) (len : Nat) : List Nat × ReadStream :=
  if len > s.numElts then readDirect len s len
  else
    let s := if s.firstCache then s else { s with numElts := s.originalBufferLength }
    let r := readLoop len s len
    (r.1, { r.2 with firstCache := false })

/-- `read`. The test for the end of the stream that comes a second time is left out. -/
def read (s : ReadStream) (len : Nat) : List Nat × ReadStream :=
  if len = 0 ∨ s.atEnd then ([], s)
  else if len ≤ s.bufferedBytes then
    if s.offset + len > s.numElts then ([], { s with offset := s.numElts, error := true })
    else (slice s.memory s.offset len,
      { s with
        offset := s.offset + len, bufferedBytes := s.bufferedBytes - len
        streamOffset := s.streamOffset + len })
  else
    let bytes := slice s.memory s.offset s.bufferedBytes
    let r := readMedia
      { s.invalidateBuffer with streamOffset := s.streamOffset + s.bufferedBytes }
      (len - s.bufferedBytes)
    (bytes ++ r.1, r.2)

/-- A read without a copy, from memory: the bytes at the place of the buffer before the call. -/
def readZeroCopy (s : ReadStream) (len : Nat) : List Nat × ReadStream :=
  let r := s.read len
  (slice r.2.memory s.offset r.1.length, r.2)

/-- The seek callback. `memStreamSeek` refuses the end of the source. -/
def seekCallback (s : ReadStream) (offset : Nat) : Bool × ReadStream :=
  if s.isMemStream then
    if offset < s.len then (true, { s with off := offset }) else (false, { s with off := s.len })
  else (true, { s with off := offset })

def readSeek (s : ReadStream) (offset : Nat) : Bool × ReadStream :=
  if s.error ∨ s.atEnd then (false, s)
  else if s.streamOffset ≤ offset ∧ offset < s.streamOffset + s.bufferedBytes ∨
      offset < s.streamOffset ∧
        s.streamOffset - (s.readBytesSeekable - s.bufferedBytes) ≤ offset then
    (true,
      { s with
        streamOffset := offset
        offset := if s.streamOffset ≤ offset then
            min (s.offset + (offset - s.streamOffset)) s.numElts
          else s.offset - (s.streamOffset - offset)
        bufferedBytes := s.bufferedBytes + s.streamOffset - offset })
  else
    let r := s.invalidateBuffer.seekCallback offset
    if r.1 then
      if offset > s.len then (false, { r.2 with streamOffset := offset, atEnd := true })
      else (true, { r.2 with streamOffset := offset })
    else (false, { r.2 with atEnd := true })

def readSkip (s : ReadStream) (len : Int) : Bool × ReadStream :=
  if s.streamOffset + len < 0 then (false, s) else s.readSeek (s.streamOffset + len).toNat

/-- The stream is at a place of a source: the buffer holds the bytes before the place of the
callbacks. A memory stream has none of the source in its buffer, or all of it. -/
structure Synced (s : ReadStream) (source : Nat → Nat) (pos : Nat) : Prop where
  src_eq : s.src = source
  tell_eq : s.streamOffset = pos
  atEnd_eq : s.atEnd = false
  error_eq : s.error = false
  numElts_pos : 0 < s.numElts
  originalBufferLength_pos : 0 < s.originalBufferLength
  offset_eq : s.offset + s.bufferedBytes = s.readBytesSeekable
  seekable_le : s.readBytesSeekable ≤ s.numElts
  off_eq : s.off = pos + s.bufferedBytes
  off_le : s.off ≤ s.len
  seekable_le_off : s.readBytesSeekable ≤ s.off
  memory_eq : ∀ i < s.readBytesSeekable, s.memory i = source (s.off - s.readBytesSeekable + i)
  mem : s.isMemStream = true → s.numElts = s.len ∧ s.originalBufferLength = s.len ∧
    (s.readBytesSeekable = 0 ∨ s.readBytesSeekable = s.len)

/-- The parts of a stream that do not change. -/
structure SameSource (s s' : ReadStream) : Prop where
  isMemStream_eq : s'.isMemStream = s.isMemStream
  len_eq : s'.len = s.len

theorem SameSource.refl (s : ReadStream) : s.SameSource s := ⟨rfl, rfl⟩

variable {s₁ : ReadStream}

theorem SameSource.trans {s₂ s₃ : ReadStream} (h : s₁.SameSource s₂) (h' : s₂.SameSource s₃) :
    s₁.SameSource s₃ :=
  ⟨h'.isMemStream_eq.trans h.isMemStream_eq, h'.len_eq.trans h.len_eq⟩

variable {s : ReadStream} {source : Nat → Nat} {pos : Nat} {n : Nat}

theorem Synced.not_done (h : s.Synced source pos) (hn : 0 < n) : ¬(n = 0 ∨ s.atEnd = true) := by
  rw [h.atEnd_eq]
  rintro (hzero | hend)
  · omega
  · exact nomatch hend

theorem granted_spec (hn : 0 < n) (hleft : s.off < s.len) :
    0 < s.granted n ∧ s.granted n ≤ n ∧ s.off + s.granted n ≤ s.len := by
  unfold granted
  split <;> omega

/-- Bytes of the buffer are those of the source before the place of the callbacks. -/
theorem Synced.slice_memory (h : s.Synced source pos) (hn : n ≤ s.bufferedBytes) :
    slice s.memory s.offset n = slice source pos n := by
  have hoff := h.offset_eq
  have hoff' := h.off_eq
  apply slice_congr
  intro i hi
  rw [h.memory_eq _ (by omega)]
  congr 1
  have := h.seekable_le_off
  omega

theorem Synced.invalidate (h : s.Synced source pos) :
    { s.invalidateBuffer with streamOffset := s.streamOffset + s.bufferedBytes }.Synced source
      (pos + s.bufferedBytes) where
  src_eq := h.src_eq
  tell_eq := congrArg (· + s.bufferedBytes) h.tell_eq
  atEnd_eq := h.atEnd_eq
  error_eq := h.error_eq
  numElts_pos := h.numElts_pos
  originalBufferLength_pos := h.originalBufferLength_pos
  offset_eq := rfl
  seekable_le := zero_le _
  off_eq := h.off_eq
  off_le := h.off_le
  seekable_le_off := zero_le _
  memory_eq := fun _ hi => absurd hi (not_lt_zero _)
  mem := fun hmem => ⟨(h.mem hmem).1, (h.mem hmem).2.1, Or.inl rfl⟩

/-- What a read of `n > 0` bytes at `pos` should do. -/
structure Reads (s : ReadStream) (source : Nat → Nat) (pos n : Nat) (r : List Nat × ReadStream) :
    Prop where
  bytes_eq : r.1 = slice source pos n
  synced : r.2.Synced source (pos + n)
  same : s.SameSource r.2
  cached : r.2.isMemStream = true → r.2.readBytesSeekable ≠ 0

theorem Reads.append {m : Nat} {r : List Nat × ReadStream} (h : s₁.Reads source (pos + m) n r)
    (hsame : s.SameSource s₁) :
    s.Reads source pos (m + n) (slice source pos m ++ r.1, r.2) where
  bytes_eq := by rw [h.bytes_eq, ← slice_add]
  synced := by rw [← Nat.add_assoc]; exact h.synced
  same := hsame.trans h.same
  cached := h.cached

variable {fuel : Nat}

theorem readDirect_spec : ∀ {s : ReadStream} {pos n : Nat}, s.Synced source pos →
    s.isMemStream = false → s.readBytesSeekable = 0 → 0 < n → n ≤ fuel → pos + n ≤ s.len →
    s.Reads source pos n (readDirect fuel s n) := by
  induction fuel with
  | zero => intro s pos n _ _ _ hn hfuel _; omega
  | succ fuel ih =>
    intro s pos n h hmem hempty hn hfuel hlen
    have hzero : s.bufferedBytes = 0 := by have := h.offset_eq; omega
    have hoff : s.off = pos := by have := h.off_eq; omega
    obtain ⟨hpos, hle, hend⟩ := granted_spec hn (show s.off < s.len by omega)
    unfold readDirect
    rw [if_neg (by omega)]
    have hnext : { s with
        off := s.off + s.granted n, calls := s.calls + 1
        streamOffset := s.streamOffset + s.granted n }.Synced source (pos + s.granted n) := by
      refine ⟨h.src_eq, congrArg (· + s.granted n) h.tell_eq, h.atEnd_eq, h.error_eq, h.numElts_pos,
        h.originalBufferLength_pos, h.offset_eq, h.seekable_le, ?_, hend, ?_, ?_, ?_⟩
      · show s.off + s.granted n = pos + s.granted n + s.bufferedBytes
        omega
      · show s.readBytesSeekable ≤ _
        omega
      · intro i hi
        exact absurd (show i < s.readBytesSeekable from hi) (by omega)
      · exact fun hmem' => nomatch hmem.symm.trans hmem'
    have hbytes : slice s.src s.off (s.granted n) = slice source pos (s.granted n) := by
      rw [h.src_eq, hoff]
    by_cases hall : s.granted n = n
    · rw [if_pos hall, hbytes, hall]
      rw [hall] at hnext
      exact ⟨rfl, hnext, ⟨rfl, rfl⟩, fun hmem' => nomatch hmem.symm.trans hmem'⟩
    · rw [if_neg hall, hbytes]
      have hrest := (ih hnext hmem hempty (by omega : 0 < n - s.granted n) (by omega)
        (by show pos + _ + _ ≤ s.len; omega)).append (s := s) ⟨rfl, rfl⟩
      rwa [Nat.add_sub_cancel' hle] at hrest

theorem Synced.fill (h : s.Synced source pos) (hempty : s.readBytesSeekable = 0)
    (hle : n ≤ s.numElts) (hend : s.off + n ≤ s.len) (buf : Nat → Nat)
    (hbytes : ∀ i < n, (if s.isMemStream = true then s.src else buf) i = source (pos + i))
    (hall : s.isMemStream = true → n = s.len) :
    { s with
      buf := buf, off := s.off + n, calls := s.calls + 1
      bufferedBytes := n, readBytesSeekable := n }.Synced source pos := by
  have hoffset : s.offset = 0 := by have := h.offset_eq; omega
  have hoff : s.off = pos := by have := h.off_eq; have := h.offset_eq; omega
  refine ⟨h.src_eq, h.tell_eq, h.atEnd_eq, h.error_eq, h.numElts_pos, h.originalBufferLength_pos,
    ?_, hle, ?_, hend, le_add_left _ _, ?_, ?_⟩
  · show s.offset + n = n
    omega
  · show s.off + n = pos + n
    omega
  · intro i hi
    show (if s.isMemStream = true then s.src else buf) i = source (s.off + n - n + i)
    rw [hbytes i hi, hoff, Nat.add_sub_cancel]
  · exact fun hmem => ⟨(h.mem hmem).1, (h.mem hmem).2.1, Or.inr (hall hmem)⟩

/-- The callback fills an empty buffer with the bytes of the source. A memory stream does not move
them at the start of the source only. -/
theorem readCallback_spec (h : s.Synced source pos) (hempty : s.readBytesSeekable = 0)
    (hlen : pos < s.len) (hstart : s.isMemStream = true → pos = 0) :
    ∃ n s₁, s.readCallback s.numElts = (n, s₁) ∧ 0 < n ∧ n ≤ s.numElts ∧
      (s.isMemStream = true → n = s.len) ∧ s.SameSource s₁ ∧ s₁.numElts = s.numElts ∧
      { s₁ with bufferedBytes := n, readBytesSeekable := n }.Synced source pos := by
  have hoffset : s.offset = 0 := by have := h.offset_eq; omega
  have hoff : s.off = pos := by have := h.off_eq; have := h.offset_eq; omega
  obtain ⟨hpos, hle, hend⟩ := granted_spec h.numElts_pos (show s.off < s.len by omega)
  have hall : s.isMemStream = true → s.granted s.numElts = s.len := by
    intro hmem
    have hzero := hstart hmem
    have hcap := (h.mem hmem).1
    rw [granted, if_pos hmem]
    omega
  by_cases hmem : s.isMemStream = true
  · have hzero := hstart hmem
    refine ⟨s.granted s.numElts, _, rfl, hpos, hle, hall, ?_⟩
    rw [if_pos hmem, if_pos (by omega)]
    refine ⟨⟨rfl, rfl⟩, rfl, h.fill hempty hle hend s.buf ?_ hall⟩
    intro i _
    rw [if_pos hmem, h.src_eq, hzero, Nat.zero_add]
  · refine ⟨s.granted s.numElts, _, rfl, hpos, hle, hall, ?_⟩
    rw [if_neg hmem]
    refine ⟨⟨rfl, rfl⟩, rfl, h.fill hempty hle hend
      (splice s.buf s.offset (slice s.src s.off (s.granted s.numElts))) ?_ hall⟩
    intro i hi
    have hread : splice s.buf 0 (slice source pos _) (0 + i) = source (pos + i) :=
      splice_add (getElem?_slice source pos hi)
    rw [Nat.zero_add] at hread
    rw [if_neg hmem, hoffset, h.src_eq, hoff, hread]

theorem Synced.take (h : s.Synced source pos) (hn : n ≤ s.bufferedBytes) :
    { s with
      offset := s.offset + n, bufferedBytes := s.bufferedBytes - n
      streamOffset := s.streamOffset + n }.Synced source (pos + n) := by
  have hoffset := h.offset_eq
  have hoff := h.off_eq
  refine ⟨h.src_eq, congrArg (· + n) h.tell_eq, h.atEnd_eq, h.error_eq, h.numElts_pos,
    h.originalBufferLength_pos, ?_, h.seekable_le, ?_, h.off_le, h.seekable_le_off, h.memory_eq,
    h.mem⟩
  · show s.offset + n + (s.bufferedBytes - n) = s.readBytesSeekable
    omega
  · show s.off = pos + n + (s.bufferedBytes - n)
    omega

theorem readLoop_spec : ∀ {s : ReadStream} {pos n : Nat}, s.Synced source pos →
    (s.isMemStream = true → pos = 0) → s.readBytesSeekable = 0 → 0 < n → n ≤ fuel →
    pos + n ≤ s.len → s.Reads source pos n (readLoop fuel s n) := by
  induction fuel with
  | zero => intro s pos n _ _ _ hn hfuel _; omega
  | succ fuel ih =>
    intro s pos n h hstart hempty hn hfuel hlen
    obtain ⟨got, s₁, hcall, hpos, hle, hall, hsame, hnum, hsync⟩ :=
      readCallback_spec h hempty (by omega) hstart
    unfold readLoop
    rw [hcall]
    dsimp only
    rw [if_neg (by omega)]
    by_cases hless : got < n
    · -- a memory stream has all of the source now
      have hfile : s₁.isMemStream ≠ true := by
        intro hmem
        rw [hsame.isMemStream_eq] at hmem
        have := hall hmem
        omega
      rw [if_pos hless]
      have hbytes := hsync.slice_memory (Nat.le_refl _)
      have hrest := (ih hsync.invalidate (fun hmem => absurd hmem hfile) rfl
        (by omega : 0 < n - got) (by omega) (by
          show pos + got + _ ≤ s₁.len
          rw [hsame.len_eq]
          omega)).append (s := s) ⟨hsame.isMemStream_eq, hsame.len_eq⟩
      rw [show slice _ s₁.offset got = slice source pos got from hbytes]
      have hsum : got + (n - got) = n := by omega
      rwa [hsum] at hrest
    · rw [if_neg hless]
      have hbytes := hsync.slice_memory (show n ≤ got by omega)
      have htake := hsync.take (show n ≤ got by omega)
      have hroom : s₁.offset + n ≤ s₁.numElts := by
        have hoffset : s₁.offset + got = got := hsync.offset_eq
        omega
      rw [Nat.min_eq_left hroom]
      exact ⟨hbytes, htake, ⟨hsame.isMemStream_eq, hsame.len_eq⟩, fun _ => by show got ≠ 0; omega⟩

variable (h : s.Synced source pos)

include h

theorem Synced.setNumElts (hempty : s.readBytesSeekable = 0) :
    { s with numElts := s.originalBufferLength }.Synced source pos where
  src_eq := h.src_eq
  tell_eq := h.tell_eq
  atEnd_eq := h.atEnd_eq
  error_eq := h.error_eq
  numElts_pos := h.originalBufferLength_pos
  originalBufferLength_pos := h.originalBufferLength_pos
  offset_eq := h.offset_eq
  seekable_le := hempty.le.trans (zero_le _)
  off_eq := h.off_eq
  off_le := h.off_le
  seekable_le_off := h.seekable_le_off
  memory_eq := h.memory_eq
  mem := fun hmem => ⟨(h.mem hmem).2.1, (h.mem hmem).2⟩

theorem readMedia_spec (hempty : s.readBytesSeekable = 0)
    (hstart : s.isMemStream = true → pos = 0) (hn : 0 < n) (hlen : pos + n ≤ s.len) :
    s.Reads source pos n (s.readMedia n) := by
  unfold readMedia
  by_cases hbig : n > s.numElts
  · rw [if_pos hbig]
    apply readDirect_spec h _ hempty hn (Nat.le_refl n) hlen
    by_contra hmem
    have := (h.mem (Bool.not_eq_false _ ▸ hmem)).1
    omega
  · rw [if_neg hbig]
    have hloop : ∀ s₁ : ReadStream, s.SameSource s₁ → s₁.Synced source pos →
        s₁.readBytesSeekable = 0 → s.Reads source pos n
          ((readLoop n s₁ n).1, { (readLoop n s₁ n).2 with firstCache := false }) := by
      intro s₁ hsame hsync hempty₁
      have hreads := readLoop_spec hsync (fun hmem => hstart (hsame.isMemStream_eq ▸ hmem)) hempty₁
        hn (Nat.le_refl n) (by rw [hsame.len_eq]; exact hlen)
      obtain ⟨hbytes, hsync', hsame', hcached⟩ := hreads
      have htrans := hsame.trans hsame'
      refine ⟨hbytes, ?_, ⟨htrans.isMemStream_eq, htrans.len_eq⟩, hcached⟩
      exact ⟨hsync'.src_eq, hsync'.tell_eq, hsync'.atEnd_eq, hsync'.error_eq, hsync'.numElts_pos,
        hsync'.originalBufferLength_pos, hsync'.offset_eq, hsync'.seekable_le, hsync'.off_eq,
        hsync'.off_le, hsync'.seekable_le_off, hsync'.memory_eq, hsync'.mem⟩
    by_cases hfirst : s.firstCache = true
    · rw [if_pos hfirst]
      exact hloop s (SameSource.refl s) h hempty
    · rw [if_neg hfirst]
      exact hloop _ ⟨rfl, rfl⟩ (h.setNumElts hempty) hempty

theorem read_spec (hn : 0 < n) (hlen : pos + n ≤ s.len)
    (hstart : s.isMemStream = true → s.readBytesSeekable = 0 → pos = 0) :
    s.Reads source pos n (s.read n) := by
  have hoffset := h.offset_eq
  have hoff := h.off_eq
  have hseekable := h.seekable_le
  unfold read
  rw [if_neg (h.not_done hn)]
  by_cases hin : n ≤ s.bufferedBytes
  · rw [if_pos hin, if_neg (by omega)]
    exact ⟨h.slice_memory hin, h.take hin, ⟨rfl, rfl⟩, fun _ => by
      show s.readBytesSeekable ≠ 0
      omega⟩
  · rw [if_neg hin]
    -- a memory stream that has the source in its buffer has all the bytes asked for
    have hfresh : s.isMemStream = true → s.bufferedBytes = 0 ∧ pos = 0 := by
      intro hmem
      have hle := h.seekable_le_off
      rcases (h.mem hmem).2.2 with hzero | hall
      · exact ⟨by omega, hstart hmem hzero⟩
      · omega
    have hmedia := (readMedia_spec h.invalidate rfl (fun hmem => by
      have := hfresh hmem
      omega) (by omega : 0 < n - s.bufferedBytes) (by
        show pos + s.bufferedBytes + _ ≤ s.len
        omega)).append (s := s) ⟨rfl, rfl⟩
    rw [h.slice_memory (Nat.le_refl _)]
    have hsum : s.bufferedBytes + (n - s.bufferedBytes) = n := by omega
    rwa [hsum] at hmedia

/-- A read without a copy gives the same bytes: the buffer of a memory stream is the source. -/
theorem readZeroCopy_spec (hmem : s.isMemStream = true) (hn : 0 < n)
    (hlen : pos + n ≤ s.len) (hstart : s.readBytesSeekable = 0 → pos = 0) :
    s.Reads source pos n (s.readZeroCopy n) := by
  obtain ⟨hbytes, hsync, hsame, hcached⟩ := read_spec h hn hlen fun _ => hstart
  refine ⟨?_, hsync, hsame, hcached⟩
  have hoffset := h.offset_eq
  have hoff := h.off_eq
  have hle := h.seekable_le_off
  have hend := h.off_le
  have hpos : s.offset = pos := by
    rcases (h.mem hmem).2.2 with hzero | hall
    · have := hstart hzero
      omega
    · omega
  unfold readZeroCopy
  dsimp only
  rw [memory, hsame.isMemStream_eq, if_pos hmem, hsync.src_eq, hbytes, length_slice, hpos]

omit h

/-- The places that a stream can go to: the end is not one for a memory stream. -/
def CanSeek (s : ReadStream) (offset : Nat) : Prop :=
  offset ≤ s.len ∧ (s.isMemStream = true → offset ≠ s.len)

variable {offset : Nat}

theorem seekCallback_of_canSeek (h : s.CanSeek offset) :
    s.seekCallback offset = (true, { s with off := offset }) := by
  unfold seekCallback
  by_cases hmem : s.isMemStream = true
  · have hne := h.2 hmem
    have hle := h.1
    rw [if_pos hmem, if_pos (by omega)]
  · rw [if_neg hmem]

variable (h : s.Synced source pos)

include h

theorem readSeek_spec (hseek : s.CanSeek offset) :
    (s.readSeek offset).1 = true ∧ (s.readSeek offset).2.Synced source offset ∧
      s.SameSource (s.readSeek offset).2 ∧
      (s.isMemStream = true →
        (s.readSeek offset).2.readBytesSeekable = s.readBytesSeekable) := by
  have htell := h.tell_eq
  have hoffset := h.offset_eq
  have hseekable := h.seekable_le
  have hoff := h.off_eq
  have hle := h.seekable_le_off
  have hopen : ¬(s.error = true ∨ s.atEnd = true) := by
    rw [h.error_eq, h.atEnd_eq]
    decide
  unfold readSeek
  rw [if_neg hopen]
  by_cases hin : s.streamOffset ≤ offset ∧ offset < s.streamOffset + s.bufferedBytes ∨
      offset < s.streamOffset ∧ s.streamOffset - (s.readBytesSeekable - s.bufferedBytes) ≤ offset
  · rw [if_pos hin]
    refine ⟨rfl, ?_, ⟨rfl, rfl⟩, fun _ => rfl⟩
    refine ⟨h.src_eq, rfl, h.atEnd_eq, h.error_eq, h.numElts_pos, h.originalBufferLength_pos, ?_,
      hseekable, ?_, h.off_le, hle, h.memory_eq, h.mem⟩
    · show (if s.streamOffset ≤ offset then _ else _) + (s.bufferedBytes + s.streamOffset - offset) =
        s.readBytesSeekable
      split <;> omega
    · show s.off = offset + (s.bufferedBytes + s.streamOffset - offset)
      omega
  · rw [if_neg hin]
    rw [seekCallback_of_canSeek (show s.invalidateBuffer.CanSeek offset from hseek)]
    rw [if_pos rfl, if_neg (Nat.not_lt.mpr hseek.1)]
    refine ⟨rfl, ?_, ⟨rfl, rfl⟩, ?_⟩
    · exact ⟨h.src_eq, rfl, h.atEnd_eq, h.error_eq, h.numElts_pos, h.originalBufferLength_pos, rfl,
        zero_le _, rfl, hseek.1, zero_le _, fun _ hi => absurd hi (not_lt_zero _),
        fun hmem => ⟨(h.mem hmem).1, (h.mem hmem).2.1, Or.inl rfl⟩⟩
    · intro hmem
      show 0 = s.readBytesSeekable
      have := hseek.2 hmem
      have := hseek.1
      have := h.off_le
      rcases (h.mem hmem).2.2 with hzero | hall
      · exact hzero.symm
      · omega

variable (hmem : s.isMemStream = true)

include hmem

/-- A memory stream does not go to the end of its source. -/
theorem readSeek_end : (s.readSeek s.len).1 = false := by
  have htell := h.tell_eq
  have hoff := h.off_eq
  have hend := h.off_le
  unfold readSeek
  split
  · rfl
  · rw [if_neg (by omega)]
    have hcall : (s.invalidateBuffer.seekCallback s.len).1 = false := by
      unfold seekCallback
      rw [if_pos (show s.invalidateBuffer.isMemStream = true from hmem)]
      rw [if_neg (show ¬s.len < s.invalidateBuffer.len from Nat.lt_irrefl _)]
    dsimp only
    rw [hcall, if_neg (by decide)]

variable (hempty : s.readBytesSeekable = 0)

include hempty

/-- The callback of a memory stream moves what is left of the source to its start. -/
theorem readCallback_moves (hpos : pos ≠ 0) (hlen : pos < s.len) :
    (s.readCallback s.numElts).1 = s.len - pos ∧
      (s.readCallback s.numElts).2.src 0 = source pos := by
  have hoffset : s.offset = 0 := by have := h.offset_eq; omega
  have hoff : s.off = pos := by have := h.off_eq; have := h.offset_eq; omega
  have hgot : s.granted s.numElts = s.len - pos := by
    have hcap := (h.mem hmem).1
    rw [granted, if_pos hmem]
    omega
  refine ⟨hgot, ?_⟩
  unfold readCallback
  dsimp only
  rw [if_pos hmem, if_neg (by omega)]
  show splice s.src s.offset (slice s.src s.off (s.granted s.numElts)) 0 = source pos
  have hfirst := getElem?_slice s.src pos (show 0 < s.len - pos by omega)
  rw [hoffset, hoff, hgot, ← Nat.zero_add 0, splice_add hfirst, h.src_eq, Nat.add_zero]

theorem readLoop_moves (hpos : pos ≠ 0) (hn : 0 < n) (hlen : pos + n ≤ s.len)
    (fuel : Nat) : (readLoop (fuel + 1) s n).2.src 0 = source pos := by
  obtain ⟨hgot, hsrc⟩ := readCallback_moves h hmem hempty hpos (by omega)
  unfold readLoop
  dsimp only
  rw [if_neg (by omega), if_neg (by omega)]
  exact hsrc

theorem readMedia_moves (hpos : pos ≠ 0) (hn : 0 < n) (hlen : pos + n ≤ s.len) :
    (s.readMedia n).2.src 0 = source pos := by
  have hcap := (h.mem hmem).1
  obtain ⟨fuel, rfl⟩ := exists_eq_succ_of_ne_zero (Nat.pos_iff_ne_zero.mp hn)
  unfold readMedia
  rw [if_neg (by omega)]
  split
  · exact readLoop_moves h hmem hempty hpos hn hlen fuel
  · exact readLoop_moves (h.setNumElts hempty) hmem hempty hpos hn hlen fuel

/-- A memory stream that is first read after its start has other bytes at the start. -/
theorem read_moves (hpos : pos ≠ 0) (hn : 0 < n) (hlen : pos + n ≤ s.len) :
    (s.read n).2.src 0 = source pos := by
  have hzero : s.bufferedBytes = 0 := by have := h.offset_eq; omega
  have hmoves := readMedia_moves h.invalidate hmem rfl
    (show pos + s.bufferedBytes ≠ 0 by omega) (show 0 < n - s.bufferedBytes by omega)
    (show pos + s.bufferedBytes + (n - s.bufferedBytes) ≤ s.len by omega)
  unfold read
  rw [if_neg (h.not_done hn), if_neg (by omega)]
  rw [hmoves, hzero, Nat.add_zero]

end ReadStream

end GrokCodec.Stream
