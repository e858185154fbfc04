import GrokCodec.Stream.BufferedRead

/-!
Runs of calls on a read stream, against a file with one place in it.
-/

namespace GrokCodec.Stream

open Region

namespace ReadStream

/-- A call on a read stream. -/
inductive ReadOp where
  | read (len : Nat)
  | readZeroCopy (len : Nat)
  | skip (len : Int)
  | seek (offset : Nat)

/-- The stream after a call, with the bytes that it gives and if it did not fail. -/
def ReadOp.run (s : ReadStream) : ReadOp → (List Nat × Bool) × ReadStream
  | read len => (((s.read len).1, true), (s.read len).2)
  | readZeroCopy len => (((s.readZeroCopy len).1, true), (s.readZeroCopy len).2)
  | skip len => (([], (s.readSkip len).1), (s.readSkip len).2)
  | seek offset => (([], (s.readSeek offset).1), (s.readSeek offset).2)

/-- The place in a file after a call. -/
def ReadOp.position (pos : Nat) : ReadOp → Nat
  | read len | readZeroCopy len => pos + len
  | skip len => (pos + len).toNat
  | seek offset => offset

/-- What a file gives for a call. -/
def ReadOp.result (source : Nat → Nat) (pos : Nat) : ReadOp → List Nat × Bool
  | read len | readZeroCopy len => (slice source pos len, true)
  | skip _ | seek _ => ([], true)

/-- The call stays in a source of `total` bytes. Reads without a copy are of memory. -/
def ReadOp.Within (isMemStream : Bool) (total pos : Nat) : ReadOp → Prop
  | read len => pos + len ≤ total
  | readZeroCopy len => isMemStream = true ∧ pos + len ≤ total
  | skip len => 0 ≤ pos + len ∧ pos + len ≤ total
  | seek offset => offset ≤ total

instance (isMemStream : Bool) (total pos : Nat) :
    (op : ReadOp) → Decidable (op.Within isMemStream total pos)
  | .read len => inferInstanceAs (Decidable (pos + len ≤ total))
  | .readZeroCopy len => inferInstanceAs (Decidable (isMemStream = true ∧ pos + len ≤ total))
  | .skip len => inferInstanceAs (Decidable (0 ≤ pos + len ∧ pos + len ≤ total))
  | .seek offset => inferInstanceAs (Decidable (offset ≤ total))

/-- A call that a memory stream is made for: it does not go to the end of the source, and reads
there begin at its start. -/
def ReadOp.Sound (total : Nat) (cached : Bool) (pos : Nat) : ReadOp → Prop
  | read len | readZeroCopy len => len = 0 ∨ cached = true ∨ pos = 0
  | skip len => pos + len ≠ total
  | seek offset => offset ≠ total

instance (total : Nat) (cached : Bool) (pos : Nat) :
    (op : ReadOp) → Decidable (op.Sound total cached pos)
  | .read len | .readZeroCopy len => inferInstanceAs (Decidable (len = 0 ∨ cached = true ∨ pos = 0))
  | .skip len => inferInstanceAs (Decidable (pos + len ≠ total))
  | .seek offset => inferInstanceAs (Decidable (offset ≠ total))

/-- The call reads bytes. -/
def ReadOp.caches : ReadOp → Bool
  | read len | readZeroCopy len => len != 0
  | skip _ | seek _ => false

/-- Every call of a run stays in the source. -/
def RunWithin (isMemStream : Bool) (total : Nat) : Nat → List ReadOp → Prop
  | _, [] => True
  | pos, op :: ops =>
    op.Within isMemStream total pos ∧ RunWithin isMemStream total (op.position pos) ops

instance decidableRunWithin (isMemStream : Bool) (total : Nat) :
    (pos : Nat) → (ops : List ReadOp) → Decidable (RunWithin isMemStream total pos ops)
  | _, [] => .isTrue trivial
  | pos, op :: ops =>
    have := decidableRunWithin isMemStream total (op.position pos) ops
    inferInstanceAs (Decidable (_ ∧ _))

/-- Every call of a run is one that a memory stream is made for. -/
def RunSound (total : Nat) : Bool → Nat → List ReadOp → Prop
  | _, _, [] => True
  | cached, pos, op :: ops =>
    op.Sound total cached pos ∧ RunSound total (cached || op.caches) (op.position pos) ops

instance decidableRunSound (total : Nat) :
    (cached : Bool) → (pos : Nat) → (ops : List ReadOp) → Decidable (RunSound total cached pos ops)
  | _, _, [] => .isTrue trivial
  | cached, pos, op :: ops =>
    have := decidableRunSound total (cached || op.caches) (op.position pos) ops
    inferInstanceAs (Decidable (_ ∧ _))

/-- The stream acts as a file: calls give what the file gives, `tell` is the place in the file, and
the source is as it was. -/
def Refines (source : Nat → Nat) : ReadStream → Nat → List ReadOp → Prop
  | s, pos, [] => s.tell = pos ∧ s.src = source
  | s, pos, op :: ops =>
    s.tell = pos ∧ s.src = source ∧ (op.run s).1 = op.result source pos ∧
      Refines source (op.run s).2 (op.position pos) ops

variable {s : ReadStream} {source : Nat → Nat} {pos : Nat}

theorem read_zero (s : ReadStream) : s.read 0 = ([], s) := by
  rw [read, if_pos (Or.inl rfl)]

theorem readSkip_eq (h : s.Synced source pos) {len : Int} (hlen : 0 ≤ pos + len) :
    s.readSkip len = s.readSeek (pos + len).toNat := by
  rw [readSkip, h.tell_eq, if_neg (by omega)]

/-- What a call should do to a stream at `pos`. -/
structure Steps (s : ReadStream) (source : Nat → Nat) (pos : Nat) (op : ReadOp) : Prop where
  result_eq : (op.run s).1 = op.result source pos
  synced : (op.run s).2.Synced source (op.position pos)
  same : s.SameSource (op.run s).2
  cached : s.isMemStream = true →
    ((op.run s).2.readBytesSeekable != 0) = (s.readBytesSeekable != 0 || op.caches)

variable {op : ReadOp}

theorem Reads.steps {n : Nat} {r : List Nat × ReadStream} (h : s.Reads source pos n r)
    (hn : n ≠ 0) (hrun : op.run s = ((r.1, true), r.2))
    (hresult : op.result source pos = (slice source pos n, true))
    (hpos : op.position pos = pos + n) (hcaches : op.caches = (n != 0)) :
    s.Steps source pos op := by
  refine ⟨?_, ?_, ?_, ?_⟩
  · rw [hrun, hresult, h.bytes_eq]
  · rw [hrun, hpos]
    exact h.synced
  · rw [hrun]
    exact h.same
  · intro hmem
    rw [hrun, hcaches, bne_iff_ne.mpr hn, Bool.or_true]
    exact bne_iff_ne.mpr (h.cached (h.same.isMemStream_eq.trans hmem))

theorem steps_seek {offset : Nat} (h : s.Synced source pos) (hseek : s.CanSeek offset)
    (hrun : op.run s = (([], (s.readSeek offset).1), (s.readSeek offset).2))
    (hresult : op.result source pos = ([], true)) (hpos : op.position pos = offset)
    (hcaches : op.caches = false) : s.Steps source pos op := by
  obtain ⟨hok, hsync, hsame, hcached⟩ := readSeek_spec h hseek
  refine ⟨?_, ?_, ?_, ?_⟩
  · rw [hrun, hresult, hok]
  · rw [hrun, hpos]
    exact hsync
  · rw [hrun]
    exact hsame
  · intro hmem
    rw [hrun, hcaches, Bool.or_false, hcached hmem]

theorem steps_none (h : s.Synced source pos) (hrun : op.run s = (([], true), s))
    (hresult : op.result source pos = ([], true)) (hpos : op.position pos = pos)
    (hcaches : op.caches = false) : s.Steps source pos op := by
  refine ⟨?_, ?_, ?_, ?_⟩
  · rw [hrun, hresult]
  · rw [hrun, hpos]
    exact h
  · rw [hrun]
    exact SameSource.refl s
  · intro _
    rw [hrun, hcaches, Bool.or_false]

/-- A call that stays in the source, and that a memory stream is made for, acts as on a file. -/
theorem run_spec (h : s.Synced source pos) (hwithin : op.Within s.isMemStream s.len pos)
    (hsound : s.isMemStream = true → op.Sound s.len (s.readBytesSeekable != 0) pos) :
    s.Steps source pos op := by
  have hstart : ∀ {n : Nat}, n ≠ 0 → (n = 0 ∨ (s.readBytesSeekable != 0) = true ∨ pos = 0) →
      s.readBytesSeekable = 0 → pos = 0 := by
    rintro n hn (hzero | hcached | hpos) hempty
    · exact absurd hzero hn
    · exact absurd hempty (bne_iff_ne.mp hcached)
    · exact hpos
  cases op with
  | read n =>
    by_cases hn : n = 0
    · subst hn
      apply steps_none h _ rfl rfl rfl
      rw [ReadOp.run, read_zero]
    · have hreads := read_spec h (Nat.pos_of_ne_zero hn) hwithin fun hmem => hstart hn (hsound hmem)
      exact hreads.steps hn rfl rfl rfl rfl
  | readZeroCopy n =>
    obtain ⟨hmem, hlen⟩ := hwithin
    by_cases hn : n = 0
    · subst hn
      apply steps_none h _ rfl rfl rfl
      rw [ReadOp.run, readZeroCopy, read_zero]
      rfl
    · have hreads := readZeroCopy_spec h hmem (Nat.pos_of_ne_zero hn) hlen (hstart hn (hsound hmem))
      exact hreads.steps hn rfl rfl rfl rfl
  | skip len =>
    have hseek : s.CanSeek (pos + len).toNat := by
      refine ⟨by have := hwithin.2; omega, fun hmem heq => ?_⟩
      apply hsound hmem
      have := hwithin.1
      omega
    apply steps_seek h hseek _ rfl rfl rfl
    rw [ReadOp.run, readSkip_eq h hwithin.1]
  | seek offset => exact steps_seek h ⟨hwithin, hsound⟩ rfl rfl rfl rfl

/-- The calls that a memory stream is not made for fail, or move the bytes of the source. -/
theorem sound_of_run (h : s.Synced id pos) (hmem : s.isMemStream = true)
    (hwithin : op.Within s.isMemStream s.len pos) (hresult : (op.run s).1 = op.result id pos)
    (hsrc : (op.run s).2.src = id) : op.Sound s.len (s.readBytesSeekable != 0) pos := by
  have hread : ∀ {n : Nat}, pos + n ≤ s.len → (s.read n).2.src = id →
      n = 0 ∨ (s.readBytesSeekable != 0) = true ∨ pos = 0 := by
    intro n hlen hsame
    by_contra hnot
    obtain ⟨hn, hcached, hpos⟩ : n ≠ 0 ∧ ¬(s.readBytesSeekable != 0) = true ∧ pos ≠ 0 := by
      simpa only [not_or] using hnot
    have hmoves := read_moves h hmem (by simpa using hcached) hpos (Nat.pos_of_ne_zero hn) hlen
    rw [hsame] at hmoves
    exact hpos hmoves.symm
  cases op with
  | read n => exact hread hwithin hsrc
  | readZeroCopy n => exact hread hwithin.2 hsrc
  | skip len =>
    intro hend
    have hfail := readSeek_end h hmem
    have hok : (s.readSkip len).1 = true := congrArg Prod.snd hresult
    rw [readSkip_eq h hwithin.1, show (pos + len).toNat = s.len by omega, hfail] at hok
    exact nomatch hok
  | seek offset =>
    rintro rfl
    have hok : (s.readSeek s.len).1 = true := congrArg Prod.snd hresult
    rw [readSeek_end h hmem] at hok
    exact nomatch hok

variable {ops : List ReadOp}

theorem Refines.head (h : Refines source s pos ops) : s.src = source := by
  cases ops with
  | nil => exact h.2
  | cons op ops => exact h.2.1

theorem refines_of_runSound : ∀ {s : ReadStream} {pos : Nat},
    s.Synced source pos → RunWithin s.isMemStream s.len pos ops →
    (s.isMemStream = true → RunSound s.len (s.readBytesSeekable != 0) pos ops) →
    Refines source s pos ops := by
  induction ops with
  | nil => exact fun h _ _ => ⟨h.tell_eq, h.src_eq⟩
  | cons op ops ih =>
    intro s pos h hwithin hsound
    have hstep := run_spec h hwithin.1 fun hmem => (hsound hmem).1
    refine ⟨h.tell_eq, h.src_eq, hstep.result_eq, ih hstep.synced ?_ ?_⟩
    · rw [hstep.same.isMemStream_eq, hstep.same.len_eq]
      exact hwithin.2
    · intro hmem
      rw [hstep.same.isMemStream_eq] at hmem
      rw [hstep.same.len_eq, hstep.cached hmem]
      exact (hsound hmem).2

theorem runSound_of_refines : ∀ {s : ReadStream} {pos : Nat},
    s.Synced id pos → s.isMemStream = true → RunWithin s.isMemStream s.len pos ops →
    Refines id s pos ops → RunSound s.len (s.readBytesSeekable != 0) pos ops := by
  induction ops with
  | nil => exact fun _ _ _ _ => trivial
  | cons op ops ih =>
    intro s pos h hmem hwithin hrefines
    obtain ⟨_, _, hresult, hrest⟩ := hrefines
    have hsound := sound_of_run h hmem hwithin.1 hresult hrest.head
    have hstep := run_spec h hwithin.1 fun _ => hsound
    have hwithin' := hwithin.2
    rw [← hstep.same.isMemStream_eq, ← hstep.same.len_eq] at hwithin'
    have htail := ih hstep.synced (hstep.same.isMemStream_eq.trans hmem) hwithin' hrest
    rw [hstep.same.len_eq, hstep.cached hmem] at htail
    exact ⟨hsound, htail⟩

/-- A new stream on a source of `len` bytes. -/
def new (isMemStream : Bool) (src : Nat → Nat) (len : Nat) (grants buf : Nat → Nat)
    (initialBufferSize bufferSize : Nat) : ReadStream :=
  { isMemStream, src, len, grants, buf
    numElts := max initialBufferSize bufferSize, originalBufferLength := bufferSize }

theorem new_synced {isMemStream : Bool} (src : Nat → Nat) {len : Nat} (grants buf : Nat → Nat)
    {initialBufferSize bufferSize : Nat} (hsize : bufferSize ≠ 0)
    (hmem : isMemStream = true → initialBufferSize = 0 ∧ bufferSize = len) :
    (new isMemStream src len grants buf initialBufferSize bufferSize).Synced src 0 := by
  refine ⟨rfl, rfl, rfl, rfl, ?_, Nat.pos_of_ne_zero hsize, rfl, Nat.zero_le _, rfl, Nat.zero_le _,
    Nat.le_refl _, fun _ hi => absurd hi (Nat.not_lt_zero _), ?_⟩
  · show 0 < max initialBufferSize bufferSize
    omega
  · intro h
    obtain ⟨hzero, hlen⟩ := hmem h
    refine ⟨?_, hlen, Or.inl rfl⟩
    show max initialBufferSize bufferSize = len
    omega

/-- **A read stream through callbacks acts as a file. One on memory does so for every source if and
only if it is first read at its start, and is not sent to its end.** -/
theorem refines_iff_runSound (isMemStream : Bool) (len : Nat) (grants buf : Nat → Nat)
    (initialBufferSize bufferSize : Nat) (hsize : bufferSize ≠ 0)
    (hmem : isMemStream = true → initialBufferSize = 0 ∧ bufferSize = len) (ops : List ReadOp)
    (hwithin : RunWithin isMemStream len 0 ops) :
    (∀ source, Refines source (new isMemStream source len grants buf initialBufferSize bufferSize) 0
      ops) ↔ (isMemStream = true → RunSound len false 0 ops) := by
  constructor
  · rintro hrefines rfl
    exact runSound_of_refines (new_synced id grants buf hsize hmem) rfl hwithin (hrefines id)
  · intro hsound source
    exact refines_of_runSound (new_synced source grants buf hsize hmem) hwithin hsound

/-- A memory of four bytes: a seek back into the buffer, and a read without a copy. -/
theorem refines_iff_runSound_memory :
    Refines id (new true id 4 id id 0 4) 0 [.read 1, .skip 2, .seek 1, .readZeroCopy 3] := by
  have hiff := refines_iff_runSound true 4 id id 0 4 (by decide) (by decide)
    [.read 1, .skip 2, .seek 1, .readZeroCopy 3] (by decide)
  apply hiff.mpr
  intro _
  decide

/-- A memory stream that is sent forward before its first read gives other bytes at its start. -/
theorem not_refines_memory :
    RunWithin true 4 0 [.seek 2, .read 1, .seek 0, .read 1] ∧
      ¬Refines id (new true id 4 id id 0 4) 0 [.seek 2, .read 1, .seek 0, .read 1] := by
  refine ⟨by decide, ?_⟩
  rintro ⟨_, _, _, _, _, _, _, _, _, _, _, hread, _⟩
  exact absurd hread (by decide)

end ReadStream

end GrokCodec.Stream
