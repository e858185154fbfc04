import Mathlib.Data.List.Induction
import Mathlib.Tactic.Ring

/-! The chunks of a tile's packet data, read as one contiguous buffer. A tile part without
packet data leaves an empty chunk, which `tryIncrement` steps over. -/

namespace GrokCodec.Util

open List Nat Function Option

variable {α : Type}

structure Chunk (α : Type) where
  elts : List α
  offset : Nat
deriving DecidableEq

structure SparseBuffer (α : Type) where
  chunks : List (Chunk α)
  currentChunkId : Nat
  reachedEnd : Bool
deriving DecidableEq

def Chunk.remainingLength (c : Chunk α) : Nat :=
  c.elts.length - c.offset

namespace SparseBuffer

/-- The bytes of the chunks as one buffer. -/
def contents (cs : List (Chunk α)) : List α :=
  (cs.map Chunk.elts).flatten

variable (indexed : Bool)

/-- `indexed` is the push under the index of a tile part. These come in order and without gaps; the
null chunks that a gap would have are left out. -/
def push (s : SparseBuffer α) (buf : List α) : SparseBuffer α :=
  if indexed then { s with chunks := s.chunks ++ [⟨buf, 0⟩] }
  else if buf.isEmpty then s
  else ⟨s.chunks ++ [⟨buf, 0⟩], s.chunks.length, s.reachedEnd⟩

def pushed (bufs : List (List α)) : SparseBuffer α :=
  bufs.foldl (push indexed) ⟨[], 0, false⟩

def rewind (s : SparseBuffer α) : SparseBuffer α :=
  ⟨s.chunks.map ({ · with offset := 0 }), 0, false⟩

def chunkLength (s : SparseBuffer α) : Option Nat :=
  s.chunks[s.currentChunkId]?.map Chunk.remainingLength

def offset (s : SparseBuffer α) : Option Nat :=
  s.chunks[s.currentChunkId]?.map
    ((contents (s.chunks.take s.currentChunkId)).length + ·.offset)

/-- The stepping loop of `tryIncrement` over the chunks behind the current one. -/
def nextChunkId : List (Chunk α) → Nat → Nat
  | [], i => i
  | [_], i => i + 1
  | c :: cs, i => if c.elts.length = 0 then nextChunkId cs (i + 1) else i + 1

def tryIncrement (s : SparseBuffer α) : SparseBuffer α :=
  if s.chunks.length = 0 ∨ s.currentChunkId = s.chunks.length - 1 then
    { s with reachedEnd := true }
  else if s.chunks[s.currentChunkId]?.any (fun c => c.offset = c.elts.length) then
    let i := nextChunkId (s.chunks.drop (s.currentChunkId + 1)) s.currentChunkId
    { s with
      currentChunkId := i
      reachedEnd := s.reachedEnd || s.chunks[i]?.any (·.elts.length = 0) }
  else s

/-- `none` is an exception. -/
def chunkSkip (s : SparseBuffer α) (delta : Nat) : Option (SparseBuffer α) :=
  if delta = 0 then some s
  else if s.reachedEnd then none
  else do
    let c ← s.chunks[s.currentChunkId]?
    if c.elts.length < c.offset + delta then none
    else
      let t := { s with
        chunks := s.chunks.set s.currentChunkId { c with offset := c.offset + delta } }
      some (if c.offset + delta = c.elts.length then t.tryIncrement else t)

/-- The loop of `read`, and of `skip`, which drops the bytes. -/
def advance : Nat → Nat → SparseBuffer α → Option (List α × SparseBuffer α)
  | 0, _, s => some ([], s)
  | fuel + 1, left, s =>
    if left = 0 then some ([], s)
    else match s.chunks[s.currentChunkId]? with
    | none => some ([], s)
    | some c =>
      if c.remainingLength = 0 then
        let t := s.tryIncrement
        if t.currentChunkId = s.currentChunkId then some ([], t) else advance fuel left t
      else do
        let n := min left c.remainingLength
        let t ← s.chunkSkip n
        let (bytes, t) ← advance fuel (left - n) t
        some ((c.elts.drop c.offset).take n ++ bytes, t)

def read (s : SparseBuffer α) (numBytes : Nat) : Option (List α × SparseBuffer α) :=
  if numBytes = 0 then some ([], s)
  else do
    let o ← s.offset
    let n := min numBytes ((contents s.chunks).length - o)
    advance (s.chunks.length + n) n s

def skip (s : SparseBuffer α) (numBytes : Nat) : Option (Nat × SparseBuffer α) := do
  let o ← s.offset
  if (contents s.chunks).length < (numBytes + o) % 2 ^ 64 then none
  else if numBytes = 0 then some (0, s)
  else
    let (_, t) ← advance (s.chunks.length + numBytes) numBytes s
    some (numBytes, t)

/-- Position `p` in `bufs`: later chunks are untouched, and a used up chunk is the last one. -/
inductive At (bufs : List (List α)) : SparseBuffer α → Nat → Prop
  | mk {A B : List (Chunk α)} {c : Chunk α} {e : Bool} (all : (A ++ c :: B).map Chunk.elts = bufs)
      (later : ∀ b ∈ B, b.offset = 0) (le : c.offset ≤ c.elts.length)
      (last : c.offset = c.elts.length → B = []) (done : e = true → c.offset = c.elts.length) :
      At bufs ⟨A ++ c :: B, A.length, e⟩ ((contents A).length + c.offset)

variable {bufs : List (List α)} {s t : SparseBuffer α} {p n : Nat} {A B : List (Chunk α)}
  {c : Chunk α}

theorem At.offset_eq (h : At bufs s p) : s.offset = some p := by
  cases h
  simp [offset]

theorem At.elts_eq (h : At bufs s p) : s.chunks.map Chunk.elts = bufs := by
  cases h
  assumption

theorem At.chunkLength_pos (h : At bufs s p) (hp : p < bufs.flatten.length) :
    ∃ k, s.chunkLength = some k ∧ 0 < k := by
  obtain @⟨A, B, c, e, rfl, -, le, last, -⟩ := h
  refine ⟨c.remainingLength, by simp [chunkLength], Nat.sub_pos_of_lt (Nat.lt_of_le_of_ne le ?_)⟩
  intro hc
  simp [last hc, hc, contents] at hp

theorem nextChunkId_spec (c : Chunk α) (cs : List (Chunk α)) (i : Nat) :
    ∃ A d B, c :: cs = A ++ d :: B ∧ nextChunkId (c :: cs) i = i + A.length + 1 ∧
      contents A = [] ∧ (d.elts = [] → B = []) := by
  induction cs generalizing c i with
  | nil => exact ⟨[], c, [], rfl, rfl, rfl, fun _ => rfl⟩
  | cons b cs ih =>
    by_cases hc : c.elts = []
    · obtain ⟨A, d, B, hcs, hi, hA, hd⟩ := ih b (i + 1)
      exact ⟨c :: A, d, B, by simp [hcs], by simp [nextChunkId, hc, hi]; omega,
        by simpa [contents, hc] using hA, hd⟩
    · exact ⟨[], c, b :: cs, rfl, by simp [nextChunkId, hc], rfl, fun h => absurd h hc⟩

/-- At the end of a chunk the position moves to the next chunk with data. -/
theorem at_tryIncrement (all : (A ++ c :: B).map Chunk.elts = bufs)
    (later : ∀ b ∈ B, b.offset = 0) (hc : c.offset = c.elts.length) :
    At bufs (tryIncrement ⟨A ++ c :: B, A.length, false⟩) ((contents A).length + c.offset) := by
  cases B with
  | nil =>
    simpa [tryIncrement] using At.mk all later (Nat.le_of_eq hc) (fun _ => rfl) (fun _ => hc)
  | cons b bs =>
    obtain ⟨A', d, B, hB, hi, hA', hd⟩ := nextChunkId_spec b bs A.length
    rw [hB] at hi later all ⊢
    have hd0 := later d (by simp)
    have hsplit : A ++ c :: (A' ++ d :: B) = (A ++ c :: A') ++ d :: B := by simp
    have hid : A.length + A'.length + 1 = (A ++ c :: A').length := by simp; omega
    have hget : (A ++ c :: (A' ++ d :: B))[A.length + A'.length + 1]? = some d := by
      rw [hsplit, hid]
      simp
    have hpos : contents (A ++ c :: A') = contents A ++ c.elts := by
      simpa [contents] using hA'
    have hat := At.mk (e := d.elts.length = 0) (hsplit ▸ all) (fun x hx => later x (by simp [hx]))
      (by omega) (by simpa [hd0, eq_comm] using hd) (by simp [hd0, eq_comm])
    rw [← hsplit, ← hid, hpos] at hat
    simpa [tryIncrement, hc, hi, hget, hd0] using hat

theorem at_chunkSkip {e : Bool} (all : (A ++ c :: B).map Chunk.elts = bufs)
    (later : ∀ b ∈ B, b.offset = 0) (done : e = true → c.offset = c.elts.length)
    (hn : n ≠ 0) (hr : n ≤ c.elts.length - c.offset) :
    ∃ t, chunkSkip ⟨A ++ c :: B, A.length, e⟩ n = some t ∧
      At bufs t ((contents A).length + (c.offset + n)) := by
  obtain rfl : e = false := by
    cases e with
    | false => rfl
    | true => have := done rfl; omega
  have hle : ¬c.elts.length < c.offset + n := by omega
  have hall : (A ++ ⟨c.elts, c.offset + n⟩ :: B).map Chunk.elts = bufs := by simpa using all
  by_cases hc : c.offset + n = c.elts.length
  · exact ⟨_, by simp [chunkSkip, hn, hc], at_tryIncrement hall later hc⟩
  · exact ⟨⟨A ++ ⟨c.elts, c.offset + n⟩ :: B, A.length, false⟩, by simp [chunkSkip, hn, hle, hc],
      .mk hall later (Nat.le_of_not_lt hle) (absurd · hc) nofun⟩

theorem take_drop_contents {k : Nat} (hk : k ≤ n) (hr : c.offset + k ≤ c.elts.length) :
    (c.elts.drop c.offset).take k ++
        ((contents (A ++ c :: B)).drop ((contents A).length + (c.offset + k))).take (n - k) =
      ((contents (A ++ c :: B)).drop ((contents A).length + c.offset)).take n := by
  obtain ⟨m, rfl⟩ := Nat.exists_eq_add_of_le hk
  have hcontents : contents (A ++ c :: B) = contents A ++ (c.elts ++ contents B) := by
    simp [contents]
  have hlen : k ≤ (c.elts.drop c.offset).length := by simp; omega
  rw [hcontents, Nat.add_sub_cancel_left, drop_length_add_append, drop_length_add_append,
    drop_append_of_le_length hr, drop_append_of_le_length (le_of_add_right_le hr), take_add,
    take_append_of_le_length hlen, drop_append_of_le_length hlen, drop_drop]

/-- The loop takes the bytes at the position, fewer only at the end. -/
theorem advance_spec {fuel : Nat} (h : At bufs s p) (hf : n ≤ fuel) :
    ∃ t, advance fuel n s = some ((bufs.flatten.drop p).take n, t) ∧
      At bufs t (p + min n (bufs.flatten.length - p)) := by
  induction fuel generalizing s p n with
  | zero =>
    obtain rfl : n = 0 := by omega
    exact ⟨s, by simp [advance], by simpa using h⟩
  | succ fuel ih =>
    by_cases hn : n = 0
    · subst hn
      exact ⟨s, by simp [advance], by simpa using h⟩
    obtain @⟨A, B, c, e, rfl, later, le, last, done⟩ := h
    by_cases hr : c.elts.length - c.offset = 0
    · have hc : c.offset = c.elts.length := by omega
      obtain rfl := last hc
      refine ⟨⟨A ++ [c], A.length, true⟩, ?_, ?_⟩
      · simp [advance, hn, tryIncrement, hc, drop_append, Chunk.remainingLength, contents]
      · simpa [hc, contents] using At.mk rfl later le last (fun _ => hc)
    · obtain ⟨t, ht, hat⟩ := at_chunkSkip (n := min n (c.elts.length - c.offset)) (A := A) rfl
        later done (by omega) (by omega)
      obtain ⟨u, hu, hau⟩ := ih (n := n - min n (c.elts.length - c.offset)) hat (by omega)
      refine ⟨u, ?_, ?_⟩
      · change _ = some (((contents (A ++ c :: B)).drop _).take n, u)
        rw [← take_drop_contents (Nat.min_le_left n (c.elts.length - c.offset)) (by omega)]
        simp [advance, hn, hr, ht, hu, Chunk.remainingLength, contents]
      · convert hau using 1
        simp only [map_append, map_cons, flatten_append, flatten_cons, length_append, contents]
        omega

theorem read_spec (h : At bufs s p) (n : Nat) :
    ∃ t, s.read n = some ((bufs.flatten.drop p).take n, t) ∧
      At bufs t (p + min n (bufs.flatten.length - p)) := by
  by_cases hn : n = 0
  · subst hn
    exact ⟨s, by simp [read], by simpa using h⟩
  · obtain ⟨t, ht, hat⟩ := advance_spec (n := min n (bufs.flatten.length - p)) h
      (le_add_left _ s.chunks.length)
    rw [← length_drop, take_eq_take_min.symm, length_drop] at ht
    exact ⟨t, by simpa [read, hn, h.offset_eq, contents, h.elts_eq] using ht, by simpa using hat⟩

theorem skip_spec (h : At bufs s p) (hn : (n + p) % 2 ^ 64 ≤ bufs.flatten.length) :
    ∃ t, s.skip n = some (n, t) ∧ At bufs t (p + min n (bufs.flatten.length - p)) := by
  by_cases h0 : n = 0
  · subst h0
    exact ⟨s, by simpa [skip, h.offset_eq, contents, h.elts_eq] using hn, by simpa using h⟩
  · obtain ⟨t, ht, hat⟩ := advance_spec h (le_add_left n s.chunks.length)
    exact ⟨t, by simpa [skip, h0, h.offset_eq, contents, h.elts_eq, ht] using hn, hat⟩

theorem pushed_eq (h : indexed = true ∨ ∀ buf ∈ bufs, buf ≠ []) :
    pushed indexed bufs =
      ⟨bufs.map (⟨·, 0⟩), if indexed then 0 else bufs.length - 1, false⟩ := by
  induction bufs using List.reverseRecOn with
  | nil => simp [pushed]
  | append_singleton bufs buf ih =>
    rw [pushed, foldl_append, ← pushed, ih (h.imp_right fun h b hb => h b (by simp [hb]))]
    cases indexed <;> simp_all [push]

theorem at_start {buf : List α} (hbuf : buf ≠ []) :
    At (buf :: bufs) ⟨(buf :: bufs).map (⟨·, 0⟩), 0, false⟩ 0 :=
  .mk (A := []) (by simp [comp_def]) (by simp) (zero_le _)
    (fun h => absurd (length_eq_zero_iff.mp h.symm) hbuf) nofun

theorem at_pushed (hne : bufs ≠ []) (hbufs : ∀ buf ∈ bufs, buf ≠ []) :
    ∃ p, At bufs (pushed indexed bufs) p := by
  rw [pushed_eq indexed (.inr hbufs)]
  cases indexed with
  | true =>
    obtain ⟨buf, bufs, rfl⟩ := exists_cons_of_ne_nil hne
    exact ⟨0, at_start (hbufs buf mem_cons_self)⟩
  | false =>
    obtain ⟨bufs, buf, rfl⟩ := (eq_nil_or_concat bufs).resolve_left hne
    have hat := At.mk (A := bufs.map (⟨·, 0⟩)) (B := []) (c := ⟨buf, 0⟩) (e := false) rfl
      (by simp) (zero_le _) (fun _ => rfl) nofun
    exact ⟨_, by simpa [comp_def] using hat⟩

theorem At.rewind_eq (h : At bufs s p) : s.rewind = ⟨bufs.map (⟨·, 0⟩), 0, false⟩ := by
  simp [rewind, ← h.elts_eq, comp_def]

inductive Op where
  | read (numBytes : Nat)
  | skip (numBytes : Nat)
  | rewind

/-- The logical position, by what the operations report, and the buffer. An exception leaves
both. -/
def step (s : Nat × SparseBuffer α) : Op → Nat × SparseBuffer α
  | .read n => (s.2.read n).elim s fun r => (s.1 + r.1.length, r.2)
  | .skip n => (s.2.skip n).elim s fun r => (s.1 + r.1, r.2)
  | .rewind => (0, s.2.rewind)

/-- The sum in the check of `skip` does not wrap around. -/
def Fits (p : Nat) : Op → Prop
  | .skip n => n + p < 2 ^ 64
  | _ => True

def FitsAll : List Op → Nat × SparseBuffer α → Prop
  | [], _ => True
  | op :: ops, s => Fits s.1 op ∧ FitsAll ops (step s op)

variable {buf : List α} {q : Nat}

/-- A report `k` moves the buffer by `k`, or to its end. -/
theorem at_step (hbuf : buf ≠ []) (h : At (buf :: bufs) s q) (p : Nat) (op : Op) :
    (∃ t, step (p, s) op = (0, t) ∧ At (buf :: bufs) t 0) ∨
      ∃ k t, step (p, s) op = (p + k, t) ∧
        At (buf :: bufs) t (q + min k ((buf :: bufs).flatten.length - q)) ∧
        (Fits q op → k ≤ (buf :: bufs).flatten.length - q) := by
  cases op with
  | read n =>
    obtain ⟨t, ht, hat⟩ := read_spec h n
    refine .inr ⟨_, t, by simp only [step, ht, elim_some]; rfl, ?_, fun _ => ?_⟩
    · simpa using hat
    · simp
  | skip n =>
    by_cases hn : (n + q) % 2 ^ 64 ≤ (buf :: bufs).flatten.length
    · obtain ⟨t, ht, hat⟩ := skip_spec h hn
      refine .inr ⟨n, t, by simp [step, ht], hat, fun hfit => ?_⟩
      rw [mod_eq_of_lt hfit] at hn
      omega
    · have hnone : s.skip n = none := by
        simp only [skip, h.offset_eq, bind_eq_bind, bind_some, contents, h.elts_eq]
        exact if_pos (Nat.not_le.mp hn)
      exact .inr ⟨0, s, by simp [step, hnone], by simpa using h, fun _ => zero_le _⟩
  | rewind => exact .inl ⟨_, rfl, h.rewind_eq ▸ at_start hbuf⟩

/-- The buffer is at the logical position, unless a wrapped skip has put that past the end. -/
theorem at_run (hbuf : buf ≠ []) {s : Nat × SparseBuffer α} (ops : List Op)
    (h : At (buf :: bufs) s.2 q) (hq : q = s.1 ∨ (buf :: bufs).flatten.length < s.1) :
    let r := ops.foldl step s
    ∃ q', At (buf :: bufs) r.2 q' ∧ (q' = r.1 ∨ (buf :: bufs).flatten.length < r.1) ∧
      (q = s.1 → FitsAll ops s → q' = r.1) := by
  induction ops generalizing s q with
  | nil => exact ⟨q, h, hq, fun hp _ => hp⟩
  | cons op ops ih =>
    obtain ⟨p, s⟩ := s
    obtain ⟨t, ht, hat⟩ | ⟨k, t, ht, hat, hk⟩ := at_step hbuf h p op
    all_goals simp only [foldl_cons, FitsAll, ht]
    · obtain ⟨q', hat', hq', hfit⟩ := ih (s := (0, t)) hat (.inl rfl)
      exact ⟨q', hat', hq', fun _ hops => hfit rfl hops.2⟩
    · obtain ⟨q', hat', hq', hfit⟩ := ih (s := (p + k, t)) hat (by dsimp only at hq ⊢; omega)
      refine ⟨q', hat', hq', fun hp hops => hfit ?_ hops.2⟩
      rw [Nat.min_eq_left (hk (hp ▸ hops.1)), hp]

/-- In every run that fits, `offset` is the position and a read returns the bytes there. -/
def ReadsSlices (bufs : List (List α)) : Prop :=
  ∃ p, (pushed indexed bufs).offset = some p ∧
    ∀ ops, FitsAll ops (p, pushed indexed bufs) →
      let r := ops.foldl step (p, pushed indexed bufs)
      r.2.offset = some r.1 ∧ ∀ n, ∃ t, r.2.read n = some ((bufs.flatten.drop r.1).take n, t)

/-- **Chunks are read as one buffer.** -/
theorem reads_slices (indexed : Bool) (bufs : List (List α)) (hne : bufs ≠ [])
    (hbufs : ∀ buf ∈ bufs, buf ≠ []) : ReadsSlices indexed bufs := by
  obtain ⟨p, hp⟩ := at_pushed indexed hne hbufs
  obtain ⟨buf, bufs, rfl⟩ := exists_cons_of_ne_nil hne
  refine ⟨p, hp.offset_eq, fun ops hops => ?_⟩
  obtain ⟨q, hat, -, hq⟩ := at_run (hbufs buf mem_cons_self) (s := (p, _)) ops hp (.inl rfl)
  obtain rfl := hq rfl hops
  exact ⟨hat.offset_eq, fun n => (read_spec hat n).imp fun t ht => ht.1⟩

theorem twoChunks_slices : ReadsSlices true [[1, 2], [3]] :=
  reads_slices true [[1, 2], [3]] (by decide) (by decide)

/-- A skip that reports `2 ^ 64 - 1` bytes moves by one. -/
theorem skip_wraps :
    let r := [.read 1, .skip (2 ^ 64 - 1)].foldl step (0, pushed true [[1, 2]])
    r.1 = 2 ^ 64 ∧ r.2.offset = some 2 := by
  decide +kernel

/-- **While bytes are left the current chunk has some, unless the first chunk is empty.** -/
theorem chunkLength_pos_iff (bufs : List (List α)) :
    (∀ (ops : List Op) p t, ops.foldl step (0, (pushed true bufs).rewind) = (p, t) →
        p < bufs.flatten.length → ∃ k, t.chunkLength = some k ∧ 0 < k) ↔
      bufs.flatten = [] ∨ ∃ buf ∈ bufs.head?, buf ≠ [] := by
  have hstart : (pushed true bufs).rewind = ⟨bufs.map (⟨·, 0⟩), 0, false⟩ := by
    simp [pushed_eq true (.inl rfl), rewind, comp_def]
  rw [hstart]
  cases bufs with
  | nil => simp
  | cons buf bufs =>
    constructor
    · intro h
      by_cases hdata : (buf :: bufs).flatten = []
      · exact .inl hdata
      · obtain ⟨k, hk, hpos⟩ := h [] 0 _ rfl (length_pos_iff.mpr hdata)
        obtain rfl : buf.length = k := by simpa [chunkLength, Chunk.remainingLength] using hk
        exact .inr ⟨buf, rfl, length_pos_iff.mp hpos⟩
    · rintro (hdata | ⟨_, ⟨⟩, hbuf⟩) ops p t hrun hp
      · simp [hdata] at hp
      · obtain ⟨q, hat, hq, -⟩ := at_run hbuf (s := (0, _)) ops (at_start hbuf) (.inl rfl)
        rw [hrun] at hat hq
        exact hat.chunkLength_pos (by dsimp only at hq; omega)

theorem empty_first_chunk :
    (pushed true [[], [7]]).rewind.chunkLength = some 0 ∧ [[], [7]].flatten.length = 1 := by
  decide

end SparseBuffer

end GrokCodec.Util
