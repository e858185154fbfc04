import GrokCodec.Lib.ByteStream
import Mathlib.Algebra.BigOperators.Group.List.Basic

/-!
PPM marker segments of the main header: the packet headers of all tile parts, and what the packet
parser takes from them for a tile.
-/

namespace GrokCodec.Codestream

open ByteStream List Option Prod Nat Function

/-- `PPMMarker`: the segments by their index, and after merging the bytes that each packet header
buffer begins with, which go on to the end of the merged data. -/
structure PPMMarker where
  markersCount : Nat := 0
  markers : Nat → Option (List Nat) := fun _ => none
  packetHeaders : List (List Nat) := []

namespace PPMMarker

/-- `PPMMarker::read`. -/
def read (m : PPMMarker) : List Nat → Option PPMMarker
  | iPpm :: b :: data =>
    if (m.markers iPpm).isSome then none
    else some { m with
      markersCount := max m.markersCount (iPpm + 1)
      markers := update m.markers iPpm (some (b :: data)) }
  | _ => none

/-- The loop over the length fields of a segment: each Nppm with the bytes of its block that are in
the segment, and how many are still to come. -/
def readBlocks : Nat → List Nat → Option (List (Nat × List Nat) × Nat)
  | 0, _ => some ([], 0)
  | fuel + 1, data =>
    if data.length < 4 then none
    else
      let nPpm := ofBytes (data.take 4)
      let rest := data.drop 4
      if nPpm ≤ rest.length then
        if rest.drop nPpm = [] then some ([(nPpm, rest.take nPpm)], 0)
        else (readBlocks fuel (rest.drop nPpm)).map fun r =>
          ((nPpm, rest.take nPpm) :: r.1, r.2)
      else some ([(nPpm, rest)], nPpm - rest.length)

/-- One segment: the bytes that belong to the block before, the blocks that begin in it, and the
bytes that are still to come. -/
def mergeSegment (remaining : Nat) (data : List Nat) :
    Option (List Nat × List (Nat × List Nat) × Nat) :=
  if data.length ≤ remaining then some (data, [], remaining - data.length)
  else
    let rest := data.drop remaining
    (readBlocks rest.length rest).map fun r => (data.take remaining, r)

/-- The two passes over the segments: the lengths of the blocks, their bytes, and the bytes that are
missing at the end. -/
def mergeSegments : Nat → List (List Nat) → Option (List Nat × List Nat × Nat)
  | remaining, [] => some ([], [], remaining)
  | remaining, data :: segs =>
    (mergeSegment remaining data).bind fun r =>
      (mergeSegments r.2.2 segs).map fun later =>
        (r.2.1.map fst ++ later.1, r.1 ++ (r.2.1.map snd).flatten ++ later.2.1, later.2.2)

/-- The packet header buffers. Each of them goes to the end of the data. -/
def buffers (lengths buffer : List Nat) : List (List Nat) :=
  (List.range lengths.length).map fun k => buffer.drop (lengths.take k).sum

/-- `PPMMarker::merge`. -/
def merge (m : PPMMarker) : Option PPMMarker :=
  match mergeSegments 0 ((List.range m.markersCount).filterMap m.markers) with
  | some (lengths, buffer, 0) => some { packetHeaders := buffers lengths buffer }
  | _ => none

/-- The buffer from which `PacketParser::readHeader` reads the packet headers of a tile. -/
def headerBuffer (m : PPMMarker) (tileIndex : Nat) : Option (List Nat) := m.packetHeaders[tileIndex]?

/-- The segments of a main header are read one after the other, and then merged. -/
def readAndMerge (first : Nat) (segs : List (List Nat)) : Option PPMMarker :=
  ((segs.zipIdx first).foldlM (fun (m : PPMMarker) seg => m.read (seg.2 :: seg.1)) {}).bind merge

/-- The blocks of packet headers, each after its length. -/
def encode (blocks : List (List Nat)) : List Nat :=
  blocks.flatMap fun block => beBytes 4 block.length ++ block

/-- Where the length fields begin. -/
def starts : Nat → List (List Nat) → List Nat
  | _, [] => []
  | off, block :: blocks => off :: starts (off + 4 + block.length) blocks

/-- Where the segments end. -/
def cuts : Nat → List (List Nat) → List Nat
  | _, [] => []
  | off, seg :: segs => (off + seg.length) :: cuts (off + seg.length) segs

/-- No segment ends inside of a length field. -/
def Whole (cuts starts : List Nat) : Prop := ∀ c ∈ cuts, ∀ s ∈ starts, ¬(s < c ∧ c < s + 4)

instance (cuts starts : List Nat) : Decidable (Whole cuts starts) :=
  inferInstanceAs (Decidable (∀ c ∈ cuts, ∀ s ∈ starts, ¬(s < c ∧ c < s + 4)))

section Encode

variable {block : List Nat} {blocks blocks' : List (List Nat)}

theorem encode_cons :
    encode (block :: blocks) = beBytes 4 block.length ++ (block ++ encode blocks) := by
  rw [encode, flatMap_cons, append_assoc]
  rfl

theorem length_encode_cons :
    (encode (block :: blocks)).length = 4 + block.length + (encode blocks).length := by
  rw [encode_cons, length_append, length_append, length_beBytes, Nat.add_assoc]

theorem starts_append (off : Nat) : starts off (blocks ++ blocks') =
    starts off blocks ++ starts (off + (encode blocks).length) blocks' := by
  induction blocks generalizing off with
  | nil => rfl
  | cons block blocks ih =>
    rw [cons_append, starts, starts, ih, length_encode_cons, cons_append]
    congr 3
    omega

theorem encode_eq_nil : encode blocks = [] ↔ blocks = [] := by
  cases blocks with
  | nil => exact iff_of_true rfl rfl
  | cons block blocks =>
    refine iff_of_false ?_ (cons_ne_nil _ _)
    intro h
    have := congrArg List.length h
    rw [length_encode_cons, length_nil] at this
    omega

end Encode

/-- What a segment that begins with a length field gives, for blocks that it begins or ends in. -/
structure ReadsBlocks (blocks : List (List Nat)) (data later : List Nat)
    (r : List (Nat × List Nat) × Nat) (done rest : List (List Nat)) (tail : List Nat) : Prop where
  blocks_eq : blocks = done ++ rest
  lengths_eq : r.1.map fst = done.map List.length
  bytes_eq : (r.1.map snd).flatten ++ tail = done.flatten
  remaining_eq : tail.length = r.2
  later_eq : later = tail ++ encode rest
  length_eq : data.length + r.2 = (encode done).length

theorem readBlocks_field (fuel : Nat) {n : Nat} (hn : n < 2 ^ 32) (data : List Nat) :
    readBlocks (fuel + 1) (beBytes 4 n ++ data) =
      if n ≤ data.length then
        if data.drop n = [] then some ([(n, data.take n)], 0)
        else (readBlocks fuel (data.drop n)).map fun r => ((n, data.take n) :: r.1, r.2)
      else some ([(n, data)], n - data.length) := by
  have hlen : ¬(beBytes 4 n ++ data).length < 4 := by
    rw [length_append, length_beBytes]
    omega
  rw [readBlocks, if_neg hlen, take_left' (length_beBytes _ _),
    drop_left' (length_beBytes _ _), ofBytes_beBytes hn]

theorem readBlocks_spec {blocks : List (List Nat)} (hlt : ∀ b ∈ blocks, b.length < 2 ^ 32) :
    ∀ (off : Nat) {fuel : Nat} {data later : List Nat}, data ≠ [] → data.length ≤ fuel →
    data ++ later = encode blocks → (∀ s ∈ starts off blocks, ¬(s < off + data.length ∧
      off + data.length < s + 4)) →
    ∃ r done rest tail, readBlocks fuel data = some r ∧
      ReadsBlocks blocks data later r done rest tail := by
  induction blocks with
  | nil =>
    intro off fuel data later hne _ heq _
    exact absurd (append_eq_nil_iff.mp heq).1 hne
  | cons block blocks ih =>
    intro off fuel data later hne hfuel heq hwhole
    rw [encode_cons] at heq
    -- the length field is in the segment, or the segment would end inside of it
    have hfour : 4 ≤ data.length := by
      have := hwhole off mem_cons_self
      have := length_pos_iff.mpr hne
      omega
    have hfield : beBytes 4 block.length <+: data :=
      prefix_of_prefix_length_le ⟨_, rfl⟩ ⟨later, heq⟩ (by rw [length_beBytes]; exact hfour)
    obtain ⟨data, rfl⟩ := hfield
    rw [append_assoc] at heq
    replace heq := append_cancel_left heq
    rw [length_append, length_beBytes] at hfuel hwhole
    obtain ⟨fuel, rfl⟩ : ∃ k, fuel = k + 1 := ⟨fuel - 1, by omega⟩
    have hread := readBlocks_field fuel (hlt block mem_cons_self) data
    by_cases hin : block.length ≤ data.length
    · obtain ⟨data, rfl⟩ : block <+: data := prefix_of_prefix_length_le ⟨_, rfl⟩ ⟨_, heq⟩ hin
      rw [append_assoc] at heq
      replace heq := append_cancel_left heq
      rw [if_pos hin, drop_left, take_left] at hread
      by_cases hnil : data = []
      · subst hnil
        refine ⟨_, [block], blocks, [], hread.trans (if_pos rfl), rfl, rfl, ?_, rfl, heq, ?_⟩
        · simp
        · simp [encode]
      · rw [length_append] at hfuel hwhole
        have hwhole' : ∀ s ∈ starts (off + 4 + block.length) blocks,
            ¬(s < off + 4 + block.length + data.length ∧
              off + 4 + block.length + data.length < s + 4) := by
          intro s hs
          have := hwhole s (mem_cons_of_mem _ hs)
          omega
        obtain ⟨r, done, rest, tail, hread', h⟩ := ih (fun b hb => hlt b (mem_cons_of_mem _ hb))
          _ hnil (by omega : data.length ≤ fuel) heq hwhole'
        rw [if_neg hnil, hread', map_some] at hread
        refine ⟨_, block :: done, rest, tail, hread, ?_, ?_, ?_, h.remaining_eq, h.later_eq, ?_⟩
        · rw [h.blocks_eq, cons_append]
        · simp [h.lengths_eq]
        · simp [h.bytes_eq]
        · have hlen := h.length_eq
          simp only [length_append, length_beBytes, length_encode_cons]
          omega
    · obtain ⟨tail, rfl⟩ : data <+: block :=
        prefix_of_prefix_length_le ⟨_, heq⟩ ⟨_, rfl⟩ (Nat.le_of_not_le hin)
      rw [append_assoc] at heq
      refine ⟨_, [data ++ tail], blocks, tail, hread.trans (if_neg hin), rfl, rfl, ?_, ?_,
        append_cancel_left heq, ?_⟩
      · simp
      · simp
      · simp [encode, Nat.add_assoc]

variable {segs : List (List Nat)}

/-- Segments that do not end inside of a length field give all blocks. `tail` is what is left of the
block before. -/
theorem mergeSegments_spec : ∀ (off : Nat) {tail : List Nat}
    {blocks : List (List Nat)}, (∀ b ∈ blocks, b.length < 2 ^ 32) → (∀ seg ∈ segs, seg ≠ []) →
    segs.flatten = tail ++ encode blocks → Whole (cuts off segs) (starts (off + tail.length) blocks) →
    mergeSegments tail.length segs = some (blocks.map List.length, tail ++ blocks.flatten, 0) := by
  induction segs with
  | nil =>
    intro off tail blocks _ _ heq _
    obtain ⟨rfl, hnil⟩ := append_eq_nil_iff.mp heq.symm
    rw [encode_eq_nil.mp hnil]
    rfl
  | cons seg segs ih =>
    intro off tail blocks hlt hne heq hwhole
    have hne' := fun seg hseg => hne seg (mem_cons_of_mem _ hseg)
    rw [flatten_cons] at heq
    rw [mergeSegments, mergeSegment]
    by_cases hall : seg.length ≤ tail.length
    · obtain ⟨tail, rfl⟩ : seg <+: tail := prefix_of_prefix_length_le ⟨_, heq⟩ ⟨_, rfl⟩ hall
      rw [append_assoc] at heq
      have hwhole' : Whole (cuts (off + seg.length) segs)
          (starts (off + seg.length + tail.length) blocks) := by
        intro c hc s hs
        refine hwhole c (mem_cons_of_mem _ hc) s ?_
        rwa [length_append, ← Nat.add_assoc]
      have hnext := ih _ hlt hne' (append_cancel_left heq) hwhole'
      rw [if_pos hall, bind_some, length_append, Nat.add_sub_cancel_left, hnext]
      simp
    · obtain ⟨data, rfl⟩ : tail <+: seg :=
        prefix_of_prefix_length_le ⟨_, rfl⟩ ⟨_, heq⟩ (Nat.le_of_not_le hall)
      rw [append_assoc] at heq
      replace heq := append_cancel_left heq
      have hdata : data ≠ [] := by
        rintro rfl
        rw [append_nil] at hall
        exact hall (Nat.le_refl _)
      have hcut : off + (tail ++ data).length = off + tail.length + data.length := by
        rw [length_append, Nat.add_assoc]
      obtain ⟨r, done, rest, tail', hread, h⟩ := readBlocks_spec hlt (off + tail.length) hdata
        (Nat.le_refl _) heq (by
          intro s hs
          rw [← hcut]
          exact hwhole _ mem_cons_self s hs)
      have hblocks := h.blocks_eq
      subst hblocks
      have hnext := ih (off + (tail ++ data).length)
        (fun b hb => hlt b (mem_append_right _ hb)) hne' h.later_eq (by
          intro c hc s hs
          refine hwhole c (mem_cons_of_mem _ hc) s ?_
          rw [starts_append]
          apply mem_append_right
          rwa [hcut, Nat.add_assoc, h.remaining_eq, h.length_eq] at hs)
      rw [h.remaining_eq] at hnext
      rw [if_neg hall, drop_left, take_left]
      dsimp only
      rw [hread, map_some, bind_some]
      rw [hnext, map_some, h.lengths_eq, map_append, flatten_append, ← h.bytes_eq]
      simp

/-- The table after some segments with consecutive indices. -/
structure Table (first : Nat) (segs : List (List Nat)) (m : PPMMarker) : Prop where
  markers_eq : ∀ i, m.markers i = if first ≤ i then segs[i - first]? else none
  markersCount_eq : m.markersCount = if segs = [] then 0 else first + segs.length

variable {first : Nat} {m : PPMMarker}

theorem Table.read (h : Table first segs m) {seg : List Nat} (hne : seg ≠ []) :
    ∃ m', m.read ((first + segs.length) :: seg) = some m' ∧ Table first (segs ++ [seg]) m' := by
  obtain ⟨b, data, rfl⟩ := exists_cons_of_ne_nil hne
  have hfree : m.markers (first + segs.length) = none := by
    rw [h.markers_eq, if_pos (le_add_right _ _), Nat.add_sub_cancel_left,
      List.getElem?_eq_none (Nat.le_refl _)]
  refine ⟨_, if_neg (by rw [hfree]; decide), ?_, ?_⟩
  · intro i
    by_cases hi : i = first + segs.length
    · subst hi
      dsimp only
      rw [update_self, if_pos (le_add_right _ _), Nat.add_sub_cancel_left]
      simp
    · dsimp only
      rw [update_of_ne hi, h.markers_eq]
      by_cases hfirst : first ≤ i
      · rw [if_pos hfirst, if_pos hfirst]
        rcases Nat.lt_or_gt_of_ne (show i - first ≠ segs.length by omega) with hlt | hgt
        · rw [List.getElem?_append_left hlt]
        · rw [List.getElem?_eq_none (Nat.le_of_lt hgt), List.getElem?_eq_none (by simp; omega)]
      · rw [if_neg hfirst, if_neg hfirst]
  · have hcount : m.markersCount ≤ first + segs.length := by
      rw [h.markersCount_eq]
      split <;> omega
    dsimp only
    rw [if_neg (concat_ne_nil _ _), length_append, length_singleton]
    omega

theorem foldlM_read (first : Nat) (hne : ∀ seg ∈ segs, seg ≠ []) :
    ∃ m, (segs.zipIdx first).foldlM (fun (m : PPMMarker) seg => m.read (seg.2 :: seg.1)) {} =
      some m ∧ Table first segs m := by
  induction segs using reverseRecOn with
  | nil =>
    refine ⟨{}, rfl, ?_, rfl⟩
    intro i
    simp
  | append_singleton segs seg ih =>
    obtain ⟨m, hread, htable⟩ := ih fun seg hseg => hne seg (mem_append_left _ hseg)
    obtain ⟨m', hstep, htable'⟩ := htable.read (hne seg (by simp))
    refine ⟨m', ?_, htable'⟩
    rw [zipIdx_append, foldlM_append, hread]
    simp only [zipIdx_singleton, foldlM_cons, foldlM_nil, bind_eq_bind,
      bind_some, hstep]
    rfl

theorem filterMap_getElem? (l : List (List Nat)) :
    (List.range l.length).filterMap (fun i => l[i]?) = l := by
  induction l using reverseRecOn with
  | nil => rfl
  | append_singleton l a ih =>
    have hlow : ∀ i ∈ List.range l.length, (l ++ [a])[i]? = l[i]? := fun i hi =>
      List.getElem?_append_left (mem_range.mp hi)
    rw [length_append, length_singleton, range_succ, filterMap_append,
      filterMap_congr hlow, ih]
    simp

theorem Table.filterMap_eq (h : Table first segs m) :
    (List.range m.markersCount).filterMap m.markers = segs := by
  rw [h.markersCount_eq]
  by_cases hnil : segs = []
  · rw [if_pos hnil, hnil]
    rfl
  · rw [if_neg hnil, range_add, filterMap_append, filterMap_map]
    have hlow : (List.range first).filterMap m.markers = [] := by
      rw [filterMap_eq_nil_iff]
      intro i hi
      rw [h.markers_eq, if_neg (Nat.not_le.mpr (mem_range.mp hi))]
    have hhigh : m.markers ∘ (first + ·) = fun i => segs[i]? := by
      funext i
      show m.markers (first + i) = _
      rw [h.markers_eq, if_pos (le_add_right _ _), Nat.add_sub_cancel_left]
    rw [hlow, hhigh, nil_append, filterMap_getElem?]

/-- The blocks of a tile's own tile parts. -/
def ownBlocks (parts : List (Nat × List Nat)) (tile : Nat) : List Nat :=
  ((parts.filter fun part => part.1 = tile).map snd).flatten

theorem drop_eq_ownBlocks {parts : List (Nat × List Nat)} {tile : Nat} : ∀ {k : Nat},
    (∀ j part, parts[j]? = some part → part.2 ≠ [] → (part.1 = tile ↔ k ≤ j)) →
    ((parts.map snd).drop k).flatten = ownBlocks parts tile := by
  induction parts with
  | nil => intro k _; simp [ownBlocks]
  | cons part parts ih =>
    intro k h
    have hrest : ∀ j part, parts[j]? = some part → part.2 ≠ [] →
        (part.1 = tile ↔ k - 1 ≤ j) := by
      intro j part hj hne
      rw [h (j + 1) part hj hne]
      omega
    have hih := ih hrest
    have hown : ownBlocks (part :: parts) tile =
        (if part.1 = tile then part.2 else []) ++ ownBlocks parts tile := by
      unfold ownBlocks
      by_cases ht : part.1 = tile
      · simp [ht]
      · simp [ht]
    have hhead : (if part.1 = tile then part.2 else []) = if k = 0 then part.2 else [] := by
      by_cases hnil : part.2 = []
      · rw [hnil]
        split <;> split <;> rfl
      · have hiff := h 0 part rfl hnil
        by_cases hk : k = 0
        · rw [if_pos hk, if_pos (hiff.mpr (by omega))]
        · rw [if_neg hk, if_neg fun ht => hk (Nat.le_zero.mp (hiff.mp ht))]
    rw [hown, hhead, ← hih]
    cases k with
    | zero => rfl
    | succ k => rfl

end PPMMarker

end GrokCodec.Codestream
