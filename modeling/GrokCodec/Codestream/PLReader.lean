import GrokCodec.Codestream.PLMarker

/-!
PLT marker segments when they are read: `PLMarker` keeps the raw bodies in a map and decodes the
packet lengths on the fly. The map is a list of entries in the order of their keys, and an
iterator is the key it stands at.
-/

namespace GrokCodec.Codestream

open List Nat Option Prod

/-- `Buffer8`: the bytes of a marker and how far they have been read. -/
structure Buffer8 where
  buf : List Nat
  offset : Nat := 0
  deriving DecidableEq, Repr

/-- `RAW_PL_MARKER`: the bodies with one key, by tile part. -/
abbrev RawPLMarker := List (Option Buffer8)

/-- `PLMarker` as a reader. `currMarkerBuf` names the buffer by key and index; `none` is the
null pointer, and for an iterator the end of the map. -/
structure PLReader where
  rawMarkers : List (Nat × RawPLMarker) := []
  currMarkerIter : Option Nat := none
  sequential : Bool := false
  packetLen : Nat := 0
  currMarkerBufIndex : Nat := 0
  currMarkerBuf : Option (Nat × Nat) := none
  enabled : Bool := true
  deriving DecidableEq, Repr

namespace PLReader

/-- `operator[]` of the map for a key that is new. -/
def insertMarker (key : Nat) : List (Nat × RawPLMarker) → List (Nat × RawPLMarker)
  | [] => [(key, [])]
  | e :: es => if key < e.1 then (key, []) :: e :: es else e :: insertMarker key es

/-- Change the entry of a key. -/
def updateMarker (key : Nat) (f : RawPLMarker → RawPLMarker) (markers : List (Nat × RawPLMarker)) :
    List (Nat × RawPLMarker) :=
  markers.map fun e => if e.1 = key then (e.1, f e.2) else e

/-- `sequential_` after a look at the next index. -/
def staysSequential (m : PLReader) (nextIndex : Nat) : Bool :=
  if m.rawMarkers.length = 0 then decide (nextIndex = 0)
  else m.sequential && decide (m.rawMarkers.length % 256 = nextIndex)

/-- The key for the next index: sequential markers count on beyond 256. -/
def markerKey (m : PLReader) (nextIndex : Nat) : Nat :=
  if m.rawMarkers.length ≠ 0 ∧ m.staysSequential nextIndex = true then m.rawMarkers.length
  else nextIndex

/-- `findMarker(nextIndex, false)`. -/
def findMarker (m : PLReader) (nextIndex : Nat) : Option PLReader := do
  let sequential := m.staysSequential nextIndex
  guard ¬ (m.rawMarkers.length > 256 ∧ m.sequential = true ∧ sequential = false)
  let key := m.markerKey nextIndex
  let rawMarkers :=
    if m.rawMarkers.any (fun e => e.1 = key) then m.rawMarkers else insertMarker key m.rawMarkers
  return { m with rawMarkers, sequential, currMarkerIter := some key }

/-- The place of a tile part in `addNewMarker`; -1 pushes back. -/
def placeBuffer (b : Buffer8) (tilePartIndex : Int) (vec : RawPLMarker) : Option RawPLMarker :=
  if tilePartIndex < -1 then none
  else if tilePartIndex = -1 then some (vec ++ [some b])
  else
    let index := tilePartIndex.toNat
    let vec := vec ++ List.replicate (index + 1 - vec.length) none
    match vec[index]? with
    | some none => some (vec.set index (some b))
    | _ => none

/-- `addNewMarker` at the marker `findMarker` has found. -/
def addNewMarker (m : PLReader) (data : List Nat) (tilePartIndex : Int) : Option PLReader := do
  let key ← m.currMarkerIter
  let vec ← m.rawMarkers.lookup key
  let vec ← placeBuffer ⟨data, 0⟩ tilePartIndex vec
  return { m with rawMarkers := updateMarker key (fun _ => vec) m.rawMarkers }

/-- `readPLT`; `none` where it returns false. -/
def readPLT (m : PLReader) (headerData : List Nat) (tilePartIndex : Int) : Option PLReader :=
  match headerData with
  | [] | [_] => none
  | zpl :: data => do
    let m ← m.findMarker zpl
    m.addNewMarker data tilePartIndex

/-- `readPLT` for one marker after the other. -/
def readPLTs (m : PLReader) : List (Int × List Nat) → Option PLReader
  | [] => some m
  | (tilePart, body) :: rest => do
    let m ← m.readPLT body tilePart
    m.readPLTs rest

/-- `rewind` over the buffers with one key, up to a null pointer. -/
def rewindVector : RawPLMarker → RawPLMarker × Bool
  | [] => ([], true)
  | none :: vec => (none :: vec, false)
  | some b :: vec => (some { b with offset := 0 } :: (rewindVector vec).1, (rewindVector vec).2)

/-- `rewind` over the map, up to an entry that is not contiguous. -/
def rewindMarkers : List (Nat × RawPLMarker) → List (Nat × RawPLMarker) × Bool
  | [] => ([], true)
  | (key, vec) :: es =>
    if vec.isEmpty then ((key, vec) :: es, false)
    else if (rewindVector vec).2 then
      ((key, (rewindVector vec).1) :: (rewindMarkers es).1, (rewindMarkers es).2)
    else ((key, (rewindVector vec).1) :: es, false)

def rewind (m : PLReader) : PLReader :=
  match m.rawMarkers with
  | [] => m
  | (key, _) :: _ =>
    let (rawMarkers, contiguous) := rewindMarkers m.rawMarkers
    if contiguous then
      { m with rawMarkers, currMarkerIter := some key, currMarkerBufIndex := 0
               currMarkerBuf := some (key, 0) }
    else { m with rawMarkers, currMarkerIter := some key, enabled := false }

/-- The loop of `pop` around `readNextByte`: the length it leaves in `rc`, `packetLen_`, and how
many bytes it has read. A length also ends where the bits gathered so far are all zero. -/
def readLength : Nat → List Nat → Nat × Nat × Nat
  | packetLen, [] => (0, packetLen, 0)
  | packetLen, b :: bs =>
    let packetLen := packetLen ||| b % 128
    if b < 128 then (packetLen, 0, 1)
    else
      let packetLen := u32 (packetLen <<< 7)
      if packetLen = 0 then (0, 0, 1)
      else
        let (rc, packetLen, n) := readLength packetLen bs
        (rc, packetLen, n + 1)

/-- The buffer a pointer names. -/
def buffer (m : PLReader) (p : Nat × Nat) : Option Buffer8 :=
  ((m.rawMarkers.lookup p.1).bind fun vec => vec[p.2]?).join

/-- `pop` after it has read from the current buffer to its end; `rc` is what it has read. -/
def advance (m : PLReader) (key rc : Nat) : Nat × PLReader :=
  let index := m.currMarkerBufIndex + 1
  if index < ((m.rawMarkers.lookup key).getD []).length then
    (rc, { m with
      currMarkerBufIndex := index
      currMarkerBuf := (m.buffer (key, index)).map fun _ => (key, index) })
  else
    match m.rawMarkers.find? fun e => key < e.1 with
    | none =>
      (rc, { m with currMarkerBufIndex := index, currMarkerIter := none, currMarkerBuf := none })
    | some (next, vec) =>
      if vec.isEmpty then
        (0, { m with
          currMarkerBufIndex := index, currMarkerIter := some next, currMarkerBuf := none })
      else
        (rc, { m with
          currMarkerBufIndex := 0, currMarkerIter := some next
          currMarkerBuf := (m.buffer (next, 0)).map fun _ => (next, 0) })

/-- `pop`: the next packet length, or zero. -/
def pop (m : PLReader) : Nat × PLReader :=
  match m.currMarkerIter, m.currMarkerBuf with
  | some key, some p =>
    match m.buffer p with
    | none => (0, m)
    | some b =>
      let (rc, packetLen, n) := readLength m.packetLen (b.buf.drop b.offset)
      let read := { b with offset := b.offset + n }
      let m := { m with
        packetLen
        rawMarkers := updateMarker p.1 (fun vec => vec.set p.2 (some read)) m.rawMarkers }
      if read.offset = b.buf.length then m.advance key rc else (rc, m)
  | _, _ => (0, m)

/-- `pop` a number of times. -/
def popN : Nat → PLReader → List Nat
  | 0, _ => []
  | n + 1, m => m.pop.1 :: popN n m.pop.2

/-- A body that has not been read from. -/
def fresh (bytes : List Nat) : Option Buffer8 := some ⟨bytes, 0⟩

/-- A map entry of bodies that have not been read from. -/
def freshEntry (e : Nat × List (List Nat)) : Nat × RawPLMarker := (e.1, e.2.map fresh)

/-- What is left to be read: the rest of the current buffer, then the buffers after it in the order
of the map. -/
inductive Pending : PLReader → List (List Nat) → Prop
  | done {m : PLReader} (hiter : m.currMarkerIter = none) : Pending m []
  | inside {m : PLReader} {before : List (Nat × RawPLMarker)} {key : Nat} {vec : RawPLMarker}
      {b : Buffer8} {later : List (List Nat)} {after : List (Nat × List (List Nat))}
      (hmap : m.rawMarkers =
        before ++ (key, vec ++ some b :: later.map fresh) :: after.map freshEntry)
      (hbefore : ∀ e ∈ before, e.1 < key) (hafter : (key :: after.map fst).Pairwise (· < ·))
      (hfull : ∀ e ∈ after, e.2 ≠ []) (hiter : m.currMarkerIter = some key)
      (hbuf : m.currMarkerBuf = some (key, vec.length)) (hindex : m.currMarkerBufIndex = vec.length)
      (hoffset : b.offset ≤ b.buf.length) :
      Pending m (b.buf.drop b.offset :: (later ++ after.flatMap snd))

/-- `pop` on what is left to be read. -/
def popQueue (packetLen : Nat) : List (List Nat) → Nat × Nat × List (List Nat)
  | [] => (0, packetLen, [])
  | bytes :: bufs =>
    let (rc, packetLen, n) := readLength packetLen bytes
    (rc, packetLen, if n = bytes.length then bufs else bytes.drop n :: bufs)

theorem readLength_le (packetLen : Nat) (bytes : List Nat) :
    (readLength packetLen bytes).2.2 ≤ bytes.length := by
  induction bytes generalizing packetLen with
  | nil => exact Nat.le_refl 0
  | cons b bs ih =>
    simp only [readLength, length_cons]
    split
    · exact succ_le_succ (zero_le _)
    · split
      · exact succ_le_succ (zero_le _)
      · exact succ_le_succ (ih _)

section Map

variable {before after : List (Nat × RawPLMarker)} {key : Nat} {vec : RawPLMarker}

theorem lookup_entry (hbefore : ∀ e ∈ before, e.1 < key) :
    (before ++ (key, vec) :: after).lookup key = some vec := by
  induction before with
  | nil => simp
  | cons e before ih =>
    have hlt := hbefore e mem_cons_self
    have hne : (key == e.1) = false := by simpa using (Nat.ne_of_lt hlt).symm
    rw [cons_append, lookup_cons]
    rw [hne]
    exact ih fun e he => hbefore e (mem_cons_of_mem _ he)

theorem updateMarker_entry (f : RawPLMarker → RawPLMarker) (hbefore : ∀ e ∈ before, e.1 < key)
    (hafter : ∀ e ∈ after, key < e.1) :
    updateMarker key f (before ++ (key, vec) :: after) = before ++ (key, f vec) :: after := by
  have hsame {es : List (Nat × RawPLMarker)} (hes : ∀ e ∈ es, e.1 ≠ key) :
      updateMarker key f es = es := by
    conv_rhs => rw [← map_id es]
    exact map_congr_left fun e he => if_neg (hes e he)
  have h1 := hsame fun e he => (hbefore e he).ne
  have h2 := hsame fun e he => (hafter e he).ne'
  unfold updateMarker at h1 h2 ⊢
  rw [map_append, map_cons, h1, h2, if_pos rfl]

theorem find_next (hbefore : ∀ e ∈ before, e.1 < key) :
    (before ++ (key, vec) :: after).find? (fun e => key < e.1) =
      after.find? fun e => key < e.1 := by
  rw [List.find?_append, List.find?_cons_of_neg (by simp)]
  have hnone : before.find? (fun e => key < e.1) = none := by
    refine List.find?_eq_none.mpr fun e he => ?_
    have := hbefore e he
    simp
    omega
  rw [hnone, none_or]

end Map

variable {m : PLReader}

/-- At the end of a buffer the next one of the map comes. -/
theorem advance_spec {before : List (Nat × RawPLMarker)} {key : Nat} {vec : RawPLMarker}
    {b : Option Buffer8} {later : List (List Nat)} {after : List (Nat × List (List Nat))}
    (hmap : m.rawMarkers = before ++ (key, vec ++ b :: later.map fresh) :: after.map freshEntry)
    (hbefore : ∀ e ∈ before, e.1 < key) (hafter : (key :: after.map fst).Pairwise (· < ·))
    (hfull : ∀ e ∈ after, e.2 ≠ []) (hiter : m.currMarkerIter = some key)
    (hindex : m.currMarkerBufIndex = vec.length) (rc : Nat) :
    (m.advance key rc).1 = rc ∧ (m.advance key rc).2.packetLen = m.packetLen ∧
      (m.advance key rc).2.Pending (later ++ after.flatMap snd) := by
  have hvec : m.rawMarkers.lookup key = some (vec ++ b :: later.map fresh) := by
    rw [hmap, lookup_entry hbefore]
  have hfind : m.rawMarkers.find? (fun e => key < e.1) =
      (after.map freshEntry).find? fun e => key < e.1 := by
    rw [hmap, find_next hbefore]
  unfold advance
  simp only [hvec, hfind, hindex, getD_some, length_append, length_cons,
    length_map]
  cases later with
  | cons bytes later =>
    rw [if_pos (by simp)]
    have hsplit : vec ++ b :: (bytes :: later).map fresh =
        (vec ++ [b]) ++ some ⟨bytes, 0⟩ :: later.map fresh := by simp [fresh]
    have hread : m.buffer (key, vec.length + 1) = some ⟨bytes, 0⟩ := by
      unfold buffer
      rw [hvec, bind_some, hsplit, List.getElem?_append_right (by simp)]
      simp
    refine ⟨rfl, rfl, ?_⟩
    refine @Pending.inside _ before key (vec ++ [b]) ⟨bytes, 0⟩ later after ?_ hbefore hafter hfull
      hiter ?_ ?_ (zero_le _)
    · exact hmap.trans (by rw [hsplit])
    · simp [hread]
    · simp
  | nil =>
    rw [if_neg (by simp)]
    cases after with
    | nil => exact ⟨rfl, rfl, .done rfl⟩
    | cons e after =>
      obtain ⟨next, bodies⟩ := e
      obtain ⟨hnext, hafter⟩ := pairwise_cons.mp hafter
      have hlt : key < next := hnext next mem_cons_self
      obtain ⟨bytes, bodies, rfl⟩ :=
        exists_cons_of_ne_nil (hfull (next, bodies) mem_cons_self)
      have hsplit : m.rawMarkers = (before ++ [(key, vec ++ [b])]) ++
          (next, [] ++ some ⟨bytes, 0⟩ :: bodies.map fresh) :: after.map freshEntry := by
        rw [hmap]
        simp [freshEntry, fresh]
      have hbefore' : ∀ e ∈ before ++ [(key, vec ++ [b])], e.1 < next := by
        intro e he
        rcases mem_append.mp he with he | he
        · exact (hbefore e he).trans hlt
        · obtain rfl := mem_singleton.mp he
          exact hlt
      have hread : m.buffer (next, 0) = some ⟨bytes, 0⟩ := by
        unfold buffer
        rw [hsplit, lookup_entry hbefore']
        simp
      have hfirst : ((next, bytes :: bodies) :: after).map freshEntry =
          (next, fresh bytes :: bodies.map fresh) :: after.map freshEntry := rfl
      rw [hfirst, List.find?_cons_of_pos (by simpa using hlt)]
      refine ⟨rfl, rfl, ?_⟩
      refine @Pending.inside _ (before ++ [(key, vec ++ [b])]) next [] ⟨bytes, 0⟩ bodies after hsplit
        hbefore' hafter (fun e he => hfull e (mem_cons_of_mem _ he)) rfl ?_ rfl (zero_le _)
      simp [hread]

variable {bufs : List (List Nat)}

/-- **`pop` reads from the front of what is left.** -/
theorem Pending.pop (h : m.Pending bufs) :
    m.pop.1 = (popQueue m.packetLen bufs).1 ∧
      m.pop.2.packetLen = (popQueue m.packetLen bufs).2.1 ∧
      m.pop.2.Pending (popQueue m.packetLen bufs).2.2 := by
  cases h with
  | done hiter =>
    have hpop : m.pop = (0, m) := by
      unfold PLReader.pop
      rw [hiter]
    rw [hpop]
    exact ⟨rfl, rfl, .done hiter⟩
  | @inside before key vec b later after hmap hbefore hafter hfull hiter hbuf hindex hoffset =>
    obtain ⟨hnext, hafter'⟩ := pairwise_cons.mp hafter
    have hkeys : ∀ e ∈ after.map freshEntry, key < e.1 := by
      intro e he
      obtain ⟨e', he', rfl⟩ := mem_map.mp he
      exact hnext _ (mem_map_of_mem he')
    have hread : m.buffer (key, vec.length) = some b := by
      unfold buffer
      rw [hmap, lookup_entry hbefore]
      simp
    obtain ⟨rc, packetLen, n, hlen⟩ : ∃ rc packetLen n,
        readLength m.packetLen (b.buf.drop b.offset) = (rc, packetLen, n) := ⟨_, _, _, rfl⟩
    have hn : n ≤ (b.buf.drop b.offset).length := by
      have := readLength_le m.packetLen (b.buf.drop b.offset)
      rwa [hlen] at this
    rw [length_drop] at hn
    have hmap' : updateMarker key (fun v => v.set vec.length (some { b with offset := b.offset + n }))
        m.rawMarkers = before ++ (key, vec ++ some { b with offset := b.offset + n } ::
          later.map fresh) :: after.map freshEntry := by
      rw [hmap, updateMarker_entry _ hbefore hkeys]
      simp
    unfold PLReader.pop popQueue
    simp only [hiter, hbuf, hread, hlen, length_drop]
    by_cases hend : b.offset + n = b.buf.length
    · rw [if_pos hend, if_pos (by omega)]
      refine @advance_spec _ before key vec (some ⟨b.buf, b.offset + n⟩) later after ?_ hbefore
        hafter hfull ?_ ?_ rc
      · exact hmap'
      · rfl
      · exact hindex
    · rw [if_neg hend, if_neg (by omega), drop_drop]
      refine ⟨rfl, rfl, @Pending.inside _ before key vec { b with offset := b.offset + n } later after
        hmap' hbefore hafter hfull rfl rfl hindex ?_⟩
      show b.offset + n ≤ b.buf.length
      omega

/-- `pop` a number of times, on what is left to be read. -/
def popNQueue : Nat → Nat → List (List Nat) → List Nat
  | 0, _, _ => []
  | n + 1, packetLen, bufs =>
    let (rc, packetLen, bufs) := popQueue packetLen bufs
    rc :: popNQueue n packetLen bufs

theorem Pending.popN (h : m.Pending bufs) (n : Nat) : m.popN n = popNQueue n m.packetLen bufs := by
  induction n generalizing m bufs with
  | zero => rfl
  | succ n ih =>
    obtain ⟨hrc, hlen, hrest⟩ := h.pop
    rw [PLReader.popN, popNQueue, hrc, ih hrest, hlen]

theorem rewindVector_fresh (bodies : List (List Nat)) :
    rewindVector (bodies.map fresh) = (bodies.map fresh, true) := by
  induction bodies with
  | nil => rfl
  | cons bytes bodies ih => simp [rewindVector, fresh, ih]

theorem rewindMarkers_fresh {entries : List (Nat × List (List Nat))}
    (hfull : ∀ e ∈ entries, e.2 ≠ []) :
    rewindMarkers (entries.map freshEntry) = (entries.map freshEntry, true) := by
  induction entries with
  | nil => rfl
  | cons e entries ih =>
    have hne : ¬ (e.2.map fresh).isEmpty = true := by simpa using hfull e mem_cons_self
    rw [map_cons, freshEntry, rewindMarkers, if_neg hne, rewindVector_fresh, if_pos rfl,
      ih fun e he => hfull e (mem_cons_of_mem _ he)]

theorem rewind_pending {entries : List (Nat × List (List Nat))}
    (hmap : m.rawMarkers = entries.map freshEntry) (hne : entries ≠ [])
    (hkeys : (entries.map fst).Pairwise (· < ·)) (hfull : ∀ e ∈ entries, e.2 ≠ []) :
    m.rewind.Pending (entries.flatMap snd) ∧ m.rewind.packetLen = m.packetLen := by
  obtain ⟨⟨key, bodies⟩, after, rfl⟩ := exists_cons_of_ne_nil hne
  obtain ⟨bytes, bodies, rfl⟩ :=
    exists_cons_of_ne_nil (hfull (key, bodies) mem_cons_self)
  have hrewind : m.rewind = { m with
      currMarkerIter := some key, currMarkerBufIndex := 0, currMarkerBuf := some (key, 0) } := by
    unfold PLReader.rewind
    rw [hmap, rewindMarkers_fresh hfull, ← hmap]
    rw [hmap]
    rfl
  rw [hrewind]
  refine ⟨@Pending.inside _ [] key [] ⟨bytes, 0⟩ bodies after ?_ (by simp) hkeys
    (fun e he => hfull e (mem_cons_of_mem _ he)) rfl rfl rfl (zero_le _), rfl⟩
  exact hmap

section Lengths

open PLMarker (commas plBytes commas_append)

theorem mul_or_of_lt (a : Nat) {d : Nat} (hd : d < 128) : a * 128 ||| d = a * 128 + d := by
  have h := shiftLeft_add_eq_or_of_lt (by omega : d < 2 ^ 7) a
  rw [shiftLeft_eq] at h
  exact h.symm

/-- One byte with a comma bit, where the bits gathered so far are not all zero. -/
theorem readLength_comma {a d : Nat} (hd : d < 128) (hpos : 0 < a * 128 + d)
    (hlt : (a * 128 + d) * 128 < 2 ^ 32) (bs : List Nat) :
    readLength (a * 128) ((d + 128) :: bs) =
      ((readLength ((a * 128 + d) * 128) bs).1, (readLength ((a * 128 + d) * 128) bs).2.1,
        (readLength ((a * 128 + d) * 128) bs).2.2 + 1) := by
  have hmod : (d + 128) % 128 = d := by omega
  have hshift : u32 ((a * 128 + d) <<< 7) = (a * 128 + d) * 128 := by
    rw [shiftLeft_eq, u32_of_lt hlt]
  rw [readLength]
  simp only [hmod, mul_or_of_lt a hd, hshift]
  rw [if_neg (by omega), if_neg (by omega)]

theorem readLength_commas {n len : Nat} (hlen : len < 128 ^ n) (hpos : 0 < len)
    (hlt : len * 128 < 2 ^ 32) (temp : List Nat) :
    readLength 0 (commas n len temp) = ((readLength (len * 128) temp).1,
      (readLength (len * 128) temp).2.1,
      (readLength (len * 128) temp).2.2 + (commas n len []).length) := by
  induction n generalizing len temp with
  | zero =>
    omega
  | succ n ih =>
    have hshift := shiftRight_eq_div_pow len 7
    have hdigit : len / 128 * 128 + len % 128 = len := by omega
    have hcomma := readLength_comma (by omega : len % 128 < 128)
      (by omega : 0 < len / 128 * 128 + len % 128) (by omega) temp
    rw [hdigit] at hcomma
    unfold commas
    rw [if_neg hpos.ne', if_neg hpos.ne', hshift]
    by_cases htop : len / 128 = 0
    · have hone (t : List Nat) : commas n 0 t = t := by cases n <;> rfl
      rw [htop, Nat.zero_mul] at hcomma
      rw [htop, hone, hone, hcomma]
      rfl
    · rw [ih (by rw [Nat.pow_succ] at hlen; omega) (by omega) (by omega), hcomma]
      have happ := commas_append n (len / 128) [] [len % 128 + 128]
      rw [nil_append] at happ
      rw [happ, length_append, length_singleton, Nat.add_right_comm, Nat.add_assoc]

theorem readLength_plBytes {len : Nat} (hpos : 0 < len) (hlt : len < 2 ^ 32) (rest : List Nat) :
    readLength 0 (plBytes len ++ rest) = (len, 0, (plBytes len).length) := by
  have hshift := shiftRight_eq_div_pow len 7
  have hdigit : len / 128 * 128 + len % 128 = len := by omega
  have hlast : readLength (len / 128 * 128) (len % 128 :: rest) = (len, 0, 1) := by
    rw [readLength]
    have hmod : len % 128 < 128 := by omega
    simp only [mod_mod, mul_or_of_lt _ hmod, hdigit]
    rw [if_pos hmod]
  have happ := commas_append 4 (len / 128) [] [len % 128]
  rw [nil_append] at happ
  rw [plBytes, hshift, ← commas_append, singleton_append]
  by_cases htop : len / 128 = 0
  · rw [htop, Nat.zero_mul] at hlast
    rw [htop]
    exact hlast
  · rw [readLength_commas (by omega) (by omega) (by omega), hlast, happ, length_append,
      length_singleton, Nat.add_comm]

theorem plBytes_ne_nil (len : Nat) : plBytes len ≠ [] := by
  have happ := commas_append 4 (len >>> 7) [] [len % 128]
  rw [nil_append] at happ
  rw [plBytes, happ]
  simp

theorem popNQueue_body {lens : List Nat} (hlens : ∀ l ∈ lens, 0 < l ∧ l < 2 ^ 32) (hne : lens ≠ [])
    (n : Nat) (bufs : List (List Nat)) :
    popNQueue (lens.length + n) 0 (lens.flatMap plBytes :: bufs) = lens ++ popNQueue n 0 bufs := by
  induction lens with
  | nil => exact absurd rfl hne
  | cons l lens ih =>
    obtain ⟨hpos, hlt⟩ := hlens l mem_cons_self
    have hpop : popQueue 0 ((l :: lens).flatMap plBytes :: bufs) =
        (l, 0, if lens = [] then bufs else lens.flatMap plBytes :: bufs) := by
      rw [flatMap_cons, popQueue, readLength_plBytes hpos hlt]
      simp only [length_append, drop_left, Nat.left_eq_add]
      by_cases hnil : lens = []
      · rw [if_pos (by rw [hnil]; rfl), if_pos hnil]
      · have hbytes : (lens.flatMap plBytes).length ≠ 0 := by
          obtain ⟨l', lens', rfl⟩ := exists_cons_of_ne_nil hnil
          have := length_pos_iff.mpr (plBytes_ne_nil l')
          rw [flatMap_cons, length_append]
          omega
        rw [if_neg hbytes, if_neg hnil]
    have hcount : (l :: lens).length + n = lens.length + n + 1 := by
      rw [length_cons]
      omega
    rw [hcount, popNQueue, hpop]
    by_cases hnil : lens = []
    · subst hnil
      simp
    · simp only [if_neg hnil]
      rw [ih (fun l hl => hlens l (mem_cons_of_mem _ hl)) hnil]
      rfl

/-- **All lengths are popped in the order of the bodies.** -/
theorem popNQueue_bodies {bodies : List (List Nat)}
    (hbodies : ∀ lens ∈ bodies, lens ≠ [] ∧ ∀ l ∈ lens, 0 < l ∧ l < 2 ^ 32) :
    popNQueue bodies.flatten.length 0 (bodies.map fun lens => lens.flatMap plBytes) =
      bodies.flatten := by
  induction bodies with
  | nil => rfl
  | cons lens bodies ih =>
    obtain ⟨hne, hlens⟩ := hbodies lens mem_cons_self
    rw [flatten_cons, length_append, map_cons, popNQueue_body hlens hne,
      ih fun ls hls => hbodies ls (mem_cons_of_mem _ hls)]

end Lengths

end PLReader

end GrokCodec.Codestream
