import GrokCodec.Codestream.PLReader

/-!
From the packet lengths of a tile to its PLT markers and back. The reader files the markers by
index and, within one index, by tile part; with one tile part it hands the lengths out in order.
-/

namespace GrokCodec.Codestream

open List

open PLMarker (plBytes)

/-- The body of the PLT marker with index `j` that lists `lens`. -/
def pltBody (j : Nat) (lens : List Nat) : List Nat := j % 256 :: lens.flatMap plBytes

/-- The bodies of the PLT markers of a tile part, the first with index `j`. -/
def bodiesFrom : Nat → List (List Nat) → List (List Nat)
  | _, [] => []
  | j, lens :: markers => pltBody j lens :: bodiesFrom (j + 1) markers

theorem length_bodiesFrom (j : Nat) (markers : List (List Nat)) :
    (bodiesFrom j markers).length = markers.length := by
  induction markers generalizing j with
  | nil => rfl
  | cons lens markers ih => rw [bodiesFrom, length_cons, length_cons, ih]

theorem bodiesFrom_append (j : Nat) (as bs : List (List Nat)) :
    bodiesFrom j (as ++ bs) = bodiesFrom j as ++ bodiesFrom (j + as.length) bs := by
  induction as generalizing j with
  | nil => rfl
  | cons lens as ih =>
    rw [cons_append, bodiesFrom, bodiesFrom, ih, cons_append, length_cons,
      Nat.add_assoc, Nat.add_comm 1]

namespace PLMarker

/-- The segments of a final marker, by the lengths each of them lists. -/
structure Lists (m : PLMarker) (markers : List (List Nat)) : Prop where
  isFinal : m.isFinal = true
  rawMarkers : m.rawMarkers = (bodiesFrom 0 markers).reverse
  nonempty : ∀ lens ∈ markers, lens ≠ []

theorem Lists.pushPL {m : PLMarker} {markers : List (List Nat)} (h : m.Lists markers) (len : Nat) :
    ∃ markers', (m.pushPL len).Lists markers' ∧ markers'.flatten = markers.flatten ++ [len] := by
  have hlast (ms : List (List Nat)) (ls : List Nat) :
      (bodiesFrom 0 (ms ++ [ls])).reverse = pltBody ms.length ls :: (bodiesFrom 0 ms).reverse := by
    rw [bodiesFrom_append, Nat.zero_add]
    simp [bodiesFrom]
  have hnew : ∀ (m' : PLMarker), m'.isFinal = true →
      m'.rawMarkers = ((m.rawMarkers.length % 256) :: plBytes len) :: m.rawMarkers →
      ∃ markers', m'.Lists markers' ∧ markers'.flatten = markers.flatten ++ [len] := by
    intro m' hfinal hraw
    refine ⟨markers ++ [[len]], ⟨hfinal, ?_, ?_⟩, by simp⟩
    · rw [hlast, hraw, h.rawMarkers, length_reverse, length_bodiesFrom]
      simp [pltBody]
    · intro lens hlens
      rcases mem_append.mp hlens with hlens | hlens
      · exact h.nonempty lens hlens
      · simp [mem_singleton.mp hlens]
  unfold PLMarker.pushPL
  simp only [h.isFinal, if_true]
  cases hraw : m.rawMarkers with
  | nil => exact hnew _ rfl (by simp [hraw])
  | cons current older =>
    by_cases hroom : current.length + numBytes len > plWriteBufferLen
    · exact hnew _ (by simp [hroom]) (by simp [hroom, hraw])
    · -- the last segment lists one length more
      obtain ⟨ms, ls, rfl⟩ : ∃ ms ls, markers = ms ++ [ls] := by
        refine ⟨markers.dropLast, markers.getLast ?_, (dropLast_append_getLast _).symm⟩
        rintro rfl
        rw [h.rawMarkers] at hraw
        cases hraw
      have hsplit := h.rawMarkers
      rw [hlast, hraw] at hsplit
      obtain ⟨rfl, rfl⟩ := List.cons.inj hsplit
      refine ⟨ms ++ [ls ++ [len]], ⟨?_, ?_, ?_⟩, by simp⟩
      · simp [hroom, h.isFinal]
      · have hbody : pltBody ms.length (ls ++ [len]) = pltBody ms.length ls ++ plBytes len := by
          simp [pltBody]
        rw [hlast, hbody]
        simp [hroom, hraw, h.isFinal]
      · intro lens hlens
        rcases mem_append.mp hlens with hlens | hlens
        · exact h.nonempty lens (mem_append_left _ hlens)
        · simp [mem_singleton.mp hlens]

theorem pushAll_lists (lens : List Nat) :
    ∃ markers, (pushAll lens).Lists markers ∧ markers.flatten = lens := by
  have hfold (ls : List Nat) (m : PLMarker) (markers : List (List Nat)) (h : m.Lists markers) :
      ∃ markers', (ls.foldl PLMarker.pushPL m).Lists markers' ∧
        markers'.flatten = markers.flatten ++ ls := by
    induction ls generalizing m markers with
    | nil => exact ⟨markers, h, by simp⟩
    | cons l ls ih =>
      obtain ⟨markers', h', hflat⟩ := h.pushPL l
      obtain ⟨markers'', h'', hflat'⟩ := ih _ _ h'
      exact ⟨markers'', h'', by rw [hflat', hflat]; simp⟩
  obtain ⟨markers, h, hflat⟩ := hfold lens {} [] ⟨rfl, rfl, by simp⟩
  exact ⟨markers, h, by simpa using hflat⟩

end PLMarker

namespace PLReader

/-- A map whose keys are the positions of its entries. -/
def keyedFrom {α : Type} : Nat → List α → List (Nat × α)
  | _, [] => []
  | k, vec :: cols => (k, vec) :: keyedFrom (k + 1) cols

section Keyed

variable {α : Type}

variable (k : Nat)

theorem length_keyedFrom (cols : List α) : (keyedFrom k cols).length = cols.length := by
  induction cols generalizing k with
  | nil => rfl
  | cons vec cols ih => rw [keyedFrom, length_cons, length_cons, ih]

theorem keyedFrom_append (as bs : List α) :
    keyedFrom k (as ++ bs) = keyedFrom k as ++ keyedFrom (k + as.length) bs := by
  induction as generalizing k with
  | nil => rfl
  | cons vec as ih =>
    rw [cons_append, keyedFrom, keyedFrom, ih, cons_append, length_cons]
    congr 3
    omega

theorem mem_keyedFrom {k : Nat} {cols : List α} {e : Nat × α}
    (h : e ∈ keyedFrom k cols) : k ≤ e.1 ∧ e.1 < k + cols.length := by
  induction cols generalizing k with
  | nil => cases h
  | cons vec cols ih =>
    rcases mem_cons.mp h with rfl | h
    · exact ⟨Nat.le_refl _, by simp⟩
    · have := ih h
      rw [length_cons]
      omega

theorem keyedFrom_map {β : Type} (f : α → β) (k : Nat) (cols : List α) :
    keyedFrom k (cols.map f) = (keyedFrom k cols).map fun e => (e.1, f e.2) := by
  induction cols generalizing k with
  | nil => rfl
  | cons vec cols ih => rw [map_cons, keyedFrom, keyedFrom, map_cons, ih]

theorem map_snd_keyedFrom (cols : List α) : (keyedFrom k cols).map Prod.snd = cols := by
  induction cols generalizing k with
  | nil => rfl
  | cons vec cols ih => rw [keyedFrom, map_cons, ih]

theorem keyedFrom_sorted (cols : List α) : ((keyedFrom k cols).map Prod.fst).Pairwise (· < ·) := by
  induction cols generalizing k with
  | nil => exact .nil
  | cons vec cols ih =>
    rw [keyedFrom, map_cons, pairwise_cons]
    refine ⟨fun key hkey => ?_, ih (k + 1)⟩
    obtain ⟨e, he, rfl⟩ := mem_map.mp hkey
    exact (mem_keyedFrom he).1

end Keyed

theorem insertMarker_last {key : Nat} {es : List (Nat × RawPLMarker)} (h : ∀ e ∈ es, e.1 < key) :
    insertMarker key es = es ++ [(key, [])] := by
  induction es with
  | nil => rfl
  | cons e es ih =>
    have hlt := h e mem_cons_self
    rw [insertMarker, if_neg (by omega), ih fun e he => h e (mem_cons_of_mem _ he),
      cons_append]

/-- A reader before `rewind`, with the given columns. -/
structure Filed (m : PLReader) (cols : List RawPLMarker) : Prop where
  rawMarkers : m.rawMarkers = keyedFrom 0 cols
  packetLen : m.packetLen = 0
  currMarkerBuf : m.currMarkerBuf = none

theorem Filed.init : Filed {} [] := ⟨rfl, rfl, rfl⟩

variable {m : PLReader} {cols : List RawPLMarker} (h : m.Filed cols)

include h

theorem Filed.any_key (key : Nat) :
    m.rawMarkers.any (fun e => e.1 = key) = decide (key < cols.length) := by
  have hall (k : Nat) (cols : List RawPLMarker) :
      (keyedFrom k cols).any (fun e => e.1 = key) = decide (k ≤ key ∧ key < k + cols.length) := by
    induction cols generalizing k with
    | nil =>
      simp [keyedFrom]
    | cons vec cols ih =>
      rw [keyedFrom, any_cons, ih, Bool.eq_iff_iff]
      simp only [Bool.or_eq_true, decide_eq_true_eq, length_cons]
      omega
  rw [h.rawMarkers, hall]
  simp

theorem Filed.insert : insertMarker cols.length m.rawMarkers = keyedFrom 0 (cols ++ [[]]) := by
  rw [h.rawMarkers, insertMarker_last, keyedFrom_append, Nat.zero_add]
  · rfl
  · intro e he
    have := mem_keyedFrom he
    omega

theorem Filed.length : m.rawMarkers.length = cols.length := by
  rw [h.rawMarkers, length_keyedFrom]

variable {z : Nat} {seq : Bool}

theorem Filed.findMarker {key : Nat} (hseq : m.staysSequential z = seq)
    (hkey : m.markerKey z = key) (hok : cols.length ≤ 256 ∨ m.sequential = false ∨ seq = true)
    (hle : key ≤ cols.length) :
    m.findMarker z = some { m with
      rawMarkers := if key < cols.length then m.rawMarkers else keyedFrom 0 (cols ++ [[]])
      sequential := seq, currMarkerIter := some key } := by
  have hguard : ¬ (cols.length > 256 ∧ m.sequential = true ∧ seq = false) := by
    rintro ⟨h1, h2, h3⟩
    rcases hok with hok | hok | hok
    · omega
    · simp [h2] at hok
    · simp [h3] at hok
  unfold PLReader.findMarker
  simp only [hseq, hkey, h.length, h.any_key, guard, hguard, not_false_eq_true, if_true,
    decide_eq_true_eq]
  by_cases hlt : key < cols.length
  · simp only [hlt, if_true]
    rfl
  · obtain rfl : key = cols.length := by omega
    simp only [hlt, if_false, h.insert]
    rfl

theorem Filed.staysSequential (z : Nat) :
    m.staysSequential z =
      if cols = [] then decide (z = 0) else m.sequential && decide (cols.length % 256 = z) := by
  unfold PLReader.staysSequential
  rw [h.length]
  simp

theorem Filed.markerKey (z : Nat) :
    m.markerKey z =
      if cols ≠ [] ∧ m.staysSequential z = true then cols.length else z := by
  unfold PLReader.markerKey
  rw [h.length]
  simp

/-- An index that follows on from the markers so far. -/
theorem Filed.findMarker_next (hseq : cols = [] ∨ m.sequential = true) :
    m.findMarker (cols.length % 256) = some { m with
      rawMarkers := keyedFrom 0 (cols ++ [[]]), sequential := true
      currMarkerIter := some cols.length } := by
  have hstays : m.staysSequential (cols.length % 256) = true := by
    rw [h.staysSequential]
    by_cases hnil : cols = []
    · simp [hnil]
    · simp [hnil, hseq.resolve_left hnil]
  have hkey : m.markerKey (cols.length % 256) = cols.length := by
    rw [h.markerKey, hstays]
    by_cases hnil : cols = [] <;> simp [hnil]
  rw [h.findMarker hstays hkey (.inr (.inr rfl)) (Nat.le_refl _), if_neg (Nat.lt_irrefl _)]

/-- An index that has been used before; the markers do not count on from here. -/
theorem Filed.findMarker_old (hz : z < cols.length) (hfew : cols.length ≤ 255) :
    m.findMarker z = some { m with sequential := false, currMarkerIter := some z } := by
  have hnil : cols ≠ [] := ne_nil_of_length_pos (by omega)
  have hmod : cols.length % 256 ≠ z := by omega
  have hstays : m.staysSequential z = false := by simp [h.staysSequential, hnil, hmod]
  have hkey : m.markerKey z = z := by simp [h.markerKey, hstays]
  rw [h.findMarker hstays hkey (.inl (by omega)) (by omega), if_pos hz]

/-- The index after the last one, where the markers do not count on. -/
theorem Filed.findMarker_end (hseq : m.sequential = false) (hne : cols ≠ []) :
    m.findMarker cols.length = some { m with
      rawMarkers := keyedFrom 0 (cols ++ [[]]), sequential := false
      currMarkerIter := some cols.length } := by
  have hstays : m.staysSequential cols.length = false := by simp [h.staysSequential, hne, hseq]
  have hkey : m.markerKey cols.length = cols.length := by simp [h.markerKey, hstays]
  rw [h.findMarker hstays hkey (.inr (.inl hseq)) (Nat.le_refl _), if_neg (Nat.lt_irrefl _)]

theorem Filed.findMarker_broken (hseq : m.sequential = true) (hmany : 256 < cols.length)
    (hz : cols.length % 256 ≠ z) : m.findMarker z = none := by
  have hnil : cols ≠ [] := ne_nil_of_length_pos (by omega)
  have hstays : m.staysSequential z = false := by simp [h.staysSequential, hnil, hz]
  unfold PLReader.findMarker
  simp only [hstays, h.length, hseq, hmany, and_self, not_true_eq_false, guard, if_false]
  rfl

omit h

variable {vec : RawPLMarker}

theorem addNewMarker_eq {m : PLReader} {before after : List RawPLMarker}
    (hmap : m.rawMarkers = keyedFrom 0 (before ++ vec :: after))
    (hiter : m.currMarkerIter = some before.length) (data : List Nat) (tilePart : Int) :
    m.addNewMarker data tilePart = (placeBuffer ⟨data, 0⟩ tilePart vec).map fun vec' =>
      { m with rawMarkers := keyedFrom 0 (before ++ vec' :: after) } := by
  have hsplit (v : RawPLMarker) : keyedFrom 0 (before ++ v :: after) =
      keyedFrom 0 before ++ (before.length, v) :: keyedFrom (before.length + 1) after := by
    rw [keyedFrom_append, keyedFrom, Nat.zero_add]
  have hbefore : ∀ e ∈ keyedFrom 0 before, e.1 < before.length := by
    intro e he
    have := mem_keyedFrom he
    omega
  have hafter : ∀ e ∈ keyedFrom (before.length + 1) after, before.length < e.1 := by
    intro e he
    have := mem_keyedFrom he
    omega
  unfold addNewMarker
  simp only [hiter, hmap, hsplit, lookup_entry hbefore, Option.bind_eq_bind, Option.bind_some,
    updateMarker_entry _ hbefore hafter]
  cases placeBuffer ⟨data, 0⟩ tilePart vec <;> rfl

theorem placeBuffer_eq (b : Buffer8) {i : Nat} (h : vec.length ≤ i) :
    placeBuffer b i vec = some (vec ++ List.replicate (i - vec.length) none ++ [some b]) := by
  have hlen : (vec ++ List.replicate (i - vec.length) none).length = i := by
    rw [length_append, length_replicate]
    omega
  have hpad : vec ++ List.replicate (i + 1 - vec.length) none =
      vec ++ List.replicate (i - vec.length) none ++ [none] := by
    rw [show i + 1 - vec.length = i - vec.length + 1 by omega, replicate_succ', append_assoc]
  unfold placeBuffer
  rw [if_neg (by omega), if_neg (by omega), Int.toNat_natCast]
  have hget : (vec ++ List.replicate (i - vec.length) none ++ [none])[i]? = some none := by
    rw [List.getElem?_append_right (by omega), hlen, Nat.sub_self]
    rfl
  have hset : (vec ++ List.replicate (i - vec.length) none ++ [none]).set i (some b) =
      vec ++ List.replicate (i - vec.length) none ++ [some b] := by
    rw [set_append_right _ _ (by omega), hlen, Nat.sub_self]
    rfl
  simp only [hpad, hget, hset]

variable {lens : List Nat}

theorem readPLT_cons (m : PLReader) (j : Nat) (hne : lens ≠ []) (tilePart : Int) :
    m.readPLT (pltBody j lens) tilePart =
      (m.findMarker (j % 256)).bind fun m => m.addNewMarker (lens.flatMap plBytes) tilePart := by
  obtain ⟨l, lens, rfl⟩ := exists_cons_of_ne_nil hne
  obtain ⟨b, bs, hb⟩ := exists_cons_of_ne_nil (plBytes_ne_nil l)
  rw [pltBody, flatMap_cons, hb]
  rfl

variable {tilePart : Int}

theorem Filed.readPLT (h : m.Filed cols) {j : Nat} (hne : lens ≠ [])
    {before after : List RawPLMarker} (hfind : m.findMarker (j % 256) = some { m with
      rawMarkers := keyedFrom 0 (before ++ vec :: after), sequential := seq
      currMarkerIter := some before.length }) {vec' : RawPLMarker}
    (hplace : placeBuffer ⟨lens.flatMap plBytes, 0⟩ tilePart vec = some vec') :
    ∃ m', m.readPLT (pltBody j lens) tilePart = some m' ∧ m'.Filed (before ++ vec' :: after) ∧
      m'.sequential = seq := by
  rw [readPLT_cons m j hne, hfind, Option.bind_some, addNewMarker_eq rfl rfl, hplace]
  exact ⟨_, rfl, ⟨rfl, h.packetLen, h.currMarkerBuf⟩, rfl⟩

/-- The body of a marker as it is kept. -/
def kept (lens : List Nat) : Option Buffer8 := fresh (lens.flatMap plBytes)

theorem Filed.readPLTs_first (htp : tilePart = -1 ∨ tilePart = 0) {markers : List (List Nat)}
    (hne : ∀ lens ∈ markers, lens ≠ []) {m : PLReader} {cols : List RawPLMarker}
    (h : m.Filed cols) (hseq : cols = [] ∨ m.sequential = true) :
    ∃ m', m.readPLTs ((bodiesFrom cols.length markers).map fun body => (tilePart, body)) = some m' ∧
      m'.Filed (cols ++ markers.map fun lens => [kept lens]) ∧
      (cols ++ markers.map (fun lens => [kept lens]) = [] ∨ m'.sequential = true) := by
  induction markers generalizing m cols with
  | nil => exact ⟨m, rfl, by simpa using h, by simpa using hseq⟩
  | cons lens markers ih =>
    have hplace : placeBuffer ⟨lens.flatMap plBytes, 0⟩ tilePart [] = some [kept lens] := by
      rcases htp with rfl | rfl <;> rfl
    obtain ⟨m', hread, hfiled, hm'⟩ := h.readPLT (hne lens mem_cons_self)
      (h.findMarker_next hseq) hplace
    obtain ⟨m'', hreads, hfiled', hseq'⟩ := ih (fun ls hls => hne ls (mem_cons_of_mem _ hls))
      hfiled (.inr hm')
    refine ⟨m'', ?_, by simpa using hfiled', by simpa using hseq'⟩
    rw [length_append, length_singleton] at hreads
    rw [bodiesFrom, map_cons, readPLTs, hread]
    exact hreads

theorem Filed.popN {L : List (List (List Nat))} (h : m.Filed (L.map fun c => c.map kept))
    (hne : ∀ c ∈ L, c ≠ []) (hlens : ∀ c ∈ L, ∀ lens ∈ c, lens ≠ [] ∧ ∀ l ∈ lens, 0 < l ∧ l < 2 ^ 32) :
    m.rewind.popN L.flatten.flatten.length = L.flatten.flatten := by
  by_cases hL : L = []
  · rw [hL]
    rfl
  obtain ⟨entries, hentries⟩ : ∃ entries, entries =
      keyedFrom 0 (L.map fun c => c.map fun lens => lens.flatMap plBytes) := ⟨_, rfl⟩
  have hmap : m.rawMarkers = entries.map freshEntry := by
    rw [h.rawMarkers, hentries, keyedFrom_map, keyedFrom_map, map_map]
    refine map_congr_left fun e _ => ?_
    simp [freshEntry, kept]
  have hbodies : entries.map Prod.snd = L.map fun c => c.map fun lens => lens.flatMap plBytes := by
    rw [hentries, map_snd_keyedFrom]
  have hfull : ∀ e ∈ entries, e.2 ≠ [] := by
    intro e he
    have hmem : e.2 ∈ entries.map Prod.snd := mem_map_of_mem he
    rw [hbodies] at hmem
    obtain ⟨c, hc, hce⟩ := mem_map.mp hmem
    rw [← hce]
    simpa using hne c hc
  have hnil : entries ≠ [] := by
    intro hnil
    rw [hnil] at hbodies
    exact hL (map_eq_nil_iff.mp hbodies.symm)
  obtain ⟨hpending, hlen⟩ := rewind_pending hmap hnil (hentries ▸ keyedFrom_sorted 0 _) hfull
  have hqueue : entries.flatMap Prod.snd = L.flatten.map fun lens => lens.flatMap plBytes := by
    rw [flatMap_def, hbodies, map_flatten]
  rw [hpending.popN, hlen, h.packetLen, hqueue]
  refine popNQueue_bodies fun lens hmem => ?_
  obtain ⟨c, hc, hlens'⟩ := mem_flatten.mp hmem
  exact hlens c hc lens hlens'

end PLReader

end GrokCodec.Codestream
