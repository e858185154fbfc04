import GrokCodec.Codestream.PLOrder

/-!
PLT markers of several tile parts. The reader hands the lengths out by marker index and only then
by tile part, and it gives up if a tile part is missing from the middle of an index; this is
codestream order under conditions only.
-/

namespace GrokCodec.Codestream.PLReader

open List PLReader Nat
open Option (bind_eq_some_iff some)

open PLMarker (plBytes)

/-- A column in which a tile part before the `i`-th is missing. -/
structure Gap (m : PLReader) (i : Nat) : Prop where
  sorted : (m.rawMarkers.map Prod.fst).Pairwise (· < ·)
  missing : ∃ e ∈ m.rawMarkers, ∃ p < i, e.2[p]? = some none

variable {es : List (Nat × RawPLMarker)}

variable {e : Nat × RawPLMarker}

theorem mem_insertMarker {key : Nat} : e ∈ insertMarker key es ↔ e = (key, []) ∨ e ∈ es := by
  induction es with
  | nil => simp [insertMarker]
  | cons e' es ih =>
    unfold insertMarker
    split
    · simp
    · simp only [mem_cons, ih]
      tauto

theorem insertMarker_sorted {key : Nat}
    (hsorted : (es.map Prod.fst).Pairwise (· < ·)) (hnew : ∀ e ∈ es, e.1 ≠ key) :
    ((insertMarker key es).map Prod.fst).Pairwise (· < ·) := by
  rw [pairwise_map] at hsorted ⊢
  induction es with
  | nil => simp [insertMarker]
  | cons e es ih =>
    obtain ⟨hfirst, hrest⟩ := pairwise_cons.mp hsorted
    have hne := hnew e mem_cons_self
    unfold insertMarker
    split
    case isTrue hlt =>
      refine pairwise_cons.mpr ⟨fun e' he' => ?_, hsorted⟩
      rcases mem_cons.mp he' with rfl | he'
      · exact hlt
      · exact hlt.trans (hfirst e' he')
    case isFalse hge =>
      refine pairwise_cons.mpr ⟨fun e' he' => ?_,
        ih hrest fun e he => hnew e (mem_cons_of_mem _ he)⟩
      rcases mem_insertMarker.mp he' with rfl | he'
      · show e.1 < key
        omega
      · exact hfirst e' he'

theorem lookup_of_mem (hsorted : (es.map Prod.fst).Pairwise (· < ·)) (he : e ∈ es) :
    es.lookup e.1 = some e.2 := by
  obtain ⟨before, after, rfl⟩ := append_of_mem he
  rw [map_append, map_cons, pairwise_append] at hsorted
  exact lookup_entry fun e' he' => hsorted.2.2 _ (mem_map_of_mem he') _ mem_cons_self

variable {m m' : PLReader}

theorem findMarker_inv {z : Nat} (h : m.findMarker z = some m') :
    m'.currMarkerBuf = m.currMarkerBuf ∧ ∃ key, m'.currMarkerIter = some key ∧
      (m'.rawMarkers = m.rawMarkers ∨
        (∀ e ∈ m.rawMarkers, e.1 ≠ key) ∧ m'.rawMarkers = insertMarker key m.rawMarkers) := by
  obtain ⟨-, -, hm'⟩ := bind_eq_some_iff.mp h
  obtain rfl := some.inj hm'
  refine ⟨rfl, _, rfl, ?_⟩
  generalize m.markerKey z = key
  by_cases hany : m.rawMarkers.any (fun e => decide (e.1 = key)) = true
  · exact .inl (if_pos hany)
  · refine .inr ⟨fun e he hkey => hany ?_, if_neg hany⟩
    exact any_eq_true.mpr ⟨e, he, by simpa using hkey⟩

variable {tilePart : Int}

theorem addNewMarker_inv {data : List Nat} (h : m.addNewMarker data tilePart = some m') :
    m'.currMarkerBuf = m.currMarkerBuf ∧ ∃ key vec vec', m.currMarkerIter = some key ∧
      m.rawMarkers.lookup key = some vec ∧ placeBuffer ⟨data, 0⟩ tilePart vec = some vec' ∧
      m'.rawMarkers = updateMarker key (fun _ => vec') m.rawMarkers := by
  obtain ⟨key, hkey, h⟩ := bind_eq_some_iff.mp h
  obtain ⟨vec, hvec, h⟩ := bind_eq_some_iff.mp h
  obtain ⟨vec', hplace, heq⟩ := bind_eq_some_iff.mp h
  obtain rfl := some.inj heq
  exact ⟨rfl, key, vec, vec', hkey, hvec, hplace, rfl⟩

theorem readPLT_inv {body : List Nat} (h : m.readPLT body tilePart = some m') :
    ∃ z data m₁, body = z :: data ∧ data ≠ [] ∧ m.findMarker z = some m₁ ∧
      m₁.addNewMarker data tilePart = some m' := by
  match body, h with
  | z :: b :: bs, h =>
    obtain ⟨m₁, hfind, hadd⟩ := bind_eq_some_iff.mp h
    exact ⟨z, b :: bs, m₁, rfl, by simp, hfind, hadd⟩

variable {k : Nat} {vec : RawPLMarker}

variable {p : Nat}

/-- What is in its place stays there when a later tile part comes. -/
theorem getElem_placeBuffer {b : Buffer8} {vec' : RawPLMarker} {o : Option Buffer8}
    (h : placeBuffer b k vec = some vec') (hp : p < k) (hvec : vec[p]? = some o) :
    vec'[p]? = some o := by
  have hlt := (List.getElem?_eq_some_iff.mp hvec).1
  unfold placeBuffer at h
  rw [if_neg (by omega), if_neg (by omega), Int.toNat_natCast] at h
  simp only at h
  split at h
  case h_1 =>
    obtain rfl := some.inj h
    rw [List.getElem?_set_ne (by omega), List.getElem?_append_left hlt, hvec]
  case h_2 => cases h

variable {i : Nat}

theorem Gap.readPLT (h : m.Gap i) (hik : i ≤ k) {body : List Nat}
    (hread : m.readPLT body k = some m') : m'.Gap i := by
  obtain ⟨z, data, m₁, -, -, hfind, hadd⟩ := readPLT_inv hread
  obtain ⟨-, key, hkey, hmap⟩ := findMarker_inv hfind
  obtain ⟨-, key', vec, vec', hkey', hvec, hplace, hmap'⟩ := addNewMarker_inv hadd
  obtain rfl : key = key' := by simpa [hkey] using hkey'
  obtain ⟨e, he, p, hp, hmissing⟩ := h.missing
  have hsorted : (m₁.rawMarkers.map Prod.fst).Pairwise (· < ·) ∧ e ∈ m₁.rawMarkers := by
    rcases hmap with hmap | ⟨hnew, hmap⟩
    · rw [hmap]
      exact ⟨h.sorted, he⟩
    · rw [hmap]
      exact ⟨insertMarker_sorted h.sorted hnew, mem_insertMarker.mpr (.inr he)⟩
  have hkeys : m'.rawMarkers.map Prod.fst = m₁.rawMarkers.map Prod.fst := by
    rw [hmap', updateMarker, map_map]
    refine map_congr_left fun e _ => ?_
    by_cases hke : e.1 = key <;> simp [hke]
  refine ⟨hkeys ▸ hsorted.1, ?_⟩
  have hmem := mem_map_of_mem (f := fun e : Nat × RawPLMarker =>
    if e.1 = key then (e.1, vec') else e) hsorted.2
  refine ⟨_, by rw [hmap']; exact hmem, p, hp, ?_⟩
  by_cases hke : e.1 = key
  · rw [if_pos hke]
    have hlook := lookup_of_mem hsorted.1 hsorted.2
    rw [hke, hvec] at hlook
    obtain rfl := some.inj hlook
    exact getElem_placeBuffer hplace (by omega) hmissing
  · rw [if_neg hke]
    exact hmissing

/-- A reader with a gap is disabled by `rewind` and has no length to give. -/
theorem Gap.popN (h : m.Gap i) (hbuf : m.currMarkerBuf = none) (n : Nat) :
    m.rewind.popN n = List.replicate n 0 := by
  have hvector (vec : RawPLMarker) (hvec : none ∈ vec) : (rewindVector vec).2 = false := by
    induction vec with
    | nil => cases hvec
    | cons b vec ih =>
      cases b with
      | none => rfl
      | some b => exact ih (by simpa using hvec)
  have hmarkers (es : List (Nat × RawPLMarker)) (hes : ∃ e ∈ es, none ∈ e.2) :
      (rewindMarkers es).2 = false := by
    induction es with
    | nil => simp at hes
    | cons e es ih =>
      obtain ⟨e', he', hmem⟩ := hes
      unfold rewindMarkers
      split
      · rfl
      · rcases mem_cons.mp he' with rfl | he'
        · rw [hvector e'.2 hmem]
          rfl
        · split
          · exact ih ⟨e', he', hmem⟩
          · rfl
  obtain ⟨e, he, p, -, hmissing⟩ := h.missing
  have hstop := hmarkers m.rawMarkers ⟨e, he, mem_of_getElem? hmissing⟩
  have hnone : m.rewind.currMarkerBuf = none := by
    unfold rewind
    split
    · exact hbuf
    · simp only [hstop, Bool.false_eq_true, if_false]
      exact hbuf
  have hpop : m.rewind.pop = (0, m.rewind) := by
    unfold pop
    rw [hnone]
    cases m.rewind.currMarkerIter <;> rfl
  induction n with
  | zero => rfl
  | succ n ih => rw [PLReader.popN, hpop, ih, replicate_succ]

theorem readPLTs_append (m : PLReader) (xs ys : List (Int × List Nat)) :
    m.readPLTs (xs ++ ys) = (m.readPLTs xs).bind fun m => m.readPLTs ys := by
  induction xs generalizing m with
  | nil => rfl
  | cons x xs ih =>
    rw [cons_append, readPLTs, readPLTs]
    cases m.readPLT x.2 x.1 with
    | none => rfl
    | some m' => exact ih m'

/-- The PLT markers of the tile parts from number `i` on, as they come to `readPLT`. -/
def partsFrom : Nat → List (List (List Nat)) → List (Int × List Nat)
  | _, [] => []
  | i, markers :: parts =>
    (bodiesFrom 0 markers).map (fun body => ((i : Int), body)) ++ partsFrom (i + 1) parts

variable {xs : List (Int × List Nat)}

theorem Gap.readPLTs (h : m.Gap i) (hxs : ∀ x ∈ xs, ∃ k : Nat, x.1 = k ∧ i ≤ k)
    (hread : m.readPLTs xs = some m') : m'.Gap i := by
  induction xs generalizing m with
  | nil =>
    obtain rfl := some.inj hread
    exact h
  | cons x xs ih =>
    obtain ⟨m₁, hm₁, hrest⟩ := bind_eq_some_iff.mp hread
    obtain ⟨k, hk, hik⟩ := hxs x mem_cons_self
    rw [hk] at hm₁
    exact ih (h.readPLT hik hm₁) (fun x hx => hxs x (mem_cons_of_mem _ hx)) hrest

variable {parts : List (List (List Nat))}

theorem mem_partsFrom {x : Int × List Nat}
    (h : x ∈ partsFrom i parts) : ∃ k : Nat, x.1 = k ∧ i ≤ k := by
  induction parts generalizing i with
  | nil => cases h
  | cons markers parts ih =>
    rcases mem_append.mp h with h | h
    · obtain ⟨body, -, rfl⟩ := mem_map.mp h
      exact ⟨i, rfl, Nat.le_refl _⟩
    · obtain ⟨k, hk, hik⟩ := ih h
      exact ⟨k, hk, by omega⟩

theorem readPLTs_currMarkerBuf (hread : m.readPLTs xs = some m') :
    m'.currMarkerBuf = m.currMarkerBuf := by
  induction xs generalizing m with
  | nil =>
    obtain rfl := some.inj hread
    rfl
  | cons x xs ih =>
    obtain ⟨m₁, hm₁, hrest⟩ := bind_eq_some_iff.mp hread
    obtain ⟨z, data, m₂, -, -, hfind, hadd⟩ := readPLT_inv hm₁
    rw [ih hrest, (addNewMarker_inv hadd).1, (findMarker_inv hfind).1]

/-- Each marker of a tile part goes behind the column of its index. -/
def extend {α : Type} : List (List α) → List α → List (List α)
  | c :: cols, a :: as => (c ++ [a]) :: extend cols as
  | cols, _ => cols

variable {markers : List (List Nat)}

/-- Columns that a tile part goes on without leaving a gap. -/
theorem readPLTs_extend (hne : ∀ lens ∈ markers, lens ≠ [])
    {before after : List (List (List Nat))} (hle : markers.length ≤ after.length)
    (hi : ∀ c ∈ after.take markers.length, c.length = i) (hfew : (before ++ after).length ≤ 255)
    (h : m.Filed ((before ++ after).map fun c => c.map kept)) :
    ∃ m', m.readPLTs ((bodiesFrom before.length markers).map fun body => ((i : Int), body)) =
      some m' ∧ m'.Filed ((before ++ extend after markers).map fun c => c.map kept) ∧
        (markers ≠ [] → m'.sequential = false) ∧ (markers = [] → m' = m) := by
  induction markers generalizing before after m with
  | nil =>
    have hextend : extend after ([] : List (List Nat)) = after := by cases after <;> rfl
    exact ⟨m, rfl, by rwa [hextend], by simp, fun _ => rfl⟩
  | cons lens markers ih =>
    cases after with
    | nil => simp at hle
    | cons c after =>
      have hlen := hi c (by simp)
      rw [length_append, length_cons] at hfew
      have hz : before.length % 256 = before.length := by omega
      have hcols : (before ++ c :: after).map (fun c => c.map kept) =
          before.map (fun c => c.map kept) ++ c.map kept :: after.map fun c => c.map kept := by simp
      have hfind := h.findMarker_old (by simp : before.length < _) (by simp; omega)
      have hplace := placeBuffer_eq ⟨lens.flatMap plBytes, 0⟩
        (by simp [hlen] : (c.map kept).length ≤ i)
      rw [length_map, hlen, Nat.sub_self, replicate_zero, append_nil] at hplace
      have hfound : m.findMarker (before.length % 256) = some { m with
          rawMarkers := keyedFrom 0
            (before.map (fun c => c.map kept) ++ c.map kept :: after.map fun c => c.map kept)
          sequential := false
          currMarkerIter := some (before.map fun c => c.map kept).length } := by
        rw [hz, hfind, h.rawMarkers, hcols, length_map]
      obtain ⟨m₁, hread, hfiled, hseq⟩ := h.readPLT (hne lens mem_cons_self) hfound hplace
      have hfiled' : m₁.Filed (((before ++ [c ++ [lens]]) ++ after).map fun c => c.map kept) := by
        simpa [kept, fresh] using hfiled
      obtain ⟨m', hreads, hm', hseq', hsame⟩ := ih
        (fun ls hls => hne ls (mem_cons_of_mem _ hls)) (by simpa using hle)
        (fun c' hc' => hi c' (by simp [hc'])) (by simp; omega) hfiled'
      refine ⟨m', ?_, by simpa [extend] using hm', fun _ => ?_, by simp⟩
      · rw [length_append, length_singleton] at hreads
        rw [bodiesFrom, map_cons, readPLTs, hread]
        exact hreads
      · by_cases hnil : markers = []
        · rw [hsame hnil, hseq]
        · exact hseq' hnil

theorem Filed.gap {before after : List RawPLMarker} (h : m.Filed (before ++ vec :: after))
    (hp : p < i) (hvec : vec[p]? = some none) : m.Gap i := by
  refine ⟨h.rawMarkers ▸ keyedFrom_sorted 0 _, (before.length, vec), ?_, p, hp, hvec⟩
  rw [h.rawMarkers, keyedFrom_append, keyedFrom, Nat.zero_add]
  simp

variable {cols : List RawPLMarker}

/-- A tile part that goes on a column which has missed a tile part leaves a gap. -/
theorem Filed.readPLT_gap (h : m.Filed cols) {j : Nat} {lens : List Nat} (hne : lens ≠ [])
    {before after : List RawPLMarker} {seq : Bool} (hfind : m.findMarker (j % 256) = some { m with
      rawMarkers := keyedFrom 0 (before ++ vec :: after), sequential := seq
      currMarkerIter := some before.length }) (hshort : vec.length < i) :
    ∃ m', m.readPLT (pltBody j lens) i = some m' ∧ m'.Gap i := by
  have hplace := placeBuffer_eq ⟨lens.flatMap plBytes, 0⟩ hshort.le
  obtain ⟨m', hread, hfiled, -⟩ := h.readPLT hne hfind hplace
  refine ⟨m', hread, hfiled.gap hshort ?_⟩
  rw [append_assoc, List.getElem?_append_right (Nat.le_refl _), Nat.sub_self,
    List.getElem?_append_left (by rw [length_replicate]; omega), List.getElem?_replicate,
    if_pos (by omega)]

variable {α : Type}

variable {ms : List α}

theorem extend_append {as : List (List α)} (h : ms.length = as.length) (bs : List (List α)) :
    extend (as ++ bs) ms = extend as ms ++ bs := by
  induction as generalizing ms with
  | nil =>
    obtain rfl := length_eq_zero_iff.mp h
    cases bs <;> rfl
  | cons c as ih =>
    cases ms with
    | nil => simp at h
    | cons a ms => rw [cons_append, extend, extend, ih (by simpa using h), cons_append]

theorem length_extend (as : List (List α)) (ms : List α) :
    (extend as ms).length = as.length := by
  induction as generalizing ms with
  | nil => cases ms <;> rfl
  | cons c as ih =>
    cases ms with
    | nil => rfl
    | cons a ms => rw [extend, length_cons, length_cons, ih]

theorem mem_extend {as : List (List α)} (h : ms.length = as.length) (has : ∀ c ∈ as, c.length = i) :
    ∀ c ∈ extend as ms, c.length = i + 1 := by
  induction as generalizing ms with
  | nil =>
    simp [extend]
  | cons c as ih =>
    cases ms with
    | nil => simp at h
    | cons a ms =>
      intro c' hc'
      rcases mem_cons.mp hc' with rfl | hc'
      · rw [length_append, has c mem_cons_self, length_singleton]
      · exact ih (by simpa using h) (fun c hc => has c (mem_cons_of_mem _ hc)) c' hc'

variable {as : List (List (List Nat))}

variable {bs : List (List (List Nat))}

theorem readPLTs_more (hne : ∀ lens ∈ markers, lens ≠ []) (has : ∀ c ∈ as, c.length = i)
    (hbs : ∀ c ∈ bs, c.length < i) (hi : 0 < i) (hfew : (as ++ bs).length ≤ 255)
    (hmore : as.length < markers.length) (h : m.Filed ((as ++ bs).map fun c => c.map kept))
    (hread : m.readPLTs ((bodiesFrom 0 markers).map fun body => ((i : Int), body)) = some m') :
    m'.Gap i := by
  obtain ⟨front, lens, back, rfl, hfront⟩ : ∃ front lens back,
      markers = front ++ lens :: back ∧ front.length = as.length := by
    refine ⟨markers.take as.length, markers[as.length], markers.drop (as.length + 1), ?_, ?_⟩
    · rw [← drop_eq_getElem_cons, take_append_drop]
    · rw [length_take]
      omega
  have hlens : lens ≠ [] := hne lens (by simp)
  rw [bodiesFrom_append, map_append, readPLTs_append, Nat.zero_add] at hread
  obtain ⟨m₁, hm₁, hread⟩ := bind_eq_some_iff.mp hread
  obtain ⟨m₁', hreads, hfiled, -, -⟩ := readPLTs_extend
    (fun ls hls => hne ls (mem_append_left _ hls)) (by rw [hfront, length_append]; omega)
    (by rw [hfront, take_left]; exact has) (by simpa using hfew :
      ([] ++ (as ++ bs)).length ≤ 255) (by simpa using h)
  obtain rfl : m₁' = m₁ := some.inj (hreads.symm.trans hm₁)
  rw [nil_append, extend_append hfront, map_append] at hfiled
  obtain ⟨cols, hcols⟩ : ∃ cols : List RawPLMarker,
      cols = (extend as front).map fun c => c.map kept := ⟨_, rfl⟩
  have hlen : cols.length = front.length := by
    rw [hcols, length_map, length_extend, hfront]
  rw [← hcols] at hfiled
  rw [length_append] at hfew
  have hz : front.length % 256 = front.length := mod_eq_of_lt (by omega)
  have hgap : ∃ m₂, m₁'.readPLT (pltBody front.length lens) i = some m₂ ∧ m₂.Gap i := by
    cases bs with
    | cons c bs =>
      have hlt : front.length < (cols ++ (c :: bs).map fun c => c.map kept).length := by
        rw [length_append, length_map, length_cons]
        omega
      have hfind := hfiled.findMarker_old hlt (by
        rw [length_append, length_map]
        omega)
      have hshort : (c.map kept).length < i := by
        rw [length_map]
        exact hbs c mem_cons_self
      have hfound : m₁'.findMarker (front.length % 256) = some { m₁' with
          rawMarkers := keyedFrom 0 (cols ++ c.map kept :: bs.map fun c => c.map kept)
          sequential := false, currMarkerIter := some cols.length } := by
        rw [hz, hfind, hfiled.rawMarkers, hlen, map_cons]
      exact hfiled.readPLT_gap hlens hfound hshort
    | nil =>
      rw [map_nil, append_nil] at hfiled
      rw [← hlen] at hz ⊢
      by_cases hseq : cols = [] ∨ m₁'.sequential = true
      · exact hfiled.readPLT_gap hlens (hfiled.findMarker_next hseq) hi
      · obtain ⟨hnil, hseq⟩ := not_or.mp hseq
        have hfound : m₁'.findMarker (cols.length % 256) = some { m₁' with
            rawMarkers := keyedFrom 0 (cols ++ [[]]), sequential := false
            currMarkerIter := some cols.length } := by
          rw [hz]
          exact hfiled.findMarker_end (by simpa using hseq) hnil
        exact hfiled.readPLT_gap hlens hfound hi
  obtain ⟨m₂, hm₂, hgap⟩ := hgap
  rw [bodiesFrom, map_cons, readPLTs, hm₂] at hread
  refine hgap.readPLTs (fun x hx => ?_) hread
  obtain ⟨body, -, rfl⟩ := mem_map.mp hx
  exact ⟨i, rfl, Nat.le_refl _⟩

/-- Tile parts after the first: as long as none has more markers than the one before, the columns
grow without a gap. -/
theorem readPLTs_partsFrom (hne : ∀ markers ∈ parts, ∀ lens ∈ markers, lens ≠ []) (hi : 0 < i)
    (has : ∀ c ∈ as, c.length = i) (hbs : ∀ c ∈ bs, c.length < i) (hfew : (as ++ bs).length ≤ 255)
    (h : m.Filed ((as ++ bs).map fun c => c.map kept)) :
    ((as.length :: parts.map List.length).IsChain (· ≥ ·) →
      ∃ m', m.readPLTs (partsFrom i parts) = some m' ∧
        m'.Filed ((parts.foldl extend (as ++ bs)).map fun c => c.map kept)) ∧
    (¬ (as.length :: parts.map List.length).IsChain (· ≥ ·) →
      ∀ m', m.readPLTs (partsFrom i parts) = some m' → ∃ k, m'.Gap k) := by
  induction parts generalizing i as bs m with
  | nil => exact ⟨fun _ => ⟨m, rfl, h⟩, fun hchain => absurd (.singleton _) hchain⟩
  | cons markers parts ih =>
    have hne' := hne markers mem_cons_self
    simp only [map_cons, isChain_cons_cons, partsFrom, readPLTs_append, foldl_cons]
    by_cases hle : markers.length ≤ as.length
    · -- the columns of this tile part come first from now on
      obtain ⟨front, back, rfl, hfront⟩ : ∃ front back, as = front ++ back ∧
          markers.length = front.length := by
        refine ⟨as.take markers.length, as.drop markers.length,
          (take_append_drop _ _).symm, ?_⟩
        rw [length_take]
        omega
      rw [append_assoc] at h hfew ⊢
      obtain ⟨m₁, hread, hfiled, -, -⟩ := readPLTs_extend hne'
        (by rw [hfront, length_append]; omega)
        (by rw [hfront, take_left]; exact fun c hc => has c (mem_append_left _ hc))
        (by simpa using hfew : ([] ++ (front ++ (back ++ bs))).length ≤ 255) (by simpa using h)
      rw [nil_append, extend_append hfront] at hfiled
      rw [extend_append hfront]
      have hlen : (extend front markers).length = markers.length := by
        rw [length_extend, hfront]
      have hback : ∀ c ∈ back ++ bs, c.length < i + 1 := by
        intro c hc
        rcases mem_append.mp hc with hc | hc
        · rw [has c (mem_append_right _ hc)]
          omega
        · have := hbs c hc
          omega
      obtain ⟨hgood, hbad⟩ := ih (fun ms hms => hne ms (mem_cons_of_mem _ hms))
        (by omega : 0 < i + 1)
        (mem_extend hfront fun c hc => has c (mem_append_left _ hc)) hback
        (by
          rw [length_append] at hfew ⊢
          rw [hlen, hfront]
          omega) hfiled
      rw [hlen] at hgood hbad
      have hread' : m.readPLTs ((bodiesFrom 0 markers).map fun body => ((i : Int), body)) =
          some m₁ := hread
      rw [hread']
      exact ⟨fun hchain => hgood hchain.2, fun hchain => hbad fun hrest => hchain ⟨hle, hrest⟩⟩
    · refine ⟨fun hchain => absurd hchain.1 hle, fun _ m' hread => ?_⟩
      obtain ⟨m₁, hm₁, hrest⟩ := bind_eq_some_iff.mp hread
      have hgap := readPLTs_more hne' has hbs hi hfew (by omega) h hm₁
      refine ⟨i, hgap.readPLTs (fun x hx => ?_) hrest⟩
      obtain ⟨k, hk, hik⟩ := mem_partsFrom hx
      exact ⟨k, hk, by omega⟩

/-- After 256 markers of the first tile part, the next tile part is taken to count on from it, or
breaks the count. -/
theorem readPLTs_many (hne : ∀ markers ∈ parts, ∀ lens ∈ markers, lens ≠ [])
    (hsome : ∃ markers ∈ parts, markers ≠ []) (hi : 0 < i) (h : m.Filed cols)
    (hseq : m.sequential = true) (hmany : 256 ≤ cols.length)
    (hread : m.readPLTs (partsFrom i parts) = some m') : ∃ k, m'.Gap k := by
  induction parts generalizing i with
  | nil => simp at hsome
  | cons markers parts ih =>
    cases markers with
    | nil =>
      refine ih (fun ms hms => hne ms (mem_cons_of_mem _ hms)) ?_ (by omega : 0 < i + 1) hread
      simpa using hsome
    | cons lens markers =>
      have hlens : lens ≠ [] := hne _ mem_cons_self lens mem_cons_self
      obtain ⟨m₁, hm₁, hrest⟩ := bind_eq_some_iff.mp hread
      have hgap : ∃ m₂, m.readPLT (pltBody 0 lens) i = some m₂ ∧ m₂.Gap i := by
        by_cases hmod : cols.length % 256 = 0
        · have hfind := h.findMarker_next (.inr hseq)
          rw [hmod] at hfind
          exact h.readPLT_gap hlens hfind hi
        · have hbroken := h.findMarker_broken hseq (by omega) hmod
          rw [readPLT_cons m 0 hlens, zero_mod, hbroken] at hm₁
          cases hm₁
      obtain ⟨m₂, hm₂, hgap⟩ := hgap
      obtain rfl : m₂ = m₁ := some.inj (hm₂.symm.trans hm₁)
      refine ⟨i, hgap.readPLTs (fun x hx => ?_) hrest⟩
      rcases mem_append.mp hx with hx | hx
      · obtain ⟨body, -, rfl⟩ := mem_map.mp hx
        exact ⟨i, rfl, Nat.le_refl _⟩
      · obtain ⟨k, hk, hik⟩ := mem_partsFrom hx
        exact ⟨k, hk, by omega⟩

theorem readPLTs_empty
    (h : ∃ markers ∈ parts, [] ∈ markers) (m : PLReader) : m.readPLTs (partsFrom i parts) = none := by
  have hnone (xs : List (Int × List Nat)) (hxs : ∃ x ∈ xs, x.2.length ≤ 1) (m : PLReader) :
      m.readPLTs xs = none := by
    induction xs generalizing m with
    | nil => simp at hxs
    | cons x xs ih =>
      rw [readPLTs]
      cases hread : m.readPLT x.2 x.1 with
      | none => rfl
      | some m' =>
        obtain ⟨y, hy, hlen⟩ := hxs
        rcases mem_cons.mp hy with rfl | hy
        · obtain ⟨z, data, -, hbody, hdata, -⟩ := readPLT_inv hread
          have := length_pos_iff.mpr hdata
          rw [hbody, length_cons] at hlen
          omega
        · exact ih ⟨y, hy, hlen⟩ m'
  refine hnone _ ?_ m
  obtain ⟨markers, hmem, hempty⟩ := h
  have hbody (j : Nat) (ms : List (List Nat)) (hms : [] ∈ ms) :
      ∃ body ∈ bodiesFrom j ms, body.length ≤ 1 := by
    induction ms generalizing j with
    | nil => cases hms
    | cons lens ms ih =>
      rcases mem_cons.mp hms with rfl | hms
      · exact ⟨_, mem_cons_self, Nat.le_refl 1⟩
      · obtain ⟨body, hb, hlen⟩ := ih (j + 1) hms
        exact ⟨body, mem_cons_of_mem _ hb, hlen⟩
  induction parts generalizing i with
  | nil => cases hmem
  | cons ms parts ih =>
    rw [partsFrom]
    rcases mem_cons.mp hmem with rfl | hmem
    · obtain ⟨body, hb, hlen⟩ := hbody 0 markers hempty
      exact ⟨_, mem_append_left _ (mem_map_of_mem hb), hlen⟩
    · obtain ⟨x, hx, hlen⟩ := ih hmem (i := i + 1)
      exact ⟨x, mem_append_right _ hx, hlen⟩

/-- The markers of a tile by marker index, and by tile part within an index. -/
def byMarkerIndex (parts : List (List (List Nat))) : List (List Nat) :=
  (List.range ((parts.map List.length).foldr max 0)).flatMap fun j =>
    parts.filterMap fun markers => markers[j]?

theorem getElem_extend (as : List (List α)) (ms : List α) (j : Nat) :
    (extend as ms)[j]? = as[j]?.map fun c => c ++ ms[j]?.toList := by
  induction as generalizing ms j with
  | nil => cases ms <;> simp [extend]
  | cons c as ih =>
    cases ms with
    | nil => simp [extend]
    | cons a ms =>
      cases j with
      | zero => simp [extend]
      | succ j => simp [extend, ih]

theorem foldl_extend (M : Nat) (before parts : List (List (List Nat))) :
    parts.foldl extend ((List.range M).map fun j => before.filterMap fun markers => markers[j]?) =
      (List.range M).map fun j => (before ++ parts).filterMap fun markers => markers[j]? := by
  induction parts generalizing before with
  | nil => simp
  | cons markers parts ih =>
    have hstep : extend ((List.range M).map fun j => before.filterMap fun ms => ms[j]?) markers =
        (List.range M).map fun j => (before ++ [markers]).filterMap fun ms => ms[j]? := by
      refine ext_getElem? fun j => ?_
      rw [getElem_extend, List.getElem?_map, List.getElem?_map, Option.map_map]
      by_cases hj : j < M
      · rw [List.getElem?_range hj]
        cases hm : markers[j]? <;> simp [filterMap_append, hm]
      · have hout : (List.range M)[j]? = none := List.getElem?_eq_none (by simpa using hj)
        rw [hout]
        rfl
    rw [foldl_cons, hstep, ih, append_assoc, singleton_append]

theorem length_flatten_extend {ms : List (List Nat)}
    (h : ms.length ≤ as.length) : (extend as ms).flatten.flatten.length =
      as.flatten.flatten.length + ms.flatten.length := by
  induction as generalizing ms with
  | nil =>
    obtain rfl := length_eq_zero_iff.mp (Nat.le_zero.mp h)
    rfl
  | cons c as ih =>
    cases ms with
    | nil => simp [extend]
    | cons a ms =>
      have := ih (by simpa using h : ms.length ≤ as.length)
      simp only [extend, flatten_cons, flatten_append, length_append,
        flatten_nil, append_nil] at this ⊢
      omega

theorem length_foldl_extend {cols : List (List (List Nat))}
    (h : (cols.length :: parts.map List.length).IsChain (· ≥ ·)) :
    (parts.foldl extend cols).flatten.flatten.length =
      cols.flatten.flatten.length + parts.flatten.flatten.length := by
  -- the bound on the columns stays the first tile part's, so it is carried as an inequality
  obtain ⟨k, hk, hchain⟩ : ∃ k ≤ cols.length, (k :: parts.map List.length).IsChain (· ≥ ·) :=
    ⟨_, Nat.le_refl _, h⟩
  clear h
  induction parts generalizing cols k with
  | nil => simp
  | cons markers parts ih =>
    rw [map_cons, isChain_cons_cons] at hchain
    have hle := Nat.le_trans hchain.1 hk
    have hlen : markers.length ≤ (extend cols markers).length := by
      rw [length_extend]
      exact hle
    have := ih markers.length hlen hchain.2
    rw [foldl_cons, this, length_flatten_extend hle]
    simp only [flatten_cons, flatten_append, length_append]
    omega

theorem foldr_max_of_chain {ks : List Nat} (h : (k :: ks).IsChain (· ≥ ·)) :
    (k :: ks).foldr max 0 = k := by
  induction ks generalizing k with
  | nil => simp
  | cons k' ks ih =>
    rw [isChain_cons_cons] at h
    rw [foldr_cons, ih h.2]
    exact Nat.max_eq_left h.1

variable {first : List (List Nat)}

theorem flatten_foldl_extend
    (h : (first.length :: parts.map List.length).IsChain (· ≥ ·)) :
    (parts.foldl extend (first.map fun lens => [lens])).flatten = byMarkerIndex (first :: parts) := by
  have hcols : (first.map fun lens => [lens]) =
      (List.range first.length).map fun j => [first].filterMap fun markers => markers[j]? := by
    refine ext_getElem? fun j => ?_
    rw [List.getElem?_map, List.getElem?_map]
    by_cases hj : j < first.length
    · rw [List.getElem?_range hj, List.getElem?_eq_getElem hj]
      simp [hj]
    · have hout := List.getElem?_eq_none (by simpa using hj)
      rw [hout, List.getElem?_eq_none (by simpa using hj)]
      rfl
  rw [hcols, foldl_extend, byMarkerIndex, map_cons, foldr_max_of_chain h, flatMap_def,
    singleton_append]

/-- The tile parts whose PLT markers are popped in codestream order. -/
structure InOrder (parts : List (List (List Nat))) : Prop where
  nonempty : ∀ markers ∈ parts, [] ∉ markers
  shrinking : (parts.map List.length).IsChain (· ≥ ·)
  few : ∀ first second rest, parts = first :: second :: rest → second ≠ [] → first.length ≤ 255
  order : (byMarkerIndex parts).flatten = parts.flatten.flatten

theorem partsFrom_of_empty (h : ∀ markers ∈ parts, markers = [])
    (i : Nat) : partsFrom i parts = [] := by
  induction parts generalizing i with
  | nil => rfl
  | cons markers parts ih =>
    rw [partsFrom, h markers mem_cons_self, ih fun ms hms => h ms (mem_cons_of_mem _ hms)]
    rfl

theorem Filed.popN_columns
    (h : m.Filed ((parts.foldl extend (first.map fun lens => [lens])).map fun c => c.map kept))
    (hchain : (first.length :: parts.map List.length).IsChain (· ≥ ·))
    (hne : ∀ markers ∈ first :: parts, [] ∉ markers)
    (hlens : ∀ l ∈ (first :: parts).flatten.flatten, 0 < l ∧ l < 2 ^ 32) :
    m.rewind.popN (first :: parts).flatten.flatten.length =
      (byMarkerIndex (first :: parts)).flatten := by
  have hflat := flatten_foldl_extend hchain
  have hmem : ∀ lens ∈ byMarkerIndex (first :: parts), lens ∈ (first :: parts).flatten := by
    intro lens hl
    obtain ⟨j, -, hl⟩ := mem_flatMap.mp hl
    obtain ⟨markers, hmarkers, hj⟩ := mem_filterMap.mp hl
    exact mem_flatten.mpr ⟨markers, hmarkers, mem_of_getElem? hj⟩
  have hcols : ∀ c ∈ parts.foldl extend (first.map fun lens => [lens]), c ≠ [] := by
    have hall (cols : List (List (List Nat))) (hc : ∀ c ∈ cols, c ≠ []) :
        ∀ c ∈ parts.foldl extend cols, c ≠ [] := by
      clear h hchain hne hlens hflat hmem
      induction parts generalizing cols with
      | nil => exact hc
      | cons markers parts ih =>
        refine ih _ fun c hmem => ?_
        obtain ⟨j, hj⟩ := mem_iff_getElem?.mp hmem
        rw [getElem_extend] at hj
        obtain ⟨c', hc', rfl⟩ := Option.map_eq_some_iff.mp hj
        exact fun hnil => hc c' (mem_of_getElem? hc') (append_eq_nil_iff.mp hnil).1
    exact hall _ (by simp)
  have hpop := h.popN hcols (by
    intro c hc lens hl
    have hin := hmem lens (hflat ▸ mem_flatten.mpr ⟨c, hc, hl⟩)
    obtain ⟨markers, hmarkers, hlmem⟩ := mem_flatten.mp hin
    exact ⟨fun hnil => hne markers hmarkers (hnil ▸ hlmem),
      fun l hl => hlens l (mem_flatten.mpr ⟨lens, hin, hl⟩)⟩)
  have hcount := length_foldl_extend (by simpa using hchain :
    ((first.map fun lens => [lens]).length :: parts.map List.length).IsChain (· ≥ ·))
  have hfirst : (first.map fun lens => [lens]).flatten = first := by
    rw [← flatMap_def]
    simp
  rw [hfirst, ← length_append, ← flatten_append, ← flatten_cons] at hcount
  rwa [hcount, hflat] at hpop

theorem foldl_extend_of_empty (h : ∀ markers ∈ parts, markers = [])
    (cols : List (List (List Nat))) : parts.foldl extend cols = cols := by
  induction parts with
  | nil => rfl
  | cons markers parts ih =>
    rw [foldl_cons, h markers mem_cons_self]
    have hnil : extend cols [] = cols := by cases cols <;> rfl
    rw [hnil]
    exact ih fun ms hms => h ms (mem_cons_of_mem _ hms)

theorem isChain_of_empty (h : ∀ markers ∈ parts, markers = [])
    (k : Nat) : (k :: parts.map List.length).IsChain (· ≥ ·) := by
  have hzero : ∀ n ∈ parts.map List.length, n = 0 := by simpa using h
  rw [isChain_iff_pairwise, pairwise_cons]
  exact ⟨fun n hn => hzero n hn ▸ zero_le k,
    pairwise_of_forall_mem_list fun a _ b hb => hzero b hb ▸ zero_le a⟩

theorem empty_of_isChain
    (h : (0 :: parts.map List.length).IsChain (· ≥ ·)) : ∀ markers ∈ parts, markers = [] := by
  simpa using (pairwise_cons.mp (isChain_iff_pairwise.mp h)).1

/-- No tile part has more markers than the one before, and other tile parts have markers only if the
first has at most 255. -/
def Dense (first : List (List Nat)) (parts : List (List (List Nat))) : Prop :=
  (first.length :: parts.map List.length).IsChain (· ≥ ·) ∧
    (first.length ≤ 255 ∨ ∀ markers ∈ parts, markers = [])

theorem exists_marker_of_not_dense
    (h : ¬ Dense first parts) : ∃ markers ∈ parts, markers ≠ [] := by
  by_contra hnone
  have hempty : ∀ markers ∈ parts, markers = [] := by simpa using hnone
  exact h ⟨isChain_of_empty hempty _, .inr hempty⟩

section TileParts

variable {first : List (List Nat)} {parts : List (List (List Nat))}
  (hne : ∀ markers ∈ first :: parts, [] ∉ markers)

include hne

theorem readPLTs_partsFrom_first : ∃ m : PLReader, readPLTs {} (partsFrom 0 (first :: parts)) =
    m.readPLTs (partsFrom 1 parts) ∧
    m.Filed ((first.map fun lens => [lens]).map fun c : List (List Nat) => c.map kept) ∧
    (first = [] ∨ m.sequential = true) := by
  obtain ⟨m, hread, hfiled, hseq⟩ := Filed.init.readPLTs_first (.inr rfl)
    (fun lens hl hnil => hne first mem_cons_self (hnil ▸ hl)) (.inl rfl)
  have hread' : readPLTs {} ((bodiesFrom 0 first).map fun body => (((0 : Nat) : Int),
    body)) = some m := hread
  refine ⟨m, ?_, by simpa [Function.comp_def] using hfiled, by simpa using hseq⟩
  rw [partsFrom, readPLTs_append, hread', Option.bind_some]

theorem lens_ne_nil : ∀ markers ∈ parts, ∀ lens ∈ markers, lens ≠ [] := by
  intro markers hmarkers lens hl hnil
  exact hne markers (mem_cons_of_mem _ hmarkers) (hnil ▸ hl)

theorem readPLTs_partsFrom_second (hfew : first.length ≤ 255) {m : PLReader}
    (h : m.Filed ((first.map fun lens => [lens]).map fun c : List (List Nat) => c.map kept)) :
    ((first.length :: parts.map List.length).IsChain (· ≥ ·) →
      ∃ m', m.readPLTs (partsFrom 1 parts) = some m' ∧
        m'.Filed ((parts.foldl extend (first.map fun lens => [lens])).map fun c => c.map kept)) ∧
    (¬ (first.length :: parts.map List.length).IsChain (· ≥ ·) →
      ∀ m', m.readPLTs (partsFrom 1 parts) = some m' → ∃ k, m'.Gap k) := by
  have hpair := readPLTs_partsFrom (lens_ne_nil hne) (by omega : 0 < 1)
    (by simp : ∀ c ∈ first.map fun lens => [lens], c.length = 1)
    (by simp : ∀ c ∈ ([] : List (List (List Nat))), c.length < 1) (by simpa using hfew)
    (by simpa using h)
  rwa [append_nil, length_map] at hpair

theorem readPLTs_of_dense (h : Dense first parts) :
    ∃ m, readPLTs {} (partsFrom 0 (first :: parts)) = some m ∧
      m.Filed ((parts.foldl extend (first.map fun lens => [lens])).map fun c => c.map kept) := by
  obtain ⟨hchain, hfew⟩ := h
  obtain ⟨m, hread, hfiled, -⟩ := readPLTs_partsFrom_first hne
  rw [hread]
  rcases hfew with hfew | hempty
  · exact (readPLTs_partsFrom_second hne hfew hfiled).1 hchain
  · rw [partsFrom_of_empty hempty, foldl_extend_of_empty hempty]
    exact ⟨m, rfl, hfiled⟩

theorem gap_of_not_dense (h : ¬ Dense first parts) {m : PLReader}
    (hm : readPLTs {} (partsFrom 0 (first :: parts)) = some m) : ∃ k, m.Gap k := by
  obtain ⟨m₀, hread, hfiled, hseq⟩ := readPLTs_partsFrom_first hne
  rw [hread] at hm
  by_cases hfew : first.length ≤ 255
  · exact (readPLTs_partsFrom_second hne hfew hfiled).2 (fun hchain => h ⟨hchain, .inl hfew⟩) m hm
  · have hseq' : m₀.sequential = true := by
      rcases hseq with rfl | hseq
      · exact absurd (zero_le 255) hfew
      · exact hseq
    refine readPLTs_many (lens_ne_nil hne) (exists_marker_of_not_dense h) (by omega : 0 < 1) hfiled
      hseq' ?_ hm
    rw [length_map, length_map]
    omega

end TileParts

theorem InOrder.dense
    (h : InOrder (first :: parts)) : Dense first parts := by
  refine ⟨h.shrinking, ?_⟩
  cases parts with
  | nil => exact .inr (by simp)
  | cons second rest =>
    by_cases hsecond : second = []
    · have hchain := h.shrinking
      rw [map_cons, map_cons, isChain_cons_cons, hsecond] at hchain
      refine .inr fun markers hmarkers => ?_
      rcases mem_cons.mp hmarkers with rfl | hmarkers
      · exact hsecond
      · exact empty_of_isChain hchain.2 markers hmarkers
    · exact .inl (h.few first second rest rfl hsecond)

/-- **The packet lengths of a tile's PLT markers are popped in codestream order exactly when every
marker lists a length, no tile part has more markers than the one before, a second tile part with
markers follows at most 255 of them, and the order by marker index is the codestream's.** -/
theorem plt_codestream_order_iff (parts : List (List (List Nat)))
    (hlens : ∀ l ∈ parts.flatten.flatten, 0 < l ∧ l < 2 ^ 32) :
    (∃ m, readPLTs {} (partsFrom 0 parts) = some m ∧
      m.rewind.popN parts.flatten.flatten.length = parts.flatten.flatten) ↔ InOrder parts := by
  by_cases hne : ∀ markers ∈ parts, [] ∉ markers
  swap
  · simp only [not_forall, Classical.not_not] at hne
    obtain ⟨markers, hmem, hempty⟩ := hne
    rw [readPLTs_empty ⟨markers, hmem, hempty⟩]
    constructor
    · rintro ⟨m, hm, -⟩
      cases hm
    · intro h
      exact absurd hempty (h.nonempty markers hmem)
  cases parts with
  | nil => exact ⟨fun _ => ⟨hne, .nil, by simp, rfl⟩, fun _ => ⟨{}, rfl, rfl⟩⟩
  | cons first parts =>
    by_cases hdense : Dense first parts
    · obtain ⟨m, hm, hfiled⟩ := readPLTs_of_dense hne hdense
      have hpop := hfiled.popN_columns hdense.1 hne hlens
      constructor
      · rintro ⟨m', hm', hpop'⟩
        obtain rfl : m = m' := some.inj (hm.symm.trans hm')
        refine ⟨hne, hdense.1, ?_, hpop.symm.trans hpop'⟩
        intro f second rest heq hsecond
        obtain ⟨rfl, rfl⟩ := List.cons.inj heq
        rcases hdense.2 with hfew | hempty
        · exact hfew
        · exact absurd (hempty second mem_cons_self) hsecond
      · intro h
        exact ⟨m, hm, hpop.trans h.order⟩
    · constructor
      · rintro ⟨m, hm, hpop⟩
        obtain ⟨k, hk⟩ := gap_of_not_dense hne hdense hm
        rw [hk.popN (readPLTs_currMarkerBuf hm)] at hpop
        -- a gap leaves nothing to pop, but some length is there
        obtain ⟨markers, hmarkers, hfull⟩ := exists_marker_of_not_dense hdense
        obtain ⟨lens, hl⟩ := exists_mem_of_ne_nil _ hfull
        have hmarkers' : markers ∈ first :: parts := mem_cons_of_mem _ hmarkers
        have hlens' : lens ≠ [] := fun hnil => hne markers hmarkers' (hnil ▸ hl)
        obtain ⟨l, hl'⟩ := exists_mem_of_ne_nil _ hlens'
        have hmem := mem_flatten.mpr ⟨lens, mem_flatten.mpr ⟨markers, hmarkers', hl⟩, hl'⟩
        have hpos := (hlens l hmem).1
        rw [← hpop] at hmem
        have hzero := eq_of_mem_replicate hmem
        omega
      · intro h
        exact absurd h.dense hdense

/-- One marker in each of two tile parts. -/
theorem one_marker_each_in_order :
    ∃ m, readPLTs {} (partsFrom 0 [[[300]], [[2, 1]]]) = some m ∧
      m.rewind.popN 3 = [300, 2, 1] := by
  refine (plt_codestream_order_iff [[[300]], [[2, 1]]] (by decide)).mpr ⟨?_, ?_, ?_, ?_⟩
  · decide
  · decide
  · rintro first second rest ⟨⟩ -
    decide
  · decide

/-- Two markers in the first tile part and one in the second: the third length of the codestream is
popped before the second. -/
theorem two_markers_out_of_order :
    ((readPLTs {} (partsFrom 0 [[[1], [2]], [[3]]])).map fun m => m.rewind.popN 3) =
      some [1, 3, 2] := by
  decide

end GrokCodec.Codestream.PLReader
