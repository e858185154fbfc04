import GrokCodec.Codestream.PLMarker

/-!
TLM marker segments: the reader collects tile-part lengths over all segments of the main header
and lays the tile parts out one after the other; the writer reserves one segment and fills it when
the tile parts are written.
-/

namespace GrokCodec.Codestream

open ByteStream List Nat Function Option

structure DataSlice where
  offset : Nat
  length : Nat
  deriving DecidableEq, Repr

structure TPSeq where
  slices : List DataSlice := []
  signalledNumTileParts : Nat := 0
  deriving DecidableEq, Repr

/-- `TPSeq::push_back`, with the flag it returns. -/
def TPSeq.pushBack (s : TPSeq) (tilePart numTileParts offset length : Nat) : Bool × TPSeq :=
  if s.signalledNumTileParts ≠ 0 ∧ numTileParts ≠ s.signalledNumTileParts then (false, s)
  else
    let s := { s with signalledNumTileParts := numTileParts }
    if tilePart ≠ s.slices.length then (false, s)
    else (true, { s with slices := s.slices ++ [⟨offset, length⟩] })

structure TilePartLength where
  tileIndex : Nat
  length : Nat
  deriving DecidableEq, Repr

structure TLMMarkerManager where
  tilePartLengths : List TilePartLength := []
  lastMarkerId : Int := -1
  valid : Bool := true

def TLMMarkerManager.pushBack (m : TLMMarkerManager) (tpl : TilePartLength) : TLMMarkerManager :=
  if m.valid then { m with tilePartLengths := m.tilePartLengths ++ [tpl] } else m

def TLMMarkerManager.validateMarkerId (m : TLMMarkerManager) (markerId : Nat) :
    Bool × TLMMarkerManager :=
  if m.valid = false then (false, m)
  else if (markerId : Int) ≤ m.lastMarkerId then (false, { m with valid := false })
  else (true, { m with lastMarkerId := markerId })

/-- The reading side of `TLMMarker`. A tile without a sequence has the empty one. -/
structure TLMMarker where
  markerManager : TLMMarkerManager := {}
  tilePartsPerTile : Nat → TPSeq := fun _ => {}
  valid : Bool := true
  hasTileIndices : Bool := false
  tileCount : Nat := 0
  numSignalledTiles : Nat
  tilePartStart : Nat := 0

namespace TLMMarker

variable (m : TLMMarker)

/-- `TLMMarker::add` of the reader; the flag of `push_back` is not looked at. -/
def add (tpl : TilePartLength) : TLMMarker :=
  let tpSeq := m.tilePartsPerTile tpl.tileIndex
  let tpSeq := (tpSeq.pushBack (u8 tpSeq.slices.length) 0 m.tilePartStart tpl.length).2
  { m with
    tilePartsPerTile := update m.tilePartsPerTile tpl.tileIndex tpSeq
    markerManager := m.markerManager.pushBack tpl
    tilePartStart := m.tilePartStart + tpl.length }

/-- What `read` does with one entry. -/
def readEntry (Ttlm Ptlm : Nat) : TLMMarker :=
  let m := if Ptlm < 14 then { m with valid := false } else m
  let tileIndex := if m.hasTileIndices then Ttlm else m.tileCount
  let m := if m.hasTileIndices then m else { m with tileCount := u16 (m.tileCount + 1) }
  let m := if tileIndex ≥ m.numSignalledTiles then { m with valid := false } else m
  if m.valid then m.add ⟨tileIndex, Ptlm⟩ else m

/-- The loop over the entries of a segment. -/
def readEntries (L_iT bytesPerTilePartLength : Nat) : Nat → List Nat → TLMMarker → TLMMarker
  | 0, _, m => m
  | n + 1, headerData, m =>
    let Ttlm := ofBytes (headerData.take L_iT)
    let headerData := headerData.drop L_iT
    let Ptlm := ofBytes (headerData.take bytesPerTilePartLength)
    readEntries L_iT bytesPerTilePartLength n (headerData.drop bytesPerTilePartLength)
      (m.readEntry Ttlm Ptlm)

/-- TLM(2) + Ltlm(2) + Ztlm(1) + Stlm(1). -/
def tlm_marker_start_bytes : Nat := 6

/-- The two sanity checks of `read` on `Ztlm` and on the presence of tile indices. -/
def checkId (i_TLM : Nat) : TLMMarker :=
  if m.valid then
    let (ok, markerManager) := m.markerManager.validateMarkerId i_TLM
    { m with markerManager, valid := ok }
  else m

def checkIndices (L_iT : Nat) : TLMMarker :=
  if m.markerManager.tilePartLengths = [] then { m with hasTileIndices := L_iT ≠ 0 }
  else if m.hasTileIndices ≠ decide (L_iT ≠ 0) then { m with valid := false }
  else m

/-- `TLMMarker::read` on the body of a segment. -/
def read : List Nat → Bool × TLMMarker
  | i_TLM :: L :: headerData =>
    if headerData.length + 2 < tlm_marker_start_bytes then (false, m)
    else
      let m := m.checkId i_TLM
      if L &&& 0x8F ≠ 0 then (true, { m with valid := false })
      else
        let bytesPerTilePartLength := if (L >>> 6) % 2 = 1 then 4 else 2
        let L_iT := (L >>> 4) % 4
        if L_iT = 3 then (true, { m with valid := false })
        else
          let m := m.checkIndices L_iT
          let quotient := bytesPerTilePartLength + L_iT
          if headerData.length % quotient ≠ 0 then (false, m)
          else
            (true, readEntries L_iT bytesPerTilePartLength (headerData.length / quotient) headerData
              m)
  | _ => (false, m)

/-- Reads segment after segment, as long as `read` reports success. -/
def readAll : TLMMarker → List (List Nat) → Option TLMMarker
  | m, [] => some m
  | m, body :: bodies =>
    match m.read body with
    | (true, m) => readAll m bodies
    | (false, _) => none

end TLMMarker

/-- The tile parts of tile `t` when those of `entries` follow each other from `start` on. -/
def partsFrom (t : Nat) : Nat → List TilePartLength → List DataSlice
  | _, [] => []
  | start, e :: entries =>
    if e.tileIndex = t then ⟨start, e.length⟩ :: partsFrom t (start + e.length) entries
    else partsFrom t (start + e.length) entries

theorem partsFrom_append (t start : Nat) (entries : List TilePartLength) (e : TilePartLength) :
    partsFrom t start (entries ++ [e]) = partsFrom t start entries ++
      if e.tileIndex = t then [⟨start + (entries.map (·.length)).sum, e.length⟩] else [] := by
  induction entries generalizing start with
  | nil => simp [partsFrom]
  | cons e' entries ih =>
    simp only [cons_append, partsFrom, ih, map_cons, sum_cons, ← Nat.add_assoc]
    split <;> rfl

theorem length_partsFrom (t start : Nat) (entries : List TilePartLength) :
    (partsFrom t start entries).length = entries.countP (·.tileIndex = t) := by
  induction entries generalizing start with
  | nil => rfl
  | cons e entries ih =>
    simp only [partsFrom, countP_cons]
    split <;> simp_all

/-- A TLM segment: `iT` bytes of tile index and four (`wide`) or two bytes of length an entry. An
entry without an index still names the tile it stands for. -/
structure TLMSegment where
  Ztlm : Nat
  iT : Nat
  wide : Bool
  entries : List TilePartLength

namespace TLMSegment

variable (s : TLMSegment)

def Stlm : Nat := 64 * s.wide.toNat + 16 * s.iT

def lengthBytes : Nat := if s.wide then 4 else 2

variable (e : TilePartLength)

def entryBytes : List Nat :=
  beBytes s.iT e.tileIndex ++ beBytes s.lengthBytes e.length

def body : List Nat := s.Ztlm :: s.Stlm :: s.entries.flatMap s.entryBytes

/-- The entries are in reach of their fields. -/
def Fits : Prop :=
  (s.iT ≠ 0 → e.tileIndex < 256 ^ s.iT) ∧ e.length < 256 ^ s.lengthBytes

instance (s : TLMSegment) (e : TilePartLength) : Decidable (s.Fits e) :=
  inferInstanceAs (Decidable (_ ∧ _))

theorem length_entryBytes : (s.entryBytes e).length = s.lengthBytes + s.iT := by
  rw [entryBytes, length_append, length_beBytes, length_beBytes, Nat.add_comm]

theorem length_flatMap_entryBytes (entries : List TilePartLength) :
    (entries.flatMap s.entryBytes).length = entries.length * (s.lengthBytes + s.iT) := by
  simp [length_flatMap, length_entryBytes]

theorem lengthBytes_pos : 0 < s.lengthBytes := by
  unfold lengthBytes
  split <;> decide

theorem Stlm_fields {s : TLMSegment} (h : s.iT ≤ 2) :
    s.Stlm &&& 0x8F = 0 ∧ (s.Stlm >>> 6 % 2 = 1 ↔ s.wide = true) ∧ (s.Stlm >>> 4) % 4 = s.iT := by
  obtain ⟨z, iT, wide, entries⟩ := s
  obtain rfl | rfl | rfl : iT = 0 ∨ iT = 1 ∨ iT = 2 := by
    simp only at h
    omega
  all_goals cases wide <;> simp only [Stlm] <;> decide

end TLMSegment

namespace TLMMarker

variable {m : TLMMarker} {numTiles : Nat} {before entries : List TilePartLength}

/-- What `read` passes on of the tile index of an entry. -/
def signalledIndex (s : TLMSegment) (e : TilePartLength) : Nat := if s.iT = 0 then 0 else e.tileIndex

variable {s : TLMSegment}

theorem readEntries_eq (hfits : ∀ e ∈ entries, s.Fits e) (m : TLMMarker) :
    readEntries s.iT s.lengthBytes entries.length (entries.flatMap s.entryBytes) m =
      entries.foldl (fun m e => m.readEntry (signalledIndex s e) e.length) m := by
  induction entries generalizing m with
  | nil => rfl
  | cons e entries ih =>
    obtain ⟨hindex, hlength⟩ := hfits e mem_cons_self
    have hT : ofBytes (beBytes s.iT e.tileIndex) = signalledIndex s e := by
      unfold signalledIndex
      split
      case isTrue hzero => rw [hzero]; rfl
      case isFalse hne => exact ofBytes_beBytes (hindex hne)
    rw [flatMap_cons, length_cons, readEntries, TLMSegment.entryBytes]
    simp only [append_assoc]
    rw [take_left' (length_beBytes _ _), drop_left' (length_beBytes _ _),
      take_left' (length_beBytes _ _), drop_left' (length_beBytes _ _), hT,
      ofBytes_beBytes hlength]
    exact ih (fun e' he' => hfits e' (mem_cons_of_mem _ he')) _

/-- The state of the reader after the entries of some segments: everything is recorded. -/
structure Recorded (numTiles : Nat) (entries : List TilePartLength) (m : TLMMarker) : Prop where
  valid : m.valid = true
  managerValid : m.markerManager.valid = true
  lengths : m.markerManager.tilePartLengths = entries
  parts : ∀ t, (m.tilePartsPerTile t).slices = partsFrom t 0 entries
  unsignalled : ∀ t, (m.tilePartsPerTile t).signalledNumTileParts = 0
  start : m.tilePartStart = (entries.map (·.length)).sum
  tiles : m.numSignalledTiles = numTiles

theorem recorded_nil (numTiles : Nat) : Recorded numTiles [] { numSignalledTiles := numTiles } where
  valid := rfl
  managerValid := rfl
  lengths := rfl
  parts := fun _ => rfl
  unsignalled := fun _ => rfl
  start := rfl
  tiles := rfl

/-- Pushing with the own size as index works for the first 256 tile parts of a tile. -/
theorem pushBack_own_index {seq : TPSeq} (h : seq.signalledNumTileParts = 0)
    (hroom : seq.slices.length < 256) (offset length : Nat) :
    (seq.pushBack (u8 seq.slices.length) 0 offset length).2 =
      ⟨seq.slices ++ [⟨offset, length⟩], 0⟩ := by
  have hindex : u8 seq.slices.length = seq.slices.length := mod_eq_of_lt hroom
  simp [TPSeq.pushBack, h, hindex]

variable {e : TilePartLength}

theorem Recorded.add (h : Recorded numTiles entries m)
    (hroom : entries.countP (·.tileIndex = e.tileIndex) < 256) :
    Recorded numTiles (entries ++ [e]) (m.add e) := by
  have hpush := pushBack_own_index (h.unsignalled e.tileIndex)
    (by rw [h.parts, length_partsFrom]; exact hroom) m.tilePartStart e.length
  refine ⟨h.valid, ?_, ?_, ?_, ?_, ?_, h.tiles⟩
  · simp [TLMMarker.add, TLMMarkerManager.pushBack, h.managerValid]
  · simp [TLMMarker.add, TLMMarkerManager.pushBack, h.managerValid, h.lengths]
  · intro t
    rw [partsFrom_append, Nat.zero_add, ← h.start]
    simp only [TLMMarker.add, hpush]
    by_cases ht : e.tileIndex = t
    · subst ht
      rw [update_self, if_pos rfl, h.parts]
    · rw [update_of_ne (Ne.symm ht), if_neg ht, append_nil, h.parts]
  · intro t
    simp only [TLMMarker.add, hpush]
    by_cases ht : e.tileIndex = t
    · subst ht
      rw [update_self]
    · rw [update_of_ne (Ne.symm ht), h.unsignalled]
  · simp [TLMMarker.add, h.start]

/-- The implicit tile index has counted the entries, or is not in use. -/
def Counted (entries : List TilePartLength) (m : TLMMarker) : Prop :=
  m.tileCount = if m.hasTileIndices then 0 else entries.length

@[simp] theorem add_hasTileIndices (e : TilePartLength) :
    (m.add e).hasTileIndices = m.hasTileIndices := rfl

@[simp] theorem add_tileCount (e : TilePartLength) : (m.add e).tileCount = m.tileCount := rfl

@[simp] theorem add_lastMarkerId (e : TilePartLength) :
    (m.add e).markerManager.lastMarkerId = m.markerManager.lastMarkerId := by
  simp only [TLMMarker.add, TLMMarkerManager.pushBack]
  split <;> rfl

/-- An entry that `read` can take after `entries`. -/
structure Legible (numTiles : Nat) (indexed : Bool) (entries : List TilePartLength)
    (e : TilePartLength) : Prop where
  long : 14 ≤ e.length
  tile : e.tileIndex < numTiles
  room : entries.countP (·.tileIndex = e.tileIndex) < 256
  plain : indexed = false → e.tileIndex = entries.length

theorem Recorded.readEntry (h : Recorded numTiles entries m) (hcount : Counted entries m)
    (htiles : numTiles ≤ 65535) (he : Legible numTiles m.hasTileIndices entries e) {T : Nat}
    (hindexed : m.hasTileIndices = true → T = e.tileIndex) :
    Recorded numTiles (entries ++ [e]) (m.readEntry T e.length) ∧
      Counted (entries ++ [e]) (m.readEntry T e.length) ∧
      (m.readEntry T e.length).hasTileIndices = m.hasTileIndices ∧
      (m.readEntry T e.length).markerManager.lastMarkerId = m.markerManager.lastMarkerId := by
  have hlong := Nat.not_lt.mpr he.long
  have htile := Nat.not_le.mpr he.tile
  cases hhas : m.hasTileIndices with
  | true =>
    have hread : m.readEntry T e.length = m.add e := by
      simp [TLMMarker.readEntry, hhas, hindexed hhas, if_neg hlong, h.tiles, if_neg htile, h.valid]
    rw [hread]
    refine ⟨h.add he.room, ?_, hhas, add_lastMarkerId e⟩
    rw [Counted, hhas] at hcount
    rw [Counted, add_hasTileIndices, add_tileCount, hhas]
    exact hcount
  | false =>
    have hindex : m.tileCount = e.tileIndex := by
      rw [Counted, hhas] at hcount
      exact hcount.trans (he.plain hhas).symm
    have hu16 : u16 (e.tileIndex + 1) = e.tileIndex + 1 := by
      exact mod_eq_of_lt (by omega)
    have hread : m.readEntry T e.length =
        ({ m with tileCount := e.tileIndex + 1 } : TLMMarker).add e := by
      simp [TLMMarker.readEntry, hhas, if_neg hlong, hindex, hu16, h.tiles, if_neg htile, h.valid]
    have h' : Recorded numTiles entries { m with tileCount := e.tileIndex + 1 } := { h with }
    rw [hread]
    refine ⟨h'.add he.room, ?_, hhas, add_lastMarkerId e⟩
    rw [Counted, add_hasTileIndices, add_tileCount, length_append]
    simp [hhas, he.plain hhas]

theorem Recorded.foldl_readEntry (htiles : numTiles ≤ 65535) (h : Recorded numTiles before m)
    (hcount : Counted before m) (hindexed : m.hasTileIndices = decide (s.iT ≠ 0))
    (hentries : ∀ i e, entries[i]? = some e →
      Legible numTiles m.hasTileIndices (before ++ entries.take i) e) :
    let m' := entries.foldl (fun m e => m.readEntry (signalledIndex s e) e.length) m
    Recorded numTiles (before ++ entries) m' ∧ Counted (before ++ entries) m' ∧
      m'.hasTileIndices = m.hasTileIndices ∧
      m'.markerManager.lastMarkerId = m.markerManager.lastMarkerId := by
  induction entries generalizing before m with
  | nil => simpa using ⟨h, hcount⟩
  | cons e entries ih =>
    have he := hentries 0 e rfl
    rw [take_zero, append_nil] at he
    obtain ⟨hrec, hcount', hhas, hlast⟩ := h.readEntry hcount htiles he
      (T := signalledIndex s e) (by
        intro hyes
        rw [hindexed, decide_eq_true_eq] at hyes
        rw [signalledIndex, if_neg hyes])
    have hrest := ih hrec hcount' (hhas.trans hindexed) (by
      intro i e' he'
      have := hentries (i + 1) e' he'
      rw [hhas]
      rwa [take_succ_cons, append_cons] at this)
    rw [← append_cons] at hrest
    rw [foldl_cons]
    exact ⟨hrest.1, hrest.2.1, hrest.2.2.1.trans hhas, hrest.2.2.2.trans hlast⟩

theorem read_eq (hiT : s.iT ≤ 2) (hfits : ∀ e ∈ s.entries, s.Fits e)
    (hsize : tlm_marker_start_bytes ≤ s.body.length) (m : TLMMarker) :
    m.read s.body = (true, s.entries.foldl (fun m e => m.readEntry (signalledIndex s e) e.length)
      ((m.checkId s.Ztlm).checkIndices s.iT)) := by
  obtain ⟨hlegal, hwide, hindex⟩ := TLMSegment.Stlm_fields hiT
  have hbytes : (if s.Stlm >>> 6 % 2 = 1 then 4 else 2) = s.lengthBytes := by
    unfold TLMSegment.lengthBytes
    by_cases h : s.wide = true
    · rw [if_pos h, if_pos (hwide.mpr h)]
    · rw [if_neg h, if_neg (mt hwide.mp h)]
  have hpos := s.lengthBytes_pos
  have hshort : ¬ (s.entries.flatMap s.entryBytes).length + 2 < tlm_marker_start_bytes :=
    Nat.not_lt.mpr hsize
  have hmod : ¬ (s.entries.flatMap s.entryBytes).length % (s.lengthBytes + s.iT) ≠ 0 := by
    rw [s.length_flatMap_entryBytes, mul_mod_left]
    simp
  have hdiv : (s.entries.flatMap s.entryBytes).length / (s.lengthBytes + s.iT) =
      s.entries.length := by
    rw [s.length_flatMap_entryBytes, Nat.mul_div_cancel _ (by omega)]
  have hthree : s.iT ≠ 3 := by omega
  rw [TLMSegment.body, read, if_neg hshort]
  simp only [hlegal, hbytes, hindex, ne_eq, not_true_eq_false, if_false, if_neg hthree, hdiv]
  rw [if_neg hmod, readEntries_eq hfits]

theorem Recorded.read (htiles : numTiles ≤ 65535) (h : Recorded numTiles before m)
    (hcount : Counted before m) (hid : m.markerManager.lastMarkerId < s.Ztlm) (hiT : s.iT ≤ 2)
    (hindexed : before ≠ [] → m.hasTileIndices = decide (s.iT ≠ 0))
    (hfits : ∀ e ∈ s.entries, s.Fits e) (hsize : tlm_marker_start_bytes ≤ s.body.length)
    (hentries : ∀ i e, s.entries[i]? = some e →
      Legible numTiles (decide (s.iT ≠ 0)) (before ++ s.entries.take i) e) :
    ∃ m', m.read s.body = (true, m') ∧ Recorded numTiles (before ++ s.entries) m' ∧
      Counted (before ++ s.entries) m' ∧ m'.hasTileIndices = decide (s.iT ≠ 0) ∧
      m'.markerManager.lastMarkerId = s.Ztlm := by
  have hcheck : m.checkId s.Ztlm =
      { m with markerManager := { m.markerManager with lastMarkerId := s.Ztlm } } := by
    simp [checkId, TLMMarkerManager.validateMarkerId, h.valid, h.managerValid, Int.not_le.mpr hid]
  let m₀ : TLMMarker := { m with
    markerManager := { m.markerManager with lastMarkerId := s.Ztlm }
    hasTileIndices := decide (s.iT ≠ 0) }
  have hindices : (m.checkId s.Ztlm).checkIndices s.iT = m₀ := by
    rw [hcheck, checkIndices]
    by_cases hne : before = []
    · rw [if_pos (h.lengths.trans hne)]
    · have hsame := hindexed hne
      rw [if_neg (by rw [← h.lengths] at hne; exact hne), if_neg (by simp [hsame])]
      simp only [m₀, ← hsame]
  have hrec : Recorded numTiles before m₀ := { h with }
  have hcount₀ : Counted before m₀ := by
    by_cases hne : before = []
    · have hzero : m.tileCount = 0 := by
        rw [Counted, hne] at hcount
        simpa using hcount
      rw [Counted, hne]
      simpa using hzero
    · rw [Counted, hindexed hne] at hcount
      exact hcount
  obtain ⟨hrec', hcount', hhas, hlast⟩ := hrec.foldl_readEntry htiles hcount₀ rfl hentries
  refine ⟨_, ?_, hrec', hcount', hhas, hlast⟩
  rw [read_eq hiT hfits hsize, hindices]

theorem recordedAll {segments : List TLMSegment} (htiles : numTiles ≤ 65535) {indexed : Bool}
    (first : Nat) (h : Recorded numTiles before m) (hcount : Counted before m)
    (hhas : before ≠ [] → m.hasTileIndices = indexed)
    (hlast : m.markerManager.lastMarkerId < first)
    (hids : ∀ i s, segments[i]? = some s → s.Ztlm = first + i)
    (hsegments : ∀ s ∈ segments, decide (s.iT ≠ 0) = indexed ∧ s.iT ≤ 2 ∧
      (∀ e ∈ s.entries, s.Fits e) ∧ tlm_marker_start_bytes ≤ s.body.length)
    (hentries : ∀ i e, (segments.flatMap (·.entries))[i]? = some e →
      Legible numTiles indexed (before ++ (segments.flatMap (·.entries)).take i) e) :
    ∃ m', readAll m (segments.map (·.body)) = some m' ∧
      Recorded numTiles (before ++ segments.flatMap (·.entries)) m' := by
  induction segments generalizing before m first with
  | nil => exact ⟨m, rfl, by simpa using h⟩
  | cons s segments ih =>
    obtain ⟨hindexed, hiT, hfits, hsize⟩ := hsegments s mem_cons_self
    have hid : s.Ztlm = first := hids 0 s rfl
    rw [flatMap_cons] at hentries ⊢
    obtain ⟨m', hread, hrec, hcount', hhas', hlast'⟩ := h.read htiles hcount (hid ▸ hlast) hiT
      (hindexed ▸ hhas) hfits hsize (by
        intro i e he
        have hi := (List.getElem?_eq_some_iff.mp he).1
        have := hentries i e (by rw [List.getElem?_append_left hi]; exact he)
        rwa [take_append_of_le_length hi.le, ← hindexed] at this)
    obtain ⟨m'', hreadAll, hrec'⟩ := ih (first + 1) hrec hcount'
      (fun _ => hhas'.trans hindexed) (by rw [hlast', hid]; omega)
      (by
        intro i s' hs'
        rw [hids (i + 1) s' hs']
        omega)
      (fun s' hs' => hsegments s' (mem_cons_of_mem _ hs'))
      (by
        intro i e he
        have := hentries (s.entries.length + i) e
          (by rw [List.getElem?_append_right (by omega)]; simpa using he)
        rwa [take_length_add_append, ← append_assoc] at this)
    refine ⟨m'', ?_, by rwa [append_assoc] at hrec'⟩
    rw [map_cons, readAll, hread]
    exact hreadAll

end TLMMarker

/-- A sequence of segments as the standard lays it out: consecutive `Ztlm`, whole entries that name
tiles of the image. Entries without an index name the tiles in order. -/
structure TLMWellFormed (numTiles : Nat) (segments : List TLMSegment) : Prop where
  tiles : numTiles ≤ 65535
  ids : ∃ first, ∀ (i : Nat) (s : TLMSegment), segments[i]? = some s →
    s.Ztlm = first + i ∧ s.Ztlm < 256
  sizes : ∀ s ∈ segments, s.iT ≤ 2 ∧ s.entries ≠ [] ∧ s.body.length ≤ 65533
  entries : ∀ s ∈ segments, ∀ e ∈ s.entries, s.Fits e ∧ e.tileIndex < numTiles
  plain : ∀ (k : Nat) (e : TilePartLength),
    ((segments.filter (·.iT = 0)).flatMap (·.entries))[k]? = some e → e.tileIndex = k

/-- What `read` asks for beyond that. -/
structure TLMReadable (segments : List TLMSegment) : Prop where
  /-- Segments with and without tile indices are not mixed. -/
  uniform : ∀ s ∈ segments, ∀ s' ∈ segments, s.iT = 0 → s'.iT = 0
  /-- No tile part is shorter than SOT and SOD. -/
  long : ∀ s ∈ segments, ∀ e ∈ s.entries, 14 ≤ e.length
  /-- Tile parts are numbered in eight bits. -/
  perTile : ∀ t, (segments.flatMap (·.entries)).countP (·.tileIndex = t) ≤ 256
  /-- The length that `read` tests counts the marker and its length field as well. -/
  sixBytes : ∀ s ∈ segments, TLMMarker.tlm_marker_start_bytes ≤ s.body.length

theorem TLMWellFormed.legible {numTiles : Nat} {segments : List TLMSegment} {indexed : Bool}
    (h : TLMWellFormed numTiles segments) (hr : TLMReadable segments)
    (hindexed : ∀ s ∈ segments, decide (s.iT ≠ 0) = indexed) (i : Nat) (e : TilePartLength)
    (he : (segments.flatMap (·.entries))[i]? = some e) :
    TLMMarker.Legible numTiles indexed ((segments.flatMap (·.entries)).take i) e := by
  obtain ⟨s, hs, hes⟩ := mem_flatMap.mp (mem_of_getElem? he)
  refine ⟨hr.long s hs e hes, (h.entries s hs e hes).2, ?_, ?_⟩
  · have hsub := ((segments.flatMap (·.entries)).take_sublist (i + 1)).countP_le
      (p := (·.tileIndex = e.tileIndex))
    rw [take_add_one, he, countP_append, toList_some, countP_singleton, if_pos (by simp)] at hsub
    have := hr.perTile e.tileIndex
    omega
  · rintro rfl
    have hfilter : segments.filter (·.iT = 0) = segments := by
      rw [filter_eq_self]
      intro s' hs'
      simpa using hindexed s' hs'
    have hi := (List.getElem?_eq_some_iff.mp he).1
    rw [h.plain i e (by rw [hfilter]; exact he), length_take]
    omega

/-- **Segments that the reader does not refuse are recorded exactly**: every tile gets the entries
that name it, in order, each behind all earlier ones. -/
theorem readAll_records {numTiles : Nat} {segments : List TLMSegment}
    (h : TLMWellFormed numTiles segments) (hr : TLMReadable segments) :
    ∃ m, TLMMarker.readAll { numSignalledTiles := numTiles } (segments.map (·.body)) = some m ∧
      m.valid = true ∧
      ∀ t, (m.tilePartsPerTile t).slices = partsFrom t 0 (segments.flatMap (·.entries)) := by
  obtain ⟨first, hids⟩ := h.ids
  obtain ⟨indexed, hindexed⟩ : ∃ indexed, ∀ s ∈ segments, decide (s.iT ≠ 0) = indexed := by
    cases segments with
    | nil => exact ⟨false, fun s hs => nomatch hs⟩
    | cons s₀ rest =>
      refine ⟨decide (s₀.iT ≠ 0), ?_⟩
      intro s hs
      have hforth := hr.uniform s hs s₀ mem_cons_self
      have hback := hr.uniform s₀ mem_cons_self s hs
      by_cases hzero : s.iT = 0
      · simp [hzero, hforth hzero]
      · simp [hzero, mt hback hzero]
  obtain ⟨m, hread, hrec⟩ := TLMMarker.recordedAll h.tiles first
    (TLMMarker.recorded_nil numTiles) rfl (fun hne => absurd rfl hne)
    (by simp only; omega)
    (fun i s hs => (hids i s hs).1)
    (fun s hs => ⟨hindexed s hs, (h.sizes s hs).1, fun e he => (h.entries s hs e he).1,
      hr.sixBytes s hs⟩)
    (by
      intro i e he
      exact h.legible hr hindexed i e he)
  exact ⟨m, hread, hrec.valid, hrec.parts⟩

theorem forall_getElem? {α : Type} {p : Nat → α → Prop} {l : List α}
    (h : ∀ i (hi : i < l.length), p i l[i]) (i : Nat) (a : α) (ha : l[i]? = some a) : p i a := by
  obtain ⟨hi, rfl⟩ := List.getElem?_eq_some_iff.mp ha
  exact h i hi

/-- Two tile parts of each of two tiles, in two segments of different widths. -/
def twoSegments : List TLMSegment :=
  [⟨0, 2, true, [⟨0, 100⟩, ⟨1, 200⟩]⟩, ⟨1, 1, false, [⟨0, 300⟩, ⟨1, 50⟩]⟩]

theorem readAll_twoSegments :
    ∃ m, TLMMarker.readAll { numSignalledTiles := 2 } (twoSegments.map (·.body)) = some m ∧
      m.valid = true ∧
      ∀ t, (m.tilePartsPerTile t).slices = partsFrom t 0 (twoSegments.flatMap (·.entries)) := by
  refine readAll_records ⟨by decide, ⟨0, forall_getElem? (by decide)⟩, by decide, by decide,
    forall_getElem? (by decide)⟩ ⟨by decide, by decide, fun t => ?_, by decide⟩
  exact countP_le_length.trans (by decide)

/-- A tile part of 13 bytes turns the markers off, and so do entries without an index after others
with one; a body of four bytes is refused; and the tile part after 256 of a tile is lost. -/
theorem readAll_refuses :
    (TLMWellFormed 1 [⟨0, 1, true, [⟨0, 13⟩]⟩] ∧
      (TLMMarker.readAll { numSignalledTiles := 1 }
        [(TLMSegment.mk 0 1 true [⟨0, 13⟩]).body]).map (·.valid) = some false) ∧
    (TLMWellFormed 1 [⟨0, 1, true, [⟨0, 20⟩]⟩, ⟨1, 0, true, [⟨0, 20⟩]⟩] ∧
      (TLMMarker.readAll { numSignalledTiles := 1 }
        [(TLMSegment.mk 0 1 true [⟨0, 20⟩]).body, (TLMSegment.mk 1 0 true [⟨0, 20⟩]).body]).map
          (·.valid) = some false) ∧
    (TLMWellFormed 1 [⟨0, 0, false, [⟨0, 20⟩]⟩] ∧
      (TLMMarker.readAll { numSignalledTiles := 1 }
        [(TLMSegment.mk 0 0 false [⟨0, 20⟩]).body]).isNone = true) ∧
    ∀ m : TLMMarker, (m.tilePartsPerTile 0).slices.length = 256 →
      ((m.add ⟨0, 20⟩).tilePartsPerTile 0).slices = (m.tilePartsPerTile 0).slices := by
  refine ⟨⟨⟨by decide, ⟨0, ?_⟩, by decide, by decide, ?_⟩, by decide⟩,
    ⟨⟨by decide, ⟨0, ?_⟩, by decide, by decide, ?_⟩, by decide⟩,
    ⟨⟨by decide, ⟨0, ?_⟩, by decide, by decide, ?_⟩, by decide⟩, fun m hfull => ?_⟩
  on_goal 7 =>
    simp only [TLMMarker.add, update_self, TPSeq.pushBack, hfull, u8]
    split <;> rfl
  all_goals exact forall_getElem? (by decide)

section Write

/-- `tlmMarkerBytesPerTilePart`: a tile index of two bytes and a length of four. -/
def tlmMarkerBytesPerTilePart : Nat := 6

/-- What `writeBegin` leaves in the stream from `streamStart` on. -/
def writeBegin (numTilePartsTotal : Nat) : List Nat :=
  let tlm_size := TLMMarker.tlm_marker_start_bytes + tlmMarkerBytesPerTilePart * numTilePartsTotal
  beBytes 2 TLM ++ beBytes 2 (u16 (tlm_size - 2)) ++ [0, 0x60] ++
    List.replicate (tlmMarkerBytesPerTilePart * numTilePartsTotal) 0

/-- `writeEnd` on what `writeBegin` left: the lengths go behind the start of the segment. -/
def writeEnd (reserved : List Nat) (tilePartLengths : List TilePartLength) : List Nat :=
  let bytes := tilePartLengths.flatMap fun e => beBytes 2 e.tileIndex ++ beBytes 4 e.length
  reserved.take TLMMarker.tlm_marker_start_bytes ++ bytes ++
    reserved.drop (TLMMarker.tlm_marker_start_bytes + bytes.length)

/-- The body that `MarkerParser::processMarker` hands to the reader of a segment. -/
def markerBody (segment : List Nat) : Option (List Nat) :=
  let markerBodyLength := ofBytes ((segment.drop 2).take 2)
  if markerBodyLength ≤ 2 then none
  else readAt segment 4 (markerBodyLength - 2)

/-- The tile parts of a compressed image, as they are added: every image has some, and a tile part
has at least SOT and SOD. -/
structure TilePartsWritten (numTiles : Nat) (added : List TilePartLength) : Prop where
  tiles : numTiles ≤ 65535
  some : added ≠ []
  total : added.length ≤ 65535
  perTile : ∀ t, added.countP (·.tileIndex = t) ≤ 255
  tile : ∀ e ∈ added, e.tileIndex < numTiles
  length : ∀ e ∈ added, 14 ≤ e.length ∧ e.length < 2 ^ 32

/-- The written segment reads back as the tile parts that were added. -/
def TLMRoundTrips (numTiles : Nat) (added : List TilePartLength) : Prop :=
  ∃ body m, markerBody (writeEnd (writeBegin added.length) added) = some body ∧
    TLMMarker.read { numSignalledTiles := numTiles } body = (true, m) ∧ m.valid = true ∧
    ∀ t, t < numTiles → (m.tilePartsPerTile t).slices = partsFrom t 0 added

/-- The segment that is meant by what is written. -/
def writtenSegment (added : List TilePartLength) : TLMSegment := ⟨0, 2, true, added⟩

variable {numTiles : Nat} {added : List TilePartLength}

theorem length_body_written (added : List TilePartLength) :
    (writtenSegment added).body.length = 2 + 6 * added.length := by
  have hlen := (writtenSegment added).length_flatMap_entryBytes added
  rw [show (writtenSegment added).lengthBytes + (writtenSegment added).iT = 6 from rfl] at hlen
  rw [TLMSegment.body, length_cons, length_cons]
  simp only [writtenSegment] at hlen ⊢
  omega

theorem writeEnd_eq (added : List TilePartLength) : writeEnd (writeBegin added.length) added =
    beBytes 2 TLM ++ beBytes 2 (u16 (4 + 6 * added.length)) ++ (writtenSegment added).body := by
  have hbytes : (fun e : TilePartLength => beBytes 2 e.tileIndex ++ beBytes 4 e.length) =
      (writtenSegment added).entryBytes := rfl
  have hlen := (writtenSegment added).length_flatMap_entryBytes added
  have hwidth : (writtenSegment added).lengthBytes + (writtenSegment added).iT = 6 := rfl
  have hsize : 6 + 6 * added.length - 2 = 4 + 6 * added.length := by omega
  rw [hwidth] at hlen
  simp only [writeEnd, writeBegin, TLMMarker.tlm_marker_start_bytes, tlmMarkerBytesPerTilePart,
    hbytes, hlen, hsize]
  rw [take_left' (by simp), drop_of_length_le (by simp; omega), append_nil,
    append_assoc _ [0, 0x60]]
  rfl

theorem markerBody_written (added : List TilePartLength) :
    markerBody (writeEnd (writeBegin added.length) added) =
      if u16 (4 + 6 * added.length) ≤ 2 then none
      else some ((writtenSegment added).body.take (u16 (4 + 6 * added.length) - 2)) := by
  have hmod : u16 (4 + 6 * added.length) ≤ 4 + 6 * added.length := mod_le _ _
  have hlt : u16 (4 + 6 * added.length) < 256 ^ 2 := mod_lt _ (by decide)
  rw [writeEnd_eq]
  unfold markerBody
  rw [append_assoc, drop_left' (length_beBytes 2 _), take_left' (length_beBytes 2 _),
    ofBytes_beBytes hlt]
  simp only
  congr 1
  rw [readAt, if_pos (by simp [length_body_written]; omega), ← append_assoc, drop_left' (by simp)]

variable {k : Nat}

theorem TilePartsWritten.read_take (h : TilePartsWritten numTiles added) (hk : 0 < k)
    (hka : k ≤ added.length) :
    ∃ m, TLMMarker.read { numSignalledTiles := numTiles } (writtenSegment (added.take k)).body =
      (true, m) ∧ TLMMarker.Recorded numTiles (added.take k) m := by
  have hsub : ∀ {e : TilePartLength}, e ∈ added.take k → e ∈ added := mem_of_mem_take
  obtain ⟨m, hread, hrec, -⟩ := (TLMMarker.recorded_nil numTiles).read
    (s := writtenSegment (added.take k)) h.tiles rfl (by simp [writtenSegment])
    (by simp [writtenSegment])
    (fun hne => absurd rfl hne)
    (by
      intro e he
      have htile := h.tile e (hsub he)
      have htiles := h.tiles
      have hlength := h.length e (hsub he)
      refine ⟨fun _ => ?_, hlength.2⟩
      simp only [writtenSegment]
      omega)
    (by
      rw [length_body_written, length_take, TLMMarker.tlm_marker_start_bytes]
      omega)
    (by
      intro i e he
      have he' : e ∈ added := hsub (mem_of_getElem? he)
      refine ⟨(h.length e he').1, h.tile e he', ?_, fun hno => nomatch hno⟩
      have hle := (((added.take k).take_sublist i).trans (added.take_sublist k)).countP_le
        (p := (·.tileIndex = e.tileIndex))
      have hroom := h.perTile e.tileIndex
      simp only [writtenSegment, nil_append]
      omega)
  exact ⟨m, hread, hrec⟩

theorem take_flatMap_entryBytes (s : TLMSegment) (entries : List TilePartLength) (k : Nat) :
    (entries.flatMap s.entryBytes).take (k * (s.lengthBytes + s.iT)) =
      (entries.take k).flatMap s.entryBytes := by
  induction entries generalizing k with
  | nil => simp
  | cons e entries ih =>
    cases k with
    | zero => simp
    | succ k =>
      rw [flatMap_cons, take_succ_cons, flatMap_cons, ← ih, succ_mul,
        Nat.add_comm, ← s.length_entryBytes e, take_length_add_append]

theorem countP_take_lt {α : Type} {p : α → Bool} {l : List α} (hk : k < l.length)
    (hp : p l[k] = true) : (l.take k).countP p < l.countP p := by
  have hsplit : (l.take k ++ l.drop k).countP p = (l.take k).countP p + (l.drop k).countP p :=
    countP_append
  rw [take_append_drop, drop_eq_getElem_cons hk, countP_cons_of_pos hp] at hsplit
  omega

theorem read_written_true {m m' : TLMMarker} {j : Nat} {data : List Nat}
    (h : m.read ((0 :: 0x60 :: data).take j) = (true, m')) :
    6 ≤ j ∧ (data.take (j - 2)).length % 6 = 0 := by
  obtain rfl | rfl | ⟨i, rfl⟩ : j = 0 ∨ j = 1 ∨ ∃ i, j = i + 2 := by
    obtain _ | _ | i := j
    · exact .inl rfl
    · exact .inr (.inl rfl)
    · exact .inr (.inr ⟨i, rfl⟩)
  · simp [TLMMarker.read] at h
  · simp [TLMMarker.read] at h
  · rw [take_succ_cons, take_succ_cons, TLMMarker.read] at h
    split at h
    · simp at h
    case isFalse hsize =>
      have hi := length_take_le i data
      rw [TLMMarker.tlm_marker_start_bytes] at hsize
      refine ⟨by omega, ?_⟩
      by_contra hmod
      simp at h hmod
      simp [hmod] at h

theorem TilePartsWritten.not_roundTrips (h : TilePartsWritten numTiles added)
    (hmany : 10921 < added.length) : ¬ TLMRoundTrips numTiles added := by
  rintro ⟨body, m, hbody, hread, -, hparts⟩
  have hdata := length_body_written added
  rw [TLMSegment.body, length_cons, length_cons] at hdata
  rw [markerBody_written] at hbody
  split at hbody
  · cases hbody
  obtain rfl := some.inj hbody
  obtain ⟨hlong, hwhole⟩ := read_written_true hread
  have hL : u16 (4 + 6 * added.length) < 65536 := mod_lt _ (by decide)
  -- the length field has wrapped, so that only the first `k` entries are in the body
  obtain ⟨k, hk⟩ : ∃ k, u16 (4 + 6 * added.length) - 2 - 2 = k * 6 := by
    rw [length_take] at hwhole
    simp only [writtenSegment] at hwhole hdata
    rw [Nat.min_eq_left (by omega)] at hwhole
    exact ⟨_, (Nat.div_mul_cancel (dvd_of_mod_eq_zero hwhole)).symm⟩
  have htaken : (writtenSegment added).body.take (u16 (4 + 6 * added.length) - 2) =
      (writtenSegment (added.take k)).body := by
    rw [show u16 (4 + 6 * added.length) - 2 = k * 6 + 2 by omega, TLMSegment.body,
      take_succ_cons, take_succ_cons]
    exact congrArg _ (congrArg _ (take_flatMap_entryBytes (writtenSegment added) added k))
  have hka : k < added.length := by omega
  obtain ⟨m', hread', hrec⟩ := h.read_take (k := k) (by omega) hka.le
  rw [htaken, hread'] at hread
  obtain rfl : m' = m := (Prod.mk.inj hread).2
  have hlost := hparts added[k].tileIndex (h.tile _ (getElem_mem hka))
  rw [hrec.parts] at hlost
  have hcount := congrArg List.length hlost
  rw [length_partsFrom, length_partsFrom] at hcount
  have hmore := countP_take_lt hka (p := (·.tileIndex = added[k].tileIndex)) (by simp)
  omega

/-- **The round trip holds exactly as long as the segment length fits 16 bits**, that is up to 10921
tile parts. -/
theorem tlm_roundTrips_iff (h : TilePartsWritten numTiles added) :
    TLMRoundTrips numTiles added ↔ added.length ≤ 10921 := by
  have hsome := length_pos_of_ne_nil h.some
  constructor
  · intro hround
    apply Nat.le_of_not_lt
    intro hmany
    exact h.not_roundTrips hmany hround
  · intro hfew
    have hL : u16 (4 + 6 * added.length) = 4 + 6 * added.length := mod_eq_of_lt (by omega)
    obtain ⟨m, hread, hrec⟩ := h.read_take hsome le_rfl
    rw [take_length] at hread hrec
    refine ⟨_, m, ?_, hread, hrec.valid, fun t _ => hrec.parts t⟩
    rw [markerBody_written, hL, if_neg (by omega), take_of_length_le]
    rw [length_body_written]
    omega

/-- One tile part of 14 bytes for each of `n` tiles. -/
def onePerTile (n : Nat) : List TilePartLength := (List.range n).map fun t => ⟨t, 14⟩

theorem onePerTile_written {n : Nat} (hpos : 0 < n) (hn : n ≤ 65535) :
    TilePartsWritten n (onePerTile n) where
  tiles := hn
  some := by
    intro hnil
    have := congrArg List.length hnil
    simp [onePerTile] at this
    omega
  total := by
    rw [onePerTile, length_map, length_range]
    exact hn
  perTile := by
    intro t
    have hone := nodup_iff_count_le_one.mp (nodup_range (n := n)) t
    rw [onePerTile, countP_map]
    refine (le_of_eq ?_).trans (hone.trans (by decide))
    rw [List.count]
    apply countP_congr
    intro i _
    simp
  tile := by
    intro e he
    obtain ⟨t, ht, rfl⟩ := mem_map.mp he
    exact mem_range.mp ht
  length := by
    intro e he
    obtain ⟨t, _, rfl⟩ := mem_map.mp he
    exact ⟨le_rfl, by simp⟩

theorem tlm_roundTrips_onePerTile : TLMRoundTrips 100 (onePerTile 100) :=
  (tlm_roundTrips_iff (onePerTile_written (by decide) (by decide))).mpr
    (by rw [onePerTile, length_map, length_range]; decide)

/-- With 10922 tiles the length field of the segment is 0. -/
theorem tlm_roundTrip_fails : TilePartsWritten 10922 (onePerTile 10922) ∧
    ¬ TLMRoundTrips 10922 (onePerTile 10922) := by
  have hwritten := onePerTile_written (n := 10922) (by decide) (by decide)
  refine ⟨hwritten, hwritten.not_roundTrips ?_⟩
  rw [onePerTile, length_map, length_range]
  decide

end Write

end GrokCodec.Codestream
