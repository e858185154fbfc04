import GrokCodec.Codestream.TLMMarker
import GrokCodec.T2.FetchRanges
import GrokCodec.T2.SelectiveFetchRanges

/-!
The fetch sequence of a tile of which only some byte ranges are wanted. The entries of the
sequence are numbered as tile parts are, in eight bits.
-/

namespace GrokCodec.Codestream

open PacketIter T2 List Option

def DataSlice.Contains (s : DataSlice) (a : Nat) : Prop := s.offset ≤ a ∧ a < s.offset + s.length

/-- A loop that pushes slices in order, with index, count and length narrowed, and does not look
at the returned flags. -/
def TPSeq.pushAll (numTileParts : Nat) (slices : List DataSlice) : TPSeq :=
  slices.zipIdx.foldl (fun s (slice, i) =>
    (s.pushBack (u8 i) (u8 numTileParts) slice.offset (u32 slice.length)).2) {}

def copyFullTileParts (srcParts : List DataSlice) : TPSeq := .pushAll srcParts.length srcParts

/-- The entries of several tile parts when the needed bytes are the first ones. -/
def distribute : Nat → List (DataSlice × TilePartHeaderInfo) → List DataSlice
  | _, [] => []
  | remainingNeeded, (part, headerInfo) :: parts =>
    if headerInfo.valid = false then part :: distribute remainingNeeded parts
    else
      let tpDataSize := part.length - headerInfo.sodOffset - 2
      if remainingNeeded ≥ tpDataSize then part :: distribute (remainingNeeded - tpDataSize) parts
      else ⟨part.offset, headerInfo.sodOffset + 2 + remainingNeeded⟩ :: distribute 0 parts

/-- The header of the tile part and one entry for every range. -/
def splitEntries (part : DataSlice) (headerInfo : TilePartHeaderInfo) (ranges : List FetchRange) :
    List DataSlice :=
  ⟨part.offset, headerInfo.sodOffset + 2⟩ ::
    ranges.map fun r => ⟨part.offset + headerInfo.sodOffset + 2 + r.offset, r.length⟩

/-- What `buildSelectiveTileParts` does with the ranges. -/
def entriesOfRanges (headerInfos : List TilePartHeaderInfo) (srcParts : List DataSlice)
    (ranges : List FetchRange) : TPSeq :=
  match ranges with
  | [] => copyFullTileParts srcParts
  | first :: more =>
    if more = [] ∧ first.offset = 0 then
      match srcParts, headerInfos with
      | [part], headerInfo :: _ =>
        .pushAll 1 [⟨part.offset, min (headerInfo.sodOffset + 2 + first.length) part.length⟩]
      | _, _ => .pushAll srcParts.length (distribute first.length (srcParts.zip headerInfos))
    else
      match srcParts, headerInfos with
      | [part], headerInfo :: _ =>
        .pushAll (1 + ranges.length) (splitEntries part headerInfo ranges)
      | _, _ => copyFullTileParts srcParts

/-- A bound of the tile component, with the sum in 32 bits. -/
def tileCompBound (x d : Nat) : Nat := u32 (x + d - 1) / d

def tileCompBounds (bounds : Rect) (comp : Component) : Rect :=
  ⟨tileCompBound bounds.x0 comp.dx, tileCompBound bounds.y0 comp.dy,
    tileCompBound bounds.x1 comp.dx, tileCompBound bounds.y1 comp.dy⟩

/-- The description of a tile under the coding parameters of the main header. -/
def tilePacketInfo (T : Tile) (prg : ProgOrder) (pltLengths : List Nat) : TilePacketInfo where
  progression := prg
  numComponents := T.numcomps
  numLayers := T.numLayers
  numResolutions := (List.range T.numcomps).map fun c => (T.comps c).numresolutions
  precinctsPerRes := (List.range T.numcomps).map fun c =>
    let comp := T.comps c
    (List.range comp.numresolutions).map fun r =>
      computeNumPrecincts (tileCompBounds T.bounds comp) comp.numresolutions r
        (comp.precWidthExp r) (comp.precHeightExp r)
  pltLengths

/-- The ranges that `buildSelectiveTileParts` asks for. -/
def selectiveRanges (T : Tile) (prg : ProgOrder) (headerInfos : List TilePartHeaderInfo)
    (reduce : Nat) : List FetchRange :=
  let tpi := tilePacketInfo T prg (headerInfos.flatMap (·.pltLengths))
  let targetRes := if tpi.maxRes > reduce then tpi.maxRes - reduce else 1
  computeSelectiveFetchRanges tpi targetRes 0

def buildSelectiveTileParts (T : Tile) (prg : ProgOrder) (headerInfos : List TilePartHeaderInfo)
    (srcParts : List DataSlice) (reduce : Nat) : TPSeq :=
  if headerInfos.any (fun info => !info.valid || info.pltLengths.isEmpty) then
    copyFullTileParts srcParts
  else entriesOfRanges headerInfos srcParts (selectiveRanges T prg headerInfos reduce)

/-- `TPFetchSeq::incrementFetchCount`: the count of the entries that have been fetched. -/
def incrementFetchCount (fetchCount : Nat) : Nat := u8 (fetchCount + 1)

/-- After the last of `size` entries the count says that all of them have been fetched. -/
def allFetched (size : Nat) : Bool := incrementFetchCount^[size] 0 = size

theorem allFetched_iff {size : Nat} : allFetched size = true ↔ size ≤ 255 := by
  have hcount : ∀ n, incrementFetchCount^[n] 0 = n % 256 := by
    intro n
    induction n with
    | zero => rfl
    | succ n ih =>
      rw [Function.iterate_succ_apply', ih, incrementFetchCount, u8]
      omega
  rw [allFetched, decide_eq_true_eq, hcount]
  omega

/-- A slice with its length narrowed to 32 bits. -/
def DataSlice.narrow (s : DataSlice) : DataSlice := ⟨s.offset, u32 s.length⟩

theorem DataSlice.narrow_of_lt {s : DataSlice} (h : s.length < 2 ^ 32) : s.narrow = s := by
  rw [DataSlice.narrow, u32_of_lt h]

/-- Indices of eight bits number 256 slices; the others are refused. -/
theorem TPSeq.pushAll_spec (numTileParts : Nat) (slices : List DataSlice) :
    (pushAll numTileParts slices).slices = (slices.take 256).map DataSlice.narrow ∧
      ((pushAll numTileParts slices).signalledNumTileParts = 0 ∨
        (pushAll numTileParts slices).signalledNumTileParts = u8 numTileParts) := by
  induction slices using reverseRecOn with
  | nil => exact ⟨rfl, .inl rfl⟩
  | append_singleton slices slice ih =>
    have hpush : pushAll numTileParts (slices ++ [slice]) =
        ((pushAll numTileParts slices).pushBack (u8 slices.length) (u8 numTileParts) slice.offset
          (u32 slice.length)).2 := by
      simp [pushAll, zipIdx_append]
    obtain ⟨hslices, hsignalled⟩ := ih
    have hsame : ¬ ((pushAll numTileParts slices).signalledNumTileParts ≠ 0 ∧
        u8 numTileParts ≠ (pushAll numTileParts slices).signalledNumTileParts) := by
      rcases hsignalled with h | h <;> simp [h]
    rw [hpush, pushBack, if_neg hsame]
    have hcount : (pushAll numTileParts slices).slices.length = min 256 slices.length := by
      rw [hslices, length_map, length_take]
    by_cases hlt : slices.length < 256
    · have hindex : u8 slices.length = slices.length := Nat.mod_eq_of_lt hlt
      rw [if_neg (by simp only [hcount, hindex]; omega)]
      refine ⟨?_, .inr rfl⟩
      rw [take_of_length_le (by simp; omega), map_append]
      simp only [hslices, take_of_length_le hlt.le]
      rfl
    · have hindex : u8 slices.length < 256 := Nat.mod_lt _ (by decide)
      rw [if_pos (by simp only [hcount]; omega)]
      refine ⟨?_, .inr rfl⟩
      rw [take_append_of_le_length (by omega)]
      exact hslices

theorem TPSeq.pushAll_slices {numTileParts : Nat} {slices : List DataSlice}
    (hcount : slices.length ≤ 256) (hshort : ∀ s ∈ slices, s.length < 2 ^ 32) :
    (pushAll numTileParts slices).slices = slices := by
  rw [(pushAll_spec numTileParts slices).1, take_of_length_le hcount]
  conv_rhs => rw [← map_id slices]
  apply map_congr_left
  intro s hs
  exact DataSlice.narrow_of_lt (hshort s hs)

/-- Where byte `b` of the packet data of a tile is in the code stream. -/
def dataAddress : List (DataSlice × TilePartHeaderInfo) → Nat → Option Nat
  | [], _ => none
  | (part, headerInfo) :: parts, b =>
    let tpDataSize := part.length - headerInfo.sodOffset - 2
    if b < tpDataSize then some (part.offset + headerInfo.sodOffset + 2 + b)
    else dataAddress parts (b - tpDataSize)

/-- What the tile parts have to be for an entry to hold them: SOD lies inside its tile part, and
their count and lengths fit the fields of a sequence. -/
structure FetchLimits (headerInfos : List TilePartHeaderInfo) (srcParts : List DataSlice) :
    Prop where
  infos : headerInfos.length = srcParts.length
  parts : srcParts.length ≤ 256
  sod : ∀ p ∈ srcParts.zip headerInfos, p.2.sodOffset + 2 ≤ p.1.length
  length : ∀ part ∈ srcParts, part.length < 2 ^ 32

/-- Count and lengths of ranges that become entries of their own, behind one for the header. -/
structure RangesFit (ranges : List FetchRange) : Prop where
  count : ranges.length ≤ 255
  short : ∀ r ∈ ranges, r.length < 2 ^ 32

/-- The case in which ranges become entries of their own: one tile part with packet lengths, and not
only one range at its start. -/
structure Splits (headerInfos : List TilePartHeaderInfo) (srcParts : List DataSlice)
    (ranges : List FetchRange) (part : DataSlice) (headerInfo : TilePartHeaderInfo) : Prop where
  srcParts_eq : srcParts = [part]
  headerInfos_eq : headerInfos = [headerInfo]
  valid : headerInfo.valid = true
  pltLengths : headerInfo.pltLengths ≠ []
  some_range : ranges ≠ []
  not_lone : ∀ r, ranges = [r] → r.offset ≠ 0

section Delivery

variable {headerInfos : List TilePartHeaderInfo} {srcParts : List DataSlice}
  {ranges : List FetchRange}

theorem FetchLimits.copyFull (h : FetchLimits headerInfos srcParts) :
    (copyFullTileParts srcParts).slices = srcParts :=
  TPSeq.pushAll_slices h.parts h.length

variable {parts : List (DataSlice × TilePartHeaderInfo)} {a b : Nat}

theorem dataAddress_mem
    (h : dataAddress parts b = some a) : ∃ p ∈ parts, p.1.Contains a := by
  induction parts generalizing b with
  | nil => cases h
  | cons p parts ih =>
    obtain ⟨part, headerInfo⟩ := p
    simp only [dataAddress] at h
    split at h
    case isTrue hb =>
      have ha := some.inj h
      refine ⟨_, mem_cons_self, ?_, ?_⟩ <;> simp only <;> omega
    case isFalse =>
      obtain ⟨p, hp, hc⟩ := ih h
      exact ⟨p, mem_cons_of_mem _ hp, hc⟩

theorem dataAddress_mem_distribute
    {remainingNeeded : Nat} (hb : b < remainingNeeded) (h : dataAddress parts b = some a) :
    ∃ s ∈ distribute remainingNeeded parts, s.Contains a := by
  induction parts generalizing remainingNeeded b with
  | nil => cases h
  | cons p parts ih =>
    obtain ⟨part, headerInfo⟩ := p
    obtain hhere | hlater : b < part.length - headerInfo.sodOffset - 2 ∨
        part.length - headerInfo.sodOffset - 2 ≤ b := Nat.lt_or_ge _ _
    · simp only [dataAddress, if_pos hhere] at h
      have ha := some.inj h
      simp only [distribute]
      split
      · refine ⟨_, mem_cons_self, ?_, ?_⟩ <;> omega
      split
      · refine ⟨_, mem_cons_self, ?_, ?_⟩ <;> omega
      · refine ⟨_, mem_cons_self, ?_, ?_⟩ <;> simp only <;> omega
    · simp only [dataAddress, if_neg (Nat.not_lt.mpr hlater)] at h
      simp only [distribute]
      split
      · have hb' : b - (part.length - headerInfo.sodOffset - 2) < remainingNeeded := by omega
        obtain ⟨s, hs, hc⟩ := ih hb' h
        exact ⟨s, mem_cons_of_mem _ hs, hc⟩
      split
      · have hb' : b - (part.length - headerInfo.sodOffset - 2) <
            remainingNeeded - (part.length - headerInfo.sodOffset - 2) := by omega
        obtain ⟨s, hs, hc⟩ := ih hb' h
        exact ⟨s, mem_cons_of_mem _ hs, hc⟩
      · omega

theorem length_distribute (remainingNeeded : Nat) (parts : List (DataSlice × TilePartHeaderInfo)) :
    (distribute remainingNeeded parts).length = parts.length := by
  induction parts generalizing remainingNeeded with
  | nil => rfl
  | cons p parts ih =>
    simp only [distribute]
    split
    · rw [length_cons, length_cons, ih]
    split <;> rw [length_cons, length_cons, ih]

theorem distribute_short (remainingNeeded : Nat)
    (hsod : ∀ p ∈ parts, p.2.sodOffset + 2 ≤ p.1.length)
    (hlength : ∀ p ∈ parts, p.1.length < 2 ^ 32) :
    ∀ s ∈ distribute remainingNeeded parts, s.length < 2 ^ 32 := by
  induction parts generalizing remainingNeeded with
  | nil =>
    intro s hs
    cases hs
  | cons p parts ih =>
    obtain ⟨part, headerInfo⟩ := p
    have hpart := hlength _ mem_cons_self
    have hhead := hsod _ mem_cons_self
    have hrest (n : Nat) := ih n (fun q hq => hsod q (mem_cons_of_mem _ hq))
      fun q hq => hlength q (mem_cons_of_mem _ hq)
    simp only at hpart hhead
    intro s hs
    simp only [distribute] at hs
    split at hs
    · rcases mem_cons.mp hs with rfl | hs
      · exact hpart
      · exact hrest _ s hs
    split at hs
    · rcases mem_cons.mp hs with rfl | hs
      · exact hpart
      · exact hrest _ s hs
    · rcases mem_cons.mp hs with rfl | hs
      · simp only
        omega
      · exact hrest _ s hs

theorem FetchLimits.zip_length (h : FetchLimits headerInfos srcParts) :
    ∀ p ∈ srcParts.zip headerInfos, p.1.length < 2 ^ 32 :=
  fun p hp => h.length p.1 (of_mem_zip hp).1

variable {part : DataSlice} {headerInfo : TilePartHeaderInfo}

theorem FetchLimits.splitEntries
    (h : FetchLimits [headerInfo] [part]) (hfit : RangesFit ranges) :
    (TPSeq.pushAll (1 + ranges.length) (splitEntries part headerInfo ranges)).slices =
      splitEntries part headerInfo ranges := by
  have hsod := h.sod _ mem_cons_self
  have hpart := h.length _ mem_cons_self
  simp only at hsod
  apply TPSeq.pushAll_slices
  · have hcount := hfit.count
    simp only [Codestream.splitEntries, length_cons, length_map]
    omega
  · intro s hs
    rcases mem_cons.mp hs with rfl | hs
    · simp only
      omega
    · obtain ⟨r, hr, rfl⟩ := mem_map.mp hs
      exact hfit.short r hr

theorem entriesOfRanges_split
    (h : FetchLimits [headerInfo] [part]) (hfit : RangesFit ranges) (hne : ranges ≠ [])
    (hlone : ∀ r, ranges = [r] → r.offset ≠ 0) :
    (entriesOfRanges [headerInfo] [part] ranges).slices = splitEntries part headerInfo ranges := by
  cases ranges with
  | nil => exact absurd rfl hne
  | cons first more =>
    have hsplit : ¬ (more = [] ∧ first.offset = 0) := by
      rintro ⟨rfl, hzero⟩
      exact hlone first rfl hzero
    simp only [entriesOfRanges, if_neg hsplit]
    exact h.splitEntries hfit

theorem FetchLimits.copyFull_contains (h : FetchLimits headerInfos srcParts)
    (ha : dataAddress (srcParts.zip headerInfos) b = some a) :
    ∃ s ∈ (copyFullTileParts srcParts).slices, s.Contains a := by
  obtain ⟨p, hp, hc⟩ := dataAddress_mem ha
  rw [h.copyFull]
  exact ⟨p.1, (of_mem_zip hp).1, hc⟩

theorem dataAddress_single
    (ha : dataAddress [(part, headerInfo)] b = some a) :
    b < part.length - headerInfo.sodOffset - 2 ∧ a = part.offset + headerInfo.sodOffset + 2 + b := by
  simp only [dataAddress] at ha
  split at ha
  case isTrue hb => exact ⟨hb, (some.inj ha).symm⟩
  case isFalse => cases ha

theorem entriesOfRanges_lone {first : FetchRange} (hzero : first.offset = 0)
    (h : FetchLimits headerInfos srcParts) (hb : first.Contains b)
    (ha : dataAddress (srcParts.zip headerInfos) b = some a) :
    ∃ s ∈ (entriesOfRanges headerInfos srcParts [first]).slices, s.Contains a := by
  have hneeded : b < first.length := by
    have hend := hb.2
    rwa [FetchRange.end_, hzero, Nat.zero_add] at hend
  have hseveral : ∃ s ∈ (TPSeq.pushAll srcParts.length
      (distribute first.length (srcParts.zip headerInfos))).slices, s.Contains a := by
    rw [TPSeq.pushAll_slices ?_ (distribute_short _ h.sod h.zip_length)]
    · exact dataAddress_mem_distribute hneeded ha
    · have hparts := h.parts
      rw [length_distribute, length_zip]
      omega
  simp only [entriesOfRanges, hzero, and_self, if_true]
  split
  case h_1 part headerInfo rest =>
    have hpart := h.length _ mem_cons_self
    obtain ⟨hinside, rfl⟩ := dataAddress_single ha
    rw [TPSeq.pushAll_slices (by simp)]
    · refine ⟨_, mem_cons_self, ?_, ?_⟩ <;> simp only <;> omega
    · intro s hs
      rw [mem_singleton.mp hs]
      simp only
      omega
  case h_2 => exact hseveral

theorem entriesOfRanges_contains (h : FetchLimits headerInfos srcParts)
    (hfit : ∀ part headerInfo, srcParts = [part] → headerInfos = [headerInfo] →
      (∀ r, ranges = [r] → r.offset ≠ 0) → RangesFit ranges) {r : FetchRange}
    (hr : r ∈ ranges) (hb : r.Contains b) (ha : dataAddress (srcParts.zip headerInfos) b = some a) :
    ∃ s ∈ (entriesOfRanges headerInfos srcParts ranges).slices, s.Contains a := by
  cases ranges with
  | nil => cases hr
  | cons first more =>
    by_cases hlone : more = [] ∧ first.offset = 0
    · obtain ⟨rfl, hzero⟩ := hlone
      rw [mem_singleton.mp hr] at hb
      exact entriesOfRanges_lone hzero h hb ha
    simp only [entriesOfRanges, if_neg hlone]
    split
    case h_1 part headerInfo rest =>
      obtain rfl : rest = [] := by
        have hinfos := h.infos
        simpa using hinfos
      obtain ⟨_, rfl⟩ := dataAddress_single ha
      have hmany : ∀ r, first :: more = [r] → r.offset ≠ 0 := by
        rintro r ⟨⟩ hzero
        exact hlone ⟨rfl, hzero⟩
      rw [h.splitEntries (hfit part headerInfo rfl rfl hmany)]
      refine ⟨_, mem_cons_of_mem _ (mem_map_of_mem hr), ?_, ?_⟩
      · have hlo := hb.1
        simp only
        omega
      · have hhi := hb.2
        rw [FetchRange.end_] at hhi
        simp only
        omega
    case h_2 => exact h.copyFull_contains ha

/-- **Selective fetching delivers its ranges.** A tile part that is split becomes its header and
one entry for every range; otherwise the ranges lie inside longer entries, however many they are.
The end of fetching is seen for up to 255 entries, so for one range less. -/
theorem buildSelectiveTileParts_delivers (T : Tile) (prg : ProgOrder)
    (headerInfos : List TilePartHeaderInfo) (srcParts : List DataSlice) (reduce : Nat)
    (h : FetchLimits headerInfos srcParts) :
    let ranges := selectiveRanges T prg headerInfos reduce
    let entries := (buildSelectiveTileParts T prg headerInfos srcParts reduce).slices
    (∀ part headerInfo, Splits headerInfos srcParts ranges part headerInfo → RangesFit ranges →
      entries = splitEntries part headerInfo ranges ∧
        (allFetched entries.length = true ↔ ranges.length ≤ 254)) ∧
    ((∀ part headerInfo, Splits headerInfos srcParts ranges part headerInfo → RangesFit ranges) →
      ∀ r ∈ ranges, ∀ b a, r.Contains b → dataAddress (srcParts.zip headerInfos) b = some a →
        ∃ s ∈ entries, s.Contains a) := by
  intro ranges entries
  constructor
  · rintro part headerInfo ⟨rfl, rfl, hvalid, hplt, hne, hlone⟩ hfit
    have hall : ([headerInfo].any fun info => !info.valid || info.pltLengths.isEmpty) = false := by
      simp [hvalid, hplt]
    have hentries : entries = splitEntries part headerInfo ranges := by
      simp only [entries, buildSelectiveTileParts, hall]
      exact entriesOfRanges_split h hfit hne hlone
    refine ⟨hentries, ?_⟩
    rw [hentries, allFetched_iff, splitEntries, length_cons, length_map]
    omega
  · intro hfit r hr b a hb ha
    simp only [entries, buildSelectiveTileParts]
    split
    · exact h.copyFull_contains ha
    case isFalse hall =>
      refine entriesOfRanges_contains h (fun part headerInfo hpart hinfo hmany => ?_) hr hb ha
      simp only [hinfo, any_cons, any_nil, Bool.or_false, Bool.or_eq_true, Bool.not_eq_true',
        List.isEmpty_iff, not_or, Bool.not_eq_false] at hall
      exact hfit part headerInfo ⟨hpart, hinfo, hall.1, hall.2, ne_nil_of_mem hr, hmany⟩

/-- The sequence of a split tile part stops after 255 ranges. -/
theorem buildSelectiveTileParts_many {T : Tile} {prg : ProgOrder}
    {reduce : Nat} (hvalid : headerInfo.valid = true)
    (hplt : headerInfo.pltLengths ≠ [])
    (hmany : 255 < (selectiveRanges T prg [headerInfo] reduce).length) :
    (buildSelectiveTileParts T prg [headerInfo] [part] reduce).slices.length = 256 := by
  have hall : ([headerInfo].any fun info => !info.valid || info.pltLengths.isEmpty) = false := by
    simp [hvalid, hplt]
  rw [buildSelectiveTileParts, hall]
  simp only [Bool.false_eq_true, if_false]
  generalize selectiveRanges T prg [headerInfo] reduce = ranges at hmany ⊢
  cases ranges with
  | nil => simp at hmany
  | cons first more =>
    have hsplit : ¬ (more = [] ∧ first.offset = 0) := by
      rintro ⟨rfl, -⟩
      simp at hmany
    simp only [entriesOfRanges, if_neg hsplit]
    rw [(TPSeq.pushAll_spec _ _).1, length_map, length_take, splitEntries,
      length_cons, length_map]
    omega

end Delivery

/-- One component with two resolutions of one precinct each. -/
def twoLevels : Component := .part1 1 2 15 15 unit_range two_res max_exp max_exp

def layeredTile (numLayers : Nat) (h : 1 ≤ numLayers ∧ numLayers ≤ 65535) : Tile where
  bounds := ⟨0, 0, 2, 2⟩
  numcomps := 1
  comps := fun _ => twoLevels
  numLayers := numLayers
  x_le := by decide
  y_le := by decide
  x1_le := by decide
  y1_le := by decide
  numcomps_range := one_comp
  numLayers_range := h

/-- A header of 14 bytes for packets of ten bytes each. -/
def tenBytePackets (count : Nat) : TilePartHeaderInfo := ⟨12, List.replicate count 10, true⟩

theorem buildSelectiveTileParts_twoLayers :
    (buildSelectiveTileParts (layeredTile 2 (by decide)) .lrcp [tenBytePackets 4] [⟨100, 54⟩]
      1).slices = [⟨100, 14⟩, ⟨114, 10⟩, ⟨134, 10⟩] := by
  have hranges : selectiveRanges (layeredTile 2 (by decide)) .lrcp [tenBytePackets 4] 1 =
      [⟨0, 10⟩, ⟨20, 10⟩] := by decide +kernel
  have hsplits := (buildSelectiveTileParts_delivers (layeredTile 2 (by decide)) .lrcp
    [tenBytePackets 4] [⟨100, 54⟩] 1 ⟨rfl, by decide, by decide, by decide⟩).1 ⟨100, 54⟩
    (tenBytePackets 4)
  rw [hranges] at hsplits
  exact (hsplits ⟨rfl, rfl, rfl, by decide, by decide, by rintro r ⟨⟩⟩ ⟨by decide, by decide⟩).1

/-- The only range of a tile is fetched together with the header, and of 256 ranges the last is
not fetched. -/
theorem buildSelectiveTileParts_merges_and_drops :
    (selectiveRanges (layeredTile 1 (by decide)) .lrcp [tenBytePackets 2] 1 = [⟨0, 10⟩] ∧
      (buildSelectiveTileParts (layeredTile 1 (by decide)) .lrcp [tenBytePackets 2] [⟨100, 34⟩]
        1).slices = [⟨100, 24⟩]) ∧
    ((selectiveRanges (layeredTile 256 (by decide)) .lrcp [tenBytePackets 512] 1).length = 256 ∧
      (buildSelectiveTileParts (layeredTile 256 (by decide)) .lrcp [tenBytePackets 512]
        [⟨100, 5134⟩] 1).slices.length = 256) := by
  have hcount : (selectiveRanges (layeredTile 256 (by decide)) .lrcp [tenBytePackets 512]
      1).length = 256 := by decide +kernel
  refine ⟨by decide +kernel, hcount, ?_⟩
  exact buildSelectiveTileParts_many rfl (by decide) (by rw [hcount]; decide)

end GrokCodec.Codestream
