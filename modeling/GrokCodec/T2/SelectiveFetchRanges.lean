import GrokCodec.Codestream.PLOrder
import GrokCodec.Transcode.Source

/-!
The tile-part header parser of selective fetching decodes PLT markers a second time, apart from
`PLMarker`. Both take the same bytes apart into lengths of seven-bit groups; they disagree on what
ends a length.
-/

namespace GrokCodec.T2

open ByteStream Codestream Transcode List PLReader Nat

structure TilePartHeaderInfo where
  sodOffset : Nat := 0
  pltLengths : List Nat := []
  valid : Bool := false
  deriving DecidableEq, Repr

/-- The loop over the lengths of one PLT marker. -/
def decodeLengths : Nat → List Nat → List Nat
  | _, [] => []
  | packetLen, b :: bs =>
    let packetLen := packetLen ||| b % 128
    if b < 128 then packetLen :: decodeLengths 0 bs
    else decodeLengths (u32 (packetLen <<< 7)) bs

/-- The scan for markers. Every round moves `pos`, so that `headerSize` rounds are enough. -/
def scanMarkers (headerData : List Nat) : Nat → Nat → List Nat → TilePartHeaderInfo
  | 0, _, pltLengths => { pltLengths }
  | n + 1, pos, pltLengths =>
    match readU16 headerData pos with
    | none => { pltLengths }
    | some markerId =>
      if headerData[pos]? ≠ some 0xFF then scanMarkers headerData n (pos + 1) pltLengths
      else if markerId = SOD then ⟨pos, pltLengths, true⟩
      else
        match readU16 headerData (pos + 2) with
        | none => { pltLengths }
        | some markerLen =>
          let pltEnd := pos + 2 + markerLen
          if markerId = PLT ∧ ¬ (headerData.length ≤ pos + 4 ∨ markerLen < 3) then
            scanMarkers headerData n pltEnd
              (pltLengths ++ decodeLengths 0 ((headerData.take pltEnd).drop (pos + 5)))
          else scanMarkers headerData n pltEnd pltLengths

def extractTilePartHeaderInfo (headerData : List Nat) : TilePartHeaderInfo :=
  if headerData.length < 4 then {} else scanMarkers headerData headerData.length 0 []

/-- A marker segment that the scan steps over. -/
def Skipped (s : Segment) : Prop := s.Fits ∧ s.type / 256 = 0xFF ∧ s.type ≠ PLT ∧ s.type ≠ SOD

/-- The segments of a tile-part header: others, the PLT marker, others. -/
def headerSegments (before after : List Segment) (body : List Nat) : List Segment :=
  before ++ ⟨PLT, body⟩ :: after

section Scan

variable {headerData : List Nat} {n pos : Nat}

theorem scanMarkers_segment {s : Segment} (hs : s.Fits) (htype : s.type / 256 = 0xFF)
    (hsod : s.type ≠ SOD) (h : Occurs s.bytes headerData pos) (pltLengths : List Nat) :
    scanMarkers headerData (n + 1) pos pltLengths =
      if s.type = PLT ∧ ¬ (headerData.length ≤ pos + 4 ∨ s.payload.length + 2 < 3) then
        scanMarkers headerData n (pos + s.bytes.length)
          (pltLengths ++ decodeLengths 0 (s.payload.drop 1))
      else scanMarkers headerData n (pos + s.bytes.length) pltLengths := by
  obtain ⟨hid, hlen⟩ := hs.read h
  have hff : headerData[pos]? = some 0xFF := by
    obtain ⟨rest, hrest⟩ := h.2
    have hfirst : (headerData.drop pos)[0]? = some (s.type / 256 % 256) := by
      rw [← hrest]
      rfl
    rw [List.getElem?_drop, Nat.add_zero, htype] at hfirst
    exact hfirst
  have hend : pos + 2 + (s.payload.length + 2) = pos + s.bytes.length := by
    rw [s.length_bytes]
    omega
  have hbody : (headerData.take (pos + s.bytes.length)).drop (pos + 5) = s.payload.drop 1 := by
    obtain ⟨rest, hrest⟩ := h.2
    rw [← drop_drop, drop_take, ← hrest, Nat.add_sub_cancel_left, take_left]
    rfl
  rw [scanMarkers, hid]
  simp [hff, hlen, hend, hbody, if_neg hsod]

theorem scanMarkers_skipped {segs : List Segment} (hsegs : ∀ s ∈ segs, Skipped s)
    (h : Occurs (segs.flatMap Segment.bytes) headerData pos) (pltLengths : List Nat) :
    scanMarkers headerData (n + segs.length) pos pltLengths =
      scanMarkers headerData n (pos + (segs.flatMap Segment.bytes).length) pltLengths := by
  induction segs generalizing pos with
  | nil => rfl
  | cons s segs ih =>
    obtain ⟨hfits, htype, hplt, hsod⟩ := hsegs s mem_cons_self
    rw [length_cons, ← Nat.add_assoc, scanMarkers_segment hfits htype hsod h.left,
      if_neg (fun hc => hplt hc.1), ih (fun s hs => hsegs s (mem_cons_of_mem _ hs)) h.right,
      flatMap_cons, length_append, Nat.add_assoc]

theorem scanMarkers_plt {body : List Nat} (hbody : body.length + 2 < 65536)
    (h : Occurs (Segment.bytes ⟨PLT, body⟩) headerData pos)
    (hroom : pos + (Segment.bytes ⟨PLT, body⟩).length < headerData.length) (pltLengths : List Nat) :
    scanMarkers headerData (n + 1) pos pltLengths =
      scanMarkers headerData n (pos + (Segment.bytes ⟨PLT, body⟩).length)
        (pltLengths ++ decodeLengths 0 (body.drop 1)) := by
  have hplt : PLT < 65536 ∧ PLT / 256 = 0xFF ∧ PLT ≠ SOD := by decide
  have hlen := Segment.length_bytes ⟨PLT, body⟩
  rw [scanMarkers_segment ⟨hplt.1, hbody⟩ hplt.2.1 hplt.2.2 h]
  cases body with
  | nil =>
    rw [if_neg (fun hc => hc.2 (.inr (lt_succ_self 2)))]
    simp [decodeLengths]
  | cons zplt data =>
    simp only [length_cons] at hlen ⊢
    rw [if_pos ⟨trivial, by omega⟩]

theorem scanMarkers_sod (h : Occurs (be16 SOD) headerData pos)
    (pltLengths : List Nat) :
    scanMarkers headerData (n + 1) pos pltLengths = ⟨pos, pltLengths, true⟩ := by
  have hff : headerData[pos]? = some 0xFF := by
    obtain ⟨rest, hrest⟩ := h.2
    have hfirst : (headerData.drop pos)[0]? = some 0xFF := by
      rw [← hrest]
      rfl
    rwa [List.getElem?_drop, Nat.add_zero] at hfirst
  rw [scanMarkers, h.readU16_eq (by decide)]
  simp [hff]

/-- **The parser finds the lengths of the PLT marker and the SOD.** -/
theorem extractTilePartHeaderInfo_eq {before after : List Segment} (hbefore : ∀ s ∈ before, Skipped s)
    (hafter : ∀ s ∈ after, Skipped s) {body : List Nat} (hbody : body.length + 2 < 65536)
    (rest : List Nat) :
    extractTilePartHeaderInfo ((headerSegments before after body).flatMap Segment.bytes ++
      (be16 SOD ++ rest)) =
      ⟨((headerSegments before after body).flatMap Segment.bytes).length,
        decodeLengths 0 (body.drop 1), true⟩ := by
  obtain ⟨header, hheader⟩ : ∃ header, header =
      (headerSegments before after body).flatMap Segment.bytes ++ (be16 SOD ++ rest) := ⟨_, rfl⟩
  have hoccurs := Occurs.self header
  have hlen := congrArg List.length hheader
  have hsplit : (headerSegments before after body).flatMap Segment.bytes =
      before.flatMap Segment.bytes ++ (Segment.bytes ⟨PLT, body⟩ ++ after.flatMap Segment.bytes) := by
    rw [headerSegments, flatMap_append, flatMap_cons]
  have hmark : (Segment.bytes ⟨PLT, body⟩).length = body.length + 4 := Segment.length_bytes _
  have hsegs₁ := length_le_flatMap_bytes before
  have hsegs₂ := length_le_flatMap_bytes after
  rw [← hheader, hsplit]
  nth_rewrite 1 [hheader] at hoccurs
  rw [hsplit] at hoccurs hlen
  simp only [length_append, length_be16, hmark] at hlen
  obtain ⟨n, hn⟩ : ∃ n, header.length = n + 1 + after.length + 1 + before.length :=
    ⟨header.length - (after.length + 2 + before.length), by omega⟩
  have hsod := hoccurs.right.left
  simp only [length_append, ← Nat.add_assoc] at hsod
  rw [extractTilePartHeaderInfo, if_neg (by omega), hn, scanMarkers_skipped hbefore hoccurs.left.left,
    scanMarkers_plt hbody hoccurs.left.right.left (by rw [hmark]; omega),
    scanMarkers_skipped hafter hoccurs.left.right.right, scanMarkers_sod hsod]
  simp [Nat.add_assoc]

end Scan

/-- The number in a string of seven-bit groups, after the groups of `v`. -/
def groupsValue (v : Nat) (bytes : List Nat) : Nat := bytes.foldl (fun v b => v * 128 + b % 128) v

/-- The bytes of each length in the data of a PLT marker, and those after the last one. -/
def splitLengths : List Nat → List (List Nat) × List Nat
  | [] => ([], [])
  | b :: bs =>
    match splitLengths bs with
    | (lens, rest) =>
      if b < 128 then ([b] :: lens, rest)
      else match lens with
        | [] => ([], b :: rest)
        | len :: lens => ((b :: len) :: lens, rest)

/-- Bytes of one length: only the last one has no continuation bit. -/
def IsLength (len : List Nat) : Prop :=
  ∃ commas last, len = commas ++ [last] ∧ (∀ b ∈ commas, 128 ≤ b) ∧ last < 128

theorem splitLengths_spec (data : List Nat) :
    data = (splitLengths data).1.flatten ++ (splitLengths data).2 ∧
      (∀ len ∈ (splitLengths data).1, IsLength len) ∧ ∀ b ∈ (splitLengths data).2, 128 ≤ b := by
  induction data with
  | nil => simp [splitLengths]
  | cons b bs ih =>
    rw [splitLengths]
    obtain ⟨hbs, hlens, hrest⟩ := ih
    generalize splitLengths bs = s at hbs hlens hrest ⊢
    obtain ⟨lens, rest⟩ := s
    simp only at hbs hlens hrest ⊢
    split
    case isTrue hb =>
      refine ⟨by simp [hbs], fun len hlen => ?_, hrest⟩
      rcases mem_cons.mp hlen with rfl | hlen
      · exact ⟨[], b, rfl, by simp, hb⟩
      · exact hlens len hlen
    case isFalse hb =>
      cases lens with
      | nil =>
        refine ⟨by simp [hbs], by simp, fun c hc => ?_⟩
        rcases mem_cons.mp hc with rfl | hc
        · omega
        · exact hrest c hc
      | cons len lens =>
        refine ⟨by simp [hbs], fun len' hlen' => ?_, hrest⟩
        rcases mem_cons.mp hlen' with rfl | hlen'
        · obtain ⟨commas, last, rfl, hcommas, hlast⟩ := hlens len mem_cons_self
          refine ⟨b :: commas, last, rfl, fun c hc => ?_, hlast⟩
          rcases mem_cons.mp hc with rfl | hc
          · omega
          · exact hcommas c hc
        · exact hlens len' (mem_cons_of_mem _ hlen')

/-- `packetLen` after the groups of `v`, all with continuation bits: what 32 bits hold of it. -/
def gathered (v : Nat) : Nat := v % 2 ^ 25 * 128

theorem gathered_or (v b : Nat) : gathered v ||| b % 128 = (v * 128 + b % 128) % 2 ^ 32 := by
  rw [gathered, mul_or_of_lt _ (mod_lt b (by decide))]
  omega

theorem u32_shift (w : Nat) : u32 ((w % 2 ^ 32) <<< 7) = gathered w := by
  rw [gathered, u32, shiftLeft_eq]
  omega

variable {commas : List Nat}

theorem decodeLengths_commas (h : ∀ b ∈ commas, 128 ≤ b) (v : Nat)
    (bs : List Nat) : decodeLengths (gathered v) (commas ++ bs) =
      decodeLengths (gathered (groupsValue v commas)) bs := by
  induction commas generalizing v with
  | nil => rfl
  | cons b commas ih =>
    have hb := h b mem_cons_self
    rw [cons_append, decodeLengths, gathered_or]
    simp only [u32_shift]
    rw [if_neg (by omega), ih fun c hc => h c (mem_cons_of_mem _ hc)]
    rfl

theorem groupsValue_concat (commas : List Nat) (last : Nat) :
    groupsValue 0 (commas ++ [last]) = groupsValue 0 commas * 128 + last % 128 := by
  rw [groupsValue, foldl_append]
  rfl

variable {len : List Nat}

theorem decodeLengths_length (h : IsLength len) (bs : List Nat) :
    decodeLengths 0 (len ++ bs) = groupsValue 0 len % 2 ^ 32 :: decodeLengths 0 bs := by
  obtain ⟨commas, last, rfl, hcommas, hlast⟩ := h
  have hstart := decodeLengths_commas hcommas 0 (last :: bs)
  rw [append_assoc, singleton_append, groupsValue_concat]
  refine hstart.trans ?_
  rw [decodeLengths, gathered_or]
  simp only [if_pos hlast]

/-- **The parser decodes each length modulo 2³² and drops the unfinished one.** -/
theorem decodeLengths_eq (data : List Nat) :
    decodeLengths 0 data = (splitLengths data).1.map fun len => groupsValue 0 len % 2 ^ 32 := by
  obtain ⟨hdata, hlens, hrest⟩ := splitLengths_spec data
  generalize splitLengths data = s at hdata hlens hrest ⊢
  obtain ⟨lens, rest⟩ := s
  simp only at hdata hlens hrest ⊢
  rw [hdata]
  clear hdata
  induction lens with
  | nil =>
    have hend := decodeLengths_commas hrest 0 []
    rw [append_nil] at hend
    exact hend
  | cons len lens ih =>
    rw [flatten_cons, append_assoc, decodeLengths_length (hlens len mem_cons_self),
      ih fun len' hlen' => hlens len' (mem_cons_of_mem _ hlen'), map_cons]

/-- Some groups at the start of a length are zero as far as 32 bits hold them. -/
def ZeroStart (v : Nat) (commas : List Nat) : Prop :=
  ∃ start, start ≠ [] ∧ start <+: commas ∧ 2 ^ 25 ∣ groupsValue v start

variable {v : Nat}

theorem zeroStart_cons {b : Nat} :
    ZeroStart v (b :: commas) ↔
      2 ^ 25 ∣ v * 128 + b % 128 ∨ ZeroStart (v * 128 + b % 128) commas := by
  constructor
  · rintro ⟨start, hne, hstart, hdvd⟩
    obtain ⟨c, start, rfl⟩ := exists_cons_of_ne_nil hne
    obtain ⟨rfl, htail⟩ := cons_prefix_cons.mp hstart
    cases start with
    | nil => exact .inl hdvd
    | cons d start => exact .inr ⟨d :: start, by simp, htail, hdvd⟩
  · rintro (hdvd | ⟨start, -, hstart, hdvd⟩)
    · exact ⟨[b], by simp, ⟨commas, rfl⟩, hdvd⟩
    · exact ⟨b :: start, by simp, cons_prefix_cons.mpr ⟨rfl, hstart⟩, hdvd⟩

theorem not_zeroStart_nil (v : Nat) : ¬ ZeroStart v [] := by
  rintro ⟨start, hne, hstart, -⟩
  exact hne (prefix_nil.mp hstart)

instance decidableZeroStart : (v : Nat) → (commas : List Nat) → Decidable (ZeroStart v commas)
  | v, [] => .isFalse (not_zeroStart_nil v)
  | v, b :: commas =>
    have := decidableZeroStart (v * 128 + b % 128) commas
    decidable_of_iff _ zeroStart_cons.symm

theorem gathered_eq_zero : gathered v = 0 ↔ 2 ^ 25 ∣ v := by
  unfold gathered
  omega

theorem readLength_comma_cons {b : Nat} (hb : 128 ≤ b) (v : Nat) (bs : List Nat) :
    readLength (gathered v) (b :: bs) =
      if gathered (v * 128 + b % 128) = 0 then (0, 0, 1)
      else ((readLength (gathered (v * 128 + b % 128)) bs).1,
        (readLength (gathered (v * 128 + b % 128)) bs).2.1,
        (readLength (gathered (v * 128 + b % 128)) bs).2.2 + 1) := by
  rw [readLength, gathered_or]
  simp only [u32_shift]
  rw [if_neg (by omega)]

theorem readLength_commas (h : ∀ b ∈ commas, 128 ≤ b)
    (hz : ¬ ZeroStart v commas) (bs : List Nat) :
    readLength (gathered v) (commas ++ bs) =
      ((readLength (gathered (groupsValue v commas)) bs).1,
        (readLength (gathered (groupsValue v commas)) bs).2.1,
        (readLength (gathered (groupsValue v commas)) bs).2.2 + commas.length) := by
  induction commas generalizing v with
  | nil => rfl
  | cons b commas ih =>
    obtain ⟨hb, hz⟩ := not_or.mp (zeroStart_cons.not.mp hz)
    rw [cons_append, readLength_comma_cons (h b mem_cons_self),
      if_neg (gathered_eq_zero.not.mpr hb), ih (fun c hc => h c (mem_cons_of_mem _ hc)) hz]
    rfl

/-- A length whose first groups are zero ends there for `PLMarker`. -/
theorem readLength_zeroStart (h : ∀ b ∈ commas, 128 ≤ b)
    (hz : ZeroStart v commas) : ∃ start later, commas = start ++ later ∧ start ≠ [] ∧
      ∀ bs, readLength (gathered v) (commas ++ bs) = (0, 0, start.length) := by
  induction commas generalizing v with
  | nil => exact absurd hz (not_zeroStart_nil v)
  | cons b commas ih =>
    have hb := h b mem_cons_self
    by_cases hzero : gathered (v * 128 + b % 128) = 0
    · refine ⟨[b], commas, rfl, by simp, fun bs => ?_⟩
      rw [cons_append, readLength_comma_cons hb, if_pos hzero]
      rfl
    · have hz' := (zeroStart_cons.mp hz).resolve_left (gathered_eq_zero.not.mp hzero)
      obtain ⟨start, later, rfl, -, hread⟩ := ih (fun c hc => h c (mem_cons_of_mem _ hc)) hz'
      refine ⟨b :: start, later, rfl, by simp, fun bs => ?_⟩
      rw [cons_append, readLength_comma_cons hb, if_neg hzero, hread bs]
      rfl

theorem readLength_length (h : IsLength len) (hz : ¬ ZeroStart 0 len.dropLast)
    (bs : List Nat) :
    readLength 0 (len ++ bs) = (groupsValue 0 len % 2 ^ 32, 0, len.length) := by
  obtain ⟨commas, last, rfl, hcommas, hlast⟩ := h
  rw [dropLast_concat] at hz
  have hstart := readLength_commas hcommas hz (last :: bs)
  have hend : readLength (gathered (groupsValue 0 commas)) (last :: bs) =
      ((groupsValue 0 commas * 128 + last % 128) % 2 ^ 32, 0, 1) := by
    rw [readLength, gathered_or]
    simp only [if_pos hlast]
  rw [hend] at hstart
  rw [append_assoc, singleton_append, groupsValue_concat, length_append, length_singleton,
    Nat.add_comm commas.length]
  exact hstart

/-- Where a length is cut short, a length is left. -/
theorem readLength_broken (h : IsLength len) (hz : ZeroStart 0 len.dropLast) :
    ∃ start later, len = start ++ later ∧ start ≠ [] ∧ IsLength later ∧
      ∀ bs, readLength 0 (len ++ bs) = (0, 0, start.length) := by
  obtain ⟨commas, last, rfl, hcommas, hlast⟩ := h
  rw [dropLast_concat] at hz
  obtain ⟨start, later, rfl, hne, hread⟩ := readLength_zeroStart hcommas hz
  refine ⟨start, later ++ [last], append_assoc _ _ _, hne,
    ⟨later, last, rfl, fun b hb => hcommas b (mem_append_right _ hb), hlast⟩, fun bs => ?_⟩
  rw [append_assoc]
  exact hread ([last] ++ bs)

/-- `pop` until the iterator is at the end of the map; `n` pops at most. -/
def popToEnd : Nat → PLReader → List Nat
  | 0, _ => []
  | n + 1, m => if m.currMarkerIter = none then [] else m.pop.1 :: popToEnd n m.pop.2

/-- `pop` until it returns zero, which says that no packet length is available. -/
def popToZero : Nat → PLReader → List Nat
  | 0, _ => []
  | n + 1, m => if m.pop.1 = 0 then [] else m.pop.1 :: popToZero n m.pop.2

/-- The lengths of one marker body through `PLMarker`: `readPLT`, `rewind`, and `pop` as `pops`
says. A body that `readPLT` refuses gives none. -/
def throughPLMarker (pops : Nat → PLReader → List Nat) (tilePartIndex : Int) (body : List Nat) :
    List Nat :=
  match readPLT {} body tilePartIndex with
  | none => []
  | some m => pops body.length m.rewind

/-- `popToEnd` on the bytes of one body. -/
def lengthsToEnd : Nat → Nat → List Nat → List Nat
  | 0, _, _ => []
  | n + 1, packetLen, bytes =>
    if bytes = [] then []
    else
      let (rc, packetLen, k) := readLength packetLen bytes
      rc :: lengthsToEnd n packetLen (bytes.drop k)

/-- `popToZero` on the bytes of one body. -/
def lengthsToZero : Nat → Nat → List Nat → List Nat
  | 0, _, _ => []
  | n + 1, packetLen, bytes =>
    let (rc, packetLen, k) := readLength packetLen bytes
    if rc = 0 then [] else rc :: lengthsToZero n packetLen (bytes.drop k)

/-- The buffers left with these bytes in the only one. -/
def queue (bytes : List Nat) : List (List Nat) := if bytes = [] then [] else [bytes]

theorem popQueue_queue (packetLen : Nat) (bytes : List Nat) :
    popQueue packetLen (queue bytes) =
      ((readLength packetLen bytes).1, (readLength packetLen bytes).2.1,
        queue (bytes.drop (readLength packetLen bytes).2.2)) := by
  unfold queue
  by_cases hbytes : bytes = []
  · rw [hbytes]
    rfl
  · have hle := readLength_le packetLen bytes
    rw [if_neg hbytes, popQueue]
    simp only [drop_eq_nil_iff]
    by_cases hn : (readLength packetLen bytes).2.2 = bytes.length
    · rw [if_pos hn, if_pos (by omega)]
    · rw [if_neg hn, if_neg (by omega)]

variable {m : PLReader} {bytes : List Nat}

theorem currMarkerIter_of_pending (h : m.Pending (queue bytes)) :
    m.currMarkerIter = none ↔ bytes = [] := by
  unfold queue at h
  by_cases hbytes : bytes = []
  · rw [if_pos hbytes] at h
    generalize hq : ([] : List (List Nat)) = q at h
    cases h with
    | done hiter => exact ⟨fun _ => hbytes, fun _ => hiter⟩
    | inside => cases hq
  · rw [if_neg hbytes] at h
    generalize hq : [bytes] = q at h
    cases h with
    | done => cases hq
    | inside _ _ _ _ hiter =>
      constructor
      · intro hnone
        rw [hiter] at hnone
        cases hnone
      · intro hnil
        exact absurd hnil hbytes

theorem popToEnd_eq (h : m.Pending (queue bytes)) (n : Nat) :
    popToEnd n m = lengthsToEnd n m.packetLen bytes := by
  induction n generalizing m bytes with
  | zero => rfl
  | succ n ih =>
    obtain ⟨hrc, hlen, hrest⟩ := h.pop
    rw [popQueue_queue] at hrc hlen hrest
    simp only [popToEnd, lengthsToEnd, currMarkerIter_of_pending h]
    rw [hrc, ih hrest, hlen]

theorem popToZero_eq (h : m.Pending (queue bytes)) (n : Nat) :
    popToZero n m = lengthsToZero n m.packetLen bytes := by
  induction n generalizing m bytes with
  | zero => rfl
  | succ n ih =>
    obtain ⟨hrc, hlen, hrest⟩ := h.pop
    rw [popQueue_queue] at hrc hlen hrest
    rw [popToZero, lengthsToZero, ih hrest, hrc, hlen]

/-- What `readPLT` and `rewind` leave to be read of one marker. -/
theorem pending_of_readPLT {tilePartIndex : Int} (htp : tilePartIndex = -1 ∨ tilePartIndex = 0)
    (zplt : Nat) {data : List Nat} (hdata : data ≠ []) :
    ∃ m, readPLT {} (zplt :: data) tilePartIndex = some m ∧
      m.rewind.Pending (queue data) ∧ m.rewind.packetLen = 0 := by
  obtain ⟨b, bs, rfl⟩ := exists_cons_of_ne_nil hdata
  obtain ⟨m, hm⟩ : ∃ m : PLReader, m = ⟨[(zplt, [some ⟨b :: bs, 0⟩])], some zplt,
    decide (zplt = 0), 0, 0, none, true⟩ := ⟨_, rfl⟩
  have hread : readPLT {} (zplt :: b :: bs) tilePartIndex = some m := by
    rw [hm]
    rcases htp with rfl | rfl <;>
      simp [readPLT, findMarker, staysSequential, markerKey,
        insertMarker, addNewMarker, placeBuffer, updateMarker,
        guard]
  have hmap : m.rawMarkers = [(zplt, [b :: bs])].map freshEntry := by
    rw [hm]
    rfl
  obtain ⟨hpending, hlen⟩ := rewind_pending hmap (by simp) (by simp) (by simp)
  refine ⟨m, hread, hpending, hlen.trans ?_⟩
  rw [hm]

theorem IsLength.ne_nil (h : IsLength len) : len ≠ [] := by
  obtain ⟨commas, last, rfl, -, -⟩ := h
  simp

theorem lengthsToEnd_append {start bs : List Nat} {rc : Nat} (hne : start ≠ [])
    (hread : readLength 0 (start ++ bs) = (rc, 0, start.length)) (n : Nat) :
    lengthsToEnd (n + 1) 0 (start ++ bs) = rc :: lengthsToEnd n 0 bs := by
  rw [lengthsToEnd, if_neg (fun hnil => hne (append_eq_nil_iff.mp hnil).1), hread]
  simp

theorem lengthsToZero_append {start bs : List Nat} {rc : Nat}
    (hread : readLength 0 (start ++ bs) = (rc, 0, start.length)) (n : Nat) :
    lengthsToZero (n + 1) 0 (start ++ bs) = if rc = 0 then [] else rc :: lengthsToZero n 0 bs := by
  rw [lengthsToZero, hread]
  simp only [drop_left]

theorem length_le_of_isLength {lens : List (List Nat)} (hlens : ∀ len ∈ lens, IsLength len)
    {rest data : List Nat} (hdata : data = lens.flatten ++ rest) : lens.length ≤ data.length + 1 := by
  have hle : lens.length ≤ lens.flatten.length := by
    clear hdata
    induction lens with
    | nil => exact Nat.le_refl 0
    | cons len lens ih =>
      have hpos := length_pos_iff.mpr (hlens len mem_cons_self).ne_nil
      have := ih fun l hl => hlens l (mem_cons_of_mem _ hl)
      rw [flatten_cons, length_append, length_cons]
      omega
  rw [hdata, length_append]
  omega

section Lengths

variable {lens : List (List Nat)} {rest : List Nat} (hlens : ∀ len ∈ lens, IsLength len)

include hlens

variable {n : Nat}

/-- Reading to the end takes a pop for each length, and more where a length is cut short or not
finished. -/
theorem length_lengthsToEnd (hn : (lens.flatten ++ rest).length ≤ n) :
    lens.length ≤ (lengthsToEnd n 0 (lens.flatten ++ rest)).length ∧
      (lens.length = (lengthsToEnd n 0 (lens.flatten ++ rest)).length →
        (∀ len ∈ lens, ¬ ZeroStart 0 len.dropLast) ∧ rest = []) := by
  -- a length that is cut short leaves another one, so the induction is on the bytes
  induction n generalizing lens with
  | zero =>
    have hnil := append_eq_nil_iff.mp (length_eq_zero_iff.mp (Nat.le_zero.mp hn))
    cases lens with
    | nil => exact ⟨Nat.le_refl 0, fun _ => ⟨by simp, hnil.2⟩⟩
    | cons len lens =>
      exact absurd (append_eq_nil_iff.mp hnil.1).1 (hlens len mem_cons_self).ne_nil
  | succ n ih =>
    cases lens with
    | nil =>
      by_cases hrest : rest = []
      · rw [hrest]
        exact ⟨zero_le _, fun _ => ⟨by simp, rfl⟩⟩
      · refine ⟨zero_le _, fun heq => ?_⟩
        rw [flatten_nil, nil_append, lengthsToEnd, if_neg hrest] at heq
        cases heq
    | cons len lens =>
      have hlen := hlens len mem_cons_self
      have hlens' : ∀ l ∈ lens, IsLength l := fun l hl => hlens l (mem_cons_of_mem _ hl)
      have hpos := length_pos_iff.mpr hlen.ne_nil
      rw [flatten_cons, append_assoc] at hn ⊢
      rw [length_append] at hn
      by_cases hz : ZeroStart 0 len.dropLast
      · obtain ⟨start, later, hsplit, hstart, hlater, hread⟩ := readLength_broken hlen hz
        have hpos' := length_pos_iff.mpr hstart
        have hcount := congrArg List.length hsplit
        rw [length_append] at hcount
        have hfewer := (@ih (later :: lens) (by
          intro l hl
          rcases mem_cons.mp hl with rfl | hl
          · exact hlater
          · exact hlens' l hl) (by
          rw [flatten_cons, append_assoc, length_append]
          omega)).1
        have hread := hread (lens.flatten ++ rest)
        rw [hsplit, append_assoc] at hread ⊢
        rw [lengthsToEnd_append hstart hread]
        rw [flatten_cons, append_assoc] at hfewer
        simp only [length_cons] at hfewer ⊢
        exact ⟨by omega, fun heq => by omega⟩
      · obtain ⟨hle, heq⟩ := @ih lens hlens' (by omega)
        rw [lengthsToEnd_append hlen.ne_nil (readLength_length hlen hz _)]
        simp only [length_cons]
        refine ⟨by omega, fun h => ?_⟩
        obtain ⟨hgood, hrest⟩ := heq (by omega)
        refine ⟨fun l hl => ?_, hrest⟩
        rcases mem_cons.mp hl with rfl | hl
        · exact hz
        · exact hgood l hl

theorem lengthsToEnd_of_good (hgood : ∀ len ∈ lens, ¬ ZeroStart 0 len.dropLast)
    (hn : lens.flatten.length ≤ n) :
    lengthsToEnd n 0 lens.flatten = lens.map fun len => groupsValue 0 len % 2 ^ 32 := by
  induction lens generalizing n with
  | nil => cases n <;> rfl
  | cons len lens ih =>
    have hlen := hlens len mem_cons_self
    have hpos := length_pos_iff.mpr hlen.ne_nil
    rw [flatten_cons, length_append] at hn
    obtain ⟨n, rfl⟩ : ∃ k, n = k + 1 := ⟨n - 1, by omega⟩
    have hread := readLength_length hlen (hgood len mem_cons_self) lens.flatten
    rw [flatten_cons, lengthsToEnd_append hlen.ne_nil hread, map_cons,
      ih (fun l hl => hlens l (mem_cons_of_mem _ hl))
        (fun l hl => hgood l (mem_cons_of_mem _ hl)) (by omega)]

theorem lengthsToEnd_iff (hn : (lens.flatten ++ rest).length ≤ n) :
    lengthsToEnd n 0 (lens.flatten ++ rest) = (lens.map fun len => groupsValue 0 len % 2 ^ 32) ↔
      (∀ len ∈ lens, ¬ ZeroStart 0 len.dropLast) ∧ rest = [] := by
  constructor
  · intro heq
    refine (length_lengthsToEnd hlens hn).2 ?_
    rw [heq, length_map]
  · rintro ⟨hgood, rfl⟩
    rw [append_nil] at hn ⊢
    exact lengthsToEnd_of_good hlens hgood hn

theorem lengthsToZero_iff (hrest : ∀ b ∈ rest, 128 ≤ b) (hn : lens.length ≤ n) :
    lengthsToZero n 0 (lens.flatten ++ rest) = (lens.map fun len => groupsValue 0 len % 2 ^ 32) ↔
      ∀ len ∈ lens, ¬ ZeroStart 0 len.dropLast ∧ groupsValue 0 len % 2 ^ 32 ≠ 0 := by
  induction lens generalizing n with
  | nil =>
    have hnone : (readLength 0 rest).1 = 0 := by
      by_cases hz : ZeroStart 0 rest
      · obtain ⟨start, later, -, -, hread⟩ := readLength_zeroStart hrest hz
        have hread := hread []
        rw [append_nil] at hread
        exact congrArg Prod.fst hread
      · have hread := readLength_commas hrest hz []
        rw [append_nil] at hread
        exact congrArg Prod.fst hread
    have hnil : lengthsToZero n 0 rest = [] := by
      cases n with
      | zero => rfl
      | succ n =>
        rw [lengthsToZero]
        simp [hnone]
    simpa using hnil
  | cons len lens ih =>
    have hlen := hlens len mem_cons_self
    obtain ⟨n, rfl⟩ : ∃ k, n = k + 1 := ⟨n - 1, by simp at hn; omega⟩
    have ih := ih (fun l hl => hlens l (mem_cons_of_mem _ hl)) (by simpa using hn : lens.length ≤ n)
    rw [flatten_cons, append_assoc, map_cons, forall_mem_cons]
    by_cases hz : ZeroStart 0 len.dropLast
    · obtain ⟨start, later, hsplit, -, -, hread⟩ := readLength_broken hlen hz
      have hread := hread (lens.flatten ++ rest)
      have hstop : lengthsToZero (n + 1) 0 (len ++ (lens.flatten ++ rest)) = [] := by
        rw [hsplit, append_assoc] at hread ⊢
        rw [lengthsToZero_append hread, if_pos rfl]
      rw [hstop]
      simp [hz]
    · rw [lengthsToZero_append (readLength_length hlen hz _)]
      by_cases hzero : groupsValue 0 len % 2 ^ 32 = 0
      · rw [if_pos hzero]
        exact ⟨fun h => absurd h (cons_ne_nil _ _).symm, fun h => absurd hzero h.1.2⟩
      · rw [if_neg hzero, cons_inj_right, ih]
        exact ⟨fun h => ⟨⟨hz, hzero⟩, h⟩, fun h => h.2⟩

end Lengths

/-- **One PLT marker in a tile-part header, read by `PLMarker` and by the parser.** Popped to the
end, the lengths are the same exactly when no length starts with groups that are zero in 32 bits and
the last length is finished; popped until a zero is returned, exactly when no length starts with
such groups or is itself zero in 32 bits. -/
theorem plt_decoders_agree_iff {before after : List Segment} (hbefore : ∀ s ∈ before, Skipped s)
    (hafter : ∀ s ∈ after, Skipped s) {body : List Nat} (hbody : body.length + 2 < 65536)
    (rest : List Nat) {tilePartIndex : Int} (htp : tilePartIndex = -1 ∨ tilePartIndex = 0) :
    (throughPLMarker popToEnd tilePartIndex body =
      (extractTilePartHeaderInfo ((headerSegments before after body).flatMap Segment.bytes ++
        (be16 SOD ++ rest))).pltLengths ↔
      (∀ len ∈ (splitLengths (body.drop 1)).1, ¬ ZeroStart 0 len.dropLast) ∧
        (splitLengths (body.drop 1)).2 = []) ∧
    (throughPLMarker popToZero tilePartIndex body =
      (extractTilePartHeaderInfo ((headerSegments before after body).flatMap Segment.bytes ++
        (be16 SOD ++ rest))).pltLengths ↔
      ∀ len ∈ (splitLengths (body.drop 1)).1,
        ¬ ZeroStart 0 len.dropLast ∧ groupsValue 0 len % 2 ^ 32 ≠ 0) := by
  rw [extractTilePartHeaderInfo_eq hbefore hafter hbody, decodeLengths_eq]
  cases body with
  | nil => simp [throughPLMarker, readPLT, splitLengths]
  | cons zplt data =>
    by_cases hdata : data = []
    · subst hdata
      simp [throughPLMarker, readPLT, splitLengths]
    · obtain ⟨m, hread, hpending, hlen⟩ := pending_of_readPLT htp zplt hdata
      obtain ⟨hsplit, hlens, hcommas⟩ := splitLengths_spec data
      have hend := lengthsToEnd_iff hlens (by rw [← hsplit, length_cons]; omega :
        ((splitLengths data).1.flatten ++ (splitLengths data).2).length ≤ (zplt :: data).length)
      have hzero := lengthsToZero_iff hlens hcommas (length_le_of_isLength hlens hsplit :
        (splitLengths data).1.length ≤ (zplt :: data).length)
      rw [← hsplit] at hend hzero
      rw [throughPLMarker, throughPLMarker, hread, drop_one, tail_cons]
      simp only [popToEnd_eq hpending, popToZero_eq hpending, hlen]
      exact ⟨hend, hzero⟩

/-- A header of one PLT marker with the lengths 300 and 5. -/
theorem two_lengths_agree :
    throughPLMarker popToEnd 0 [0, 0x82, 0x2C, 0x05] =
      (extractTilePartHeaderInfo ((headerSegments [] [] [0, 0x82, 0x2C, 0x05]).flatMap Segment.bytes ++
        (be16 SOD ++ []))).pltLengths :=
  (plt_decoders_agree_iff (by simp) (by simp) (by decide) [] (.inr rfl)).1.mpr (by decide)

/-- A length that starts with a group of zeros. -/
theorem zero_group_disagrees :
    (extractTilePartHeaderInfo (Segment.bytes ⟨PLT, [0, 0x80, 0x05]⟩ ++ be16 SOD)).pltLengths = [5] ∧
      throughPLMarker popToEnd 0 [0, 0x80, 0x05] = [0, 5] ∧
      throughPLMarker popToZero 0 [0, 0x80, 0x05] = [] := by
  decide

end GrokCodec.T2
