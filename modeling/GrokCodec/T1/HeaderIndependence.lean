import GrokCodec.T1.HeaderSteps
import Mathlib.Data.List.GetD

/-!
Packet headers are read independently of packet data. What a header makes of its bits depends on
the header side of the code block only: the passes that earlier headers announced and the limits of
the segments. Parsing data leaves that side alone, unless it throws the segments away.
-/

namespace GrokCodec.T1

open Relational List Option

section Data

variable {cblk : Codeblock} {layno i : Nat}

theorem SameHeader.refl (cblk : Codeblock) : SameHeader cblk cblk := ⟨rfl, rfl, rfl, rfl⟩

theorem SameHeader.trans {a b c : Codeblock} (h : SameHeader a b) (h' : SameHeader b c) :
    SameHeader a c :=
  ⟨h.segs.trans h'.segs, h.signalledPassesByLayer.trans h'.signalledPassesByLayer,
    h.numlenbits.trans h'.numlenbits, h.htState.trans h'.htState⟩

theorem sameHeader_modifySeg {f : Segment → Segment} (hf : ∀ x, (f x).header = x.header) :
    SameHeader (cblk.modifySeg i f) cblk :=
  { SameHeader.refl cblk with
    segs := by rw [Codeblock.modifySeg, map_modify (g := id) hf, modify_id] }

/-- The bytes that a layer adds to the segments from one on. -/
def Codeblock.bytesFrom (cblk : Codeblock) (layno i : Nat) : Nat :=
  ((cblk.segs.drop i).map fun seg => seg.signalledBytesInLayer layno).sum

theorem bytesFrom_succ (cblk : Codeblock) (layno i : Nat) :
    (cblk.seg i).signalledBytesInLayer layno + cblk.bytesFrom layno (i + 1) =
      cblk.bytesFrom layno i := by
  unfold Codeblock.bytesFrom Codeblock.seg
  by_cases hi : i < cblk.segs.length
  · rw [drop_eq_getElem_cons hi, map_cons, sum_cons, getD_eq_getElem _ _ hi]
  · rw [drop_eq_nil_of_le (by omega), drop_eq_nil_of_le (by omega),
      getD_eq_default _ _ (by omega)]
    rfl

theorem bytesFrom_le_zero (cblk : Codeblock) (layno i : Nat) :
    cblk.bytesFrom layno i ≤ cblk.bytesFrom layno 0 := by
  induction i with
  | zero => exact le_rfl
  | succ i ih =>
    have := bytesFrom_succ cblk layno i
    omega

theorem nextDataParsedSegment_spec (cblk : Codeblock) :
    SameHeader cblk.nextDataParsedSegment.1 cblk ∧
      cblk.nextDataParsedSegment.1.segs = cblk.segs ∧
      ∀ i, cblk.nextDataParsedSegment.2 = some i →
        i = cblk.numDataParsedSegments.toNat ∧
          i + 1 = cblk.nextDataParsedSegment.1.numDataParsedSegments.toNat := by
  unfold Codeblock.nextDataParsedSegment
  split
  case isTrue => exact ⟨SameHeader.refl _, rfl, fun i hi => absurd hi (by simp)⟩
  case isFalse hlt =>
    refine ⟨⟨rfl, rfl, rfl, rfl⟩, rfl, ?_⟩
    intro i hi
    simp only [Codeblock.currDataParsedSegment] at hi
    split at hi
    case isTrue => exact absurd hi (by simp)
    case isFalse hne =>
      have hnat : (cblk.numDataParsedSegments + 1).toNat = cblk.numDataParsedSegments.toNat + 1 := by
        have hlt := cblk.numDataParsedSegments.toNat_lt
        have hne' : (cblk.numDataParsedSegments + 1).toNat ≠ 0 := fun h =>
          hne (UInt8.toNat_inj.mp h)
        rw [UInt8.toNat_add] at hne' ⊢
        simp only [UInt8.toNat_one] at hne' ⊢
        omega
      simp only [some.injEq] at hi
      refine ⟨by omega, ?_⟩
      change i + 1 = (cblk.numDataParsedSegments + 1).toNat
      omega

theorem bytesFrom_modifySeg {f : Segment → Segment} (j : Nat)
    (hf : ∀ x, (f x).signalledBytesInLayer layno = x.signalledBytesInLayer layno) :
    (cblk.modifySeg i f).bytesFrom layno j = cblk.bytesFrom layno j := by
  simp only [Codeblock.bytesFrom, Codeblock.modifySeg, map_drop]
  rw [map_modify (g := id) hf, modify_id]

/-- Parsing the data of a layer does not touch the header side when the segments are kept. -/
theorem parseSegmentData_sameHeader (isHT : Bool) (fuel : Nat) :
    ∀ (i : Nat) (passes : UInt8) (cblk : Codeblock) (io : DataIO),
      i + 1 = cblk.numDataParsedSegments.toNat →
      isHT = false ∨ cblk.bytesFrom layno i ≤ io.remainingTilePartBytes →
      SameHeader (cblk.parseSegmentData layno isHT fuel i passes io).1 cblk := by
  induction fuel with
  | zero => exact fun _ _ cblk _ _ _ => SameHeader.refl cblk
  | succ fuel ih =>
    intro i passes cblk io hi hwhole
    have hsucc := bytesFrom_succ cblk layno i
    rw [Codeblock.parseSegmentData]
    generalize hbytes : (cblk.seg i).signalledBytesInLayer layno = bytes at hsucc ⊢
    simp only
    by_cases htruncated : bytes > io.remainingTilePartBytes
    · have hpart1 := hwhole.resolve_right (by omega)
      rw [if_pos htruncated, hpart1]
      exact sameHeader_modifySeg fun _ => rfl
    · rw [if_neg htruncated]
      split
      · exact SameHeader.refl cblk
      · generalize hparsed : cblk.modifySeg i _ = parsed
        have hkeep : SameHeader parsed cblk := by
          rw [← hparsed]
          exact sameHeader_modifySeg fun _ => rfl
        have hsame (j : Nat) : parsed.bytesFrom layno j = cblk.bytesFrom layno j := by
          rw [← hparsed]
          exact bytesFrom_modifySeg j fun _ => rfl
        have hcount : parsed.numDataParsedSegments = cblk.numDataParsedSegments := by
          rw [← hparsed]
          rfl
        split
        · obtain ⟨hheader, hsegs, hindex⟩ := nextDataParsedSegment_spec parsed
          generalize parsed.nextDataParsedSegment = next at hheader hsegs hindex ⊢
          obtain ⟨next, j⟩ := next
          cases j with
          | none => exact hheader.trans hkeep
          | some j =>
            obtain ⟨hj, hj'⟩ := hindex j rfl
            refine (ih j _ next _ hj' ?_).trans (hheader.trans hkeep)
            refine hwhole.imp id fun hle => ?_
            have hnext : next.bytesFrom layno j = cblk.bytesFrom layno (i + 1) := by
              rw [← hsame, Codeblock.bytesFrom, Codeblock.bytesFrom, hsegs, hj, hcount, hi]
            simp only [hnext]
            omega
        · exact hkeep

theorem firstDataSegment_spec (cblk : Codeblock) :
    SameHeader cblk.firstDataSegment.1 cblk ∧ cblk.firstDataSegment.1.segs = cblk.segs ∧
      ∀ i, cblk.firstDataSegment.2 = some i →
        i + 1 = cblk.firstDataSegment.1.numDataParsedSegments.toNat := by
  obtain ⟨hheader, hsegs, hindex⟩ := nextDataParsedSegment_spec cblk
  unfold Codeblock.firstDataSegment
  cases hcurr : cblk.currDataParsedSegment with
  | none => exact ⟨hheader, hsegs, fun i hi => (hindex i hi).2⟩
  | some j =>
    simp only
    split
    · exact ⟨hheader, hsegs, fun i hi => (hindex i hi).2⟩
    · refine ⟨SameHeader.refl cblk, rfl, ?_⟩
      intro i hi
      obtain rfl : j = i := some.inj hi
      unfold Codeblock.currDataParsedSegment at hcurr
      split at hcurr
      · exact absurd hcurr (by simp)
      case isFalse hne =>
        have hpos : cblk.numDataParsedSegments.toNat ≠ 0 := fun h => hne (UInt8.toNat_inj.mp h)
        simp only [some.injEq] at hcurr
        change j + 1 = cblk.numDataParsedSegments.toNat
        omega

/-- `parsePacketData` leaves the header side alone unless it may throw the segments away. -/
theorem parsePacketData_sameHeader (cblk : Codeblock) (layno : Nat) (isHT : Bool) (io : DataIO)
    (hwhole : isHT = false ∨ cblk.bytesFrom layno 0 ≤ io.remainingTilePartBytes) :
    SameHeader (cblk.parsePacketData layno isHT io).1 cblk := by
  unfold Codeblock.parsePacketData
  split
  · exact SameHeader.refl cblk
  · obtain ⟨hheader, hsegs, hindex⟩ := firstDataSegment_spec cblk
    generalize cblk.firstDataSegment = first at hheader hsegs hindex ⊢
    obtain ⟨first, i⟩ := first
    cases i with
    | none => exact hheader
    | some i =>
      let marked : Codeblock := { first with
        dataParsedLayers := max first.dataParsedLayers (u16 (layno + 1)) }
      have hmarked : SameHeader marked cblk := { hheader with }
      refine (parseSegmentData_sameHeader isHT (first.segs.length + 1) i
        (first.signalledPassesByLayer layno) marked io (hindex i rfl) ?_).trans hmarked
      refine hwhole.imp id fun hle => le_trans ?_ hle
      have hbytes := bytesFrom_le_zero cblk layno i
      have hsegs' : marked.segs = cblk.segs := hsegs
      simpa only [Codeblock.bytesFrom, hsegs'] using hbytes

end Data

/-- What happens to a code block: a packet header contributes to it, with the bits before the
reader and the bytes signalled so far, or packet data is parsed for it. -/
inductive Event where
  | header (layno : Nat) (bio : BitIO) (signalledLayerDataBytes : Nat)
  | data (layno : Nat) (isHT : Bool) (io : DataIO)

def Event.isHeader : Event → Bool
  | .header .. => true
  | .data .. => false

/-- What a call of `readPacketHeader` leaves for its caller: how it ended, where the reader stands,
the passes and lengths. -/
structure HeaderResult where
  outcome : Except HeaderError PUnit
  bio : BitIO
  signalledLayerDataBytes : Nat
  passes : UInt8
  contributions : List (UInt8 × Nat)

def headerCall (cblk_sty : UInt8) (cblk : Codeblock) (layno : Nat) (bio : BitIO) (bytes : Nat) :
    HeaderResult × Codeblock :=
  let r := runFrom (readPacketHeader layno cblk_sty) ⟨cblk, bio, bytes, []⟩
  (⟨r.1, r.2.bio, r.2.signalledLayerDataBytes, r.2.cblk.signalledPassesByLayer layno,
    r.2.contributions⟩, r.2.cblk)

/-- The results of the headers of an execution. An exception does not end it: what is parsed after
one is compared too. -/
def headerResults (cblk_sty : UInt8) : Codeblock → List Event → List HeaderResult
  | _, [] => []
  | cblk, .header layno bio bytes :: events =>
    let call := headerCall cblk_sty cblk layno bio bytes
    call.1 :: headerResults cblk_sty call.2 events
  | cblk, .data layno isHT io :: events =>
    headerResults cblk_sty (cblk.parsePacketData layno isHT io).1 events

/-- In an HT tile, all bytes that the layer signals for the code block are there whenever its data
is parsed. -/
def DataWhole (cblk_sty : UInt8) : Codeblock → List Event → Prop
  | _, [] => True
  | cblk, .header layno bio bytes :: events =>
    DataWhole cblk_sty (headerCall cblk_sty cblk layno bio bytes).2 events
  | cblk, .data layno isHT io :: events =>
    (isHT = false ∨ cblk.bytesFrom layno 0 ≤ io.remainingTilePartBytes) ∧
      DataWhole cblk_sty (cblk.parsePacketData layno isHT io).1 events

theorem headerCall_sameHeader {a b : Codeblock} (hab : SameHeader a b) (cblk_sty : UInt8)
    (layno : Nat) (bio : BitIO) (bytes : Nat) :
    (headerCall cblk_sty a layno bio bytes).1 = (headerCall cblk_sty b layno bio bytes).1 ∧
      SameHeader (headerCall cblk_sty a layno bio bytes).2
        (headerCall cblk_sty b layno bio bytes).2 := by
  obtain ⟨hout, hcall⟩ := (built_readPacketHeader layno cblk_sty).respects
    (fun _ hf _ _ => hf.sameCall) ⟨a, bio, bytes, []⟩ ⟨b, bio, bytes, []⟩ ⟨hab, rfl, rfl, rfl⟩
  refine ⟨?_, hcall.cblk⟩
  simp only [headerCall]
  rw [hout, hcall.bio, hcall.signalledLayerDataBytes, hcall.cblk.signalledPassesByLayer,
    hcall.contributions]

theorem headerResults_filter (cblk_sty : UInt8) (events : List Event) :
    ∀ {a b : Codeblock}, SameHeader a b → DataWhole cblk_sty a events →
      headerResults cblk_sty a events = headerResults cblk_sty b (events.filter Event.isHeader) := by
  induction events with
  | nil => exact fun _ _ => rfl
  | cons event events ih =>
    intro a b hab hwhole
    cases event with
    | header layno bio bytes =>
      obtain ⟨hresult, hnext⟩ := headerCall_sameHeader hab cblk_sty layno bio bytes
      rw [filter_cons_of_pos rfl]
      exact congrArg₂ List.cons hresult (ih hnext hwhole)
    | data layno isHT io =>
      rw [filter_cons_of_neg (by simp [Event.isHeader])]
      exact ih ((parsePacketData_sameHeader a layno isHT io hwhole.1).trans hab) hwhole.2

/-- **Two executions with the same packet headers read them alike, whatever data they parse, if no
data is cut off in an HT tile.** -/
theorem headers_independent (cblk_sty : UInt8) (cblk : Codeblock) {events events' : List Event}
    (hheaders : events.filter Event.isHeader = events'.filter Event.isHeader)
    (hwhole : DataWhole cblk_sty cblk events) (hwhole' : DataWhole cblk_sty cblk events') :
    headerResults cblk_sty cblk events = headerResults cblk_sty cblk events' := by
  rw [headerResults_filter cblk_sty events (SameHeader.refl cblk) hwhole,
    headerResults_filter cblk_sty events' (SameHeader.refl cblk) hwhole', hheaders]

/-- A code block that is included for the first time. -/
def firstIncluded : Codeblock := { numlenbits := 3 }

/-- One pass of five bytes. -/
def firstLayer : Event := .header 0 ⟨[0x28], 0, 0, 0, false⟩ 0

/-- Two more passes, of six bytes after the cleanup pass. -/
def secondLayer : Event := .header 1 ⟨[0x8C, 0x00], 0, 0, 0, false⟩ 0

theorem headers_independent_whole :
    headerResults styHTOnly firstIncluded [firstLayer, .data 0 true ⟨5, 0⟩, secondLayer] =
      headerResults styHTOnly firstIncluded [firstLayer, secondLayer] := by
  refine headers_independent styHTOnly firstIncluded rfl ?_ trivial
  exact ⟨.inr (by decide +kernel), trivial⟩

/-- With the data of the first layer cut off, its segments are thrown away; the second header then
finds a cleanup pass where there is none and reads two bits more. -/
theorem headers_dependent :
    headerResults styHTOnly firstIncluded [firstLayer, .data 0 true ⟨0, 0⟩, secondLayer] ≠
      headerResults styHTOnly firstIncluded [firstLayer, secondLayer] := by
  have hwhole : (headerResults styHTOnly firstIncluded [firstLayer, secondLayer]).map
      (fun r => (r.contributions, r.bio.offset, r.bio.ct)) =
        [([(1, 5)], 1, 3), ([(2, 6)], 1, 1)] := by decide +kernel
  have hcut : (headerResults styHTOnly firstIncluded
      [firstLayer, .data 0 true ⟨0, 0⟩, secondLayer]).map
        (fun r => (r.contributions, r.bio.offset, r.bio.ct)) =
          [([(1, 5)], 1, 3), ([(1, 3), (1, 0)], 2, 7)] := by decide +kernel
  intro h
  rw [h, hwhole] at hcut
  exact absurd hcut (by decide)

end GrokCodec.T1
