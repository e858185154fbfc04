import GrokCodec.Transcode.PacketMarkers
import Mathlib.Algebra.Order.BigOperators.Group.List

/-!
Transcodes that only add markers. What is promised about every tile part of the result is stated
on the bytes that are written; it holds where no packet already carries a marker that is put in
again, and where the place of the marker is known.
-/

namespace GrokCodec.Transcode

open ByteStream Codestream List SourceTilePart Options
open Option (bind_some map_some some)

/-- A tile part as it should come out. -/
structure TilePartKept (o : Options) (p : SourceTilePart) (w : WrittenTilePart) : Prop where
  tileIndex : readU16 w.sot 4 = some p.tileIndex
  psot : readU32 w.sot 6 = some w.bytes.length
  packets : ∃ pieces, List.Forall₂ (PacketKept o) p.packets pieces ∧ w.data.Holds pieces ∧
    PLMarker.lengths w.plt = if o.writePlt then pieces.map List.length else []

/-- A codestream as it should come out. -/
structure Preserved (o : Options) (cs : Source) (written : Written) : Prop where
  parts : List.Forall₂ (TilePartKept o) cs.parts written.parts
  tlm : ∀ entries, written.tlm = some entries →
    entries = (cs.parts.zip written.parts).map fun e => (e.1.tileIndex, e.2.bytes.length)
  tlmWritten : o.writeTlm = true → written.tlm.isSome

/-- The lengths of the packets that have bytes, with the markers they are given. -/
def SourceTilePart.markedLengths (p : SourceTilePart) (o : Options) : List Nat :=
  p.recorded.map fun q => q.bytes.length + o.addedBytes

/-- The length of the tile part with all markers it is given. -/
def SourceTilePart.markedLength (p : SourceTilePart) (o : Options) : Nat :=
  12 + (if o.writePlt then (PLMarker.pushAll (p.markedLengths o)).write.length else 0) +
    ((p.segments.filter fun s => s.type ≠ PLT).flatMap Segment.bytes).length + 2 +
      (p.markedLengths o).sum

/-- What a marker-only transcode needs of its source. -/
structure Source.Clear (cs : Source) (o : Options) : Prop where
  few : cs.parts.length ≤ 10921
  lengths : ∀ p ∈ cs.parts, p.markedLength o < 2 ^ 32
  packets : ∀ p ∈ cs.parts, ∀ q ∈ p.packets, PacketClear o q

section TilePart

variable {o : Options} {p : SourceTilePart} {src : List Nat} {pos : Nat}

/-- The packets whose lengths a tile part is given. -/
def Options.partPackets (o : Options) (p : SourceTilePart) : List TilePartPacket :=
  if o.needPacketInfo then p.recorded.map fun q => q.record.tilePartPacket else []

theorem tpPackets_eq (hr : o.reorganizing = false) {cs : Source} (hcs : cs.WellFormed) (pos : Nat) :
    o.tpPackets cs.recordedPacketInfo (infosAt pos cs.parts) = cs.parts.map o.partPackets := by
  have hoff : (¬ o.maxLayers > 0 ∧ ¬ o.maxRes > 0) ∧ o.progOrder = none := by
    simpa [reorganizing] using hr
  have hfiltered (ps : List RecordedPacketInfo) : o.filtered ps = ps := by
    simp [filtered, keeps, hoff]
  have hmap := mapInOrder_eq
    (fun p hp => (by have := (hcs.parts p hp).length; unfold SourceTilePart.length at this; omega :
      p.data.length < 2 ^ 32)) pos cs.recordedPacketInfo hcs.recordedPacketInfo_eq
  unfold tpPackets partPackets
  simp only [hfiltered, hr, Bool.false_eq_true, if_false, hmap]
  split
  · simp [map_map, Function.comp_def]
  · rw [map_const', map_const', length_infosAt]

theorem partPackets_eq_nil (h : o.partPackets p = []) :
    (o.writePlt = false ∧ o.addedBytes = 0) ∨ p.recorded = [] := by
  unfold partPackets at h
  split at h
  case isTrue => exact .inr (map_eq_nil_iff.mp h)
  case isFalse hn =>
    have hoff : o.writePlt = false ∧ o.writeSop = false ∧ o.writeEph = false := by
      simp only [needPacketInfo, Bool.or_eq_true, not_or, Bool.not_eq_true] at hn
      tauto
    exact .inl ⟨hoff.1, by simp [addedBytes, hoff]⟩

theorem partPackets_of_ne_nil (h : o.partPackets p ≠ []) :
    o.partPackets p = p.recorded.map fun q => q.record.tilePartPacket := by
  unfold partPackets at h ⊢
  split at h
  case isTrue hn => rw [if_pos hn]
  case isFalse => exact absurd rfl h

/-- What becomes of the data of a tile part. -/
def DataCopied (o : Options) (p : SourceTilePart) (d : TilePartData) : Prop :=
  (o.partPackets p = [] ∧ d = .blob p.data) ∨
    ∃ ws, d = .packets ws ∧
      List.Forall₂ (CopiedAs o) p.recorded ws

theorem exists_copyData (hp : p.WellFormed) (h : Occurs p.bytes src pos) (seq : Nat) :
    ∃ d next, copyData o src (p.infoAt pos) (o.partPackets p) seq = some (d, next) ∧
      DataCopied o p d := by
  have hdata := occurs_data h
  unfold copyData
  by_cases hnil : o.partPackets p = []
  · have hread : readAt src ((p.infoAt pos).sodOffset + 2) (p.infoAt pos).dataSize = some p.data :=
      hdata.readAt_eq
    refine ⟨.blob p.data, seq, ?_, .inl ⟨hnil, rfl⟩⟩
    simp only [hnil, isEmpty_nil, if_true, hread, Option.bind_eq_bind, bind_some]
    rfl
  · rw [← p.recorded_flatMap] at hdata
    obtain ⟨ws, next, hws, hall⟩ :=
      copyPackets_of_occurs (o := o) (fun q hq => hp.length_bytes_lt hq) hdata seq
    refine ⟨.packets ws, next, ?_, .inr ⟨ws, rfl, hall⟩⟩
    have hempty : (o.partPackets p).isEmpty = false := by simpa using hnil
    rw [hempty]
    simp only [partPackets_of_ne_nil hnil, hws, Bool.false_eq_true, if_false, Option.bind_eq_bind,
      bind_some]
    rfl

/-- A tile part as it is written with this data. -/
def SourceTilePart.writtenAs (p : SourceTilePart) (o : Options) (pos : Nat) (d : TilePartData) :
    WrittenTilePart where
  sot := p.sot (o.adjustedLength (p.infoAt pos) (o.partPackets p))
  plt := (o.pltMarker (o.partPackets p)).segments
  markers := (p.segments.filter fun s => s.type ≠ PLT).flatMap Segment.bytes
  data := d

/-- The markers that are dropped and those that are copied make up the header. -/
theorem length_filter_segments (segs : List Segment) :
    ((segs.filter fun s => s.type ≠ PLT).flatMap Segment.bytes).length +
      ((segs.filter fun s => s.type = PLT).flatMap Segment.bytes).length =
        (segs.flatMap Segment.bytes).length := by
  induction segs with
  | nil => rfl
  | cons s segs ih =>
    by_cases hs : s.type = PLT
    · simp [hs] at ih ⊢
      omega
    · simp [hs] at ih ⊢
      omega

variable {d : TilePartData}

theorem DataCopied.length_bytes (h : DataCopied o p d) :
    d.bytes.length = (p.markedLengths o).sum := by
  unfold markedLengths
  rcases h with ⟨hnil, rfl⟩ | ⟨ws, rfl, hall⟩
  · rw [TilePartData.bytes, ← p.recorded_flatMap, length_flatMap]
    rcases partPackets_eq_nil hnil with ⟨-, h0⟩ | hrec
    · simp [h0]
    · simp [hrec]
  · rw [TilePartData.bytes, length_flatMap, map_length_bytes hall]

theorem length_recorded (p : SourceTilePart) (hall : p.recorded.length = p.packets.length) :
    ∀ q ∈ p.packets, q.bytes ≠ [] := by
  intro q hq
  simpa using length_filter_eq_length_iff.mp hall q hq

theorem recorded_eq (p : SourceTilePart) (hall : ∀ q ∈ p.packets, q.bytes ≠ []) :
    p.recorded = p.packets :=
  filter_eq_self.mpr fun q hq => by simpa using hall q hq

/-- What is copied from a tile part can be kept just where the markers can be put in. -/
theorem exists_pieces_iff (hp : p.WellFormed) (hd : DataCopied o p d) :
    (∃ pieces, List.Forall₂ (PacketKept o) p.packets pieces ∧ d.Holds pieces ∧
      (o.writePlt = true → p.markedLengths o = pieces.map List.length)) ↔
        ∀ q ∈ p.packets, PacketClear o q := by
  constructor
  · rintro ⟨pieces, hkept, hholds, hplt⟩ q hq
    by_cases hoff : o.writePlt = false ∧ o.addedBytes = 0
    · have hno := of_addedBytes_eq_zero hoff.2
      exact ⟨fun h => by simp [hno] at h, fun h => by simp [hno] at h, fun h => by simp [hoff] at h⟩
    have hcount : (pieces.filter fun b => !b.isEmpty).length = p.recorded.length := by
      rcases hd with ⟨hnil, rfl⟩ | ⟨ws, rfl, hws⟩
      · have hrec := (partPackets_eq_nil hnil).resolve_left hoff
        have hflat : pieces.flatten = [] := by
          rw [← hholds, ← p.recorded_flatMap, hrec]
          rfl
        rw [hrec, length_nil, length_eq_zero_iff, filter_eq_nil_iff]
        intro b hb
        simp [flatten_eq_nil_iff.mp hflat b hb]
      · rw [← hholds, length_map, hws.length_eq]
    obtain ⟨halign, hempty⟩ := packetKept_align hkept hcount.le
    have hwf := hp.packets q hq
    by_cases hb : q.bytes = []
    · refine (packetClear_of_bytes_nil hwf hb).mpr ⟨hempty q hq hb, ?_⟩
      -- a list of packet lengths would have to name this one
      by_contra hw
      have hlen := congrArg List.length (hplt (by simpa using hw))
      rw [markedLengths, length_map, length_map, ← hkept.length_eq] at hlen
      exact length_recorded p hlen q hq hb
    · refine (packetClear_of_bytes_ne_nil hb).mpr ?_
      have hmem : q ∈ p.recorded := mem_filter.mpr ⟨hq, by simpa using hb⟩
      rcases hd with ⟨hnil, -⟩ | ⟨ws, rfl, hws⟩
      · rw [(partPackets_eq_nil hnil).resolve_left hoff] at hmem
        cases hmem
      · rw [← hholds] at halign
        exact (forall₂_packetKept_iff (fun q hq => hp.packets q (mem_filter.mp hq).1) hws).mp
          halign q hmem
  · intro hclear
    have hempty : ∀ q ∈ p.packets, q.bytes = [] → PacketKept o q [] := fun q hq hb =>
      ((packetClear_of_bytes_nil (hp.packets q hq) hb).mp (hclear q hq)).1
    rcases hd with ⟨hnil, rfl⟩ | ⟨ws, rfl, hws⟩
    · refine ⟨p.packets.map SourcePacket.bytes, ?_, rfl, fun hplt => ?_⟩
      · rw [forall₂_map_right_iff, forall₂_same]
        intro q hq
        rcases partPackets_eq_nil hnil with ⟨-, h0⟩ | hrec
        · have hno := of_addedBytes_eq_zero h0
          exact packetKept_of_no_markers hno.1 hno.2
        · have hb : q.bytes = [] := by
            simpa using filter_eq_nil_iff.mp hrec q hq
          rw [hb]
          exact hempty q hq hb
      · have hall := recorded_eq p fun q hq => (hclear q hq).plt hplt
        rcases partPackets_eq_nil hnil with ⟨hoff, -⟩ | hrec
        · simp [hplt] at hoff
        · simp [markedLengths, hrec, ← hall]
    · have hrec : ∀ q ∈ p.recorded, q ∈ p.packets ∧ q.bytes ≠ [] := fun q hq =>
        ⟨(mem_filter.mp hq).1, by simpa using (mem_filter.mp hq).2⟩
      have hbytes := (forall₂_packetKept_iff (fun q hq => hp.packets q (hrec q hq).1) hws).mpr
        fun q hq => (packetClear_of_bytes_ne_nil (hrec q hq).2).mp (hclear q (hrec q hq).1)
      obtain ⟨pieces, hkept, hpieces⟩ := exists_pieces hbytes hempty
      refine ⟨pieces, hkept, hpieces, fun hplt => ?_⟩
      have hall := recorded_eq p fun q hq => (hclear q hq).plt hplt
      have hsame : pieces.filter (fun b => !b.isEmpty) = pieces := by
        refine filter_eq_self.mpr (length_filter_eq_length_iff.mp ?_)
        rw [← hpieces, length_map, ← hws.length_eq, hall, hkept.length_eq]
      rw [← hsame, ← hpieces, markedLengths, map_map]
      exact (map_length_bytes hws).symm

theorem SourceTilePart.markedLengths_lt (h : p.markedLength o < 2 ^ 32) :
    ∀ l ∈ p.markedLengths o, l < 2 ^ 32 := by
  intro l hl
  have := le_sum_of_mem hl
  unfold markedLength at h
  omega

variable (hlens : ∀ l ∈ p.markedLengths o, l < 2 ^ 32)
include hlens

theorem map_adjLen : (p.recorded.map fun q => q.record.tilePartPacket).map o.adjLen =
    p.markedLengths o := by
  rw [map_map]
  refine map_congr_left fun q hq => ?_
  have := hlens _ (mem_map_of_mem hq)
  exact (congrArg u32 (Nat.add_assoc _ _ _)).trans (u32_of_lt this)

theorem pltMarker_eq : o.pltMarker (o.partPackets p) =
    if o.writePlt then PLMarker.pushAll (p.markedLengths o) else {} := by
  unfold pltMarker
  split
  case isFalse => rfl
  case isTrue hplt =>
    have hneed : o.needPacketInfo = true := by simp [needPacketInfo, hplt]
    rw [partPackets, if_pos hneed, map_adjLen hlens]

theorem markedLengths_writes :
    (PLMarker.pushAll (p.markedLengths o)).Writes (p.markedLengths o) := by
  refine PLMarker.pushAll_writes fun l hl => ⟨?_, hlens l hl⟩
  obtain ⟨q, hq, rfl⟩ := mem_map.mp hl
  have hb : q.bytes ≠ [] := by simpa using (mem_filter.mp hq).2
  have := length_pos_iff.mpr hb
  omega

theorem lengths_pltMarker : PLMarker.lengths (o.pltMarker (o.partPackets p)).segments =
    if o.writePlt then p.markedLengths o else [] := by
  rw [pltMarker_eq hlens]
  split
  case isTrue => exact (markedLengths_writes hlens).lengths_eq hlens
  case isFalse => rfl

theorem adjustedLength_eq (hp : p.WellFormed) :
    o.adjustedLength (p.infoAt pos) (o.partPackets p) = u32 (p.markedLength o) := by
  have hplt : (o.pltMarker (o.partPackets p)).totalBytesWritten =
      if o.writePlt then (PLMarker.pushAll (p.markedLengths o)).write.length else 0 := by
    rw [pltMarker_eq hlens]
    split
    case isTrue => exact (markedLengths_writes hlens).length_write.symm
    case isFalse => rfl
  have hkept := markersAt_sizes p.segments (pos + 12) fun t => t ≠ PLT
  have hdropped := markersAt_sizes p.segments (pos + 12) fun t => t = PLT
  unfold adjustedLength
  simp only [infoAt, hkept, hdropped, hplt]
  unfold markedLength
  split
  case isTrue hnil =>
    have hdata : p.data.length = (p.markedLengths o).sum :=
      DataCopied.length_bytes (.inl ⟨isEmpty_iff.mp hnil, rfl⟩)
    have hlen := hp.length
    have hheader : p.headerBytes.length = _ := (length_filter_segments p.segments).symm
    have hsplit : p.length = 12 + p.headerBytes.length + 2 + p.data.length := rfl
    rw [u32_of_lt (by omega :
      ((p.segments.filter fun s => s.type = PLT).flatMap Segment.bytes).length < 2 ^ 32)]
    unfold u32
    omega
  case isFalse hne =>
    rw [partPackets_of_ne_nil (by simpa using hne), map_adjLen hlens]
    congr 1
    omega

theorem length_writtenAs (hd : DataCopied o p d) :
    (p.writtenAs o pos d).bytes.length = p.markedLength o := by
  have hplt : ((o.pltMarker (o.partPackets p)).segments.flatMap PLMarker.segmentBytes).length =
      if o.writePlt then (PLMarker.pushAll (p.markedLengths o)).write.length else 0 := by
    rw [pltMarker_eq hlens]
    split <;> rfl
  simp only [writtenAs, WrittenTilePart.bytes, length_append, hplt,
    length_sot, length_be16, hd.length_bytes, markedLength]

omit hlens

/-- **What is written for a tile part is what should be**, where the markers can be put in. -/
theorem tilePartKept_iff (hp : p.WellFormed) (hd : DataCopied o p d) :
    TilePartKept o p (p.writtenAs o pos d) ↔
      p.markedLength o < 2 ^ 32 ∧ ∀ q ∈ p.packets, PacketClear o q := by
  have hpsot (n : Nat) : readU32 (p.sot n) 6 = some (n % 2 ^ 32) := readU32_be32 n
  have hindex (n : Nat) : readU16 (p.sot n) 4 = some p.tileIndex := by
    have := hp.tileIndex
    show some (p.tileIndex / 256 % 256 * 256 + p.tileIndex % 256) = some p.tileIndex
    rw [some.injEq]
    omega
  have hwhole : (p.markedLengths o).sum ≤ (p.writtenAs o pos d).bytes.length := by
    rw [← hd.length_bytes]
    simp only [writtenAs, WrittenTilePart.bytes, length_append]
    omega
  constructor
  · intro h
    have hsmall : (p.writtenAs o pos d).bytes.length < 2 ^ 32 := by
      have := (hpsot _).symm.trans h.psot
      rw [← some.inj this]
      exact Nat.mod_lt _ (by decide)
    have hlens : ∀ l ∈ p.markedLengths o, l < 2 ^ 32 := fun l hl =>
      lt_of_le_of_lt (le_trans (le_sum_of_mem hl) hwhole) hsmall
    refine ⟨(length_writtenAs hlens hd) ▸ hsmall, (exists_pieces_iff hp hd).mp ?_⟩
    obtain ⟨pieces, hkept, hholds, hplt⟩ := h.packets
    refine ⟨pieces, hkept, hholds, fun hw => ?_⟩
    have hlist : PLMarker.lengths (p.writtenAs o pos d).plt = _ := lengths_pltMarker hlens
    rw [hplt, if_pos hw, if_pos hw] at hlist
    exact hlist.symm
  · rintro ⟨hlt, hclear⟩
    have hlens := markedLengths_lt hlt
    obtain ⟨pieces, hkept, hholds, hplt⟩ := (exists_pieces_iff hp hd).mpr hclear
    refine ⟨hindex _, ?_, pieces, hkept, hholds, ?_⟩
    · refine (hpsot _).trans (congrArg some ?_)
      rw [length_writtenAs hlens hd, adjustedLength_eq hlens hp, u32_of_lt hlt]
      exact Nat.mod_eq_of_lt hlt
    · refine (lengths_pltMarker hlens).trans ?_
      split
      case isTrue hw => exact hplt hw
      case isFalse => rfl

end TilePart

section Codestream

variable {o : Options} {src : List Nat} {parts : List SourceTilePart}

/-- What is written for a tile part, wherever it stood. -/
def WrittenFor (o : Options) (p : SourceTilePart) (w : WrittenTilePart) : Prop :=
  ∃ pos d, w = p.writtenAs o pos d ∧ DataCopied o p d

theorem exists_writeTileParts (hparts : ∀ p ∈ parts, p.WellFormed) {pos : Nat}
    (h : Occurs (parts.flatMap bytes) src pos) (seq : Nat) :
    ∃ ws, writeTileParts o src ((infosAt pos parts).zip (parts.map o.partPackets)) seq = some ws ∧
      List.Forall₂ (WrittenFor o) parts ws := by
  induction parts generalizing pos seq with
  | nil => exact ⟨[], rfl, .nil⟩
  | cons p parts ih =>
    obtain ⟨d, next, hd, hcopied⟩ := exists_copyData (o := o) (hparts p mem_cons_self) h.left seq
    obtain ⟨ws, hws, hall⟩ := ih (fun q hq => hparts q (mem_cons_of_mem _ hq)) h.right next
    refine ⟨p.writtenAs o pos d :: ws, ?_, .cons ⟨pos, d, rfl, hcopied⟩ hall⟩
    simp only [infosAt, map_cons, zip_cons_cons, writeTileParts, writeTilePart_eq h.left,
      hd, hws, map_some, Option.bind_eq_bind, bind_some]
    rfl

variable {ws : List WrittenTilePart}

theorem forall₂_tilePartKept_iff (hparts : ∀ p ∈ parts, p.WellFormed)
    (h : List.Forall₂ (WrittenFor o) parts ws) :
    List.Forall₂ (TilePartKept o) parts ws ↔
      ∀ p ∈ parts, p.markedLength o < 2 ^ 32 ∧ ∀ q ∈ p.packets, PacketClear o q := by
  induction h with
  | nil => simp
  | @cons p w parts ws hw _ ih =>
    obtain ⟨pos, d, rfl, hd⟩ := hw
    rw [forall₂_cons, ih fun q hq => hparts q (mem_cons_of_mem _ hq),
      tilePartKept_iff (hparts p mem_cons_self) hd, forall_mem_cons]

theorem tlm_entries_eq (hparts : ∀ p ∈ parts, p.WellFormed)
    (hlens : ∀ p ∈ parts, p.markedLength o < 2 ^ 32)
    (h : List.Forall₂ (WrittenFor o) parts ws) (pos : Nat) :
    ((infosAt pos parts).zip (parts.map o.partPackets)).map
        (fun e => (e.1.tileIndex, o.adjustedLength e.1 e.2)) =
      (parts.zip ws).map fun e => (e.1.tileIndex, e.2.bytes.length) := by
  induction h generalizing pos with
  | nil => rfl
  | @cons p w parts ws hw _ ih =>
    obtain ⟨pos', d, rfl, hd⟩ := hw
    have hlt := hlens p mem_cons_self
    have hmarked := markedLengths_lt hlt
    have hadjusted : o.adjustedLength (p.infoAt pos) (o.partPackets p) = p.markedLength o := by
      rw [adjustedLength_eq hmarked (hparts p mem_cons_self), u32_of_lt hlt]
    simp only [infosAt, map_cons, zip_cons_cons, hadjusted, length_writtenAs hmarked hd]
    rw [ih (fun q hq => hparts q (mem_cons_of_mem _ hq))
      fun q hq => hlens q (mem_cons_of_mem _ hq)]
    rfl

/-- One tile part with two packets, with or without a PLT marker for them. -/
def twoPackets (listed : Bool) : Source where
  main := [⟨COD, [0, 0, 0, 1, 0, 0, 4, 4, 0, 1]⟩]
  parts := [{
    tileIndex := 0, tpsot := 0, tnsot := 1, segments := if listed then [⟨PLT, [0, 5, 1]⟩] else []
    packets := [
      { packet := ⟨0, 0, 0, 0⟩, header := [0xc0, 0x10], body := [1, 2, 3], listed },
      { packet := ⟨0, 1, 0, 0⟩, header := [0x80], body := [], listed }] }]

theorem twoPackets_wellFormed (listed : Bool) : (twoPackets listed).WellFormed where
  main := by simp [twoPackets, Segment.Fits, COD, SOT, EOC]
  parts := by
    intro p hp
    obtain rfl := mem_singleton.mp hp
    refine ⟨by simp, by cases listed <;> decide, ?_, fun q hq => ?_⟩
    · cases listed <;> simp [Segment.Fits, PLT, SOD]
    simp only [mem_cons, not_mem_nil, or_false] at hq
    rcases hq with rfl | rfl
    · exact ⟨.inl rfl, .inl rfl, by simp, by simp⟩
    · exact ⟨.inl rfl, .inl rfl, by simp, by simp⟩
  nonempty := by simp [twoPackets]
  psotZero := by simp [twoPackets]
  plt := by
    intro tile
    by_cases htile : tile = 0
    · subst htile
      cases listed <;> decide
    · exact Source.packetLengths_of_none (by simp [twoPackets, Ne.symm htile])

end Codestream

end GrokCodec.Transcode
