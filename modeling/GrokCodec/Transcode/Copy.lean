import GrokCodec.Transcode.Write

/-!
What the steps of `transcodeCodestream` yield on a well-formed source: the markers and packets
they copy, and how packet records are handed to tile parts.
-/

namespace GrokCodec.Transcode

open ByteStream Codestream List SourcePacket

variable {o : Options} {src : List Nat} {segs : List Segment} {pos : Nat}

theorem occurs_segment {s : Segment} (h : Occurs ((s :: segs).flatMap Segment.bytes) src pos) :
    readAt src pos (2 + (s.payload.length + 2)) = some s.bytes ∧
      Occurs (segs.flatMap Segment.bytes) src (pos + s.bytes.length) := by
  have hread := h.left.readAt_eq
  rw [Segment.length_bytes] at hread
  exact ⟨by rw [← hread]; congr 1; omega, h.right⟩

theorem copyMarkers_eq (h : Occurs (segs.flatMap Segment.bytes) src pos) :
    copyMarkers src (markersAt pos segs) =
      some ((segs.filter fun s => s.type ≠ PLT).flatMap Segment.bytes) := by
  induction segs generalizing pos with
  | nil => rfl
  | cons s segs ih =>
    obtain ⟨hread, hrest⟩ := occurs_segment h
    by_cases hplt : s.type = PLT
    · simp [copyMarkers, markersAt, hplt, ih hrest]
    · simp [copyMarkers, markersAt, hplt, ih hrest, hread]

theorem exists_copyMain (levels : Nat) (h : Occurs (segs.flatMap Segment.bytes) src pos) :
    ∃ main, copyMain o src levels (markersAt pos segs) = some main := by
  induction segs generalizing pos with
  | nil => exact ⟨[], rfl⟩
  | cons s segs ih =>
    obtain ⟨hread, hrest⟩ := occurs_segment h
    obtain ⟨main, hmain⟩ := ih hrest
    by_cases htlm : s.type = TLM
    · exact ⟨main, by simp [copyMain, markersAt, htlm, hmain]⟩
    · simp [copyMain, markersAt, htlm, hmain, hread]

theorem markersAt_any (segs : List Segment) (pos : Nat) (t : Nat) :
    (markersAt pos segs).any (fun m => m.type = t) = segs.any fun s => s.type = t := by
  induction segs generalizing pos with
  | nil => rfl
  | cons s segs ih => simp [markersAt, ih]

theorem markersAt_sizes (segs : List Segment) (pos : Nat) (keep : Nat → Bool) :
    (((markersAt pos segs).filter fun m => keep m.type).map fun m => 2 + m.segLen).sum =
      ((segs.filter fun s => keep s.type).flatMap Segment.bytes).length := by
  induction segs generalizing pos with
  | nil => rfl
  | cons s segs ih =>
    by_cases hk : keep s.type = true
    · simp only [markersAt, filter_cons, hk, if_true, map_cons, sum_cons,
        flatMap_cons, length_append, Segment.length_bytes, ih]
      omega
    · simp [markersAt, hk, ih]

namespace SourcePacket

variable (q : SourcePacket)

/-- The record of a packet that has bytes. -/
def record : RecordedPacketInfo :=
  ⟨q.packet.compno, q.packet.resno, q.packet.layno, q.packet.precinctIndex, q.bytes.length,
    if q.listed then 0 else q.readHeader⟩

theorem parsePacket_eq : q.parsePacket q.plLength = if q.bytes = [] then none else some q.record := by
  unfold parsePacket plLength record
  by_cases hb : q.bytes = []
  · simp [hb]
  · by_cases hl : q.listed = true <;> simp [hb, hl]

theorem record_headerLength_le : q.record.headerLength ≤ q.bytes.length := by
  unfold record readHeader bytes
  simp only [length_append]
  split
  · omega
  · split <;> omega

end SourcePacket

namespace SourceTilePart

variable (p : SourceTilePart)

/-- The packets that have bytes, which are the recorded ones. -/
def recorded : List SourcePacket := p.packets.filter fun q => !q.bytes.isEmpty

theorem filterMap_parsePacket :
    p.packets.filterMap (fun q => q.parsePacket q.plLength) = p.recorded.map record := by
  unfold recorded
  induction p.packets with
  | nil => rfl
  | cons q qs ih =>
    by_cases hb : q.bytes = []
    · rw [filterMap_cons_none (by simp [parsePacket_eq, hb]), ih]
      simp [hb]
    · rw [filterMap_cons_some (b := q.record) (by simp [parsePacket_eq, hb]), ih]
      simp [hb]

theorem recorded_flatMap : p.recorded.flatMap SourcePacket.bytes = p.data := by
  unfold recorded data
  induction p.packets with
  | nil => rfl
  | cons q qs ih =>
    by_cases hb : q.bytes = [] <;> simp [hb, ih]

theorem WellFormed.length_bytes_lt {p : SourceTilePart} (hp : p.WellFormed) {q : SourcePacket}
    (hq : q ∈ p.recorded) : q.bytes.length < 2 ^ 32 := by
  have hle : q.bytes.length ≤ p.data.length := by
    rw [← p.recorded_flatMap, flatMap_def]
    exact (sublist_flatten_of_mem (mem_map_of_mem hq)).length_le
  have := hp.length
  unfold SourceTilePart.length at this
  omega

end SourceTilePart

/-- A tile without tile parts has no lengths to be read. -/
theorem Source.packetLengths_of_none {cs : Source} {tile : Nat}
    (h : cs.parts.filter (fun p => p.tileIndex = tile) = []) :
    cs.packetLengths tile = (cs.tilePackets tile).map plLength := by
  simp [packetLengths, tilePackets, pltMarkers, h, PLReader.readPLTs, PLReader.popN]

theorem Source.WellFormed.recordedPacketInfo_eq {cs : Source} (hcs : cs.WellFormed) (tile : Nat) :
    cs.recordedPacketInfo tile = (cs.parts.filter fun p => p.tileIndex = tile).flatMap
      fun p => p.recorded.map record := by
  rw [recordedPacketInfo, hcs.plt, ← map_prod_left_eq_zip, filterMap_map, tilePackets,
    filterMap_flatMap]
  simp only [← SourceTilePart.filterMap_parsePacket]
  rfl

theorem takePackets_eq {dataSize cumulated : Nat} {here later : List RecordedPacketInfo}
    (hpos : ∀ p ∈ here, 0 < p.totalLength) (hsize : dataSize < 2 ^ 32)
    (hsum : cumulated + (here.map RecordedPacketInfo.totalLength).sum = dataSize) :
    takePackets dataSize cumulated (here ++ later) = (here, later) := by
  induction here generalizing cumulated with
  | nil =>
    have hfull : ¬ cumulated < dataSize := by simp at hsum; omega
    cases later with
    | nil => rfl
    | cons p ps => simp [takePackets, hfull]
  | cons p ps ih =>
    simp only [map_cons, sum_cons] at hsum
    have hp := hpos p mem_cons_self
    have hroom : cumulated < dataSize := by omega
    have hrest := ih (fun q hq => hpos q (mem_cons_of_mem _ hq))
      (by omega : cumulated + p.totalLength + (ps.map RecordedPacketInfo.totalLength).sum = dataSize)
    rw [cons_append, takePackets, if_pos hroom, u32_of_lt (by omega), hrest]

theorem mapInOrder_eq {parts : List SourceTilePart} (hparts : ∀ p ∈ parts, p.data.length < 2 ^ 32)
    (pos : Nat) (rest : Nat → List RecordedPacketInfo)
    (hrest : ∀ t, rest t = (parts.filter fun p => p.tileIndex = t).flatMap
      fun p => p.recorded.map record) :
    mapInOrder (infosAt pos parts) rest =
      parts.map fun p => p.recorded.map record := by
  induction parts generalizing pos rest with
  | nil => rfl
  | cons p parts ih =>
    have hhere : rest p.tileIndex = p.recorded.map record ++
        (parts.filter fun q => q.tileIndex = p.tileIndex).flatMap
          fun q => q.recorded.map record := by
      simp [hrest]
    have htake : takePackets p.data.length 0 (rest p.tileIndex) =
        (p.recorded.map record, (parts.filter fun q => q.tileIndex = p.tileIndex).flatMap
          fun q => q.recorded.map record) := by
      rw [hhere]
      refine takePackets_eq (fun r hr => ?_) (hparts p mem_cons_self) ?_
      · obtain ⟨q, hq, rfl⟩ := mem_map.mp hr
        have hb : q.bytes ≠ [] := by simpa using (mem_filter.mp hq).2
        exact length_pos_iff.mpr hb
      · rw [← p.recorded_flatMap, length_flatMap, Nat.zero_add, map_map]
        rfl
    rw [infosAt, mapInOrder]
    simp only [SourceTilePart.infoAt, htake, map_cons]
    congr 1
    refine ih (fun q hq => hparts q (mem_cons_of_mem _ hq)) _ _ fun t => ?_
    by_cases ht : t = p.tileIndex
    · rw [ht, Function.update_self]
    · rw [Function.update_of_ne ht, hrest]
      have ht' : ¬ p.tileIndex = t := fun h => ht h.symm
      simp [ht']

/-- A packet with the markers that are inserted, the EPH where its header is taken to end. -/
def CopiedAs (o : Options) (q : SourcePacket) (w : WrittenPacket) : Prop :=
  ∃ n, w = ⟨if o.writeSop then sopMarker n else [], q.bytes.take q.record.headerLength,
    if o.writeEph then ephMarker else [], q.bytes.drop q.record.headerLength⟩

/-- The copy loop finds the packets that stand next in the source. -/
theorem copyPackets_of_occurs {qs : List SourcePacket} (hqs : ∀ q ∈ qs, q.bytes.length < 2 ^ 32)
    (h : Occurs (qs.flatMap SourcePacket.bytes) src pos) (seq : Nat) :
    ∃ ws next, copyPackets o src (qs.map fun q => q.record.tilePartPacket) pos seq = some (ws, next) ∧
      List.Forall₂ (CopiedAs o) qs ws := by
  induction qs generalizing pos seq with
  | nil => exact ⟨[], seq, rfl, .nil⟩
  | cons q qs ih =>
    have h32 := hqs q mem_cons_self
    have hle := q.record_headerLength_le
    have hcut : Occurs (q.bytes.take q.record.headerLength ++ q.bytes.drop q.record.headerLength)
        src pos := by
      rw [take_append_drop]
      exact h.left
    have htake : (q.bytes.take q.record.headerLength).length = q.record.headerLength := by
      rw [length_take]
      omega
    have hdrop : (q.bytes.drop q.record.headerLength).length =
        sub32 q.record.totalLength q.record.headerLength := by
      rw [length_drop]
      exact (sub32_of_le hle h32).symm
    have hhead := hcut.left.readAt_eq
    have hdata := hcut.right.readAt_eq
    rw [htake] at hhead hdata
    rw [hdrop] at hdata
    have hpos : pos + q.record.headerLength + (q.bytes.drop q.record.headerLength).length =
        pos + q.bytes.length := by
      rw [length_drop]
      omega
    obtain ⟨ws, next, hws, hall⟩ := ih (fun q hq => hqs q (mem_cons_of_mem _ hq)) h.right
      (o.nextSequence seq)
    refine ⟨_, next, ?_, .cons ⟨seq, rfl⟩ hall⟩
    simp only [map_cons, copyPackets, RecordedPacketInfo.tilePartPacket, hhead, hdata, hpos,
      Option.bind_eq_bind, Option.bind_some]
    simp only [RecordedPacketInfo.tilePartPacket] at hws
    rw [hws]
    rfl

/-- Whatever the copy loop writes from the source stands there one after the other. -/
theorem occurs_of_copyPackets {ps : List TilePartPacket} {seq next : Nat}
    {ws : List WrittenPacket} (hpos : pos ≤ src.length)
    (h : copyPackets o src ps pos seq = some (ws, next)) :
    Occurs (ws.flatMap fun w => w.header ++ w.data) src pos := by
  induction ps generalizing pos seq ws with
  | nil =>
    simp only [copyPackets, Option.some.injEq, Prod.mk.injEq] at h
    rw [← h.1]
    exact ⟨hpos, nil_prefix⟩
  | cons p ps ih =>
    obtain ⟨header, hheader, h⟩ := Option.bind_eq_some_iff.mp h
    obtain ⟨data, hdata, h⟩ := Option.bind_eq_some_iff.mp h
    obtain ⟨⟨ws', next'⟩, hws, heq⟩ := Option.bind_eq_some_iff.mp h
    obtain ⟨rfl, rfl⟩ := Prod.mk.inj (Option.some.inj heq)
    obtain ⟨h1, hlen⟩ := occurs_of_readAt hheader
    obtain ⟨h2, -⟩ := occurs_of_readAt hdata
    have hboth : Occurs (header ++ data) src pos := Occurs.append_iff.mpr ⟨h1, by rwa [hlen]⟩
    have hle := hboth.add_length_le
    rw [length_append] at hle
    have hrest := ih (by omega : pos + p.headerLength + data.length ≤ src.length) hws
    rw [flatMap_cons]
    refine Occurs.append_iff.mpr ⟨hboth, ?_⟩
    rwa [length_append, hlen, ← Nat.add_assoc]

theorem length_infosAt (pos : Nat) (parts : List SourceTilePart) :
    (infosAt pos parts).length = parts.length := by
  induction parts generalizing pos with
  | nil => rfl
  | cons p parts ih => rw [infosAt, length_cons, length_cons, ih]

variable {p : SourceTilePart}

theorem SourceTilePart.occurs_data (h : Occurs p.bytes src pos) :
    Occurs p.data src ((p.infoAt pos).sodOffset + 2) :=
  h.right.right.right

/-- SOT and header markers are always found; only the data may be missing. -/
theorem writeTilePart_eq (h : Occurs p.bytes src pos) (ps : List TilePartPacket) (seq : Nat) :
    writeTilePart o src (p.infoAt pos) ps seq =
      (copyData o src (p.infoAt pos) ps seq).map fun d =>
        (⟨p.sot (o.adjustedLength (p.infoAt pos) ps), (o.pltMarker ps).segments,
          (p.segments.filter fun s => s.type ≠ PLT).flatMap Segment.bytes, d.1⟩, d.2) := by
  have hsot : readAt src (p.infoAt pos).srcOffset 12 = some (p.sot p.psot) := h.left.readAt_eq
  have hmarkers : copyMarkers src (p.infoAt pos).headerMarkers = some _ :=
    copyMarkers_eq h.right.left
  have hpatch : patchPsot (p.sot p.psot) (o.adjustedLength (p.infoAt pos) ps) =
      p.sot (o.adjustedLength (p.infoAt pos) ps) := rfl
  rw [← hpatch]
  unfold writeTilePart
  simp only [hsot, hmarkers, Option.bind_eq_bind, Option.bind_some]
  cases copyData o src (p.infoAt pos) ps seq <;> rfl

/-- A transcode of a well-formed codestream comes down to writing its tile parts. -/
theorem transcodeCodestream_eq {cs : Source} (hcs : cs.WellFormed) {csStart : Nat}
    (h : Occurs cs.bytes src csStart) (recorded : Nat → List RecordedPacketInfo) :
    ∃ main pos, Occurs (cs.parts.flatMap SourceTilePart.bytes) src pos ∧
      transcodeCodestream o src recorded csStart cs.bytes.length =
        if cs.parts.length ≤ 10921 then
          let work := (infosAt pos cs.parts).zip (o.tpPackets recorded (infosAt pos cs.parts))
          (writeTileParts o src work 0).map fun parts =>
            { main, parts
              tlm := if o.writeTlm ∨ cs.main.any (fun s => s.type = TLM) then
                  some (work.map fun e => (e.1.tileIndex, o.adjustedLength e.1 e.2))
                else none }
        else none := by
  have hsoc := h.left.readU16_eq (by decide)
  have hmainAt : Occurs (cs.main.flatMap Segment.bytes) src (csStart + 2) := h.right.left
  have hpartsAt := h.right.right
  have hlen : cs.bytes.length = 2 + (cs.main.flatMap Segment.bytes).length +
      (cs.parts.flatMap SourceTilePart.bytes).length + 2 := by
    simp [Source.bytes]
    omega
  obtain ⟨p, parts, hparts⟩ : ∃ p parts, cs.parts = p :: parts :=
    exists_cons_of_ne_nil hcs.nonempty
  -- the first tile part ends the main header
  have hnext : Occurs (cs.main.flatMap Segment.bytes ++ be16 SOT) src (csStart + 2) := by
    refine Occurs.append_iff.mpr ⟨hmainAt, ?_⟩
    have := hpartsAt.left
    rw [hparts, flatMap_cons] at this
    exact this.left.left.left
  obtain ⟨pos, hpos⟩ : ∃ pos, pos = csStart + 2 + (cs.main.flatMap Segment.bytes).length := ⟨_, rfl⟩
  have hscan := scanMainHeader_eq hcs.main (.inl rfl)
    (by have := length_le_flatMap_bytes cs.main; omega :
      cs.main.length < csStart + cs.bytes.length + 1)
    hnext (by omega : _ < csStart + cs.bytes.length)
  have hfew : cs.parts.length ≤ (cs.parts.flatMap SourceTilePart.bytes).length := by
    have hlong (ps : List SourceTilePart) :
        ps.length ≤ (ps.flatMap SourceTilePart.bytes).length := by
      induction ps with
      | nil => simp
      | cons p ps ih =>
        simp only [length_cons, flatMap_cons, length_append, p.length_bytes,
          SourceTilePart.length]
        omega
    exact hlong _
  have htps := scanTileParts_eq hcs.parts hcs.psotZero
    (by omega : cs.parts.length < csStart + cs.bytes.length + 1) (hpos ▸ hpartsAt)
    (by omega : csStart + cs.bytes.length = _)
  have hne : infosAt pos cs.parts ≠ [] := by
    rw [hparts]
    exact cons_ne_nil _ _
  obtain ⟨main, hmain⟩ := exists_copyMain (o := o)
    (decompLevels src (markersAt (csStart + 2) cs.main)) hmainAt
  refine ⟨main, pos, hpos ▸ hpartsAt.left, ?_⟩
  unfold transcodeCodestream
  simp only [hsoc, hscan, ← hpos, htps, hmain, length_infosAt, hne, markersAt_any, ne_eq,
    not_false_eq_true, true_and, guard, if_true, Option.bind_eq_bind, Option.bind_some,
    Option.pure_def]
  by_cases hmany : cs.parts.length ≤ 10921
  · simp only [hmany, if_true, Option.bind_some]
    cases writeTileParts o src _ 0 <;> rfl
  · simp only [hmany, if_false]
    rfl

end GrokCodec.Transcode
