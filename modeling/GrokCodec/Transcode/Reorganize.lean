import GrokCodec.Transcode.Copy
import Mathlib.Algebra.BigOperators.Group.List.Basic
import Mathlib.Data.List.Flatten

/-!
Transcodes that drop or reorder packets. All packets that are kept go to the first tile part of
their tile, as a list of lengths; the copy loop reads on from where that tile part's data begins.
-/

namespace GrokCodec.Transcode

open ByteStream Codestream List Function SourcePacket Options
open Option (bind_eq_bind bind_eq_some_iff some)

/-- The packet bytes that are written, without the markers that are put in. Data copied as a whole
counts as one piece. -/
def TilePartData.packetBytes : TilePartData → List (List Nat)
  | .packets ws => ws.map fun w => w.header ++ w.data
  | .blob bytes => if bytes.isEmpty then [] else [bytes]

/-- The packets of a tile that should be written, in the order in which they should. -/
def Options.keptPackets (o : Options) (cs : Source) (tile : Nat) : List SourcePacket :=
  let kept := ((cs.parts.filter fun p => p.tileIndex = tile).flatMap SourceTilePart.recorded).filter
    fun q => o.keeps q.packet
  match o.progOrder with
  | none => kept
  | some order => kept.insertionSort fun a b => less order b.record a.record = false

theorem filtered_recordedPacketInfo (o : Options) {cs : Source} (hcs : cs.WellFormed) (tile : Nat) :
    o.filtered (cs.recordedPacketInfo tile) = (o.keptPackets cs tile).map record := by
  have hrecorded : cs.recordedPacketInfo tile = ((cs.parts.filter fun p =>
      p.tileIndex = tile).flatMap SourceTilePart.recorded).map record := by
    rw [hcs.recordedPacketInfo_eq, map_flatMap]
  have hkeeps : (fun p => o.keeps p.packet) ∘ record = fun q => o.keeps q.packet := rfl
  unfold filtered keptPackets
  simp only [hrecorded, filter_map, hkeeps]
  cases o.progOrder with
  | none => rfl
  | some order =>
    exact (map_insertionSort (r := fun a b => less order b.record a.record = false)
      (s := fun a b => less order b a = false) record _ fun _ _ _ _ => Iff.rfl).symm

/-- The packet bytes written for one tile. -/
def tileBytes (parts : List SourceTilePart) (ws : List WrittenTilePart) (tile : Nat) :
    List (List Nat) :=
  ((parts.zip ws).filter fun e => e.1.tileIndex = tile).flatMap fun e => e.2.data.packetBytes

/-- The packets `kept` stand where the copy loop looks for them, and there is nothing else it
could copy. -/
def InPlace (kept : List SourcePacket) : List SourceTilePart → Prop
  | [] => kept = []
  | p :: later => (∀ q ∈ later, q.data = []) ∧ kept.flatMap bytes <+: p.data ∧
    (kept = [] → p.data = [])

/-- The packets each tile part is given. -/
def giveFirst : List SourceTilePart → (Nat → List SourcePacket) → List (List SourcePacket)
  | [], _ => []
  | p :: parts, rest => rest p.tileIndex :: giveFirst parts (update rest p.tileIndex [])

theorem mapToFirst_eq (pos : Nat) (parts : List SourceTilePart) (rest : Nat → List SourcePacket) :
    mapToFirst (infosAt pos parts) (fun t => (rest t).map record) =
      (giveFirst parts rest).map fun qs => qs.map record := by
  induction parts generalizing pos rest with
  | nil => rfl
  | cons p parts ih =>
    have hupdate : update (fun t => (rest t).map record) p.tileIndex [] =
        fun t => (update rest p.tileIndex [] t).map record := by
      funext t
      by_cases ht : t = p.tileIndex
      · rw [ht, update_self, update_self, map_nil]
      · rw [update_of_ne ht, update_of_ne ht]
    rw [infosAt, mapToFirst, giveFirst, map_cons, ← ih, ← hupdate]
    rfl

theorem length_giveFirst (parts : List SourceTilePart) (rest : Nat → List SourcePacket) :
    (giveFirst parts rest).length = parts.length := by
  induction parts generalizing rest with
  | nil => rfl
  | cons p parts ih => rw [giveFirst, length_cons, length_cons, ih]

section Copy

variable {o : Options} {src : List Nat} {ps : List TilePartPacket} {pos seq : Nat}

theorem length_copyPackets {next : Nat} {ws : List WrittenPacket}
    (h : copyPackets o src ps pos seq = some (ws, next)) : ws.length = ps.length := by
  induction ps generalizing pos seq ws with
  | nil =>
    simp only [copyPackets, some.injEq, Prod.mk.injEq] at h
    rw [← h.1]
    rfl
  | cons p ps ih =>
    obtain ⟨header, -, h⟩ := bind_eq_some_iff.mp h
    obtain ⟨data, -, h⟩ := bind_eq_some_iff.mp h
    obtain ⟨⟨ws', next'⟩, hws, heq⟩ := bind_eq_some_iff.mp h
    obtain ⟨rfl, rfl⟩ := Prod.mk.inj (some.inj heq)
    rw [length_cons, length_cons, ih hws]

variable {p : SourceTilePart}

/-- What a tile part gets for its data if it is given no packets. -/
theorem copyData_nil (h : Occurs p.bytes src pos) (seq : Nat) :
    copyData o src (p.infoAt pos) [] seq = some (.blob p.data, seq) := by
  have hread : readAt src ((p.infoAt pos).sodOffset + 2) (p.infoAt pos).dataSize = some p.data :=
    (SourceTilePart.occurs_data h).readAt_eq
  simp only [copyData, isEmpty_nil, if_true, hread, bind_eq_bind, Option.bind_some]
  rfl

theorem length_packetBytes {next : Nat} (hne : ps ≠ []) {d : TilePartData}
    (h : copyData o src (p.infoAt pos) ps seq = some (d, next)) :
    d.packetBytes.length = ps.length := by
  have hempty : ps.isEmpty = false := by simpa using hne
  simp only [copyData, hempty, Bool.false_eq_true, if_false, bind_eq_bind] at h
  obtain ⟨⟨ws, next'⟩, hws, heq⟩ := bind_eq_some_iff.mp h
  obtain ⟨rfl, rfl⟩ := Prod.mk.inj (some.inj heq)
  rw [TilePartData.packetBytes, length_map, length_copyPackets hws]

/-- What a tile part gets for its data are the packets it is given, if they are where the loop
looks for them. -/
theorem copyData_packets_iff (h : Occurs p.bytes src pos) {qs : List SourcePacket}
    (hqs : ∀ q ∈ qs, q.bytes.length < 2 ^ 32) (hne : qs ≠ []) (seq : Nat) :
    (∃ d next, copyData o src (p.infoAt pos) (qs.map fun q => q.record.tilePartPacket) seq =
      some (d, next) ∧ d.packetBytes = qs.map bytes) ↔
        Occurs (qs.flatMap bytes) src ((p.infoAt pos).sodOffset + 2) := by
  have hempty : (qs.map fun q => q.record.tilePartPacket).isEmpty = false := by simpa using hne
  have hpos := (SourceTilePart.occurs_data h).1
  unfold copyData
  simp only [hempty, Bool.false_eq_true, if_false, bind_eq_bind]
  constructor
  · rintro ⟨d, next, hd, hbytes⟩
    obtain ⟨⟨ws, next'⟩, hws, heq⟩ := bind_eq_some_iff.mp hd
    obtain ⟨rfl, rfl⟩ := Prod.mk.inj (some.inj heq)
    have hoccurs := occurs_of_copyPackets hpos hws
    rwa [flatMap_def, show ws.map _ = qs.map bytes from hbytes,
      ← flatMap_def] at hoccurs
  · intro hoccurs
    obtain ⟨ws, next, hws, hall⟩ := copyPackets_of_occurs (o := o) hqs hoccurs seq
    refine ⟨.packets ws, next, by rw [hws]; rfl, ?_⟩
    rw [TilePartData.packetBytes]
    clear hws hoccurs hempty hne hqs
    induction hall with
    | nil => rfl
    | cons hw _ ih =>
      obtain ⟨n, rfl⟩ := hw
      simp [ih]

theorem writeTileParts_cons {tp : TilePartInfo} {rest : List (TilePartInfo × List TilePartPacket)}
    {ws : List WrittenTilePart} :
    writeTileParts o src ((tp, ps) :: rest) seq = some ws ↔
      ∃ w next ws', writeTilePart o src tp ps seq = some (w, next) ∧
        writeTileParts o src rest next = some ws' ∧ ws = w :: ws' := by
  rw [writeTileParts, bind_eq_bind, bind_eq_some_iff]
  constructor
  · rintro ⟨⟨w, next⟩, hw, h⟩
    obtain ⟨ws', hws, heq⟩ := bind_eq_some_iff.mp h
    exact ⟨w, next, ws', hw, hws, (some.inj heq).symm⟩
  · rintro ⟨w, next, ws', hw, hws, rfl⟩
    exact ⟨(w, next), hw, bind_eq_some_iff.mpr ⟨ws', hws, rfl⟩⟩

theorem tileBytes_cons (p : SourceTilePart) (parts : List SourceTilePart) (w : WrittenTilePart)
    (ws : List WrittenTilePart) (t : Nat) :
    tileBytes (p :: parts) (w :: ws) t =
      (if p.tileIndex = t then w.data.packetBytes else []) ++ tileBytes parts ws t := by
  unfold tileBytes
  by_cases ht : p.tileIndex = t <;> simp [ht]

theorem inPlace_nil_iff {later : List SourceTilePart} :
    InPlace [] later ↔ ∀ q ∈ later, q.data = [] := by
  cases later <;> simp [InPlace, and_comm]

variable {parts : List SourceTilePart} {rest : Nat → List SourcePacket}

/-- The first tile part of a tile is the one that matters. -/
theorem inPlace_cons_iff :
    (∀ t, InPlace (rest t) ((p :: parts).filter fun q => q.tileIndex = t)) ↔
      ((rest p.tileIndex).flatMap bytes <+: p.data ∧
        (rest p.tileIndex = [] → p.data = [])) ∧
      ∀ t, InPlace (update rest p.tileIndex [] t) (parts.filter fun q => q.tileIndex = t) := by
  have hother (t : Nat) (ht : ¬ t = p.tileIndex) :
      InPlace (rest t) ((p :: parts).filter fun q => q.tileIndex = t) ↔
        InPlace (update rest p.tileIndex [] t) (parts.filter fun q => q.tileIndex = t) := by
    rw [update_of_ne ht, filter_cons_of_neg (by simpa using fun h => ht h.symm)]
  have hsame : InPlace (rest p.tileIndex) ((p :: parts).filter fun q => q.tileIndex = p.tileIndex) ↔
      ((rest p.tileIndex).flatMap bytes <+: p.data ∧
        (rest p.tileIndex = [] → p.data = [])) ∧
      InPlace (update rest p.tileIndex [] p.tileIndex)
        (parts.filter fun q => q.tileIndex = p.tileIndex) := by
    rw [update_self, inPlace_nil_iff, filter_cons_of_pos (by simp), InPlace, and_comm]
  constructor
  · intro h
    refine ⟨(hsame.mp (h _)).1, fun t => ?_⟩
    by_cases ht : t = p.tileIndex
    · rw [ht]
      exact (hsame.mp (h _)).2
    · exact (hother t ht).mp (h t)
  · rintro ⟨hp, h⟩ t
    by_cases ht : t = p.tileIndex
    · rw [ht]
      exact hsame.mpr ⟨hp, h _⟩
    · exact (hother t ht).mpr (h t)

/-- The packets tile by tile come out as they should exactly if they are in place. -/
theorem exists_writeTileParts_iff (hlt : ∀ t, ∀ q ∈ rest t, q.bytes.length < 2 ^ 32)
    (hfit : ∀ t, ((rest t).flatMap bytes).length ≤
      ((parts.filter fun p => p.tileIndex = t).map fun p => p.data.length).sum)
    (h : Occurs (parts.flatMap SourceTilePart.bytes) src pos) (seq : Nat) :
    (∃ ws, writeTileParts o src ((infosAt pos parts).zip ((giveFirst parts rest).map fun qs =>
        qs.map fun q => q.record.tilePartPacket)) seq = some ws ∧
      ∀ t, tileBytes parts ws t = (rest t).map bytes) ↔
    ∀ t, InPlace (rest t) (parts.filter fun p => p.tileIndex = t) := by
  induction parts generalizing rest pos seq with
  | nil =>
    constructor
    · rintro ⟨ws, -, hbytes⟩ t
      exact map_eq_nil_iff.mp (hbytes t).symm
    · intro h
      refine ⟨[], rfl, fun t => ?_⟩
      rw [show rest t = [] from h t]
      rfl
  | cons p parts ih =>
    have hp := h.left
    have hlt' : ∀ t, ∀ q ∈ update rest p.tileIndex [] t, q.bytes.length < 2 ^ 32 := by
      intro t
      by_cases ht : t = p.tileIndex
      · rw [ht, update_self]
        simp
      · rw [update_of_ne ht]
        exact hlt t
    have hfit' : ∀ t, ((update rest p.tileIndex [] t).flatMap bytes).length ≤
        ((parts.filter fun p => p.tileIndex = t).map fun p => p.data.length).sum := by
      intro t
      by_cases ht : t = p.tileIndex
      · rw [ht, update_self]
        simp
      · have := hfit t
        rw [filter_cons_of_neg (by simpa using fun h => ht h.symm)] at this
        rwa [update_of_ne ht]
    rw [inPlace_cons_iff]
    simp only [infosAt, giveFirst, map_cons, zip_cons_cons, writeTileParts_cons,
      writeTilePart_eq hp, Option.map_eq_some_iff, Prod.mk.injEq, Prod.exists]
    constructor
    · rintro ⟨_, ⟨_, _, ws, ⟨d, next, hd, rfl, rfl⟩, hws, rfl⟩, hbytes⟩
      have hhere : d.packetBytes ++ tileBytes parts ws p.tileIndex =
          (rest p.tileIndex).map bytes := by
        rw [← hbytes p.tileIndex, tileBytes_cons, if_pos rfl]
      -- one piece for each packet, so that nothing is left for later tile parts
      have hlen : (rest p.tileIndex).length ≤ d.packetBytes.length := by
        by_cases hne : rest p.tileIndex = []
        · simp [hne]
        · rw [length_packetBytes (by simpa using hne) hd, length_map]
      have hlater : tileBytes parts ws p.tileIndex = [] := by
        have := congrArg List.length hhere
        rw [length_append, length_map] at this
        exact length_eq_zero_iff.mp (by omega)
      rw [hlater, append_nil] at hhere
      have hrest := (ih hlt' hfit' h.right next).mp ⟨ws, hws, fun t => ?_⟩
      · refine ⟨⟨?_, fun hnil => ?_⟩, hrest⟩
        · by_cases hne : rest p.tileIndex = []
          · simp [hne]
          have hoccurs := (copyData_packets_iff hp (hlt p.tileIndex) hne seq).mp ⟨d, next, hd, hhere⟩
          refine prefix_of_prefix_length_le hoccurs.2 (SourceTilePart.occurs_data hp).2 ?_
          have hall := hfit p.tileIndex
          have hnone := inPlace_nil_iff.mp (by simpa using hrest p.tileIndex)
          rw [filter_cons_of_pos (by simp), map_cons, sum_cons] at hall
          rw [sum_eq_zero fun n hn => ?_] at hall
          · simpa using hall
          · obtain ⟨q, hq, rfl⟩ := mem_map.mp hn
            rw [hnone q hq]
            rfl
        · rw [hnil, map_nil, copyData_nil hp] at hd
          obtain ⟨rfl, rfl⟩ := Prod.mk.inj (some.inj hd)
          rw [hnil] at hhere
          simpa [TilePartData.packetBytes] using hhere
      · by_cases ht : t = p.tileIndex
        · rw [ht, hlater, update_self]
          rfl
        · have := hbytes t
          rw [tileBytes_cons, if_neg (fun h => ht h.symm)] at this
          rwa [update_of_ne ht]
    · rintro ⟨⟨hfront, hnone⟩, hrest⟩
      have hdata : ∃ d next, copyData o src (p.infoAt pos)
          ((rest p.tileIndex).map fun q => q.record.tilePartPacket) seq = some (d, next) ∧
            d.packetBytes = (rest p.tileIndex).map bytes := by
        by_cases hne : rest p.tileIndex = []
        · refine ⟨.blob p.data, seq, by rw [hne]; exact copyData_nil hp seq, ?_⟩
          rw [hnone hne, hne]
          rfl
        · refine (copyData_packets_iff hp (hlt p.tileIndex) hne seq).mpr ?_
          obtain ⟨tail, htail⟩ := hfront
          have := SourceTilePart.occurs_data hp
          rw [← htail] at this
          exact this.left
      obtain ⟨d, next, hd, hhere⟩ := hdata
      obtain ⟨ws, hws, hbytes⟩ := (ih hlt' hfit' h.right next).mpr hrest
      refine ⟨_, ⟨_, _, ws, ⟨d, next, hd, rfl, rfl⟩, hws, rfl⟩, fun t => ?_⟩
      have hthere := hbytes t
      rw [tileBytes_cons, hthere]
      by_cases ht : t = p.tileIndex
      · rw [ht, update_self, if_pos rfl]
        simpa using hhere
      · rw [update_of_ne ht, if_neg (fun h => ht h.symm), nil_append]

end Copy

section Codestream

variable {o : Options} {cs : Source} {src : List Nat}

theorem keptPackets_subperm (o : Options) (cs : Source) (t : Nat) :
    (o.keptPackets cs t).Subperm
      ((cs.parts.filter fun p => p.tileIndex = t).flatMap SourceTilePart.recorded) := by
  unfold keptPackets
  cases o.progOrder with
  | none => exact filter_sublist.subperm
  | some order => exact (perm_insertionSort _ _).subperm.trans filter_sublist.subperm

theorem length_keptPackets_le (o : Options) (cs : Source) (t : Nat) :
    ((o.keptPackets cs t).flatMap bytes).length ≤
      ((cs.parts.filter fun p => p.tileIndex = t).map fun p => p.data.length).sum := by
  obtain ⟨qs, hperm, hsub⟩ := keptPackets_subperm o cs t
  rw [← (hperm.flatMap_right bytes).length_eq]
  refine (hsub.flatMap bytes).length_le.trans_eq ?_
  simp only [flatMap_assoc, SourceTilePart.recorded_flatMap, length_flatMap]

theorem tpPackets_reorganizing (hcs : cs.WellFormed) (hr : o.reorganizing = true) (pos : Nat) :
    o.tpPackets cs.recordedPacketInfo (infosAt pos cs.parts) =
      (giveFirst cs.parts (o.keptPackets cs)).map fun qs =>
        qs.map fun q => q.record.tilePartPacket := by
  have hneed : o.needPacketInfo = true := by
    simp only [reorganizing, needPacketInfo, Bool.or_eq_true] at hr ⊢
    tauto
  unfold tpPackets
  simp [hneed, hr, filtered_recordedPacketInfo o hcs, mapToFirst_eq, map_map, comp_def]

theorem length_writeTileParts {work : List (TilePartInfo × List TilePartPacket)} {seq : Nat}
    {ws : List WrittenTilePart} (h : writeTileParts o src work seq = some ws) :
    ws.length = work.length := by
  induction work generalizing seq ws with
  | nil =>
    obtain rfl := some.inj h
    rfl
  | cons e work ih =>
    obtain ⟨w, next, ws', -, hws, rfl⟩ := writeTileParts_cons.mp h
    rw [length_cons, length_cons, ih hws]

/-- Tile by tile, every packet that is kept is written with its own bytes in its turn, and no
other packet bytes are. -/
structure PacketsMoved (o : Options) (cs : Source) (written : Written) : Prop where
  parts : written.parts.length = cs.parts.length
  tiles : ∀ t, tileBytes cs.parts written.parts t = (o.keptPackets cs t).map bytes

/-- Two resolutions, two layers in the lower one, all in one tile part. -/
def threePackets : Source where
  main := [⟨COD, [0, 1, 0, 2, 0, 1, 4, 4, 0, 1]⟩]
  parts := [{
    tileIndex := 0, tpsot := 0, tnsot := 1, segments := []
    packets := [
      { packet := ⟨0, 0, 0, 0⟩, header := [0xc0], body := [1] },
      { packet := ⟨0, 0, 0, 1⟩, header := [0xc1], body := [2] },
      { packet := ⟨0, 1, 0, 0⟩, header := [0xc2], body := [3] }] }]

theorem threePackets_wellFormed : threePackets.WellFormed where
  main := by simp [threePackets, Segment.Fits, COD, SOT, EOC]
  parts := by
    intro p hp
    obtain rfl := mem_singleton.mp hp
    refine ⟨by decide, by decide, by simp, fun q hq => ?_⟩
    simp only [mem_cons, not_mem_nil, or_false] at hq
    rcases hq with rfl | rfl | rfl <;> exact ⟨.inl rfl, .inl rfl, by simp, by simp⟩
  nonempty := by simp [threePackets]
  psotZero := by simp [threePackets]
  plt := by
    intro tile
    by_cases htile : tile = 0
    · subst htile
      decide
    · exact Source.packetLengths_of_none (by simp [threePackets, Ne.symm htile])

end Codestream

end GrokCodec.Transcode
