import GrokCodec.PacketIter.LayerWalk
import GrokCodec.PacketIter.PcrlFastPath
import GrokCodec.Transcode.Source

/-!
The order of a reordering transcode against the order of the packet iterator. The sort takes the
number of a precinct within its own resolution for its position; the iterator goes by the corner
of the precinct on the reference grid.
-/

namespace GrokCodec.PacketIter.Tile

open Resumable Ordered

variable (T : Tile)

/-- The generic iterator comes across every precinct of the tile. -/
def Reached : ProgOrder → Prop
  | .lrcp | .rlcp => T.NoWrap
  | .rpcl | .pcrl | .prcl =>
    T.NoWrap ∧ ∀ c < T.numcomps, T.StepReaches c T.updateDx T.updateDy
  | .cprl => T.NoWrap ∧ ∀ c < T.numcomps, T.StepReaches c (T.cprlStepX c) (T.cprlStepY c)

variable {T}

theorem listsAll_of_noWrap_iff {key : Packet → List Nat} {ps : List Packet}
    (hmem : ∀ p, p ∈ ps ↔ T.Coded p)
    (hsorted : KeySorted key ps) : T.ListsAll key ps ↔ T.NoWrap := by
  constructor
  · intro h c hc r hr hw
    have hpos := hw.1
    have hp := (hasPacket_at hc hr (Nat.pos_of_mul_pos_right hpos)
      (Nat.pos_of_mul_pos_left hpos)).1
    exact ((hmem _).mp ((h.mem_iff _).mpr hp)).2 hw
  · intro h
    refine ⟨fun p => (hmem p).trans ⟨And.left, fun hp => ⟨hp, ?_⟩⟩, hsorted.nodup, hsorted⟩
    exact h _ hp.compno _ hp.resno

/-- What the generic iterator hands out, its order, and when it is everything. -/
theorem exists_walk_reached (T : Tile) (order : ProgOrder) (compression single : Bool) {w : Rect}
    (hw : T.NoWindow w) :
    ∃ ps, Enumerates (T.genericIter order compression single w).next State.packet
        ((T.genericIter order compression single w).start [] 0) ps ∧
      KeySorted (T.iterKey order) ps ∧ (T.ListsAll (T.iterKey order) ps ↔ T.Reached order) := by
  obtain ⟨ps, henum, hsorted, hmem⟩ := T.exists_walk order compression single hw
  refine ⟨ps, henum, hsorted, ?_⟩
  cases order with
  | lrcp | rlcp => exact listsAll_of_noWrap_iff hmem hsorted
  | rpcl | pcrl | prcl =>
    exact listsAll_iff (fun _ => T.updateDx) (fun _ => T.updateDy) hmem hsorted
  | cprl => exact listsAll_iff T.cprlStepX T.cprlStepY hmem hsorted

variable (T)

/-- Among precincts with the same `group`, those with lower numbers lie before those with higher
ones, row by row; `tie` decides between precincts with one number as between precincts with one
corner. -/
def NumbersFollow (group tie : Packet → List Nat) : Prop :=
  ∀ p q, T.HasPacket p → T.HasPacket q → group p = group q →
    p.precinctIndex :: tie p < q.precinctIndex :: tie q →
      T.precY p :: T.precX p :: tie p < T.precY q :: T.precX q :: tie q

/-- The number of a precinct stands for its position: in RPCL among the precincts of one
resolution, in CPRL among those of one component, in PCRL among all of the tile. -/
def NumberedByPosition : ProgOrder → Prop
  | .rpcl => T.NumbersFollow (fun p => [p.resno]) fun p => [p.compno]
  | .pcrl => T.NumbersFollow (fun _ => []) fun p => [p.compno, p.resno]
  | .cprl => T.NumbersFollow (fun p => [p.compno]) fun p => [p.resno]
  | .lrcp | .rlcp | .prcl => True

variable {T}

theorem HasPacket.layer_zero {p : Packet} (hp : T.HasPacket p) :
    T.HasPacket { p with layno := 0 } :=
  { hp with layno := T.numLayers_range.1 }

/-- Numbers and corners order the packets of the tile alike when they do so for the precincts. -/
theorem keys_agree_iff (group tie : Packet → List Nat)
    (hlen : ∀ p q, (group p).length = (group q).length ∧ (tie p).length = (tie q).length)
    (hlay : ∀ p : Packet, group { p with layno := 0 } = group p ∧ tie { p with layno := 0 } = tie p)
    (hdet : ∀ p q : Packet, group p = group q → tie p = tie q →
      p.compno = q.compno ∧ p.resno = q.resno) :
    (∀ p q, T.HasPacket p → T.HasPacket q →
      group p ++ (p.precinctIndex :: tie p ++ [p.layno]) <
        group q ++ (q.precinctIndex :: tie q ++ [q.layno]) →
      group p ++ (T.precY p :: T.precX p :: tie p ++ [p.layno]) <
        group q ++ (T.precY q :: T.precX q :: tie q ++ [q.layno])) ↔
      T.NumbersFollow group tie := by
  have hnum (p q : Packet) :
      (p.precinctIndex :: tie p).length = (q.precinctIndex :: tie q).length := by simp [hlen p q]
  have hpos (p q : Packet) : (T.precY p :: T.precX p :: tie p).length =
      (T.precY q :: T.precX q :: tie q).length := by simp [hlen p q]
  constructor
  · intro h p q hp hq hg hlt
    have hkey : group p ++ (p.precinctIndex :: tie p ++ [0]) <
        group q ++ (q.precinctIndex :: tie q ++ [0]) :=
      (append_lt_iff (hlen p q).1).mpr (.inr ⟨hg, (append_lt_iff (hnum p q)).mpr (.inl hlt)⟩)
    have hwalk := h { p with layno := 0 } { q with layno := 0 } hp.layer_zero hq.layer_zero
    rw [(hlay p).1, (hlay p).2, (hlay q).1, (hlay q).2] at hwalk
    rcases (append_lt_iff (hlen p q).1).mp (hwalk hkey) with hg' | ⟨-, hpos'⟩
    · rw [hg] at hg'
      exact absurd hg' (List.lt_irrefl _)
    · rcases (append_lt_iff (hpos p q)).mp hpos' with h | ⟨-, h⟩
      · exact h
      · exact absurd h (List.lt_irrefl _)
  · intro h p q hp hq hlt
    rcases (append_lt_iff (hlen p q).1).mp hlt with hg | ⟨hg, hlt⟩
    · exact (append_lt_iff (hlen p q).1).mpr (.inl hg)
    · refine (append_lt_iff (hlen p q).1).mpr (.inr ⟨hg, ?_⟩)
      rcases (append_lt_iff (hnum p q)).mp hlt with hn | ⟨hn, hl⟩
      · exact (append_lt_iff (hpos p q)).mpr (.inl (h p q hp hq hg hn))
      · -- two layers of one precinct
        obtain ⟨hi, ht⟩ := List.cons.inj hn
        obtain ⟨hc, hr⟩ := hdet p q hg ht
        refine (append_lt_iff (hpos p q)).mpr (.inr ⟨?_, hl⟩)
        rw [precY, precX, precY, precX, hc, hr, hi, ht]

end GrokCodec.PacketIter.Tile

namespace GrokCodec.Transcode

open PacketIter Resumable Ordered

/-- The sort key of a packet, whatever the lengths in its record. -/
def packetKey (order : ProgOrder) (p : Packet) : List Nat :=
  sortKey order ⟨p.compno, p.resno, p.layno, p.precinctIndex, 0, 0⟩

theorem sortKey_eq (order : ProgOrder) (r : RecordedPacketInfo) :
    sortKey order r = packetKey order r.packet := by
  cases order <;> rfl

variable {order : ProgOrder}

theorem packetKey_injective (ho : order ≠ .prcl) {p q : Packet}
    (h : packetKey order p = packetKey order q) : p = q := by
  obtain ⟨c, r, i, l⟩ := p
  cases order <;> simp_all [packetKey, sortKey, sortFields]

/-- The sort and the iterator order the packets of the tile alike when numbers stand for
positions. -/
theorem packetKey_iterKey_iff (T : Tile) (ho : order ≠ .prcl) :
    (∀ p q, T.HasPacket p → T.HasPacket q → packetKey order p < packetKey order q →
      T.iterKey order p < T.iterKey order q) ↔ T.NumberedByPosition order := by
  cases order with
  | lrcp => exact ⟨fun _ => trivial, fun _ _ _ _ _ h => h⟩
  | rlcp => exact ⟨fun _ => trivial, fun _ _ _ _ _ h => h⟩
  | rpcl =>
    exact Tile.keys_agree_iff (fun p => [p.resno]) (fun p => [p.compno]) (fun _ _ => ⟨rfl, rfl⟩)
      (fun _ => ⟨rfl, rfl⟩)
      fun p q hg ht => ⟨List.head_eq_of_cons_eq ht, List.head_eq_of_cons_eq hg⟩
  | pcrl =>
    exact Tile.keys_agree_iff (fun _ => []) (fun p => [p.compno, p.resno])
      (fun _ _ => ⟨rfl, rfl⟩) (fun _ => ⟨rfl, rfl⟩)
      fun p q _ ht => ⟨List.head_eq_of_cons_eq ht,
        List.head_eq_of_cons_eq (List.tail_eq_of_cons_eq ht)⟩
  | cprl =>
    exact Tile.keys_agree_iff (fun p => [p.compno]) (fun p => [p.resno]) (fun _ _ => ⟨rfl, rfl⟩)
      (fun _ => ⟨rfl, rfl⟩)
      fun p q hg ht => ⟨List.head_eq_of_cons_eq hg, List.head_eq_of_cons_eq ht⟩
  | prcl => exact absurd rfl ho

/-- Records of all packets of a tile, each once, in whatever order the source has them. -/
structure RecordsOf (T : Tile) (recs : List RecordedPacketInfo) : Prop where
  mem_iff : ∀ p, p ∈ recs.map RecordedPacketInfo.packet ↔ T.HasPacket p
  nodup : (recs.map RecordedPacketInfo.packet).Nodup

namespace RecordsOf

variable {T : Tile} {recs : List RecordedPacketInfo}

theorem sorted_perm (order : ProgOrder) (recs : List RecordedPacketInfo) :
    ((sortPackets order recs).map RecordedPacketInfo.packet).Perm
      (recs.map RecordedPacketInfo.packet) :=
  (sortPackets_perm order recs).map _

theorem keySorted (h : RecordsOf T recs) (ho : order ≠ .prcl) :
    KeySorted (packetKey order) ((sortPackets order recs).map RecordedPacketInfo.packet) := by
  have hle : ((sortPackets order recs).map RecordedPacketInfo.packet).Pairwise
      fun p q => ¬ packetKey order q < packetKey order p :=
    List.pairwise_map.mpr ((sortPackets_sorted order recs).imp fun hab => by
      rwa [sortKey_eq, sortKey_eq] at hab)
  have hnd := (sorted_perm order recs).nodup_iff.mpr h.nodup
  refine (hle.and hnd).imp fun {p q} ⟨hle, hne⟩ => ?_
  rcases lt_trichotomy (packetKey order p) (packetKey order q) with hlt | heq | hgt
  · exact hlt
  · exact absurd (packetKey_injective ho heq) hne
  · exact absurd hgt hle

end RecordsOf

/-- The generic iterator visits the packets of the tile in the order the records are sorted in. -/
def VisitedAsSorted (T : Tile) (order : ProgOrder) (compression singleProgression : Bool) (w : Rect)
    (recs : List RecordedPacketInfo) : Prop :=
  let it := T.genericIter order compression singleProgression w
  Enumerates it.next State.packet (it.start [] 0)
    ((sortPackets order recs).map RecordedPacketInfo.packet)

/-- **A reordering transcode sorts the packets of a tile into the order of the packet iterator
exactly when the iterator reaches every precinct and the numbers of the precincts follow their
positions on the reference grid.** -/
theorem visitedAsSorted_iff (T : Tile) (order : ProgOrder) (ho : order ≠ .prcl)
    (compression singleProgression : Bool) (w : Rect) (hw : T.NoWindow w)
    (recs : List RecordedPacketInfo) (hrecs : RecordsOf T recs) :
    VisitedAsSorted T order compression singleProgression w recs ↔
      T.Reached order ∧ T.NumberedByPosition order := by
  obtain ⟨ps, hps, hwalk, hall⟩ := T.exists_walk_reached order compression singleProgression hw
  have hsort := hrecs.keySorted ho
  have hmem (p : Packet) : p ∈ (sortPackets order recs).map RecordedPacketInfo.packet ↔
      T.HasPacket p := (RecordsOf.sorted_perm order recs).mem_iff.trans (hrecs.mem_iff p)
  have heq := KeySorted.eq_map_iff (f := id) hwalk hsort
  rw [List.map_id] at heq
  rw [← hall, ← packetKey_iterKey_iff T ho]
  constructor
  · intro h
    obtain rfl := hps.unique h
    refine ⟨⟨hmem, hwalk.nodup, hwalk⟩, fun p q hp hq hlt => ?_⟩
    exact (heq.mp rfl).2 p ((hmem p).mpr hp) q ((hmem q).mpr hq) hlt
  · rintro ⟨hlists, hkeys⟩
    have hsame : ps = (sortPackets order recs).map RecordedPacketInfo.packet := by
      refine heq.mpr ⟨fun p => ?_, fun p hp q hq => ?_⟩
      · rw [hlists.mem_iff, ← hmem]
        exact ⟨fun hp => ⟨p, hp, rfl⟩, fun ⟨_, hp, h⟩ => h ▸ hp⟩
      · exact hkeys p q ((hmem p).mp hp) ((hmem q).mp hq)
    rw [hsame] at hps
    exact hps

end GrokCodec.Transcode

namespace GrokCodec.Transcode

open PacketIter Resumable Ordered

/-- Records of a row of two components with one resolution and one layer. -/
theorem recordsOf_row {width d d' e e' : Nat} {hw : width ≤ uintMax} {hd : 1 ≤ d ∧ d ≤ 255}
    {hd' : 1 ≤ d' ∧ d' ≤ 255} {he : e ≤ 15} {he' : e' ≤ 15} {recs : List RecordedPacketInfo}
    (hnodup : (recs.map RecordedPacketInfo.packet).Nodup)
    (hmem : ∀ p ∈ recs.map RecordedPacketInfo.packet, p.compno < 2 ∧ p.resno < 1 ∧
      p.precinctIndex < (Tile.row width (.flat d e hd he) (.flat d' e' hd' he') hw).numPrecincts
        p.compno p.resno ∧ p.layno < 1)
    (hall : ∀ c < 2, ∀ i < (Tile.row width (.flat d e hd he) (.flat d' e' hd' he') hw).numPrecincts
      c 0, (⟨c, 0, i, 0⟩ : Packet) ∈ recs.map RecordedPacketInfo.packet) :
    RecordsOf (Tile.row width (.flat d e hd he) (.flat d' e' hd' he') hw) recs := by
  have hres (c : Nat) :
      ((Tile.row width (.flat d e hd he) (.flat d' e' hd' he') hw).comps c).numresolutions = 1 := by
    by_cases h : c = 0 <;> simp [Tile.row, Component.flat, Component.part1, h]
  refine ⟨fun p => ⟨fun hp => ?_, fun hp => ?_⟩, hnodup⟩
  · obtain ⟨h1, h2, h3, h4⟩ := hmem p hp
    exact ⟨h1, by rw [hres]; exact h2, h3, h4⟩
  · obtain ⟨c, r, i, l⟩ := p
    obtain ⟨h1, h2, h3, h4⟩ := hp
    rw [hres] at h2
    obtain rfl : r = 0 := Nat.lt_one_iff.mp h2
    obtain rfl : l = 0 := Nat.lt_one_iff.mp h4
    exact hall c h1 i h3

/-- The packets of `twoAndFour`, as an LRCP codestream has them. -/
def twoAndFourRecords : List RecordedPacketInfo :=
  [⟨0, 0, 0, 0, 1, 1⟩, ⟨0, 0, 0, 1, 1, 1⟩, ⟨0, 0, 0, 2, 1, 1⟩, ⟨0, 0, 0, 3, 1, 1⟩,
    ⟨1, 0, 0, 0, 1, 1⟩, ⟨1, 0, 0, 1, 1, 1⟩]

/-- The second precinct of the coarse component comes where the third of the fine one does, but
is sorted before it. -/
theorem twoAndFour_sorted_otherwise :
    RecordsOf twoAndFour twoAndFourRecords ∧
      ¬ VisitedAsSorted twoAndFour .rpcl false true twoAndFour.bounds twoAndFourRecords ∧
      ¬ VisitedAsSorted twoAndFour .pcrl false true twoAndFour.bounds twoAndFourRecords := by
  have hrun (order : ProgOrder) (ho : order = .rpcl ∨ order = .pcrl) :
      Resumable.enumerate (twoAndFour.genericIter order false true twoAndFour.bounds).next
        State.packet 7
        ((twoAndFour.genericIter order false true twoAndFour.bounds).start [] 0) =
        some [⟨0, 0, 0, 0⟩, ⟨1, 0, 0, 0⟩, ⟨0, 0, 1, 0⟩, ⟨0, 0, 2, 0⟩, ⟨1, 0, 1, 0⟩,
          ⟨0, 0, 3, 0⟩] := by
    rcases ho with rfl | rfl <;> decide +kernel
  have hsort (order : ProgOrder) (ho : order = .rpcl ∨ order = .pcrl) :
      (sortPackets order twoAndFourRecords).map RecordedPacketInfo.packet =
        [⟨0, 0, 0, 0⟩, ⟨1, 0, 0, 0⟩, ⟨0, 0, 1, 0⟩, ⟨1, 0, 1, 0⟩, ⟨0, 0, 2, 0⟩, ⟨0, 0, 3, 0⟩] := by
    rcases ho with rfl | rfl <;> decide
  refine ⟨recordsOf_row (by decide) (by decide +kernel) (by decide +kernel), fun h => ?_,
    fun h => ?_⟩
  · have := h.unique (enumerate_sound (hrun _ (.inl rfl)))
    exact absurd this (by decide)
  · have := h.unique (enumerate_sound (hrun _ (.inr rfl)))
    exact absurd this (by decide)

/-- The packets of `alikeRow`, as a CPRL codestream has them. -/
def alikeRowRecords : List RecordedPacketInfo :=
  [⟨0, 0, 0, 0, 1, 1⟩, ⟨0, 0, 0, 1, 1, 1⟩, ⟨1, 0, 0, 0, 1, 1⟩, ⟨1, 0, 0, 1, 1, 1⟩]

theorem alikeRow_sorted_as_visited :
    VisitedAsSorted alikeRow .rpcl false true alikeRow.bounds alikeRowRecords := by
  refine (visitedAsSorted_iff alikeRow .rpcl (by decide) false true alikeRow.bounds (.inr rfl)
    alikeRowRecords (recordsOf_row (by decide) (by decide +kernel) (by decide +kernel))).mpr
    ⟨⟨by unfold Tile.NoWrap; decide +kernel, fun c _ r _ _ => ?_⟩, ?_⟩
  · have hx : alikeRow.updateDx = 1 := by decide +kernel
    have hy : alikeRow.updateDy = 1 := by decide +kernel
    rw [hx, hy]
    exact ⟨fun q _ _ _ => one_dvd q, fun q _ _ _ => one_dvd q⟩
  · rintro ⟨c, r, i, l⟩ ⟨c', r', i', l'⟩ hp hq _ hlt
    have hres (c : Nat) : (alikeRow.comps c).numresolutions = 1 := by
      by_cases h : c = 0 <;>
        simp [alikeRow, Tile.twoSamples, Tile.row, Component.flat, Component.part1, h]
    have hcount : ∀ c < 2, alikeRow.numPrecincts c 0 = 2 := by decide +kernel
    have hcorner : ∀ c < 2, ∀ i < 2, alikeRow.precY ⟨c, 0, i, 0⟩ = 0 ∧
        alikeRow.precX ⟨c, 0, i, 0⟩ = i := by decide +kernel
    obtain rfl : r = 0 := Nat.lt_one_iff.mp (hres c ▸ hp.resno)
    obtain rfl : r' = 0 := Nat.lt_one_iff.mp (hres c' ▸ hq.resno)
    obtain ⟨hy, hx⟩ := hcorner c hp.compno i (hcount c hp.compno ▸ hp.precinctIndex)
    obtain ⟨hy', hx'⟩ := hcorner c' hq.compno i' (hcount c' hq.compno ▸ hq.precinctIndex)
    change alikeRow.precY ⟨c, 0, i, 0⟩ :: alikeRow.precX ⟨c, 0, i, 0⟩ :: [c] <
      alikeRow.precY ⟨c', 0, i', 0⟩ :: alikeRow.precX ⟨c', 0, i', 0⟩ :: [c']
    rw [hy, hx, hy', hx', List.cons_lt_cons_iff]
    exact .inr ⟨rfl, hlt⟩

end GrokCodec.Transcode
