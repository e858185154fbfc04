import GrokCodec.Transcode.Copy

/-!
SOP and EPH markers put into packets: what a packet should look like afterwards, and for which
packets the copy loop brings that about.
-/

namespace GrokCodec.Transcode

open ByteStream Codestream List SourcePacket

/-- The bytes of a packet with the markers that are asked for: one SOP before it, one EPH directly
after its header, wherever that is. -/
def PacketKept (o : Options) (q : SourcePacket) (bytes : List Nat) : Prop :=
  (∃ n, bytes = (if o.writeSop then sopMarker n else q.sop) ++ q.header ++
    (if o.writeEph && !q.packed then ephMarker else q.eph) ++ q.body) ∧
    (o.writeEph = true → q.packed = true → q.packedEph = true)

/-- The pieces the data consists of, those without bytes left out. -/
def TilePartData.Holds : TilePartData → List (List Nat) → Prop
  | .packets ws, pieces => ws.map WrittenPacket.bytes = pieces.filter fun b => !b.isEmpty
  | .blob bytes, pieces => bytes = pieces.flatten

theorem TilePartData.Holds.bytes_eq {d : TilePartData} {pieces : List (List Nat)}
    (h : d.Holds pieces) : d.bytes = pieces.flatten := by
  cases d with
  | packets ws => rw [TilePartData.bytes, flatMap_def, h, flatten_filter_not_isEmpty]
  | blob bytes => exact h

/-- The markers asked for can be put into this packet: it does not have them yet, it has bytes to
go with them, and the end of its header has been found. -/
structure PacketClear (o : Options) (q : SourcePacket) : Prop where
  sop : o.writeSop = true → q.sop = [] ∧ q.bytes ≠ []
  eph : o.writeEph = true →
    if q.packed then q.bytes = [] ∧ q.packedEph = true else q.eph = [] ∧ q.listed = false
  plt : o.writePlt = true → q.bytes ≠ []

/-- The bytes a packet is given. -/
def Options.addedBytes (o : Options) : Nat :=
  (if o.writeSop then 6 else 0) + (if o.writeEph then 2 else 0)

section Packet

variable {o : Options} {q : SourcePacket}

theorem length_sopMarker (n : Nat) : (sopMarker n).length = 6 := rfl

theorem length_ephMarker : ephMarker.length = 2 := rfl

/-- An EPH in front of a header is not an EPH behind it. -/
theorem ephMarker_append_ne {header rest : List Nat} (hne : header ≠ [])
    (heph : ¬ [0xff, 0x92] <+: header) :
    ephMarker ++ (header ++ rest) ≠ header ++ (ephMarker ++ rest) := by
  intro h
  match header, hne with
  | [a], _ =>
    simp only [nil_append, cons_append, List.cons.injEq, ephMarker] at h
    omega
  | a :: b :: header, _ =>
    simp only [ephMarker, cons_append, List.cons.injEq] at h
    obtain ⟨rfl, rfl, -⟩ := h
    exact heph ⟨header, rfl⟩

theorem parts_of_bytes_nil (hb : q.bytes = []) :
    q.sop = [] ∧ q.header = [] ∧ q.eph = [] ∧ q.body = [] := by
  simpa [bytes, and_assoc] using hb

theorem packed_of_bytes_nil (hq : q.WellFormed) (hb : q.bytes = []) : q.packed = true := by
  by_contra h
  exact (hq.header (by simpa using h)).1 (parts_of_bytes_nil hb).2.1

theorem packetKept_nil_iff (hq : q.WellFormed) (hb : q.bytes = []) :
    PacketKept o q [] ↔
      o.writeSop = false ∧ (o.writeEph = true → q.packed = true ∧ q.packedEph = true) := by
  cases hs : o.writeSop <;>
    simp [PacketKept, parts_of_bytes_nil hb, packed_of_bytes_nil hq hb, hs, sopMarker]

theorem SourcePacket.length_bytes (q : SourcePacket) :
    q.bytes.length = q.sop.length + q.header.length + q.eph.length + q.body.length := by
  simp only [bytes, length_append]

variable {w : WrittenPacket}

theorem CopiedAs.length_bytes (h : CopiedAs o q w) :
    w.bytes.length = q.bytes.length + o.addedBytes := by
  obtain ⟨n, rfl⟩ := h
  have hcut := congrArg List.length (take_append_drop q.record.headerLength q.bytes)
  rw [length_append] at hcut
  simp only [WrittenPacket.bytes, length_append, apply_ite List.length, length_sopMarker,
    length_ephMarker, length_nil, Options.addedBytes]
  omega

variable {qs : List SourcePacket} {ws : List WrittenPacket}

theorem map_length_bytes (h : List.Forall₂ (CopiedAs o) qs ws) :
    ws.map (fun w => w.bytes.length) = qs.map fun q => q.bytes.length + o.addedBytes := by
  induction h with
  | nil => rfl
  | cons hw _ ih => rw [map_cons, map_cons, hw.length_bytes, ih]

/-- What `PacketClear` asks for, for a packet with bytes. -/
def Unmarked (o : Options) (q : SourcePacket) : Prop :=
  (o.writeSop = true → q.sop = []) ∧
    (o.writeEph = true → q.packed = false ∧ q.eph = [] ∧ q.listed = false)

theorem packetKept_iff (hq : q.WellFormed) (hw : CopiedAs o q w) :
    PacketKept o q w.bytes ↔ Unmarked o q := by
  obtain ⟨n, rfl⟩ := hw
  constructor
  · rintro ⟨⟨m, h⟩, -⟩
    -- a marker too many shows in the length
    have hlen := congrArg List.length h
    rw [CopiedAs.length_bytes ⟨n, rfl⟩, q.length_bytes, Options.addedBytes] at hlen
    simp only [length_append, apply_ite List.length, length_sopMarker,
      length_ephMarker] at hlen
    have hsop' : o.writeSop = true → q.sop = [] := by
      intro hs
      refine length_eq_zero_iff.mp ?_
      rw [if_pos hs, if_pos hs] at hlen
      cases he : o.writeEph <;> cases hp : q.packed <;>
        simp only [he, hp, Bool.and_true, Bool.and_false, Bool.not_true, Bool.not_false,
          Bool.false_eq_true, if_true, if_false] at hlen <;> omega
    have heph' : o.writeEph = true → q.packed = false ∧ q.eph = [] := by
      intro he
      rw [he] at hlen
      rw [← length_eq_zero_iff]
      cases hs : o.writeSop <;> cases hp : q.packed <;>
        simp only [hs, hp, Bool.and_true, Bool.and_false, Bool.not_true, Bool.not_false,
          Bool.false_eq_true, if_true, if_false, reduceCtorEq, true_and, false_and] at hlen ⊢ <;>
        omega
    refine ⟨hsop', fun he => ?_⟩
    obtain ⟨hp, hnil⟩ := heph' he
    refine ⟨hp, hnil, ?_⟩
    by_contra hl
    have hl : q.listed = true := by simpa using hl
    have hhead := hq.header hp
    have hzero : q.record.headerLength = 0 := if_pos hl
    cases hs : o.writeSop with
    | true =>
      simp only [WrittenPacket.bytes, hzero, hs, he, hp, hsop' hs, hnil, bytes,
        if_true, take_zero, drop_zero, append_assoc, append_nil,
        nil_append, Bool.not_false, Bool.and_self] at h
      exact ephMarker_append_ne hhead.1 hhead.2 (append_inj h rfl).2
    | false =>
      simp only [WrittenPacket.bytes, hzero, hs, he, hp, hnil, bytes, if_true,
        take_zero, drop_zero, append_assoc, nil_append, Bool.not_false,
        Bool.and_self, Bool.false_eq_true, if_false] at h
      rcases hq.sop with hsop | ⟨k, hsop⟩
      · rw [hsop] at h
        exact ephMarker_append_ne hhead.1 hhead.2 h
      · rw [hsop] at h
        simp [ephMarker] at h
  · rintro ⟨hs, he⟩
    refine ⟨⟨n, ?_⟩, fun h hp => by simp [(he h).1] at hp⟩
    have hfront (l : List Nat) : (if o.writeSop then sopMarker n else []) ++ (q.sop ++ l) =
        (if o.writeSop then sopMarker n else q.sop) ++ l := by
      split
      case isTrue h => rw [hs h, nil_append]
      case isFalse => rfl
    cases hw : o.writeEph with
    | true =>
      obtain ⟨hp, hnil, hl⟩ := he hw
      have hhead : q.record.headerLength = (q.sop ++ q.header).length := by
        simp [record, SourcePacket.readHeader, hl, hp, hnil]
      have hbytes : q.bytes = (q.sop ++ q.header) ++ q.body := by
        simp [bytes, hnil]
      simp only [WrittenPacket.bytes, hhead, hbytes, take_left, drop_left, hp, if_true,
        Bool.not_false, Bool.and_self]
      rw [← hfront]
    | false =>
      simp only [WrittenPacket.bytes, Bool.false_eq_true, if_false, append_nil,
        Bool.false_and, append_assoc, take_append_drop]
      rw [← hfront]
      simp [bytes]

theorem Options.of_addedBytes_eq_zero (h : o.addedBytes = 0) :
    o.writeSop = false ∧ o.writeEph = false := by
  cases hs : o.writeSop <;> cases he : o.writeEph <;> simp [Options.addedBytes, hs, he] at h ⊢

theorem packetKept_of_no_markers (hs : o.writeSop = false) (he : o.writeEph = false) :
    PacketKept o q q.bytes :=
  ⟨⟨0, by simp [hs, he, bytes]⟩, fun h => by simp [he] at h⟩

theorem PacketKept.ne_nil {bytes : List Nat} (h : PacketKept o q bytes) (hb : q.bytes ≠ []) :
    bytes ≠ [] := by
  obtain ⟨⟨n, rfl⟩, -⟩ := h
  intro hnil
  have hall : (if o.writeSop then sopMarker n else q.sop) = [] ∧ q.header = [] ∧
      (if o.writeEph && !q.packed then ephMarker else q.eph) = [] ∧ q.body = [] := by
    simpa only [append_eq_nil_iff, and_assoc] using hnil
  have hsop : q.sop = [] := by
    cases hs : o.writeSop with
    | true => simp [hs, sopMarker] at hall
    | false => simpa [hs] using hall.1
  have heph : q.eph = [] := by
    cases he : o.writeEph && !q.packed with
    | true => simp [he, ephMarker] at hall
    | false => simpa [he] using hall.2.2.1
  exact hb (by simp [bytes, hsop, hall, heph])

/-- With as many pieces as there are packets with bytes, the pieces are theirs. -/
theorem packetKept_align {pieces : List (List Nat)} (h : List.Forall₂ (PacketKept o) qs pieces)
    (hlen : (pieces.filter fun b => !b.isEmpty).length ≤
      (qs.filter fun q => !q.bytes.isEmpty).length) :
    List.Forall₂ (PacketKept o) (qs.filter fun q => !q.bytes.isEmpty)
        (pieces.filter fun b => !b.isEmpty) ∧
      ∀ q ∈ qs, q.bytes = [] → PacketKept o q [] := by
  have hle {qs : List SourcePacket} {pieces : List (List Nat)}
      (h : List.Forall₂ (PacketKept o) qs pieces) :
      (qs.filter fun q => !q.bytes.isEmpty).length ≤ (pieces.filter fun b => !b.isEmpty).length := by
    induction h with
    | nil => simp
    | @cons q b _ _ hk _ ih =>
      by_cases hq : q.bytes = []
      · by_cases hb : b = [] <;> simp [hq, hb] <;> omega
      · simp [hq, hk.ne_nil hq]
        omega
  induction h with
  | nil => exact ⟨.nil, by simp⟩
  | @cons q b qs pieces hk hrest ih =>
    by_cases hq : q.bytes = []
    · have hb : b = [] := by
        by_contra hb
        have := hle hrest
        simp [hq, hb] at hlen
        omega
      subst hb
      obtain ⟨h1, h2⟩ := ih (by simpa [hq] using hlen)
      refine ⟨by simpa [hq] using h1, fun q' hq' => ?_⟩
      rcases mem_cons.mp hq' with rfl | hq'
      · exact fun _ => hk
      · exact h2 q' hq'
    · have hb := hk.ne_nil hq
      obtain ⟨h1, h2⟩ := ih (by simpa [hq, hb] using hlen)
      refine ⟨by simpa [hq, hb] using ⟨hk, h1⟩, fun q' hq' hnil => ?_⟩
      rcases mem_cons.mp hq' with rfl | hq'
      · exact absurd hnil hq
      · exact h2 q' hq' hnil

theorem exists_pieces {bs : List (List Nat)}
    (h : List.Forall₂ (PacketKept o) (qs.filter fun q => !q.bytes.isEmpty) bs)
    (hnil : ∀ q ∈ qs, q.bytes = [] → PacketKept o q []) :
    ∃ pieces, List.Forall₂ (PacketKept o) qs pieces ∧ bs = pieces.filter fun b => !b.isEmpty := by
  induction qs generalizing bs with
  | nil =>
    cases h
    exact ⟨[], .nil, rfl⟩
  | cons q qs ih =>
    have hrest := fun q hq => hnil q (mem_cons_of_mem _ hq)
    by_cases hq : q.bytes = []
    · obtain ⟨pieces, h1, h2⟩ := ih (by simpa [hq] using h) hrest
      exact ⟨[] :: pieces, .cons (hnil q mem_cons_self hq) h1, by simp [h2]⟩
    · rw [filter_cons_of_pos (by simpa using hq)] at h
      cases h with
      | @cons _ b _ bs hk h =>
        obtain ⟨pieces, h1, h2⟩ := ih h hrest
        exact ⟨b :: pieces, .cons hk h1, by simp [hk.ne_nil hq, h2]⟩

theorem forall₂_packetKept_iff (hqs : ∀ q ∈ qs, q.WellFormed)
    (h : List.Forall₂ (CopiedAs o) qs ws) :
    List.Forall₂ (PacketKept o) qs (ws.map WrittenPacket.bytes) ↔ ∀ q ∈ qs, Unmarked o q := by
  induction h with
  | nil => simp
  | @cons q w qs ws hw _ ih =>
    rw [map_cons, forall₂_cons, ih fun q hq => hqs q (mem_cons_of_mem _ hq),
      packetKept_iff (hqs q mem_cons_self) hw, forall_mem_cons]

theorem packetClear_of_bytes_nil (hq : q.WellFormed) (hb : q.bytes = []) :
    PacketClear o q ↔ PacketKept o q [] ∧ o.writePlt = false := by
  have hpacked := packed_of_bytes_nil hq hb
  rw [packetKept_nil_iff hq hb]
  constructor
  · intro h
    refine ⟨⟨?_, fun he => ⟨hpacked, ?_⟩⟩, ?_⟩
    · by_contra hs
      exact (h.sop (by simpa using hs)).2 hb
    · have := h.eph he
      rw [if_pos hpacked] at this
      exact this.2
    · by_contra hp
      exact h.plt (by simpa using hp) hb
  · rintro ⟨⟨hs, he⟩, hp⟩
    exact ⟨fun h => by simp [hs] at h, fun h => by simp [hpacked, hb, (he h).2],
      fun h => by simp [hp] at h⟩

theorem packetClear_of_bytes_ne_nil (hb : q.bytes ≠ []) : PacketClear o q ↔ Unmarked o q := by
  constructor
  · intro h
    refine ⟨fun hs => (h.sop hs).1, fun he => ?_⟩
    have := h.eph he
    cases hp : q.packed with
    | true => simp [hp, hb] at this
    | false => simpa [hp] using this
  · rintro ⟨hs, he⟩
    exact ⟨fun h => ⟨hs h, hb⟩, fun h => by simp [he h], fun _ => hb⟩

end Packet

end GrokCodec.Transcode
