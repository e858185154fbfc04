import GrokCodec.Lib.Cells
import GrokCodec.T2.PacketMask
import GrokCodec.T2.PacketState

/-!
Simulated and written packets have the same sizes. What a packet takes depends on the packets of its
precinct before it, and on nothing else, in particular not on what an earlier simulation left in the
precinct. Of a tile with one progression and no tile-part generation both
passes walk the same packets.
-/

namespace GrokCodec.T2

open PacketIter Cells Ordered List Function Precinct Nat
open Option (bind_eq_some_iff map_eq_some_iff)

namespace BitWriter

/-- The same bytes without a bound. -/
def unlimited (w : BitWriter) : BitWriter := { w with bufLen := none }

variable {w w' : BitWriter}

theorem write8u_unlimited (h : w.write8u = some w') : w.unlimited.write8u = some w'.unlimited := by
  unfold write8u at h ⊢
  split at h
  · exact absurd h (Option.some_ne_none _).symm
  · cases h
    rfl

theorem makeRoom_unlimited (h : w.makeRoom = some w') :
    w.unlimited.makeRoom = some w'.unlimited := by
  unfold makeRoom at h ⊢
  by_cases hct : w.ct = 0
  · rw [if_pos hct] at h
    rw [if_pos (show w.unlimited.ct = 0 from hct), write8u_unlimited h]
  · rw [if_neg hct] at h
    cases h
    rw [if_neg (show ¬ w.unlimited.ct = 0 from hct)]

theorem putbit_unlimited {b : Bool} (h : w.putbit b = some w') :
    w.unlimited.putbit b = some w'.unlimited := by
  obtain ⟨v, hv, h⟩ := bind_eq_some_iff.mp h
  cases h
  exact bind_eq_some_iff.mpr ⟨_, makeRoom_unlimited hv, rfl⟩

theorem putbits_unlimited {bits : List Bool} (h : w.putbits bits = some w') :
    w.unlimited.putbits bits = some w'.unlimited := by
  unfold putbits at h ⊢
  induction bits generalizing w with
  | nil =>
    cases h
    rfl
  | cons b bits ih =>
    rw [foldlM_cons] at h ⊢
    obtain ⟨v, hv, h⟩ := bind_eq_some_iff.mp h
    exact bind_eq_some_iff.mpr ⟨_, putbit_unlimited hv, ih h⟩

theorem flush_unlimited (h : w.flush = some w') : w.unlimited.flush = some w'.unlimited := by
  unfold flush at h ⊢
  obtain ⟨v, hv, h⟩ := bind_eq_some_iff.mp h
  refine bind_eq_some_iff.mpr ⟨_, write8u_unlimited hv, ?_⟩
  by_cases hct : v.ct = 7
  · rw [if_pos hct] at h
    rw [if_pos (show v.unlimited.ct = 7 from hct), write8u_unlimited h]
  · rw [if_neg hct] at h
    cases h
    rw [if_neg (show ¬ w'.unlimited.ct = 7 from hct)]

end BitWriter

theorem compressHeader_unlimited {w w' : BitWriter} {layno : Nat} {table : LayerTable}
    {bands bands' : List Precinct} (h : compressHeader w layno table bands = some (w', bands')) :
    compressHeader w.unlimited layno table bands = some (w'.unlimited, bands') := by
  obtain ⟨begun, hbegun, h⟩ := bind_eq_some_iff.mp h
  obtain ⟨v, hv, h⟩ := bind_eq_some_iff.mp h
  obtain ⟨v', hv', h⟩ := bind_eq_some_iff.mp h
  cases h
  refine bind_eq_some_iff.mpr ⟨_, hbegun, ?_⟩
  refine bind_eq_some_iff.mpr ⟨_, BitWriter.putbits_unlimited hv, ?_⟩
  exact bind_eq_some_iff.mpr ⟨_, BitWriter.flush_unlimited hv', rfl⟩

section Step

variable (o : PacketOptions) (table : LayerTable)

/-- The bytes of a packet whose header has these bits. -/
def packetBytes (bits : List Bool) (body : Nat) : Option Nat :=
  ((({} : BitWriter).putbits (true :: bits)).bind BitWriter.flush).map fun w =>
    (if o.sop then 6 else 0) + w.bytes.length + (if o.eph then 2 else 0) + body

/-- A packet of precincts that were begun. -/
def packetRest (layno : Nat) (bands : List Precinct) : Option (Nat × List Precinct) :=
  (packetBytes o (bands.flatMap fun prc => (prc.packet layno table).1)
    (bands.map fun prc => (prc.packet layno table).2.1).sum).map fun bytes =>
      (bytes, bands.map fun prc => (prc.packet layno table).2.2)

/-- A packet: its bytes, and the bands of its precinct after it. -/
def packetStep (p : Packet) (bands : List Precinct) : Option (Nat × List Precinct) :=
  (beginBands p.layno bands).bind (packetRest o table p.layno)

/-- The precincts of a tile are cells, and each packet works on the cell of its precinct. -/
def packetMachine : Machine (Nat × Nat × Nat) (List Precinct) Packet Nat :=
  ⟨precinctKey, packetStep o table⟩

theorem bandsBits_writeBody (layno : Nat) (bands : List Precinct) :
    (bandsBits layno table bands).1 = bands.flatMap (fun prc => (prc.packet layno table).1) ∧
      writeBody layno table (bandsBits layno table bands).2 =
        ((bands.map fun prc => (prc.packet layno table).2.1).sum,
          bands.map fun prc => (prc.packet layno table).2.2) := by
  induction bands with
  | nil => exact ⟨rfl, rfl⟩
  | cons prc bands ih =>
    obtain ⟨hbits, hbody⟩ := ih
    by_cases h : prc.skipped = true
    · have hheader : prc.headerBits layno table = ([], prc) := if_pos h
      simp only [bandsBits, hheader, hbits, writeBody, hbody, if_pos h, flatMap_cons,
        map_cons, sum_cons, packet_of_skipped h]
      simp
    · have hheader : ¬ (prc.headerBits layno table).2.skipped = true := by
        rw [headerBits, if_neg h]
        simp only [skipped, blocksBits_blocks] at h ⊢
        simpa using h
      have hpacket : prc.packet layno table = ((prc.headerBits layno table).1,
          (writeBlocks layno table (prc.headerBits layno table).2.blocks).1,
          { (prc.headerBits layno table).2 with
            blocks := (writeBlocks layno table (prc.headerBits layno table).2.blocks).2 }) :=
        if_neg h
      simp [bandsBits, hbits, writeBody, hbody, if_neg hheader, hpacket, and_self]

variable {p : Packet}

/-- `compressPacket` is a step on the cell of the precinct. -/
theorem compressPacket_eq {coder : PacketCoder} (h : p ∉ coder.tracker) :
    compressPacket o table coder p =
      (coder.canvas (precinctKey p)).bind fun bands => (packetStep o table p bands).map fun r =>
        (r.1, ⟨update coder.canvas (precinctKey p) (some r.2), p :: coder.tracker⟩) := by
  rw [compressPacket, if_neg h]
  refine congrArg (Option.bind (coder.canvas (precinctKey p))) (funext fun bands => ?_)
  rw [packetStep, compressHeader]
  cases beginBands p.layno bands with
  | none => rfl
  | some begun =>
    obtain ⟨hbits, hbody⟩ := bandsBits_writeBody table p.layno begun
    simp only [Option.bind_some, packetRest, packetBytes, ← hbits, Option.bind_eq_bind]
    cases ({} : BitWriter).putbits (true :: (bandsBits p.layno table begun).1) with
    | none => rfl
    | some w =>
      simp only [Option.bind_some]
      cases w.flush with
      | none => rfl
      | some w => simp [hbody]

theorem packetRest_settled (layno : Nat) (bands : List Precinct) :
    (packetRest o table layno (bands.map settled)).map
        (fun r => (r.1, r.2.map settled)) =
      (packetRest o table layno bands).map fun r => (r.1, r.2.map settled) := by
  have hpacket := packet_settled layno table
  simp only [packetRest, flatMap_map, map_map, Option.map_map, comp_def,
    hpacket]

theorem beginBands_settled (bands : List Precinct) :
    (beginBands 0 (bands.map initial)).map (List.map settled) =
      (beginBands 0 bands).map (List.map settled) := by
  have hmapM : ∀ l : List Precinct, (l.mapM begin).map (List.map settled) =
      l.mapM fun prc => prc.begin.map settled := by
    intro l
    induction l with
    | nil => rfl
    | cons prc l ih =>
      rw [mapM_cons, mapM_cons, ← ih]
      cases prc.begin with
      | none => rfl
      | some prc' => cases l.mapM begin <;> rfl
  rw [beginBands, if_pos rfl, beginBands, if_pos rfl, hmapM, hmapM, mapM_map]
  simp only [comp_def, begin_settled]

variable {bands : List Precinct}

theorem beginBands_initial {layno : Nat} {begun : List Precinct}
    (h : beginBands layno bands = some begun) :
    begun.map initial = bands.map initial := by
  unfold beginBands at h
  split at h
  · induction bands generalizing begun with
    | nil =>
      cases h
      rfl
    | cons prc bands ih =>
      rw [mapM_cons] at h
      obtain ⟨prc', hprc, h⟩ := bind_eq_some_iff.mp h
      obtain ⟨bands', hbands, h⟩ := bind_eq_some_iff.mp h
      cases h
      rw [map_cons, map_cons, begin_initial hprc, ih hbands]
  · cases h
    rfl

theorem packetStep_initial {bands' : List Precinct} {bytes : Nat}
    (h : packetStep o table p bands = some (bytes, bands')) :
    bands'.map initial = bands.map initial := by
  obtain ⟨begun, hbegun, h⟩ := bind_eq_some_iff.mp h
  obtain ⟨_, _, h⟩ := map_eq_some_iff.mp h
  cases h
  rw [map_map, ← beginBands_initial hbegun]
  exact map_congr_left fun prc _ => packet_initial prc

/-- What two precincts must have in common before the packets that are still to come. -/
structure SameBefore (pending : List Packet) (bands bands' : List Precinct) : Prop where
  initial : bands.map initial = bands'.map initial
  settled : (∀ p ∈ pending.head?, p.layno ≠ 0) →
    bands.map settled = bands'.map settled

/-- The first layer starts over, and a later layer depends on the settled state only. -/
theorem packetStep_settled {pending : List Packet} {bands' : List Precinct}
    (h : SameBefore (p :: pending) bands bands') :
    (packetStep o table p bands).map (fun r => (r.1, r.2.map settled)) =
      (packetStep o table p bands').map fun r => (r.1, r.2.map settled) := by
  have hbegun : (beginBands p.layno bands).map (List.map settled) =
      (beginBands p.layno bands').map (List.map settled) := by
    by_cases hlayno : p.layno = 0
    · rw [hlayno, ← beginBands_settled, h.initial, beginBands_settled]
    · have hsettled := h.settled (by simpa using hlayno)
      rw [beginBands, if_neg hlayno, beginBands, if_neg hlayno, Option.map_some, Option.map_some,
        hsettled]
  have hrest : ∀ l, (packetStep o table p l).map (fun r => (r.1, r.2.map settled)) =
      ((beginBands p.layno l).map (List.map settled)).bind fun l =>
        (packetRest o table p.layno l).map fun r => (r.1, r.2.map settled) := by
    intro l
    rw [packetStep]
    cases beginBands p.layno l with
    | none => rfl
    | some begun => exact (packetRest_settled o table p.layno begun).symm
  rw [hrest, hrest, hbegun]

theorem packetMachine_alike : (packetMachine o table).Alike SameBefore where
  step := by
    intro p pending bands bands' bytes after h hstep
    have hsame := packetStep_settled o table h
    have hstep' : packetStep o table p bands = some (bytes, after) := hstep
    rw [hstep', Option.map_some] at hsame
    obtain ⟨⟨bytes', after'⟩, hafter, heq⟩ := map_eq_some_iff.mp hsame.symm
    obtain ⟨rfl, hsettled⟩ := Prod.mk.inj heq
    refine ⟨after', hafter, ?_, fun _ => hsettled.symm⟩
    rw [packetStep_initial o table hstep', packetStep_initial o table hafter, h.initial]

end Step

section Tracker

variable (o : PacketOptions) (table : LayerTable) (max_layers : Nat)

/-- The packets that are coded: those of the wanted layers, each the first time it comes. -/
def fresh : List Packet → List Packet → List Packet
  | _, [] => []
  | tracker, p :: rest =>
    if p.layno < max_layers ∧ p ∉ tracker then p :: fresh (p :: tracker) rest
    else fresh tracker rest

/-- `compressPackets` codes the packets that are new to the tracker, one cell after the other. -/
theorem compressPackets_eq (coder : PacketCoder) (packets : List Packet) :
    compressPackets o table max_layers coder packets =
      ((packetMachine o table).run coder.canvas (fresh max_layers coder.tracker packets)).map
        fun r => (r.1, ⟨r.2, (fresh max_layers coder.tracker packets).reverse ++ coder.tracker⟩) := by
  induction packets generalizing coder with
  | nil => rfl
  | cons p rest ih =>
    rw [compressPackets, fresh]
    by_cases hlayno : p.layno < max_layers
    · by_cases htracker : p ∈ coder.tracker
      · rw [if_pos hlayno, if_neg (by simp [htracker]), ← ih, compressPacket, if_pos htracker]
        simp
      · rw [if_pos hlayno, if_pos ⟨hlayno, htracker⟩, compressPacket_eq o table htracker,
          Machine.run]
        show _ = Option.map _ ((coder.canvas (precinctKey p)).bind fun bands =>
          (packetStep o table p bands).bind _)
        cases coder.canvas (precinctKey p) with
        | none => rfl
        | some bands =>
          simp only [Option.bind_some]
          cases packetStep o table p bands with
          | none => rfl
          | some r =>
            simp only [Option.map_some, Option.bind_eq_bind, Option.bind_some, ih, Option.map_map]
            show Option.bind (Option.map _ ((packetMachine o table).run
              (update coder.canvas (precinctKey p) (some r.2)) _)) _ = Option.map _
                ((packetMachine o table).run
                  (update coder.canvas (precinctKey p) (some r.2)) _)
            cases (packetMachine o table).run (update coder.canvas (precinctKey p)
                (some r.2)) (fresh max_layers (p :: coder.tracker) rest) with
            | none => rfl
            | some r' => simp
    · rw [if_neg hlayno, if_neg (fun h => hlayno h.1), ih]

end Tracker

section Simulated

variable {o : PacketOptions} {table : LayerTable} {max_layers : Nat}

/-- A precinct of an empty band has no blocks. -/
def Bare (bands : List Precinct) : Prop := ∀ prc ∈ bands, prc.bandEmpty = true → prc.blocks = []

/-- In every precinct of the tile. -/
def Canvas.Bare (canvas : Canvas) : Prop := ∀ k bands, canvas k = some bands → T2.Bare bands

variable {bands bands' : List Precinct}

theorem Bare.of_initial (h : Bare bands)
    (hsame : bands'.map initial = bands.map initial) : Bare bands' := by
  intro prc' hmem' hempty
  obtain ⟨prc, hmem, heq⟩ := mem_map.mp (hsame ▸ mem_map_of_mem hmem')
  have hbare := h prc hmem ((congrArg bandEmpty heq).trans hempty)
  have hblocks : prc.blocks.map Block.initial = prc'.blocks.map Block.initial :=
    congrArg blocks heq
  rw [hbare] at hblocks
  exact map_eq_nil_iff.mp hblocks.symm

variable {available bytes layno : Nat}

theorem simulateBlocks_eq {left : Nat} {blocks blocks' : List Block}
    (h : simulateBlocks layno table available blocks = some (left, bytes, blocks')) :
    writeBlocks layno table blocks = (bytes, blocks') := by
  induction blocks generalizing available left bytes blocks' with
  | nil =>
    cases h
    rfl
  | cons b blocks ih =>
    rw [simulateBlocks] at h
    by_cases htotal : table.totalPasses b.index layno = 0
    · rw [if_pos htotal] at h
      obtain ⟨⟨left', bytes', rest⟩, hrest, h⟩ := bind_eq_some_iff.mp h
      cases h
      simp only [writeBlocks, ih hrest, if_pos htotal]
    · rw [if_neg htotal] at h
      obtain ⟨available', _, h⟩ := bind_eq_some_iff.mp h
      obtain ⟨⟨left', bytes', rest⟩, hrest, h⟩ := bind_eq_some_iff.mp h
      cases h
      simp only [writeBlocks, ih hrest, if_neg htotal]

/-- The simulated body is the written one where empty bands have no blocks. -/
theorem simulateBody_eq
    (hbare : Bare bands) (h : simulateBody layno table available bands = some (bytes, bands')) :
    writeBody layno table bands = (bytes, bands') := by
  induction bands generalizing available bytes bands' with
  | nil =>
    cases h
    rfl
  | cons prc bands ih =>
    obtain ⟨⟨left, here, blocks⟩, hblocks, h⟩ := bind_eq_some_iff.mp h
    obtain ⟨⟨more, rest⟩, hrest, h⟩ := bind_eq_some_iff.mp h
    cases h
    have hwritten := simulateBlocks_eq hblocks
    have hmore := ih (fun prc hmem => hbare prc (mem_cons_of_mem _ hmem)) hrest
    rw [writeBody, hmore]
    by_cases hskip : prc.skipped = true
    · have hnil : prc.blocks = [] := by
        rcases Bool.or_eq_true_iff.mp hskip with hempty | hnone
        · exact hbare prc mem_cons_self hempty
        · exact isEmpty_iff.mp hnone
      rw [hnil] at hwritten
      cases hwritten
      simp only [if_pos hskip, Nat.zero_add]
      rw [← hnil]
    · simp only [if_neg hskip, hwritten]

theorem Bare.bandsBits (h : Bare bands) :
    Bare (bandsBits layno table bands).2 := by
  induction bands with
  | nil => exact h
  | cons prc bands ih =>
    intro q hmem hempty
    rcases mem_cons.mp hmem with hq | hmem
    · replace hq : q = (prc.headerBits layno table).2 := hq
      by_cases hskip : prc.skipped = true
      · rw [headerBits, if_pos hskip] at hq
        rw [hq] at hempty ⊢
        exact h prc mem_cons_self hempty
      · -- a band that is coded is not empty
        rw [headerBits, if_neg hskip] at hq
        subst hq
        exact absurd (Bool.or_eq_true_iff.mpr (.inl hempty)) hskip
    · exact ih (fun prc hmem => h prc (mem_cons_of_mem _ hmem)) q hmem hempty

theorem Bare.compressHeader {w w' : BitWriter}
    (hbare : Bare bands) (h : compressHeader w layno table bands = some (w', bands')) :
    Bare bands' := by
  obtain ⟨begun, hbegun, h⟩ := bind_eq_some_iff.mp h
  obtain ⟨v, _, h⟩ := bind_eq_some_iff.mp h
  obtain ⟨v', _, h⟩ := bind_eq_some_iff.mp h
  cases h
  exact (hbare.of_initial (beginBands_initial hbegun)).bandsBits

theorem compressPacketSimulate_eq {coder coder' : PacketCoder} {p : Packet}
    (hbare : coder.canvas.Bare)
    (h : compressPacketSimulate o table coder p available = some (bytes, coder')) :
    compressPacket o table coder p = some (bytes, coder') := by
  unfold compressPacketSimulate at h
  unfold compressPacket
  split at h
  · next hmem =>
    rw [if_pos hmem]
    exact h
  · next hmem =>
    rw [if_neg hmem]
    obtain ⟨bands, hbands, h⟩ := bind_eq_some_iff.mp h
    obtain ⟨_, _, h⟩ := bind_eq_some_iff.mp h
    obtain ⟨⟨w, begun⟩, hheader, h⟩ := bind_eq_some_iff.mp h
    obtain ⟨_, _, h⟩ := bind_eq_some_iff.mp h
    obtain ⟨_, _, h⟩ := bind_eq_some_iff.mp h
    obtain ⟨⟨body, after⟩, hbody, h⟩ := bind_eq_some_iff.mp h
    dsimp only at h
    by_cases hbig : (if o.sop then 6 else 0) + w.bytes.length + (if o.eph then 2 else 0) + body >
        uintMax
    · rw [if_pos hbig] at h
      cases h
    · rw [if_neg hbig] at h
      cases h
      have hwritten := simulateBody_eq ((hbare _ _ hbands).compressHeader hheader) hbody
      have hheader' : compressHeader {} p.layno table bands = some (w.unlimited, begun) :=
        compressHeader_unlimited hheader
      rw [hbands]
      simp only [Option.bind_eq_bind, Option.bind_some, hheader', hwritten]
      rfl

/-- The simulation has counted `total` bytes of a tile so far, modulo 2^32. -/
structure Counts (s : Simulation) (total : Nat) : Prop where
  bytes : s.allPacketBytes = u32 total
  bare : s.coder.canvas.Bare

theorem Canvas.Bare.compressPacket {coder coder' : PacketCoder} {p : Packet}
    (hbare : coder.canvas.Bare) (h : compressPacket o table coder p = some (bytes, coder')) :
    coder'.canvas.Bare := by
  by_cases hmem : p ∈ coder.tracker
  · rw [T2.compressPacket, if_pos hmem] at h
    cases h
    exact hbare
  · rw [compressPacket_eq o table hmem] at h
    obtain ⟨bands, hbands, h⟩ := bind_eq_some_iff.mp h
    obtain ⟨⟨n, after⟩, hstep, h⟩ := map_eq_some_iff.mp h
    cases h
    intro k bands' hk
    replace hk : update coder.canvas (precinctKey p) (some after) k = some bands' := hk
    by_cases hkey : k = precinctKey p
    · subst hkey
      rw [update_self] at hk
      cases hk
      exact (hbare _ _ hbands).of_initial (packetStep_initial o table hstep)
    · rw [update_of_ne hkey] at hk
      exact hbare k bands' hk

theorem Counts.packets {s s' : Simulation} {total : Nat} {packets : List Packet}
    (hs : Counts s total) (h : packets.foldlM (simulatePacket o table max_layers) s = some s') :
    ∃ bytes, compressPackets o table max_layers s.coder packets = some (bytes, s'.coder) ∧
      Counts s' (total + bytes) := by
  induction packets generalizing s total with
  | nil =>
    cases h
    exact ⟨0, rfl, hs⟩
  | cons p packets ih =>
    obtain ⟨next, hnext, h⟩ := bind_eq_some_iff.mp h
    rw [compressPackets]
    unfold simulatePacket at hnext
    by_cases hlayno : p.layno < max_layers
    · rw [if_pos hlayno] at hnext ⊢
      obtain ⟨⟨bytes, coder⟩, hpacket, hnext⟩ := bind_eq_some_iff.mp hnext
      obtain ⟨left, _, hnext⟩ := bind_eq_some_iff.mp hnext
      split at hnext
      · cases hnext
      · cases hnext
        have hwritten := compressPacketSimulate_eq hs.bare hpacket
        have hbytes : u32 (s.allPacketBytes + bytes) = u32 (total + bytes) := by
          rw [hs.bytes]
          exact mod_add_mod _ _ _
        obtain ⟨more, hmore, hlast⟩ := ih ⟨hbytes, hs.bare.compressPacket hwritten⟩ h
        refine ⟨bytes + more, ?_, by rwa [← Nat.add_assoc]⟩
        rw [hwritten]
        simp only [Option.bind_eq_bind, Option.bind_some, hmore]
        rfl
    · rw [if_neg hlayno] at hnext ⊢
      cases hnext
      exact ih hs h

theorem Counts.emptyRounds {s s' : Simulation} {total n : Nat} (hs : Counts s total)
    (h : (List.replicate n []).foldlM (simulateRound o table max_layers) s = some s') :
    s'.coder = s.coder ∧ Counts s' total := by
  induction n generalizing s with
  | zero =>
    cases h
    exact ⟨rfl, hs⟩
  | succ n ih => exact ih (s := { s with componentBytes := 0 }) ⟨hs.bytes, hs.bare⟩ h

end Simulated

/-- `preCalculatedTileLen_`: SOT, POC and PLT markers, SOD and the packets, in 32 bits. -/
def preCalculatedTileLen (pocSize pltSize allPacketBytes : Nat) : Nat :=
  u32 (u32 (u32 (u32 (12 + pocSize) + pltSize) + 2) + allPacketBytes)

/-- The bytes of a tile part in the stream. -/
def tilePartLen (pocSize pltSize packetBytes : Nat) : Nat := 12 + pocSize + pltSize + 2 + packetBytes

/-- The bytes of packets that are laid one after the other into a tile. -/
def packetsBytes (o : PacketOptions) (table : LayerTable) (canvas : Canvas)
    (packets : List Packet) : Nat :=
  (((packetMachine o table).run canvas packets).map Prod.fst).getD 0

/-- The packets of each precinct start with the first layer. -/
def StartsFirst (packets : List Packet) : Prop :=
  ∀ k, ∀ p ∈ (packets.filter (precinctKey · = k)).head?, p.layno = 0

theorem preCalculatedTileLen_eq (pocSize pltSize allPacketBytes : Nat) :
    preCalculatedTileLen pocSize pltSize allPacketBytes =
      u32 (tilePartLen pocSize pltSize allPacketBytes) := by
  unfold preCalculatedTileLen tilePartLen u32
  omega

/-- The packets of the rounds of a simulation with one progression and no tile-part generation. The
iterator is not reset, so the rounds after the first find it at its end. -/
def simulatedRounds (packets : List Packet) (max_comp : Nat) : List (List Packet) :=
  packets :: List.replicate (max_comp - 1) []

section Written

variable {o : PacketOptions} {table : LayerTable} {max_layers max_comp maxBytes : Nat}
  {canvas : Canvas} {packets : List Packet} {s : Simulation}

/-- After a simulation the tile is written with as many bytes as the simulation has counted. -/
theorem written_after_simulation
    (hsim : compressPacketsSimulate o (simulatedRounds packets max_comp) canvas table max_layers
      maxBytes = some s)
    (hbare : canvas.Bare) (hfirst : StartsFirst (fresh max_layers [] packets)) :
    ∃ coder, compressPackets o table max_layers ⟨s.coder.canvas, []⟩ packets =
        some (packetsBytes o table canvas (fresh max_layers [] packets), coder) ∧
      s.allPacketBytes = u32 (packetsBytes o table canvas (fresh max_layers [] packets)) := by
  have hstart : Counts { coder := ⟨canvas, []⟩, maxBytes } 0 := ⟨rfl, hbare⟩
  obtain ⟨first, hround, hrest⟩ := bind_eq_some_iff.mp hsim
  obtain ⟨_, hwritten, hcounted⟩ := Counts.packets ⟨hstart.bytes, hstart.bare⟩ hround
  obtain ⟨hsame, hcounts⟩ := hcounted.emptyRounds hrest
  rw [compressPackets_eq, ← hsame] at hwritten
  obtain ⟨⟨total, left⟩, hrun, heq⟩ := map_eq_some_iff.mp hwritten
  obtain ⟨rfl, hcoder⟩ := Prod.mk.inj heq
  have hbytes : packetsBytes o table canvas (fresh max_layers [] packets) = total := by
    rw [packetsBytes, hrun]
    rfl
  -- what the simulation left in the precincts does not matter
  have hleft : s.coder.canvas = left := by rw [← hcoder]
  have halike : (packetMachine o table).AlikeBefore SameBefore (fresh max_layers [] packets)
      canvas left := by
    intro k bands hne hbands
    obtain ⟨bands', hbands', hinitial⟩ := Machine.run_keeps
      (R := fun a b : List Precinct => b.map initial = a.map initial)
      (fun _ => rfl) (fun hkept hstep => (packetStep_initial o table hstep).trans hkept) hrun k
      bands hbands
    refine ⟨bands', hbands', hinitial.symm, fun hlater => ?_⟩
    cases hof : (packetMachine o table).of k (fresh max_layers [] packets) with
    | nil => exact absurd hof hne
    | cons p rest =>
      have hhead : p ∈ ((packetMachine o table).of k (fresh max_layers [] packets)).head? := by
        rw [hof]
        rfl
      exact absurd (hfirst k p hhead) (hlater p hhead)
  obtain ⟨after, hafter⟩ := Machine.run_alike (packetMachine_alike o table) halike hrun
  refine ⟨⟨after, (fresh max_layers [] packets).reverse ++ []⟩, ?_, ?_⟩
  · rw [compressPackets_eq, hleft, hafter, hbytes]
    rfl
  · rw [hbytes, hcounts.bytes, Nat.zero_add]

/-- Packets that come once are coded once. -/
theorem fresh_eq_filter {tracker : List Packet} (hnodup : packets.Nodup)
    (hnew : ∀ p ∈ packets, p ∉ tracker) :
    fresh max_layers tracker packets = packets.filter fun p => p.layno < max_layers := by
  induction packets generalizing tracker with
  | nil => rfl
  | cons p packets ih =>
    obtain ⟨hp, hrest⟩ := nodup_cons.mp hnodup
    have hlater : ∀ q ∈ packets, q ∉ tracker := fun q hq => hnew q (mem_cons_of_mem _ hq)
    by_cases hlayno : p.layno < max_layers
    · rw [fresh, if_pos ⟨hlayno, hnew p mem_cons_self⟩, filter_cons_of_pos (by simpa using hlayno),
        ih hrest]
      intro q hq hmem
      rcases mem_cons.mp hmem with rfl | hmem
      · exact hp hq
      · exact hlater q hq hmem
    · rw [fresh, if_neg (fun h => hlayno h.1), filter_cons_of_neg (by simpa using hlayno),
        ih hrest hlater]

variable {T : Tile} {order : ProgOrder}

theorem iterKey_layer_lt {p : Packet} {l : Nat} (horder : order ≠ .prcl) (hl : l < p.layno) :
    T.iterKey order { p with layno := l } < T.iterKey order p := by
  cases order with
  | lrcp => exact .rel hl
  | rlcp => exact .cons (.rel hl)
  | rpcl => exact .cons (.cons (.cons (.cons (.rel hl))))
  | pcrl => exact .cons (.cons (.cons (.cons (.rel hl))))
  | cprl => exact .cons (.cons (.cons (.cons (.rel hl))))
  | prcl => exact absurd rfl horder

theorem HandedOut.startsFirst (hout : HandedOut T order packets) (horder : order ≠ .prcl)
    (max_layers : Nat) : StartsFirst (fresh max_layers [] packets) := by
  intro k p hp
  rw [fresh_eq_filter hout.ordered.nodup (by simp)] at hp
  by_contra hlayno
  have hsorted : KeySorted (T.iterKey order) ((packets.filter fun p => p.layno < max_layers).filter
      (precinctKey · = k)) := (hout.ordered.filter _).filter _
  have hmem := mem_of_mem_head? hp
  have hfirst : { p with layno := 0 } ∈ (packets.filter fun p => p.layno < max_layers).filter
      (precinctKey · = k) := by
    simp only [mem_filter, decide_eq_true_eq] at hmem ⊢
    have hlayers := (hout.coded p hmem.1.1).1.layno
    exact ⟨⟨hout.layers p hmem.1.1 0 (by omega), by omega⟩, hmem.2⟩
  -- the packet of the first layer would come before the one that comes first
  obtain ⟨rest, hlist⟩ := head?_eq_some_iff.mp hp
  rw [hlist] at hsorted hfirst
  have hlt := iterKey_layer_lt (T := T) horder (Nat.pos_of_ne_zero hlayno)
  rcases mem_cons.mp hfirst with heq | hlater
  · exact hlayno (congrArg Packet.layno heq).symm
  · exact lt_asymm hlt ((pairwise_cons.mp hsorted).1 _ hlater)

/-- One layer, 46 passes and 8188 bytes of each block. -/
def denseTable : LayerTable := ⟨fun _ _ => 46, fun _ _ => 8188⟩

/-- A precinct of one block of 16 bit planes. Blocks whose layers are the same share an index. -/
def densePrecinct : Precinct :=
  { bandEmpty := false, maxBitPlanes := 17
    inclTree := TagTree.build 16 1 1
    imsbTree := TagTree.build 8 1 1
    blocks := [{ index := 0, passes := List.replicate 46 ⟨178, false⟩, numbps := 16 }] }

/-- A tile of one resolution with `n` such precincts. -/
def denseCanvas (n : Nat) : Canvas := fun k =>
  if k.1 = 0 ∧ k.2.1 = 0 ∧ k.2.2 < n then some [densePrecinct] else none

def densePacket (i : Nat) : Packet := ⟨0, 0, i, 0⟩

def densePackets (n : Nat) : List Packet := (List.range n).map densePacket

theorem dense_header :
    ∃ w bands after, compressHeader { bufLen := some uintMax } 0 denseTable [densePrecinct] =
        some (w, bands) ∧ w.bytes.length = 5 ∧
      simulateBody 0 denseTable uintMax bands = some (8188, after) := by
  have hlen : (compressHeader { bufLen := some uintMax } 0 denseTable [densePrecinct]).map
      (fun r => r.1.bytes.length) = some 5 := by decide +kernel
  have hbody : (compressHeader { bufLen := some uintMax } 0 denseTable [densePrecinct]).bind
      (fun r => (simulateBody 0 denseTable uintMax r.2).map Prod.fst) = some 8188 := by
    decide +kernel
  obtain ⟨⟨w, bands⟩, hheader, hw⟩ := map_eq_some_iff.mp hlen
  rw [hheader, Option.bind_some] at hbody
  obtain ⟨⟨bytes, after⟩, hafter, rfl⟩ := map_eq_some_iff.mp hbody
  exact ⟨w, bands, after, hheader, hw, hafter⟩

theorem dense_packet {coder : PacketCoder} {i : Nat}
    (hbands : coder.canvas (0, 0, i) = some [densePrecinct])
    (htracker : densePacket i ∉ coder.tracker) :
    ∃ after, compressPacketSimulate {} denseTable coder (densePacket i) uintMax =
      some (8193, ⟨update coder.canvas (0, 0, i) (some after),
        densePacket i :: coder.tracker⟩) := by
  obtain ⟨w, bands, after, hheader, hlen, hbody⟩ := dense_header
  have hspend : ∀ n ≤ 5, spend uintMax n = some uintMax := by decide
  refine ⟨after, ?_⟩
  rw [compressPacketSimulate, if_neg htracker,
    show coder.canvas (precinctKey (densePacket i)) = some [densePrecinct] from hbands]
  simp only [Bool.false_eq_true, if_false, hspend 0 (by omega), Option.bind_eq_bind,
    Option.bind_some, densePacket, hheader, hlen, hspend 5 (by omega), hbody]
  rfl

theorem dense_simulated (n start : Nat) {s : Simulation} (hmax : s.maxBytes = uintMax)
    (hbare : s.coder.canvas.Bare)
    (hbands : ∀ i, start ≤ i → i < start + n → s.coder.canvas (0, 0, i) = some [densePrecinct])
    (htracker : ∀ i, start ≤ i → densePacket i ∉ s.coder.tracker) :
    ∃ s', ((List.range' start n).map densePacket).foldlM (simulatePacket {} denseTable 1) s =
        some s' ∧
      compressPackets {} denseTable 1 s.coder ((List.range' start n).map densePacket) =
        some (n * 8193, s'.coder) := by
  induction n generalizing start s with
  | zero => exact ⟨s, rfl, by rw [Nat.zero_mul]; rfl⟩
  | succ n ih =>
    obtain ⟨after, hafter⟩ := dense_packet (hbands start (by omega) (by omega))
      (htracker start (by omega))
    have hwritten := compressPacketSimulate_eq hbare hafter
    have hlayno : (densePacket start).layno < 1 := Nat.zero_lt_one
    have hstep : simulatePacket {} denseTable 1 s (densePacket start) = some
        { coder := ⟨update s.coder.canvas (0, 0, start) (some after),
            densePacket start :: s.coder.tracker⟩
          maxBytes := uintMax
          componentBytes := s.componentBytes + 8193
          allPacketBytes := u32 (s.allPacketBytes + 8193) } := by
      rw [simulatePacket, if_pos hlayno, hmax, hafter]
      rfl
    rw [List.range'_succ, map_cons, foldlM_cons, hstep, compressPackets, if_pos hlayno,
      hwritten]
    obtain ⟨s', hs', hrest⟩ := ih (start + 1) (s := ⟨⟨update s.coder.canvas (0, 0, start)
      (some after), densePacket start :: s.coder.tracker⟩, uintMax, s.componentBytes + 8193,
      u32 (s.allPacketBytes + 8193)⟩) rfl (hbare.compressPacket hwritten)
      (by
        intro i hle hlt
        dsimp only
        rw [update_of_ne (by simp; omega)]
        exact hbands i (by omega) (by omega))
      (by
        intro i hle hmem
        rcases mem_cons.mp hmem with heq | hmem
        · have : i = start := congrArg Packet.precinctIndex heq
          omega
        · exact htracker i (by omega) hmem)
    refine ⟨s', hs', ?_⟩
    simp only [Option.bind_eq_bind, Option.bind_some, hrest, succ_mul, Nat.add_comm 8193]
    rfl

theorem denseCanvas_bare (n : Nat) : (denseCanvas n).Bare := by
  intro k bands hk prc hmem hempty
  unfold denseCanvas at hk
  split at hk
  · cases hk
    rw [mem_singleton.mp hmem] at hempty
    cases hempty
  · cases hk

theorem six_exp : 6 ≤ 15 := by decide

/-- A row of `n` precincts of 64 by 64 samples. -/
def denseTile (n : Nat) (h : 1 ≤ n ∧ n ≤ 2 ^ 20) : Tile where
  bounds := ⟨0, 0, 64 * n, 64⟩
  numcomps := 1
  comps := fun _ => .part1 1 1 6 6 unit_range one_res six_exp six_exp
  numLayers := 1
  x_le := Nat.zero_le _
  y_le := Nat.zero_le _
  x1_le := by simp only [uintMax]; omega
  y1_le := by simp only [uintMax]; omega
  numcomps_range := one_comp
  numLayers_range := one_layer

theorem dense_handsOut {n : Nat} {h : 1 ≤ n ∧ n ≤ 2 ^ 20}
    (hcount : (denseTile n h).numPrecincts 0 0 = n) (hwrap : ¬ (denseTile n h).Wraps 0 0) :
    ((denseTile n h).genericIter .lrcp true true (denseTile n h).bounds).HandsOut
      (densePackets n) := by
  have hit := (denseTile n h).genericIter_isGeneric .lrcp true true (denseTile n h).bounds
  have hres := (denseTile n h).genericIter_res_e .lrcp true true (denseTile n h).bounds
  have hsorted : KeySorted lrcpKey (densePackets n) :=
    pairwise_map.mpr (pairwise_lt_range.imp fun hlt => .cons (.cons (.cons (.rel hlt))))
  rw [← (Iter.lrcp_sorted _).eq_of_mem_iff hsorted fun p => ?_]
  · exact hit.lrcp_enumerates hres [] 0
  · rw [hit.mem_lrcpPackets hres, densePackets, mem_map]
    constructor
    · rintro ⟨⟨hc, hr, hi, hl⟩, -⟩
      obtain ⟨c, r, i, l⟩ := p
      obtain rfl := Nat.lt_one_iff.mp hc
      obtain rfl := Nat.lt_one_iff.mp hr
      obtain rfl := Nat.lt_one_iff.mp hl
      exact ⟨i, mem_range.mpr (hcount ▸ hi), rfl⟩
    · rintro ⟨i, hi, rfl⟩
      exact ⟨⟨Nat.zero_lt_one, Nat.zero_lt_one, hcount.symm ▸ mem_range.mp hi, Nat.zero_lt_one⟩,
        hwrap⟩

theorem dense_round (n : Nat) :
    ∃ s, compressPacketsSimulate {} (simulatedRounds (densePackets n) 1) (denseCanvas n) denseTable 1
        uintMax = some s ∧
      packetsBytes {} denseTable (denseCanvas n) (fresh 1 [] (densePackets n)) = n * 8193 := by
  obtain ⟨s, hs, hbytes⟩ := dense_simulated n 0
    (s := { coder := ⟨denseCanvas n, []⟩, maxBytes := uintMax }) rfl (denseCanvas_bare n)
    (fun i _ hlt => if_pos ⟨rfl, rfl, by simpa using hlt⟩) (fun i _ => not_mem_nil)
  rw [← range_eq_range'] at hs hbytes
  refine ⟨s, ?_, ?_⟩
  · rw [compressPacketsSimulate, simulatedRounds, foldlM_cons, simulateRound, densePackets, hs]
    rfl
  · rw [compressPackets_eq] at hbytes
    obtain ⟨⟨total, canvas⟩, hrun, heq⟩ := map_eq_some_iff.mp hbytes
    have htotal := congrArg Prod.fst heq
    rw [packetsBytes, densePackets, hrun]
    exact htotal

end Written

end GrokCodec.T2
