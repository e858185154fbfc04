import GrokCodec.PacketIter.Completeness

/-!
The layered progressions. `next_lrcp` and `next_rlcp` count through the precincts of a
resolution instead of looking for their corners, so they hand out every packet of a grid that
does not wrap. With them it is known what the iterator hands out in every progression.
-/

namespace GrokCodec.PacketIter

open Resumable Ordered List

/-- The loop variables of a layered progression. -/
structure LayerCursor where
  compno : Nat
  resno : Nat
  layno : Nat

namespace Iter

variable (it : Iter)

/-- Between two components of a layered progression: the precinct counter is at its start, and
the include tracker holds exactly the packets handed out so far. -/
structure AtLayer (κ : LayerCursor) (h : List Packet) (s : State) : Prop where
  compno : s.compno = κ.compno
  resno : s.resno = κ.resno
  layno : s.layno = κ.layno
  precinctIndex : s.precinctIndex = it.prog.prec_s
  incrementInner : s.incrementInner = false
  included : it.singleProgression = false → s.included = (h.map it.includeKey).reverse

/-- The packets of one component, resolution and layer from precinct `k` on. -/
def precinctPackets (c r l n k : Nat) : List Packet :=
  (List.range' k (n - k)).map fun i => ⟨c, r, i, l⟩

/-- The packets `visitComp` hands out. -/
def layerCell (c r l : Nat) : List Packet :=
  if (it.comp c).numresolutions ≤ r then []
  else precinctPackets c r l (it.gridWidth c r * it.gridHeight c r) it.prog.prec_s

def layRange : List Nat := List.range' it.prog.lay_s (it.prog.lay_e - it.prog.lay_s)

def lrcpPackets : List Packet :=
  it.layRange.flatMap fun l => it.resRange.flatMap fun r => it.compRange.flatMap fun c =>
    it.layerCell c r l

def rlcpPackets : List Packet :=
  it.resRange.flatMap fun r => it.layRange.flatMap fun l => it.compRange.flatMap fun c =>
    it.layerCell c r l

variable {it}

/-- The precinct that the next visit of the current component turns to. -/
def pendingPrecinct (s : State) : Nat :=
  if s.incrementInner then s.precinctIndex + 1 else s.precinctIndex

/-- A state from which a layered progression is entered again. -/
def InLayer (κ : LayerCursor) (m : State) : Prop :=
  m.compno = κ.compno ∧ m.resno = κ.resno ∧ m.layno = κ.layno

theorem visitPrecinct_spec (κ : LayerCursor) (n : Nat) :
    it.Hands (it.visitPrecinct n) (it.AtLayer κ) (InLayer κ)
      (precinctPackets κ.compno κ.resno κ.layno n it.prog.prec_s) (it.AtLayer κ) := by
  refine (Spec.countUp (A := fun k h s => InLayer κ s ∧ pendingPrecinct s = k ∧
    (it.singleProgression = false → s.included = (h.map it.includeKey).reverse))
    (fun _ _ => Fresh.of_append) ?_ ?_ it.prog.prec_s).conseq (fun h s hs => ?_) (fun _ h => h)
    (fun _ _ h => h)
  · rintro k h s hle ⟨hκ, hk, hinc⟩
    have hstep : it.visitPrecinct n s = .done
        { s with precinctIndex := it.prog.prec_s, incrementInner := false } := by
      unfold pendingPrecinct at hk
      unfold visitPrecinct
      split at hk <;> simp_all
    exact ⟨_, hstep, hκ.1, hκ.2.1, hκ.2.2, rfl, rfl, hinc⟩
  · rintro k h s hlt hok ⟨hκ, hk, hinc⟩
    -- the state in which precinct `k` is handed out, before the tracker is asked
    obtain ⟨m, hm⟩ : ∃ m : State, m = { s with precinctIndex := k, incrementInner := true } :=
      ⟨_, rfl⟩
    have hmκ : InLayer κ m := by rw [hm]; exact hκ
    have hmp : m.packet = ⟨κ.compno, κ.resno, k, κ.layno⟩ := by
      obtain ⟨h1, h2, h3⟩ := hκ
      rw [hm, ← h1, ← h2, ← h3]
      rfl
    obtain ⟨keys, hupd, hkeys⟩ := updateInclude_fresh (s := m) (by rw [hm]; exact hinc) hmp hok
    refine ⟨{ m with included := keys }, ?_, hmp, hmκ, hmκ, by rw [hm]; rfl, hkeys⟩
    unfold pendingPrecinct at hk
    unfold visitPrecinct
    split at hk <;> simp_all
  · exact ⟨⟨hs.compno, hs.resno, hs.layno⟩,
      by simp [pendingPrecinct, hs.incrementInner, hs.precinctIndex], hs.included⟩

theorem visitComp_spec (κ : LayerCursor) :
    it.Hands it.visitComp (it.AtLayer κ) (InLayer κ)
      (it.layerCell κ.compno κ.resno κ.layno) (it.AtLayer κ) := by
  unfold layerCell
  split
  case isTrue hle =>
    refine Spec.skip fun h s hs => ⟨s, ?_, hs⟩
    simp [visitComp, hs.compno, hs.resno, hle]
  case isFalse hle =>
    have heq (s : State) (hs : InLayer κ s) : it.visitComp s =
        it.visitPrecinct (it.gridWidth κ.compno κ.resno * it.gridHeight κ.compno κ.resno) s := by
      simp [visitComp, hs.1, hs.2.1, hle]
    exact (visitPrecinct_spec κ _).congr (fun h s hs => heq s ⟨hs.compno, hs.resno, hs.layno⟩) heq

theorem layerComps_spec (r l : Nat) :
    it.Hands (fun s => (it.compLoop it.visitComp s).after it.resetComp)
      (it.AtLayer ⟨it.prog.comp_s, r, l⟩) (fun m => m.resno = r ∧ m.layno = l)
      (it.compRange.flatMap fun c => it.layerCell c r l) (it.AtLayer ⟨it.prog.comp_s, r, l⟩) :=
  Spec.sweep (Spec.counterLoop (A := fun c => it.AtLayer ⟨c, r, l⟩) (fun _ _ => Fresh.of_append)
    (fun _ _ _ hs => hs.compno) (fun _ _ _ hs => { hs with compno := congrArg (· + 1) hs.compno })
    fun c _ => visitComp_spec ⟨c, r, l⟩) fun _ _ _ hs => { hs with compno := rfl }

theorem nextLrcp_spec :
    it.Hands it.nextLrcp (it.AtLayer ⟨it.prog.comp_s, it.prog.res_s, it.prog.lay_s⟩)
      (fun _ => True) it.lrcpPackets (fun _ _ => True) := by
  refine Spec.forget (Spec.counterLoop (A := fun l => it.AtLayer ⟨it.prog.comp_s, it.prog.res_s, l⟩)
    (fun _ _ => Fresh.of_append) (fun _ _ _ hs => hs.layno)
    (fun _ _ _ hs => { hs with layno := congrArg (· + 1) hs.layno }) fun l _ => ?_)
  refine Spec.sweep (Spec.counterLoop (A := fun r => it.AtLayer ⟨it.prog.comp_s, r, l⟩)
    (fun _ _ => Fresh.of_append) (fun _ _ _ hs => hs.resno)
    (fun _ _ _ hs => { hs with resno := congrArg (· + 1) hs.resno }) fun r _ => ?_)
    fun _ _ _ hs => { hs with resno := rfl }
  exact (layerComps_spec r l).weaken (fun _ h => ⟨h.1, h.2, trivial⟩)

theorem nextRlcp_spec :
    it.Hands it.nextRlcp (it.AtLayer ⟨it.prog.comp_s, it.prog.res_s, it.prog.lay_s⟩)
      (fun _ => True) it.rlcpPackets (fun _ _ => True) := by
  refine Spec.forget (Spec.counterLoop (A := fun r => it.AtLayer ⟨it.prog.comp_s, r, it.prog.lay_s⟩)
    (fun _ _ => Fresh.of_append) (fun _ _ _ hs => hs.resno)
    (fun _ _ _ hs => { hs with resno := congrArg (· + 1) hs.resno }) fun r _ => ?_)
  refine Spec.sweep (Spec.counterLoop (A := fun l => it.AtLayer ⟨it.prog.comp_s, r, l⟩)
    (fun _ _ => Fresh.of_append) (fun _ _ _ hs => hs.layno)
    (fun _ _ _ hs => { hs with layno := congrArg (· + 1) hs.layno }) fun l _ => ?_)
    fun _ _ _ hs => { hs with layno := rfl }
  exact (layerComps_spec r l).weaken (fun _ h => ⟨h.2, h.1, trivial⟩)

theorem layerCell_under {key : Packet → List Nat} {pre : List Nat} {c r l : Nat}
    (hkey : ∀ i, key ⟨c, r, i, l⟩ = pre ++ [i]) : SortedUnder key pre (it.layerCell c r l) := by
  unfold layerCell precinctPackets
  split
  · exact .nil
  · exact .map pairwise_lt_range' hkey

end Iter

/-- The order LRCP names. -/
def lrcpKey (p : Packet) : List Nat := [p.layno, p.resno, p.compno, p.precinctIndex]

def rlcpKey (p : Packet) : List Nat := [p.resno, p.layno, p.compno, p.precinctIndex]

namespace Iter

variable {it : Iter} {order : ProgOrder}

theorem lrcp_sorted (it : Iter) : KeySorted lrcpKey it.lrcpPackets :=
  SortedUnder.sorted (.flatMap pairwise_lt_range' fun _ _ => .flatMap pairwise_lt_range' fun _ _ =>
    .flatMap pairwise_lt_range' fun _ _ => layerCell_under fun _ => rfl)

theorem rlcp_sorted (it : Iter) : KeySorted rlcpKey it.rlcpPackets :=
  SortedUnder.sorted (.flatMap pairwise_lt_range' fun _ _ => .flatMap pairwise_lt_range' fun _ _ =>
    .flatMap pairwise_lt_range' fun _ _ => layerCell_under fun _ => rfl)

variable {p : Packet}

theorem IsGeneric.mem_layerCell (hit : it.IsGeneric order) {c r l : Nat} :
    p ∈ it.layerCell c r l ↔ (p.compno = c ∧ p.resno = r ∧ p.layno = l) ∧
      r < (it.comp c).numresolutions ∧ ¬ it.tile.Wraps c r ∧
        p.precinctIndex < it.tile.numPrecincts c r := by
  have hs : it.prog.prec_s = 0 := by rw [hit.prog]; rfl
  have hgrid (i : Nat) : i < it.gridWidth c r * it.gridHeight c r ↔ _ := it.tile.lt_grid_iff
  unfold layerCell precinctPackets
  split
  case isTrue hle => simp [Nat.not_lt.mpr hle]
  case isFalse hle =>
    simp only [hs, Nat.sub_zero, mem_map, mem_range'_1, Nat.zero_add, hgrid]
    constructor
    · rintro ⟨i, ⟨-, hw, hi⟩, rfl⟩
      exact ⟨⟨rfl, rfl, rfl⟩, Nat.lt_of_not_le hle, hw, hi⟩
    · rintro ⟨⟨rfl, rfl, rfl⟩, -, hw, hi⟩
      exact ⟨p.precinctIndex, ⟨Nat.zero_le _, hw, hi⟩, rfl⟩

theorem IsGeneric.mem_layRange (hit : it.IsGeneric order) {l : Nat} :
    l ∈ it.layRange ↔ l < it.tile.numLayers := by
  rw [layRange, hit.prog, mem_range'_1]
  simp [Tile.fullProgression]

section AllResolutions

variable (hit : it.IsGeneric order) (hres : it.tile.maxRes ≤ it.prog.res_e)

include hit hres

theorem IsGeneric.mem_layered :
    (∃ l ∈ it.layRange, ∃ r ∈ it.resRange, ∃ c ∈ it.compRange, p ∈ it.layerCell c r l) ↔
      it.tile.Coded p := by
  simp only [hit.mem_layRange, hit.mem_resRange, hit.mem_compRange, hit.mem_layerCell]
  constructor
  · rintro ⟨l, hl, r, -, c, hc, ⟨rfl, rfl, rfl⟩, hr, hw, hi⟩
    exact ⟨⟨hc, hr, hi, hl⟩, hw⟩
  · rintro ⟨hp, hw⟩
    exact ⟨_, hp.layno, _, lt_of_lt_of_le hp.resno_lt hres, _, hp.compno, ⟨rfl, rfl, rfl⟩,
      hp.resno, hw, hp.precinctIndex⟩

theorem IsGeneric.mem_lrcpPackets :
    p ∈ it.lrcpPackets ↔ it.tile.Coded p := by
  rw [← hit.mem_layered hres]
  simp [lrcpPackets]

theorem IsGeneric.mem_rlcpPackets :
    p ∈ it.rlcpPackets ↔ it.tile.Coded p := by
  rw [← hit.mem_layered hres]
  simp only [rlcpPackets, mem_flatMap]
  constructor
  · rintro ⟨r, hr, l, hl, c, hc, hp⟩
    exact ⟨l, hl, r, hr, c, hc, hp⟩
  · rintro ⟨l, hl, r, hr, c, hc, hp⟩
    exact ⟨r, hr, l, hl, c, hc, hp⟩

end AllResolutions

theorem start_atLayer
    (hprog : it.prog = { it.tile.fullProgression order with res_e := it.prog.res_e })
    (lengths : List Nat) (bytes : Nat) :
    it.AtLayer ⟨it.prog.comp_s, it.prog.res_s, it.prog.lay_s⟩ [] (it.start lengths bytes) := by
  refine ⟨?_, ?_, ?_, ?_, rfl, fun _ => rfl⟩ <;> rw [hprog] <;> rfl

theorem IsGeneric.layered_enumerates (hit : it.IsGeneric order) {f : State → Outcome State}
    {ps : List Packet} (lengths : List Nat) (bytes : Nat) (hf : ∀ s, it.next s = f s)
    (hspec : it.Hands f (it.AtLayer ⟨it.prog.comp_s, it.prog.res_s, it.prog.lay_s⟩)
      (fun _ => True) ps (fun _ _ => True))
    (hps : ∀ p ∈ ps, it.tile.Coded p) (hnd : ps.Nodup) :
    Enumerates it.next State.packet (it.start lengths bytes) ps := by
  obtain ⟨t, he, -⟩ := hspec [] _ (fresh_of_nodup hnd hps) (start_atLayer hit.prog lengths bytes)
  exact (he.congr (hf _) fun m _ => hf m).enumerates

theorem IsGeneric.lrcp_enumerates (hit : it.IsGeneric .lrcp)
    (hres : it.tile.maxRes ≤ it.prog.res_e) (lengths : List Nat) (bytes : Nat) :
    Enumerates it.next State.packet (it.start lengths bytes) it.lrcpPackets :=
  hit.layered_enumerates lengths bytes (fun s => by simp [next, hit.opt, hit.order_eq])
    nextLrcp_spec (fun _ hp => (hit.mem_lrcpPackets hres).mp hp) it.lrcp_sorted.nodup

theorem IsGeneric.rlcp_enumerates (hit : it.IsGeneric .rlcp)
    (hres : it.tile.maxRes ≤ it.prog.res_e) (lengths : List Nat) (bytes : Nat) :
    Enumerates it.next State.packet (it.start lengths bytes) it.rlcpPackets :=
  hit.layered_enumerates lengths bytes (fun s => by simp [next, hit.opt, hit.order_eq])
    nextRlcp_spec (fun _ hp => (hit.mem_rlcpPackets hres).mp hp) it.rlcp_sorted.nodup

end Iter

/-- The packets that an iterator hands out, in this order. -/
def Iter.HandsOut (it : Iter) (ps : List Packet) : Prop :=
  Enumerates it.next State.packet (it.start [] 0) ps

namespace Tile

variable (T : Tile)

/-- The order in which the iterator hands out what it comes across. -/
def iterKey (order : ProgOrder) (p : Packet) : List Nat :=
  match order with
  | .lrcp => lrcpKey p
  | .rlcp => rlcpKey p
  | .rpcl => T.rpclKey p
  | .pcrl => T.pcrlKey p
  | .cprl => T.cprlKey p
  | .prcl => T.prclKey p

/-- The packets that the iterator comes across. -/
def Met (order : ProgOrder) (p : Packet) : Prop :=
  match order with
  | .lrcp | .rlcp => T.Coded p
  | .rpcl | .pcrl | .prcl => T.Found T.updateDx T.updateDy p
  | .cprl => T.Found (T.cprlStepX p.compno) (T.cprlStepY p.compno) p

theorem exists_walk (order : ProgOrder) (compression singleProgression : Bool) {w : Rect}
    (hw : T.NoWindow w) :
    ∃ ps, (T.genericIter order compression singleProgression w).HandsOut ps ∧
      KeySorted (T.iterKey order) ps ∧ ∀ p, p ∈ ps ↔ T.Met order p := by
  have hit := T.genericIter_isGeneric order compression singleProgression w
  have hres := T.genericIter_res_e order compression singleProgression w
  cases order with
  | lrcp =>
    exact ⟨_, hit.lrcp_enumerates hres [] 0, Iter.lrcp_sorted _, fun _ => hit.mem_lrcpPackets hres⟩
  | rlcp =>
    exact ⟨_, hit.rlcp_enumerates hres [] 0, Iter.rlcp_sorted _, fun _ => hit.mem_rlcpPackets hres⟩
  | rpcl =>
    exact ⟨_, hit.rpcl_enumerates [] 0, hit.rpcl_sorted, fun _ => hit.mem_rpclPackets hres⟩
  | pcrl =>
    exact ⟨_, hit.pcrl_enumerates hres hw [] 0, hit.pcrl_sorted, fun _ => hit.mem_pcrlPackets hres⟩
  | prcl =>
    exact ⟨_, hit.prcl_enumerates hres [] 0, hit.prcl_sorted, fun _ => hit.mem_prclPackets hres⟩
  | cprl =>
    exact ⟨_, hit.cprl_enumerates hres [] 0, hit.cprl_sorted, fun _ => hit.mem_cprlPackets hres⟩

end Tile

/-- **Changing the progression loses no packet, even where the loops miss some:** LRCP and RLCP hand
out the same packets of a tile, so do RPCL, PCRL and PRCL, and these are among the others. -/
theorem generic_orders_perm (T : Tile) (compression singleProgression : Bool) :
    let it order := T.genericIter order compression singleProgression T.bounds
    ∃ lrcp rlcp rpcl pcrl prcl, (it .lrcp).HandsOut lrcp ∧ (it .rlcp).HandsOut rlcp ∧
      (it .rpcl).HandsOut rpcl ∧ (it .pcrl).HandsOut pcrl ∧ (it .prcl).HandsOut prcl ∧
      rlcp ~ lrcp ∧ pcrl ~ rpcl ∧ prcl ~ rpcl ∧ rpcl <+~ lrcp := by
  have hwalk order := T.exists_walk order compression singleProgression (.inr rfl)
  have hperm {ps qs : List Packet} {P : Packet → Prop} (hps : ps.Nodup) (hqs : qs.Nodup)
      (hp : ∀ p, p ∈ ps ↔ P p) (hq : ∀ p, p ∈ qs ↔ P p) : ps ~ qs :=
    (perm_ext_iff_of_nodup hps hqs).mpr fun p => (hp p).trans (hq p).symm
  obtain ⟨lrcp, hlrcp, hsorted₁, hmem₁⟩ := hwalk .lrcp
  obtain ⟨rlcp, hrlcp, hsorted₂, hmem₂⟩ := hwalk .rlcp
  obtain ⟨rpcl, hrpcl, hsorted₃, hmem₃⟩ := hwalk .rpcl
  obtain ⟨pcrl, hpcrl, hsorted₄, hmem₄⟩ := hwalk .pcrl
  obtain ⟨prcl, hprcl, hsorted₅, hmem₅⟩ := hwalk .prcl
  refine ⟨_, _, _, _, _, hlrcp, hrlcp, hrpcl, hpcrl, hprcl, ?_, ?_, ?_, ?_⟩
  · exact hperm hsorted₂.nodup hsorted₁.nodup hmem₂ hmem₁
  · exact hperm hsorted₄.nodup hsorted₃.nodup hmem₄ hmem₃
  · exact hperm hsorted₅.nodup hsorted₃.nodup hmem₅ hmem₃
  · exact subperm_of_subset hsorted₃.nodup fun p hp => (hmem₁ p).mpr ((hmem₃ p).mp hp).coded

end GrokCodec.PacketIter
