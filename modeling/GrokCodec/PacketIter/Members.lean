import GrokCodec.PacketIter.Grid
import GrokCodec.PacketIter.Walk
import GrokCodec.Lib.MixedRadix

/-!
Which packets the generic loops hand out, and in which order. A packet is found at exactly
one position, the corner of its precinct; whether it is handed out depends on whether the
loops reach that position.
-/

namespace GrokCodec.PacketIter

open Resumable Ordered List Nat MixedRadix

namespace Tile

variable (T : Tile)

def axisX (c r : Nat) : Axis := (T.comps c).axisX T r

def axisY (c r : Nat) : Axis := (T.comps c).axisY T r

/-- Number of precincts of a resolution. -/
def numPrecincts (c r : Nat) : Nat := (T.axisX c r).count * (T.axisY c r).count

/-- The packets of the tile. -/
structure HasPacket (p : Packet) : Prop where
  compno : p.compno < T.numcomps
  resno : p.resno < (T.comps p.compno).numresolutions
  precinctIndex : p.precinctIndex < T.numPrecincts p.compno p.resno
  layno : p.layno < T.numLayers

/-- The top left corner of a packet's precinct on the reference grid. -/
def precX (p : Packet) : Nat :=
  (T.axisX p.compno p.resno).corner (p.precinctIndex % (T.axisX p.compno p.resno).count)

def precY (p : Packet) : Nat :=
  (T.axisY p.compno p.resno).corner (p.precinctIndex / (T.axisX p.compno p.resno).count)

/-- The precinct grid of the resolution is computed as empty although it is not. -/
def Wraps (c r : Nat) : Prop :=
  0 < T.numPrecincts c r ∧ ((T.axisX c r).Wraps ∨ (T.axisY c r).Wraps)

instance (c r : Nat) : Decidable (T.Wraps c r) := inferInstanceAs (Decidable (_ ∧ _))

theorem gridWidth_eq {c r : Nat} (h : ¬ T.Wraps c r) (hn : 0 < T.numPrecincts c r) :
    (T.comps c).precinctGridWidth T.bounds r = (T.axisX c r).count :=
  (Component.gridWidth_eq _ T r).trans (if_neg fun hw => h ⟨hn, .inl hw⟩)

theorem gridHeight_eq {c r : Nat} (h : ¬ T.Wraps c r) (hn : 0 < T.numPrecincts c r) :
    (T.comps c).precinctGridHeight T.bounds r = (T.axisY c r).count :=
  (Component.gridHeight_eq _ T r).trans (if_neg fun hw => h ⟨hn, .inr hw⟩)

theorem grid_zero_iff (c r : Nat) :
    ((T.comps c).precinctGridWidth T.bounds r = 0 ∨ (T.comps c).precinctGridHeight T.bounds r = 0) ↔
      T.numPrecincts c r = 0 ∨ T.Wraps c r := by
  rw [Component.gridWidth_eq, Component.gridHeight_eq]
  change ((if (T.axisX c r).Wraps then 0 else (T.axisX c r).count) = 0 ∨
    (if (T.axisY c r).Wraps then 0 else (T.axisY c r).count) = 0) ↔ _
  unfold Wraps numPrecincts
  by_cases hx : (T.axisX c r).count = 0
  · simp [hx]
  · by_cases hy : (T.axisY c r).count = 0
    · simp [hy]
    · have hpos : 0 < (T.axisX c r).count * (T.axisY c r).count := by positivity
      by_cases hwx : (T.axisX c r).Wraps <;> by_cases hwy : (T.axisY c r).Wraps <;>
        simp [hx, hy, hwx, hwy, hpos]

theorem lt_grid_iff {c r i : Nat} :
    i < (T.comps c).precinctGridWidth T.bounds r * (T.comps c).precinctGridHeight T.bounds r ↔
      ¬ T.Wraps c r ∧ i < T.numPrecincts c r := by
  by_cases hz : T.numPrecincts c r = 0 ∨ T.Wraps c r
  · rw [Nat.mul_eq_zero.mpr ((T.grid_zero_iff c r).mpr hz)]
    rcases hz with hz | hz <;> simp [hz]
  · rw [not_or] at hz
    have hpos := Nat.pos_of_ne_zero hz.1
    rw [T.gridWidth_eq hz.2 hpos, T.gridHeight_eq hz.2 hpos]
    simp [hz.2, numPrecincts]

end Tile

namespace Iter

variable {it : Iter}

theorem genPrecinct0Grid_eq_some_iff {a : Axis} {offset q k : Nat} (hres : a.res0 < a.res1)
    (hoff : offset ≠ 0 ↔ ¬ 2 ^ a.precExp ∣ a.res0) (h0 : a.t0 ≤ q) (h1 : q < a.t1) :
    genPrecinct0Grid q a.t0 a.stride offset a.dPRJ a.precExp a.grid0 = some k ↔
      k < a.count ∧ a.corner k = q := by
  rw [← Axis.find_iff offset hres hoff h0 h1, genPrecinct0Grid, dvd_iff_mod_eq_zero]
  have hq : q < 2 ^ 32 := lt_trans h1 a.t1_lt
  have hdiv : (q ⌈/⌉ a.dPRJ) / 2 ^ a.precExp < 2 ^ 32 :=
    lt_of_le_of_lt (div_le_self _ _) (lt_of_le_of_lt (ceilDiv_le_self a.dPRJ_pos) hq)
  have hge : a.grid0 ≤ (q ⌈/⌉ a.dPRJ) / 2 ^ a.precExp := by
    refine Nat.div_le_div_right (Axis.res0_le_iff.mpr (h0.trans ?_))
    exact (ceilDiv_le_iff_le_mul a.dPRJ_pos).mp le_rfl
  rw [ceildiv_eq a.dPRJ_pos hq, floordivpow2_eq, sub32_of_le hge hdiv]
  split
  case isTrue h => simp only [h, true_and, Option.some.injEq]
  case isFalse h => simp [h]

/-- The generic path finds precinct `(px, py)` at its corner and nowhere else. -/
theorem validatePrecinct_iff (hopt : it.opt = false) {c r x y px py : Nat}
    (hx : it.tile.bounds.x0 ≤ x ∧ x < it.tile.bounds.x1)
    (hy : it.tile.bounds.y0 ≤ y ∧ y < it.tile.bounds.y1) :
    it.validatePrecinct c r x y = some (px, py) ↔
      r < (it.comp c).numresolutions ∧ ¬ it.tile.Wraps c r ∧
        (px < (it.tile.axisX c r).count ∧ (it.tile.axisX c r).corner px = x) ∧
        (py < (it.tile.axisY c r).count ∧ (it.tile.axisY c r).corner py = y) := by
  unfold validatePrecinct
  by_cases hr : r < (it.comp c).numresolutions
  swap
  · simp [hr, Nat.le_of_not_lt hr]
  rw [if_neg (by omega)]
  have hzero : it.gridWidth c r = 0 ∨ it.gridHeight c r = 0 ↔ _ := it.tile.grid_zero_iff c r
  by_cases hz : it.tile.numPrecincts c r = 0 ∨ it.tile.Wraps c r
  · rw [if_pos (hzero.mpr hz)]
    simp only [reduceCtorEq, false_iff, not_and]
    intro _ hw hpx hpy
    have h0 := hz.resolve_right hw
    rcases Nat.mul_eq_zero.mp h0 with h | h <;> omega
  · rw [if_neg (fun h => hz (hzero.mp h))]
    rw [not_or] at hz
    have hpos := Nat.pos_of_ne_zero hz.1
    have hrx := Axis.lt_of_count_pos (Nat.pos_of_mul_pos_right hpos)
    have hry := Axis.lt_of_count_pos (Nat.pos_of_mul_pos_left hpos)
    have hinfo : InfoFor (it.tile.axisX c r) (it.tile.axisY c r) (it.info c r) := by
      rw [info, hopt]
      exact ResPrecinctInfo.init_infoFor rfl rfl (it.comp c).dx_range.1 (it.comp c).dy_range.1 _
        hrx hry
    have hvalid : (it.info c r).valid = true := by
      rw [info, hopt]
      refine (ResPrecinctInfo.init_valid (a := it.tile.axisX c r) (b := it.tile.axisY c r) rfl rfl
        _).trans ?_
      simp [hrx, hry]
    have hX : genPrecinct0Grid x it.tile.bounds.x0 _ _ _ _ _ = _ ↔ _ :=
      genPrecinct0Grid_eq_some_iff (k := px) hrx hinfo.resOffsetX0PRJ hx.1 hx.2
    have hY : genPrecinct0Grid y it.tile.bounds.y0 _ _ _ _ _ = _ ↔ _ :=
      genPrecinct0Grid_eq_some_iff (k := py) hry hinfo.resOffsetY0PRJ hy.1 hy.2
    rw [← hX, ← hY]
    simp only [hvalid, if_true, genPrecinctX0Grid, genPrecinctY0Grid, hinfo.precWidthExp,
      hinfo.precHeightExp, hinfo.precWidthPRJ, hinfo.precHeightPRJ, hinfo.dxPRJ, hinfo.dyPRJ,
      hinfo.resInPrecGridX0, hinfo.resInPrecGridY0, hr, hz.2, not_false_eq_true, true_and]
    split
    · simp [*]
    · simp only [*, Option.map_eq_some_iff, Prod.mk.injEq, Option.some.injEq]
      grind

theorem mem_layerPackets {c r index l : Nat} {p : Packet} :
    p ∈ it.layerPackets c r index l ↔
      p.compno = c ∧ p.resno = r ∧ p.precinctIndex = index ∧ l ≤ p.layno ∧
        p.layno < it.prog.lay_e := by
  simp only [layerPackets, mem_map, mem_range'_1]
  constructor
  · rintro ⟨k, hk, rfl⟩
    exact ⟨rfl, rfl, rfl, hk.1, (by omega : k < it.prog.lay_e)⟩
  · rintro ⟨rfl, rfl, rfl, h1, h2⟩
    exact ⟨p.layno, by omega, rfl⟩

/-- A position hands out exactly the packets whose precinct has its corner there. -/
theorem mem_cell (hopt : it.opt = false) {c r x y : Nat} {p : Packet}
    (hx : it.tile.bounds.x0 ≤ x ∧ x < it.tile.bounds.x1)
    (hy : it.tile.bounds.y0 ≤ y ∧ y < it.tile.bounds.y1) :
    p ∈ it.cell c r x y ↔
      (p.compno = c ∧ p.resno = r) ∧ (it.prog.lay_s ≤ p.layno ∧ p.layno < it.prog.lay_e) ∧
        r < (it.comp c).numresolutions ∧ ¬ it.tile.Wraps c r ∧
        p.precinctIndex < it.tile.numPrecincts c r ∧ it.tile.precX p = x ∧ it.tile.precY p = y := by
  unfold cell
  cases hv : it.validatePrecinct c r x y with
  | none =>
    simp only [not_mem_nil, false_iff]
    rintro ⟨⟨rfl, rfl⟩, -, hr, hw, hk, hpx, hpy⟩
    obtain ⟨h1, h2, -⟩ := index_iff.mpr ⟨hk, rfl, rfl⟩
    have := (validatePrecinct_iff hopt hx hy).mpr ⟨hr, hw, ⟨h1, hpx⟩, ⟨h2, hpy⟩⟩
    rw [hv] at this
    cases this
  | some q =>
    obtain ⟨hr, hw, ⟨h1, hpx⟩, ⟨h2, hpy⟩⟩ := (validatePrecinct_iff hopt hx hy).mp hv
    have hn : 0 < it.tile.numPrecincts c r := Nat.mul_pos (by omega) (by omega)
    have hwidth : it.gridWidth c r = (it.tile.axisX c r).count := it.tile.gridWidth_eq hw hn
    simp only [mem_layerPackets, hwidth]
    constructor
    · rintro ⟨rfl, rfl, hk, hl⟩
      obtain ⟨hk, hkx, hky⟩ := index_iff.mp ⟨h1, h2, hk⟩
      refine ⟨⟨rfl, rfl⟩, hl, hr, hw, hk, ?_, ?_⟩
      · rw [Tile.precX, ← hkx, hpx]
      · rw [Tile.precY, ← hky, hpy]
    · rintro ⟨⟨rfl, rfl⟩, hl, -, -, hk, hx', hy'⟩
      obtain ⟨-, -, hk'⟩ := index_iff.mpr ⟨hk, rfl, rfl⟩
      have hkx := Axis.corner_strictMono.injective (hpx.trans hx'.symm)
      have hky := Axis.corner_strictMono.injective (hpy.trans hy'.symm)
      exact ⟨rfl, rfl, by rw [hkx, hky]; exact hk', hl⟩

theorem cell_sorted (c r x y : Nat) :
    (it.cell c r x y).Pairwise fun p q => p.layno < q.layno := by
  unfold cell
  split
  · exact Pairwise.nil
  · exact Pairwise.map _ (fun _ _ hl => hl) pairwise_lt_range'

end Iter

end GrokCodec.PacketIter
