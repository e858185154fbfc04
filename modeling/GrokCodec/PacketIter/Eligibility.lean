import GrokCodec.PacketIter.Completeness
import Mathlib.Data.Nat.Factorization.Basic

/-!
What the acceptance test of the optimised path guarantees, and what it leaves open: the shared
table describes the first component, and the test never compares the precinct exponents of the
others with it.
-/

namespace GrokCodec.PacketIter

open Finset Nat

namespace Axis

/-- Two axes of the same resolution that may differ in their precinct exponent. -/
structure SameRes (a b : Axis) : Prop where
  t0 : a.t0 = b.t0
  t1 : a.t1 = b.t1
  dPRJ : a.dPRJ = b.dPRJ

variable {a b : Axis}

theorem SameRes.res0_eq (h : SameRes a b) : a.res0 = b.res0 := by
  unfold res0
  rw [h.t0, h.dPRJ]

theorem SameRes.res1_eq (h : SameRes a b) : a.res1 = b.res1 := by
  unfold res1
  rw [h.t1, h.dPRJ]

/-- Precinct boundaries strictly inside the resolution. -/
def boundaries (a : Axis) : Finset Nat :=
  (Finset.Ioo a.res0 a.res1).filter (2 ^ a.precExp ∣ ·)

theorem card_boundaries {a : Axis} (h : a.res0 < a.res1) :
    a.boundaries.card + 1 = a.count := by
  have hpow := Nat.two_pow_pos a.precExp
  have hsplit : (Finset.Ioc 0 (a.res1 - 1)).filter (2 ^ a.precExp ∣ ·) =
      (Finset.Ioc 0 a.res0).filter (2 ^ a.precExp ∣ ·) ∪ a.boundaries := by
    ext q
    simp only [boundaries, mem_union, mem_filter, mem_Ioc, mem_Ioo,
      ← or_and_right]
    refine and_congr_left fun _ => ?_
    omega
  have hdisj : Disjoint ((Finset.Ioc 0 a.res0).filter (2 ^ a.precExp ∣ ·)) a.boundaries := by
    rw [disjoint_left]
    intro q hq hq'
    simp only [boundaries, mem_filter, mem_Ioc, mem_Ioo] at hq hq'
    omega
  have hcard := congrArg card hsplit
  rw [card_union_of_disjoint hdisj, Ioc_filter_dvd_card_eq_div,
    Ioc_filter_dvd_card_eq_div] at hcard
  have hceil : a.grid1 = (a.res1 - 1) / 2 ^ a.precExp + 1 := by
    rw [grid1, ceilDiv_eq_add_pred_div, ← add_div_right _ hpow]
    congr 1
    omega
  have hcount : a.count = a.grid1 - a.grid0 := if_pos h
  have hgrid0 : a.grid0 = a.res0 / 2 ^ a.precExp := rfl
  omega

theorem count_eq_of_le (h : SameRes a b) (hp : a.precExp ≤ b.precExp)
    (hres : a.res0 < a.res1) :
    a.count = b.count ↔
      ∀ q, a.res0 < q → q < a.res1 → (2 ^ a.precExp ∣ q ↔ 2 ^ b.precExp ∣ q) := by
  have hsub : b.boundaries ⊆ a.boundaries := by
    intro q hq
    simp only [boundaries, mem_filter, ← h.res0_eq, ← h.res1_eq] at hq ⊢
    exact ⟨hq.1, (Nat.pow_dvd_pow 2 hp).trans hq.2⟩
  have hcarda := card_boundaries hres
  have hcardb := card_boundaries (show b.res0 < b.res1 by rw [← h.res0_eq, ← h.res1_eq]; exact hres)
  constructor
  · intro hcount q h0 h1
    have heq := eq_of_subset_of_card_le hsub (by omega)
    have hmem : q ∈ b.boundaries ↔ q ∈ a.boundaries := by rw [heq]
    simpa [boundaries, ← h.res0_eq, ← h.res1_eq, h0, h1] using hmem.symm
  · intro hiff
    have heq : a.boundaries = b.boundaries := by
      ext q
      simp only [boundaries, mem_filter, mem_Ioo, ← h.res0_eq, ← h.res1_eq]
      exact and_congr_right fun hq => hiff q hq.1 hq.2
    rw [← hcarda, ← hcardb, heq]

/-- Two precinct sizes cut a resolution into equally many precincts only by cutting it at the
same places. -/
theorem count_eq_iff (h : SameRes a b) (hres : a.res0 < a.res1) :
    a.count = b.count ↔
      ∀ q, a.res0 < q → q < a.res1 → (2 ^ a.precExp ∣ q ↔ 2 ^ b.precExp ∣ q) := by
  rcases Nat.le_total a.precExp b.precExp with hp | hp
  · exact count_eq_of_le h hp hres
  · have h' : SameRes b a := ⟨h.t0.symm, h.t1.symm, h.dPRJ.symm⟩
    rw [eq_comm, count_eq_of_le h' hp (by rw [← h.res0_eq, ← h.res1_eq]; exact hres),
      ← h.res0_eq, ← h.res1_eq]
    exact forall_congr' fun q => imp_congr_right fun _ => imp_congr_right fun _ => Iff.comm

end Axis

/-- What the acceptance test compares between the components. -/
structure Tile.Uniform (T : Tile) : Prop where
  dx : ∀ c < T.numcomps, (T.comps c).dx = 1
  dy : ∀ c < T.numcomps, (T.comps c).dy = 1
  part1 : ∀ c < T.numcomps, (T.comps c).usesPart2Transform = false
  numresolutions : ∀ c < T.numcomps, (T.comps c).numresolutions = (T.comps 0).numresolutions

theorem uniform_of_acceptsOPT {T : Tile} {order : ProgOrder} {compression single : Bool}
    (h : acceptsOPT T order compression single = true) :
    T.Uniform ∧ compression = false ∧ single = true := by
  simp only [acceptsOPT, Bool.and_eq_true, List.all_eq_true, List.mem_range, beq_iff_eq,
    Bool.not_eq_true'] at h
  obtain ⟨⟨⟨hc, hs⟩, hall⟩, -⟩ := h
  exact ⟨⟨fun c hc => (hall c hc).1.1.1, fun c hc => (hall c hc).1.1.2,
    fun c hc => (hall c hc).1.2, fun c hc => (hall c hc).2⟩, hc, hs⟩

namespace Tile.Uniform

variable {T : Tile} (hT : T.Uniform) {c : Nat}

include hT

theorem depthX_eq (hc : c < T.numcomps) (r : Nat) :
    (T.comps c).depthX r = (T.comps 0).levelsDone r := by
  rw [Component.depthX, ((T.comps c).depth_part1 (hT.part1 c hc) _).1, Component.levelsDone,
    hT.numresolutions c hc, Component.levelsDone]

theorem depthY_eq (hc : c < T.numcomps) (r : Nat) :
    (T.comps c).depthY r = (T.comps 0).levelsDone r := by
  rw [Component.depthY, ((T.comps c).depth_part1 (hT.part1 c hc) _).2, Component.levelsDone,
    hT.numresolutions c hc, Component.levelsDone]

theorem sameResX (hc : c < T.numcomps) (r : Nat) : Axis.SameRes (T.axisX c r) (T.axisX 0 r) := by
  have h0 := T.numcomps_range.1
  refine ⟨rfl, rfl, ?_⟩
  change (T.comps c).dx * 2 ^ (T.comps c).depthX r = (T.comps 0).dx * 2 ^ (T.comps 0).depthX r
  rw [hT.dx c hc, hT.dx 0 h0, hT.depthX_eq hc, hT.depthX_eq h0]

theorem sameResY (hc : c < T.numcomps) (r : Nat) : Axis.SameRes (T.axisY c r) (T.axisY 0 r) := by
  have h0 := T.numcomps_range.1
  refine ⟨rfl, rfl, ?_⟩
  change (T.comps c).dy * 2 ^ (T.comps c).depthY r = (T.comps 0).dy * 2 ^ (T.comps 0).depthY r
  rw [hT.dy c hc, hT.dy 0 h0, hT.depthY_eq hc, hT.depthY_eq h0]

theorem pow2Sampled : T.Pow2Sampled :=
  fun c hc => ⟨⟨0, hT.dx c hc⟩, ⟨0, hT.dy c hc⟩⟩

end Tile.Uniform

namespace Tile

variable (T : Tile)

/-- The resolution has samples. -/
def NonEmpty (c r : Nat) : Prop :=
  (T.axisX c r).res0 < (T.axisX c r).res1 ∧ (T.axisY c r).res0 < (T.axisY c r).res1

instance (c r : Nat) : Decidable (T.NonEmpty c r) := inferInstanceAs (Decidable (_ ∧ _))

theorem numPrecincts_pos_iff (c r : Nat) : 0 < T.numPrecincts c r ↔ T.NonEmpty c r := by
  rw [NonEmpty, ← Axis.count_pos_iff, ← Axis.count_pos_iff, numPrecincts]
  exact ⟨fun h => ⟨Nat.pos_of_mul_pos_right h, Nat.pos_of_mul_pos_left h⟩,
    fun h => Nat.mul_pos h.1 h.2⟩

end Tile

namespace Iter

variable {it : Iter}

theorem infoOPT_eq (it : Iter) (r : Nat) :
    (it.infoOPT r).valid = (precinctInfoOPT it.tile it.infoWindow r).valid ∧
      (it.infoOPT r).decompLevel = (precinctInfoOPT it.tile it.infoWindow r).decompLevel ∧
      ∀ a b, InfoFor a b (precinctInfoOPT it.tile it.infoWindow r) → InfoFor a b (it.infoOPT r) := by
  unfold infoOPT
  split
  · exact ⟨rfl, rfl, fun a b h => { h with }⟩
  · exact ⟨rfl, rfl, fun a b h => h⟩

theorem precinctInfoOPT_axes (hT : it.tile.Uniform) (w : Option Rect) (r : Nat) :
    precinctInfoOPT it.tile w r = ResPrecinctInfo.init (it.tile.axisX 0 r).precExp
      (it.tile.axisY 0 r).precExp ((it.tile.comps 0).depthX r) ((it.tile.comps 0).depthY r)
      ⟨(it.tile.axisX 0 r).t0, (it.tile.axisY 0 r).t0, (it.tile.axisX 0 r).t1,
        (it.tile.axisY 0 r).t1⟩ (it.tile.comps 0).dx (it.tile.comps 0).dy w := by
  have h0 := it.tile.numcomps_range.1
  rw [hT.depthX_eq h0, hT.depthY_eq h0]
  rfl

theorem infoOPT_valid (hT : it.tile.Uniform) (r : Nat) :
    (it.infoOPT r).valid = decide (it.tile.NonEmpty 0 r) := by
  rw [(it.infoOPT_eq r).1, precinctInfoOPT_axes hT]
  exact ResPrecinctInfo.init_valid rfl rfl _

theorem infoOPT_infoFor (hT : it.tile.Uniform) {r : Nat} (hne : it.tile.NonEmpty 0 r) :
    InfoFor (it.tile.axisX 0 r) (it.tile.axisY 0 r) (it.infoOPT r) := by
  refine (it.infoOPT_eq r).2.2 _ _ ?_
  rw [precinctInfoOPT_axes hT]
  exact ResPrecinctInfo.init_infoFor rfl rfl (it.tile.comps 0).dx_range.1
    (it.tile.comps 0).dy_range.1 _ hne.1 hne.2

theorem grid0_le_of_res {a : Axis} (h : a.res0 < a.res1) :
    sub32 a.grid1 a.grid0 = a.count := by
  have hlt : a.grid1 < 2 ^ 32 :=
    lt_of_le_of_lt (ceilDiv_le_self (Nat.two_pow_pos _)) a.res1_lt
  rw [sub32_of_le (Axis.grid0_lt_grid1 h).le hlt, Axis.count, if_pos h]

theorem infoOPT_extent (hT : it.tile.Uniform) {r : Nat} (hne : it.tile.NonEmpty 0 r) :
    (it.infoOPT r).tileBoundsPrecGrid.width = (it.tile.axisX 0 r).count ∧
      (it.infoOPT r).tileBoundsPrecGrid.height = (it.tile.axisY 0 r).count := by
  rw [(infoOPT_infoFor hT hne).tileBoundsPrecGrid]
  exact ⟨grid0_le_of_res hne.1, grid0_le_of_res hne.2⟩

/-- The precinct grid an optimised iterator uses for a component is the component's own. An
invalid table entry is never used, which is right only for a resolution without precincts. -/
def GridAgrees (it : Iter) (c r : Nat) : Prop :=
  if (it.infoOPT r).valid then
    (it.infoOPT r).tileBoundsPrecGrid.width = it.gridWidth c r ∧
      (it.infoOPT r).tileBoundsPrecGrid.height = it.gridHeight c r
  else it.gridWidth c r = 0 ∨ it.gridHeight c r = 0

instance (it : Iter) (c r : Nat) : Decidable (it.GridAgrees c r) := by
  unfold GridAgrees
  infer_instance

end Iter

namespace Tile

variable (T : Tile)

/-- Component `c` and the first component cut resolution `r` into precincts at the same
places. -/
structure SameCuts (c r : Nat) : Prop where
  x : ∀ q, (T.axisX c r).res0 < q → q < (T.axisX c r).res1 →
    (2 ^ (T.comps c).precWidthExp r ∣ q ↔ 2 ^ (T.comps 0).precWidthExp r ∣ q)
  y : ∀ q, (T.axisY c r).res0 < q → q < (T.axisY c r).res1 →
    (2 ^ (T.comps c).precHeightExp r ∣ q ↔ 2 ^ (T.comps 0).precHeightExp r ∣ q)

variable {T}

theorem Uniform.nonEmpty_iff (hT : T.Uniform) {c : Nat} (hc : c < T.numcomps) (r : Nat) :
    T.NonEmpty c r ↔ T.NonEmpty 0 r := by
  unfold NonEmpty
  rw [(hT.sameResX hc r).res0_eq, (hT.sameResX hc r).res1_eq, (hT.sameResY hc r).res0_eq,
    (hT.sameResY hc r).res1_eq]

theorem Uniform.counts_eq_iff (hT : T.Uniform) {c r : Nat} (hc : c < T.numcomps)
    (hne : T.NonEmpty c r) :
    ((T.axisX c r).count = (T.axisX 0 r).count ∧ (T.axisY c r).count = (T.axisY 0 r).count) ↔
      T.SameCuts c r := by
  rw [Axis.count_eq_iff (hT.sameResX hc r) hne.1, Axis.count_eq_iff (hT.sameResY hc r) hne.2]
  exact ⟨fun h => ⟨h.1, h.2⟩, fun h => ⟨h.x, h.y⟩⟩

end Tile

/-- Whenever an optimised path is selected, the grids it uses are the components' own exactly
when every component cuts every non-empty resolution where the first one does, and no grid
wraps: the acceptance test says nothing about either. -/
theorem optGrid_agrees_iff (T : Tile) (order : ProgOrder)
    (compression singleProgression wholeTile plt : Bool) (w : Rect) (maxRes layers : Nat)
    (hopt : (Iter.init T order compression singleProgression wholeTile plt w maxRes layers).opt =
      true) :
    (∀ c < T.numcomps, ∀ r < (T.comps c).numresolutions,
      (Iter.init T order compression singleProgression wholeTile plt w maxRes layers).GridAgrees
        c r) ↔
      ∀ c < T.numcomps, ∀ r < (T.comps c).numresolutions,
        T.NonEmpty c r → ¬ T.Wraps c r ∧ T.SameCuts c r := by
  obtain ⟨hT, -, -⟩ := uniform_of_acceptsOPT hopt
  generalize hit : Iter.init T order compression singleProgression wholeTile plt w maxRes layers = it
  obtain rfl : it.tile = T := by rw [← hit]; rfl
  refine forall₂_congr fun c hc => forall₂_congr fun r hr => ?_
  unfold Iter.GridAgrees
  rw [Iter.infoOPT_valid hT]
  by_cases hne : it.tile.NonEmpty c r
  · have hne0 := (hT.nonEmpty_iff hc r).mp hne
    obtain ⟨hw, hh⟩ := Iter.infoOPT_extent hT hne0
    have hpos := (it.tile.numPrecincts_pos_iff c r).mpr hne
    simp only [hne, hne0, decide_true, if_true, hw, hh, true_imp_iff]
    rw [← hT.counts_eq_iff hc hne]
    by_cases hwrap : it.tile.Wraps c r
    · -- a wrapped grid is stored as empty, the table's is not
      have hzero : it.gridWidth c r = 0 ∨ it.gridHeight c r = 0 :=
        (it.tile.grid_zero_iff c r).mpr (.inr hwrap)
      have hx := Axis.count_pos_iff.mpr hne0.1
      have hy := Axis.count_pos_iff.mpr hne0.2
      simp only [hwrap, not_true_eq_false, false_and, iff_false]
      omega
    · have h1 : it.gridWidth c r = _ := it.tile.gridWidth_eq hwrap hpos
      have h2 : it.gridHeight c r = _ := it.tile.gridHeight_eq hwrap hpos
      simp only [hwrap, not_false_eq_true, true_and, h1, h2]
      omega
  · have hne0 : ¬ it.tile.NonEmpty 0 r := fun h => hne ((hT.nonEmpty_iff hc r).mpr h)
    have hzero : it.gridWidth c r = 0 ∨ it.gridHeight c r = 0 := by
      refine (it.tile.grid_zero_iff c r).mpr (.inl ?_)
      exact Nat.eq_zero_of_not_pos fun h => hne ((it.tile.numPrecincts_pos_iff c r).mp h)
    simp [hne, hne0, hzero]

/-- The shared table has one precinct for the second component, which has two. -/
theorem coarseThenFine_shares_grid :
    (Iter.init coarseThenFine .lrcp false true true false coarseThenFine.bounds 1 1).opt = true ∧
      ¬ (Iter.init coarseThenFine .lrcp false true true false coarseThenFine.bounds 1 1).GridAgrees
        1 0 := by
  decide +kernel

/-- Two components cut alike. -/
def alikeRow : Tile := .twoSamples 0 0 zero_exp zero_exp

theorem alikeRow_grids_agree :
    (Iter.init alikeRow .lrcp false true true false alikeRow.bounds 1 1).opt = true ∧
      ∀ c < alikeRow.numcomps, ∀ r < (alikeRow.comps c).numresolutions,
        (Iter.init alikeRow .lrcp false true true false alikeRow.bounds 1 1).GridAgrees c r := by
  have hopt : (Iter.init alikeRow .lrcp false true true false alikeRow.bounds 1 1).opt = true := by
    decide +kernel
  refine ⟨hopt,
    (optGrid_agrees_iff alikeRow .lrcp false true true false alikeRow.bounds 1 1 hopt).mpr ?_⟩
  have hwrap : alikeRow.NoWrap := by unfold Tile.NoWrap; decide +kernel
  intro c hc r hr _
  have hsame : alikeRow.comps c = alikeRow.comps 0 := by
    simp [alikeRow, Tile.twoSamples, Tile.row]
  exact ⟨hwrap c hc r hr, ⟨fun q _ _ => by rw [hsame], fun q _ _ => by rw [hsame]⟩⟩

end GrokCodec.PacketIter
