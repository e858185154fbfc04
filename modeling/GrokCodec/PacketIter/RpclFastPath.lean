import GrokCodec.PacketIter.Eligibility
import GrokCodec.PacketIter.WalkOpt

/-!
`next_rpclOPT` against `next_rpcl`. The fast path steps from the tile's own corner and numbers
what it meets; the reference looks for precinct corners. The two agree when the first precinct
of the first component begins at the tile's edge and the corners of all components interleave.
-/

namespace GrokCodec.PacketIter

open Resumable Ordered List Axis Tile Nat MixedRadix

/-- A visit of the optimised loops: a position, a component, a resolution and a layer. -/
structure Slot where
  x : Nat
  y : Nat
  compno : Nat
  resno : Nat
  layno : Nat

namespace Axis

variable {a : Axis}

theorem ceilDiv_edge_add (a : Axis) (k : Nat) :
    ((a.t0 + k * a.stride) ⌈/⌉ a.dPRJ) / 2 ^ a.precExp = a.grid0 + k := by
  have hd := a.dPRJ_pos
  have hceil : (a.t0 + k * a.stride) ⌈/⌉ a.dPRJ = a.res0 + k * 2 ^ a.precExp := by
    rw [res0, ceilDiv_eq_add_pred_div, ceilDiv_eq_add_pred_div, stride,
      ← add_mul_div_left _ _ hd]
    congr 1
    have : k * (a.dPRJ * 2 ^ a.precExp) = a.dPRJ * (k * 2 ^ a.precExp) := by ring
    omega
  rw [hceil, add_mul_div_right _ _ (Nat.two_pow_pos _), grid0]

theorem ceilDiv_grid_add (a : Axis) (k : Nat) :
    ((a.grid0 * a.stride + k * a.stride) ⌈/⌉ a.dPRJ) / 2 ^ a.precExp = a.grid0 + k := by
  rw [← Nat.add_mul, stride, Nat.mul_left_comm, mul_ceilDiv_cancel a.dPRJ_pos,
    Nat.mul_div_cancel _ (Nat.two_pow_pos _)]

theorem corner_zero_eq_iff : a.corner 0 = a.t0 ↔ a.grid0 * a.stride ≤ a.t0 := by
  rw [corner, Nat.add_zero]
  exact max_eq_left_iff

/-- Stepping from the edge stays inside the grid for as many steps as there are precincts. -/
theorem edge_add_lt_iff (h : a.corner 0 = a.t0) (k : Nat) :
    a.t0 + k * a.stride < a.grid1 * a.stride ↔ a.grid0 + k < a.grid1 := by
  have hle := corner_zero_eq_iff.mp h
  have hlt : a.t0 < (a.grid0 + 1) * a.stride := by
    rw [← corner_of_pos Nat.one_pos, ← h]
    exact corner_zero_lt
  constructor
  · intro hk
    have : (a.grid0 + k) * a.stride < a.grid1 * a.stride := by
      rw [Nat.add_mul]
      omega
    exact Nat.lt_of_mul_lt_mul_right this
  · intro hk
    have hmul := mul_le_mul_right a.stride (succ_le_of_lt hk)
    rw [succ_eq_add_one, Nat.add_right_comm, Nat.add_mul] at hmul
    omega

/-- When the first precinct begins inside the tile, one step more fits. -/
theorem edge_add_lt_of_ne (h : a.corner 0 ≠ a.t0) (hres : a.res0 < a.res1) :
    a.t0 + a.count * a.stride < a.grid1 * a.stride := by
  have hlt : a.t0 < a.grid0 * a.stride := by
    rw [Ne, corner_zero_eq_iff] at h
    omega
  have hg := grid0_lt_grid1 hres
  have hsum : a.grid0 + a.count = a.grid1 := by
    rw [count, if_pos hres]
    omega
  rw [← hsum, Nat.add_mul]
  omega

theorem edge_add_lt {k : Nat} (hres : a.res0 < a.res1) (hk : k < a.count) :
    a.t0 + k * a.stride < a.grid1 * a.stride := by
  by_cases h : a.corner 0 = a.t0
  · rw [edge_add_lt_iff h, ← lt_count_iff hres]
    exact hk
  · have hmul := mul_le_mul_right a.stride hk.le
    have := edge_add_lt_of_ne h hres
    omega

theorem grid_add_lt_iff (k : Nat) :
    a.grid0 * a.stride + k * a.stride < a.grid1 * a.stride ↔ a.grid0 + k < a.grid1 := by
  rw [← Nat.add_mul]
  exact Nat.mul_lt_mul_right stride_pos

/-- What `genPrecinct0GridRPCLOPT` computes inside the grid. -/
theorem genPrecinct0GridRPCLOPT_eq {l q k : Nat} (hl : a.dPRJ = 2 ^ l)
    (hq : (q ⌈/⌉ a.dPRJ) / 2 ^ a.precExp = a.grid0 + k) (hlt : q < a.grid1 * a.stride) :
    Iter.genPrecinct0GridRPCLOPT q l a.precExp a.grid0 = k := by
  have hpow := Nat.two_pow_pos a.precExp
  have hle : a.grid0 + k ≤ a.grid1 := by
    rw [← hq]
    refine Nat.div_le_of_le_mul ?_
    rw [ceilDiv_le_iff_le_mul a.dPRJ_pos]
    calc q ≤ a.grid1 * a.stride := hlt.le
      _ = a.dPRJ * (2 ^ a.precExp * a.grid1) := by rw [stride]; ring
  have hg1 : a.grid1 < 2 ^ 32 := lt_of_le_of_lt (ceilDiv_le_self hpow) a.res1_lt
  rw [Iter.genPrecinct0GridRPCLOPT, ceildivpow2_eq, shiftRight_eq_div_pow, ← hl, hq,
    u32_of_lt (by omega), sub32_of_le (by omega) (by omega)]
  omega

end Axis

namespace Tile

variable {T : Tile}

/-- The number of precincts `PacketManager::getParams` stores for a resolution. -/
def storedPrecincts (T : Tile) (c r : Nat) : Nat :=
  (T.comps c).precinctGridWidth T.bounds r * (T.comps c).precinctGridHeight T.bounds r

theorem storedPrecincts_eq (c r : Nat) :
    T.storedPrecincts c r = if T.Wraps c r then 0 else T.numPrecincts c r := by
  by_cases h : T.numPrecincts c r = 0 ∨ T.Wraps c r
  · have hz : T.storedPrecincts c r = 0 :=
      Nat.mul_eq_zero.mpr ((T.grid_zero_iff c r).mpr h)
    rw [hz]
    rcases h with h | h <;> simp [h]
  · rw [not_or] at h
    rw [if_neg h.2, storedPrecincts, T.gridWidth_eq h.2 (Nat.pos_of_ne_zero h.1),
      T.gridHeight_eq h.2 (Nat.pos_of_ne_zero h.1)]
    rfl

theorem storedPrecincts_pos_iff {c r : Nat} :
    0 < T.storedPrecincts c r ↔ T.NonEmpty c r ∧ ¬ T.Wraps c r := by
  rw [storedPrecincts_eq, ← numPrecincts_pos_iff]
  split <;> simp [*]

/-- The packets of the grids that were stored. -/
structure Stored (T : Tile) (p : Packet) : Prop where
  compno : p.compno < T.numcomps
  resno : p.resno < (T.comps p.compno).numresolutions
  precinctIndex : p.precinctIndex < T.storedPrecincts p.compno p.resno
  layno : p.layno < T.numLayers

theorem stored_iff {p : Packet} :
    T.Stored p ↔ T.Coded p := by
  constructor
  · rintro ⟨h1, h2, h3, h4⟩
    have hw := (storedPrecincts_pos_iff.mp (lt_of_le_of_lt (zero_le _) h3)).2
    rw [storedPrecincts_eq, if_neg hw] at h3
    exact ⟨⟨h1, h2, h3, h4⟩, hw⟩
  · rintro ⟨⟨h1, h2, h3, h4⟩, hw⟩
    exact ⟨h1, h2, by rwa [storedPrecincts_eq, if_neg hw], h4⟩

/-- With power-of-two subsampling the common steps find every stored packet. -/
theorem Pow2Sampled.found_iff (hT : T.Pow2Sampled) {p : Packet} :
    T.Found T.updateDx T.updateDy p ↔ T.Stored p := by
  rw [stored_iff]
  exact ⟨fun h => h.coded,
    fun ⟨hp, hw⟩ => (hT.stepReaches hp.compno).found hp hw⟩

/-- The corner of one precinct comes before that of another, row by row. -/
def Before (T : Tile) (p q : Packet) : Prop :=
  T.precY p < T.precY q ∨ T.precY p = T.precY q ∧ T.precX p < T.precX q

instance (p q : Packet) : Decidable (T.Before p q) := inferInstanceAs (Decidable (_ ∨ _ ∧ _))

theorem before_of_lt {c r k k' l l' : Nat} (hk : k < k') (hk' : k' < T.numPrecincts c r) :
    T.Before ⟨c, r, k, l⟩ ⟨c, r, k', l'⟩ := by
  have hw := Nat.pos_of_mul_pos_right (lt_of_le_of_lt (zero_le _) hk')
  have hdiv : k / (T.axisX c r).count ≤ k' / (T.axisX c r).count := Nat.div_le_div_right hk.le
  rcases Nat.eq_or_lt_of_le hdiv with heq | hlt
  · right
    refine ⟨congrArg (T.axisY c r).corner heq, corner_strictMono ?_⟩
    have h1 := div_add_mod k (T.axisX c r).count
    have h2 := div_add_mod k' (T.axisX c r).count
    rw [← heq] at h2
    change k % (T.axisX c r).count < k' % (T.axisX c r).count
    omega
  · exact .inl (corner_strictMono hlt)

/-- Position `(x, y)` is column `k` of row `j` in the walk of `next_rpclOPT` through resolution
`r`, which sets out from the tile's corner and returns to the grid's left edge. -/
structure RpclVisit (T : Tile) (r j k x y : Nat) : Prop where
  y_eq : y = (T.axisY 0 r).t0 + j * (T.axisY 0 r).stride
  y_lt : y < (T.axisY 0 r).grid1 * (T.axisY 0 r).stride
  x_eq : x = (if j = 0 then (T.axisX 0 r).t0 else (T.axisX 0 r).grid0 * (T.axisX 0 r).stride) +
    k * (T.axisX 0 r).stride
  x_lt : x < (T.axisX 0 r).grid1 * (T.axisX 0 r).stride

end Tile

/-- An iterator for which the optimised path was selected, decoding the whole tile, possibly
only the lower resolutions. -/
structure Iter.IsOpt (it : Iter) (order : ProgOrder) : Prop where
  uniform : it.tile.Uniform
  single : it.singleProgression = true
  whole : it.wholeTile = true
  opt : it.opt = true
  prog : it.prog = { it.tile.fullProgression order with res_e := it.prog.res_e }

namespace Iter

variable {it : Iter} {order : ProgOrder}

def layerSlots (it : Iter) (c r x y : Nat) : List Slot :=
  (List.range' it.prog.lay_s (it.prog.lay_e - it.prog.lay_s)).map fun l => ⟨x, y, c, r, l⟩

/-- The rows of resolution `r`. -/
def rpclRowsOPT (it : Iter) (r : Nat) : List Nat :=
  if (it.infoOPT r).valid && it.hasGrid0 r then
    strideSteps (it.infoOPT r).precHeightPRJ (it.infoOPT r).tileBoundsPrecPRJ.y1 it.prog.ty0
  else []

/-- The columns of row `y`. -/
def rpclColumnsOPT (it : Iter) (r y : Nat) : List Nat :=
  strideSteps (it.infoOPT r).precWidthPRJ (it.infoOPT r).tileBoundsPrecPRJ.x1
    (it.rpclRowStartOPT (it.infoOPT r) y)

/-- The visits of `next_rpclOPT`, in order. -/
def rpclSlots (it : Iter) : List Slot :=
  it.resRange.flatMap fun r => (it.rpclRowsOPT r).flatMap fun y =>
    (it.rpclColumnsOPT r y).flatMap fun x => it.compRange.flatMap fun c => it.layerSlots c r x y

def rpclSlotPacket (it : Iter) (s : Slot) : Packet :=
  ⟨s.compno, s.resno, rpclIndexOPT (it.infoOPT s.resno) s.x s.y, s.layno⟩

theorem rpclPacketsOPT_eq_map (it : Iter) :
    it.rpclPacketsOPT = it.rpclSlots.map it.rpclSlotPacket := by
  unfold rpclPacketsOPT rpclSlots
  rw [map_flatMap]
  congr 1
  funext r
  unfold rpclResOPT rpclRowsOPT
  dsimp only
  split
  · simp only [map_flatMap, layerSlots, map_map]
    rfl
  · rfl

end Iter

/-- The order of the visits. -/
def Slot.rpclKey (s : Slot) : List Nat := [s.resno, s.y, s.x, s.compno, s.layno]

theorem Slot.rpclKey_lt_of_pos {s s' : Slot} (hr : s.resno = s'.resno)
    (h : s.y < s'.y ∨ s.y = s'.y ∧ s.x < s'.x) : s.rpclKey < s'.rpclKey := by
  rcases h with h | ⟨h₁, h₂⟩ <;> simp [rpclKey, cons_lt_cons_iff, *]

namespace Iter

variable {it : Iter} {order : ProgOrder}

theorem mem_layerSlots {c r x y : Nat} {s : Slot} :
    s ∈ it.layerSlots c r x y ↔
      (s.x = x ∧ s.y = y ∧ s.compno = c ∧ s.resno = r) ∧ it.prog.lay_s ≤ s.layno ∧
        s.layno < it.prog.lay_e := by
  simp only [layerSlots, mem_map, mem_range'_1]
  constructor
  · rintro ⟨l, hl, rfl⟩
    exact ⟨⟨rfl, rfl, rfl, rfl⟩, hl.1, (by omega : l < it.prog.lay_e)⟩
  · rintro ⟨⟨rfl, rfl, rfl, rfl⟩, h1, h2⟩
    exact ⟨s.layno, by omega, rfl⟩

theorem rpclSlots_sorted (it : Iter) : KeySorted Slot.rpclKey it.rpclSlots := by
  refine SortedUnder.sorted (.flatMap pairwise_lt_range' fun r _ => .flatMap ?_ fun y _ =>
    .flatMap (strideSteps_sorted _ _ _) fun x _ => .flatMap pairwise_lt_range' fun c _ =>
      .map pairwise_lt_range' fun _ => rfl)
  unfold rpclRowsOPT
  split
  · exact strideSteps_sorted _ _ _
  · exact List.Pairwise.nil

theorem hasGrid0_iff {r : Nat} (hr : r < (it.comp 0).numresolutions) :
    it.hasGrid0 r = true ↔ 0 < it.tile.storedPrecincts 0 r := by
  simp only [hasGrid0, hr, decide_true, Bool.true_and, Bool.and_eq_true, decide_eq_true_eq,
    storedPrecincts, CanonicallyOrderedAdd.mul_pos]
  rfl

namespace IsOpt

variable (hit : it.IsOpt order)

include hit

theorem dPRJ_x (r : Nat) : (it.tile.axisX 0 r).dPRJ = 2 ^ (it.infoOPT r).decompLevel := by
  have h0 := it.tile.numcomps_range.1
  have hlevel : (it.infoOPT r).decompLevel = (it.tile.comps 0).levelsDone r := by
    rw [(it.infoOPT_eq r).2.1]
    unfold precinctInfoOPT ResPrecinctInfo.init
    dsimp only
    split <;> rfl
  change (it.tile.comps 0).dx * 2 ^ (it.tile.comps 0).depthX r = _
  rw [hit.uniform.dx 0 h0, hit.uniform.depthX_eq h0, hlevel, Nat.one_mul]

theorem dPRJ_y (r : Nat) : (it.tile.axisY 0 r).dPRJ = 2 ^ (it.infoOPT r).decompLevel := by
  have h0 := it.tile.numcomps_range.1
  rw [← hit.dPRJ_x r]
  change (it.tile.comps 0).dy * 2 ^ (it.tile.comps 0).depthY r =
    (it.tile.comps 0).dx * 2 ^ (it.tile.comps 0).depthX r
  rw [hit.uniform.dx 0 h0, hit.uniform.dy 0 h0, hit.uniform.depthX_eq h0, hit.uniform.depthY_eq h0]

theorem mem_compRange {c : Nat} : c ∈ it.compRange ↔ c < it.tile.numcomps := by
  rw [compRange, hit.prog, mem_range'_1]
  simp [fullProgression]

theorem mem_resRange {r : Nat} : r ∈ it.resRange ↔ r < it.prog.res_e := by
  rw [resRange, hit.prog, mem_range'_1]
  simp [fullProgression]

/-- The check of `next_rpclOPT` looks for a stored grid of the first component. -/
theorem check_iff {r : Nat} (hr : r < (it.tile.comps 0).numresolutions) :
    ((it.infoOPT r).valid && it.hasGrid0 r) = true ↔ 0 < it.tile.storedPrecincts 0 r := by
  rw [Bool.and_eq_true, infoOPT_valid hit.uniform, hasGrid0_iff hr, decide_eq_true_eq]
  exact and_iff_right_of_imp fun h => (storedPrecincts_pos_iff.mp h).1

theorem mem_rpclSlots (hres : it.prog.res_e ≤ (it.tile.comps 0).numresolutions) {s : Slot} :
    s ∈ it.rpclSlots ↔ (s.resno < it.prog.res_e ∧ 0 < it.tile.storedPrecincts 0 s.resno ∧
      s.compno < it.tile.numcomps ∧ s.layno < it.tile.numLayers) ∧
        ∃ j k, it.tile.RpclVisit s.resno j k s.x s.y := by
  have hlay : it.prog.lay_s = 0 ∧ it.prog.lay_e = it.tile.numLayers := by
    rw [hit.prog]; exact ⟨rfl, rfl⟩
  have horg : it.prog.tx0 = it.tile.bounds.x0 ∧ it.prog.ty0 = it.tile.bounds.y0 := by
    rw [hit.prog]; exact ⟨rfl, rfl⟩
  simp only [rpclSlots, mem_flatMap, hit.mem_resRange, hit.mem_compRange, mem_layerSlots,
    hlay.1, hlay.2, zero_le, true_and]
  constructor
  · rintro ⟨r, hr, y, hy, x, hx, c, hc, ⟨rfl, rfl, rfl, rfl⟩, hl⟩
    unfold rpclRowsOPT at hy
    split at hy
    case isFalse => cases hy
    case isTrue hcheck =>
      have hpos := (hit.check_iff (by omega)).mp hcheck
      have hinf := infoOPT_infoFor hit.uniform (storedPrecincts_pos_iff.mp hpos).1
      rw [hinf.precHeightPRJ, hinf.tileBoundsPrecPRJ, mem_strideSteps, horg.2] at hy
      rw [rpclColumnsOPT, rpclRowStartOPT, hinf.precWidthPRJ, hinf.tileBoundsPrecPRJ,
        mem_strideSteps, horg.1, horg.2] at hx
      obtain ⟨hy0, hy1, j, hj⟩ := hy
      obtain ⟨hx0, hx1, k, hk⟩ := hx
      refine ⟨⟨hr, hpos, hc, hl⟩, j, k, ⟨?_, hy1, ?_, hx1⟩⟩
      · change _ = it.tile.bounds.y0 + _
        rw [Nat.mul_comm]
        omega
      · have hj0 : s.y = it.tile.bounds.y0 ↔ j = 0 := by
          have hstride := (it.tile.axisY 0 s.resno).stride_pos
          constructor
          · intro h
            rw [h, Nat.sub_self, eq_comm, mul_eq_zero] at hj
            omega
          · rintro rfl
            omega
        simp only [hj0] at hx0 hk
        change _ = (if j = 0 then it.tile.bounds.x0 else _) + _
        rw [Nat.mul_comm k]
        omega
  · rintro ⟨⟨hr, hpos, hc, hl⟩, j, k, hv⟩
    have hinf := infoOPT_infoFor hit.uniform (storedPrecincts_pos_iff.mp hpos).1
    refine ⟨s.resno, hr, s.y, ?_, s.x, ?_, s.compno, hc, ⟨rfl, rfl, rfl, rfl⟩, hl⟩
    · rw [rpclRowsOPT, if_pos ((hit.check_iff (by omega)).mpr hpos), hinf.precHeightPRJ,
        hinf.tileBoundsPrecPRJ, mem_strideSteps, horg.2]
      have hy : s.y = it.tile.bounds.y0 + j * (it.tile.axisY 0 s.resno).stride := hv.y_eq
      exact ⟨by omega, hv.y_lt, j, by rw [Nat.mul_comm]; omega⟩
    · rw [rpclColumnsOPT, rpclRowStartOPT, hinf.precWidthPRJ, hinf.tileBoundsPrecPRJ,
        mem_strideSteps, horg.1, horg.2]
      have hj0 : s.y = it.tile.bounds.y0 ↔ j = 0 := by
        have hy : s.y = it.tile.bounds.y0 + j * (it.tile.axisY 0 s.resno).stride := hv.y_eq
        have hstride := (it.tile.axisY 0 s.resno).stride_pos
        rw [hy, Nat.add_eq_left, mul_eq_zero]
        omega
      have hx : s.x = (if j = 0 then it.tile.bounds.x0 else _) + _ := hv.x_eq
      simp only [hj0]
      exact ⟨by omega, hv.x_lt, k, by rw [Nat.mul_comm _ k]; omega⟩

theorem rpclIndex_eq {r j k x y : Nat} (hne : it.tile.NonEmpty 0 r)
    (hv : it.tile.RpclVisit r j k x y) :
    rpclIndexOPT (it.infoOPT r) x y = k + j * (it.tile.axisX 0 r).count := by
  have hinf := infoOPT_infoFor hit.uniform hne
  rw [rpclIndexOPT, hinf.precWidthExp, hinf.precHeightExp, hinf.resInPrecGridX0,
    hinf.resInPrecGridY0, (infoOPT_extent hit.uniform hne).1]
  congr 2
  · refine genPrecinct0GridRPCLOPT_eq (hit.dPRJ_x r) ?_ hv.x_lt
    rw [hv.x_eq]
    split
    · exact ceilDiv_edge_add _ k
    · exact ceilDiv_grid_add _ k
  · refine genPrecinct0GridRPCLOPT_eq (hit.dPRJ_y r) ?_ hv.y_lt
    rw [hv.y_eq]
    exact ceilDiv_edge_add _ j

end IsOpt

end Iter

namespace Tile

variable {T : Tile} {r j k j' k' x y x' y' : Nat}

theorem exists_rpclVisit (hj : j < (T.axisY 0 r).count) (hk : k < (T.axisX 0 r).count) :
    ∃ x y, T.RpclVisit r j k x y := by
  have hresX := lt_of_count_pos (Nat.lt_of_le_of_lt (zero_le k) hk)
  have hresY := lt_of_count_pos (Nat.lt_of_le_of_lt (zero_le j) hj)
  refine ⟨_, _, rfl, ?_, rfl, ?_⟩
  · exact edge_add_lt hresY hj
  · split
    · exact edge_add_lt hresX hk
    · rw [grid_add_lt_iff, ← lt_count_iff hresX]
      exact hk

theorem RpclVisit.lt_iff (h : T.RpclVisit r j k x y) (h' : T.RpclVisit r j' k' x' y') :
    (y < y' ∨ y = y' ∧ x < x') ↔ (j < j' ∨ j = j' ∧ k < k') := by
  have hsx := (T.axisX 0 r).stride_pos
  have hsy := (T.axisY 0 r).stride_pos
  have hylt : y < y' ↔ j < j' := by
    rw [h.y_eq, h'.y_eq, Nat.add_lt_add_iff_left, Nat.mul_lt_mul_right hsy]
  have hyeq : y = y' ↔ j = j' := by
    rw [h.y_eq, h'.y_eq, Nat.add_left_cancel_iff, Nat.mul_left_inj hsy.ne']
  rw [hylt, hyeq]
  refine or_congr_right (and_congr_right ?_)
  rintro rfl
  rw [h.x_eq, h'.x_eq, Nat.add_lt_add_iff_left, Nat.mul_lt_mul_right hsx]

/-- When the first precinct begins at the tile's edge, nothing else is visited. -/
theorem RpclVisit.lt_count (h : T.RpclVisit r j k x y) (hne : T.NonEmpty 0 r)
    (hx : (T.axisX 0 r).corner 0 = T.bounds.x0) (hy : (T.axisY 0 r).corner 0 = T.bounds.y0) :
    j < (T.axisY 0 r).count ∧ k < (T.axisX 0 r).count := by
  rw [lt_count_iff hne.1, lt_count_iff hne.2]
  refine ⟨?_, ?_⟩
  · rw [← edge_add_lt_iff hy, ← h.y_eq]
    exact h.y_lt
  · have hlt := h.x_lt
    rw [h.x_eq] at hlt
    split at hlt
    · exact (edge_add_lt_iff hx k).mp hlt
    · exact (grid_add_lt_iff k).mp hlt

/-- When the first column begins inside the tile, the first row is one visit too long. -/
theorem rpclVisit_extra_column (hne : T.NonEmpty 0 r)
    (hx : (T.axisX 0 r).corner 0 ≠ T.bounds.x0) :
    ∃ x y, T.RpclVisit r 0 (T.axisX 0 r).count x y := by
  refine ⟨_, _, rfl, ?_, rfl, ?_⟩
  · exact edge_add_lt hne.2 (count_pos_iff.mpr hne.2)
  · rw [if_pos rfl]
    exact edge_add_lt_of_ne hx hne.1

/-- When the first row begins inside the tile, there is one row too many. -/
theorem rpclVisit_extra_row (hne : T.NonEmpty 0 r)
    (hy : (T.axisY 0 r).corner 0 ≠ T.bounds.y0) :
    ∃ x y, T.RpclVisit r (T.axisY 0 r).count 0 x y := by
  refine ⟨_, _, rfl, edge_add_lt_of_ne hy hne.2, rfl, ?_⟩
  split
  · exact edge_add_lt hne.1 (count_pos_iff.mpr hne.1)
  · rw [grid_add_lt_iff, ← lt_count_iff hne.1]
    exact count_pos_iff.mpr hne.1

theorem exists_rpclVisit_index {i : Nat} (hi : i < T.numPrecincts 0 r) :
    ∃ j k x y, T.RpclVisit r j k x y ∧ k < (T.axisX 0 r).count ∧
      i = k + j * (T.axisX 0 r).count := by
  obtain ⟨hk, hj, hi⟩ := index_iff.mpr ⟨hi, rfl, rfl⟩
  obtain ⟨x, y, hv⟩ := exists_rpclVisit hj hk
  exact ⟨_, _, x, y, hv, hk, hi⟩

/-- What it takes for the two RPCL iterators to agree on resolution `r`: all components have as
many precincts there as the first one; if there are any, the first component's first precinct
begins at the tile's corner; and precinct `k` of a component comes between precincts `k` and
`k + 1` of every component before it. -/
structure RpclAgrees (T : Tile) (r : Nat) : Prop where
  counts : ∀ c < T.numcomps, T.storedPrecincts c r = T.storedPrecincts 0 r
  edge : 0 < T.storedPrecincts 0 r →
    (T.axisX 0 r).corner 0 = T.bounds.x0 ∧ (T.axisY 0 r).corner 0 = T.bounds.y0
  interleaved : ∀ c c', c < c' → c' < T.numcomps → ∀ k < T.storedPrecincts 0 r,
    ¬ T.Before ⟨c', r, k, 0⟩ ⟨c, r, k, 0⟩ ∧
      (k + 1 < T.storedPrecincts 0 r → T.Before ⟨c', r, k, 0⟩ ⟨c, r, k + 1, 0⟩)

theorem rpclKey_lt_of_before {p q : Packet} (hr : p.resno = q.resno) (h : T.Before p q) :
    T.rpclKey p < T.rpclKey q := by
  rcases h with h | ⟨h₁, h₂⟩ <;> simp [rpclKey, cons_lt_cons_iff, *]

theorem rpclKey_lt_of_compno {p q : Packet} (hr : p.resno = q.resno) (h : ¬ T.Before q p)
    (hc : p.compno < q.compno) : T.rpclKey p < T.rpclKey q := by
  by_cases hpq : T.Before p q
  · exact rpclKey_lt_of_before hr hpq
  · have hsame : T.precY p = T.precY q ∧ T.precX p = T.precX q := by
      unfold Before at h hpq
      omega
    simp [rpclKey, cons_lt_cons_iff, *]

theorem RpclAgrees.before (h : T.RpclAgrees r) {c c' l l' : Nat}
    (hc : c < T.numcomps) (hc' : c' < T.numcomps) (hk : k < k')
    (hk' : k' < T.storedPrecincts 0 r) :
    T.Before ⟨c, r, k, l⟩ ⟨c', r, k', l'⟩ := by
  have hn (c : Nat) (hc : c < T.numcomps) : k' < T.numPrecincts c r := by
    rw [← h.counts c hc] at hk'
    have hw := (storedPrecincts_pos_iff.mp (lt_of_le_of_lt (zero_le _) hk')).2
    rwa [storedPrecincts_eq, if_neg hw] at hk'
  rcases Nat.lt_trichotomy c c' with hlt | rfl | hlt
  · have h1 := (h.interleaved c c' hlt hc' k (hk.trans hk')).1
    have h2 : T.Before ⟨c', r, k, 0⟩ ⟨c', r, k', 0⟩ := before_of_lt hk (hn c' hc')
    change T.Before ⟨c, r, k, 0⟩ ⟨c', r, k', 0⟩
    unfold Before at *
    omega
  · exact before_of_lt hk (hn c hc)
  · have h1 := (h.interleaved c' c hlt hc k (hk.trans hk')).2 (by omega)
    change T.Before ⟨c, r, k, 0⟩ ⟨c', r, k', 0⟩
    rcases Nat.eq_or_lt_of_le (show k + 1 ≤ k' from hk) with rfl | hk1
    · exact h1
    · have h2 : T.Before ⟨c', r, k + 1, 0⟩ ⟨c', r, k', 0⟩ := before_of_lt hk1 (hn c' hc')
      unfold Before at *
      omega

end Tile

namespace Iter.IsOpt

variable {it : Iter} {order : ProgOrder} (hit : it.IsOpt order)
variable (hres : it.prog.res_e ≤ (it.tile.comps 0).numresolutions)

include hit hres

theorem rpclSlot_of_visit {r j k x y c l : Nat} (hr : r < it.prog.res_e)
    (hpos : 0 < it.tile.storedPrecincts 0 r) (hc : c < it.tile.numcomps)
    (hl : l < it.tile.numLayers) (hv : it.tile.RpclVisit r j k x y) :
    (⟨x, y, c, r, l⟩ : Slot) ∈ it.rpclSlots ∧
      it.rpclSlotPacket ⟨x, y, c, r, l⟩ = ⟨c, r, k + j * (it.tile.axisX 0 r).count, l⟩ := by
  refine ⟨(hit.mem_rpclSlots hres).mpr ⟨⟨hr, hpos, hc, hl⟩, j, k, hv⟩, ?_⟩
  rw [rpclSlotPacket, hit.rpclIndex_eq (storedPrecincts_pos_iff.mp hpos).1 hv]

section Necessary

variable (hmem : ∀ p, (p.resno < it.prog.res_e ∧ it.tile.Stored p) ↔
  ∃ s ∈ it.rpclSlots, it.rpclSlotPacket s = p)
variable (hord : ∀ s ∈ it.rpclSlots, ∀ s' ∈ it.rpclSlots, s.rpclKey < s'.rpclKey →
  it.tile.rpclKey (it.rpclSlotPacket s) < it.tile.rpclKey (it.rpclSlotPacket s'))
variable {r : Nat} (hr : r < it.prog.res_e)

include hmem hr

theorem stored_of_visit (hpos : 0 < it.tile.storedPrecincts 0 r) {c j k x y : Nat}
    (hc : c < it.tile.numcomps) (hv : it.tile.RpclVisit r j k x y) :
    k + j * (it.tile.axisX 0 r).count < it.tile.storedPrecincts c r := by
  obtain ⟨hs, hp⟩ := hit.rpclSlot_of_visit hres hr hpos hc it.tile.numLayers_range.1 hv
  exact ((hmem _).mpr ⟨_, hs, hp⟩).2.precinctIndex

theorem stored_zero_of_eq (hz : it.tile.storedPrecincts 0 r = 0) {c : Nat}
    (hc : c < it.tile.numcomps) : it.tile.storedPrecincts c r = 0 := by
  by_contra hne
  obtain ⟨s, hs, hp⟩ := (hmem ⟨c, r, 0, 0⟩).mp ⟨hr, hc, by
    rw [hit.uniform.numresolutions c hc]
    exact lt_of_lt_of_le hr hres, Nat.pos_of_ne_zero hne, it.tile.numLayers_range.1⟩
  obtain ⟨⟨-, hpos, -⟩, -⟩ := (hit.mem_rpclSlots hres).mp hs
  have hsr : s.resno = r := congrArg Packet.resno hp
  rw [hsr] at hpos
  omega

include hord

theorem edge_of_eq (hpos : 0 < it.tile.storedPrecincts 0 r) :
    (it.tile.axisX 0 r).corner 0 = it.tile.bounds.x0 ∧
      (it.tile.axisY 0 r).corner 0 = it.tile.bounds.y0 := by
  obtain ⟨hne, hw⟩ := storedPrecincts_pos_iff.mp hpos
  have h0 := it.tile.numcomps_range.1
  have hl := it.tile.numLayers_range.1
  have hn : it.tile.storedPrecincts 0 r =
      (it.tile.axisX 0 r).count * (it.tile.axisY 0 r).count := by
    rw [storedPrecincts_eq, if_neg hw, numPrecincts]
  constructor
  · by_contra hx
    -- the extra visit of the first row has the number of the first visit of the second row
    obtain ⟨x, y, hv⟩ := rpclVisit_extra_column hne hx
    have hlt := hit.stored_of_visit hres hmem hr hpos h0 hv
    have htwo : 1 < (it.tile.axisY 0 r).count := by
      by_contra hle
      have : (it.tile.axisY 0 r).count = 1 := by
        have := count_pos_iff.mpr hne.2
        omega
      rw [hn, this] at hlt
      omega
    obtain ⟨x', y', hv'⟩ := exists_rpclVisit htwo (count_pos_iff.mpr hne.1)
    obtain ⟨hs, hp⟩ := hit.rpclSlot_of_visit hres hr hpos h0 hl hv
    obtain ⟨hs', hp'⟩ := hit.rpclSlot_of_visit hres hr hpos h0 hl hv'
    have hkey := hord _ hs _ hs'
      (Slot.rpclKey_lt_of_pos rfl ((hv.lt_iff hv').mpr (.inl Nat.one_pos)))
    rw [hp, hp', Nat.zero_mul, Nat.one_mul, Nat.zero_add, Nat.add_zero] at hkey
    exact lt_irrefl _ hkey
  · by_contra hy
    obtain ⟨x, y, hv⟩ := rpclVisit_extra_row hne hy
    have hlt := hit.stored_of_visit hres hmem hr hpos h0 hv
    rw [hn, Nat.zero_add, Nat.mul_comm] at hlt
    exact lt_irrefl _ hlt

theorem counts_of_eq (hpos : 0 < it.tile.storedPrecincts 0 r) {c : Nat}
    (hc : c < it.tile.numcomps) :
    it.tile.storedPrecincts c r = it.tile.numPrecincts 0 r := by
  obtain ⟨hne, hw⟩ := storedPrecincts_pos_iff.mp hpos
  obtain ⟨hx, hy⟩ := hit.edge_of_eq hres hmem hord hr hpos
  refine eq_of_forall_lt_iff fun i => ⟨fun hi => ?_, fun hi => ?_⟩
  · obtain ⟨s, hs, hp⟩ := (hmem ⟨c, r, i, 0⟩).mp ⟨hr, hc, by
      rw [hit.uniform.numresolutions c hc]
      exact lt_of_lt_of_le hr hres, hi, it.tile.numLayers_range.1⟩
    obtain ⟨-, j, k, hv⟩ := (hit.mem_rpclSlots hres).mp hs
    have hsr : s.resno = r := congrArg Packet.resno hp
    have hsi : rpclIndexOPT (it.infoOPT s.resno) s.x s.y = i := congrArg Packet.precinctIndex hp
    rw [hsr] at hv hsi
    rw [← hsi, hit.rpclIndex_eq hne hv]
    obtain ⟨hj, hk⟩ := hv.lt_count hne hx hy
    exact (index_iff.mp ⟨hk, hj, rfl⟩).1
  · obtain ⟨j, k, x, y, hv, -, rfl⟩ := exists_rpclVisit_index hi
    exact hit.stored_of_visit hres hmem hr hpos hc hv

theorem rpclAgrees_of_eq : it.tile.RpclAgrees r := by
  rcases Nat.eq_zero_or_pos (it.tile.storedPrecincts 0 r) with hz | hpos
  · refine ⟨fun c hc => ?_, fun h => by omega, fun c c' _ _ k hk => by omega⟩
    rw [hz]
    exact hit.stored_zero_of_eq hres hmem hr hz hc
  · have h0 := hit.counts_of_eq hres hmem hord hr hpos it.tile.numcomps_range.1
    have hl := it.tile.numLayers_range.1
    refine ⟨fun c hc => (hit.counts_of_eq hres hmem hord hr hpos hc).trans h0.symm,
      hit.edge_of_eq hres hmem hord hr, fun c c' hcc hc' k hk => ?_⟩
    rw [h0] at hk ⊢
    obtain ⟨j, i, x, y, hv, hi, rfl⟩ := exists_rpclVisit_index hk
    obtain ⟨hs, hp⟩ := hit.rpclSlot_of_visit hres hr hpos (hcc.trans hc') hl hv
    obtain ⟨hs', hp'⟩ := hit.rpclSlot_of_visit hres hr hpos hc' hl hv
    constructor
    · have hkey := hord _ hs _ hs' (by simp [Slot.rpclKey, cons_lt_cons_iff, hcc])
      rw [hp, hp'] at hkey
      simp only [rpclKey, cons_lt_cons_iff] at hkey
      unfold Tile.Before
      omega
    · intro hk1
      obtain ⟨j', i', x', y', hv', hi', hidx⟩ := exists_rpclVisit_index hk1
      obtain ⟨hs₁, hp₁⟩ := hit.rpclSlot_of_visit hres hr hpos (hcc.trans hc') hl hv'
      have hlt := (hv.lt_iff hv').mpr ((index_lt_iff hi hi').mp (by omega))
      have hkey := hord _ hs' _ hs₁ (Slot.rpclKey_lt_of_pos rfl hlt)
      rw [hp', hp₁, ← hidx] at hkey
      simp only [rpclKey, cons_lt_cons_iff] at hkey
      unfold Tile.Before
      omega

end Necessary

section Sufficient

variable (hagree : ∀ r < it.prog.res_e, it.tile.RpclAgrees r)

include hagree

theorem slotPacket_of_agrees {s : Slot} (hs : s ∈ it.rpclSlots) :
    ∃ j k, it.tile.RpclVisit s.resno j k s.x s.y ∧ k < (it.tile.axisX 0 s.resno).count ∧
      k + j * (it.tile.axisX 0 s.resno).count < it.tile.storedPrecincts 0 s.resno ∧
      it.rpclSlotPacket s =
        ⟨s.compno, s.resno, k + j * (it.tile.axisX 0 s.resno).count, s.layno⟩ := by
  obtain ⟨⟨hr, hpos, -⟩, j, k, hv⟩ := (hit.mem_rpclSlots hres).mp hs
  obtain ⟨hne, hw⟩ := storedPrecincts_pos_iff.mp hpos
  obtain ⟨hx, hy⟩ := (hagree _ hr).edge hpos
  obtain ⟨hj, hk⟩ := hv.lt_count hne hx hy
  refine ⟨j, k, hv, hk, ?_, by rw [rpclSlotPacket, hit.rpclIndex_eq hne hv]⟩
  rw [storedPrecincts_eq, if_neg hw]
  exact (index_iff.mp ⟨hk, hj, rfl⟩).1

theorem members_of_agrees (p : Packet) :
    (p.resno < it.prog.res_e ∧ it.tile.Stored p) ↔
      ∃ s ∈ it.rpclSlots, it.rpclSlotPacket s = p := by
  constructor
  · rintro ⟨hr, hp⟩
    have hidx := hp.precinctIndex
    rw [(hagree _ hr).counts _ hp.compno] at hidx
    have hpos := lt_of_le_of_lt (zero_le _) hidx
    obtain ⟨-, hw⟩ := storedPrecincts_pos_iff.mp hpos
    rw [storedPrecincts_eq, if_neg hw] at hidx
    obtain ⟨j, k, x, y, hv, -, hi⟩ := exists_rpclVisit_index hidx
    obtain ⟨hs, hf⟩ := hit.rpclSlot_of_visit hres hr hpos hp.compno hp.layno hv
    exact ⟨_, hs, by rw [hf, ← hi]⟩
  · rintro ⟨s, hs, rfl⟩
    obtain ⟨⟨hr, -, hc, hl⟩, -⟩ := (hit.mem_rpclSlots hres).mp hs
    obtain ⟨j, k, -, -, hlt, hf⟩ := hit.slotPacket_of_agrees hres hagree hs
    rw [hf]
    refine ⟨hr, hc, ?_, ?_, hl⟩
    · rw [hit.uniform.numresolutions _ hc]
      exact lt_of_lt_of_le hr hres
    · rw [(hagree _ hr).counts _ hc]
      exact hlt

theorem order_of_agrees {s s' : Slot} (hs : s ∈ it.rpclSlots) (hs' : s' ∈ it.rpclSlots)
    (hlt : s.rpclKey < s'.rpclKey) :
    it.tile.rpclKey (it.rpclSlotPacket s) < it.tile.rpclKey (it.rpclSlotPacket s') := by
  obtain ⟨⟨hr, hpos, hc, hl⟩, -⟩ := (hit.mem_rpclSlots hres).mp hs
  obtain ⟨⟨-, -, hc', -⟩, -⟩ := (hit.mem_rpclSlots hres).mp hs'
  obtain ⟨j, k, hv, hk, hi, hf⟩ := hit.slotPacket_of_agrees hres hagree hs
  obtain ⟨j', k', hv', hk', hi', hf'⟩ := hit.slotPacket_of_agrees hres hagree hs'
  rw [hf, hf']
  obtain ⟨x, y, c, r, l⟩ := s
  obtain ⟨x', y', c', r', l'⟩ := s'
  simp only [Slot.rpclKey, cons_lt_cons_iff, not_lt_nil, and_false, or_false] at hlt
  by_cases hrr : r = r'
  swap
  · rw [rpclKey, rpclKey, cons_lt_cons_iff]
    exact .inl (by omega : r < r')
  subst hrr
  by_cases hpos : y < y' ∨ y = y' ∧ x < x'
  · -- a later position has a later precinct number
    have hidx := (index_lt_iff hk hk').mpr ((hv.lt_iff hv').mp hpos)
    exact rpclKey_lt_of_before rfl ((hagree r hr).before hc hc' hidx hi')
  · -- the same precinct number: components in order, then layers
    have hpos' : ¬ (y' < y ∨ y' = y ∧ x' < x) := by omega
    have hj : j = j' ∧ k = k' := by
      have h1 := mt (hv.lt_iff hv').mpr hpos
      have h2 := mt (hv'.lt_iff hv).mpr hpos'
      omega
    obtain ⟨rfl, rfl⟩ := hj
    by_cases hcc : c = c'
    · subst hcc
      have hll : l < l' := by omega
      change it.tile.rpclKey ⟨c, r, _, l⟩ < it.tile.rpclKey ⟨c, r, _, l'⟩
      exact lt_of_prefix_lt [_, _, _, _] [] [] hll
    · have hlt' : c < c' := by omega
      exact rpclKey_lt_of_compno rfl ((hagree r hr).interleaved c c' hlt' hc' _ hi).1 hlt'

end Sufficient

/-- The two lists of packets are the same exactly when the iterators agree on every resolution. -/
theorem rpclPackets_eq_iff :
    ({ it with opt := false } : Iter).rpclPackets = it.rpclPacketsOPT ↔
      ∀ r < it.prog.res_e, it.tile.RpclAgrees r := by
  have hgen : ({ it with opt := false } : Iter).IsGeneric order := ⟨rfl, hit.prog⟩
  have hmem (p : Packet) : p ∈ ({ it with opt := false } : Iter).rpclPackets ↔
      p.resno < it.prog.res_e ∧ it.tile.Stored p := by
    rw [← hit.uniform.pow2Sampled.found_iff]
    simp only [rpclPackets, mem_flatMap, hgen.mem_rpclRes]
    constructor
    · rintro ⟨r, hr, rfl, hf⟩
      exact ⟨hgen.mem_resRange.mp hr, hf⟩
    · rintro ⟨hr, hf⟩
      exact ⟨_, hgen.mem_resRange.mpr hr, rfl, hf⟩
  rw [rpclPacketsOPT_eq_map, hgen.rpcl_sorted.eq_map_iff it.rpclSlots_sorted]
  simp only [hmem]
  constructor
  · rintro ⟨hm, hord⟩ r hr
    exact hit.rpclAgrees_of_eq hres hm hord hr
  · intro h
    exact ⟨hit.members_of_agrees hres h, fun s hs s' hs' => hit.order_of_agrees hres h hs hs'⟩

omit hres in
theorem infoOPT_stride_pos {r : Nat} (hv : (it.infoOPT r).valid = true) :
    0 < (it.infoOPT r).precWidthPRJ ∧ 0 < (it.infoOPT r).precHeightPRJ := by
  rw [infoOPT_valid hit.uniform, decide_eq_true_eq] at hv
  have hinf := infoOPT_infoFor hit.uniform hv
  rw [hinf.precWidthPRJ, hinf.precHeightPRJ]
  exact ⟨stride_pos, stride_pos⟩

end Iter.IsOpt

theorem Iter.IsOpt.rpcl_enumerates {it : Iter} (hit : it.IsOpt .rpcl) (lengths : List Nat)
    (bytes : Nat) : Enumerates it.next State.packet (it.start lengths bytes) it.rpclPacketsOPT := by
  have hspec := Iter.nextRpclOPT_spec hit.whole hit.single fun r => hit.infoOPT_stride_pos
  obtain ⟨t, he, -⟩ := hspec [] _ (.inl hit.single) (Iter.start_at hit.prog lengths bytes)
  have hnext (s : State) : it.next s = it.nextRpclOPT s := by
    have horder : it.prog.progression = .rpcl := by rw [hit.prog]; rfl
    simp [Iter.next, hit.opt, horder]
  exact (he.congr (hnext _) fun s _ => hnext s).enumerates

/-- The iterator with the shared table and the one without it hand out the same packets in the
same order. -/
def Iter.PathsAgree (it : Iter) (lengths : List Nat) (bytes : Nat) : Prop :=
  ∃ ps, Enumerates it.next State.packet (it.start lengths bytes) ps ∧
    Enumerates ({ it with opt := false } : Iter).next State.packet
      (({ it with opt := false } : Iter).start lengths bytes) ps

theorem Iter.pathsAgree_iff {it : Iter} {lengths : List Nat} {bytes : Nat} {ps qs : List Packet}
    (hps : Enumerates it.next State.packet (it.start lengths bytes) ps)
    (hqs : Enumerates ({ it with opt := false } : Iter).next State.packet
      (({ it with opt := false } : Iter).start lengths bytes) qs) :
    it.PathsAgree lengths bytes ↔ qs = ps := by
  constructor
  · rintro ⟨rs, h1, h2⟩
    exact (hqs.unique h2).trans (h1.unique hps)
  · rintro rfl
    exact ⟨qs, hps, hqs⟩

theorem Tile.Uniform.maxRes_le {T : Tile} (hT : T.Uniform) :
    T.maxRes ≤ (T.comps 0).numresolutions := by
  have key (l : List Nat) (m : Nat) (hm : m ≤ (T.comps 0).numresolutions)
      (hl : ∀ c ∈ l, c < T.numcomps) :
      l.foldl (fun m c => max m (T.comps c).numresolutions) m ≤ (T.comps 0).numresolutions := by
    induction l generalizing m with
    | nil => exact hm
    | cons a l ih =>
      refine ih _ ?_ fun c hc => hl c (mem_cons_of_mem _ hc)
      exact max_le hm (hT.numresolutions a (hl a mem_cons_self)).le
  exact key _ 0 (zero_le _) fun c hc => mem_range.mp hc

/-- Decoding a whole tile for which the optimised path was selected, the two RPCL iterators
hand out the same sequence exactly when they agree on every resolution to be decoded. -/
theorem rpcl_paths_agree_iff (T : Tile) (compression singleProgression plt : Bool) (w : Rect)
    (maxNumDecompositionResolutions layersToDecompress : Nat) (lengths : List Nat) (bytes : Nat)
    (hopt : acceptsOPT T .rpcl compression singleProgression = true) :
    (Iter.init T .rpcl compression singleProgression true plt w maxNumDecompositionResolutions
      layersToDecompress).PathsAgree lengths bytes ↔
      ∀ r < min T.maxRes maxNumDecompositionResolutions, T.RpclAgrees r := by
  obtain ⟨hT, rfl, rfl⟩ := uniform_of_acceptsOPT hopt
  have hit : (Iter.init T .rpcl false true true plt w maxNumDecompositionResolutions
      layersToDecompress).IsOpt .rpcl := ⟨hT, rfl, rfl, hopt, rfl⟩
  have hres := (Nat.min_le_left T.maxRes maxNumDecompositionResolutions).trans hT.maxRes_le
  have hgen : ({ Iter.init T .rpcl false true true plt w maxNumDecompositionResolutions
      layersToDecompress with opt := false } : Iter).IsGeneric .rpcl := ⟨rfl, hit.prog⟩
  rw [Iter.pathsAgree_iff (hit.rpcl_enumerates lengths bytes) (hgen.rpcl_enumerates lengths bytes)]
  exact hit.rpclPackets_eq_iff hres

/-- A component with two resolutions and precincts of one sample below, two by two above. -/
def Component.fine : Component := .part1 1 2 0 0 unit_range two_res zero_exp zero_exp

/-- A column of three samples that starts at an odd row. -/
def oddColumn : Tile where
  bounds := ⟨0, 1, 1, 4⟩
  numcomps := 1
  comps := fun _ => .fine
  numLayers := 1
  x_le := by decide
  y_le := by decide
  x1_le := by decide
  y1_le := by decide
  numcomps_range := one_comp
  numLayers_range := one_layer

/-- The lower resolution has one precinct, at row 2; the fast path finds two, at rows 1 and 3. -/
theorem oddColumn_paths_differ :
    acceptsOPT oddColumn .rpcl false true = true ∧
      ¬ (Iter.init oddColumn .rpcl false true true false oddColumn.bounds 2 1).PathsAgree [] 0 := by
  let it := Iter.init oddColumn .rpcl false true true false oddColumn.bounds 2 1
  have hfast : Enumerates it.next State.packet (it.start [] 0)
      [⟨0, 0, 0, 0⟩, ⟨0, 0, 1, 0⟩, ⟨0, 1, 0, 0⟩, ⟨0, 1, 1, 0⟩] :=
    enumerate_sound (n := 5) (by decide +kernel)
  have hgeneric : Enumerates ({ it with opt := false } : Iter).next State.packet
      (({ it with opt := false } : Iter).start [] 0)
      [⟨0, 0, 0, 0⟩, ⟨0, 1, 0, 0⟩, ⟨0, 1, 1, 0⟩] :=
    enumerate_sound (n := 4) (by decide +kernel)
  refine ⟨by decide +kernel, ?_⟩
  rw [Iter.pathsAgree_iff hfast hgeneric]
  decide

theorem alikeRow_paths_agree :
    (Iter.init alikeRow .rpcl false true true false alikeRow.bounds 1 1).PathsAgree [] 0 := by
  refine (rpcl_paths_agree_iff alikeRow false true false alikeRow.bounds 1 1 [] 0
    (by decide +kernel)).mpr fun r hr => ?_
  obtain rfl : r = 0 := by
    omega
  refine ⟨by decide +kernel, fun _ => by decide +kernel, fun c c' hc hc' => ?_⟩
  have : c' < 2 := hc'
  obtain ⟨rfl, rfl⟩ : c = 0 ∧ c' = 1 := by omega
  decide +kernel

end GrokCodec.PacketIter
