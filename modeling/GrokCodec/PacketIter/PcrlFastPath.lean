import GrokCodec.PacketIter.RpclFastPath

/-!
`next_pcrlOPT` against `next_pcrl` and `next_cprlOPT` against `next_cprl`. The fast paths look
for the precinct corners of the first component and number what they find with each component's
own row length.
-/

namespace GrokCodec.PacketIter

open Resumable Ordered List Axis Tile Iter Nat MixedRadix

/-- What the acceptance test adds for PCRL and CPRL: the tile starts at the origin, and no
precinct of the first component is smaller on the reference grid than those of its highest
resolution. -/
structure Tile.Nested (T : Tile) : Prop where
  x0 : T.bounds.x0 = 0
  y0 : T.bounds.y0 = 0
  strideX : ∀ r < (T.comps 0).numresolutions,
    (T.axisX 0 ((T.comps 0).numresolutions - 1)).stride ∣ (T.axisX 0 r).stride
  strideY : ∀ r < (T.comps 0).numresolutions,
    (T.axisY 0 ((T.comps 0).numresolutions - 1)).stride ∣ (T.axisY 0 r).stride

theorem Tile.Uniform.axisX_stride_eq {T : Tile} (hT : T.Uniform) (r : Nat) :
    (T.axisX 0 r).stride = 2 ^ ((T.comps 0).precWidthExp r + (T.comps 0).levelsDone r) := by
  have h0 := T.numcomps_range.1
  rw [axisX_stride, Component.strideX, hT.dx 0 h0, hT.depthX_eq h0, one_mul]

theorem Tile.Uniform.axisY_stride_eq {T : Tile} (hT : T.Uniform) (r : Nat) :
    (T.axisY 0 r).stride = 2 ^ ((T.comps 0).precHeightExp r + (T.comps 0).levelsDone r) := by
  have h0 := T.numcomps_range.1
  rw [axisY_stride, Component.strideY, hT.dy 0 h0, hT.depthY_eq h0, one_mul]

theorem nested_of_acceptsOPT {T : Tile} {compression single : Bool}
    (h : acceptsOPT T .pcrl compression single = true) : T.Nested := by
  obtain ⟨hT, -, -⟩ := uniform_of_acceptsOPT h
  simp only [acceptsOPT, Bool.and_eq_true, all_eq_true, mem_range, beq_iff_eq,
    decide_eq_true_eq] at h
  obtain ⟨-, ⟨hx0, hy0⟩, hexp⟩ := h
  have hlast : (T.comps 0).levelsDone ((T.comps 0).numresolutions - 1) = 0 := Nat.sub_self _
  refine ⟨hx0, hy0, fun r hr => ?_, fun r hr => ?_⟩
  all_goals
    simp only [hT.axisX_stride_eq, hT.axisY_stride_eq, hlast]
    refine pow_dvd_pow 2 ?_
    rcases lt_or_ge r ((T.comps 0).numresolutions - 1) with hlt | hge
    · first | exact (hexp r hlt).1 | exact (hexp r hlt).2
    · rw [show r = (T.comps 0).numresolutions - 1 by omega]
      omega

namespace Axis

variable {a : Axis} (h : a.t0 = 0)

include h

theorem res0_of_origin : a.res0 = 0 := by
  rw [res0, h, zero_ceilDiv]

theorem grid0_of_origin : a.grid0 = 0 := by
  rw [grid0, res0_of_origin h, Nat.zero_div]

theorem corner_of_origin (k : Nat) : a.corner k = k * a.stride := by
  rw [corner, grid0_of_origin h, h, Nat.zero_add, zero_max]

theorem res_lt_iff_of_origin : a.res0 < a.res1 ↔ 0 < a.t1 := by
  rw [res0_of_origin h, lt_res1_iff, mul_zero]

theorem count_of_origin : a.count = a.grid1 := by
  rw [count, grid0_of_origin h, Nat.sub_zero]
  split
  · rfl
  case isFalse hres =>
    rw [res_lt_iff_of_origin h] at hres
    have : ¬ 0 < a.grid1 := by
      rw [lt_grid1_iff, Nat.zero_mul]
      exact hres
    omega

theorem lt_count_iff_of_origin {k : Nat} : k < a.count ↔ k * a.stride < a.t1 := by
  rw [count_of_origin h, lt_grid1_iff]

/-- What `genPrecinct0GridPCRLOPT` computes inside a tile at the origin. -/
theorem genPrecinct0GridPCRLOPT_eq_some_iff {l q k : Nat} (hl : a.dPRJ = 2 ^ l)
    (hq : a.stride ∣ q → q < 2 ^ 32) :
    genPrecinct0GridPCRLOPT q a.stride l a.precExp a.grid0 = some k ↔ q = k * a.stride := by
  have hpow := Nat.two_pow_pos a.precExp
  have hstride : a.stride = 2 ^ (l + a.precExp) := by rw [stride, hl, Nat.pow_add]
  have hmod : q &&& (a.stride - 1) = q % a.stride := by
    rw [hstride, and_two_pow_sub_one_eq_mod]
  rw [genPrecinct0GridPCRLOPT, ceildivpow2_eq, ← hl, shiftRight_eq_div_pow,
    grid0_of_origin h, hmod]
  have hmul (m : Nat) : m * a.stride ⌈/⌉ a.dPRJ / 2 ^ a.precExp = m := by
    rw [stride, Nat.mul_left_comm, mul_ceilDiv_cancel a.dPRJ_pos, Nat.mul_div_cancel _ hpow]
  split
  case isTrue hd =>
    have hceil := lt_of_le_of_lt (ceilDiv_le_self a.dPRJ_pos) (hq (dvd_of_mod_eq_zero hd))
    obtain ⟨m, rfl⟩ := dvd_of_mod_eq_zero hd
    rw [u32_of_lt hceil, sub32_of_le (Nat.zero_le _) (lt_of_le_of_lt (Nat.div_le_self _ _) hceil),
      Nat.sub_zero, Nat.mul_comm a.stride m, hmul, Option.some.injEq, Nat.mul_left_inj stride_pos.ne']
  case isFalse hd =>
    simp only [reduceCtorEq, false_iff]
    rintro rfl
    exact hd (mul_mod_left _ _)

end Axis

/-- A precinct of the first component, taken for one of component `compno`. -/
structure Visit where
  compno : Nat
  resno : Nat
  col : Nat
  row : Nat

variable {v : Visit}

namespace Tile

variable (T : Tile)

/-- The visits of the two fast paths. -/
structure Visits (v : Visit) : Prop where
  compno : v.compno < T.numcomps
  resno : v.resno < (T.comps 0).numresolutions
  col : v.col < (T.axisX 0 v.resno).count
  row : v.row < (T.axisY 0 v.resno).count

/-- The packet of layer `l` a visit hands out: numbered with the component's own row length. -/
def visitPacket (v : Visit) (l : Nat) : Packet :=
  ⟨v.compno, v.resno,
    v.col + v.row * (T.comps v.compno).precinctGridWidth T.bounds v.resno, l⟩

/-- Where a visit takes place. -/
def visitX (v : Visit) : Nat := (T.axisX 0 v.resno).corner v.col

def visitY (v : Visit) : Nat := (T.axisY 0 v.resno).corner v.row

def visitSlot (v : Visit) (l : Nat) : Slot := ⟨T.visitX v, T.visitY v, v.compno, v.resno, l⟩

variable {T}

theorem Nested.nonEmpty_iff (hN : T.Nested) (c r : Nat) :
    T.NonEmpty c r ↔ 0 < T.bounds.x1 ∧ 0 < T.bounds.y1 := by
  unfold NonEmpty
  rw [res_lt_iff_of_origin hN.x0, res_lt_iff_of_origin hN.y0]
  rfl

theorem Nested.visit_position (hN : T.Nested) (hv : T.Visits v) :
    T.visitX v = v.col * (T.axisX 0 v.resno).stride ∧
      T.visitY v = v.row * (T.axisY 0 v.resno).stride ∧
      T.visitX v < T.bounds.x1 ∧ T.visitY v < T.bounds.y1 :=
  ⟨corner_of_origin hN.x0 _, corner_of_origin hN.y0 _, corner_lt hv.col,
    corner_lt hv.row⟩

end Tile

namespace Iter

variable {it : Iter} {order : ProgOrder}

def slotCell (it : Iter) (c r x y : Nat) : List Slot :=
  if (it.slotOPT r x y).isSome then it.layerSlots c r x y else []

def slotPacket (it : Iter) (s : Slot) : Packet :=
  let q := (it.slotOPT s.resno s.x s.y).getD (0, 0)
  ⟨s.compno, s.resno, q.1 + q.2 * it.gridWidth s.compno s.resno, s.layno⟩

theorem cellOPT_eq_map (it : Iter) (c r x y : Nat) :
    it.cellOPT c r x y = (it.slotCell c r x y).map it.slotPacket := by
  unfold cellOPT slotCell
  cases hq : it.slotOPT r x y with
  | none => rfl
  | some q =>
    simp only [Option.isSome_some, if_true, layerSlots, map_map, layerPackets]
    refine map_congr_left fun l _ => ?_
    simp [slotPacket, hq]

/-- The visits of `next_pcrlOPT`, in order. -/
def pcrlSlots (it : Iter) : List Slot :=
  it.rowsOPT.flatMap fun y => it.columnsOPT.flatMap fun x =>
    it.compRange.flatMap fun c => it.resRange.flatMap fun r => it.slotCell c r x y

/-- The visits of `next_cprlOPT`, in order. -/
def cprlSlots (it : Iter) : List Slot :=
  it.compRange.flatMap fun c => it.rowsOPT.flatMap fun y => it.columnsOPT.flatMap fun x =>
    it.resRange.flatMap fun r => it.slotCell c r x y

theorem pcrlPacketsOPT_eq_map (it : Iter) :
    it.pcrlPacketsOPT = it.pcrlSlots.map it.slotPacket := by
  simp only [pcrlPacketsOPT, pcrlSlots, map_flatMap, cellOPT_eq_map]

theorem cprlPacketsOPT_eq_map (it : Iter) :
    it.cprlPacketsOPT = it.cprlSlots.map it.slotPacket := by
  simp only [cprlPacketsOPT, cprlSlots, map_flatMap, cellOPT_eq_map]

theorem mem_slotCell {c r x y : Nat} {s : Slot} (hs : s ∈ it.slotCell c r x y) :
    (it.slotOPT r x y).isSome ∧ s ∈ it.layerSlots c r x y := by
  unfold slotCell at hs
  split at hs
  case isTrue h => exact ⟨h, hs⟩
  case isFalse => cases hs

theorem slotCell_under {key : Slot → List Nat} {pre : List Nat} {c r x y : Nat}
    (hkey : ∀ l, key ⟨x, y, c, r, l⟩ = pre ++ [l]) : SortedUnder key pre (it.slotCell c r x y) := by
  unfold slotCell
  split
  · exact .map pairwise_lt_range' hkey
  · exact .nil

end Iter

/-- A spatial order: how a position, a component and a resolution are turned into a key. -/
structure SpatialOrder where
  key : Nat → Nat → Nat → Nat → List Nat
  length_key : ∀ y x c r y' x' c' r', (key y x c r).length = (key y' x' c' r').length
  key_inj : ∀ {y x c r y' x' c' r'}, key y x c r = key y' x' c' r' →
    y = y' ∧ x = x' ∧ c = c' ∧ r = r'

/-- PCRL: row, column, component, resolution. -/
def SpatialOrder.pcrl : SpatialOrder where
  key := fun y x c r => [y, x, c, r]
  length_key := fun _ _ _ _ _ _ _ _ => rfl
  key_inj := fun h => by simpa using h

/-- CPRL: component, row, column, resolution. -/
def SpatialOrder.cprl : SpatialOrder where
  key := fun y x c r => [c, y, x, r]
  length_key := fun _ _ _ _ _ _ _ _ => rfl
  key_inj := fun h => by grind

namespace SpatialOrder

variable (o : SpatialOrder)

def ofSlot (s : Slot) : List Nat := o.key s.y s.x s.compno s.resno ++ [s.layno]

def ofPacket (T : Tile) (p : Packet) : List Nat :=
  o.key (T.precY p) (T.precX p) p.compno p.resno ++ [p.layno]

end SpatialOrder

namespace Iter

theorem pcrlSlots_sorted (it : Iter) : KeySorted SpatialOrder.pcrl.ofSlot it.pcrlSlots :=
  SortedUnder.sorted (.flatMap (strideSteps_sorted _ _ _) fun _ _ =>
    .flatMap (strideSteps_sorted _ _ _) fun _ _ => .flatMap pairwise_lt_range' fun _ _ =>
      .flatMap pairwise_lt_range' fun _ _ => slotCell_under fun _ => rfl)

theorem cprlSlots_sorted (it : Iter) : KeySorted SpatialOrder.cprl.ofSlot it.cprlSlots :=
  SortedUnder.sorted (.flatMap pairwise_lt_range' fun _ _ => .flatMap (strideSteps_sorted _ _ _)
    fun _ _ => .flatMap (strideSteps_sorted _ _ _) fun _ _ => .flatMap pairwise_lt_range' fun _ _ =>
      slotCell_under fun _ => rfl)

end Iter

/-- A multiple of one stride inside the grid of a finer one is inside the tile. -/
theorem Axis.lt_t1_of_dvd {a b : Axis} (hd : a.stride ∣ b.stride) (h1 : a.t1 = b.t1) {q : Nat}
    (hq : b.stride ∣ q) (hlt : q < a.grid1 * a.stride) : q < b.t1 := by
  obtain ⟨m, rfl⟩ := hd.trans hq
  rw [Nat.mul_comm, Nat.mul_lt_mul_right stride_pos, lt_grid1_iff] at hlt
  rw [← h1, Nat.mul_comm]
  exact hlt

theorem Axis.t1_le_grid1_mul (a : Axis) : a.t1 ≤ a.grid1 * a.stride := by
  by_contra h
  have := lt_grid1_iff.mpr (by omega : a.grid1 * a.stride < a.t1)
  omega

theorem Axis.mem_steps_iff {a b : Axis} (hab : a.stride ∣ b.stride) (h1 : a.t1 = b.t1) {d q : Nat}
    (hq : b.stride ∣ q) (hd : b.stride < b.t1 → d ∣ b.stride) :
    q ∈ strideSteps d (a.grid1 * a.stride) 0 ↔ q < b.t1 := by
  rw [mem_strideSteps, Nat.sub_zero]
  constructor
  · rintro ⟨-, hlt, -⟩
    exact lt_t1_of_dvd hab h1 hq hlt
  · intro hlt
    refine ⟨Nat.zero_le _, lt_of_lt_of_le (h1 ▸ hlt) a.t1_le_grid1_mul, ?_⟩
    rcases Nat.eq_zero_or_pos q with rfl | hpos
    · exact dvd_zero _
    · have hle := le_of_dvd hpos hq
      exact (hd (by omega)).trans hq

namespace Iter.IsOpt

variable {it : Iter} {order : ProgOrder} (hit : it.IsOpt order) (hN : it.tile.Nested)
variable (hres : it.prog.res_e = (it.tile.comps 0).numresolutions)

include hit hN

theorem slotOPT_eq_some_iff {r x y px py : Nat}
    (hx : (it.tile.axisX 0 r).stride ∣ x → x < 2 ^ 32)
    (hy : (it.tile.axisY 0 r).stride ∣ y → y < 2 ^ 32) :
    it.slotOPT r x y = some (px, py) ↔ it.tile.NonEmpty 0 r ∧
      x = px * (it.tile.axisX 0 r).stride ∧ y = py * (it.tile.axisY 0 r).stride := by
  unfold slotOPT
  dsimp only
  rw [infoOPT_valid hit.uniform]
  by_cases hne : it.tile.NonEmpty 0 r
  · have hinf := infoOPT_infoFor hit.uniform hne
    rw [if_pos (by simpa using hne), hinf.precWidthPRJ, hinf.precHeightPRJ, hinf.precWidthExp,
      hinf.precHeightExp, hinf.resInPrecGridX0, hinf.resInPrecGridY0]
    rw [← genPrecinct0GridPCRLOPT_eq_some_iff (a := it.tile.axisX 0 r) hN.x0 (hit.dPRJ_x r) hx,
      ← genPrecinct0GridPCRLOPT_eq_some_iff (a := it.tile.axisY 0 r) hN.y0 (hit.dPRJ_y r) hy]
    simp only [hne, true_and]
    generalize genPrecinct0GridPCRLOPT y _ _ _ _ = rowFound
    generalize genPrecinct0GridPCRLOPT x _ _ _ _ = columnFound
    cases rowFound <;> cases columnFound <;> simp
  · simp [hne]

include hres

theorem columnsOPT_eq (hne : it.tile.NonEmpty 0 ((it.tile.comps 0).numresolutions - 1)) :
    let last := (it.tile.comps 0).numresolutions - 1
    it.columnsOPT = strideSteps it.tile.updateDx
        ((it.tile.axisX 0 last).grid1 * (it.tile.axisX 0 last).stride) 0 ∧
      it.rowsOPT = strideSteps it.tile.updateDy
        ((it.tile.axisY 0 last).grid1 * (it.tile.axisY 0 last).stride) 0 := by
  have hinf := infoOPT_infoFor hit.uniform hne
  have hx0 : it.prog.tx0 = 0 := by rw [hit.prog]; exact hN.x0
  have hy0 : it.prog.ty0 = 0 := by rw [hit.prog]; exact hN.y0
  rw [columnsOPT, rowsOPT, hres, hinf.tileBoundsPrecPRJ, hx0, hy0]
  exact ⟨rfl, rfl⟩

theorem mem_columnsOPT {r x : Nat} (hr : r < (it.tile.comps 0).numresolutions)
    (hne : it.tile.NonEmpty 0 ((it.tile.comps 0).numresolutions - 1))
    (hd : (it.tile.axisX 0 r).stride ∣ x) : x ∈ it.columnsOPT ↔ x < it.tile.bounds.x1 := by
  rw [(columnsOPT_eq hit hN hres hne).1]
  refine mem_steps_iff (hN.strideX r hr) rfl hd fun hle => ?_
  rw [axisX_stride] at hle ⊢
  exact it.tile.updateDx_dvd hit.uniform.pow2Sampled it.tile.numcomps_range.1 hr
    (hle.trans_le it.tile.x1_le)

theorem mem_rowsOPT {r y : Nat} (hr : r < (it.tile.comps 0).numresolutions)
    (hne : it.tile.NonEmpty 0 ((it.tile.comps 0).numresolutions - 1))
    (hd : (it.tile.axisY 0 r).stride ∣ y) : y ∈ it.rowsOPT ↔ y < it.tile.bounds.y1 := by
  rw [(columnsOPT_eq hit hN hres hne).2]
  refine mem_steps_iff (hN.strideY r hr) rfl hd fun hle => ?_
  rw [axisY_stride] at hle ⊢
  exact it.tile.updateDy_dvd hit.uniform.pow2Sampled it.tile.numcomps_range.1 hr
    (hle.trans_le it.tile.y1_le)

omit hres in
theorem slotOPT_visit (hv : it.tile.Visits v) :
    it.slotOPT v.resno (it.tile.visitX v) (it.tile.visitY v) = some (v.col, v.row) := by
  obtain ⟨hX, hY, hxlt, hylt⟩ := hN.visit_position hv
  refine (hit.slotOPT_eq_some_iff hN (fun _ => hxlt.trans (it.tile.axisX 0 0).t1_lt)
    (fun _ => hylt.trans (it.tile.axisY 0 0).t1_lt)).mpr ⟨?_, hX, hY⟩
  rw [hN.nonEmpty_iff]
  omega

omit hres in
theorem slotPacket_visit (hv : it.tile.Visits v) (l : Nat) :
    it.slotPacket (it.tile.visitSlot v l) = it.tile.visitPacket v l := by
  unfold slotPacket visitSlot
  rw [hit.slotOPT_visit hN hv]
  rfl

/-- Whatever the nesting of the four loops, they go through the visits. -/
theorem mem_sweepOPT (hne : 0 < it.tile.bounds.x1 ∧ 0 < it.tile.bounds.y1) {s : Slot} :
    (∃ y ∈ it.rowsOPT, ∃ x ∈ it.columnsOPT, ∃ c ∈ it.compRange, ∃ r ∈ it.resRange,
      s ∈ it.slotCell c r x y) ↔
      ∃ v l, it.tile.Visits v ∧ l < it.tile.numLayers ∧ s = it.tile.visitSlot v l := by
  have hlay : it.prog.lay_s = 0 ∧ it.prog.lay_e = it.tile.numLayers := by
    rw [hit.prog]; exact ⟨rfl, rfl⟩
  have hx1 := (it.tile.axisX 0 0).t1_lt
  have hy1 := (it.tile.axisY 0 0).t1_lt
  have hne' (r : Nat) := (hN.nonEmpty_iff 0 r).mpr hne
  constructor
  · rintro ⟨y, hy, x, hx, c, hc, r, hr, hs⟩
    obtain ⟨hsome, hs⟩ := mem_slotCell hs
    obtain ⟨⟨rfl, rfl, rfl, rfl⟩, hl⟩ := mem_layerSlots.mp hs
    have hr := hres ▸ hit.mem_resRange.mp hr
    obtain ⟨⟨px, py⟩, hq⟩ := Option.isSome_iff_exists.mp hsome
    have hxlt (hd : (it.tile.axisX 0 s.resno).stride ∣ s.x) : s.x < it.tile.bounds.x1 :=
      (hit.mem_columnsOPT hN hres hr (hne' _) hd).mp hx
    have hylt (hd : (it.tile.axisY 0 s.resno).stride ∣ s.y) : s.y < it.tile.bounds.y1 :=
      (hit.mem_rowsOPT hN hres hr (hne' _) hd).mp hy
    obtain ⟨-, hpx, hpy⟩ := (hit.slotOPT_eq_some_iff hN (fun hd => (hxlt hd).trans hx1)
      (fun hd => (hylt hd).trans hy1)).mp hq
    refine ⟨⟨s.compno, s.resno, px, py⟩, s.layno, ⟨hit.mem_compRange.mp hc, hr, ?_, ?_⟩,
      by omega, ?_⟩
    · rw [lt_count_iff_of_origin hN.x0, ← hpx]
      exact hxlt ⟨px, by rw [hpx, Nat.mul_comm]⟩
    · rw [lt_count_iff_of_origin hN.y0, ← hpy]
      exact hylt ⟨py, by rw [hpy, Nat.mul_comm]⟩
    · rw [visitSlot, visitX, visitY, corner_of_origin hN.x0,
        corner_of_origin hN.y0, ← hpx, ← hpy]
  · rintro ⟨v, l, hv, hl, rfl⟩
    obtain ⟨hX, hY, hxlt, hylt⟩ := hN.visit_position hv
    refine ⟨it.tile.visitY v, (hit.mem_rowsOPT hN hres hv.resno (hne' _) ?_).mpr hylt,
      it.tile.visitX v, (hit.mem_columnsOPT hN hres hv.resno (hne' _) ?_).mpr hxlt, v.compno,
      hit.mem_compRange.mpr hv.compno, v.resno, hit.mem_resRange.mpr (hres ▸ hv.resno), ?_⟩
    · rw [hY]; exact dvd_mul_left _ _
    · rw [hX]; exact dvd_mul_left _ _
    · have hq := hit.slotOPT_visit hN hv
      rw [slotCell, if_pos (by rw [hq]; rfl), mem_layerSlots]
      exact ⟨⟨rfl, rfl, rfl, rfl⟩, by omega, (by omega : l < it.prog.lay_e)⟩

end Iter.IsOpt

namespace Tile

variable {T : Tile}

/-- The numbers the fast path gives to the precincts of component `c` are those of the
precincts the reference reaches. -/
def SharesNumbers (T : Tile) (c r : Nat) (Reached : Nat → Prop) : Prop :=
  ∀ k, (k < T.storedPrecincts c r ∧ Reached k) ↔
    ∃ i < (T.axisX 0 r).count, ∃ j < (T.axisY 0 r).count,
      k = i + j * (T.comps c).precinctGridWidth T.bounds r

/-- Sorting the precincts by the corners of the first component or by their own makes no
difference. -/
def SortsAlike (T : Tile) (o : SpatialOrder) : Prop :=
  ∀ v v', T.Visits v → T.Visits v' →
    o.key (T.visitY v) (T.visitX v) v.compno v.resno <
      o.key (T.visitY v') (T.visitX v') v'.compno v'.resno →
    o.key (T.precY (T.visitPacket v 0)) (T.precX (T.visitPacket v 0)) v.compno v.resno <
      o.key (T.precY (T.visitPacket v' 0)) (T.precX (T.visitPacket v' 0)) v'.compno v'.resno

/-- Nothing was stored at all, or the first component's grids all were, and every component's
precincts are numbered and sorted like the first component's. -/
def FollowsFirst (T : Tile) (o : SpatialOrder) (Reached : Nat → Nat → Nat → Prop) : Prop :=
  (∀ c < T.numcomps, ∀ r < (T.comps 0).numresolutions, T.storedPrecincts c r = 0) ∨
    ((∀ r < (T.comps 0).numresolutions, ¬ T.Wraps 0 r) ∧
      (∀ c < T.numcomps, ∀ r < (T.comps 0).numresolutions, T.SharesNumbers c r (Reached c r)) ∧
      T.SortsAlike o)

theorem visit_ext {v v' : Visit} (hy : T.visitY v = T.visitY v') (hx : T.visitX v = T.visitX v')
    (hc : v.compno = v'.compno) (hr : v.resno = v'.resno) : v = v' := by
  obtain ⟨c, r, i, j⟩ := v
  obtain ⟨c', r', i', j'⟩ := v'
  subst hc hr
  obtain rfl : i = i' := corner_strictMono.injective hx
  obtain rfl : j = j' := corner_strictMono.injective hy
  rfl

theorem sortsAlike_iff (o : SpatialOrder) :
    T.SortsAlike o ↔ ∀ v l v' l', T.Visits v → T.Visits v' →
      l < T.numLayers → l' < T.numLayers →
      o.ofSlot (T.visitSlot v l) < o.ofSlot (T.visitSlot v' l') →
      o.ofPacket T (T.visitPacket v l) < o.ofPacket T (T.visitPacket v' l') := by
  constructor
  · intro h v l v' l' hv hv' _ _ hlt
    rcases (append_lt_append_iff (o.length_key _ _ _ _ _ _ _ _)).mp hlt with hlt | ⟨heq, hll⟩
    · exact (append_lt_append_iff (o.length_key _ _ _ _ _ _ _ _)).mpr (.inl (h v v' hv hv' hlt))
    · obtain ⟨h1, h2, h3, h4⟩ := o.key_inj heq
      obtain rfl := visit_ext h1 h2 h3 h4
      exact (append_lt_append_iff (o.length_key _ _ _ _ _ _ _ _)).mpr (.inr ⟨rfl, hll⟩)
  · intro h v v' hv hv' hlt
    have hl := T.numLayers_range.1
    rcases (append_lt_append_iff (o.length_key _ _ _ _ _ _ _ _)).mp (h v 0 v' 0 hv hv' hl hl
      ((append_lt_append_iff (o.length_key _ _ _ _ _ _ _ _)).mpr (.inl hlt))) with h | ⟨-, h⟩
    · exact h
    · exact absurd h (lt_irrefl _)

end Tile

namespace Iter.IsOpt

variable {it : Iter} {order : ProgOrder} (hit : it.IsOpt order) (hN : it.tile.Nested)

include hit hN

variable {ps : List Packet}

/-- The reference's list is the fast path's exactly when the numbers are shared and sorting
makes no difference. -/
theorem eq_map_slots_iff (o : SpatialOrder) {slots : List Slot}
    (Reached : Nat → Nat → Nat → Prop) (hps : KeySorted (o.ofPacket it.tile) ps)
    (hslots : KeySorted o.ofSlot slots)
    (hmem : ∀ p, p ∈ ps ↔ it.tile.Stored p ∧ Reached p.compno p.resno p.precinctIndex)
    (hvisits : ∀ s, s ∈ slots ↔
      ∃ v l, it.tile.Visits v ∧ l < it.tile.numLayers ∧ s = it.tile.visitSlot v l) :
    ps = slots.map it.slotPacket ↔
      (∀ c < it.tile.numcomps, ∀ r < (it.tile.comps 0).numresolutions,
        it.tile.SharesNumbers c r (Reached c r)) ∧ it.tile.SortsAlike o := by
  have hmember (p : Packet) : (∃ s ∈ slots, it.slotPacket s = p) ↔
      ∃ v l, it.tile.Visits v ∧ l < it.tile.numLayers ∧ it.tile.visitPacket v l = p := by
    constructor
    · rintro ⟨s, hs, rfl⟩
      obtain ⟨v, l, hv, hl, rfl⟩ := (hvisits s).mp hs
      exact ⟨v, l, hv, hl, (hit.slotPacket_visit hN hv l).symm⟩
    · rintro ⟨v, l, hv, hl, rfl⟩
      exact ⟨_, (hvisits _).mpr ⟨v, l, hv, hl, rfl⟩, hit.slotPacket_visit hN hv l⟩
  rw [hps.eq_map_iff hslots, sortsAlike_iff]
  simp only [hmember, hmem]
  refine and_congr ⟨fun h c hc r hr k => ?_, fun h p => ?_⟩ ⟨fun h v l v' l' hv hv' hl hl' => ?_,
    fun h s hs s' hs' => ?_⟩
  · have hstored : k < it.tile.storedPrecincts c r ↔ it.tile.Stored ⟨c, r, k, 0⟩ :=
      ⟨fun hk => ⟨hc, by rw [hit.uniform.numresolutions c hc]; exact hr, hk,
        it.tile.numLayers_range.1⟩, fun hp => hp.precinctIndex⟩
    rw [hstored]
    refine (h ⟨c, r, k, 0⟩).trans ⟨?_, ?_⟩
    · rintro ⟨v, l, hv, -, hp⟩
      obtain ⟨c', r', i, j⟩ := v
      obtain ⟨rfl, rfl, rfl, -⟩ := hp
      exact ⟨i, hv.col, j, hv.row, rfl⟩
    · rintro ⟨i, hi, j, hj, rfl⟩
      exact ⟨⟨c, r, i, j⟩, 0, ⟨hc, hr, hi, hj⟩, it.tile.numLayers_range.1, rfl⟩
  · constructor
    · rintro ⟨hp, hreach⟩
      have hr : p.resno < (it.tile.comps 0).numresolutions := by
        rw [← hit.uniform.numresolutions _ hp.compno]
        exact hp.resno
      obtain ⟨i, hi, j, hj, hk⟩ :=
        (h _ hp.compno _ hr p.precinctIndex).mp ⟨hp.precinctIndex, hreach⟩
      refine ⟨⟨p.compno, p.resno, i, j⟩, p.layno, ⟨hp.compno, hr, hi, hj⟩, hp.layno, ?_⟩
      rw [visitPacket, ← hk]
    · rintro ⟨v, l, hv, hl, rfl⟩
      obtain ⟨hk, hreach⟩ := (h _ hv.compno _ hv.resno _).mpr ⟨_, hv.col, _, hv.row, rfl⟩
      have hr : v.resno < (it.tile.comps v.compno).numresolutions := by
        rw [hit.uniform.numresolutions _ hv.compno]
        exact hv.resno
      exact ⟨⟨hv.compno, hr, hk, hl⟩, hreach⟩
  · intro hlt
    have := h _ ((hvisits _).mpr ⟨v, l, hv, hl, rfl⟩) _ ((hvisits _).mpr ⟨v', l', hv', hl', rfl⟩) hlt
    rwa [hit.slotPacket_visit hN hv, hit.slotPacket_visit hN hv'] at this
  · intro hlt
    obtain ⟨v, l, hv, hl, rfl⟩ := (hvisits s).mp hs
    obtain ⟨v', l', hv', hl', rfl⟩ := (hvisits s').mp hs'
    rw [hit.slotPacket_visit hN hv, hit.slotPacket_visit hN hv']
    exact h v l v' l' hv hv' hl hl' hlt

/-- The check both fast paths make on every entry looks for a stored grid of the first
component in the current resolution. -/
theorem checkOPT_iff (hres : it.prog.res_e = (it.tile.comps 0).numresolutions) {r : Nat}
    (hr : r < (it.tile.comps 0).numresolutions) :
    it.checkOPT r = true ↔ 0 < it.tile.storedPrecincts 0 r := by
  rw [checkOPT, hres, Bool.and_eq_true, infoOPT_valid hit.uniform, hasGrid0_iff hr,
    decide_eq_true_eq, hN.nonEmpty_iff]
  refine and_iff_right_of_imp fun h => ?_
  rw [← hN.nonEmpty_iff 0 r]
  exact (storedPrecincts_pos_iff.mp h).1

omit hN in
/-- A fast path hands out what its loops do, up to the first packet of a resolution that fails
the check. -/
theorem enumerates_cut {sweep : State → Outcome State}
    (hnext : ∀ s, it.next s = if it.checkOPT s.resno then sweep s else .stop s)
    (hspec : it.checkOPT 0 = true →
      Spec it.Fresh State.packet sweep (it.At it.home) (fun _ => True) ps (fun _ _ => True))
    (lengths : List Nat) (bytes : Nat) :
    Enumerates it.next State.packet (it.start lengths bytes)
      (if it.checkOPT 0 then cut (fun p => it.checkOPT p.resno) ps else []) := by
  have hstart : (it.start lengths bytes).resno = 0 := rfl
  split
  case isTrue hcheck =>
    obtain ⟨t, he, -⟩ := hspec hcheck [] _ (.inl hit.single) (start_at hit.prog lengths bytes)
    exact he.cut_enumerates hnext (by rw [hstart]; exact hcheck) fun _ _ => rfl
  case isFalse hcheck =>
    refine .stop (t := it.start lengths bytes) ?_
    rw [hnext, hstart, if_neg hcheck]

/-- The first packets of either fast path: component 0 at the origin. -/
def FirstCell (it : Iter) (ps : List Packet) : Prop :=
  ∃ rest, ps = (it.resRange.flatMap fun r => it.cellOPT 0 r 0 0) ++ rest

/-- If the first component's grid is lost in some resolution, a packet of it is handed out
before the check notices. -/
theorem mem_cut_of_lost (hres : it.prog.res_e = (it.tile.comps 0).numresolutions)
    (hfirst : FirstCell it ps) {r : Nat} (hr : r < (it.tile.comps 0).numresolutions)
    (hne : 0 < it.tile.bounds.x1 ∧ 0 < it.tile.bounds.y1)
    (hbelow : ∀ r' < r, 0 < it.tile.storedPrecincts 0 r') :
    (⟨0, r, 0, 0⟩ : Packet) ∈ cut (fun p => it.checkOPT p.resno) ps := by
  obtain ⟨rest, rfl⟩ := hfirst
  have hprog : it.prog.res_s = 0 ∧ it.prog.lay_s = 0 ∧ it.prog.lay_e = it.tile.numLayers := by
    rw [hit.prog]; exact ⟨rfl, rfl, rfl⟩
  have hrange : it.resRange = List.range' 0 r ++ r :: List.range' (r + 1)
      ((it.tile.comps 0).numresolutions - (r + 1)) := by
    have happ := @List.range'_append_1 0 r ((it.tile.comps 0).numresolutions - (r + 1) + 1)
    rw [Nat.zero_add] at happ
    rw [resRange, hprog.1, hres, Nat.sub_zero, ← List.range'_succ, happ]
    congr 1
    omega
  -- a grid that starts at the origin has its first corner there
  have hvisit : it.tile.Visits ⟨0, r, 0, 0⟩ := by
    have h := (hN.nonEmpty_iff 0 r).mpr hne
    exact ⟨it.tile.numcomps_range.1, hr, count_pos_iff.mpr h.1, count_pos_iff.mpr h.2⟩
  have hslot : it.slotOPT r 0 0 = some (0, 0) := by
    obtain ⟨hX, hY, -, -⟩ := hN.visit_position hvisit
    have h := hit.slotOPT_visit hN hvisit
    rwa [hX, hY, Nat.zero_mul, Nat.zero_mul] at h
  have hcell : it.cellOPT 0 r 0 0 = ⟨0, r, 0, 0⟩ :: it.layerPackets 0 r 0 1 := by
    rw [cellOPT, hslot]
    dsimp only
    rw [hprog.2.1, Nat.zero_mul, layerPackets_cons]
    rw [hprog.2.2]
    exact it.tile.numLayers_range.1
  rw [hrange, flatMap_append, flatMap_cons, hcell, cons_append, append_assoc,
    cons_append]
  refine mem_cut_append_cons fun p hp => ?_
  obtain ⟨r', hr', hp⟩ := mem_flatMap.mp hp
  have hlt : r' < r := by
    have := mem_range'_1.mp hr'
    omega
  have hpr : p.resno = r' := by
    unfold cellOPT at hp
    split at hp
    · cases hp
    · exact (mem_layerPackets.mp hp).2.1
  rw [hpr, hit.checkOPT_iff hN hres (hlt.trans hr)]
  exact hbelow r' hlt

/-- The comparison of a fast path with its reference, for either order. -/
theorem pathsAgree_iff_shared (hres : it.prog.res_e = (it.tile.comps 0).numresolutions)
    (o : SpatialOrder) {slots : List Slot} (Reached : Nat → Nat → Nat → Prop)
    {lengths : List Nat} {bytes : Nat}
    (hfast : Enumerates it.next State.packet (it.start lengths bytes)
      (if it.checkOPT 0 then cut (fun p => it.checkOPT p.resno) (slots.map it.slotPacket) else []))
    (hgen : Enumerates ({ it with opt := false } : Iter).next State.packet
      (({ it with opt := false } : Iter).start lengths bytes) ps)
    (hps : KeySorted (o.ofPacket it.tile) ps) (hslots : KeySorted o.ofSlot slots)
    (hmem : ∀ p, p ∈ ps ↔ it.tile.Stored p ∧ Reached p.compno p.resno p.precinctIndex)
    (hreach : ∀ c r, Reached c r 0)
    (hvisits : 0 < it.tile.bounds.x1 ∧ 0 < it.tile.bounds.y1 → ∀ s, s ∈ slots ↔
      ∃ v l, it.tile.Visits v ∧ l < it.tile.numLayers ∧ s = it.tile.visitSlot v l)
    (hfirst : 0 < it.tile.bounds.x1 ∧ 0 < it.tile.bounds.y1 →
      FirstCell it (slots.map it.slotPacket)) :
    it.PathsAgree lengths bytes ↔ it.tile.FollowsFirst o Reached := by
  have h0 := it.tile.numcomps_range.1
  have hr0 := (it.tile.comps 0).numresolutions_range.1
  rw [pathsAgree_iff hfast hgen, Tile.FollowsFirst]
  rcases Nat.eq_zero_or_pos (it.tile.storedPrecincts 0 0) with hz | hpos
  · -- nothing is handed out
    have hcheck : it.checkOPT 0 = false := by
      rw [Bool.eq_false_iff, Ne, hit.checkOPT_iff hN hres hr0]
      omega
    have hnil : ps = [] ↔ ∀ c < it.tile.numcomps, ∀ r < (it.tile.comps 0).numresolutions,
        it.tile.storedPrecincts c r = 0 := by
      rw [eq_nil_iff_forall_not_mem]
      constructor
      · intro h c hc r hr
        by_contra hne
        refine h ⟨c, r, 0, 0⟩ ((hmem _).mpr ⟨⟨hc, ?_, pos_of_ne_zero hne,
          it.tile.numLayers_range.1⟩, hreach c r⟩)
        rw [hit.uniform.numresolutions c hc]
        exact hr
      · intro h p hp
        have hstored := ((hmem p).mp hp).1
        have hidx := hstored.precinctIndex
        rw [h _ hstored.compno _ (hit.uniform.numresolutions _ hstored.compno ▸ hstored.resno)]
          at hidx
        exact not_lt_zero _ hidx
    rw [hcheck, if_neg (by decide), hnil]
    refine ⟨.inl, fun h => h.elim id fun h c _ r _ => ?_⟩
    -- without a wrapped grid the tile is empty
    by_contra hne
    have hc := (storedPrecincts_pos_iff.mp (pos_of_ne_zero hne)).1
    rw [hN.nonEmpty_iff, ← hN.nonEmpty_iff 0 0] at hc
    have := storedPrecincts_pos_iff.mpr ⟨hc, h.1 0 hr0⟩
    omega
  · have hne : 0 < it.tile.bounds.x1 ∧ 0 < it.tile.bounds.y1 := by
      rw [← hN.nonEmpty_iff 0 0]
      exact (storedPrecincts_pos_iff.mp hpos).1
    rw [if_pos ((hit.checkOPT_iff hN hres hr0).mpr hpos), or_iff_right (fun h => by
      have := h 0 h0 0 hr0
      omega)]
    by_cases hlost : ∃ r, r < (it.tile.comps 0).numresolutions ∧ it.tile.storedPrecincts 0 r = 0
    · -- the reference hands out nothing of the first lost resolution
      obtain ⟨hr, hzero⟩ := Nat.find_spec hlost
      have hbelow (r' : Nat) (hr' : r' < Nat.find hlost) : 0 < it.tile.storedPrecincts 0 r' := by
        by_contra hc
        exact Nat.find_min hlost hr' ⟨hr'.trans hr, by omega⟩
      have hmemcut := hit.mem_cut_of_lost hN hres (hfirst hne) hr hne hbelow
      refine ⟨fun heq => ?_, fun h => ?_⟩
      · rw [← heq, hmem] at hmemcut
        have := hmemcut.1.precinctIndex
        dsimp only at this
        omega
      · have := storedPrecincts_pos_iff.mpr
          ⟨(hN.nonEmpty_iff 0 (Nat.find hlost)).mpr hne, h.1 _ hr⟩
        omega
    · have hall (r : Nat) (hr : r < (it.tile.comps 0).numresolutions) :
          0 < it.tile.storedPrecincts 0 r :=
        pos_of_ne_zero fun h => hlost ⟨r, hr, h⟩
      rw [cut_eq_self fun p hp => ?_, hit.eq_map_slots_iff hN o Reached hps hslots hmem
        (hvisits hne)]
      · exact (and_iff_right fun r hr => (storedPrecincts_pos_iff.mp (hall r hr)).2).symm
      · obtain ⟨s, hs, rfl⟩ := mem_map.mp hp
        obtain ⟨v, l, hv, -, rfl⟩ := (hvisits hne s).mp hs
        exact (hit.checkOPT_iff hN hres hv.resno).mpr (hall _ hv.resno)

end Iter.IsOpt

namespace Tile

variable {T : Tile}

/-- `next_cprl` steps on the corner of precinct `k`. -/
def CprlReaches (T : Tile) (c r k : Nat) : Prop :=
  T.cprlStepX c ∣ T.precX ⟨c, r, k, 0⟩ ∧ T.cprlStepY c ∣ T.precY ⟨c, r, k, 0⟩

/-- Component `c` has the grid of the first component, or as many precincts as that one's only
row. -/
def SameShape (T : Tile) (c r : Nat) : Prop :=
  ((T.comps c).precinctGridWidth T.bounds r = (T.comps 0).precinctGridWidth T.bounds r ∧
    (T.comps c).precinctGridHeight T.bounds r = (T.comps 0).precinctGridHeight T.bounds r) ∨
  ((T.comps 0).precinctGridHeight T.bounds r = 1 ∧
    T.storedPrecincts c r = (T.comps 0).precinctGridWidth T.bounds r)

theorem Nested.found_iff (hN : T.Nested) {dx dy : Nat} {p : Packet} :
    T.Found dx dy p ↔ T.Stored p ∧ dx ∣ T.precX p ∧ dy ∣ T.precY p := by
  have hdvd (d q b : Nat) (hb : b = 0) : q = b ∨ d ∣ q ↔ d ∣ q :=
    or_iff_right_of_imp fun h => by rw [h, hb]; exact dvd_zero d
  rw [stored_iff]
  constructor
  · rintro ⟨hp, hw, hx, hy⟩
    exact ⟨⟨hp, hw⟩, (hdvd _ _ _ hN.x0).mp hx, (hdvd _ _ _ hN.y0).mp hy⟩
  · rintro ⟨⟨hp, hw⟩, hx, hy⟩
    exact ⟨hp, hw, .inr hx, .inr hy⟩

theorem Uniform.maxRes_eq (hT : T.Uniform) : T.maxRes = (T.comps 0).numresolutions :=
  le_antisymm hT.maxRes_le (T.numresolutions_le_maxRes T.numcomps_range.1)

theorem precX_zero (hN : T.Nested) (c r l : Nat) : T.precX ⟨c, r, 0, l⟩ = 0 := by
  rw [precX, zero_mod, corner_of_origin hN.x0, Nat.zero_mul]

theorem precY_zero (hN : T.Nested) (c r l : Nat) : T.precY ⟨c, r, 0, l⟩ = 0 := by
  rw [precY, Nat.zero_div, corner_of_origin hN.y0, Nat.zero_mul]

/-- Sorting alike, the numbers of one component come in the order of the visits. -/
theorem SortsAlike.index_lt (h : T.SortsAlike .pcrl) {v v' : Visit} (hv : T.Visits v)
    (hv' : T.Visits v') (hc : v.compno = v'.compno) (hr : v.resno = v'.resno)
    (hlt : T.visitY v < T.visitY v' ∨ T.visitY v = T.visitY v' ∧ T.visitX v < T.visitX v')
    (hn : (T.visitPacket v 0).precinctIndex < T.numPrecincts v.compno v.resno) :
    (T.visitPacket v 0).precinctIndex < (T.visitPacket v' 0).precinctIndex := by
  have hkey := h v v' hv hv' (by
    rcases hlt with h | ⟨h1, h2⟩ <;> simp [SpatialOrder.pcrl, cons_lt_cons_iff, *])
  have hown : T.Before (T.visitPacket v 0) (T.visitPacket v' 0) := by
    simp only [SpatialOrder.pcrl, cons_lt_cons_iff, not_lt_nil, and_false, or_false] at hkey
    unfold Before
    omega
  obtain ⟨c, r, i, j⟩ := v
  obtain ⟨c', r', i', j'⟩ := v'
  dsimp only at hc hr hn
  subst hc hr
  by_contra hge
  rcases Nat.eq_or_lt_of_le (Nat.le_of_not_lt hge) with heq | hgt
  · have hsame : T.visitPacket ⟨c, r, i', j'⟩ 0 = T.visitPacket ⟨c, r, i, j⟩ 0 :=
      congrArg (fun k => (⟨c, r, k, 0⟩ : Packet)) heq
    rw [hsame] at hown
    unfold Before at hown
    omega
  · have hback : T.Before (T.visitPacket ⟨c, r, i', j'⟩ 0) (T.visitPacket ⟨c, r, i, j⟩ 0) :=
      before_of_lt hgt hn
    unfold Before at hown hback
    omega

section Shape

variable {c r : Nat} (hc : c < T.numcomps) (hr : r < (T.comps 0).numresolutions)
variable (hpos : 0 < T.storedPrecincts 0 r)

include hpos

theorem count_eq_stored : (T.axisX 0 r).count = (T.comps 0).precinctGridWidth T.bounds r ∧
    (T.axisY 0 r).count = (T.comps 0).precinctGridHeight T.bounds r := by
  obtain ⟨hne, hw⟩ := storedPrecincts_pos_iff.mp hpos
  have hn := (T.numPrecincts_pos_iff 0 r).mpr hne
  exact ⟨(T.gridWidth_eq hw hn).symm, (T.gridHeight_eq hw hn).symm⟩

theorem SameShape.sharesNumbers (h : T.SameShape c r) : T.SharesNumbers c r fun _ => True := by
  obtain ⟨hW, hH⟩ := count_eq_stored hpos
  intro k
  rw [and_true, hW, hH]
  rcases h with ⟨h1, h2⟩ | ⟨h1, h2⟩
  · rw [storedPrecincts, h1, h2]
    constructor
    · intro hk
      obtain ⟨hx, hy, hk⟩ := index_iff.mpr ⟨hk, rfl, rfl⟩
      exact ⟨_, hx, _, hy, hk⟩
    · rintro ⟨i, hi, j, hj, hk⟩
      exact (index_iff.mp ⟨hi, hj, hk⟩).1
  · rw [h1, h2]
    constructor
    · intro hk
      exact ⟨k, hk, 0, one_pos, by omega⟩
    · rintro ⟨i, hi, j, hj, rfl⟩
      obtain rfl : j = 0 := by omega
      omega

include hc hr

theorem SharesNumbers.sameShape (h : T.SharesNumbers c r fun _ => True)
    (hsort : T.SortsAlike .pcrl) : T.SameShape c r := by
  obtain ⟨hW, hH⟩ := count_eq_stored hpos
  have hWpos : 0 < (T.axisX 0 r).count := by
    rw [hW]; exact Nat.pos_of_mul_pos_right hpos
  have hHpos : 0 < (T.axisY 0 r).count := by
    rw [hH]; exact Nat.pos_of_mul_pos_left hpos
  have hstored (i j : Nat) (hi : i < (T.axisX 0 r).count) (hj : j < (T.axisY 0 r).count) :
      i + j * (T.comps c).precinctGridWidth T.bounds r < T.storedPrecincts c r :=
    ((h _).mpr ⟨i, hi, j, hj, rfl⟩).1
  have hcpos := lt_of_le_of_lt (Nat.zero_le _) (hstored 0 0 hWpos hHpos)
  have hnum : T.storedPrecincts c r = T.numPrecincts c r := by
    rw [storedPrecincts_eq, if_neg (storedPrecincts_pos_iff.mp hcpos).2]
  rcases Nat.eq_or_lt_of_le (succ_le_of_lt hHpos) with hone | htwo
  · -- one row: the numbers are the columns
    refine .inr ⟨by omega, ?_⟩
    rw [← hW]
    refine eq_of_forall_lt_iff fun k => ⟨fun hk => ?_, fun hk => ?_⟩
    · obtain ⟨i, hi, j, hj, rfl⟩ := (h k).mp ⟨hk, trivial⟩
      obtain rfl : j = 0 := by omega
      omega
    · have := hstored k 0 hk hHpos
      omega
  · -- the last column of the first row comes before the first one of the second row
    have hle : (T.axisX 0 r).count ≤ (T.comps c).precinctGridWidth T.bounds r := by
      have hlast := hstored ((T.axisX 0 r).count - 1) 0 (by omega) hHpos
      have hv : T.Visits ⟨c, r, (T.axisX 0 r).count - 1, 0⟩ :=
        ⟨hc, hr, sub_lt hWpos one_pos, hHpos⟩
      have hv' : T.Visits ⟨c, r, 0, 1⟩ := ⟨hc, hr, hWpos, htwo⟩
      have hlt := hsort.index_lt hv hv' rfl rfl (.inl (corner_strictMono one_pos))
        (by rw [← hnum]; exact hlast)
      simp only [visitPacket] at hlt
      omega
    have hwidth : (T.comps c).precinctGridWidth T.bounds r = (T.axisX 0 r).count := by
      by_contra hne
      have hheight : 0 < (T.comps c).precinctGridHeight T.bounds r :=
        Nat.pos_of_mul_pos_left hcpos
      have hmul : (T.comps c).precinctGridWidth T.bounds r ≤ T.storedPrecincts c r :=
        Nat.le_mul_of_pos_right _ hheight
      obtain ⟨i, hi, j, hj, hk⟩ := (h (T.axisX 0 r).count).mp ⟨by omega, trivial⟩
      rcases Nat.eq_zero_or_pos j with rfl | hjpos
      · omega
      · have := Nat.le_mul_of_pos_left ((T.comps c).precinctGridWidth T.bounds r) hjpos
        omega
    refine .inl ⟨hwidth.trans hW, ?_⟩
    have hcount : T.storedPrecincts c r = (T.axisX 0 r).count * (T.axisY 0 r).count := by
      refine eq_of_forall_lt_iff fun k => ⟨fun hk => ?_, fun hk => ?_⟩
      · obtain ⟨i, hi, j, hj, hk⟩ := (h k).mp ⟨hk, trivial⟩
        rw [hwidth] at hk
        exact (index_iff.mp ⟨hi, hj, hk⟩).1
      · obtain ⟨hi, hj, hk⟩ := index_iff.mpr ⟨hk, rfl, rfl⟩
        rw [hk, ← hwidth]
        exact hstored _ _ (by rw [hwidth]; exact hi) (by rw [hwidth]; exact hj)
    rw [storedPrecincts, hwidth, hH] at hcount
    exact Nat.eq_of_mul_eq_mul_left hWpos hcount

end Shape

end Tile

namespace Iter.IsOpt

variable {it : Iter} (hN : it.tile.Nested) (hres : it.prog.res_e = (it.tile.comps 0).numresolutions)

include hN hres

omit hres in
theorem grid_start {order : ProgOrder} (hit : it.IsOpt order) (hcheck : it.checkOPT 0 = true) :
    (it.infoOPT (it.prog.res_e - 1)).tileBoundsPrecPRJ.x0 = it.prog.tx0 := by
  have hv : (it.infoOPT (it.prog.res_e - 1)).valid = true := by
    rw [checkOPT, Bool.and_eq_true] at hcheck
    exact hcheck.1
  rw [infoOPT_valid hit.uniform, decide_eq_true_eq] at hv
  have hx0 : it.prog.tx0 = 0 := by rw [hit.prog]; exact hN.x0
  rw [(infoOPT_infoFor hit.uniform hv).tileBoundsPrecPRJ, hx0, grid0_of_origin hN.x0,
    Nat.zero_mul]

theorem lists_start {order : ProgOrder} (hit : it.IsOpt order)
    (hne : 0 < it.tile.bounds.x1 ∧ 0 < it.tile.bounds.y1) :
    (∃ ys, it.rowsOPT = 0 :: ys) ∧ (∃ xs, it.columnsOPT = 0 :: xs) ∧
      ∃ cs, it.compRange = 0 :: cs := by
  have hlast := (hN.nonEmpty_iff 0 ((it.tile.comps 0).numresolutions - 1)).mpr hne
  have hcomp : it.prog.comp_s = 0 ∧ it.prog.comp_e = it.tile.numcomps := by
    rw [hit.prog]; exact ⟨rfl, rfl⟩
  refine ⟨?_, ?_, ?_⟩
  · rw [(columnsOPT_eq hit hN hres hlast).2, strideSteps_steps it.tile.updateDy_pos,
      if_pos (lt_of_lt_of_le hne.2 (it.tile.axisY 0 _).t1_le_grid1_mul)]
    exact ⟨_, rfl⟩
  · rw [(columnsOPT_eq hit hN hres hlast).1, strideSteps_steps it.tile.updateDx_pos,
      if_pos (lt_of_lt_of_le hne.1 (it.tile.axisX 0 _).t1_le_grid1_mul)]
    exact ⟨_, rfl⟩
  · rw [compRange, hcomp.1, hcomp.2, range'_steps,
      if_pos (show 0 < it.tile.numcomps from it.tile.numcomps_range.1)]
    exact ⟨_, rfl⟩

theorem pcrl_agree_iff (hit : it.IsOpt .pcrl) (hwin : it.tile.NoWindow it.tileWindow)
    (lengths : List Nat) (bytes : Nat) :
    it.PathsAgree lengths bytes ↔ it.tile.FollowsFirst .pcrl fun _ _ _ => True := by
  have hgen : ({ it with opt := false } : Iter).IsGeneric .pcrl := ⟨rfl, hit.prog⟩
  have hmax := hit.uniform.maxRes_le.trans hres.ge
  have horder : it.prog.progression = .pcrl := by rw [hit.prog]; rfl
  have hnext (s : State) :
      it.next s = if it.checkOPT s.resno then it.pcrlSweepOPT s else .stop s := by
    rw [← nextPcrlOPT_eq hit.whole]
    simp [next, hit.opt, horder]
  have hfast := hit.enumerates_cut hnext (fun hcheck => pcrlSweepOPT_spec hit.single
    it.tile.updateDx_pos it.tile.updateDy_pos (grid_start hN hit hcheck)) lengths bytes
  rw [pcrlPacketsOPT_eq_map] at hfast
  refine hit.pathsAgree_iff_shared hN hres .pcrl (fun _ _ _ => True) hfast
    (hgen.pcrl_enumerates hmax hwin lengths bytes) hgen.pcrl_sorted it.pcrlSlots_sorted
    (fun p => ?_) (fun _ _ => trivial) (fun hne s => ?_) (fun hne => ?_)
  · rw [hgen.mem_pcrlPackets hmax, and_true]
    exact hit.uniform.pow2Sampled.found_iff
  · rw [← hit.mem_sweepOPT hN hres hne]
    simp [pcrlSlots]
  · obtain ⟨⟨ys, hys⟩, ⟨xs, hxs⟩, ⟨cs, hcs⟩⟩ := lists_start hN hres hit hne
    rw [← pcrlPacketsOPT_eq_map, FirstCell, pcrlPacketsOPT, hys, flatMap_cons, hxs,
      flatMap_cons, hcs, flatMap_cons, append_assoc, append_assoc]
    exact ⟨_, rfl⟩

theorem cprl_agree_iff (hit : it.IsOpt .cprl) (lengths : List Nat) (bytes : Nat) :
    it.PathsAgree lengths bytes ↔ it.tile.FollowsFirst .cprl it.tile.CprlReaches := by
  have hgen : ({ it with opt := false } : Iter).IsGeneric .cprl := ⟨rfl, hit.prog⟩
  have hmax := hit.uniform.maxRes_le.trans hres.ge
  have horder : it.prog.progression = .cprl := by rw [hit.prog]; rfl
  have hnext (s : State) :
      it.next s = if it.checkOPT s.resno then it.cprlSweepOPT s else .stop s := by
    rw [← nextCprlOPT_eq hit.whole]
    simp [next, hit.opt, horder]
  have hfast := hit.enumerates_cut hnext (fun _ => cprlSweepOPT_spec hit.single
    it.tile.updateDx_pos it.tile.updateDy_pos) lengths bytes
  rw [cprlPacketsOPT_eq_map] at hfast
  refine hit.pathsAgree_iff_shared hN hres .cprl it.tile.CprlReaches hfast
    (hgen.cprl_enumerates hmax lengths bytes) hgen.cprl_sorted it.cprlSlots_sorted
    (fun p => ?_) (fun c r => ?_) (fun hne s => ?_) (fun hne => ?_)
  · rw [hgen.mem_cprlPackets hmax]
    exact hN.found_iff
  · rw [Tile.CprlReaches, precX_zero hN, precY_zero hN]
    exact ⟨dvd_zero _, dvd_zero _⟩
  · rw [← hit.mem_sweepOPT hN hres hne]
    simp only [cprlSlots, mem_flatMap]
    constructor
    · rintro ⟨c, hc, y, hy, x, hx, r, hr, hs⟩
      exact ⟨y, hy, x, hx, c, hc, r, hr, hs⟩
    · rintro ⟨y, hy, x, hx, c, hc, r, hr, hs⟩
      exact ⟨c, hc, y, hy, x, hx, r, hr, hs⟩
  · obtain ⟨⟨ys, hys⟩, ⟨xs, hxs⟩, ⟨cs, hcs⟩⟩ := lists_start hN hres hit hne
    rw [← cprlPacketsOPT_eq_map, FirstCell, cprlPacketsOPT, hcs, flatMap_cons, hys,
      flatMap_cons, hxs, flatMap_cons, append_assoc, append_assoc]
    exact ⟨_, rfl⟩

end Iter.IsOpt

/-- Decoding a whole tile for which the optimised path was selected, the two PCRL (CPRL)
iterators hand out the same sequence exactly when nothing was stored at all, or the first
component's grids were all stored and every component's precincts are numbered and sorted like
the first component's. In CPRL only the precincts count that the reference itself reaches. -/
theorem pcrl_cprl_paths_agree_iff (T : Tile) (compression singleProgression plt : Bool) (w : Rect)
    (hw : T.NoWindow w) (maxNumDecompositionResolutions layersToDecompress : Nat)
    (lengths : List Nat) (bytes : Nat)
    (hopt : acceptsOPT T .pcrl compression singleProgression = true) :
    let Nothing := ∀ c < T.numcomps, ∀ r < (T.comps 0).numresolutions, T.storedPrecincts c r = 0
    let FirstStored := ∀ r < (T.comps 0).numresolutions, ¬ T.Wraps 0 r
    ((init T .pcrl compression singleProgression true plt w maxNumDecompositionResolutions
      layersToDecompress).PathsAgree lengths bytes ↔ Nothing ∨ (FirstStored ∧
        (∀ c < T.numcomps, ∀ r < (T.comps 0).numresolutions, T.SameShape c r) ∧
          T.SortsAlike .pcrl)) ∧
      ((init T .cprl compression singleProgression true plt w maxNumDecompositionResolutions
        layersToDecompress).PathsAgree lengths bytes ↔ Nothing ∨ (FirstStored ∧
          (∀ c < T.numcomps, ∀ r < (T.comps 0).numresolutions,
            T.SharesNumbers c r (T.CprlReaches c r)) ∧ T.SortsAlike .cprl)) := by
  obtain ⟨hT, rfl, rfl⟩ := uniform_of_acceptsOPT hopt
  have hN := nested_of_acceptsOPT hopt
  have hpcrl : (init T .pcrl false true true plt w maxNumDecompositionResolutions
      layersToDecompress).IsOpt .pcrl := ⟨hT, rfl, rfl, hopt, rfl⟩
  have hcprl : (init T .cprl false true true plt w maxNumDecompositionResolutions
      layersToDecompress).IsOpt .cprl := ⟨hT, rfl, rfl, hopt, rfl⟩
  refine ⟨(Iter.IsOpt.pcrl_agree_iff hN hT.maxRes_eq hpcrl hw lengths bytes).trans ?_,
    Iter.IsOpt.cprl_agree_iff hN hT.maxRes_eq hcprl lengths bytes⟩
  refine or_congr_right' fun hsome => and_congr_right fun hfirst => ?_
  -- something is stored, so the tile is not empty
  have hpos (r : Nat) (hr : r < (T.comps 0).numresolutions) : 0 < T.storedPrecincts 0 r := by
    refine storedPrecincts_pos_iff.mpr ⟨?_, hfirst r hr⟩
    by_contra hne
    refine hsome fun c _ r' _ => Nat.eq_zero_of_not_pos fun h => hne ?_
    exact (hN.nonEmpty_iff 0 r).mpr
      ((hN.nonEmpty_iff c r').mp (storedPrecincts_pos_iff.mp h).1)
  constructor
  · rintro ⟨hnum, hsort⟩
    exact ⟨fun c hc r hr => (hnum c hc r hr).sameShape hc hr (hpos r hr) hsort, hsort⟩
  · rintro ⟨hshape, hsort⟩
    exact ⟨fun c hc r hr => (hshape c hc r hr).sharesNumbers (hpos r hr), hsort⟩

/-- The shared table has two precincts for the second component, which has one. -/
theorem fineThenCoarse_paths_differ :
    acceptsOPT fineThenCoarse .pcrl false true = true ∧
      ¬ (init fineThenCoarse .pcrl false true true false fineThenCoarse.bounds 1 1).PathsAgree
        [] 0 ∧
      ¬ (init fineThenCoarse .cprl false true true false fineThenCoarse.bounds 1 1).PathsAgree
        [] 0 := by
  let it (order : ProgOrder) :=
    init fineThenCoarse order false true true false fineThenCoarse.bounds 1 1
  have hfast : Enumerates (it .pcrl).next State.packet ((it .pcrl).start [] 0)
      [⟨0, 0, 0, 0⟩, ⟨1, 0, 0, 0⟩, ⟨0, 0, 1, 0⟩, ⟨1, 0, 1, 0⟩] :=
    enumerate_sound (n := 5) (by decide +kernel)
  have hgeneric : Enumerates ({ it .pcrl with opt := false } : Iter).next State.packet
      (({ it .pcrl with opt := false } : Iter).start [] 0)
      [⟨0, 0, 0, 0⟩, ⟨1, 0, 0, 0⟩, ⟨0, 0, 1, 0⟩] :=
    enumerate_sound (n := 4) (by decide +kernel)
  have hfast' : Enumerates (it .cprl).next State.packet ((it .cprl).start [] 0)
      [⟨0, 0, 0, 0⟩, ⟨0, 0, 1, 0⟩, ⟨1, 0, 0, 0⟩, ⟨1, 0, 1, 0⟩] :=
    enumerate_sound (n := 5) (by decide +kernel)
  have hgeneric' : Enumerates ({ it .cprl with opt := false } : Iter).next State.packet
      (({ it .cprl with opt := false } : Iter).start [] 0)
      [⟨0, 0, 0, 0⟩, ⟨0, 0, 1, 0⟩, ⟨1, 0, 0, 0⟩] :=
    enumerate_sound (n := 4) (by decide +kernel)
  refine ⟨by decide +kernel, ?_, ?_⟩
  · rw [pathsAgree_iff hfast hgeneric]
    decide
  · rw [pathsAgree_iff hfast' hgeneric']
    decide

theorem alikeRow_pcrl_cprl_agree :
    (init alikeRow .pcrl false true true false alikeRow.bounds 1 1).PathsAgree [] 0 ∧
      (init alikeRow .cprl false true true false alikeRow.bounds 1 1).PathsAgree [] 0 := by
  obtain ⟨hpcrl, hcprl⟩ := pcrl_cprl_paths_agree_iff alikeRow false true false alikeRow.bounds
    (.inr rfl) 1 1 [] 0 (by decide +kernel)
  have hfirst : ∀ r < (alikeRow.comps 0).numresolutions, ¬ alikeRow.Wraps 0 r := by decide +kernel
  have hshape : ∀ c < alikeRow.numcomps, ∀ r < (alikeRow.comps 0).numresolutions,
      alikeRow.SameShape c r := by
    unfold Tile.SameShape
    decide +kernel
  -- a visit takes place at the corner of the precinct it hands out
  have hcorner : ∀ c < 2, ∀ r < 1, ∀ i < (alikeRow.axisX 0 r).count,
      ∀ j < (alikeRow.axisY 0 r).count,
        alikeRow.precX (alikeRow.visitPacket ⟨c, r, i, j⟩ 0) = (alikeRow.axisX 0 r).corner i ∧
          alikeRow.precY (alikeRow.visitPacket ⟨c, r, i, j⟩ 0) = (alikeRow.axisY 0 r).corner j := by
    decide +kernel
  have hsort (o : SpatialOrder) : alikeRow.SortsAlike o := by
    intro v v' hv hv' h
    obtain ⟨h1, h2⟩ := hcorner _ hv.compno _ hv.resno _ hv.col _ hv.row
    obtain ⟨h3, h4⟩ := hcorner _ hv'.compno _ hv'.resno _ hv'.col _ hv'.row
    rw [h1, h2, h3, h4]
    exact h
  refine ⟨hpcrl.mpr (.inr ⟨hfirst, hshape, hsort _⟩),
    hcprl.mpr (.inr ⟨hfirst, fun c hc r hr k => ?_, hsort _⟩)⟩
  have hstored : 0 < alikeRow.storedPrecincts 0 r := by
    obtain rfl : r = 0 := by
      have : r < 1 := hr
      omega
    decide +kernel
  have hone : ∀ c < 2, alikeRow.cprlStepX c = 1 ∧ alikeRow.cprlStepY c = 1 := by decide +kernel
  have hreach : alikeRow.CprlReaches c r k := by
    rw [Tile.CprlReaches, (hone c hc).1, (hone c hc).2]
    exact ⟨one_dvd _, one_dvd _⟩
  rw [and_iff_left hreach, ← and_iff_left trivial (a := k < _)]
  exact (hshape c hc r hr).sharesNumbers hstored k

end GrokCodec.PacketIter
