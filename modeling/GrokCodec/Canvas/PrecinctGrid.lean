import GrokCodec.PacketIter.Grid
import GrokCodec.T2.FetchRanges

/-!
The precinct grid of a resolution is computed in four places: by the packet manager, for the
resolution itself, by the packet iterator and for selective fetching. They round, clamp and shift
differently; here each is compared with the count of the standard, one axis at a time.
-/

namespace GrokCodec

/-- `Rect32::scaleDownPow2`: the upper bounds round up. -/
def Rect.scaleDownPow2 (r : Rect) (powx powy : Nat) : Rect :=
  ⟨r.x0 >>> powx, r.y0 >>> powy, u32 (ceildivpow2 r.x1 powx), u32 (ceildivpow2 r.y1 powy)⟩

namespace Canvas

open PacketIter T2 Nat

/-- An upper bound aligned to precincts, clamped to 32 bits. -/
def clampedUpper (hi precExp : Nat) : Nat :=
  let temp := u32 (ceildivpow2 hi precExp) <<< precExp
  if temp > uintMax then uintMax else temp

/-- `Resolution::genPrecinctPartition`. -/
def genPrecinctPartition (window : Rect) (precWidthExp precHeightExp : Nat) : Rect :=
  let x0 := u32 (floordivpow2 window.x0 precWidthExp <<< precWidthExp)
  let y0 := u32 (floordivpow2 window.y0 precHeightExp <<< precHeightExp)
  let x1 := clampedUpper window.x1 precWidthExp
  let y1 := clampedUpper window.y1 precHeightExp
  if x1 < window.x1 ∨ y1 < window.y1 then ⟨x0, y0, max x1 window.x1, max y1 window.y1⟩
  else ⟨x0, y0, x1, y1⟩

/-- `precinctGrid_` of a resolution. -/
def precinctGrid (window : Rect) (precWidthExp precHeightExp : Nat) : Rect :=
  (genPrecinctPartition window precWidthExp precHeightExp).scaleDownPow2 precWidthExp precHeightExp

/-- The number of precincts along an axis: none if it is empty. -/
def gridCount (lo hi precExp : Nat) : Nat :=
  if lo = hi then 0 else hi ⌈/⌉ 2 ^ precExp - lo / 2 ^ precExp

/-- A rectangle with coordinates of 32 bits. -/
structure IsRect32 (r : Rect) : Prop where
  x_le : r.x0 ≤ r.x1
  y_le : r.y0 ≤ r.y1
  x1_le : r.x1 ≤ uintMax
  y1_le : r.y1 ≤ uintMax

/-- The four implementations agree on a resolution rectangle with the count of the standard. Each
is asked for every tile whose resolution rectangle this is; one that reports no precincts at all is
right when there are none. -/
structure GridsAgree (res : Rect) (px py : Nat) : Prop where
  params : ∀ (c : Component) (bounds : Rect) (r : Nat), c.resBounds bounds r = res →
    c.precWidthExp r = px → c.precHeightExp r = py →
      c.precinctGridWidth bounds r = gridCount res.x0 res.x1 px ∧
        c.precinctGridHeight bounds r = gridCount res.y0 res.y1 py
  partition : (precinctGrid res px py).width = gridCount res.x0 res.x1 px ∧
    (precinctGrid res px py).height = gridCount res.y0 res.y1 py
  info : ∀ (levelX levelY dx dy : Nat) (bounds : Rect) (window : Option Rect),
    bounds.scaleDownCeil (dx <<< levelX) (dy <<< levelY) = res →
      let inf := ResPrecinctInfo.init px py levelX levelY bounds dx dy window
      inf.numPrecincts = gridCount res.x0 res.x1 px * gridCount res.y0 res.y1 py ∧
        (inf.valid = true → inf.tileBoundsPrecGrid.width = gridCount res.x0 res.x1 px ∧
          inf.tileBoundsPrecGrid.height = gridCount res.y0 res.y1 py)
  fetch : ∀ (tc : Rect) (numResolutions resno : Nat),
    tc.scaleDownCeil (2 ^ (numResolutions - 1 - resno)) (2 ^ (numResolutions - 1 - resno)) = res →
      computeNumPrecincts tc numResolutions resno px py =
        gridCount res.x0 res.x1 px * gridCount res.y0 res.y1 py

/-- An axis on which nothing goes wrong: it does not reach from the first precinct to the end of
the 32-bit range, and if it is empty it is so on a precinct boundary. -/
def AxisFits (lo hi precExp : Nat) : Prop :=
  (lo < hi → lo < 2 ^ precExp → hi + 2 ^ precExp ≤ 2 ^ 32) ∧ (lo = hi → 2 ^ precExp ∣ lo)

section Axis

variable {lo hi p : Nat}

/-- The axis of a resolution rectangle. -/
def axisOf (hle : lo ≤ hi) (hhi : hi ≤ uintMax) (p : Nat) : Axis where
  t0 := lo
  t1 := hi
  dPRJ := 1
  precExp := p
  t_le := hle
  t1_lt := lt_of_le_of_lt hhi (by decide)
  dPRJ_pos := Nat.one_pos

theorem ceilDiv_one (n : Nat) : n ⌈/⌉ 1 = n := by
  rw [ceilDiv_eq_add_pred_div]
  simp

theorem mul_ceilDiv_le (hhi : hi ≤ uintMax) (hp : p ≤ 32) : (hi ⌈/⌉ 2 ^ p) * 2 ^ p ≤ 2 ^ 32 := by
  have hpow : 2 ^ 32 = 2 ^ p * 2 ^ (32 - p) := by
    rw [← Nat.pow_add]
    congr 1
    omega
  have hle : hi ⌈/⌉ 2 ^ p ≤ 2 ^ (32 - p) := by
    rw [ceilDiv_le_iff_le_mul (Nat.two_pow_pos p), ← hpow]
    exact hhi.trans (by decide)
  rw [hpow, Nat.mul_comm]
  exact mul_le_mul_left _ hle

/-- The last precinct ends at `2 ^ 32` exactly when less than a precinct is left above the axis. -/
theorem mul_ceilDiv_eq_iff (hhi : hi ≤ uintMax) (hp : p ≤ 32) :
    (hi ⌈/⌉ 2 ^ p) * 2 ^ p = 2 ^ 32 ↔ 2 ^ 32 < hi + 2 ^ p := by
  have hpow := Nat.two_pow_pos p
  have hmul := mul_ceilDiv_le hhi hp
  have hceil : hi ≤ 2 ^ p * (hi ⌈/⌉ 2 ^ p) := (ceilDiv_le_iff_le_mul hpow).mp le_rfl
  rw [Nat.mul_comm] at hceil
  constructor
  · intro heq
    have hlt : (hi ⌈/⌉ 2 ^ p - 1) < hi ⌈/⌉ 2 ^ p := by
      apply sub_lt _ Nat.one_pos
      apply Nat.pos_of_ne_zero
      intro hzero
      rw [hzero, Nat.zero_mul] at heq
      exact absurd heq (by decide)
    rw [lt_ceilDiv_iff hpow, Nat.mul_sub, Nat.mul_comm, heq, Nat.mul_one] at hlt
    omega
  · intro hlt
    by_contra hne
    -- otherwise one more precinct would still fit below `2 ^ 32`
    obtain ⟨k, hk⟩ : 2 ^ p ∣ 2 ^ 32 := Nat.pow_dvd_pow 2 hp
    have hless : hi ⌈/⌉ 2 ^ p < k := by
      apply Nat.lt_of_mul_lt_mul_right (a := 2 ^ p)
      rw [Nat.mul_comm k, ← hk]
      omega
    have := mul_le_mul_right (2 ^ p) (succ_le_of_lt hless)
    rw [succ_mul, Nat.mul_comm k, ← hk] at this
    omega

theorem wraps_iff (hle : lo ≤ hi) (hhi : hi ≤ uintMax) (hp : p ≤ 32) :
    (axisOf hle hhi p).Wraps ↔ lo < hi ∧ lo < 2 ^ p ∧ 2 ^ 32 < hi + 2 ^ p := by
  have hpow := Nat.two_pow_pos p
  simp only [Axis.Wraps, Axis.grid0, Axis.grid1, Axis.res0, Axis.res1, axisOf, ceilDiv_one,
    mul_ceilDiv_eq_iff hhi hp]
  refine and_congr_right fun _ => and_congr_left fun _ => ?_
  rw [Nat.div_eq_zero_iff]
  omega

theorem gridExtent_axis (hle : lo ≤ hi) (hhi : hi ≤ uintMax) (hp : p ≤ 32) :
    gridExtent lo hi p =
      if lo < hi ∧ lo < 2 ^ p ∧ 2 ^ 32 < hi + 2 ^ p then 0 else gridCount lo hi p := by
  have h := (axisOf hle hhi p).gridExtent_eq hp
  simp only [wraps_iff hle hhi hp] at h
  simp only [Axis.count, Axis.grid0, Axis.grid1, Axis.res0, Axis.res1, axisOf, ceilDiv_one] at h
  rw [h, gridCount]
  congr 1
  by_cases heq : lo = hi
  · rw [if_pos heq, if_neg (by omega)]
  · rw [if_neg heq, if_pos (by omega)]

theorem gridCount_pos (hlt : lo < hi) : 0 < gridCount lo hi p := by
  rw [gridCount, if_neg hlt.ne]
  apply Nat.sub_pos_of_lt
  rw [lt_ceilDiv_iff (Nat.two_pow_pos p)]
  exact (mul_div_le lo _).trans_lt hlt

/-- The packet manager counts right exactly when the aligned bounds do not wrap. -/
theorem gridExtent_eq_gridCount_iff (hle : lo ≤ hi) (hhi : hi ≤ uintMax) (hp : p ≤ 32) :
    gridExtent lo hi p = gridCount lo hi p ↔ (lo < hi → lo < 2 ^ p → hi + 2 ^ p ≤ 2 ^ 32) := by
  rw [gridExtent_axis hle hhi hp]
  by_cases hwrap : lo < hi ∧ lo < 2 ^ p ∧ 2 ^ 32 < hi + 2 ^ p
  · have hpos := gridCount_pos (p := p) hwrap.1
    rw [if_pos hwrap]
    constructor
    · intro hzero
      omega
    · intro hfits
      omega
  · rw [if_neg hwrap]
    simp only [true_iff]
    intro hlt hfirst
    apply Nat.le_of_not_lt
    intro hreach
    exact hwrap ⟨hlt, hfirst, hreach⟩

theorem le_clampedUpper (p : Nat) (hhi : hi ≤ uintMax) : hi ≤ clampedUpper hi p := by
  have hceil : hi ≤ 2 ^ p * (hi ⌈/⌉ 2 ^ p) := (ceilDiv_le_iff_le_mul (Nat.two_pow_pos p)).mp le_rfl
  have hsmall : hi ⌈/⌉ 2 ^ p < 2 ^ 32 :=
    (ceilDiv_le_self (Nat.two_pow_pos p)).trans_lt (hhi.trans_lt (by decide))
  rw [Nat.mul_comm] at hceil
  simp only [clampedUpper, ceildivpow2_eq, u32_of_lt hsmall, shiftLeft_eq]
  split
  · exact hhi
  · exact hceil

/-- The clamp takes nothing from the grid: rounding up restores the precinct it cuts. -/
theorem ceilDiv_clampedUpper (hhi : hi ≤ uintMax) (hp : p ≤ 32) :
    clampedUpper hi p ⌈/⌉ 2 ^ p = hi ⌈/⌉ 2 ^ p := by
  have hpow := Nat.two_pow_pos p
  have hmul := mul_ceilDiv_le hhi hp
  have hsmall : hi ⌈/⌉ 2 ^ p < 2 ^ 32 :=
    (ceilDiv_le_self hpow).trans_lt (hhi.trans_lt (by decide))
  apply le_antisymm
  · rw [ceilDiv_le_iff_le_mul hpow, Nat.mul_comm]
    simp only [clampedUpper, ceildivpow2_eq, u32_of_lt hsmall, shiftLeft_eq]
    split
    · omega
    · exact le_rfl
  · exact (gc_mul_ceilDiv hpow).monotone_l (le_clampedUpper p hhi)

theorem genPrecinctPartition_eq {window : Rect} (h : IsRect32 window) (px py : Nat) :
    genPrecinctPartition window px py =
      ⟨window.x0 / 2 ^ px * 2 ^ px, window.y0 / 2 ^ py * 2 ^ py, clampedUpper window.x1 px,
        clampedUpper window.y1 py⟩ := by
  have haligned : ∀ {lo hi p : Nat}, lo ≤ hi → hi ≤ uintMax →
      u32 (floordivpow2 lo p <<< p) = lo / 2 ^ p * 2 ^ p := by
    intro lo hi p hle hhi
    rw [floordivpow2_eq, shiftLeft_eq]
    exact u32_of_lt (lt_of_le_of_lt ((div_mul_le_self lo _).trans (hle.trans hhi)) (by decide))
  have hcover : ¬ (clampedUpper window.x1 px < window.x1 ∨ clampedUpper window.y1 py < window.y1) := by
    have hx := le_clampedUpper px h.x1_le
    have hy := le_clampedUpper py h.y1_le
    omega
  simp only [genPrecinctPartition, if_neg hcover, haligned h.x_le h.x1_le, haligned h.y_le h.y1_le]

theorem precinctGrid_eq {window : Rect} (h : IsRect32 window) {px py : Nat} (hpx : px ≤ 32)
    (hpy : py ≤ 32) : precinctGrid window px py =
      ⟨window.x0 / 2 ^ px, window.y0 / 2 ^ py, window.x1 ⌈/⌉ 2 ^ px, window.y1 ⌈/⌉ 2 ^ py⟩ := by
  have hsmall : ∀ {hi p : Nat}, hi ≤ uintMax → hi ⌈/⌉ 2 ^ p < 2 ^ 32 := fun hhi =>
    (ceilDiv_le_self (Nat.two_pow_pos _)).trans_lt (hhi.trans_lt (by decide))
  rw [precinctGrid, genPrecinctPartition_eq h px py, Rect.scaleDownPow2]
  simp only [shiftRight_eq_div_pow, Nat.mul_div_cancel _ (Nat.two_pow_pos _), ceildivpow2_eq,
    ceilDiv_clampedUpper h.x1_le hpx, ceilDiv_clampedUpper h.y1_le hpy, u32_of_lt (hsmall h.x1_le),
    u32_of_lt (hsmall h.y1_le)]

theorem div_le_ceilDiv (hle : lo ≤ hi) : lo / 2 ^ p ≤ hi ⌈/⌉ 2 ^ p := by
  have hpow := Nat.two_pow_pos p
  refine (Nat.div_le_div_right hle).trans ?_
  rw [ceilDiv_eq_add_pred_div]
  exact Nat.div_le_div_right (by omega)

theorem sub32_grid (hle : lo ≤ hi) (hhi : hi ≤ uintMax) :
    sub32 (hi ⌈/⌉ 2 ^ p) (lo / 2 ^ p) = hi ⌈/⌉ 2 ^ p - lo / 2 ^ p :=
  sub32_of_le (div_le_ceilDiv hle)
    ((ceilDiv_le_self (Nat.two_pow_pos p)).trans_lt (hhi.trans_lt (by decide)))

/-- Without a test for emptiness the difference is right unless the axis is empty in the middle of
a precinct. -/
theorem grid_eq_gridCount_iff (hle : lo ≤ hi) :
    hi ⌈/⌉ 2 ^ p - lo / 2 ^ p = gridCount lo hi p ↔ (lo = hi → 2 ^ p ∣ lo) := by
  have hpow := Nat.two_pow_pos p
  by_cases heq : lo = hi
  · subst heq
    rw [gridCount, if_pos rfl]
    simp only [forall_const]
    constructor
    · intro hzero
      have hceil := Nat.sub_eq_zero_iff_le.mp hzero
      rw [ceilDiv_le_iff_le_mul hpow] at hceil
      exact ⟨lo / 2 ^ p, le_antisymm hceil (mul_div_le lo _)⟩
    · rintro ⟨k, rfl⟩
      rw [mul_ceilDiv_cancel hpow, Nat.mul_div_cancel_left _ hpow, Nat.sub_self]
  · simp [gridCount, heq]

end Axis

section Agreement

variable {res : Rect} {px py : Nat}

theorem gridExtent_empty (lo p : Nat) : gridExtent lo lo p = 0 := by
  rw [gridExtent, sub32_self, if_pos rfl]

theorem computeNumPrecincts_eq {tc : Rect} {numResolutions resno : Nat}
    (htc : tc.scaleDownCeil (2 ^ (numResolutions - 1 - resno)) (2 ^ (numResolutions - 1 - resno)) =
      res) (h : IsRect32 res) :
    computeNumPrecincts tc numResolutions resno px py =
      gridExtent res.x0 res.x1 px * gridExtent res.y0 res.y1 py := by
  have hscaled : ∀ a n, u32 (ceildivpow2 a n) = ceildiv a (2 ^ n) := by
    intro a n
    rw [ceildivpow2, shiftRight_eq_div_pow, ceildiv]
  have hx0 : ceildiv tc.x0 (2 ^ (numResolutions - 1 - resno)) = res.x0 := congrArg Rect.x0 htc
  have hy0 : ceildiv tc.y0 (2 ^ (numResolutions - 1 - resno)) = res.y0 := congrArg Rect.y0 htc
  have hx1 : ceildiv tc.x1 (2 ^ (numResolutions - 1 - resno)) = res.x1 := congrArg Rect.x1 htc
  have hy1 : ceildiv tc.y1 (2 ^ (numResolutions - 1 - resno)) = res.y1 := congrArg Rect.y1 htc
  have hxle := h.x_le
  have hyle := h.y_le
  simp only [computeNumPrecincts, hscaled _ (numResolutions - 1 - resno), hx0, hy0, hx1, hy1]
  by_cases hx : res.x0 = res.x1
  · rw [if_pos (.inl (by simp [hx])), hx, gridExtent_empty, Nat.zero_mul]
  by_cases hy : res.y0 = res.y1
  · rw [if_pos (.inr (by simp [hy])), hy, gridExtent_empty, Nat.mul_zero]
  have hw : sub32 res.x1 res.x0 ≠ 0 := by
    rw [sub32_of_le hxle (h.x1_le.trans_lt (by decide))]
    omega
  have hh : sub32 res.y1 res.y0 ≠ 0 := by
    rw [sub32_of_le hyle (h.y1_le.trans_lt (by decide))]
    omega
  rw [if_neg, gridExtent, gridExtent, if_neg hw, if_neg hh]
  rw [if_pos (by omega), if_pos (by omega)]
  omega

theorem info_eq {levelX levelY dx dy : Nat} {bounds : Rect} (window : Option Rect)
    (hres : bounds.scaleDownCeil (dx <<< levelX) (dy <<< levelY) = res) (h : IsRect32 res) :
    let inf := ResPrecinctInfo.init px py levelX levelY bounds dx dy window
    inf.numPrecincts = gridCount res.x0 res.x1 px * gridCount res.y0 res.y1 py ∧
      (inf.valid = true → inf.tileBoundsPrecGrid.width = gridCount res.x0 res.x1 px ∧
        inf.tileBoundsPrecGrid.height = gridCount res.y0 res.y1 py) := by
  have hsmall : ∀ {n p : Nat}, n ≤ uintMax → ceildiv n (2 ^ p) = n ⌈/⌉ 2 ^ p := fun hn =>
    ceildiv_eq (Nat.two_pow_pos _) (hn.trans_lt (by decide))
  have hdiv : ∀ {n p : Nat}, n ≤ uintMax → u32 (n / 2 ^ p) = n / 2 ^ p := fun hn =>
    u32_of_lt ((div_le_self _ _).trans_lt (hn.trans_lt (by decide)))
  simp only [ResPrecinctInfo.init, hres]
  by_cases hempty : res.x0 = res.x1 ∨ res.y0 = res.y1
  · rw [if_pos hempty]
    refine ⟨?_, fun hvalid => nomatch hvalid⟩
    rcases hempty with hx | hy
    · simp [gridCount, hx]
    · simp [gridCount, hy]
  · obtain ⟨hx, hy⟩ := not_or.mp hempty
    have hwidth : (res.scaleDown (2 ^ px) (2 ^ py)).width = gridCount res.x0 res.x1 px := by
      rw [Rect.width, Rect.scaleDown, hsmall h.x1_le, hdiv (h.x_le.trans h.x1_le),
        sub32_grid h.x_le h.x1_le, gridCount, if_neg hx]
    have hheight : (res.scaleDown (2 ^ px) (2 ^ py)).height = gridCount res.y0 res.y1 py := by
      rw [Rect.height, Rect.scaleDown, hsmall h.y1_le, hdiv (h.y_le.trans h.y1_le),
        sub32_grid h.y_le h.y1_le, gridCount, if_neg hy]
    rw [if_neg hempty]
    exact ⟨by rw [Rect.area, hwidth, hheight], fun _ => ⟨hwidth, hheight⟩⟩

/-- A component that is not subsampled and has one resolution. -/
def wholeComponent (px py : Nat) (hpx : px ≤ 15) (hpy : py ≤ 15) : Component :=
  .part1 1 1 px py unit_range one_res hpx hpy

theorem wholeComponent_resBounds (hpx : px ≤ 15) (hpy : py ≤ 15) (h : IsRect32 res) :
    (wholeComponent px py hpx hpy).resBounds res 0 = res := by
  have hone : ∀ {n : Nat}, n ≤ uintMax → ceildiv n 1 = n := by
    intro n hn
    rw [ceildiv_eq Nat.one_pos (hn.trans_lt (by decide)), ceilDiv_one]
  change (res.scaleDownCeil 1 1).scaleDownCeil 1 1 = res
  simp only [Rect.scaleDownCeil, hone h.x1_le, hone h.y1_le, hone (h.x_le.trans h.x1_le),
    hone (h.y_le.trans h.y1_le)]

/-- **The four precinct grids agree exactly on the rectangles that fit** along both axes. -/
theorem gridsAgree_iff (h : IsRect32 res) (hpx : px ≤ 15) (hpy : py ≤ 15) :
    GridsAgree res px py ↔ AxisFits res.x0 res.x1 px ∧ AxisFits res.y0 res.y1 py := by
  have hpx32 : px ≤ 32 := hpx.trans (by decide)
  have hpy32 : py ≤ 32 := hpy.trans (by decide)
  have hwidth : (precinctGrid res px py).width = res.x1 ⌈/⌉ 2 ^ px - res.x0 / 2 ^ px := by
    rw [precinctGrid_eq h hpx32 hpy32, Rect.width, sub32_grid h.x_le h.x1_le]
  have hheight : (precinctGrid res px py).height = res.y1 ⌈/⌉ 2 ^ py - res.y0 / 2 ^ py := by
    rw [precinctGrid_eq h hpx32 hpy32, Rect.height, sub32_grid h.y_le h.y1_le]
  constructor
  · intro hagree
    obtain ⟨hw, hh⟩ := hagree.params (wholeComponent px py hpx hpy) res 0
      (wholeComponent_resBounds hpx hpy h) rfl rfl
    obtain ⟨hpw, hph⟩ := hagree.partition
    simp only [Component.precinctGridWidth, Component.precinctGridHeight,
      wholeComponent_resBounds hpx hpy h] at hw hh
    rw [hwidth] at hpw
    rw [hheight] at hph
    exact ⟨⟨(gridExtent_eq_gridCount_iff h.x_le h.x1_le hpx32).mp hw,
        (grid_eq_gridCount_iff h.x_le).mp hpw⟩,
      ⟨(gridExtent_eq_gridCount_iff h.y_le h.y1_le hpy32).mp hh,
        (grid_eq_gridCount_iff h.y_le).mp hph⟩⟩
  · rintro ⟨⟨hwrapX, hemptyX⟩, hwrapY, hemptyY⟩
    have hx := (gridExtent_eq_gridCount_iff h.x_le h.x1_le hpx32).mpr hwrapX
    have hy := (gridExtent_eq_gridCount_iff h.y_le h.y1_le hpy32).mpr hwrapY
    refine ⟨?_, ⟨?_, ?_⟩, ?_, ?_⟩
    · intro c bounds r hres hcx hcy
      simp only [Component.precinctGridWidth, Component.precinctGridHeight, hres, hcx, hcy]
      exact ⟨hx, hy⟩
    · rw [hwidth]
      exact (grid_eq_gridCount_iff h.x_le).mpr hemptyX
    · rw [hheight]
      exact (grid_eq_gridCount_iff h.y_le).mpr hemptyY
    · intro levelX levelY dx dy bounds window hres
      exact info_eq window hres h
    · intro tc numResolutions resno htc
      rw [computeNumPrecincts_eq htc h, hx, hy]

theorem gridsAgree_example : GridsAgree ⟨3, 0, 100, 7⟩ 5 0 :=
  (gridsAgree_iff ⟨by decide, by decide, by decide, by decide⟩ (by decide) (by decide)).mpr
    ⟨⟨by decide, by decide⟩, by decide, by decide⟩

/-- Precincts that cover the whole 32-bit range are not seen by the packet manager, and an empty
resolution that begins inside a precinct has one precinct in its own grid. -/
theorem gridsAgree_fails :
    (IsRect32 ⟨0, 0, 2 ^ 32 - 1, 1⟩ ∧ ¬ GridsAgree ⟨0, 0, 2 ^ 32 - 1, 1⟩ 15 15) ∧
      IsRect32 ⟨1, 0, 1, 1⟩ ∧ ¬ GridsAgree ⟨1, 0, 1, 1⟩ 1 1 := by
  have hwide : IsRect32 ⟨0, 0, 2 ^ 32 - 1, 1⟩ := ⟨by decide, by decide, by decide, by decide⟩
  refine ⟨⟨hwide, ?_⟩, ⟨by decide, by decide, by decide, by decide⟩, ?_⟩
  · intro hagree
    have hcount := (hagree.params (wholeComponent 15 15 le_rfl le_rfl) ⟨0, 0, 2 ^ 32 - 1, 1⟩ 0
      (wholeComponent_resBounds le_rfl le_rfl hwide) rfl rfl).1
    exact absurd hcount (by decide +kernel)
  · intro hagree
    exact absurd hagree.partition.1 (by decide +kernel)

end Agreement

end Canvas

end GrokCodec
