import GrokCodec.PacketIter.Next
import Mathlib.Tactic.Linarith

/-!
The geometry of precincts, one axis at a time. `Axis` states it in exact arithmetic; the
theorems below it say what the 32-bit computations of the iterator make of it.
-/

namespace GrokCodec.PacketIter

open Nat

open Nat (shiftLeft_eq two_pow_pos)

/-- One axis of a resolution: the tile's interval on the reference grid, the spacing of the
resolution's samples there, and the precinct exponent. -/
structure Axis where
  t0 : Nat
  t1 : Nat
  dPRJ : Nat
  precExp : Nat
  t_le : t0 ≤ t1
  t1_lt : t1 < 2 ^ 32
  dPRJ_pos : 0 < dPRJ

namespace Axis

variable (a : Axis)

def res0 : Nat := a.t0 ⌈/⌉ a.dPRJ

def res1 : Nat := a.t1 ⌈/⌉ a.dPRJ

/-- Extent of a precinct on the reference grid. -/
def stride : Nat := a.dPRJ * 2 ^ a.precExp

def grid0 : Nat := a.res0 / 2 ^ a.precExp

def grid1 : Nat := a.res1 ⌈/⌉ 2 ^ a.precExp

/-- Number of precincts along the axis. -/
def count : Nat := if a.res0 < a.res1 then a.grid1 - a.grid0 else 0

/-- Where precinct `k` begins on the reference grid, inside the tile. -/
def corner (k : Nat) : Nat := max a.t0 ((a.grid0 + k) * a.stride)

/-- The aligned extent of the axis reaches `2 ^ 32` and starts at zero, which 32-bit
arithmetic cannot tell from an empty one. -/
def Wraps : Prop := a.res0 < a.res1 ∧ a.grid0 = 0 ∧ a.grid1 * 2 ^ a.precExp = 2 ^ 32

instance : Decidable a.Wraps := inferInstanceAs (Decidable (_ ∧ _ ∧ _))

variable {a}

theorem stride_pos : 0 < a.stride := mul_pos a.dPRJ_pos (two_pow_pos _)

variable {k : Nat}

theorem res0_le_iff : a.res0 ≤ k ↔ a.t0 ≤ a.dPRJ * k := ceilDiv_le_iff_le_mul a.dPRJ_pos

theorem lt_res1_iff : k < a.res1 ↔ a.dPRJ * k < a.t1 := lt_ceilDiv_iff a.dPRJ_pos

theorem lt_res0_iff : k < a.res0 ↔ a.dPRJ * k < a.t0 := lt_ceilDiv_iff a.dPRJ_pos

theorem lt_grid1_iff {m : Nat} : m < a.grid1 ↔ m * a.stride < a.t1 := by
  rw [grid1, lt_ceilDiv_iff (two_pow_pos _), lt_res1_iff, stride]
  rw [show a.dPRJ * (2 ^ a.precExp * m) = m * (a.dPRJ * 2 ^ a.precExp) by ring]

theorem lt_of_count_pos (h : 0 < a.count) : a.res0 < a.res1 := by
  by_contra hc
  simp [count, hc] at h

theorem grid0_lt_grid1 (h : a.res0 < a.res1) : a.grid0 < a.grid1 := by
  rw [grid1, lt_ceilDiv_iff (two_pow_pos _)]
  exact lt_of_le_of_lt (mul_div_le _ _) h

theorem count_pos_iff : 0 < a.count ↔ a.res0 < a.res1 := by
  refine ⟨lt_of_count_pos, fun h => ?_⟩
  have := grid0_lt_grid1 h
  rw [count, if_pos h]
  omega

theorem lt_count_iff (h : a.res0 < a.res1) : k < a.count ↔ a.grid0 + k < a.grid1 := by
  rw [count, if_pos h]
  omega

theorem t0_le_corner (a : Axis) (k : Nat) : a.t0 ≤ a.corner k := le_max_left _ _

theorem corner_lt (hk : k < a.count) : a.corner k < a.t1 := by
  have hres := lt_of_count_pos (lt_of_le_of_lt (zero_le k) hk)
  rw [lt_count_iff hres, lt_grid1_iff] at hk
  refine max_lt ?_ hk
  have h0 : a.t0 ≤ a.dPRJ * a.res0 := res0_le_iff.mp le_rfl
  exact lt_of_le_of_lt h0 (lt_res1_iff.mp hres)

theorem t0_le_of_pos (hk : 0 < k) : a.t0 ≤ (a.grid0 + k) * a.stride := by
  have hlt : a.res0 ≤ 2 ^ a.precExp * (a.grid0 + k) := by
    have hdiv := div_add_mod a.res0 (2 ^ a.precExp)
    have hmul := mul_le_mul_left (2 ^ a.precExp) hk
    rw [grid0, mul_add]
    omega
  have := res0_le_iff.mp hlt
  rw [stride]
  calc a.t0 ≤ a.dPRJ * (2 ^ a.precExp * (a.grid0 + k)) := this
    _ = (a.grid0 + k) * (a.dPRJ * 2 ^ a.precExp) := by ring

theorem corner_of_pos (hk : 0 < k) : a.corner k = (a.grid0 + k) * a.stride :=
  max_eq_right (t0_le_of_pos hk)

theorem corner_zero_lt : a.corner 0 < a.corner 1 := by
  rw [corner_of_pos one_pos, corner]
  have hstride := a.stride_pos
  refine max_lt ?_ ?_
  · -- the tile starts at or before the first sample of the second precinct
    have hdiv := div_add_mod a.res0 (2 ^ a.precExp)
    have hle : a.res0 + 1 ≤ 2 ^ a.precExp * (a.grid0 + 1) := by
      rw [grid0, mul_add, mul_one]
      omega
    have h0 : a.t0 ≤ a.dPRJ * a.res0 := res0_le_iff.mp le_rfl
    have hmul := mul_le_mul_left a.dPRJ hle
    have hd := a.dPRJ_pos
    calc a.t0 ≤ a.dPRJ * a.res0 := h0
      _ < a.dPRJ * (a.res0 + 1) := by rw [mul_add]; omega
      _ ≤ a.dPRJ * (2 ^ a.precExp * (a.grid0 + 1)) := hmul
      _ = (a.grid0 + 1) * a.stride := by rw [stride]; ring
  · rw [add_mul, add_mul]
    omega

theorem corner_strictMono : StrictMono a.corner := by
  refine strictMono_nat_of_lt_succ fun k => ?_
  rcases Nat.eq_zero_or_pos k with rfl | hk
  · exact corner_zero_lt
  · rw [corner_of_pos hk, corner_of_pos (Nat.succ_pos k)]
    exact mul_lt_mul_of_pos_right (by omega) stride_pos

/-- A reference grid position where the iterator finds a precinct, and which one: what
`genPrecinct0Grid` computes when its arithmetic is exact. -/
theorem find_iff (offset : Nat) {q : Nat} (hres : a.res0 < a.res1)
    (hoff : offset ≠ 0 ↔ ¬ 2 ^ a.precExp ∣ a.res0) (h0 : a.t0 ≤ q) (h1 : q < a.t1) :
    ((a.stride ∣ q ∨ (q = a.t0 ∧ offset ≠ 0)) ∧
      (q ⌈/⌉ a.dPRJ) / 2 ^ a.precExp - a.grid0 = k) ↔ k < a.count ∧ a.corner k = q := by
  have hpow := two_pow_pos a.precExp
  rw [hoff, lt_count_iff hres]
  constructor
  · rintro ⟨⟨m, rfl⟩ | ⟨rfl, hdvd⟩, hk⟩
    · -- a multiple of the stride is the corner of precinct `m - grid0`
      have hm : (a.stride * m ⌈/⌉ a.dPRJ) / 2 ^ a.precExp = m := by
        rw [stride, Nat.mul_assoc, mul_ceilDiv_cancel a.dPRJ_pos, Nat.mul_div_cancel_left _ hpow]
      have hg : a.grid0 ≤ m := by
        have hle : a.res0 ≤ 2 ^ a.precExp * m := by
          rw [res0_le_iff]
          rw [stride, Nat.mul_assoc] at h0
          exact h0
        exact Nat.div_le_of_le_mul hle
      have hsum : a.grid0 + k = m := by omega
      rw [corner, hsum, lt_grid1_iff, Nat.mul_comm m]
      exact ⟨h1, max_eq_right h0⟩
    · -- the tile's own edge cuts the first precinct
      have hk0 : k = 0 := by
        have : (a.t0 ⌈/⌉ a.dPRJ) / 2 ^ a.precExp = a.grid0 := rfl
        omega
      subst hk0
      refine ⟨by simpa using grid0_lt_grid1 hres, max_eq_left ?_⟩
      have hlt : 2 ^ a.precExp * a.grid0 < a.res0 :=
        lt_of_le_of_ne (mul_div_le _ _) fun h => hdvd ⟨a.grid0, h.symm⟩
      have := lt_res0_iff.mp hlt
      rw [add_zero, stride]
      calc a.grid0 * (a.dPRJ * 2 ^ a.precExp) = a.dPRJ * (2 ^ a.precExp * a.grid0) := by ring
        _ ≤ a.t0 := le_of_lt this
  · rintro ⟨hk, rfl⟩
    by_cases hle : a.t0 ≤ (a.grid0 + k) * a.stride
    · have hc : a.corner k = a.stride * (a.grid0 + k) := by
        rw [corner, max_eq_right hle, Nat.mul_comm]
      rw [hc]
      refine ⟨.inl ⟨_, rfl⟩, ?_⟩
      rw [stride, Nat.mul_assoc, mul_ceilDiv_cancel a.dPRJ_pos, Nat.mul_div_cancel_left _ hpow]
      omega
    · rw [not_le] at hle
      have hk0 : k = 0 := by
        by_contra hne
        exact absurd (t0_le_of_pos (pos_of_ne_zero hne)) (not_le.mpr hle)
      subst hk0
      have hc : a.corner 0 = a.t0 := max_eq_left hle.le
      rw [hc]
      refine ⟨.inr ⟨rfl, fun hdvd => ?_⟩, by
        have : (a.t0 ⌈/⌉ a.dPRJ) / 2 ^ a.precExp = a.grid0 := rfl
        omega⟩
      have heq : 2 ^ a.precExp * a.grid0 = a.res0 := Nat.mul_div_cancel' hdvd
      have h0' : a.t0 ≤ a.dPRJ * a.res0 := res0_le_iff.mp le_rfl
      rw [← heq] at h0'
      rw [add_zero, stride] at hle
      have : a.grid0 * (a.dPRJ * 2 ^ a.precExp) = a.dPRJ * (2 ^ a.precExp * a.grid0) := by ring
      omega

/-- The corners strictly inside the tile are the multiples of the stride there. -/
theorem exists_corner_iff {q : Nat} (h0 : a.t0 < q) (h1 : q < a.t1) :
    (∃ k < a.count, a.corner k = q) ↔ a.res0 < a.res1 ∧ a.stride ∣ q := by
  constructor
  · rintro ⟨k, hk, rfl⟩
    refine ⟨lt_of_count_pos (by omega), a.grid0 + k, ?_⟩
    rcases max_choice a.t0 ((a.grid0 + k) * a.stride) with h | h
    · exact absurd h0 (by rw [corner, h]; exact lt_irrefl _)
    · rw [corner, h, Nat.mul_comm]
  · rintro ⟨hres, hdvd⟩
    have hfind := (find_iff (if 2 ^ a.precExp ∣ a.res0 then 0 else 1)
      (k := (q ⌈/⌉ a.dPRJ) / 2 ^ a.precExp - a.grid0) hres (by split <;> simp_all) h0.le h1).mp
      ⟨.inl hdvd, rfl⟩
    exact ⟨_, hfind⟩

theorem res0_lt : a.res0 < 2 ^ 32 :=
  lt_of_le_of_lt (ceilDiv_le_self a.dPRJ_pos) (lt_of_le_of_lt a.t_le a.t1_lt)

theorem res1_lt : a.res1 < 2 ^ 32 := lt_of_le_of_lt (ceilDiv_le_self a.dPRJ_pos) a.t1_lt

theorem res0_le_res1 : a.res0 ≤ a.res1 := by
  rw [res0_le_iff]
  exact a.t_le.trans ((ceilDiv_le_iff_le_mul a.dPRJ_pos).mp le_rfl)

/-- `PacketManager::getParams` counts the precincts of an axis, unless the count wraps. -/
theorem gridExtent_eq (hp : a.precExp ≤ 32) :
    gridExtent a.res0 a.res1 a.precExp = if a.Wraps then 0 else a.count := by
  have hpow := two_pow_pos a.precExp
  have h1 := a.res1_lt
  rw [gridExtent, sub32_of_le res0_le_res1 h1]
  by_cases hres : a.res0 < a.res1
  · have hg := grid0_lt_grid1 hres
    -- the aligned upper bound is at most `2 ^ 32`
    have hmul : a.grid1 * 2 ^ a.precExp ≤ 2 ^ 32 := by
      have hdvd : 2 ^ 32 = 2 ^ a.precExp * 2 ^ (32 - a.precExp) := by
        rw [← pow_add]; congr 1; omega
      have : a.grid1 ≤ 2 ^ (32 - a.precExp) := by
        rw [grid1, ceilDiv_le_iff_le_mul hpow, ← hdvd]
        exact h1.le
      rw [hdvd, Nat.mul_comm]
      exact mul_le_mul_left _ this
    have hg1 : a.grid1 ≤ a.res1 := ceilDiv_le_self hpow
    have hlow := mul_lt_mul_of_pos_right hg hpow
    have hlow32 := lt_of_lt_of_le hlow hmul
    rw [if_neg (by omega), ceildivpow2_eq, floordivpow2_eq, shiftLeft_eq, shiftLeft_eq,
      shiftRight_eq_div_pow]
    change sub32 (u32 (u32 a.grid1 * 2 ^ a.precExp)) (u32 (a.grid0 * 2 ^ a.precExp)) / _ = _
    rw [u32_of_lt (by omega : a.grid1 < 2 ^ 32), u32_of_lt hlow32]
    have hcount : a.count = a.grid1 - a.grid0 := if_pos hres
    rcases Nat.lt_or_ge (a.grid1 * 2 ^ a.precExp) (2 ^ 32) with hlt | hge
    · rw [u32_of_lt hlt, sub32_of_le hlow.le hlt, ← Nat.sub_mul, Nat.mul_div_cancel _ hpow,
        if_neg (fun h => by have := h.2.2; omega), hcount]
    · have heq := le_antisymm hmul hge
      rw [heq, show u32 (2 ^ 32) = 0 from rfl]
      rcases Nat.eq_zero_or_pos a.grid0 with hz | hz
      · rw [if_pos ⟨hres, hz, heq⟩, hz]
        simp [sub32, u32]
      · have hpos := mul_pos hz hpow
        rw [if_neg (fun h => by have := h.2.1; omega), sub32, zero_add,
          u32_of_lt (sub_lt (by decide) hpos), ← heq, ← Nat.sub_mul,
          Nat.mul_div_cancel _ hpow, hcount]
  · have heq : a.res0 = a.res1 := le_antisymm res0_le_res1 (by omega)
    rw [if_pos (by omega), if_neg (fun h => hres h.1), count, if_neg hres]

end Axis

namespace Component

variable (c : Component) (T : Tile) (r : Nat)

/-- The horizontal axis of resolution `r`. -/
def axisX : Axis where
  t0 := T.bounds.x0
  t1 := T.bounds.x1
  dPRJ := c.dx * 2 ^ c.depthX r
  precExp := c.precWidthExp r
  t_le := T.x_le
  t1_lt := T.x1_lt
  dPRJ_pos := mul_pos c.dx_range.1 (two_pow_pos _)

/-- The vertical axis of resolution `r`. -/
def axisY : Axis where
  t0 := T.bounds.y0
  t1 := T.bounds.y1
  dPRJ := c.dy * 2 ^ c.depthY r
  precExp := c.precHeightExp r
  t_le := T.y_le
  t1_lt := T.y1_lt
  dPRJ_pos := mul_pos c.dy_range.1 (two_pow_pos _)

theorem ceildiv_ceildiv_pow {t d k : Nat} (ht : t < 2 ^ 32) (hd : 0 < d) :
    ceildiv (ceildiv t d) (2 ^ k) = t ⌈/⌉ (d * 2 ^ k) := by
  have hlt := lt_of_le_of_lt (ceilDiv_le_self hd) ht
  rw [ceildiv_eq hd ht, ceildiv_eq (two_pow_pos _) hlt,
    ceilDiv_ceilDiv _ hd (two_pow_pos _)]

theorem gridWidth_eq : c.precinctGridWidth T.bounds r =
    if (c.axisX T r).Wraps then 0 else (c.axisX T r).count := by
  have h1 := T.x1_lt
  have h0 := lt_of_le_of_lt T.x_le h1
  rw [← (c.axisX T r).gridExtent_eq ((c.precWidthExp_le r).trans (by decide))]
  unfold precinctGridWidth resBounds Rect.scaleDownCeil
  rw [ceildiv_ceildiv_pow h0 c.dx_range.1, ceildiv_ceildiv_pow h1 c.dx_range.1]
  rfl

theorem gridHeight_eq : c.precinctGridHeight T.bounds r =
    if (c.axisY T r).Wraps then 0 else (c.axisY T r).count := by
  have h1 := T.y1_lt
  have h0 := lt_of_le_of_lt T.y_le h1
  rw [← (c.axisY T r).gridExtent_eq ((c.precHeightExp_le r).trans (by decide))]
  unfold precinctGridHeight resBounds Rect.scaleDownCeil
  rw [ceildiv_ceildiv_pow h0 c.dy_range.1, ceildiv_ceildiv_pow h1 c.dy_range.1]
  rfl

end Component

/-- What a valid `ResPrecinctInfo` says about its two axes. -/
structure InfoFor (a b : Axis) (inf : ResPrecinctInfo) : Prop where
  precWidthExp : inf.precWidthExp = a.precExp
  precHeightExp : inf.precHeightExp = b.precExp
  precWidthPRJ : inf.precWidthPRJ = a.stride
  precHeightPRJ : inf.precHeightPRJ = b.stride
  dxPRJ : inf.dxPRJ = a.dPRJ
  dyPRJ : inf.dyPRJ = b.dPRJ
  resOffsetX0PRJ : inf.resOffsetX0PRJ ≠ 0 ↔ ¬ 2 ^ a.precExp ∣ a.res0
  resOffsetY0PRJ : inf.resOffsetY0PRJ ≠ 0 ↔ ¬ 2 ^ b.precExp ∣ b.res0
  resInPrecGridX0 : inf.resInPrecGridX0 = a.grid0
  resInPrecGridY0 : inf.resInPrecGridY0 = b.grid0
  tileBoundsPrecGrid : inf.tileBoundsPrecGrid = ⟨a.grid0, b.grid0, a.grid1, b.grid1⟩
  tileBoundsPrecPRJ : inf.tileBoundsPrecPRJ =
    ⟨a.grid0 * a.stride, b.grid0 * b.stride, a.grid1 * a.stride, b.grid1 * b.stride⟩

/-- The cached offset is zero exactly when the resolution starts on a precinct boundary; in
a non-empty resolution its conversion to 32 bits loses nothing. -/
theorem resOffset_ne_zero_iff {a : Axis} {d level : Nat} (ha : a.dPRJ = d * 2 ^ level)
    (hd : 0 < d) (hres : a.res0 < a.res1) :
    u32 ((a.res0 <<< level) % 2 ^ (a.precExp + level)) ≠ 0 ↔ ¬ 2 ^ a.precExp ∣ a.res0 := by
  have hlt : a.res0 * 2 ^ level < 2 ^ 32 := by
    have h1 := a.t1_lt
    have h2 := Axis.lt_res1_iff.mp hres
    rw [ha] at h2
    have h3 : 2 ^ level * a.res0 ≤ d * 2 ^ level * a.res0 :=
      Nat.mul_le_mul_right _ (Nat.le_mul_of_pos_left _ hd)
    rw [Nat.mul_comm] at h3
    omega
  rw [shiftLeft_eq, u32_of_lt (lt_of_le_of_lt (mod_le _ _) hlt), pow_add,
    mul_mod_mul_right, dvd_iff_mod_eq_zero]
  simp

section Init

variable {a b : Axis} {dx dy lx ly : Nat}

theorem ceildiv_t0 : ceildiv a.t0 a.dPRJ = a.res0 :=
  ceildiv_eq a.dPRJ_pos (lt_of_le_of_lt a.t_le a.t1_lt)

theorem ceildiv_t1 : ceildiv a.t1 a.dPRJ = a.res1 := ceildiv_eq a.dPRJ_pos a.t1_lt

theorem ResPrecinctInfo.init_valid (ha : a.dPRJ = dx * 2 ^ lx) (hb : b.dPRJ = dy * 2 ^ ly)
    (w : Option Rect) :
    (ResPrecinctInfo.init a.precExp b.precExp lx ly ⟨a.t0, b.t0, a.t1, b.t1⟩ dx dy w).valid =
      decide (a.res0 < a.res1 ∧ b.res0 < b.res1) := by
  have hax := a.res0_le_res1
  have hby := b.res0_le_res1
  unfold ResPrecinctInfo.init Rect.scaleDownCeil
  dsimp only
  rw [shiftLeft_eq, shiftLeft_eq, ← ha, ← hb, ceildiv_t0, ceildiv_t1, ceildiv_t0,
    ceildiv_t1]
  split <;> simp <;> omega

theorem ResPrecinctInfo.init_infoFor (ha : a.dPRJ = dx * 2 ^ lx) (hb : b.dPRJ = dy * 2 ^ ly)
    (hdx : 0 < dx) (hdy : 0 < dy) (w : Option Rect) (hxr : a.res0 < a.res1)
    (hyr : b.res0 < b.res1) :
    InfoFor a b
      (ResPrecinctInfo.init a.precExp b.precExp lx ly ⟨a.t0, b.t0, a.t1, b.t1⟩ dx dy w) := by
  have hgx : a.res0 / 2 ^ a.precExp < 2 ^ 32 := lt_of_le_of_lt (div_le_self _ _) a.res0_lt
  have hgy : b.res0 / 2 ^ b.precExp < 2 ^ 32 := lt_of_le_of_lt (div_le_self _ _) b.res0_lt
  have hsx : dx * 2 ^ (a.precExp + lx) = a.stride := by
    rw [Axis.stride, ha, pow_add]; ring
  have hsy : dy * 2 ^ (b.precExp + ly) = b.stride := by
    rw [Axis.stride, hb, pow_add]; ring
  unfold ResPrecinctInfo.init Rect.scaleDownCeil
  simp only [shiftLeft_eq dx, shiftLeft_eq dy, ← ha, ← hb, ceildiv_t0, ceildiv_t1, hsx,
    hsy]
  rw [if_neg (show ¬(a.res0 = a.res1 ∨ b.res0 = b.res1) by omega)]
  have hgrid : Rect.scaleDown ⟨a.res0, b.res0, a.res1, b.res1⟩ (2 ^ a.precExp) (2 ^ b.precExp) =
      ⟨a.grid0, b.grid0, a.grid1, b.grid1⟩ := by
    rw [Rect.scaleDown, u32_of_lt hgx, u32_of_lt hgy, ceildiv_eq (two_pow_pos _) a.res1_lt,
      ceildiv_eq (two_pow_pos _) b.res1_lt]
    rfl
  exact
    { precWidthExp := rfl
      precHeightExp := rfl
      precWidthPRJ := rfl
      precHeightPRJ := rfl
      dxPRJ := rfl
      dyPRJ := rfl
      resOffsetX0PRJ := resOffset_ne_zero_iff ha hdx hxr
      resOffsetY0PRJ := resOffset_ne_zero_iff hb hdy hyr
      resInPrecGridX0 := floordivpow2_eq _ _
      resInPrecGridY0 := floordivpow2_eq _ _
      tileBoundsPrecGrid := hgrid
      tileBoundsPrecPRJ := congrArg (Rect.scale · a.stride b.stride) hgrid }

end Init

end GrokCodec.PacketIter
