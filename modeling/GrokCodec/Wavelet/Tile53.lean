import GrokCodec.Util.Geometry
import GrokCodec.Wavelet.Rev53

/-!
The multi-level 5/3 transform of a tile component, in both directions.

The compressor transforms the buffer of a tile component in place, the finest level first,
columns before rows; the low-pass quarter then holds the next resolution. The decompressor
attaches the windows of every band to the same buffer and undoes the levels in the opposite
order. Work is split over threads by columns or rows, which do not share samples, so a pass is
the kernel applied to each line.
-/

namespace GrokCodec.Wavelet

open Loop Lifting

section LineRoundTrip

variable {x scratch scratch' : Line} {len sn parity : Nat} {dcShift : Int}

theorem high53_sub (c : Int) (k : Nat) : high53 len (fun i => x i - c) k = high53 len x k := by
  simp only [high53_def]
  omega

/-- A constant taken off every sample is taken off every low-pass value and no other. -/
theorem analyze53_sub (c : Int) (k : Nat) :
    analyze53 parity len (fun i => x i - c) k =
      if IsLow parity k then analyze53 parity len x k - c else analyze53 parity len x k := by
  split
  next low =>
    rw [analyze53_of_low low, analyze53_of_low low, high53_sub, high53_sub]
    omega
  next high =>
    have high : (k + parity) % 2 = 1 := by unfold IsLow at high; omega
    rw [analyze53_of_high high, analyze53_of_high high, high53_sub]

variable {k : Nat}

/-- The bands that `encode53` separates, put together again, are the lifting of the line
without its DC shift. -/
theorem interleave53_encode53 (hlen : 2 ≤ len) (hp : parity ≤ 1)
    (hsn : sn = (len + (1 - parity)) / 2) (hk : k < len) :
    interleave53 parity (encode53 x scratch len parity dcShift)
      (fun i => encode53 x scratch len parity dcShift (sn + i)) k =
        analyze53 parity len (fun i => x i - dcShift) k := by
  rw [analyze53_sub]
  unfold interleave53
  split
  next low =>
    unfold IsLow at low
    rw [encode53_apply hlen hp hsn, if_pos (by omega), show 2 * (k / 2) + parity = k by omega]
  next high =>
    unfold IsLow at high
    show encode53 x scratch len parity dcShift (sn + k / 2) = _
    rw [encode53_apply hlen hp hsn, if_neg (by omega), if_pos (by omega),
      show 2 * (sn + k / 2 - sn) + (1 - parity) = k by omega]

theorem synthesize53_encode53 (hlen : 2 ≤ len) (hp : parity ≤ 1)
    (hsn : sn = (len + (1 - parity)) / 2) (hk : k < len) :
    synthesize53 parity len (interleave53 parity (encode53 x scratch len parity dcShift)
      (fun i => encode53 x scratch len parity dcShift (sn + i))) k = x k - dcShift := by
  calc _ = synthesize53 parity len (analyze53 parity len fun i => x i - dcShift) k :=
        synthesize_congr hlen (fun _ hk => interleave53_encode53 hlen hp hsn hk) hk
    _ = x k - dcShift := synthesize_analyze hlen hk

variable {dn : Nat}

theorem loadH53_of_ge {bandL bandH dest : Line} (hlen : 1 ≤ sn + dn) (hk : sn + dn ≤ k) :
    loadH53 scratch sn dn parity bandL bandH dest k = dest k := by
  unfold loadH53 loadHP053 loadHP153
  split_ifs
  · rw [copyLine_of_ge hk]
  · rw [Line.set_of_ne (by omega)]
  · rw [Line.set_of_ne (by omega)]
  · rw [Line.set_of_ne (by omega), Line.set_of_ne (by omega)]
  · rw [copyLine_of_ge hk]

variable {wide : Bool}

theorem v53_of_ge {dc : DcShiftParam} {bandL bandH dest : Line} (hlen : 1 ≤ sn + dn)
    (hk : sn + dn ≤ k) : v53 wide scratch sn dn parity dc bandL bandH dest k = dest k := by
  have pos : k ≠ 0 := Nat.ne_of_gt (lt_of_lt_of_le hlen hk)
  unfold v53 hwyVP053 hwyVP153 hwyVFinalStore53 shiftColumn vP053 vP153
  split_ifs <;> simp only [copyLine_of_ge hk, Line.set_of_ne pos]
  all_goals rw [Line.set_of_ne (by omega), Line.set_of_ne pos]

theorem encode53H_of_ge (hlen : 1 ≤ len) (hp : parity ≤ 1) (hk : len ≤ k) :
    encode53H x scratch len parity dcShift k = x k := by
  unfold encode53H
  by_cases short : len ≤ 1
  · rw [if_pos short]
    split
    · exact Line.set_of_ne (by omega)
    · rfl
  · rw [if_neg short, encode53_apply (by omega) hp rfl, if_neg (by omega), if_neg (by omega)]

theorem encode53V_of_ge (hlen : 1 ≤ len) (hp : parity ≤ 1) (hk : len ≤ k) :
    encode53V x scratch len parity dcShift k = x k := by
  unfold encode53V
  by_cases short : len ≤ 1
  · rw [if_pos short]
    split
    · exact Line.set_of_ne (by omega)
    · rfl
  · rw [if_neg short, encode53_apply (by omega) hp rfl, if_neg (by omega), if_neg (by omega)]

variable {y : Line}

/-- One row, transformed and rebuilt in place. -/
theorem loadH53_encode53H (hlen : 1 ≤ len) (hp : parity ≤ 1) (hsn : sn = (len + (1 - parity)) / 2)
    (hy : y = encode53H x scratch len parity 0) :
    loadH53 scratch' sn (len - sn) parity y (fun i => y (sn + i)) y = x := by
  have hsum : sn + (len - sn) = len := by omega
  funext k
  rcases Nat.lt_or_ge k len with hk | hk
  · by_cases one : len = 1
    · subst one hy
      obtain rfl : k = 0 := by omega
      obtain rfl | rfl : parity = 0 ∨ parity = 1 := by omega
      · obtain rfl : sn = 1 := hsn
        simp [loadH53, encode53H]
      · obtain rfl : sn = 0 := hsn
        simp [loadH53, encode53H]
    · rw [loadH53_apply hp (by omega) (by omega), hsum, hy, encode53H, if_neg (by omega),
        synthesize53_encode53 (by omega) hp hsn hk, sub_zero]
  · rw [loadH53_of_ge (by omega) (by omega), hy, encode53H_of_ge hlen hp hk]

/-- One column, transformed with the DC shift taken off and rebuilt in place. -/
theorem v53_encode53V {dc : DcShiftParam} (hdc : dc.Fusable) (hlen : 1 ≤ len) (hp : parity ≤ 1)
    (hsn : sn = (len + (1 - parity)) / 2)
    (hfinish : ∀ k, k < len → dc.finish (x k - dcShift) = x k)
    (hy : y = encode53V x scratch len parity dcShift) :
    v53 wide scratch' sn (len - sn) parity dc y (fun i => y (sn + i)) y = x := by
  have hsum : sn + (len - sn) = len := by omega
  funext k
  rcases Nat.lt_or_ge k len with hk | hk
  · rw [← hfinish k hk]
    by_cases one : len = 1
    · subst one hy
      obtain rfl : k = 0 := by omega
      have shifted : (if dcShift ≠ 0 then x 0 - dcShift else x 0) = x 0 - dcShift := by
        split <;> omega
      obtain rfl | rfl : parity = 0 ∨ parity = 1 := by omega
      · obtain rfl : sn = 1 := hsn
        have coded : encode53V x scratch 1 0 dcShift 0 = x 0 - dcShift := by
          by_cases none : dcShift = 0 <;> simp [encode53V, none]
        simp [v53, coded, DcShiftParam.finish]
      · obtain rfl : sn = 0 := hsn
        have coded : encode53V x scratch 1 1 dcShift 0 = 2 * (x 0 - dcShift) := by
          simp [encode53V, shifted]
        simp [v53, coded, DcShiftParam.finish]
    · rw [v53_apply hdc hp (by omega) (by omega), hsum, hy, encode53V, if_neg (by omega),
        synthesize53_encode53 (by omega) hp hsn hk]
  · rw [v53_of_ge (by omega) (by omega), hy, encode53V_of_ge hlen hp hk]

end LineRoundTrip

/-- The buffer of a tile component, by row and column from its upper left sample. -/
abbrev Plane := Nat → Nat → Int

/-- Bounds of a tile component: not empty, and in 32-bit coordinates. -/
structure TileCompBounds extends Rect where
  x_lt : x0 < x1
  y_lt : y0 < y1
  x1_lt : x1 < 2 ^ 32
  y1_lt : y1 < 2 ^ 32

/-- Bounds of the resolution left after `levels` decompositions. -/
def TileCompBounds.resolution (b : TileCompBounds) (levels : Nat) : Rect :=
  ⟨ceildivpow2 b.x0 levels, ceildivpow2 b.y0 levels, ceildivpow2 b.x1 levels,
    ceildivpow2 b.y1 levels⟩

/-- `encode_v` on every column of a resolution. -/
def encodeV (scratch : Line) (cur : Rect) (dcShift : Int) (p : Plane) : Plane :=
  fun y x => if x < cur.width then
    encode53V (fun i => p i x) scratch cur.height (cur.y0 % 2) dcShift y else p y x

/-- `encode_h` on every row of a resolution. -/
def encodeH (scratch : Line) (cur : Rect) (p : Plane) : Plane :=
  fun y x => if y < cur.height then encode53H (p y) scratch cur.width (cur.x0 % 2) 0 x else p y x

/-- One level of `encode`; the DC shift goes with the finest. -/
def encodeLevel53 (scratch : Line) (b : TileCompBounds) (dcShift : Int) (level : Nat)
    (p : Plane) : Plane :=
  encodeH scratch (b.resolution level)
    (encodeV scratch (b.resolution level) (if level = 0 then dcShift else 0) p)

/-- `encode_53`, the finest level first. -/
def encodeTile53 (scratch : Line) (b : TileCompBounds) (numResolutions : Nat) (dcShift : Int)
    (p : Plane) : Plane :=
  countTo (encodeLevel53 scratch b dcShift) (numResolutions - 1) p

/-- One level of `encode_53_16`. -/
def encodeLevel5316 (lanes : Nat) (b : TileCompBounds) (dcShift : Int) (level : Nat)
    (p : Plane) : Plane :=
  let cur := b.resolution level
  let q : Plane := fun y x => if x < cur.width then
    encode5316V (fun i => p i x) cur.height (cur.y0 % 2) (if level = 0 then dcShift else 0) y
    else p y x
  fun y x => if y < cur.height then encode5316H lanes (q y) cur.width (cur.x0 % 2) x else q y x

def encodeTile5316 (lanes : Nat) (b : TileCompBounds) (numResolutions : Nat) (dcShift : Int)
    (p : Plane) : Plane :=
  countTo (encodeLevel5316 lanes b dcShift) (numResolutions - 1) p

/-- `h_53`: every row of the resolution, from the low-pass columns in front and the high-pass
columns behind them. -/
def h53 (scratch : Line) (low cur : Rect) (p : Plane) : Plane :=
  fun y x => if y < cur.height then
    loadH53 scratch low.width (cur.width - low.width) (cur.x0 % 2) (p y)
      (fun i => p y (low.width + i)) (p y) x
  else p y x

/-- `v_53`: every column of the resolution; `wide` says which of them a vector kernel takes. -/
def v53Columns (wide : Nat → Bool) (scratch : Line) (low cur : Rect) (dc : DcShiftParam)
    (p : Plane) : Plane :=
  fun y x => if x < cur.width then
    v53 (wide x) scratch low.height (cur.height - low.height) (cur.y0 % 2) dc (fun i => p i x)
      (fun i => p (low.height + i) x) (fun i => p i x) y
  else p y x

/-- One resolution of `tile_53`. -/
def tileLevel53 (wide : Nat → Bool) (scratch : Line) (low cur : Rect) (dc : DcShiftParam)
    (p : Plane) : Plane :=
  if cur.width = 0 ∨ cur.height = 0 then p
  else v53Columns wide scratch low cur dc (h53 scratch low cur p)

/-- `tile_53`: resolutions from the coarsest one up, the DC shift with the last. -/
def tile53 (wide : Nat → Nat → Bool) (scratch : Line) (b : TileCompBounds) (numRes : Nat)
    (dc : DcShiftParam) (p : Plane) : Plane :=
  countTo (fun i p =>
    let res := i + 1
    tileLevel53 (wide res) scratch (b.resolution (numRes - 1 - (res - 1)))
      (b.resolution (numRes - 1 - res)) (if res = numRes - 1 then dc else {}) p)
    (numRes - 1) p

section Levels

variable {b : TileCompBounds} {scratch scratch' : Line} {dc : DcShiftParam} {dcShift : Int}
  {p : Plane} {level : Nat}

theorem ceildivpow2_succ (a level : Nat) :
    ceildivpow2 a (level + 1) = (ceildivpow2 a level + 1) / 2 := by
  rw [ceildivpow2_eq, ceildivpow2_eq, pow_succ,
    ← ceilDiv_ceilDiv a (Nat.two_pow_pos level) Nat.two_pos, Nat.ceilDiv_eq_add_pred_div]
  rfl

theorem ceildivpow2_lt {a : Nat} (h : a < 2 ^ 32) (level : Nat) : ceildivpow2 a level < 2 ^ 32 :=
  lt_of_le_of_lt (by rw [ceildivpow2_eq]; exact ceilDiv_le_self (Nat.two_pow_pos level)) h

theorem ceildivpow2_le {a c : Nat} (h : a ≤ c) (level : Nat) :
    ceildivpow2 a level ≤ ceildivpow2 c level := by
  rw [ceildivpow2_eq, ceildivpow2_eq]
  exact (gc_mul_ceilDiv (Nat.two_pow_pos level)).monotone_l h

theorem resolution_width :
    (b.resolution level).width = ceildivpow2 b.x1 level - ceildivpow2 b.x0 level :=
  sub32_of_le (ceildivpow2_le b.x_lt.le level) (ceildivpow2_lt b.x1_lt level)

theorem resolution_height :
    (b.resolution level).height = ceildivpow2 b.y1 level - ceildivpow2 b.y0 level :=
  sub32_of_le (ceildivpow2_le b.y_lt.le level) (ceildivpow2_lt b.y1_lt level)

theorem resolution_succ_width :
    (b.resolution (level + 1)).width =
      ((b.resolution level).width + (1 - (b.resolution level).x0 % 2)) / 2 := by
  rw [resolution_width, resolution_width, ceildivpow2_succ, ceildivpow2_succ]
  simp only [TileCompBounds.resolution]
  omega

theorem resolution_succ_height :
    (b.resolution (level + 1)).height =
      ((b.resolution level).height + (1 - (b.resolution level).y0 % 2)) / 2 := by
  rw [resolution_height, resolution_height, ceildivpow2_succ, ceildivpow2_succ]
  simp only [TileCompBounds.resolution]
  omega

theorem h53_encodeH (hw : (b.resolution level).width ≠ 0) :
    h53 scratch' (b.resolution (level + 1)) (b.resolution level)
      (encodeH scratch (b.resolution level) p) = p := by
  funext y
  by_cases hy : y < (b.resolution level).height
  · have row : encodeH scratch (b.resolution level) p y =
        encode53H (p y) scratch (b.resolution level).width ((b.resolution level).x0 % 2) 0 :=
      funext fun x => if_pos hy
    funext x
    unfold h53
    rw [if_pos hy]
    exact congrFun (loadH53_encode53H (Nat.pos_of_ne_zero hw) (by omega) resolution_succ_width row)
      x
  · funext x
    unfold h53 encodeH
    rw [if_neg hy, if_neg hy]

variable {wide : Nat → Bool}

theorem v53Columns_encodeV (hdc : dc.Fusable) (hh : (b.resolution level).height ≠ 0)
    (hfinish : ∀ y x, y < (b.resolution level).height → x < (b.resolution level).width →
      dc.finish (p y x - dcShift) = p y x) :
    v53Columns wide scratch' (b.resolution (level + 1)) (b.resolution level) dc
      (encodeV scratch (b.resolution level) dcShift p) = p := by
  funext y x
  unfold v53Columns
  by_cases hx : x < (b.resolution level).width
  · have column : (fun i => encodeV scratch (b.resolution level) dcShift p i x) =
        encode53V (fun i => p i x) scratch (b.resolution level).height
          ((b.resolution level).y0 % 2) dcShift := funext fun i => if_pos hx
    rw [if_pos hx]
    exact congrFun (v53_encode53V hdc (Nat.pos_of_ne_zero hh) (by omega) resolution_succ_height
      (fun k hk => hfinish k x hk hx) column) y
  · unfold encodeV
    rw [if_neg hx, if_neg hx]

/-- One level, undone in place. An empty resolution is passed over by both directions. -/
theorem tileLevel53_encode (hdc : dc.Fusable)
    (hfinish : ∀ y x, y < (b.resolution level).height → x < (b.resolution level).width →
      dc.finish (p y x - dcShift) = p y x) :
    tileLevel53 wide scratch' (b.resolution (level + 1)) (b.resolution level) dc
      (encodeH scratch (b.resolution level)
        (encodeV scratch (b.resolution level) dcShift p)) = p := by
  unfold tileLevel53
  by_cases none : (b.resolution level).width = 0 ∨ (b.resolution level).height = 0
  · rw [if_pos none]
    funext y x
    unfold encodeH encodeV
    rcases none with hw | hh
    · simp [hw, encode53H]
    · simp [hh, encode53V]
  · rw [if_neg none, h53_encodeH (fun hw => none (.inl hw)),
      v53Columns_encodeV hdc (fun hh => none (.inr hh)) hfinish]

theorem finish_default (v : Int) : ({} : DcShiftParam).finish v = v := rfl

theorem fusable_default : ({} : DcShiftParam).Fusable := by
  rfl

theorem tile53_encodeTile53 {wide : Nat → Nat → Bool} {numRes : Nat} (hdc : dc.Fusable)
    (hfinish : ∀ y x, y < (b.resolution 0).height → x < (b.resolution 0).width →
      dc.finish (p y x - dcShift) = p y x) :
    tile53 wide scratch' b numRes dc (encodeTile53 scratch b numRes dcShift p) = p := by
  -- after `i` resolutions the buffer holds what the first `numRes - 1 - i` levels left in it
  refine (countTo_rule
    (fun i q => q = countTo (encodeLevel53 scratch b dcShift) (numRes - 1 - i) p)
    (fun i q hi hq => ?_) rfl).trans (by rw [Nat.sub_self]; rfl)
  obtain ⟨level, hlevel⟩ : ∃ level, numRes - 1 - i = level + 1 := ⟨numRes - 1 - i - 1, by omega⟩
  simp only [hq, hlevel, show numRes - 1 - (i + 1) = level by omega, Nat.add_sub_cancel, countTo]
  unfold encodeLevel53
  by_cases last : level = 0
  · subst last
    rw [if_pos (by omega), if_pos rfl]
    exact tileLevel53_encode hdc hfinish
  · rw [if_neg (by omega), if_neg last]
    exact tileLevel53_encode fusable_default fun y x _ _ => by rw [finish_default, sub_zero]

end Levels

end GrokCodec.Wavelet
