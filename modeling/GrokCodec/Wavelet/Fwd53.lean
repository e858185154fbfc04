import Mathlib.Tactic.Linarith
import GrokCodec.Lib.Lifting
import GrokCodec.Lib.Loop

/-!
The forward 5/3 kernels on one line of samples.

A line is a column or a row of the resolution, addressed from its first sample. Samples are
integers, so the statements are about runs in which no intermediate value leaves its machine
type; `/ 2` and `/ 4` are the arithmetic shifts of the source. The kernels that lift in 16 bits are
the exception: they cut their samples, and every result is wrapped.
-/

namespace GrokCodec.Wavelet

open Loop Lifting Nat Function

abbrev Line := Nat → Int

/-- Store `v` at position `i`. -/
def Line.set (l : Line) (i : Nat) (v : Int) : Line := update l i v

@[simp] theorem Line.set_same (l : Line) (i : Nat) (v : Int) : l.set i v i = v :=
  update_self ..

theorem Line.set_of_ne {l : Line} {i j : Nat} {v : Int} (h : j ≠ i) : l.set i v j = l j :=
  update_of_ne h ..

/-- The prediction of a high-pass sample from its neighbours. -/
def predict53 (a b : Int) : Int := (a + b) / 2

/-- The correction of a low-pass sample from the differences next to it. -/
def update53 (a b : Int) : Int := (a + b + 2) / 4

/-- What the forward kernels are meant to compute, before the two bands are separated. -/
def analyze53 (p n : Nat) (x : Line) : Line := analyze predict53 update53 p n x

def high53 (n : Nat) (x : Line) : Line := high predict53 n x

/-- State of the lifting loops: `s` is the last untransformed even sample, `d` the last
transformed odd one. -/
structure LiftState where
  i : Nat
  s : Int
  d : Int
  scratch : Line

/-- Body of the loop over a line that starts on an even coordinate. -/
def liftBodyP0 (x : Line) (st : LiftState) : LiftState :=
  let s_ip1 := x (2 * (st.i + 1))
  let d_i := x (2 * st.i + 1) - (st.s + s_ip1) / 2
  let s_ii := st.s + (st.d + d_i + 2) / 4
  { i := st.i + 1, s := s_ip1, d := d_i
    scratch := (st.scratch.set (2 * st.i + 1) d_i).set (2 * st.i) s_ii }

/-- `for(; i + 1 < sn; i++)`. -/
def liftLoopP0 (x : Line) (sn : Nat) (st : LiftState) : LiftState :=
  repeatWhile (fun st => st.i + 1 < sn) (liftBodyP0 x) sn st

def liftP0 (x scratch : Line) (sn dn : Nat) : Line :=
  if 1 < sn then
    let d_0 := x 1 - (x 0 + x 2) / 2
    let st := liftLoopP0 x sn
      ⟨1, x 2, d_0, (scratch.set 1 d_0).set 0 (x 0 + (2 * d_0 + 2) / 4)⟩
    if dn = sn then
      let d_i := x (2 * st.i + 1) - st.s
      (st.scratch.set (2 * st.i + 1) d_i).set (2 * st.i)
        (x (2 * st.i) + (st.d + d_i + 2) / 4)
    else
      st.scratch.set (2 * st.i) (x (2 * st.i) + (2 * st.d + 2) / 4)
  else if sn = dn then
    let d_0 := x 1 - x 0
    (scratch.set 1 d_0).set 0 (x 0 + (2 * d_0 + 2) / 4)
  else scratch

/-- Body of the loop over a line that starts on an odd coordinate. -/
def liftBodyP1 (x : Line) (st : LiftState) : LiftState :=
  let s_i := x (2 * st.i + 1)
  let d_i := x (2 * st.i) - (s_i + st.s) / 2
  let s_iim1 := st.s + (st.d + d_i + 2) / 4
  { i := st.i + 1, s := s_i, d := d_i
    scratch := (st.scratch.set (2 * st.i) d_i).set (2 * (st.i - 1) + 1) s_iim1 }

/-- `for(; i < sn; i++)`. -/
def liftLoopP1 (x : Line) (sn : Nat) (st : LiftState) : LiftState :=
  repeatWhile (fun st => st.i < sn) (liftBodyP1 x) sn st

def liftP1 (x scratch : Line) (sn dn : Nat) : Line :=
  let d_0 := x 0 - x 1
  let st := liftLoopP1 x sn ⟨1, x 1, d_0, scratch.set 0 d_0⟩
  if sn < dn then
    let d_sn := x (2 * sn) - st.s
    (st.scratch.set (2 * sn) d_sn).set (2 * (dn - 2) + 1)
      (x (2 * (dn - 2) + 1) + (st.d + d_sn + 2) / 4)
  else
    st.scratch.set (2 * (dn - 1) + 1) (x (2 * (dn - 1) + 1) + (2 * st.d + 2) / 4)

/-- `for(; k < len; k += 2) scratch[k] -= dcShift`, from the state `(k, scratch)`. -/
def shiftLoop (len : Nat) (dcShift : Int) (st : Nat × Line) : Nat × Line :=
  repeatWhile (fun st => st.1 < len)
    (fun st => (st.1 + 2, st.2.set st.1 (st.2 st.1 - dcShift))) len st

/-- The DC shift, applied to the low-pass samples before the bands are separated. -/
def shiftLow (scratch : Line) (len parity : Nat) (dcShift : Int) : Line :=
  (shiftLoop len dcShift (parity, scratch)).2

/-- One sample of either band, stored in its place. -/
def deinterleaveBody (src : Line) (sn parity i : Nat) (dst : Line) : Line :=
  (dst.set i (src (2 * i + parity))).set (sn + i) (src (2 * i + (1 - parity)))

/-- `deinterleave_h` and `deinterleave_v`: low-pass samples first, then high-pass ones. -/
def deinterleave (src dst : Line) (dn sn parity : Nat) : Line :=
  let m := min dn sn
  let dst := countTo (deinterleaveBody src sn parity) m dst
  if m < sn then dst.set m (src (2 * m + parity))
  else if m < dn then dst.set (sn + m) (src (2 * m + (1 - parity)))
  else dst

/-- The part that `encode_53_v` and `encode_53_h` share: lines of two samples or more. -/
def encode53 (x scratch : Line) (len parity : Nat) (dcShift : Int) : Line :=
  let sn := (len + (1 - parity)) / 2
  let dn := len - sn
  let scratch := if parity = 0 then liftP0 x scratch sn dn else liftP1 x scratch sn dn
  let scratch := if dcShift ≠ 0 then shiftLow scratch len parity dcShift else scratch
  deinterleave scratch x dn sn parity

def encode53V (x scratch : Line) (height parity : Nat) (dcShift : Int) : Line :=
  if height ≤ 1 then
    -- a lone row still carries the DC shift; on an odd coordinate it is a high-pass sample
    if height = 1 ∧ (parity = 1 ∨ dcShift ≠ 0) then
      let v := if dcShift ≠ 0 then x 0 - dcShift else x 0
      x.set 0 (if parity = 1 then 2 * v else v)
    else x
  else encode53 x scratch height parity dcShift

def encode53H (x scratch : Line) (width parity : Nat) (dcShift : Int) : Line :=
  if width ≤ 1 then
    if parity = 1 ∧ width = 1 then
      let v := if dcShift ≠ 0 then x 0 - dcShift else x 0
      x.set 0 (2 * v)
    else x
  else encode53 x scratch width parity dcShift

/-- `(int16_t)v`. -/
def int16 (v : Int) : Int := v.bmod (2 ^ 16)

/-- The prediction in a vector lane, where the sum wraps as well. -/
def predictLane (a b : Int) : Int := int16 (a + b) / 2

/-- The correction in a vector lane: `AverageRound` of the operands, moved to unsigned. -/
def updateLane (a b : Int) : Int :=
  int16 ((a + 2 ^ 15 + (b + (2 ^ 15 - 1)) % 2 ^ 16 + 1) / 2 - (2 ^ 15 - 1)) / 2

/-- The samples of the other band, `count` of them, on both sides of sample `k`; at a border both
are the same one. The band that has the first sample of the line has parity 1. -/
def neighbours (parity count k : Nat) : Nat × Nat :=
  if parity = 0 then (k, if k + 1 < count then k + 1 else k)
  else (k - 1, if k < count then k else count - 1)

/-- The lifting in 16 bits, with the even and the odd samples kept apart. `laneO` and `laneE` are
the positions of the two sweeps that vector lanes take. -/
def encode5316 (laneO laneE : Nat → Bool) (x : Line) (len parity : Nat) (dcShift : Int) : Line :=
  let sn := (len + (1 - parity)) / 2
  let E : Line := fun k => int16 (x (2 * k + parity))
  let O : Line := fun k =>
    let el := neighbours parity sn k
    let predict := if laneO k ∧ el.1 ≠ el.2 then predictLane else predict53
    int16 (int16 (x (2 * k + (1 - parity))) - predict (E el.1) (E el.2))
  let low : Line := fun k =>
    let ol := neighbours (1 - parity) (len - sn) k
    let v := int16 (E k + (if laneE k then updateLane else update53) (O ol.1) (O ol.2))
    if dcShift ≠ 0 then int16 (v - int16 dcShift) else v
  fun k => if k < sn then low k else if k < len then O (k - sn) else x k

def encode5316V (x : Line) (height parity : Nat) (dcShift : Int) : Line :=
  if height ≤ 1 then
    if height = 1 ∧ (parity = 1 ∨ dcShift ≠ 0) then
      let v := if dcShift ≠ 0 then int16 (int16 (x 0) - int16 dcShift) else int16 (x 0)
      x.set 0 (if parity = 1 then int16 (2 * v) else v)
    else x
  else encode5316 (fun _ => true) (fun _ => true) x height parity dcShift

/-- A row is lifted by vectors of `lanes` samples, and one by one where no whole vector is left. -/
def encode5316H (lanes : Nat) (x : Line) (width parity : Nat) : Line :=
  if width ≤ 1 then
    if parity = 1 ∧ width = 1 then x.set 0 (2 * x 0) else x
  else
    let sn := (width + (1 - parity)) / 2
    let dn := width - sn
    let laneO k := if parity = 0 then k < min dn (sn - 1) / lanes * lanes
      else 1 ≤ k ∧ k < 1 + min (dn - 1) sn / lanes * lanes
    let laneE k := if parity = 0 then k < 1 + (min sn dn - 1) / lanes * lanes
      else k < min (sn - 1) (dn - 1) / lanes * lanes
    encode5316 (fun k => laneO k) (fun k => laneE k) x width parity 0

section Lift

variable {x scratch : Line} {n sn dn : Nat}

theorem high53_def (k : Nat) : high53 n x k = x k - (x (prev k) + x (next n k)) / 2 := rfl

theorem high53_of_last {k : Nat} (hk : 0 < k) (h : n = k + 1) :
    high53 n x k = x k - x (k - 1) := by
  rw [high53_def, prev_of_pos hk, next_of_last (by omega)]
  omega

theorem analyze53_of_low {p k : Nat} (h : (k + p) % 2 = 0) :
    analyze53 p n x k = x k + (high53 n x (prev k) + high53 n x (next n k) + 2) / 4 :=
  analyze_of_low h

theorem analyze53_of_high {p k : Nat} (h : (k + p) % 2 = 1) :
    analyze53 p n x k = high53 n x k :=
  analyze_of_high (by unfold IsLow; omega)

variable {j : Nat}

/-- What a step of either loop stores: a low-pass sample and the high-pass one after it. -/
theorem stored_pair {line : Line} {p k m : Nat} {s d : Int} (hm : m = k + 1) (hn : m < n)
    (hlow : (k + p) % 2 = 0) (hs : s = x k) (hd : d = high53 n x (prev k))
    (done : ∀ i, i < k → line i = analyze53 p n x i) (hj : j ≤ m) :
    ((line.set m (high53 n x m)).set k (s + (d + high53 n x m + 2) / 4)) j =
      analyze53 p n x j := by
  subst hm hs hd
  rcases Nat.lt_trichotomy j k with below | rfl | above
  · rw [Line.set_of_ne (by omega), Line.set_of_ne (by omega), done j below]
  · rw [Line.set_same, analyze53_of_low hlow, next_of_lt hn]
  · obtain rfl : j = k + 1 := by omega
    rw [Line.set_of_ne (by omega), Line.set_same, analyze53_of_high (by omega)]

/-- The loop over a line that starts on an even coordinate: everything below `2 * i` is done. -/
def LiftedP0 (x : Line) (n sn : Nat) (st : LiftState) : Prop :=
  0 < st.i ∧ st.i < sn ∧ st.s = x (2 * st.i) ∧ st.d = high53 n x (2 * st.i - 1) ∧
    ∀ j, j < 2 * st.i → st.scratch j = analyze53 0 n x j

variable {st : LiftState}

theorem liftBodyP0_lifted (hn : 2 * sn ≤ n + 1) (h : LiftedP0 x n sn st) (hi : st.i + 1 < sn) :
    LiftedP0 x n sn (liftBodyP0 x st) := by
  obtain ⟨pos, lt, hs, hd, done⟩ := h
  have hhigh : x (2 * st.i + 1) - (st.s + x (2 * (st.i + 1))) / 2 =
      high53 n x (2 * st.i + 1) := by
    rw [high53_def, prev_succ, next_of_lt (by omega), hs]
    rfl
  refine ⟨succ_pos _, hi, rfl, hhigh, fun j hj => ?_⟩
  simp only [liftBodyP0] at hj ⊢
  rw [hhigh]
  rw [← prev_of_pos (by omega)] at hd
  exact stored_pair rfl (by omega) (by omega) hs hd done (by omega)

theorem liftLoopP0_lifted (hn : 2 * sn ≤ n + 1) (h : LiftedP0 x n sn st) :
    LiftedP0 x n sn (liftLoopP0 x sn st) ∧ (liftLoopP0 x sn st).i + 1 = sn := by
  obtain ⟨exit, stop⟩ := repeatWhile_rule (LiftedP0 x n sn) (fun st => st.i + 1)
    (fun st h hi => ⟨liftBodyP0_lifted hn h hi, lt_succ_self _⟩) h (le_add_left sn _)
  exact ⟨exit, le_antisymm exit.2.1 stop⟩

theorem liftP0_spec (hn : 2 ≤ n) (hsn : sn = (n + 1) / 2) (hdn : dn = n - sn) (hj : j < n) :
    liftP0 x scratch sn dn j = analyze53 0 n x j := by
  by_cases long : 1 < sn
  · have hfirst : x 1 - (x 0 + x 2) / 2 = high53 n x 1 := by
      rw [high53_def, prev_succ, next_of_lt (by omega)]
    have start : LiftedP0 x n sn ⟨1, x 2, high53 n x 1,
        (scratch.set 1 (high53 n x 1)).set 0 (x 0 + (2 * high53 n x 1 + 2) / 4)⟩ := by
      refine ⟨Nat.one_pos, long, rfl, rfl, fun j hj => ?_⟩
      simp only [two_mul] at hj ⊢
      exact stored_pair rfl (by omega) rfl rfl rfl (by omega) (by omega)
    unfold liftP0
    simp only [if_pos long, hfirst]
    obtain ⟨⟨pos, lt, hs, hd, done⟩, last⟩ := liftLoopP0_lifted (by omega) start
    generalize liftLoopP0 x sn _ = st at *
    by_cases even : dn = sn
    · have hlast : x (2 * st.i + 1) - st.s = high53 n x (2 * st.i + 1) := by
        rw [high53_of_last (by omega) (by omega), hs]
        rfl
      rw [if_pos even, hlast]
      rw [← prev_of_pos (by omega)] at hd
      exact stored_pair rfl (by omega) (by omega) rfl hd done (by omega)
    · rw [if_neg even]
      rcases Nat.lt_or_ge j (2 * st.i) with below | here
      · rw [Line.set_of_ne (by omega), done j below]
      · obtain rfl : j = 2 * st.i := by omega
        rw [Line.set_same, analyze53_of_low (by omega), prev_of_pos (by omega),
          next_of_last (by omega), hd, two_mul (high53 n x _)]
  · unfold liftP0
    obtain ⟨rfl, rfl, rfl⟩ : n = 2 ∧ sn = 1 ∧ dn = 1 := by omega
    have hlast : x 1 - x 0 = high53 2 x 1 := (high53_of_last (by omega) (by omega)).symm
    simp only [if_neg long, if_pos, hlast, two_mul]
    exact stored_pair rfl (by omega) rfl rfl rfl (by omega) (by omega)

/-- The loop over a line that starts on an odd coordinate: everything below `2 * i - 1` is
done. -/
def LiftedP1 (x : Line) (n sn : Nat) (st : LiftState) : Prop :=
  0 < st.i ∧ st.i ≤ sn ∧ st.s = x (2 * st.i - 1) ∧ st.d = high53 n x (2 * st.i - 2) ∧
    ∀ j, j < 2 * st.i - 1 → st.scratch j = analyze53 1 n x j

theorem liftBodyP1_lifted (hn : 2 * sn ≤ n) (h : LiftedP1 x n sn st) (hi : st.i < sn) :
    LiftedP1 x n sn (liftBodyP1 x st) := by
  obtain ⟨pos, le, hs, hd, done⟩ := h
  have hhigh : x (2 * st.i) - (x (2 * st.i + 1) + st.s) / 2 = high53 n x (2 * st.i) := by
    rw [high53_def, prev_of_pos (by omega), next_of_lt (by omega), hs, add_comm]
  refine ⟨succ_pos _, hi, rfl, hhigh, fun j hj => ?_⟩
  simp only [liftBodyP1] at hj ⊢
  rw [hhigh, show 2 * (st.i - 1) + 1 = 2 * st.i - 1 by omega]
  rw [show 2 * st.i - 2 = 2 * st.i - 1 - 1 by omega, ← prev_of_pos (by omega)] at hd
  exact stored_pair (by omega) (by omega) (by omega) hs hd done (by omega)

theorem liftLoopP1_lifted (hn : 2 * sn ≤ n) (h : LiftedP1 x n sn st) :
    LiftedP1 x n sn (liftLoopP1 x sn st) ∧ (liftLoopP1 x sn st).i = sn := by
  obtain ⟨exit, stop⟩ := repeatWhile_rule (LiftedP1 x n sn) LiftState.i
    (fun st h hi => ⟨liftBodyP1_lifted hn h hi, lt_succ_self _⟩) h (le_add_left sn _)
  exact ⟨exit, le_antisymm exit.2.1 stop⟩

theorem liftP1_spec (hn : 2 ≤ n) (hsn : sn = n / 2) (hdn : dn = n - sn) (hj : j < n) :
    liftP1 x scratch sn dn j = analyze53 1 n x j := by
  have hfirst : x 0 - x 1 = high53 n x 0 := by
    rw [high53_def, prev_zero, next_of_lt (by omega), zero_add]
    omega
  have start : LiftedP1 x n sn ⟨1, x 1, high53 n x 0, scratch.set 0 (high53 n x 0)⟩ := by
    refine ⟨Nat.one_pos, show 1 ≤ sn by omega, rfl, rfl, fun j hj => ?_⟩
    obtain rfl : j = 0 := by simp only at hj; omega
    simp only [Line.set_same]
    rw [analyze53_of_high (by omega)]
  unfold liftP1
  simp only [hfirst]
  obtain ⟨⟨pos, le, hs, hd, done⟩, last⟩ := liftLoopP1_lifted (by omega) start
  generalize liftLoopP1 x sn _ = st at *
  subst last
  by_cases odd : st.i < dn
  · have hlast : x (2 * st.i) - st.s = high53 n x (2 * st.i) := by
      rw [high53_of_last (by omega) (by omega), hs]
    rw [if_pos odd, hlast, show 2 * (dn - 2) + 1 = 2 * st.i - 1 by omega]
    rw [show 2 * st.i - 2 = 2 * st.i - 1 - 1 by omega, ← prev_of_pos (by omega)] at hd
    exact stored_pair (by omega) (by omega) (by omega) rfl hd done (by omega)
  · rw [if_neg odd, show 2 * (dn - 1) + 1 = 2 * st.i - 1 by omega]
    rcases Nat.lt_or_ge j (2 * st.i - 1) with below | here
    · rw [Line.set_of_ne (by omega), done j below]
    · obtain rfl : j = 2 * st.i - 1 := by omega
      rw [Line.set_same, analyze53_of_low (by omega), prev_of_pos (by omega),
        next_of_last (by omega), hd, show 2 * st.i - 1 - 1 = 2 * st.i - 2 by omega,
        two_mul (high53 n x _)]

end Lift

section Bands

variable {src dst scratch x : Line} {len sn dn parity : Nat} {dcShift : Int}

/-- The low-pass positions below `st.1` have lost the DC shift, the rest is as it was. -/
def ShiftedBelow (scratch : Line) (parity : Nat) (dcShift : Int) (st : Nat × Line) : Prop :=
  IsLow parity st.1 ∧
    ∀ j, st.2 j = if j < st.1 ∧ IsLow parity j then scratch j - dcShift else scratch j

theorem shiftLoop_shifted {st : Nat × Line} (h : ShiftedBelow scratch parity dcShift st) :
    ShiftedBelow scratch parity dcShift (shiftLoop len dcShift st) ∧
      len ≤ (shiftLoop len dcShift st).1 := by
  refine repeatWhile_rule _ Prod.fst ?_ h (le_add_left len _)
  rintro ⟨k, line⟩ ⟨low, shifted⟩ -
  unfold IsLow at low
  refine ⟨⟨by simp only [IsLow]; omega, fun j => ?_⟩, by simp⟩
  simp only at shifted low ⊢
  by_cases here : j = k
  · subst here
    rw [Line.set_same, shifted, if_neg (by omega), if_pos ⟨by omega, low⟩]
  · rw [Line.set_of_ne here, shifted]
    refine if_congr ?_ rfl rfl
    unfold IsLow
    omega

/-- One sweep over the low-pass positions takes the DC shift off each of them. -/
theorem shiftLow_apply (hp : parity ≤ 1) {j : Nat} (hj : j < len) :
    shiftLow scratch len parity dcShift j =
      if IsLow parity j then scratch j - dcShift else scratch j := by
  have start : ShiftedBelow scratch parity dcShift (parity, scratch) := by
    refine ⟨by simp only [IsLow]; omega, fun j => (if_neg ?_).symm⟩
    unfold IsLow
    omega
  obtain ⟨⟨_, shifted⟩, stop⟩ := @shiftLoop_shifted _ len _ dcShift _ start
  unfold shiftLow
  rw [shifted]
  exact if_congr ⟨And.right, fun low => ⟨by omega, low⟩⟩ rfl rfl

theorem deinterleave_loop {m : Nat} (hm : m ≤ sn) (j : Nat) :
    countTo (deinterleaveBody src sn parity) m dst j =
      if j < m then src (2 * j + parity)
      else if sn ≤ j ∧ j < sn + m then src (2 * (j - sn) + (1 - parity)) else dst j := by
  refine countTo_rule (fun i (line : Line) => ∀ j, line j =
    if j < i then src (2 * j + parity)
    else if sn ≤ j ∧ j < sn + i then src (2 * (j - sn) + (1 - parity)) else dst j) ?_ ?_ j
  · intro i line hi moved j
    unfold deinterleaveBody
    by_cases high : j = sn + i
    · subst high
      rw [Line.set_same, if_neg (by omega), if_pos (by omega), Nat.add_sub_cancel_left]
    · rw [Line.set_of_ne high]
      by_cases low : j = i
      · subst low
        rw [Line.set_same, if_pos (by omega)]
      · rw [Line.set_of_ne low, moved]
        exact if_congr (by omega) rfl (if_congr (by omega) rfl rfl)
  · intro j
    rw [if_neg (by omega), if_neg (by omega)]

/-- The separated bands: the sample at `2 * i + parity` moves to `i`, the one beside it to
`sn + i`. -/
theorem deinterleave_apply (hsn : sn ≤ dn + 1) (hdn : dn ≤ sn + 1) (j : Nat) :
    deinterleave src dst dn sn parity j =
      if j < sn then src (2 * j + parity)
      else if j < sn + dn then src (2 * (j - sn) + (1 - parity)) else dst j := by
  unfold deinterleave
  by_cases low : min dn sn < sn
  · -- one low-pass sample more than high-pass ones
    rw [if_pos low]
    by_cases here : j = min dn sn
    · rw [here, Line.set_same, if_pos low]
    · rw [Line.set_of_ne here, deinterleave_loop (by omega)]
      split_ifs <;> first | rfl | omega
  · rw [if_neg low]
    by_cases high : min dn sn < dn
    · rw [if_pos high]
      by_cases here : j = sn + min dn sn
      · rw [here, Line.set_same, if_neg (by omega), if_pos (by omega), Nat.add_sub_cancel_left]
      · rw [Line.set_of_ne here, deinterleave_loop (by omega)]
        split_ifs <;> first | rfl | omega
    · rw [if_neg high, deinterleave_loop (by omega)]
      split_ifs <;> first | rfl | omega

/-- The forward kernel on two samples or more: the low-pass half of the lifted line, with the
DC shift taken off, followed by the high-pass half. -/
theorem encode53_apply (hlen : 2 ≤ len) (hp : parity ≤ 1) (hsn : sn = (len + (1 - parity)) / 2)
    (j : Nat) :
    encode53 x scratch len parity dcShift j =
      if j < sn then analyze53 parity len x (2 * j + parity) - dcShift
      else if j < len then analyze53 parity len x (2 * (j - sn) + (1 - parity)) else x j := by
  have lifted : ∀ k, k < len →
      (if parity = 0 then liftP0 x scratch sn (len - sn) else liftP1 x scratch sn (len - sn)) k =
        analyze53 parity len x k := by
    intro k hk
    obtain rfl | rfl : parity = 0 ∨ parity = 1 := by omega
    · exact liftP0_spec hlen hsn rfl hk
    · exact liftP1_spec hlen hsn rfl hk
  unfold encode53
  simp only [← hsn]
  generalize hlift : (if parity = 0 then liftP0 x scratch sn (len - sn)
    else liftP1 x scratch sn (len - sn)) = lift at lifted ⊢
  have shifted : ∀ k, k < len →
      (if dcShift ≠ 0 then shiftLow lift len parity dcShift else lift) k =
        if IsLow parity k then analyze53 parity len x k - dcShift else analyze53 parity len x k := by
    intro k hk
    by_cases none : dcShift = 0
    · rw [if_neg (not_not.mpr none), lifted k hk, none, sub_zero, ite_self]
    · rw [if_pos none, shiftLow_apply hp hk, lifted k hk]
  rw [deinterleave_apply (by omega) (by omega)]
  by_cases low : j < sn
  · rw [if_pos low, if_pos low, shifted _ (by omega), if_pos (by unfold IsLow; omega)]
  · rw [if_neg low, if_neg low]
    by_cases high : j < len
    · rw [if_pos (by omega), if_pos high, shifted _ (by omega), if_neg (by unfold IsLow; omega)]
    · rw [if_neg (by omega), if_neg high]

end Bands

end GrokCodec.Wavelet
