import GrokCodec.Mercury.Ladder
import GrokCodec.Wavelet.Tile53

/-!
The horizontal half of the streaming synthesis on the geometry of a resolution split. A line shows a
row of samples when its two phases, taken in turn, are the samples; filling a line from two bands,
the horizontal steps and the vertical kernels are described by the rows they show.
-/

namespace GrokCodec.Mercury

open Loop Lifting Wavelet Synthesis Function List

/-- `n as i32`. -/
def asI32 (n : Nat) : Int := (n : Int).bmod (2 ^ 32)

theorem asI32_of_lt {n : Nat} (h : n < 2 ^ 31) : asI32 n = n :=
  Int.bmod_eq_of_le_mul_two (by omega) (by omega)

/-- The closure `bd`, which hands a rectangle to the engine. -/
def bandDims (x0 y0 x1 y1 : Nat) : BandDims := ⟨asI32 x0, asI32 y0, asI32 (x1 - x0), asI32 (y1 - y0)⟩

theorem bandDims_of_lt {x0 y0 x1 y1 : Nat} (hx : x0 ≤ x1) (hx1 : x1 < 2 ^ 31) (hy : y0 ≤ y1)
    (hy1 : y1 < 2 ^ 31) : bandDims x0 y0 x1 y1 = ⟨x0, y0, (x1 : Int) - x0, (y1 : Int) - y0⟩ := by
  simp only [bandDims, asI32_of_lt (show x0 < 2 ^ 31 by omega),
    asI32_of_lt (show y0 < 2 ^ 31 by omega), asI32_of_lt (show x1 - x0 < 2 ^ 31 by omega),
    asI32_of_lt (show y1 - y0 < 2 ^ 31 by omega), Nat.cast_sub hx, Nat.cast_sub hy]

/-- A resolution and the bands it splits into. -/
def LevelSpec.split (cur : Rect) : LevelSpec :=
  let low (c : Nat) : Nat := (c + 1) / 2
  let high (c : Nat) : Nat := c / 2
  { node := bandDims cur.x0 cur.y0 cur.x1 cur.y1
    ll := bandDims (low cur.x0) (low cur.y0) (low cur.x1) (low cur.y1)
    hl := bandDims (high cur.x0) (low cur.y0) (high cur.x1) (low cur.y1)
    lh := bandDims (low cur.x0) (high cur.y0) (low cur.x1) (high cur.y1) }

/-- Bounds of a level whose geometry is computed within `i32`; a row number is doubled in places, a
column number is not. -/
structure LevelBounds extends TileCompBounds where
  x1_fits : x1 < 2 ^ 31
  y1_fits : y1 ≤ 2 ^ 30

theorem LevelSpec.split_eq (cur : LevelBounds) : LevelSpec.split cur.toRect =
    let low (c0 c1 : Nat) : Int × Int :=
      (((c0 + 1) / 2 : Nat), ((c1 + 1) / 2 : Nat) - ((c0 + 1) / 2 : Nat))
    let high (c0 c1 : Nat) : Int × Int := ((c0 / 2 : Nat), (c1 / 2 : Nat) - (c0 / 2 : Nat))
    let lx := low cur.x0 cur.x1
    let hx := high cur.x0 cur.x1
    let ly := low cur.y0 cur.y1
    let hy := high cur.y0 cur.y1
    { node := ⟨cur.x0, cur.y0, cur.x1 - cur.x0, cur.y1 - cur.y0⟩
      ll := ⟨lx.1, ly.1, lx.2, ly.2⟩
      hl := ⟨hx.1, ly.1, hx.2, ly.2⟩
      lh := ⟨lx.1, hy.1, lx.2, hy.2⟩ } := by
  have hx := cur.x_lt
  have hy := cur.y_lt
  have hx1 := cur.x1_fits
  have hy1 := cur.y1_fits
  have hmono {c0 c1 : Nat} (h : c0 < c1) : (c0 + 1) / 2 ≤ (c1 + 1) / 2 ∧ c0 / 2 ≤ c1 / 2 := by omega
  have hfits {c : Nat} (h : c < 2 ^ 31) : (c + 1) / 2 < 2 ^ 31 ∧ c / 2 < 2 ^ 31 := by omega
  have hy1 : cur.y1 < 2 ^ 31 := by omega
  simp only [LevelSpec.split]
  rw [bandDims_of_lt hx.le hx1 hy.le hy1,
    bandDims_of_lt (hmono hx).1 (hfits hx1).1 (hmono hy).1 (hfits hy1).1,
    bandDims_of_lt (hmono hx).2 (hfits hx1).2 (hmono hy).1 (hfits hy1).1,
    bandDims_of_lt (hmono hx).1 (hfits hx1).1 (hmono hy).2 (hfits hy1).2]

/-- The number of samples of phase `c` among the columns `x0 … x1 - 1`. -/
def phaseCount (x0 x1 c : Nat) : Int := ((x1 + 1 - c) / 2 : Nat) - ((x0 + 1 - c) / 2 : Nat)

/-- An engine for the bands of a resolution split. -/
structure SynthesisSetup.Split (E : SynthesisSetup) (cur : Rect) : Prop where
  steps : E.steps = w5x3Draft
  numSteps : E.params.numVertSteps = 2 ∧ E.params.numHorSteps = 2
  sym : E.params.vertSymmetricExtension = true ∧ E.params.horSymmetricExtension = true
  reversible : E.params.reversible = true
  not_empty : E.params.empty = false
  unitHeight : E.params.unitHeight = decide (cur.y1 = cur.y0 + 1)
  unitWidth : E.params.unitWidth = decide (cur.x1 = cur.x0 + 1)
  yOut : E.params.yMinOut = cur.y0 ∧ E.params.yMaxOut = cur.y1 - 1
  yIn : cur.y0 + 2 ≤ cur.y1 → ∀ p < 2,
    E.params.yMinIn p = rowFrom cur.y0 p ∧ E.params.yMaxIn p = rowUpTo (cur.y1 - 1) p
  xIn : E.params.xMinIn = cur.x0 ∧ E.params.xMaxIn = cur.x1 - 1
  xBuf : E.params.xMinPull = cur.x0 ∧ E.params.xMinBuf = cur.x0
  offset : ∀ c < 2, E.params.phaseOffIn c = 0 ∧ E.params.phaseOffOut c = 0 ∧
    E.params.requestOffset c = 0 ∧ E.params.leftFill c = 0 ∧ E.params.rightFill c = 0
  width : ∀ c < 2, E.params.phaseWidthIn c = phaseCount cur.x0 cur.x1 c ∧
    E.params.phaseWidthOut c = phaseCount cur.x0 cur.x1 c ∧
    E.params.requestWidth c = phaseCount cur.x0 cur.x1 c

section Axis

variable {even0 evenLen odd0 oddLen : Int} (axis even odd : String)

theorem draftAxis_both (he : 0 < evenLen) (ho : 0 < oddLen) :
    draftAxis even0 evenLen odd0 oddLen axis even odd =
      .ok (two (2 * even0) (2 * odd0 + 1),
        two (2 * (even0 + evenLen - 1)) (2 * (odd0 + oddLen - 1) + 1), false) := by
  simp only [draftAxis, not_le.mpr he, not_le.mpr ho, if_false]
  rfl

theorem draftAxis_even (he : evenLen = 1) (ho : oddLen ≤ 0) :
    draftAxis even0 evenLen odd0 oddLen axis even odd =
      .ok (two (2 * even0) (2 * even0 + 1), two (2 * even0) (2 * even0 - 1), true) := by
  subst he
  simp [draftAxis, requireSingleLine, ho, two, Bind.bind, Except.bind, Pure.pure, Except.pure]

theorem draftAxis_odd (he : evenLen ≤ 0) (ho : oddLen = 1) :
    draftAxis even0 evenLen odd0 oddLen axis even odd =
      .ok (two (2 * odd0 + 1 + 1) (2 * odd0 + 1), two (2 * odd0 + 1 - 1) (2 * odd0 + 1), true) := by
  subst ho
  simp [draftAxis, requireSingleLine, he, two, Bind.bind, Except.bind, Pure.pure, Except.pure]

theorem draftAxis_split {c0 c1 : Nat} (h : c0 < c1) :
    ∃ lo hi : Nat → Int, draftAxis ((c0 + 1) / 2 : Nat) (((c1 + 1) / 2 : Nat) - ((c0 + 1) / 2 : Nat))
        (c0 / 2 : Nat) ((c1 / 2 : Nat) - (c0 / 2 : Nat)) axis even odd =
          .ok (lo, hi, decide (c1 = c0 + 1)) ∧
      min (lo 0) (lo 1) = c0 ∧ max (hi 0) (hi 1) = c1 - 1 ∧
      (c0 + 2 ≤ c1 → ∀ p < 2, lo p = rowFrom c0 p ∧ hi p = rowUpTo (c1 - 1) p) := by
  by_cases hunit : c1 = c0 + 1
  · subst hunit
    rw [decide_eq_true rfl]
    by_cases hpar : c0 % 2 = 0
    · refine ⟨_, _, draftAxis_even axis even odd (by omega) (by omega), ?_, ?_, fun hc => by omega⟩
      all_goals
        simp only [two, if_true, one_ne_zero, if_false]
        omega
    · refine ⟨_, _, draftAxis_odd axis even odd (by omega) (by omega), ?_, ?_, fun hc => by omega⟩
      all_goals
        simp only [two, if_true, one_ne_zero, if_false]
        omega
  · rw [decide_eq_false hunit]
    refine ⟨_, _, draftAxis_both axis even odd (by omega) (by omega), ?_, ?_, fun _ p hp => ?_⟩
    · simp only [two, if_true, one_ne_zero, if_false]
      omega
    · simp only [two, if_true, one_ne_zero, if_false]
      omega
    · unfold rowFrom rowUpTo
      obtain rfl | rfl : p = 0 ∨ p = 1 := by omega
      all_goals
        simp only [two, if_true, one_ne_zero, if_false]
        omega

end Axis

/-- The geometry of a resolution split is accepted, with no fills at the ends of a row. -/
theorem draftParams_split (cur : LevelBounds) (alignment : Nat) :
    ∃ p, draftParams (.split cur.toRect) alignment true 2 true = .ok p ∧
      SynthesisSetup.Split ⟨p, w5x3Draft⟩ cur.toRect := by
  have hx := cur.x_lt
  have hy := cur.y_lt
  obtain ⟨ylo, yhi, hyAxis, -, -, hyIn⟩ := draftAxis_split "height" "ll" "lh" hy
  obtain ⟨xlo, xhi, hxAxis, hxMin, hxMax, -⟩ := draftAxis_split "width" "ll" "hl" hx
  have hnode : ¬ (((cur.x1 : Int) - cur.x0 ≤ 0) ∨ ((cur.y1 : Int) - cur.y0 ≤ 0)) := by omega
  unfold draftParams
  rw [LevelSpec.split_eq]
  simp only [hnode, if_false, hyAxis, hxAxis, hxMin, hxMax, Bind.bind, Except.bind,
    sub_self, Int.toNat_zero, repeatWhile]
  rw [if_pos ?_]
  · refine ⟨_, rfl, ⟨rfl, ⟨rfl, rfl⟩, ⟨rfl, rfl⟩, rfl, rfl, rfl, rfl, ⟨rfl, ?_⟩, hyIn, ⟨rfl, rfl⟩,
      ⟨rfl, rfl⟩, fun c hc => ?_, fun c hc => ?_⟩⟩
    · simp only
      omega
    · obtain rfl | rfl : c = 0 ∨ c = 1 := by omega
      all_goals
        simp only [two, if_true, one_ne_zero, if_false, true_and]
        omega
    · obtain rfl | rfl : c = 0 ∨ c = 1 := by omega
      all_goals
        simp only [phaseCount, two, if_true, one_ne_zero, if_false]
        omega
  · simp only [all_cons, all_nil, Bool.and_true, Bool.and_eq_true, decide_eq_true_eq, two,
      if_true, one_ne_zero, if_false]
    omega

/-- One dimension of the inverse transform on the coordinates `c0 … c1 - 1`. A single sample has no
neighbours: on an even coordinate it is taken over, on an odd one halved. -/
def synthLine (c0 c1 : Nat) (f : Line) : Line := fun k =>
  if c1 = c0 + 1 then if c0 % 2 = 1 then f k / 2 else f k
  else synthesize53 (c0 % 2) (c1 - c0) f k

section SynthLine

variable {c0 c1 k : Nat} {f g : Line}

theorem synthLine_congr (hk : c0 + k < c1) (h : ∀ i, c0 + i < c1 → f i = g i) :
    synthLine c0 c1 f k = synthLine c0 c1 g k := by
  unfold synthLine
  split
  · rw [h k hk]
  · exact synthesize_congr (by omega) (fun i hi => h i (by omega)) (by omega)

theorem loadH53_synthLine {scratch bandL bandH dest : Line} {sn dn : Nat} (hlen : sn + dn = c1 - c0)
    (hk : c0 + k < c1) :
    loadH53 scratch sn dn (c0 % 2) bandL bandH dest k =
      synthLine c0 c1 (interleave53 (c0 % 2) bandL bandH) k := by
  unfold synthLine
  by_cases hunit : c1 = c0 + 1
  · obtain rfl : k = 0 := by omega
    have hone : sn + dn = 1 := by omega
    obtain hpar | hpar : c0 % 2 = 0 ∨ c0 % 2 = 1 := by omega
    · simp [loadH53, hunit, hpar, hone, interleave53_low]
    · simp [loadH53, hunit, hpar, hone, interleave53_high]
  · rw [if_neg hunit, loadH53_apply (by omega) (by omega) (by omega), hlen]

/-- The vertical kernel, on a level without DC shift. It takes a lone high-pass row from the low-pass
window, which is then in the same place. -/
theorem v53_synthLine {wide : Bool} {scratch bandL bandH dest : Line} {sn dn : Nat}
    (hlen : sn + dn = c1 - c0) (hlone : c1 = c0 + 1 → c0 % 2 = 1 → bandL 0 = bandH 0)
    (hk : c0 + k < c1) :
    v53 wide scratch sn dn (c0 % 2) {} bandL bandH dest k =
      synthLine c0 c1 (interleave53 (c0 % 2) bandL bandH) k := by
  unfold synthLine
  by_cases hunit : c1 = c0 + 1
  · obtain rfl : k = 0 := by omega
    have hone : sn + dn = 1 := by omega
    obtain hpar | hpar : c0 % 2 = 0 ∨ c0 % 2 = 1 := by omega
    · simp [v53, hunit, hpar, hone, interleave53_low]
    · simp [v53, hunit, hpar, hone, interleave53_high, hlone hunit hpar]
  · rw [if_neg hunit, v53_apply fusable_default (by omega) (by omega) (by omega), hlen, finish_default]

end SynthLine

namespace SynthesisSetup.Split

variable {E : SynthesisSetup} {cur : Rect} {line : VliftLine} {j s : Nat}

theorem step_zero (S : E.Split cur) : E.step 0 = ⟨0, 2, 1, 1, [-1, -1]⟩ := by
  rw [step, S.steps]
  rfl

theorem step_one (S : E.Split cur) : E.step 1 = ⟨-1, 2, 2, 2, [1, 1]⟩ := by
  rw [step, S.steps]
  rfl

theorem splice (S : E.Split cur) (line : VliftLine) (j : Nat) :
    E.spliceOutput line j = line ((cur.x0 + j) % 2) (j / 2 : Nat) := by
  unfold spliceOutput
  simp only [S.xBuf.1, S.xBuf.2, sub_self, Int.zero_ediv, zero_add]
  by_cases hj : j % 2 = 0
  · rw [if_pos hj, show ((cur.x0 : Int) % 2).toNat = (cur.x0 + j) % 2 by omega]
    rfl
  · rw [if_neg hj, show 1 - ((cur.x0 : Int) % 2).toNat = (cur.x0 + j) % 2 by omega]
    rfl

theorem phase_lt (hj : cur.x0 + j < cur.x1) :
    ((j / 2 : Nat) : Int) < phaseCount cur.x0 cur.x1 ((cur.x0 + j) % 2) := by
  unfold phaseCount
  omega

variable (S : E.Split cur)

include S

theorem extend_eq (hs : s < 2) :
    E.extend s = if ((cur.x0 : Int) + s) % 2 = 1 ∨ ((cur.x1 : Int) - 1 + s) % 2 = 1 then 1 else 0 := by
  unfold SynthesisSetup.extend
  obtain ⟨hmin, hmax⟩ := S.xIn
  obtain rfl | rfl : s = 0 ∨ s = 1 := by omega
  · simp only [S.step_zero, hmin, hmax]
    split_ifs <;> omega
  · simp only [S.step_one, hmin, hmax]
    split_ifs <;> omega

/-- The extended source of a step: the samples themselves, and beyond an end where the step reads one
more the last of them again. -/
theorem extendPhase_eq (hs : s < 2) (phase : Int → Int) {n i : Int}
    (h : (0 ≤ i ∧ i < n) ∨ (i = -1 ∧ ((cur.x0 : Int) + s) % 2 = 1) ∨
      (i = n ∧ ((cur.x1 : Int) - 1 + s) % 2 = 1)) (hn : 0 < n) :
    E.extendPhase s 0 (n - 1) phase i = phase (if i < 0 then 0 else if i < n then i else n - 1) := by
  unfold extendPhase
  obtain ⟨hmin, hmax⟩ := S.xIn
  rw [S.extend_eq hs]
  by_cases hends : ((cur.x0 : Int) + s) % 2 = 1 ∨ ((cur.x1 : Int) - 1 + s) % 2 = 1
  · rw [if_pos hends]
    simp only [countTo, S.sym.2, if_true, hmin, hmax, Nat.cast_zero, zero_add, zero_sub,
      sub_add_cancel, update_apply]
    rcases h with h | ⟨rfl, h⟩ | ⟨rfl, h⟩
    · rw [if_neg (by omega), if_neg (by omega), if_neg (by omega), if_pos h.2]
    · rw [if_neg (by omega), if_pos rfl, h]
      rfl
    · rw [if_pos rfl, if_neg (by omega), if_neg (by omega), if_neg (by omega), h]
      simp
  · rw [if_neg hends]
    simp only [countTo]
    congr 1
    split_ifs <;> omega

theorem hlift_eq (hs : s < 2) (line : VliftLine) :
    E.hlift s line =
      update
        (update line s (E.extendPhase s 0 (phaseCount cur.x0 cur.x1 s - 1) (line s))) (1 - s)
        fun k => if 0 ≤ k ∧ k < phaseCount cur.x0 cur.x1 (1 - s) then
          line (1 - s) k - (E.step s).lift ([0, 1].map fun t : Nat =>
            E.extendPhase s 0 (phaseCount cur.x0 cur.x1 s - 1) (line s)
              (k + t - ((cur.x0 : Int) + s) % 2))
        else line (1 - s) k := by
  have h0 := S.offset 0 (by decide)
  have h1 := S.offset 1 (by decide)
  unfold hlift
  obtain rfl | rfl : s = 0 ∨ s = 1 := by omega
  · have hindex (k : Int) (t : Nat) :
        (0 : Int) - (if (cur.x0 : Int) % 2 ≠ 0 then 2 * ((1 : Nat) : Int) - 1 else 0) - 0 + k + t =
          k + t - ((cur.x0 : Int) + (0 : Nat)) % 2 := by
      split_ifs <;> omega
    simp only [show 1 - 0 % 2 = 1 from rfl, show 1 - 1 = 0 from rfl, h0.1, h1.1, S.step_zero, S.xIn.1,
      (S.width 0 (by decide)).1, (S.width 1 (by decide)).1, show range 2 = [0, 1] from rfl,
      zero_add, add_zero, hindex]
  · have hindex (k : Int) (t : Nat) :
        (0 : Int) - (if (cur.x0 : Int) % 2 ≠ 0 then 2 * ((0 : Nat) : Int) - 1 else 0) + -1 - 0 + k + t =
          k + t - ((cur.x0 : Int) + (1 : Nat)) % 2 := by
      split_ifs <;> omega
    simp only [show 1 - 1 % 2 = 0 from rfl, show 1 - 0 = 1 from rfl, h0.1, h1.1, S.step_one, S.xIn.1,
      (S.width 0 (by decide)).1, (S.width 1 (by decide)).1, show range 2 = [0, 1] from rfl,
      zero_add, add_zero, hindex]

/-- One horizontal step in terms of the rows shown: every other sample is lifted from its two
neighbours, mirrored at the ends of the row. -/
theorem splice_hlift (hw : cur.x0 + 2 ≤ cur.x1) (hs : s < 2) (hj : cur.x0 + j < cur.x1) :
    E.spliceOutput (E.hlift s line) j =
      if (cur.x0 + j + s) % 2 = 1 then
        E.spliceOutput line j - (E.step s).lift
          [E.spliceOutput line (prev j), E.spliceOutput line (next (cur.x1 - cur.x0) j)]
      else E.spliceOutput line j := by
  have hcount : 0 < phaseCount cur.x0 cur.x1 s := by
    unfold phaseCount
    omega
  simp only [S.splice, S.hlift_eq hs]
  by_cases hphase : (cur.x0 + j + s) % 2 = 1
  · have hlt := phase_lt hj
    rw [show (cur.x0 + j) % 2 = 1 - s by omega] at hlt
    rw [if_pos hphase, show (cur.x0 + j) % 2 = 1 - s by omega, update_self,
      if_pos ⟨by omega, hlt⟩,
      show (cur.x0 + prev j) % 2 = s by unfold Lifting.prev; split_ifs <;> omega,
      show (cur.x0 + next (cur.x1 - cur.x0) j) % 2 = s by unfold Lifting.next; split_ifs <;> omega]
    simp only [map_cons, map_nil]
    rw [S.extendPhase_eq hs _ ?_ hcount, S.extendPhase_eq hs _ ?_ hcount]
    · congr 4
      · unfold Lifting.prev phaseCount
        split_ifs <;> omega
      · congr 2
        unfold Lifting.next phaseCount
        split_ifs <;> omega
    · unfold phaseCount
      omega
    · unfold phaseCount
      omega
  · have hlt := phase_lt hj
    rw [show (cur.x0 + j) % 2 = s by omega] at hlt
    rw [if_neg hphase, show (cur.x0 + j) % 2 = s by omega, update_of_ne (by omega),
      update_self, S.extendPhase_eq hs _ (.inl ⟨by omega, hlt⟩) hcount, if_neg (by omega),
      if_pos hlt]

theorem lift_zero (x y : Int) : (E.step 0).lift [x, y] = -predict53 x y := by
  rw [S.step_zero]
  simp only [StepSpec.lift, zipWith_cons_cons, zipWith_nil_left, sum_cons, sum_nil,
    predict53]
  omega

theorem lift_one (x y : Int) : (E.step 1).lift [x, y] = update53 x y := by
  rw [S.step_one]
  simp only [StepSpec.lift, zipWith_cons_cons, zipWith_nil_left, sum_cons, sum_nil,
    update53]
  omega

theorem splice_hsynth (hx : cur.x0 < cur.x1) {f : Line}
    (hf : ∀ j, cur.x0 + j < cur.x1 → E.spliceOutput line j = f j) (hj : cur.x0 + j < cur.x1) :
    E.spliceOutput (E.hsynth line) j = synthLine cur.x0 cur.x1 f j := by
  unfold hsynth synthLine
  simp only [S.numSteps.2, S.reversible, S.unitWidth, S.xIn.1]
  by_cases hunit : cur.x1 = cur.x0 + 1
  · obtain rfl : j = 0 := by omega
    rw [← hf 0 hj, if_neg (by decide), if_pos hunit, if_pos (decide_eq_true hunit)]
    by_cases hpar : cur.x0 % 2 = 1
    · have hodd : ((cur.x0 : Int) % 2 != 0) = true := bne_iff_ne.mpr (by omega)
      rw [if_pos hpar, hodd, Bool.true_and, if_pos rfl, S.splice, S.splice, (S.offset 1 (by decide)).1,
        show (cur.x0 + 0) % 2 = 1 from hpar]
      simp [VliftLine.set]
    · have heven : ((cur.x0 : Int) % 2 != 0) = false := by
        rw [bne_eq_false_iff_eq]
        omega
      rw [if_neg hpar, heven, Bool.true_and, if_neg Bool.false_ne_true]
  · rw [if_neg (by decide), if_neg hunit, if_neg (by simpa using hunit)]
    have hline : E.hliftFrom 2 line = E.hlift 0 (E.hlift 1 line) := by
      simp only [hliftFrom, S.step_zero, S.step_one]
      rfl
    have hw : cur.x0 + 2 ≤ cur.x1 := by omega
    have hwidth : 2 ≤ cur.x1 - cur.x0 := by omega
    -- the first step leaves the odd columns as they are and restores the even ones
    have hhigh (k : Nat) (hk : cur.x0 + k < cur.x1) (hpar : (cur.x0 + k) % 2 = 1) :
        E.spliceOutput (E.hlift 1 line) k = f k := by
      rw [S.splice_hlift hw (by decide) hk, if_neg (by omega), hf k hk]
    have hlow (k : Nat) (hk : cur.x0 + k < cur.x1) (hpar : (cur.x0 + k) % 2 = 0) :
        E.spliceOutput (E.hlift 1 line) k = restore53 (cur.x1 - cur.x0) f k := by
      have hprev := prev_lt hwidth (show k < cur.x1 - cur.x0 by omega)
      have hnext := next_lt (show k < cur.x1 - cur.x0 by omega)
      rw [S.splice_hlift hw (by decide) hk, if_pos (by omega), S.lift_one, hf k hk, hf _ (by omega),
        hf _ (by omega)]
      rfl
    rw [hline, S.splice_hlift hw (by decide) hj]
    by_cases hpar : (cur.x0 + j) % 2 = 0
    · rw [if_neg (by omega), hlow j hj hpar, synthesize53_low (by omega)]
    · have hprev := prev_lt hwidth (show j < cur.x1 - cur.x0 by omega)
      have hnext := next_lt (show j < cur.x1 - cur.x0 by omega)
      rw [if_pos (by omega), S.lift_zero, hhigh j hj (by omega), hlow _ (by omega) ?_,
        hlow _ (by omega) ?_, synthesize53_high (by omega), predict53, sub_neg_eq_add]
      · unfold Lifting.next
        split_ifs <;> omega
      · unfold Lifting.prev
        split_ifs <;> omega

omit S

section Pull

variable {parity c : Nat} {src : RowSource}

theorem pullPhase_rows : (pullPhase E parity c line src).2.rows = src.rows := by
  rw [pullPhase_source]

theorem pullPhase_of_ne {c' : Nat} (h : c' ≠ c) :
    (pullPhase E parity c line src).1 c' = line c' := by
  unfold pullPhase
  split
  · exact update_of_ne h ..
  · rfl

theorem pullPhase_self (S : E.Split cur) (hc : c < 2) {k : Nat}
    (hk : (k : Int) < phaseCount cur.x0 cur.x1 c) :
    (pullPhase E parity c line src).1 c k =
      src.rows (2 * parity + c) (src.taken (2 * parity + c)) k := by
  have hwidth := (S.width c hc).2.2
  have hoff := (S.offset c hc).2.2.1
  unfold pullPhase
  rw [if_pos (by omega)]
  show E.packPhase c _ line c k = _
  unfold packPhase
  simp only [update_self, hoff, hwidth, zero_add, sub_zero, Int.toNat_natCast]
  rw [if_pos ⟨by omega, hk⟩]
  rfl

/-- The next row of a parity shows the transformed samples of its two bands. -/
theorem splice_pullRow (S : E.Split cur) (hx : cur.x0 < cur.x1) {k : Nat}
    (htaken : ∀ c < 2, 0 < E.params.requestWidth c → src.taken (2 * parity + c) = k)
    (hj : cur.x0 + j < cur.x1) :
    E.spliceOutput (pullRow E parity line src).1 j =
      synthLine cur.x0 cur.x1
        (interleave53 (cur.x0 % 2) (src.rows (2 * parity) k) (src.rows (2 * parity + 1) k)) j := by
  have hpull : (pullRow E parity line src).1 = E.hsynth (pullPhase E parity 1
      (pullPhase E parity 0 line src).1 (pullPhase E parity 0 line src).2).1 := rfl
  rw [hpull]
  refine S.splice_hsynth hx (fun j hj => ?_) hj
  have hlt := phase_lt hj
  have hwanted (c : Nat) (hc : c < 2) (hphase : (cur.x0 + j) % 2 = c) :
      src.taken (2 * parity + c) = k := by
    refine htaken c hc ?_
    rw [(S.width c hc).2.2, ← hphase]
    omega
  rw [S.splice]
  by_cases hpar : (cur.x0 + j) % 2 = 0
  · rw [interleave53_low (by omega), hpar]
    rw [hpar] at hlt
    rw [pullPhase_of_ne (by decide), S.pullPhase_self (by decide) hlt, hwanted 0 (by decide) hpar,
      Nat.add_zero]
  · have hodd : (cur.x0 + j) % 2 = 1 := by omega
    rw [interleave53_high (by omega), hodd]
    rw [hodd] at hlt
    have hother : (pullPhase E parity 0 line src).2.taken (2 * parity + 1) =
        src.taken (2 * parity + 1) := by
      rw [pullPhase_source]
      simp only
      split
      · exact update_of_ne (by omega) ..
      · rfl
    rw [S.pullPhase_self (by decide) hlt, pullPhase_rows, hother, hwanted 1 (by decide) hodd]

end Pull

theorem splice_plyVlift (S : E.Split cur) {sources : List VliftLine} {vin vout : VliftLine}
    (hj : cur.x0 + j < cur.x1) :
    E.spliceOutput (E.plyVlift s sources vin vout) j =
      E.spliceOutput vin j - (E.step s).lift (sources.map fun l => E.spliceOutput l j) := by
  have hc : (cur.x0 + j) % 2 < 2 := Nat.mod_lt _ (by decide)
  have hlt := phase_lt hj
  simp only [S.splice, plyVlift, (S.offset _ hc).2.1, (S.width _ hc).2.1, zero_add]
  rw [if_pos ⟨by omega, hlt⟩]

theorem splice_halvePick (S : E.Split cur) (hj : cur.x0 + j < cur.x1) :
    E.spliceOutput (E.halvePick line) j = E.spliceOutput line j / 2 := by
  have hc : (cur.x0 + j) % 2 < 2 := Nat.mod_lt _ (by decide)
  have hlt := phase_lt hj
  simp only [S.splice, halvePick, (S.offset _ hc).2.1, (S.width _ hc).2.1, zero_add]
  rw [if_pos ⟨by omega, hlt⟩]

end SynthesisSetup.Split

end GrokCodec.Mercury
