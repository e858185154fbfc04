import GrokCodec.Wavelet.Rev53

/-!
The inverse transform of a Part 2 kernel on one line: any number of lifting steps, with the line
extended at both ends. Coefficients are integers. The source sums a step of a kernel in 64 bits and
the built-in filter in 32, where it wraps; here both are sums of integers, so the two are compared
on bands that the built-in filter rebuilds within 32 bits.
-/

namespace GrokCodec.Wavelet

open Loop Lifting Line

structure LiftingStep where
  offset : Int
  downshift : Nat
  rounding : Int
  coefficients : List Int

/-- A reversible `TransformKernel`. -/
structure TransformKernel where
  symmetricExtension : Bool
  lastStepParity : Nat
  steps : List LiftingStep

def extendIndex (index : Int) (length : Nat) (symmetric : Bool) : Nat :=
  if length = 1 then 0
  else if 0 ≤ index ∧ index < length then index.toNat
  else if !symmetric then if index < 0 then 0 else length - 1
  else
    let period := 2 * (length - 1)
    let folded := index.natAbs % period
    if length ≤ folded then period - folded else folded

/-- Body of the loop over the samples of a step. -/
def kernelSample (symmetric : Bool) (length parity stepParity : Nat) (step : LiftingStep) (k : Nat)
    (line : Line) : Line :=
  let targetOffset := if stepParity = 0 then 1 else 0
  let sourceStart : Int := 2 * stepParity - 1 + 2 * step.offset
  if (k + parity) % 2 ≠ targetOffset then line
  else
    let sum := (step.coefficients.mapIdx fun i c =>
      c * line (extendIndex (k + sourceStart + 2 * i) length symmetric)).sum
    line.set k (line k - (sum + step.rounding) / 2 ^ step.downshift)

def kernelLine (kernel : TransformKernel) (line : Line) (length parity : Nat) : Line :=
  if length = 1 then line
  else
    (kernel.steps.mapIdx Prod.mk).foldl (fun line (stepIndex, step) =>
      countTo (kernelSample kernel.symmetricExtension length parity
        ((kernel.lastStepParity + stepIndex) % 2) step) length line) line

/-- The kernel of the built-in filter: update, then predict. -/
def kernel53 : TransformKernel where
  symmetricExtension := true
  lastStepParity := 1
  steps := [⟨-1, 2, 2, [1, 1]⟩, ⟨0, 1, 1, [-1, -1]⟩]

variable {n p k : Nat}

theorem extendIndex_prev (hn : 2 ≤ n) (hk : k < n) : extendIndex (k + -1) n true = prev k := by
  cases k with
  | zero =>
    have hmod : 1 % (2 * (n - 1)) = 1 := Nat.mod_eq_of_lt (by omega)
    simp [extendIndex, hmod, show n ≠ 1 by omega, show ¬n ≤ 1 by omega]
  | succ k => simp [extendIndex, show n ≠ 1 by omega, show (k : Int) < n by omega]

theorem extendIndex_next (hn : 2 ≤ n) (hk : k < n) : extendIndex (k + 1) n true = next n k := by
  unfold extendIndex next
  rw [if_neg (by omega)]
  by_cases hlast : k + 1 < n
  · rw [if_pos hlast, if_pos (by omega)]
    omega
  · have hmod : (k + 1) % (2 * (n - 1)) = if n = 2 then 0 else n := by
      split
      · simp [show k + 1 = 2 by omega, show n = 2 by omega]
      · rw [Nat.mod_eq_of_lt (by omega)]
        omega
    rw [if_neg hlast, if_neg (by omega)]
    have habs : ((k : Int) + 1).natAbs = k + 1 := by omega
    simp only [Bool.not_true, Bool.false_eq_true, if_false, habs, hmod]
    split <;> split <;> omega

theorem neighbours_parity (hn : 2 ≤ n) (hk : k < n) (p : Nat) :
    (prev k + p) % 2 ≠ (k + p) % 2 ∧ (next n k + p) % 2 ≠ (k + p) % 2 := by
  have hprev := isLow_prev (p := p) (k := k)
  have hnext := isLow_next (p := p) hn hk
  unfold IsLow at hprev hnext
  omega

/-- A step reads the samples of one parity and changes those of the other. -/
theorem kernelStep_apply (step : LiftingStep) {stepParity : Nat} {a : Int} {f : Int → Int → Int}
    (hn : 2 ≤ n) (hp : stepParity ≤ 1) (hstart : 2 * (stepParity : Int) - 1 + 2 * step.offset = -1)
    (hcoef : step.coefficients = [a, a])
    (hf : ∀ u v, (a * u + a * v + step.rounding) / 2 ^ step.downshift = f u v) (line : Line) :
    ∀ k < n, countTo (kernelSample true n p stepParity step) n line k =
      if k < n ∧ (k + p) % 2 = 1 - stepParity then line k - f (line (prev k)) (line (next n k))
      else line k := by
  refine countTo_rule (fun i (l : Line) => ∀ k < n, l k =
    if k < i ∧ (k + p) % 2 = 1 - stepParity then line k - f (line (prev k)) (line (next n k))
    else line k) (fun i l hi hl k hk => ?_) (by simp)
  have htarget : (if stepParity = 0 then 1 else 0) = 1 - stepParity := by split <;> omega
  unfold kernelSample
  rw [htarget, hstart, hcoef]
  by_cases hsame : (i + p) % 2 = 1 - stepParity
  · -- the two sources have the other parity, so they still hold what they held
    obtain ⟨hprev, hnext⟩ := neighbours_parity hn hi p
    have hsum : ([a, a].mapIdx fun j c => c * l (extendIndex (i + -1 + 2 * j) n true)).sum =
        a * line (prev i) + a * line (next n i) := by
      rw [← (hl _ (prev_lt hn hi)).trans (if_neg (by omega)),
        ← (hl _ (next_lt hi)).trans (if_neg (by omega))]
      simp [extendIndex_prev hn hi, extendIndex_next hn hi,
        show (i : Int) + -1 + 2 = i + 1 by omega]
    rw [if_neg (not_not.mpr hsame), hsum, hf]
    by_cases heq : k = i
    · rw [heq, set_same, hl i hi, if_neg (by omega), if_pos ⟨by omega, hsame⟩]
    · rw [set_of_ne heq, hl k hk]
      simp only [show k < i + 1 ↔ k < i by omega]
  · rw [if_pos hsame, hl k hk]
    refine if_congr (and_congr_left fun hpar => ?_) rfl rfl
    have hne : k ≠ i := fun heq => hsame (heq ▸ hpar)
    omega

theorem kernelLine_53 (hn : 2 ≤ n) (y : Line) (hk : k < n) :
    kernelLine kernel53 y n p k = synthesize53 p n y k := by
  have hupdate := kernelStep_apply ⟨-1, 2, 2, [1, 1]⟩ (p := p) (f := update53) hn
    (by decide : 1 ≤ 1) rfl rfl (by simp [update53]) y
  have hpredict := kernelStep_apply ⟨0, 1, 1, [-1, -1]⟩ (p := p) (f := fun u v => -predict53 u v)
    hn (by decide : 0 ≤ 1) rfl rfl (fun u v => by simp [predict53]; omega)
  have hline : kernelLine kernel53 y n p = countTo (kernelSample true n p 0 ⟨0, 1, 1, [-1, -1]⟩) n
      (countTo (kernelSample true n p 1 ⟨-1, 2, 2, [1, 1]⟩) n y) := if_neg (by omega)
  rw [hline, hpredict _ k hk]
  by_cases hlow : (k + p) % 2 = 0
  · rw [synthesize53_low hlow, if_neg (by omega), hupdate k hk, if_pos ⟨hk, hlow⟩]
    rfl
  · obtain ⟨hprev, hnext⟩ := neighbours_parity hn hk p
    rw [synthesize53_high (by omega), if_pos (by omega), hupdate k hk, if_neg (by omega),
      hupdate _ (prev_lt hn hk), if_pos ⟨prev_lt hn hk, by omega⟩,
      hupdate _ (next_lt hk), if_pos ⟨next_lt hk, by omega⟩, sub_neg_eq_add]
    rfl

def Fits32 (v : Int) : Prop := -2 ^ 31 ≤ v ∧ v < 2 ^ 31

instance decidableFits32 (v : Int) : Decidable (Fits32 v) := inferInstanceAs (Decidable (_ ∧ _))

/-- Bands from which `load_h_53` rebuilds a line within 32 bits: its samples, the sum in every update,
which a border forms from one difference, and the sum in every prediction, which a border does not
form. -/
structure Bands32 (sn dn parity : Nat) where
  bandL : Line
  bandH : Line
  samples : 2 ≤ sn + dn → ∀ k < sn + dn,
    Fits32 (interleave53 parity bandL bandH k) ∧
      Fits32 (synthesize53 parity (sn + dn) (interleave53 parity bandL bandH) k)
  update : 2 ≤ sn + dn → ∀ k < sn + dn, IsLow parity k →
    let y := interleave53 parity bandL bandH
    if prev k = next (sn + dn) k then Fits32 (y (prev k) + 1)
    else Fits32 (y (prev k) + y (next (sn + dn) k) + 2)
  predict : 2 ≤ sn + dn → ∀ k < sn + dn, ¬ IsLow parity k → prev k ≠ next (sn + dn) k →
    let x := synthesize53 parity (sn + dn) (interleave53 parity bandL bandH)
    Fits32 (x (prev k) + x (next (sn + dn) k))

variable {scratch dest : Line} {sn dn parity : Nat}

/-- **A Part 2 kernel with the steps of the 5/3 filter is the built-in filter, except that it does not
halve a lone high-pass sample.** -/
theorem kernelLine_eq_loadH53_iff (hp : parity ≤ 1) (hlen : 1 ≤ sn + dn) (b : Bands32 sn dn parity) :
    (∀ k < sn + dn, kernelLine kernel53 (interleave53 parity b.bandL b.bandH) (sn + dn) parity k =
      loadH53 scratch sn dn parity b.bandL b.bandH dest k) ↔
    (sn + dn = 1 → parity = 1 → b.bandH 0 = 0 ∨ b.bandH 0 = -1) := by
  by_cases hone : sn + dn = 1
  · simp only [hone, Nat.lt_one_iff, forall_eq, kernelLine, loadH53, if_true]
    obtain rfl | rfl : parity = 0 ∨ parity = 1 := by omega
    · simp [interleave53_low]
    · simp [interleave53_high]
      omega
  · refine iff_of_true (fun k hk => ?_) fun h => absurd h hone
    rw [kernelLine_53 (by omega) _ hk, loadH53_apply hp (by omega) hk]

/-- Three low-pass and two high-pass samples. -/
def fiveSamples : Bands32 3 2 0 where
  bandL := fun i => 5 * i
  bandH := fun i => 3 - i
  samples := by decide
  update := by decide
  predict := by decide

theorem kernelLine_fiveSamples :
    (List.range 5).map (kernelLine kernel53 (interleave53 0 fiveSamples.bandL fiveSamples.bandH) 5 0) =
      (List.range 5).map
        (loadH53 (fun _ => 0) 3 2 0 fiveSamples.bandL fiveSamples.bandH (fun _ => 0)) :=
  List.map_congr_left fun k hk =>
    (kernelLine_eq_loadH53_iff (by decide) (by decide) fiveSamples).mpr (by decide) k
      (List.mem_range.mp hk)

theorem kernelLine_loneHigh :
    kernelLine kernel53 (interleave53 1 (fun _ => 0) fun _ => 2) 1 1 0 = 2 ∧
      loadH53 (fun _ => 0) 0 1 1 (fun _ => 0) (fun _ => 2) (fun _ => 0) 0 = 1 := by
  decide

end GrokCodec.Wavelet
