import GrokCodec.RateControl.Retry

/-!
Layer budgets in the feasible mode of rate allocation. A search tries thresholds between its bounds
and settles on the upper one. A threshold that became the upper bound was simulated, or its layer is
empty; the upper bound that a search starts with was never tried.
-/

namespace GrokCodec.RateControl

open Loop List CodeblockCompress Settings Nat

variable {D : Type}

theorem minimumSlope_bounds (blocks : Blocks D) :
    0 < minimumSlope blocks ∧ minimumSlope blocks ≤ ushrtMax := by
  have hfold (passes : List (CodePass D)) (minimum : Nat) (h : 0 < minimum ∧ minimum ≤ ushrtMax) :
      let slope := passes.foldl (fun minimum pass =>
        if pass.slope = 0 then minimum else min pass.slope minimum) minimum
      0 < slope ∧ slope ≤ ushrtMax := by
    induction passes generalizing minimum with
    | nil => exact h
    | cons pass rest ih =>
      apply ih
      dsimp only
      split
      · exact h
      · omega
  exact hfold _ _ (by decide)

variable [Double D]

/-- The packets of the layers up to this one fit the budget of this one. -/
def Settings.BudgetMet (c : Settings D) (blocks : Blocks D) (layno : Nat) : Prop :=
  c.simulate (layno + 1) (blocks.view (layno + 1)) (c.rates layno) = true

/-- The threshold that the search of a layer starts from fits the budget of the layer. -/
def Settings.StartFits (c : Settings D) (p : Progress Nat D) (layno : Nat) : Prop :=
  c.fits (c.rates layno) layno
    (p.blocks.makeLayerFeasible layno (p.upperBound % 2 ^ 16) false) = true

section Thresholds

theorem view_final (layno thresh n : Nat) (finalAttempt : Bool) (blocks : Blocks D) :
    (blocks.makeLayerFeasible layno thresh finalAttempt).view n =
      (blocks.makeLayerFeasible layno thresh false).view n := by
  unfold Blocks.view Blocks.makeLayerFeasible
  rw [map_map, map_map]
  rfl

theorem ReadyFor.trans {layno : Nat} {a b d : CodeblockCompress D} (hab : ReadyFor layno a b)
    (hbd : ReadyFor layno b d) : ReadyFor layno a d := by
  refine ⟨hab.passes.trans hbd.passes, fun hne => ?_⟩
  have hab := hab.later hne
  have hbd := hbd.later hne
  exact ⟨hab.passes.trans hbd.passes, hab.counter.trans hbd.counter,
    fun l hl => (hab.layers l hl).trans (hbd.layers l hl)⟩

theorem readyFor_probe (layno thresh : Nat) (a : CodeblockCompress D) :
    ReadyFor layno (a.feasibleStep layno thresh false) a := by
  unfold feasibleStep
  refine ⟨by split <;> rfl, fun hne => ?_⟩
  rw [if_neg hne]
  refine ⟨rfl, ?_, fun l hl => ?_⟩
  · simp [setLayer]
  · rw [setLayer_layers_of_ne (Nat.ne_of_lt hl)]

theorem ready_probe {layno : Nat} {s t : Blocks D} (h : List.Forall₂ (ReadyFor layno) s t)
    (thresh : Nat) :
    List.Forall₂ (ReadyFor layno) (s.makeLayerFeasible layno thresh false) t := by
  apply forall₂_map_left_iff.mpr
  exact h.imp fun a _ hab => (readyFor_probe layno thresh a).trans hab

theorem feasibleStep_totalPasses (layno thresh : Nat) (a : CodeblockCompress D) :
    ((a.feasibleStep layno thresh false).layers layno).totalPasses =
      let a := if layno = 0 then { a with numPassesInPreviousLayers := 0 } else a
      a.includedFeasible thresh - a.numPassesInPreviousLayers := by
  unfold feasibleStep
  rw [setLayer_layers_self, updatedLayer_totalPasses]

theorem feasibleStep_antitone {thresh thresh' : Nat} (hle : thresh ≤ thresh') (layno : Nat)
    (a : CodeblockCompress D) :
    ((a.feasibleStep layno thresh' false).layers layno).totalPasses ≤
      ((a.feasibleStep layno thresh false).layers layno).totalPasses := by
  rw [feasibleStep_totalPasses, feasibleStep_totalPasses]
  apply Nat.sub_le_sub_right
  exact scanFeasible_antitone hle _ le_rfl

/-- If a threshold leaves a layer empty, so does every higher one. -/
theorem sameBelow_of_unchanged {thresh thresh' : Nat} (hle : thresh ≤ thresh') {layno : Nat}
    {blocks : Blocks D}
    (hnone : (blocks.makeLayerFeasible layno thresh false).allocationChanged layno = false) :
    SameBelow (layno + 1) (blocks.makeLayerFeasible layno thresh false)
      (blocks.makeLayerFeasible layno thresh' false) := by
  apply forall₂_map_left_iff.mpr
  apply forall₂_map_right_iff.mpr
  apply forall₂_same.mpr
  intro a ha
  have hzero : ((a.feasibleStep layno thresh false).layers layno).totalPasses = 0 := by
    have := any_eq_false.mp hnone _ (mem_map_of_mem ha)
    simpa using this
  have hzero' := Nat.le_zero.mp (hzero ▸ feasibleStep_antitone hle layno a)
  refine ⟨rfl, ?_, fun l hl => ?_⟩
  · simp [feasibleStep, setLayer]
  · by_cases hlk : l = layno
    · rw [hlk, Layer.visible, Layer.visible, if_pos hzero, if_pos hzero']
    · unfold feasibleStep
      rw [setLayer_layers_of_ne hlk, setLayer_layers_of_ne hlk]

end Thresholds

section Search

theorem midpoint_eq {lower upper : Nat} (hlower : lower ≤ 2 ^ 16) (hupper : upper < 2 ^ 16) :
    midpoint lower upper = (lower + upper) / 2 := by
  unfold midpoint
  rw [mod_eq_of_lt (by omega), shiftRight_one]

/-- A search for a layer that started at `p`. The lower bound may be one above the upper bound. -/
structure Probing (layno : Nat) (p : Progress Nat D) (s : Search Nat D) : Prop where
  ready : List.Forall₂ (ReadyFor layno) s.blocks p.blocks
  upper_le : s.upperBound ≤ p.upperBound
  lower_le : s.lowerBound ≤ s.upperBound + 1

variable {c : Settings D} {min_slope layno : Nat} {p : Progress Nat D} {s : Search Nat D}

theorem Probing.thresh (hupper : p.upperBound < 2 ^ 16) (h : Probing layno p s) :
    midpoint s.lowerBound s.upperBound = (s.lowerBound + s.upperBound) / 2 ∧
      midpoint s.lowerBound s.upperBound ≤ s.upperBound ∧
      midpoint s.lowerBound s.upperBound % 2 ^ 16 = midpoint s.lowerBound s.upperBound := by
  have hle := h.upper_le
  have hnear := h.lower_le
  have hmid : midpoint s.lowerBound s.upperBound = (s.lowerBound + s.upperBound) / 2 :=
    midpoint_eq (by omega) (by omega)
  refine ⟨hmid, by omega, mod_eq_of_lt (by omega)⟩

theorem Probing.round {maxLayerLength : Nat} (hupper : p.upperBound < 2 ^ 16)
    (h : Probing layno p s) :
    Probing layno p (c.feasibleRound maxLayerLength layno p.cumulativeDistortion s) := by
  obtain ⟨hmid, hle, -⟩ := h.thresh hupper
  have hstart := h.upper_le
  unfold feasibleRound
  dsimp only
  split
  · exact { h with }
  · have hready := ready_probe h.ready (midpoint s.lowerBound s.upperBound % 2 ^ 16)
    generalize midpoint s.lowerBound s.upperBound = thresh at hmid hle hready ⊢
    split
    · exact ⟨hready, show thresh ≤ p.upperBound by omega,
        show s.lowerBound ≤ thresh + 1 by omega⟩
    · exact ⟨hready, hstart, show thresh ≤ s.upperBound + 1 by omega⟩

/-- A search whose upper bound fits the budget. -/
structure Searching (c : Settings D) (min_slope layno : Nat) (p : Progress Nat D)
    (s : Search Nat D) : Prop extends Probing layno p s where
  lower_ge : min_slope ≤ s.lowerBound
  fits : c.fits (c.rates layno) layno
    (p.blocks.makeLayerFeasible layno s.upperBound false) = true

/-- A round keeps the upper bound within the budget. Where only the upper bound itself is left to
try, it is tried again and accepted, so the lower bound stays above the smallest slope. -/
theorem Searching.round (hrate : c.allocationByFixedQuality = false)
    (hupper : p.upperBound < 2 ^ 16) (h : Searching c min_slope layno p s) :
    Searching c min_slope layno p
      (c.feasibleRound (c.rates layno) layno p.cumulativeDistortion s) := by
  refine { h.toProbing.round hupper with lower_ge := ?_, fits := ?_ }
  all_goals
    obtain ⟨hmid, hle, hmod⟩ := h.toProbing.thresh hupper
    have hlow := h.lower_ge
    have hmade := makeLayerFeasible_same h.ready (midpoint s.lowerBound s.upperBound) false
    have hfits := fits_same c (c.rates layno) hmade
    unfold feasibleRound
    dsimp only
    rw [hmod]
    generalize midpoint s.lowerBound s.upperBound = thresh at hmid hle hmade hfits ⊢
    split
  · exact hlow
  · cases haccept : c.acceptFeasible (c.rates layno) layno p.cumulativeDistortion
        (s.blocks.makeLayerFeasible layno thresh false) with
    | true => exact hlow
    | false =>
      have hne : thresh ≠ s.upperBound := by
        intro heq
        have hagain := h.fits
        rw [← heq, ← hfits] at hagain
        simp [acceptFeasible, hrate, hagain] at haccept
      show min_slope ≤ thresh
      omega
  · exact h.fits
  · cases haccept : c.acceptFeasible (c.rates layno) layno p.cumulativeDistortion
        (s.blocks.makeLayerFeasible layno thresh false) with
    | false => exact h.fits
    | true =>
      simp only [acceptFeasible, hrate, hmade.allocationChanged, hfits] at haccept
      cases hnone : (p.blocks.makeLayerFeasible layno thresh false).allocationChanged layno with
      | true => simpa [hnone] using haccept
      | false => exact (fits_same c (c.rates layno) (sameBelow_of_unchanged hle hnone)).trans h.fits

theorem Probing.start (hrange : min_slope ≤ p.upperBound + 1) :
    Probing layno p ⟨p.blocks, min_slope, p.upperBound, 0, 0, false⟩ :=
  ⟨forall₂_same.mpr fun _ _ => ⟨rfl, fun _ => ⟨rfl, rfl, fun _ _ => rfl⟩⟩, le_rfl, hrange⟩

/-- The bounds between which a layer with a target starts. -/
structure InRange (min_slope : Nat) (p : Progress Nat D) : Prop where
  lower : min_slope ≤ p.upperBound + 1
  upper : p.upperBound < 2 ^ 16

/-- A layer that starts within its budget stays within it, and leaves room for the next search. -/
theorem feasibleLayer_fits (hrate : c.allocationByFixedQuality = false)
    (halloc : c.allocationByRateDistortion = true) (hslope : 0 < min_slope)
    (hrates : 0 < c.rates layno) (hrange : InRange min_slope p) (hfits : c.StartFits p layno) :
    c.BudgetMet (c.feasibleLayer false min_slope layno p).blocks layno ∧
      InRange min_slope (c.feasibleLayer false min_slope layno p) := by
  have hneeds : c.layerNeedsRateControl layno = true := by
    simp [layerNeedsRateControl, halloc, hrates]
  have hlength : c.maxLayerLength false layno = c.rates layno := by
    simp [maxLayerLength, hrates]
  unfold feasibleLayer
  rw [if_pos hneeds, hlength]
  dsimp only
  unfold Settings.StartFits at hfits
  rw [mod_eq_of_lt hrange.upper] at hfits
  have hstart : Searching c min_slope layno p ⟨p.blocks, min_slope, p.upperBound, 0, 0, false⟩ :=
    { Probing.start hrange.lower with lower_ge := le_rfl, fits := hfits }
  have hend : Searching c min_slope layno p (c.feasibleSearch (c.rates layno) layno
      p.cumulativeDistortion ⟨p.blocks, min_slope, p.upperBound, 0, 0, false⟩) :=
    repeatWhile_keeps _ (fun s hs => hs.round hrate hrange.upper) hstart
  generalize c.feasibleSearch (c.rates layno) layno p.cumulativeDistortion
    ⟨p.blocks, min_slope, p.upperBound, 0, 0, false⟩ = s at hend ⊢
  have hlow := hend.lower_ge
  have hnear := hend.lower_le
  have hhigh := lt_of_le_of_lt hend.upper_le hrange.upper
  rw [mod_eq_of_lt hhigh]
  have hnext : sub32 s.lowerBound 1 = s.lowerBound - 1 :=
    sub32_of_le (by omega) (by omega)
  refine ⟨?_, ?_, ?_⟩
  · have hsame := makeLayerFeasible_same hend.ready s.upperBound false
    have hfit := hend.fits
    rw [← fits_same c (c.rates layno) hsame] at hfit
    unfold Settings.BudgetMet
    rw [view_final]
    exact (Bool.and_eq_true_iff.mp hfit).2
  · show min_slope ≤ sub32 s.lowerBound 1 + 1
    omega
  · show sub32 s.lowerBound 1 < 2 ^ 16
    omega

/-- A simulation that succeeds has room for every higher threshold. -/
def Settings.RefusesMore (c : Settings D) : Prop :=
  ∀ (blocks : Blocks D) (layno thresh thresh' maxBytes : Nat), thresh ≤ thresh' →
    c.simulate (layno + 1) ((blocks.makeLayerFeasible layno thresh false).view (layno + 1))
      maxBytes = true →
    c.fits maxBytes layno (blocks.makeLayerFeasible layno thresh' false) = true

/-- A layer within its budget started within it, as far as simulations refuse more. -/
theorem feasibleLayer_started (hmore : c.RefusesMore) (halloc : c.allocationByRateDistortion = true)
    (hrates : 0 < c.rates layno) (hrange : InRange min_slope p)
    (hmet : c.BudgetMet (c.feasibleLayer false min_slope layno p).blocks layno) :
    c.StartFits p layno := by
  have hneeds : c.layerNeedsRateControl layno = true := by
    simp [layerNeedsRateControl, halloc, hrates]
  unfold feasibleLayer at hmet
  rw [if_pos hneeds] at hmet
  dsimp only at hmet
  have hend : Probing layno p (c.feasibleSearch (c.maxLayerLength false layno) layno
      p.cumulativeDistortion ⟨p.blocks, min_slope, p.upperBound, 0, 0, false⟩) :=
    repeatWhile_keeps _ (fun s hs => hs.round hrange.upper) (Probing.start hrange.lower)
  generalize c.feasibleSearch (c.maxLayerLength false layno) layno p.cumulativeDistortion
    ⟨p.blocks, min_slope, p.upperBound, 0, 0, false⟩ = s at hend hmet
  rw [mod_eq_of_lt (lt_of_le_of_lt hend.upper_le hrange.upper)] at hmet
  unfold Settings.BudgetMet at hmet
  rw [view_final, (makeLayerFeasible_same hend.ready s.upperBound false).view] at hmet
  unfold Settings.StartFits
  rw [mod_eq_of_lt hrange.upper]
  exact hmore _ _ _ _ _ hend.upper_le hmet

end Search

section Layers

variable {blocks : Blocks D}

theorem view_map {n : Nat} {f : CodeblockCompress D → CodeblockCompress D}
    (hf : ∀ a, ∀ l < n, (f a).layers l = a.layers l) :
    Blocks.view (blocks.map f) n = blocks.view n := by
  unfold Blocks.view
  rw [map_map]
  apply map_congr_left
  intro a _
  apply map_congr_left
  intro l hl
  rw [hf a l (mem_range.mp hl)]

theorem feasibleLayer_view (c : Settings D) (disableRateControl : Bool) (min_slope : Nat)
    {layno n : Nat} (hn : n ≤ layno) (p : Progress Nat D) :
    (c.feasibleLayer disableRateControl min_slope layno p).blocks.view n = p.blocks.view n := by
  have hmade (thresh : Nat) (finalAttempt : Bool) (blocks : Blocks D) :
      (blocks.makeLayerFeasible layno thresh finalAttempt).view n = blocks.view n := by
    apply view_map
    intro a l hl
    exact (blockStep_feasible a thresh).others l (by omega)
  unfold feasibleLayer
  split
  · dsimp only
    rw [hmade]
    apply repeatWhile_keeps (fun s : Search Nat D => s.blocks.view n = p.blocks.view n) _ rfl
    intro s hs
    rcases feasibleRound_blocks c (c.maxLayerLength disableRateControl layno) layno
      p.cumulativeDistortion s with h | ⟨thresh, h⟩
    · rw [h, hs]
    · rw [h, hmade, hs]
  · apply view_map
    intro a l hl
    exact (blockStep_final a).others l (by omega)

/-- The layers with a budget before this one started within it. -/
def Settings.StartsFitBefore (c : Settings D) (blocks : Blocks D) (layno : Nat) : Prop :=
  ∀ k < layno, 0 < c.rates k → c.StartFits (c.feasibleLayers false blocks k) k

theorem inRange_of_startsFit {c : Settings D} {layno : Nat}
    (hrate : c.allocationByFixedQuality = false) (halloc : c.allocationByRateDistortion = true)
    (hfits : c.StartsFitBefore blocks layno) :
    InRange (minimumSlope blocks) (c.feasibleLayers false blocks layno) := by
  induction layno with
  | zero =>
    have := (minimumSlope_bounds blocks).2
    exact ⟨show minimumSlope blocks ≤ ushrtMax + 1 by omega, show ushrtMax < 2 ^ 16 by decide⟩
  | succ layno ih =>
    have hrange := ih fun k hk => hfits k (lt_succ_of_lt hk)
    show InRange _ (c.feasibleLayer false (minimumSlope blocks) layno
      (c.feasibleLayers false blocks layno))
    by_cases hrates : 0 < c.rates layno
    · exact (feasibleLayer_fits hrate halloc (minimumSlope_bounds blocks).1 hrates hrange
        (hfits layno (lt_succ_self _) hrates)).2
    · have hneeds : c.layerNeedsRateControl layno = false := by
        simp [layerNeedsRateControl, hrate, hrates]
      unfold feasibleLayer
      rw [hneeds]
      exact ⟨hrange.lower, hrange.upper⟩

/-- The view of a layer and of those before it is final once the layer is made. -/
theorem feasibleLayers_view (c : Settings D) (blocks : Blocks D) {n m : Nat} (hle : n ≤ m) :
    (c.feasibleLayers false blocks m).blocks.view n =
      (c.feasibleLayers false blocks n).blocks.view n := by
  apply countTo_rule_from (fun p : Progress Nat D =>
    p.blocks.view n = (c.feasibleLayers false blocks n).blocks.view n) hle
  · intro i p hi _ hp
    rw [feasibleLayer_view c false _ hi, hp]
  · rfl

variable {k : Nat}

theorem pcrdBisectFeasible_eq {c : Settings D} (blocks : Blocks D)
    (halloc : c.allocationByRateDistortion = true) (hk : k < c.numLayers) (hrates : 0 < c.rates k) :
    c.pcrdBisectFeasible false blocks =
      c.finish (c.feasibleLayers false blocks c.numLayers).blocks
        (c.maxLayerLength false (c.numLayers - 1)) := by
  have hneeds : c.needsRateControl = true := by
    apply any_eq_true.mpr
    exact ⟨k, mem_range.mpr hk, by simp [layerNeedsRateControl, halloc, hrates]⟩
  have hlayers : c.numLayers ≠ 0 := by omega
  simp [pcrdBisectFeasible, hneeds, lastLayerLength, hlayers]

theorem budgetMet_iff {c : Settings D} (hk : k < c.numLayers) :
    c.BudgetMet (c.feasibleLayers false blocks c.numLayers).blocks k ↔
      c.BudgetMet (c.feasibleLayers false blocks (k + 1)).blocks k := by
  unfold Settings.BudgetMet
  rw [feasibleLayers_view c blocks hk]

/-- **If allocation succeeds and every layer with a budget but the last starts within it, all budgets
are met. Where simulations refuse more, budgets are met in no other way.** -/
theorem budgets_met (c : Settings D) (blocks : Blocks D)
    (hrate : c.allocationByFixedQuality = false) (halloc : c.allocationByRateDistortion = true)
    (hsuccess : (c.pcrdBisectFeasible false blocks).2 = true) :
    (c.StartsFitBefore blocks (c.numLayers - 1) → ∀ k < c.numLayers, 0 < c.rates k →
      c.BudgetMet (c.pcrdBisectFeasible false blocks).1 k) ∧
    (c.RefusesMore → (∀ k < c.numLayers, 0 < c.rates k →
      c.BudgetMet (c.pcrdBisectFeasible false blocks).1 k) →
      c.StartsFitBefore blocks (c.numLayers - 1)) := by
  constructor
  · intro hfits k hk hrates
    rw [pcrdBisectFeasible_eq blocks halloc hk hrates] at hsuccess ⊢
    by_cases hlast : k = c.numLayers - 1
    · -- the last simulation is the one of this budget
      rw [← hlast, maxLayerLength] at hsuccess
      unfold Settings.BudgetMet
      rw [show k + 1 = c.numLayers by omega]
      simpa [finish, hrates] using hsuccess
    · have hbefore : c.StartsFitBefore blocks k := fun i hi => hfits i (by omega)
      have hrange := inRange_of_startsFit hrate halloc hbefore
      apply (budgetMet_iff hk).mpr
      exact (feasibleLayer_fits hrate halloc (minimumSlope_bounds blocks).1 hrates hrange
        (hfits k (by omega) hrates)).1
  · intro hmore hmet
    have hall (layno : Nat) (hle : layno ≤ c.numLayers - 1) : c.StartsFitBefore blocks layno := by
      induction layno with
      | zero => exact fun k hk => absurd hk (not_lt_zero k)
      | succ layno ih =>
        intro k hk hrates
        have hbefore := ih (by omega)
        rcases Nat.lt_succ_iff_lt_or_eq.mp hk with hlt | rfl
        · exact hbefore k hlt hrates
        · have hlayers : k < c.numLayers := by omega
          have hbudget := hmet k hlayers hrates
          rw [pcrdBisectFeasible_eq blocks halloc hlayers hrates] at hbudget
          exact feasibleLayer_started hmore halloc hrates
            (inRange_of_startsFit hrate halloc hbefore) ((budgetMet_iff hlayers).mp hbudget)
    exact hall _ le_rfl

/-- Two growing budgets and a last layer without one. -/
theorem budgets_met_growing :
    let c := oneBlockSettings 1 [25, 40, 0]
    (c.pcrdBisectFeasible false oneBlock).2 = true ∧
      ∀ k < 3, 0 < c.rates k → c.BudgetMet (c.pcrdBisectFeasible false oneBlock).1 k := by
  intro c
  have hsuccess : (c.pcrdBisectFeasible false oneBlock).2 = true := by decide +kernel
  have hstarts : c.StartsFitBefore oneBlock 2 := by
    unfold Settings.StartsFitBefore Settings.StartFits
    decide +kernel
  exact ⟨hsuccess, (budgets_met c oneBlock rfl rfl hsuccess).1 hstarts⟩

/-- Two equal budgets. Layer 0 keeps to its budget without its last pass, which layer 1 then starts
with: it is refused once, and committed. -/
theorem budget_exceeded : ∃ (c : Settings ℚ) (blocks : Blocks ℚ),
    c.allocationByFixedQuality = false ∧ c.allocationByRateDistortion = true ∧
    (∀ cblk ∈ blocks, (cblk.passes.map CodePass.slope).Pairwise (· ≥ ·) ∧
      ∀ pass ∈ cblk.passes, pass.slope < 2 ^ 16) ∧
    (c.pcrdBisectFeasible false blocks).2 = true ∧
    ∃ k < c.numLayers, 0 < c.rates k ∧ ¬ c.BudgetMet (c.pcrdBisectFeasible false blocks).1 k := by
  refine ⟨oneBlockSettings 1 [25, 25, 0], oneBlock, rfl, rfl, by decide, by decide +kernel, 1,
    by decide, by decide, ?_⟩
  unfold Settings.BudgetMet
  decide +kernel

end Layers

end GrokCodec.RateControl
