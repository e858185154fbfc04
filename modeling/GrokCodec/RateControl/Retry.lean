import GrokCodec.RateControl.Agreement
import Mathlib.Algebra.BigOperators.Group.List.Basic

/-!
A second rate allocation after a failed one. The blocks still hold the layers of the first attempt
and count the passes that it placed.
-/

namespace GrokCodec.RateControl

open Loop List CodeblockCompress Settings Nat Bool

theorem forall₂_map_self {α : Type} {R : α → α → Prop} {f : α → α} (hf : ∀ a, R a (f a))
    (l : List α) : List.Forall₂ R l (l.map f) :=
  forall₂_map_right_iff.mpr (forall₂_same.mpr fun a _ => hf a)

variable {D : Type}

theorem numPasses_same {s t : Blocks D} (h : List.Forall₂ (fun a b => a.passes = b.passes) s t) :
    s.map numPasses = t.map numPasses := by
  induction h with
  | nil => rfl
  | cons hab _ ih =>
    rw [map_cons, map_cons, ih, numPasses, numPasses,
      hab]

/-- Passes of the block in the first layers. -/
def CodeblockCompress.placed (cblk : CodeblockCompress D) (numLayers : Nat) : Nat :=
  ((List.range numLayers).map fun layno => (cblk.layers layno).totalPasses).sum

theorem placed_succ (cblk : CodeblockCompress D) (k : Nat) :
    cblk.placed (k + 1) = cblk.placed k + (cblk.layers k).totalPasses := by
  simp [placed, range_succ]

theorem placed_congr {a b : CodeblockCompress D} {k : Nat} (h : ∀ l < k, a.layers l = b.layers l) :
    a.placed k = b.placed k := by
  unfold placed
  congr 1
  apply map_congr_left
  intro l hl
  rw [h l (mem_range.mp hl)]

section Accounting

/-- A block is given a layer of the passes after its counter, which may be reset before. -/
structure BlockStep (reset : Bool) (layno : Nat) (finalAttempt : Bool)
    (a b : CodeblockCompress D) : Prop where
  passes : b.passes = a.passes
  others : ∀ l ≠ layno, b.layers l = a.layers l
  counted : a.numPassesInPreviousLayers ≤ a.numPasses → ∃ start included,
    start = (if reset then 0 else a.numPassesInPreviousLayers) ∧
    start ≤ included ∧ included ≤ a.numPasses ∧
    (b.layers layno).totalPasses = included - start ∧
    b.numPassesInPreviousLayers = if finalAttempt then included else start

/-- All blocks of a tile take the same kind of step. -/
abbrev TileStep (reset : Bool) (layno : Nat) (finalAttempt : Bool) (s t : Blocks D) : Prop :=
  List.Forall₂ (BlockStep reset layno finalAttempt) s t

/-- Making a layer with a target resets the counters. -/
def Settings.resets (c : Settings D) (layno : Nat) : Bool :=
  c.rateControlAlgorithm != 0 && layno == 0

/-- The counter of a block is the number of passes in the layers made so far, and it is at its end
after a layer without target. -/
structure Accounted (c : Settings D) (k : Nat) (cblk : CodeblockCompress D) : Prop where
  le : cblk.numPassesInPreviousLayers ≤ cblk.numPasses
  placed : k ≠ 0 ∨ ¬ c.ResetsCounters → cblk.placed k = cblk.numPassesInPreviousLayers
  full : (∃ l < k, c.layerNeedsRateControl l = false) →
    cblk.numPassesInPreviousLayers = cblk.numPasses

variable {c : Settings D} {k : Nat} {a b : CodeblockCompress D}

theorem Accounted.probe (ha : Accounted c k a) (hstep : BlockStep (c.resets k) k false a b) :
    Accounted c k b := by
  obtain ⟨start, included, hstart, hlow, hhigh, -, hcounter⟩ := hstep.counted ha.le
  have hnum : b.numPasses = a.numPasses := congrArg List.length hstep.passes
  have hplaced : b.placed k = a.placed k :=
    placed_congr fun l hl => hstep.others l (Nat.ne_of_lt hl)
  simp only [false_eq_true, if_false] at hcounter
  refine ⟨by omega, fun h => ?_, fun h => ?_⟩
  · rw [hplaced, hcounter, hstart]
    split
    next hreset =>
      obtain rfl : k = 0 := by simpa using (Bool.and_eq_true_iff.mp hreset).2
      rfl
    next => exact ha.placed h
  · have hk : k ≠ 0 := by
      omega
    have hreset : c.resets k = false := by simp [resets, hk]
    rw [hcounter, hstart, hreset, hnum]
    exact ha.full h

theorem Accounted.commit {reset : Bool} (ha : Accounted c k a) (hstep : BlockStep reset k true a b)
    (hreset : k = 0 → c.ResetsCounters → reset = true) (hkept : k ≠ 0 → reset = false)
    (hfull : c.layerNeedsRateControl k = false → b.numPassesInPreviousLayers = b.numPasses) :
    Accounted c (k + 1) b := by
  obtain ⟨start, included, hstart, hlow, hhigh, htotal, hcounter⟩ := hstep.counted ha.le
  have hnum : b.numPasses = a.numPasses := congrArg List.length hstep.passes
  have hplaced : b.placed k = a.placed k :=
    placed_congr fun l hl => hstep.others l (Nat.ne_of_lt hl)
  simp only [if_true] at hcounter
  have hbegin : a.placed k = start := by
    rw [hstart]
    split
    next h =>
      obtain rfl : k = 0 := by
        by_contra hk
        rw [hkept hk] at h
        exact false_ne_true h
      rfl
    next h =>
      apply ha.placed
      by_contra hnot
      obtain ⟨hk, hresets⟩ := not_or.mp hnot
      exact h (hreset (not_not.mp hk) (not_not.mp hresets))
  refine ⟨by omega, fun _ => ?_, fun ⟨l, hl, hneeds⟩ => ?_⟩
  · rw [placed_succ, hplaced, htotal, hcounter, hbegin]
    omega
  · by_cases hlk : l = k
    · exact hfull (hlk ▸ hneeds)
    · have hk : k ≠ 0 := by omega
      have hend := ha.full ⟨l, by omega, hneeds⟩
      rw [hkept hk] at hstart
      simp only [false_eq_true, if_false] at hstart
      omega

end Accounting

variable [Double D]

/-- Every pass of every block is in some layer. -/
def Blocks.AllPlaced (blocks : Blocks D) (numLayers : Nat) : Prop :=
  ∀ cblk ∈ blocks, cblk.placed numLayers = cblk.numPasses

section Steps

variable {layno : Nat} {finalAttempt : Bool}

theorem blockStep_setLayer {a : CodeblockCompress D} {included : Nat}
    (hbounds : a.numPassesInPreviousLayers ≤ a.numPasses →
      a.numPassesInPreviousLayers ≤ included ∧ included ≤ a.numPasses) :
    BlockStep false layno finalAttempt a (a.setLayer layno included finalAttempt) := by
  refine ⟨rfl, fun l hl => setLayer_layers_of_ne hl, fun hle => ?_⟩
  obtain ⟨hlow, hhigh⟩ := hbounds hle
  refine ⟨_, included, rfl, hlow, hhigh, ?_, setLayer_counter hlow⟩
  rw [setLayer_layers_self, updatedLayer_totalPasses]
  rfl

theorem blockStep_simple (a : CodeblockCompress D) (thresh : D) :
    BlockStep false layno finalAttempt a (a.simpleStep layno thresh finalAttempt) :=
  blockStep_setLayer fun hle => includedSimple_bounds thresh hle

theorem blockStep_final (a : CodeblockCompress D) :
    BlockStep false layno true a (a.finalStep layno) :=
  blockStep_setLayer fun hle => by
    rw [includedFinal_eq hle]
    exact ⟨hle, le_rfl⟩

theorem finalStep_counter {a : CodeblockCompress D}
    (hle : a.numPassesInPreviousLayers ≤ a.numPasses) :
    (a.finalStep layno).numPassesInPreviousLayers = a.numPasses := by
  have hfinal := includedFinal_eq hle
  rw [finalStep, setLayer_counter (by rwa [hfinal]), hfinal]
  rfl

theorem blockStep_feasible (a : CodeblockCompress D) (thresh : Nat) :
    BlockStep (layno == 0) layno finalAttempt a (a.feasibleStep layno thresh finalAttempt) := by
  unfold feasibleStep
  by_cases hzero : layno = 0
  · subst hzero
    have hstep : BlockStep false 0 finalAttempt { a with numPassesInPreviousLayers := 0 } _ :=
      blockStep_setLayer fun hle => includedFeasible_bounds thresh hle
    exact ⟨hstep.passes, hstep.others, fun _ => hstep.counted (zero_le _)⟩
  · simp only [if_neg hzero, beq_eq_false_iff_ne.mpr hzero]
    exact blockStep_setLayer fun hle => includedFeasible_bounds thresh hle

theorem simpleRound_blocks (c : Settings D) (maxLayerLength layno : Nat)
    (cumulativeDistortion : Nat → D) (s : Search D D) : ∃ thresh,
      (c.simpleRound maxLayerLength layno cumulativeDistortion s).blocks =
        s.blocks.makeLayerSimple layno thresh false := by
  unfold simpleRound
  generalize (if s.upperBound == -1 then s.lowerBound
    else s.lowerBound + (s.upperBound - s.lowerBound) / ((2 : Nat) : D)) = thresh
  refine ⟨thresh, ?_⟩
  dsimp only
  split
  · rfl
  · split <;> rfl

theorem feasibleRound_blocks (c : Settings D) (maxLayerLength layno : Nat)
    (cumulativeDistortion : Nat → D) (s : Search Nat D) :
    (c.feasibleRound maxLayerLength layno cumulativeDistortion s).blocks = s.blocks ∨
      ∃ thresh, (c.feasibleRound maxLayerLength layno cumulativeDistortion s).blocks =
        s.blocks.makeLayerFeasible layno thresh false := by
  unfold feasibleRound
  dsimp only
  split
  · exact .inl rfl
  · refine .inr ⟨midpoint s.lowerBound s.upperBound % 2 ^ 16, ?_⟩
    split <;> rfl

/-- The rule for a whole allocation. Probing a threshold is a step that is not final. -/
theorem rateAllocate_rule (c : Settings D) (disableRateControl : Bool) {blocks : Blocks D}
    (Inv : Nat → Blocks D → Prop)
    (probe : ∀ k s t, c.layerNeedsRateControl k = true → TileStep (c.resets k) k false s t →
      Inv k s → Inv k t)
    (commit : ∀ k s t, c.layerNeedsRateControl k = true → TileStep (c.resets k) k true s t →
      Inv k s → Inv (k + 1) t)
    (final : ∀ k s, c.layerNeedsRateControl k = false → Inv k s → Inv (k + 1) (s.makeLayerFinal k))
    (start : Inv 0 blocks) : Inv c.numLayers (c.rateAllocate disableRateControl blocks).1 := by
  unfold rateAllocate pcrdBisectSimple pcrdBisectFeasible finish
  cases hneeds : c.needsRateControl with
  | false =>
    have hfinal : Inv c.numLayers (c.makeLayersFinal blocks) := by
      apply countTo_rule Inv _ start
      intro k s hk h
      apply final k s _ h
      exact Bool.eq_false_iff.mpr (any_eq_false.mp hneeds k (mem_range.mpr hk))
    split <;> exact hfinal
  | true =>
    by_cases halgorithm : c.rateControlAlgorithm = 0
    · have hresets (k : Nat) : c.resets k = false := by rw [resets, halgorithm]; rfl
      simp only [hresets] at probe commit
      rw [if_pos halgorithm]
      apply countTo_rule (fun k (p : Progress D D) => Inv k p.blocks) _ start
      intro k p _ h
      unfold simpleLayer
      cases hk : c.layerNeedsRateControl k with
      | false => exact final k _ hk h
      | true =>
        apply commit k _ _ hk (forall₂_map_self (fun a => blockStep_simple a _) _)
        apply repeatWhile_keeps (fun s : Search D D => Inv k s.blocks) _ h
        intro s hs
        obtain ⟨thresh, hblocks⟩ := simpleRound_blocks c (c.maxLayerLength disableRateControl k) k
          p.cumulativeDistortion s
        rw [hblocks]
        exact probe k _ _ hk (forall₂_map_self (fun a => blockStep_simple a thresh) _) hs
    · have hresets (k : Nat) : c.resets k = (k == 0) := by
        rw [resets, bne_iff_ne.mpr halgorithm, Bool.true_and]
      simp only [hresets] at probe commit
      rw [if_neg halgorithm]
      apply countTo_rule (fun k (p : Progress Nat D) => Inv k p.blocks) _ start
      intro k p _ h
      unfold feasibleLayer
      cases hk : c.layerNeedsRateControl k with
      | false => exact final k _ hk h
      | true =>
        apply commit k _ _ hk (forall₂_map_self (fun a => blockStep_feasible a _) _)
        apply repeatWhile_keeps (fun s : Search Nat D => Inv k s.blocks) _ h
        intro s hs
        rcases feasibleRound_blocks c (c.maxLayerLength disableRateControl k) k
          p.cumulativeDistortion s with hblocks | ⟨thresh, hblocks⟩
        · rw [hblocks]
          exact hs
        · rw [hblocks]
          exact probe k _ _ hk
            (forall₂_map_self (fun a => blockStep_feasible a thresh) _) hs

end Steps

section Placed

/-- **An allocation accounts for every pass it places.** -/
theorem rateAllocate_accounted (c : Settings D) (disableRateControl : Bool) {blocks : Blocks D}
    (hstart : ∀ cblk ∈ blocks, Accounted c 0 cblk) :
    ∀ cblk ∈ (c.rateAllocate disableRateControl blocks).1, Accounted c c.numLayers cblk := by
  have mem_step {reset finalAttempt : Bool} {k j : Nat} {s t : Blocks D}
      (hstep : TileStep reset k finalAttempt s t)
      (hkeep : ∀ a b, Accounted c k a → BlockStep reset k finalAttempt a b → Accounted c j b)
      (hs : ∀ a ∈ s, Accounted c k a) : ∀ b ∈ t, Accounted c j b := by
    induction hstep with
    | nil => exact fun _ h => absurd h not_mem_nil
    | cons hab _ ih =>
      intro b hb
      rcases mem_cons.mp hb with rfl | hb
      · exact hkeep _ _ (hs _ mem_cons_self) hab
      · exact ih (fun a ha => hs a (mem_cons_of_mem _ ha)) b hb
  apply rateAllocate_rule c disableRateControl
    (fun k (s : Blocks D) => ∀ cblk ∈ s, Accounted c k cblk) _ _ _ hstart
  · intro k s t _ hstep hs
    exact mem_step hstep (fun _ _ ha hab => ha.probe hab) hs
  · intro k s t hneeds hstep hs
    apply mem_step hstep _ hs
    intro a b ha hab
    apply ha.commit hab
    · intro hk hresets
      simp [resets, hk, hresets.1]
    · intro hk
      simp [resets, hk]
    · intro hnone
      exact absurd (hneeds.symm.trans hnone) (by decide)
  · intro k s hneeds hs cblk hcblk
    obtain ⟨a, ha, rfl⟩ := mem_map.mp hcblk
    apply (hs a ha).commit (blockStep_final a)
    · intro hk hresets
      rw [hk, hresets.2.2] at hneeds
      exact absurd hneeds (by decide)
    · exact fun _ => rfl
    · exact fun _ => finalStep_counter (hs a ha).le

end Placed

section Retry

theorem makeLayerFinal_step (s : Blocks D) (layno : Nat) :
    TileStep false layno true s (s.makeLayerFinal layno) :=
  forall₂_map_self (fun a => blockStep_final a) s

theorem rateAllocate_passes (c : Settings D) (disableRateControl : Bool) (blocks : Blocks D) :
    List.Forall₂ (fun a b => a.passes = b.passes) blocks
      (c.rateAllocate disableRateControl blocks).1 := by
  have step {reset finalAttempt : Bool} {k : Nat} {s t : Blocks D}
      (hstep : TileStep reset k finalAttempt s t)
      (hs : List.Forall₂ (fun a b => a.passes = b.passes) blocks s) :
      List.Forall₂ (fun a b => a.passes = b.passes) blocks t := by
    induction hstep generalizing blocks with
    | nil => exact hs
    | cons hab _ ih =>
      cases hs with
      | cons h hs => exact .cons (h.trans hab.passes.symm) (ih _ hs)
  apply rateAllocate_rule c disableRateControl
    (fun _ s => List.Forall₂ (fun a b => a.passes = b.passes) blocks s)
  · exact fun k s t _ hstep hs => step hstep hs
  · exact fun k s t _ hstep hs => step hstep hs
  · exact fun k s _ hs => step (makeLayerFinal_step s k) hs
  · exact forall₂_same.mpr fun _ _ => rfl

/-- If layer 0 has no target it gets what the counters leave over. -/
theorem rateAllocate_layer_zero (c : Settings D) (disableRateControl : Bool) (blocks : Blocks D)
    (hlayers : 0 < c.numLayers) (hzero : c.layerNeedsRateControl 0 = false) :
    (c.rateAllocate disableRateControl blocks).1.map (fun cblk => (cblk.layers 0).totalPasses) =
      blocks.map fun cblk => cblk.numPasses - cblk.numPassesInPreviousLayers := by
  have step {reset finalAttempt : Bool} {k : Nat} {s t : Blocks D} (hk : k ≠ 0)
      (hstep : TileStep reset k finalAttempt s t) :
      t.map (fun cblk => (cblk.layers 0).totalPasses) =
        s.map fun cblk => (cblk.layers 0).totalPasses := by
    induction hstep with
    | nil => rfl
    | cons hab _ ih => rw [map_cons, map_cons, hab.others 0 hk.symm, ih]
  have hlater {k : Nat} (hneeds : c.layerNeedsRateControl k = true) : k ≠ 0 := fun h =>
    false_ne_true (hzero.symm.trans (h ▸ hneeds))
  have hrun := rateAllocate_rule c disableRateControl (fun k (s : Blocks D) =>
    if k = 0 then s = blocks
    else s.map (fun cblk => (cblk.layers 0).totalPasses) =
      blocks.map fun cblk => cblk.numPasses - cblk.numPassesInPreviousLayers) ?_ ?_ ?_ rfl
  · rwa [if_neg hlayers.ne'] at hrun
  · intro k s t hneeds hstep hs
    rw [if_neg (hlater hneeds)] at hs ⊢
    rw [step (hlater hneeds) hstep, hs]
  · intro k s t hneeds hstep hs
    rw [if_neg (hlater hneeds)] at hs
    rw [if_neg (succ_ne_zero k), step (hlater hneeds) hstep, hs]
  · intro k s _ hs
    rw [if_neg (succ_ne_zero k)]
    by_cases hk : k = 0
    · rw [if_pos hk] at hs
      subst hs hk
      rw [Blocks.makeLayerFinal, map_map]
      apply map_congr_left
      intro a _
      rw [Function.comp_apply, finalStep, setLayer_layers_self,
        updatedLayer_totalPasses, includedFinal]
      split <;> omega
    · rw [if_neg hk] at hs
      rw [step hk (makeLayerFinal_step s k), hs]

theorem sameBelow_zero {s t : Blocks D} (h : List.Forall₂ (fun a b => a.passes = b.passes) s t)
    (hs : ∀ cblk ∈ s, cblk.numPassesInPreviousLayers = 0)
    (ht : ∀ cblk ∈ t, cblk.numPassesInPreviousLayers = 0) : SameBelow 0 s t := by
  induction h with
  | nil => exact .nil
  | cons hab _ ih =>
    have hcounter := (hs _ mem_cons_self).trans (ht _ mem_cons_self).symm
    exact .cons ⟨hab, hcounter, fun _ hl => absurd hl (not_lt_zero _)⟩
      (ih (fun a ha => hs a (mem_cons_of_mem _ ha)) fun b hb =>
        ht b (mem_cons_of_mem _ hb))

/-- The second allocation sees no trace of the first. -/
def Settings.RestartsFrom (c : Settings D) (left : Blocks D) : Prop :=
  (∀ cblk ∈ left, cblk.numPassesInPreviousLayers = 0) ∨ c.ResetsCounters

/-- **A retry starts afresh if the counters are zero or reset, and it then places every pass if some
layer has no target. Without a target on layer 0 it starts afresh only if the counters are zero.** -/
theorem retry_starts_afresh (c : Settings D) {compressed left : Blocks D}
    (hfresh : ∀ cblk ∈ compressed, cblk.numPassesInPreviousLayers = 0)
    (hfailed : c.rateAllocate false compressed = (left, false)) :
    (c.RestartsFrom left →
      (c.rateAllocate true left).1.assignment c.numLayers =
          (c.rateAllocate true compressed).1.assignment c.numLayers ∧
        ((∃ layno < c.numLayers, c.layerNeedsRateControl layno = false) →
          (c.rateAllocate true left).1.AllPlaced c.numLayers)) ∧
    (0 < c.numLayers → c.layerNeedsRateControl 0 = false →
      (c.rateAllocate true left).1.assignment c.numLayers =
        (c.rateAllocate true compressed).1.assignment c.numLayers → c.RestartsFrom left) := by
  have hpasses := rateAllocate_passes c false compressed
  have hbegin : ∀ cblk ∈ compressed, Accounted c 0 cblk := by
    intro cblk hcblk
    have hzero := hfresh cblk hcblk
    exact ⟨by rw [hzero]; exact zero_le _, fun _ => hzero.symm,
      fun ⟨_, hl, _⟩ => absurd hl (not_lt_zero _)⟩
  have haccounted := rateAllocate_accounted c false hbegin
  rw [hfailed] at hpasses haccounted
  have hback : List.Forall₂ (fun a b => a.passes = b.passes) left compressed :=
    hpasses.flip.imp fun _ _ h => h.symm
  refine ⟨fun hrestarts => ⟨?_, fun ⟨layno, hlayno, hneeds⟩ cblk hcblk => ?_⟩, ?_⟩
  · apply SameBelow.assignment
    apply rateAllocate_same c true hback
    exact hrestarts.imp_left fun hzero => sameBelow_zero hback hzero hfresh
  · have hstart : ∀ cblk ∈ left, Accounted c 0 cblk := by
      intro cblk hcblk
      refine ⟨(haccounted cblk hcblk).le, fun h => ?_, fun ⟨_, hl, _⟩ => absurd hl (not_lt_zero _)⟩
      have hzero := hrestarts.resolve_right (h.resolve_left fun h => h rfl)
      exact (hzero cblk hcblk).symm
    have hend := rateAllocate_accounted c true hstart cblk hcblk
    rw [hend.placed (.inl (by omega)), hend.full ⟨layno, hlayno, hneeds⟩]
  · intro hlayers hzero hsame
    have hlayer (blocks : Blocks D) : (blocks.assignment c.numLayers).map (fun row => row.getD 0 0) =
        blocks.map fun cblk => (cblk.layers 0).totalPasses := by
      simp [Blocks.assignment, Function.comp_def, hlayers]
    have hcounts := congrArg (List.map fun row => row.getD 0 0) hsame
    rw [hlayer, hlayer, rateAllocate_layer_zero c true left hlayers hzero,
      rateAllocate_layer_zero c true compressed hlayers hzero] at hcounts
    have hall : compressed.map (fun cblk => cblk.numPasses - cblk.numPassesInPreviousLayers) =
        left.map numPasses := by
      rw [numPasses_same hback]
      apply map_congr_left
      intro cblk hcblk
      rw [hfresh cblk hcblk, Nat.sub_zero]
    refine .inl fun cblk hcblk => ?_
    have heq := map_inj_left.mp (hcounts.trans hall) cblk hcblk
    have hle := (haccounted cblk hcblk).le
    omega

end Retry

section OneBlock

/-- A code block with three passes of ten bytes. -/
def oneBlock : Blocks ℚ :=
  [⟨[⟨10, 3000, 10, false, 300⟩, ⟨20, 5000, 10, false, 200⟩, ⟨30, 6000, 10, false, 100⟩], 0,
    fun _ => ⟨0, 0, 0, 0⟩⟩]

/-- The precinct of this block. -/
def oneBlockCanvas : T2.Canvas := fun key =>
  if key = (0, 0, 0) then
    some [⟨false, 8, T2.TagTree.build 16 1 1, T2.TagTree.build 8 1 1,
      [⟨0, [⟨10, false⟩, ⟨10, false⟩, ⟨10, false⟩], 5, 0, 0⟩]⟩]
  else none

/-- A packet for each of the layers, which have these budgets. -/
def oneBlockSettings (rateControlAlgorithm : Nat) (rates : List Nat) : Settings ℚ where
  rateControlAlgorithm
  numLayers := rates.length
  allocationByRateDistortion := true
  allocationByFixedQuality := false
  rates layno := rates.getD layno 0
  distortion _ := false
  distortionTarget _ := 0
  useParallel := false
  uninitialized _ := 0
  simulate := simulateTile {} [(List.range rates.length).map fun layno => ⟨0, 0, 0, layno⟩]
    oneBlockCanvas

/-- Layer 1 has no target and takes the last pass. The last simulation fails for the budget of
layer 2. -/
theorem retry_starts_afresh_reset :
    let c := oneBlockSettings 1 [25, 0, 25]
    let left := (c.rateAllocate false oneBlock).1
    (c.rateAllocate true left).1.assignment 3 = (c.rateAllocate true oneBlock).1.assignment 3 ∧
      (c.rateAllocate true left).1.AllPlaced 3 := by
  intro c left
  have hfresh : ∀ cblk ∈ oneBlock, cblk.numPassesInPreviousLayers = 0 := by decide
  have hfailed : c.rateAllocate false oneBlock = (left, false) :=
    Prod.ext rfl (by decide +kernel)
  have hafresh := (retry_starts_afresh c hfresh hfailed).1
    (.inr ⟨by decide, by decide, by decide⟩)
  exact ⟨hafresh.1, hafresh.2 ⟨1, by decide, by decide⟩⟩

/-- The first attempt places one pass and fails. The second starts after this pass. -/
theorem retry_continues : ∃ (c : Settings ℚ) (compressed left : Blocks ℚ),
    (∀ cblk ∈ compressed, cblk.numPassesInPreviousLayers = 0) ∧
    c.rateAllocate false compressed = (left, false) ∧
    (c.rateAllocate true left).1.assignment c.numLayers = [[1]] ∧
    (c.rateAllocate true compressed).1.assignment c.numLayers = [[2]] ∧
    ¬ (c.rateAllocate true left).1.AllPlaced c.numLayers := by
  refine ⟨oneBlockSettings 0 [5], oneBlock, ((oneBlockSettings 0 [5]).rateAllocate false oneBlock).1,
    by decide, Prod.ext rfl (by decide +kernel), by decide +kernel, by decide +kernel, ?_⟩
  unfold Blocks.AllPlaced
  decide +kernel

end OneBlock

end GrokCodec.RateControl
