import GrokCodec.RateControl.Layers

/-!
What an allocation reads of the state that an earlier one left. Layers are overwritten as they are
made, so two allocations on the same passes agree if the counters do. The feasible mode does not
even read the counters if layer 0 has a target.
-/

namespace GrokCodec.RateControl

open Loop List CodeblockCompress Settings Nat

variable {D : Type}

theorem minimumSlope_same {s t : Blocks D}
    (h : List.Forall₂ (fun a b => a.passes = b.passes) s t) : minimumSlope s = minimumSlope t := by
  have hpasses : s.flatMap passes = t.flatMap passes := by
    induction h with
    | nil => rfl
    | cons hab _ ih => rw [flatMap_cons, flatMap_cons, hab, ih]
  rw [minimumSlope, minimumSlope, hpasses]

/-- The counters are read from layer 0 on, unless `makeLayerFeasible` resets them first. -/
def Settings.ResetsCounters (c : Settings D) : Prop :=
  c.rateControlAlgorithm ≠ 0 ∧ 0 < c.numLayers ∧ c.layerNeedsRateControl 0 = true

variable [Double D]

/-- How many passes of each block are in each layer. -/
def Blocks.assignment (blocks : Blocks D) (numLayers : Nat) : List (List Nat) :=
  blocks.map fun cblk => (List.range numLayers).map fun layno => (cblk.layers layno).totalPasses

section Agreement

/-- Two blocks have the same passes, count as many of them as placed, and show the same first
layers. -/
structure AgreeBelow (k : Nat) (a b : CodeblockCompress D) : Prop where
  passes : a.passes = b.passes
  counter : a.numPassesInPreviousLayers = b.numPassesInPreviousLayers
  layers : ∀ l < k, (a.layers l).visible = (b.layers l).visible

theorem Layer.visible_totalPasses (layer : Layer D) :
    layer.visible.totalPasses = layer.totalPasses := by
  unfold visible
  split
  · exact Eq.symm ‹_›
  · rfl

namespace AgreeBelow

variable {k : Nat} {a b : CodeblockCompress D} {l : Nat} (h : AgreeBelow k a b)

include h

theorem mono (hl : l ≤ k) : AgreeBelow l a b :=
  { h with layers := fun i hi => h.layers i (lt_of_lt_of_le hi hl) }

theorem totalPasses (hl : l < k) : (a.layers l).totalPasses = (b.layers l).totalPasses := by
  rw [← Layer.visible_totalPasses, h.layers l hl, Layer.visible_totalPasses]

theorem layer (hl : l < k) (hne : (a.layers l).totalPasses ≠ 0) : a.layers l = b.layers l := by
  have hvisible := h.layers l hl
  unfold Layer.visible at hvisible
  rwa [if_neg hne, if_neg (by rwa [← h.totalPasses hl])] at hvisible

theorem getPass (passno : Nat) : a.getPass passno = b.getPass passno := by
  rw [CodeblockCompress.getPass, CodeblockCompress.getPass, h.passes]

theorem updatedLayer_visible (layno included : Nat) :
    (a.updatedLayer layno included).visible = (b.updatedLayer layno included).visible := by
  unfold updatedLayer
  simp only [h.counter, h.getPass]
  split
  · rfl
  · rfl

/-- A layer that takes the same passes from both blocks keeps them in agreement. -/
theorem setLayer {i j : Nat} (hij : i = j) (finalAttempt : Bool) :
    AgreeBelow (k + 1) (a.setLayer k i finalAttempt) (b.setLayer k j finalAttempt) := by
  subst hij
  have hvisible := h.updatedLayer_visible k i
  have htotal := congrArg Layer.totalPasses hvisible
  rw [Layer.visible_totalPasses, Layer.visible_totalPasses] at htotal
  refine ⟨h.passes, ?_, ?_⟩
  · simp only [CodeblockCompress.setLayer, htotal, h.counter]
  · intro l hl
    by_cases hlk : l = k
    · rw [hlk, setLayer_layers_self, setLayer_layers_self]
      exact hvisible
    · rw [setLayer_layers_of_ne hlk, setLayer_layers_of_ne hlk]
      exact h.layers l (by omega)

theorem finalStep : AgreeBelow (k + 1) (a.finalStep k) (b.finalStep k) := by
  apply h.setLayer
  rw [includedFinal, includedFinal,
    numPasses, numPasses, h.passes, h.counter]

theorem simpleStep (thresh : D) (finalAttempt : Bool) :
    AgreeBelow (k + 1) (a.simpleStep k thresh finalAttempt) (b.simpleStep k thresh finalAttempt) := by
  apply h.setLayer
  have hscan : a.scanSimple thresh = b.scanSimple thresh := by
    funext included passno
    simp only [scanSimple, h.getPass]
  rw [includedSimple, includedSimple,
    numPasses, numPasses, hscan, h.passes, h.counter]

end AgreeBelow

/-- What `makeLayerFeasible` needs of two blocks to treat them alike. In layer 0 it does not read
the counters. -/
structure ReadyFor (layno : Nat) (a b : CodeblockCompress D) : Prop where
  passes : a.passes = b.passes
  later : layno ≠ 0 → AgreeBelow layno a b

theorem AgreeBelow.ready {layno : Nat} {a b : CodeblockCompress D} (h : AgreeBelow layno a b) :
    ReadyFor layno a b := ⟨h.passes, fun _ => h⟩

theorem ReadyFor.feasibleStep {layno : Nat} {a b : CodeblockCompress D} (h : ReadyFor layno a b)
    (thresh : Nat) (finalAttempt : Bool) :
    AgreeBelow (layno + 1) (a.feasibleStep layno thresh finalAttempt)
      (b.feasibleStep layno thresh finalAttempt) := by
  unfold CodeblockCompress.feasibleStep
  by_cases hzero : layno = 0
  · subst hzero
    simp only [if_true]
    have hagree : AgreeBelow 0 { a with numPassesInPreviousLayers := 0 }
        { b with numPassesInPreviousLayers := 0 } :=
      ⟨h.passes, rfl, fun _ hl => absurd hl (not_lt_zero _)⟩
    apply hagree.setLayer
    simp only [includedFeasible, h.passes]
  · simp only [if_neg hzero]
    have hagree := h.later hzero
    apply hagree.setLayer
    rw [includedFeasible, includedFeasible, hagree.passes,
      hagree.counter]

end Agreement

section Tiles

/-- Two tiles agree block by block. -/
abbrev SameBelow (k : Nat) (s t : Blocks D) : Prop := List.Forall₂ (AgreeBelow k) s t

namespace SameBelow

variable {k : Nat} {s t : Blocks D}

theorem mono {l : Nat} (h : SameBelow k s t) (hl : l ≤ k) : SameBelow l s t :=
  h.imp fun _ _ hab => hab.mono hl

variable (h : SameBelow (k + 1) s t)

include h

theorem foldl_layers {β : Type} (f : β → Layer D → β) (init : β) :
    s.foldl (fun sum cblk =>
        if (cblk.layers k).totalPasses = 0 then sum else f sum (cblk.layers k)) init =
      t.foldl (fun sum cblk =>
        if (cblk.layers k).totalPasses = 0 then sum else f sum (cblk.layers k)) init := by
  induction h generalizing init with
  | nil => rfl
  | cons hab _ ih =>
    have htotal := hab.totalPasses (lt_succ_self k)
    rw [foldl_cons, foldl_cons, ih]
    congr 1
    split
    next hzero => rw [if_pos (by rwa [← htotal])]
    next hne => rw [if_neg (by rwa [← htotal]), hab.layer (lt_succ_self k) hne]

theorem layerDistortion : s.layerDistortion k = t.layerDistortion k :=
  h.foldl_layers (fun sum layer => sum + layer.distortion) 0

theorem bodyBytes : s.bodyBytes k = t.bodyBytes k :=
  h.foldl_layers (fun sum layer => sum + layer.len) 0

theorem allocationChanged : s.allocationChanged k = t.allocationChanged k := by
  unfold Blocks.allocationChanged
  induction h with
  | nil => rfl
  | cons hab _ ih =>
    rw [any_cons, any_cons, hab.totalPasses (lt_succ_self k), ih]

omit h

theorem view (h : SameBelow k s t) : s.view k = t.view k := by
  unfold Blocks.view
  induction h with
  | nil => rfl
  | cons hab _ ih =>
    rw [map_cons, map_cons, ih]
    congr 1
    apply map_congr_left
    intro l hl
    exact hab.layers l (mem_range.mp hl)

theorem assignment (h : SameBelow k s t) : s.assignment k = t.assignment k := by
  unfold Blocks.assignment
  induction h with
  | nil => rfl
  | cons hab _ ih =>
    rw [map_cons, map_cons, ih]
    congr 1
    apply map_congr_left
    intro l hl
    exact hab.totalPasses (mem_range.mp hl)

theorem makeLayerFinal (h : SameBelow k s t) :
    SameBelow (k + 1) (s.makeLayerFinal k) (t.makeLayerFinal k) := by
  apply forall₂_map_left_iff.mpr
  apply forall₂_map_right_iff.mpr
  exact h.imp fun _ _ hab => hab.finalStep

theorem makeLayerSimple (h : SameBelow k s t) (thresh : D) (finalAttempt : Bool) :
    SameBelow (k + 1) (s.makeLayerSimple k thresh finalAttempt)
      (t.makeLayerSimple k thresh finalAttempt) := by
  apply forall₂_map_left_iff.mpr
  apply forall₂_map_right_iff.mpr
  exact h.imp fun _ _ hab => hab.simpleStep thresh finalAttempt

end SameBelow

variable {layno : Nat} {s t : Blocks D}

theorem makeLayerFeasible_same
    (h : List.Forall₂ (ReadyFor layno) s t) (thresh : Nat) (finalAttempt : Bool) :
    SameBelow (layno + 1) (s.makeLayerFeasible layno thresh finalAttempt)
      (t.makeLayerFeasible layno thresh finalAttempt) := by
  apply forall₂_map_left_iff.mpr
  apply forall₂_map_right_iff.mpr
  exact h.imp fun _ _ hab => hab.feasibleStep thresh finalAttempt

theorem SameBelow.ready (h : SameBelow (layno + 1) s t) :
    List.Forall₂ (ReadyFor layno) s t := h.imp fun _ _ hab => (hab.mono (le_succ _)).ready

variable (c : Settings D) (maxLayerLength : Nat) (cumulativeDistortion : Nat → D)

theorem fits_same (h : SameBelow (layno + 1) s t) :
    c.fits maxLayerLength layno s = c.fits maxLayerLength layno t := by
  rw [fits, fits, h.bodyBytes, h.view]

theorem distoachieved_same (h : SameBelow (layno + 1) s t) :
    distoachieved cumulativeDistortion s layno = distoachieved cumulativeDistortion t layno := by
  unfold distoachieved
  split
  next hzero =>
    subst hzero
    exact h.layerDistortion
  next => rw [h.layerDistortion]

theorem acceptFeasible_same (h : SameBelow (layno + 1) s t) :
    c.acceptFeasible maxLayerLength layno cumulativeDistortion s =
      c.acceptFeasible maxLayerLength layno cumulativeDistortion t := by
  rw [acceptFeasible, acceptFeasible, distoachieved_same _ h, h.allocationChanged, fits_same _ _ h]

theorem acceptSimple_same (h : SameBelow (layno + 1) s t) :
    c.acceptSimple maxLayerLength layno cumulativeDistortion s =
      c.acceptSimple maxLayerLength layno cumulativeDistortion t := by
  rw [acceptSimple, acceptSimple, distoachieved_same _ h, fits_same _ _ h]

/-- Two searches with the same bounds, on tiles in relation `R`. -/
structure SameSearch {B : Type} (R : Blocks D → Blocks D → Prop) (s t : Search B D) : Prop where
  blocks : R s.blocks t.blocks
  lowerBound : s.lowerBound = t.lowerBound
  upperBound : s.upperBound = t.upperBound
  prevthresh : s.prevthresh = t.prevthresh
  thresh : s.thresh = t.thresh
  done : s.done = t.done

theorem feasibleRound_same {s t : Search Nat D}
    (h : SameSearch (List.Forall₂ (ReadyFor layno)) s t) :
    SameSearch (List.Forall₂ (ReadyFor layno))
      (c.feasibleRound maxLayerLength layno cumulativeDistortion s)
      (c.feasibleRound maxLayerLength layno cumulativeDistortion t) := by
  obtain ⟨s, lower, upper, prev, last, done⟩ := s
  obtain ⟨t, lower', upper', prev', last', done'⟩ := t
  obtain ⟨hblocks, rfl, rfl, rfl, rfl, rfl⟩ := h
  unfold feasibleRound
  dsimp only
  by_cases hstop : prev ≠ 0 ∧ prev = midpoint lower upper
  · rw [if_pos hstop, if_pos hstop]
    exact ⟨hblocks, rfl, rfl, rfl, rfl, rfl⟩
  · rw [if_neg hstop, if_neg hstop]
    have hmade := makeLayerFeasible_same hblocks (midpoint lower upper % 2 ^ 16) false
    rw [acceptFeasible_same _ _ _ hmade]
    split
    · exact ⟨hmade.ready, rfl, rfl, rfl, rfl, rfl⟩
    · exact ⟨hmade.ready, rfl, rfl, rfl, rfl, rfl⟩

theorem simpleRound_same {s t : Search D D} (h : SameSearch (SameBelow layno) s t) :
    SameSearch (SameBelow layno) (c.simpleRound maxLayerLength layno cumulativeDistortion s)
      (c.simpleRound maxLayerLength layno cumulativeDistortion t) := by
  obtain ⟨s, lower, upper, prev, last, done⟩ := s
  obtain ⟨t, lower', upper', prev', last', done'⟩ := t
  obtain ⟨hblocks, rfl, rfl, rfl, rfl, rfl⟩ := h
  unfold simpleRound
  dsimp only
  generalize (if upper == -1 then lower else lower + (upper - lower) / ((2 : Nat) : D)) = thresh
  have hmade := hblocks.makeLayerSimple thresh false
  have hkept := hmade.mono (le_succ layno)
  cases closeTo prev thresh with
  | true => exact ⟨hkept, rfl, rfl, rfl, rfl, rfl⟩
  | false =>
    rw [acceptSimple_same _ _ _ hmade]
    cases c.acceptSimple maxLayerLength layno cumulativeDistortion
      (t.makeLayerSimple layno thresh false) with
    | true => exact ⟨hkept, rfl, rfl, rfl, rfl, rfl⟩
    | false => exact ⟨hkept, rfl, rfl, rfl, rfl, rfl⟩

theorem feasibleSearch_same {s t : Search Nat D}
    (h : SameSearch (List.Forall₂ (ReadyFor layno)) s t) :
    SameSearch (List.Forall₂ (ReadyFor layno))
      (c.feasibleSearch maxLayerLength layno cumulativeDistortion s)
      (c.feasibleSearch maxLayerLength layno cumulativeDistortion t) := by
  apply repeatWhile_related _ _ _ h
  · intro s t h
    rw [h.done]
  · intro s t h
    exact feasibleRound_same c maxLayerLength cumulativeDistortion h

theorem simpleSearch_same {s t : Search D D} (h : SameSearch (SameBelow layno) s t) :
    SameSearch (SameBelow layno) (c.simpleSearch maxLayerLength layno cumulativeDistortion s)
      (c.simpleSearch maxLayerLength layno cumulativeDistortion t) := by
  apply repeatWhile_related _ _ _ h
  · intro s t h
    rw [h.done]
  · intro s t h
    exact simpleRound_same c maxLayerLength cumulativeDistortion h

/-- Two allocations after the same number of layers. -/
structure SameProgress {B : Type} (k : Nat) (p q : Progress B D) : Prop where
  blocks : SameBelow k p.blocks q.blocks
  upperBound : p.upperBound = q.upperBound
  cumulativeDistortion : p.cumulativeDistortion = q.cumulativeDistortion

variable (disableRateControl : Bool)

theorem simpleLayer_same (min_slope : D) {p q : Progress D D} (h : SameProgress layno p q) :
    SameProgress (layno + 1) (c.simpleLayer disableRateControl min_slope layno p)
      (c.simpleLayer disableRateControl min_slope layno q) := by
  obtain ⟨hblocks, hupper, hcumulative⟩ := h
  unfold simpleLayer
  rw [hupper, hcumulative]
  split
  · have hstart : SameSearch (SameBelow layno) ⟨p.blocks, min_slope, q.upperBound, -1, 0, false⟩
        ⟨q.blocks, min_slope, q.upperBound, -1, 0, false⟩ := ⟨hblocks, rfl, rfl, rfl, rfl, rfl⟩
    have hsearch := simpleSearch_same c (c.maxLayerLength disableRateControl layno)
      q.cumulativeDistortion hstart
    dsimp only
    rw [hsearch.upperBound, hsearch.thresh, hsearch.lowerBound]
    have hmade := fun thresh => hsearch.blocks.makeLayerSimple thresh true
    exact ⟨hmade _, rfl, by rw [distoachieved_same _ (hmade _)]⟩
  · exact ⟨hblocks.makeLayerFinal, rfl, rfl⟩

/-- Two allocations before a layer. Layer 0 may start from different counters if it has a
target. -/
structure ReadyProgress (c : Settings D) (layno : Nat) (p q : Progress Nat D) : Prop where
  ready : List.Forall₂ (ReadyFor layno) p.blocks q.blocks
  final : c.layerNeedsRateControl layno = false → SameBelow layno p.blocks q.blocks
  upperBound : p.upperBound = q.upperBound
  cumulativeDistortion : p.cumulativeDistortion = q.cumulativeDistortion

theorem SameProgress.ready {c : Settings D} {p q : Progress Nat D}
    (h : SameProgress layno p q) : ReadyProgress c layno p q :=
  ⟨h.blocks.imp fun _ _ hab => hab.ready, fun _ => h.blocks, h.upperBound, h.cumulativeDistortion⟩

theorem feasibleLayer_same (min_slope : Nat)
    {p q : Progress Nat D} (h : ReadyProgress c layno p q) :
    SameProgress (layno + 1) (c.feasibleLayer disableRateControl min_slope layno p)
      (c.feasibleLayer disableRateControl min_slope layno q) := by
  obtain ⟨hready, hfinal, hupper, hcumulative⟩ := h
  unfold feasibleLayer
  rw [hupper, hcumulative]
  cases hneeds : c.layerNeedsRateControl layno with
  | true =>
    have hstart : SameSearch (List.Forall₂ (ReadyFor layno))
        ⟨p.blocks, min_slope, q.upperBound, 0, 0, false⟩
        ⟨q.blocks, min_slope, q.upperBound, 0, 0, false⟩ := ⟨hready, rfl, rfl, rfl, rfl, rfl⟩
    have hsearch := feasibleSearch_same c (c.maxLayerLength disableRateControl layno)
      q.cumulativeDistortion hstart
    simp only [if_true]
    rw [hsearch.upperBound, hsearch.lowerBound]
    have hmade := fun thresh => makeLayerFeasible_same hsearch.blocks thresh true
    exact ⟨hmade _, rfl, by rw [distoachieved_same _ (hmade _)]⟩
  | false => exact ⟨(hfinal hneeds).makeLayerFinal, rfl, rfl⟩

theorem rdslopes_same
    (h : List.Forall₂ (fun a b => a.passes = b.passes) s t) : rdslopes s = rdslopes t := by
  unfold rdslopes
  induction h with
  | nil => rfl
  | @cons a b _ _ hab _ ih =>
    have hget : a.getPass = b.getPass := by
      funext passno
      rw [CodeblockCompress.getPass, CodeblockCompress.getPass, hab]
    have hslope : rdslope a = rdslope b := by
      funext passno
      rw [rdslope, rdslope, hget]
    rw [flatMap_cons, flatMap_cons, ih, hslope, numPasses,
      numPasses, hab]

/-- Allocations that start from the same passes, and from the same counters if these are read, make
the same layers. -/
theorem rateAllocate_same
    (hpasses : List.Forall₂ (fun a b => a.passes = b.passes) s t)
    (hcounters : SameBelow 0 s t ∨ c.ResetsCounters) :
    SameBelow c.numLayers (c.rateAllocate disableRateControl s).1
      (c.rateAllocate disableRateControl t).1 := by
  unfold rateAllocate pcrdBisectSimple pcrdBisectFeasible finish
  cases hneeds : c.needsRateControl with
  | false =>
    have hsame : SameBelow 0 s t := by
      apply hcounters.resolve_right
      intro ⟨_, hpos, hzero⟩
      have := any_eq_false.mp hneeds 0 (mem_range.mpr hpos)
      exact this hzero
    have hfinal : SameBelow c.numLayers (c.makeLayersFinal s) (c.makeLayersFinal t) :=
      countTo_related SameBelow (fun _ _ _ _ h => h.makeLayerFinal) hsame
    split <;> exact hfinal
  | true =>
    by_cases halgorithm : c.rateControlAlgorithm = 0
    · have hsame : SameBelow 0 s t := hcounters.resolve_right fun h => h.1 halgorithm
      rw [if_pos halgorithm, if_pos halgorithm]
      have hlayers : SameProgress c.numLayers (c.simpleLayers disableRateControl s c.numLayers)
          (c.simpleLayers disableRateControl t c.numLayers) := by
        unfold simpleLayers minRDSlope maxRDSlope
        rw [rdslopes_same hpasses]
        exact countTo_related SameProgress (fun _ _ _ _ h => simpleLayer_same c _ _ h)
          ⟨hsame, rfl, rfl⟩
      exact hlayers.blocks
    · rw [if_neg halgorithm, if_neg halgorithm]
      have hpos : 0 < c.numLayers := by
        obtain ⟨layno, hlayno, _⟩ := any_eq_true.mp hneeds
        exact lt_of_le_of_lt (zero_le layno) (mem_range.mp hlayno)
      have hstart : ReadyProgress c 0 ⟨s, ushrtMax, c.uninitialized⟩
          ⟨t, ushrtMax, c.uninitialized⟩ := by
        refine ⟨hpasses.imp fun _ _ hab => ⟨hab, fun h => absurd rfl h⟩, ?_, rfl, rfl⟩
        intro hzero
        apply hcounters.resolve_right
        intro h
        exact Bool.false_ne_true (hzero.symm.trans h.2.2)
      have hlayers : SameProgress c.numLayers (c.feasibleLayers disableRateControl s c.numLayers)
          (c.feasibleLayers disableRateControl t c.numLayers) := by
        unfold feasibleLayers
        rw [minimumSlope_same hpasses]
        obtain ⟨last, hlast⟩ := exists_eq_succ_of_ne_zero hpos.ne'
        rw [hlast]
        apply feasibleLayer_same
        exact countTo_related (ReadyProgress c)
          (fun _ _ _ _ h => (feasibleLayer_same c _ _ h).ready) hstart
      exact hlayers.blocks

end Tiles

end GrokCodec.RateControl
