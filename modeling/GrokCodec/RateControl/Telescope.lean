import GrokCodec.RateControl.Layers
import Mathlib.Algebra.BigOperators.Group.Finset.Basic

/-!
The layers of a code block one after the other. Every layer is attempted some number of times before
its final call; what an attempt leaves behind matters only while the layer has passes.
-/

namespace GrokCodec.RateControl

open Finset

variable {D : Type} [Double D]

/-- One block of `makeLayerFeasible` or of `makeLayerSimple`. -/
inductive LayerCall (D : Type) where
  | feasible (thresh : Nat)
  | simple (thresh : D)

namespace CodeblockCompress

def makeLayer (layno : Nat) (finalAttempt : Bool) (cblk : CodeblockCompress D) :
    LayerCall D → CodeblockCompress D
  | .feasible thresh => cblk.feasibleStep layno thresh finalAttempt
  | .simple thresh => cblk.simpleStep layno thresh finalAttempt

/-- The layers from `layno` on, each with its attempts and its final call. -/
def makeLayers : Nat → List (List (LayerCall D) × LayerCall D) → CodeblockCompress D →
    CodeblockCompress D
  | _, [], cblk => cblk
  | layno, (attempts, last) :: rest, cblk =>
    makeLayers (layno + 1) rest
      ((attempts.foldl (makeLayer layno false) cblk).makeLayer layno true last)

/-- The passes of the layers before `l`. -/
def firstPass (cblk : CodeblockCompress D) (l : Nat) : Nat :=
  ∑ j ∈ range l, (cblk.layers j).totalPasses

def rateBefore (cblk : CodeblockCompress D) (passno : Nat) : Nat :=
  if passno = 0 then 0 else (cblk.getPass (passno - 1)).rate

/-- The bytes that a layer adds; one without passes adds none. -/
def layerBytes (cblk : CodeblockCompress D) (l : Nat) : Nat :=
  if (cblk.layers l).totalPasses = 0 then 0 else (cblk.layers l).len

def RatesRise (cblk : CodeblockCompress D) : Prop :=
  ∀ j < cblk.numPasses, ∀ i ≤ j,
    (cblk.getPass i).rate ≤ (cblk.getPass j).rate ∧ (cblk.getPass j).rate < 2 ^ 16

/-- The passes of layer `l` are those from `firstPass l` on, and its bytes are the bytes of these. -/
structure Telescopes (cblk : CodeblockCompress D) (n : Nat) : Prop where
  passes : cblk.firstPass n ≤ cblk.numPasses
  bytes : ∑ l ∈ range n, cblk.layerBytes l = cblk.rateBefore (cblk.firstPass n)
  layer : ∀ l < n, (cblk.layers l).totalPasses ≠ 0 →
    (cblk.layers l).data = ∑ j ∈ range l, cblk.layerBytes j ∧
      (cblk.layers l).data = cblk.rateBefore (cblk.firstPass l) ∧
      (cblk.layers l).data + (cblk.layers l).len = cblk.rateBefore (cblk.firstPass (l + 1))

/-- The state before layer `n`. -/
structure Before (cblk : CodeblockCompress D) (n : Nat) : Prop extends Telescopes cblk n where
  counter : cblk.numPassesInPreviousLayers = cblk.firstPass n

variable {cblk : CodeblockCompress D} {n included : Nat} {finalAttempt : Bool}

theorem sum_setLayer (f : Layer D → Nat) {l : Nat} (hl : l ≤ n) :
    ∑ j ∈ range l, f ((cblk.setLayer n included finalAttempt).layers j) =
      ∑ j ∈ range l, f (cblk.layers j) := by
  refine sum_congr rfl fun j hj => ?_
  rw [setLayer_layers_of_ne (by have := mem_range.mp hj; omega)]

theorem Telescopes.setLayer (h : Telescopes cblk n) :
    Telescopes (cblk.setLayer n included finalAttempt) n := by
  have hfirst : ∀ {l}, l ≤ n →
      (cblk.setLayer n included finalAttempt).firstPass l = cblk.firstPass l := fun hl =>
    sum_setLayer (·.totalPasses) hl
  have hbytes : ∀ {l}, l ≤ n → ∑ j ∈ range l, (cblk.setLayer n included finalAttempt).layerBytes j =
      ∑ j ∈ range l, cblk.layerBytes j := fun hl =>
    sum_setLayer (fun layer => if layer.totalPasses = 0 then 0 else layer.len) hl
  refine ⟨?_, ?_, ?_⟩
  · rw [hfirst le_rfl]
    exact h.passes
  · rw [hbytes le_rfl, hfirst le_rfl]
    exact h.bytes
  · intro l hl
    rw [setLayer_layers_of_ne hl.ne, hbytes hl.le, hfirst hl.le, hfirst hl]
    exact h.layer l hl

/-- The bytes of a new layer are those of its passes. -/
theorem updatedLayer_bytes (hrates : cblk.RatesRise) (hmax : included ≤ cblk.numPasses)
    (hne : (cblk.updatedLayer n included).totalPasses ≠ 0) :
    (cblk.updatedLayer n included).data = cblk.rateBefore cblk.numPassesInPreviousLayers ∧
      (cblk.updatedLayer n included).data + (cblk.updatedLayer n included).len =
        cblk.rateBefore included := by
  rw [updatedLayer_totalPasses] at hne
  unfold updatedLayer rateBefore
  rw [if_neg hne, if_neg (by omega : included ≠ 0)]
  split
  · simp
  · have := hrates (included - 1) (by omega) (cblk.numPassesInPreviousLayers - 1) (by omega)
    rw [sub32_of_le this.1 (this.2.trans (by decide)), u16, Nat.mod_eq_of_lt (by omega)]
    exact ⟨rfl, Nat.add_sub_cancel' this.1⟩

/-- A final call puts its passes behind those of the layers before. -/
theorem Before.setLayer_true (h : Before cblk n) (hrates : cblk.RatesRise)
    (hle : cblk.numPassesInPreviousLayers ≤ included) (hmax : included ≤ cblk.numPasses) :
    Before (cblk.setLayer n included true) (n + 1) := by
  have hsame : Telescopes (cblk.setLayer n included true) n := h.toTelescopes.setLayer
  have hself : (cblk.setLayer n included true).layers n = cblk.updatedLayer n included :=
    setLayer_layers_self
  have hstart : (cblk.setLayer n included true).firstPass n = cblk.numPassesInPreviousLayers := by
    rw [h.counter]
    exact sum_setLayer (·.totalPasses) le_rfl
  have hnext : (cblk.setLayer n included true).firstPass (n + 1) = included := by
    rw [firstPass, sum_range_succ, ← firstPass, hstart, hself, updatedLayer_totalPasses]
    omega
  have hnew := updatedLayer_bytes (n := n) hrates hmax
  refine ⟨⟨hnext.trans_le hmax, ?_, ?_⟩, ?_⟩
  · rw [sum_range_succ, hsame.bytes, hstart, hnext, layerBytes, hself]
    split
    case isTrue hzero =>
      rw [updatedLayer_totalPasses] at hzero
      rw [show included = cblk.numPassesInPreviousLayers by omega]
      rfl
    case isFalse hne =>
      obtain ⟨hdata, hend⟩ := hnew hne
      exact (congrArg (· + _) hdata.symm).trans hend
  · intro l hl hne
    rcases Nat.lt_succ_iff_lt_or_eq.mp hl with hl | rfl
    · exact hsame.layer l hl hne
    · rw [hself] at hne ⊢
      rw [hsame.bytes, hstart, hnext]
      exact ⟨(hnew hne).1, hnew hne⟩
  · rw [hnext, setLayer_counter hle, if_pos rfl]

theorem Before.setLayer_false (h : Before cblk n) (hle : cblk.numPassesInPreviousLayers ≤ included) :
    Before (cblk.setLayer n included false) n :=
  ⟨h.toTelescopes.setLayer, by
    rw [setLayer_counter hle, firstPass, sum_setLayer (·.totalPasses) le_rfl]
    exact h.counter⟩

/-- A call sets the layer to some passes behind those that are counted. -/
theorem Before.makeLayer_eq (h : Before cblk n) (call : LayerCall D) (finalAttempt : Bool) :
    ∃ included, cblk.numPassesInPreviousLayers ≤ included ∧ included ≤ cblk.numPasses ∧
      cblk.makeLayer n finalAttempt call = cblk.setLayer n included finalAttempt := by
  have hcounter := h.counter ▸ h.passes
  cases call with
  | feasible thresh =>
    have hbounds := includedFeasible_bounds thresh hcounter
    refine ⟨_, hbounds.1, hbounds.2, ?_⟩
    have hreset : (if n = 0 then { cblk with numPassesInPreviousLayers := 0 } else cblk) = cblk := by
      split
      · rename_i hzero
        have := h.counter
        rw [hzero, firstPass, sum_range_zero] at this
        rw [← this]
      · rfl
    rw [makeLayer, feasibleStep, hreset]
  | simple thresh =>
    have hbounds := includedSimple_bounds thresh hcounter
    exact ⟨_, hbounds.1, hbounds.2, rfl⟩

theorem Before.attempts (h : Before cblk n) (calls : List (LayerCall D)) :
    Before (calls.foldl (makeLayer n false) cblk) n ∧
      (calls.foldl (makeLayer n false) cblk).passes = cblk.passes := by
  induction calls generalizing cblk with
  | nil => exact ⟨h, rfl⟩
  | cons call calls ih =>
    obtain ⟨included, hle, -, heq⟩ := h.makeLayer_eq call false
    rw [List.foldl_cons, heq]
    exact ih (h.setLayer_false hle)

theorem RatesRise.of_passes {cblk' : CodeblockCompress D} (h : cblk.RatesRise)
    (hpasses : cblk'.passes = cblk.passes) : cblk'.RatesRise := by
  unfold RatesRise getPass numPasses
  rw [hpasses]
  exact h

theorem Before.makeLayers (h : Before cblk n) (hrates : cblk.RatesRise)
    (layers : List (List (LayerCall D) × LayerCall D)) :
    Before (cblk.makeLayers n layers) (n + layers.length) ∧
      (cblk.makeLayers n layers).passes = cblk.passes := by
  induction layers generalizing cblk n with
  | nil => exact ⟨h, rfl⟩
  | cons layer layers ih =>
    obtain ⟨hattempts, hpasses⟩ := h.attempts layer.1
    have hrates' := hrates.of_passes hpasses
    obtain ⟨included, hle, hmax, heq⟩ := hattempts.makeLayer_eq layer.2 true
    have hnext := ih (hattempts.setLayer_true hrates' hle hmax)
      (hrates'.of_passes (CodeblockCompress.setLayer_passes))
    rw [List.length_cons, Nat.add_comm layers.length, ← Nat.add_assoc]
    rw [CodeblockCompress.makeLayers, heq]
    exact ⟨hnext.1, hnext.2.trans hpasses⟩

theorem before_fresh (cblk : CodeblockCompress D) : Before cblk.fresh 0 :=
  ⟨⟨Nat.zero_le _, rfl, fun _ h => absurd h (Nat.not_lt_zero _)⟩, rfl⟩

end CodeblockCompress

open CodeblockCompress in
/-- **The layers of a block telescope, whatever was attempted before each final call, as far as they
have passes.** -/
theorem layers_telescope (cblk : CodeblockCompress D) (hrates : cblk.RatesRise)
    (layers : List (List (LayerCall D) × LayerCall D)) :
    Telescopes (cblk.fresh.makeLayers 0 layers) layers.length ∧
      Telescopes ((cblk.fresh.makeLayers 0 layers).finalStep layers.length) (layers.length + 1) := by
  have hrates' : cblk.fresh.RatesRise := hrates
  obtain ⟨hlayers, hpasses⟩ := (before_fresh cblk).makeLayers hrates' layers
  rw [Nat.zero_add] at hlayers
  have hle := hlayers.counter ▸ hlayers.passes
  have hfinal := includedFinal_eq hle
  exact ⟨hlayers.toTelescopes, (hlayers.setLayer_true (hrates'.of_passes hpasses) (hfinal ▸ hle)
    hfinal.le).toTelescopes⟩

/-- Passes of five bytes each, with slopes 3 and 2. -/
def twoPasses : CodeblockCompress ℚ :=
  ⟨[⟨5, 1, 5, false, 3⟩, ⟨10, 2, 5, false, 2⟩], 0, fun _ => ⟨0, 0, 0, 0⟩⟩

theorem twoPasses_telescope :
    CodeblockCompress.Telescopes
      (twoPasses.fresh.makeLayers 0 [([.feasible 0], .feasible 2), ([.feasible 1], .feasible 0)]) 2 :=
  (layers_telescope twoPasses (by unfold CodeblockCompress.RatesRise; decide) _).1

/-- The second layer has no passes and does not point behind the first. -/
theorem empty_layer_unplaced :
    let cblk := twoPasses.fresh.makeLayers 0 [([], .feasible 2), ([], .feasible 2)]
    (cblk.layers 1).data ≠ ∑ j ∈ range 1, (cblk.layers j).len := by
  decide +kernel

end GrokCodec.RateControl
