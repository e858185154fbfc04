import GrokCodec.T2.PacketState

/-!
The widths of the length fields of a code block over its layers. The length indicator only grows,
so a field is as wide as the longest segment so far asks for.
-/

namespace GrokCodec.T2

open List BitCode

/-- A code block whose passes are assigned to layers. The rates that its passes add up to have 16
bits, and its passes are counted in 8. -/
structure LayeredBlock where
  passes : List Pass
  layers : List Nat
  sum_le : layers.sum ≤ passes.length
  length_lt : passes.length < 256
  rate_lt : (passes.map Pass.len).sum < 2 ^ 16

/-- `maxSegmentLengthBits` of the decoder. -/
def maxSegmentLengthBits : Nat := 16

namespace Block

/-- The codeword segments of the next layer. -/
def segments (b : Block) (totalPasses : Nat) : List (Nat × Nat) :=
  codewordSegments ((b.passes.drop b.numPassesInPackets).take totalPasses) 0 0

/-- The widths of the length fields of a layer. -/
def fieldWidths (b : Block) (totalPasses : Nat) : List Nat :=
  (b.segments totalPasses).map fun s => (b.headed totalPasses).numlenbits + floorlog2 s.2

/-- The widths of all length fields of the layers. -/
def layerWidths : Block → List Nat → List Nat
  | _, [] => []
  | b, totalPasses :: rest =>
    b.fieldWidths totalPasses ++ layerWidths ((b.headed totalPasses).carried totalPasses) rest

/-- A layer that takes passes writes the length of each segment in a field of its width. -/
theorem includedBits_fields (b : Block) {totalPasses : Nat} (hne : totalPasses ≠ 0) :
    ∃ front, (includedBits (if b.numPassesInPackets = 0 then { b with numlenbits := 3 } else b)
        totalPasses).1 =
      front ++ (zipWith (fun s width => bitsOf width s.1) (b.segments totalPasses)
        (b.fieldWidths totalPasses)).flatten := by
  rw [fieldWidths, zipWith_map_right, zipWith_self, headed, if_neg hne, ← flatMap_def]
  by_cases hfirst : b.numPassesInPackets = 0
  · rw [if_pos hfirst]
    exact ⟨_, rfl⟩
  · rw [if_neg hfirst]
    exact ⟨_, rfl⟩

end Block

/-- The codeword segments of each layer, from a pass on. -/
def layerSegments (passes : List Pass) : Nat → List Nat → List (List (Nat × Nat))
  | _, [] => []
  | start, totalPasses :: rest =>
    codewordSegments ((passes.drop start).take totalPasses) 0 0 ::
      layerSegments passes (start + totalPasses) rest

/-- Bytes and passes of a segment leave 16 bits for the length of any segment of its own and of
later layers. -/
def FitsFields : List (Nat × Nat) → List (List (Nat × Nat)) → Prop
  | _, [] => True
  | earlier, layer :: rest =>
    (∀ s ∈ earlier ++ layer, ∀ later ∈ layer,
      floorlog2 s.1 + 1 + floorlog2 later.2 ≤ maxSegmentLengthBits + floorlog2 s.2) ∧
    FitsFields (earlier ++ layer) rest

namespace LayeredBlock

def block (b : LayeredBlock) : Block := { index := 0, passes := b.passes, numbps := 0 }

def Readable (b : LayeredBlock) : Prop :=
  ∀ width ∈ b.block.layerWidths b.layers, width ≤ maxSegmentLengthBits

end LayeredBlock

theorem lengthIncrement_le_iff (numlenbits m : Nat) (segments : List (Nat × Nat)) :
    numlenbits + lengthIncrement numlenbits segments ≤ m ↔
      numlenbits ≤ m ∧ ∀ s ∈ segments, floorlog2 s.1 + 1 ≤ m + floorlog2 s.2 := by
  have hfold (increment : Nat) : numlenbits + segments.foldl (fun increment s =>
      max increment (floorlog2 s.1 + 1 - (numlenbits + floorlog2 s.2))) increment ≤ m ↔
      numlenbits + increment ≤ m ∧ ∀ s ∈ segments, numlenbits +
        (floorlog2 s.1 + 1 - (numlenbits + floorlog2 s.2)) ≤ m := by
    induction segments generalizing increment with
    | nil => simp
    | cons s rest ih =>
      rw [foldl_cons, ih, forall_mem_cons, ← and_assoc]
      refine and_congr_left fun _ => ?_
      omega
  refine (hfold 0).trans (and_congr_right fun hm => forall₂_congr fun s _ => ?_)
  omega

theorem codewordSegments_nump (passes : List Pass) (len nump : Nat) :
    ∀ s ∈ codewordSegments passes len nump, s.2 ≤ nump + passes.length := by
  induction passes generalizing len nump with
  | nil => simp [codewordSegments]
  | cons pass rest ih =>
    cases rest with
    | nil => simp [codewordSegments]
    | cons next rest =>
      intro s hs
      rw [codewordSegments] at hs
      · rw [length_cons]
        split at hs
        · rcases mem_cons.mp hs with rfl | hs
          · simp only [length_cons]
            omega
          · have := ih 0 0 s hs
            omega
        · have := ih _ _ s hs
          omega
      · simp

namespace Block

variable {b : Block} {earlier : List (Nat × Nat)}

/-- The length indicator is the smallest that is at least 3 and suits all segments so far. -/
def Indicates (b : Block) (earlier : List (Nat × Nat)) : Prop :=
  if b.numPassesInPackets = 0 then earlier = []
  else ∀ m, b.numlenbits ≤ m ↔ 3 ≤ m ∧ ∀ s ∈ earlier, floorlog2 s.1 + 1 ≤ m + floorlog2 s.2

theorem Indicates.headed (h : b.Indicates earlier) {totalPasses : Nat} (hne : totalPasses ≠ 0)
    (m : Nat) : (b.headed totalPasses).numlenbits ≤ m ↔
      3 ≤ m ∧ ∀ s ∈ earlier ++ b.segments totalPasses, floorlog2 s.1 + 1 ≤ m + floorlog2 s.2 := by
  simp only [mem_append, or_imp, forall_and, ← and_assoc]
  unfold Indicates at h
  unfold Block.headed
  rw [if_neg hne]
  by_cases hfirst : b.numPassesInPackets = 0
  · rw [if_pos hfirst] at h
    rw [if_pos hfirst, h]
    simp only [not_mem_nil, false_imp_iff, implies_true, and_true]
    exact lengthIncrement_le_iff 3 m (b.segments totalPasses)
  · rw [if_neg hfirst] at h
    rw [if_neg hfirst, ← h]
    exact lengthIncrement_le_iff _ m _

theorem headed_passes (b : Block) (totalPasses : Nat) :
    (b.headed totalPasses).passes = b.passes ∧
      (b.headed totalPasses).numPassesInPackets = b.numPassesInPackets := by
  unfold headed
  split
  · exact ⟨rfl, rfl⟩
  · dsimp only [includedBits]
    split <;> exact ⟨rfl, rfl⟩

/-- The fields of the layers are readable if and only if the segments fit. -/
theorem Indicates.layerWidths (h : b.Indicates earlier) {layers : List Nat}
    (hlen : b.numPassesInPackets + layers.sum < 256) :
    (∀ width ∈ b.layerWidths layers, width ≤ maxSegmentLengthBits) ↔
      FitsFields earlier (layerSegments b.passes b.numPassesInPackets layers) := by
  induction layers generalizing b earlier with
  | nil => simp [Block.layerWidths, layerSegments, FitsFields]
  | cons t rest ih =>
    rw [sum_cons] at hlen
    rw [Block.layerWidths, layerSegments, FitsFields, forall_mem_append]
    have hsegs : codewordSegments ((b.passes.drop b.numPassesInPackets).take t) 0 0 =
      b.segments t := rfl
    rw [hsegs]
    by_cases ht : t = 0
    · subst ht
      have hnil : b.segments 0 = [] := rfl
      have hsame : (b.headed 0).carried 0 = b := rfl
      rw [fieldWidths, hnil, hsame, append_nil]
      simpa using ih h (by omega)
    · have hcarried : (b.headed t).carried t = { b.headed t with
          numPassesInPackets := b.numPassesInPackets + t } := by
        rw [carried, if_neg ht, (b.headed_passes t).2, u8, Nat.mod_eq_of_lt (by omega)]
      have hnext : ((b.headed t).carried t).Indicates (earlier ++ b.segments t) := by
        rw [hcarried, Indicates, if_neg (by dsimp only; omega)]
        exact h.headed ht
      refine and_congr ?_ ?_
      · rw [fieldWidths, forall_mem_map]
        constructor
        · intro hw s hs later hlater
          have hroom := hw later hlater
          have := ((h.headed ht (16 - floorlog2 later.2)).mp (by
            unfold maxSegmentLengthBits at hroom
            omega)).2 s hs
          unfold maxSegmentLengthBits at *
          omega
        · intro hfit later hlater
          have hnump := codewordSegments_nump _ _ _ later hlater
          have hlog : floorlog2 later.2 < 8 := by
            rw [length_take] at hnump
            rcases Nat.eq_zero_or_pos later.2 with hz | hpos
            · rw [hz]
              decide
            · exact (Nat.log2_lt hpos.ne').mpr (by omega)
          unfold maxSegmentLengthBits at *
          have := (h.headed ht (16 - floorlog2 later.2)).mpr ⟨by omega, fun s hs => by
            have := hfit s hs later hlater
            omega⟩
          omega
      · rw [ih hnext (by rw [hcarried]; dsimp only; omega), hcarried, (b.headed_passes t).1]

end Block

namespace LayeredBlock

/-- **The decoder can read all length fields of a block exactly if its segments fit.** -/
theorem readable_iff (b : LayeredBlock) :
    b.Readable ↔ FitsFields [] (layerSegments b.passes 0 b.layers) := by
  have hlen : 0 + b.layers.sum < 256 := by
    have := b.sum_le
    have := b.length_lt
    omega
  exact Block.Indicates.layerWidths (b := b.block) (by simp [Block.Indicates, block]) hlen

/-- A first layer of one long pass, and two passes in the second one: a field of 17 bits. -/
theorem not_readable : ¬ Readable
    ⟨[⟨65535, false⟩, ⟨0, false⟩, ⟨0, false⟩], [1, 2], by decide, by decide, by decide⟩ := by
  intro h
  exact absurd (h 17 (by decide)) (by decide)

end LayeredBlock

end GrokCodec.T2
