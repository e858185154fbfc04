import GrokCodec.PacketIter.Basic
import Mathlib.Algebra.Order.BigOperators.Group.List

/-!
How many tile parts a tile is divided into. The compressor multiplies the ends of the loops of a
progression down to the loop at which tile parts are divided, and narrows the product to a byte.
-/

namespace GrokCodec.Codestream

open PacketIter List Nat Prod

/-- Conversion to `uint64_t`. -/
def u64 (n : Nat) : Nat := n % 2 ^ 64

/-- A letter of a progression order. -/
inductive ProgressionLoop where
  | component
  | resolution
  | precinct
  | layer
  deriving DecidableEq, Repr

/-- The loops of a progression order, the outermost first. -/
def progressionLoops : ProgOrder → List ProgressionLoop
  | .lrcp => [.layer, .resolution, .component, .precinct]
  | .rlcp => [.resolution, .layer, .component, .precinct]
  | .rpcl => [.resolution, .precinct, .component, .layer]
  | .pcrl => [.precinct, .component, .resolution, .layer]
  | .cprl => [.component, .precinct, .resolution, .layer]
  | .prcl => [.precinct, .resolution, .component, .layer]

/-- `convertProgressionOrder`. The table has no entry for PRCL, whose string is empty. -/
def convertProgressionOrder : ProgOrder → List ProgressionLoop
  | .prcl => []
  | order => progressionLoops order

/-- The ends of the loops of a progression. -/
structure ProgressionEnds where
  tp_comp_e : UInt16
  tp_res_e : UInt8
  tp_prec_e : UInt64
  tp_lay_e : UInt16
  deriving DecidableEq, Repr

def ProgressionEnds.loopEnd (poc : ProgressionEnds) : ProgressionLoop → Nat
  | .component => poc.tp_comp_e.toNat
  | .resolution => poc.tp_res_e.toNat
  | .precinct => poc.tp_prec_e.toNat
  | .layer => poc.tp_lay_e.toNat

/-- `newTilePartProgressionDivider_` is a letter of progression orders, or another character. -/
structure TilePartDivision where
  enableTilePartGeneration : Bool
  newTilePartProgressionDivider : Option ProgressionLoop
  deriving DecidableEq, Repr

/-- The order of a tile and its progressions. -/
structure TileProgressions where
  prg : ProgOrder
  progressionOrderChange : List ProgressionEnds
  deriving DecidableEq, Repr

/-- The product over the letters of a progression order, from `numTileParts` on. -/
def multiplyLoops (divider : Option ProgressionLoop) (poc : ProgressionEnds) :
    Nat → List ProgressionLoop → Nat
  | numTileParts, [] => numTileParts
  | numTileParts, loop :: rest =>
    let numTileParts := u64 (numTileParts * poc.loopEnd loop)
    if divider = some loop then numTileParts else multiplyLoops divider poc numTileParts rest

variable (enc : TilePartDivision) (prg : ProgOrder) (poc : ProgressionEnds)

def getNumTilePartsForProgression (current_poc : ProgressionEnds) : Nat :=
  u8 (if enc.enableTilePartGeneration then
    multiplyLoops enc.newTilePartProgressionDivider current_poc 1 (convertProgressionOrder prg)
  else 1)

def maxTilePartsPerTileJ2K : Nat := 255

def maxTotalTilePartsJ2K : Nat := 65535

/-- One progression of a tile: tile parts of all tiles and of the tile so far. -/
def addTileParts (totals : Nat × Nat) (numTilePartsForProgression : Nat) : Option (Nat × Nat) :=
  if numTilePartsForProgression + totals.2 > maxTilePartsPerTileJ2K then none
  else if totals.1 + numTilePartsForProgression > maxTotalTilePartsJ2K then none
  else some (totals.1 + numTilePartsForProgression, numTilePartsForProgression + totals.2)

/-- The progressions of a tile: tile parts of all tiles, and those of the tile. -/
def addTile (numTilePartsForAllTiles : Nat) (tcp : TileProgressions) : Option (Nat × Nat) :=
  (tcp.progressionOrderChange.map (getNumTilePartsForProgression enc tcp.prg)).foldlM addTileParts
    (numTilePartsForAllTiles, 0)

variable (tcps : List TileProgressions)

/-- `getNumTileParts`: tile parts of all tiles. -/
def getNumTileParts : Option Nat :=
  tcps.foldlM (fun numTilePartsForAllTiles tcp =>
    (addTile enc numTilePartsForAllTiles tcp).map fst) 0

/-- The product of the ends of the loops down to the one at which tile parts are divided. -/
def endsProduct (divider : Option ProgressionLoop) (poc : ProgressionEnds) :
    List ProgressionLoop → Nat
  | [] => 1
  | loop :: rest =>
    poc.loopEnd loop * if divider = some loop then 1 else endsProduct divider poc rest

/-- The tile parts that a progression needs. -/
def exactTileParts : Nat :=
  if enc.enableTilePartGeneration then
    endsProduct enc.newTilePartProgressionDivider poc (progressionLoops prg)
  else 1

/-- The tile parts that a tile needs. -/
def TileProgressions.exactTileParts (enc : TilePartDivision) (tcp : TileProgressions) : Nat :=
  (tcp.progressionOrderChange.map (Codestream.exactTileParts enc tcp.prg)).sum

/-- Too many tile parts are refused, and otherwise the number of each progression is exact. -/
def CountsTileParts : Prop :=
  ∀ tcp ∈ tcps,
    if tcp.exactTileParts enc > maxTilePartsPerTileJ2K then getNumTileParts enc tcps = none
    else ∀ poc ∈ tcp.progressionOrderChange,
      getNumTilePartsForProgression enc tcp.prg poc = Codestream.exactTileParts enc tcp.prg poc

section Products

theorem multiplyLoops_mod (divider : Option ProgressionLoop) (poc : ProgressionEnds) (n : Nat)
    (loops : List ProgressionLoop) :
    multiplyLoops divider poc n loops % 2 ^ 64 = (n * endsProduct divider poc loops) % 2 ^ 64 := by
  induction loops generalizing n with
  | nil => rw [multiplyLoops, endsProduct, Nat.mul_one]
  | cons loop rest ih =>
    rw [multiplyLoops, endsProduct]
    split
    · rw [Nat.mul_one]
      exact mod_mod _ _
    · rw [ih, u64, mod_mul_mod, Nat.mul_assoc]

/-- The code counts modulo 256, and takes one tile part where it does not know the order. -/
theorem getNumTilePartsForProgression_eq :
    getNumTilePartsForProgression enc prg poc =
      if prg = .prcl then 1 else u8 (exactTileParts enc prg poc) := by
  unfold getNumTilePartsForProgression exactTileParts
  by_cases hon : enc.enableTilePartGeneration = true
  · rw [if_pos hon, if_pos hon]
    have hmod (loops : List ProgressionLoop) :
        u8 (multiplyLoops enc.newTilePartProgressionDivider poc 1 loops) =
          u8 (endsProduct enc.newTilePartProgressionDivider poc loops) := by
      have h := multiplyLoops_mod enc.newTilePartProgressionDivider poc 1 loops
      unfold u8
      omega
    cases prg <;> exact hmod _
  · rw [if_neg hon, if_neg hon]
    cases prg <;> rfl

/-- Modulo 256 nothing is lost of a number of tile parts that a tile may have. -/
theorem getNumTilePartsForProgression_exact {enc : TilePartDivision} {tcp : TileProgressions}
    (hprg : tcp.prg ≠ .prcl) (hfew : tcp.exactTileParts enc ≤ maxTilePartsPerTileJ2K)
    {poc : ProgressionEnds} (hpoc : poc ∈ tcp.progressionOrderChange) :
    getNumTilePartsForProgression enc tcp.prg poc = exactTileParts enc tcp.prg poc := by
  have hle : exactTileParts enc tcp.prg poc ≤ tcp.exactTileParts enc :=
    le_sum_of_mem (mem_map_of_mem hpoc)
  rw [getNumTilePartsForProgression_eq, if_neg hprg]
  exact mod_eq_of_lt (Nat.lt_of_le_of_lt (hle.trans hfew) (by decide))

end Products

section Totals

/-- The tile parts of a tile as the compressor counts them. -/
def TileProgressions.countedTileParts (tcp : TileProgressions) : Nat :=
  (tcp.progressionOrderChange.map fun poc =>
    if tcp.prg = .prcl then 1 else u8 (Codestream.exactTileParts enc tcp.prg poc)).sum

theorem foldlM_addTileParts {ns : List Nat} {all tile : Nat} (hall : all ≤ maxTotalTilePartsJ2K)
    (htile : tile ≤ maxTilePartsPerTileJ2K) :
    ns.foldlM addTileParts (all, tile) =
      if tile + ns.sum ≤ maxTilePartsPerTileJ2K ∧ all + ns.sum ≤ maxTotalTilePartsJ2K
      then some (all + ns.sum, tile + ns.sum) else none := by
  induction ns generalizing all tile with
  | nil =>
    rw [sum_nil, if_pos ⟨htile, hall⟩]
    rfl
  | cons n ns ih =>
    rw [foldlM_cons, sum_cons, addTileParts]
    by_cases hmany : n + tile > maxTilePartsPerTileJ2K
    · rw [if_pos hmany, if_neg (by omega)]
      rfl
    · rw [if_neg hmany]
      by_cases htotal : all + n > maxTotalTilePartsJ2K
      · rw [if_pos htotal, if_neg (by omega)]
        rfl
      · rw [if_neg htotal]
        show ns.foldlM addTileParts (all + n, n + tile) = _
        rw [ih (by omega) (by omega), Nat.add_comm n tile, Nat.add_assoc, Nat.add_assoc]

theorem addTile_eq {enc : TilePartDivision} {tcp : TileProgressions} {all : Nat}
    (hall : all ≤ maxTotalTilePartsJ2K) :
    (addTile enc all tcp).map fst =
      if tcp.countedTileParts enc ≤ maxTilePartsPerTileJ2K ∧
        all + tcp.countedTileParts enc ≤ maxTotalTilePartsJ2K
      then some (all + tcp.countedTileParts enc) else none := by
  have hcounted : tcp.progressionOrderChange.map (getNumTilePartsForProgression enc tcp.prg) =
      tcp.progressionOrderChange.map fun poc =>
        if tcp.prg = .prcl then 1 else u8 (exactTileParts enc tcp.prg poc) :=
    map_congr_left fun poc _ => getNumTilePartsForProgression_eq enc tcp.prg poc
  rw [addTile, hcounted, foldlM_addTileParts hall (zero_le _), Nat.zero_add]
  show Option.map fst (if tcp.countedTileParts enc ≤ _ ∧ all + tcp.countedTileParts enc ≤ _
    then some (all + tcp.countedTileParts enc, tcp.countedTileParts enc) else none) = _
  split <;> rfl

/-- `getNumTileParts` fails for a tile with too many tile parts, as it counts them, or for too many
in all. -/
theorem getNumTileParts_eq_none_iff :
    getNumTileParts enc tcps = none ↔
      (∃ tcp ∈ tcps, tcp.countedTileParts enc > maxTilePartsPerTileJ2K) ∨
        (tcps.map (TileProgressions.countedTileParts enc)).sum > maxTotalTilePartsJ2K := by
  have hfold : ∀ all ≤ maxTotalTilePartsJ2K,
      tcps.foldlM (fun all tcp => (addTile enc all tcp).map fst) all = none ↔
        (∃ tcp ∈ tcps, tcp.countedTileParts enc > maxTilePartsPerTileJ2K) ∨
          all + (tcps.map (TileProgressions.countedTileParts enc)).sum > maxTotalTilePartsJ2K := by
    induction tcps with
    | nil =>
      intro all hall
      simp only [foldlM_nil, not_mem_nil, false_and, exists_false, map_nil,
        sum_nil, false_or]
      constructor
      · intro h
        cases h
      · intro h
        omega
    | cons tcp tcps ih =>
      intro all hall
      rw [foldlM_cons, addTile_eq hall, map_cons, sum_cons]
      by_cases hmany : tcp.countedTileParts enc > maxTilePartsPerTileJ2K
      · rw [if_neg (by omega)]
        exact ⟨fun _ => .inl ⟨tcp, mem_cons_self, hmany⟩, fun _ => rfl⟩
      · by_cases htotal : all + tcp.countedTileParts enc > maxTotalTilePartsJ2K
        · rw [if_neg (by omega)]
          exact ⟨fun _ => .inr (by omega), fun _ => rfl⟩
        · rw [if_pos (by omega)]
          show tcps.foldlM _ (all + tcp.countedTileParts enc) = none ↔ _
          rw [ih _ (by omega), Nat.add_assoc]
          simp [exists_eq_or_imp, hmany]
  have h := hfold 0 (zero_le _)
  rw [Nat.zero_add] at h
  exact h

/-- Where too many tile parts are needed, too many are counted as well; elsewhere the order has an
entry in the table, or no progression is divided. -/
def TilePartsCountable : Prop :=
  ∀ tcp ∈ tcps,
    if tcp.exactTileParts enc > maxTilePartsPerTileJ2K then
      (∃ tcp ∈ tcps, tcp.countedTileParts enc > maxTilePartsPerTileJ2K) ∨
        (tcps.map (TileProgressions.countedTileParts enc)).sum > maxTotalTilePartsJ2K
    else tcp.prg = .prcl → ∀ poc ∈ tcp.progressionOrderChange, exactTileParts enc .prcl poc = 1

/-- **Tile parts are counted and refused as they should exactly for countable tiles.** -/
theorem countsTileParts_iff (enc : TilePartDivision) (tcps : List TileProgressions) :
    CountsTileParts enc tcps ↔ TilePartsCountable enc tcps := by
  apply forall₂_congr
  intro tcp _
  by_cases hmany : tcp.exactTileParts enc > maxTilePartsPerTileJ2K
  · rw [if_pos hmany, if_pos hmany, getNumTileParts_eq_none_iff]
  · rw [if_neg hmany, if_neg hmany]
    constructor
    · intro hexact hprcl poc hpoc
      have h := hexact poc hpoc
      rw [getNumTilePartsForProgression_eq, if_pos hprcl, hprcl] at h
      exact h.symm
    · intro hone poc hpoc
      by_cases hprcl : tcp.prg = .prcl
      · rw [getNumTilePartsForProgression_eq, if_pos hprcl, hprcl, hone hprcl poc hpoc]
      · exact getNumTilePartsForProgression_exact hprcl (by omega) hpoc

/-- 256 components, divided by component: no tile parts are counted. -/
theorem not_countsTileParts :
    ¬ CountsTileParts ⟨true, some .component⟩ [⟨.cprl, [⟨256, 1, 1, 1⟩]⟩] := by
  intro h
  have htile := h _ mem_cons_self
  exact absurd htile (by decide)

end Totals

end GrokCodec.Codestream
