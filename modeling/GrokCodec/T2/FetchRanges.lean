import GrokCodec.PacketIter.Next
import Mathlib.Algebra.BigOperators.Group.Finset.Sigma
import Mathlib.Algebra.BigOperators.Ring.Finset
import Mathlib.Algebra.Order.BigOperators.Group.List

/-!
Selective fetching by resolution: a walk over the packets of a tile marks those that are needed,
and the marked packets become byte ranges of the packet data. Ranges that are close enough are
merged.
-/

namespace GrokCodec.T2

open PacketIter List Nat
open Finset (card_range sum_comm sum_const)

/-- A byte range of the packet data of a tile, which starts after SOD. -/
structure FetchRange where
  offset : Nat
  length : Nat
  deriving DecidableEq, Repr

def FetchRange.end_ (r : FetchRange) : Nat := r.offset + r.length

def FetchRange.Contains (r : FetchRange) (b : Nat) : Prop := r.offset ≤ b ∧ b < r.end_

structure TilePacketInfo where
  progression : ProgOrder
  numComponents : Nat
  numLayers : Nat
  numResolutions : List Nat
  precinctsPerRes : List (List Nat)
  pltLengths : List Nat
  deriving DecidableEq, Repr

namespace TilePacketInfo

variable (info : TilePacketInfo)

/-- `info.numResolutions[c]`. -/
def resolutions (c : Nat) : Nat := info.numResolutions.getD c 0

/-- `info.precinctsPerRes[c][r]`. -/
def precincts (c r : Nat) : Nat := (info.precinctsPerRes.getD c []).getD r 0

def maxRes : Nat := (List.range info.numComponents).foldl (fun m c => max m (info.resolutions c)) 0

/-- `maxPrecincts` of RPCL: over the components that have resolution `r`. -/
def maxPrecincts (r : Nat) : Nat :=
  (List.range info.numComponents).foldl (fun m c =>
    if r < info.resolutions c then max m (info.precincts c r) else m) 0

def compMaxPrecincts (c start : Nat) : Nat :=
  (List.range (info.resolutions c)).foldl (fun m r => max m (info.precincts c r)) start

def globalMaxPrecincts : Nat :=
  (List.range info.numComponents).foldl (fun m c => info.compMaxPrecincts c m) 0

/-- All layers of one precinct, the innermost loop of the spatial orders. -/
def layersOf (c r p : Nat) : List Packet :=
  if p < info.precincts c r then (List.range info.numLayers).map fun l => ⟨c, r, p, l⟩ else []

/-- All precincts of one layer, the innermost loop of the other two orders. -/
def precinctsOf (l r c : Nat) : List Packet :=
  if r < info.resolutions c then (List.range (info.precincts c r)).map fun p => ⟨c, r, p, l⟩ else []

/-- The packets in the order in which the mask is written. -/
def walk : List Packet :=
  match info.progression with
  | .lrcp =>
    (List.range info.numLayers).flatMap fun l =>
      (List.range info.maxRes).flatMap fun r =>
        (List.range info.numComponents).flatMap fun c => info.precinctsOf l r c
  | .rlcp =>
    (List.range info.maxRes).flatMap fun r =>
      (List.range info.numLayers).flatMap fun l =>
        (List.range info.numComponents).flatMap fun c => info.precinctsOf l r c
  | .rpcl =>
    (List.range info.maxRes).flatMap fun r =>
      (List.range (info.maxPrecincts r)).flatMap fun p =>
        (List.range info.numComponents).flatMap fun c =>
          if r < info.resolutions c then info.layersOf c r p else []
  | .pcrl =>
    (List.range info.globalMaxPrecincts).flatMap fun p =>
      (List.range info.numComponents).flatMap fun c =>
        (List.range (info.resolutions c)).flatMap fun r => info.layersOf c r p
  | .cprl =>
    (List.range info.numComponents).flatMap fun c =>
      (List.range (info.compMaxPrecincts c 0)).flatMap fun p =>
        (List.range (info.resolutions c)).flatMap fun r => info.layersOf c r p
  | .prcl => []

end TilePacketInfo

def computeTotalPackets (info : TilePacketInfo) : Nat :=
  (List.range info.numComponents).foldl (fun total c =>
    (List.range (info.resolutions c)).foldl (fun total r =>
      total + info.numLayers * info.precincts c r) total) 0

/-- True where a packet is needed. An order without a walk gives the empty mask. -/
def computePacketMask (info : TilePacketInfo) (resolutionsToDecompress : Nat) : List Bool :=
  info.walk.map fun p => decide (p.resno < resolutionsToDecompress)

/-- The variables of the loop that builds ranges. -/
structure RangeScan where
  ranges : List FetchRange := []
  offset : Nat := 0
  inRange : Bool := false
  rangeStart : Nat := 0
  deriving DecidableEq, Repr

/-- `ranges.push_back({rangeStart, offset - rangeStart})`. -/
def RangeScan.close (s : RangeScan) : List FetchRange :=
  s.ranges ++ [⟨s.rangeStart, s.offset - s.rangeStart⟩]

/-- What the loop does at a packet before it moves `offset`. -/
def RangeScan.mark (s : RangeScan) : Bool → RangeScan
  | true => if s.inRange then s else { s with rangeStart := s.offset, inRange := true }
  | false => if s.inRange then { s with ranges := s.close, inRange := false } else s

def RangeScan.step (s : RangeScan) (packet : Bool × Nat) : RangeScan :=
  let s := s.mark packet.1
  { s with offset := s.offset + packet.2 }

def buildRanges (mask : List Bool) (pltLengths : List Nat) : List FetchRange :=
  let s := (mask.zip pltLengths).foldl RangeScan.step {}
  if s.inRange then s.close else s.ranges

/-- One round of the loop that merges ranges. -/
def coalesceStep (gapThreshold : Nat) (coalesced : List FetchRange) (r : FetchRange) :
    List FetchRange :=
  match coalesced.getLast? with
  | none => [r]
  | some prev =>
    if r.offset - prev.end_ ≤ gapThreshold then
      coalesced.dropLast ++ [{ prev with length := r.end_ - prev.offset }]
    else coalesced ++ [r]

def coalesce (gapThreshold : Nat) (ranges : List FetchRange) : List FetchRange :=
  if 0 < gapThreshold ∧ 1 < ranges.length then ranges.foldl (coalesceStep gapThreshold) []
  else ranges

/-- The ranges of the packets that a mask marks. -/
def maskedRanges (mask : List Bool) (pltLengths : List Nat) (gapThreshold : Nat) :
    List FetchRange :=
  coalesce gapThreshold (buildRanges mask pltLengths)

def computeSelectiveFetchRanges (info : TilePacketInfo)
    (resolutionsToDecompress gapThreshold : Nat) : List FetchRange :=
  if info.pltLengths = [] ∨ info.numComponents = 0 then []
  else if info.pltLengths.length ≠ computeTotalPackets info then []
  else if info.maxRes ≤ resolutionsToDecompress then [⟨0, info.pltLengths.sum⟩]
  else
    let mask := computePacketMask info resolutionsToDecompress
    if mask = [] then [] else maskedRanges mask info.pltLengths gapThreshold

/-- The precincts of one resolution of a tile component, with the bounds aligned to precincts in
32 bits. -/
def computeNumPrecincts (tc : Rect) (numResolutions resno precWidthExp precHeightExp : Nat) : Nat :=
  let power := numResolutions - 1 - resno
  let rx0 := u32 (ceildivpow2 tc.x0 power)
  let ry0 := u32 (ceildivpow2 tc.y0 power)
  let rx1 := u32 (ceildivpow2 tc.x1 power)
  let ry1 := u32 (ceildivpow2 tc.y1 power)
  let resW := if rx1 > rx0 then rx1 - rx0 else 0
  let resH := if ry1 > ry0 then ry1 - ry0 else 0
  if resW = 0 ∨ resH = 0 then 0
  else
    let adjX0 := u32 (floordivpow2 rx0 precWidthExp <<< precWidthExp)
    let adjY0 := u32 (floordivpow2 ry0 precHeightExp <<< precHeightExp)
    let adjX1 := u32 (u32 (ceildivpow2 rx1 precWidthExp) <<< precWidthExp)
    let adjY1 := u32 (u32 (ceildivpow2 ry1 precHeightExp) <<< precHeightExp)
    let gridW := sub32 adjX1 adjX0 >>> precWidthExp
    let gridH := sub32 adjY1 adjY0 >>> precHeightExp
    gridW * gridH

/-- Where packet `i` starts. -/
def packetStart (pltLengths : List Nat) (i : Nat) : Nat := (pltLengths.take i).sum

section Serves

variable (mask : List Bool) (pltLengths : List Nat) (gapThreshold : Nat)

/-- Packet `i` is masked. -/
def Needed (i : Nat) : Prop := mask[i]? = some true

/-- Packets `i` and `j` are masked, none between them is, and the bytes between them do not
exceed the threshold. -/
structure ShortGap (i j : Nat) : Prop where
  lt : i < j
  left : Needed mask i
  right : Needed mask j
  between : ∀ k, i < k → k < j → ¬ Needed mask k
  short : packetStart pltLengths j - packetStart pltLengths (i + 1) ≤ gapThreshold

/-- What the ranges are for. -/
structure Serves (ranges : List FetchRange) : Prop where
  /-- In increasing order, and disjoint. -/
  ordered : ranges.Pairwise fun r s => r.end_ ≤ s.offset
  nonempty : (∀ n ∈ pltLengths, 0 < n) → ∀ r ∈ ranges, 0 < r.length
  covers : ∀ i b, Needed mask i → packetStart pltLengths i ≤ b → b < packetStart pltLengths (i + 1) →
    ∃ r ∈ ranges, r.Contains b
  inside : ∀ r ∈ ranges, r.end_ ≤ pltLengths.sum
  tight : ∀ r ∈ ranges, ∀ b, r.Contains b →
    (∃ i, Needed mask i ∧ packetStart pltLengths i ≤ b ∧ b < packetStart pltLengths (i + 1)) ∨
      ∃ i j, ShortGap mask pltLengths gapThreshold i j ∧
        packetStart pltLengths (i + 1) ≤ b ∧ b < packetStart pltLengths j

end Serves

section PacketStart

variable {pltLengths : List Nat}

@[simp] theorem packetStart_zero : packetStart pltLengths 0 = 0 := rfl

theorem packetStart_succ {i n : Nat} (h : pltLengths[i]? = some n) :
    packetStart pltLengths (i + 1) = packetStart pltLengths i + n := by
  rw [packetStart, take_add_one, h, sum_append_nat]
  simp [packetStart]

variable (pltLengths) in
theorem packetStart_mono {i j : Nat} (h : i ≤ j) :
    packetStart pltLengths i ≤ packetStart pltLengths j :=
  (take_sublist_take_left h).sum_le_sum fun _ _ => zero_le _

theorem packetStart_le_sum (i : Nat) : packetStart pltLengths i ≤ pltLengths.sum :=
  (take_sublist i pltLengths).sum_le_sum fun _ _ => zero_le _

theorem packetStart_lt (hpos : ∀ n ∈ pltLengths, 0 < n) {i j : Nat} (hij : i < j)
    (hj : j ≤ pltLengths.length) : packetStart pltLengths i < packetStart pltLengths j := by
  have hi : pltLengths[i]? = some pltLengths[i] := List.getElem?_eq_getElem _
  have hstep := packetStart_succ hi
  have hn := hpos _ (mem_of_getElem? hi)
  have hmono := packetStart_mono pltLengths (show i + 1 ≤ j from hij)
  omega

/-- Every byte between two packet boundaries is a byte of a packet between them. -/
theorem exists_packet_of_byte {i j b : Nat} (hi : packetStart pltLengths i ≤ b)
    (hj : b < packetStart pltLengths j) :
    ∃ k, i ≤ k ∧ k < j ∧ packetStart pltLengths k ≤ b ∧ b < packetStart pltLengths (k + 1) := by
  induction j with
  | zero => exact absurd hj (by simp)
  | succ j ih =>
    by_cases hlt : b < packetStart pltLengths j
    · obtain ⟨k, hik, hkj, hk⟩ := ih hlt
      exact ⟨k, hik, by omega, hk⟩
    · refine ⟨j, ?_, by omega, by omega, hj⟩
      apply Nat.le_of_not_lt
      intro hji
      have := packetStart_mono pltLengths (show j + 1 ≤ i from hji)
      omega

end PacketStart

section Blocks

variable (mask : List Bool) (pltLengths : List Nat) (gapThreshold : Nat)

/-- From packet `i` to packet `last`, both masked, every packet is masked or in a short gap. -/
structure Filled (i last : Nat) : Prop where
  le : i ≤ last
  left : Needed mask i
  right : Needed mask last
  all : ∀ k, i ≤ k → k ≤ last →
    Needed mask k ∨ ∃ a b, ShortGap mask pltLengths gapThreshold a b ∧ a < k ∧ k < b

/-- The ranges built so far, each from its first to its last packet, account for every masked
packet before `j`. -/
inductive Blocks : Nat → List FetchRange → Prop
  | nil : Blocks 0 []
  | snoc {j i last : Nat} {ranges : List FetchRange} : Blocks j ranges → j ≤ i →
      (∀ k, j ≤ k → k < i → ¬ Needed mask k) → Filled mask pltLengths gapThreshold i last →
      Blocks (last + 1) (ranges ++
        [⟨packetStart pltLengths i, packetStart pltLengths (last + 1) - packetStart pltLengths i⟩])

variable {mask pltLengths gapThreshold}

variable {i : Nat}

theorem Needed.lt_length (h : Needed mask i) : i < mask.length :=
  (List.getElem?_eq_some_iff.mp h).1

theorem ShortGap.mono {t j : Nat} (h : ShortGap mask pltLengths t i j) (ht : t ≤ gapThreshold) :
    ShortGap mask pltLengths gapThreshold i j :=
  { h with short := h.short.trans ht }

theorem Filled.mono {t last : Nat} (h : Filled mask pltLengths t i last) (ht : t ≤ gapThreshold) :
    Filled mask pltLengths gapThreshold i last where
  le := h.le
  left := h.left
  right := h.right
  all := by
    intro k hik hk
    obtain hn | ⟨a, b, hgap, hab⟩ := h.all k hik hk
    · exact .inl hn
    · exact .inr ⟨a, b, hgap.mono ht, hab⟩

theorem Filled.join {last i' last' : Nat} (h : Filled mask pltLengths gapThreshold i last)
    (h' : Filled mask pltLengths gapThreshold i' last') (hlt : last < i')
    (hout : ∀ k, last + 1 ≤ k → k < i' → ¬ Needed mask k)
    (hshort : packetStart pltLengths i' - packetStart pltLengths (last + 1) ≤ gapThreshold) :
    Filled mask pltLengths gapThreshold i last' where
  le := (h.le.trans hlt.le).trans h'.le
  left := h.left
  right := h'.right
  all := by
    intro k hik hk
    by_cases hkl : k ≤ last
    · exact h.all k hik hkl
    by_cases hki : i' ≤ k
    · exact h'.all k hki hk
    exact .inr ⟨last, i', ⟨hlt, h.right, h'.left, hout, hshort⟩, by omega, by omega⟩

theorem Filled.end_eq {last : Nat} (h : Filled mask pltLengths gapThreshold i last) :
    FetchRange.end_ ⟨packetStart pltLengths i,
      packetStart pltLengths (last + 1) - packetStart pltLengths i⟩ =
        packetStart pltLengths (last + 1) :=
  Nat.add_sub_cancel' (packetStart_mono pltLengths (le_succ_of_le h.le))

namespace Blocks

variable {j : Nat} {ranges : List FetchRange} (h : Blocks mask pltLengths gapThreshold j ranges)

include h

theorem end_le : ∀ r ∈ ranges, r.end_ ≤ packetStart pltLengths j := by
  induction h with
  | nil =>
    intro r hr
    cases hr
  | @snoc j i last ranges _ hji _ hfill ih =>
    intro r hr
    rcases mem_append.mp hr with hr | hr
    · have hle := hfill.le
      exact (ih r hr).trans (packetStart_mono pltLengths (by omega))
    · rw [mem_singleton.mp hr]
      exact hfill.end_eq.le

theorem ordered : ranges.Pairwise fun r s => r.end_ ≤ s.offset := by
  induction h with
  | nil => exact List.Pairwise.nil
  | snoc hblocks hji _ _ ih =>
    rw [pairwise_append]
    refine ⟨ih, pairwise_singleton _ _, ?_⟩
    intro r hr s hs
    rw [mem_singleton.mp hs]
    exact (hblocks.end_le r hr).trans (packetStart_mono pltLengths hji)

theorem nonempty (hlen : mask.length = pltLengths.length) (hpos : ∀ n ∈ pltLengths, 0 < n) :
    ∀ r ∈ ranges, 0 < r.length := by
  induction h with
  | nil =>
    intro r hr
    cases hr
  | snoc _ _ _ hfill ih =>
    intro r hr
    rcases mem_append.mp hr with hr | hr
    · exact ih r hr
    · have hlast := hfill.right.lt_length
      have hle := hfill.le
      have hlt := packetStart_lt hpos (lt_succ_of_le hle) (by omega)
      rw [mem_singleton.mp hr]
      exact Nat.sub_pos_of_lt hlt

theorem covers :
    ∀ i b, i < j → Needed mask i → packetStart pltLengths i ≤ b →
      b < packetStart pltLengths (i + 1) → ∃ r ∈ ranges, r.Contains b := by
  induction h with
  | nil =>
    intro i b hi
    omega
  | @snoc j i last ranges _ _ hout hfill ih =>
    intro k b hk hneed hlo hhi
    by_cases hkj : k < j
    · obtain ⟨r, hr, hb⟩ := ih k b hkj hneed hlo hhi
      exact ⟨r, mem_append_left _ hr, hb⟩
    · have hik : i ≤ k := by
        apply Nat.le_of_not_lt
        intro hki
        exact hout k (by omega) hki hneed
      refine ⟨_, mem_append_right _ (mem_singleton_self _), ?_, ?_⟩
      · exact (packetStart_mono pltLengths hik).trans hlo
      · rw [hfill.end_eq]
        exact hhi.trans_le (packetStart_mono pltLengths hk)

theorem tight :
    ∀ r ∈ ranges, ∀ b, r.Contains b →
      (∃ i, Needed mask i ∧ packetStart pltLengths i ≤ b ∧ b < packetStart pltLengths (i + 1)) ∨
        ∃ i j, ShortGap mask pltLengths gapThreshold i j ∧
          packetStart pltLengths (i + 1) ≤ b ∧ b < packetStart pltLengths j := by
  induction h with
  | nil =>
    intro r hr
    cases hr
  | snoc _ _ _ hfill ih =>
    intro r hr b hb
    rcases mem_append.mp hr with hr | hr
    · exact ih r hr b hb
    · rw [mem_singleton.mp hr, FetchRange.Contains, hfill.end_eq] at hb
      obtain ⟨k, hik, hk, hlo, hhi⟩ := exists_packet_of_byte hb.1 hb.2
      obtain hneed | ⟨a, c, hgap, hak, hkc⟩ := hfill.all k hik (le_of_lt_succ hk)
      · exact .inl ⟨k, hneed, hlo, hhi⟩
      · refine .inr ⟨a, c, hgap, ?_, ?_⟩
        · exact (packetStart_mono pltLengths hak).trans hlo
        · exact hhi.trans_le (packetStart_mono pltLengths hkc)

theorem serves (hlen : mask.length = pltLengths.length) (hrest : ∀ k, j ≤ k → ¬ Needed mask k) :
    Serves mask pltLengths gapThreshold ranges where
  ordered := h.ordered
  nonempty := h.nonempty hlen
  covers := by
    intro i b hneed
    refine h.covers i b ?_ hneed
    apply Nat.lt_of_not_le
    intro hji
    exact hrest i hji hneed
  inside := fun r hr => (h.end_le r hr).trans (packetStart_le_sum j)
  tight := h.tight

omit h

theorem mono {t : Nat} (h : Blocks mask pltLengths t j ranges) (ht : t ≤ gapThreshold) :
    Blocks mask pltLengths gapThreshold j ranges := by
  induction h with
  | nil => exact .nil
  | snoc _ hji hout hfill ih => exact ih.snoc hji hout (hfill.mono ht)

/-- A merge step keeps the blocks: it adds a block, or makes one of the last two. -/
theorem coalesceStep {i last : Nat} (h : Blocks mask pltLengths gapThreshold j ranges)
    (hji : j ≤ i) (hout : ∀ k, j ≤ k → k < i → ¬ Needed mask k)
    (hfill : Filled mask pltLengths gapThreshold i last) :
    Blocks mask pltLengths gapThreshold (last + 1) (coalesceStep gapThreshold ranges
      ⟨packetStart pltLengths i, packetStart pltLengths (last + 1) - packetStart pltLengths i⟩) := by
  cases h with
  | nil => exact Blocks.nil.snoc hji hout hfill
  | @snoc j₀ i₀ last₀ ranges₀ hblocks hji₀ hout₀ hfill₀ =>
    simp only [T2.coalesceStep, List.getLast?_append, List.getLast?_singleton, Option.some_or,
      dropLast_concat]
    rw [hfill₀.end_eq, hfill.end_eq]
    split
    case isTrue hshort => exact hblocks.snoc hji₀ hout₀ (hfill₀.join hfill hji hout hshort)
    case isFalse => exact (hblocks.snoc hji₀ hout₀ hfill₀).snoc hji hout hfill

theorem coalesce (h : Blocks mask pltLengths 0 j ranges) :
    Blocks mask pltLengths gapThreshold j (coalesce gapThreshold ranges) := by
  unfold T2.coalesce
  split
  case isFalse => exact h.mono (zero_le _)
  case isTrue hmany =>
    clear hmany
    induction h with
    | nil => exact .nil
    | snoc _ hji hout hfill ih =>
      rw [foldl_append]
      exact ih.coalesceStep hji hout (hfill.mono (zero_le _))

end Blocks

variable (mask pltLengths) in
/-- The loop that builds ranges, with `n` packets behind it: outside a range nothing was masked
since the last block; inside one everything was since `rangeStart`. -/
inductive Scanned (n : Nat) : RangeScan → Prop
  | outside {j rangeStart : Nat} {ranges : List FetchRange} : Blocks mask pltLengths 0 j ranges →
      j ≤ n → (∀ k, j ≤ k → k < n → ¬ Needed mask k) →
      Scanned n ⟨ranges, packetStart pltLengths n, false, rangeStart⟩
  | inside {j i : Nat} {ranges : List FetchRange} : Blocks mask pltLengths 0 j ranges →
      j ≤ i → i < n → (∀ k, j ≤ k → k < i → ¬ Needed mask k) →
      (∀ k, i ≤ k → k < n → Needed mask k) →
      Scanned n ⟨ranges, packetStart pltLengths n, true, packetStart pltLengths i⟩

/-- A stretch of masked packets is filled, whatever the threshold. -/
theorem filled_of_needed {n : Nat} (hin : i < n) (hall : ∀ k, i ≤ k → k < n → Needed mask k) :
    Filled mask pltLengths gapThreshold i (n - 1) where
  le := by omega
  left := hall i le_rfl hin
  right := hall (n - 1) (by omega) (by omega)
  all := fun k hik hk => .inl (hall k hik (by omega))

theorem Scanned.blocks_close {n j : Nat} {ranges : List FetchRange}
    (h : Blocks mask pltLengths 0 j ranges) (hji : j ≤ i) (hin : i < n)
    (hout : ∀ k, j ≤ k → k < i → ¬ Needed mask k) (hall : ∀ k, i ≤ k → k < n → Needed mask k) :
    Blocks mask pltLengths 0 n
      (RangeScan.close ⟨ranges, packetStart pltLengths n, true, packetStart pltLengths i⟩) := by
  have hblock := h.snoc hji hout (filled_of_needed hin hall)
  rw [Nat.sub_add_cancel (by omega : 1 ≤ n)] at hblock
  exact hblock

theorem Scanned.step {n len : Nat} {m : Bool} {s : RangeScan} (h : Scanned mask pltLengths n s)
    (hm : mask[n]? = some m) (hlen : pltLengths[n]? = some len) :
    Scanned mask pltLengths (n + 1) (s.step (m, len)) := by
  have hstart := packetStart_succ hlen
  cases m with
  | true =>
    cases h with
    | outside hblocks hjn hout =>
      simp only [RangeScan.step, RangeScan.mark, Bool.false_eq_true, if_false, ← hstart]
      refine .inside hblocks hjn (lt_succ_self n) hout ?_
      intro k hnk hk
      obtain rfl : k = n := by omega
      exact hm
    | inside hblocks hji hin hout hall =>
      simp only [RangeScan.step, RangeScan.mark, if_true, ← hstart]
      refine .inside hblocks hji (by omega) hout ?_
      intro k hik hk
      by_cases hkn : k = n
      · exact hkn ▸ hm
      · exact hall k hik (by omega)
  | false =>
    have hnot : ¬ Needed mask n := by
      intro hneed
      exact Bool.false_ne_true (Option.some.inj (hm.symm.trans hneed))
    cases h with
    | outside hblocks hjn hout =>
      simp only [RangeScan.step, RangeScan.mark, Bool.false_eq_true, if_false, ← hstart]
      refine .outside hblocks (by omega) ?_
      intro k hjk hk
      by_cases hkn : k = n
      · exact hkn ▸ hnot
      · exact hout k hjk (by omega)
    | inside hblocks hji hin hout hall =>
      simp only [RangeScan.step, RangeScan.mark, if_true, ← hstart]
      refine .outside (Scanned.blocks_close hblocks hji hin hout hall) (by omega) ?_
      intro k hnk hk
      obtain rfl : k = n := by omega
      exact hnot

variable (hlen : mask.length = pltLengths.length)

include hlen

theorem scanned_take {n : Nat} (hn : n ≤ mask.length) :
    Scanned mask pltLengths n (((mask.zip pltLengths).take n).foldl RangeScan.step {}) := by
  induction n with
  | zero => exact .outside .nil le_rfl fun k _ hk => absurd hk (not_lt_zero k)
  | succ n ih =>
    have hmask : mask[n]? = some mask[n] := List.getElem?_eq_getElem _
    have hplt : pltLengths[n]? = some pltLengths[n] := List.getElem?_eq_getElem _
    have hzip : (mask.zip pltLengths)[n]? = some (mask[n], pltLengths[n]) :=
      List.getElem?_zip_eq_some.mpr ⟨hmask, hplt⟩
    rw [take_add_one, hzip, foldl_append]
    exact (ih (by omega)).step hmask hplt

theorem buildRanges_blocks :
    ∃ j, Blocks mask pltLengths 0 j (buildRanges mask pltLengths) ∧
      ∀ k, j ≤ k → ¬ Needed mask k := by
  have hscan := scanned_take hlen le_rfl
  rw [take_of_length_le (by rw [length_zip]; omega)] at hscan
  unfold buildRanges
  generalize (mask.zip pltLengths).foldl RangeScan.step {} = s at hscan ⊢
  cases hscan with
  | @outside j _ _ hblocks _ hout =>
    refine ⟨j, hblocks, ?_⟩
    intro k hjk hneed
    exact hout k hjk hneed.lt_length hneed
  | inside hblocks hji hin hout hall =>
    refine ⟨mask.length, Scanned.blocks_close hblocks hji hin hout hall, ?_⟩
    intro k hk hneed
    exact absurd hneed.lt_length (by omega)

theorem maskedRanges_serves :
    Serves mask pltLengths gapThreshold (maskedRanges mask pltLengths gapThreshold) := by
  obtain ⟨j, hblocks, hrest⟩ := buildRanges_blocks hlen
  exact hblocks.coalesce.serves hlen hrest

end Blocks

section Totals

theorem le_foldl {α : Type} {f : Nat → α → Nat} (hf : ∀ m a, m ≤ f m a) (l : List α) (m : Nat) :
    m ≤ l.foldl f m := by
  induction l generalizing m with
  | nil => exact le_rfl
  | cons a l ih => exact (hf m a).trans (ih _)

theorem le_foldl_of_mem {α : Type} {f : Nat → α → Nat} (hf : ∀ m a, m ≤ f m a) {l : List α} {a : α}
    (ha : a ∈ l) {v : Nat} (hv : ∀ m, v ≤ f m a) (m : Nat) : v ≤ l.foldl f m := by
  induction l generalizing m with
  | nil => cases ha
  | cons b l ih =>
    cases ha with
    | head => exact (hv m).trans (le_foldl hf l _)
    | tail _ ha => exact ih ha _

theorem foldl_range_add (f : Nat → Nat) (n t : Nat) :
    (List.range n).foldl (fun t i => t + f i) t = t + ∑ i ∈ Finset.range n, f i := by
  induction n with
  | zero => rfl
  | succ n ih =>
    rw [range_succ, foldl_append, ih, Finset.sum_range_succ, ← Nat.add_assoc]
    rfl

theorem length_flatMap_range {α : Type} (f : Nat → List α) (n : Nat) :
    ((List.range n).flatMap f).length = ∑ i ∈ Finset.range n, (f i).length := by
  rw [length_flatMap]
  rfl

theorem sum_range_below {m n : Nat} (h : m ≤ n) (f : Nat → Nat) :
    (∑ i ∈ Finset.range n, if i < m then f i else 0) = ∑ i ∈ Finset.range m, f i := by
  rw [← Finset.sum_filter]
  congr 1
  ext i
  simp only [Finset.mem_filter, Finset.mem_range]
  omega

variable (info : TilePacketInfo)

theorem computeTotalPackets_eq : computeTotalPackets info =
    ∑ c ∈ Finset.range info.numComponents, ∑ r ∈ Finset.range (info.resolutions c),
      info.numLayers * info.precincts c r := by
  unfold computeTotalPackets
  simp [foldl_range_add]

variable {info}

variable {c : Nat}

theorem resolutions_le_maxRes (hc : c < info.numComponents) : info.resolutions c ≤ info.maxRes := by
  refine le_foldl_of_mem ?_ (mem_range.mpr hc) ?_ 0
  · exact fun _ _ => le_max_left _ _
  · exact fun _ => le_max_right _ _

theorem precincts_le_maxPrecincts {r : Nat} (hc : c < info.numComponents)
    (hr : r < info.resolutions c) : info.precincts c r ≤ info.maxPrecincts r := by
  refine le_foldl_of_mem ?_ (mem_range.mpr hc) ?_ 0
  · intro m c
    split <;> omega
  · intro m
    rw [if_pos hr]
    exact le_max_right _ _

theorem precincts_le_compMaxPrecincts {r : Nat} (hr : r < info.resolutions c) (start : Nat) :
    info.precincts c r ≤ info.compMaxPrecincts c start := by
  refine le_foldl_of_mem ?_ (mem_range.mpr hr) ?_ start
  · exact fun _ _ => le_max_left _ _
  · exact fun _ => le_max_right _ _

theorem precincts_le_globalMaxPrecincts {r : Nat} (hc : c < info.numComponents)
    (hr : r < info.resolutions c) : info.precincts c r ≤ info.globalMaxPrecincts :=
  le_foldl_of_mem (fun _ _ => le_foldl (fun _ _ => le_max_left _ _) _ _) (mem_range.mpr hc)
    (precincts_le_compMaxPrecincts hr) 0

theorem length_precinctsOf (l r c : Nat) : (info.precinctsOf l r c).length =
    if r < info.resolutions c then info.precincts c r else 0 := by
  unfold TilePacketInfo.precinctsOf
  split <;> simp

theorem length_layersOf (c r p : Nat) : (info.layersOf c r p).length =
    if p < info.precincts c r then info.numLayers else 0 := by
  unfold TilePacketInfo.layersOf
  split <;> simp

/-- All precincts of a resolution, under any bound that covers them, contribute every layer. -/
theorem sum_length_layersOf {r bound : Nat} (h : info.precincts c r ≤ bound) :
    ∑ p ∈ Finset.range bound, (info.layersOf c r p).length =
      info.numLayers * info.precincts c r := by
  simp only [length_layersOf]
  rw [sum_range_below h fun _ => info.numLayers, sum_const, card_range, smul_eq_mul,
    Nat.mul_comm]

/-- The walk of every order it knows meets every packet, which is what the mask builder asserts. -/
theorem length_walk (horder : info.progression ≠ .prcl) :
    info.walk.length = computeTotalPackets info := by
  have hper : ∀ c ∈ Finset.range info.numComponents,
      (∑ r ∈ Finset.range info.maxRes, if r < info.resolutions c then info.precincts c r else 0) =
        ∑ r ∈ Finset.range (info.resolutions c), info.precincts c r := by
    intro c hc
    exact sum_range_below (resolutions_le_maxRes (Finset.mem_range.mp hc)) _
  rw [computeTotalPackets_eq]
  unfold TilePacketInfo.walk
  cases hprog : info.progression with
  | lrcp =>
    simp only [length_flatMap_range, length_precinctsOf]
    rw [sum_const, card_range, smul_eq_mul, sum_comm,
      Finset.sum_congr rfl hper]
    simp only [Finset.mul_sum]
  | rlcp =>
    simp only [length_flatMap_range, length_precinctsOf]
    rw [sum_comm, sum_const, card_range, smul_eq_mul, sum_comm,
      Finset.sum_congr rfl hper]
    simp only [Finset.mul_sum]
  | rpcl =>
    simp only [length_flatMap_range]
    rw [Finset.sum_congr rfl fun r _ => sum_comm, sum_comm]
    refine Finset.sum_congr rfl ?_
    intro c hc
    have hc := Finset.mem_range.mp hc
    rw [← sum_range_below (resolutions_le_maxRes hc)]
    refine Finset.sum_congr rfl ?_
    intro r _
    by_cases hr : r < info.resolutions c
    · simp only [if_pos hr]
      exact sum_length_layersOf (precincts_le_maxPrecincts hc hr)
    · simp [if_neg hr]
  | pcrl =>
    simp only [length_flatMap_range]
    rw [sum_comm]
    refine Finset.sum_congr rfl ?_
    intro c hc
    rw [sum_comm]
    refine Finset.sum_congr rfl ?_
    intro r hr
    exact sum_length_layersOf
      (precincts_le_globalMaxPrecincts (Finset.mem_range.mp hc) (Finset.mem_range.mp hr))
  | cprl =>
    simp only [length_flatMap_range]
    refine Finset.sum_congr rfl ?_
    intro c _
    rw [sum_comm]
    refine Finset.sum_congr rfl ?_
    intro r hr
    exact sum_length_layersOf (precincts_le_compMaxPrecincts (Finset.mem_range.mp hr) 0)
  | prcl => exact absurd hprog horder

variable {p : Packet}

/-- The packets of a description. -/
structure Listed (info : TilePacketInfo) (p : Packet) : Prop where
  compno : p.compno < info.numComponents
  resno : p.resno < info.resolutions p.compno
  precinctIndex : p.precinctIndex < info.precincts p.compno p.resno
  layno : p.layno < info.numLayers

theorem mem_layersOf {r i : Nat} : p ∈ info.layersOf c r i ↔
    (p.compno = c ∧ p.resno = r ∧ p.precinctIndex = i) ∧ i < info.precincts c r ∧
      p.layno < info.numLayers := by
  unfold TilePacketInfo.layersOf
  split
  case isTrue h =>
    simp only [mem_map, mem_range]
    constructor
    · rintro ⟨l, hl, rfl⟩
      exact ⟨⟨rfl, rfl, rfl⟩, h, hl⟩
    · rintro ⟨⟨rfl, rfl, rfl⟩, -, hl⟩
      exact ⟨p.layno, hl, rfl⟩
  case isFalse h => simp [h]

theorem mem_precinctsOf {l r : Nat} : p ∈ info.precinctsOf l r c ↔
    (p.compno = c ∧ p.resno = r ∧ p.layno = l) ∧ r < info.resolutions c ∧
      p.precinctIndex < info.precincts c r := by
  unfold TilePacketInfo.precinctsOf
  split
  case isTrue h =>
    simp only [mem_map, mem_range]
    constructor
    · rintro ⟨i, hi, rfl⟩
      exact ⟨⟨rfl, rfl, rfl⟩, h, hi⟩
    · rintro ⟨⟨rfl, rfl, rfl⟩, -, hi⟩
      exact ⟨p.precinctIndex, hi, rfl⟩
  case isFalse h => simp [h]

theorem mem_walk (horder : info.progression ≠ .prcl) :
    p ∈ info.walk ↔ Listed info p := by
  unfold TilePacketInfo.walk
  cases hprog : info.progression with
  | lrcp =>
    simp only [mem_flatMap, mem_range, mem_precinctsOf]
    constructor
    · rintro ⟨l, hl, r, -, c, hc, ⟨rfl, rfl, rfl⟩, hr, hi⟩
      exact ⟨hc, hr, hi, hl⟩
    · intro h
      exact ⟨_, h.layno, _, h.resno.trans_le (resolutions_le_maxRes h.compno), _, h.compno,
        ⟨rfl, rfl, rfl⟩, h.resno, h.precinctIndex⟩
  | rlcp =>
    simp only [mem_flatMap, mem_range, mem_precinctsOf]
    constructor
    · rintro ⟨r, -, l, hl, c, hc, ⟨rfl, rfl, rfl⟩, hr, hi⟩
      exact ⟨hc, hr, hi, hl⟩
    · intro h
      exact ⟨_, h.resno.trans_le (resolutions_le_maxRes h.compno), _, h.layno, _, h.compno,
        ⟨rfl, rfl, rfl⟩, h.resno, h.precinctIndex⟩
  | rpcl =>
    simp only [mem_flatMap, mem_range, mem_ite_nil_right, mem_layersOf]
    constructor
    · rintro ⟨r, -, i, -, c, hc, hr, ⟨rfl, rfl, rfl⟩, hi, hl⟩
      exact ⟨hc, hr, hi, hl⟩
    · intro h
      exact ⟨_, h.resno.trans_le (resolutions_le_maxRes h.compno), _,
        h.precinctIndex.trans_le (precincts_le_maxPrecincts h.compno h.resno), _, h.compno, h.resno,
        ⟨rfl, rfl, rfl⟩, h.precinctIndex, h.layno⟩
  | pcrl =>
    simp only [mem_flatMap, mem_range, mem_layersOf]
    constructor
    · rintro ⟨i, -, c, hc, r, hr, ⟨rfl, rfl, rfl⟩, hi, hl⟩
      exact ⟨hc, hr, hi, hl⟩
    · intro h
      exact ⟨_, h.precinctIndex.trans_le (precincts_le_globalMaxPrecincts h.compno h.resno), _,
        h.compno, _, h.resno, ⟨rfl, rfl, rfl⟩, h.precinctIndex, h.layno⟩
  | cprl =>
    simp only [mem_flatMap, mem_range, mem_layersOf]
    constructor
    · rintro ⟨c, hc, i, -, r, hr, ⟨rfl, rfl, rfl⟩, hi, hl⟩
      exact ⟨hc, hr, hi, hl⟩
    · intro h
      exact ⟨_, h.compno, _, h.precinctIndex.trans_le (precincts_le_compMaxPrecincts h.resno 0), _,
        h.resno, ⟨rfl, rfl, rfl⟩, h.precinctIndex, h.layno⟩
  | prcl => exact absurd hprog horder

theorem resno_lt_maxRes_of_mem_walk (hp : p ∈ info.walk) : p.resno < info.maxRes := by
  have horder : info.progression ≠ .prcl := by
    intro hprcl
    rw [TilePacketInfo.walk, hprcl] at hp
    cases hp
  have h := (mem_walk horder).mp hp
  exact h.resno.trans_le (resolutions_le_maxRes h.compno)

end Totals

theorem foldl_step_masked (pltLengths : List Nat) (ranges : List FetchRange) (offset start : Nat) :
    ((List.replicate pltLengths.length true).zip pltLengths).foldl RangeScan.step
      ⟨ranges, offset, true, start⟩ = ⟨ranges, offset + pltLengths.sum, true, start⟩ := by
  induction pltLengths generalizing offset with
  | nil => rfl
  | cons n pltLengths ih =>
    rw [length_cons, replicate_succ, zip_cons_cons, foldl_cons]
    have hstep : RangeScan.step ⟨ranges, offset, true, start⟩ (true, n) =
        ⟨ranges, offset + n, true, start⟩ := rfl
    rw [hstep, ih, sum_cons, Nat.add_assoc]

theorem maskedRanges_all {pltLengths : List Nat} (hne : pltLengths ≠ []) (gapThreshold : Nat) :
    maskedRanges (List.replicate pltLengths.length true) pltLengths gapThreshold =
      [⟨0, pltLengths.sum⟩] := by
  obtain ⟨n, rest, rfl⟩ := exists_cons_of_ne_nil hne
  have hfirst : RangeScan.step {} (true, n) = ⟨[], n, true, 0⟩ := by
    simp [RangeScan.step, RangeScan.mark]
  have hbuild : buildRanges (List.replicate (n :: rest).length true) (n :: rest) =
      [⟨0, (n :: rest).sum⟩] := by
    unfold buildRanges
    rw [length_cons, replicate_succ, zip_cons_cons, foldl_cons, hfirst,
      foldl_step_masked]
    simp [RangeScan.close]
  rw [maskedRanges, hbuild, coalesce, if_neg (by simp)]

variable {res : Nat}

theorem computePacketMask_all {info : TilePacketInfo} (h : info.maxRes ≤ res) :
    computePacketMask info res = List.replicate info.walk.length true := by
  rw [computePacketMask, eq_replicate_iff, length_map]
  refine ⟨rfl, ?_⟩
  intro m hm
  obtain ⟨p, hp, rfl⟩ := mem_map.mp hm
  exact decide_eq_true ((resno_lt_maxRes_of_mem_walk hp).trans_le h)

theorem computeSelectiveFetchRanges_eq {info : TilePacketInfo}
    (hlen : (computePacketMask info res).length = info.pltLengths.length) (gapThreshold : Nat) :
    computeSelectiveFetchRanges info res gapThreshold =
      maskedRanges (computePacketMask info res) info.pltLengths gapThreshold := by
  have hwalk : info.walk.length = info.pltLengths.length := by
    rw [← hlen, computePacketMask, length_map]
  by_cases hne : info.pltLengths = []
  · have hmask : computePacketMask info res = [] := by
      rw [← length_eq_zero_iff, hlen, hne]
      rfl
    rw [computeSelectiveFetchRanges, if_pos (.inl hne), hmask, hne]
    simp [maskedRanges, coalesce, buildRanges]
  have hpos : 0 < info.walk.length := by
    rw [hwalk]
    exact length_pos_of_ne_nil hne
  have horder : info.progression ≠ .prcl := by
    intro hprcl
    simp [TilePacketInfo.walk, hprcl] at hpos
  have htotal := length_walk horder
  have hcomps : info.numComponents ≠ 0 := by
    intro hzero
    rw [computeTotalPackets_eq, hzero, Finset.sum_range_zero] at htotal
    omega
  rw [computeSelectiveFetchRanges, if_neg (by simp [hne, hcomps]), if_neg (by simp [← hwalk, htotal])]
  split
  case isTrue hall => rw [computePacketMask_all hall, hwalk, maskedRanges_all hne]
  case isFalse =>
    rw [if_neg]
    intro hmask
    rw [hmask] at hlen
    exact hne (length_eq_zero_iff.mp hlen.symm)

/-- **The ranges are the masked packets and the short gaps between them.** -/
theorem computeSelectiveFetchRanges_serves :
    (∀ (mask : List Bool) (pltLengths : List Nat) (gapThreshold : Nat),
      mask.length = pltLengths.length →
        Serves mask pltLengths gapThreshold (maskedRanges mask pltLengths gapThreshold)) ∧
    ∀ (info : TilePacketInfo) (resolutionsToDecompress gapThreshold : Nat),
      (computePacketMask info resolutionsToDecompress).length = info.pltLengths.length →
        computeSelectiveFetchRanges info resolutionsToDecompress gapThreshold =
          maskedRanges (computePacketMask info resolutionsToDecompress) info.pltLengths
            gapThreshold := by
  refine ⟨?_, ?_⟩
  · intro mask pltLengths gapThreshold hlen
    exact maskedRanges_serves hlen
  · intro info res gapThreshold hlen
    exact computeSelectiveFetchRanges_eq hlen gapThreshold

/-- Two layers and two resolutions of one precinct each. -/
def twoLayers : TilePacketInfo := ⟨.lrcp, 1, 2, [2], [[1, 1]], [10, 20, 30, 40]⟩

theorem computeSelectiveFetchRanges_twoLayers :
    Serves [true, false, true, false] [10, 20, 30, 40] 25
      (maskedRanges [true, false, true, false] [10, 20, 30, 40] 25) ∧
    computeSelectiveFetchRanges twoLayers 1 25 =
      maskedRanges (computePacketMask twoLayers 1) twoLayers.pltLengths 25 :=
  ⟨computeSelectiveFetchRanges_serves.1 _ _ _ rfl,
    computeSelectiveFetchRanges_serves.2 twoLayers 1 25 (by decide)⟩

example : computeSelectiveFetchRanges twoLayers 1 0 = [⟨0, 10⟩, ⟨30, 30⟩] ∧
    computeSelectiveFetchRanges twoLayers 1 25 = [⟨0, 60⟩] := by decide

end GrokCodec.T2
