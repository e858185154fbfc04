import GrokCodec.T2.CompressPackets

/-!
What one packet does to the precinct it belongs to. The bytes of a packet depend on the `settled`
state of the precinct only, and in the first layer on its `initial` state, which no packet changes.
-/

namespace GrokCodec.T2

open List Function

namespace TagTree

/-- Two trees on the same leaves. -/
def SameShape (a b : TagTree) : Prop := a.reset = b.reset

theorem SameShape.trans {a b c : TagTree} (hab : SameShape a b) (hbc : SameShape b c) :
    SameShape a c := Eq.trans hab hbc

theorem sameShape_of_nodes {tree : TagTree} {nodes : List TagNode}
    (h : nodes.length = tree.nodes.length) : SameShape { tree with nodes } tree := by
  unfold SameShape reset
  simp only [map_const', h]

variable (tree : TagTree)

theorem reset_sameShape : SameShape tree.reset tree :=
  sameShape_of_nodes (by simp)

theorem lower_sameShape (value : Nat) (path : List Nat) (tree : TagTree) :
    SameShape (lower value path tree) tree := by
  induction path generalizing tree with
  | nil => rfl
  | cons i rest ih =>
    rw [lower]
    split
    · exact (ih _).trans (sameShape_of_nodes (length_modify _ _ _))
    · rfl

theorem set_sameShape (leafno value : Nat) : SameShape (tree.set leafno value) tree :=
  lower_sameShape _ _ _

theorem tellPath_sameShape (threshold : Nat) (path : List Nat) (low : Nat) (tree : TagTree) :
    SameShape (tellPath threshold path low tree).2 tree := by
  induction path generalizing low tree with
  | nil => rfl
  | cons i rest ih =>
    rw [tellPath]
    exact (ih _ _).trans (sameShape_of_nodes length_set)

theorem encode_sameShape (leafno threshold : Nat) :
    SameShape (tree.encode leafno threshold).2 tree := tellPath_sameShape _ _ _ _

end TagTree

open TagTree

namespace Block

/-- The length indicator of a block is set when the block is first included. Before that it is
nothing to go by. -/
def settled (b : Block) : Block :=
  if b.numPassesInPackets = 0 then { b with numlenbits := 0 } else b

/-- A block before any packet. -/
def initial (b : Block) : Block := { b with numPassesInPackets := 0, numlenbits := 0 }

variable (totalPasses : Nat) (b : Block)

/-- A block after a packet header. -/
def headed : Block :=
  if totalPasses = 0 then b
  else (includedBits (if b.numPassesInPackets = 0 then { b with numlenbits := 3 } else b)
    totalPasses).2

/-- A block after a packet body. -/
def carried : Block :=
  if totalPasses = 0 then b
  else { b with numPassesInPackets := u8 (b.numPassesInPackets + totalPasses) }

theorem settled_of_eq_zero {b : Block} (h : b.numPassesInPackets = 0) :
    b.settled = { b with numlenbits := 0 } := if_pos h

theorem settled_of_ne_zero {b : Block} (h : b.numPassesInPackets ≠ 0) : b.settled = b := if_neg h

@[simp] theorem settled_index : b.settled.index = b.index := by
  unfold settled
  split <;> rfl

@[simp] theorem settled_numPassesInPackets :
    b.settled.numPassesInPackets = b.numPassesInPackets := by
  unfold settled
  split <;> rfl

theorem settled_settled : b.settled.settled = b.settled := by
  by_cases h : b.numPassesInPackets = 0
  · rw [settled_of_eq_zero h]
    exact settled_of_eq_zero h
  · rw [settled_of_ne_zero h, settled_of_ne_zero h]

theorem headed_index : (b.headed totalPasses).index = b.index := by
  unfold headed
  split
  · rfl
  · dsimp only [includedBits]
    split <;> rfl

theorem carried_headed_initial :
    ((b.headed totalPasses).carried totalPasses).initial = b.initial := by
  unfold headed carried
  split
  · rfl
  · dsimp only [includedBits]
    split <;> rfl

theorem carried_headed_settled :
    ((b.settled.headed totalPasses).carried totalPasses).settled =
      ((b.headed totalPasses).carried totalPasses).settled := by
  by_cases htotal : totalPasses = 0
  · rw [headed, if_pos htotal, carried, if_pos htotal, headed, if_pos htotal, carried,
      if_pos htotal, settled_settled]
  · by_cases hfirst : b.numPassesInPackets = 0
    · -- the first inclusion sets the length indicator
      have hheaded : b.settled.headed totalPasses = b.headed totalPasses := by
        rw [settled_of_eq_zero hfirst, headed, if_neg htotal, headed, if_neg htotal,
          if_pos hfirst, if_pos hfirst]
      rw [hheaded]
    · rw [settled_of_ne_zero hfirst]

end Block

section Blocks

variable (layno : Nat) (table : LayerTable)

theorem blockBits_block (totalPasses cblkno : Nat) (inclTree imsbTree : TagTree) (b : Block) :
    (blockBits layno totalPasses cblkno inclTree imsbTree b).2.2.2 = b.headed totalPasses := by
  unfold blockBits Block.headed
  by_cases htotal : totalPasses = 0
  · simp only [if_pos htotal]
  · simp only [if_neg htotal]

theorem blockBits_settled (totalPasses cblkno : Nat) (inclTree imsbTree : TagTree) (b : Block) :
    let x := blockBits layno totalPasses cblkno inclTree imsbTree b.settled
    let y := blockBits layno totalPasses cblkno inclTree imsbTree b
    x.1 = y.1 ∧ x.2.1 = y.2.1 ∧ x.2.2.1 = y.2.2.1 := by
  by_cases hfirst : b.numPassesInPackets = 0
  · rw [Block.settled_of_eq_zero hfirst]
    unfold blockBits
    simp only [if_pos hfirst]
    by_cases htotal : totalPasses = 0
    · simp only [if_pos htotal, and_self]
    · simp only [if_neg htotal, and_self]
  · rw [Block.settled_of_ne_zero hfirst]
    exact ⟨rfl, rfl, rfl⟩

theorem blockBits_sameShape (totalPasses cblkno : Nat) (inclTree imsbTree : TagTree) (b : Block) :
    SameShape (blockBits layno totalPasses cblkno inclTree imsbTree b).2.1 inclTree ∧
      SameShape (blockBits layno totalPasses cblkno inclTree imsbTree b).2.2.1 imsbTree := by
  have hincl := encode_sameShape inclTree cblkno (layno + 1)
  have himsb := encode_sameShape imsbTree cblkno imsbTree.uninitializedValue
  unfold blockBits
  by_cases hfirst : b.numPassesInPackets = 0 <;> by_cases htotal : totalPasses = 0
  · simp only [if_pos hfirst, if_pos htotal]
    exact ⟨hincl, rfl⟩
  · simp only [if_pos hfirst, if_neg htotal]
    exact ⟨hincl, himsb⟩
  · simp only [if_neg hfirst, if_pos htotal]
    exact ⟨rfl, rfl⟩
  · simp only [if_neg hfirst, if_neg htotal]
    exact ⟨rfl, rfl⟩

variable (cblkno : Nat)

variable (blocks : List Block)

theorem blocksBits_blocks (inclTree imsbTree : TagTree) :
    (blocksBits layno table cblkno blocks inclTree imsbTree).2.2.2 =
      blocks.map fun b => b.headed (table.totalPasses b.index layno) := by
  induction blocks generalizing cblkno inclTree imsbTree with
  | nil => rfl
  | cons b blocks ih =>
    rw [map_cons, ← blockBits_block layno _ cblkno inclTree imsbTree b]
    exact congrArg (_ :: ·) (ih _ _ _)

theorem blocksBits_settled (cblkno : Nat) (blocks : List Block) (inclTree imsbTree : TagTree) :
    let x := blocksBits layno table cblkno (blocks.map Block.settled) inclTree imsbTree
    let y := blocksBits layno table cblkno blocks inclTree imsbTree
    x.1 = y.1 ∧ x.2.1 = y.2.1 ∧ x.2.2.1 = y.2.2.1 := by
  induction blocks generalizing cblkno inclTree imsbTree with
  | nil => exact ⟨rfl, rfl, rfl⟩
  | cons b blocks ih =>
    obtain ⟨hbits, hincl, himsb⟩ := blockBits_settled layno
      (table.totalPasses b.index layno) cblkno inclTree imsbTree b
    obtain ⟨hmore, hrest⟩ := ih (cblkno + 1)
      (blockBits layno (table.totalPasses b.index layno) cblkno inclTree imsbTree b).2.1
      (blockBits layno (table.totalPasses b.index layno) cblkno inclTree imsbTree b).2.2.1
    simp only [map_cons, blocksBits, Block.settled_index, hbits, hincl, himsb, hmore]
    exact ⟨trivial, hrest⟩

theorem blocksBits_sameShape (inclTree imsbTree : TagTree) :
    SameShape (blocksBits layno table cblkno blocks inclTree imsbTree).2.1 inclTree ∧
      SameShape (blocksBits layno table cblkno blocks inclTree imsbTree).2.2.1 imsbTree := by
  induction blocks generalizing cblkno inclTree imsbTree with
  | nil => exact ⟨rfl, rfl⟩
  | cons b blocks ih =>
    obtain ⟨hincl, himsb⟩ := blockBits_sameShape layno
      (table.totalPasses b.index layno) cblkno inclTree imsbTree b
    exact ⟨(ih _ _ _).1.trans hincl, (ih _ _ _).2.trans himsb⟩

theorem includeFirst_settled (inclTree : TagTree) :
    includeFirst layno table cblkno (blocks.map Block.settled) inclTree =
      includeFirst layno table cblkno blocks inclTree := by
  induction blocks generalizing cblkno inclTree with
  | nil => rfl
  | cons b blocks ih =>
    rw [map_cons, includeFirst, includeFirst, Block.settled_index,
      Block.settled_numPassesInPackets, ih]

theorem includeFirst_sameShape (inclTree : TagTree) :
    SameShape (includeFirst layno table cblkno blocks inclTree) inclTree := by
  induction blocks generalizing cblkno inclTree with
  | nil => rfl
  | cons b blocks ih =>
    rw [includeFirst]
    refine (ih _ _).trans ?_
    split
    · exact set_sameShape _ _ _
    · rfl

theorem setMissing_sameShape (maxBitPlanes cblkno : Nat) (blocks : List Block)
    (imsbTree : TagTree) :
    SameShape (setMissing maxBitPlanes cblkno blocks imsbTree) imsbTree := by
  induction blocks generalizing cblkno imsbTree with
  | nil => rfl
  | cons b blocks ih => exact (ih _ _).trans (set_sameShape _ _ _)

theorem setMissing_initial (maxBitPlanes cblkno : Nat) (blocks : List Block) (imsbTree : TagTree) :
    setMissing maxBitPlanes cblkno (blocks.map Block.initial) imsbTree =
      setMissing maxBitPlanes cblkno blocks imsbTree := by
  induction blocks generalizing cblkno imsbTree with
  | nil => rfl
  | cons b blocks ih =>
    rw [map_cons, setMissing, setMissing, ih]
    rfl

/-- The bytes of a block in a packet body. -/
def LayerTable.bodyBytes (table : LayerTable) (layno : Nat) (b : Block) : Nat :=
  if table.totalPasses b.index layno = 0 then 0 else table.len b.index layno

theorem writeBlocks_eq :
    writeBlocks layno table blocks = ((blocks.map (table.bodyBytes layno)).sum,
      blocks.map fun b => b.carried (table.totalPasses b.index layno)) := by
  induction blocks with
  | nil => rfl
  | cons b blocks ih =>
    simp only [writeBlocks, ih, map_cons, sum_cons, LayerTable.bodyBytes, Block.carried]
    by_cases htotal : table.totalPasses b.index layno = 0
    · simp [if_pos htotal]
    · simp only [if_neg htotal]

end Blocks

namespace Precinct

/-- A precinct before any packet. -/
def initial (prc : Precinct) : Precinct :=
  { prc with inclTree := prc.inclTree.reset
             imsbTree := prc.imsbTree.reset
             blocks := prc.blocks.map Block.initial }

/-- What later packets can see of a precinct. -/
def settled (prc : Precinct) : Precinct :=
  if prc.skipped then prc.initial else { prc with blocks := prc.blocks.map Block.settled }

/-- Header bits and body bytes of a packet in one band, and the precinct after them. -/
def packet (layno : Nat) (table : LayerTable) (prc : Precinct) : List Bool × Nat × Precinct :=
  if prc.skipped then ([], 0, prc)
  else
    let (bits, prc) := prc.headerBits layno table
    let (bytes, blocks) := writeBlocks layno table prc.blocks
    (bits, bytes, { prc with blocks })

variable {layno : Nat} {table : LayerTable} {prc : Precinct}

theorem initial_skipped (prc : Precinct) : prc.initial.skipped = prc.skipped := by
  simp [skipped, initial]

theorem settled_skipped (prc : Precinct) : prc.settled.skipped = prc.skipped := by
  unfold settled
  split
  · exact initial_skipped prc
  · simp [skipped]

theorem settled_of_not_skipped (h : ¬ prc.skipped = true) :
    prc.settled = { prc with blocks := prc.blocks.map Block.settled } := if_neg h

theorem initial_initial (prc : Precinct) : prc.initial.initial = prc.initial := by
  have hincl : prc.inclTree.reset.reset = prc.inclTree.reset := reset_sameShape _
  have himsb : prc.imsbTree.reset.reset = prc.imsbTree.reset := reset_sameShape _
  have hblock : ∀ b : Block, b.initial.initial = b.initial := fun _ => rfl
  simp [initial, hincl, himsb, hblock]

/-- The blocks after a packet. -/
def blocksAfter (layno : Nat) (table : LayerTable) (prc : Precinct) : List Block :=
  prc.blocks.map fun b => (b.headed (table.totalPasses b.index layno)).carried
    (table.totalPasses b.index layno)

/-- The trees and bits of a packet header. -/
def header (layno : Nat) (table : LayerTable) (prc : Precinct) :
    List Bool × TagTree × TagTree × List Block :=
  blocksBits layno table 0 prc.blocks (includeFirst layno table 0 prc.blocks prc.inclTree)
    prc.imsbTree

theorem packet_of_skipped (h : prc.skipped = true) : prc.packet layno table = ([], 0, prc) :=
  if_pos h

theorem packet_of_not_skipped (h : ¬ prc.skipped = true) :
    prc.packet layno table =
      ((prc.header layno table).1, (prc.blocks.map (table.bodyBytes layno)).sum,
        { prc with inclTree := (prc.header layno table).2.1
                   imsbTree := (prc.header layno table).2.2.1
                   blocks := prc.blocksAfter layno table }) := by
  rw [packet, if_neg h, headerBits, if_neg h]
  have hblocks : (prc.header layno table).2.2.2 =
      prc.blocks.map fun b => b.headed (table.totalPasses b.index layno) :=
    blocksBits_blocks _ _ _ _ _ _
  have hbytes : ∀ b : Block, table.bodyBytes layno (b.headed (table.totalPasses b.index layno)) =
      table.bodyBytes layno b := by
    intro b
    rw [LayerTable.bodyBytes, Block.headed_index]
    rfl
  have hwritten : writeBlocks layno table (prc.header layno table).2.2.2 =
      ((prc.blocks.map (table.bodyBytes layno)).sum, prc.blocksAfter layno table) := by
    rw [hblocks, writeBlocks_eq, map_map, map_map]
    simp only [comp_def, hbytes, Block.headed_index, blocksAfter]
  show ((prc.header layno table).1, (writeBlocks layno table (prc.header layno table).2.2.2).1,
    ({ prc with inclTree := (prc.header layno table).2.1
                imsbTree := (prc.header layno table).2.2.1
                blocks := (writeBlocks layno table (prc.header layno table).2.2.2).2 }
      : Precinct)) = _
  rw [hwritten]

theorem packet_skipped (layno : Nat) (table : LayerTable) (prc : Precinct) :
    (prc.packet layno table).2.2.skipped = prc.skipped := by
  by_cases h : prc.skipped = true
  · rw [packet_of_skipped h]
  · rw [packet_of_not_skipped h]
    simp [skipped, blocksAfter]

/-- What is still to come sees the same blocks after a packet of `settled` blocks. -/
theorem blocksAfter_settled (layno : Nat) (table : LayerTable) (prc : Precinct)
    (blocks : List Block) :
    (({ prc with blocks := blocks.map Block.settled }).blocksAfter layno table).map Block.settled =
      (({ prc with blocks }).blocksAfter layno table).map Block.settled := by
  simp only [blocksAfter, map_map]
  apply map_congr_left
  intro b _
  simp only [comp_apply, Block.settled_index]
  exact Block.carried_headed_settled _ b

theorem packet_settled (layno : Nat) (table : LayerTable) (prc : Precinct) :
    (prc.settled.packet layno table).1 = (prc.packet layno table).1 ∧
      (prc.settled.packet layno table).2.1 = (prc.packet layno table).2.1 ∧
      (prc.settled.packet layno table).2.2.settled = (prc.packet layno table).2.2.settled := by
  have hskip := settled_skipped prc
  have hafter := packet_skipped layno table prc
  have hafter' := packet_skipped layno table prc.settled
  by_cases h : prc.skipped = true
  · rw [packet_of_skipped h, packet_of_skipped (hskip.trans h)]
    refine ⟨rfl, rfl, ?_⟩
    rw [settled, if_pos (hskip.trans h), settled, if_pos h, initial_initial]
  · have h' : ¬ prc.settled.skipped = true := by rwa [hskip]
    have hleft := settled_of_not_skipped (hafter.symm ▸ h)
    have hright := settled_of_not_skipped (hafter'.symm ▸ h')
    rw [hleft, hright, packet_of_not_skipped h, packet_of_not_skipped h', settled_of_not_skipped h]
    obtain ⟨hbits, hincl, himsb⟩ := blocksBits_settled layno table 0
      prc.blocks (includeFirst layno table 0 prc.blocks prc.inclTree) prc.imsbTree
    have hbytes : ∀ b : Block, table.bodyBytes layno b.settled = table.bodyBytes layno b := by
      intro b
      rw [LayerTable.bodyBytes, Block.settled_index]
      rfl
    have hblocks := blocksAfter_settled layno table prc prc.blocks
    simp only [header, includeFirst_settled, hbits, hincl, himsb, map_map,
      comp_def, hbytes, hblocks, and_self]

theorem packet_initial (prc : Precinct) : (prc.packet layno table).2.2.initial = prc.initial := by
  by_cases h : prc.skipped = true
  · rw [packet_of_skipped h]
  · rw [packet_of_not_skipped h]
    obtain ⟨hincl, himsb⟩ := blocksBits_sameShape layno table 0
      prc.blocks (includeFirst layno table 0 prc.blocks prc.inclTree) prc.imsbTree
    have hincl' : (prc.header layno table).2.1.reset = prc.inclTree.reset :=
      hincl.trans (includeFirst_sameShape _ _ _ _ _)
    have himsb' : (prc.header layno table).2.2.1.reset = prc.imsbTree.reset := himsb
    have hblocks : (prc.blocksAfter layno table).map Block.initial =
        prc.blocks.map Block.initial := by
      rw [blocksAfter, map_map]
      exact map_congr_left fun b _ => Block.carried_headed_initial _ b
    simp only [initial, hincl', himsb', hblocks]

theorem begin_initial {prc' : Precinct} (h : prc.begin = some prc') :
    prc'.initial = prc.initial := by
  unfold Precinct.begin at h
  split at h
  · cases h
    rfl
  · split at h
    · cases h
    · cases h
      have hincl : prc.inclTree.reset.reset = prc.inclTree.reset := reset_sameShape _
      have himsb : (setMissing prc.maxBitPlanes 0 prc.blocks prc.imsbTree.reset).reset =
          prc.imsbTree.reset := (setMissing_sameShape _ _ _ _).trans (reset_sameShape _)
      simp only [initial, hincl, himsb, map_map]
      rfl

theorem begin_settled (prc : Precinct) :
    prc.initial.begin.map settled = prc.begin.map settled := by
  have hskip := initial_skipped prc
  by_cases h : prc.skipped = true
  · rw [Precinct.begin, if_pos (hskip.trans h), Precinct.begin, if_pos h, Option.map_some,
      Option.map_some, settled, if_pos (hskip.trans h), settled, if_pos h, initial_initial]
  · rw [Precinct.begin, if_neg (by rwa [hskip]), Precinct.begin, if_neg h]
    have hany : (prc.initial.blocks.any fun cblk => cblk.numbps > prc.initial.maxBitPlanes) =
        prc.blocks.any fun cblk => cblk.numbps > prc.maxBitPlanes := by
      rw [initial, any_map]
      rfl
    rw [hany]
    split
    · rfl
    · have hincl : prc.inclTree.reset.reset = prc.inclTree.reset := reset_sameShape _
      have himsb : prc.imsbTree.reset.reset = prc.imsbTree.reset := reset_sameShape _
      have hmissing := setMissing_initial prc.maxBitPlanes 0 prc.blocks prc.imsbTree.reset
      simp [settled, skipped, initial, hincl, himsb, hmissing, comp_def, Block.initial,
        Block.settled]

end Precinct

end GrokCodec.T2
