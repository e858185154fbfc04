import GrokCodec.Util.Geometry
import Mathlib.Data.List.Chain

/-!
Tag trees on the side of the compressor. The leaves are the code blocks of a precinct, and a node
holds the smallest value below it. Every node has a path to the root that is short enough to be
climbed, and setting a leaf lowers the values along its path.
-/

namespace GrokCodec.T2

structure TagNode where
  value : Nat
  low : Nat
  known : Bool
  deriving DecidableEq

/-- Nodes of all levels, leaves first. -/
structure TagTree where
  /-- `getUninitializedValue`. -/
  uninitializedValue : Nat
  /-- The root has no parent. -/
  parents : List (Option Nat)
  nodes : List TagNode
  deriving DecidableEq

namespace TagTree

/-- Widths and heights of the levels. -/
def levels : Nat → Nat → Nat → List (Nat × Nat)
  | 0, w, h => [(w, h)]
  | fuel + 1, w, h => (w, h) :: if w * h > 1 then levels fuel ((w + 1) >>> 1) ((h + 1) >>> 1) else []

/-- Parents of the nodes of these levels, where the second level starts at `parentBase`. -/
def parentsOf : Nat → List (Nat × Nat) → List (Option Nat)
  | _, [] => []
  | _, [(w, h)] => List.replicate (w * h) none
  | parentBase, (w, h) :: (w', h') :: rest =>
    ((List.range h).flatMap fun j =>
      (List.range w).map fun k => some (parentBase + (j >>> 1) * w' + (k >>> 1))) ++
      parentsOf (parentBase + w' * h') ((w', h') :: rest)

def reset (tree : TagTree) : TagTree :=
  { tree with nodes := tree.nodes.map fun _ => ⟨tree.uninitializedValue, 0, false⟩ }

/-- `TagTree` of a type with `bits` bits. -/
def build (bits leavesWidth leavesHeight : Nat) : TagTree :=
  let parents := parentsOf (leavesWidth * leavesHeight)
    (levels 16 leavesWidth leavesHeight)
  let uninitializedValue := 2 ^ bits - 1
  ⟨uninitializedValue, parents, parents.map fun _ => ⟨uninitializedValue, 0, false⟩⟩

def node (tree : TagTree) (i : Nat) : TagNode :=
  tree.nodes.getD i ⟨tree.uninitializedValue, 0, false⟩

def parent (tree : TagTree) (i : Nat) : Option Nat := (tree.parents.getD i none)

/-- The nodes from `i` up to the root. -/
def climb (tree : TagTree) : Nat → Nat → List Nat
  | 0, i => [i]
  | fuel + 1, i => i :: match tree.parent i with
    | none => []
    | some p => tree.climb fuel p

/-- From the leaf to the root. A tree has at most 16 levels. -/
def pathUp (tree : TagTree) (leafno : Nat) : List Nat := tree.climb 16 leafno

/-- The nodes with a greater value, up to the first that is not greater. -/
def lower (value : Nat) : List Nat → TagTree → TagTree
  | [], tree => tree
  | i :: rest, tree =>
    if (tree.node i).value > value then
      lower value rest { tree with nodes := tree.nodes.modify i fun n => { n with value } }
    else tree

def set (tree : TagTree) (leafno value : Nat) : TagTree := lower value (tree.pathUp leafno) tree

/-- What is told about a node whose value is at least `low`: the bits, the new bound, and whether
the value is known. -/
def tell (value threshold : Nat) (known : Bool) : Nat → Nat → List Bool × Nat × Bool
  | 0, low => ([], low, known)
  | fuel + 1, low =>
    if low < threshold then
      if low ≥ value then (if known then [] else [true], low, true)
      else
        let (bits, low, known) := tell value threshold known fuel (low + 1)
        (false :: bits, low, known)
    else ([], low, known)

def tellNode (threshold low : Nat) (n : TagNode) : List Bool × TagNode :=
  let low := max n.low low
  let (bits, low, known) := tell n.value threshold n.known threshold low
  (bits, { n with low, known })

/-- The nodes of a path, from the root on. -/
def tellPath (threshold : Nat) : List Nat → Nat → TagTree → List Bool × TagTree
  | [], _, tree => ([], tree)
  | i :: rest, low, tree =>
    let (bits, n) := tellNode threshold low (tree.node i)
    let (more, tree) := tellPath threshold rest n.low { tree with nodes := tree.nodes.set i n }
    (bits ++ more, tree)

/-- The bits that `encode` writes for a leaf. -/
def encode (tree : TagTree) (leafno threshold : Nat) : List Bool × TagTree :=
  tellPath threshold (tree.pathUp leafno).reverse 0 tree

open List

/-- The nodes from a node up to the root. -/
inductive Path (tree : TagTree) : Nat → List Nat → Prop
  | root {i : Nat} (h : tree.parent i = none) : Path tree i [i]
  | up {i p : Nat} {path : List Nat} (h : tree.parent i = some p) (hp : Path tree p path) :
      Path tree i (i :: path)

/-- A tree whose first `leaves` nodes are leaves. Parents come after their children. -/
structure Shaped (tree : TagTree) (leaves : Nat) : Prop where
  length : tree.nodes.length = tree.parents.length
  leaves_le : leaves ≤ tree.nodes.length
  up : ∀ i p, tree.parent i = some p → i < p ∧ leaves ≤ p ∧ p < tree.nodes.length
  path : ∀ i < leaves, tree.Path i (tree.pathUp i)

variable {tree tree' : TagTree}

theorem parent_congr (h : tree'.parents = tree.parents) (i : Nat) :
    tree'.parent i = tree.parent i := by
  rw [parent, parent, h]

theorem climb_congr (h : tree'.parents = tree.parents) (fuel i : Nat) :
    tree'.climb fuel i = tree.climb fuel i := by
  induction fuel generalizing i with
  | zero => rfl
  | succ fuel ih => simp only [climb, parent_congr h, ih]

variable {i : Nat}

theorem Path.congr (h : tree'.parents = tree.parents)
    {path : List Nat} (hp : tree.Path i path) : tree'.Path i path := by
  induction hp with
  | root hroot => exact .root ((parent_congr h _).trans hroot)
  | up hup _ ih => exact .up ((parent_congr h _).trans hup) ih

variable {leaves : Nat}

theorem Shaped.congr (hs : tree.Shaped leaves)
    (h : tree'.parents = tree.parents) (hlen : tree'.nodes.length = tree.nodes.length) :
    tree'.Shaped leaves := by
  refine ⟨by rw [hlen, hs.length, h], by rw [hlen]; exact hs.leaves_le, ?_, ?_⟩
  · intro i p hp
    rw [parent_congr h] at hp
    rw [hlen]
    exact hs.up i p hp
  · intro i hi
    rw [pathUp, climb_congr h]
    exact (hs.path i hi).congr h

section Paths

variable {tree : TagTree} {leaves : Nat} {i : Nat} {path : List Nat}

theorem Path.head (h : tree.Path i path) : ∃ rest, path = i :: rest := by
  cases h with
  | root h => exact ⟨[], rfl⟩
  | up h hp => exact ⟨_, rfl⟩

theorem Path.closed (h : tree.Path i path) {j p : Nat} (hj : j ∈ path)
    (hp : tree.parent j = some p) : p ∈ path := by
  induction h with
  | root hroot =>
    obtain rfl := mem_singleton.mp hj
    rw [hroot] at hp
    exact nomatch hp
  | up hup hpath ih =>
    rcases mem_cons.mp hj with rfl | hj
    · rw [hup] at hp
      obtain rfl := Option.some.inj hp
      obtain ⟨rest, rfl⟩ := hpath.head
      simp
    · exact mem_cons_of_mem _ (ih hj)

theorem Path.above (hs : tree.Shaped leaves) (h : tree.Path i path) {j : Nat} (hj : j ∈ path) :
    j = i ∨ i < j ∧ leaves ≤ j ∧ j < tree.nodes.length := by
  induction h with
  | root hroot => exact .inl (mem_singleton.mp hj)
  | @up i p path hup hpath ih =>
    rcases mem_cons.mp hj with rfl | hj
    · exact .inl rfl
    · have hip := hs.up i p hup
      rcases ih hj with rfl | hpj
      · exact .inr hip
      · exact .inr ⟨by omega, hpj.2⟩

theorem Path.nodup (hs : tree.Shaped leaves) (h : tree.Path i path) : path.Nodup := by
  induction h with
  | root hroot => exact nodup_singleton _
  | @up i p path hup hpath ih =>
    refine nodup_cons.mpr ⟨?_, ih⟩
    intro hi
    have hip := hs.up i p hup
    rcases hpath.above hs hi with rfl | hpi <;> omega

theorem Path.isChain {R : Nat → Nat → Prop} (hR : ∀ i p, tree.parent i = some p → R i p)
    (h : tree.Path i path) : path.IsChain R := by
  induction h with
  | root hroot => exact .singleton _
  | up hup hpath ih =>
    obtain ⟨rest, rfl⟩ := hpath.head
    exact isChain_cons_cons.mpr ⟨hR _ _ hup, ih⟩

end Paths

/-- Every node is at least its parent. -/
def Heap (tree : TagTree) : Prop :=
  ∀ i p, tree.parent i = some p → (tree.node p).value ≤ (tree.node i).value

theorem node_modify (hi : i < tree.nodes.length)
    (f : TagNode → TagNode) (j : Nat) :
    ({ tree with nodes := tree.nodes.modify i f } : TagTree).node j =
      if j = i then f (tree.node j) else tree.node j := by
  simp only [node, getD_eq_getElem?_getD, List.getElem?_modify]
  by_cases hj : j = i
  · subst hj
    simp [List.getElem?_eq_getElem hi]
  · rw [if_neg hj]
    simp [Ne.symm hj]

@[simp] theorem parents_lower (value : Nat) (path : List Nat) (tree : TagTree) :
    (lower value path tree).parents = tree.parents := by
  induction path generalizing tree with
  | nil => rfl
  | cons i rest ih =>
    rw [lower]
    split
    · rw [ih]
    · rfl

@[simp] theorem length_lower (value : Nat) (path : List Nat) (tree : TagTree) :
    (lower value path tree).nodes.length = tree.nodes.length := by
  induction path generalizing tree with
  | nil => rfl
  | cons i rest ih =>
    rw [lower]
    split
    · rw [ih]
      simp
    · rfl

@[simp] theorem uninitializedValue_lower (value : Nat) (path : List Nat) (tree : TagTree) :
    (lower value path tree).uninitializedValue = tree.uninitializedValue := by
  induction path generalizing tree with
  | nil => rfl
  | cons i rest ih =>
    rw [lower]
    split
    · rw [ih]
    · rfl

theorem le_head_of_isChain {rest : List Nat}
    (h : (i :: rest).IsChain fun i p => (tree.node p).value ≤ (tree.node i).value) :
    ∀ k ∈ i :: rest, (tree.node k).value ≤ (tree.node i).value := by
  intro k hk
  rcases mem_cons.mp hk with rfl | hk
  · exact Nat.le_refl _
  · exact (pairwise_cons.mp (isChain_iff_pairwise.mp h)).1 k hk

/-- Where values do not grow along a path, the early stop leaves nothing out. -/
theorem node_lower {value : Nat} {path : List Nat}
    (hchain : path.IsChain fun i p => (tree.node p).value ≤ (tree.node i).value)
    (hnodup : path.Nodup) (hrange : ∀ i ∈ path, i < tree.nodes.length) (j : Nat) :
    (lower value path tree).node j =
      if j ∈ path then { tree.node j with value := min (tree.node j).value value }
      else tree.node j := by
  induction path generalizing tree with
  | nil => simp [lower]
  | cons i rest ih =>
    obtain ⟨hi, hrest⟩ := nodup_cons.mp hnodup
    have hlen := hrange i mem_cons_self
    rw [lower]
    by_cases hgt : (tree.node i).value > value
    · rw [if_pos hgt]
      have hnode := node_modify hlen fun n => { n with value }
      rw [ih ?_ hrest ?_]
      · rw [hnode]
        by_cases hj : j = i
        · subst hj
          rw [if_neg hi, if_pos rfl, if_pos mem_cons_self, Nat.min_eq_right (by omega)]
        · simp [hj]
      · -- the head of the path is not met again
        refine List.IsChain.imp_of_mem_imp (fun a p ha hp h => ?_) hchain.of_cons
        rw [hnode, hnode, if_neg (fun heq : p = i => hi (heq ▸ hp)),
          if_neg (fun heq : a = i => hi (heq ▸ ha))]
        exact h
      · intro k hk
        show k < (tree.nodes.modify i _).length
        rw [length_modify]
        exact hrange k (mem_cons_of_mem _ hk)
    · rw [if_neg hgt]
      have hall : ∀ k ∈ i :: rest, (tree.node k).value ≤ value :=
        fun k hk => (le_head_of_isChain hchain k hk).trans (Nat.not_lt.mp hgt)
      by_cases hj : j ∈ i :: rest
      · rw [if_pos hj, Nat.min_eq_left (hall j hj)]
      · rw [if_neg hj]

theorem node_set {leafno : Nat} (hs : tree.Shaped leaves)
    (hheap : tree.Heap) (hleaf : leafno < leaves) (value j : Nat) :
    (tree.set leafno value).node j =
      if j ∈ tree.pathUp leafno then { tree.node j with value := min (tree.node j).value value }
      else tree.node j := by
  have hpath := hs.path leafno hleaf
  apply node_lower (hpath.isChain hheap) (hpath.nodup hs)
  intro i hi
  rcases hpath.above hs hi with rfl | habove
  · exact Nat.lt_of_lt_of_le hleaf hs.leaves_le
  · exact habove.2.2

/-- Setting a value keeps parents below their children, since a path is left only at the root. -/
theorem heap_set {leafno : Nat} (hs : tree.Shaped leaves)
    (hheap : tree.Heap) (hleaf : leafno < leaves) (value : Nat) :
    (tree.set leafno value).Heap := by
  intro i p hp
  have hparent := (parent_congr (parents_lower _ _ _) i).symm.trans hp
  have hle := hheap i p hparent
  rw [node_set hs hheap hleaf, node_set hs hheap hleaf]
  by_cases hi : i ∈ tree.pathUp leafno
  · rw [if_pos hi, if_pos ((hs.path leafno hleaf).closed hi hparent)]
    show min _ _ ≤ min _ _
    omega
  · rw [if_neg hi]
    split
    · show min _ _ ≤ _
      omega
    · exact hle

section Build

/-- Two levels that follow each other. -/
def Halves (a b : Nat × Nat) : Prop := b = ((a.1 + 1) >>> 1, (a.2 + 1) >>> 1)

theorem isChain_levels (fuel w h : Nat) : (levels fuel w h).IsChain Halves := by
  induction fuel generalizing w h with
  | zero => exact .singleton _
  | succ fuel ih =>
    rw [levels]
    split
    · have hnext := ih ((w + 1) >>> 1) ((h + 1) >>> 1)
      cases fuel with
      | zero => exact isChain_cons_cons.mpr ⟨rfl, hnext⟩
      | succ fuel => exact isChain_cons_cons.mpr ⟨rfl, hnext⟩
    · exact .singleton _

variable {h w : Nat}

theorem length_levels_le {n : Nat} (fuel : Nat) (hw : w ≤ 2 ^ n) (hh : h ≤ 2 ^ n) :
    (levels fuel w h).length ≤ n + 1 := by
  induction fuel generalizing n w h with
  | zero => simp [levels]
  | succ fuel ih =>
    rw [levels]
    split
    next hmany =>
      cases n with
      | zero =>
        have hone := Nat.mul_le_mul hw hh
        omega
      | succ n =>
        rw [Nat.pow_succ] at hw hh
        have hnext := ih (n := n) (w := (w + 1) >>> 1) (h := (h + 1) >>> 1) (by omega) (by omega)
        rw [length_cons]
        omega
    next => simp

/-- The parents of one level. -/
def row (parentBase w h w' : Nat) : List (Option Nat) :=
  (List.range h).flatMap fun j =>
    (List.range w).map fun k => some (parentBase + (j >>> 1) * w' + (k >>> 1))

theorem length_row (parentBase w h w' : Nat) : (row parentBase w h w').length = w * h := by
  simp [row, length_flatMap, Nat.mul_comm]

theorem mem_row {parentBase : Nat} {o : Option Nat}
    (ho : o ∈ row parentBase w h ((w + 1) >>> 1)) :
    ∃ p, o = some p ∧ parentBase ≤ p ∧
      p < parentBase + ((w + 1) >>> 1) * ((h + 1) >>> 1) := by
  obtain ⟨j, hj, ho⟩ := mem_flatMap.mp ho
  obtain ⟨k, hk, rfl⟩ := mem_map.mp ho
  rw [mem_range] at hj hk
  refine ⟨_, rfl, by omega, ?_⟩
  have hj' : j >>> 1 + 1 ≤ (h + 1) >>> 1 := by omega
  have hmul := Nat.mul_le_mul_right ((w + 1) >>> 1) hj'
  rw [Nat.add_mul, Nat.one_mul] at hmul
  rw [Nat.mul_comm ((w + 1) >>> 1)]
  omega

theorem le_length_parentsOf (parentBase : Nat) (w h : Nat) (rest : List (Nat × Nat)) :
    w * h ≤ (parentsOf parentBase ((w, h) :: rest)).length := by
  cases rest with
  | nil => simp [parentsOf]
  | cons next rest =>
    have hrow := length_row parentBase w h next.1
    rw [parentsOf, length_append]
    unfold row at hrow
    omega

/-- The levels from some level on: parents are in the next level, and the root is reached. -/
theorem shape_parentsOf {tree : TagTree} {ls : List (Nat × Nat)}
    {before : List (Option Nat)} (hchain : ((w, h) :: ls).IsChain Halves)
    (hparents : tree.parents = before ++ parentsOf (before.length + w * h) ((w, h) :: ls))
    {i : Nat} (hi : before.length ≤ i) (hlt : i < tree.parents.length) :
    (∀ p, tree.parent i = some p →
      i < p ∧ before.length + w * h ≤ p ∧ p < tree.parents.length) ∧
    ∀ fuel, ls.length ≤ fuel → tree.Path i (tree.climb fuel i) := by
  have hget : tree.parents[i]? =
      (parentsOf (before.length + w * h) ((w, h) :: ls))[i - before.length]? := by
    rw [hparents, List.getElem?_append_right hi]
  induction ls generalizing w h before i with
  | nil =>
    have hnone : tree.parent i = none := by
      rw [parent, getD_eq_getElem?_getD, hget, parentsOf, List.getElem?_replicate]
      split <;> rfl
    refine ⟨fun p hp => ?_, fun fuel _ => ?_⟩
    · rw [hnone] at hp
      exact nomatch hp
    · cases fuel with
      | zero => exact .root hnone
      | succ fuel =>
        rw [climb, hnone]
        exact .root hnone
  | cons next ls ih =>
    obtain ⟨hhalves, hchain'⟩ := isChain_cons_cons.mp hchain
    obtain rfl : next = ((w + 1) >>> 1, (h + 1) >>> 1) := hhalves
    have hrow := length_row (before.length + w * h) w h ((w + 1) >>> 1)
    have hlen : (before ++ row (before.length + w * h) w h ((w + 1) >>> 1)).length =
        before.length + w * h := by
      rw [length_append, hrow]
    have hparents' : tree.parents = before ++ row (before.length + w * h) w h ((w + 1) >>> 1) ++
        parentsOf ((before ++ row (before.length + w * h) w h ((w + 1) >>> 1)).length +
          ((w + 1) >>> 1) * ((h + 1) >>> 1)) (((w + 1) >>> 1, (h + 1) >>> 1) :: ls) := by
      rw [hlen, hparents, parentsOf, append_assoc]
      rfl
    have ih' {k : Nat} (hk : before.length + w * h ≤ k) (hklt : k < tree.parents.length) := by
      rw [← hlen] at hk
      exact ih hchain' hparents' hk hklt (by rw [hparents', List.getElem?_append_right hk])
    rcases Nat.lt_or_ge i (before.length + w * h) with hin | hout
    · -- a node of this level
      have hrange : i - before.length < (row (before.length + w * h) w h ((w + 1) >>> 1)).length := by
        omega
      have hin' : tree.parents[i]? =
          (row (before.length + w * h) w h ((w + 1) >>> 1))[i - before.length]? := by
        rw [hparents', List.getElem?_append_left (by omega), List.getElem?_append_right hi]
      obtain ⟨p, hp, hlow, hhigh⟩ := mem_row (getElem_mem hrange)
      have hparent : tree.parent i = some p := by
        rw [parent, getD_eq_getElem?_getD, hin', List.getElem?_eq_getElem hrange, hp]
        rfl
      have hplt : p < tree.parents.length := by
        have hnext := le_length_parentsOf ((before ++ row (before.length + w * h) w h
          ((w + 1) >>> 1)).length + ((w + 1) >>> 1) * ((h + 1) >>> 1)) ((w + 1) >>> 1)
          ((h + 1) >>> 1) ls
        have htotal := congrArg List.length hparents'
        rw [length_append, hlen] at htotal
        rw [hlen] at hnext
        omega
      refine ⟨?_, ?_⟩
      · intro q hq
        rw [hparent] at hq
        obtain rfl := Option.some.inj hq
        exact ⟨by omega, hlow, hplt⟩
      · intro fuel hfuel
        rw [length_cons] at hfuel
        obtain ⟨fuel, rfl⟩ : ∃ f, fuel = f + 1 := ⟨fuel - 1, by omega⟩
        rw [climb, hparent]
        exact .up hparent ((ih' hlow hplt).2 fuel (by omega))
    · obtain ⟨hup, hpath⟩ := ih' hout hlt
      refine ⟨?_, ?_⟩
      · intro p hp
        obtain ⟨hip, hbase, hplt⟩ := hup p hp
        exact ⟨hip, by omega, hplt⟩
      · intro fuel hfuel
        rw [length_cons] at hfuel
        exact hpath fuel (by omega)

end Build

/-- **A tree of at most `2 ^ 13` by `2 ^ 13` leaves can be climbed to its root.** -/
theorem shaped_build {w h : Nat} (hw : w ≤ 2 ^ 13) (hh : h ≤ 2 ^ 13) (bits : Nat) :
    (build bits w h).Shaped (w * h) := by
  have hlevels : ∃ ls, levels 16 w h = (w, h) :: ls := ⟨_, rfl⟩
  obtain ⟨ls, hls⟩ := hlevels
  have hchain := hls ▸ isChain_levels 16 w h
  have hcount : ls.length ≤ 13 := by
    have hle := length_levels_le 16 hw hh
    rw [hls, length_cons] at hle
    omega
  have hparents : (build bits w h).parents =
      [] ++ parentsOf (([] : List (Option Nat)).length + w * h) ((w, h) :: ls) := by
    rw [nil_append, length_nil, Nat.zero_add, ← hls]
    rfl
  have hlen : (build bits w h).nodes.length = (build bits w h).parents.length := by
    simp [build]
  have hleaves : w * h ≤ (build bits w h).parents.length := by
    rw [hparents]
    simpa using le_length_parentsOf _ w h ls
  refine ⟨hlen, hlen ▸ hleaves, ?_, ?_⟩
  · intro i p hp
    rw [hlen]
    rcases Nat.lt_or_ge i (build bits w h).parents.length with hi | hi
    · obtain ⟨hip, hbase, hplt⟩ := (shape_parentsOf hchain hparents (Nat.zero_le i) hi).1 p hp
      rw [length_nil, Nat.zero_add] at hbase
      exact ⟨hip, hbase, hplt⟩
    · rw [parent, getD_eq_getElem?_getD, List.getElem?_eq_none hi] at hp
      exact nomatch hp
  · intro i hi
    exact (shape_parentsOf hchain hparents (Nat.zero_le i) (by omega)).2 16 (by omega)

end TagTree

end GrokCodec.T2
