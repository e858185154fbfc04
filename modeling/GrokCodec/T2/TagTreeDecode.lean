import GrokCodec.T2.TagTree

/-!
Tag trees on the side of the decompressor, and that it stays in step with the compressor. A node
of the compressor's tree holds its value from the start, a node of the decompressor's tree gets it
with the bit that ends its code; the lower bounds of both are the same at all times.
-/

namespace GrokCodec.T2

open List Function

namespace TagTree

/-- What is heard about a node whose value is at least `low`: the new bound, the value, and the
bits that are left. -/
def hear (threshold value : Nat) : Nat → Nat → List Bool → Option (Nat × Nat × List Bool)
  | 0, low, bits => some (low, value, bits)
  | fuel + 1, low, bits =>
    if low < threshold ∧ low < value then
      match bits with
      | [] => none
      | true :: bits => some (low, low, bits)
      | false :: bits => hear threshold value fuel (low + 1) bits
    else some (low, value, bits)

def hearNode (threshold low : Nat) (n : TagNode) (bits : List Bool) :
    Option (TagNode × List Bool) := do
  let (low, value, bits) ← hear threshold n.value threshold (max n.low low) bits
  return ({ n with low, value }, bits)

/-- The nodes of a path, from the root on. -/
def hearPath (threshold : Nat) : List Nat → Nat → TagTree → List Bool →
    Option (TagTree × List Bool)
  | [], _, tree, bits => some (tree, bits)
  | i :: rest, low, tree, bits => do
    let (n, bits) ← hearNode threshold low (tree.node i) bits
    hearPath threshold rest n.low { tree with nodes := tree.nodes.set i n } bits

end TagTree

/-- The tree of a decompressor with the values of leaves it has already found. -/
structure TagTreeDecoder where
  tree : TagTree
  leafCache : List Nat
  deriving DecidableEq

namespace TagTreeDecoder

def build (bits leavesWidth leavesHeight : Nat) : TagTreeDecoder :=
  ⟨TagTree.build bits leavesWidth leavesHeight,
    List.replicate (leavesWidth * leavesHeight) (2 ^ bits - 1)⟩

def cached (d : TagTreeDecoder) (leafno : Nat) : Nat :=
  d.leafCache.getD leafno d.tree.uninitializedValue

/-- The value of a leaf, the decoder after it, and the bits that are left. -/
def decode (d : TagTreeDecoder) (leafno threshold : Nat) (bits : List Bool) :
    Option (Nat × TagTreeDecoder × List Bool) :=
  if d.cached leafno < threshold then some (d.cached leafno, d, bits)
  else do
    let (tree, bits) ← TagTree.hearPath threshold (d.tree.pathUp leafno).reverse 0 d.tree bits
    let value := (tree.node leafno).value
    let leafCache := if value < threshold then d.leafCache.set leafno value else d.leafCache
    return (value, ⟨tree, leafCache⟩, bits)

end TagTreeDecoder

namespace TagTree

/-- What holds of the nodes of a compressor's tree. -/
structure Sound (tree : TagTree) : Prop where
  heap : tree.Heap
  low_le : ∀ i, (tree.node i).low ≤ (tree.node i).value
  known_eq : ∀ i, (tree.node i).known = true → (tree.node i).low = (tree.node i).value
  value_le : ∀ i, (tree.node i).value ≤ tree.uninitializedValue

/-- The node of the decompressor that mirrors a node of the compressor. -/
def Mirror (uninitializedValue : Nat) (n m : TagNode) : Prop :=
  m.low = n.low ∧ m.value = if n.known then n.value else uninitializedValue

structure Mirrors (tree other : TagTree) : Prop where
  parents : other.parents = tree.parents
  length : other.nodes.length = tree.nodes.length
  uninitializedValue : other.uninitializedValue = tree.uninitializedValue
  node : ∀ i, Mirror tree.uninitializedValue (tree.node i) (other.node i)

/-- The bound and the knowledge after a node was told. -/
theorem tell_spec {value threshold : Nat} (known : Bool) {fuel low : Nat}
    (hfuel : threshold ≤ fuel + low) (hlow : low ≤ value) :
    (tell value threshold known fuel low).2 =
      (max low (min value threshold), known || decide (value < threshold)) := by
  induction fuel generalizing low with
  | zero =>
    have hdone : ¬ value < threshold := by omega
    simp only [tell, hdone, decide_false, Bool.or_false, Prod.mk.injEq, and_true]
    omega
  | succ fuel ih =>
    rw [tell]
    by_cases hlt : low < threshold
    · rw [if_pos hlt]
      by_cases hge : low ≥ value
      · have hknown : value < threshold := by omega
        simp only [if_pos hge, hknown, decide_true, Bool.or_true, Prod.mk.injEq, and_true]
        omega
      · rw [if_neg hge]
        show (tell value threshold known fuel (low + 1)).2 = _
        rw [ih (by omega) (by omega)]
        simp only [Prod.mk.injEq, and_true]
        omega
    · have hdone : ¬ value < threshold := by omega
      simp only [if_neg hlt, hdone, decide_false, Bool.or_false, Prod.mk.injEq, and_true]
      omega

/-- **What is told about a node is heard.** -/
theorem hear_tell {value threshold uninitializedValue : Nat} (known : Bool) {fuel low : Nat}
    (hfuel : threshold ≤ fuel + low) (hlow : low ≤ value) (hknown : known = true → low = value)
    (hthreshold : threshold ≤ uninitializedValue) (more : List Bool) :
    let told := tell value threshold known fuel low
    hear threshold (if known then value else uninitializedValue) fuel low (told.1 ++ more) =
      some (told.2.1, if told.2.2 then value else uninitializedValue, more) := by
  induction fuel generalizing low with
  | zero => rfl
  | succ fuel ih =>
    simp only [tell, hear]
    by_cases hlt : low < threshold
    · rw [if_pos hlt]
      by_cases hge : low ≥ value
      · obtain rfl : low = value := by omega
        cases known with
        | true => simp
        | false => simp [hlt, Nat.lt_of_lt_of_le hlt hthreshold]
      · obtain rfl : known = false := by
          cases known with
          | true => exact absurd (hknown rfl) (by omega)
          | false => rfl
        have hnext := ih (show threshold ≤ fuel + (low + 1) by omega) (by omega) (fun h => nomatch h)
        have hboth : low < threshold ∧ low < uninitializedValue :=
          ⟨hlt, Nat.lt_of_lt_of_le hlt hthreshold⟩
        simp only [if_neg hge, Bool.false_eq_true, if_false, if_pos hboth, cons_append]
        simpa using hnext
    · simp [hlt]

section Nodes

variable {threshold low : Nat} {n m : TagNode}

theorem tellNode_snd (hn : n.low ≤ n.value) (hlow : low ≤ n.value) :
    (tellNode threshold low n).2 =
      { n with low := max (max n.low low) (min n.value threshold)
               known := n.known || decide (n.value < threshold) } := by
  have hspec := tell_spec n.known (show threshold ≤ threshold + max n.low low by omega)
    (Nat.max_le.mpr ⟨hn, hlow⟩)
  rw [tellNode]
  generalize tell n.value threshold n.known threshold (max n.low low) = told at hspec
  obtain ⟨bits, low', known'⟩ := told
  obtain ⟨rfl, rfl⟩ := Prod.mk.inj hspec
  rfl

theorem hearNode_tellNode {uninitializedValue : Nat} (hmirror : Mirror uninitializedValue n m)
    (hn : n.low ≤ n.value) (hlow : low ≤ n.value) (hknown : n.known = true → n.low = n.value)
    (hthreshold : threshold ≤ uninitializedValue) (more : List Bool) :
    ∃ m', hearNode threshold low m ((tellNode threshold low n).1 ++ more) = some (m', more) ∧
      Mirror uninitializedValue (tellNode threshold low n).2 m' := by
  obtain ⟨hmlow, hmvalue⟩ := hmirror
  have hheard := hear_tell n.known
    (show threshold ≤ threshold + max n.low low by omega) (Nat.max_le.mpr ⟨hn, hlow⟩)
    (fun h => by have := hknown h; omega) hthreshold more
  rw [hearNode, tellNode, hmlow, hmvalue]
  generalize tell n.value threshold n.known threshold (max n.low low) = told at hheard
  obtain ⟨bits, low', known'⟩ := told
  rw [hheard]
  exact ⟨{ m with low := low', value := if known' then n.value else uninitializedValue }, rfl,
    rfl, rfl⟩

end Nodes

/-- A node is replaced. -/
def replace (tree : TagTree) (i : Nat) (n : TagNode) : TagTree :=
  { tree with nodes := tree.nodes.set i n }

theorem node_replace {tree : TagTree} {i : Nat} (hi : i < tree.nodes.length) (n : TagNode)
    (j : Nat) : (tree.replace i n).node j = if j = i then n else tree.node j := by
  simp only [node, replace, getD_eq_getElem?_getD, List.getElem?_set]
  by_cases hj : j = i
  · subst hj
    simp [hi]
  · simp [hj, Ne.symm hj]

/-- The tree after node `i` was told. -/
def told (tree : TagTree) (threshold low i : Nat) : TagTree :=
  tree.replace i (tellNode threshold low (tree.node i)).2

/-- More is known of the same values. -/
structure Extends (tree tree' : TagTree) : Prop where
  parents : tree'.parents = tree.parents
  length : tree'.nodes.length = tree.nodes.length
  uninitializedValue : tree'.uninitializedValue = tree.uninitializedValue
  value : ∀ j, (tree'.node j).value = (tree.node j).value
  known : ∀ j, (tree.node j).known = true → (tree'.node j).known = true

theorem Extends.refl (tree : TagTree) : tree.Extends tree :=
  ⟨rfl, rfl, rfl, fun _ => rfl, fun _ h => h⟩

theorem Extends.trans {a b c : TagTree} (hab : a.Extends b) (hbc : b.Extends c) : a.Extends c :=
  ⟨hbc.parents.trans hab.parents, hbc.length.trans hab.length,
    hbc.uninitializedValue.trans hab.uninitializedValue,
    fun j => (hbc.value j).trans (hab.value j), fun j h => hbc.known j (hab.known j h)⟩

section Path

variable {tree other : TagTree} {threshold low i : Nat}

theorem extends_told (hs : tree.Sound) (hi : i < tree.nodes.length)
    (hlow : low ≤ (tree.node i).value) : tree.Extends (tree.told threshold low i) := by
  have hnode := node_replace hi (tellNode threshold low (tree.node i)).2
  rw [told]
  rw [tellNode_snd (hs.low_le i) hlow] at hnode ⊢
  refine ⟨rfl, length_set, rfl, ?_, ?_⟩
  · intro j
    rw [hnode]
    split
    next hj => rw [hj]
    next => rfl
  · intro j hj
    rw [hnode]
    split
    next hji =>
      subst hji
      show (_ || _) = true
      rw [hj, Bool.true_or]
    next => exact hj

theorem sound_told (hs : tree.Sound) (hi : i < tree.nodes.length)
    (hlow : low ≤ (tree.node i).value) : (tree.told threshold low i).Sound := by
  have hext : tree.Extends (tree.told threshold low i) := extends_told hs hi hlow
  have hnode := node_replace hi (tellNode threshold low (tree.node i)).2
  have hlow_le := hs.low_le i
  rw [told] at hext ⊢
  rw [tellNode_snd hlow_le hlow] at hnode hext ⊢
  refine ⟨?_, ?_, ?_, ?_⟩
  · intro j p hp
    rw [hext.value, hext.value]
    exact hs.heap j p hp
  · intro j
    rw [hnode]
    split
    · show max (max _ _) (min _ _) ≤ (tree.node i).value
      omega
    · exact hs.low_le j
  · intro j
    rw [hnode]
    split
    · intro hknown
      show max (max _ _) (min _ _) = (tree.node i).value
      rcases (Bool.or_eq_true _ _).mp hknown with hknown | hknown
      · have heq := hs.known_eq i hknown
        omega
      · have hlt := of_decide_eq_true hknown
        omega
    · exact hs.known_eq j
  · intro j
    rw [hext.value]
    exact hs.value_le j

theorem mirrors_hearNode (hs : tree.Sound) (hm : tree.Mirrors other) (hi : i < tree.nodes.length)
    (hlow : low ≤ (tree.node i).value) (hthreshold : threshold ≤ tree.uninitializedValue)
    (more : List Bool) :
    ∃ m, hearNode threshold low (other.node i)
        ((tellNode threshold low (tree.node i)).1 ++ more) = some (m, more) ∧
      m.low = (tellNode threshold low (tree.node i)).2.low ∧
      (tree.told threshold low i).Mirrors (other.replace i m) := by
  obtain ⟨m, hheard, hmirror⟩ :=
    hearNode_tellNode (hm.node i) (hs.low_le i) hlow (hs.known_eq i) hthreshold more
  refine ⟨m, hheard, hmirror.1, hm.parents, ?_, hm.uninitializedValue, ?_⟩
  · simp [told, replace, hm.length]
  · intro j
    rw [told, node_replace hi, node_replace (hm.length ▸ hi)]
    split
    · exact hmirror
    · exact hm.node j

/-- A path on which values do not fall, whose first node is at least `low`. -/
structure Descent (tree : TagTree) (low : Nat) (path : List Nat) : Prop where
  rises : path.IsChain fun i j => (tree.node i).value ≤ (tree.node j).value
  start : ∀ i ∈ path.head?, low ≤ (tree.node i).value
  range : ∀ i ∈ path, i < tree.nodes.length

theorem Descent.tail {rest : List Nat} (h : tree.Descent low (i :: rest)) (hs : tree.Sound) :
    (tree.told threshold low i).Descent (tellNode threshold low (tree.node i)).2.low rest := by
  have hi := h.range i mem_cons_self
  have hlow := h.start i rfl
  have hext : tree.Extends (tree.told threshold low i) := extends_told hs hi hlow
  have hsound : (tree.told threshold low i).Sound := sound_told hs hi hlow
  refine ⟨?_, ?_, ?_⟩
  · refine List.IsChain.imp (fun a b hab => ?_) h.rises.of_cons
    rwa [hext.value, hext.value]
  · intro j hj
    cases rest with
    | nil => exact nomatch hj
    | cons k rest =>
      obtain rfl : k = j := Option.some.inj hj
      have hle := hsound.low_le i
      rw [hext.value, told, node_replace hi, if_pos rfl] at hle
      rw [hext.value]
      exact hle.trans (isChain_cons_cons.mp h.rises).1
  · intro j hj
    rw [hext.length]
    exact h.range j (mem_cons_of_mem _ hj)

theorem tellNode_known {n : TagNode} (hknown : n.known = true) (heq : n.low = n.value)
    (hlow : low ≤ n.value) : tellNode threshold low n = ([], n) := by
  have htell : ∀ fuel, tell n.value threshold true fuel n.value = ([], n.value, true) := by
    intro fuel
    cases fuel with
    | zero => rfl
    | succ fuel => simp [tell]
  have hmax : max n.low low = n.value := by omega
  rw [tellNode, hmax, hknown, htell]
  cases n
  simp_all

theorem tellPath_cons (rest : List Nat) :
    tellPath threshold (i :: rest) low tree =
      let n := tellNode threshold low (tree.node i)
      let more := tellPath threshold rest n.2.low (tree.told threshold low i)
      (n.1 ++ more.1, more.2) := rfl

theorem tellPath_known {path : List Nat} (hs : tree.Sound) (hd : tree.Descent low path)
    (hknown : ∀ i ∈ path, (tree.node i).known = true) :
    tellPath threshold path low tree = ([], tree) := by
  induction path generalizing low with
  | nil => rfl
  | cons i rest ih =>
    have hi := hd.range i mem_cons_self
    have hnode : tellNode threshold low (tree.node i) = ([], tree.node i) :=
      tellNode_known (hknown i mem_cons_self) (hs.known_eq i (hknown i mem_cons_self))
        (hd.start i rfl)
    have htold : tree.told threshold low i = tree := by
      rw [told, hnode, replace, node, getD_eq_getElem?_getD, List.getElem?_eq_getElem hi]
      simp
    have hd' : tree.Descent (tree.node i).low rest := by
      have htail : (tree.told threshold low i).Descent _ rest := hd.tail hs
      rwa [hnode, htold] at htail
    rw [tellPath_cons, htold, hnode]
    simp only [nil_append]
    rw [ih hd' fun j hj => hknown j (mem_cons_of_mem _ hj)]

/-- **What is told along a path is heard.** -/
theorem hearPath_tellPath {path : List Nat} (hs : tree.Sound) (hm : tree.Mirrors other)
    (hd : tree.Descent low path) (hthreshold : threshold ≤ tree.uninitializedValue)
    (more : List Bool) :
    let told := tellPath threshold path low tree
    told.2.Sound ∧ tree.Extends told.2 ∧
      (∀ j ∈ path, (tree.node j).value < threshold → (told.2.node j).known = true) ∧
      ∃ other', hearPath threshold path low other (told.1 ++ more) = some (other', more) ∧
        told.2.Mirrors other' := by
  induction path generalizing tree other low with
  | nil => exact ⟨hs, .refl tree, (fun _ h => nomatch h), other, rfl, hm⟩
  | cons i rest ih =>
    have hi := hd.range i mem_cons_self
    have hlow := hd.start i rfl
    have hext : tree.Extends (tree.told threshold low i) := extends_told hs hi hlow
    obtain ⟨m, hheard, hmlow, hm'⟩ :=
      mirrors_hearNode hs hm hi hlow hthreshold
        ((tellPath threshold rest (tellNode threshold low (tree.node i)).2.low
          (tree.told threshold low i)).1 ++ more)
    obtain ⟨hs'', hext'', hknown, other', hrest, hm''⟩ :=
      ih (sound_told hs hi hlow) hm' (hd.tail hs) (hext.uninitializedValue ▸ hthreshold)
    refine ⟨hs'', hext.trans hext'', ?_, other', ?_, hm''⟩
    · intro j hj hlt
      rcases mem_cons.mp hj with rfl | hj
      · apply hext''.known
        rw [told, node_replace hi, if_pos rfl, tellNode_snd (hs.low_le j) hlow]
        show (_ || _) = true
        rw [decide_eq_true hlt, Bool.or_true]
      · exact hknown j hj (by rwa [hext.value])
    · rw [tellPath_cons, append_assoc, hearPath, hheard]
      show hearPath threshold rest m.low (other.replace i m) _ = _
      rw [hmlow]
      exact hrest

end Path

end TagTree

/-- The calls on a tag tree while packets are written. The decompressor makes only the second. -/
inductive TagCall where
  | set (leafno value : Nat)
  | code (leafno threshold : Nat)
  deriving DecidableEq

namespace TagCall

def encodeAll : List TagCall → TagTree → List Bool
  | [], _ => []
  | .set leafno value :: calls, tree => encodeAll calls (tree.set leafno value)
  | .code leafno threshold :: calls, tree =>
    let (bits, tree) := tree.encode leafno threshold
    bits ++ encodeAll calls tree

/-- The values that the decompressor reports, and the bits that are left. -/
def decodeAll : List TagCall → TagTreeDecoder → List Bool → Option (List Nat × List Bool)
  | [], _, bits => some ([], bits)
  | .set _ _ :: calls, d, bits => decodeAll calls d bits
  | .code leafno threshold :: calls, d, bits => do
    let (value, d, bits) ← d.decode leafno threshold bits
    let (values, bits) ← decodeAll calls d bits
    return (value :: values, bits)

/-- No value is set below a bound that was already told, and all numbers are in range. -/
def Admissible (leaves : Nat) : List TagCall → TagTree → Prop
  | [], _ => True
  | .set leafno value :: calls, tree =>
    leafno < leaves ∧ value ≤ tree.uninitializedValue ∧
      (∀ i ∈ tree.pathUp leafno, (tree.node i).low ≤ value) ∧
      Admissible leaves calls (tree.set leafno value)
  | .code leafno threshold :: calls, tree =>
    leafno < leaves ∧ threshold ≤ tree.uninitializedValue ∧
      Admissible leaves calls (tree.encode leafno threshold).2

/-- Threshold and true value of each coded leaf: the smallest value that was set before. -/
def truths : List TagCall → (Nat → Nat) → List (Nat × Nat)
  | [], _ => []
  | .set leafno value :: calls, assigned =>
    truths calls (update assigned leafno (min (assigned leafno) value))
  | .code leafno threshold :: calls, assigned =>
    (threshold, assigned leafno) :: truths calls assigned

/-- A value below the threshold is reported, and otherwise a value that is not below it. -/
def Reports (reported : Nat) (truth : Nat × Nat) : Prop :=
  if truth.2 < truth.1 then reported = truth.2 else truth.1 ≤ reported

end TagCall

/-- Compressor and decompressor between two calls. -/
structure TagSync (leaves : Nat) (assigned : Nat → Nat) (tree : TagTree) (d : TagTreeDecoder) :
    Prop where
  shaped : tree.Shaped leaves
  sound : tree.Sound
  mirrors : tree.Mirrors d.tree
  leafCache : d.leafCache.length = leaves
  /-- The path of a leaf in the cache is known. -/
  cached : ∀ leafno < leaves, d.cached leafno = tree.uninitializedValue ∨
    d.cached leafno = (tree.node leafno).value ∧
      ∀ i ∈ tree.pathUp leafno, (tree.node i).known = true
  assigned : ∀ leafno < leaves, (tree.node leafno).value = assigned leafno

namespace TagSync

variable {leaves : Nat} {assigned : Nat → Nat} {tree : TagTree} {d : TagTreeDecoder}
  {leafno threshold value : Nat}

variable (h : TagSync leaves assigned tree d)

include h

/-- A value that is not below the bounds changes no node that is known. -/
theorem set (hleaf : leafno < leaves) (hlow : ∀ i ∈ tree.pathUp leafno, (tree.node i).low ≤ value) :
    TagSync leaves (update assigned leafno (min (assigned leafno) value))
      (tree.set leafno value) d := by
  have hnode := TagTree.node_set h.shaped h.sound.heap hleaf value
  have hparents : (tree.set leafno value).parents = tree.parents := TagTree.parents_lower _ _ _
  have hlen : (tree.set leafno value).nodes.length = tree.nodes.length :=
    TagTree.length_lower _ _ _
  have huninit : (tree.set leafno value).uninitializedValue = tree.uninitializedValue :=
    TagTree.uninitializedValue_lower _ _ _
  have hknown (j : Nat) : ((tree.set leafno value).node j).known = (tree.node j).known := by
    rw [hnode]
    split <;> rfl
  have hsame (j : Nat) (hj : (tree.node j).known = true) :
      ((tree.set leafno value).node j).value = (tree.node j).value := by
    rw [hnode]
    split
    next hmem =>
      have heq := h.sound.known_eq j hj
      have hle := hlow j hmem
      show min _ _ = _
      omega
    next => rfl
  have hlowsame (j : Nat) : ((tree.set leafno value).node j).low = (tree.node j).low := by
    rw [hnode]
    split <;> rfl
  have hpath := h.shaped.path leafno hleaf
  refine ⟨h.shaped.congr hparents hlen, ⟨?_, ?_, ?_, ?_⟩, ⟨?_, ?_, ?_, ?_⟩, h.leafCache, ?_, ?_⟩
  · exact TagTree.heap_set h.shaped h.sound.heap hleaf value
  · intro j
    rw [hlowsame, hnode]
    split
    next hmem => exact Nat.le_min.mpr ⟨h.sound.low_le j, hlow j hmem⟩
    next => exact h.sound.low_le j
  · intro j hj
    rw [hknown] at hj
    rw [hlowsame, hsame j hj]
    exact h.sound.known_eq j hj
  · intro j
    rw [huninit, hnode]
    split
    · exact (Nat.min_le_left _ _).trans (h.sound.value_le j)
    · exact h.sound.value_le j
  · rw [hparents, h.mirrors.parents]
  · rw [hlen, h.mirrors.length]
  · rw [huninit, h.mirrors.uninitializedValue]
  · intro j
    obtain ⟨hmlow, hmvalue⟩ := h.mirrors.node j
    refine ⟨by rw [hlowsame, hmlow], ?_⟩
    rw [hmvalue, hknown, huninit]
    split
    next hj => rw [hsame j hj]
    next => rfl
  · intro leaf hlt
    rw [huninit]
    refine (h.cached leaf hlt).imp_right fun ⟨hcached, hall⟩ => ⟨?_, ?_⟩
    · obtain ⟨rest, hrest⟩ := (h.shaped.path leaf hlt).head
      rw [hcached, hsame leaf (hall leaf (by rw [hrest]; exact mem_cons_self))]
    · intro i hi
      rw [TagTree.pathUp, TagTree.climb_congr hparents] at hi
      rw [hknown]
      exact hall i hi
  · intro leaf hlt
    rw [hnode]
    by_cases heq : leaf = leafno
    · subst heq
      obtain ⟨rest, hrest⟩ := hpath.head
      rw [if_pos (by rw [hrest]; exact mem_cons_self), update_self,
        ← h.assigned leaf hlt]
    · have hout : leaf ∉ tree.pathUp leafno := by
        intro hmem
        rcases hpath.above h.shaped hmem with rfl | habove
        · exact heq rfl
        · omega
      rw [if_neg hout, update_of_ne heq]
      exact h.assigned leaf hlt

theorem descent (hleaf : leafno < leaves) : tree.Descent 0 (tree.pathUp leafno).reverse := by
  have hpath := h.shaped.path leafno hleaf
  refine ⟨?_, fun _ _ => Nat.zero_le _, ?_⟩
  · exact isChain_reverse.mpr (hpath.isChain h.sound.heap)
  · intro i hi
    rcases hpath.above h.shaped (mem_reverse.mp hi) with rfl | habove
    · exact Nat.lt_of_lt_of_le hleaf h.shaped.leaves_le
    · exact habove.2.2

theorem path_le (hleaf : leafno < leaves) :
    ∀ i ∈ tree.pathUp leafno, (tree.node i).value ≤ (tree.node leafno).value := by
  have hpath := h.shaped.path leafno hleaf
  have hchain := hpath.isChain h.sound.heap
  obtain ⟨rest, hrest⟩ := hpath.head
  rw [hrest] at hchain ⊢
  exact TagTree.le_head_of_isChain hchain

/-- A leaf that the decompressor has found is coded with no bit. -/
theorem code_cached (hleaf : leafno < leaves)
    (hthreshold : threshold ≤ tree.uninitializedValue) (hhit : d.cached leafno < threshold) :
    tree.encode leafno threshold = ([], tree) ∧ d.cached leafno = assigned leafno := by
  rcases h.cached leafno hleaf with hnone | ⟨hvalue, hknown⟩
  · omega
  · refine ⟨?_, hvalue.trans (h.assigned leafno hleaf)⟩
    apply TagTree.tellPath_known h.sound (h.descent hleaf)
    intro i hi
    exact hknown i (mem_reverse.mp hi)

theorem cached_of_extends {tree' other : TagTree}
    (hext : tree.Extends tree') (hother : other.uninitializedValue = tree'.uninitializedValue)
    (hleaf : leafno < leaves) :
    (TagTreeDecoder.mk other d.leafCache).cached leafno = tree'.uninitializedValue ∨
      (TagTreeDecoder.mk other d.leafCache).cached leafno = (tree'.node leafno).value ∧
        ∀ i ∈ tree'.pathUp leafno, (tree'.node i).known = true := by
  have hsame : (TagTreeDecoder.mk other d.leafCache).cached leafno = d.cached leafno := by
    rw [TagTreeDecoder.cached, TagTreeDecoder.cached, h.mirrors.uninitializedValue, hother,
      hext.uninitializedValue]
  rw [hsame, hext.uninitializedValue, hext.value]
  refine (h.cached leafno hleaf).imp_right fun ⟨hvalue, hall⟩ => ⟨hvalue, ?_⟩
  intro i hi
  rw [TagTree.pathUp, TagTree.climb_congr hext.parents] at hi
  exact hext.known i (hall i hi)

/-- A call of `encode` and the call of `decode` that answers it. -/
theorem code (hleaf : leafno < leaves)
    (hthreshold : threshold ≤ tree.uninitializedValue) (more : List Bool) :
    ∃ reported d', d.decode leafno threshold ((tree.encode leafno threshold).1 ++ more) =
        some (reported, d', more) ∧
      TagCall.Reports reported (threshold, assigned leafno) ∧
      TagSync leaves assigned (tree.encode leafno threshold).2 d' := by
  by_cases hhit : d.cached leafno < threshold
  · obtain ⟨hencode, hvalue⟩ := h.code_cached hleaf hthreshold hhit
    refine ⟨d.cached leafno, d, ?_, ?_, ?_⟩
    · rw [TagTreeDecoder.decode, if_pos hhit, hencode, nil_append]
    · rw [TagCall.Reports, if_pos (hvalue ▸ hhit)]
      exact hvalue
    · rw [hencode]
      exact h
  · obtain ⟨hs, hext, hknown, other, hheard, hm⟩ :=
      TagTree.hearPath_tellPath h.sound h.mirrors (h.descent hleaf) hthreshold more
    let told := TagTree.tellPath threshold (tree.pathUp leafno).reverse 0 tree
    have hmem : leafno ∈ (tree.pathUp leafno).reverse := by
      obtain ⟨rest, hrest⟩ := (h.shaped.path leafno hleaf).head
      rw [mem_reverse, hrest]
      exact mem_cons_self
    have hvalue := (hext.value leafno).trans (h.assigned leafno hleaf)
    have hreported : TagCall.Reports (other.node leafno).value (threshold, assigned leafno) := by
      rw [TagCall.Reports, (hm.node leafno).2, hext.uninitializedValue]
      show if assigned leafno < threshold then _ = assigned leafno else threshold ≤ _
      split
      next hlt =>
        rw [if_pos (hknown leafno hmem (by rwa [h.assigned leafno hleaf]))]
        exact hvalue
      next hge =>
        split
        · exact Nat.not_lt.mp (hvalue ▸ hge)
        · exact hthreshold
    have hdecode : d.decode leafno threshold (told.1 ++ more) =
        some ((other.node leafno).value,
          ⟨other, if (other.node leafno).value < threshold then
            d.leafCache.set leafno (other.node leafno).value else d.leafCache⟩, more) := by
      have hpath : d.tree.pathUp leafno = tree.pathUp leafno :=
        TagTree.climb_congr h.mirrors.parents _ _
      rw [TagTreeDecoder.decode, if_neg hhit, hpath, hheard]
      rfl
    refine ⟨_, _, hdecode, hreported, h.shaped.congr hext.parents hext.length, hs, hm, ?_, ?_, ?_⟩
    · show (if _ then _ else _ : List Nat).length = leaves
      split
      · rw [length_set, h.leafCache]
      · exact h.leafCache
    · intro leaf hlt
      have hpath : (tree.encode leafno threshold).2.pathUp leaf = tree.pathUp leaf :=
        TagTree.climb_congr hext.parents _ _
      have hold := h.cached_of_extends hext hm.uninitializedValue hlt
      by_cases hfound : (other.node leafno).value < threshold
      · rw [if_pos hfound]
        by_cases heq : leaf = leafno
        · subst heq
          have hlt' : assigned leaf < threshold := by
            by_contra hge
            rw [TagCall.Reports, if_neg hge] at hreported
            exact Nat.not_le_of_lt hfound hreported
          rw [TagCall.Reports, if_pos hlt'] at hreported
          refine .inr ⟨?_, ?_⟩
          · show (d.leafCache.set leaf _).getD leaf _ = _
            rw [getD_eq_getElem?_getD, List.getElem?_set_self (h.leafCache.symm ▸ hlt)]
            exact hreported.trans hvalue.symm
          · intro i hi
            rw [hpath] at hi
            apply hknown i (mem_reverse.mpr hi)
            have hle := h.path_le hleaf i hi
            rw [h.assigned leaf hlt] at hle
            omega
        · have hother : (TagTreeDecoder.mk other
              (d.leafCache.set leafno (other.node leafno).value)).cached leaf =
              (TagTreeDecoder.mk other d.leafCache).cached leaf := by
            simp [TagTreeDecoder.cached, List.getElem?_set_ne (Ne.symm heq)]
          rw [hother]
          exact hold
      · rw [if_neg hfound]
        exact hold
    · intro leaf hlt
      exact (hext.value leaf).trans (h.assigned leaf hlt)

omit h

theorem build {w h : Nat} (hw : w ≤ 2 ^ 13) (hh : h ≤ 2 ^ 13) (bits : Nat) :
    TagSync (w * h) (fun _ => 2 ^ bits - 1) (TagTree.build bits w h)
      (TagTreeDecoder.build bits w h) := by
  have hnode (i : Nat) : (TagTree.build bits w h).node i = ⟨2 ^ bits - 1, 0, false⟩ := by
    rw [TagTree.node, getD_eq_getElem?_getD]
    simp only [TagTree.build, List.getElem?_map]
    cases (TagTree.parentsOf (w * h) (TagTree.levels 16 w h))[i]? <;> rfl
  refine ⟨TagTree.shaped_build hw hh bits, ⟨?_, ?_, ?_, ?_⟩, ⟨rfl, rfl, rfl, ?_⟩, ?_, ?_, ?_⟩
  · intro i p _
    rw [hnode, hnode]
  · intro i
    rw [hnode]
    exact Nat.zero_le _
  · intro i hi
    rw [hnode] at hi
    cases hi
  · intro i
    rw [hnode]
    rfl
  · intro i
    show TagTree.Mirror _ _ ((TagTree.build bits w h).node i)
    rw [hnode]
    exact ⟨rfl, rfl⟩
  · exact length_replicate
  · intro leafno _
    left
    show (List.replicate _ _).getD leafno _ = _
    rw [getD_eq_getElem?_getD, List.getElem?_replicate]
    split <;> rfl
  · intro leafno _
    rw [hnode]

/-- All the calls, from two trees that agree. -/
theorem calls (h : TagSync leaves assigned tree d) {calls : List TagCall}
    (hcalls : TagCall.Admissible leaves calls tree) (more : List Bool) :
    ∃ values, TagCall.decodeAll calls d (TagCall.encodeAll calls tree ++ more) =
        some (values, more) ∧
      List.Forall₂ TagCall.Reports values (TagCall.truths calls assigned) := by
  induction calls generalizing tree d assigned with
  | nil => exact ⟨[], rfl, .nil⟩
  | cons call calls ih =>
    cases call with
    | set leafno value =>
      obtain ⟨hleaf, -, hlow, hrest⟩ := hcalls
      exact ih (h.set hleaf hlow) hrest
    | code leafno threshold =>
      obtain ⟨hleaf, hthreshold, hrest⟩ := hcalls
      obtain ⟨reported, d', hdecode, hreported, h'⟩ := h.code hleaf hthreshold
        (TagCall.encodeAll calls (tree.encode leafno threshold).2 ++ more)
      obtain ⟨values, hdecodes, hreports⟩ := ih h' hrest
      refine ⟨reported :: values, ?_, .cons hreported hreports⟩
      show TagCall.decodeAll (.code leafno threshold :: calls) d
        ((tree.encode leafno threshold).1 ++
          TagCall.encodeAll calls (tree.encode leafno threshold).2 ++ more) = _
      rw [append_assoc, TagCall.decodeAll, hdecode]
      show (TagCall.decodeAll calls d' _).bind _ = _
      rw [hdecodes]
      rfl

end TagSync

/-- **A decoder that gets the bits of a tag tree is told every value below its threshold.** It
uses up exactly these bits. -/
theorem tagTree_roundTrip (bits w h : Nat) (hw : 1 ≤ w ∧ w ≤ 2 ^ 13) (hh : 1 ≤ h ∧ h ≤ 2 ^ 13)
    (calls : List TagCall) (hcalls : TagCall.Admissible (w * h) calls (TagTree.build bits w h))
    (more : List Bool) :
    ∃ values, TagCall.decodeAll calls (TagTreeDecoder.build bits w h)
        (TagCall.encodeAll calls (TagTree.build bits w h) ++ more) = some (values, more) ∧
      List.Forall₂ TagCall.Reports values (TagCall.truths calls fun _ => 2 ^ bits - 1) :=
  (TagSync.build hw.2 hh.2 bits).calls hcalls more

/-- Two leaves side by side: the second is set after the first was coded. -/
theorem tagTree_roundTrip_two :
    let calls := [.set 0 1, .code 0 1, .set 1 3, .code 1 2, .code 0 2, .code 1 4, .code 0 3]
    TagCall.encodeAll calls (TagTree.build 8 2 1) =
        [false, true, false, true, false, true] ∧
      TagCall.truths calls (fun _ => 255) = [(1, 1), (2, 3), (2, 1), (4, 3), (3, 1)] ∧
      ∃ values, TagCall.decodeAll calls (TagTreeDecoder.build 8 2 1)
          (TagCall.encodeAll calls (TagTree.build 8 2 1) ++ []) = some (values, []) ∧
        List.Forall₂ TagCall.Reports values (TagCall.truths calls fun _ => 255) := by
  intro calls
  have hcalls : TagCall.Admissible (2 * 1) calls (TagTree.build 8 2 1) := by
    simp only [TagCall.Admissible, calls]
    decide
  exact ⟨by decide, by decide, tagTree_roundTrip 8 2 1 (by decide) (by decide) calls hcalls []⟩

end GrokCodec.T2
