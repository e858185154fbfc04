import GrokCodec.Lib.Loop
import Mathlib.Data.Multiset.AddSub
import Mathlib.Data.Int.Order.Basic

/-!
The rolling row queues of mercury's streaming synthesis. A queue is a window of rows of one parity,
held as numbers of line buffers. Two readers follow each other through it, and a row goes back to
the free list once both have passed it.
-/

namespace GrokCodec.Mercury

open Loop List

structure VliftQueue where
  yMin : Int
  yMax : Int
  entries : List Nat
  headIdx : Int
  tailIdx : Int
  sourcePos : Int
  updatePos : Int
  recyclingLim : Int
  symmetricExtension : Bool
  queueIdx : Int
  deriving DecidableEq, Repr

namespace VliftQueue

/-- `warp_up`. `none` stands for a failed assertion, here and below. -/
def warpUp (yMin yMax queueIdx : Int) (symmetricExtension : Bool) (maxSourceRequestIdx : Int) :
    Option VliftQueue :=
  if (maxSourceRequestIdx - queueIdx) % 2 ≠ 0 then none
  else
    let headIdx := yMin - 1000
    some {
      yMin, yMax, queueIdx, symmetricExtension, headIdx
      entries := []
      tailIdx := headIdx - 2
      -- the queue of finished rows has no step that reads it
      sourcePos := if queueIdx < 0 then yMax + 2 else headIdx
      updatePos := headIdx
      recyclingLim :=
        if queueIdx < 0 then yMax + 2
        else if symmetricExtension = false ∨ maxSourceRequestIdx < yMax then yMax - 1
        else 2 * yMax - maxSourceRequestIdx }

variable (q : VliftQueue)

/-- The buffer of row `idx`, if it is in the window. -/
def row? (idx : Int) : Option Nat :=
  if q.headIdx ≤ idx ∧ idx ≤ q.tailIdx then q.entries[((idx - q.headIdx) / 2).toNat]? else none

/-- `push_pick`. The free list is a stack, its top first. -/
def pushPick (idx : Int) (line : Nat) (freeList : List Nat) : Option (VliftQueue × List Nat) :=
  if (idx - q.queueIdx) % 2 ≠ 0 then none
  else if idx < q.sourcePos ∧ idx < q.updatePos then
    some ({ q with entries := [], headIdx := q.tailIdx + 2 }, q.entries.reverse ++ line :: freeList)
  else if q.entries = [] ∨ q.tailIdx < q.headIdx then
    some ({ q with headIdx := idx, entries := [line], tailIdx := idx }, freeList)
  else if idx = q.tailIdx + 2 then
    some ({ q with tailIdx := idx, entries := q.entries ++ [line] }, freeList)
  else none

def setBeatLimit (idx : Int) : VliftQueue :=
  if idx < q.updatePos then { q with updatePos := idx } else q

def probeUpdate (idx : Int) : Bool × VliftQueue :=
  (decide (q.headIdx ≤ idx ∧ idx ≤ q.tailIdx), { q with updatePos := idx })

/-- The loop of `respool_old`, from the front of the window. -/
def respoolFrom (updatePos sourcePos recyclingLim : Int) :
    Int → List Nat → List Nat → Int × List Nat × List Nat
  | headIdx, [], freeList => (headIdx, [], freeList)
  | headIdx, e :: es, freeList =>
    if headIdx < updatePos ∧ headIdx < sourcePos ∧ headIdx < recyclingLim then
      respoolFrom updatePos sourcePos recyclingLim (headIdx + 2) es (e :: freeList)
    else (headIdx, e :: es, freeList)

def respoolOld (freeList : List Nat) : VliftQueue × List Nat :=
  let r := respoolFrom q.updatePos q.sourcePos q.recyclingLim q.headIdx q.entries freeList
  ({ q with headIdx := r.1, entries := r.2.1 }, r.2.2)

/-- `tap_update`: the row's buffer, if the queue has it. -/
def tapUpdate (idx : Int) (freeList : List Nat) : Option (Option Nat × VliftQueue × List Nat) :=
  if (idx - q.queueIdx) % 2 ≠ 0 ∨ idx < q.updatePos then none
  else if idx < q.headIdx ∨ q.tailIdx < idx then
    some (none, { q with updatePos := idx }, freeList)
  else some (q.row? idx, { q with updatePos := idx + 2 }.respoolOld freeList)

/-- The boundary extension of `tap_source`. -/
def extend (k : Int) : Int :=
  repeatWhile (fun k => decide (k < q.yMin ∨ q.yMax < k))
    (fun k =>
      if k < q.yMin then
        if q.symmetricExtension then 2 * q.yMin - k else q.yMin + (q.yMin - k) % 2
      else if q.symmetricExtension then 2 * q.yMax - k else q.yMax - (q.yMax - k) % 2)
    ((k - q.yMin).natAbs + 2) k

/-- `tap_source`: the buffers of `num` rows from `idx` on, if the queue has them all. -/
def tapSource (idx : Int) (num : Nat) (freeList : List Nat) :
    Option (Option (List Nat) × VliftQueue × List Nat) :=
  if (idx - q.queueIdx) % 2 ≠ 0 ∨ idx < q.sourcePos then none
  else
    let lastIdx := idx + (num - 1 : Int) * 2
    if q.tailIdx < lastIdx ∧ lastIdx ≤ q.yMax then some (none, { q with sourcePos := idx }, freeList)
    else
      match (List.range num).mapM fun i : Nat => q.row? (q.extend (idx + 2 * i)) with
      | none => some (none, { q with sourcePos := idx }, freeList)
      | some lines => some (some lines, { q with sourcePos := idx + 2 }.respoolOld freeList)

/-- A queue into which the rows of one parity from `first` up to `next` have been pushed. Row `i`,
in buffer `l`, satisfies `P i l`; every row that one of the readers, at `source` and at `update`, can
still ask for is in the window. -/
structure Holds (q : VliftQueue) (P : Int → Nat → Prop) (first next source update : Int) :
    Prop where
  span : q.headIdx + 2 * q.entries.length = q.tailIdx + 2
  reach : q.tailIdx + 2 = next ∨ (q.entries = [] ∧ next = first ∧ q.tailIdx + 2 < first)
  content : ∀ n (hn : n < q.entries.length), P (q.headIdx + 2 * n) (q.entries.get ⟨n, hn⟩)
  kept : ∀ i, first ≤ i → i < next → (next - i) % 2 = 0 → source ≤ i ∨ update ≤ i → q.headIdx ≤ i

namespace Holds

variable {q} {P P' : Int → Nat → Prop} {first next source update source' update' i : Int}

variable (h : q.Holds P first next source update)

include h

theorem mono (hs : source ≤ source')
    (hu : update ≤ update') : q.Holds P first next source' update' :=
  { h with kept := fun i h0 h1 h2 h3 => h.kept i h0 h1 h2 (h3.imp hs.trans hu.trans) }

theorem imp (himp : ∀ i l, l ∈ q.entries → P i l → P' i l) : q.Holds P' first next source update :=
  { h with content := fun n hn => himp _ _ (get_mem _ _) (h.content n hn) }

theorem move (s u : Int) :
    Holds { q with sourcePos := s, updatePos := u } P first next source update :=
  ⟨h.span, h.reach, h.content, h.kept⟩

theorem hit (h0 : first ≤ i) (h1 : i < next)
    (hodd : (next - i) % 2 = 0) (hneed : source ≤ i ∨ update ≤ i) :
    q.headIdx ≤ i ∧ i ≤ q.tailIdx ∧ ∃ l ∈ q.entries, q.row? i = some l ∧ P i l := by
  have hhead := h.kept i h0 h1 hodd hneed
  have hspan := h.span
  have htail : q.tailIdx + 2 = next := h.reach.resolve_right fun hr => by omega
  have hle : i ≤ q.tailIdx := by omega
  have hn : ((i - q.headIdx) / 2).toNat < q.entries.length := by omega
  refine ⟨hhead, hle, q.entries.get ⟨_, hn⟩, get_mem _ _, ?_, ?_⟩
  · rw [row?, if_pos ⟨hhead, hle⟩]
    exact List.getElem?_eq_getElem hn
  · have hcontent := h.content _ hn
    rwa [show q.headIdx + 2 * (((i - q.headIdx) / 2).toNat : Int) = i by omega] at hcontent

theorem tail_lt (hi : next ≤ i) : q.tailIdx < i := by
  rcases h.reach with hr | ⟨-, hr, ht⟩ <;> omega

theorem row?_of_ge (hi : next ≤ i) : q.row? i = none :=
  if_neg fun hw => by
    have := h.tail_lt hi
    omega

end Holds

section Respool

variable {q} {freeList : List Nat}

/-- Recycling drops rows from the front, each of which both readers have passed. -/
theorem respoolFrom_spec (updatePos sourcePos recyclingLim headIdx : Int)
    (entries freeList : List Nat) :
    ∃ n ≤ entries.length, respoolFrom updatePos sourcePos recyclingLim headIdx entries freeList =
        (headIdx + 2 * n, entries.drop n, (entries.take n).reverse ++ freeList) ∧
      ∀ i, headIdx ≤ i → i < headIdx + 2 * n → (i - headIdx) % 2 = 0 →
        i < updatePos ∧ i < sourcePos := by
  induction entries generalizing headIdx freeList with
  | nil => exact ⟨0, le_rfl, by simp [respoolFrom], fun i h0 h1 => by omega⟩
  | cons e es ih =>
    rw [respoolFrom]
    split
    case isTrue hpassed =>
      obtain ⟨n, hn, heq, hrows⟩ := ih (headIdx + 2) (e :: freeList)
      refine ⟨n + 1, by simpa using hn, ?_, fun i h0 h1 h2 => ?_⟩
      · rw [heq, drop_succ_cons, take_succ_cons, reverse_cons, append_assoc]
        simp only [singleton_append, Prod.mk.injEq, and_true]
        omega
      · by_cases hfirst : i = headIdx
        · subst hfirst
          exact ⟨hpassed.1, hpassed.2.1⟩
        · exact hrows i (by omega) (by push_cast at h1; omega) (by omega)
    case isFalse => exact ⟨0, Nat.zero_le _, by simp, fun i h0 h1 => by omega⟩

theorem respoolOld_spec (q : VliftQueue) (freeList : List Nat) :
    ∃ n ≤ q.entries.length, q.respoolOld freeList =
        ({ q with headIdx := q.headIdx + 2 * n, entries := q.entries.drop n },
          (q.entries.take n).reverse ++ freeList) ∧
      ∀ i, q.headIdx ≤ i → i < q.headIdx + 2 * n → (i - q.headIdx) % 2 = 0 →
        i < q.updatePos ∧ i < q.sourcePos := by
  obtain ⟨n, hn, heq, hrows⟩ :=
    respoolFrom_spec q.updatePos q.sourcePos q.recyclingLim q.headIdx q.entries freeList
  exact ⟨n, hn, by rw [respoolOld, heq], hrows⟩

/-- What an operation does to a queue and the free list besides the rows it is about: the readers
come to `s` and `u`, and no buffer is lost or doubled. -/
structure Moved (q q' : VliftQueue) (freeList freeList' : List Nat) (s u : Int) : Prop where
  yMin : q'.yMin = q.yMin
  yMax : q'.yMax = q.yMax
  symmetricExtension : q'.symmetricExtension = q.symmetricExtension
  queueIdx : q'.queueIdx = q.queueIdx
  sourcePos : q'.sourcePos = s
  updatePos : q'.updatePos = u
  pool : (q'.entries : Multiset Nat) + (freeList' : Multiset Nat) = q.entries + freeList

theorem respoolOld_moved (q : VliftQueue) (freeList : List Nat) :
    Moved q (q.respoolOld freeList).1 freeList (q.respoolOld freeList).2 q.sourcePos q.updatePos := by
  obtain ⟨n, -, heq, -⟩ := respoolOld_spec q freeList
  rw [heq]
  refine ⟨rfl, rfl, rfl, rfl, rfl, rfl, ?_⟩
  refine Multiset.coe_eq_coe.mpr ?_
  rw [← append_assoc]
  refine List.Perm.append_right _ (perm_append_comm.trans ?_)
  exact ((reverse_perm _).append_right _).trans (by rw [take_append_drop])

theorem Holds.respoolOld {P : Int → Nat → Prop} {first next source update : Int}
    (h : q.Holds P first next source update) (hs : q.sourcePos ≤ source) (hu : q.updatePos ≤ update) :
    (q.respoolOld freeList).1.Holds P first next source update := by
  obtain ⟨n, hn, heq, hrows⟩ := respoolOld_spec q freeList
  have hspan := h.span
  rw [heq]
  refine ⟨?_, ?_, fun k hk => ?_, fun i h0 h1 h2 h3 => ?_⟩
  · simp only [length_drop]
    omega
  · rcases h.reach with hr | ⟨hnil, hr⟩
    · exact .inl hr
    · exact .inr ⟨by simp [hnil], hr⟩
  · simp only [length_drop] at hk
    have := h.content (n + k) (by omega)
    simp only [get_eq_getElem, getElem_drop] at this ⊢
    rwa [show q.headIdx + 2 * ((n + k : Nat) : Int) = q.headIdx + 2 * n + 2 * k by omega] at this
  · by_contra hlt
    have hhead := h.kept i h0 h1 h2 h3
    have htail : q.tailIdx + 2 = next := h.reach.resolve_right fun hr => by omega
    obtain ⟨hi1, hi2⟩ := hrows i hhead (by simp only at hlt; omega) (by omega)
    omega

end Respool

section Operations

variable {q} (freeList : List Nat) {P : Int → Nat → Prop} {first next source update i : Int}

theorem Moved.of_update {freeList : List Nat} {u s' u' : Int} {q' : VliftQueue}
    {freeList' : List Nat} {s : Int}
    (h : Moved { q with sourcePos := s, updatePos := u } q' freeList freeList' s' u') :
    Moved q q' freeList freeList' s' u' :=
  ⟨h.yMin, h.yMax, h.symmetricExtension, h.queueIdx, h.sourcePos, h.updatePos, h.pool⟩

variable (h : q.Holds P first next source update)

include h

theorem tapUpdate_hit (hpar : (i - q.queueIdx) % 2 = 0)
    (hpos : q.updatePos ≤ i) (hsource : q.sourcePos ≤ source) (h0 : first ≤ i) (h1 : i < next)
    (hodd : (next - i) % 2 = 0) (hneed : update ≤ i) :
    ∃ l q' freeList', q.tapUpdate i freeList = some (some l, q', freeList') ∧ l ∈ q.entries ∧ P i l ∧
      q'.Holds P first next source (i + 2) ∧ Moved q q' freeList freeList' q.sourcePos (i + 2) := by
  obtain ⟨hhead, htail, l, hl, hrow, hP⟩ := h.hit h0 h1 hodd (.inr hneed)
  let moved : VliftQueue := { q with updatePos := i + 2 }
  refine ⟨l, (moved.respoolOld freeList).1, (moved.respoolOld freeList).2, ?_, hl, hP, ?_, ?_⟩
  · rw [tapUpdate, if_neg (by omega), if_neg (by omega), hrow]
  · have hmoved : moved.Holds P first next source (i + 2) :=
      (h.mono le_rfl (by omega)).move q.sourcePos (i + 2)
    exact hmoved.respoolOld hsource le_rfl
  · exact Moved.of_update (respoolOld_moved moved freeList)

theorem tapUpdate_miss (hpar : (i - q.queueIdx) % 2 = 0) (hpos : q.updatePos ≤ i) (h1 : next ≤ i) :
    q.tapUpdate i freeList = some (none, { q with updatePos := i }, freeList) := by
  have := h.tail_lt h1
  rw [tapUpdate, if_neg (by omega), if_pos (by omega)]

theorem pushPick_keep {l : Nat}
    (hpar : (next - q.queueIdx) % 2 = 0) (hpos : q.updatePos ≤ next) (hnew : P next l) :
    ∃ q', q.pushPick next l freeList = some (q', freeList) ∧ q'.entries = q.entries ++ [l] ∧
      q'.Holds P first (next + 2) source update ∧
      Moved { q with entries := q.entries ++ [l] } q' freeList freeList q.sourcePos q.updatePos := by
  have hspan := h.span
  by_cases hnil : q.entries = []
  · have hlen : q.entries.length = 0 := by rw [hnil]; rfl
    refine ⟨{ q with headIdx := next, entries := [l], tailIdx := next }, ?_, by rw [hnil]; rfl, ?_,
      ⟨rfl, rfl, rfl, rfl, rfl, rfl, by simp [hnil]⟩⟩
    · rw [pushPick, if_neg (by omega), if_neg (by omega), if_pos (.inl hnil)]
    · refine ⟨by simp only [length_singleton]; omega, .inl rfl, fun n hn => ?_,
        fun i h0 h1 h2 h3 => ?_⟩
      · obtain rfl : n = 0 := by simpa using hn
        simpa using hnew
      · by_contra hlt
        have hhead := h.kept i h0 (by simp only at hlt; omega) (by omega) h3
        rcases h.reach with hr | hr <;> simp only at hlt <;> omega
  · have hlen := length_pos_iff.mpr hnil
    have htail : q.tailIdx + 2 = next := h.reach.resolve_right fun hr => hnil hr.1
    refine ⟨{ q with tailIdx := next, entries := q.entries ++ [l] }, ?_, rfl, ?_,
      ⟨rfl, rfl, rfl, rfl, rfl, rfl, rfl⟩⟩
    · rw [pushPick, if_neg (by omega), if_neg (by omega),
        if_neg (by simp only [hnil, false_or]; omega), if_pos htail.symm]
    · refine ⟨by simp only [length_append, length_singleton]; omega, .inl rfl,
        fun n hn => ?_, fun i h0 h1 h2 h3 => ?_⟩
      · simp only [length_append, length_singleton] at hn
        simp only [get_eq_getElem, getElem_append]
        split
        case isTrue hlt => exact h.content n hlt
        case isFalse hge =>
          obtain rfl : n = q.entries.length := by omega
          simp only [Nat.sub_self, getElem_singleton]
          rwa [show q.headIdx + 2 * (q.entries.length : Int) = next by omega]
      · by_cases hi : i < next
        · exact h.kept i h0 hi (by omega) h3
        · show q.headIdx ≤ i
          omega

omit h

/-- A row index just outside `lo … hi`, reflected at the boundary. -/
def mirror (lo hi k : Int) : Int := if k < lo then 2 * lo - k else if hi < k then 2 * hi - k else k

theorem extend_eq (hsym : q.symmetricExtension = true) (hlt : q.yMin < q.yMax) {k : Int}
    (h0 : q.yMin - 1 ≤ k) (h1 : k ≤ q.yMax + 1) : q.extend k = mirror q.yMin q.yMax k := by
  unfold extend mirror
  simp only [repeatWhile, hsym, if_true, decide_eq_true_eq]
  split_ifs <;> omega

theorem tapSource_two : q.tapSource i 2 freeList =
    if (i - q.queueIdx) % 2 ≠ 0 ∨ i < q.sourcePos then none
    else if q.tailIdx < i + 2 ∧ i + 2 ≤ q.yMax then
      some (none, { q with sourcePos := i }, freeList)
    else
      match q.row? (q.extend i), q.row? (q.extend (i + 2)) with
      | some l0, some l1 => some (some [l0, l1], { q with sourcePos := i + 2 }.respoolOld freeList)
      | _, _ => some (none, { q with sourcePos := i }, freeList) := by
  have hlast : i + ((2 : Nat) - 1 : Int) * 2 = i + 2 := by omega
  unfold tapSource
  have hmap : ((List.range 2).mapM fun n : Nat => q.row? (q.extend (i + 2 * n))) =
      match q.row? (q.extend i), q.row? (q.extend (i + 2)) with
      | some l0, some l1 => some [l0, l1]
      | _, _ => none := by
    have hfirst : i + 2 * ((0 : Nat) : Int) = i := by omega
    have hsecond : i + 2 * ((1 : Nat) : Int) = i + 2 := by omega
    rw [show List.range 2 = [0, 1] from rfl]
    simp only [mapM_cons, mapM_nil, hfirst, hsecond]
    cases q.row? (q.extend i) <;> cases q.row? (q.extend (i + 2)) <;> rfl
  rw [hmap]
  cases q.row? (q.extend i) <;> cases q.row? (q.extend (i + 2)) <;> rfl

theorem respoolOld_row? {k : Int} (h : (q.respoolOld freeList).1.headIdx ≤ k)
    (hpar : (k - q.headIdx) % 2 = 0) : (q.respoolOld freeList).1.row? k = q.row? k := by
  obtain ⟨n, -, heq, -⟩ := respoolOld_spec q freeList
  rw [heq] at h ⊢
  simp only at h
  unfold row?
  simp only
  by_cases htail : k ≤ q.tailIdx
  · rw [if_pos ⟨h, htail⟩, if_pos ⟨by omega, htail⟩, List.getElem?_drop]
    congr 1
    omega
  · rw [if_neg (fun hw => htail hw.2), if_neg (fun hw => htail hw.2)]

theorem mem_entries_of_row? {k : Int} {l : Nat} (h : q.row? k = some l) : l ∈ q.entries := by
  unfold row? at h
  split at h
  · exact mem_of_getElem? h
  · cases h

/-- A reading step gets its two rows and moves on; those the updating reader has not passed stay in
the queue. -/
theorem tapSource_hit (h : q.Holds P first next source update)
    (hsym : q.symmetricExtension = true) (hlt : q.yMin < q.yMax) (hpar : (i - q.queueIdx) % 2 = 0)
    (hnext : (next - i) % 2 = 0) (hpos : q.sourcePos ≤ i) (hsource : source ≤ i + 2)
    (hupdate : q.updatePos ≤ update) (h0 : q.yMin - 1 ≤ i) (h1 : i + 2 ≤ q.yMax + 1)
    (hrow : ∀ k ∈ [mirror q.yMin q.yMax i, mirror q.yMin q.yMax (i + 2)],
      first ≤ k ∧ k < next ∧ source ≤ k) :
    ∃ l0 l1 q' freeList', q.tapSource i 2 freeList = some (some [l0, l1], q', freeList') ∧
      (P (mirror q.yMin q.yMax i) l0 ∧ P (mirror q.yMin q.yMax (i + 2)) l1) ∧
      (update ≤ mirror q.yMin q.yMax i → l0 ∈ q'.entries) ∧
      (update ≤ mirror q.yMin q.yMax (i + 2) → l1 ∈ q'.entries) ∧
      q'.Holds P first next (i + 2) update ∧ Moved q q' freeList freeList' (i + 2) q.updatePos := by
  obtain ⟨⟨ha0, ha1, ha2⟩, ⟨hb0, hb1, hb2⟩⟩ : _ ∧ _ := by simpa using hrow
  have hmirror (k : Int) : (mirror q.yMin q.yMax k - k) % 2 = 0 := by
    unfold mirror
    split_ifs <;> omega
  have hparA := hmirror i
  have hparB := hmirror (i + 2)
  obtain ⟨hheadA, -, l0, -, hl0, hP0⟩ := h.hit ha0 ha1 (by omega) (.inl ha2)
  obtain ⟨hheadB, htailB, l1, -, hl1, hP1⟩ := h.hit hb0 hb1 (by omega) (.inl hb2)
  let moved : VliftQueue := { q with sourcePos := i + 2 }
  have hmoved := (h.mono hsource le_rfl).move (i + 2) q.updatePos
  have hafter : (moved.respoolOld freeList).1.Holds P first next (i + 2) update :=
    hmoved.respoolOld le_rfl hupdate
  have hspan := h.span
  have htail : q.tailIdx + 2 = next := h.reach.resolve_right fun hr => by omega
  have hstay {k : Int} {l : Nat} (hk0 : first ≤ k) (hk1 : k < next) (hk2 : (k - i) % 2 = 0)
      (hl : q.row? k = some l) (hu : update ≤ k) : l ∈ (moved.respoolOld freeList).1.entries := by
    obtain ⟨hh, -⟩ := hafter.hit hk0 hk1 (by omega) (.inr hu)
    refine mem_entries_of_row? ((respoolOld_row? freeList hh ?_).trans hl)
    show (k - q.headIdx) % 2 = 0
    omega
  refine ⟨l0, l1, (moved.respoolOld freeList).1, (moved.respoolOld freeList).2, ?_, ⟨hP0, hP1⟩,
    hstay ha0 ha1 hparA hl0, hstay hb0 hb1 (by omega) hl1, hafter,
    Moved.of_update (respoolOld_moved moved freeList)⟩
  have hgate : ¬ (q.tailIdx < i + 2 ∧ i + 2 ≤ q.yMax) := by
    rintro ⟨hg0, hg1⟩
    rw [mirror, if_neg (by omega), if_neg (by omega)] at htailB
    omega
  rw [tapSource_two, if_neg (by omega), if_neg hgate, extend_eq hsym hlt h0 (by omega),
    extend_eq hsym hlt (by omega) h1, hl0, hl1]

theorem tapSource_miss (h : q.Holds P first next source update)
    (hsym : q.symmetricExtension = true) (hlt : q.yMin < q.yMax) (hpar : (i - q.queueIdx) % 2 = 0)
    (hpos : q.sourcePos ≤ i) (h0 : q.yMin - 1 ≤ i) (h1 : i + 2 ≤ q.yMax + 1)
    (hrow : next ≤ mirror q.yMin q.yMax i ∨ next ≤ mirror q.yMin q.yMax (i + 2)) :
    q.tapSource i 2 freeList = some (none, { q with sourcePos := i }, freeList) := by
  rw [tapSource_two, if_neg (by omega)]
  split
  · rfl
  · rw [extend_eq hsym hlt h0 (by omega), extend_eq hsym hlt (by omega) h1]
    rcases hrow with hrow | hrow
    · rw [h.row?_of_ge hrow]
    · rw [h.row?_of_ge hrow]
      cases q.row? (mirror q.yMin q.yMax i) <;> rfl

end Operations

end VliftQueue

end GrokCodec.Mercury
