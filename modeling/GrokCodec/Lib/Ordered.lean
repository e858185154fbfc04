import Mathlib.Data.List.Sort
import Mathlib.Data.List.Range
import Mathlib.Algebra.Order.BigOperators.Group.List
import Mathlib.Tactic.Ring

/-!
Lists ordered by a key. Nested loops that run through increasing values hand out their items
in the lexicographic order of the loop variables; two lists with the same members, each
ordered by its own key, are equal exactly when the keys order the members alike. When only items
with different labels come in the same order in both, the labels still read the same.
-/

namespace GrokCodec.Ordered

open List Nat

universe u v

variable {α : Type u} {κ : Type v}

/-- Strictly increasing keys. -/
def KeySorted (key : α → List Nat) (l : List α) : Prop :=
  l.Pairwise fun a b => key a < key b

/-- The positions from `p` to `e` that are `p` itself or a multiple of `d`. -/
def alignedSteps (d e p : Nat) : List Nat :=
  (List.range' p (e - p)).filter fun q => decide (q = p ∨ d ∣ q)

variable {d : Nat}

theorem mem_alignedSteps {e p q : Nat} :
    q ∈ alignedSteps d e p ↔ p ≤ q ∧ q < e ∧ (q = p ∨ d ∣ q) := by
  simp only [alignedSteps, mem_filter, mem_range'_1, decide_eq_true_eq]
  omega

theorem alignedSteps_sorted (d e p : Nat) : (alignedSteps d e p).Pairwise (· < ·) :=
  List.Pairwise.sublist filter_sublist pairwise_lt_range'

theorem alignedSteps_of_le {e p : Nat} (h : e ≤ p) : alignedSteps d e p = [] := by
  simp [alignedSteps, Nat.sub_eq_zero_of_le h]

theorem add_sub_mod_dvd (hd : 0 < d) (p : Nat) : d ∣ p + (d - p % d) := by
  have hlt := mod_lt p hd
  have hdiv := div_add_mod p d
  refine ⟨p / d + 1, ?_⟩
  rw [Nat.mul_add, Nat.mul_one]
  omega

theorem alignedSteps_cons {e p : Nat} (hd : 0 < d) (hp : p < e) :
    alignedSteps d e p = p :: alignedSteps d e (p + (d - p % d)) := by
  have hlt := mod_lt p hd
  refine (alignedSteps_sorted d e p).eq_of_mem_iff ?_ ?_
  · rw [pairwise_cons]
    refine ⟨fun q hq => ?_, alignedSteps_sorted _ _ _⟩
    have := (mem_alignedSteps.mp hq).1
    omega
  · intro q
    rw [mem_cons, mem_alignedSteps, mem_alignedSteps]
    constructor
    · rintro ⟨h1, h2, rfl | h3⟩
      · exact .inl rfl
      · by_cases hqp : q = p
        · exact .inl hqp
        · -- no multiple of `d` lies strictly between `p` and the next one
          right
          refine ⟨?_, h2, .inr h3⟩
          obtain ⟨k, rfl⟩ := h3
          have hdiv := div_add_mod p d
          have hk : p / d < k := by
            rw [div_lt_iff_lt_mul hd, Nat.mul_comm]
            omega
          have := mul_le_mul_left d (succ_le_of_lt hk)
          rw [mul_succ] at this
          omega
    · rintro (rfl | ⟨h1, h2, h3⟩)
      · exact ⟨le_rfl, hp, .inl rfl⟩
      · have hdvd := add_sub_mod_dvd hd p
        refine ⟨by omega, h2, .inr ?_⟩
        rcases h3 with rfl | h3
        · exact hdvd
        · exact h3

theorem alignedSteps_steps (hd : 0 < d) (e p : Nat) :
    alignedSteps d e p = if p < e then p :: alignedSteps d e (p + (d - p % d)) else [] := by
  split
  · exact alignedSteps_cons hd ‹_›
  · exact alignedSteps_of_le (Nat.le_of_not_lt ‹_›)

/-- The positions `p`, `p + d`, `p + 2 * d`, … below `e`. -/
def strideSteps (d e p : Nat) : List Nat :=
  (List.range' p (e - p)).filter fun q => decide (d ∣ q - p)

theorem mem_strideSteps {e p q : Nat} : q ∈ strideSteps d e p ↔ p ≤ q ∧ q < e ∧ d ∣ q - p := by
  simp only [strideSteps, mem_filter, mem_range'_1, decide_eq_true_eq]
  omega

theorem strideSteps_sorted (d e p : Nat) : (strideSteps d e p).Pairwise (· < ·) :=
  List.Pairwise.sublist filter_sublist pairwise_lt_range'

theorem strideSteps_steps (hd : 0 < d) (e p : Nat) :
    strideSteps d e p = if p < e then p :: strideSteps d e (p + d) else [] := by
  split
  case isTrue hp =>
    refine (strideSteps_sorted d e p).eq_of_mem_iff ?_ fun q => ?_
    · rw [pairwise_cons]
      refine ⟨fun q hq => ?_, strideSteps_sorted _ _ _⟩
      have := (mem_strideSteps.mp hq).1
      omega
    · rw [mem_cons, mem_strideSteps, mem_strideSteps]
      constructor
      · rintro ⟨h1, h2, h3⟩
        rcases Nat.eq_or_lt_of_le h1 with h | h
        · exact .inl h.symm
        · have hle := le_of_dvd (by omega) h3
          refine .inr ⟨by omega, h2, ?_⟩
          rw [← Nat.sub_sub]
          exact dvd_sub h3 (Nat.dvd_refl d)
      · rintro (rfl | ⟨h1, h2, h3⟩)
        · exact ⟨le_rfl, hp, by simp⟩
        · refine ⟨by omega, h2, ?_⟩
          rw [show q - p = q - (p + d) + d by omega]
          exact Nat.dvd_add h3 (Nat.dvd_refl d)
  case isFalse hp => simp [strideSteps, Nat.sub_eq_zero_of_le (Nat.le_of_not_lt hp)]

theorem lt_of_prefix_lt (p r r' : List Nat) {k k' : Nat} (h : k < k') :
    p ++ k :: r < p ++ k' :: r' := by
  induction p with
  | nil => exact List.Lex.rel h
  | cons a p ih => exact List.Lex.cons ih

theorem append_lt_iff {p q : List Nat} (hlen : p.length = q.length) {r r' : List Nat} :
    p ++ r < q ++ r' ↔ p < q ∨ p = q ∧ r < r' := by
  induction p generalizing q with
  | nil =>
    obtain rfl : q = [] := length_eq_zero_iff.mp hlen.symm
    simp
  | cons a p ih =>
    cases q with
    | nil => simp at hlen
    | cons b q =>
      have hlen : p.length = q.length := by simpa using hlen
      simp only [cons_append, cons_lt_cons_iff, ih hlen, List.cons.injEq]
      tauto

theorem append_lt_append_iff {p q : List Nat} (hlen : p.length = q.length) {k k' : Nat} :
    p ++ [k] < q ++ [k'] ↔ p < q ∨ p = q ∧ k < k' := by
  rw [append_lt_iff hlen]
  simp [cons_lt_cons_iff]

variable {l : List α}

/-- A list sorted by `key` whose keys all begin with `pre`: what a loop body hands out once the
enclosing loops have fixed `pre`. -/
def SortedUnder (key : α → List Nat) (pre : List Nat) (l : List α) : Prop :=
  KeySorted key l ∧ ∀ a ∈ l, pre <+: key a

section Nest

variable {key : α → List Nat} {pre : List Nat}

theorem SortedUnder.sorted (h : SortedUnder key [] l) : KeySorted key l := h.1

theorem SortedUnder.nil : SortedUnder key pre [] := ⟨.nil, fun _ h => absurd h not_mem_nil⟩

/-- The innermost body: one item for each value of the last entry of the key. -/
theorem SortedUnder.map {ks : List Nat} {item : Nat → α} (hks : ks.Pairwise (· < ·))
    (hkey : ∀ k, key (item k) = pre ++ [k]) : SortedUnder key pre (ks.map item) := by
  refine ⟨pairwise_map.mpr (hks.imp fun hlt => ?_), fun a ha => ?_⟩
  · rw [hkey, hkey]
    exact lt_of_prefix_lt pre [] [] hlt
  · obtain ⟨k, -, rfl⟩ := mem_map.mp ha
    exact ⟨[k], (hkey k).symm⟩

/-- A body whose items differ in the last entry of the key, `label`. -/
theorem SortedUnder.of_label {label : α → Nat} (h : l.Pairwise fun a b => label a < label b)
    (hkey : ∀ a ∈ l, key a = pre ++ [label a]) : SortedUnder key pre l := by
  refine ⟨h.imp_of_mem fun {a b} ha hb hlt => ?_, fun a ha => ⟨_, (hkey a ha).symm⟩⟩
  rw [hkey a ha, hkey b hb]
  exact lt_of_prefix_lt pre [] [] hlt

/-- A loop over increasing values, the next entry of the key. -/
theorem SortedUnder.flatMap {ks : List Nat} {f : Nat → List α} (hks : ks.Pairwise (· < ·))
    (hf : ∀ k ∈ ks, SortedUnder key (pre ++ [k]) (f k)) : SortedUnder key pre (ks.flatMap f) := by
  refine ⟨pairwise_flatMap.mpr ⟨fun k hk => (hf k hk).1, hks.imp_of_mem ?_⟩, ?_⟩
  · intro k k' hk hk' hlt a ha b hb
    obtain ⟨r, hr⟩ := (hf k hk).2 a ha
    obtain ⟨r', hr'⟩ := (hf k' hk').2 b hb
    rw [← hr, ← hr', append_assoc, append_assoc]
    exact lt_of_prefix_lt pre r r' hlt
  · intro a ha
    obtain ⟨k, hk, ha⟩ := mem_flatMap.mp ha
    exact (prefix_append pre [k]).trans ((hf k hk).2 a ha)

end Nest

theorem KeySorted.nodup {key : α → List Nat} (h : KeySorted key l) : l.Nodup :=
  h.imp fun {a b} hlt hab => by subst hab; exact lt_irrefl _ hlt

theorem keySorted_mergeSort {key : α → List Nat} (hnd : l.Nodup)
    (hinj : ∀ a ∈ l, ∀ b ∈ l, key a = key b → a = b) :
    KeySorted key (l.mergeSort fun a b => decide (key a ≤ key b)) := by
  have hsorted := @pairwise_mergeSort _ (fun a b => decide (key a ≤ key b))
    (fun a b c hab hbc => decide_eq_true (le_trans (of_decide_eq_true hab) (of_decide_eq_true hbc)))
    (fun a b => by simpa using le_total (key a) (key b)) l
  have hdistinct : (l.mergeSort fun a b => decide (key a ≤ key b)).Pairwise (· ≠ ·) :=
    (mergeSort_perm l _).nodup_iff.mpr hnd
  refine (hsorted.and hdistinct).imp_of_mem fun {a b} ha hb hab => ?_
  rw [mem_mergeSort] at ha hb
  exact lt_of_le_of_ne (of_decide_eq_true hab.1) fun heq => hab.2 (hinj a ha b hb heq)

/-- A sorted list is the image of another one exactly when it has the same members and the
map keeps the order. -/
theorem KeySorted.eq_map_iff {β : Type v} {key : α → List Nat} {key' : β → List Nat} {l' : List β}
    {f : β → α} (h : KeySorted key l) (h' : KeySorted key' l') :
    l = l'.map f ↔ (∀ a, a ∈ l ↔ ∃ b ∈ l', f b = a) ∧
      ∀ b ∈ l', ∀ c ∈ l', key' b < key' c → key (f b) < key (f c) := by
  constructor
  · rintro rfl
    refine ⟨fun a => mem_map, fun b hb c hc hlt => ?_⟩
    have hmap : l'.Pairwise fun b c => key (f b) < key (f c) :=
      (pairwise_map (R := fun a b => key a < key b)).mp h
    by_contra hcon
    have hne : b ≠ c := by rintro rfl; exact lt_irrefl _ hlt
    let R (b c : β) := (key' b < key' c ∧ key (f b) < key (f c)) ∨
      (key' c < key' b ∧ key (f c) < key (f b))
    have : Std.Symm R := ⟨fun _ _ => Or.symm⟩
    have hboth : l'.Pairwise R := (h'.and hmap).imp .inl
    rcases hboth.forall hb hc hne with h1 | h1
    · exact hcon h1.2
    · exact lt_asymm hlt h1.1
  · rintro ⟨hmem, hord⟩
    have h₂ : KeySorted key (l'.map f) :=
      pairwise_map.mpr (List.Pairwise.imp_of_mem (fun hb hc => hord _ hb _ hc) h')
    exact List.Pairwise.eq_of_mem_iff h h₂ fun a => (hmem a).trans mem_map.symm

variable {key key' : α → List Nat} {l' : List α} {label : α → Nat}

variable {a b : α} {i : Nat}

/-- What stands before an item of a sorted list has a smaller key. -/
theorem KeySorted.mem_take_iff (h : KeySorted key l) (ha : l[i]? = some a) (hb : b ∈ l) :
    b ∈ l.take i ↔ key b < key a := by
  obtain ⟨hi, rfl⟩ := List.getElem?_eq_some_iff.mp ha
  have hsplit : l = l.take i ++ l[i] :: l.drop (i + 1) := by
    rw [← drop_eq_getElem_cons hi, take_append_drop]
  have hpair : (l.take i ++ l[i] :: l.drop (i + 1)).Pairwise fun a b => key a < key b := by
    rw [← hsplit]
    exact h
  obtain ⟨-, htail, hcross⟩ := pairwise_append.mp hpair
  constructor
  · intro hmem
    exact hcross b hmem _ mem_cons_self
  · intro hlt
    rw [hsplit, mem_append, mem_cons] at hb
    rcases hb with hmem | rfl | hmem
    · exact hmem
    · exact absurd hlt (lt_irrefl _)
    · exact absurd hlt (lt_asymm ((pairwise_cons.mp htail).1 b hmem))

theorem KeySorted.lt_or_gt (h : KeySorted key l) (ha : a ∈ l) (hb : b ∈ l) (hne : a ≠ b) :
    key a < key b ∨ key b < key a := by
  have hor : l.Pairwise fun a b => key a < key b ∨ key b < key a := h.imp .inl
  have : Std.Symm fun a b : α => key a < key b ∨ key b < key a := ⟨fun _ _ => Or.symm⟩
  exact hor.forall ha hb hne

theorem length_le_of_subset (hnd : l.Nodup) (hsub : ∀ a ∈ l, a ∈ l') : l.length ≤ l'.length :=
  (subperm_of_subset hnd hsub).length_le

/-- Items sorted by their labels, some of which are missing from the first list. -/
theorem label_le_of_sublist (h : l.Pairwise fun a b => label a ≤ label b)
    (h' : l'.Pairwise fun a b => label a ≤ label b) (hnd : l.Nodup) (hsub : ∀ a ∈ l, a ∈ l')
    (ha : l[i]? = some a) (hb : l'[i]? = some b) : label b ≤ label a := by
  obtain ⟨hi, rfl⟩ := List.getElem?_eq_some_iff.mp ha
  obtain ⟨hi', rfl⟩ := List.getElem?_eq_some_iff.mp hb
  by_contra hlt
  -- the first `i + 1` items of `l` would all be among the first `i` of `l'`
  have hfirst : ∀ x ∈ l.take (i + 1), x ∈ l'.take i := by
    intro x hx
    obtain ⟨j, hj, rfl⟩ := mem_take_iff_getElem.mp hx
    have hxa : label l[j] ≤ label l[i] := by
      rcases Nat.lt_or_eq_of_le (by omega : j ≤ i) with hji | rfl
      · exact pairwise_iff_getElem.mp h j i _ _ hji
      · exact le_rfl
    obtain ⟨k, hk, hkx⟩ := mem_iff_getElem.mp (hsub _ (getElem_mem (by omega : j < l.length)))
    rw [← hkx]
    refine mem_take_iff_getElem.mpr ⟨k, ?_, rfl⟩
    by_contra hik
    have hbx : label l'[i] ≤ label l'[k] := by
      rcases Nat.lt_or_eq_of_le (by omega : i ≤ k) with hlt' | rfl
      · exact pairwise_iff_getElem.mp h' i k _ _ hlt'
      · exact le_rfl
    rw [hkx] at hbx
    omega
  have hlen := length_le_of_subset (hnd.sublist (take_sublist _ _)) hfirst
  simp only [length_take] at hlen
  omega

/-- Items of different labels come in the same order under both keys. -/
def Agree (label : α → Nat) (key key' : α → List Nat) (l : List α) : Prop :=
  ∀ a ∈ l, ∀ b ∈ l, label a ≠ label b → key' a < key' b → key a < key b

theorem Agree.iff (hag : Agree label key key' l) (h' : KeySorted key' l')
    (hmem : ∀ a, a ∈ l ↔ a ∈ l') (ha : a ∈ l) (hb : b ∈ l) (hne : label a ≠ label b) :
    key' a < key' b ↔ key a < key b := by
  have hab : a ≠ b := by
    rintro rfl
    exact hne rfl
  constructor
  · exact hag a ha b hb hne
  · intro hlt
    refine (h'.lt_or_gt ((hmem a).mp ha) ((hmem b).mp hb) hab).resolve_right ?_
    intro hgt
    exact lt_asymm hlt (hag b hb a ha hne.symm hgt)

/-- At the same index the item of `l` does not come first: what `l` has up to it, `l'` would have
before its own. -/
theorem not_lt_of_index
    (hiff : ∀ {x y}, x ∈ l → y ∈ l → label x ≠ label y → (key' x < key' y ↔ key x < key y))
    (h : KeySorted key l) (h' : KeySorted key' l') (hmem : ∀ a, a ∈ l ↔ a ∈ l')
    (ha : l[i]? = some a) (hb : l'[i]? = some b) (hne : label a ≠ label b) : ¬ key a < key b := by
  intro hab
  have haM : a ∈ l := mem_of_getElem? ha
  have hbM : b ∈ l := (hmem b).mpr (mem_of_getElem? hb)
  have hab' := (hiff haM hbM hne).mpr hab
  have hsub : ∀ x ∈ l.take (i + 1), x ∈ l'.take i := by
    intro x hx
    have hxM : x ∈ l := mem_of_mem_take hx
    rw [h'.mem_take_iff hb ((hmem x).mp hxM)]
    rw [take_add_one, ha, Option.toList_some, mem_append, mem_singleton,
      h.mem_take_iff ha hxM] at hx
    by_cases hxl : label x = label a
    · have hxb : key x < key b := by
        rcases hx with hx | rfl
        · exact lt_trans hx hab
        · exact hab
      exact (hiff hxM hbM (by omega)).mpr hxb
    · rcases hx with hx | rfl
      · exact lt_trans ((hiff hxM haM hxl).mpr hx) hab'
      · exact hab'
  have hi := (List.getElem?_eq_some_iff.mp ha).1
  have hlen := length_le_of_subset (h.nodup.sublist (take_sublist _ _)) hsub
  simp only [length_take] at hlen
  omega

theorem Agree.label_le (hag : Agree label key key' l) (h : KeySorted key l) (h' : KeySorted key' l')
    (hmem : ∀ a, a ∈ l ↔ a ∈ l') (ha : l[i]? = some a) (hb : l'[i]? = some b) :
    label b ≤ label a := by
  by_contra hlt
  have hne : label a ≠ label b := by omega
  have hab : a ≠ b := fun heq => hne (congrArg label heq)
  have haM : a ∈ l := mem_of_getElem? ha
  have hbM : b ∈ l := (hmem b).mpr (mem_of_getElem? hb)
  rcases h.lt_or_gt haM hbM hab with hlt | hgt
  · exact not_lt_of_index (hag.iff h' hmem) h h' hmem ha hb hne hlt
  · refine not_lt_of_index (fun hx hy hxy => ?_) h' h (fun x => (hmem x).symm) hb ha hne.symm
      ((hag.iff h' hmem hbM haM hne.symm).mpr hgt)
    exact (hag.iff h' hmem ((hmem _).mpr hx) ((hmem _).mpr hy) hxy).symm

end GrokCodec.Ordered
