import Mathlib.Data.List.Basic
import Mathlib.Data.List.Induction
import Mathlib.Data.List.Pairwise

/-!
Headers with a default for all components and entries of single components, in any order, and
what it means that such a header is accepted.
-/

namespace GrokCodec.Scoping

open List Option

variable {β : Type}

/-- A value for all components, or for one. -/
inductive Entry (β : Type) where
  | default (b : β)
  | own (i : Nat) (b : β)

namespace Entry

def scope : Entry β → Option Nat
  | default _ => none
  | own i _ => some i

def default? : Entry β → Option β
  | default b => some b
  | own _ _ => none

def own? (i : Nat) : Entry β → Option β
  | default _ => none
  | own j b => if j = i then some b else none

/-- The value an entry has for a component. -/
def covers (i : Nat) (e : Entry β) : Option β := (e.own? i).or e.default?

@[simp] theorem own?_self (i : Nat) (b : β) : (own i b).own? i = some b := if_pos rfl

theorem own?_eq_some {i : Nat} {e : Entry β} {b : β} : e.own? i = some b ↔ e = own i b := by
  cases e with
  | default c => exact ⟨(fun h => nomatch h), fun h => nomatch h⟩
  | own j c =>
    by_cases hj : j = i
    · subst hj
      simp [own?]
    · simp [own?, hj]

theorem default?_eq_some {e : Entry β} {b : β} : e.default? = some b ↔ e = default b := by
  cases e with
  | default c => simp [default?]
  | own j c => exact ⟨(fun h => nomatch h), fun h => nomatch h⟩

end Entry

/-- The default of a header. -/
def defaultOf (l : List (Entry β)) : Option β := l.findSome? Entry.default?

/-- A component's own value in a header. -/
def ownOf (i : Nat) (l : List (Entry β)) : Option β := l.findSome? (Entry.own? i)

/-- The value of the last entry of a header that covers a component. -/
def lastOf (i : Nat) (l : List (Entry β)) : Option β := l.reverse.findSome? (Entry.covers i)

/-- Own values go before defaults, and those of the inner header before those of the outer. -/
def governing (outer inner : List (Entry β)) (i : Nat) : Option β :=
  (ownOf i inner).or ((defaultOf inner).or ((ownOf i outer).or (defaultOf outer)))

/-- There is at most one default, and one entry for each component. -/
def Single (l : List (Entry β)) : Prop := l.Pairwise fun a b => a.scope ≠ b.scope

/-- A component's own value comes before the default. -/
def Before (l : List (Entry β)) (i : Nat) (own default : β) : Prop :=
  ∃ pre post, l = pre ++ .default default :: post ∧ .own i own ∈ pre

section Concat

variable {l : List (Entry β)} {e : Entry β} {i : Nat} {own default : β}

theorem defaultOf_concat : defaultOf (l ++ [e]) = (defaultOf l).or e.default? := by
  rw [defaultOf, List.findSome?_append, List.findSome?_singleton]
  rfl

theorem ownOf_concat : ownOf i (l ++ [e]) = (ownOf i l).or (e.own? i) := by
  rw [ownOf, List.findSome?_append, List.findSome?_singleton]
  rfl

theorem lastOf_concat : lastOf i (l ++ [e]) = (e.covers i).or (lastOf i l) := by
  rw [lastOf, reverse_append, List.findSome?_append, reverse_singleton,
    List.findSome?_singleton]
  rfl

theorem single_concat :
    Single (l ++ [e]) ↔ Single l ∧ ∀ a ∈ l, a.scope ≠ e.scope := by
  simp [Single, pairwise_append]

theorem not_before_nil : ¬Before ([] : List (Entry β)) i own default := by
  rintro ⟨pre, post, h, _⟩
  simp at h

theorem before_concat_own {j : Nat} {b : β} :
    Before (l ++ [.own j b]) i own default ↔ Before l i own default := by
  constructor
  · rintro ⟨pre, post, hl, hmem⟩
    induction post using reverseRecOn with
    | nil => exact nomatch (append_inj' hl rfl).2
    | append_singleton post last _ =>
      rw [← cons_append, ← append_assoc] at hl
      exact ⟨pre, post, (append_inj' hl rfl).1, hmem⟩
  · rintro ⟨pre, post, rfl, hmem⟩
    exact ⟨pre, post ++ [.own j b], by simp, hmem⟩

theorem before_concat_default {b : β} : Before (l ++ [.default b]) i own default ↔
    Before l i own default ∨ b = default ∧ .own i own ∈ l := by
  constructor
  · rintro ⟨pre, post, hl, hmem⟩
    induction post using reverseRecOn with
    | nil =>
      obtain ⟨rfl, hb⟩ := append_inj' hl rfl
      exact Or.inr ⟨by simpa using hb, hmem⟩
    | append_singleton post last _ =>
      rw [← cons_append, ← append_assoc] at hl
      exact Or.inl ⟨pre, post, (append_inj' hl rfl).1, hmem⟩
  · rintro (⟨pre, post, rfl, hmem⟩ | ⟨rfl, hmem⟩)
    · exact ⟨pre, post ++ [.default b], by simp, hmem⟩
    · exact ⟨l, [], rfl, hmem⟩

end Concat

section Lookup

variable {l : List (Entry β)} {i : Nat} {b : β}

theorem mem_of_ownOf (h : ownOf i l = some b) : .own i b ∈ l := by
  obtain ⟨e, he, hb⟩ := exists_of_findSome?_eq_some h
  rwa [← Entry.own?_eq_some.mp hb]

theorem mem_of_defaultOf (h : defaultOf l = some b) : .default b ∈ l := by
  obtain ⟨e, he, hb⟩ := exists_of_findSome?_eq_some h
  rwa [← Entry.default?_eq_some.mp hb]

theorem ownOf_eq_none : ownOf i l = none ↔ ∀ b, .own i b ∉ l := by
  rw [ownOf, List.findSome?_eq_none_iff]
  constructor
  · intro h b hb
    exact nomatch (h _ hb).symm.trans (Entry.own?_self i b)
  · intro h e he
    cases hown : e.own? i with
    | none => rfl
    | some b => exact absurd (Entry.own?_eq_some.mp hown ▸ he) (h b)

theorem defaultOf_eq_none : defaultOf l = none ↔ ∀ b, .default b ∉ l := by
  rw [defaultOf, List.findSome?_eq_none_iff]
  constructor
  · intro h b hb
    exact nomatch (h _ hb)
  · intro h e he
    cases hdef : e.default? with
    | none => rfl
    | some b => exact absurd (Entry.default?_eq_some.mp hdef ▸ he) (h b)

theorem Single.eq_of_scope (hl : Single l) {a c : Entry β} (ha : a ∈ l) (hc : c ∈ l)
    (h : a.scope = c.scope) : a = c := by
  have : Std.Symm fun a b : Entry β => a.scope ≠ b.scope := ⟨fun _ _ h => h.symm⟩
  by_contra hne
  exact hl.forall ha hc hne h

theorem ownOf_of_mem (hl : Single l) (h : .own i b ∈ l) : ownOf i l = some b := by
  cases hown : ownOf i l with
  | none => exact absurd h (ownOf_eq_none.mp hown b)
  | some c =>
    cases hl.eq_of_scope h (mem_of_ownOf hown) rfl
    rfl

theorem defaultOf_of_mem (hl : Single l) (h : .default b ∈ l) : defaultOf l = some b := by
  cases hdef : defaultOf l with
  | none => exact absurd h (defaultOf_eq_none.mp hdef b)
  | some c =>
    cases hl.eq_of_scope h (mem_of_defaultOf hdef) rfl
    rfl

theorem Before.defaultOf_eq {own default : β} (h : Before l i own default) (hl : Single l) :
    defaultOf l = some default := by
  obtain ⟨pre, post, rfl, _⟩ := h
  exact defaultOf_of_mem hl (by simp)

theorem Before.ownOf_eq {own default : β} (h : Before l i own default) (hl : Single l) :
    ownOf i l = some own := by
  obtain ⟨pre, post, rfl, hmem⟩ := h
  exact ownOf_of_mem hl (mem_append_left _ hmem)

end Lookup

/-- The last entry that covers a component is its own one unless the default comes later. -/
theorem lastOf_eq {l : List (Entry β)} (hl : Single l) (i : Nat) :
    (∀ own default, Before l i own default → lastOf i l = some default) ∧
    ((¬∃ own default, Before l i own default) → lastOf i l = (ownOf i l).or (defaultOf l)) := by
  induction l using reverseRecOn with
  | nil =>
    exact ⟨fun _ _ h => absurd h not_before_nil, fun _ => rfl⟩
  | append_singleton l e ih =>
    obtain ⟨hl', hscope⟩ := single_concat.mp hl
    obtain ⟨ihlast, ihother⟩ := ih hl'
    rw [lastOf_concat, ownOf_concat, defaultOf_concat]
    cases e with
    | own j b =>
      simp only [before_concat_own]
      by_cases hj : j = i
      · subst hj
        have hnone : ownOf j l = none :=
          ownOf_eq_none.mpr fun c hc => hscope _ hc rfl
        refine ⟨?_, fun _ => by rw [hnone]; simp [Entry.covers]⟩
        rintro own default ⟨pre, post, rfl, hmem⟩
        exact absurd rfl (hscope (.own j own) (mem_append_left _ hmem))
      · have hown : (Entry.own j b).own? i = none := if_neg hj
        have hcov : (Entry.own j b).covers i = none := by rw [Entry.covers, hown]; rfl
        have hdef : (Entry.own j b).default? = none := rfl
        rw [hcov, hown, hdef, none_or, or_none, or_none]
        exact ⟨ihlast, ihother⟩
    | default b =>
      have hnone : defaultOf l = none :=
        defaultOf_eq_none.mpr fun c hc => hscope _ hc rfl
      have hcov : (Entry.default b).covers i = some b := rfl
      have hold : ∀ own default, ¬Before l i own default := by
        rintro own default ⟨pre, post, rfl, _⟩
        exact hscope (.default default) (by simp) rfl
      simp only [before_concat_default, hcov, hnone, hold, false_or]
      refine ⟨?_, ?_⟩
      · rintro own default ⟨rfl, _⟩
        rfl
      · intro h
        have hown : ownOf i l = none := ownOf_eq_none.mpr fun c hc => h ⟨c, b, rfl, hc⟩
        rw [hown]
        rfl

section Accepts

variable {α γ : Type} {o : Option α} {P P' : Prop} {Q : α → Prop}

/-- What is read is accepted if and only if `P`, and then gives a value with `Q`. -/
structure Accepts (o : Option α) (P : Prop) (Q : α → Prop) : Prop where
  iff : (∃ a, o = some a) ↔ P
  spec : ∀ {a}, o = some a → Q a

theorem Accepts.intro {a : α} (h : o = some a) (hP : P) (hQ : Q a) : Accepts o P Q :=
  ⟨iff_of_true ⟨a, h⟩ hP, fun h' => some.inj (h.symm.trans h') ▸ hQ⟩

theorem Accepts.exists (h : Accepts o P Q) (hP : P) : ∃ a, o = some a ∧ Q a :=
  (h.iff.mpr hP).imp fun _ ha => ⟨ha, h.spec ha⟩

theorem Accepts.congr (h : Accepts o P Q) (hP : P ↔ P') : Accepts o P' Q := ⟨h.iff.trans hP, h.spec⟩

theorem Accepts.bind {f : α → Option γ} {R : γ → Prop} (h : Accepts o P Q)
    (hf : ∀ a, Q a → Accepts (f a) P' R) : Accepts (o.bind f) (P ∧ P') R := by
  refine ⟨?_, fun hb => ?_⟩
  · constructor
    · rintro ⟨b, hb⟩
      obtain ⟨a, ha, hb⟩ := bind_eq_some_iff.mp hb
      exact ⟨h.iff.mp ⟨a, ha⟩, (hf a (h.spec ha)).iff.mp ⟨b, hb⟩⟩
    · rintro ⟨hP, hP'⟩
      obtain ⟨a, ha, hQ⟩ := h.exists hP
      exact ((hf a hQ).iff.mpr hP').imp fun b hb => bind_eq_some_iff.mpr ⟨a, ha, hb⟩
  · obtain ⟨a, ha, hb⟩ := bind_eq_some_iff.mp hb
    exact (hf a (h.spec ha)).spec hb

theorem foldlM_concat (f : α → γ → Option α) (a : α) (l : List γ) (c : γ) :
    (l ++ [c]).foldlM f a = (l.foldlM f a).bind fun a => f a c := by
  simp only [foldlM_append, foldlM_cons, foldlM_nil, bind_pure, bind_eq_bind]

end Accepts

end GrokCodec.Scoping
