import Mathlib.Algebra.Group.Basic
import Mathlib.Data.List.Basic

/-!
Memory in cells, and lists of actions that each work on one cell and give an amount. From cells that
are alike to the actions of each, the same list gives the same total.
-/

namespace GrokCodec.Cells

open List Function

variable {K σ A M : Type} [DecidableEq K] [AddMonoid M]

/-- An action works on the cell of its key. It may fail. -/
structure Machine (K σ A M : Type) where
  key : A → K
  step : A → σ → Option (M × σ)

namespace Machine

variable (m : Machine K σ A M)

/-- Actions one after the other: the total amount and the cells after them. -/
def run : (K → Option σ) → List A → Option (M × (K → Option σ))
  | c, [] => some (0, c)
  | c, a :: as => (c (m.key a)).bind fun s => (m.step a s).bind fun r =>
    (run (update c (m.key a) (some r.2)) as).map fun r' => (r.1 + r'.1, r'.2)

/-- The actions of one cell. -/
def of (k : K) (l : List A) : List A := l.filter fun a => m.key a = k

variable {m} {c d : K → Option σ} {a : A} {l : List A} {x : M}

theorem run_cons_eq_some {r : M × (K → Option σ)} : m.run c (a :: l) = some r ↔
    ∃ s x t, c (m.key a) = some s ∧ m.step a s = some (x, t) ∧
      ∃ r', m.run (update c (m.key a) (some t)) l = some r' ∧ r = (x + r'.1, r'.2) := by
  constructor
  · intro h
    obtain ⟨s, hs, h⟩ := Option.bind_eq_some_iff.mp h
    obtain ⟨⟨x, t⟩, ht, h⟩ := Option.bind_eq_some_iff.mp h
    obtain ⟨r', hr', rfl⟩ := Option.map_eq_some_iff.mp h
    exact ⟨s, x, t, hs, ht, r', hr', rfl⟩
  · rintro ⟨s, x, t, hs, ht, r', hr', rfl⟩
    rw [run, hs, Option.bind_some, ht, Option.bind_some, hr']
    rfl

omit [AddMonoid M] in
theorem of_cons_self (a : A) (l : List A) : m.of (m.key a) (a :: l) = a :: m.of (m.key a) l := by
  rw [of, filter_cons_of_pos (by simp)]
  rfl

omit [AddMonoid M] in
theorem of_cons_ne {k : K} (h : m.key a ≠ k) (l : List A) : m.of k (a :: l) = m.of k l := by
  rw [of, filter_cons_of_neg (by simpa using h)]
  rfl

/-- What two cells must have in common before the actions that are still to come, so that each action
gives the same on both. -/
structure Alike (m : Machine K σ A M) (R : List A → σ → σ → Prop) : Prop where
  step : ∀ {a l s s' x t}, R (a :: l) s s' → m.step a s = some (x, t) →
    ∃ t', m.step a s' = some (x, t') ∧ R l t t'

/-- Two families of cells that are alike before the actions of a list. Cells that no action works on
need not be. -/
def AlikeBefore (m : Machine K σ A M) (R : List A → σ → σ → Prop) (l : List A)
    (c c' : K → Option σ) : Prop :=
  ∀ k s, m.of k l ≠ [] → c k = some s → ∃ s', c' k = some s' ∧ R (m.of k l) s s'

theorem run_alike {R : List A → σ → σ → Prop} (hR : m.Alike R) {c' : K → Option σ}
    (hc : m.AlikeBefore R l c c') (h : m.run c l = some (x, d)) :
    ∃ d', m.run c' l = some (x, d') := by
  induction l generalizing c c' x d with
  | nil =>
    cases h
    exact ⟨c', rfl⟩
  | cons a l ih =>
    obtain ⟨s, y, t, hs, ht, ⟨z, e⟩, hl, heq⟩ := run_cons_eq_some.mp h
    have hof := of_cons_self (m := m) a l
    obtain ⟨s', hs', hss'⟩ := hc (m.key a) s (by rw [hof]; exact cons_ne_nil _ _) hs
    rw [hof] at hss'
    obtain ⟨t', ht', htt'⟩ := hR.step hss' ht
    have hnext : m.AlikeBefore R l (update c (m.key a) (some t))
        (update c' (m.key a) (some t')) := by
      intro k u hk hu
      by_cases hka : k = m.key a
      · subst hka
        rw [update_self] at hu ⊢
        cases hu
        exact ⟨t', rfl, htt'⟩
      · rw [update_of_ne hka] at hu ⊢
        have hof := of_cons_ne (m := m) (Ne.symm hka) l
        rw [← hof]
        exact hc k u (by rwa [hof]) hu
    obtain ⟨d', hd'⟩ := ih hnext hl
    cases heq
    exact ⟨d', run_cons_eq_some.mpr ⟨s', y, t', hs', ht', (z, d'), hd', rfl⟩⟩

/-- A relation between a cell and what it was before that every step keeps. -/
theorem run_keeps {R : σ → σ → Prop} (hrefl : ∀ s, R s s)
    (hstep : ∀ {a s₀ s x t}, R s₀ s → m.step a s = some (x, t) → R s₀ t)
    (h : m.run c l = some (x, d)) (k : K) :
    ∀ s, c k = some s → ∃ t, d k = some t ∧ R s t := by
  have hrun : ∀ {c₀ c : K → Option σ} {x}, (∀ s, c₀ k = some s → ∃ t, c k = some t ∧ R s t) →
      m.run c l = some (x, d) → ∀ s, c₀ k = some s → ∃ t, d k = some t ∧ R s t := by
    clear h
    intro c₀ c x hc h
    induction l generalizing c x with
    | nil =>
      cases h
      exact hc
    | cons a l ih =>
      obtain ⟨s, y, t, hs, ht, ⟨z, e⟩, hl, heq⟩ := run_cons_eq_some.mp h
      cases heq
      refine ih ?_ hl
      intro u hu
      obtain ⟨v, hv, huv⟩ := hc u hu
      by_cases hka : k = m.key a
      · subst hka
        cases hs.symm.trans hv
        rw [update_self]
        exact ⟨t, rfl, hstep huv ht⟩
      · rw [update_of_ne hka]
        exact ⟨v, hv, huv⟩
  exact hrun (fun s hs => ⟨s, hs, hrefl s⟩) h

end Machine

end GrokCodec.Cells
