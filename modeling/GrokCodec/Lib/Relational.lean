import Mathlib.Tactic.Common

/-!
Programs with state and exceptions, where an exception keeps the state it was thrown in. What the
parts of a program say of two runs from related states and of its exceptions, and rules for showing
that a run returns a given value.
-/

namespace GrokCodec.Relational

universe u

variable {σ ε α β : Type u}

abbrev Program (σ ε α : Type u) := ExceptT ε (StateM σ) α

/-- A value read off the state. -/
def gets (f : σ → α) : Program σ ε α := do
  let s ← get
  return f s

/-- A step that is only taken under a condition. -/
def whenever (c : Bool) (m : Program σ ε PUnit) : Program σ ε PUnit := if c then m else pure ⟨⟩

/-- The outcome and the final state. -/
def runFrom (m : Program σ ε α) (s : σ) : Except ε α × σ := m.run s

@[simp] theorem runFrom_pure (a : α) (s : σ) : runFrom (pure a : Program σ ε α) s = (.ok a, s) := rfl

@[simp] theorem runFrom_throw (e : ε) (s : σ) :
    runFrom (throw e : Program σ ε α) s = (.error e, s) := rfl

@[simp] theorem runFrom_modify (f : σ → σ) (s : σ) :
    runFrom (modify f : Program σ ε PUnit) s = (.ok ⟨⟩, f s) := rfl

@[simp] theorem runFrom_gets (f : σ → α) (s : σ) :
    runFrom (gets f : Program σ ε α) s = (.ok (f s), s) := rfl

theorem runFrom_bind (m : Program σ ε α) (f : α → Program σ ε β) (s : σ) :
    runFrom (m >>= f) s = match runFrom m s with
      | (.ok a, t) => runFrom (f a) t
      | (.error e, t) => (.error e, t) := by
  change (ExceptT.bindCont f (m s).1) (m s).2 = _
  unfold runFrom
  rcases h : m s with ⟨a | a, t⟩
  · simp only [ExceptT.run, h]
    rfl
  · simp only [ExceptT.run, h]
    rfl

/-- A program put together from reads that related states agree on, updates that `M` allows and
exceptions that `E` allows. -/
inductive Built (R : σ → σ → Prop) (M : (σ → σ) → Prop) (E : ε → Prop) :
    {α : Type u} → Program σ ε α → Prop
  | pure {α : Type u} (a : α) : Built R M E (pure a)
  | throw {α : Type u} {e : ε} (he : E e) : Built R M E (throw e : Program σ ε α)
  | read {α β : Type u} {f : σ → α} {g : α → Program σ ε β} (hf : ∀ s t, R s t → f s = f t)
      (hg : ∀ s, Built R M E (g (f s))) : Built R M E (gets f >>= g)
  | modify {f : σ → σ} (hf : M f) : Built R M E (modify f)
  | bind {α β : Type u} {m : Program σ ε α} {f : α → Program σ ε β} (hm : Built R M E m)
      (hf : ∀ a, Built R M E (f a)) : Built R M E (m >>= f)

/-- From related states a program has the same outcome, and it ends in related states. -/
def Respects (R : σ → σ → Prop) (m : Program σ ε α) : Prop :=
  ∀ s t, R s t → (runFrom m s).1 = (runFrom m t).1 ∧ R (runFrom m s).2 (runFrom m t).2

namespace Built

variable {R : σ → σ → Prop} {M : (σ → σ) → Prop} {E : ε → Prop} {m : Program σ ε α}

theorem ite {c : Prop} [Decidable c] {n : Program σ ε α} (hm : Built R M E m) (hn : Built R M E n) :
    Built R M E (if c then m else n) := by
  split
  · exact hm
  · exact hn

theorem whenever {c : Bool} {m : Program σ ε PUnit} (hm : Built R M E m) :
    Built R M E (Relational.whenever c m) := ite hm (pure _)

theorem mono {M' : (σ → σ) → Prop} (hM : ∀ f, M f → M' f) (h : Built R M E m) : Built R M' E m := by
  induction h with
  | pure a => exact pure a
  | throw he => exact throw he
  | read hf _ ih => exact read hf ih
  | modify hf => exact modify (hM _ hf)
  | bind _ _ ihm ihf => exact bind ihm ihf

theorem respects (hM : ∀ f, M f → ∀ s t, R s t → R (f s) (f t)) (h : Built R M E m) :
    Respects R m := by
  induction h with
  | pure a => exact fun _ _ h => ⟨rfl, h⟩
  | throw => exact fun _ _ h => ⟨rfl, h⟩
  | @read α β f g hf _ ih =>
    intro s t h
    rw [runFrom_bind, runFrom_bind]
    simp only [runFrom_gets, hf s t h]
    exact ih t s t h
  | modify hf => exact fun s t h => ⟨rfl, hM _ hf s t h⟩
  | @bind α β m f _ _ ihm ihf =>
    intro s t h
    obtain ⟨hout, hstate⟩ := ihm s t h
    rw [runFrom_bind, runFrom_bind]
    generalize runFrom m s = x at hout hstate
    generalize runFrom m t = y at hout hstate
    obtain ⟨x, s'⟩ := x
    obtain ⟨y, t'⟩ := y
    obtain rfl : x = y := hout
    cases x with
    | ok a => exact ihf a s' t' hstate
    | error e => exact ⟨rfl, hstate⟩

theorem error (h : Built R M E m) : ∀ {s e}, (runFrom m s).1 = .error e → E e := by
  induction h with
  | pure a => exact fun h => nomatch h
  | throw he => rintro s e ⟨⟩; exact he
  | read _ _ ih => exact fun {s _} h => ih s h
  | modify => exact fun h => nomatch h
  | @bind α β m f _ _ ihm ihf =>
    intro s e herror
    rw [runFrom_bind] at herror
    rcases hrun : runFrom m s with ⟨e' | a, t⟩ <;> rw [hrun] at herror
    · obtain rfl : e' = e := Except.error.inj herror
      exact ihm (congrArg Prod.fst hrun)
    · exact ihf a herror

end Built

/-- From a state with `P` a program returns `a` in a state with `Q`. -/
def Returns (P : σ → Prop) (m : Program σ ε α) (a : α) (Q : σ → Prop) : Prop :=
  ∀ s, P s → ∃ t, runFrom m s = (.ok a, t) ∧ Q t

namespace Returns

variable {P Q S : σ → Prop}

theorem pure (a : α) : Returns P (pure a : Program σ ε α) a P := fun s h => ⟨s, rfl, h⟩

variable {b : β}

theorem bind {m : Program σ ε α} {f : α → Program σ ε β} {a : α} (hm : Returns P m a Q)
    (hf : Returns Q (f a) b S) : Returns P (m >>= f) b S := by
  intro s hs
  obtain ⟨t, hrun, ht⟩ := hm s hs
  obtain ⟨u, hrun', hu⟩ := hf t ht
  refine ⟨u, ?_, hu⟩
  rw [runFrom_bind, hrun]
  exact hrun'

theorem gets_bind {f : σ → α} {g : α → Program σ ε β}
    (h : ∀ a, Returns (fun s => P s ∧ f s = a) (g a) b S) :
    Returns P (Relational.gets f >>= g) b S := by
  intro s hs
  obtain ⟨t, hrun, ht⟩ := h (f s) s ⟨hs, rfl⟩
  refine ⟨t, ?_, ht⟩
  rw [runFrom_bind]
  exact hrun

end Returns

end GrokCodec.Relational
