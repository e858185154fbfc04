import Mathlib.Data.Nat.Basic
import Mathlib.Logic.Function.Basic

/-!
A bounded `while` loop over a state, its invariant rule, and counted loops over it.

The bound only makes the loop a structural recursion: a caller shows that the loop gets to its end
within it, and the rule then gives both the invariant and the exit condition.
-/

namespace GrokCodec.Loop

open Nat

universe u v

variable {σ : Type u} {τ : Type v}

/-- `while(cond) body`, entered at most `bound` times. -/
def repeatWhile (cond : σ → Bool) (body : σ → σ) : Nat → σ → σ
  | 0, s => s
  | bound + 1, s => if cond s then repeatWhile cond body bound (body s) else s

variable {cond : σ → Bool} {body : σ → σ} {bound : Nat} {s : σ}

/-- The rule for `while(place < stop)`: what the body preserves holds at the exit, and the place has
reached `stop` because it went up at each entry. -/
theorem repeatWhile_rule (Inv : σ → Prop) (place : σ → Nat) {stop : Nat}
    (preserves : ∀ s, Inv s → place s < stop → Inv (body s) ∧ place s < place (body s))
    (start : Inv s) (enough : stop ≤ place s + bound) :
    Inv (repeatWhile (fun s => place s < stop) body bound s) ∧
      stop ≤ place (repeatWhile (fun s => place s < stop) body bound s) := by
  induction bound generalizing s with
  | zero => exact ⟨start, enough⟩
  | succ bound ih =>
    simp only [repeatWhile]
    split
    next running =>
      obtain ⟨kept, up⟩ := preserves s start (of_decide_eq_true running)
      exact ih kept (by omega)
    next stopped => exact ⟨start, by simpa using stopped⟩

theorem repeatWhile_keeps (Inv : σ → Prop) (preserves : ∀ s, Inv s → Inv (body s))
    (start : Inv s) : Inv (repeatWhile cond body bound s) := by
  induction bound generalizing s with
  | zero => exact start
  | succ bound ih =>
    simp only [repeatWhile]
    split
    · exact ih (preserves s start)
    · exact start

/-- Two loops whose conditions and bodies agree on related states end in related states. -/
theorem repeatWhile_related {cond' : τ → Bool} {body' : τ → τ} {t : τ} (R : σ → τ → Prop)
    (agree : ∀ s t, R s t → cond s = cond' t) (preserves : ∀ s t, R s t → R (body s) (body' t))
    (start : R s t) : R (repeatWhile cond body bound s) (repeatWhile cond' body' bound t) := by
  induction bound generalizing s t with
  | zero => exact start
  | succ bound ih =>
    simp only [repeatWhile, agree s t start]
    split
    · exact ih (preserves s t start)
    · exact start

/-- `for(i = 0; i < count; ++i) body(i)`. -/
def countTo (body : Nat → σ → σ) : Nat → σ → σ
  | 0, s => s
  | count + 1, s => body count (countTo body count s)

theorem countTo_related {body : Nat → σ → σ} {body' : Nat → τ → τ} {t : τ} (R : Nat → σ → τ → Prop)
    {count : Nat} (preserves : ∀ i s t, i < count → R i s t → R (i + 1) (body i s) (body' i t))
    (start : R 0 s t) : R count (countTo body count s) (countTo body' count t) := by
  induction count with
  | zero => exact start
  | succ count ih =>
    exact preserves count _ _ (lt_succ_self _)
      (ih fun i s t hi => preserves i s t (lt_succ_of_lt hi))

/-- The rule for a counted loop: the invariant knows how many iterations are behind it. -/
theorem countTo_rule {body : Nat → σ → σ} (Inv : Nat → σ → Prop) {count : Nat}
    (preserves : ∀ i s, i < count → Inv i s → Inv (i + 1) (body i s)) (start : Inv 0 s) :
    Inv count (countTo body count s) := by
  have both : Inv count (countTo body count s) ∧ countTo body count s = countTo body count s :=
    countTo_related (fun i s t => Inv i s ∧ s = t)
      (fun i s t hi h => ⟨preserves i s hi h.1, congrArg (body i) h.2⟩) ⟨start, rfl⟩
  exact both.1

theorem countTo_rule_from {body : Nat → σ → σ} (Inv : σ → Prop) {first count : Nat}
    (hle : first ≤ count) (preserves : ∀ i s, first ≤ i → i < count → Inv s → Inv (body i s))
    (start : Inv (countTo body first s)) : Inv (countTo body count s) := by
  induction count, hle using le_induction with
  | base => exact start
  | succ count hle ih =>
    exact preserves count _ hle (lt_succ_self _)
      (ih fun i s hi hlt => preserves i s hi (lt_succ_of_lt hlt))

end GrokCodec.Loop
