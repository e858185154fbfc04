import Mathlib.Algebra.BigOperators.Fin

/-!
Runs of labelled transition systems. A run is the list of its labels with the state it leads to;
invariants may speak about both, so that "every request has been answered" is one.
-/

namespace GrokCodec.Trace

open List Function

structure System (σ ε : Type) where
  init : σ → Prop
  step : σ → ε → σ → Prop

namespace System

variable {σ ε : Type} {S : System σ ε} {tr : List ε} {s s' : σ} {e : ε}

inductive Run (S : System σ ε) : List ε → σ → Prop
  | init {s : σ} (h : S.init s) : Run S [] s
  | step {tr : List ε} {s s' : σ} {e : ε} (h : Run S tr s) (hstep : S.step s e s') :
      Run S (tr ++ [e]) s'

theorem Run.invariant {P : List ε → σ → Prop} (hinit : ∀ s, S.init s → P [] s)
    (hstep : ∀ tr s e s', P tr s → S.step s e s' → P (tr ++ [e]) s') (h : S.Run tr s) : P tr s := by
  induction h with
  | init h => exact hinit _ h
  | step _ h ih => exact hstep _ _ _ _ ih h

/-- The steps that meet a condition. -/
def restrict (S : System σ ε) (ok : σ → ε → σ → Prop) : System σ ε :=
  ⟨S.init, fun s e s' => S.step s e s' ∧ ok s e s'⟩

theorem Run.of_restrict {ok : σ → ε → σ → Prop} (h : (S.restrict ok).Run tr s) : S.Run tr s := by
  induction h with
  | init h => exact .init h
  | step _ h ih => exact .step ih h.1

end System

section Answers

variable {ε : Type} {request answer : ε → Prop} {tr : List ε} {e : ε}

/-- A request after which there has been no answer. -/
def Unanswered (request answer : ε → Prop) (tr : List ε) : Prop :=
  ∃ before e after, tr = before ++ e :: after ∧ request e ∧ ∀ a ∈ after, ¬ answer a

theorem not_unanswered_nil : ¬ Unanswered request answer [] := by
  rintro ⟨before, e, after, h, -, -⟩
  simp at h

theorem unanswered_concat (h : Unanswered request answer (tr ++ [e])) :
    request e ∨ Unanswered request answer tr ∧ ¬ answer e := by
  obtain ⟨before, r, after, heq, hr, hafter⟩ := h
  rcases eq_nil_or_concat after with rfl | ⟨after, a, rfl⟩
  · obtain ⟨-, hlast⟩ := append_inj' heq rfl
    obtain rfl := singleton_injective hlast
    exact .inl hr
  · rw [concat_eq_append] at heq hafter
    rw [← cons_append, ← append_assoc] at heq
    obtain ⟨htr, hlast⟩ := append_inj' heq rfl
    obtain rfl := singleton_injective hlast
    exact .inr ⟨⟨before, r, after, htr, hr, fun a ha => hafter a (mem_append_left _ ha)⟩,
      hafter e (by simp)⟩

/-- Every request that is not left without an answer has one after it. -/
theorem answered_of_not_unanswered (h : ¬ Unanswered request answer tr) {before after : List ε}
    (htr : tr = before ++ e :: after) (he : request e) : ∃ a ∈ after, answer a := by
  by_contra hnone
  exact h ⟨before, e, after, htr, he, fun a ha hans => hnone ⟨a, ha, hans⟩⟩

end Answers

theorem sum_update {ι α : Type} [Fintype ι] [DecidableEq ι] (f : α → Nat) (g : ι → α) (i : ι) (a : α) :
    (∑ j, f (update g i a j)) + f (g i) = (∑ j, f (g j)) + f a := by
  have h := Finset.sum_update_of_mem (Finset.mem_univ i) (fun j => f (g j)) (f a)
  have hcomp (j : ι) : f (update g i a j) = update (fun j => f (g j)) i (f a) j :=
    apply_update (fun _ => f) g i a j
  have hsplit := Finset.sum_sdiff (Finset.subset_univ {i}) (f := fun j => f (g j))
  rw [Finset.sum_singleton] at hsplit
  simp only [hcomp, h]
  omega

end GrokCodec.Trace
