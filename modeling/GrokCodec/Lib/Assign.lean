import Mathlib.Tactic.Common

/-!
Memory as a function, and lists of assignments to it. The order of the assignments does not matter
where those to one place agree.
-/

namespace GrokCodec.Assign

open List Function

variable {α β : Type} [DecidableEq α]

/-- The assignments are carried out one after the other. -/
def assign (pairs : List (α × β)) (mem : α → β) : α → β :=
  pairs.foldl (fun mem p => update mem p.1 p.2) mem

theorem assign_append (as bs : List (α × β)) (mem : α → β) :
    assign (as ++ bs) mem = assign bs (assign as mem) := foldl_append

variable {pairs : List (α × β)} {a : α}

theorem assign_of_not_mem (h : ∀ p ∈ pairs, p.1 ≠ a) (mem : α → β) :
    assign pairs mem a = mem a := by
  induction pairs generalizing mem with
  | nil => rfl
  | cons p pairs ih =>
    have hrest := ih (fun q hq => h q (mem_cons_of_mem _ hq)) (update mem p.1 p.2)
    exact hrest.trans (update_of_ne (h p mem_cons_self).symm _ _)

theorem exists_assign_eq (hmem : ∃ p ∈ pairs, p.1 = a) (mem : α → β) :
    ∃ p ∈ pairs, p.1 = a ∧ assign pairs mem a = p.2 := by
  induction pairs generalizing mem with
  | nil =>
    obtain ⟨p, hp, _⟩ := hmem
    exact nomatch hp
  | cons p pairs ih =>
    show ∃ q ∈ p :: pairs, q.1 = a ∧ assign pairs (update mem p.1 p.2) a = q.2
    by_cases hlater : ∃ q ∈ pairs, q.1 = a
    · obtain ⟨q, hq, hqa, heq⟩ := ih hlater (update mem p.1 p.2)
      exact ⟨q, mem_cons_of_mem _ hq, hqa, heq⟩
    · have hpa : p.1 = a := by
        obtain ⟨q, hq, hqa⟩ := hmem
        rcases mem_cons.mp hq with rfl | hq
        · exact hqa
        · exact absurd ⟨q, hq, hqa⟩ hlater
      refine ⟨p, mem_cons_self, hpa, ?_⟩
      rw [assign_of_not_mem fun q hq hqa => hlater ⟨q, hq, hqa⟩, ← hpa]
      exact update_self _ _ _

theorem assign_of_mem {b : β} (hmem : (a, b) ∈ pairs) (h : ∀ p ∈ pairs, p.1 = a → p.2 = b)
    (mem : α → β) : assign pairs mem a = b := by
  obtain ⟨p, hp, hpa, heq⟩ := exists_assign_eq ⟨_, hmem, rfl⟩ mem
  exact heq.trans (h p hp hpa)

end GrokCodec.Assign
