import GrokCodec.Lib.MixedRadix
import Mathlib.Order.Monotone.Basic

/-!
Families of pieces that make up a whole without overlap: cutting an interval at the multiples of
a size, and putting two such families together as rows and columns.
-/

namespace GrokCodec.Tiling

open Nat

variable {α β : Type} {m n : Nat}

/-- The first `n` pieces are disjoint, and together they are `whole`. -/
structure Splits (n : Nat) (piece : Nat → α → Prop) (whole : α → Prop) : Prop where
  unique : ∀ {i j a}, i < n → j < n → piece i a → piece j a → i = j
  union : ∀ a, (∃ i, i < n ∧ piece i a) ↔ whole a

namespace Splits

variable {piece piece' : Nat → α → Prop} {whole : α → Prop}

theorem congr (h : Splits n piece whole) (hp : ∀ i, i < n → ∀ a, piece' i a ↔ piece i a) :
    Splits n piece' whole where
  unique := by
    intro i j a hi hj ha hb
    exact h.unique hi hj ((hp i hi a).mp ha) ((hp j hj a).mp hb)
  union := by
    intro a
    rw [← h.union a]
    constructor
    · rintro ⟨i, hi, ha⟩
      exact ⟨i, hi, (hp i hi a).mp ha⟩
    · rintro ⟨i, hi, ha⟩
      exact ⟨i, hi, (hp i hi a).mpr ha⟩

theorem of_void (hp : ∀ i, i < n → ∀ a, ¬ piece i a) (hw : ∀ a, ¬ whole a) :
    Splits n piece whole where
  unique := fun hi _ ha _ => absurd ha (hp _ hi _)
  union := by
    intro a
    constructor
    · rintro ⟨i, hi, ha⟩
      exact absurd ha (hp i hi a)
    · intro ha
      exact absurd ha (hw a)

/-- Rows and columns: piece `k` of the product is column `k % m` of row `k / m`. -/
theorem prod {column : Nat → α → Prop} {row : Nat → β → Prop} {wholeA : α → Prop}
    {wholeB : β → Prop} (hA : Splits m column wholeA) (hB : Splits n row wholeB) :
    Splits (m * n) (fun k (p : α × β) => column (k % m) p.1 ∧ row (k / m) p.2)
      (fun p => wholeA p.1 ∧ wholeB p.2) where
  unique := by
    intro k l p hk hl hpk hpl
    have hm : 0 < m := Nat.pos_of_mul_pos_right (zero_lt_of_lt hk)
    have hcolumn := hA.unique (mod_lt k hm) (mod_lt l hm) hpk.1 hpl.1
    have hrow := hB.unique (Nat.div_lt_of_lt_mul hk) (Nat.div_lt_of_lt_mul hl) hpk.2 hpl.2
    rw [← div_add_mod k m, ← div_add_mod l m, hcolumn, hrow]
  union := by
    intro p
    constructor
    · rintro ⟨k, hk, hp⟩
      have hm : 0 < m := Nat.pos_of_mul_pos_right (zero_lt_of_lt hk)
      exact ⟨(hA.union p.1).mp ⟨_, mod_lt k hm, hp.1⟩,
        (hB.union p.2).mp ⟨_, Nat.div_lt_of_lt_mul hk, hp.2⟩⟩
    · rintro ⟨ha, hb⟩
      obtain ⟨i, hi, hci⟩ := (hA.union p.1).mpr ha
      obtain ⟨j, hj, hrj⟩ := (hB.union p.2).mpr hb
      obtain ⟨hk, hcolumn, hrow⟩ := MixedRadix.index_iff.mp ⟨hi, hj, rfl⟩
      exact ⟨_, hk, hcolumn ▸ hci, hrow ▸ hrj⟩

end Splits

/-- The intervals between increasing cuts. -/
theorem splits_cuts {cut : Nat → Nat} (h : Monotone cut) (n : Nat) :
    Splits n (fun i v => cut i ≤ v ∧ v < cut (i + 1)) (fun v => cut 0 ≤ v ∧ v < cut n) where
  unique := by
    intro i j v _ _ hi hj
    by_contra hne
    rcases Nat.lt_or_gt_of_ne hne with hlt | hlt
    · exact absurd (h (show i + 1 ≤ j from hlt)) (by omega)
    · exact absurd (h (show j + 1 ≤ i from hlt)) (by omega)
  union := by
    intro v
    constructor
    · rintro ⟨i, hi, hlo, hhi⟩
      exact ⟨(h i.zero_le).trans hlo, hhi.trans_le (h hi)⟩
    · rintro ⟨hlo, hhi⟩
      induction n with
      | zero => omega
      | succ n ih =>
        by_cases hv : v < cut n
        · obtain ⟨i, hi, hin⟩ := ih hv
          exact ⟨i, by omega, hin⟩
        · exact ⟨n, by omega, by omega, hhi⟩

/-- Where cell `i` of a clipped interval starts and the one before it ends. -/
def cut (lo hi start size i : Nat) : Nat := max lo (min hi (start + i * size))

theorem cut_mono {lo hi start size : Nat} : Monotone (cut lo hi start size) := fun i j hij => by
  have hle := mul_le_mul_right size hij
  unfold cut
  omega

theorem splits_cells {lo hi q size : Nat} (hlo : q * size ≤ lo) (hhi : hi ≤ (q + n) * size) :
    Splits n (fun i v => (lo ≤ v ∧ v < hi) ∧ (q + i) * size ≤ v ∧ v < (q + i + 1) * size)
      (fun v => lo ≤ v ∧ v < hi) := by
  have hfirst : cut lo hi (q * size) size 0 = lo := by
    unfold cut
    omega
  have hlast : ∀ v, lo ≤ v ∧ v < cut lo hi (q * size) size n ↔ lo ≤ v ∧ v < hi := by
    intro v
    rw [Nat.add_mul] at hhi
    unfold cut
    omega
  have hcuts := splits_cuts (@cut_mono lo hi (q * size) size) n
  simp only [hfirst, hlast] at hcuts
  refine hcuts.congr fun i _ v => ?_
  rw [Nat.add_assoc, Nat.add_mul, Nat.add_mul q (i + 1)]
  unfold cut
  omega

end GrokCodec.Tiling
