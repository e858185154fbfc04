import Mathlib.Data.List.Basic

/-!
Loops that can be left in the middle and entered again.

An iterator written as nested `for` loops over fields of one record hands out an item by
returning from inside the loops; the next call re-enters every loop where the fields say it
was. `Outcome` is the result of one call, `Emits` the sequence of items of repeated calls,
and `Spec` a triple with an output list whose rules follow the loop structure.
-/

namespace GrokCodec.Resumable

open List

universe u v w

variable {σ : Type u} {ι : Type v} {κ : Type w}

/-- How one entry into a piece of resumable code ends: control falls through, leaves the
innermost loop, an item is handed out, or the iterator gives up. `spin` stands for a loop that
exceeded its bound. -/
inductive Outcome (σ : Type u) where
  | done (s : σ)
  | leave (s : σ)
  | yield (s : σ)
  | stop (s : σ)
  | spin
  deriving DecidableEq

/-- Sequential composition: only code that fell through continues. -/
def Outcome.andThen : Outcome σ → (σ → Outcome σ) → Outcome σ
  | .done s, f => f s
  | .leave s, _ => .leave s
  | .yield s, _ => .yield s
  | .stop s, _ => .stop s
  | .spin, _ => .spin

/-- What an iteration's result means for its loop: `f` runs the remaining iterations. -/
def Outcome.iterate : Outcome σ → (σ → Outcome σ) → Outcome σ
  | .done s, f => f s
  | .leave s, _ => .done s
  | .yield s, _ => .yield s
  | .stop s, _ => .stop s
  | .spin, _ => .spin

/-- Code followed by an assignment. -/
def Outcome.after (o : Outcome σ) (post : σ → σ) : Outcome σ :=
  o.andThen fun s => .done (post s)

@[simp] theorem iterate_done (s : σ) (f : σ → Outcome σ) : (Outcome.done s).iterate f = f s := rfl
@[simp] theorem iterate_leave (s : σ) (f : σ → Outcome σ) :
    (Outcome.leave s).iterate f = .done s := rfl
@[simp] theorem iterate_yield (s : σ) (f : σ → Outcome σ) :
    (Outcome.yield s).iterate f = .yield s := rfl
@[simp] theorem iterate_stop (s : σ) (f : σ → Outcome σ) :
    (Outcome.stop s).iterate f = .stop s := rfl
@[simp] theorem iterate_spin (f : σ → Outcome σ) : Outcome.spin.iterate f = .spin := rfl
@[simp] theorem after_done (s : σ) (post : σ → σ) :
    (Outcome.done s).after post = .done (post s) := rfl
@[simp] theorem after_yield (s : σ) (post : σ → σ) :
    (Outcome.yield s).after post = .yield s := rfl

/-- `for(; cond; inc) body` with at most `n` iterations. -/
def forFuel (cond : σ → Bool) (inc : σ → σ) (body : σ → Outcome σ) : Nat → σ → Outcome σ
  | 0, s => if cond s then .spin else .done s
  | n + 1, s =>
    if cond s then (body s).iterate fun t => forFuel cond inc body n (inc t) else .done s

/-- `for(; cond; inc) body`, entered at whatever iteration the state describes. -/
def forLoop (bound : σ → Nat) (cond : σ → Bool) (inc : σ → σ) (body : σ → Outcome σ) (s : σ) :
    Outcome σ :=
  forFuel cond inc body (bound s) s

variable {cond : σ → Bool} {inc : σ → σ}

variable {body : σ → Outcome σ}

theorem forFuel_succ (n : Nat) (s : σ) (h : forFuel cond inc body n s ≠ .spin) :
    forFuel cond inc body (n + 1) s = forFuel cond inc body n s := by
  induction n generalizing s with
  | zero =>
    by_cases hc : cond s
    · simp [forFuel, hc] at h
    · simp [forFuel, hc]
  | succ n ih =>
    by_cases hc : cond s
    · cases hb : body s with
      | done t =>
        have step (k : Nat) : forFuel cond inc body (k + 1) s = forFuel cond inc body k (inc t) := by
          simp [forFuel, hc, hb]
        rw [step n] at h
        rw [step, step, ih (inc t) h]
      | leave t => simp [forFuel, hc, hb]
      | yield t => simp [forFuel, hc, hb]
      | stop t => simp [forFuel, hc, hb]
      | spin => simp [forFuel, hc, hb]
    · simp [forFuel, hc]

theorem forFuel_of_le {n m : Nat} {s : σ} (hnm : n ≤ m) (h : forFuel cond inc body n s ≠ .spin) :
    forFuel cond inc body m s = forFuel cond inc body n s := by
  induction hnm with
  | refl => rfl
  | step _ ih => rw [forFuel_succ _ _ (by rw [ih]; exact h), ih]

/-- Calling `f` again and again from `s` hands out exactly the items of the list and then
falls through in the final state. Every state it is re-entered from satisfies `K`. -/
inductive Emits (f : σ → Outcome σ) (item : σ → ι) (K : σ → Prop) : σ → List ι → σ → Prop where
  | done {s t} (h : f s = .done t) : Emits f item K s [] t
  | yield {s m t is} (h : f s = .yield m) (hK : K m) (rest : Emits f item K m is t) :
      Emits f item K s (item m :: is) t

/-- Everything repeated calls of `next` hand out until it reports that nothing is left,
whichever way it ends. -/
inductive Enumerates (next : σ → Outcome σ) (item : σ → ι) : σ → List ι → Prop where
  | done {s t} (h : next s = .done t) : Enumerates next item s []
  | stop {s t} (h : next s = .stop t) : Enumerates next item s []
  | yield {s m is} (h : next s = .yield m) (rest : Enumerates next item m is) :
      Enumerates next item s (item m :: is)

/-- At most `n` calls of `next`; `none` when they do not exhaust it. -/
def enumerate (next : σ → Outcome σ) (item : σ → ι) : Nat → σ → Option (List ι)
  | 0, _ => none
  | n + 1, s =>
    match next s with
    | .done _ => some []
    | .stop _ => some []
    | .leave _ => none
    | .yield m => (enumerate next item n m).map (item m :: ·)
    | .spin => none

section Emits

variable {f g : σ → Outcome σ} {item : σ → ι} {K L : σ → Prop} {s t : σ} {is : List ι}

variable (h : Emits f item K s is t)

include h

theorem Emits.mono (hKL : ∀ m, K m → L m) : Emits f item L s is t := by
  induction h with
  | done h => exact .done h
  | yield h hK _ ih => exact .yield h (hKL _ hK) ih

theorem Emits.congr (hs : g s = f s) (hK : ∀ m, K m → g m = f m) : Emits g item K s is t := by
  induction h with
  | done h => exact .done (hs.trans h)
  | yield h hm _ ih => exact .yield (hs.trans h) hm (ih (hK _ hm))

theorem Emits.of_eq {s₁ : σ} (hs : f s₁ = f s) : Emits f item K s₁ is t := by
  cases h with
  | done h => exact .done (hs.trans h)
  | yield h hK rest => exact .yield (hs.trans h) hK rest

theorem Emits.after (post : σ → σ) : Emits (fun s => (f s).after post) item K s is (post t) := by
  induction h with
  | done h => exact .done (by simp [h])
  | yield h hK _ ih => exact .yield (by simp [h]) hK ih

omit h

variable {bound : σ → Nat}

theorem forLoop_eq_done_step {cond : σ → Bool} {inc : σ → σ} (hc : cond s = true)
    (hb : body s = .done t) (hlt : bound (inc t) < bound s)
    (hns : forLoop bound cond inc body (inc t) ≠ .spin) :
    forLoop bound cond inc body s = forLoop bound cond inc body (inc t) := by
  unfold forLoop at hns ⊢
  obtain ⟨n, hn⟩ : ∃ n, bound s = n + 1 := ⟨bound s - 1, by omega⟩
  rw [hn, forFuel, if_pos hc, hb, iterate_done]
  exact forFuel_of_le (by omega) hns

theorem Emits.forLoop_cons {cond : σ → Bool} {inc : σ → σ} (hbody : Emits body item K s is t)
    (hs : cond s = true ∧ bound (inc t) < bound s)
    (hK : ∀ m, K m → cond m = true ∧ bound (inc t) < bound m) (hKL : ∀ m, K m → L m)
    (hrest : Emits (forLoop bound cond inc body) item L (inc t) is' t') :
    Emits (forLoop bound cond inc body) item L s (is ++ is') t' := by
  induction hbody with
  | @done s t h =>
    refine hrest.of_eq (forLoop_eq_done_step hs.1 h hs.2 ?_)
    cases hrest with
    | done h => simp [h]
    | yield h _ _ => simp [h]
  | @yield s m t is h hm _ ih =>
    refine Emits.yield ?_ (hKL _ hm) (ih (hK _ hm) hK hrest)
    obtain ⟨n, hn⟩ : ∃ n, bound s = n + 1 := ⟨bound s - 1, by omega⟩
    unfold forLoop
    rw [hn, forFuel, if_pos hs.1, h, iterate_yield]

theorem Emits.enumerates (h : Emits f item K s is t) : Enumerates f item s is := by
  induction h with
  | done h => exact .done h
  | yield h _ _ ih => exact .yield h ih

theorem Enumerates.unique (h : Enumerates f item s is) (h' : Enumerates f item s is') :
    is = is' := by
  induction h generalizing is' with
  | done h => cases h' <;> simp_all
  | stop h => cases h' <;> simp_all
  | yield h _ ih =>
    cases h' with
    | done h₂ => rw [h] at h₂; cases h₂
    | stop h₂ => rw [h] at h₂; cases h₂
    | yield h₂ rest =>
      rw [h] at h₂
      cases h₂
      rw [ih rest]

theorem enumerate_sound {n : Nat} (h : enumerate f item n s = some is) :
    Enumerates f item s is := by
  induction n generalizing s is with
  | zero => simp [enumerate] at h
  | succ n ih =>
    rw [enumerate] at h
    split at h
    case h_1 hd => cases h; exact .done hd
    case h_2 hs => cases h; exact .stop hs
    case h_3 => cases h
    case h_4 m hy =>
      obtain ⟨is', hm, rfl⟩ := Option.map_eq_some_iff.mp h
      exact .yield hy (ih hm)
    case h_5 => cases h

/-- What is handed out by an iterator that gives up after the first item that is not `ok`. -/
def cut (ok : ι → Bool) : List ι → List ι
  | [] => []
  | a :: l => a :: if ok a then cut ok l else []

variable {ok : ι → Bool}

theorem cut_eq_self {l : List ι} (h : ∀ a ∈ l, ok a = true) : cut ok l = l := by
  induction l with
  | nil => rfl
  | cons a l ih =>
    rw [cut, if_pos (h a mem_cons_self), ih fun b hb => h b (mem_cons_of_mem _ hb)]

theorem mem_cut_append_cons {l l' : List ι} {a : ι} (h : ∀ b ∈ l, ok b = true) :
    a ∈ cut ok (l ++ a :: l') := by
  induction l with
  | nil => simp [cut]
  | cons b l ih =>
    rw [cons_append, cut, if_pos (h b mem_cons_self)]
    exact mem_cons_of_mem _ (ih fun b hb => h b (mem_cons_of_mem _ hb))

/-- A test made on every entry, which depends on the item handed out last. -/
theorem Emits.cut_enumerates {test : σ → Bool} (h : Emits f item K s is t)
    (hg : ∀ s, g s = if test s then f s else .stop s) (hs : test s = true)
    (hK : ∀ m, K m → test m = ok (item m)) : Enumerates g item s (cut ok is) := by
  induction h with
  | done h => exact .done (by rw [hg, if_pos hs, h])
  | @yield s m t is h hm _ ih =>
    refine .yield (by rw [hg, if_pos hs, h]) ?_
    cases hok : ok (item m) with
    | true => exact ih ((hK m hm).trans hok)
    | false => exact .stop (t := m) (by rw [hg, hK m hm, hok]; rfl)

end Emits

/-- A triple with output. From any state with history `h` that satisfies `P`, the code hands
out the items `out` and falls through to a state that satisfies `Q` for the extended history;
it is only re-entered from states in `K`. `Ok` limits the histories under consideration. -/
def Spec (Ok : List ι → Prop) (item : σ → ι) (f : σ → Outcome σ) (P : List ι → σ → Prop)
    (K : σ → Prop) (out : List ι) (Q : List ι → σ → Prop) : Prop :=
  ∀ h s, Ok (h ++ out) → P h s → ∃ t, Emits f item K s out t ∧ Q (h ++ out) t

section Spec

variable {Ok : List ι → Prop} {item : σ → ι} {f g : σ → Outcome σ}
variable {P Q P' Q' : List ι → σ → Prop} {K L : σ → Prop} {out : List ι}

theorem Spec.conseq (h : Spec Ok item f P K out Q) (hP : ∀ h s, P' h s → P h s)
    (hK : ∀ s, K s → L s) (hQ : ∀ h s, Q h s → Q' h s) : Spec Ok item f P' L out Q' := by
  intro hist s hok hs
  obtain ⟨t, he, ht⟩ := h hist s hok (hP _ _ hs)
  exact ⟨t, he.mono hK, hQ _ _ ht⟩

theorem Spec.congr (h : Spec Ok item f P K out Q) (hP : ∀ h s, P h s → g s = f s)
    (hK : ∀ s, K s → g s = f s) : Spec Ok item g P K out Q := by
  intro hist s hok hs
  obtain ⟨t, he, ht⟩ := h hist s hok hs
  exact ⟨t, he.congr (hP _ _ hs) hK, ht⟩

variable {post : σ → σ}

theorem Spec.weaken (h : Spec Ok item f P K out Q) (hK : ∀ s, K s → L s) :
    Spec Ok item f P L out Q :=
  h.conseq (fun _ _ h => h) hK (fun _ _ h => h)

theorem Spec.forget (h : Spec Ok item f P K out Q) : Spec Ok item f P K out fun _ _ => True :=
  h.conseq (fun _ _ h => h) (fun _ h => h) (fun _ _ _ => trivial)

theorem Spec.after (h : Spec Ok item f P K out Q) (hQ : ∀ h s, Q h s → Q' h (post s)) :
    Spec Ok item (fun s => (f s).after post) P K out Q' := by
  intro hist s hok hs
  obtain ⟨t, he, ht⟩ := h hist s hok hs
  exact ⟨post t, he.after post, hQ _ _ ht⟩

theorem Spec.skip (h : ∀ h s, P h s → ∃ t, f s = .done t ∧ Q h t) : Spec Ok item f P K [] Q := by
  intro hist s _ hs
  obtain ⟨t, ht, hQ⟩ := h hist s hs
  exact ⟨t, .done ht, by simpa using hQ⟩

/-- The loop rule, for a loop in which `get` takes the values `steps p` below `e`. `A p` describes
the loop head at value `p` and `B p` the end of the body there. -/
theorem Spec.forLoop {get : σ → Nat} {inc : σ → σ} {A B : Nat → List ι → σ → Prop}
    {out : Nat → List ι} {steps : Nat → List Nat} {next : Nat → Nat} {e : Nat}
    (hOk : ∀ a b, Ok (a ++ b) → Ok a)
    (hsteps : ∀ p, steps p = if p < e then p :: steps (next p) else [])
    (hlt : ∀ p, p < e → p < next p) (hget : ∀ p h s, A p h s → get s = p)
    (hinc : ∀ p h s, B p h s → A (next p) h (inc s))
    (hbody : ∀ p, p < e → Spec Ok item body (A p) (fun m => get m = p ∧ K m) (out p) (B p))
    (p : Nat) :
    Spec Ok item (Resumable.forLoop (fun s => e - get s) (fun s => decide (get s < e)) inc body)
      (A p) K ((steps p).flatMap out) (fun h s => ∃ q, A q h s) := by
  obtain ⟨n, hn⟩ : ∃ n, n = e - p := ⟨_, rfl⟩
  induction n using Nat.strongRecOn generalizing p with
  | ind n ih =>
    rw [hsteps p]
    by_cases hp : p < e
    · rw [if_pos hp, flatMap_cons]
      intro h s hok hs
      rw [← append_assoc] at hok
      obtain ⟨t, he, hB⟩ := hbody p hp h s (hOk _ _ hok) hs
      have hA := hinc _ _ _ hB
      have hgt := hlt p hp
      obtain ⟨t', he', hA'⟩ := ih _ (by omega) (next p) rfl (h ++ out p) (inc t) hok hA
      refine ⟨t', ?_, by rw [← append_assoc]; exact hA'⟩
      have hnext := hget _ _ _ hA
      have hstart := hget _ _ _ hs
      refine he.forLoop_cons ⟨by simp [hstart, hp], by omega⟩ (fun m hm => ?_) (fun m hm => hm.2) he'
      exact ⟨by simp [hm.1, hp], by omega⟩
    · rw [if_neg hp]
      refine Spec.skip fun h s hs => ⟨s, ?_, p, hs⟩
      rw [Resumable.forLoop, hget _ _ _ hs, show e - p = 0 by omega, forFuel]
      simp [hget _ _ _ hs, hp]

theorem range'_steps (e p : Nat) :
    List.range' p (e - p) = if p < e then p :: List.range' (p + 1) (e - (p + 1)) else [] := by
  split
  · rw [show e - p = e - (p + 1) + 1 by omega, List.range'_succ]
  · rw [show e - p = 0 by omega, List.range'_zero]

/-- A loop that counts `get` up to `e`. Its body leaves the rest of the state alone, so `A p`
describes the state at count `p`. -/
theorem Spec.counterLoop {get : σ → Nat} {inc : σ → σ} {A : Nat → List ι → σ → Prop}
    {out : Nat → List ι} {a e : Nat} (hOk : ∀ a b, Ok (a ++ b) → Ok a)
    (hget : ∀ p h s, A p h s → get s = p) (hinc : ∀ p h s, A p h s → A (p + 1) h (inc s))
    (hbody : ∀ p, p < e → Spec Ok item body (A p) (fun m => get m = p ∧ K m) (out p) (A p)) :
    Spec Ok item (Resumable.forLoop (fun s => e - get s) (fun s => decide (get s < e)) inc body)
      (A a) K ((List.range' a (e - a)).flatMap out) (fun h s => ∃ p, A p h s) :=
  Spec.forLoop hOk (range'_steps e) (fun p _ => Nat.lt_succ_self p) hget hinc hbody a

/-- Code that hands out one item on each entry and counts them itself. `A k` describes the state in
which item `k` is the next. -/
theorem Spec.countUp {A : Nat → List ι → σ → Prop} {val : Nat → ι} {e : Nat}
    (hOk : ∀ a b, Ok (a ++ b) → Ok a)
    (hdone : ∀ k h s, e ≤ k → A k h s → ∃ t, f s = .done t ∧ Q h t)
    (hyield : ∀ k h s, k < e → Ok (h ++ [val k]) → A k h s →
      ∃ m, f s = .yield m ∧ item m = val k ∧ K m ∧ A (k + 1) (h ++ [val k]) m) (k : Nat) :
    Spec Ok item f (A k) K ((List.range' k (e - k)).map val) Q := by
  obtain ⟨n, hn⟩ : ∃ n, n = e - k := ⟨_, rfl⟩
  induction n generalizing k with
  | zero =>
    rw [← hn]
    exact Spec.skip fun h s hs => hdone k h s (by omega) hs
  | succ n ih =>
    rw [range'_steps, if_pos (by omega), map_cons]
    intro h s hok hs
    rw [append_cons] at hok ⊢
    obtain ⟨m, hf, hitem, hK, hA⟩ := hyield k h s (by omega) (hOk _ _ hok) hs
    obtain ⟨t, he, ht⟩ := ih (k + 1) (by omega) _ m hok hA
    exact ⟨t, hitem ▸ .yield hf hK he, ht⟩

theorem Spec.sweep {A : Nat → List ι → σ → Prop} {R : List ι → σ → Prop}
    (h : Spec Ok item f P K out fun h s => ∃ p, A p h s)
    (hreset : ∀ p h s, A p h s → R h (post s)) :
    Spec Ok item (fun s => (f s).after post) P K out R :=
  h.after fun _ _ ⟨p, hs⟩ => hreset p _ _ hs

end Spec

end GrokCodec.Resumable
