import GrokCodec.Lib.Trace

/-!
The ring between two nodes of the weft graph. Producer and consumer each own a counter and see the
other's as it was when they last looked. The counters are `usize` and wrap round, which moves the slots
unless the number of slots divides `2 ^ 64`.
-/

namespace GrokCodec.Weft

open Trace List Nat Function

def usize (n : Nat) : Nat := n % 2 ^ 64

/-- `seenHead` and `seenTail` are what each side last saw of the other's counter. `beaten` and
`unwound` record the contents of the slots that were beaten across and unwound, as they were then. -/
structure Ring (T : Type) where
  slots : Nat → T
  head : Nat
  tail : Nat
  seenHead : Nat
  seenTail : Nat
  beaten : List T
  unwound : List T

inductive RingOp (T : Type) where
  | slack
  | pick (i : Nat) (content : T)
  | beat (n : Nat)
  | picksReady
  | peek (i : Nat)
  | unwind (n : Nat)

namespace Ring

variable {T : Type}

def slack (span : Nat) (r : Ring T) : Nat :=
  usize (span + 2 ^ 64 - usize (r.tail + 2 ^ 64 - r.seenHead))

def picksReady (r : Ring T) : Nat := usize (r.seenTail + 2 ^ 64 - r.head)

/-- The slot `i` places behind a counter. -/
def idx (span counter i : Nat) : Nat := usize (counter + i) % span

/-- The contents of the `n` slots from a counter on. -/
def contents (span : Nat) (r : Ring T) (counter n : Nat) : List T :=
  (range n).map fun i => r.slots (idx span counter i)

inductive Step (span : Nat) : Ring T → RingOp T → Ring T → Prop
  | slack {r} : Step span r .slack { r with seenHead := r.head }
  | pick {r} (i : Nat) (content : T) (h : i < r.slack span) : Step span r (.pick i content)
      { r with slots := update r.slots (idx span r.tail i) content }
  | beat {r} (n : Nat) (h : n ≤ r.slack span) : Step span r (.beat n)
      { r with tail := usize (r.tail + n), beaten := r.beaten ++ r.contents span r.tail n }
  | picksReady {r} : Step span r .picksReady { r with seenTail := r.tail }
  | peek {r i} (h : i < r.picksReady) : Step span r (.peek i) r
  | unwind {r} (n : Nat) (h : n ≤ r.picksReady) : Step span r (.unwind n)
      { r with head := usize (r.head + n), unwound := r.unwound ++ r.contents span r.head n }

/-- A ring of `span` slots after `spin`. -/
def system (T : Type) (span : Nat) : System (Ring T) (RingOp T) where
  init r := ∃ slots, r = ⟨slots, 0, 0, 0, 0, [], []⟩
  step := Step span

/-- The next slots that can be beaten across are numbered below `2 ^ 64`, or wrapping is harmless. -/
def Unwrapped (span : Nat) (r : Ring T) : Prop := span ∣ 2 ^ 64 ∨ r.beaten.length + span ≤ 2 ^ 64

/-- The counters without wrapping are the lengths of the records; `h` and `t` are what they were when
the other side last looked. -/
structure Inv (span : Nat) (r : Ring T) (h t : Nat) : Prop where
  head : r.head = usize r.unwound.length
  tail : r.tail = usize r.beaten.length
  seenHead : r.seenHead = usize h
  seenTail : r.seenTail = usize t
  order : h ≤ r.unwound.length ∧ r.unwound.length ≤ t ∧ t ≤ r.beaten.length ∧
    r.beaten.length ≤ h + span
  small : span ∣ 2 ^ 64 ∨ r.beaten.length ≤ 2 ^ 64
  fifo : r.unwound <+: r.beaten
  kept : ∀ j x, r.unwound.length ≤ j → r.beaten[j]? = some x → r.slots (j % span) = x

variable {span h t : Nat} {r r' : Ring T} {op : RingOp T}

theorem idx_usize {c i : Nat} (hsmall : span ∣ 2 ^ 64 ∨ c + i < 2 ^ 64) :
    idx span (usize c) i = (c + i) % span := by
  rw [idx, usize, usize, mod_add_mod]
  rcases hsmall with hdvd | hlt
  · exact mod_mod_of_dvd _ hdvd
  · rw [mod_eq_of_lt hlt]

theorem mod_ne_of_lt {i j : Nat} (hij : i < j) (hj : j < i + span) : j % span ≠ i % span := by
  intro heq
  have hzero := sub_mod_eq_zero_of_mod_eq heq
  rw [mod_eq_of_lt (by omega)] at hzero
  omega

namespace Inv

variable (I : Inv span r h t)

include I

theorem slack_eq (hmax : span < 2 ^ 63) : r.slack span = h + span - r.beaten.length := by
  have := I.order
  simp only [slack, I.tail, I.seenHead, usize]
  omega

theorem picksReady_eq (hmax : span < 2 ^ 63) : r.picksReady = t - r.unwound.length := by
  have := I.order
  simp only [picksReady, I.head, I.seenTail, usize]
  omega

theorem idx_head {k : Nat} (hk : r.unwound.length + k < r.beaten.length) :
    idx span r.head k = (r.unwound.length + k) % span := by
  rw [I.head]
  exact idx_usize (I.small.imp id fun hle => by omega)

theorem idx_tail (hok : r.Unwrapped span) {i : Nat} (hi : i < span) :
    idx span r.tail i = (r.beaten.length + i) % span := by
  rw [I.tail]
  exact idx_usize (hok.imp id fun hle => by omega)

theorem pick {i : Nat} (content : T) (hok : r.Unwrapped span) (hi : i < h + span - r.beaten.length) :
    Inv span { r with slots := update r.slots (idx span r.tail i) content } h t := by
  have horder := I.order
  refine { I with kept := fun j x (hj : r.unwound.length ≤ j) hx => ?_ }
  have hlt : j < r.beaten.length := (List.getElem?_eq_some_iff.mp hx).1
  rw [I.idx_tail hok (by omega)]
  exact (update_of_ne (mod_ne_of_lt (by omega) (by omega)).symm _ _).trans (I.kept j x hj hx)

theorem beat {n : Nat} (hok : r.Unwrapped span) (hn : n ≤ h + span - r.beaten.length) :
    Inv span { r with
      tail := usize (r.tail + n), beaten := r.beaten ++ r.contents span r.tail n } h t := by
  have horder := I.order
  have hlen : (r.beaten ++ r.contents span r.tail n).length = r.beaten.length + n := by
    simp [contents]
  refine ⟨I.head, ?_, I.seenHead, I.seenTail, ?_, ?_, I.fifo.trans ⟨_, rfl⟩, ?_⟩
  · rw [hlen, I.tail, usize, usize, usize, mod_add_mod]
  · simp only [hlen]
    omega
  · simp only [hlen]
    exact hok.imp id fun hle => by omega
  · intro j x hj hx
    rcases Nat.lt_or_ge j r.beaten.length with hlt | hge
    · rw [getElem?_append_left hlt] at hx
      exact I.kept j x hj hx
    · rw [getElem?_append_right hge, contents, getElem?_map] at hx
      obtain ⟨i, hi, rfl⟩ := Option.map_eq_some_iff.mp hx
      obtain ⟨hin, rfl⟩ := List.getElem?_eq_some_iff.mp hi
      rw [length_range] at hin
      rw [getElem_range, I.idx_tail hok (by omega), Nat.add_sub_cancel' hge]

theorem contents_eq {n : Nat} (hn : n ≤ t - r.unwound.length) :
    r.contents span r.head n = (r.beaten.drop r.unwound.length).take n := by
  have horder := I.order
  refine ext_getElem (by simp [contents]; omega) fun i hi _ => ?_
  have hin : i < n := by simpa [contents] using hi
  have hlt : r.unwound.length + i < r.beaten.length := by omega
  simp only [contents, getElem_map, getElem_range, getElem_take, getElem_drop]
  rw [I.idx_head hlt]
  exact I.kept _ _ (le_add_right _ _) (getElem?_eq_getElem hlt)

theorem unwind {n : Nat} (hn : n ≤ t - r.unwound.length) :
    Inv span { r with
      head := usize (r.head + n), unwound := r.unwound ++ r.contents span r.head n } h t := by
  have horder := I.order
  have hlen : (r.unwound ++ r.contents span r.head n).length = r.unwound.length + n := by
    simp [contents]
  refine ⟨?_, I.tail, I.seenHead, I.seenTail, ?_, I.small, ?_, ?_⟩
  · rw [hlen, I.head, usize, usize, usize, mod_add_mod]
  · simp only [hlen]
    omega
  · obtain ⟨rest, hrest⟩ := I.fifo
    rw [I.contents_eq hn, ← hrest, drop_left]
    exact prefix_append_right_inj _ |>.mpr <| take_prefix _ _
  · intro j x hj hx
    exact I.kept j x (by simp only [hlen] at hj; omega) hx

theorem step (hmax : span < 2 ^ 63) (hok : r.Unwrapped span) (hstep : Step span r op r') :
    ∃ h' t', Inv span r' h' t' := by
  obtain ⟨hhead, hready, htail, hspan⟩ := I.order
  cases hstep with
  | slack => exact ⟨_, t, { I with
      seenHead := I.head
      order := ⟨le_rfl, hready, htail, hspan.trans (Nat.add_le_add_right hhead _)⟩ }⟩
  | pick i content hi => exact ⟨h, t, I.pick content hok (I.slack_eq hmax ▸ hi)⟩
  | beat n hn => exact ⟨h, t, I.beat hok (I.slack_eq hmax ▸ hn)⟩
  | picksReady => exact ⟨h, _, { I with
      seenTail := I.tail
      order := ⟨hhead, hready.trans htail, le_rfl, hspan⟩ }⟩
  | peek => exact ⟨h, t, I⟩
  | unwind n hn => exact ⟨h, t, I.unwind (I.picksReady_eq hmax ▸ hn)⟩

end Inv

/-- **The ring is a FIFO while its slots are not renumbered by a wrapping counter:** what is unwound is
what was beaten across, in that order; a slot that can be peeked has its content still; and the slots
that can be picked are others. -/
theorem ring_fifo (hmax : span < 2 ^ 63) {tr : List (RingOp T)}
    (hrun : ((system T span).restrict fun r _ _ => r.Unwrapped span).Run tr r) :
    r.unwound <+: r.beaten ∧ ∀ k, r.unwound.length + k < r.beaten.length →
      r.beaten[r.unwound.length + k]? = some (r.slots (idx span r.head k)) ∧
      (r.Unwrapped span → ∀ i < r.slack span, idx span r.tail i ≠ idx span r.head k) := by
  obtain ⟨h, t, I⟩ : ∃ h t, Inv span r h t := by
    refine hrun.invariant (P := fun _ r => ∃ h t, Inv span r h t) ?_ ?_
    · rintro _ ⟨slots, rfl⟩
      exact ⟨0, 0, rfl, rfl, rfl, rfl, by simp, .inr (by simp), List.nil_prefix, by simp⟩
    · rintro tr s op s' ⟨h, t, I⟩ ⟨hstep, hok⟩
      exact I.step hmax hok hstep
  refine ⟨I.fifo, fun k hk => ⟨?_, fun hok i hi => ?_⟩⟩
  · rw [I.idx_head hk, I.kept _ _ (le_add_right _ _) (getElem?_eq_getElem hk)]
    exact getElem?_eq_getElem hk
  · have horder := I.order
    rw [I.slack_eq hmax] at hi
    rw [I.idx_head hk, I.idx_tail hok (by omega)]
    exact mod_ne_of_lt (by omega) (by omega)

theorem ring_fifo_two : ∃ r : Ring Nat, r.unwound = [7] ∧ r.unwound <+: r.beaten := by
  have hok : ∀ r : Ring Nat, r.Unwrapped 2 := fun r => .inl (by decide)
  have hstart : ((system Nat 2).restrict fun r _ _ => r.Unwrapped 2).Run []
      ⟨fun _ => 0, 0, 0, 0, 0, [], []⟩ := .init ⟨_, rfl⟩
  have hbeat := (hstart.step ⟨.pick 0 7 (by decide), hok _⟩).step ⟨.beat 1 (by decide), hok _⟩
  have hunwind := (hbeat.step ⟨.picksReady, hok _⟩).step ⟨.unwind 1 (by decide), hok _⟩
  exact ⟨_, rfl, (ring_fifo (by decide) hunwind).1⟩

/-- Slots that are beaten across and unwound one by one. -/
theorem run_laps (n : Nat) : ∃ tr b u, b.length = u.length ∧
    (system Bool 3).Run tr ⟨fun _ => false, usize n, usize n, usize n, usize n, b, u⟩ := by
  induction n with
  | zero => exact ⟨[], [], [], rfl, .init ⟨_, rfl⟩⟩
  | succ n ih =>
    obtain ⟨tr, b, u, hlen, hrun⟩ := ih
    have hnext : usize (usize n + 1) = usize (n + 1) := mod_add_mod _ _ _
    have hbeat := hrun.step (.beat 1 (by simp only [slack, usize]; omega))
    have hready := hbeat.step .picksReady
    have hunwind := hready.step (.unwind 1 (by simp only [picksReady, usize]; omega))
    have hslack := hunwind.step .slack
    simp only [hnext] at hslack
    exact ⟨_, _, _, by simp [hlen, contents], hslack⟩

/-- Three slots: when the counter has wrapped round, the slot that was beaten across last is picked. -/
theorem ring_not_fifo : ∃ tr r, (system Bool 3).Run tr r ∧ ¬ r.unwound <+: r.beaten := by
  obtain ⟨tr, b, u, hlen, hrun⟩ := run_laps (2 ^ 64 - 1)
  have hc : usize (2 ^ 64 - 1) = 2 ^ 64 - 1 := by decide
  generalize usize (2 ^ 64 - 1) = c at hrun hc
  have hpick := hrun.step (.pick 0 true (by simp only [slack, usize]; omega))
  have hbeat := hpick.step (.beat 1 (by simp only [slack, usize]; omega))
  have hagain := hbeat.step (.pick 0 false (by simp only [slack, usize]; omega))
  have hunwind := (hagain.step .picksReady).step (.unwind 1 (by simp only [picksReady, usize]; omega))
  have hfirst : idx 3 c 0 = 0 := by rw [hc]; decide
  have hagain : idx 3 (usize (c + 1)) 0 = 0 := by rw [hc]; decide
  refine ⟨_, _, hunwind, fun hfifo => ?_⟩
  simp only [contents, range_one, map_cons, map_nil, hfirst, hagain, update_self] at hfifo
  have heq := hfifo.eq_of_length (by simp [hlen])
  exact absurd (append_inj_right' heq rfl) (by decide)

end Ring

end GrokCodec.Weft
