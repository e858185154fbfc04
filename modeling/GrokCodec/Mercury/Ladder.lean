import GrokCodec.Mercury.Synthesis
import Mathlib.Algebra.Order.Group.Multiset

/-!
The vertical ladder of the streaming 5/3 synthesis. Three queues carry the rows: odd input rows wait
in queue 2, even rows with the update step undone in queue 1, finished odd rows in queue 0. The
invariant says which rows each queue must still have; every rung keeps it, and a rung that stops for
want of a row names a rung that can supply one.
-/

namespace GrokCodec.Mercury

open VliftQueue Function Multiset Nat

/-- The first row of a parity at or after `y`. -/
def rowFrom (y p : Int) : Int := y + (p - y) % 2

/-- The last row of a parity at or before `y`. -/
def rowUpTo (y p : Int) : Int := y - (y - p) % 2

/-- The rows taken from all four subbands. -/
def RowSource.total (src : RowSource) : Nat :=
  src.taken 0 + src.taken 1 + src.taken 2 + src.taken 3

/-- A stretch of a run as the row source sees it. All questions were answered with "ready", or, when
`ready` is false, all but the last. No more rows were taken than were said to be ready. -/
structure RowSource.Course (src : RowSource) (ready : Bool) (src' : RowSource) : Prop where
  answer : src'.answer = src.answer
  rows : src'.rows = src.rows
  asked : src.asked ≤ src'.asked
  yes : ready = true → ∀ n, src.asked ≤ n → n < src'.asked → src.answer n = true
  no : ready = false → ∃ n, src'.asked = n + 1 ∧ src.asked ≤ n ∧ src.answer n = false ∧
    ∀ m, src.asked ≤ m → m < n → src.answer m = true
  paid : src.total ≤ src'.total ∧
    src'.total + src.asked + (if ready then 0 else 1) ≤ src.total + src'.asked

namespace RowSource

variable {src src' src'' : RowSource} {ready : Bool}

theorem Course.refl (src : RowSource) : src.Course true src :=
  ⟨rfl, rfl, le_rfl, fun _ n h0 h1 => by omega, by simp, le_rfl, le_rfl⟩

theorem Course.trans (h : src.Course true src') (h' : src'.Course ready src'') :
    src.Course ready src'' := by
  have hasked := h.asked
  have hasked' := h'.asked
  have hbefore (n : Nat) (h0 : src.asked ≤ n) (h1 : n < src'.asked) : src.answer n = true :=
    h.yes rfl n h0 h1
  have hpaid := h.paid
  have hpaid' := h'.paid
  refine ⟨h'.answer.trans h.answer, h'.rows.trans h.rows, by omega, fun hr n h0 h1 => ?_,
    fun hr => ?_, by omega⟩
  · by_cases hn : n < src'.asked
    · exact hbefore n h0 hn
    · rw [← h.answer]
      exact h'.yes hr n (by omega) h1
  · obtain ⟨n, hn, hle, hno, hyes⟩ := h'.no hr
    rw [h.answer] at hno hyes
    refine ⟨n, hn, by omega, hno, fun m h0 h1 => ?_⟩
    by_cases hm : m < src'.asked
    · exact hbefore m h0 hm
    · exact hyes m (by omega) h1

theorem subbandReady_course (src : RowSource) :
    src.Course src.subbandReady.1 src.subbandReady.2 := by
  refine ⟨rfl, rfl, le_succ _, fun hyes n h0 h1 => ?_, fun hno => ?_, ?_⟩
  · obtain rfl : n = src.asked := by
      simp only [subbandReady] at h1
      omega
    exact hyes
  · exact ⟨src.asked, rfl, le_rfl, hno, fun m h0 h1 => by omega⟩
  · have hanswer : (if src.subbandReady.1 then 0 else 1) ≤ 1 := by split <;> decide
    refine ⟨le_rfl, ?_⟩
    show src.total + src.asked + _ ≤ src.total + (src.asked + 1)
    omega

/-- A stretch that ends at its first question takes nothing. -/
theorem Course.none_taken (h : src.Course false src') (hfirst : src'.asked = src.asked + 1) :
    src'.total = src.total := by
  obtain ⟨hle, hpaid⟩ := h.paid
  simp only [Bool.false_eq_true, if_false] at hpaid
  omega

end RowSource

namespace Synthesis

variable (E : SynthesisSetup) (a b : Int)

/-- A level of rows `a … b`, at least two of them, with the 5/3 tables. -/
structure Upright : Prop where
  lt : a < b
  steps : E.steps = w5x3Draft
  numVertSteps : E.params.numVertSteps = 2
  sym : E.params.vertSymmetricExtension = true
  unitHeight : E.params.unitHeight = false
  yMinOut : E.params.yMinOut = a
  yMaxOut : E.params.yMaxOut = b
  yMinIn : ∀ p < 2, E.params.yMinIn p = rowFrom a p
  yMaxIn : ∀ p < 2, E.params.yMaxIn p = rowUpTo b p

/-- The rows of the subbands, and what a line shows that holds an input row, an even row with its
update undone, and a finished odd row. -/
structure Stages where
  rows : Nat → Nat → Wavelet.Line
  Raw : Int → VliftLine → Prop
  Mid : Int → VliftLine → Prop
  Done : Int → VliftLine → Prop

/-- The kernels lead from one stage to the next. -/
structure Weaves (S : Stages) : Prop where
  fresh : ∀ p < 2, ∀ (k : Nat) (line : VliftLine) (src : RowSource), src.rows = S.rows →
    (∀ c < 2, 0 < E.params.requestWidth c → src.taken (2 * p + c) = k) →
    S.Raw (rowFrom a p + 2 * k) (pullRow E p line src).1
  update : ∀ i, a ≤ i → i ≤ b → i % 2 = 0 → ∀ s0 s1 vin vout : VliftLine, S.Raw i vin →
    S.Raw (mirror a b (i - 1)) s0 → S.Raw (mirror a b (i + 1)) s1 →
    S.Mid i (E.plyVlift 1 [s0, s1] vin vout)
  predict : ∀ i, a ≤ i → i ≤ b → i % 2 = 1 → ∀ s0 s1 vin vout : VliftLine, S.Raw i vin →
    S.Mid (mirror a b (i - 1)) s0 → S.Mid (mirror a b (i + 1)) s1 →
    S.Done i (E.plyVlift 0 [s0, s1] vin vout)

/-- Queue `n` of the level. -/
structure QueueShape (n : Nat) (q : VliftQueue) : Prop where
  yMin : q.yMin = a
  yMax : q.yMax = b
  sym : q.symmetricExtension = true
  queueIdx : q.queueIdx = n - 1

/-- Queue `n` with the rows of one stage from `first` up to `next`, its readers no further than
`source` and `update`. -/
structure Stocked (n : Nat) (P : Int → VliftLine → Prop) (q : VliftQueue) (lines : Nat → VliftLine)
    (first next source update : Int) : Prop where
  shape : QueueShape a b n q
  holds : q.Holds (fun i l => P i (lines l)) first next source update
  source_le : q.sourcePos ≤ source
  update_le : q.updatePos ≤ update

/-- The rows in the three queues. Even input rows are taken up to `n0`, odd ones up to `n1`, odd rows
are finished up to `t`, and rows are handed out up to `y`. -/
structure Rows (S : Stages) (q0 q1 q2 : VliftQueue) (lines : Nat → VliftLine) (n0 n1 t y : Int) :
    Prop where
  done : Stocked a b 0 S.Done q0 lines (rowFrom a 1) t (b + 2) (rowFrom y 1)
  mid : Stocked a b 1 S.Mid q1 lines (rowFrom a 0) n0 (t - 1) (rowFrom y 0)
  raw : Stocked a b 2 S.Raw q2 lines (rowFrom a 1) n1 (n0 - 1) t
  even : n0 % 2 = 0 ∧ rowFrom a 0 ≤ n0 ∧ n0 ≤ rowUpTo b 0 + 2
  odd : n1 % 2 = 1 ∧ t ≤ n1 ∧ n1 ≤ rowUpTo b 1 + 2
  finished : t % 2 = 1 ∧ rowFrom a 1 ≤ t
  /-- A finished odd row has both its neighbours behind it. -/
  behind : t = rowFrom a 1 ∨ t ≤ n0 - 1 ∨ rowUpTo b 0 < n0
  out : a ≤ y ∧ rowFrom y 0 ≤ n0 ∧ rowFrom y 1 ≤ t

/-- No line buffer is in two places. -/
structure Owned (pool : Multiset Nat) (numLines : Nat) : Prop where
  nodup : pool.Nodup
  lt : ∀ l ∈ pool, l < numLines

/-- The rows taken of each subband are those before the next one. -/
def Taken (src : RowSource) (next : Nat → Int) : Prop :=
  ∀ p : Nat, p < 2 → ∀ c : Nat, c < 2 → 0 < E.params.requestWidth c →
    rowFrom a p + 2 * (src.taken (2 * p + c) : Int) = next p

/-- The invariant of the ladder. -/
structure Ladder (S : Stages) (st : Synthesis) (src : RowSource) : Prop where
  queued : Rows a b S (st.queues 0) (st.queues 1) (st.queues 2) st.lines (st.yNextIn 0) (st.yNextIn 1)
    (st.stepNextRowPos 0) st.yNextOut
  owned : Owned ((st.queues 0).entries + (st.queues 1).entries + (st.queues 2).entries + st.freeList)
    st.numLines
  step1 : st.stepNextRowPos 1 = st.yNextIn 0
  src_rows : src.rows = S.rows
  taken : Taken E a src st.yNextIn

section Sources

/-- The number of subbands a row is made of. -/
def bandCount (E : SynthesisSetup) : Nat :=
  (if 0 < E.params.requestWidth 0 then 1 else 0) + (if 0 < E.params.requestWidth 1 then 1 else 0)

theorem freshPickReady_course (E : SynthesisSetup) (src : RowSource) :
    src.Course (freshPickReady E src).1 (freshPickReady E src).2 ∧
      (freshPickReady E src).2.taken = src.taken ∧
      ((freshPickReady E src).1 = true →
        (freshPickReady E src).2.asked = src.asked + bandCount E) := by
  -- one subband's question, if it has samples
  have hask (c : Nat) (src : RowSource) :
      let r := if 0 < E.params.requestWidth c then src.subbandReady else (true, src)
      src.Course r.1 r.2 ∧ r.2.taken = src.taken ∧
        r.2.asked = src.asked + if 0 < E.params.requestWidth c then 1 else 0 := by
    by_cases h : 0 < E.params.requestWidth c
    · simp only [h, if_true]
      exact ⟨src.subbandReady_course, rfl, rfl⟩
    · simp only [h, if_false]
      exact ⟨.refl src, trivial, rfl⟩
  obtain ⟨hfirst, htaken, hasked⟩ := hask 0 src
  unfold freshPickReady
  generalize (if 0 < E.params.requestWidth 0 then src.subbandReady else (true, src)) = r at *
  obtain ⟨ready, src1⟩ := r
  cases ready
  · exact ⟨hfirst, htaken, fun h => by cases h⟩
  · obtain ⟨hsecond, htaken', hasked'⟩ := hask 1 src1
    refine ⟨hfirst.trans hsecond, htaken'.trans htaken, fun _ => ?_⟩
    rw [hasked] at hasked'
    exact hasked'.trans (Nat.add_assoc ..)

/-- One row of each of a parity's subbands was taken. -/
structure Pulled (E : SynthesisSetup) (parity : Nat) (src src' : RowSource) : Prop where
  answer : src'.answer = src.answer
  rows : src'.rows = src.rows
  asked : src'.asked = src.asked
  taken : ∀ p c : Nat, c < 2 → src'.taken (2 * p + c) =
    src.taken (2 * p + c) + if p = parity ∧ 0 < E.params.requestWidth c then 1 else 0

theorem pullPhase_source (E : SynthesisSetup) (parity c : Nat) (line : VliftLine)
    (src : RowSource) :
    (pullPhase E parity c line src).2 = { src with
      taken := if 0 < E.params.requestWidth c then
        Function.update src.taken (2 * parity + c) (src.taken (2 * parity + c) + 1)
        else src.taken } := by
  unfold pullPhase
  split
  · rfl
  · rfl

theorem pullRow_pulled (E : SynthesisSetup) (parity : Nat) (line : VliftLine) (src : RowSource) :
    Pulled E parity src (pullRow E parity line src).2 := by
  have hpull : (pullRow E parity line src).2 = (pullPhase E parity 1
    (pullPhase E parity 0 line src).1 (pullPhase E parity 0 line src).2).2 := rfl
  rw [hpull, pullPhase_source, pullPhase_source]
  refine ⟨rfl, rfl, rfl, fun p c hc => ?_⟩
  have hset (f : Nat → Nat) (d : Nat) (hd : d < 2) :
      (if 0 < E.params.requestWidth d then
        Function.update f (2 * parity + d) (f (2 * parity + d) + 1) else f) (2 * p + c) =
        f (2 * p + c) + if (p = parity ∧ 0 < E.params.requestWidth c) ∧ c = d then 1 else 0 := by
    by_cases hhere : p = parity ∧ c = d
    · obtain ⟨rfl, rfl⟩ := hhere
      split <;> simp [*]
    · rw [if_neg (show ¬ ((p = parity ∧ 0 < E.params.requestWidth c) ∧ c = d) by tauto)]
      split
      · exact update_of_ne (by omega) ..
      · rfl
  simp only
  rw [hset _ 1 (by decide), hset _ 0 (by decide)]
  obtain rfl | rfl : c = 0 ∨ c = 1 := by omega
  · simp
  · simp

/-- A row that is taken after its subbands were said to be ready. -/
theorem pulled_course {parity : Nat} (hparity : parity < 2) {src src1 src' : RowSource}
    (hask : freshPickReady E src = (true, src1)) (hpull : Pulled E parity src1 src') :
    src.Course true src' := by
  obtain ⟨hcourse, htaken, hasked⟩ := freshPickReady_course E src
  rw [hask] at hcourse htaken hasked
  simp only at hcourse htaken hasked
  have hgo := hpull.asked
  refine ⟨hpull.answer.trans hcourse.answer, hpull.rows.trans hcourse.rows, hgo ▸ hcourse.asked,
    fun _ => hgo ▸ hcourse.yes rfl, by simp, ?_⟩
  have h0 := hpull.taken 0 0 (by decide)
  have h1 := hpull.taken 0 1 (by decide)
  have h2 := hpull.taken 1 0 (by decide)
  have h3 := hpull.taken 1 1 (by decide)
  rw [htaken] at h0 h1 h2 h3
  simp only [Nat.mul_zero, Nat.mul_one, Nat.zero_add, Nat.add_zero, reduceAdd] at h0 h1 h2 h3
  simp only [RowSource.total, if_true, h0, h1, h2, h3, hgo, hasked, bandCount]
  obtain rfl | rfl : parity = 0 ∨ parity = 1 := by omega
  all_goals
    simp only [true_and, zero_ne_one, one_ne_zero, false_and, if_false]
    omega

end Sources

section Pool

variable {m : Multiset Nat} {l N : Nat} {rest : List Nat}

/-- There is a free line after `ensure_slack_line`. -/
theorem Owned.slack (st : Synthesis) (h : Owned (m + st.freeList) st.numLines) :
    ∃ l rest N, st.ensureSlackLine = { st with numLines := N, freeList := l :: rest } ∧
      Owned (m + ↑(l :: rest)) N := by
  unfold ensureSlackLine
  cases hfree : st.freeList with
  | nil =>
    refine ⟨st.numLines, [], st.numLines + 1, by rw [if_pos rfl], ?_, fun l hl => ?_⟩
    · rw [hfree] at h
      have hnew : st.numLines ∉ m := fun hmem =>
        lt_irrefl _ (h.lt _ (mem_add.mpr (.inl hmem)))
      rw [coe_singleton, add_comm, singleton_add]
      exact nodup_cons.mpr ⟨hnew, by simpa using h.nodup⟩
    · rcases mem_add.mp hl with hl | hl
      · exact lt_succ_of_lt (h.lt l (mem_add.mpr (.inl hl)))
      · simp only [mem_coe, List.mem_singleton] at hl
        omega
  | cons l rest =>
    refine ⟨l, rest, st.numLines, ?_, hfree ▸ h⟩
    rw [if_neg (List.cons_ne_nil _ _), ← hfree]

theorem Owned.not_mem (h : Owned (m + ↑(l :: rest)) N) : l ∉ m := fun hmem =>
  disjoint_left.mp (nodup_add.mp h.nodup).2.2 hmem List.mem_cons_self

theorem Owned.not_mem_queues {q0 q1 q2 : VliftQueue}
    (h : Owned (q0.entries + q1.entries + q2.entries + ↑(l :: rest)) N) :
    l ∉ q0.entries ∧ l ∉ q1.entries ∧ l ∉ q2.entries := by
  have := h.not_mem
  simp only [mem_add, mem_coe, not_or] at this
  exact ⟨this.1.1, this.1.2, this.2⟩

theorem pool_moved {q q' : VliftQueue} {freeList freeList' : List Nat} {s u : Int}
    (h : Moved q q' freeList freeList' s u) (m m' : Multiset Nat) :
    m + q'.entries + m' + freeList' = m + q.entries + m' + freeList := by
  rw [add_right_comm, add_assoc m, h.pool]
  abel

end Pool

section Rungs

variable {E} {a b} {S : Stages} {st : Synthesis} {src : RowSource}

/-- What a rung is for has not come to its end. -/
def Wanted (b : Int) (st : Synthesis) : Nat → Prop
  | 0 => st.stepNextRowPos 0 ≤ rowUpTo b 1
  | 1 => st.yNextIn 0 ≤ rowUpTo b 0
  | _ => st.yNextIn 1 ≤ rowUpTo b 1

/-- The rows still to be taken or finished. -/
def work (b : Int) (st : Synthesis) : Nat :=
  (rowUpTo b 1 + 2 - st.yNextIn 1 + (rowUpTo b 0 + 2 - st.yNextIn 0) +
    (rowUpTo b 1 + 2 - st.stepNextRowPos 0)).toNat

theorem Weaves.pulled (W : Weaves E a b S) {p : Nat} (hp : p < 2) {next : Nat → Int}
    (hn : next p % 2 = p) (hfirst : rowFrom a p ≤ next p) (line : VliftLine) (hrows : src.rows = S.rows)
    (htaken : Taken E a src next) : S.Raw (next p) (pullRow E p line src).1 := by
  have hindex : rowFrom a p + 2 * (((next p - rowFrom a p) / 2).toNat : Int) = next p := by
    unfold rowFrom at *
    omega
  rw [← hindex]
  refine W.fresh p hp _ _ src hrows fun c hc hw => ?_
  have := htaken p hp c hc hw
  omega

theorem Pulled.taken_next {parity : Nat} {src' : RowSource} (h : Pulled E parity src src')
    {next : Nat → Int} (htaken : Taken E a src next) :
    Taken E a src' (Function.update next parity (next parity + 2)) := by
  intro p hp c hc hw
  have := htaken p hp c hc hw
  rw [h.taken p c hc, update_apply]
  by_cases hpar : p = parity
  · subst hpar
    simp only [hw, and_self, if_true]
    omega
  · simpa [hpar] using this

/-- How rung `s` may end. -/
structure Climbs (E : SynthesisSetup) (a b : Int) (S : Stages) (s : Nat) (st : Synthesis)
    (src : RowSource) (r : Rung) (st' : Synthesis) (src' : RowSource) : Prop where
  ladder : Ladder E a b S st' src'
  course : src.Course (decide (r ≠ .stalled)) src'
  out : st'.yNextOut = st.yNextOut ∧ st'.initialized = st.initialized
  work_le : work b st' ≤ work b st
  next : r = .next → Wanted b st s → work b st' + 2 ≤ work b st
  broke : ∀ m, r = .broke m → s < m ∧ m ≤ 2 ∧ Wanted b st' m

theorem Ladder.asked (L : Ladder E a b S st src) {src' : RowSource}
    (hrows : src'.rows = src.rows) (htaken : src'.taken = src.taken) :
    Ladder E a b S st src' :=
  { L with
    src_rows := hrows.trans L.src_rows
    taken := fun p hp c hc hw => by rw [htaken]; exact L.taken p hp c hc hw }

theorem Ladder.requeue (L : Ladder E a b S st src) {queues : Nat → VliftQueue}
    (hqueued : Rows a b S (queues 0) (queues 1) (queues 2) st.lines (st.yNextIn 0) (st.yNextIn 1)
      (st.stepNextRowPos 0) st.yNextOut)
    (hentries : (queues 0).entries = (st.queues 0).entries ∧
      (queues 1).entries = (st.queues 1).entries ∧ (queues 2).entries = (st.queues 2).entries) :
    Ladder E a b S { st with queues } src :=
  { L with
    queued := hqueued
    owned := by
      rw [hentries.1, hentries.2.1, hentries.2.2]
      exact L.owned }

theorem Ladder.ended (L : Ladder E a b S st src) {s : Nat} (h : ¬Wanted b st s) :
    Climbs E a b S s st src .next st src :=
  ⟨L, .refl src, ⟨rfl, rfl⟩, le_rfl, fun _ hw => absurd hw h, by simp⟩

theorem Ladder.stalled (L : Ladder E a b S st src) (s : Nat) {src' : RowSource}
    (hcourse : src.Course false src') (htaken : src'.taken = src.taken) :
    Climbs E a b S s st src .stalled st src' :=
  ⟨L.asked hcourse.rows htaken, hcourse, ⟨rfl, rfl⟩, le_rfl, by simp, by simp⟩

section Stock

variable {n l : Nat} {P : Int → VliftLine → Prop} {q q' : VliftQueue} {lines : Nat → VliftLine}
  {line : VliftLine} {first next source update source' update' i p : Int}
  {freeList freeList' : List Nat}

theorem QueueShape.moved {s u : Int} (h : QueueShape a b n q)
    (hm : Moved q q' freeList freeList' s u) : QueueShape a b n q' :=
  ⟨hm.yMin.trans h.yMin, hm.yMax.trans h.yMax, hm.symmetricExtension.trans h.sym,
    hm.queueIdx.trans h.queueIdx⟩

theorem Stocked.write (h : Stocked a b n P q lines first next source update) (line : VliftLine)
    (hl : l ∉ q.entries) :
    Stocked a b n P q (Function.update lines l line) first next source update := by
  refine { h with holds := h.holds.imp fun i k hk hP => ?_ }
  have hne : k ≠ l := fun heq => hl (heq ▸ hk)
  simpa only [update_of_ne hne] using hP

/-- The readers may stop anywhere before their bounds. -/
theorem Stocked.set (h : Stocked a b n P q lines first next source update) {s u : Int}
    (hs : s ≤ source) (hu : u ≤ update) :
    Stocked a b n P { q with sourcePos := s, updatePos := u } lines first next source update :=
  ⟨⟨h.shape.yMin, h.shape.yMax, h.shape.sym, h.shape.queueIdx⟩, h.holds.move s u, hs, hu⟩

theorem Stocked.later (h : Stocked a b n P q lines first next source update)
    (hs : source ≤ source') : Stocked a b n P q lines first next source' update :=
  { h with holds := h.holds.mono hs le_rfl, source_le := h.source_le.trans hs }

/-- A free line that is pushed on a queue. -/
theorem Stocked.push (rest : List Nat) (h : Stocked a b n P q lines first next source update)
    (hl : l ∉ q.entries) (hpar : (next - (n - 1)) % 2 = 0) (hnext : update ≤ next)
    (hP : P next line) :
    ∃ q', q.pushPick next l rest = some (q', rest) ∧
      Stocked a b n P q' (Function.update lines l line) first (next + 2) source update ∧
      ∀ m m' : Multiset Nat, m + q'.entries + m' + rest = m + q.entries + m' + ↑(l :: rest) := by
  obtain ⟨q', hpush, hentries, hholds, hm⟩ := pushPick_keep (l := l) rest (h.write line hl).holds
    (h.shape.queueIdx ▸ hpar) (h.update_le.trans hnext) (by rwa [update_self])
  refine ⟨q', hpush, ⟨⟨hm.yMin.trans h.shape.yMin, hm.yMax.trans h.shape.yMax,
    hm.symmetricExtension.trans h.shape.sym, hm.queueIdx.trans h.shape.queueIdx⟩, hholds,
    hm.sourcePos.trans_le h.source_le, hm.updatePos.trans_le h.update_le⟩, fun m m' => ?_⟩
  rw [hentries, ← coe_add, coe_singleton, ← cons_coe, ← singleton_add]
  abel

/-- Row `i` is handed to the updating reader, or is still to come. -/
theorem Stocked.tapUpdate (h : Stocked a b n P q lines first next source i)
    (hpar : (i - (n - 1)) % 2 = 0) (hnext : (next - i) % 2 = 0) (hfirst : first ≤ i)
    (freeList : List Nat) :
    (next ≤ i ∧ q.tapUpdate i freeList = some (none, { q with updatePos := i }, freeList)) ∨
    ∃ l q' freeList', q.tapUpdate i freeList = some (some l, q', freeList') ∧ i < next ∧
      P i (lines l) ∧ Stocked a b n P q' lines first next source (i + 2) ∧
      Moved q q' freeList freeList' q.sourcePos (i + 2) := by
  rw [← h.shape.queueIdx] at hpar
  rcases le_or_gt next i with hwait | hthere
  · exact .inl ⟨hwait, tapUpdate_miss freeList h.holds hpar h.update_le hwait⟩
  · obtain ⟨l, q', freeList', htap, -, hP, hholds, hm⟩ := tapUpdate_hit freeList h.holds hpar
      h.update_le h.source_le hfirst hthere hnext le_rfl
    exact .inr ⟨l, q', freeList', htap, hthere, hP,
      ⟨h.shape.moved hm, hholds, hm.sourcePos.trans_le h.source_le, hm.updatePos.le⟩, hm⟩

/-- The step of row `i` finds the two neighbours of the row, or one of them is still to come. -/
theorem Stocked.tap_neighbours (h : Stocked a b n P q lines (rowFrom a p) next (i - 1) update)
    (hab : a < b) (hi : a ≤ i ∧ i ≤ b) (hp : (i - 1 - p) % 2 = 0) (hnext : (next - p) % 2 = 0)
    (hq : (i - n) % 2 = 0) (freeList : List Nat) :
    (next ≤ rowUpTo b p ∧
      q.tapSource (i - 1) 2 freeList = some (none, { q with sourcePos := i - 1 }, freeList)) ∨
    ∃ l0 l1 q' freeList', q.tapSource (i - 1) 2 freeList = some (some [l0, l1], q', freeList') ∧
      (mirror a b (i - 1) < next ∧ mirror a b (i + 1) < next) ∧
      (P (mirror a b (i - 1)) (lines l0) ∧ P (mirror a b (i + 1)) (lines l1)) ∧
      (update ≤ mirror a b (i - 1) → l0 ∈ q'.entries) ∧
      (update ≤ mirror a b (i + 1) → l1 ∈ q'.entries) ∧
      Stocked a b n P q' lines (rowFrom a p) next (i + 1) update ∧
      Moved q q' freeList freeList' (i + 1) q.updatePos := by
  obtain ⟨hmin, hmax, hsym, hidx⟩ := h.shape
  have hsource := h.source_le
  have hsecond : i - 1 + 2 = i + 1 := by omega
  by_cases hthere : mirror a b (i - 1) < next ∧ mirror a b (i + 1) < next
  · right
    have htap := tapSource_hit freeList h.holds hsym (by omega) (by omega) (by omega) hsource
      (by omega) h.update_le (by omega) (by omega) (by
        rw [hmin, hmax, hsecond]
        unfold mirror rowFrom at *
        simp only [List.mem_cons, List.not_mem_nil, or_false, forall_eq_or_imp, forall_eq]
        split_ifs at * <;> omega)
    rw [hmin, hmax, hsecond] at htap
    obtain ⟨l0, l1, q', freeList', heq, hP, hstay0, hstay1, hholds, hm⟩ := htap
    exact ⟨l0, l1, q', freeList', heq, hthere, hP, hstay0, hstay1,
      ⟨h.shape.moved hm, hholds, hm.sourcePos.le, hm.updatePos.trans_le h.update_le⟩, hm⟩
  · left
    refine ⟨?_, tapSource_miss freeList h.holds hsym (by omega) (by omega) hsource (by omega)
      (by omega) ?_⟩
    · unfold mirror rowUpTo at *
      split_ifs at hthere <;> omega
    · rw [hmin, hmax, hsecond]
      omega

end Stock

section Taps

variable {q0 q1 q2 : VliftQueue} {lines : Nat → VliftLine} {n0 n1 t y : Int}

/-- The update step of an even row finds its odd neighbours, or one of them is still to be taken. -/
theorem Rows.update_tap (Q : Rows a b S q0 q1 q2 lines n0 n1 t y) (hab : a < b)
    (hn : n0 ≤ rowUpTo b 0) (freeList : List Nat) :
    (n1 ≤ rowUpTo b 1 ∧
      q2.tapSource (n0 - 1) 2 freeList = some (none, { q2 with sourcePos := n0 - 1 }, freeList)) ∨
    ∃ l0 l1 q2' freeList', q2.tapSource (n0 - 1) 2 freeList = some (some [l0, l1], q2', freeList') ∧
      (S.Raw (mirror a b (n0 - 1)) (lines l0) ∧ S.Raw (mirror a b (n0 + 1)) (lines l1)) ∧
      (l0 ∈ q2'.entries ∧ l1 ∈ q2'.entries) ∧
      Stocked a b 2 S.Raw q2' lines (rowFrom a 1) n1 (n0 + 1) t ∧
      Moved q2 q2' freeList freeList' (n0 + 1) q2.updatePos := by
  obtain ⟨hpar, hfirst, -⟩ := Q.even
  obtain ⟨hodd, -, -⟩ := Q.odd
  have hbehind := Q.behind
  have hi : a ≤ n0 ∧ n0 ≤ b := by
    unfold rowFrom rowUpTo at *
    omega
  refine (Q.raw.tap_neighbours hab hi (by omega) (by omega) (by push_cast; omega)
    freeList).imp id ?_
  rintro ⟨l0, l1, q2', freeList', heq, -, hraw, hstay0, hstay1, hstock⟩
  -- the rows in use are not finished, so recycling has left them in the queue
  refine ⟨l0, l1, q2', freeList', heq, hraw, ⟨hstay0 ?_, hstay1 ?_⟩, hstock⟩
  · unfold mirror rowFrom rowUpTo at *
    split_ifs <;> omega
  · unfold mirror rowFrom rowUpTo at *
    split_ifs <;> omega

/-- A predict step finds the even neighbours of its row, or one of them is still to be taken. -/
theorem Rows.predict_tap (Q : Rows a b S q0 q1 q2 lines n0 n1 t y) (hab : a < b)
    (ht : t ≤ rowUpTo b 1) (freeList : List Nat) :
    (n0 ≤ rowUpTo b 0 ∧
      q1.tapSource (t - 1) 2 freeList = some (none, { q1 with sourcePos := t - 1 }, freeList)) ∨
    ∃ l0 l1 q1' freeList', q1.tapSource (t - 1) 2 freeList = some (some [l0, l1], q1', freeList') ∧
      (S.Mid (mirror a b (t - 1)) (lines l0) ∧ S.Mid (mirror a b (t + 1)) (lines l1)) ∧
      (t + 2 ≤ n0 - 1 ∨ rowUpTo b 0 < n0) ∧
      Stocked a b 1 S.Mid q1' lines (rowFrom a 0) n0 (t + 1) (rowFrom y 0) ∧
      Moved q1 q1' freeList freeList' (t + 1) q1.updatePos := by
  obtain ⟨heven, -, -⟩ := Q.even
  obtain ⟨hpar, hfirst⟩ := Q.finished
  have hi : a ≤ t ∧ t ≤ b := by
    unfold rowFrom rowUpTo at *
    omega
  refine (Q.mid.tap_neighbours hab hi (by omega) (by omega) (by push_cast; omega)
    freeList).imp id ?_
  rintro ⟨l0, l1, q1', freeList', heq, hthere, hmid, -, -, hstock⟩
  refine ⟨l0, l1, q1', freeList', heq, hmid, ?_, hstock⟩
  unfold mirror rowUpTo at *
  split_ifs at hthere <;> omega

end Taps

theorem Ladder.fresh_climbs (U : Upright E a b) (W : Weaves E a b S)
    (L : Ladder E a b S st src) :
    ∃ r st' src', st.rung E 2 src = some (r, st', src') ∧
      Climbs E a b S 2 st src r st' src' := by
  obtain ⟨hcourse, htaken, -⟩ := freshPickReady_course E src
  have hmax : E.params.yMaxIn 1 = rowUpTo b 1 := U.yMaxIn 1 (by decide)
  have Q := L.queued
  rw [rung, if_pos U.numVertSteps.symm, freshRung]
  simp only [hmax, show 1 - 2 % 2 = 1 from rfl]
  by_cases hend : rowUpTo b 1 < st.yNextIn 1
  · rw [if_pos hend]
    exact ⟨.next, st, src, rfl, L.ended (not_le.mpr hend)⟩
  rw [if_neg hend]
  generalize hask : freshPickReady E src = asked at *
  obtain ⟨ready, src1⟩ := asked
  cases ready with
  | false =>
    exact ⟨.stalled, st, src1, rfl, L.stalled _ hcourse htaken⟩
  | true =>
    obtain ⟨l, rest, N, hslack, howned⟩ := L.owned.slack st
    have hpull := pullRow_pulled E 1 (st.lines l) src1
    obtain ⟨hparity, hfinished, -⟩ := Q.odd
    obtain ⟨-, hfirst⟩ := Q.finished
    have hraw : S.Raw (st.yNextIn 1) (pullRow E 1 (st.lines l) src1).1 :=
      W.pulled (by decide) hparity (hfirst.trans hfinished) _ (hcourse.rows.trans L.src_rows)
        (L.asked hcourse.rows htaken).taken
    obtain ⟨hl0, hl1, hl2⟩ := howned.not_mem_queues
    obtain ⟨q, hpush, hpushed, hpool⟩ := Q.raw.push rest hl2 (by push_cast; omega) hfinished hraw
    refine ⟨.next, { st with
      numLines := N, freeList := rest
      lines := Function.update st.lines l (pullRow E 1 (st.lines l) src1).1
      queues := Function.update st.queues 2 q
      yNextIn := Function.update st.yNextIn 1 (st.yNextIn 1 + 2) },
      (pullRow E 1 (st.lines l) src1).2, ?_, ?_⟩
    · simp [hslack, popLine, hweave, pushPick, setLine, setQueue, hpush]
    have hqueued : Rows a b S (st.queues 0) (st.queues 1) q
        (Function.update st.lines l (pullRow E 1 (st.lines l) src1).1) (st.yNextIn 0)
        (st.yNextIn 1 + 2) (st.stepNextRowPos 0) st.yNextOut :=
      { Q with
        done := Q.done.write _ hl0
        mid := Q.mid.write _ hl1
        raw := hpushed
        odd := ⟨by omega, by omega, by omega⟩ }
    have hwork : work b { st with
        numLines := N, freeList := rest
        lines := Function.update st.lines l (pullRow E 1 (st.lines l) src1).1
        queues := Function.update st.queues 2 q
        yNextIn := Function.update st.yNextIn 1 (st.yNextIn 1 + 2) } + 2 ≤ work b st := by
      simp only [work, update_self, ne_eq, zero_ne_one, not_false_eq_true,
        update_of_ne]
      have := Q.even
      omega
    refine ⟨⟨by simpa [update_apply] using hqueued, ?_, ?_, ?_, ?_⟩, ?_, ⟨rfl, rfl⟩,
      le_of_add_right_le hwork, fun _ _ => hwork, by simp⟩
    · rw [← add_zero (_ + (st.queues 2).entries : Multiset Nat), ← hpool, add_zero] at howned
      simpa [update_apply] using howned
    · simpa [update_apply] using L.step1
    · exact (hpull.rows.trans hcourse.rows).trans L.src_rows
    · exact hpull.taken_next (L.asked hcourse.rows htaken).taken
    · exact pulled_course E (by decide) hask hpull

theorem Rows.setBeatLimit {q0 q1 q2 : VliftQueue} {lines : Nat → VliftLine} {n0 n1 t y : Int}
    (h : Rows a b S q0 q1 q2 lines n0 n1 t y) (i : Int) :
    Rows a b S q0 (q1.setBeatLimit i) q2 lines n0 n1 t y ∧
      (q1.setBeatLimit i).entries = q1.entries := by
  unfold VliftQueue.setBeatLimit
  split
  case isTrue hlt =>
    exact ⟨{ h with mid := h.mid.set h.mid.source_le (hlt.le.trans h.mid.update_le) }, rfl⟩
  case isFalse => exact ⟨h, rfl⟩

variable (st src) in
/-- The last step with its odd rows at hand: an even row is taken, and updated in the line it was
taken into. -/
theorem applyStep_update (U : Upright E a b) (W : Weaves E a b S) {q2 : VliftQueue} {l0 l1 : Nat}
    (Q : Rows a b S (st.queues 0) (st.queues 1) q2 st.lines (st.yNextIn 0) (st.yNextIn 1)
      (st.stepNextRowPos 0) st.yNextOut) (hn : st.yNextIn 0 ≤ rowUpTo b 0)
    (hstock : Stocked a b 2 S.Raw (st.queues 2) st.lines (rowFrom a 1) (st.yNextIn 1)
      (st.yNextIn 0 + 1) (st.stepNextRowPos 0))
    (hmem : l0 ∈ (st.queues 2).entries ∧ l1 ∈ (st.queues 2).entries)
    (hraw : S.Raw (mirror a b (st.yNextIn 0 - 1)) (st.lines l0) ∧
      S.Raw (mirror a b (st.yNextIn 0 + 1)) (st.lines l1))
    (howned : Owned ((st.queues 0).entries + (st.queues 1).entries + (st.queues 2).entries +
      st.freeList) st.numLines)
    (hrows : src.rows = S.rows) (htaken : Taken E a src st.yNextIn) :
    ∃ st' src', st.applyStep E 1 (st.yNextIn 0) [l0, l1] src = some (.next, st', src') ∧
      Ladder E a b S st' src' ∧ Pulled E 0 src src' ∧
      (st'.yNextOut = st.yNextOut ∧ st'.initialized = st.initialized) ∧
      work b st' + 2 ≤ work b st := by
  obtain ⟨l, rest, N, hslack, howned⟩ := howned.slack st
  have hpull := pullRow_pulled E 0 (st.lines l) src
  have hstep : E.step 1 = ⟨-1, 2, 2, 2, [1, 1]⟩ := by rw [SynthesisSetup.step, U.steps]; rfl
  obtain ⟨hparity, hfirst, -⟩ := Q.even
  obtain ⟨hy, hout, -⟩ := Q.out
  have hfresh : S.Raw (st.yNextIn 0) (pullRow E 0 (st.lines l) src).1 :=
    W.pulled (by decide) hparity hfirst _ hrows htaken
  obtain ⟨hl0, hl1, hl2⟩ := howned.not_mem_queues
  have hne {k : Nat} (hk : k ∈ (st.queues 2).entries) : k ≠ l := fun heq => hl2 (heq ▸ hk)
  obtain ⟨line, hline⟩ : ∃ line, E.plyVlift 1 [st.lines l0, st.lines l1]
      (pullRow E 0 (st.lines l) src).1 (pullRow E 0 (st.lines l) src).1 = line := ⟨_, rfl⟩
  have hmid : S.Mid (st.yNextIn 0) line := by
    rw [← hline]
    refine W.update _ ?_ ?_ hparity _ _ _ _ hfresh hraw.1 hraw.2
    · unfold rowFrom at *
      omega
    · unfold rowUpTo at *
      omega
  obtain ⟨q, hpush, hpushed, hpool⟩ := Q.mid.push rest hl1 (by push_cast; omega) hout hmid
  refine ⟨{ st with
    numLines := N, freeList := rest
    lines := Function.update st.lines l line
    queues := Function.update st.queues 1 q
    yNextIn := Function.update st.yNextIn 0 (st.yNextIn 0 + 2)
    stepNextRowPos := Function.update st.stepNextRowPos 1 (st.yNextIn 0 + 2) },
    (pullRow E 0 (st.lines l) src).2, ?_, ?_, hpull, ⟨rfl, rfl⟩, ?_⟩
  · simp [applyStep, stepInput, U.numVertSteps, hslack, popLine, hweave, pushPick, setLine, setQueue,
      hpush, hstep, hne hmem.1, hne hmem.2, hline]
  · have hparityB : rowUpTo b 0 % 2 = 0 := by
      unfold rowUpTo
      omega
    have hbehind := Q.behind
    have hqueued : Rows a b S (st.queues 0) q (st.queues 2) (Function.update st.lines l line)
        (st.yNextIn 0 + 2) (st.yNextIn 1) (st.stepNextRowPos 0) st.yNextOut :=
      { Q with
        done := Q.done.write _ hl0
        mid := hpushed
        raw := (hstock.write _ hl2).later (by omega)
        even := ⟨by omega, by omega, by omega⟩
        behind := by omega
        out := ⟨hy, by omega, Q.out.2.2⟩ }
    refine ⟨by simpa [update_apply] using hqueued, ?_, by simp, hpull.rows.trans hrows, ?_⟩
    · rw [← hpool] at howned
      simpa [update_apply] using howned
    · exact hpull.taken_next htaken
  · have := Q.odd
    simp only [work, update_self, ne_eq, one_ne_zero, zero_ne_one, not_false_eq_true,
      update_of_ne]
    omega

/-- The rung of the last step takes an even row and updates it, while there are any. -/
theorem Ladder.update_climbs (U : Upright E a b) (W : Weaves E a b S)
    (L : Ladder E a b S st src) :
    ∃ r st' src', st.rung E 1 src = some (r, st', src') ∧
      Climbs E a b S 1 st src r st' src' := by
  obtain ⟨hcourse, htaken, -⟩ := freshPickReady_course E src
  have hmax : E.params.yMaxIn 0 = rowUpTo b 0 := U.yMaxIn 0 (by decide)
  have hstep : E.step 1 = ⟨-1, 2, 2, 2, [1, 1]⟩ := by rw [SynthesisSetup.step, U.steps]; rfl
  have Q := L.queued
  rw [rung, if_neg (by rw [U.numVertSteps]; decide), liftRung]
  simp only [show 1 - 1 % 2 = 0 from rfl, U.numVertSteps, if_true, L.step1, hmax, hstep]
  by_cases hend : rowUpTo b 0 < st.yNextIn 0
  · rw [if_pos hend]
    exact ⟨.next, st, src, rfl, L.ended (not_le.mpr hend)⟩
  rw [if_neg hend]
  generalize hask : freshPickReady E src = asked at *
  obtain ⟨ready, src1⟩ := asked
  have hset : st.setQueue 3 (st.queues 3) = st := by simp [setQueue]
  simp only [Bool.true_eq_false, if_false, hset]
  cases ready with
  | false =>
    exact ⟨.stalled, st, src1, rfl, L.stalled _ hcourse htaken⟩
  | true =>
    have hlast := not_lt.mp hend
    obtain ⟨hparity, hfirst, -⟩ := Q.even
    have hflip : flip (st.yNextIn 0) + 2 * -1 = st.yNextIn 0 - 1 := by
      rw [flip, if_pos hparity]
      omega
    obtain ⟨Qb, hbeat⟩ := Q.setBeatLimit (st.yNextIn 0 - 1 - 2)
    simp only [Bool.true_eq_false, if_false, hflip]
    rcases Qb.update_tap U.lt hlast st.freeList with ⟨hwait, htap⟩ |
      ⟨l0, l1, q2, freeList, htap, hraw, hmem, hstock, hmoved⟩
    · refine ⟨.broke 2, { st with
        queues := Function.update (Function.update st.queues 1
          ((st.queues 1).setBeatLimit (st.yNextIn 0 - 1 - 2))) 2
            { st.queues 2 with sourcePos := st.yNextIn 0 - 1 } }, src1, ?_, ?_⟩
      · simp [tapSource, setQueue, htap]
      refine ⟨(L.asked hcourse.rows htaken).requeue ?_ ?_, hcourse, ⟨rfl, rfl⟩, le_rfl, by simp,
        fun m hm => ?_⟩
      · simpa [update_apply] using { Qb with raw := Q.raw.set le_rfl Q.raw.update_le }
      · simp [hbeat]
      · obtain rfl : 2 = m := by simpa using hm
        exact ⟨by decide, le_rfl, hwait⟩
    · have howned := L.owned
      rw [add_assoc, ← hmoved.pool, ← add_assoc] at howned
      obtain ⟨st', src', heq, hladder, hpull, hout, hwork⟩ := applyStep_update
        { st with
          freeList, queues := Function.update (Function.update st.queues 1
            ((st.queues 1).setBeatLimit (st.yNextIn 0 - 1 - 2))) 2 q2 } src1 U W
        (by simpa [update_apply] using Qb) hlast (by simpa using hstock) (by simpa using hmem)
        (by simpa using hraw) (by simpa [hbeat] using howned) (hcourse.rows.trans L.src_rows)
        (L.asked hcourse.rows htaken).taken
      refine ⟨.next, st', src', ?_, hladder, pulled_course E (by decide) hask hpull, hout,
        le_of_add_right_le hwork, fun _ _ => hwork, by simp⟩
      simpa [tapSource, setQueue, htap] using heq

variable (st) in
/-- The first step with its even rows at hand: an odd row is finished, in a line of its own. -/
theorem applyStep_predict (U : Upright E a b) (W : Weaves E a b S) {q1 : VliftQueue} {l0 l1 : Nat}
    (Q : Rows a b S (st.queues 0) q1 (st.queues 2) st.lines (st.yNextIn 0) (st.yNextIn 1)
      (st.stepNextRowPos 0) st.yNextOut) (ht : st.stepNextRowPos 0 ≤ rowUpTo b 1)
    (hthere : st.stepNextRowPos 0 < st.yNextIn 1)
    (hstock : Stocked a b 1 S.Mid (st.queues 1) st.lines (rowFrom a 0) (st.yNextIn 0)
      (st.stepNextRowPos 0 + 1) (rowFrom st.yNextOut 0))
    (hbehind : st.stepNextRowPos 0 + 2 ≤ st.yNextIn 0 - 1 ∨ rowUpTo b 0 < st.yNextIn 0)
    (hmid : S.Mid (mirror a b (st.stepNextRowPos 0 - 1)) (st.lines l0) ∧
      S.Mid (mirror a b (st.stepNextRowPos 0 + 1)) (st.lines l1))
    (howned : Owned ((st.queues 0).entries + (st.queues 1).entries + (st.queues 2).entries +
      st.freeList) st.numLines)
    (hstep1 : st.stepNextRowPos 1 = st.yNextIn 0) (hrows : src.rows = S.rows)
    (htaken : Taken E a src st.yNextIn) :
    ∃ st', st.applyStep E 0 (st.stepNextRowPos 0) [l0, l1] src = some (.next, st', src) ∧
      Ladder E a b S st' src ∧
      (st'.yNextOut = st.yNextOut ∧ st'.initialized = st.initialized) ∧
      work b st' + 2 ≤ work b st := by
  have hstep : E.step 0 = ⟨0, 2, 1, 1, [-1, -1]⟩ := by rw [SynthesisSetup.step, U.steps]; rfl
  obtain ⟨hodd, -, -⟩ := Q.odd
  obtain ⟨hparity, hfirst⟩ := Q.finished
  obtain ⟨hy, heven, hout⟩ := Q.out
  obtain ⟨vin, q2, freeList2, htap, -, hraw, hstock2, hmoved2⟩ := (Q.raw.tapUpdate
    (by push_cast; omega) (by omega) hfirst st.freeList).resolve_left fun h => by omega
  rw [add_assoc, ← hmoved2.pool, ← add_assoc] at howned
  obtain ⟨l, rest, N, hslack, howned⟩ := Owned.slack
    { st with freeList := freeList2, queues := Function.update st.queues 2 q2 } howned
  obtain ⟨hl0, hl1, hl2⟩ := howned.not_mem_queues
  obtain ⟨line, hline⟩ : ∃ line, E.plyVlift 0 [st.lines l0, st.lines l1] (st.lines vin)
      (st.lines l) = line := ⟨_, rfl⟩
  have hdone : S.Done (st.stepNextRowPos 0) line := by
    rw [← hline]
    refine W.predict _ ?_ ?_ hparity _ _ _ _ hraw hmid.1 hmid.2
    · unfold rowFrom at *
      omega
    · unfold rowUpTo at *
      omega
  obtain ⟨q, hpush, hpushed, hpool⟩ := Q.done.push rest hl0 (by push_cast; omega) hout hdone
  refine ⟨{ st with
    numLines := N, freeList := rest
    lines := Function.update st.lines l line
    queues := Function.update (Function.update st.queues 2 q2) 0 q
    stepNextRowPos := Function.update st.stepNextRowPos 0 (st.stepNextRowPos 0 + 2) },
    ?_, ?_, ⟨rfl, rfl⟩, ?_⟩
  · simp [applyStep, stepInput, U.numVertSteps, tapUpdate, htap, hslack, popLine, pushPick, setLine,
      setQueue, hpush, hstep, hline]
  · have hqueued : Rows a b S q (st.queues 1) q2 (Function.update st.lines l line)
        (st.yNextIn 0) (st.yNextIn 1) (st.stepNextRowPos 0 + 2) st.yNextOut :=
      { Q with
        done := hpushed
        mid := (hstock.write _ hl1).later (by omega)
        raw := hstock2.write _ hl2
        odd := ⟨hodd, by omega, Q.odd.2.2⟩
        finished := ⟨by omega, by omega⟩
        behind := .inr hbehind
        out := ⟨hy, heven, by omega⟩ }
    have hpool := hpool 0 ((st.queues 1).entries + q2.entries)
    simp only [zero_add, ← add_assoc] at hpool
    refine ⟨by simpa [update_apply] using hqueued, ?_, by simpa using hstep1, hrows, htaken⟩
    rw [← hpool] at howned
    simpa [update_apply] using howned
  · have := Q.even
    have := Q.odd
    simp only [work, update_self]
    omega

/-- The rung of the first step finishes an odd row, while there are any. -/
theorem Ladder.predict_climbs (U : Upright E a b) (W : Weaves E a b S)
    (L : Ladder E a b S st src) :
    ∃ r st' src', st.rung E 0 src = some (r, st', src') ∧
      Climbs E a b S 0 st src r st' src' := by
  have hmax : E.params.yMaxIn 1 = rowUpTo b 1 := U.yMaxIn 1 (by decide)
  have hstep : E.step 0 = ⟨0, 2, 1, 1, [-1, -1]⟩ := by rw [SynthesisSetup.step, U.steps]; rfl
  have Q := L.queued
  rw [rung, if_neg (by rw [U.numVertSteps]; decide), liftRung]
  simp only [show 1 - 0 % 2 = 1 from rfl, U.numVertSteps, hmax, hstep, VliftQueue.probeUpdate]
  by_cases hend : rowUpTo b 1 < st.stepNextRowPos 0
  · rw [if_pos hend]
    exact ⟨.next, st, src, rfl, L.ended (not_le.mpr hend)⟩
  have hlast := not_lt.mp hend
  obtain ⟨hodd, -, -⟩ := Q.odd
  obtain ⟨hparity, hfirst⟩ := Q.finished
  -- the queue after it was asked for the row
  obtain ⟨q2, hq2⟩ : ∃ q2 : VliftQueue,
      { st.queues 2 with updatePos := st.stepNextRowPos 0 } = q2 := ⟨_, rfl⟩
  have Qp : Rows a b S (st.queues 0) (st.queues 1) q2 st.lines (st.yNextIn 0) (st.yNextIn 1)
      (st.stepNextRowPos 0) st.yNextOut := by
    subst hq2
    exact { Q with raw := Q.raw.set Q.raw.source_le le_rfl }
  have hentries : q2.entries = (st.queues 2).entries := by rw [← hq2]
  have hprobe : ((st.queues 2).headIdx ≤ st.stepNextRowPos 0 ∧
      st.stepNextRowPos 0 ≤ (st.queues 2).tailIdx) ↔ st.stepNextRowPos 0 < st.yNextIn 1 := by
    constructor
    · rintro ⟨-, htail⟩
      by_contra hge
      exact absurd (Q.raw.holds.tail_lt (not_lt.mp hge)) (not_lt.mpr htail)
    · intro hlt
      obtain ⟨hhead, htail, -⟩ := Q.raw.holds.hit hfirst hlt (by omega) (.inr le_rfl)
      exact ⟨hhead, htail⟩
  simp only [hend, hprobe, hq2]
  by_cases hthere : st.stepNextRowPos 0 < st.yNextIn 1
  · have hflip : flip (st.stepNextRowPos 0) = st.stepNextRowPos 0 - 1 := by
      rw [flip, if_neg (by omega)]
    rcases Qp.predict_tap U.lt hlast st.freeList with ⟨hwait, htap⟩ |
      ⟨l0, l1, q1, freeList, htap, hmid, hbehind, hstock, hmoved⟩
    · refine ⟨.broke 1, { st with
        queues := Function.update (Function.update st.queues 2 q2) 1
          { st.queues 1 with sourcePos := st.stepNextRowPos 0 - 1 } }, src, ?_, ?_⟩
      · simp [hthere, hflip, tapSource, setQueue, htap]
      refine ⟨L.requeue ?_ ?_, .refl src, ⟨rfl, rfl⟩, le_rfl, by simp, fun m hm => ?_⟩
      · simpa [update_apply] using { Qp with mid := Q.mid.set le_rfl Q.mid.update_le }
      · simp [hentries]
      · obtain rfl : 1 = m := by simpa using hm
        exact ⟨by decide, by decide, hwait⟩
    · have howned := L.owned
      rw [← pool_moved hmoved] at howned
      obtain ⟨st', heq, hladder, hout, hwork⟩ := applyStep_predict
        { st with
          freeList, queues := Function.update (Function.update st.queues 2 q2) 1 q1 } U W
        (by simpa [update_apply] using Qp) hlast hthere (by simpa using hstock) hbehind hmid
        (by simpa [hentries] using howned) L.step1 L.src_rows L.taken
      refine ⟨.next, st', src, ?_, hladder, .refl src, hout, le_of_add_right_le hwork,
        fun _ _ => hwork, by simp⟩
      simpa [hthere, hflip, tapSource, setQueue, htap] using heq
  · refine ⟨.broke 2, { st with queues := Function.update st.queues 2 q2 }, src, ?_, ?_⟩
    · simp [hthere, setQueue]
    refine ⟨L.requeue (by simpa [update_apply] using Qp) ?_, .refl src, ⟨rfl, rfl⟩, le_rfl,
      by simp, fun m hm => ?_⟩
    · simp [hentries]
    · obtain rfl : 2 = m := by simpa using hm
      exact ⟨by decide, le_rfl, (not_lt.mp hthere).trans hlast⟩

end Rungs

end Synthesis

end GrokCodec.Mercury
