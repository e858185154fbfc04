import GrokCodec.Mercury.Hweave
import GrokCodec.Mercury.Weave

/-!
The rows drawn from the streaming synthesis are the rows of one level of the whole-tile transform,
whatever the source answers and whenever it stalls.
-/

namespace GrokCodec.Mercury.Synthesis

open Lifting Wavelet VliftQueue List

section Level

variable (cur : TileCompBounds) (p : Plane)

/-- The rows of the four bands of a level, laid out in one buffer. -/
def bandRows (band k : Nat) : Line := fun i =>
  p ((if band < 2 then 0 else (cur.resolution 1).height) + k)
    ((if band % 2 = 0 then 0 else (cur.resolution 1).width) + i)

/-- A source of these rows. -/
def bandSource (answer : Nat → Bool) : RowSource :=
  { answer, asked := 0, rows := bandRows cur p, taken := fun _ => 0 }

/-- Row `r` of the buffer after the horizontal transform. -/
def hrow (r : Nat) : Line :=
  synthLine cur.x0 cur.x1
    (interleave53 (cur.x0 % 2) (p r) fun i => p r ((cur.resolution 1).width + i))

/-- Column `j` of the horizontally transformed rows, low-pass and high-pass rows in turn. -/
def column (j : Nat) : Line :=
  interleave53 (cur.y0 % 2) (fun i => hrow cur p i j)
    fun i => hrow cur p ((cur.resolution 1).height + i) j

variable {cur p}

theorem width_eq : cur.toRect.width = cur.x1 - cur.x0 := sub32_of_le cur.x_lt.le cur.x1_lt

theorem height_eq : cur.toRect.height = cur.y1 - cur.y0 := sub32_of_le cur.y_lt.le cur.y1_lt

theorem low_width : (cur.resolution 1).width = (cur.x1 - cur.x0 + (1 - cur.x0 % 2)) / 2 := by
  have h : (cur.resolution 1).width = (cur.toRect.width + (1 - cur.x0 % 2)) / 2 :=
    resolution_succ_width
  rw [h, width_eq]

theorem low_height : (cur.resolution 1).height = (cur.y1 - cur.y0 + (1 - cur.y0 % 2)) / 2 := by
  have h : (cur.resolution 1).height = (cur.toRect.height + (1 - cur.y0 % 2)) / 2 :=
    resolution_succ_height
  rw [h, height_eq]

theorem tileLevel53_column {wide : Nat → Bool} {scratch : Line} {r j : Nat}
    (hr : cur.y0 + r < cur.y1) (hj : cur.x0 + j < cur.x1) :
    tileLevel53 wide scratch (cur.resolution 1) cur.toRect {} p r j =
      synthLine cur.y0 cur.y1 (column cur p j) r := by
  have hlw : (cur.resolution 1).width = _ := low_width
  have hlh : (cur.resolution 1).height = _ := low_height
  have hw : cur.toRect.width = _ := width_eq
  have hh : cur.toRect.height = _ := height_eq
  -- a row of the horizontal pass
  have hrow_eq (i : Nat) (hi : cur.y0 + i < cur.y1) :
      h53 scratch (cur.resolution 1) cur.toRect p i j = hrow cur p i j := by
    rw [h53, if_pos (by omega), hrow]
    exact loadH53_synthLine (by omega) hj
  rw [tileLevel53, if_neg (by omega), v53Columns, if_pos (by omega),
    v53_synthLine (by omega) (fun _ _ => by simp [show (cur.resolution 1).height = 0 by omega])
      hr]
  refine synthLine_congr hr fun i hi => ?_
  obtain hpar | hpar : (i + cur.y0 % 2) % 2 = 0 ∨ (i + cur.y0 % 2) % 2 = 1 := by omega
  · rw [column, interleave53_low hpar, interleave53_low hpar, hrow_eq _ (by omega)]
  · rw [column, interleave53_high hpar, interleave53_high hpar, hrow_eq _ (by omega)]

end Level

section Lines

variable {E : SynthesisSetup} {cur : TileCompBounds} {p : Plane}

theorem upright (S : E.Split cur.toRect) (hh : cur.y0 + 2 ≤ cur.y1) :
    Upright E cur.y0 (cur.y1 - 1) where
  lt := by omega
  steps := S.steps
  numVertSteps := S.numSteps.1
  sym := S.sym.1
  unitHeight := by
    rw [S.unitHeight]
    exact decide_eq_false (by omega)
  yMinOut := S.yOut.1
  yMaxOut := S.yOut.2
  yMinIn p hp := (S.yIn hh p hp).1
  yMaxIn p hp := (S.yIn hh p hp).2

/-- A line shows the row of coordinate `i` of a plane given by columns. -/
def ShowsRow (E : SynthesisSetup) (cur : TileCompBounds) (f : Nat → Line) (i : Int)
    (line : VliftLine) : Prop :=
  ∀ j, cur.x0 + j < cur.x1 → E.spliceOutput line j = f j (i - cur.y0).toNat

theorem pullRow_shows (S : E.Split cur.toRect) {parity k : Nat} (hparity : parity < 2)
    {line : VliftLine} {src : RowSource} (hrows : src.rows = bandRows cur p)
    (htaken : ∀ c < 2, 0 < E.params.requestWidth c → src.taken (2 * parity + c) = k) :
    ShowsRow E cur (column cur p) (rowFrom cur.y0 parity + 2 * k) (pullRow E parity line src).1 := by
  intro j hj
  rw [S.splice_pullRow cur.x_lt htaken hj, hrows]
  obtain ⟨r, hr⟩ : ∃ r, (rowFrom cur.y0 parity + 2 * k - cur.y0).toNat = r := ⟨_, rfl⟩
  rw [hr]
  unfold rowFrom at hr
  obtain rfl | rfl : parity = 0 ∨ parity = 1 := by omega
  · have hlow : bandRows cur p 0 k = p k := funext fun i => by simp [bandRows]
    have hhigh : bandRows cur p 1 k = fun i => p k ((cur.resolution 1).width + i) :=
      funext fun i => by simp [bandRows]
    rw [column, interleave53_low (by omega), show r / 2 = k by omega, hrow, ← hhigh, ← hlow]
  · have hlow : bandRows cur p 2 k = p ((cur.resolution 1).height + k) :=
      funext fun i => by simp [bandRows]
    have hhigh : bandRows cur p 3 k =
        fun i => p ((cur.resolution 1).height + k) ((cur.resolution 1).width + i) :=
      funext fun i => by simp [bandRows]
    rw [column, interleave53_high (by omega), show r / 2 = k by omega, hrow, ← hhigh, ← hlow]

theorem mirror_prev {a b i : Int} (h0 : a ≤ i) (h1 : i ≤ b) :
    (mirror a b (i - 1) - a).toNat = prev (i - a).toNat := by
  unfold mirror Lifting.prev
  split_ifs <;> omega

theorem mirror_next {a b i : Int} (h0 : a ≤ i) (h1 : i ≤ b) :
    (mirror a b (i + 1) - a).toNat = next (b + 1 - a).toNat (i - a).toNat := by
  unfold mirror Lifting.next
  split_ifs <;> omega

/-- What the lines show on the way to the rows of the level. -/
def stages (E : SynthesisSetup) (cur : TileCompBounds) (p : Plane) : Stages where
  rows := bandRows cur p
  Raw := ShowsRow E cur (column cur p)
  Mid := ShowsRow E cur fun j => restore53 (cur.y1 - cur.y0) (column cur p j)
  Done := ShowsRow E cur fun j => synthesize53 (cur.y0 % 2) (cur.y1 - cur.y0) (column cur p j)

theorem weaves (S : E.Split cur.toRect) : Weaves E cur.y0 (cur.y1 - 1) (stages E cur p) where
  fresh parity hparity k line src hrows htaken := pullRow_shows S hparity hrows htaken
  update i hi0 hi1 hpar s0 s1 vin vout hvin hs0 hs1 j hj := by
    rw [S.splice_plyVlift hj]
    simp only [map_cons, map_nil]
    rw [S.lift_one, hvin j hj, hs0 j hj, hs1 j hj, mirror_prev hi0 hi1, mirror_next hi0 hi1,
      show ((cur.y1 : Int) - 1 + 1 - cur.y0).toNat = cur.y1 - cur.y0 by omega]
    rfl
  predict i hi0 hi1 hpar s0 s1 vin vout hvin hs0 hs1 j hj := by
    rw [S.splice_plyVlift hj]
    simp only [map_cons, map_nil]
    rw [S.lift_zero, hvin j hj, hs0 j hj, hs1 j hj, mirror_prev hi0 hi1, mirror_next hi0 hi1,
      show ((cur.y1 : Int) - 1 + 1 - cur.y0).toNat = cur.y1 - cur.y0 by omega, sub_neg_eq_add,
      synthesize53_high (by omega)]
    rfl

end Lines

section Calls

/-- The state a call works on. -/
def started (E : SynthesisSetup) (st : Synthesis) : Synthesis :=
  if st.initialized then st else st.warpOutput E

variable {E : SynthesisSetup} {cur : TileCompBounds} {p : Plane} {st : Synthesis} {src : RowSource}
  {m : Nat}

/-- The engine and its source after `m` rows. -/
structure Drawn (E : SynthesisSetup) (cur : TileCompBounds) (p : Plane) (st : Synthesis)
    (src : RowSource) (m : Nat) : Prop where
  out : (st.started E).yNextOut = cur.y0 + m
  rows : src.rows = bandRows cur p
  tall : cur.y0 + 2 ≤ cur.y1 →
    Ladder E cur.y0 (cur.y1 - 1) (stages E cur p) (st.started E) src
  flat : cur.y1 = cur.y0 + 1 → ∀ q < 2, ∀ c < 2, 0 < E.params.requestWidth c →
    src.taken (2 * q + c) = if q = cur.y0 % 2 then m else 0

theorem Drawn.woven_iff (S : E.Split cur.toRect) (D : Drawn E cur p st src m) :
    st.woven E = true ↔ cur.y1 ≤ cur.y0 + m := by
  have hout := D.out
  have hlt := cur.y_lt
  unfold started at hout
  unfold woven
  rw [S.not_empty, S.yOut.2, Bool.false_or]
  cases hinit : st.initialized with
  | true =>
    rw [hinit, if_pos rfl] at hout
    simp only [Bool.true_and, decide_eq_true_eq]
    omega
  | false =>
    rw [hinit, if_neg Bool.false_ne_true] at hout
    have hfirst : (st.warpOutput E).yNextOut = cur.y0 := S.yOut.1
    simp only [Bool.false_and, Bool.false_eq_true, false_iff]
    omega

/-- What a call gives. -/
def Gives (E : SynthesisSetup) (cur : TileCompBounds) (p : Plane) (src : RowSource) (m : Nat) :
    PullStatus → Line → Synthesis → RowSource → Prop
  | .stalled, _, st', src' => Drawn E cur p st' src' m ∧ src.Course false src'
  | .row, row, st', src' => Drawn E cur p st' src' (m + 1) ∧ src.Course true src' ∧
    ∀ j, cur.x0 + j < cur.x1 → row j = synthLine cur.y0 cur.y1 (column cur p j) m

theorem started_initialized : (st.started E).initialized = true := by
  unfold started
  cases h : st.initialized with
  | true => rw [if_pos rfl, h]
  | false => rfl

variable (S : E.Split cur.toRect)

include S

theorem Drawn.tryDraw_tall (hh : cur.y0 + 2 ≤ cur.y1)
    (D : Drawn E cur p st src m) (hm : cur.y0 + m < cur.y1) (output : Line) :
    ∃ status row st' src', st.tryDraw E output src = some (status, row, st', src') ∧
      Gives E cur p src m status row st' src' := by
  have hinit : (st.started E).initialized = true := started_initialized
  have hout := D.out
  have hunit : ¬ (E.params.numVertSteps = 0 ∨ E.params.unitHeight = true) := by
    rw [S.numSteps.1, S.unitHeight, decide_eq_true_eq]
    omega
  obtain ⟨line, st', src', hvweave, hhands⟩ := (D.tall hh).vweave_hands (upright S hh) (weaves S)
    (by omega)
  unfold tryDraw
  dsimp only
  rw [S.not_empty, if_neg Bool.false_ne_true, ← started, if_neg (by rw [S.yOut.2]; omega),
    if_neg hunit, hvweave]
  cases line with
  | none =>
    obtain ⟨hladder, hcourse, hout', hinit'⟩ := hhands
    have hsame : st'.started E = st' := if_pos (hinit'.trans hinit)
    refine ⟨.stalled, output, st', src', rfl, ⟨?_, hladder.src_rows, fun _ => ?_, ?_⟩, hcourse⟩
    · rw [hsame, hout', hout]
    · rwa [hsame]
    · omega
  | some line =>
    obtain ⟨hladder, hcourse, ⟨hout', hinit'⟩, hshows⟩ := hhands
    have hsame : started E { st' with yNextOut := st'.yNextOut + 1 } =
        { st' with yNextOut := st'.yNextOut + 1 } := if_pos (hinit'.trans hinit)
    refine ⟨.row, E.spliceOutput (st'.lines line), { st' with yNextOut := st'.yNextOut + 1 }, src',
      rfl, ⟨?_, hladder.src_rows, fun _ => ?_, ?_⟩, hcourse, fun j hj => ?_⟩
    · rw [hsame]
      show st'.yNextOut + 1 = _
      omega
    · rwa [hsame]
    · omega
    · rw [synthLine, if_neg (by omega)]
      unfold Shows at hshows
      rw [hout] at hshows
      have hrow : ((cur.y0 : Int) + m - cur.y0).toNat = m := by omega
      split at hshows
      case isTrue hpar => rw [hshows j hj, hrow, synthesize53_low (by omega)]
      case isFalse => rw [hshows j hj, hrow]

/-- A level of one row is pulled and handed on, halved on an odd coordinate. -/
theorem Drawn.tryDraw_flat (hh : cur.y1 = cur.y0 + 1)
    (D : Drawn E cur p st src m) (hm : cur.y0 + m < cur.y1) (output : Line) :
    ∃ status row st' src', st.tryDraw E output src = some (status, row, st', src') ∧
      Gives E cur p src m status row st' src' := by
  obtain rfl : m = 0 := by omega
  have hinit : (st.started E).initialized = true := started_initialized
  have hout : (st.started E).yNextOut = cur.y0 := by simpa using D.out
  have hunit : E.params.unitHeight = true := by
    rw [S.unitHeight]
    exact decide_eq_true hh
  obtain ⟨hcourse, htaken, -⟩ := freshPickReady_course E src
  obtain ⟨l, hl⟩ : ∃ l, (st.started E).ensureSlackLine.freeList.head? = some l := by
    unfold ensureSlackLine
    cases hfree : (st.started E).freeList with
    | nil => exact ⟨_, rfl⟩
    | cons l rest => exact ⟨l, by simp [hfree]⟩
  unfold tryDraw
  dsimp only
  rw [S.not_empty, if_neg Bool.false_ne_true, ← started, if_neg (by rw [S.yOut.2]; omega),
    if_pos (.inr hunit)]
  generalize hask : freshPickReady E src = asked at *
  obtain ⟨ready, src1⟩ := asked
  cases ready with
  | false =>
    have hsame : (st.started E).started E = st.started E := if_pos hinit
    refine ⟨.stalled, output, st.started E, src1, rfl, ⟨?_, hcourse.rows.trans D.rows, ?_, ?_⟩,
      hcourse⟩
    · rw [hsame, hout]
      simp
    · omega
    · intro _ q hq c hc hw
      rw [htaken]
      exact D.flat hh q hq c hc hw
  | true =>
    have hslack : (st.started E).ensureSlackLine.yNextOut = cur.y0 ∧
        (st.started E).ensureSlackLine.initialized = true := by
      unfold ensureSlackLine
      split
      · exact ⟨hout, hinit⟩
      · exact ⟨hout, hinit⟩
    generalize (st.started E).ensureSlackLine = st1 at *
    have hparity : ((st.started E).yNextOut % 2).toNat = cur.y0 % 2 := by omega
    have hlt : cur.y0 % 2 < 2 := Nat.mod_lt _ (by decide)
    have hpull := pullRow_pulled E (cur.y0 % 2) (st1.lines l) src1
    have htaken0 (c : Nat) (hc : c < 2) (hw : 0 < E.params.requestWidth c) :
        src1.taken (2 * (cur.y0 % 2) + c) = 0 := by
      rw [htaken, D.flat hh _ hlt c hc hw, if_pos rfl]
    have hshows : ShowsRow E cur (column cur p) _ (pullRow E (cur.y0 % 2) (st1.lines l) src1).1 :=
      pullRow_shows S hlt (hcourse.rows.trans D.rows) htaken0
    rw [show rowFrom cur.y0 (cur.y0 % 2 : Nat) + 2 * (0 : Nat) = cur.y0 by unfold rowFrom; omega]
      at hshows
    have hodd : (cur.y0 : Int) % 2 ≠ 0 ↔ cur.y0 % 2 = 1 := by omega
    refine ⟨.row, E.spliceOutput (if cur.y0 % 2 = 1 then
        E.halvePick (pullRow E (cur.y0 % 2) (st1.lines l) src1).1
        else (pullRow E (cur.y0 % 2) (st1.lines l) src1).1),
      { st1 with
        lines := Function.update st1.lines l (if cur.y0 % 2 = 1 then
          E.halvePick (pullRow E (cur.y0 % 2) (st1.lines l) src1).1
          else (pullRow E (cur.y0 % 2) (st1.lines l) src1).1)
        yNextOut := cur.y0 + 1 },
      (pullRow E (cur.y0 % 2) (st1.lines l) src1).2, ?_, ⟨?_, ?_, ?_, ?_⟩, ?_, fun j hj => ?_⟩
    · by_cases hpar : cur.y0 % 2 = 1
      · simp [hparity, hl, hunit, S.reversible, hweave, setLine, hslack.1, hodd, hpar]
      · simp [hparity, hl, hunit, S.reversible, hweave, setLine, hslack.1, hodd, hpar]
    · rw [started, if_pos hslack.2]
      simp
    · exact hpull.rows.trans (hcourse.rows.trans D.rows)
    · omega
    · intro _ q hq c hc hw
      rw [hpull.taken q c hc, htaken, D.flat hh q hq c hc hw]
      by_cases hq : q = cur.y0 % 2
      · simp [hq, hw]
      · simp [hq]
    · exact pulled_course E hlt hask hpull
    · have hrow : ((cur.y0 : Int) - cur.y0).toNat = 0 := by omega
      rw [synthLine, if_pos hh]
      split
      · rw [S.splice_halvePick hj, hshows j hj, hrow]
      · rw [hshows j hj, hrow]

/-- A call gives the next row, or stalls where the source said so. -/
theorem Drawn.tryDraw_gives (D : Drawn E cur p st src m)
    (hm : cur.y0 + m < cur.y1) (output : Line) :
    ∃ status row st' src', st.tryDraw E output src = some (status, row, st', src') ∧
      Gives E cur p src m status row st' src' := by
  by_cases hh : cur.y1 = cur.y0 + 1
  · exact D.tryDraw_flat S hh hm output
  · exact D.tryDraw_tall S (by omega) hm output

theorem Drawn.taken (D : Drawn E cur p st src m) (hm : cur.y0 + m ≤ cur.y1)
    {q c : Nat} (hq : q < 2) (hc : c < 2) (hw : 0 < phaseCount cur.x0 cur.x1 c) :
    (src.taken (2 * q + c) : Int) ≤ phaseCount cur.y0 cur.y1 q ∧
      (cur.y0 + m = cur.y1 → (src.taken (2 * q + c) : Int) = phaseCount cur.y0 cur.y1 q) := by
  have hlt := cur.y_lt
  have hwidth : 0 < E.params.requestWidth c := by rwa [(S.width c hc).2.2]
  by_cases hh : cur.y1 = cur.y0 + 1
  · rw [D.flat hh q hq c hc hwidth]
    unfold phaseCount
    split <;> omega
  · have L := D.tall (by omega)
    have htaken := L.taken q hq c hc hwidth
    obtain ⟨-, -, heven⟩ := L.queued.even
    obtain ⟨-, hodd, hodd'⟩ := L.queued.odd
    obtain ⟨-, hout0, hout1⟩ := L.queued.out
    rw [D.out] at hout0 hout1
    unfold phaseCount rowFrom rowUpTo at *
    obtain rfl | rfl : q = 0 ∨ q = 1 := by omega
    · push_cast at *
      omega
    · push_cast at *
      omega

theorem assemble_drawn (answer : Nat → Bool) :
    ∃ st, assemble E = some st ∧ Drawn E cur p st (bandSource cur p answer) 0 := by
  have hlt := cur.y_lt
  by_cases hh : cur.y1 = cur.y0 + 1
  · have hunit : E.params.unitHeight = true := by
      rw [S.unitHeight]
      exact decide_eq_true hh
    refine ⟨_, by rw [assemble, if_pos (.inr hunit)]; rfl, ?_, rfl, fun h => by omega, ?_⟩
    · show E.params.yMinOut = _
      rw [S.yOut.1]
      simp
    · intro _ q _ c _ _
      simp [bandSource]
  · obtain ⟨st, hst, hinit, L⟩ := assemble_ladder (S := stages E cur p)
      (bandSource cur p answer) (upright S (by omega)) rfl (fun _ => rfl)
    have hstart : st.started E = st.warpOutput E := if_neg (by rw [hinit]; exact Bool.false_ne_true)
    refine ⟨st, hst, ?_, rfl, fun _ => by rw [hstart]; exact L, fun h => by omega⟩
    rw [hstart]
    show E.params.yMinOut = _
    rw [S.yOut.1]
    simp

end Calls

section Run

/-- One call of `try_draw`, with the source before and after it. -/
structure DrawCall where
  status : PullStatus
  row : Line
  before : RowSource
  after : RowSource

/-- Up to `n` calls, as long as rows are left. -/
def drawCalls (E : SynthesisSetup) (output : Line) :
    Nat → Synthesis → RowSource → Option (List DrawCall × Synthesis × RowSource)
  | 0, st, src => some ([], st, src)
  | n + 1, st, src =>
    if st.woven E then some ([], st, src)
    else do
      let (status, row, st', src') ← st.tryDraw E output src
      let (calls, st'', src'') ← drawCalls E output n st' src'
      some (⟨status, row, src, src'⟩ :: calls, st'', src'')

/-- The rows that were returned. -/
def drawnRows (calls : List DrawCall) : List Line :=
  (calls.filter fun call => call.status = .row).map (·.row)

variable {E : SynthesisSetup} {cur : TileCompBounds} {p : Plane} {st : Synthesis} {src : RowSource}
  {m : Nat}

theorem Drawn.drawCalls (S : E.Split cur.toRect) (D : Drawn E cur p st src m)
    (hm : cur.y0 + m ≤ cur.y1) (output : Line) (n : Nat) :
    ∃ calls st' src', drawCalls E output n st src = some (calls, st', src') ∧
      Drawn E cur p st' src' (m + (drawnRows calls).length) ∧
      cur.y0 + (m + (drawnRows calls).length) ≤ cur.y1 ∧
      (∀ i row, (drawnRows calls)[i]? = some row → ∀ j, cur.x0 + j < cur.x1 →
        row j = synthLine cur.y0 cur.y1 (column cur p j) (m + i)) ∧
      ∀ call ∈ calls, call.before.Course (decide (call.status = .row)) call.after := by
  induction n generalizing st src m with
  | zero => exact ⟨[], st, src, rfl, D, hm, by simp [drawnRows], by simp⟩
  | succ n ih =>
    by_cases hend : st.woven E = true
    · exact ⟨[], st, src, by simp [Synthesis.drawCalls, hend], D, hm, by simp [drawnRows], by simp⟩
    have hmore : cur.y0 + m < cur.y1 := by
      rw [D.woven_iff S] at hend
      omega
    obtain ⟨status, row, st1, src1, htry, hgives⟩ := D.tryDraw_gives S hmore output
    cases status with
    | stalled =>
      obtain ⟨D1, hcourse⟩ := hgives
      obtain ⟨calls, st', src', hcalls, D', hle, hrows, hcourses⟩ := ih D1 hm
      refine ⟨⟨.stalled, row, src, src1⟩ :: calls, st', src', ?_, D', hle, hrows, ?_⟩
      · simp [Synthesis.drawCalls, hend, htry, hcalls]
      · simpa using ⟨hcourse, hcourses⟩
    | row =>
      obtain ⟨D1, hcourse, hrow⟩ := hgives
      obtain ⟨calls, st', src', hcalls, D', hle, hrows, hcourses⟩ := ih D1 (by omega)
      have hdrawn : drawnRows (⟨.row, row, src, src1⟩ :: calls) = row :: drawnRows calls := rfl
      refine ⟨⟨.row, row, src, src1⟩ :: calls, st', src', ?_, ?_, ?_, ?_, ?_⟩
      · simp [Synthesis.drawCalls, hend, htry, hcalls]
      · rw [hdrawn, length_cons, show m + ((drawnRows calls).length + 1) =
          m + 1 + (drawnRows calls).length by omega]
        exact D'
      · rw [hdrawn, length_cons]
        omega
      · rw [hdrawn]
        intro i row' hi j hj
        cases i with
        | zero =>
          obtain rfl : row = row' := by simpa using hi
          exact hrow j hj
        | succ i =>
          rw [show m + (i + 1) = m + 1 + i by omega]
          exact hrows i row' (by simpa using hi) j hj
      · simpa using ⟨hcourse, hcourses⟩

end Run

end GrokCodec.Mercury.Synthesis
