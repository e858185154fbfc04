import GrokCodec.Mercury.Ladder

/-!
The loop over the ladder. Every entry takes or finishes a row, or starts on a higher rung than the
one before, until the row that is asked for is there or the source has nothing to give.
-/

namespace GrokCodec.Mercury.Synthesis

open VliftQueue Function List

variable {E : SynthesisSetup} {a b : Int} {S : Stages} {st : Synthesis} {src : RowSource}

/-- How a pass down from rung `n - 1` may end. -/
structure Descends (E : SynthesisSetup) (a b : Int) (S : Stages) (n : Nat) (st : Synthesis)
    (src : RowSource) (r : Rung) (st' : Synthesis) (src' : RowSource) : Prop where
  ladder : Ladder E a b S st' src'
  course : src.Course (decide (r ≠ .stalled)) src'
  out : st'.yNextOut = st.yNextOut ∧ st'.initialized = st.initialized
  work_le : work b st' ≤ work b st
  next : ∀ s, n = s + 1 → r = .next → Wanted b st s → work b st' + 2 ≤ work b st
  broke : ∀ m, r = .broke m → m ≤ 2 ∧ Wanted b st' m ∧
    ∀ s, n = s + 1 → Wanted b st s → work b st' + 2 ≤ work b st ∨ n ≤ m

theorem Ladder.rung_climbs (U : Upright E a b) (W : Weaves E a b S)
    (L : Ladder E a b S st src) {s : Nat} (hs : s ≤ 2) :
    ∃ r st' src', st.rung E s src = some (r, st', src') ∧
      Climbs E a b S s st src r st' src' := by
  obtain rfl | rfl | rfl : s = 0 ∨ s = 1 ∨ s = 2 := by omega
  · exact L.predict_climbs U W
  · exact L.update_climbs U W
  · exact L.fresh_climbs U W

theorem Ladder.climb_descends (U : Upright E a b) (W : Weaves E a b S) {n : Nat}
    (hn : n ≤ 3) (L : Ladder E a b S st src) :
    ∃ r st' src', climb E n st src = some (r, st', src') ∧
      Descends E a b S n st src r st' src' := by
  induction n generalizing st src with
  | zero => exact ⟨.next, st, src, rfl, L, .refl src, ⟨rfl, rfl⟩, le_rfl, by simp, by simp⟩
  | succ s ih =>
    obtain ⟨r, st1, src1, hrung, C⟩ := L.rung_climbs U W (show s ≤ 2 by omega)
    have hwork := C.work_le
    cases r with
    | next =>
      obtain ⟨r, st2, src2, hclimb, D⟩ := ih (by omega) C.ladder
      have hwork' := D.work_le
      refine ⟨r, st2, src2, by simp [climb, hrung, hclimb], D.ladder, C.course.trans D.course,
        ⟨D.out.1.trans C.out.1, D.out.2.trans C.out.2⟩, by omega, ?_, fun m hm => ?_⟩
      · rintro _ ⟨⟩ - hw
        have := C.next rfl hw
        omega
      · refine ⟨(D.broke m hm).1, (D.broke m hm).2.1, ?_⟩
        rintro _ ⟨⟩ hw
        have := C.next rfl hw
        omega
    | broke k =>
      obtain ⟨hk, hk2, hwanted⟩ := C.broke k rfl
      refine ⟨.broke k, st1, src1, by simp [climb, hrung], C.ladder, C.course, C.out, hwork, by simp,
        fun m hm => ?_⟩
      obtain rfl : k = m := by simpa using hm
      exact ⟨hk2, hwanted, fun s hs _ => .inr (by omega)⟩
    | stalled =>
      exact ⟨.stalled, st1, src1, by simp [climb, hrung], C.ladder, C.course, C.out, hwork, by simp,
        by simp⟩

/-- A line that shows output row `y`. -/
def Shows (S : Stages) (y : Int) (line : VliftLine) : Prop :=
  if y % 2 = 0 then S.Mid y line else S.Done y line

/-- The row that is asked for is handed out, or the queue has still to get it. -/
theorem Ladder.tapUpdate_out (L : Ladder E a b S st src) (hb : st.yNextOut ≤ b) :
    (∃ st', st.tapUpdate (1 - st.yNextOut % 2).toNat st.yNextOut = some (none, st') ∧
      Ladder E a b S st' src ∧ st'.yNextOut = st.yNextOut ∧
      st'.initialized = st.initialized ∧ work b st' = work b st ∧
      Wanted b st' (1 - st.yNextOut % 2).toNat) ∨
    ∃ line st', st.tapUpdate (1 - st.yNextOut % 2).toNat st.yNextOut = some (some line, st') ∧
      Ladder E a b S { st' with yNextOut := st'.yNextOut + 1 } src ∧
      st'.yNextOut = st.yNextOut ∧ st'.initialized = st.initialized ∧
      Shows S st.yNextOut (st'.lines line) := by
  have Q := L.queued
  obtain ⟨hy, heven, hodd⟩ := Q.out
  obtain ⟨hpar0, -, -⟩ := Q.even
  obtain ⟨hpar1, -⟩ := Q.finished
  have hdone := Q.done
  have hmid := Q.mid
  by_cases hpar : st.yNextOut % 2 = 0
  · have hrow : (1 - st.yNextOut % 2).toNat = 1 := by omega
    have hfrom : rowFrom st.yNextOut 0 = st.yNextOut := by unfold rowFrom; omega
    have hfrom' : rowFrom (st.yNextOut + 1) 0 = st.yNextOut + 2 := by unfold rowFrom; omega
    have hother : rowFrom st.yNextOut 1 = rowFrom (st.yNextOut + 1) 1 := by unfold rowFrom; omega
    rw [hfrom] at hmid
    rw [hother] at hdone
    rw [hrow]
    rcases hmid.tapUpdate (by push_cast; omega) (by omega) (by unfold rowFrom; omega) st.freeList with
      ⟨hwait, htap⟩ | ⟨l, q, freeList, htap, hthere, hline, hstock, hmoved⟩
    · left
      refine ⟨{ st with
        queues := update st.queues 1 { st.queues 1 with updatePos := st.yNextOut } },
        ?_, L.requeue ?_ ?_, rfl, rfl, rfl, ?_⟩
      · simp [tapUpdate, htap, setQueue]
      · simpa [update_apply] using { Q with mid := Q.mid.set Q.mid.source_le hfrom.ge }
      · simp
      · show st.yNextIn 0 ≤ rowUpTo b 0
        unfold rowUpTo
        omega
    · right
      rw [← hfrom'] at hstock
      refine ⟨l, { st with freeList, queues := update st.queues 1 q }, ?_, ?_, rfl, rfl, ?_⟩
      · simp [tapUpdate, htap, setQueue]
      · have howned := L.owned
        rw [← pool_moved hmoved] at howned
        exact { L with
          queued := by simpa [update_apply] using
            { Q with done := hdone, mid := hstock, out := ⟨by omega, by omega, by omega⟩ }
          owned := by simpa [update_apply] using howned }
      · simpa [Shows, hpar] using hline
  · have hrow : (1 - st.yNextOut % 2).toNat = 0 := by omega
    have hfrom : rowFrom st.yNextOut 1 = st.yNextOut := by unfold rowFrom; omega
    have hfrom' : rowFrom (st.yNextOut + 1) 1 = st.yNextOut + 2 := by unfold rowFrom; omega
    have hother : rowFrom st.yNextOut 0 = rowFrom (st.yNextOut + 1) 0 := by unfold rowFrom; omega
    rw [hfrom] at hdone
    rw [hother] at hmid
    rw [hrow]
    rcases hdone.tapUpdate (by push_cast; omega) (by omega) (by unfold rowFrom; omega)
      st.freeList with ⟨hwait, htap⟩ | ⟨l, q, freeList, htap, hthere, hline, hstock, hmoved⟩
    · left
      refine ⟨{ st with
        queues := update st.queues 0 { st.queues 0 with updatePos := st.yNextOut } },
        ?_, L.requeue ?_ ?_, rfl, rfl, rfl, ?_⟩
      · simp [tapUpdate, htap, setQueue]
      · simpa [update_apply] using { Q with done := Q.done.set Q.done.source_le hfrom.ge }
      · simp
      · show st.stepNextRowPos 0 ≤ rowUpTo b 1
        unfold rowUpTo
        omega
    · right
      rw [← hfrom'] at hstock
      refine ⟨l, { st with freeList, queues := update st.queues 0 q }, ?_, ?_, rfl, rfl, ?_⟩
      · simp [tapUpdate, htap, setQueue]
      · have hpool := pool_moved hmoved 0 ((st.queues 1).entries + (st.queues 2).entries)
        simp only [zero_add, ← add_assoc] at hpool
        have howned := L.owned
        rw [← hpool] at howned
        exact { L with
          queued := by simpa [update_apply] using
            { Q with done := hstock, mid := hmid, out := ⟨by omega, by omega, by omega⟩ }
          owned := by simpa [update_apply] using howned }
      · simpa [Shows, hpar] using hline

/-- How a call of `vweave` may end: it stalls with the invariant kept, or hands out a line that shows
the next row. -/
def Hands (E : SynthesisSetup) (a b : Int) (S : Stages) (st : Synthesis) (src : RowSource) :
    Option Nat → Synthesis → RowSource → Prop
  | none, st', src' => Ladder E a b S st' src' ∧ src.Course false src' ∧
    st'.yNextOut = st.yNextOut ∧ st'.initialized = st.initialized
  | some line, st', src' =>
    Ladder E a b S { st' with yNextOut := st'.yNextOut + 1 } src' ∧
    src.Course true src' ∧ (st'.yNextOut = st.yNextOut ∧ st'.initialized = st.initialized) ∧
    Shows S st.yNextOut (st'.lines line)

theorem Hands.trans {line : Option Nat} {st1 st' : Synthesis} {src1 src' : RowSource}
    (h : Hands E a b S st1 src1 line st' src') (hcourse : src.Course true src1)
    (hout : st1.yNextOut = st.yNextOut) (hinit : st1.initialized = st.initialized) :
    Hands E a b S st src line st' src' := by
  cases line with
  | none =>
    obtain ⟨hladder, hcourse', hout', hinit'⟩ := h
    exact ⟨hladder, hcourse.trans hcourse', hout'.trans hout, hinit'.trans hinit⟩
  | some line =>
    obtain ⟨hladder, hcourse', ⟨hout', hinit'⟩, hshows⟩ := h
    exact ⟨hladder, hcourse.trans hcourse', ⟨hout'.trans hout, hinit'.trans hinit⟩, hout ▸ hshows⟩

/-- The loop comes to an end. The measure counts the rows still to be moved, then the rungs above
the one the next entry starts on. -/
theorem Ladder.weaveLoop_hands (U : Upright E a b) (W : Weaves E a b S)
    {bound n : Nat} (L : Ladder E a b S st src) (hb : st.yNextOut ≤ b) (hn : n ≤ 3)
    (hwanted : ∀ s, n = s + 1 → Wanted b st s) (hbound : 2 * work b st + (3 - n) < bound) :
    ∃ line st' src', weaveLoop E bound n st src = some (line, st', src') ∧
      Hands E a b S st src line st' src' := by
  induction bound generalizing n st src with
  | zero => omega
  | succ bound ih =>
    obtain ⟨r, st1, src1, hclimb, D⟩ := L.climb_descends U W hn
    obtain ⟨hout, hinit⟩ := D.out
    have hcourse := D.course
    cases r with
    | stalled => exact ⟨none, st1, src1, by simp [weaveLoop, hclimb], D.ladder, hcourse, hout, hinit⟩
    | broke m =>
      obtain ⟨hm, hwanted', hhigher⟩ := D.broke m rfl
      have hless : 2 * work b st1 + (3 - (m + 1)) < bound := by
        have hwork := D.work_le
        rcases n with - | s
        · omega
        · have := hhigher s rfl (hwanted s rfl)
          omega
      obtain ⟨line, st', src', hloop, hhands⟩ := ih D.ladder (hout ▸ hb) (by omega)
        (fun s hs => by rwa [← Nat.succ.inj hs]) hless
      exact ⟨line, st', src', by simp [weaveLoop, hclimb, hloop], hhands.trans hcourse hout hinit⟩
    | next =>
      rcases D.ladder.tapUpdate_out (hout ▸ hb) with ⟨st2, htap, hladder, hout2, hinit2, hwork2, hw⟩ |
        ⟨line, st2, htap, hladder, hout2, hinit2, hshows⟩
      · have hless : 2 * work b st2 + (3 - ((1 - st1.yNextOut % 2).toNat + 1)) < bound := by
          have hwork := D.work_le
          rcases n with - | s
          · omega
          · have := D.next s rfl rfl (hwanted s rfl)
            omega
        obtain ⟨line, st', src', hloop, hhands⟩ := ih hladder (by omega) (by omega)
          (fun s hs => by rwa [← Nat.succ.inj hs]) hless
        refine ⟨line, st', src', by simp [weaveLoop, hclimb, htap, hloop], ?_⟩
        exact hhands.trans hcourse (hout2.trans hout) (hinit2.trans hinit)
      · refine ⟨some line, st2, src1, by simp [weaveLoop, hclimb, htap], hladder, hcourse, ?_, ?_⟩
        · exact ⟨hout2.trans hout, hinit2.trans hinit⟩
        · exact hout ▸ hshows

theorem Ladder.vweave_hands (U : Upright E a b) (W : Weaves E a b S)
    (L : Ladder E a b S st src) (hb : st.yNextOut ≤ b) :
    ∃ line st' src', st.vweave E src = some (line, st', src') ∧
      Hands E a b S st src line st' src' := by
  refine L.weaveLoop_hands U W hb (by decide) (by simp) ?_
  have heven := L.queued.even
  have hodd := L.queued.odd
  have hfinished := L.queued.finished
  unfold weaveBound work
  rw [U.yMinOut, U.yMaxOut]
  unfold rowFrom rowUpTo at *
  omega

/-- A queue before the first row. -/
structure Blank (a b : Int) (n : Nat) (q : VliftQueue) : Prop where
  shape : QueueShape a b n q
  entries : q.entries = []
  headIdx : q.headIdx = a - 1000
  tailIdx : q.tailIdx = a - 1002
  sourcePos : q.sourcePos ≤ if n = 0 then b + 2 else a - 1000
  updatePos : q.updatePos = a - 1000

theorem Blank.stocked {n : Nat} {q : VliftQueue} (h : Blank a b n q) {P : Int → VliftLine → Prop}
    {lines : Nat → VliftLine} {first source update : Int} (hfirst : a ≤ first)
    (hs : q.sourcePos ≤ source) (hu : a - 1000 ≤ update) :
    Stocked a b n P q lines first first source update := by
  have hlength : q.entries.length = 0 := by rw [h.entries]; rfl
  have hhead := h.headIdx
  have htail := h.tailIdx
  refine ⟨h.shape, ⟨?_, .inr ⟨h.entries, rfl, ?_⟩, fun n hn => ?_, fun i h0 h1 => ?_⟩, hs,
    h.updatePos ▸ hu⟩
  all_goals omega

theorem warpQueue_blank (U : Upright E a b) {n : Nat} (hn : n ≤ 2) :
    ∃ q, warpQueue E n = some q ∧ Blank a b n q := by
  have hmin0 := U.yMinIn 0 (by decide)
  have hmin1 := U.yMinIn 1 (by decide)
  have hmax0 := U.yMaxIn 0 (by decide)
  have hmax1 := U.yMaxIn 1 (by decide)
  have hyMin : min (E.params.yMinIn 0) (E.params.yMinIn 1) = a := by
    rw [hmin0, hmin1]
    unfold rowFrom
    omega
  have hyMax : max (E.params.yMaxIn 0) (E.params.yMaxIn 1) = b := by
    rw [hmax0, hmax1]
    unfold rowUpTo
    omega
  have hlocalMin (p : Nat) (hp : p < 2) : ¬ a + 1 < E.params.yMinIn p := by
    rw [U.yMinIn p hp]
    unfold rowFrom
    omega
  have hlocalMax (p : Nat) (hp : p < 2) : ¬ E.params.yMaxIn p < b - 1 := by
    rw [U.yMaxIn p hp]
    unfold rowUpTo
    omega
  have hpar : (((n : Int) - 1) % 2).toNat < 2 := by omega
  unfold warpQueue warpUp
  simp only [hyMin, hyMax, hlocalMin _ hpar, hlocalMax _ hpar, if_false, U.sym]
  rw [if_neg (not_not.mpr ?_)]
  · refine ⟨_, rfl, ⟨rfl, rfl, rfl, rfl⟩, rfl, rfl, ?_, ?_, rfl⟩
    · show a - 1000 - 2 = _
      omega
    · simp
  -- a step may ask for no row of the other parity
  · obtain rfl | rfl | rfl : n = 0 ∨ n = 1 ∨ n = 2 := by omega
    · rw [if_neg (by decide)]
      omega
    · rw [if_pos (by decide)]
      show (E.params.yMaxIn 0 + 2 * _ - ((1 : Nat) - 1 : Int)) % 2 = 0
      rw [hmax0]
      unfold rowUpTo
      omega
    · rw [if_pos (by decide)]
      show (E.params.yMaxIn 1 + 2 * _ - ((2 : Nat) - 1 : Int)) % 2 = 0
      rw [hmax1]
      unfold rowUpTo
      omega

variable (src) in
theorem assemble_ladder (U : Upright E a b) (hrows : src.rows = S.rows) (htaken : ∀ n, src.taken n = 0) :
    ∃ st, assemble E = some st ∧ st.initialized = false ∧
      Ladder E a b S (st.warpOutput E) src := by
  obtain ⟨q0, hq0, B0⟩ := warpQueue_blank U (show 0 ≤ 2 by decide)
  obtain ⟨q1, hq1, B1⟩ := warpQueue_blank U (show 1 ≤ 2 by decide)
  obtain ⟨q2, hq2, B2⟩ := warpQueue_blank U (show 2 ≤ 2 by decide)
  have hab := U.lt
  have hmin0 := U.yMinIn 0 (by decide)
  have hmin1 := U.yMinIn 1 (by decide)
  have hqueues : (range (2 + 1)).mapM (warpQueue E) = some [q0, q1, q2] := by
    rw [show range (2 + 1) = [0, 1, 2] from rfl]
    simp [hq0, hq1, hq2]
  have hqueued : Rows a b S q0 q1 q2 (fun _ _ _ => 0) (rowFrom a 0) (rowFrom a 1) (rowFrom a 1) a := by
    have hs1 := B1.sourcePos
    have hs2 := B2.sourcePos
    have hf0 : a ≤ rowFrom a 0 := by unfold rowFrom; omega
    have hf1 : a ≤ rowFrom a 1 := by unfold rowFrom; omega
    exact {
      done := B0.stocked hf1 B0.sourcePos (by omega)
      mid := B1.stocked hf0 (by omega) (by omega)
      raw := B2.stocked hf1 (by omega) (by omega)
      even := by unfold rowFrom rowUpTo; omega
      odd := by unfold rowFrom rowUpTo; omega
      finished := by unfold rowFrom; omega
      behind := .inl rfl
      out := ⟨le_rfl, le_rfl, le_rfl⟩ }
  refine ⟨_, by rw [assemble, U.numVertSteps, U.unitHeight, if_neg (by decide), hqueues]; rfl, rfl, ?_⟩
  refine ⟨?_, ?_, rfl, hrows, fun p hp c hc hw => ?_⟩
  · simpa [warpOutput, hmin0, hmin1, U.yMinOut] using hqueued
  · simp only [warpOutput, getD_cons_zero, getD_cons_succ, B0.entries, B1.entries, B2.entries]
    exact ⟨by simp, by simp⟩
  · simp [htaken, warpOutput, U.yMinIn p hp]

end GrokCodec.Mercury.Synthesis
