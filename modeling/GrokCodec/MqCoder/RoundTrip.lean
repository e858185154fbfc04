import GrokCodec.MqCoder.Decode

/-!
Encoding, flushing and decoding. The round trip holds as long as the 16-bit byte count is the
count: from 65536 bytes on it is not, and the decoder is handed the beginning of the code.
-/

namespace GrokCodec.MqCoder

open IntervalCoding List Function Encoder Prod

/-- The start of the decoder on a code of the encoder's first interval. -/
theorem Decoder.initDec_runs {data : List Nat} (hdata : data ≠ [])
    (hc : Coded initSpan (digits data)) (ctxs : Contexts) :
    Runs data (initDec ctxs [data]) initSpan ∧ (initDec ctxs [data]).ctxs = ctxs := by
  have hlen := length_pos_iff.mpr hdata
  -- before the shift by seven the interval is the same, seven bits coarser
  have hcoarse : Coded ⟨0, 2 ^ 8, 16⟩ (digits data) :=
    { above := fun p _ _ => by simp only [Nat.zero_mul]; exact Nat.zero_le _
      reached := by
        simp only [Span.Reached, Nat.zero_mul]
        exact Nat.mul_pos (Nat.succ_pos _) (Nat.two_pow_pos _)
      below := hc.below.of_within ⟨by decide, by decide⟩
      stuffed := hc.stuffed
      last_ne := hc.last_ne }
  have hfirst : digitsTo data 0 = [data.getD 0 0, 0] := by
    cases data with
    | nil => exact absurd rfl hdata
    | cons b data => rfl
  let m : Decoder :=
    { a := 0, c := data.getD 0 0 <<< 16, ct := 0, buffers := [data], curBufferIndex := 0, bp := 0,
      overflow := false, endOfByteStreamCounter := 0, ctxs }
  have htracks : Tracks data m ⟨0, 2 ^ 8, 16⟩ := by
    refine ⟨rfl, rfl, Nat.zero_le 8, data.getD 0 0, ?_, ?_⟩
    · have hread : ReadTo data 0 _ _ := .inside hlen
      rw [hfirst] at hread
      simpa [value, bits, width, m] using hread
    · simp [m, Nat.shiftLeft_eq]
  obtain ⟨hm, h7, hctxs, -⟩ := htracks.bytein rfl hcoarse (by decide)
  have hlt : m.bytein.c < 2 ^ 8 * 2 ^ 16 := hm.c_lt hcoarse
  have heq : initDec ctxs [data] =
      { m.bytein with a := aMin, c := m.bytein.c * 2 ^ 7, ct := m.bytein.ct - 7 } := by
    have hu : u32 (m.bytein.c <<< 7) = m.bytein.c * 2 ^ 7 := by
      rw [Nat.shiftLeft_eq, u32_of_lt (by omega)]
    rw [← hu]
    rfl
  rw [heq]
  exact ⟨⟨hm.shifted h7 aMin, rfl, hc⟩, hctxs⟩

variable {m : Encoder}

theorem Encoder.digits_written (hc : Coded initSpan m.below) (hlen : 2 ≤ m.below.length) :
    digits m.written = m.below ∧ m.written ≠ [] := by
  obtain ⟨f, l, hrev⟩ : ∃ f l, m.below.reverse = f :: l :=
    exists_cons_of_ne_nil fun h => by simp_all
  have hbelow : m.below = l.reverse ++ [f] := by
    rw [← reverse_reverse m.below, hrev, reverse_cons]
  have hzero : f = 0 := hc.first_zero ⟨l.reverse, hbelow.symm⟩
  have hwritten : m.written = l := by rw [written, hrev, drop_one, tail_cons]
  rw [hwritten]
  refine ⟨by rw [digits, reverse_cons, hbelow, hzero], fun hl => ?_⟩
  rw [hbelow, hl] at hlen
  simp at hlen

theorem Encoder.output_eq_written (hpos : 0 < m.below.length) (hlen : m.written.length < 2 ^ 16) :
    m.output = m.written := by
  have hwritten : m.written.length = m.below.length - 1 := by simp [written]
  rw [output, numbytesEnc, take_of_length_le]
  omega

/-- The round trip, for a code of fewer than 65536 bytes. -/
theorem mq_round_trip (ctxs : Contexts) (symbols : List (Fin 19 × Bool))
    (hlen : ((initEnc ctxs).encodeAll symbols).flushEnc.written.length < 2 ^ 16) :
    (Decoder.initDec ctxs [((initEnc ctxs).encodeAll symbols).flushEnc.output]).decodeAll
      (symbols.map fst) = symbols.map snd := by
  have hready := initEnc_ready ctxs
  obtain ⟨t, hend⟩ := hready.encodeAll symbols
  obtain ⟨hcoded, hbelow⟩ := hend.flushEnc
  obtain ⟨hdigits, hne⟩ := digits_written hcoded (by omega)
  rw [output_eq_written (by omega) hlen]
  rw [← hdigits] at hcoded
  obtain ⟨hruns, hctxs⟩ := Decoder.initDec_runs hne hcoded ctxs
  exact decodeAll_encodeAll hne symbols hready hruns hctxs hdigits.symm

/-- All contexts in the state of equal probabilities, which never changes. -/
def evenContexts : Contexts := fun _ => ⟨92, by decide⟩

/-- Three symbols in two contexts. -/
theorem threeSymbols_decoded :
    ((initEnc evenContexts).encodeAll
        [(0, true), (5, false), (0, true)]).flushEnc.written.length < 2 ^ 16 ∧
      (Decoder.initDec evenContexts
        [((initEnc evenContexts).encodeAll
          [(0, true), (5, false), (0, true)]).flushEnc.output]).decodeAll [0, 5, 0]
        = [true, false, true] :=
  ⟨by decide, mq_round_trip evenContexts [(0, true), (5, false), (0, true)] (by decide)⟩

/-! ### A code of 65538 bytes -/

theorem update_evenContexts (x : Fin 19) : update evenContexts x 92 = evenContexts :=
  update_eq_self x evenContexts

theorem curctx_evenContexts : curctx evenContexts 0 = ⟨0x5601, false, 92, 92⟩ := by decide

/-- Halving the interval at its steady value. -/
theorem sub32_steady : sub32 0xac02 0x5601 = 0x5601 := by decide

/-- One more probable symbol once the interval register has reached its steady value. -/
def Encoder.steadyStep (m : Encoder) : Encoder :=
  { m with a := 0x5601, c := u32 (m.c + 0x5601) }.shift

theorem Encoder.byteout_keeps (m : Encoder) :
    m.byteout.a = m.a ∧ m.byteout.ctxs = m.ctxs := by
  simp only [byteout, advance]
  split
  · exact ⟨rfl, rfl⟩
  · split
    · exact ⟨rfl, rfl⟩
    · split <;> exact ⟨rfl, rfl⟩

theorem Encoder.steadyStep_keeps (m : Encoder) :
    m.steadyStep.a = 0xac02 ∧ m.steadyStep.ctxs = m.ctxs := by
  simp only [steadyStep, shift]
  split
  · exact byteout_keeps _
  · exact ⟨rfl, rfl⟩

theorem Encoder.encode_steady (hctxs : m.ctxs = evenContexts) (ha : m.a = 0xac02) :
    m.encode 0 false = m.steadyStep := by
  have hsmall : 0x5601 &&& 0x8000 = 0 := by decide
  have hlarge : ¬ 0xac02 &&& 0x8000 = 0 := by decide
  obtain ⟨ha', -⟩ := steadyStep_keeps m
  simp only [encode, codemps, hctxs, ha, curctx_evenContexts, sub32_steady, hsmall, if_true,
    Nat.lt_irrefl, if_false, setCtx, update_evenContexts, renorme, renormeLoop]
  simp only [steadyStep, hctxs] at ha' ⊢
  rw [ha', if_neg hlarge]

theorem Encoder.encodeAll_steady (hctxs : m.ctxs = evenContexts) (ha : m.a = 0xac02) (n : Nat) :
    m.encodeAll (List.replicate n (0, false)) = steadyStep^[n] m := by
  induction n generalizing m with
  | zero => rfl
  | succ n ih =>
    rw [replicate_succ, encodeAll, foldl_cons, encode_steady hctxs ha,
      iterate_succ_apply]
    obtain ⟨ha', hctxs'⟩ := steadyStep_keeps m
    exact ih (hctxs'.trans hctxs) ha'

/-- The registers every fifteen symbols of the steady run. -/
def Encoder.turn (below : List Nat) : Encoder :=
  { a := 0xac02, c := 480254, ct := 8, below, byte := 0xff, ctxs := evenContexts }

theorem Encoder.steadyStep_iterate (n ct c c' : Nat) (hc : c' + 0xac02 = 2 ^ n * (c + 0xac02))
    (hlt : c' < 2 ^ 28) (below : List Nat) (byte : Nat) :
    steadyStep^[n] ⟨0xac02, c, n + (ct + 1), below, byte, evenContexts⟩ =
      ⟨0xac02, c', ct + 1, below, byte, evenContexts⟩ := by
  induction n generalizing c with
  | zero =>
    have : c' = c := by omega
    rw [this, Nat.zero_add]
    rfl
  | succ n ih =>
    have hpow := Nat.one_le_two_pow (n := n)
    have hmul : 2 ^ (n + 1) * (c + 0xac02) = 2 ^ n * (2 * (c + 0x5601) + 0xac02) := by ring
    have hle := Nat.mul_le_mul_right (2 * (c + 0x5601) + 0xac02) hpow
    have hstep : steadyStep ⟨0xac02, c, n + 1 + (ct + 1), below, byte, evenContexts⟩ =
        ⟨0xac02, 2 * (c + 0x5601), n + (ct + 1), below, byte, evenContexts⟩ := by
      have hsub : n + 1 + (ct + 1) - 1 = n + (ct + 1) := by omega
      have hne : ¬ n + (ct + 1) = 0 := by omega
      simp only [steadyStep, shift, shiftLeft_one, hsub, hne, if_false]
      rw [u32_of_lt (show c + 0x5601 < 2 ^ 32 by omega),
        u32_of_lt (show 2 * (c + 0x5601) < 2 ^ 32 by omega), u32_of_lt (by decide)]
    rw [iterate_succ_apply, hstep]
    exact ih _ (hc.trans hmul)

theorem Encoder.steadyStep_byteout {c : Nat} (hlt : c < 2 ^ 28) (below : List Nat) (byte : Nat) :
    steadyStep ⟨0xac02, c, 1, below, byte, evenContexts⟩ =
      byteout ⟨0xac02, 2 * (c + 0x5601), 0, below, byte, evenContexts⟩ := by
  simp only [steadyStep, shift, shiftLeft_one, Nat.sub_self, if_true]
  rw [u32_of_lt (show c + 0x5601 < 2 ^ 32 by omega),
    u32_of_lt (show 2 * (c + 0x5601) < 2 ^ 32 by omega), u32_of_lt (by decide)]

theorem Encoder.turn_step (below : List Nat) :
    steadyStep^[15] (turn below) = turn (0x7f :: 0xff :: below) := by
  have hstuffed : byteout ⟨0xac02, 134173694, 0, below, 0xff, evenContexts⟩ =
      ⟨0xac02, 1004542, 7, 0xff :: below, 0x7f, evenContexts⟩ := by
    simp only [byteout, advance, if_true]
    rfl
  have hplain : byteout ⟨0xac02, 134173694, 0, 0xff :: below, 0x7f, evenContexts⟩ =
      ⟨0xac02, 480254, 8, 0x7f :: 0xff :: below, 0xff, evenContexts⟩ := by
    have hbyte : ¬ 0x7f = 0xff := by decide
    have hcarry : 134173694 &&& 0x8000000 = 0 := by decide
    simp only [byteout, advance, hbyte, hcarry, if_true, if_false]
    rfl
  have hfirst : steadyStep^[7] (turn below) = ⟨0xac02, 67064830, 1, below, 0xff, evenContexts⟩ :=
    steadyStep_iterate 7 0 480254 67064830 (by decide) (by decide) below 0xff
  have hsecond : steadyStep^[6] ⟨0xac02, 1004542, 7, 0xff :: below, 0x7f, evenContexts⟩ =
      ⟨0xac02, 67064830, 1, 0xff :: below, 0x7f, evenContexts⟩ :=
    steadyStep_iterate 6 0 1004542 67064830 (by decide) (by decide) (0xff :: below) 0x7f
  rw [show 15 = 1 + (6 + (1 + 7)) from rfl, iterate_add_apply,
    iterate_add_apply, iterate_add_apply, hfirst, iterate_one,
    steadyStep_byteout (by decide), hstuffed, hsecond, steadyStep_byteout (by decide), hplain]
  rfl

theorem Encoder.turn_steps (n : Nat) (below : List Nat) :
    ∃ l, l.length = 2 * n ∧ steadyStep^[15 * n] (turn below) = turn (l ++ below) := by
  induction n generalizing below with
  | zero => exact ⟨[], rfl, rfl⟩
  | succ n ih =>
    obtain ⟨l, hl, hrun⟩ := ih (0x7f :: 0xff :: below)
    refine ⟨l ++ [0x7f, 0xff], by rw [length_append, hl]; rfl, ?_⟩
    rw [Nat.mul_succ, iterate_add_apply, turn_step, hrun, append_assoc]
    rfl

/-- The first symbols bring the encoder to the steady run. -/
theorem Encoder.encodeAll_start (n : Nat) :
    (initEnc evenContexts).encodeAll (List.replicate (28 + n) (0, false)) =
      steadyStep^[n] (turn [0x01, 0xac, 0]) := by
  have hfirst : (initEnc evenContexts).encode 0 false = ⟨0xac02, 0, 11, [], 0, evenContexts⟩ := by
    have hsub : sub32 0x8000 0x5601 = 0x29ff := by decide
    simp only [encode, codemps, initEnc, curctx_evenContexts, hsub, setCtx]
    simp [update_evenContexts, renorme, renormeLoop, shift, u32]
  have hrun : steadyStep^[27] ⟨0xac02, 0, 11, [], 0, evenContexts⟩ = turn [0x01, 0xac, 0] := by
    simp [turn, iterate_succ, steadyStep, shift, byteout, advance, u32]
  have hcount : 28 + n = n + 27 + 1 := by omega
  rw [hcount, replicate_succ, encodeAll, foldl_cons]
  show encodeAll ((initEnc evenContexts).encode 0 false) _ = _
  rw [hfirst, encodeAll_steady rfl rfl, iterate_add_apply, hrun]

theorem Encoder.turn_flush (below : List Nat) :
    ((turn below).encode 0 true).flushEnc.below = 0x77 :: 0xff :: below := by
  simp only [encode, codelps, turn, curctx_evenContexts, sub32_steady, setCtx]
  simp [renorme, renormeLoop, shift, flushEnc, setbitsEnc, flushByte, byteout, advance, u32]

/-- A decoder that has read the two bytes `0xAC 0x01` and sees only ones: its register is as
close to the end of the interval as it can be. -/
structure Decoder.Steady (a : Nat) (m : Decoder) : Prop where
  a_eq : m.a = a
  ctxs_eq : m.ctxs = evenContexts
  buffers : m.buffers = [[0xac, 0x01]]
  index : m.curBufferIndex = 0
  bp_eq : m.bp = 2
  ct_le : m.ct ≤ 8
  c_eq : m.c + 2 ^ (16 - m.ct) = a * 2 ^ 16

theorem Decoder.Steady.shift {m : Decoder} (h : m.Steady 0x5601) : m.shift.Steady 0xac02 := by
  obtain ⟨ha, hctxs, hbuffers, hindex, hbp, hle, hc⟩ := h
  have hpos := Nat.two_pow_pos (16 - m.ct)
  have ha' : u32 (2 * 0x5601) = 0xac02 := by decide
  by_cases hzero : m.ct = 0
  · -- a byte of ones comes in
    obtain ⟨ov, heq⟩ := bytein_single hbuffers hindex
    have hend : curByte [0xac, 0x01] m.bp = 0xff ∧ 0x8f < curByte [0xac, 0x01] (m.bp + 1) := by
      rw [hbp]
      decide
    rw [if_pos hend] at heq
    rw [shift_of_ct_zero hzero (by simp [bufferEnd, hbuffers, hindex]), heq]
    have hc₀ : m.c = 0x5600 * 2 ^ 16 := by
      rw [hzero] at hc
      exact Nat.add_right_cancel hc
    simp only [fillOnes, doubled, shiftLeft_one, ha, ha']
    rw [u32_of_lt (show m.c + 0xff00 < 2 ^ 32 by omega),
      u32_of_lt (show 2 * (m.c + 0xff00) < 2 ^ 32 by omega)]
    refine ⟨rfl, hctxs, hbuffers, hindex, hbp, Nat.le_of_ble_eq_true rfl, ?_⟩
    show 2 * (m.c + 0xff00) + 2 ^ 9 = 0xac02 * 2 ^ 16
    rw [hc₀]
    norm_num
  · have hexp : 16 - (m.ct - 1) = 16 - m.ct + 1 := by omega
    rw [shift_of_ct_pos hzero]
    simp only [doubled, shiftLeft_one, ha, ha']
    rw [u32_of_lt (show 2 * m.c < 2 ^ 32 by omega)]
    refine ⟨rfl, hctxs, hbuffers, hindex, hbp, Nat.le_trans (Nat.sub_le _ _) hle, ?_⟩
    show 2 * m.c + 2 ^ (16 - (m.ct - 1)) = 0xac02 * 2 ^ 16
    rw [hexp, Nat.pow_succ]
    omega

theorem Decoder.Steady.decode {m : Decoder} (h : m.Steady 0xac02) :
    (m.decode 0).1 = false ∧ (m.decode 0).2.Steady 0xac02 := by
  obtain ⟨ha, hctxs, hbuffers, hindex, hbp, hle, hc⟩ := h
  have hbound : u32 (0x5601 <<< 16) = 0x5601 * 2 ^ 16 := by decide
  have hsmall : 0x5601 < aMin := by decide
  have hlarge : ¬ 0xac02 < aMin := by decide
  have hpow : 2 ^ (16 - m.ct) ≤ 2 ^ 16 := Nat.pow_le_pow_right (by decide) (by omega)
  have hpos := Nat.two_pow_pos (16 - m.ct)
  have hnot : ¬ m.c < 0x5601 * 2 ^ 16 := by omega
  have hcsub : sub32 m.c (0x5601 * 2 ^ 16) = m.c - 0x5601 * 2 ^ 16 :=
    sub32_of_le (by omega) (by omega)
  have hnarrow : Steady 0x5601
      { m with a := 0x5601, c := m.c - 0x5601 * 2 ^ 16, ctxs := evenContexts } :=
    ⟨rfl, rfl, hbuffers, hindex, hbp, hle, by simp only; omega⟩
  have hshift := hnarrow.shift
  simp only [Decoder.decode, ha, hctxs, curctx_evenContexts, sub32_steady, hbound, hnot, hcsub,
    hsmall, Nat.lt_irrefl, if_true, if_false, setCtx, decide_false, Bool.false_eq_true,
    update_evenContexts, renorm, renormLoop, hshift.a_eq, hlarge]
  exact ⟨rfl, hshift⟩

theorem Decoder.Steady.decodeAll {m : Decoder} (h : m.Steady 0xac02) (n : Nat) :
    m.decodeAll (List.replicate n 0) = List.replicate n false := by
  induction n generalizing m with
  | zero => rfl
  | succ n ih =>
    obtain ⟨hbit, hnext⟩ := h.decode
    rw [replicate_succ, replicate_succ, Decoder.decodeAll, hbit, ih hnext]

/-- Two symbols into the buffer `0xAC 0x01`. -/
theorem Decoder.decodeAll_start (n : Nat) :
    (initDec evenContexts [[0xac, 0x01]]).decodeAll (List.replicate (n + 2) 0) =
      List.replicate (n + 2) false := by
  have hctxs : ∀ x, (((initDec evenContexts [[0xac, 0x01]]).decode 0).2.decode 0).2.ctxs x = 92 := by
    decide
  have hsteady : (((initDec evenContexts [[0xac, 0x01]]).decode 0).2.decode 0).2.Steady 0xac02 :=
    ⟨by decide, funext hctxs, by decide, by decide, by decide, by decide, by decide⟩
  have hfirst : ((initDec evenContexts [[0xac, 0x01]]).decode 0).1 = false := by decide
  have hsecond : (((initDec evenContexts [[0xac, 0x01]]).decode 0).2.decode 0).1 = false := by
    decide
  simp only [replicate_succ, decodeAll, hfirst, hsecond, hsteady.decodeAll]

/-- A run of the more probable symbol that ends in the other one. -/
def evenRun (n : Nat) : List (Fin 19 × Bool) :=
  List.replicate (28 + 15 * n) (0, false) ++ [(0, true)]

theorem Encoder.evenRun_below (n : Nat) :
    ∃ l, l.length = 2 * n ∧ ((initEnc evenContexts).encodeAll (evenRun n)).flushEnc.below =
      0x77 :: 0xff :: (l ++ [0x01, 0xac, 0]) := by
  obtain ⟨l, hl, hrun⟩ := turn_steps n [0x01, 0xac, 0]
  refine ⟨l, hl, ?_⟩
  rw [evenRun, encodeAll, foldl_append]
  show (((initEnc evenContexts).encodeAll _).encode 0 true).flushEnc.below = _
  rw [encodeAll_start, hrun, turn_flush]

variable {n : Nat}

/-- When the count wraps round to two, only the first two bytes are handed on. -/
theorem evenRun_output (hn : (2 * n + 4) % 2 ^ 16 = 2) :
    ((initEnc evenContexts).encodeAll (evenRun n)).flushEnc.output = [0xac, 0x01] := by
  obtain ⟨l, hl, hbelow⟩ := evenRun_below n
  have hcount : (((initEnc evenContexts).encodeAll (evenRun n)).flushEnc).numbytesEnc
      = 2 := by
    simp only [numbytesEnc, hbelow, length_cons, length_append, hl,
      length_nil]
    omega
  rw [output, hcount, written, hbelow]
  simp

/-- The last symbol is then decoded as the other one. -/
theorem evenRun_not_decoded (hn : (2 * n + 4) % 2 ^ 16 = 2) :
    (Decoder.initDec evenContexts
        [((initEnc evenContexts).encodeAll (evenRun n)).flushEnc.output]).decodeAll
      ((evenRun n).map fst) ≠ (evenRun n).map snd := by
  have hctxs : (evenRun n).map fst = List.replicate (27 + 15 * n + 2) 0 := by
    have hlen : 27 + 15 * n + 2 = 28 + 15 * n + 1 := by omega
    rw [evenRun, map_append, map_replicate, hlen, replicate_succ']
    rfl
  rw [evenRun_output hn, hctxs, Decoder.decodeAll_start]
  intro heq
  have hmem : true ∈ (evenRun n).map snd := by
    rw [evenRun, map_append]
    exact mem_append_right _ (mem_singleton.mpr rfl)
  rw [← heq] at hmem
  exact absurd (eq_of_mem_replicate hmem) (by decide)

/-- A code of 65538 bytes. -/
theorem longRun_not_decoded :
    (Decoder.initDec evenContexts
        [((initEnc evenContexts).encodeAll (evenRun 32767)).flushEnc.output]).decodeAll
      ((evenRun 32767).map fst) ≠ (evenRun 32767).map snd :=
  evenRun_not_decoded (by decide)

end GrokCodec.MqCoder
