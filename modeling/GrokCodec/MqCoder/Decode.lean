import GrokCodec.MqCoder.Flush

/-!
The decoder on one buffer. Its code register holds the distance of the digits read so far from
the base of the exact interval, so on a finished code it picks the part the encoder picked.
-/

namespace GrokCodec.MqCoder

open IntervalCoding List Nat

/-- The bytes of a buffer after the zero before it, last one first. -/
def digits (data : List Nat) : List Nat := (0 :: data).reverse

/-- The digits up to the byte at position `bp`. -/
def digitsTo (data : List Nat) (bp : Nat) : List Nat := ((0 :: data).take (bp + 2)).reverse

/-- What the decoder has read when `bp` stands at a position: the number and its bits. Behind
the last byte it has read ones. -/
inductive ReadTo (data : List Nat) : Nat → Nat → Nat → Prop
  | inside {bp : Nat} (h : bp < data.length) :
      ReadTo data bp (value width (digitsTo data bp)) (bits width (digitsTo data bp))
  | beyond {W k : Nat} (h : W + 1 = (value width (digits data) + 1) * 2 ^ k) :
      ReadTo data data.length W (bits width (digits data) + k)

section Reading

variable {data : List Nat} {bp W e : Nat}

theorem digitsTo_suffix (data : List Nat) (bp : Nat) : digitsTo data bp <:+ digits data :=
  reverse_suffix.mpr <| take_prefix _ _

theorem digitsTo_last (h : bp + 1 = data.length) : digitsTo data bp = digits data := by
  rw [digitsTo, digits, take_of_length_le (by simp only [length_cons]; omega)]

theorem digitsTo_succ (h : bp + 1 < data.length) :
    digitsTo data (bp + 1) = data.getD (bp + 1) 0 :: digitsTo data bp := by
  have hget : (0 :: data)[bp + 2]? = some (data.getD (bp + 1) 0) := by
    rw [List.getElem?_cons_succ, getD_eq_getElem?_getD, List.getElem?_eq_getElem h]
    rfl
  rw [digitsTo, digitsTo, take_add_one, hget]
  simp

theorem digitsTo_head (h : bp < data.length) :
    (digitsTo data bp).headD 0 = data.getD bp 0 := by
  have hget : (0 :: data)[bp + 1]? = some (data.getD bp 0) := by
    rw [List.getElem?_cons_succ, getD_eq_getElem?_getD, List.getElem?_eq_getElem h]
    rfl
  rw [digitsTo, take_add_one, hget]
  simp

theorem Stuffed.suffix {p l : List Nat} (h : Stuffed l) (hp : p <:+ l) : Stuffed p := by
  induction l with
  | nil => rwa [suffix_nil.mp hp]
  | cons b l ih =>
    rcases suffix_cons_iff.mp hp with rfl | hp
    · exact h
    · exact ih h.2.2 hp

/-- `cur` of `bytein`. -/
def curByte (data : List Nat) (bp : Nat) : Nat :=
  if data.length ≤ bp then 0xff else data.getD bp 0

/-- The next byte of a finished code: an ordinary one, or the ones behind the end. -/
theorem ReadTo.next {s : Span} (h : ReadTo data bp W e) (hc : Coded s (digits data)) :
    (curByte data bp = 0xff ∧ 0x8f < curByte data (bp + 1)) ∧
        ReadTo data bp (W * 2 ^ 8 + 0xff) (e + 8) ∨
      ¬(curByte data bp = 0xff ∧ 0x8f < curByte data (bp + 1)) ∧
        ReadTo data (bp + 1) (W * 2 ^ width (curByte data bp) + curByte data (bp + 1))
          (e + width (curByte data bp)) := by
  cases h with
  | inside hbp =>
    right
    have hcur : curByte data bp = (digitsTo data bp).headD 0 := by
      rw [digitsTo_head hbp, curByte, if_neg (by omega)]
    by_cases hlast : bp + 1 = data.length
    · have hnext : curByte data (bp + 1) = 0xff := by rw [curByte, if_pos (by omega)]
      have hne := hc.last_ne
      rw [hcur, hnext, digitsTo_last hlast]
      have hwidth : width ((digits data).headD 0) = 8 := by simp only [width, hne, if_false]
      refine ⟨fun h => hne h.1, ?_⟩
      rw [hwidth, hlast]
      exact .beyond (by ring)
    · have hnext : curByte data (bp + 1) = data.getD (bp + 1) 0 := by
        rw [curByte, if_neg (by omega)]
      have hsucc := digitsTo_succ (show bp + 1 < data.length by omega)
      have hstuffed := hc.stuffed.suffix (digitsTo_suffix data (bp + 1))
      rw [hsucc] at hstuffed
      rw [hcur, hnext]
      refine ⟨fun h => ?_, ?_⟩
      · have := hstuffed.2.1 h.1
        omega
      · have := ReadTo.inside (show bp + 1 < data.length by omega)
        rwa [hsucc] at this
  | beyond hW =>
    left
    rw [curByte, if_pos (le_refl _), curByte, if_pos (le_succ _)]
    refine ⟨by decide, ?_⟩
    rw [Nat.add_assoc]
    exact .beyond (by rw [Nat.pow_add, ← Nat.mul_assoc, ← hW]; ring)

theorem ReadTo.contained {s : Span} {n : Nat} (h : ReadTo data bp W (s.scale + n))
    (hc : Coded s (digits data)) : s.low * 2 ^ n ≤ W ∧ W < (s.low + s.size) * 2 ^ n := by
  have hpos := Nat.two_pow_pos s.scale
  suffices hscaled : s.low * 2 ^ (s.scale + n) ≤ W * 2 ^ s.scale ∧
      W * 2 ^ s.scale < (s.low + s.size) * 2 ^ (s.scale + n) by
    rw [Nat.pow_add, mul_left_comm, mul_left_comm (s.low + s.size),
      Nat.mul_comm W] at hscaled
    exact ⟨Nat.le_of_mul_le_mul_left hscaled.1 hpos, Nat.lt_of_mul_lt_mul_left hscaled.2⟩
  have hbelow := hc.below
  have hscale : s.scale ≤ s.scale + n := Nat.le_add_right _ _
  generalize s.scale + n = e at h hscale ⊢
  cases h with
  | inside hbp =>
    have hsuffix := digitsTo_suffix data bp
    refine ⟨hc.above _ hsuffix hscale, scaled_lt_of_le_of_lt (value_suffix hsuffix) ?_⟩
    simp only [Span.Below, succ_mul] at hbelow
    omega
  | beyond hW =>
    rename_i k
    constructor
    · refine scaled_le_of_lt_succ hscale ?_
      calc s.low * 2 ^ (bits width (digits data) + k)
          = s.low * 2 ^ bits width (digits data) * 2 ^ k := by ring
        _ < (value width (digits data) + 1) * 2 ^ s.scale * 2 ^ k :=
          Nat.mul_lt_mul_of_pos_right hc.reached (Nat.two_pow_pos k)
        _ = (W + 1) * 2 ^ s.scale := by rw [hW]; ring
    · have hsum : (W + 1) * 2 ^ s.scale ≤ (s.low + s.size) * 2 ^ (bits width (digits data) + k) :=
        calc (W + 1) * 2 ^ s.scale
            = (value width (digits data) + 1) * 2 ^ s.scale * 2 ^ k := by rw [hW]; ring
          _ ≤ (s.low + s.size) * 2 ^ bits width (digits data) * 2 ^ k :=
            mul_le_mul_right _ hbelow
          _ = (s.low + s.size) * 2 ^ (bits width (digits data) + k) := by ring
      rw [succ_mul] at hsum
      omega

end Reading

theorem Coded.double {s : Span} {l : List Nat} (h : Coded s l) : Coded s.double l where
  above p hp hs := by
    have habove := h.above p hp (le_of_succ_le hs)
    simp only [Span.double, pow_succ]
    rw [← Nat.mul_assoc, Nat.mul_assoc 2]
    omega
  reached := by
    have hreached := h.reached
    simp only [Span.Reached, Span.double, pow_succ] at hreached ⊢
    rw [← Nat.mul_assoc, Nat.mul_assoc 2]
    omega
  below := h.below.of_within ⟨le_of_eq (by simp only [Span.double]; ring),
    le_of_eq (by simp only [Span.double]; ring)⟩
  stuffed := h.stuffed
  last_ne := h.last_ne

namespace Decoder

/-- The code register is the distance, in units of `2 ^ -16`, of what has been read from the
base of the interval. -/
structure Tracks (data : List Nat) (m : Decoder) (s : Span) : Prop where
  buffers : m.buffers = [data]
  index : m.curBufferIndex = 0
  ct_le : m.ct ≤ 8
  reads : ∃ W, ReadTo data m.bp W (s.scale + m.ct) ∧
    m.c + s.low * 2 ^ 16 = W * 2 ^ (16 - m.ct)

variable {data : List Nat} {m : Decoder} {s : Span}

theorem Tracks.c_lt (h : Tracks data m s) (hc : Coded s (digits data)) :
    m.c < s.size * 2 ^ 16 := by
  obtain ⟨W, hW, hsum⟩ := h.reads
  have hle := h.ct_le
  have hlt := Nat.mul_lt_mul_of_pos_right (hW.contained hc).2 (Nat.two_pow_pos (16 - m.ct))
  have hexp : 2 ^ m.ct * 2 ^ (16 - m.ct) = 2 ^ 16 := by rw [← Nat.pow_add]; congr 1; omega
  rw [Nat.mul_assoc, hexp, ← hsum, Nat.add_mul] at hlt
  omega

theorem bytein_single (hb : m.buffers = [data]) (hi : m.curBufferIndex = 0) :
    ∃ ov, m.bytein =
      if curByte data m.bp = 0xff ∧ 0x8f < curByte data (m.bp + 1) then
        { m with overflow := ov }.fillOnes
      else
        { m with overflow := ov, bp := m.bp + 1,
                 c := u32 (m.c + curByte data (m.bp + 1) * 2 ^ (16 - width (curByte data m.bp))),
                 ct := width (curByte data m.bp) } := by
  have hend : m.bufferEnd = data.length := by simp [bufferEnd, hb, hi]
  have hat (i : Nat) : m.byteAt m.curBufferIndex i = data.getD i 0 := by simp [byteAt, hb, hi]
  have hsingle : ¬ m.curBufferIndex + 1 < m.buffers.length := by simp [hb, hi]
  have hcur : m.readCur = (m, curByte data m.bp) := by
    simp only [readCur, hend, hat, hsingle, if_false, curByte]
    split <;> rfl
  obtain ⟨ov, hnext⟩ :
      ∃ ov, m.peekNext = ({ m with overflow := ov }, curByte data (m.bp + 1)) := by
    simp only [peekNext, hend, hat, hsingle, if_false, curByte]
    split
    · exact ⟨true, rfl⟩
    · exact ⟨m.overflow, rfl⟩
  refine ⟨ov, ?_⟩
  simp only [bytein, hcur, hnext]
  split
  · rfl
  · rcases width_cases (curByte data m.bp) with ⟨hff, hw⟩ | ⟨hff, hw⟩ <;>
      rw [hw] <;> simp [hff, shiftLeft_eq]

theorem Tracks.bytein (h : Tracks data m s) (hct : m.ct = 0) (hc : Coded s (digits data))
    (hsize : s.size ≤ 2 ^ 16) :
    Tracks data m.bytein s ∧ 7 ≤ m.bytein.ct ∧ m.bytein.ctxs = m.ctxs ∧ m.bytein.a = m.a := by
  obtain ⟨W, hW, hsum⟩ := h.reads
  rw [hct, Nat.add_zero] at hW
  rw [hct, Nat.sub_zero] at hsum
  obtain ⟨ov, heq⟩ := bytein_single h.buffers h.index
  -- the register does not overflow because what is read stays in the interval
  have hfits {bp' W' n : Nat} (hn : n ≤ 16) (hread : ReadTo data bp' W' (s.scale + n)) :
      W' * 2 ^ (16 - n) < (s.low + s.size) * 2 ^ 16 := by
    have hlt := Nat.mul_lt_mul_of_pos_right (hread.contained hc).2 (Nat.two_pow_pos (16 - n))
    rwa [Nat.mul_assoc, ← Nat.pow_add, Nat.add_sub_cancel' hn] at hlt
  rw [heq]
  rcases hW.next hc with ⟨hend, hread⟩ | ⟨hmore, hread⟩
  · rw [if_pos hend]
    have hlt := hfits (by decide) hread
    simp only [fillOnes]
    rw [u32_of_lt (by rw [Nat.add_mul] at hlt; omega)]
    refine ⟨⟨h.buffers, h.index, le_refl 8, _, hread, ?_⟩, by decide, trivial, trivial⟩
    simp only
    omega
  · rw [if_neg hmore]
    have hw := width_cases (curByte data m.bp)
    have hlt := hfits (by omega) hread
    have hexp : 2 ^ width (curByte data m.bp) * 2 ^ (16 - width (curByte data m.bp)) = 2 ^ 16 := by
      rw [← Nat.pow_add]; congr 1; omega
    have hsplit : (W * 2 ^ width (curByte data m.bp) + curByte data (m.bp + 1))
          * 2 ^ (16 - width (curByte data m.bp))
        = m.c + s.low * 2 ^ 16
          + curByte data (m.bp + 1) * 2 ^ (16 - width (curByte data m.bp)) := by
      rw [Nat.add_mul, Nat.mul_assoc, hexp, hsum]
    rw [u32_of_lt (by omega)]
    refine ⟨⟨h.buffers, h.index, ?_, _, hread, ?_⟩, ?_, rfl, rfl⟩
    · show width _ ≤ 8
      omega
    · simp only
      rw [hsplit]
      omega
    · show 7 ≤ width _
      omega

theorem Tracks.shifted {n : Nat} (h : Tracks data m s) (hn : n ≤ m.ct) (a : Nat) :
    Tracks data { m with a, c := m.c * 2 ^ n, ct := m.ct - n }
      ⟨s.low * 2 ^ n, s.size * 2 ^ n, s.scale + n⟩ := by
  obtain ⟨W, hW, hsum⟩ := h.reads
  have hle := h.ct_le
  refine ⟨h.buffers, h.index, le_trans (sub_le _ _) hle, W, ?_, ?_⟩
  · show ReadTo data m.bp W (s.scale + n + (m.ct - n))
    rwa [Nat.add_assoc, Nat.add_sub_cancel' hn]
  · have hexp : 16 - (m.ct - n) = 16 - m.ct + n := by omega
    simp only
    rw [hexp, Nat.pow_add, ← Nat.mul_assoc, ← hsum]
    ring

/-- `Tracks` with the interval register, on a code that is known to be finished. -/
structure Runs (data : List Nat) (m : Decoder) (s : Span) : Prop extends Tracks data m s where
  a_eq : m.a = s.size
  coded : Coded s (digits data)

/-- The registers doubled. -/
def doubled (m : Decoder) : Decoder :=
  { m with a := u32 (m.a <<< 1), c := u32 (m.c <<< 1), ct := m.ct - 1 }

theorem shift_of_ct_zero (hct : m.ct = 0) (hend : m.bufferEnd ≠ 0) :
    m.shift = m.bytein.doubled := by
  simp [shift, doubled, hct, hend]

theorem shift_of_ct_pos (hct : m.ct ≠ 0) : m.shift = m.doubled := by
  simp only [shift, doubled, hct, if_false]

theorem Runs.doubled (h : Runs data m s) (hct : 1 ≤ m.ct) (hsmall : s.size < aMin) :
    Runs data m.doubled s.double := by
  have hc := h.toTracks.c_lt h.coded
  have hspan : s.double = ⟨s.low * 2 ^ 1, s.size * 2 ^ 1, s.scale + 1⟩ := by
    simp only [Span.double, pow_one, Nat.mul_comm]
  simp only [aMin] at hsmall
  simp only [Decoder.doubled, shiftLeft_one, h.a_eq]
  rw [u32_of_lt (by omega), u32_of_lt (by omega)]
  refine ⟨?_, rfl, h.coded.double⟩
  rw [hspan, Nat.mul_comm 2 m.c]
  exact h.toTracks.shifted hct (2 * s.size)

theorem Runs.shift (h : Runs data m s) (hdata : data ≠ []) (hsmall : s.size < aMin) :
    Runs data m.shift s.double ∧ m.shift.ctxs = m.ctxs := by
  by_cases hct : m.ct = 0
  · have hend : m.bufferEnd ≠ 0 := by simp [bufferEnd, h.buffers, h.index, hdata]
    obtain ⟨htracks, h7, hctxs, ha⟩ :=
      h.toTracks.bytein hct h.coded (by simp only [aMin] at hsmall; omega)
    rw [shift_of_ct_zero hct hend]
    exact ⟨Runs.doubled ⟨htracks, ha.trans h.a_eq, h.coded⟩ (by omega) hsmall, hctxs⟩
  · rw [shift_of_ct_pos hct]
    exact ⟨h.doubled (by omega) hsmall, rfl⟩

theorem Runs.renormLoop {fuel : Nat} (h : Runs data m s) (hdata : data ≠ [])
    (hsmall : s.size < aMin) (hfuel : aMin ≤ s.size * 2 ^ fuel) :
    Runs data (m.renormLoop fuel) (s.renorm aMin fuel) ∧ (m.renormLoop fuel).ctxs = m.ctxs := by
  induction fuel generalizing m s with
  | zero => omega
  | succ fuel ih =>
    obtain ⟨hr, hctxs⟩ := h.shift hdata hsmall
    rw [Decoder.renormLoop, Span.renorm, hr.a_eq]
    split
    · obtain ⟨hruns, hrest⟩ := ih hr ‹_› (by
        show aMin ≤ 2 * s.size * 2 ^ fuel
        calc aMin ≤ s.size * (2 ^ fuel * 2) := hfuel
          _ = 2 * s.size * 2 ^ fuel := by ring)
      exact ⟨hruns, hrest.trans hctxs⟩
    · exact ⟨hr, hctxs⟩

theorem Runs.settle (h : Runs data m s) (hdata : data ≠ []) (hpos : 0 < s.size) :
    Runs data (if m.a < aMin then m.renorm else m) (MqCoder.settle s) ∧
      (if m.a < aMin then m.renorm else m).ctxs = m.ctxs := by
  rw [MqCoder.settle, h.a_eq]
  split
  · exact h.renormLoop hdata ‹_› (by simp only [aMin]; omega)
  · exact ⟨h, rfl⟩

/-- The registers after a symbol, before renormalisation. -/
def narrow (m : Decoder) (x : Fin 19) (d : Bool) : Decoder :=
  let st := curctx m.ctxs x
  let lower := takesLower st m.a d
  { m with a := if lower then st.qeval else m.a - st.qeval,
           c := if lower then m.c else m.c - st.qeval * 2 ^ 16,
           ctxs := Function.update m.ctxs x (nextState m.ctxs x m.a d) }

theorem decode_eq (ha : aMin ≤ m.a) (hlt : m.a < 2 ^ 16) (hc : m.c < 2 ^ 32) (x : Fin 19)
    (d : Bool)
    (hside : m.c < (curctx m.ctxs x).qeval * 2 ^ 16 ↔ takesLower (curctx m.ctxs x) m.a d = true) :
    m.decode x =
      (d, if (m.narrow x d).a < aMin then (m.narrow x d).renorm else m.narrow x d) := by
  have hq := qeval_bounds m.ctxs x
  set q := (curctx m.ctxs x).qeval with hqdef
  simp only [aMin] at ha
  have hsub : sub32 m.a q = m.a - q := sub32_of_le (by omega) (by omega)
  have hshift : u32 (q <<< 16) = q * 2 ^ 16 := by
    rw [shiftLeft_eq, u32_of_lt (by omega)]
  have hqa : q < aMin := by simp only [aMin]; omega
  have hcsub (hge : q * 2 ^ 16 ≤ m.c) : sub32 m.c (q * 2 ^ 16) = m.c - q * 2 ^ 16 :=
    sub32_of_le hge hc
  simp only [decode, narrow, takesLower, nextState, setCtx, ← hqdef, hsub, hshift] at hside ⊢
  generalize q * 2 ^ 16 = bound at hside hcsub ⊢
  by_cases hex : m.a - q < q
  · have hsmall := lt_trans hex hqa
    by_cases hd : (curctx m.ctxs x).mps = d
    · have hlow : m.c < bound := hside.mpr (by simp [hd, hex])
      simp [hd, hex, hlow, hsmall, hqa]
    · have hlow : ¬ m.c < bound := fun h => by simpa [hd, hex] using hside.mp h
      have hnot : (!(curctx m.ctxs x).mps) = d := by
        cases d <;> simp_all
      simp [hd, hex, hlow, hsmall, hcsub (by omega), hnot]
  · by_cases hd : (curctx m.ctxs x).mps = d
    · have hlow : ¬ m.c < bound := fun h => by simpa [hd, hex] using hside.mp h
      by_cases hsmall : m.a - q < aMin <;> simp [hd, hex, hlow, hsmall, hcsub (by omega)]
    · have hlow : m.c < bound := hside.mpr (by simp [hd, hex])
      have hnot : (!(curctx m.ctxs x).mps) = d := by
        cases d <;> simp_all
      simp [hd, hex, hlow, hqa, hnot]

theorem part_scale (st : MqcState) (s : Span) (d : Bool) : (part st s d).scale = s.scale := by
  unfold part
  split <;> rfl

theorem Tracks.lt_iff (h : Tracks data m s) (st : MqcState) (d : Bool)
    (hpart : Coded (part st s d) (digits data)) :
    m.c < st.qeval * 2 ^ 16 ↔ takesLower st s.size d = true := by
  obtain ⟨W, hW, hsum⟩ := h.reads
  have hle := h.ct_le
  have hexp : 2 ^ m.ct * 2 ^ (16 - m.ct) = 2 ^ 16 := by rw [← Nat.pow_add]; congr 1; omega
  rw [← part_scale st s d] at hW
  have hin := hW.contained hpart
  have hsplit : (s.low + st.qeval) * 2 ^ m.ct * 2 ^ (16 - m.ct)
      = s.low * 2 ^ 16 + st.qeval * 2 ^ 16 := by rw [Nat.mul_assoc, hexp, Nat.add_mul]
  by_cases htakes : takesLower st s.size d = true
  · rw [part, if_pos htakes] at hin
    have hlt : W < (s.low + st.qeval) * 2 ^ m.ct := hin.2
    have := Nat.mul_lt_mul_of_pos_right hlt (Nat.two_pow_pos (16 - m.ct))
    exact ⟨fun _ => htakes, fun _ => by omega⟩
  · rw [part, if_neg htakes] at hin
    have hge : (s.low + st.qeval) * 2 ^ m.ct ≤ W := hin.1
    have := mul_le_mul_right (2 ^ (16 - m.ct)) hge
    exact ⟨fun hlt => by omega, fun ht => absurd ht htakes⟩

/-- One symbol: the decoder finds the symbol whose part of the interval is coded, and tracks
that part. -/
theorem Runs.decode (h : Runs data m s) (hdata : data ≠ []) (hmin : aMin ≤ s.size)
    (hlt : s.size < 2 ^ 16) (x : Fin 19) (d : Bool)
    (hpart : Coded (part (curctx m.ctxs x) s d) (digits data)) :
    (m.decode x).1 = d ∧
      Runs data (m.decode x).2 (MqCoder.settle (part (curctx m.ctxs x) s d)) ∧
      (m.decode x).2.ctxs = Function.update m.ctxs x (nextState m.ctxs x s.size d) := by
  have ha := h.a_eq
  have hq := qeval_bounds m.ctxs x
  have hc := h.toTracks.c_lt h.coded
  have hside := h.toTracks.lt_iff (curctx m.ctxs x) d hpart
  have heq := decode_eq (m := m) (by omega) (by omega) (by omega) x d (by rw [ha]; exact hside)
  have hnarrow : Runs data (m.narrow x d) (part (curctx m.ctxs x) s d) := by
    refine ⟨?_, ?_, hpart⟩
    · obtain ⟨W, hW, hsum⟩ := h.reads
      refine ⟨h.buffers, h.index, h.ct_le, W, by rw [part_scale]; exact hW, ?_⟩
      simp only [narrow, part, ha]
      split
      · exact hsum
      · rename_i htakes
        have hge : (curctx m.ctxs x).qeval * 2 ^ 16 ≤ m.c :=
          not_lt.mp fun hlow => htakes (hside.mp hlow)
        rw [← hsum, Span.upper, Nat.add_mul]
        omega
    · simp only [narrow, part, ha]
      split <;> rfl
  have hpos : 0 < (part (curctx m.ctxs x) s d).size := by
    unfold part
    split
    · exact hq.1
    · show 0 < s.size - (curctx m.ctxs x).qeval
      simp only [aMin] at hmin
      omega
  obtain ⟨hsettle, hctxs⟩ := hnarrow.settle hdata hpos
  rw [heq]
  refine ⟨rfl, hsettle, hctxs.trans ?_⟩
  simp only [narrow, ha]

end Decoder

/-- From matching states, the decoder returns the symbols the encoder is about to code. -/
theorem decodeAll_encodeAll {data : List Nat} (hdata : data ≠ [])
    (symbols : List (Fin 19 × Bool)) {m : Encoder} {d : Decoder} {s₀ s : Span}
    (hm : Encoder.Ready s₀ m s) (hd : Decoder.Runs data d s) (hctxs : d.ctxs = m.ctxs)
    (hcode : (m.encodeAll symbols).flushEnc.below = digits data) :
    d.decodeAll (symbols.map Prod.fst) = symbols.map Prod.snd := by
  induction symbols generalizing m d s₀ s with
  | nil => rfl
  | cons symbol symbols ih =>
    obtain ⟨x, b⟩ := symbol
    have hnarrow := hm.narrow x b
    -- restarted at the part of this symbol, the rest of the run codes that part
    have hrestart : Encoder.Runs (part (curctx m.ctxs x) s b) (m.narrow x b)
        (part (curctx m.ctxs x) s b) :=
      ⟨hnarrow.toTracks.follows, hnarrow.a_eq, hnarrow.ct_pos, hnarrow.size_pos, hnarrow.size_lt⟩
    have hready := hrestart.settle.1
    have henc := hm.encode_eq x b
    rw [← henc] at hready
    obtain ⟨t, hrest⟩ := hready.encodeAll symbols
    have hpart := hrest.flushEnc.1
    rw [show ((m.encode x b).encodeAll symbols).flushEnc.below = digits data from hcode,
      ← hctxs] at hpart
    obtain ⟨hbit, hruns, hnext⟩ := hd.decode hdata hm.2 hm.1.size_lt x b hpart
    have hsame : (d.decode x).2.ctxs = (m.encode x b).ctxs := by
      rw [hnext, hctxs, henc, hrestart.settle.2, Encoder.narrow, hm.1.a_eq]
    rw [hctxs] at hruns
    have hih := ih hready hruns hsame hcode
    simp only [map_cons, Decoder.decodeAll, hbit, hih]

end GrokCodec.MqCoder
