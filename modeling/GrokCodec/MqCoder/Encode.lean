import GrokCodec.MqCoder.Basic
import GrokCodec.Lib.IntervalCoding
import Mathlib.Data.Nat.Bitwise

/-!
The encoder against exact interval coding. The bytes written so far and the code register
together spell the base of the exact interval; a byte after 0xFF leaves room for a carry, so a
carry never runs further back than the byte at `bp`.
-/

namespace GrokCodec.MqCoder

open IntervalCoding List

/-- Bits a byte adds to the code: the one after 0xFF overlaps it by a bit. -/
def width (prev : Nat) : Nat := if prev = 0xff then 7 else 8

theorem width_cases (b : Nat) : b = 0xff ∧ width b = 7 ∨ b ≠ 0xff ∧ width b = 8 := by
  unfold width
  split <;> simp_all

/-- Bytes, last one first, in which none after 0xFF looks like a marker. -/
def Stuffed : List Nat → Prop
  | [] => True
  | b :: l => b < 256 ∧ (l.headD 0 = 0xff → b ≤ 0x8f) ∧ Stuffed l

theorem and_ones (x n : Nat) : x &&& (2 ^ n - 1) = x % 2 ^ n := Nat.and_two_pow_sub_one_eq_mod x n

theorem and_bit_eq_zero {x n : Nat} (hx : x < 2 ^ (n + 1)) : x &&& 2 ^ n = 0 ↔ x < 2 ^ n := by
  rw [Nat.and_two_pow, Nat.testBit_eq_decide_div_mod_eq]
  rcases Nat.lt_or_ge x (2 ^ n) with h | h
  · simp [Nat.div_eq_of_lt h, h]
  · have hone : x / 2 ^ n = 1 := by
      exact Nat.div_eq_of_lt_le (by omega) (by omega)
    simp [hone, Nat.not_lt.mpr h]

theorem shiftLeft_one (x : Nat) : x <<< 1 = 2 * x := by rw [Nat.shiftLeft_eq]; omega

/-! ### One byte -/

/-- What `byteout` does: a carry `k` into the byte at `bp`, the next byte `x`, and what is
left of the register. The next byte is a bit narrower after 0xFF. -/
theorem Encoder.byteout_spec {m : Encoder} (hb : m.byte < 256) (hc : m.c < 0x9000000) :
    ∃ k x r, m.byteout = { m with below := (m.byte + k) :: m.below, byte := x, c := r,
                                  ct := width (m.byte + k) } ∧
      m.c = k * 2 ^ 27 + x * 2 ^ (27 - width (m.byte + k)) + r ∧
      r < 2 ^ (27 - width (m.byte + k)) ∧ m.byte + k < 256 ∧ x < 256 := by
  have h20 : ∀ c : Nat, c &&& 0xfffff = c % 2 ^ 20 := fun c => and_ones c 20
  have h19 : ∀ c : Nat, c &&& 0x7ffff = c % 2 ^ 19 := fun c => and_ones c 19
  have h27 : ∀ c : Nat, c &&& 0x7ffffff = c % 2 ^ 27 := fun c => and_ones c 27
  have hbit : m.c &&& 0x8000000 = 0 ↔ m.c < 2 ^ 27 := and_bit_eq_zero (n := 27) (by omega)
  simp only [byteout, advance, h20, h19, h27, hbit, Nat.shiftRight_eq_div_pow]
  by_cases hff : m.byte = 0xff
  · refine ⟨0, m.c / 2 ^ 20 % 256, m.c % 2 ^ 20, ?_⟩
    simp only [Nat.add_zero, hff, width, if_true, true_and]
    omega
  by_cases hcarry : m.c < 2 ^ 27
  · refine ⟨0, m.c / 2 ^ 19 % 256, m.c % 2 ^ 19, ?_⟩
    simp only [Nat.add_zero, hff, hcarry, width, if_true, if_false, true_and]
    omega
  have hsucc : (m.byte + 1) % 256 = m.byte + 1 := by omega
  by_cases hnext : m.byte + 1 = 0xff
  · refine ⟨1, m.c % 2 ^ 27 / 2 ^ 20 % 256, m.c % 2 ^ 27 % 2 ^ 20, ?_⟩
    simp only [hff, hcarry, hnext, width, if_true, if_false, true_and]
    omega
  · refine ⟨1, m.c / 2 ^ 19 % 256, m.c % 2 ^ 19, ?_⟩
    simp only [hff, hcarry, hsucc, hnext, width, if_false, true_and]
    omega

/-! ### The exact interval behind the registers -/

namespace Encoder

/-- The bytes up to `bp`, last one first. -/
def out (m : Encoder) : List Nat := m.byte :: m.below

/-- The bytes and the code register spell the base of the interval `s`. The byte before the
buffer counts as the first digit. `room` keeps the register small enough for a carry to be a
single bit, `top` keeps a byte after 0xFF below 0x90 even after a carry. -/
structure Tracks (m : Encoder) (s : Span) : Prop where
  scale : s.scale + m.ct = 27 + bits width m.out
  low : s.low = value width m.out * 2 ^ (27 - m.ct) + m.c
  ct_le : m.ct ≤ 12
  room : (m.c + s.size) * 2 ^ m.ct ≤ 0x9000000
  stuffed : Stuffed m.out
  top : m.below.headD 0 = 0xff → m.byte * 2 ^ 27 + (m.c + s.size) * 2 ^ m.ct ≤ 0x90 * 2 ^ 27

/-- The encoder, having started at `s₀`, is now at `s`. -/
structure Follows (s₀ : Span) (m : Encoder) (s : Span) : Prop extends Tracks m s where
  within : s.Within s₀
  above : s₀.Above width m.out

theorem Tracks.follows {m : Encoder} {s : Span} (h : Tracks m s) : Follows s m s where
  toTracks := h
  within := .refl s
  above := Span.above_of_bits_lt (by have := h.scale; have := h.ct_le; omega)

variable {s₀ s : Span} {m : Encoder}

/-- The state after `byteout`, with what the register held split into carry, byte and rest. -/
theorem Follows.byteout (h : Follows s₀ m s) (hct : m.ct = 0) (hpos : 0 < s.size)
    (hsize : s.size ≤ 2 ^ 16) :
    Follows s₀ m.byteout s ∧ 7 ≤ m.byteout.ct ∧ m.byteout.ct ≤ 8 ∧ m.byteout.a = m.a ∧
      m.byteout.ctxs = m.ctxs ∧ s₀.Reached width m.byteout.out ∧
      m.byteout.below.length = m.below.length + 1 := by
  obtain ⟨hscale, hlow, -, hroom, ⟨hbyte, hafter, hbelow⟩, htop⟩ := h.toTracks
  rw [hct, Nat.pow_zero, Nat.mul_one] at hroom htop
  rw [hct, Nat.sub_zero] at hlow
  obtain ⟨k, x, r, heq, hc, hr, hk, hx⟩ := byteout_spec hbyte (m := m) (by omega)
  have hw := width_cases (m.byte + k)
  have hvalue : value width ((m.byte + k) :: m.below) = value width m.out + k := by
    simp only [out, value]
    omega
  have hstuffed : m.below.headD 0 = 0xff → m.byte + k ≤ 0x8f := fun hff => by
    omega
  rw [heq]
  have hnewlow : s.low = value width (x :: (m.byte + k) :: m.below)
      * 2 ^ (27 - width (m.byte + k)) + r := by
    rw [value, headD_cons, hvalue, hlow, hc]
    rcases hw with ⟨-, hw⟩ | ⟨-, hw⟩ <;> rw [hw] <;> ring
  have hnewscale : s.scale + width (m.byte + k)
      = 27 + bits width (x :: (m.byte + k) :: m.below) := by
    simp only [out, bits, headD_cons] at hscale ⊢
    omega
  have hreached : s₀.Reached width (x :: (m.byte + k) :: m.below) := by
    refine Span.reached_of_lt (r := 27 - width (m.byte + k)) h.within (by omega) ?_
    rw [hnewlow, Nat.add_mul, Nat.one_mul]
    omega
  refine ⟨⟨⟨hnewscale, hnewlow, ?_, ?_, ?_, ?_⟩, h.within, (h.above.raise k).cons hreached⟩,
    ?_, ?_, rfl, rfl, hreached, rfl⟩
  · show width (m.byte + k) ≤ 12
    omega
  · show (r + s.size) * 2 ^ width (m.byte + k) ≤ 0x9000000
    rcases hw with ⟨-, hw⟩ | ⟨-, hw⟩ <;> rw [hw] at hr ⊢ <;> omega
  · refine ⟨hx, fun hff => ?_, hk, hstuffed, hbelow⟩
    rw [headD_cons] at hff
    rw [hff] at hc
    simp only [width, if_true] at hc
    show x ≤ 0x8f
    omega
  · intro hff
    rw [headD_cons] at hff
    show x * 2 ^ 27 + (r + s.size) * 2 ^ width (m.byte + k) ≤ 0x90 * 2 ^ 27
    rw [hff] at hc ⊢
    simp only [width, if_true] at hc ⊢
    omega
  · show 7 ≤ width (m.byte + k)
    omega
  · show width (m.byte + k) ≤ 8
    omega

theorem Follows.doubled (h : Follows s₀ m s) (hct : 1 ≤ m.ct) (a : Nat) :
    Follows s₀ { m with a, c := 2 * m.c, ct := m.ct - 1 } s.double := by
  obtain ⟨hscale, hlow, hle, hroom, hstuffed, htop⟩ := h.toTracks
  obtain ⟨j, hj⟩ : ∃ j, m.ct = j + 1 := ⟨m.ct - 1, by omega⟩
  have hprod : (2 * m.c + 2 * s.size) * 2 ^ j = (m.c + s.size) * 2 ^ m.ct := by rw [hj]; ring
  have hbase : 2 * s.low = value width m.out * 2 ^ (27 - j) + 2 * m.c := by
    have hexp : 27 - j = 27 - m.ct + 1 := by omega
    rw [hlow, hexp]
    ring
  have hpred : m.ct - 1 = j := by omega
  simp only [hpred]
  refine ⟨⟨?_, hbase, ?_, ?_, hstuffed, fun hff => ?_⟩, s.double_within.trans h.within, h.above⟩
  · show s.scale + 1 + j = 27 + bits width m.out
    omega
  · show j ≤ 12
    omega
  · show (2 * m.c + 2 * s.size) * 2 ^ j ≤ 0x9000000
    rwa [hprod]
  · show m.byte * 2 ^ 27 + (2 * m.c + 2 * s.size) * 2 ^ j ≤ 0x90 * 2 ^ 27
    rw [hprod]
    exact htop hff

/-- A state between two symbols or inside a renormalisation. -/
structure Runs (s₀ : Span) (m : Encoder) (s : Span) : Prop extends Follows s₀ m s where
  a_eq : m.a = s.size
  ct_pos : 1 ≤ m.ct
  size_pos : 0 < s.size
  size_lt : s.size < 2 ^ 16

/-- `Runs` with the interval register normalised, as between two symbols. -/
def Ready (s₀ : Span) (m : Encoder) (s : Span) : Prop := Runs s₀ m s ∧ aMin ≤ s.size

/-- A turn of the loop, without the wrapping of the registers. -/
theorem Runs.shift_eq (h : Runs s₀ m s) (hsmall : s.size < aMin) :
    m.shift = if m.ct - 1 = 0 then { m with a := 2 * s.size, c := 2 * m.c, ct := m.ct - 1 }.byteout
      else { m with a := 2 * s.size, c := 2 * m.c, ct := m.ct - 1 } := by
  have hpow : 2 ≤ 2 ^ m.ct := Nat.le_self_pow (by have := h.ct_pos; omega) 2
  have hc : 2 * (m.c + s.size) ≤ 0x9000000 := by
    have := Nat.mul_le_mul_left (m.c + s.size) hpow
    have := h.room
    omega
  simp only [aMin] at hsmall
  have ha : u32 (m.a <<< 1) = 2 * s.size := by
    rw [shiftLeft_one, h.a_eq, u32_of_lt (by omega)]
  have hc2 : u32 (m.c <<< 1) = 2 * m.c := by rw [shiftLeft_one, u32_of_lt (by omega)]
  simp only [Encoder.shift, ha, hc2]

theorem Runs.shift (h : Runs s₀ m s) (hsmall : s.size < aMin) :
    Runs s₀ m.shift s.double ∧ m.shift.ctxs = m.ctxs := by
  have hpos := h.size_pos
  have hsize : s.double.size = 2 * s.size := rfl
  have hd := h.toFollows.doubled h.ct_pos (2 * s.size)
  rw [h.shift_eq hsmall]
  simp only [aMin] at hsmall
  by_cases hzero : m.ct - 1 = 0
  · simp only [hzero, if_true] at hd ⊢
    obtain ⟨hf, h7, -, haeq, hctxs, -, -⟩ := hd.byteout rfl (by omega) (by omega)
    exact ⟨⟨hf, haeq, by omega, by omega, by omega⟩, hctxs⟩
  · simp only [hzero, if_false, and_true]
    exact ⟨hd, rfl, Nat.pos_of_ne_zero hzero, by omega, by omega⟩

theorem Runs.renormeLoop {fuel : Nat} (h : Runs s₀ m s) (hsmall : s.size < aMin)
    (hfuel : aMin ≤ s.size * 2 ^ fuel) :
    Ready s₀ (m.renormeLoop fuel) (s.renorm aMin fuel) ∧
      (m.renormeLoop fuel).ctxs = m.ctxs := by
  induction fuel generalizing m s with
  | zero => omega
  | succ fuel ih =>
    obtain ⟨hr, hctxs⟩ := h.shift hsmall
    have hbit : m.shift.a &&& 0x8000 = 0 ↔ s.double.size < aMin := by
      rw [hr.a_eq]
      exact and_bit_eq_zero (n := 15) hr.size_lt
    rw [Encoder.renormeLoop, Span.renorm]
    simp only [hbit]
    split
    · obtain ⟨hready, hrest⟩ := ih hr ‹_› (by
        show aMin ≤ 2 * s.size * 2 ^ fuel
        calc aMin ≤ s.size * (2 ^ fuel * 2) := hfuel
          _ = 2 * s.size * 2 ^ fuel := by ring)
      exact ⟨hready, hrest.trans hctxs⟩
    · exact ⟨⟨hr, by omega⟩, hctxs⟩

end Encoder

/-! ### One symbol -/

theorem qeval_bounds (ctxs : Contexts) (x : Fin 19) :
    0 < (curctx ctxs x).qeval ∧ (curctx ctxs x).qeval ≤ 0x5601 := by
  have table : ∀ i, 0 < (mqcStates.get i).qeval ∧ (mqcStates.get i).qeval ≤ 0x5601 := by decide
  exact table (ctxs x)

/-- A symbol takes the lower part of the interval when it is the less probable one, or the
other one after the exchange of the two. -/
def takesLower (st : MqcState) (a : Nat) (d : Bool) : Bool :=
  (st.mps == d) == decide (a - st.qeval < st.qeval)

/-- The part of the interval that belongs to a symbol. -/
def part (st : MqcState) (s : Span) (d : Bool) : Span :=
  if takesLower st s.size d then s.lower st.qeval else s.upper st.qeval

/-- The state of a context after a symbol; the more probable one only moves it when the
interval has to be renormalised. -/
def nextState (ctxs : Contexts) (x : Fin 19) (a : Nat) (d : Bool) : Fin 94 :=
  let st := curctx ctxs x
  if st.mps = d then if a - st.qeval < aMin then st.nmps else ctxs x else st.nlps

/-- Renormalisation where it is due. -/
def settle (s : Span) : Span := if s.size < aMin then s.renorm aMin 15 else s

namespace Encoder

/-- The registers after a symbol, before renormalisation. -/
def narrow (m : Encoder) (x : Fin 19) (d : Bool) : Encoder :=
  let st := curctx m.ctxs x
  let lower := takesLower st m.a d
  { m with a := if lower then st.qeval else m.a - st.qeval,
           c := if lower then m.c else m.c + st.qeval,
           ctxs := Function.update m.ctxs x (nextState m.ctxs x m.a d) }

theorem encode_eq {m : Encoder} (ha : aMin ≤ m.a) (hlt : m.a < 2 ^ 16) (hc : m.c < 2 ^ 28)
    (x : Fin 19) (d : Bool) :
    m.encode x d =
      if (m.narrow x d).a < aMin then (m.narrow x d).renorme else m.narrow x d := by
  have hq := qeval_bounds m.ctxs x
  set q := (curctx m.ctxs x).qeval with hqdef
  simp only [aMin] at ha
  have hsub : sub32 m.a q = m.a - q := sub32_of_le (by omega) (by omega)
  have hadd : u32 (m.c + q) = m.c + q := u32_of_lt (by omega)
  have hbit : (m.a - q) &&& 0x8000 = 0 ↔ m.a - q < aMin :=
    and_bit_eq_zero (n := 15) (by omega)
  simp only [encode, codemps, codelps, narrow, takesLower, nextState, setCtx, ← hqdef, hsub,
    hadd, hbit]
  by_cases hd : (curctx m.ctxs x).mps = d
  · by_cases hex : m.a - q < q
    · have hsmall : m.a - q < aMin := by simp only [aMin]; omega
      have hqa : q < aMin := by simp only [aMin]; omega
      simp [hd, hex, hsmall, hqa]
    · by_cases hsmall : m.a - q < aMin <;> simp [hd, hex, hsmall]
  · by_cases hex : m.a - q < q
    · have hsmall : m.a - q < aMin := by simp only [aMin]; omega
      simp [hd, hex, hsmall]
    · have hqa : q < aMin := by simp only [aMin]; omega
      simp [hd, hex, hqa]

variable {s₀ s : Span} {m : Encoder}

theorem Runs.settle (h : Runs s₀ m s) :
    Ready s₀ (if m.a < aMin then m.renorme else m) (settle s) ∧
      (if m.a < aMin then m.renorme else m).ctxs = m.ctxs := by
  rw [MqCoder.settle, h.a_eq]
  split
  · have hpos := h.size_pos
    exact h.renormeLoop ‹_› (by simp only [aMin]; omega)
  · exact ⟨⟨h, by omega⟩, rfl⟩

variable (h : Ready s₀ m s)

include h

theorem Ready.c_lt : m.c < 2 ^ 28 := by
  have hroom := h.1.room
  have := Nat.mul_le_mul_left (m.c + s.size) (Nat.one_le_two_pow (n := m.ct))
  omega

/-- The registers after a symbol spell the base of the symbol's part of the interval. -/
theorem Ready.narrow (x : Fin 19) (d : Bool) :
    Runs s₀ (m.narrow x d) (part (curctx m.ctxs x) s d) := by
  obtain ⟨⟨⟨⟨hscale, hlow, hct, hroom, hstuffed, htop⟩, hwithin, habove⟩, ha, hpos, -, hlt⟩,
    hmin⟩ := h
  simp only [aMin] at hmin
  have hq := qeval_bounds m.ctxs x
  have hpart : (part (curctx m.ctxs x) s d).Within s := by
    unfold part
    split
    · exact Span.lower_within (by omega)
    · exact Span.upper_within (by omega)
  -- the new register stays below the old end of the interval
  have hend (c a : Nat) (hca : c + a ≤ m.c + s.size) :
      (c + a) * 2 ^ m.ct ≤ (m.c + s.size) * 2 ^ m.ct := Nat.mul_le_mul_right _ hca
  unfold Encoder.narrow part
  unfold part at hpart
  rw [ha]
  split
  · rename_i hlower
    simp only [hlower, if_true] at hpart ⊢
    have hle := hend m.c (curctx m.ctxs x).qeval (by omega)
    exact ⟨⟨⟨hscale, hlow, hct, Nat.le_trans hle hroom, hstuffed,
      fun hff => Nat.le_trans (Nat.add_le_add_left hle _) (htop hff)⟩,
      hpart.trans hwithin, habove⟩, rfl, hpos, hq.1, Nat.lt_of_le_of_lt hq.2 (by decide)⟩
  · rename_i hlower
    simp only [hlower, Bool.false_eq_true, if_false] at hpart ⊢
    have hle := hend (m.c + (curctx m.ctxs x).qeval) (s.size - (curctx m.ctxs x).qeval) (by omega)
    refine ⟨⟨⟨hscale, ?_, hct, Nat.le_trans hle hroom, hstuffed,
      fun hff => Nat.le_trans (Nat.add_le_add_left hle _) (htop hff)⟩,
      hpart.trans hwithin, habove⟩, rfl, hpos, ?_, ?_⟩
    · show s.low + (curctx m.ctxs x).qeval
        = value width m.out * 2 ^ (27 - m.ct) + (m.c + (curctx m.ctxs x).qeval)
      omega
    · show 0 < s.size - (curctx m.ctxs x).qeval
      omega
    · show s.size - (curctx m.ctxs x).qeval < 2 ^ 16
      omega

theorem Ready.encode_eq (x : Fin 19) (d : Bool) :
    m.encode x d =
      if (m.narrow x d).a < aMin then (m.narrow x d).renorme else m.narrow x d :=
  Encoder.encode_eq (by rw [h.1.a_eq]; exact h.2) (by rw [h.1.a_eq]; exact h.1.size_lt) h.c_lt x d

theorem Ready.encode (x : Fin 19) (d : Bool) :
    Ready s₀ (m.encode x d) (MqCoder.settle (part (curctx m.ctxs x) s d)) := by
  rw [h.encode_eq x d]
  exact (h.narrow x d).settle.1

theorem Ready.encodeAll (symbols : List (Fin 19 × Bool)) :
    ∃ t, Ready s₀ (m.encodeAll symbols) t := by
  induction symbols generalizing m s with
  | nil => exact ⟨s, h⟩
  | cons symbol symbols ih => exact ih (h.encode symbol.1 symbol.2)

end Encoder

end GrokCodec.MqCoder
