import GrokCodec.MqCoder.Encode

/-!
The end of the code. The flush picks a point of the final interval whose digits end in ones,
so that the ones the decoder sees behind the last byte change nothing; a last byte 0xFF is
such a run of ones and is left out.
-/

namespace GrokCodec.MqCoder

open IntervalCoding

theorem or_ones (x n : Nat) : x ||| (2 ^ n - 1) = 2 ^ n * (x / 2 ^ n) + (2 ^ n - 1) := by
  rw [Nat.two_pow_add_eq_or_of_lt (Nat.sub_lt (Nat.two_pow_pos n) Nat.one_pos)]
  apply Nat.eq_of_testBit_eq
  intro i
  rw [Nat.testBit_or, Nat.testBit_or, Nat.testBit_two_pow_sub_one, Nat.testBit_two_pow_mul,
    Nat.testBit_div_two_pow]
  by_cases hi : i < n
  · simp [hi]
  · simp [hi, Nat.not_lt.mp hi]

namespace Encoder

variable {s₀ s : Span} {m : Encoder}

/-- The register after `setbits`: a number of the interval that ends in fifteen ones. -/
theorem setbitsEnc_spec (ha : aMin ≤ m.a) (hsum : m.c + m.a < 2 ^ 28) :
    ∃ c, m.setbitsEnc = { m with c } ∧ m.c ≤ c ∧ c < m.c + m.a ∧ 2 ^ 15 ∣ c + 1 := by
  have hor : m.c ||| 0xffff = 2 ^ 16 * (m.c / 2 ^ 16) + 0xffff := or_ones m.c 16
  simp only [aMin] at ha
  simp only [setbitsEnc, hor, u32_of_lt (show m.c + m.a < 2 ^ 32 by omega)]
  refine ⟨_, rfl, ?_⟩
  split
  · rw [sub32_of_le (by omega) (by omega)]
    omega
  · omega

theorem byteout_set_ct (ct : Nat) : { m with ct }.byteout = m.byteout := by
  simp only [byteout, advance]

/-- The registers moved up to the next byte, with a single point left of the interval. -/
theorem Follows.aligned (h : Follows s₀ m s) (hsize : s.size = 1) :
    Follows s₀ { m with c := m.c * 2 ^ m.ct, ct := 0 } ⟨s.low * 2 ^ m.ct, 1, s.scale + m.ct⟩ := by
  obtain ⟨hscale, hlow, hct, hroom, hstuffed, htop⟩ := h.toTracks
  rw [hsize] at hroom htop
  have hpos := Nat.one_le_two_pow (n := m.ct)
  have hsum : (m.c * 2 ^ m.ct + 1) * 2 ^ 0 ≤ (m.c + 1) * 2 ^ m.ct := by
    rw [Nat.pow_zero, Nat.mul_one, Nat.succ_mul]
    omega
  have hpoint : (⟨s.low * 2 ^ m.ct, 1, s.scale + m.ct⟩ : Span).Within s := by
    constructor
    · show s.low * 2 ^ (s.scale + m.ct) ≤ s.low * 2 ^ m.ct * 2 ^ s.scale
      exact Nat.le_of_eq (by ring)
    · show (s.low * 2 ^ m.ct + 1) * 2 ^ s.scale ≤ (s.low + s.size) * 2 ^ (s.scale + m.ct)
      rw [hsize, Nat.pow_add, ← Nat.mul_assoc, Nat.mul_right_comm]
      refine Nat.mul_le_mul_right _ ?_
      rw [Nat.succ_mul]
      omega
  refine ⟨⟨hscale, ?_, Nat.zero_le _, Nat.le_trans hsum hroom, hstuffed, fun hff => ?_⟩,
    hpoint.trans h.within, h.above⟩
  · show s.low * 2 ^ m.ct = value width m.out * 2 ^ (27 - 0) + m.c * 2 ^ m.ct
    have hexp : 27 - 0 = 27 - m.ct + m.ct := by omega
    rw [hlow, hexp]
    ring
  · exact Nat.le_trans (Nat.add_le_add_left hsum _) (htop hff)

theorem Follows.flushByte_eq (h : Follows s₀ m s) (hsize : s.size = 1) :
    m.flushByte = { m with c := m.c * 2 ^ m.ct, ct := 0 }.byteout := by
  have hroom := h.room
  rw [hsize, Nat.add_mul] at hroom
  rw [Encoder.flushByte, Nat.shiftLeft_eq, u32_of_lt (by omega)]
  exact (byteout_set_ct 0).symm

theorem Follows.flushByte (h : Follows s₀ m s) (hsize : s.size = 1) :
    Follows s₀ m.flushByte ⟨s.low * 2 ^ m.ct, 1, s.scale + m.ct⟩ ∧ 7 ≤ m.flushByte.ct ∧
      m.flushByte.ct ≤ 8 ∧ s₀.Reached width m.flushByte.out ∧
      m.flushByte.below.length = m.below.length + 1 := by
  obtain ⟨hf, h7, h8, -, -, hr, hlen⟩ := (h.aligned hsize).byteout rfl Nat.one_pos Nat.one_le_two_pow
  rw [h.flushByte_eq hsize]
  exact ⟨hf, h7, h8, hr, hlen⟩

theorem Ready.setbitsEnc (h : Ready s₀ m s) :
    ∃ low, Follows s₀ m.setbitsEnc ⟨low, 1, s.scale⟩ ∧ 2 ^ 15 ∣ low + 1 ∧
      m.setbitsEnc.ct = m.ct ∧ m.setbitsEnc.below = m.below ∧
      (⟨low, 1, s.scale⟩ : Span).Within s₀ := by
  obtain ⟨hscale, hlow, hct, hroom, hstuffed, htop⟩ := h.1.toTracks
  have ha := h.1.a_eq
  have hpow := Nat.mul_le_mul_left (m.c + s.size) (Nat.one_le_two_pow (n := m.ct))
  obtain ⟨c, heq, hge, hlt, hdvd⟩ := setbitsEnc_spec (m := m) (by rw [ha]; exact h.2) (by omega)
  have hend : (c + 1) * 2 ^ m.ct ≤ (m.c + s.size) * 2 ^ m.ct :=
    Nat.mul_le_mul_right _ (by omega)
  have hpoint : (⟨value width m.out * 2 ^ (27 - m.ct) + c, 1, s.scale⟩ : Span).Within s :=
    Span.within_of_scale_eq rfl (by simp only [hlow]; omega) (by simp only [hlow]; omega)
  rw [heq]
  refine ⟨value width m.out * 2 ^ (27 - m.ct) + c,
    ⟨⟨hscale, rfl, hct, Nat.le_trans hend hroom, hstuffed,
      fun hff => Nat.le_trans (Nat.add_le_add_left hend _) (htop hff)⟩,
      hpoint.trans h.1.within, h.1.above⟩, ?_, rfl, rfl, hpoint.trans h.1.within⟩
  rw [Nat.add_assoc]
  exact Nat.dvd_add (Nat.dvd_mul_left_of_dvd (Nat.pow_dvd_pow 2 (by omega)) _) hdvd

/-- Digits that end in enough ones, cut off: the ones that follow do not reach the next
point. -/
theorem below_of_ones (s : Span) {p : Span} {low : Nat} (shift : Nat) (h : Tracks m p)
    (hp : p = ⟨low * 2 ^ shift, 1, s.scale + shift⟩) (hdvd : 2 ^ 15 ∣ low + 1)
    (hshift : 8 ≤ shift) (hct : 7 ≤ m.ct) :
    (⟨low, 1, s.scale⟩ : Span).Below width m.out := by
  have hle := h.ct_le
  have hscale := h.scale
  have hlow := h.low
  rw [hp] at hscale hlow
  -- both ends are multiples of the weight of the last digit
  obtain ⟨n, hn⟩ : 2 ^ (27 - m.ct) ∣ (low + 1) * 2 ^ shift := by
    refine Nat.dvd_trans ?_ (Nat.mul_dvd_mul hdvd (Nat.pow_dvd_pow 2 hshift))
    rw [← Nat.pow_add]
    exact Nat.pow_dvd_pow 2 (by omega)
  have hlt : value width m.out < n := by
    refine Nat.lt_of_mul_lt_mul_left (a := 2 ^ (27 - m.ct)) ?_
    have hpos := Nat.two_pow_pos shift
    rw [← hn, Nat.mul_comm, Nat.succ_mul]
    simp only at hlow
    omega
  have hstep : (value width m.out + 1) * 2 ^ (27 - m.ct) ≤ (low + 1) * 2 ^ shift := by
    rw [hn, Nat.mul_comm]
    exact Nat.mul_le_mul_left _ hlt
  show (value width m.out + 1) * 2 ^ s.scale ≤ (low + 1) * 2 ^ bits width m.out
  refine Nat.le_of_mul_le_mul_right ?_ (Nat.two_pow_pos (27 - m.ct))
  simp only at hscale
  calc (value width m.out + 1) * 2 ^ s.scale * 2 ^ (27 - m.ct)
      = (value width m.out + 1) * 2 ^ (27 - m.ct) * 2 ^ s.scale := by ring
    _ ≤ (low + 1) * 2 ^ shift * 2 ^ s.scale := Nat.mul_le_mul_right _ hstep
    _ = (low + 1) * 2 ^ (bits width m.out + (27 - m.ct)) := by
      rw [Nat.mul_assoc, ← Nat.pow_add]
      congr 2
      omega
    _ = (low + 1) * 2 ^ bits width m.out * 2 ^ (27 - m.ct) := by ring

end Encoder

/-- A finished code for the interval `s`: bytes, last one first, whose digits followed by ones
name a point of `s` to any precision. -/
structure Coded (s : Span) (l : List Nat) : Prop where
  above : s.Above width l
  reached : s.Reached width l
  below : s.Below width l
  stuffed : Stuffed l
  last_ne : l.headD 0 ≠ 0xff

theorem Coded.drop_ones {s : Span} {l : List Nat} (habove : s.Above width (0xff :: l))
    (hreached : s.Reached width (0xff :: l)) (hbelow : s.Below width (0xff :: l))
    (hstuffed : Stuffed (0xff :: l)) : Coded s l := by
  have hlast : l.headD 0 ≠ 0xff := fun hff => by
    have := hstuffed.2.1 hff
    omega
  have hwidth : width (l.headD 0) = 8 := by simp only [width, hlast, if_false]
  have hsum : (value width (0xff :: l) + 1) = (value width l + 1) * 2 ^ 8 := by
    simp only [value, hwidth]
    ring
  simp only [Span.Below, Span.Reached, bits, hwidth, hsum] at hbelow hreached
  refine ⟨fun p hp => habove p (hp.trans (List.suffix_cons _ _)), ?_, ?_, hstuffed.2.2, hlast⟩
  · refine Nat.lt_of_mul_lt_mul_right (a := 2 ^ 8) ?_
    calc s.low * 2 ^ bits width l * 2 ^ 8 = s.low * 2 ^ (bits width l + 8) := by ring
      _ < (value width l + 1) * 2 ^ 8 * 2 ^ s.scale := hreached
      _ = (value width l + 1) * 2 ^ s.scale * 2 ^ 8 := by ring
  · refine Nat.le_of_mul_le_mul_right ?_ (Nat.two_pow_pos 8)
    calc (value width l + 1) * 2 ^ s.scale * 2 ^ 8
        = (value width l + 1) * 2 ^ 8 * 2 ^ s.scale := by ring
      _ ≤ (s.low + s.size) * 2 ^ (bits width l + 8) := hbelow
      _ = (s.low + s.size) * 2 ^ bits width l * 2 ^ 8 := by ring

/-- The flushed bytes are a code for every interval the run has come through. -/
theorem Encoder.Ready.flushEnc {s₀ s : Span} {m : Encoder} (h : Ready s₀ m s) :
    Coded s₀ m.flushEnc.below ∧ m.below.length + 2 ≤ m.flushEnc.below.length := by
  obtain ⟨low, hf, hdvd, hct, hlen, hwithin⟩ := h.setbitsEnc
  have hpos := h.1.ct_pos
  obtain ⟨hf₁, h7, -, -, hlen₁⟩ := hf.flushByte rfl
  obtain ⟨hf₂, h7', -, hreached, hlen₂⟩ := hf₁.flushByte rfl
  have hbelow : s₀.Below width m.setbitsEnc.flushByte.flushByte.out := by
    refine (below_of_ones s (m.setbitsEnc.ct + m.setbitsEnc.flushByte.ct)
      hf₂.toTracks ?_ hdvd (by omega) h7').of_within hwithin
    simp only [Nat.pow_add, Nat.mul_assoc, Nat.add_assoc]
  rw [hlen] at hlen₁
  simp only [Encoder.flushEnc]
  split
  · rename_i hne
    exact ⟨⟨hf₂.above, hreached, hbelow, hf₂.stuffed, hne⟩, by simp only [List.length_cons]; omega⟩
  · rename_i hff
    have hout : m.setbitsEnc.flushByte.flushByte.out
        = 0xff :: m.setbitsEnc.flushByte.flushByte.below := by
      rw [out, not_not.mp hff]
    have habove := hf₂.above
    have hstuffed := hf₂.stuffed
    rw [hout] at hbelow hreached habove hstuffed
    exact ⟨.drop_ones habove hreached hbelow hstuffed, by omega⟩

/-- The interval the encoder starts from: the byte before the buffer is zero. -/
def initSpan : Span := ⟨0, aMin, 23⟩

theorem Encoder.initEnc_ready (ctxs : Contexts) : Ready initSpan (initEnc ctxs) initSpan := by
  have htracks : Tracks (initEnc ctxs) initSpan := by
    constructor <;> simp [initEnc, initSpan, out, bits, value, width, Stuffed, aMin]
  exact ⟨⟨htracks.follows, rfl, by simp [initEnc], by decide, by decide⟩, Nat.le_refl _⟩

/-- No carry reaches the byte before the buffer. -/
theorem Coded.first_zero {l : List Nat} {f : Nat} (h : Coded initSpan l) (hf : [f] <:+ l) :
    f = 0 := by
  have hsuffix := value_suffix (w := width) hf
  have hbelow := h.below
  simp only [Span.Below, initSpan, aMin] at hbelow
  simp only [value, bits, width, List.headD_nil, Nat.zero_add] at hsuffix
  by_contra hne
  have hmul : 2 ^ bits width l ≤ f * 2 ^ bits width l := Nat.le_mul_of_pos_left _ (by omega)
  norm_num at hsuffix hbelow
  omega

end GrokCodec.MqCoder
