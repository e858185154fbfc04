import GrokCodec.MqCoder.Flush

/-!
Several segments of one encoder. A segment ends in `flush_enc` or `erterm_enc`, and the next one starts
on its last byte, which no carry reaches.
-/

namespace GrokCodec.MqCoder

open IntervalCoding List

/-- What is done to the encoder: a symbol, or the end of a segment, with predictable termination or
without, and the start of the next one. -/
inductive Event where
  | symbol (x : Fin 19) (d : Bool)
  | terminate (erterm : Bool)

namespace Encoder

/-- The loop of `erterm_enc`. A byte takes at least seven bits, so there are at most two turns. -/
def ertermLoop : Nat → Int → Encoder → Encoder
  | 0, _, m => m
  | fuel + 1, k, m => if 0 < k then ertermLoop fuel (k - m.flushByte.ct) m.flushByte else m

def ertermEnc (m : Encoder) : Encoder :=
  let m := ertermLoop 12 (12 - m.ct) m
  if m.byte ≠ 0xff then m.byteout else m

def restartInitEnc (m : Encoder) : Encoder :=
  let byte := m.below.headD 0
  { m with a := 0x8000, c := 0, ct := if byte = 0xff then 13 else 12, byte, below := m.below.tail }

def terminate (m : Encoder) (erterm : Bool) : Encoder := if erterm then m.ertermEnc else m.flushEnc

def step (m : Encoder) : Event → Encoder
  | .symbol x d => m.encode x d
  | .terminate erterm => (m.terminate erterm).restartInitEnc

def run (m : Encoder) (events : List Event) : Encoder := events.foldl step m

/-- The interval of a segment that starts behind the bytes `l`. -/
def startSpan (l : List Nat) : Span := ⟨value width l * 2 ^ 15, 2 ^ 15, 15 + bits width l⟩

/-- The bytes `l` are as they were when the segment started. -/
def Kept (l : List Nat) (m : Encoder) : Prop := m.out = l ∧ m.byte ≠ 0xff ∨ l <:+ m.below

variable {l : List Nat} {s₀ s : Span} {m : Encoder}

theorem ready_start (hout : m.out = l) (ha : m.a = 0x8000) (hc : m.c = 0) (hct : m.ct = 12)
    (hstuffed : Stuffed l) : Ready (startSpan l) m (startSpan l) := by
  have htracks : Tracks m (startSpan l) := by
    refine ⟨?_, ?_, hct.le, ?_, hout ▸ hstuffed, fun hff => ?_⟩
    · rw [hct, hout]
      show 15 + bits width l + 12 = 27 + bits width l
      omega
    · rw [hct, hout, hc]
      exact (Nat.add_zero _).symm
    · rw [hct, hc]
      show (0 + 2 ^ 15) * 2 ^ 12 ≤ 0x9000000
      decide
    · rw [← hout] at hstuffed
      have := hstuffed.2.1 hff
      rw [hct, hc]
      show m.byte * 2 ^ 27 + (0 + 2 ^ 15) * 2 ^ 12 ≤ 0x90 * 2 ^ 27
      omega
  exact ⟨⟨htracks.follows, ha, by omega, Nat.two_pow_pos 15, by simp [startSpan]⟩, le_rfl⟩

/-- The first byte of a segment brings no carry into the bytes before it. -/
theorem Follows.kept_byteout (h : Follows (startSpan l) m s) (hct : m.ct = 0) (hpos : 0 < s.size)
    (hkept : Kept l m) : l <:+ m.byteout.below := by
  obtain ⟨hscale, hlow, -, hroom, hstuffed, -⟩ := h.toTracks
  rw [hct] at hscale hlow hroom
  obtain ⟨k, x, r, heq, hc, -⟩ := byteout_spec hstuffed.1 (m := m) (by omega)
  rw [heq]
  rcases hkept with ⟨hout, -⟩ | hsuffix
  · have hlt : m.c < 2 ^ 27 := by
      have hhigh : (s.low + s.size) * 2 ^ (15 + bits width l) ≤
          (value width l * 2 ^ 15 + 2 ^ 15) * 2 ^ s.scale := h.within.high
      have hscale : s.scale = 27 + bits width l := hout ▸ hscale
      have hsame : (value width l * 2 ^ 15 + 2 ^ 15) * 2 ^ (27 + bits width l) =
          (value width l * 2 ^ 27 + 2 ^ 27) * 2 ^ (15 + bits width l) := by
        ring
      rw [hscale, hsame, hlow, hout] at hhigh
      have := Nat.le_of_mul_le_mul_right hhigh (Nat.two_pow_pos _)
      omega
    obtain rfl : k = 0 := by omega
    exact hout ▸ suffix_refl _
  · exact hsuffix.trans (suffix_cons _ _)

theorem Runs.kept_shift (h : Runs (startSpan l) m s) (hsmall : s.size < aMin) (hkept : Kept l m) :
    Kept l m.shift := by
  have hct := h.ct_pos
  rw [h.shift_eq hsmall]
  split
  · rename_i hzero
    exact .inr ((h.toFollows.doubled hct _).kept_byteout hzero (by
      have := h.size_pos
      show 0 < 2 * s.size
      omega) hkept)
  · exact hkept

theorem Runs.kept_renormeLoop {fuel : Nat} (h : Runs (startSpan l) m s) (hsmall : s.size < aMin)
    (hkept : Kept l m) : Kept l (m.renormeLoop fuel) := by
  induction fuel generalizing m s with
  | zero => exact hkept
  | succ fuel ih =>
    obtain ⟨hr, -⟩ := h.shift hsmall
    rw [Encoder.renormeLoop]
    split
    · rename_i hbit
      rw [hr.a_eq] at hbit
      exact ih hr ((and_bit_eq_zero (n := 15) hr.size_lt).mp hbit) (h.kept_shift hsmall hkept)
    · exact h.kept_shift hsmall hkept

theorem Ready.kept_encode (h : Ready (startSpan l) m s) (x : Fin 19) (d : Bool) (hkept : Kept l m) :
    Kept l (m.encode x d) := by
  have hruns := h.narrow x d
  rw [h.encode_eq x d]
  split
  · rename_i hsmall
    exact hruns.kept_renormeLoop (hruns.a_eq ▸ hsmall) hkept
  · exact hkept

theorem Follows.kept_flushByte (h : Follows (startSpan l) m s) (hsize : s.size = 1)
    (hkept : Kept l m) : l <:+ m.flushByte.below := by
  rw [h.flushByte_eq hsize]
  exact (h.aligned hsize).kept_byteout rfl Nat.one_pos hkept

/-- A segment that has ended: no false marker in the bytes so far, which do not end in 0xFF and begin
with what was there before. -/
structure Ended (l : List Nat) (m : Encoder) : Prop where
  stuffed : Stuffed m.below
  last_ne : m.below.headD 0 ≠ 0xff
  kept : l <:+ m.below

theorem Ready.ended_flushEnc (h : Ready (startSpan l) m s) (hkept : Kept l m) :
    Ended l m.flushEnc := by
  obtain ⟨hcoded, -⟩ := h.flushEnc
  refine ⟨hcoded.stuffed, hcoded.last_ne, ?_⟩
  obtain ⟨low, hf, -⟩ := h.setbitsEnc
  have hkept₁ := hf.kept_flushByte rfl hkept
  have hkept₂ := (hf.flushByte rfl).1.kept_flushByte rfl (.inr hkept₁)
  simp only [Encoder.flushEnc]
  split
  · exact hkept₂.trans (suffix_cons _ _)
  · exact hkept₂

theorem Follows.ertermLoop (fuel : Nat) (k : Int) (h : Follows (startSpan l) m s) (hsize : s.size = 1)
    (hct : 1 ≤ m.ct) (hkept : Kept l m) :
    ∃ s', Follows (startSpan l) (m.ertermLoop fuel k) s' ∧ s'.size = 1 ∧
      1 ≤ (m.ertermLoop fuel k).ct ∧ Kept l (m.ertermLoop fuel k) := by
  induction fuel generalizing k m s with
  | zero => exact ⟨s, h, hsize, hct, hkept⟩
  | succ fuel ih =>
    rw [Encoder.ertermLoop]
    split
    · obtain ⟨hf, h7, -⟩ := h.flushByte hsize
      exact ih _ hf rfl (by omega) (.inr (h.kept_flushByte hsize hkept))
    · exact ⟨s, h, hsize, hct, hkept⟩

theorem Ready.ended_ertermEnc (h : Ready (startSpan l) m s) (hkept : Kept l m) :
    Ended l m.ertermEnc := by
  have hpos := h.1.size_pos
  -- the base of the interval is the point that goes out
  have hend : (m.c + 1) * 2 ^ m.ct ≤ (m.c + s.size) * 2 ^ m.ct := Nat.mul_le_mul_right _ (by omega)
  have hpoint : (⟨s.low, 1, s.scale⟩ : Span).Within s :=
    Span.within_of_scale_eq rfl le_rfl (Nat.add_le_add_left hpos _)
  have hf : Follows (startSpan l) m ⟨s.low, 1, s.scale⟩ :=
    { h.1 with
      room := hend.trans h.1.room
      top := fun hff => (Nat.add_le_add_left hend _).trans (h.1.top hff)
      within := hpoint.trans h.1.within }
  obtain ⟨s', hf, hsize, hct, hkept⟩ := hf.ertermLoop 12 (12 - m.ct) rfl h.1.ct_pos hkept
  unfold Encoder.ertermEnc
  generalize m.ertermLoop 12 (12 - m.ct) = m' at *
  have hstuffed := hf.stuffed
  dsimp only
  split
  · rename_i hne
    have hroom := hf.room
    have hpow : 2 ≤ 2 ^ m'.ct := Nat.le_self_pow (by omega) 2
    have := Nat.mul_le_mul_left (m'.c + s'.size) hpow
    obtain ⟨k, x, r, heq, hc, -⟩ := byteout_spec hstuffed.1 (m := m') (by omega)
    obtain rfl : k = 0 := by omega
    rw [heq]
    refine ⟨hstuffed, hne, ?_⟩
    rcases hkept with ⟨hout, -⟩ | hsuffix
    · exact hout ▸ suffix_refl _
    · exact hsuffix.trans (suffix_cons _ _)
  · rename_i hff
    rw [not_not] at hff
    refine ⟨hstuffed.2.2, fun hlast => ?_, ?_⟩
    · have := hstuffed.2.1 hlast
      omega
    · exact hkept.resolve_left fun hout => hout.2 hff

theorem Ready.ended (h : Ready (startSpan l) m s) (hkept : Kept l m) (erterm : Bool) :
    Ended l (m.terminate erterm) := by
  cases erterm
  · exact h.ended_flushEnc hkept
  · exact h.ended_ertermEnc hkept

/-- The state between two events: a segment is under way, and the bytes `t` have not changed. -/
def Going (t : List Nat) (m : Encoder) : Prop :=
  ∃ l s, t <:+ l ∧ l ≠ [] ∧ Ready (startSpan l) m s ∧ Kept l m

variable {t : List Nat}

theorem Ended.restart (h : Ended l m) (hne : l ≠ []) : Going m.below m.restartInitEnc := by
  have hbelow : m.below ≠ [] := fun hnil => hne (suffix_nil.mp (hnil ▸ h.kept))
  have hout : m.restartInitEnc.out = m.below := by
    obtain ⟨b, below, hb⟩ := exists_cons_of_ne_nil hbelow
    simp [out, restartInitEnc, hb]
  exact ⟨m.below, _, suffix_refl _, hbelow,
    ready_start hout rfl rfl (if_neg h.last_ne) h.stuffed, .inl ⟨hout, h.last_ne⟩⟩

theorem Going.ended (h : Going t m) (erterm : Bool) : Ended t (m.terminate erterm) := by
  obtain ⟨l, s, hsuffix, -, hready, hkept⟩ := h
  have hended := hready.ended hkept erterm
  exact { hended with kept := hsuffix.trans hended.kept }

theorem Going.step (h : Going t m) (event : Event) : Going t (m.step event) := by
  obtain ⟨l, s, hsuffix, hne, hready, hkept⟩ := h
  cases event with
  | symbol x d => exact ⟨l, _, hsuffix, hne, hready.encode x d, hready.kept_encode x d hkept⟩
  | terminate erterm =>
    have hended := hready.ended hkept erterm
    obtain ⟨l', s', hsuffix', hrest⟩ := hended.restart hne
    exact ⟨l', s', (hsuffix.trans hended.kept).trans hsuffix', hrest⟩

theorem Going.run (h : Going t m) (events : List Event) : Going t (m.run events) := by
  induction events generalizing m with
  | nil => exact h
  | cons event events ih => exact ih (h.step event)

theorem going_initEnc (ctxs : Contexts) : Going [] (initEnc ctxs) :=
  ⟨[0], _, nil_suffix, by simp, ready_start rfl rfl rfl rfl (by simp [Stuffed]),
    .inl ⟨rfl, by simp [initEnc]⟩⟩

/-- **No false markers.** After any events the registers are in range, and when the segment ends no
byte after 0xFF exceeds 0x8F, the last byte is not 0xFF, and all earlier segments are as they ended. -/
theorem no_false_markers (ctxs : Contexts) (events : List Event) :
    let m := (initEnc ctxs).run events
    (0x8000 ≤ m.a ∧ m.a < 0x10000) ∧ (m.c + m.a) * 2 ^ m.ct < 2 ^ 32 ∧
    ∀ erterm, Stuffed (m.terminate erterm).below ∧ (m.terminate erterm).below.headD 0 ≠ 0xff ∧
      ∀ before e after, events = before ++ .terminate e :: after →
        (((initEnc ctxs).run before).terminate e).below <:+ (m.terminate erterm).below := by
  obtain ⟨l, s, -, -, hready, hkept⟩ := (going_initEnc ctxs).run events
  refine ⟨?_, ?_, fun erterm => ?_⟩
  · rw [hready.1.a_eq]
    exact ⟨hready.2, hready.1.size_lt⟩
  · have := hready.1.room
    rw [hready.1.a_eq]
    omega
  · have hended := hready.ended hkept erterm
    refine ⟨hended.stuffed, hended.last_ne, ?_⟩
    rintro before e after rfl
    obtain ⟨l, s, -, hne, hready, hkept⟩ := (going_initEnc ctxs).run before
    have hrestart := ((hready.ended hkept e).restart hne).run after
    have hrun : (initEnc ctxs).run (before ++ .terminate e :: after) =
        (((initEnc ctxs).run before).terminate e).restartInitEnc.run after := by
      simp [run, step]
    rw [hrun]
    exact (hrestart.ended erterm).kept

end Encoder

end GrokCodec.MqCoder
