import GrokCodec.T1.Codeblock
import GrokCodec.T2.CompressHeader

/-!
What a writer of bits and a reader of bits agree on. The bytes that a writer leaves are stuffed
bits, a reader gets these bits one by one, and the final header byte takes it to the end.
-/

namespace GrokCodec.T2

open BitCode Relational T1 List Nat

namespace BitWriter

/-- The bits `written` stand at the top of the byte to come, which has room for `cap` bits. -/
structure Filled (w : BitWriter) (cap : Nat) (written : List Bool) : Prop where
  unbounded : w.bufLen = none
  room : w.ct + written.length = cap
  buf : w.buf = value written * 2 ^ w.ct

variable {w : BitWriter}

theorem write8u_unbounded (h : w.bufLen = none) :
    w.write8u = some { w with bytes := w.bytes ++ [w.buf], ct := BitCode.room w.buf, buf := 0 } := by
  rw [write8u, h, if_neg (by simp)]
  rfl

theorem or_bit (a ct : Nat) (b : Bool) :
    a * 2 ^ (ct + 1) ||| b.toNat <<< ct = (a * 2 + b.toNat) * 2 ^ ct := by
  have hlt : b.toNat * 2 ^ ct < 2 ^ (ct + 1) := by
    have hb : b.toNat * 2 ^ ct ≤ 1 * 2 ^ ct := mul_le_mul_right _ (Bool.toNat_le b)
    have hpos := Nat.two_pow_pos ct
    rw [Nat.pow_succ]
    omega
  rw [shiftLeft_eq, Nat.mul_comm a, ← two_pow_add_eq_or_of_lt hlt, Nat.pow_succ]
  ring

variable {cap : Nat} {written : List Bool} (h : w.Filled cap written)

include h

theorem Filled.putbit (hct : 0 < w.ct) (b : Bool) :
    ∃ w', w.putbit b = some w' ∧ w'.Filled cap (written ++ [b]) ∧ w'.bytes = w.bytes := by
  refine ⟨{ w with ct := w.ct - 1, buf := w.buf ||| (b.toNat <<< (w.ct - 1)) }, ?_, ?_, rfl⟩
  · rw [BitWriter.putbit, makeRoom, if_neg (by omega)]
    rfl
  · obtain ⟨ct, hct⟩ : ∃ ct, w.ct = ct + 1 := ⟨w.ct - 1, by omega⟩
    refine ⟨h.unbounded, ?_, ?_⟩
    · have hroom := h.room
      simp only [length_append, length_singleton]
      omega
    · show w.buf ||| b.toNat <<< (w.ct - 1) = _ * 2 ^ (w.ct - 1)
      rw [h.buf, hct, Nat.add_sub_cancel, or_bit, value_append]
      simp [value]

theorem Filled.putbit_full (hct : w.ct = 0) (b : Bool) :
    ∃ w', w.putbit b = some w' ∧ w'.Filled (BitCode.room (value written)) [b] ∧
      w'.bytes = w.bytes ++ [value written] := by
  have hbuf : w.buf = value written := by
    rw [h.buf, hct, Nat.pow_zero, Nat.mul_one]
  let next : BitWriter :=
    { w with bytes := w.bytes ++ [w.buf], ct := BitCode.room w.buf, buf := 0 }
  have hnext : next.Filled (BitCode.room w.buf) [] := by
    refine ⟨h.unbounded, rfl, ?_⟩
    simp [next, value]
  have hroom : 0 < next.ct := by
    show 0 < BitCode.room w.buf
    unfold BitCode.room
    split <;> omega
  obtain ⟨w', hput, hfilled, hbytes⟩ := hnext.putbit hroom b
  refine ⟨w', ?_, hbuf ▸ hfilled, hbytes.trans (by rw [← hbuf])⟩
  rw [← hput, BitWriter.putbit, makeRoom, if_pos hct, write8u_unbounded h.unbounded,
    BitWriter.putbit, makeRoom, if_neg (by omega)]

theorem Filled.flush :
    ∃ w' bytes, w.flush = some w' ∧ Stuffed cap written bytes ∧ w'.bytes = w.bytes ++ bytes := by
  have hlen : written.length ≤ cap := by
    have hroom := h.room
    omega
  have hct : cap - written.length = w.ct := by
    have hroom := h.room
    omega
  have hflush : w.flush = (do
      let w ← some { w with bytes := w.bytes ++ [w.buf], ct := BitCode.room w.buf, buf := 0 }
      if w.ct = 7 then w.write8u else some w : Option BitWriter) := by
    rw [BitWriter.flush, write8u_unbounded h.unbounded]
  by_cases hff : w.buf = 0xff
  · refine ⟨{ w with bytes := w.bytes ++ [w.buf] ++ [0], ct := 8, buf := 0 }, [0xff, 0], ?_, ?_, ?_⟩
    · rw [hflush]
      simp [hff, BitCode.room, write8u, h.unbounded]
    · exact .lastFF hlen (by rw [hct, ← h.buf, hff])
    · simp [hff]
  · refine ⟨{ w with bytes := w.bytes ++ [w.buf], ct := 8, buf := 0 }, [w.buf], ?_, ?_, rfl⟩
    · rw [hflush]
      simp [hff, BitCode.room]
    · rw [h.buf, ← hct]
      exact .last hlen (by rwa [hct, ← h.buf])

/-- **Bits that are put and flushed leave stuffed bytes.** -/
theorem Filled.putbits_flush (bits : List Bool) :
    ∃ w' bytes, (w.putbits bits).bind BitWriter.flush = some w' ∧ Stuffed cap (written ++ bits) bytes ∧
      w'.bytes = w.bytes ++ bytes := by
  induction bits generalizing w cap written with
  | nil => simpa [putbits] using h.flush
  | cons b bits ih =>
    rcases Nat.eq_zero_or_pos w.ct with hct | hct
    · obtain ⟨w', hput, hfilled, hbytes⟩ := h.putbit_full hct b
      obtain ⟨w'', bytes, hrun, hstuffed, hall⟩ := ih hfilled
      refine ⟨w'', value written :: bytes, ?_, ?_, ?_⟩
      · rw [putbits, foldlM_cons, hput]
        exact hrun
      · refine .next ?_ (by simp) hstuffed
        have hroom := h.room
        omega
      · rw [hall, hbytes, append_assoc, singleton_append]
    · obtain ⟨w', hput, hfilled, hbytes⟩ := h.putbit hct b
      obtain ⟨w'', bytes, hrun, hstuffed, hall⟩ := ih hfilled
      refine ⟨w'', bytes, ?_, ?_, ?_⟩
      · rw [putbits, foldlM_cons, hput]
        exact hrun
      · rwa [append_assoc, singleton_append] at hstuffed
      · rw [hall, hbytes]

end BitWriter

namespace BitReader

variable {b : BitIO} {stop : Nat}

/-- The unread bits of the current byte: `bits` and then zeros. -/
def Holds (b : BitIO) (bits : List Bool) : Prop :=
  bits.length ≤ b.ct ∧ b.buf % 2 ^ b.ct = value bits * 2 ^ (b.ct - bits.length)

/-- The reader takes no byte for a marker. -/
def NoMarker (b : BitIO) : Prop := b.read0xFF = true → b.buf < 0x90

/-- After the current byte the header ends at offset `stop`. -/
def EndsAt (b : BitIO) (stop : Nat) : Prop :=
  if b.buf = 0xff then b.start[b.offset]? = some 0 ∧ stop = b.offset + 1 else stop = b.offset

/-- The reader is about to get `bits`, the last of a header that ends at offset `stop`. -/
inductive Expects (b : BitIO) (stop : Nat) : List Bool → Prop
  | last {bits : List Bool} (holds : Holds b bits) (hstop : EndsAt b stop) : Expects b stop bits
  | more {first rest : List Bool} {bytes tail : List Nat} (holds : Holds b first)
      (hfull : first.length = b.ct) (hrest : rest ≠ []) (h : Stuffed (room b.buf) rest bytes)
      (hstart : b.start.drop b.offset = bytes ++ tail) (hstop : stop = b.offset + bytes.length) :
      Expects b stop (first ++ rest)

variable {bits : List Bool}

theorem expects_fresh {bytes : List Nat} (h : Stuffed 8 bits bytes)
    (hbits : bits ≠ []) (tail : List Nat) :
    Expects { start := bytes ++ tail } bytes.length bits := by
  have hnone : Holds { start := bytes ++ tail } [] := ⟨Nat.le_refl 0, rfl⟩
  exact .more hnone rfl hbits h rfl (Nat.zero_add _).symm

theorem holds_byte (hlen : bits.length ≤ b.ct)
    (hbuf : b.buf = value bits * 2 ^ (b.ct - bits.length)) : Holds b bits := by
  refine ⟨hlen, ?_⟩
  rw [← hbuf, mod_eq_of_lt]
  rw [hbuf]
  exact value_shift_lt hlen

theorem bytein_stuffed (hmark : NoMarker b) {rest : List Bool} {bytes tail : List Nat}
    (h : Stuffed (room b.buf) rest bytes) (hstart : b.start.drop b.offset = bytes ++ tail) :
    ∃ b', b.bytein = .ok b' ∧ NoMarker b' ∧ b'.ct = room b.buf ∧
      Expects b' (b.offset + bytes.length) rest := by
  -- what `bytein` does to a byte that is the head of `bytes`
  have hread {byte : Nat} {more : List Nat} (hbytes : b.start.drop b.offset = byte :: more) :
      b.bytein = .ok { b with
        read0xFF := decide (b.buf = 0xff), ct := room b.buf, buf := byte
        offset := b.offset + 1 } := by
    have hget : b.start[b.offset]? = some byte := by
      have hhead := congrArg List.head? hbytes
      rwa [List.head?_drop] at hhead
    have hok : ¬(b.read0xFF = true ∧ b.buf ≥ 0x90) := fun ⟨hff, hge⟩ =>
      Nat.not_le_of_lt (hmark hff) hge
    unfold BitIO.bytein
    rw [hget]
    simp [if_neg hok, room]
  have hnext {byte : Nat} {more : List Nat} (hbytes : b.start.drop b.offset = byte :: more) :
      b.start.drop (b.offset + 1) = more := by
    rw [← drop_drop, hbytes, drop_succ_cons, drop_zero]
  have hsmall {byte : Nat} (hbyte : byte < 2 ^ room b.buf) (hff : decide (b.buf = 0xff) = true) :
      byte < 0x90 := by
    rw [room, if_pos (of_decide_eq_true hff)] at hbyte
    omega
  generalize hk : room b.buf = k at h
  cases h with
  | last hlen hbyte =>
    subst hk
    refine ⟨_, hread hstart, hsmall (value_shift_lt hlen), rfl, .last (holds_byte hlen rfl) ?_⟩
    rw [EndsAt, if_neg hbyte]
    rfl
  | lastFF hlen hbyte =>
    subst hk
    have hlt := value_shift_lt hlen
    rw [hbyte] at hlt
    refine ⟨_, hread hstart, hsmall hlt, rfl, .last (holds_byte hlen hbyte.symm) ?_⟩
    rw [EndsAt, if_pos rfl]
    refine ⟨?_, rfl⟩
    have hhead := congrArg List.head? (hnext hstart)
    rwa [List.head?_drop] at hhead
  | @next _ first rest bytes hlen hrest h =>
    subst hk
    have hlt := value_lt first
    rw [hlen] at hlt
    refine ⟨_, hread hstart, hsmall hlt, rfl, .more (holds_byte (Nat.le_of_eq hlen) ?_) hlen hrest h
      (hnext hstart) ?_⟩
    · show value first = value first * 2 ^ (room b.buf - first.length)
      rw [hlen, Nat.sub_self, Nat.pow_zero, Nat.mul_one]
    · show b.offset + (bytes.length + 1) = b.offset + 1 + bytes.length
      omega

variable {bit : Bool}

theorem holds_cons (h : Holds b (bit :: bits)) :
    b.buf >>> (b.ct - 1) % 2 = bit.toNat ∧ Holds { b with ct := b.ct - 1 } bits := by
  obtain ⟨hlen, hbuf⟩ := h
  rw [length_cons] at hlen
  obtain ⟨ct, hct⟩ : ∃ ct, b.ct = ct + 1 := ⟨b.ct - 1, by omega⟩
  have hbits : bits.length ≤ ct := by omega
  have hpow : 2 ^ bits.length * 2 ^ (ct - bits.length) = 2 ^ ct := by
    rw [← Nat.pow_add, Nat.add_sub_cancel' hbits]
  have hsplit : b.buf % 2 ^ (ct + 1) =
      bit.toNat * 2 ^ ct + value bits * 2 ^ (ct - bits.length) := by
    rw [hct] at hbuf
    rw [hbuf, length_cons, Nat.add_sub_add_right, value, Nat.add_mul, Nat.mul_assoc, hpow]
  have hlow := value_shift_lt hbits
  have hmod : b.buf % 2 ^ ct = value bits * 2 ^ (ct - bits.length) := by
    rw [← mod_mod_of_dvd b.buf (Nat.pow_dvd_pow 2 (le_succ ct)), hsplit,
      mul_add_mod_self_right, mod_eq_of_lt hlow]
  have htop : b.buf / 2 ^ ct % 2 = bit.toNat := by
    rw [Nat.pow_succ] at hsplit
    rw [← mod_mul_right_div_self, hsplit, Nat.add_comm,
      add_mul_div_right _ _ (Nat.two_pow_pos ct), div_eq_of_lt hlow, Nat.zero_add]
  refine ⟨?_, ?_, ?_⟩
  · rw [hct, Nat.add_sub_cancel, shiftRight_eq_div_pow]
    exact htop
  · show bits.length ≤ b.ct - 1
    omega
  · show b.buf % 2 ^ (b.ct - 1) = _ * 2 ^ (b.ct - 1 - bits.length)
    rw [hct, Nat.add_sub_cancel]
    exact hmod

theorem expects_bit (hct : 0 < b.ct)
    (h : Expects b stop (bit :: bits)) :
    b.buf >>> (b.ct - 1) % 2 = bit.toNat ∧ Expects { b with ct := b.ct - 1 } stop bits := by
  generalize hall : bit :: bits = all at h
  cases h with
  | last holds hstop =>
    subst hall
    obtain ⟨hbit, holds⟩ := holds_cons holds
    exact ⟨hbit, .last holds hstop⟩
  | @more first rest bytes tail holds hfull hrest h hstart hstop =>
    cases first with
    | nil => exact absurd hfull (by simp; omega)
    | cons first' first =>
      obtain ⟨rfl, rfl⟩ := List.cons.inj hall
      obtain ⟨hbit, holds⟩ := holds_cons holds
      rw [length_cons] at hfull
      exact ⟨hbit, .more holds (show first.length = b.ct - 1 by omega) hrest h hstart hstop⟩

/-- **A reader gets the bits one by one.** -/
theorem getbit_expects (hmark : NoMarker b)
    (h : Expects b stop (bit :: bits)) :
    ∃ b', b.getbit = .ok (bit.toNat, b') ∧ NoMarker b' ∧ Expects b' stop bits := by
  by_cases hct : b.ct = 0
  · -- all the bits are in the bytes to come
    have hnext : ∃ b', b.bytein = .ok b' ∧ NoMarker b' ∧ b'.ct = room b.buf ∧
        Expects b' stop (bit :: bits) := by
      generalize hall : bit :: bits = all at h
      cases h with
      | last holds hstop =>
        have hlen := holds.1
        rw [← hall, hct] at hlen
        simp at hlen
      | more holds hfull hrest h hstart hstop =>
        obtain rfl := length_eq_zero_iff.mp (hfull.trans hct)
        subst hstop
        exact bytein_stuffed hmark h hstart
    obtain ⟨b', hread, hmark', hct', h'⟩ := hnext
    have hroom : 0 < b'.ct := by
      rw [hct', room]
      split <;> omega
    obtain ⟨hbit, h''⟩ := expects_bit hroom h'
    refine ⟨{ b' with ct := b'.ct - 1 }, ?_, hmark', h''⟩
    unfold BitIO.getbit
    rw [if_pos hct, hread]
    simp only [bind, Except.bind, pure, Except.pure, hbit]
  · obtain ⟨hbit, h'⟩ := expects_bit (Nat.pos_of_ne_zero hct) h
    refine ⟨{ b with ct := b.ct - 1 }, ?_, hmark, h'⟩
    unfold BitIO.getbit
    rw [if_neg hct]
    simp only [bind, Except.bind, pure, Except.pure, hbit]

def readFinalHeaderByte (b : BitIO) : Except HeaderError BitIO := do
  let b ← if b.buf = 0xff then b.bytein else pure b
  return { b with ct := 0 }

/-- **The final header byte takes the reader to the end of the header.** -/
theorem readFinalHeaderByte_expects (hmark : NoMarker b) (h : Expects b stop []) :
    ∃ b', readFinalHeaderByte b = .ok b' ∧ b'.offset = stop := by
  generalize hall : ([] : List Bool) = all at h
  cases h with
  | more holds hfull hrest h hstart hstop =>
    exact absurd (append_eq_nil_iff.mp hall.symm).2 hrest
  | last holds hstop =>
    rw [EndsAt] at hstop
    by_cases hff : b.buf = 0xff
    · rw [if_pos hff] at hstop
      have hok : ¬(b.read0xFF = true ∧ b.buf ≥ 0x90) := fun ⟨hread, hge⟩ =>
        Nat.not_le_of_lt (hmark hread) hge
      rw [readFinalHeaderByte, if_pos hff, BitIO.bytein, hstop.1]
      simp only [if_neg hok]
      exact ⟨_, rfl, hstop.2.symm⟩
    · rw [if_neg hff] at hstop
      rw [readFinalHeaderByte, if_neg hff]
      exact ⟨_, rfl, hstop.symm⟩

theorem length_le_bitsLeft (h : Expects b stop bits) :
    bits.length ≤ b.bitsLeft := by
  unfold BitIO.bitsLeft
  cases h with
  | last holds hstop =>
    have hlen := holds.1
    omega
  | @more first rest bytes tail holds hfull hrest h hstart hstop =>
    have hlen := h.length_le (room_le _)
    have hdrop := congrArg List.length hstart
    rw [length_drop, length_append] at hdrop
    rw [length_append]
    omega

end BitReader

/-- A header reader that is about to get `bits`, the last of a header that ends at `stop`. -/
def Awaits (stop : Nat) (bits : List Bool) (s : Reader) : Prop :=
  BitReader.NoMarker s.bio ∧ BitReader.Expects s.bio stop bits

section Reading

variable {stop : Nat} {more : List Bool}

theorem returns_readBit (bit : Bool) :
    Returns (Awaits stop (bit :: more)) readBit bit.toNat (Awaits stop more) := by
  intro s hs
  obtain ⟨bio, hget, hmark, hexp⟩ := BitReader.getbit_expects hs.1 hs.2
  refine ⟨{ s with bio }, ?_, hmark, hexp⟩
  rw [readBit, runFrom_bind, runFrom_gets, hget]
  rfl

theorem returns_readBits (bits : List Bool) :
    Returns (Awaits stop (bits ++ more)) (readBits bits.length) (value bits) (Awaits stop more) := by
  induction bits with
  | nil => exact .pure 0
  | cons bit bits ih =>
    have hor : bit.toNat <<< bits.length ||| value bits = value (bit :: bits) := by
      rw [shiftLeft_eq, Nat.mul_comm, ← two_pow_add_eq_or_of_lt (value_lt bits), value,
        Nat.mul_comm]
    rw [← hor]
    exact (returns_readBit bit).bind (ih.bind (.pure _))

theorem returns_readBits_bitsOf {n v : Nat} (h : v < 2 ^ n) :
    Returns (Awaits stop (bitsOf n v ++ more)) (readBits n) v (Awaits stop more) := by
  have hread : Returns (Awaits stop (bitsOf n v ++ more)) _ _ (Awaits stop more) :=
    returns_readBits (bitsOf n v)
  rwa [length_bitsOf, value_bitsOf h] at hread

theorem returns_commaRounds (k : Nat) {fuel : Nat} (hfuel : k < fuel) (n : UInt8) :
    Returns (Awaits stop (putcommacode k ++ more)) (commaRounds fuel n) (n + .ofNat k)
      (Awaits stop more) := by
  induction k generalizing fuel n with
  | zero =>
    obtain ⟨fuel, rfl⟩ : ∃ f, fuel = f + 1 := ⟨fuel - 1, by omega⟩
    have hzero : n + UInt8.ofNat 0 = n := UInt8.add_zero n
    rw [hzero]
    exact (returns_readBit false).bind (.pure n)
  | succ k ih =>
    obtain ⟨fuel, rfl⟩ : ∃ f, fuel = f + 1 := ⟨fuel - 1, by omega⟩
    have hone : n + UInt8.ofNat (k + 1) = n + 1 + UInt8.ofNat k := by
      rw [UInt8.ofNat_add, UInt8.add_assoc, UInt8.add_comm (UInt8.ofNat k)]
      rfl
    rw [hone]
    exact (returns_readBit true).bind (ih (by omega) (n + 1))

theorem returns_getcommacode (k : Nat) :
    Returns (Awaits stop (putcommacode k ++ more)) getcommacode (.ofNat k) (Awaits stop more) := by
  apply Returns.gets_bind
  intro fuel s hs
  obtain ⟨hs, hfuel⟩ := hs
  have hlen := BitReader.length_le_bitsLeft hs.2
  have hk : k < fuel := by
    rw [putcommacode, length_append, length_append, length_replicate] at hlen
    omega
  have hrounds : Returns (Awaits stop (putcommacode k ++ more)) _ _ (Awaits stop more) :=
    returns_commaRounds k hk 0
  rw [UInt8.zero_add] at hrounds
  exact hrounds s hs

variable {m : Nat}

/-- The three longer codes for numbers of passes: ones, and then a field that is not all ones. -/
theorem putnumpasses_four (h : m < 3) :
    putnumpasses (m + 3) = true :: true :: bitsOf 2 m := by
  obtain rfl | rfl | rfl : m = 0 ∨ m = 1 ∨ m = 2 := by omega
  all_goals decide

theorem putnumpasses_nine (h : m < 31) :
    putnumpasses (m + 6) = true :: true :: (bitsOf 2 3 ++ bitsOf 5 m) := by
  have hall : ∀ m < 31, putnumpasses (m + 6) = true :: true :: (bitsOf 2 3 ++ bitsOf 5 m) := by
    decide
  exact hall m h

theorem putnumpasses_sixteen (h : m < 128) :
    putnumpasses (m + 37) = true :: true :: (bitsOf 2 3 ++ (bitsOf 5 31 ++ bitsOf 7 m)) := by
  have hall : ∀ m < 128,
      putnumpasses (m + 37) = true :: true :: (bitsOf 2 3 ++ (bitsOf 5 31 ++ bitsOf 7 m)) := by
    decide
  exact hall m h

theorem returns_getnumpasses {n : Nat} (hpos : 1 ≤ n) (hle : n ≤ 164) :
    Returns (Awaits stop (putnumpasses n ++ more)) getnumpasses (.ofNat n) (Awaits stop more) := by
  obtain rfl | rfl | ⟨m, hm, rfl⟩ | ⟨m, hm, rfl⟩ | ⟨m, hm, rfl⟩ : n = 1 ∨ n = 2 ∨
      (∃ m < 3, n = m + 3) ∨ (∃ m < 31, n = m + 6) ∨ ∃ m < 128, n = m + 37 := by
    rcases Nat.lt_or_ge n 6 with h6 | h6
    · rcases Nat.lt_or_ge n 3 with h3 | h3
      · omega
      · exact .inr (.inr (.inl ⟨n - 3, by omega, by omega⟩))
    · rcases Nat.lt_or_ge n 37 with h37 | h37
      · exact .inr (.inr (.inr (.inl ⟨n - 6, by omega, by omega⟩)))
      · exact .inr (.inr (.inr (.inr ⟨n - 37, by omega, by omega⟩)))
  · exact (returns_readBit false).bind (.pure _)
  · exact (returns_readBit true).bind ((returns_readBit false).bind (.pure _))
  · rw [putnumpasses_four hm]
    refine (returns_readBit true).bind ((returns_readBit true).bind
      ((returns_readBits_bitsOf (by omega)).bind ?_))
    rw [if_pos (by omega)]
    exact .pure _
  · rw [putnumpasses_nine hm]
    simp only [cons_append, append_assoc]
    refine (returns_readBit true).bind ((returns_readBit true).bind
      ((returns_readBits_bitsOf (by decide)).bind
        ((returns_readBits_bitsOf (by omega)).bind ?_)))
    rw [if_pos (by omega)]
    exact .pure _
  · rw [putnumpasses_sixteen hm]
    simp only [cons_append, append_assoc]
    exact (returns_readBit true).bind ((returns_readBit true).bind
      ((returns_readBits_bitsOf (by decide)).bind
        ((returns_readBits_bitsOf (by decide)).bind
          ((returns_readBits_bitsOf (by omega)).bind (.pure _)))))

end Reading

/-- What is written into a header. -/
inductive HeaderField where
  | bits (n v : Nat)
  | commacode (n : Nat)
  | numpasses (n : Nat)
  deriving DecidableEq

namespace HeaderField

def Valid : HeaderField → Prop
  | .bits n v => 0 < n ∧ n ≤ 32 ∧ v < 2 ^ n
  | .commacode n => n < 256
  | .numpasses n => 1 ≤ n ∧ n ≤ 164

def value : HeaderField → Nat
  | .bits _ v => v
  | .commacode n => n
  | .numpasses n => n

/-- The bits that `write`, `putcommacode` and `putnumpasses` put. -/
def toBits : HeaderField → List Bool
  | .bits n v => bitsOf n v
  | .commacode n => putcommacode n
  | .numpasses n => putnumpasses n

def write (w : BitWriter) (field : HeaderField) : Option BitWriter := w.putbits field.toBits

def read : HeaderField → HeaderM Nat
  | .bits n _ => readBits n
  | .commacode _ => do return (← getcommacode).toNat
  | .numpasses _ => do return (← getnumpasses).toNat

theorem toBits_ne_nil {field : HeaderField} (h : field.Valid) : field.toBits ≠ [] := by
  cases field with
  | bits n v =>
    apply ne_nil_of_length_pos
    rw [toBits, length_bitsOf]
    exact h.1
  | commacode n => simp [toBits, putcommacode]
  | numpasses n =>
    have hle : n ≤ 164 := h.2
    show putnumpasses n ≠ []
    unfold putnumpasses
    split_ifs <;> simp [bitsOf]

theorem returns_read {field : HeaderField} (h : field.Valid) (stop : Nat) (more : List Bool) :
    Returns (Awaits stop (field.toBits ++ more)) field.read field.value (Awaits stop more) := by
  have hnat {n : Nat} (h : n < 256) : (UInt8.ofNat n).toNat = n := mod_eq_of_lt h
  cases field with
  | bits n v => exact returns_readBits_bitsOf h.2.2
  | commacode n =>
    have hread : Returns (Awaits stop (putcommacode n ++ more)) (HeaderField.read (.commacode n))
        (UInt8.ofNat n).toNat (Awaits stop more) := (returns_getcommacode n).bind (.pure _)
    rwa [hnat h] at hread
  | numpasses n =>
    have hread : Returns (Awaits stop (putnumpasses n ++ more)) (HeaderField.read (.numpasses n))
        (UInt8.ofNat n).toNat (Awaits stop more) := (returns_getnumpasses h.1 h.2).bind (.pure _)
    rwa [hnat (Nat.lt_of_le_of_lt h.2 (by omega))] at hread

end HeaderField

def writeFields (fields : List HeaderField) : Option BitWriter := do
  let w ← fields.foldlM HeaderField.write {}
  w.flush

def readFields : List HeaderField → HeaderM (List Nat)
  | [] => return []
  | field :: fields => do
    let value ← field.read
    let values ← readFields fields
    return value :: values

theorem foldlM_write (fields : List HeaderField) (w : BitWriter) :
    fields.foldlM HeaderField.write w = w.putbits (fields.flatMap HeaderField.toBits) := by
  induction fields generalizing w with
  | nil => rfl
  | cons field fields ih =>
    rw [foldlM_cons, flatMap_cons, BitWriter.putbits, foldlM_append]
    exact congrArg (Option.bind (w.putbits field.toBits)) (funext ih)

theorem writeFields_stuffed (fields : List HeaderField) :
    ∃ w, writeFields fields = some w ∧
      Stuffed 8 (fields.flatMap HeaderField.toBits) w.bytes := by
  have hfresh : BitWriter.Filled {} 8 [] := ⟨rfl, rfl, rfl⟩
  obtain ⟨w, bytes, hrun, hstuffed, hbytes⟩ :=
    hfresh.putbits_flush (fields.flatMap HeaderField.toBits)
  refine ⟨w, ?_, ?_⟩
  · rw [writeFields, foldlM_write]
    exact hrun
  · rw [hbytes]
    exact hstuffed

theorem returns_readFields {fields : List HeaderField} (h : ∀ field ∈ fields, field.Valid)
    (stop : Nat) :
    Returns (Awaits stop (fields.flatMap HeaderField.toBits)) (readFields fields)
      (fields.map HeaderField.value) (Awaits stop []) := by
  induction fields with
  | nil => exact .pure []
  | cons field fields ih =>
    have hrest := ih fun field hfield => h field (mem_cons_of_mem _ hfield)
    rw [flatMap_cons]
    exact (HeaderField.returns_read (h field mem_cons_self) stop _).bind (hrest.bind (.pure _))

/-- A reader of packet headers at the first byte. -/
def Reader.atStart (cblk : Codeblock) (bytes : List Nat) : Reader :=
  { cblk, bio := { start := bytes } }

/-- **What is written into a header is read back.** No byte with its top bit set follows `0xff`,
and the last byte is not `0xff`. The reader ends behind the bytes of the header, except for a
header without fields, whose one byte it does not read. -/
theorem headerBits_roundTrip (fields : List HeaderField) (hfields : ∀ field ∈ fields, field.Valid)
    (cblk : Codeblock) (tail : List Nat) :
    ∃ w, writeFields fields = some w ∧
      w.bytes.IsChain (fun a b => a = 0xff → b < 0x80) ∧ w.bytes.getLast? ≠ some 0xff ∧
      ∃ s bio, runFrom (readFields fields) (Reader.atStart cblk (w.bytes ++ tail)) =
          (.ok (fields.map HeaderField.value), s) ∧
        BitReader.readFinalHeaderByte s.bio = .ok bio ∧
        bio.offset = if fields = [] then 0 else w.bytes.length := by
  obtain ⟨w, hwrite, hstuffed⟩ := writeFields_stuffed fields
  have hchain : List.IsChain _ (0 :: w.bytes) := Stuffed.isChain hstuffed
  refine ⟨w, hwrite, hchain.of_cons, hstuffed.getLast_ne, ?_⟩
  cases fields with
  | nil => exact ⟨Reader.atStart cblk (w.bytes ++ tail), _, rfl, rfl, rfl⟩
  | cons field fields =>
    have hne : (field :: fields).flatMap HeaderField.toBits ≠ [] := by
      rw [flatMap_cons]
      exact append_ne_nil_of_left_ne_nil
        (HeaderField.toBits_ne_nil (hfields field mem_cons_self)) _
    have hstart : Awaits w.bytes.length ((field :: fields).flatMap HeaderField.toBits)
        (Reader.atStart cblk (w.bytes ++ tail)) :=
      ⟨(fun h => nomatch h), BitReader.expects_fresh hstuffed hne tail⟩
    obtain ⟨s, hrun, hmark, hexp⟩ := returns_readFields hfields w.bytes.length _ hstart
    obtain ⟨bio, hfinal, hoffset⟩ := BitReader.readFinalHeaderByte_expects hmark hexp
    exact ⟨s, bio, hrun, hfinal, hoffset⟩

/-- One bit, thirteen ones and nine passes. -/
theorem headerBits_roundTrip_three :
    ∃ w, writeFields [.bits 1 1, .commacode 13, .numpasses 9] = some w ∧
      w.bytes = [0xff, 0x7e, 0xf1, 0x80] ∧
      ∃ s bio, runFrom (readFields [.bits 1 1, .commacode 13, .numpasses 9])
          (Reader.atStart {} (w.bytes ++ [0xff])) = (.ok [1, 13, 9], s) ∧
        BitReader.readFinalHeaderByte s.bio = .ok bio ∧ bio.offset = 4 := by
  have hvalid : ∀ field ∈ [HeaderField.bits 1 1, .commacode 13, .numpasses 9], field.Valid := by
    intro field hfield
    simp only [mem_cons, not_mem_nil, or_false] at hfield
    obtain rfl | rfl | rfl := hfield
    · exact ⟨by decide, by decide, by decide⟩
    · show 13 < 256
      decide
    · exact ⟨by decide, by decide⟩
  obtain ⟨w, hwrite, -, -, s, bio, hrun, hfinal, hoffset⟩ :=
    headerBits_roundTrip _ hvalid {} [0xff]
  have hbytes : w.bytes = [0xff, 0x7e, 0xf1, 0x80] := by
    have hrun' : (writeFields [.bits 1 1, .commacode 13, .numpasses 9]).map BitWriter.bytes =
        some [0xff, 0x7e, 0xf1, 0x80] := by decide
    rw [hwrite] at hrun'
    exact Option.some.inj hrun'
  rw [hbytes] at hoffset
  exact ⟨w, hwrite, hbytes, s, bio, hrun, hfinal, hoffset⟩

/-- The writer leaves a byte for a header without fields, and the reader does not read it. -/
theorem headerBits_none :
    (writeFields []).map BitWriter.bytes = some [0] ∧
      ∃ s bio, runFrom (readFields []) (Reader.atStart {} [0]) = (.ok [], s) ∧
        BitReader.readFinalHeaderByte s.bio = .ok bio ∧ bio.offset = 0 :=
  ⟨rfl, Reader.atStart {} [0], { start := [0] }, rfl, rfl, rfl⟩

end GrokCodec.T2
