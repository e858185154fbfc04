import GrokCodec.Lib.ByteStream
import GrokCodec.Util.Geometry

/-!
PLT marker segments: `PLMarker` when it is written, and the packet lengths a reader gets back
from its bytes.
-/

namespace GrokCodec.Codestream

open ByteStream List Nat

/-- The marker codes `transcodeCodestream` tells apart. -/
def SOC : Nat := 0xff4f
def SOT : Nat := 0xff90
def SOD : Nat := 0xff93
def EOC : Nat := 0xffd9
def SIZ : Nat := 0xff51
def COD : Nat := 0xff52
def TLM : Nat := 0xff55
def PLM : Nat := 0xff57
def PLT : Nat := 0xff58

/-- Index byte and packet lengths of one segment. -/
def plWriteBufferLen : Nat := 65531

/-- `PLMarker` as a writer: the bytes put into each marker so far, the current one first. -/
structure PLMarker where
  rawMarkers : List (List Nat) := []
  totalBytesWritten : Nat := 0
  isFinal : Bool := true

namespace PLMarker

/-- The bytes above the last one, seven bits each with a comma bit. -/
def commas : Nat → Nat → List Nat → List Nat
  | 0, _, temp => temp
  | n + 1, len, temp =>
    if len = 0 then temp else commas n (len >>> 7) ((len % 128 + 128) :: temp)

/-- The bytes of one packet length; there is room for five of them. -/
def plBytes (len : Nat) : List Nat := commas 4 (len >>> 7) [len % 128]

def numBytes (len : Nat) : Nat := (log2 len + 1 + 6) / 7

/-- `pushPL`. Without `isFinal` only the total is kept, and each marker has room for nothing. -/
def pushPL (m : PLMarker) (len : Nat) : PLMarker :=
  let room := if m.isFinal then plWriteBufferLen else 0
  let fresh : PLMarker :=
    { m with
      rawMarkers := (if m.isFinal then [m.rawMarkers.length % 256] else []) :: m.rawMarkers
      totalBytesWritten := m.totalBytesWritten + 5 }
  let m := match m.rawMarkers with
    | [] => fresh
    | current :: _ => if current.length + numBytes len > room then fresh else m
  let rawMarkers := match m.rawMarkers with
    | [] => []
    | current :: older => (if m.isFinal then current ++ plBytes len else current) :: older
  { m with rawMarkers, totalBytesWritten := m.totalBytesWritten + numBytes len }

/-- `pushPL` for each of the lengths, after `pushInit(true)`. -/
def pushAll (lengths : List Nat) : PLMarker := lengths.foldl pushPL {}

/-- The payloads of the segments in the order in which they are written. -/
def segments (m : PLMarker) : List (List Nat) := m.rawMarkers.reverse

/-- `PLMarker::write`. -/
def segmentBytes (payload : List Nat) : List Nat :=
  be16 PLT ++ be16 (payload.length + 2) ++ payload

def write (m : PLMarker) : List Nat := m.segments.flatMap segmentBytes

/-- `readNextByte` over the bytes of a segment; `packetLen` is what has been read of the current
length. -/
def readLengths : Nat → List Nat → List Nat
  | _, [] => []
  | packetLen, b :: bs =>
    if b < 128 then (packetLen + b) :: readLengths 0 bs
    else readLengths ((packetLen + b % 128) * 128) bs

/-- The packet lengths in a list of segment payloads, each behind its index byte. -/
def lengths (segments : List (List Nat)) : List Nat :=
  segments.flatMap fun payload => readLengths 0 payload.tail

theorem commas_append (n len : Nat) (temp rest : List Nat) :
    commas n len (temp ++ rest) = commas n len temp ++ rest := by
  induction n generalizing len temp with
  | zero => rfl
  | succ n ih =>
    unfold commas
    split
    · rfl
    · rw [← cons_append, ih]

variable {len : Nat}

theorem readLengths_commas {n : Nat} (h : len < 128 ^ n) (temp : List Nat) :
    readLengths 0 (commas n len temp) = readLengths (len * 128) temp := by
  induction n generalizing len temp with
  | zero =>
    obtain rfl : len = 0 := by simpa using h
    rfl
  | succ n ih =>
    unfold commas
    split
    case isTrue h0 => rw [h0, Nat.zero_mul]
    case isFalse h0 =>
      have hshift := shiftRight_eq_div_pow len 7
      have hdigit : (len / 128 * 128 + (len % 128 + 128) % 128) * 128 = len * 128 := by omega
      rw [hshift, ih (by rw [Nat.pow_succ] at h; omega), readLengths, if_neg (by omega), hdigit]

theorem readLengths_plBytes (h : len < 2 ^ 35) (rest : List Nat) :
    readLengths 0 (plBytes len ++ rest) = len :: readLengths 0 rest := by
  have hshift := shiftRight_eq_div_pow len 7
  rw [plBytes, ← commas_append, hshift, readLengths_commas (by omega), singleton_append,
    readLengths, if_pos (by omega), show len / 128 * 128 + len % 128 = len by omega]

variable {lens : List Nat}

theorem readLengths_flatMap (h : ∀ l ∈ lens, l < 2 ^ 35) :
    readLengths 0 (lens.flatMap plBytes) = lens := by
  induction lens with
  | nil => rfl
  | cons l lens ih =>
    rw [flatMap_cons, readLengths_plBytes (h l mem_cons_self),
      ih fun l' hl' => h l' (mem_cons_of_mem _ hl')]

theorem length_commas {n k : Nat} (hk : k ≤ n) (hlt : len < 128 ^ k)
    (hle : 0 < k → 128 ^ (k - 1) ≤ len) (temp : List Nat) :
    (commas n len temp).length = k + temp.length := by
  induction n generalizing k len temp with
  | zero =>
    obtain rfl : k = 0 := by omega
    simp [commas]
  | succ n ih =>
    unfold commas
    cases k with
    | zero =>
      obtain rfl : len = 0 := by simpa using hlt
      simp
    | succ k =>
      have hle : 128 ^ k ≤ len := hle (succ_pos k)
      have hshift := shiftRight_eq_div_pow len 7
      rw [if_neg (by omega), hshift, ih (by omega : k ≤ n) (by rw [Nat.pow_succ] at hlt; omega)]
      · simp
        omega
      · intro hk
        obtain ⟨j, rfl⟩ : ∃ j, k = j + 1 := ⟨k - 1, by omega⟩
        simp only [Nat.add_sub_cancel]
        omega

theorem length_plBytes (h0 : 0 < len) (h : len < 2 ^ 35) :
    (plBytes len).length = numBytes len := by
  obtain ⟨k, hk⟩ : ∃ k, k = log2 len / 7 := ⟨_, rfl⟩
  have hlog := (log2_lt h0.ne').mpr h
  have hlo : 2 ^ (7 * k) ≤ len :=
    (Nat.pow_le_pow_right (by omega) (by omega)).trans (log2_self_le h0.ne')
  have hhi : len < 2 ^ (7 * k + 7) :=
    lt_of_lt_of_le (lt_log2_self) (Nat.pow_le_pow_right (by omega) (by omega))
  have hpow : (2 : Nat) ^ (7 * k) = 128 ^ k := by rw [Nat.pow_mul]
  have hshift := shiftRight_eq_div_pow len 7
  rw [Nat.pow_add, hpow] at hhi
  rw [hpow] at hlo
  rw [plBytes, numBytes, hshift, length_commas (k := k) (by omega) (by omega)]
  · simp
    omega
  · intro hk
    obtain ⟨j, rfl⟩ : ∃ j, k = j + 1 := ⟨k - 1, by omega⟩
    simp only [Nat.add_sub_cancel]
    omega

/-- A final marker that holds the given packet lengths, no length cut by the end of a segment. -/
structure Writes (m : PLMarker) (lens : List Nat) : Prop where
  isFinal : m.isFinal = true
  groups : ∃ groups : List (Nat × List Nat),
    m.rawMarkers = groups.map (fun g => g.1 :: g.2.flatMap plBytes) ∧
      groups.reverse.flatMap (·.2) = lens
  total : m.totalBytesWritten = (m.rawMarkers.map fun b => b.length + 4).sum
  bounded : ∀ b ∈ m.rawMarkers, b.length ≤ plWriteBufferLen

variable {m : PLMarker}

theorem Writes.fresh (h : m.Writes lens) (id : Nat) :
    Writes { m with
      rawMarkers := [id] :: m.rawMarkers, totalBytesWritten := m.totalBytesWritten + 5 } lens := by
  obtain ⟨groups, hg, hl⟩ := h.groups
  refine ⟨h.isFinal, ⟨(id, []) :: groups, by simp [hg], by simp [hl]⟩, ?_, ?_⟩
  · simp [h.total]
    omega
  · intro b hb
    rcases mem_cons.mp hb with rfl | hb
    · simp [plWriteBufferLen]
    · exact h.bounded b hb

theorem Writes.append {current : List Nat} {older : List (List Nat)}
    (h : m.Writes lens) (hm : m.rawMarkers = current :: older) (h0 : 0 < len) (hlen : len < 2 ^ 32)
    (hroom : current.length + numBytes len ≤ plWriteBufferLen) :
    Writes { m with
      rawMarkers := (current ++ plBytes len) :: older
      totalBytesWritten := m.totalBytesWritten + numBytes len } (lens ++ [len]) := by
  have hbytes := length_plBytes h0 (by omega : len < 2 ^ 35)
  obtain ⟨groups, hg, hl⟩ := h.groups
  cases groups with
  | nil => simp [hm] at hg
  | cons g groups =>
    rw [hm, map_cons, List.cons.injEq] at hg
    refine ⟨h.isFinal, ⟨(g.1, g.2 ++ [len]) :: groups, ?_, ?_⟩, ?_, ?_⟩
    · simp [hg.1, hg.2]
    · rw [← hl]
      simp
    · rw [h.total, hm]
      simp only [map_cons, sum_cons, length_append, hbytes]
      omega
    · intro b hb
      rcases mem_cons.mp hb with rfl | hb
      · rw [length_append, hbytes]
        exact hroom
      · exact h.bounded b (hm ▸ mem_cons_of_mem _ hb)

theorem Writes.pushPL (h : m.Writes lens)
    (h0 : 0 < len) (hlen : len < 2 ^ 32) : (m.pushPL len).Writes (lens ++ [len]) := by
  have hlog := (log2_lt h0.ne').mpr hlen
  have hfew : numBytes len ≤ 5 := by
    unfold numBytes
    omega
  have hfresh := (h.fresh (m.rawMarkers.length % 256)).append rfl h0 hlen
    (by simp only [length_singleton, plWriteBufferLen]; omega)
  unfold PLMarker.pushPL
  cases hm : m.rawMarkers with
  | nil =>
    rw [hm] at hfresh
    simpa [h.isFinal] using hfresh
  | cons current older =>
    by_cases hroom : current.length + numBytes len > plWriteBufferLen
    · rw [hm] at hfresh
      simpa [hroom, h.isFinal] using hfresh
    · have happ := h.append hm h0 hlen (by omega)
      simpa [hroom, h.isFinal, hm] using happ

theorem pushAll_writes (h : ∀ l ∈ lens, 0 < l ∧ l < 2 ^ 32) :
    (pushAll lens).Writes lens := by
  have hfold (ls done : List Nat) (m : PLMarker) (hm : m.Writes done)
      (h : ∀ l ∈ ls, 0 < l ∧ l < 2 ^ 32) : (ls.foldl pushPL m).Writes (done ++ ls) := by
    induction ls generalizing done m with
    | nil => simpa using hm
    | cons l ls ih =>
      have hl := h l mem_cons_self
      have hrest := ih (done ++ [l]) _ (hm.pushPL hl.1 hl.2)
        fun l' hl' => h l' (mem_cons_of_mem _ hl')
      simpa using hrest
  exact hfold lens [] {} ⟨rfl, ⟨[], rfl, rfl⟩, rfl, by simp⟩ h

theorem Writes.lengths_eq (h : m.Writes lens)
    (hlen : ∀ l ∈ lens, l < 2 ^ 32) : lengths m.segments = lens := by
  obtain ⟨groups, hg, hl⟩ := h.groups
  have hgroup (g : Nat × List Nat) (hmem : g ∈ groups.reverse) :
      readLengths 0 (g.2.flatMap plBytes) = g.2 := by
    refine readLengths_flatMap fun l hl' => ?_
    have := hlen l (hl ▸ mem_flatMap.mpr ⟨g, hmem, hl'⟩)
    omega
  rw [lengths, segments, hg, ← map_reverse, flatMap_map, ← hl]
  exact flatMap_congr fun g hmem => hgroup g hmem

theorem Writes.length_write (h : m.Writes lens) :
    m.write.length = m.totalBytesWritten := by
  have hseg (b : List Nat) : (segmentBytes b).length = b.length + 4 := by
    simp [segmentBytes]
    omega
  rw [h.total, write, segments, length_flatMap]
  simp only [hseg, map_reverse, sum_reverse]

end PLMarker

end GrokCodec.Codestream
