import GrokCodec.Codestream.CompressParams
import GrokCodec.Codestream.QuantScoping
import GrokCodec.Codestream.StyleScoping
import Mathlib.Data.List.GetD

/-!
The SIZ, COD, COC, QCD and QCC segments of the main header, as the compressor writes them and the
decompressor reads them.
-/

namespace GrokCodec.Codestream

open ByteStream TileCodingParams List

/-- The segments of a main header, each after its length. -/
structure MainHeader where
  siz : List Nat
  cod : List Nat
  qcd : List Nat
  cocs : List (List Nat)
  qccs : List (List Nat)

namespace Encoder

variable (e : Encoder)

def numComps : Nat := e.siz.comps.length

variable (t : TileComponentCodingParams)

def writeSPCodSPCoc : List Nat :=
  [u8 (t.numresolutions + 255), u8 (t.cblkwExpn + 254), u8 (t.cblkhExpn + 254), u8 t.cblkStyle,
    u8 t.qmfbid] ++
    if t.csty &&& 1 ≠ 0 then
      (range t.numresolutions).map fun i => u8 (t.precWidthExp i + t.precHeightExp i <<< 4)
    else []

def writeCod : List Nat :=
  [u8 e.csty, (e.prg % 256).toNat] ++ beBytes 2 e.numLayers ++ [u8 e.mct] ++
    writeSPCodSPCoc (e.tccps 0)

/-- `write_coc`. The parameters after the style byte are those of the first component. -/
def writeCoc (compNo : Nat) : List Nat :=
  beBytes (compRoom e.numComps) compNo ++
    u8 (e.tccps compNo).csty :: writeSPCodSPCoc (e.tccps 0)

def compareCoc (t₀ t₁ : TileComponentCodingParams) : Bool :=
  t₀.csty = t₁.csty && t₀.numresolutions = t₁.numresolutions && t₀.cblkwExpn = t₁.cblkwExpn &&
    t₀.cblkhExpn = t₁.cblkhExpn && t₀.cblkStyle = t₁.cblkStyle && t₀.qmfbid = t₁.qmfbid &&
    t₀.csty &&& 1 = t₁.csty &&& 1 &&
    (range t₀.numresolutions).all fun i =>
      t₀.precWidthExp i = t₁.precWidthExp i && t₀.precHeightExp i = t₁.precHeightExp i

/-- The number of step sizes that are written. -/
def numBands : Nat :=
  if t.qntsty = qntstySiqnt then 1 else u8 (t.numresolutions * 3 - 2)

def writeSQcdSQcc : List Nat :=
  u8 (t.qntsty + t.numgbits <<< 5) :: (range (numBands t)).flatMap fun bandNo =>
    if t.qntsty = qntstyNoqnt then [u8 ((t.stepsizes bandNo).expn <<< 3)]
    else beBytes 2 ((t.stepsizes bandNo).expn <<< 11 + (t.stepsizes bandNo).mant)

def writeQcc (compNo : Nat) : List Nat :=
  beBytes (compRoom e.numComps) compNo ++ writeSQcdSQcc (e.tccps compNo)

def compareQcc (t₀ t₁ : TileComponentCodingParams) : Bool :=
  t₀.qntsty = t₁.qntsty && t₀.numgbits = t₁.numgbits && numBands t₀ = numBands t₁ &&
    ((range (numBands t₀)).all fun bandNo =>
      (t₀.stepsizes bandNo).expn = (t₁.stepsizes bandNo).expn) &&
    (t₀.qntsty = qntstyNoqnt || (range (numBands t₀)).all fun bandNo =>
      (t₀.stepsizes bandNo).mant = (t₁.stepsizes bandNo).mant)

/-- The other components that a comparison with the first one does not hold for. -/
def differing (compare : TileComponentCodingParams → TileComponentCodingParams → Bool) : List Nat :=
  (range' 1 (e.numComps - 1)).filter fun compNo => !compare (e.tccps 0) (e.tccps compNo)

/-- The procedures of `init_header_writing` for these segments. -/
def writeHeader : MainHeader :=
  { siz := SIZMarker.write e.siz
    cod := e.writeCod
    qcd := writeSQcdSQcc (e.tccps 0)
    cocs := (e.differing compareCoc).map e.writeCoc
    qccs := (e.differing compareQcc).map e.writeQcc }

end Encoder

/-- The segments are read in the order in which they are in the header. -/
def readHeader (dec : DecompressorParams) (h : MainHeader) : Option (Siz × TileCodingParams) :=
  (SIZMarker.read dec.reduce h.siz).bind fun siz =>
    ((readCod { numComps := siz.comps.length } dec h.cod).bind fun tcp =>
      (tcp.readQcd false h.qcd).bind fun tcp =>
        (h.cocs.foldlM (fun tcp seg => readCoc tcp dec seg) tcp).bind fun tcp =>
          h.qccs.foldlM (fun tcp seg => readQcc tcp false seg) tcp).map
      fun tcp => (siz, tcp)

/-- The two components have the same coding style and quantization. -/
structure TileComponentCodingParams.Agrees (t t' : TileComponentCodingParams) : Prop where
  numresolutions_eq : t.numresolutions = t'.numresolutions
  cblkwExpn_eq : t.cblkwExpn = t'.cblkwExpn
  cblkhExpn_eq : t.cblkhExpn = t'.cblkhExpn
  cblkStyle_eq : t.cblkStyle = t'.cblkStyle
  qmfbid_eq : t.qmfbid = t'.qmfbid
  precWidthExp_eq : ∀ r < t'.numresolutions, t.precWidthExp r = t'.precWidthExp r
  precHeightExp_eq : ∀ r < t'.numresolutions, t.precHeightExp r = t'.precHeightExp r
  qntsty_eq : t.qntsty = t'.qntsty
  numgbits_eq : t.numgbits = t'.numgbits
  stepsizes_eq : ∀ bandNo < t'.numresolutions * 3 - 2, t.stepsizes bandNo = t'.stepsizes bandNo

namespace Encoder

/-- The decompressor reads from the header what the compressor has. -/
def RoundTrips (e : Encoder) (dec : DecompressorParams) : Prop :=
  ∃ tcp, readHeader dec e.writeHeader = some (e.siz, tcp) ∧
    (∃ prg : Nat, tcp.prg = some prg ∧ e.prg = prg) ∧ tcp.numLayers = e.numLayers ∧
    tcp.mct = e.mct ∧ ∀ i < e.numComps, (tcp.tccps i).Agrees (e.tccps i)

/-- Precinct sizes that a segment can hold. -/
def PrecinctFits (t : TileComponentCodingParams) (r : Nat) : Prop :=
  t.precWidthExp r < 16 ∧ t.precHeightExp r < 16 ∧
    (r = 0 ∨ t.precWidthExp r ≠ 0 ∧ t.precHeightExp r ≠ 0)

/-- The limits that the decompressor checks for. -/
structure Readable (e : Encoder) : Prop where
  siz_ok : SIZMarker.fieldsOk 0 e.siz = true
  csty_lt : e.csty < 8
  prg_nonneg : 0 ≤ e.prg
  prg_lt : e.prg < numProgressionOrders
  numLayers_ne : e.numLayers ≠ 0
  mct_le : e.mct ≤ 1
  cblkw_ge : 2 ≤ (e.tccps 0).cblkwExpn
  cblkh_ge : 2 ≤ (e.tccps 0).cblkhExpn
  cblk_le : (e.tccps 0).cblkwExpn + (e.tccps 0).cblkhExpn ≤ 12
  cblkStyle_ok : TileComponentCodingParams.cblkStyleOk (e.tccps 0).cblkStyle = true
  precincts : e.csty % 2 = 1 → ∀ r < (e.tccps 0).numresolutions, PrecinctFits (e.tccps 0) r

open TileComponentCodingParams Nat

variable {e : Encoder}

/-- The coding style in the COD segment. -/
def styleBody (e : Encoder) : StyleBody :=
  { csty := e.csty
    levels := (e.tccps 0).numresolutions - 1
    cblkw := u8 ((e.tccps 0).cblkwExpn + 254)
    cblkh := u8 ((e.tccps 0).cblkhExpn + 254)
    cblkStyle := (e.tccps 0).cblkStyle
    transform := (e.tccps 0).qmfbid
    precincts := if e.csty % 2 = 1 then
        (List.range (e.tccps 0).numresolutions).map fun i =>
          u8 ((e.tccps 0).precWidthExp i + (e.tccps 0).precHeightExp i <<< 4)
      else [] }

theorem Accepted.writeCod_eq (h : e.Accepted) :
    e.writeCod = e.csty :: (e.prg % 256).toNat :: e.numLayers / 256 % 256 :: e.numLayers % 256 ::
      e.mct :: e.styleBody.bytes := by
  have hcsty : u8 e.csty = e.csty := mod_eq_of_lt h.csty_lt
  have hmct : u8 e.mct = e.mct := mod_eq_of_lt h.mct_lt
  have hstyle : u8 (e.tccps 0).cblkStyle = (e.tccps 0).cblkStyle := mod_eq_of_lt h.cblkStyle_lt
  have hqmfbid : u8 (e.tccps 0).qmfbid = (e.tccps 0).qmfbid :=
    mod_eq_of_lt (h.qmfbid_le.trans_lt (by decide))
  have hlevels : u8 ((e.tccps 0).numresolutions + 255) = (e.tccps 0).numresolutions - 1 := by
    have hpos := h.numresolutions_pos
    have hle := h.numresolutions_le
    have hmax : maxRlvls = 33 := rfl
    show ((e.tccps 0).numresolutions + 255) % 256 = _
    omega
  have hflag : (e.tccps 0).csty &&& 1 ≠ 0 ↔ e.csty % 2 = 1 := by
    apply precinctFlag
    rw [h.csty_eq]
    exact TileCodingParams.csty_mod_two e.csty
  simp only [writeCod, writeSPCodSPCoc, hcsty, hmct, hstyle, hqmfbid, hlevels, hflag]
  rfl

theorem layers_eq {n : Nat} (h : n < 2 ^ 16) : ofBytes [n / 256 % 256, n % 256] = n := by
  show (0 * 256 + n / 256 % 256) * 256 + n % 256 = n
  omega

theorem prg_eq {prg : Int} (h₀ : 0 ≤ prg) (h : prg < numProgressionOrders) :
    ((prg % 256).toNat : Int) = prg := by
  have hmax : numProgressionOrders = 6 := rfl
  omega

theorem precinctByte (t : TileComponentCodingParams) (i : Nat) :
    u8 (t.precWidthExp i + t.precHeightExp i <<< 4) =
      (t.precWidthExp i + 16 * t.precHeightExp i) % 256 := by
  rw [u8, shiftLeft_eq, Nat.mul_comm]
  rfl

variable {r : Nat}

theorem getD_precincts (hodd : e.csty % 2 = 1) (hr : r < (e.tccps 0).numresolutions) :
    e.styleBody.precincts.getD r 0 =
      ((e.tccps 0).precWidthExp r + 16 * (e.tccps 0).precHeightExp r) % 256 := by
  show List.getD (if e.csty % 2 = 1 then _ else _) r 0 = _
  rw [if_pos hodd, getD_eq_getElem?_getD, List.getElem?_map, List.getElem?_range hr,
    Option.map_some, Option.getD_some, precinctByte]

theorem precinctOk_iff {i byte : Nat} :
    precinctOk i byte = true ↔ i = 0 ∨ byte % 16 ≠ 0 ∧ byte / 16 ≠ 0 := by
  rw [precinctOk, show (0xf : Nat) = 2 ^ 4 - 1 from rfl, and_two_pow_sub_one_eq_mod,
    shiftRight_eq_div_pow]
  simp

theorem precinctFits_iff (hodd : e.csty % 2 = 1) (hr : r < (e.tccps 0).numresolutions) :
    PrecinctFits (e.tccps 0) r ↔ precinctOk r (e.styleBody.precincts.getD r 0) = true ∧
      e.styleBody.precWidth r = (e.tccps 0).precWidthExp r ∧
      e.styleBody.precHeight r = (e.tccps 0).precHeightExp r := by
  have hcsty : e.styleBody.csty % 2 = 1 := hodd
  rw [StyleBody.precWidth, StyleBody.precHeight, if_pos hcsty, if_pos hcsty, precinctOk_iff,
    getD_precincts hodd hr, PrecinctFits]
  omega

theorem Accepted.styleBody_wellFormed (h : e.Accepted) (hr : e.Readable) :
    e.styleBody.WellFormed 0 := by
  have hpos := h.numresolutions_pos
  have hle := h.numresolutions_le
  have hmax : maxRlvls = 33 := rfl
  have hlvls : maxDecompLvls = 32 := rfl
  have hlevels : e.styleBody.levels = (e.tccps 0).numresolutions - 1 := rfl
  refine ⟨by omega, zero_le _, ?_, hr.cblkStyle_ok, ?_, ?_⟩
  · show ((e.tccps 0).cblkwExpn + 254) % 256 + ((e.tccps 0).cblkhExpn + 254) % 256 ≤ 8
    have := hr.cblkw_ge
    have := hr.cblkh_ge
    have := hr.cblk_le
    omega
  · show List.length (if e.csty % 2 = 1 then _ else _) = if e.csty % 2 = 1 then _ else _
    split
    · rw [length_map, length_range, hlevels]
      omega
    · rfl
  · intro hodd r hlt
    have hlt : r < (e.tccps 0).numresolutions := by omega
    exact ((precinctFits_iff hodd hlt).mp (hr.precincts hodd r hlt)).1

/-- The style of the COD segment is that of the first component if and only if the limits on
code blocks and precincts hold. -/
theorem Accepted.style_agrees_iff (h : e.Accepted) {t : TileComponentCodingParams}
    (hstyle : t.HasStyle e.styleBody) (hdfs : ¬e.styleBody.HasDfs)
    (hcblk : e.styleBody.cblkw + e.styleBody.cblkh ≤ 8)
    (hprec : e.csty % 2 = 1 → ∀ r < t.numresolutions,
      precinctOk r (e.styleBody.precincts.getD r 0) = true) :
    (t.numresolutions = (e.tccps 0).numresolutions ∧ t.cblkwExpn = (e.tccps 0).cblkwExpn ∧
      t.cblkhExpn = (e.tccps 0).cblkhExpn ∧ t.cblkStyle = (e.tccps 0).cblkStyle ∧
      t.qmfbid = (e.tccps 0).qmfbid) ∧
    ((∀ r < (e.tccps 0).numresolutions, t.precWidthExp r = (e.tccps 0).precWidthExp r ∧
        t.precHeightExp r = (e.tccps 0).precHeightExp r) ↔
      (e.csty % 2 = 1 → ∀ r < (e.tccps 0).numresolutions, PrecinctFits (e.tccps 0) r)) := by
  have hpos := h.numresolutions_pos
  have hnum : t.numresolutions = (e.tccps 0).numresolutions := by
    rw [hstyle.numresolutions_eq hdfs]
    show (e.tccps 0).numresolutions - 1 + 1 = _
    omega
  refine ⟨⟨hnum, ?_, ?_, hstyle.cblkStyle_eq, ?_⟩, ?_⟩
  · have hw : e.styleBody.cblkw = ((e.tccps 0).cblkwExpn + 254) % 256 := rfl
    have := h.cblkw_lt
    rw [hstyle.cblkwExpn_eq]
    omega
  · have hh : e.styleBody.cblkh = ((e.tccps 0).cblkhExpn + 254) % 256 := rfl
    have := h.cblkh_lt
    rw [hstyle.cblkhExpn_eq]
    omega
  · rw [hstyle.qmfbid_eq]
    exact if_pos h.qmfbid_le
  · constructor
    · intro hsame hodd r hr
      obtain ⟨hwidth, hheight⟩ := hsame r hr
      rw [hstyle.precWidthExp_eq r (by omega)] at hwidth
      rw [hstyle.precHeightExp_eq r (by omega)] at hheight
      exact (precinctFits_iff hodd hr).mpr ⟨hprec hodd r (by omega), hwidth, hheight⟩
    · intro hfits r hr
      rw [hstyle.precWidthExp_eq r (by omega), hstyle.precHeightExp_eq r (by omega)]
      by_cases hodd : e.csty % 2 = 1
      · exact ((precinctFits_iff hodd hr).mp (hfits hodd r hr)).2
      · obtain ⟨hwidth, hheight⟩ := h.precincts hodd r
        rw [hwidth, hheight]
        exact ⟨if_neg hodd, if_neg hodd⟩

/-- What a segment can hold of the quantization of a component. -/
structure WritableSteps (t : TileComponentCodingParams) : Prop where
  numresolutions_pos : 0 < t.numresolutions
  numresolutions_le : t.numresolutions ≤ maxRlvls
  qntsty_or : t.qntsty = qntstyNoqnt ∨ t.qntsty = qntstySeqnt
  numgbits_le : t.numgbits ≤ 7
  steps : ∀ bandNo, (t.stepsizes bandNo).Fits t.qntsty

theorem Accepted.writableSteps (h : e.Accepted) (i : Nat) : WritableSteps (e.tccps i) := by
  have hsame := h.same i
  rw [hsame]
  exact ⟨h.numresolutions_pos, h.numresolutions_le, h.qntsty_or, h.numgbits_le, h.steps i⟩

variable {f : Nat → List Nat} {w : Nat}

theorem length_flatMap_range (hf : ∀ i, (f i).length = w) (n : Nat) :
    ((List.range n).flatMap f).length = w * n := by
  simp [length_flatMap, hf, Nat.mul_comm]

theorem getD_flatMap_range (hf : ∀ i, (f i).length = w) {n k j : Nat} (hk : k < n) (hj : j < w) :
    ((List.range n).flatMap f).getD (w * k + j) 0 = (f k).getD j 0 := by
  induction n with
  | zero => exact absurd hk (not_lt_zero _)
  | succ n ih =>
    have hlen := length_flatMap_range hf n
    rw [range_succ, flatMap_append, flatMap_singleton]
    by_cases hkn : k < n
    · have hle := mul_le_mul_left w hkn
      rw [mul_succ] at hle
      rw [getD_append _ _ _ _ (by omega)]
      exact ih hkn
    · obtain rfl : k = n := by omega
      rw [getD_append_right _ _ _ _ (by omega), hlen, Nat.add_sub_cancel_left]

section Steps

variable {t : TileComponentCodingParams}

theorem WritableSteps.numBands_eq (h : WritableSteps t) :
    numBands t = t.numresolutions * 3 - 2 ∧ 0 < numBands t ∧ numBands t ≤ maxBands := by
  have hpos := h.numresolutions_pos
  have hle := h.numresolutions_le
  have hmax : maxRlvls = 33 := rfl
  have hbands : maxBands = 97 := rfl
  have hne : t.qntsty ≠ qntstySiqnt := by
    rcases h.qntsty_or with hno | hse
    · rw [hno]
      decide
    · rw [hse]
      decide
  have hnum : numBands t = t.numresolutions * 3 - 2 := by
    rw [numBands, if_neg hne]
    exact mod_eq_of_lt (by omega)
  omega

theorem WritableSteps.head_eq (h : WritableSteps t) :
    QuantBody.style (writeSQcdSQcc t) = t.qntsty ∧
      QuantBody.guardBits (writeSQcdSQcc t) = t.numgbits := by
  have hgbits := h.numgbits_le
  have hlt : t.qntsty ≤ 2 := by
    rcases h.qntsty_or with hno | hse
    · rw [hno]
      decide
    · rw [hse]
      decide
  constructor
  · show (t.qntsty + t.numgbits <<< 5) % 256 % 32 = t.qntsty
    rw [shiftLeft_eq]
    omega
  · show (t.qntsty + t.numgbits <<< 5) % 256 / 32 = t.numgbits
    rw [shiftLeft_eq]
    omega

/-- The entries of a segment. -/
def stepBytes (t : TileComponentCodingParams) (bandNo : Nat) : List Nat :=
  if t.qntsty = qntstyNoqnt then [u8 ((t.stepsizes bandNo).expn <<< 3)]
  else beBytes 2 ((t.stepsizes bandNo).expn <<< 11 + (t.stepsizes bandNo).mant)

theorem length_stepBytes (t : TileComponentCodingParams) (bandNo : Nat) :
    (stepBytes t bandNo).length = stepWidth t.qntsty := by
  unfold stepBytes stepWidth
  split
  · rfl
  · rw [length_beBytes]

theorem WritableSteps.wellFormed (h : WritableSteps t) :
    QuantBody.WellFormed (writeSQcdSQcc t) ∧ QuantBody.entries (writeSQcdSQcc t) = numBands t := by
  obtain ⟨hnum, hpos, hle⟩ := h.numBands_eq
  obtain ⟨hstyle, _⟩ := h.head_eq
  have htail : (writeSQcdSQcc t).tail.length = stepWidth t.qntsty * numBands t :=
    length_flatMap_range (length_stepBytes t) _
  have hne : t.qntsty ≠ qntstySiqnt ∧ t.qntsty ≤ qntstySeqnt := by
    rcases h.qntsty_or with hno | hse
    · rw [hno]
      decide
    · rw [hse]
      decide
  have hentries : QuantBody.entries (writeSQcdSQcc t) = numBands t := by
    rw [QuantBody.entries, hstyle, if_neg hne.1, htail]
    exact Nat.mul_div_cancel_left _ (QuantBody.stepWidth_pos _)
  refine ⟨⟨cons_ne_nil _ _, ?_, by rw [hstyle]; exact hne.2, by rw [hentries]; exact hle, ?_⟩,
    hentries⟩
  · intro b hb
    rcases mem_cons.mp hb with rfl | hb
    · exact mod_lt _ (by decide)
    · obtain ⟨bandNo, _, hb⟩ := mem_flatMap.mp hb
      split at hb
      · obtain rfl := mem_singleton.mp hb
        exact mod_lt _ (by decide)
      · exact beBytes_lt hb
  · rw [hstyle, hentries]
    exact htail

theorem WritableSteps.step_eq (h : WritableSteps t) {bandNo : Nat} (hband : bandNo < numBands t) :
    QuantBody.step (writeSQcdSQcc t) bandNo = t.stepsizes bandNo := by
  obtain ⟨hexpn, hmant, hzero⟩ := h.steps bandNo
  obtain ⟨hstyle, _⟩ := h.head_eq
  have hget : ∀ j < stepWidth t.qntsty,
      (writeSQcdSQcc t).tail.getD (stepWidth t.qntsty * bandNo + j) 0 =
        (stepBytes t bandNo).getD j 0 := fun j hj =>
    getD_flatMap_range (length_stepBytes t) hband hj
  have hsplit : ∀ s : Stepsize, s = ⟨s.expn, s.mant⟩ := fun _ => rfl
  rw [QuantBody.step, hstyle, hsplit (t.stepsizes bandNo)]
  rcases h.qntsty_or with hno | hse
  · rw [stepBytes, stepWidth, if_pos hno, if_pos hno] at hget
    have hbyte := hget 0 (by decide)
    rw [Nat.one_mul, Nat.add_zero] at hbyte
    rw [if_pos hno, hbyte, hzero hno]
    congr 1
    show (t.stepsizes bandNo).expn <<< 3 % 256 / 8 = (t.stepsizes bandNo).expn
    rw [shiftLeft_eq]
    omega
  · have hne : ¬t.qntsty = qntstyNoqnt ∧ ¬t.qntsty = qntstySiqnt := by
      rw [hse]
      decide
    rw [stepBytes, stepWidth, if_neg hne.1, if_neg hne.1] at hget
    have hhigh := hget 0 (by decide)
    have hlow := hget 1 (by decide)
    have hword : QuantBody.word (writeSQcdSQcc t) bandNo =
        (t.stepsizes bandNo).expn * 2048 + (t.stepsizes bandNo).mant := by
      rw [QuantBody.word, ← Nat.add_zero (2 * bandNo), hhigh, Nat.add_zero, hlow, shiftLeft_eq]
      show 256 * (_ / 256 % 256) + _ % 256 = _
      omega
    rw [if_neg hne.1, if_neg hne.2, hword]
    congr 1 <;> omega

end Steps

end Encoder

end GrokCodec.Codestream
