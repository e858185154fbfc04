import GrokCodec.Codestream.TileCodingParams
import GrokCodec.Lib.Scoping

/-!
The scope of QCD and QCC markers: what the components have after the main header and after the
header of a tile.
-/

namespace GrokCodec.Codestream

open ByteStream Scoping TileComponentCodingParams List Option Nat Function

namespace QuantBody

variable (body : List Nat)

/-- The quantization style that the body of a QCD or QCC segment says. -/
def style : Nat := body.headD 0 % 32

def guardBits : Nat := body.headD 0 / 32

/-- The number of step sizes in the body. -/
def entries : Nat :=
  if style body = qntstySiqnt then 1 else body.tail.length / stepWidth (style body)

def word (k : Nat) : Nat :=
  256 * body.tail.getD (2 * k) 0 + body.tail.getD (2 * k + 1) 0

/-- The number of step sizes that follow from the body. -/
def stepCount : Nat :=
  if style body = qntstySiqnt then maxBands else entries body

/-- The step size of a band. -/
def step (band : Nat) : Stepsize :=
  if style body = qntstyNoqnt then ⟨body.tail.getD band 0 / 8, 0⟩
  else if style body = qntstySiqnt then ⟨word body 0 / 2048 - (band - 1) / 3, word body 0 % 2048⟩
  else ⟨word body band / 2048, word body band % 2048⟩

/-- The bytes that the style asks for, for at most as many bands as there can be. -/
structure WellFormed (body : List Nat) : Prop where
  ne_nil : body ≠ []
  byte : ∀ b ∈ body, b < 256
  style_le : style body ≤ qntstySeqnt
  entries_le : entries body ≤ maxBands
  length_eq : body.tail.length = stepWidth (style body) * entries body

/-- The two bodies say the same. -/
structure Same (a b : List Nat) : Prop where
  style_eq : style a = style b
  guardBits_eq : guardBits a = guardBits b
  step_eq : ∀ band < stepCount b, step a band = step b band

/-- The step sizes of one body take up as many bytes of the other's style as the other has. -/
def Fits (own default : List Nat) : Prop :=
  default.tail.length = stepWidth (style default) * entries own

end QuantBody

/-- The quantization of a component is that of a marker. -/
structure TileComponentCodingParams.Holds (tccp : TileComponentCodingParams) (body : List Nat) :
    Prop where
  qntsty_eq : tccp.qntsty = QuantBody.style body
  numgbits_eq : tccp.numgbits = QuantBody.guardBits body
  stepsizes_eq : ∀ band < QuantBody.stepCount body, tccp.stepsizes band = QuantBody.step body band

namespace QuantBody

variable {body : List Nat}

theorem stepWidth_pos (style : Nat) : 0 < stepWidth style := by
  rw [stepWidth]
  split <;> decide

theorem WellFormed.exists_cons (h : WellFormed body) :
    ∃ sqcx rest, body = sqcx :: rest ∧ sqcx < 256 ∧ sqcx &&& 0x1f = style body ∧
      u8 (sqcx >>> 5) = guardBits body := by
  cases body with
  | nil => exact absurd rfl h.ne_nil
  | cons sqcx rest =>
    have hlt := h.byte sqcx mem_cons_self
    refine ⟨sqcx, rest, rfl, hlt, and_two_pow_sub_one_eq_mod sqcx 5, ?_⟩
    have hsmall : sqcx / 2 ^ 5 < 256 := Nat.lt_of_le_of_lt (div_le_self _ _) hlt
    rw [u8, shiftRight_eq_div_pow]
    exact mod_eq_of_lt hsmall

theorem WellFormed.countStepSizes_eq (h : WellFormed body) :
    countStepSizes (style body) body.tail.length = entries body := by
  have hle := h.entries_le
  have hmax : maxBands < 256 := by decide
  unfold countStepSizes entries at *
  by_cases hsi : style body = qntstySiqnt
  · rw [if_pos hsi, if_pos hsi]
  · rw [if_neg hsi] at hle ⊢
    rw [if_neg hsi]
    have hu8 : u8 (body.tail.length / stepWidth (style body)) =
        body.tail.length / stepWidth (style body) := mod_eq_of_lt (hle.trans_lt hmax)
    rw [← hu8, stepWidth]
    by_cases hno : style body = qntstyNoqnt
    · rw [if_pos hno, if_pos hno, Nat.div_one]
    · rw [if_neg hno, if_neg hno]

theorem tail_getD_lt (h : WellFormed body) (k : Nat) : body.tail.getD k 0 < 256 := by
  rw [getD_eq_getElem?_getD]
  cases hk : body.tail[k]? with
  | none => decide
  | some b => exact h.byte b (mem_of_mem_tail (mem_of_getElem? hk))

theorem word_lt (h : WellFormed body) (k : Nat) : word body k < 65536 := by
  have h₁ := tail_getD_lt h (2 * k)
  have h₂ := tail_getD_lt h (2 * k + 1)
  unfold word
  omega

theorem ofBytes_take_one {l : List Nat} (hl : 0 < l.length) : ofBytes (l.take 1) = l.getD 0 0 := by
  cases l with
  | nil => exact absurd hl (Nat.lt_irrefl 0)
  | cons a l => simp [ofBytes]

theorem ofBytes_take_two {l : List Nat} (hl : 1 < l.length) :
    ofBytes (l.take 2) = 256 * l.getD 0 0 + l.getD 1 0 := by
  match l, hl with
  | a :: b :: l, _ => simp [ofBytes]; omega

theorem getD_drop (l : List Nat) (n k : Nat) : (l.drop n).getD k 0 = l.getD (n + k) 0 := by
  rw [getD_eq_getElem?_getD, getD_eq_getElem?_getD, List.getElem?_drop]

theorem WellFormed.readStepsize_eq (h : WellFormed body) {band : Nat} (hband : band < entries body) :
    readStepsize (style body) body.tail band =
      if style body = qntstyNoqnt then ⟨body.tail.getD band 0 / 8, 0⟩
      else ⟨word body band / 2048, word body band % 2048⟩ := by
  have hlen := h.length_eq
  rw [readStepsize, stepWidth] at *
  by_cases hno : style body = qntstyNoqnt
  · simp only [if_pos hno] at hlen ⊢
    have hpos : 0 < (body.tail.drop (1 * band)).length := by
      rw [length_drop]
      omega
    have hlt := tail_getD_lt h band
    rw [grkRead, ofBytes_take_one hpos, getD_drop, Nat.one_mul, Nat.add_zero, u8,
      shiftRight_eq_div_pow]
    congr 1
    exact mod_eq_of_lt ((div_le_self _ _).trans_lt hlt)
  · simp only [if_neg hno] at hlen ⊢
    have hpos : 1 < (body.tail.drop (2 * band)).length := by
      rw [length_drop]
      omega
    have hlt := word_lt h band
    have hmant : u16 (word body band &&& 0x7ff) = word body band % 2048 := by
      rw [u16, show (0x7ff : Nat) = 2 ^ 11 - 1 from rfl, and_two_pow_sub_one_eq_mod]
      exact mod_eq_of_lt ((mod_lt _ (by decide)).trans (by decide))
    have hexpn : u8 (word body band >>> 11) = word body band / 2048 := by
      rw [u8, shiftRight_eq_div_pow]
      exact mod_eq_of_lt (by omega)
    have hword : (grkRead 2 (body.tail.drop (2 * band))).1 = word body band := by
      rw [grkRead, ofBytes_take_two hpos, getD_drop, getD_drop]
      rfl
    rw [hword, hmant, hexpn]

theorem expn_derived {expn k : Nat} (he : expn < 256) (hk : k < 256) :
    (if expn > u8 k then u8 (expn - u8 k) else 0) = expn - k := by
  have hk8 : u8 k = k := mod_eq_of_lt hk
  rw [hk8]
  split
  · exact mod_eq_of_lt (by omega)
  · omega

theorem WellFormed.setQuantization_holds {sqcx : Nat} {rest : List Nat}
    (h : WellFormed (sqcx :: rest)) (tccp : TileComponentCodingParams) (fromTile fromQCC : Bool) :
    (tccp.setQuantization fromTile fromQCC sqcx rest).Holds (sqcx :: rest) ∧
      (tccp.setQuantization fromTile fromQCC sqcx rest).numStepSizes = entries (sqcx :: rest) := by
  obtain ⟨sqcx', rest', heq, _, hstyle, hguard⟩ := h.exists_cons
  cases heq
  have hcount : countStepSizes (sqcx &&& 0x1f) rest.length = entries (sqcx :: rest) := by
    rw [hstyle]
    exact h.countStepSizes_eq
  refine ⟨⟨hstyle, hguard, ?_⟩, hcount⟩
  intro band hband
  have hread : ∀ k, k < entries (sqcx :: rest) → readStepsize (style (sqcx :: rest)) rest k =
      if style (sqcx :: rest) = qntstyNoqnt then ⟨rest.getD k 0 / 8, 0⟩
      else ⟨word (sqcx :: rest) k / 2048, word (sqcx :: rest) k % 2048⟩ := fun k hk =>
    h.readStepsize_eq hk
  have hmax := h.entries_le
  unfold setQuantization
  simp only [hcount]
  rw [stepCount] at hband
  by_cases hsi : style (sqcx :: rest) = qntstySiqnt
  · have hone : entries (sqcx :: rest) = 1 := if_pos hsi
    have hno : style (sqcx :: rest) ≠ qntstyNoqnt := by
      rw [hsi]
      decide
    have hzero := hread 0 (by omega)
    rw [if_neg hno] at hzero
    have hlt := word_lt h 0
    rw [if_pos hsi] at hband
    have hmaxBands : maxBands = 97 := rfl
    rw [hstyle, if_pos hsi, step, if_neg hno, if_pos hsi, deriveStepsizes]
    simp only [hone, lt_one_iff, true_and, hzero,
      if_pos (show 0 < maxBands by decide)]
    by_cases hb : 1 ≤ band ∧ band < maxBands
    · rw [if_pos hb, expn_derived (by omega) (by omega)]
    · obtain rfl : band = 0 := by omega
      rw [if_neg hb, if_pos ⟨rfl, hband⟩, hzero]
      rfl
  · rw [if_neg hsi] at hband
    rw [hstyle, if_neg hsi, if_pos ⟨hband, hband.trans_le hmax⟩, hread band hband, step,
      if_neg hsi]
    rfl

end QuantBody

/-- The component was set by a marker. -/
structure TileComponentCodingParams.SetBy (tccp : TileComponentCodingParams)
    (fromTileHeader fromQCC : Bool) (body : List Nat) : Prop where
  set_eq : tccp.quantizationMarkerSet = true
  fromQCC_eq : tccp.fromQCC = fromQCC
  fromTileHeader_eq : tccp.fromTileHeader = fromTileHeader
  numStepSizes_eq : tccp.numStepSizes = QuantBody.entries body
  holds : tccp.Holds body

namespace TileComponentCodingParams

open QuantBody

variable {tccp : TileComponentCodingParams} {body : List Nat} {fromTileHeader fromQCC : Bool}

theorem readSQcdSQcc_eq (h : WellFormed body)
    (hcounts : tccp.ignores fromTileHeader fromQCC = false) :
    ∃ tccp', tccp.readSQcdSQcc fromTileHeader fromQCC body = some (tccp', []) ∧
      tccp'.SetBy fromTileHeader fromQCC body := by
  obtain ⟨sqcx, rest, rfl, _, hstyle, _⟩ := h.exists_cons
  obtain ⟨hholds, hnum⟩ := h.setQuantization_holds tccp fromTileHeader fromQCC
  refine ⟨tccp.setQuantization fromTileHeader fromQCC sqcx rest, ?_, rfl, rfl, rfl, hnum, hholds⟩
  have hlen : rest.length = stepWidth (style (sqcx :: rest)) * entries (sqcx :: rest) :=
    h.length_eq
  have hle := h.style_le
  simp only [readSQcdSQcc, hcounts, hstyle, Bool.false_eq_true, if_false, hnum, ← hlen]
  rw [if_neg (by omega), drop_length]

end TileComponentCodingParams

namespace TileCodingParams

open QuantBody

/-- A QCD marker, or the QCC marker of a component. -/
def readQuantMarker (fromTileHeader : Bool) (tcp : TileCodingParams) :
    Entry (List Nat) → Option TileCodingParams
  | .default body => tcp.readQcd fromTileHeader body
  | .own i body => tcp.readQcc fromTileHeader (beBytes (compRoom tcp.numComps) i ++ body)

/-- The quantization markers of a header. -/
def readQuantMarkers (fromTileHeader : Bool) (markers : List (Entry (List Nat)))
    (tcp : TileCodingParams) : Option TileCodingParams :=
  markers.foldlM (readQuantMarker fromTileHeader) tcp

/-- The markers are well formed, for components that there are, with at most one QCD and one QCC
for a component. -/
structure QuantHeader (numComps : Nat) (markers : List (Entry (List Nat))) : Prop where
  single : Single markers
  wellFormed : ∀ e ∈ markers, match e with
    | .default body => WellFormed body
    | .own i body => i < numComps ∧ WellFormed body

theorem QuantHeader.left {numComps : Nat} {l l' : List (Entry (List Nat))}
    (h : QuantHeader numComps (l ++ l')) : QuantHeader numComps l :=
  ⟨(pairwise_append.mp h.single).1, fun e he => h.wellFormed e (mem_append_left _ he)⟩

/-- No component has been set in this kind of header. -/
structure Fresh (fromTileHeader : Bool) (tcp : TileCodingParams) : Prop where
  fromTileHeader_eq : ∀ i < tcp.numComps, (tcp.tccps i).fromTileHeader = false
  unset : fromTileHeader = false → ∀ i < tcp.numComps,
    (tcp.tccps i).quantizationMarkerSet = false ∧ (tcp.tccps i).fromQCC = false

structure SameFlags (tccp base : TileComponentCodingParams) : Prop where
  set_eq : tccp.quantizationMarkerSet = base.quantizationMarkerSet
  fromQCC_eq : tccp.fromQCC = base.fromQCC
  fromTileHeader_eq : tccp.fromTileHeader = base.fromTileHeader

/-- The components after some markers of a header. A QCD marker that comes after the QCC marker of
the first component gives the values of that marker to the others. -/
structure Quantized (fromTileHeader : Bool) (base tcp : TileCodingParams)
    (l : List (Entry (List Nat))) : Prop where
  numComps_eq : tcp.numComps = base.numComps
  own : ∀ i < base.numComps, ∀ q, ownOf i l = some q → (tcp.tccps i).SetBy fromTileHeader true q
  first : ownOf 0 l = none → ∀ d, defaultOf l = some d →
    (tcp.tccps 0).SetBy fromTileHeader false d
  flags : ∀ i < base.numComps, 0 < i ∨ defaultOf l = none → ownOf i l = none →
    SameFlags (tcp.tccps i) (base.tccps i)
  untouched : ∀ i < base.numComps, ownOf i l = none → defaultOf l = none →
    tcp.tccps i = base.tccps i
  other : ∀ i < base.numComps, 0 < i → ownOf i l = none → ∀ d, defaultOf l = some d →
    (∀ q, Before l 0 q d → (tcp.tccps i).Holds q) ∧
    ((¬∃ q, Before l 0 q d) → (tcp.tccps i).Holds d)

variable {fromTileHeader : Bool} {base tcp tcp' : TileCodingParams} {l : List (Entry (List Nat))}
  {body : List Nat} {i : Nat}

theorem readQcc_eq (hn : tcp.numComps ≤ 65536) (hi : i < tcp.numComps) (h : WellFormed body)
    (hcounts : (tcp.tccps i).ignores fromTileHeader true = false) :
    ∃ tccp, tcp.readQcc fromTileHeader (beBytes (compRoom tcp.numComps) i ++ body) =
        some (tcp.setTccp i tccp) ∧ tccp.SetBy fromTileHeader true body := by
  obtain ⟨tccp, hread, hset⟩ := readSQcdSQcc_eq h hcounts
  refine ⟨tccp, ?_, hset⟩
  have hlen : ¬(beBytes (compRoom tcp.numComps) i ++ body).length < compRoom tcp.numComps := by
    simp
  unfold readQcc
  simp only [if_neg hlen, compNo_eq hn hi, if_neg (Nat.not_le.mpr hi),
    drop_left' (length_beBytes _ _), hread, bind_eq_bind, bind_some, ne_eq,
    not_true_eq_false, if_false]

/-- The other components after a QCD marker. -/
def afterQcd (tcp : TileCodingParams) (src : TileComponentCodingParams) (i : Nat) :
    TileComponentCodingParams :=
  if i = 0 then src
  else if i < tcp.numComps then (tcp.tccps i).copyQuantization src else tcp.tccps i

theorem readQcd_eq (h : WellFormed body)
    (hcounts : (tcp.tccps 0).ignores fromTileHeader false = false) :
    ∃ tcp' src, tcp.readQcd fromTileHeader body = some tcp' ∧ tcp'.numComps = tcp.numComps ∧
      tcp'.tccps = tcp.afterQcd src ∧ src.SetBy fromTileHeader false body := by
  obtain ⟨src, hread, hset⟩ := readSQcdSQcc_eq h hcounts
  unfold readQcd
  simp only [hread, bind_eq_bind, bind_some, ne_eq, not_true_eq_false, if_false]
  exact ⟨_, src, rfl, rfl, rfl, hset⟩

/-- A marker that does not count is passed over if its length is that of the one that does. -/
theorem readQcd_ignored (h : WellFormed body)
    (hignored : (tcp.tccps 0).ignores fromTileHeader false = true) :
    Accepts (tcp.readQcd fromTileHeader body)
      (body.tail.length = stepWidth (style body) * (tcp.tccps 0).numStepSizes)
      fun tcp' => tcp'.numComps = tcp.numComps ∧ tcp'.tccps = tcp.afterQcd (tcp.tccps 0) := by
  obtain ⟨sqcx, rest, rfl, _, hstyle, _⟩ := h.exists_cons
  have hle := h.style_le
  simp only [readQcd, readSQcdSQcc, hignored, hstyle, if_true, tail_cons]
  by_cases hshort : rest.length < stepWidth (style (sqcx :: rest)) * (tcp.tccps 0).numStepSizes
  · rw [if_pos (Or.inr hshort)]
    exact ⟨iff_of_false (fun h => nomatch h) (by omega), fun h => nomatch h⟩
  · rw [if_neg (by omega), bind_eq_bind, bind_some]
    by_cases hlen : rest.length = stepWidth (style (sqcx :: rest)) * (tcp.tccps 0).numStepSizes
    · refine .intro (if_neg (not_not.mpr (drop_eq_nil_iff.mpr hlen.le))) hlen ⟨rfl, rfl⟩
    · have hrest : rest.drop (stepWidth (style (sqcx :: rest)) * (tcp.tccps 0).numStepSizes) ≠ [] :=
        fun hnil => hlen (by have := drop_eq_nil_iff.mp hnil; omega)
      rw [if_pos hrest]
      exact ⟨iff_of_false (fun h => nomatch h) hlen, fun h => nomatch h⟩

end TileCodingParams

namespace TileComponentCodingParams

open QuantBody TileCodingParams

variable {tccp src base : TileComponentCodingParams} {body : List Nat} {fromTileHeader : Bool}

theorem ignores_of_unset {fromQCC : Bool} (htile : tccp.fromTileHeader = false)
    (hset : fromTileHeader = false → tccp.quantizationMarkerSet = false) :
    tccp.ignores fromTileHeader fromQCC = false := by
  cases fromTileHeader with
  | false => rw [ignores, hset rfl, Bool.false_and]
  | true => simp [ignores, htile]

theorem ignores_qcc (h : tccp.fromQCC = false) : tccp.ignores fromTileHeader true = false := by
  simp [ignores, h]

theorem SetBy.ignores_qcd (h : tccp.SetBy fromTileHeader true body) :
    tccp.ignores fromTileHeader false = true := by
  have hset := h.set_eq
  have hqcc := h.fromQCC_eq
  have htile := h.fromTileHeader_eq
  cases fromTileHeader with
  | false => simp [ignores, hset, hqcc, htile]
  | true => simp [ignores, hset, hqcc, htile]

theorem SetBy.copyQuantization_eq (h : tccp.SetBy fromTileHeader true body)
    (hsrc : src.fromTileHeader = fromTileHeader) : tccp.copyQuantization src = tccp := by
  rw [copyQuantization, h.fromQCC_eq, h.fromTileHeader_eq, hsrc]
  cases fromTileHeader with
  | false => rfl
  | true => rfl

theorem stepCount_le (h : WellFormed body) : stepCount body ≤ maxBands := by
  rw [stepCount]
  split
  · exact Nat.le_refl _
  · exact h.entries_le

theorem copyQuantization_holds (htile : tccp.fromTileHeader = false)
    (hqcc : fromTileHeader = false → tccp.fromQCC = false)
    (hsrc : src.fromTileHeader = fromTileHeader) (h : src.Holds body) (hbody : WellFormed body) :
    (tccp.copyQuantization src).Holds body ∧ SameFlags (tccp.copyQuantization src) tccp := by
  have hcopy : ¬(tccp.fromQCC && (!src.fromTileHeader || tccp.fromTileHeader)) = true := by
    cases fromTileHeader with
    | false => simp [hqcc rfl]
    | true => simp [hsrc, htile]
  rw [copyQuantization, if_neg hcopy]
  refine ⟨⟨h.qntsty_eq, h.numgbits_eq, ?_⟩, rfl, rfl, rfl⟩
  intro band hband
  exact (if_pos (hband.trans_le (stepCount_le hbody))).trans (h.stepsizes_eq band hband)

end TileComponentCodingParams

namespace TileCodingParams

open QuantBody

variable {fromTileHeader : Bool} {base tcp tcp' : TileCodingParams} {l : List (Entry (List Nat))}
  {b : List Nat} {j : Nat}

theorem QuantHeader.ownOf_eq_none {n : Nat} (h : QuantHeader n (l ++ [.own j b])) :
    ownOf j l = none :=
  Scoping.ownOf_eq_none.mpr fun _ hc => (single_concat.mp h.single).2 _ hc rfl

theorem QuantHeader.defaultOf_eq_none {n : Nat} (h : QuantHeader n (l ++ [.default b])) :
    defaultOf l = none :=
  Scoping.defaultOf_eq_none.mpr fun _ hc => (single_concat.mp h.single).2 _ hc rfl

theorem SameFlags.ignores_eq {tccp : TileComponentCodingParams} {fromQCC : Bool}
    (hfresh : Fresh fromTileHeader base) (hj : j < base.numComps)
    (h : SameFlags tccp (base.tccps j)) : tccp.ignores fromTileHeader fromQCC = false := by
  apply ignores_of_unset
  · rw [h.fromTileHeader_eq]
    exact hfresh.fromTileHeader_eq j hj
  · intro hmain
    rw [h.set_eq]
    exact (hfresh.unset hmain j hj).1

variable (hq : Quantized fromTileHeader base tcp l)

include hq

theorem Quantized.qcc (hfresh : Fresh fromTileHeader base)
    (hn : base.numComps ≤ 65536) (hh : QuantHeader base.numComps (l ++ [.own j b])) :
    Accepts (readQuantMarker fromTileHeader tcp (.own j b)) True
      (Quantized fromTileHeader base · (l ++ [.own j b])) := by
  obtain ⟨hj, hb⟩ := hh.wellFormed (.own j b) (by simp)
  have hnone := hh.ownOf_eq_none
  have hcounts : (tcp.tccps j).ignores fromTileHeader true = false := by
    cases hdef : defaultOf l with
    | none => exact (hq.flags j hj (Or.inr hdef) hnone).ignores_eq hfresh hj
    | some d =>
      rcases Nat.eq_zero_or_pos j with rfl | hpos
      · exact ignores_qcc (hq.first hnone d hdef).fromQCC_eq
      · exact (hq.flags j hj (Or.inl hpos) hnone).ignores_eq hfresh hj
  have hnum := hq.numComps_eq
  obtain ⟨tccp, hread, hset⟩ := readQcc_eq (hnum ▸ hn) (hnum ▸ hj) hb hcounts
  have hself : (tcp.setTccp j tccp).tccps j = tccp := update_self _ _ _
  have hne : ∀ {i}, ownOf i (l ++ [.own j b]) = none →
      ownOf i l = none ∧ (tcp.setTccp j tccp).tccps i = tcp.tccps i := by
    intro i hi
    rw [ownOf_concat, or_eq_none_iff] at hi
    have hij : i ≠ j := by
      rintro rfl
      exact nomatch (Entry.own?_self i b).symm.trans hi.2
    exact ⟨hi.1, update_of_ne hij _ _⟩
  have hdefault : defaultOf (l ++ [.own j b]) = defaultOf l := by
    rw [defaultOf_concat]
    exact or_none
  refine .intro hread trivial ⟨hnum, ?_, ?_, ?_, ?_, ?_⟩
  · intro i hi q hown
    by_cases hij : i = j
    · subst hij
      rw [ownOf_concat, hnone, none_or, Entry.own?_self, some_inj] at hown
      subst hown
      rw [hself]
      exact hset
    · have hij' : (Entry.own j b).own? i = none := if_neg (Ne.symm hij)
      rw [ownOf_concat, hij', or_none] at hown
      rw [show (tcp.setTccp j tccp).tccps i = tcp.tccps i from update_of_ne hij _ _]
      exact hq.own i hi q hown
  · intro hown d hd
    rw [hdefault] at hd
    rw [(hne hown).2]
    exact hq.first (hne hown).1 d hd
  · intro i hi hpos hown
    rw [hdefault] at hpos
    rw [(hne hown).2]
    exact hq.flags i hi hpos (hne hown).1
  · intro i hi hown hd
    rw [hdefault] at hd
    rw [(hne hown).2]
    exact hq.untouched i hi (hne hown).1 hd
  · intro i hi hpos hown d hd
    rw [hdefault] at hd
    simp only [before_concat_own]
    rw [(hne hown).2]
    exact hq.other i hi hpos (hne hown).1 d hd

/-- After a QCD marker the other components have what the first one has, which is `e`. -/
theorem Quantized.afterQcd {src : TileComponentCodingParams} {d e : List Nat}
    (hfresh : Fresh fromTileHeader base) (hsingle : Single l) (hdef : defaultOf l = none)
    (hnum : tcp'.numComps = tcp.numComps)
    (htccps : tcp'.tccps = tcp.afterQcd src) (hsrc : src.fromTileHeader = fromTileHeader)
    (he : src.Holds e) (hwf : WellFormed e)
    (hfirst : ownOf 0 l = none ∧ src.SetBy fromTileHeader false d ∧ e = d ∨
      ownOf 0 l = some e ∧ src = tcp.tccps 0) :
    Quantized fromTileHeader base tcp' (l ++ [.default d]) := by
  have hown : ∀ i, ownOf i (l ++ [.default d]) = ownOf i l := fun i => by
    rw [ownOf_concat]
    exact or_none
  have hdefault : defaultOf (l ++ [.default d]) = some d := by
    rw [defaultOf_concat, hdef]
    rfl
  have hzero : tcp'.tccps 0 = src := by rw [htccps]; rfl
  have hpos : ∀ {i}, i < base.numComps → 0 < i →
      tcp'.tccps i = (tcp.tccps i).copyQuantization src := by
    intro i hi hpos
    rw [htccps, TileCodingParams.afterQcd, if_neg (Nat.pos_iff_ne_zero.mp hpos),
      if_pos (hq.numComps_eq ▸ hi)]
  have hcopy : ∀ {i}, i < base.numComps → ownOf i l = none →
      ((tcp.tccps i).copyQuantization src).Holds e ∧
        SameFlags ((tcp.tccps i).copyQuantization src) (tcp.tccps i) := by
    intro i hi hnone
    have hflags := hq.flags i hi (Or.inr hdef) hnone
    refine copyQuantization_holds (hflags.fromTileHeader_eq.trans (hfresh.fromTileHeader_eq i hi))
      ?_ hsrc he hwf
    intro hmain
    exact hflags.fromQCC_eq.trans (hfresh.unset hmain i hi).2
  refine ⟨hnum.trans hq.numComps_eq, ?_, ?_, ?_, ?_, ?_⟩
  · intro i hi q hi'
    rw [hown] at hi'
    have hset := hq.own i hi q hi'
    rcases Nat.eq_zero_or_pos i with rfl | hi0
    · rcases hfirst with ⟨hnone, _⟩ | ⟨_, hsame⟩
      · exact nomatch hnone.symm.trans hi'
      · rw [hzero, hsame]
        exact hset
    · rw [hpos hi hi0, hset.copyQuantization_eq hsrc]
      exact hset
  · intro hnone d' hd'
    rw [hown] at hnone
    rw [hdefault, some_inj] at hd'
    subst hd'
    rcases hfirst with ⟨_, hset, _⟩ | ⟨hsome, _⟩
    · rw [hzero]
      exact hset
    · exact nomatch hnone.symm.trans hsome
  · intro i hi hi0 hnone
    rw [hown] at hnone
    rw [hdefault] at hi0
    have hi0 : 0 < i := hi0.resolve_right (fun h => nomatch h)
    have hflags := hq.flags i hi (Or.inr hdef) hnone
    have hnew := (hcopy hi hnone).2
    rw [hpos hi hi0]
    exact ⟨hnew.set_eq.trans hflags.set_eq, hnew.fromQCC_eq.trans hflags.fromQCC_eq,
      hnew.fromTileHeader_eq.trans hflags.fromTileHeader_eq⟩
  · intro i hi _ hnone
    exact nomatch hnone.symm.trans hdefault
  · intro i hi hi0 hnone d' hd'
    rw [hown] at hnone
    rw [hdefault, some_inj] at hd'
    subst hd'
    have hbefore : ∀ q, Before (l ++ [.default d]) 0 q d ↔ .own 0 q ∈ l := by
      intro q
      rw [before_concat_default]
      constructor
      · rintro (⟨pre, post, rfl, _⟩ | ⟨_, hmem⟩)
        · exact absurd (by simp) (Scoping.defaultOf_eq_none.mp hdef d)
        · exact hmem
      · exact fun hmem => Or.inr ⟨rfl, hmem⟩
    simp only [hbefore]
    rw [hpos hi hi0]
    rcases hfirst with ⟨hno, _, rfl⟩ | ⟨hsome, _⟩
    · exact ⟨fun q hmem => absurd hmem (Scoping.ownOf_eq_none.mp hno q), fun _ => (hcopy hi hnone).1⟩
    · refine ⟨?_, fun hno => absurd ⟨e, mem_of_ownOf hsome⟩ hno⟩
      intro q hmem
      obtain rfl : q = e := Option.some.inj ((ownOf_of_mem hsingle hmem).symm.trans hsome)
      exact (hcopy hi hnone).1

/-- A QCD marker is accepted unless it comes after the QCC marker of the first component and has
another length. -/
theorem Quantized.qcd {d : List Nat} (hfresh : Fresh fromTileHeader base) (hpos : 0 < base.numComps)
    (hh : QuantHeader base.numComps (l ++ [.default d])) :
    Accepts (readQuantMarker fromTileHeader tcp (.default d)) (∀ q, ownOf 0 l = some q → Fits q d)
      (Quantized fromTileHeader base · (l ++ [.default d])) := by
  have hd := hh.wellFormed (.default d) (by simp)
  have hdef := hh.defaultOf_eq_none
  have hsingle := hh.left.single
  cases hown : ownOf 0 l with
  | none =>
    have hcounts : (tcp.tccps 0).ignores fromTileHeader false = false :=
      (hq.flags 0 hpos (Or.inr hdef) hown).ignores_eq hfresh hpos
    obtain ⟨tcp', src, hread, hnum, htccps, hset⟩ := readQcd_eq hd hcounts
    refine .intro hread (fun _ h => nomatch h) ?_
    exact hq.afterQcd hfresh hsingle hdef hnum htccps hset.fromTileHeader_eq hset.holds hd
      (Or.inl ⟨hown, hset, rfl⟩)
  | some q =>
    have hset := hq.own 0 hpos q hown
    have hwf : WellFormed q := (hh.left.wellFormed _ (mem_of_ownOf hown)).2
    have haccepts := readQcd_ignored hd hset.ignores_qcd
    rw [hset.numStepSizes_eq] at haccepts
    refine ⟨haccepts.iff.trans ⟨?_, fun h => h q rfl⟩, fun h => ?_⟩
    · rintro hfits _ ⟨⟩
      exact hfits
    · obtain ⟨hnum, htccps⟩ := haccepts.spec h
      exact hq.afterQcd hfresh hsingle hdef hnum htccps hset.fromTileHeader_eq hset.holds hwf
        (Or.inr ⟨hown, rfl⟩)

omit hq

/-- The markers of a header are accepted if and only if a QCD marker after the QCC marker of the
first component has the same length. -/
theorem readQuantMarkers_spec (hfresh : Fresh fromTileHeader base) (hpos : 0 < base.numComps)
    (hn : base.numComps ≤ 65536) (hh : QuantHeader base.numComps l) :
    Accepts (readQuantMarkers fromTileHeader l base) (∀ q d, Before l 0 q d → Fits q d)
      (Quantized fromTileHeader base · l) := by
  induction l using reverseRecOn with
  | nil =>
    refine .intro rfl (fun _ _ h => absurd h not_before_nil) ⟨rfl, ?_, ?_, ?_, ?_, ?_⟩
    · exact fun _ _ _ h => nomatch h
    · exact fun _ _ h => nomatch h
    · exact fun _ _ _ _ => ⟨rfl, rfl, rfl⟩
    · exact fun _ _ _ _ => rfl
    · exact fun _ _ _ _ _ h => nomatch h
  | append_singleton l e ih =>
    rw [readQuantMarkers, foldlM_concat]
    cases e with
    | own j b =>
      simp only [before_concat_own]
      exact ((ih hh.left).bind fun tcp hq => hq.qcc hfresh hn hh).congr (and_iff_left trivial)
    | default b =>
      refine ((ih hh.left).bind fun tcp hq => hq.qcd hfresh hpos hh).congr ?_
      simp only [before_concat_default]
      constructor
      · rintro ⟨hold, hlast⟩ q d (hbefore | ⟨rfl, hmem⟩)
        · exact hold q d hbefore
        · exact hlast q (ownOf_of_mem hh.left.single hmem)
      · exact fun h => ⟨fun q d hbefore => h q d (Or.inl hbefore),
          fun q hown => h q b (Or.inr ⟨rfl, mem_of_ownOf hown⟩)⟩

theorem Quantized.fresh_copy (h : Quantized false base tcp l) (hfresh : Fresh false base) :
    Fresh true tcp.copy := by
  refine ⟨?_, fun h => nomatch h⟩
  intro i hi
  replace hi : i < base.numComps := h.numComps_eq ▸ hi
  show (tcp.tccps i).fromTileHeader = false
  cases hown : ownOf i l with
  | some q => exact (h.own i hi q hown).fromTileHeader_eq
  | none =>
    by_cases hflags : 0 < i ∨ defaultOf l = none
    · exact (h.flags i hi hflags hown).fromTileHeader_eq.trans (hfresh.fromTileHeader_eq i hi)
    · obtain ⟨hzero, hdef⟩ := not_or.mp hflags
      obtain rfl : i = 0 := Nat.eq_zero_of_not_pos hzero
      obtain ⟨d, hd⟩ := ne_none_iff_exists'.mp hdef
      exact (h.first hown d hd).fromTileHeader_eq

end TileCodingParams

namespace QuantBody

theorem stepCount_eq {q d : List Nat} (hd : WellFormed d) (hfits : Fits q d)
    (hstyle : style q = style d) : stepCount q = stepCount d := by
  have hentries : entries q = entries d :=
    Nat.eq_of_mul_eq_mul_left (stepWidth_pos (style d)) (hfits.symm.trans hd.length_eq)
  rw [stepCount, stepCount, hstyle, hentries]

/-- A component with the values of one marker has those of another of the same length if and only if
they say the same. -/
theorem holds_iff_same {tccp : TileComponentCodingParams} {q d : List Nat} (hd : WellFormed d)
    (hfits : Fits q d) (h : tccp.Holds q) : tccp.Holds d ↔ Same q d := by
  constructor
  · intro h'
    have hstyle := h.qntsty_eq.symm.trans h'.qntsty_eq
    refine ⟨hstyle, h.numgbits_eq.symm.trans h'.numgbits_eq, ?_⟩
    intro band hband
    have hband' : band < stepCount q := by rwa [stepCount_eq hd hfits hstyle]
    exact (h.stepsizes_eq band hband').symm.trans (h'.stepsizes_eq band hband)
  · intro hsame
    refine ⟨h.qntsty_eq.trans hsame.style_eq, h.numgbits_eq.trans hsame.guardBits_eq, ?_⟩
    intro band hband
    have hband' : band < stepCount q := by rwa [stepCount_eq hd hfits hsame.style_eq]
    exact (h.stepsizes_eq band hband').trans (hsame.step_eq band hband)

end QuantBody

namespace TileCodingParams

open QuantBody

variable {fromTileHeader : Bool} {base tcp : TileCodingParams} {l : List (Entry (List Nat))}

/-- A component has what the header says for it, unless it is another one than the first and takes
the default from it too late. -/
theorem Quantized.holds_iff (h : Quantized fromTileHeader base tcp l)
    (hh : QuantHeader base.numComps l) (hfits : ∀ q d, Before l 0 q d → Fits q d) {i : Nat}
    (hi : i < base.numComps) {body : List Nat}
    (hbody : (ownOf i l).or (defaultOf l) = some body) :
    (tcp.tccps i).Holds body ↔
      (0 < i → ownOf i l = none → ∀ q, Before l 0 q body → Same q body) := by
  cases hown : ownOf i l with
  | some q =>
    rw [hown, some_or, some_inj] at hbody
    subst hbody
    exact iff_of_true (h.own i hi q hown).holds fun _ hnone => nomatch hnone
  | none =>
    rw [hown, none_or] at hbody
    rcases Nat.eq_zero_or_pos i with rfl | hpos
    · exact iff_of_true (h.first hown body hbody).holds fun h => absurd h (Nat.lt_irrefl 0)
    · obtain ⟨hlate, hearly⟩ := h.other i hi hpos hown body hbody
      by_cases hbefore : ∃ q, Before l 0 q body
      · obtain ⟨q, hq⟩ := hbefore
        have hd := hh.wellFormed _ (mem_of_defaultOf hbody)
        rw [holds_iff_same hd (hfits q body hq) (hlate q hq)]
        constructor
        · intro hsame _ _ q' hq'
          obtain rfl : q' = q :=
            Option.some.inj ((hq'.ownOf_eq hh.single).symm.trans (hq.ownOf_eq hh.single))
          exact hsame
        · exact fun h => h hpos rfl q hq
      · exact iff_of_true (hearly hbefore) fun _ _ q hq => absurd ⟨q, hq⟩ hbefore

/-- The markers of the main header and then those of a tile are accepted, and each component has the
quantization of the marker of highest precedence. -/
def ScopesQuantization (numComps : Nat) (main tile : List (Entry (List Nat))) : Prop :=
  ∃ tcp tcp', readQuantMarkers false main { numComps } = some tcp ∧
    readQuantMarkers true tile tcp.copy = some tcp' ∧
    ∀ i < numComps, ∀ body, governing main tile i = some body → (tcp'.tccps i).Holds body

/-- **QCD and QCC markers have the scope they should have, if and only if a QCD marker after the QCC
marker of the first component has its length, and says the same where it governs another
component.** -/
theorem scopesQuantization_iff (numComps : Nat) (hpos : 0 < numComps) (hn : numComps ≤ 65535)
    (main tile : List (Entry (List Nat))) (hmain : QuantHeader numComps main)
    (htile : QuantHeader numComps tile) :
    ScopesQuantization numComps main tile ↔
      (∀ q d, Before main 0 q d → Fits q d ∧
        ∀ i < numComps, 0 < i → ownOf i main = none → ownOf i tile = none →
          defaultOf tile = none → Same q d) ∧
      ∀ q d, Before tile 0 q d → Fits q d ∧
        ∀ i < numComps, 0 < i → ownOf i tile = none → Same q d := by
  have hfresh : Fresh false { numComps } := ⟨fun _ _ => rfl, fun _ _ _ => ⟨rfl, rfl⟩⟩
  have hmainSpec := readQuantMarkers_spec hfresh hpos (le_succ_of_le hn) hmain
  -- the tile's markers start from what the main header left
  have htileSpec : ∀ {tcp}, Quantized false { numComps } tcp main →
      Accepts (readQuantMarkers true tile tcp.copy) (∀ q d, Before tile 0 q d → Fits q d)
        (Quantized true tcp.copy · tile) := by
    intro tcp hq
    have hnum : tcp.copy.numComps = numComps := hq.numComps_eq
    exact readQuantMarkers_spec (hq.fresh_copy hfresh) (by omega) (by omega) (hnum ▸ htile)
  constructor
  · rintro ⟨tcp, tcp', hreadMain, hreadTile, hgoverns⟩
    have hfitsMain := hmainSpec.iff.mp ⟨tcp, hreadMain⟩
    have hq := hmainSpec.spec hreadMain
    have hnum := hq.numComps_eq
    have hfitsTile := (htileSpec hq).iff.mp ⟨tcp', hreadTile⟩
    have hq' := (htileSpec hq).spec hreadTile
    refine ⟨fun q d hbefore => ⟨hfitsMain q d hbefore, ?_⟩,
      fun q d hbefore => ⟨hfitsTile q d hbefore, ?_⟩⟩
    · intro i hi hi0 hownMain hownTile hdefTile
      have hdef := hbefore.defaultOf_eq hmain.single
      have hholds := hgoverns i hi d (by rw [governing, hownTile, hdefTile, hownMain, hdef]; rfl)
      rw [hq'.untouched i (hnum ▸ hi) hownTile hdefTile] at hholds
      exact (hq.holds_iff hmain hfitsMain hi (by rw [hownMain, hdef]; rfl)).mp hholds hi0 hownMain q
        hbefore
    · intro i hi hi0 hownTile
      have hdef := hbefore.defaultOf_eq htile.single
      have hholds := hgoverns i hi d (by rw [governing, hownTile, hdef]; rfl)
      exact (hq'.holds_iff (hnum ▸ htile) hfitsTile (hnum ▸ hi) (by rw [hownTile, hdef]; rfl)).mp
        hholds hi0 hownTile q hbefore
  · rintro ⟨hcondMain, hcondTile⟩
    have hfitsMain := fun q d h => (hcondMain q d h).1
    have hfitsTile := fun q d h => (hcondTile q d h).1
    obtain ⟨tcp, hreadMain, hq⟩ := hmainSpec.exists hfitsMain
    have hnum := hq.numComps_eq
    obtain ⟨tcp', hreadTile, hq'⟩ := (htileSpec hq).exists hfitsTile
    refine ⟨tcp, tcp', hreadMain, hreadTile, ?_⟩
    intro i hi body hbody
    rw [governing, ← Option.or_assoc] at hbody
    cases hcover : (ownOf i tile).or (defaultOf tile) with
    | some b =>
      rw [hcover, some_or, some_inj] at hbody
      subst hbody
      apply (hq'.holds_iff (hnum ▸ htile) hfitsTile (hnum ▸ hi) hcover).mpr
      exact fun hi0 hown q hbefore => (hcondTile q b hbefore).2 i hi hi0 hown
    | none =>
      obtain ⟨hownTile, hdefTile⟩ := or_eq_none_iff.mp hcover
      rw [hcover, none_or] at hbody
      rw [hq'.untouched i (hnum ▸ hi) hownTile hdefTile]
      apply (hq.holds_iff hmain hfitsMain hi hbody).mpr
      exact fun hi0 hown q hbefore =>
        (hcondMain q body hbefore).2 i hi hi0 hown hownTile hdefTile

/-- A QCD marker before the QCC marker of the first component, and another QCC marker in the tile. -/
theorem scopesQuantization_iff_two :
    ScopesQuantization 2 [.default [0x40, 0x48], .own 0 [0x42, 0x81, 0x02, 0x40, 0x03]]
      [.own 1 [0x21, 0x77, 0x01]] := by
  have hwf : WellFormed [0x40, 0x48] ∧ WellFormed [0x42, 0x81, 0x02, 0x40, 0x03] ∧
      WellFormed [0x21, 0x77, 0x01] := by
    refine ⟨?_, ?_, ?_⟩ <;> constructor <;> decide
  have hmain : QuantHeader 2
      [.default [0x40, 0x48], .own 0 [0x42, 0x81, 0x02, 0x40, 0x03]] := by
    refine ⟨by simp [Single, Entry.scope], ?_⟩
    intro e he
    rcases mem_cons.mp he with rfl | he
    · exact hwf.1
    · cases mem_singleton.mp he
      exact ⟨by decide, hwf.2.1⟩
  have htile : QuantHeader 2 [.own 1 [0x21, 0x77, 0x01]] := by
    refine ⟨pairwise_singleton _ _, ?_⟩
    intro e he
    cases mem_singleton.mp he
    exact ⟨by decide, hwf.2.2⟩
  apply (scopesQuantization_iff 2 (by decide) (by decide) _ _ hmain htile).mpr
  constructor
  · intro q d hbefore
    replace hbefore : Before (([] ++ [.default [0x40, 0x48]]) ++
      [.own 0 [0x42, 0x81, 0x02, 0x40, 0x03]]) 0 q d := hbefore
    rcases before_concat_default.mp (before_concat_own.mp hbefore) with h | h
    · exact absurd h not_before_nil
    · cases h.2
  · intro q d hbefore
    replace hbefore : Before ([] ++ [.own 1 [0x21, 0x77, 0x01]]) 0 q d := hbefore
    exact absurd (before_concat_own.mp hbefore) not_before_nil

/-- The QCC marker of the first component, and then a QCD marker: the second component has the
exponent of the QCC marker. -/
theorem not_scopesQuantization_two :
    ¬ScopesQuantization 2 [.own 0 [0x40, 0x40], .default [0x40, 0x48]] [] := by
  rintro ⟨tcp, tcp', hmain, htile, hgoverns⟩
  have hrun : ((readQuantMarkers false [.own 0 [0x40, 0x40], .default [0x40, 0x48]]
      { numComps := 2 }).bind fun tcp => readQuantMarkers true [] tcp.copy).map
        (fun tcp => (tcp.tccps 1).stepsizes 0) = some ⟨8, 0⟩ := by
    decide
  rw [hmain, bind_some, htile, map_some, some_inj] at hrun
  have hstep := (hgoverns 1 (by decide) [0x40, 0x48] rfl).stepsizes_eq 0 (by decide)
  exact absurd (hrun.symm.trans hstep) (by decide)

end TileCodingParams

end GrokCodec.Codestream
