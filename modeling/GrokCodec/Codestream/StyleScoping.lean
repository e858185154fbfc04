import GrokCodec.Codestream.TileCodingParams
import GrokCodec.Lib.Scoping

/-!
The scope of COD and COC markers: what the components have after the main header and after the
header of a tile.
-/

namespace GrokCodec.Codestream

open ByteStream Scoping TileComponentCodingParams List Nat
open Option (bind_eq_some_iff bind_some some)

/-- The coding style of a component in a COD or COC segment: the style byte and then the parameters
from the number of levels on. -/
structure StyleBody where
  csty : Nat
  levels : Nat
  cblkw : Nat
  cblkh : Nat
  cblkStyle : Nat
  transform : Nat
  precincts : List Nat
  deriving DecidableEq

namespace StyleBody

/-- The parameters of a segment after its style byte. -/
def bytes (b : StyleBody) : List Nat :=
  b.levels :: b.cblkw :: b.cblkh :: b.cblkStyle :: b.transform :: b.precincts

/-- The segment takes its number of levels from elsewhere. -/
def HasDfs (b : StyleBody) : Prop := b.levels &&& dfsReferenceFlag ≠ 0

def precWidth (b : StyleBody) (r : Nat) : Nat :=
  if b.csty % 2 = 1 then b.precincts.getD r 0 % 16 else 15

def precHeight (b : StyleBody) (r : Nat) : Nat :=
  if b.csty % 2 = 1 then b.precincts.getD r 0 / 16 else 15

/-- The segment says for a component what a COD segment says. -/
structure Same (b cod : StyleBody) : Prop where
  levels_eq : ¬b.HasDfs → b.levels = cod.levels
  cblkw_eq : b.cblkw = cod.cblkw
  cblkh_eq : b.cblkh = cod.cblkh
  cblkStyle_eq : b.cblkStyle = cod.cblkStyle
  transform_eq : b.transform = cod.transform
  precWidth_eq : ∀ r < cod.levels + 1, b.precWidth r = cod.precWidth r
  precHeight_eq : ∀ r < cod.levels + 1, b.precHeight r = cod.precHeight r

/-- A Part 1 segment for a decompressor that leaves out `reduce` resolutions. -/
structure WellFormed (reduce : Nat) (b : StyleBody) : Prop where
  levels_le : b.levels ≤ maxDecompLvls
  reduce_le : reduce ≤ b.levels
  cblk_le : b.cblkw + b.cblkh ≤ 8
  cblkStyle_ok : cblkStyleOk b.cblkStyle = true
  precincts_length : b.precincts.length = if b.csty % 2 = 1 then b.levels + 1 else 0
  precincts_ok : b.csty % 2 = 1 → ∀ r < b.levels + 1, precinctOk r (b.precincts.getD r 0) = true

end StyleBody

/-- The coding style of a component is that of a marker. -/
structure TileComponentCodingParams.HasStyle (tccp : TileComponentCodingParams) (b : StyleBody) :
    Prop where
  numresolutions_eq : ¬b.HasDfs → tccp.numresolutions = b.levels + 1
  cblkwExpn_eq : tccp.cblkwExpn = b.cblkw + 2
  cblkhExpn_eq : tccp.cblkhExpn = b.cblkh + 2
  cblkStyle_eq : tccp.cblkStyle = b.cblkStyle
  qmfbid_eq : tccp.qmfbid = if b.transform ≤ 1 then b.transform else 0
  atkIndex_eq : tccp.atkIndex = if b.transform ≤ 1 then 0 else b.transform
  precWidthExp_eq : ∀ r < tccp.numresolutions, tccp.precWidthExp r = b.precWidth r
  precHeightExp_eq : ∀ r < tccp.numresolutions, tccp.precHeightExp r = b.precHeight r

namespace TileComponentCodingParams

variable {tccp tccp' : TileComponentCodingParams} {b : StyleBody} {dec : DecompressorParams}
  {fromCoc : Bool} {rest : List Nat}

theorem precinctFlag {csty csty' : Nat} (h : csty % 2 = csty' % 2) :
    csty &&& 1 ≠ 0 ↔ csty' % 2 = 1 := by
  rw [show (1 : Nat) = 2 ^ 1 - 1 from rfl, and_two_pow_sub_one_eq_mod]
  omega

theorem readPrecincts_eq (hcsty : tccp.csty % 2 = b.csty % 2)
    (h : tccp.readPrecincts b.precincts = some (tccp', rest)) :
    (∀ r < tccp.numresolutions, tccp'.precWidthExp r = b.precWidth r) ∧
    (∀ r < tccp.numresolutions, tccp'.precHeightExp r = b.precHeight r) ∧
    tccp' = { tccp with
      precWidthExp := tccp'.precWidthExp, precHeightExp := tccp'.precHeightExp } := by
  have hflag := precinctFlag hcsty
  unfold readPrecincts at h
  unfold StyleBody.precWidth StyleBody.precHeight
  by_cases hcustom : tccp.csty &&& 1 ≠ 0
  · rw [if_pos hcustom] at h
    simp only [if_pos (hflag.mp hcustom)]
    split at h
    · exact nomatch h
    · cases h
      refine ⟨?_, ?_, rfl⟩
      · intro r hr
        exact (if_pos hr).trans (and_two_pow_sub_one_eq_mod _ 4)
      · intro r hr
        exact (if_pos hr).trans (shiftRight_eq_div_pow _ 4)
  · rw [if_neg hcustom] at h
    simp only [if_neg (fun h => hcustom (hflag.mpr h))]
    cases h
    exact ⟨fun r hr => if_pos hr, fun r hr => if_pos hr, rfl⟩

theorem readLevels_eq {levels : Nat} (h : tccp.readLevels fromCoc levels = some tccp') :
    (levels &&& dfsReferenceFlag = 0 → tccp'.numresolutions = levels + 1) ∧
    (fromCoc = false → levels &&& dfsReferenceFlag = 0) ∧ tccp'.csty = tccp.csty := by
  unfold readLevels at h
  by_cases hdfs : levels &&& dfsReferenceFlag ≠ 0
  · rw [if_pos hdfs] at h
    split at h
    · exact nomatch h
    · rename_i hcoc
      cases h
      refine ⟨fun h => absurd h hdfs, ?_, rfl⟩
      rintro rfl
      exact absurd (Or.inl rfl) hcoc
  · rw [if_neg hdfs] at h
    split at h
    · exact nomatch h
    · rename_i hle
      cases h
      have hmax : maxDecompLvls = 32 := rfl
      exact ⟨fun _ => mod_eq_of_lt (by omega), fun _ => not_not.mp hdfs, rfl⟩

/-- A segment that is read has passed its checks, up to the precincts. -/
theorem readSPCodSPCoc_inv (hcsty : tccp.csty % 2 = b.csty % 2)
    (h : tccp.readSPCodSPCoc dec fromCoc b.bytes = some (tccp', rest)) :
    ∃ tccp₁, tccp.readLevels fromCoc b.levels = some tccp₁ ∧ b.cblkw + b.cblkh ≤ 8 ∧
      cblkStyleOk b.cblkStyle = true ∧ ∃ tccp₂,
        tccp₂ = tccp₁.setCodeblocks b.cblkw b.cblkh b.cblkStyle b.transform ∧
        tccp₂.csty % 2 = b.csty % 2 ∧ tccp₂.readPrecincts b.precincts = some (tccp', rest) := by
  obtain ⟨tccp₁, hlevels, h⟩ := bind_eq_some_iff.mp h
  split at h
  · exact nomatch h
  · rename_i hok
    simp only [not_or, Nat.not_lt, Bool.not_eq_true, Bool.not_eq_false'] at hok
    refine ⟨tccp₁, hlevels, hok.2.2.2.1, hok.2.2.2.2, _, rfl, ?_, h⟩
    rw [← hcsty, ← (readLevels_eq hlevels).2.2]
    rfl

theorem readSPCodSPCoc_hasStyle (hcsty : tccp.csty % 2 = b.csty % 2)
    (h : tccp.readSPCodSPCoc dec fromCoc b.bytes = some (tccp', rest)) :
    tccp'.HasStyle b ∧ (fromCoc = false → ¬b.HasDfs) := by
  obtain ⟨tccp₁, hlevels, hcblk, _, _, rfl, hcsty₁, h⟩ := readSPCodSPCoc_inv hcsty h
  obtain ⟨hnum, hcod, _⟩ := readLevels_eq hlevels
  obtain ⟨hwidth, hheight, heq⟩ := readPrecincts_eq hcsty₁ h
  refine ⟨?_, fun hcoc hdfs => hdfs (hcod hcoc)⟩
  rw [heq]
  refine ⟨fun hdfs => hnum (not_not.mp hdfs), ?_, ?_, rfl, ?_, ?_, hwidth, hheight⟩
  · exact mod_eq_of_lt (by omega)
  · exact mod_eq_of_lt (by omega)
  · show (if b.transform > 1 then 0 else b.transform) = _
    split <;> split <;> omega
  · show (if b.transform > 1 then b.transform else 0) = _
    split <;> split <;> omega

theorem readSPCodSPCoc_checks (hcsty : tccp.csty % 2 = b.csty % 2)
    (h : tccp.readSPCodSPCoc dec fromCoc b.bytes = some (tccp', rest)) :
    b.cblkw + b.cblkh ≤ 8 ∧ cblkStyleOk b.cblkStyle = true ∧
      (b.csty % 2 = 1 → ∀ r < tccp'.numresolutions, precinctOk r (b.precincts.getD r 0) = true) ∧
      tccp'.quantizationMarkerSet = tccp.quantizationMarkerSet ∧ tccp'.fromQCC = tccp.fromQCC ∧
      tccp'.fromTileHeader = tccp.fromTileHeader := by
  obtain ⟨tccp₁, hlevels, hcblk, hstyle, _, rfl, hcsty₁, h⟩ := readSPCodSPCoc_inv hcsty h
  have hkept : tccp₁ = { tccp with
      numresolutions := tccp₁.numresolutions, dfsIndex := tccp₁.dfsIndex } := by
    unfold readLevels at hlevels
    repeat' split at hlevels
    all_goals cases hlevels
    all_goals rfl
  obtain ⟨_, _, heq⟩ := readPrecincts_eq hcsty₁ h
  refine ⟨hcblk, hstyle, ?_, ?_⟩
  · intro hodd r hr
    rw [heq] at hr
    unfold readPrecincts at h
    rw [if_pos ((precinctFlag hcsty₁).mpr hodd)] at h
    split at h
    · exact nomatch h
    · rename_i hprec
      rw [not_or, not_not, all_eq_true] at hprec
      exact hprec.2 r (mem_range.mpr hr)
  · rw [heq, hkept]
    exact ⟨rfl, rfl, rfl⟩

theorem HasStyle.copyCodingStyle {ref : TileComponentCodingParams} (h : ref.HasStyle b)
    (tccp : TileComponentCodingParams) : (tccp.copyCodingStyle ref).HasStyle b :=
  ⟨h.numresolutions_eq, h.cblkwExpn_eq, h.cblkhExpn_eq, h.cblkStyle_eq, h.qmfbid_eq, h.atkIndex_eq,
    fun r hr => (if_pos hr).trans (h.precWidthExp_eq r hr),
    fun r hr => (if_pos hr).trans (h.precHeightExp_eq r hr)⟩

theorem transform_eq_iff {s t : Nat} : s = t ↔
    (if s ≤ 1 then s else 0) = (if t ≤ 1 then t else 0) ∧
      (if s ≤ 1 then 0 else s) = if t ≤ 1 then 0 else t := by
  split <;> split <;> omega

/-- A component with the style of a COD marker has that of another if and only if they say the
same. -/
theorem HasStyle.iff_same {cod : StyleBody} (h : tccp.HasStyle cod) (hcod : ¬cod.HasDfs) :
    tccp.HasStyle b ↔ b.Same cod := by
  have hnum := h.numresolutions_eq hcod
  constructor
  · intro h'
    have htransform := transform_eq_iff.mpr
      ⟨h'.qmfbid_eq.symm.trans h.qmfbid_eq, h'.atkIndex_eq.symm.trans h.atkIndex_eq⟩
    refine ⟨?_, ?_, ?_, h'.cblkStyle_eq.symm.trans h.cblkStyle_eq, htransform, ?_, ?_⟩
    · intro hdfs
      have := h'.numresolutions_eq hdfs
      omega
    · exact Nat.add_right_cancel (h'.cblkwExpn_eq.symm.trans h.cblkwExpn_eq)
    · exact Nat.add_right_cancel (h'.cblkhExpn_eq.symm.trans h.cblkhExpn_eq)
    · intro r hr
      rw [← hnum] at hr
      exact (h'.precWidthExp_eq r hr).symm.trans (h.precWidthExp_eq r hr)
    · intro r hr
      rw [← hnum] at hr
      exact (h'.precHeightExp_eq r hr).symm.trans (h.precHeightExp_eq r hr)
  · intro hsame
    refine ⟨?_, ?_, ?_, ?_, ?_, ?_, ?_, ?_⟩
    · intro hdfs
      rw [hnum, hsame.levels_eq hdfs]
    · rw [h.cblkwExpn_eq, hsame.cblkw_eq]
    · rw [h.cblkhExpn_eq, hsame.cblkh_eq]
    · rw [h.cblkStyle_eq, hsame.cblkStyle_eq]
    · rw [h.qmfbid_eq, hsame.transform_eq]
    · rw [h.atkIndex_eq, hsame.transform_eq]
    · intro r hr
      rw [h.precWidthExp_eq r hr, hsame.precWidth_eq r (hnum ▸ hr)]
    · intro r hr
      rw [h.precHeightExp_eq r hr, hsame.precHeight_eq r (hnum ▸ hr)]

theorem levels_no_dfs {levels : Nat} (h : levels ≤ maxDecompLvls) :
    levels &&& dfsReferenceFlag = 0 := by
  have hall : ∀ levels < 33, levels &&& dfsReferenceFlag = 0 := by decide
  exact hall levels (lt_succ_of_le h)

theorem readPrecincts_wellFormed (hcsty : tccp.csty % 2 = b.csty % 2)
    (hnum : tccp.numresolutions = b.levels + 1) (h : b.WellFormed dec.reduce) :
    ∃ tccp', tccp.readPrecincts b.precincts = some (tccp', []) := by
  have hflag := precinctFlag hcsty
  have hlen := h.precincts_length
  unfold readPrecincts
  by_cases hcustom : tccp.csty &&& 1 ≠ 0
  · have hodd := hflag.mp hcustom
    rw [if_pos hodd, ← hnum] at hlen
    have hprec : ¬(b.precincts.length < tccp.numresolutions ∨
        ¬((List.range tccp.numresolutions).all fun i => precinctOk i (b.precincts.getD i 0)) =
          true) := by
      rw [not_or, not_not, all_eq_true]
      refine ⟨Nat.not_lt.mpr hlen.ge, ?_⟩
      intro r hr
      exact h.precincts_ok hodd r (hnum ▸ mem_range.mp hr)
    rw [if_pos hcustom, if_neg hprec, ← hlen, drop_length]
    exact ⟨_, rfl⟩
  · rw [if_neg fun h => hcustom (hflag.mpr h)] at hlen
    rw [if_neg hcustom, length_eq_zero_iff.mp hlen]
    exact ⟨_, rfl⟩

theorem readSPCodSPCoc_wellFormed (hcsty : tccp.csty % 2 = b.csty % 2)
    (h : b.WellFormed dec.reduce) :
    ∃ tccp', tccp.readSPCodSPCoc dec fromCoc b.bytes = some (tccp', []) := by
  have hmax : maxDecompLvls = 32 := rfl
  have hle := h.levels_le
  have hreduce := h.reduce_le
  have hcblk := h.cblk_le
  have hlevels : tccp.readLevels fromCoc b.levels =
      some { tccp with numresolutions := b.levels + 1, dfsIndex := 0 } := by
    rw [readLevels, if_neg (not_not.mpr (levels_no_dfs hle)), if_neg (Nat.not_lt.mpr hle)]
    simp only [u8, mod_eq_of_lt (show b.levels + 1 < 2 ^ 8 by omega)]
  have hok : ¬(dec.reduce ≥ b.levels + 1 ∨ b.cblkw > 8 ∨ b.cblkh > 8 ∨ b.cblkw + b.cblkh > 8 ∨
      (!cblkStyleOk b.cblkStyle) = true) := by
    simp only [h.cblkStyle_ok, Bool.not_true, Bool.false_eq_true, or_false]
    omega
  simp only [StyleBody.bytes, readSPCodSPCoc, hlevels, Option.bind_eq_bind, bind_some,
    if_neg hok]
  exact readPrecincts_wellFormed hcsty rfl h

end TileComponentCodingParams

/-- A COD marker with its progression order, number of layers and component transform, or the COC
marker of a component. -/
inductive StyleMarker where
  | cod (prg layersHi layersLo mct : Nat) (b : StyleBody)
  | coc (i : Nat) (b : StyleBody)

namespace StyleMarker

def entry : StyleMarker → Entry StyleBody
  | cod _ _ _ _ b => .default b
  | coc i b => .own i b

/-- A Part 1 marker. -/
def WellFormed (reduce : Nat) : StyleMarker → Prop
  | cod prg layersHi layersLo mct b =>
    b.csty < 8 ∧ prg < numProgressionOrders ∧ ofBytes [layersHi, layersLo] ≠ 0 ∧ mct ≤ 1 ∧
      b.WellFormed reduce
  | coc _ b => b.WellFormed reduce

end StyleMarker

namespace TileCodingParams

variable {dec : DecompressorParams} {base tcp tcp' : TileCodingParams} {b : StyleBody}

def readStyleMarker (dec : DecompressorParams) (tcp : TileCodingParams) :
    StyleMarker → Option TileCodingParams
  | .cod prg layersHi layersLo mct b =>
    tcp.readCod dec (b.csty :: prg :: layersHi :: layersLo :: mct :: b.bytes)
  | .coc i b => tcp.readCoc dec (beBytes (compRoom tcp.numComps) i ++ b.csty :: b.bytes)

/-- The COD and COC markers of a header. -/
def readStyleMarkers (dec : DecompressorParams) (markers : List StyleMarker)
    (tcp : TileCodingParams) : Option TileCodingParams :=
  markers.foldlM (readStyleMarker dec) tcp

/-- At most one COD marker, and one COC marker for each component that there is. -/
structure StyleHeader (numComps : Nat) (markers : List StyleMarker) : Prop where
  single : Single (markers.map StyleMarker.entry)
  lt : ∀ i b, .coc i b ∈ markers → i < numComps

/-- What a first COD marker that is accepted has passed, and what it sets. -/
theorem readCod_cases {csty prg layersHi layersLo mct : Nat} {rest : List Nat} (hcod : tcp.cod = 0)
    (h : tcp.readCod dec (csty :: prg :: layersHi :: layersLo :: mct :: rest) = some tcp') :
    (csty &&& 0xf8 = 0 ∧ prg < numProgressionOrders ∧ ofBytes [layersHi, layersLo] ≠ 0 ∧ mct ≤ 1) ∧
    (tcp'.numComps = tcp.numComps ∧ tcp'.prg = some prg ∧
      tcp'.numLayers = ofBytes [layersHi, layersLo] ∧ tcp'.mct = mct) ∧
    ∃ ref, TileComponentCodingParams.readSPCodSPCoc dec false
        { tcp.tccps 0 with csty := csty &&& 1 } rest = some (ref, []) ∧
      tcp'.tccps = fun i => if i = 0 then ref
        else if i < tcp.numComps then { tcp.tccps i with csty := csty &&& 1 }.copyCodingStyle ref
        else tcp.tccps i := by
  unfold readCod at h
  rw [hcod, if_neg (by decide)] at h
  dsimp only at h
  split at h
  · exact nomatch h
  · rename_i hok
    obtain ⟨⟨ref, rest'⟩, href, h⟩ := bind_eq_some_iff.mp h
    split at h
    · exact nomatch h
    · rename_i hrest
      obtain rfl : rest' = [] := not_not.mp hrest
      cases h
      refine ⟨?_, ⟨rfl, rfl, rfl, rfl⟩, ref, href, rfl⟩
      omega

theorem csty_mod_two (csty : Nat) : (csty &&& 1) % 2 = csty % 2 := by
  rw [show (1 : Nat) = 2 ^ 1 - 1 from rfl, and_two_pow_sub_one_eq_mod]
  exact mod_mod _ _

theorem readCod_spec {prg layersHi layersLo mct : Nat} (hcod : tcp.cod = 0)
    (h : readStyleMarker dec tcp (.cod prg layersHi layersLo mct b) = some tcp') :
    tcp'.numComps = tcp.numComps ∧ ¬b.HasDfs ∧
      ∀ i, i = 0 ∨ i < tcp.numComps → (tcp'.tccps i).HasStyle b := by
  obtain ⟨_, ⟨hnum, _⟩, ref, href, htccps⟩ := readCod_cases hcod h
  obtain ⟨hstyle, hdfs⟩ := readSPCodSPCoc_hasStyle (csty_mod_two b.csty) href
  refine ⟨hnum, hdfs rfl, ?_⟩
  intro i hi
  rw [htccps]
  dsimp only
  by_cases hzero : i = 0
  · rw [if_pos hzero]
    exact hstyle
  · rw [if_neg hzero, if_pos (hi.resolve_left hzero)]
    exact hstyle.copyCodingStyle _

theorem scoc_eq (room i csty : Nat) (rest : List Nat) :
    (beBytes room i ++ csty :: rest).getD room 0 = csty := by
  rw [getD_eq_getElem?_getD, List.getElem?_append_right (length_beBytes room i).le]
  simp

theorem spcoc_eq (room i csty : Nat) (rest : List Nat) :
    (beBytes room i ++ csty :: rest).drop (room + 1) = rest := by
  rw [← drop_drop, drop_left' (length_beBytes room i)]
  rfl

variable {i : Nat}

theorem readCoc_spec (hn : tcp.numComps ≤ 65536) (hi : i < tcp.numComps)
    (h : readStyleMarker dec tcp (.coc i b) = some tcp') :
    tcp'.numComps = tcp.numComps ∧ tcp'.cod = tcp.cod ∧ (tcp'.tccps i).HasStyle b ∧
      ∀ j ≠ i, tcp'.tccps j = tcp.tccps j := by
  replace h : tcp.readCoc dec (beBytes (compRoom tcp.numComps) i ++ b.csty :: b.bytes) =
    some tcp' := h
  have hlen : ¬(beBytes (compRoom tcp.numComps) i ++ b.csty :: b.bytes).length <
      compRoom tcp.numComps + 1 := by
    simp
  unfold readCoc at h
  simp only [if_neg hlen, compNo_eq hn hi, if_neg (Nat.not_le.mpr hi), scoc_eq, spcoc_eq] at h
  obtain ⟨⟨tccp, rest⟩, hread, h⟩ := bind_eq_some_iff.mp h
  split at h
  · exact nomatch h
  · cases h
    refine ⟨rfl, rfl, ?_, fun j hj => Function.update_of_ne hj _ _⟩
    rw [show ∀ t s, ({ tcp.setTccp i t with sawCoc := s } : TileCodingParams).tccps i = t from
      fun _ _ => Function.update_self _ _ _]
    exact (readSPCodSPCoc_hasStyle rfl hread).1

/-- The components after some markers of a header: the last marker that covers one counts. -/
structure Styled (base tcp : TileCodingParams) (l : List (Entry StyleBody)) : Prop where
  numComps_eq : tcp.numComps = base.numComps
  cod_eq : defaultOf l = none → tcp.cod = base.cod
  noDfs : ∀ d, defaultOf l = some d → ¬d.HasDfs
  last : ∀ i < base.numComps, ∀ b, lastOf i l = some b → (tcp.tccps i).HasStyle b
  untouched : ∀ i < base.numComps, lastOf i l = none → tcp.tccps i = base.tccps i

variable {ms : List StyleMarker}

theorem StyleHeader.left {numComps : Nat} {ms' : List StyleMarker}
    (h : StyleHeader numComps (ms ++ ms')) : StyleHeader numComps ms := by
  refine ⟨?_, fun i b hmem => h.lt i b (mem_append_left _ hmem)⟩
  have hsingle := h.single
  rw [map_append] at hsingle
  exact (pairwise_append.mp hsingle).1

variable {l : List (Entry StyleBody)} {m : StyleMarker}

theorem Styled.step (h : Styled base tcp l) (hn : base.numComps ≤ 65536) (hcod : base.cod = 0)
    (hsingle : Single (l ++ [m.entry])) (hlt : ∀ i b, m = .coc i b → i < base.numComps)
    (hread : readStyleMarker dec tcp m = some tcp') : Styled base tcp' (l ++ [m.entry]) := by
  have hnum := h.numComps_eq
  cases m with
  | cod prg layersHi layersLo mct b =>
    have hnone : defaultOf l = none :=
      defaultOf_eq_none.mpr fun _ hc => (single_concat.mp hsingle).2 _ hc rfl
    obtain ⟨hnum', hdfs, hall⟩ := readCod_spec ((h.cod_eq hnone).trans hcod) hread
    have hdefault : defaultOf (l ++ [.default b]) = some b := by
      rw [defaultOf_concat, hnone]
      rfl
    have hlast : ∀ i, lastOf i (l ++ [.default b]) = some b := fun i => by
      rw [lastOf_concat]
      rfl
    refine ⟨hnum'.trans hnum, ?_, ?_, ?_, ?_⟩
    · exact fun hno => nomatch hno.symm.trans hdefault
    · intro d hd
      obtain rfl : b = d := some.inj (hdefault.symm.trans hd)
      exact hdfs
    · intro i hi b' hb'
      obtain rfl : b = b' := some.inj ((hlast i).symm.trans hb')
      exact hall i (Or.inr (hnum ▸ hi))
    · exact fun i _ hno => nomatch hno.symm.trans (hlast i)
  | coc j b =>
    have hj := hlt j b rfl
    obtain ⟨hnum', hcod', hstyle, hother⟩ := readCoc_spec (hnum ▸ hn) (hnum ▸ hj) hread
    have hdefault : defaultOf (l ++ [.own j b]) = defaultOf l := by
      rw [defaultOf_concat]
      exact Option.or_none
    have hself : lastOf j (l ++ [.own j b]) = some b := by
      rw [lastOf_concat, Entry.covers, Entry.own?_self]
      rfl
    have hne : ∀ i, i ≠ j → lastOf i (l ++ [.own j b]) = lastOf i l := by
      intro i hij
      have hcov : (Entry.own j b).covers i = none := by
        rw [Entry.covers, show (Entry.own j b).own? i = none from if_neg (Ne.symm hij)]
        rfl
      rw [lastOf_concat, hcov, Option.none_or]
    refine ⟨hnum'.trans hnum, ?_, ?_, ?_, ?_⟩
    · intro hno
      exact hcod'.trans (h.cod_eq (hdefault.symm.trans hno))
    · intro d hd
      exact h.noDfs d (hdefault.symm.trans hd)
    · intro i hi b' hb'
      by_cases hij : i = j
      · subst hij
        obtain rfl : b = b' := some.inj (hself.symm.trans hb')
        exact hstyle
      · rw [hother i hij]
        exact h.last i hi b' ((hne i hij).symm.trans hb')
    · intro i hi hno
      by_cases hij : i = j
      · subst hij
        exact nomatch hno.symm.trans hself
      · rw [hother i hij]
        exact h.untouched i hi ((hne i hij).symm.trans hno)

theorem readStyleMarkers_styled (hn : base.numComps ≤ 65536) (hcod : base.cod = 0)
    (hh : StyleHeader base.numComps ms) (hread : readStyleMarkers dec ms base = some tcp) :
    Styled base tcp (ms.map StyleMarker.entry) := by
  induction ms using reverseRecOn generalizing tcp with
  | nil =>
    obtain rfl : base = tcp := some.inj hread
    exact ⟨rfl, fun _ => rfl, (fun _ h => nomatch h), (fun _ _ _ h => nomatch h), fun _ _ _ => rfl⟩
  | append_singleton ms m ih =>
    rw [readStyleMarkers, foldlM_concat] at hread
    obtain ⟨tcp₁, hread₁, hstep⟩ := bind_eq_some_iff.mp hread
    have hsingle := hh.single
    rw [map_append] at hsingle ⊢
    apply (ih hh.left hread₁).step hn hcod hsingle _ hstep
    rintro i b rfl
    exact hh.lt i b (by simp)

theorem readStyleMarker_wellFormed (hn : tcp.numComps ≤ 65536)
    (hlt : ∀ i b, m = .coc i b → i < tcp.numComps) (h : m.WellFormed dec.reduce) :
    ∃ tcp', readStyleMarker dec tcp m = some tcp' ∧ tcp'.numComps = tcp.numComps := by
  cases m with
  | cod prg layersHi layersLo mct b =>
    obtain ⟨hcsty, hprg, hlayers, hmct, hb⟩ := h
    show ∃ tcp', tcp.readCod dec (b.csty :: prg :: layersHi :: layersLo :: mct :: b.bytes) =
      some tcp' ∧ _
    unfold readCod
    by_cases hmore : tcp.cod + 1 > 1
    · rw [if_pos hmore]
      exact ⟨_, rfl, rfl⟩
    · have hbits : ∀ csty < 8, csty &&& 0xf8 = 0 := by decide
      have hok : ¬(b.csty &&& 0xf8 ≠ 0 ∨ prg ≥ numProgressionOrders ∨
          ofBytes [layersHi, layersLo] = 0 ∨ mct > 1) := by
        have := hbits b.csty hcsty
        omega
      obtain ⟨ref, href⟩ : ∃ ref, TileComponentCodingParams.readSPCodSPCoc dec false
          { tcp.tccps 0 with csty := b.csty &&& 1 } b.bytes = some (ref, []) :=
        readSPCodSPCoc_wellFormed (csty_mod_two b.csty) hb
      rw [if_neg hmore]
      simp only [if_neg hok, href, Option.bind_eq_bind, bind_some, ne_eq, not_true_eq_false,
        if_false]
      exact ⟨_, rfl, rfl⟩
  | coc i b =>
    have hi := hlt i b rfl
    obtain ⟨tccp, hread⟩ : ∃ tccp, TileComponentCodingParams.readSPCodSPCoc dec true
        { tcp.tccps i with csty := b.csty } b.bytes = some (tccp, []) :=
      readSPCodSPCoc_wellFormed rfl h
    have hlen : ¬(beBytes (compRoom tcp.numComps) i ++ b.csty :: b.bytes).length <
        compRoom tcp.numComps + 1 := by
      simp
    show ∃ tcp', tcp.readCoc dec (beBytes (compRoom tcp.numComps) i ++ b.csty :: b.bytes) =
      some tcp' ∧ _
    unfold readCoc
    simp only [if_neg hlen, compNo_eq hn hi, if_neg (Nat.not_le.mpr hi), scoc_eq, spcoc_eq, hread,
      Option.bind_eq_bind, bind_some, ne_eq, not_true_eq_false, if_false]
    exact ⟨_, rfl, rfl⟩

theorem readStyleMarkers_wellFormed (hn : base.numComps ≤ 65536)
    (hh : StyleHeader base.numComps ms) (hwf : ∀ m ∈ ms, m.WellFormed dec.reduce) :
    ∃ tcp, readStyleMarkers dec ms base = some tcp ∧ tcp.numComps = base.numComps := by
  induction ms using reverseRecOn with
  | nil => exact ⟨base, rfl, rfl⟩
  | append_singleton ms m ih =>
    obtain ⟨tcp₁, hread₁, hnum₁⟩ := ih hh.left fun m hm => hwf m (mem_append_left _ hm)
    have hlt : ∀ i b, m = .coc i b → i < tcp₁.numComps := by
      rintro i b rfl
      rw [hnum₁]
      exact hh.lt i b (by simp)
    obtain ⟨tcp, hread, hnum⟩ := readStyleMarker_wellFormed (hnum₁ ▸ hn) hlt (hwf m (by simp))
    rw [readStyleMarkers, foldlM_concat, ← readStyleMarkers, hread₁]
    exact ⟨tcp, hread, hnum.trans hnum₁⟩

/-- A component has what the header says for it, unless its COC marker comes before the COD marker
and says something else. -/
theorem Styled.hasStyle_iff (h : Styled base tcp l) (hl : Single l) (hi : i < base.numComps)
    {g : StyleBody} (hg : (ownOf i l).or (defaultOf l) = some g) :
    (tcp.tccps i).HasStyle g ↔ ∀ d, Before l i g d → g.Same d := by
  by_cases hbefore : ∃ own d, Before l i own d
  · obtain ⟨own, d, hb⟩ := hbefore
    have hown := hb.ownOf_eq hl
    have hdef := hb.defaultOf_eq hl
    obtain rfl : own = g := by rwa [hown, Option.some_or, Option.some_inj] at hg
    have hd := h.last i hi d ((lastOf_eq hl i).1 own d hb)
    rw [hd.iff_same (h.noDfs d hdef)]
    constructor
    · intro hsame d' hb'
      obtain rfl : d = d' := some.inj (hdef.symm.trans (hb'.defaultOf_eq hl))
      exact hsame
    · exact fun hall => hall d hb
  · refine iff_of_true (h.last i hi g ?_) fun d hb => absurd ⟨g, d, hb⟩ hbefore
    rw [(lastOf_eq hl i).2 hbefore, hg]

/-- Each component has the coding style of the marker of highest precedence. -/
def ScopesStyle (main tile : List StyleMarker) (tcp : TileCodingParams) : Prop :=
  ∀ i < tcp.numComps, ∀ g,
    governing (main.map StyleMarker.entry) (tile.map StyleMarker.entry) i = some g →
    (tcp.tccps i).HasStyle g

/-- A COC marker that comes before the COD marker of its header, and governs its component, says what
the COD marker says. -/
def EarlyCocsAgree (numComps : Nat) (main tile : List StyleMarker) : Prop :=
  (∀ i < numComps, ∀ g d, Before (main.map StyleMarker.entry) i g d →
    ownOf i (tile.map StyleMarker.entry) = none → defaultOf (tile.map StyleMarker.entry) = none →
    g.Same d) ∧
  ∀ i < numComps, ∀ g d, Before (tile.map StyleMarker.entry) i g d → g.Same d

/-- **After markers that are accepted, as well-formed ones are, each component has the coding style
of the marker of highest precedence, if and only if COC markers before the COD marker of their header
say the same as it.** -/
theorem scopesStyle_iff (dec : DecompressorParams) (numComps : Nat) (hn : numComps ≤ 65535)
    (main tile : List StyleMarker) (hmain : StyleHeader numComps main)
    (htile : StyleHeader numComps tile) :
    (∀ tcp tcp', readStyleMarkers dec main { numComps } = some tcp →
      readStyleMarkers dec tile tcp.copy = some tcp' →
      (ScopesStyle main tile tcp' ↔ EarlyCocsAgree numComps main tile)) ∧
    ((∀ m ∈ main ++ tile, m.WellFormed dec.reduce) →
      ∃ tcp tcp', readStyleMarkers dec main { numComps } = some tcp ∧
        readStyleMarkers dec tile tcp.copy = some tcp') := by
  have hn' := le_succ_of_le hn
  constructor
  · intro tcp tcp' hreadMain hreadTile
    have hM : Styled { numComps } tcp (main.map StyleMarker.entry) :=
      readStyleMarkers_styled hn' rfl hmain hreadMain
    have hnum := hM.numComps_eq
    have hT := readStyleMarkers_styled (hnum ▸ hn') rfl (hnum ▸ htile) hreadTile
    have hnum' := hT.numComps_eq.trans hnum
    -- a component without a marker in the tile keeps what it has from the main header
    have hkeep : ∀ i < numComps, ownOf i (tile.map StyleMarker.entry) = none →
        defaultOf (tile.map StyleMarker.entry) = none → tcp'.tccps i = tcp.tccps i := by
      intro i hi hown hdef
      apply hT.untouched i (hnum ▸ hi)
      rw [(lastOf_eq htile.single i).2, hown, hdef]
      · rfl
      · rintro ⟨own, d, hb⟩
        exact nomatch hown.symm.trans (hb.ownOf_eq htile.single)
    constructor
    · intro hscopes
      rw [ScopesStyle, hnum'] at hscopes
      constructor
      · intro i hi g d hb hown hdef
        have hg : (ownOf i (main.map StyleMarker.entry)).or
            (defaultOf (main.map StyleMarker.entry)) = some g := by
          rw [hb.ownOf_eq hmain.single]
          rfl
        have hstyle := hscopes i hi g (by rw [governing, hown, hdef]; exact hg)
        rw [hkeep i hi hown hdef] at hstyle
        exact (hM.hasStyle_iff hmain.single hi hg).mp hstyle d hb
      · intro i hi g d hb
        have hg : (ownOf i (tile.map StyleMarker.entry)).or
            (defaultOf (tile.map StyleMarker.entry)) = some g := by
          rw [hb.ownOf_eq htile.single]
          rfl
        have hstyle := hscopes i hi g (by rw [governing, ← Option.or_assoc, hg]; rfl)
        exact (hT.hasStyle_iff htile.single (hnum ▸ hi) hg).mp hstyle d hb
    · rintro ⟨hcondMain, hcondTile⟩ i hi g hg
      rw [hnum'] at hi
      rw [governing, ← Option.or_assoc] at hg
      cases hcover : (ownOf i (tile.map StyleMarker.entry)).or
          (defaultOf (tile.map StyleMarker.entry)) with
      | some b =>
        obtain rfl : b = g := by rwa [hcover, Option.some_or, Option.some_inj] at hg
        exact (hT.hasStyle_iff htile.single (hnum ▸ hi) hcover).mpr fun d => hcondTile i hi b d
      | none =>
        obtain ⟨hown, hdef⟩ := Option.or_eq_none_iff.mp hcover
        rw [hcover, Option.none_or] at hg
        rw [hkeep i hi hown hdef]
        exact (hM.hasStyle_iff hmain.single hi hg).mpr fun d hb => hcondMain i hi g d hb hown hdef
  · intro hwf
    obtain ⟨tcp, hreadMain, hnum⟩ : ∃ tcp, readStyleMarkers dec main { numComps } = some tcp ∧
        tcp.numComps = numComps :=
      readStyleMarkers_wellFormed hn' hmain fun m hm => hwf m (mem_append_left _ hm)
    have hcopy : tcp.copy.numComps = numComps := hnum
    obtain ⟨tcp', hreadTile, _⟩ := readStyleMarkers_wellFormed (hcopy ▸ hn') (hcopy ▸ htile)
      fun m hm => hwf m (mem_append_right _ hm)
    exact ⟨tcp, tcp', hreadMain, hreadTile⟩

/-- A coding style of a number of levels, with code blocks of 64 by 64 samples. -/
def plainStyle (levels : Nat) : StyleBody := ⟨0, levels, 4, 4, 0, 1, []⟩

/-- The COD marker, and then the COC marker of the second component. -/
theorem scopesStyle_iff_two : ∃ tcp,
    readStyleMarkers {} [.cod 0 0 1 0 (plainStyle 5), .coc 1 (plainStyle 3)] { numComps := 2 } =
      some tcp ∧
    ScopesStyle [.cod 0 0 1 0 (plainStyle 5), .coc 1 (plainStyle 3)] [] tcp.copy := by
  have hmain : StyleHeader 2 [.cod 0 0 1 0 (plainStyle 5), .coc 1 (plainStyle 3)] := by
    refine ⟨by simp [Single, StyleMarker.entry, Entry.scope], ?_⟩
    intro i b hmem
    simp only [mem_cons, reduceCtorEq, StyleMarker.coc.injEq, not_mem_nil, or_false,
      false_or] at hmem
    omega
  have htile : StyleHeader 2 [] := ⟨List.Pairwise.nil, by simp⟩
  have hwf : ∀ levels ≤ 5, (plainStyle levels).WellFormed 0 := by
    intro levels hle
    have hmax : maxDecompLvls = 32 := rfl
    have hstyle : cblkStyleOk 0 = true := by decide
    exact ⟨by show levels ≤ _; omega, zero_le _, Nat.le_refl 8, hstyle, rfl, by rintro ⟨⟩⟩
  obtain ⟨hiff, haccepted⟩ := scopesStyle_iff {} 2 (by decide) _ _ hmain htile
  obtain ⟨tcp, tcp', hreadMain, hreadTile⟩ := haccepted (by
    intro m hm
    simp only [append_nil, mem_cons, not_mem_nil, or_false] at hm
    rcases hm with rfl | rfl
    · exact ⟨by decide, by decide, by decide, by decide, hwf 5 (by decide)⟩
    · exact hwf 3 (by decide))
  refine ⟨tcp, hreadMain, (hiff tcp _ hreadMain rfl).mpr ⟨?_, ?_⟩⟩
  · intro i hi g d hb
    replace hb : Before (([] ++ [.default (plainStyle 5)]) ++ [.own 1 (plainStyle 3)]) i g d := hb
    rcases before_concat_default.mp (before_concat_own.mp hb) with h | h
    · exact absurd h not_before_nil
    · cases h.2
  · exact fun i hi g d hb => absurd hb not_before_nil

/-- The COC marker of the second component, and then the COD marker: its number of resolutions is
that of the COD marker. -/
theorem not_scopesStyle_two : ∃ tcp,
    readStyleMarkers {} [.coc 1 (plainStyle 3), .cod 0 0 1 0 (plainStyle 5)] { numComps := 2 } =
      some tcp ∧
    ¬ScopesStyle [.coc 1 (plainStyle 3), .cod 0 0 1 0 (plainStyle 5)] [] tcp.copy := by
  have hrun : (readStyleMarkers {} [.coc 1 (plainStyle 3), .cod 0 0 1 0 (plainStyle 5)]
      { numComps := 2 }).map (fun tcp => (tcp.numComps, (tcp.tccps 1).numresolutions)) =
        some (2, 6) := by
    decide
  obtain ⟨tcp, hread, hnum⟩ := Option.map_eq_some_iff.mp hrun
  obtain ⟨hcomps, hres⟩ := Prod.mk.inj hnum
  refine ⟨tcp, hread, ?_⟩
  intro hscopes
  have hlt : 1 < tcp.copy.numComps := by
    show 1 < tcp.numComps
    omega
  have hstyle := (hscopes 1 hlt (plainStyle 3) rfl).numresolutions_eq (by
    rw [StyleBody.HasDfs, not_not]
    rfl)
  exact absurd (hres.symm.trans hstyle) (by decide)

end TileCodingParams

end GrokCodec.Codestream
