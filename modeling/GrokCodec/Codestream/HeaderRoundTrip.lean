import GrokCodec.Codestream.MainHeader

/-!
The main header is read as it was written: for which coding parameters of the compressor.
-/

namespace GrokCodec.Codestream

open ByteStream Scoping TileComponentCodingParams List TileCodingParams Function

variable {e : Encoder}

namespace Encoder

/-- The QCD and QCC segments of the header. -/
def quantEntries (e : Encoder) : List (Entry (List Nat)) :=
  .default (writeSQcdSQcc (e.tccps 0)) ::
    (e.differing compareQcc).map fun i => .own i (writeSQcdSQcc (e.tccps i))

theorem mem_differing {compare : TileComponentCodingParams → TileComponentCodingParams → Bool}
    {i : Nat} : i ∈ e.differing compare ↔
      (0 < i ∧ i < e.numComps) ∧ compare (e.tccps 0) (e.tccps i) = false := by
  rw [differing, mem_filter, mem_range'_1, Bool.not_eq_true']
  exact and_congr_left fun _ => by omega

theorem Accepted.quantHeader (h : e.Accepted) :
    TileCodingParams.QuantHeader e.numComps e.quantEntries := by
  constructor
  · apply List.Pairwise.cons
    · intro a ha
      obtain ⟨i, _, rfl⟩ := mem_map.mp ha
      exact fun hscope => nomatch hscope
    · rw [pairwise_map]
      have hrange : (List.range' 1 (e.numComps - 1)).Nodup := nodup_range' ..
      have hnodup : (e.differing compareQcc).Nodup := hrange.filter _
      exact hnodup.imp fun hne hscope => hne (Option.some.inj hscope)
  · intro entry hentry
    rcases mem_cons.mp hentry with rfl | hentry
    · exact (h.writableSteps 0).wellFormed.1
    · obtain ⟨i, hi, rfl⟩ := mem_map.mp hentry
      exact ⟨(mem_differing.mp hi).1.2, (h.writableSteps i).wellFormed.1⟩

theorem Accepted.cocs_eq (h : e.Accepted) : e.differing compareCoc = [] := by
  rw [differing, filter_eq_nil_iff]
  intro i _
  rw [h.same i]
  simp [compareCoc]

theorem compareQcc_eq {t₀ t₁ : TileComponentCodingParams} (h₀ : WritableSteps t₀)
    (h₁ : WritableSteps t₁) (h : compareQcc t₀ t₁ = true) :
    ∀ bandNo < numBands t₀, t₀.stepsizes bandNo = t₁.stepsizes bandNo := by
  simp only [compareQcc, Bool.and_eq_true, Bool.or_eq_true, decide_eq_true_eq,
    all_eq_true, mem_range] at h
  obtain ⟨⟨⟨⟨hqntsty, _⟩, _⟩, hexpn⟩, hmant⟩ := h
  intro bandNo hband
  have heq : ∀ s s' : Stepsize, s.expn = s'.expn → s.mant = s'.mant → s = s' := by
    rintro ⟨_, _⟩ ⟨_, _⟩ rfl rfl
    rfl
  apply heq _ _ (hexpn bandNo hband)
  rcases hmant with hno | hmant
  · rw [(h₀.steps bandNo).mant_eq hno, (h₁.steps bandNo).mant_eq (hqntsty ▸ hno)]
  · exact hmant bandNo hband

end Encoder

/-- A component without its quantization. -/
def TileComponentCodingParams.unquantized (t : TileComponentCodingParams) :
    TileComponentCodingParams :=
  { t with
    quantizationMarkerSet := false, fromQCC := false, fromTileHeader := false, qntsty := 0
    stepsizes := fun _ => {}, numStepSizes := 0, numgbits := 0 }

/-- Only the quantization of the components may be different. -/
structure TileCodingParams.KeepsStyle (tcp tcp' : TileCodingParams) : Prop where
  numComps_eq : tcp'.numComps = tcp.numComps
  prg_eq : tcp'.prg = tcp.prg
  numLayers_eq : tcp'.numLayers = tcp.numLayers
  mct_eq : tcp'.mct = tcp.mct
  unquantized_eq : ∀ i, (tcp'.tccps i).unquantized = (tcp.tccps i).unquantized

variable {t t' : TileComponentCodingParams}

namespace TileCodingParams

variable {tcp tcp' tcp'' : TileCodingParams} {headerData : List Nat}

theorem KeepsStyle.trans (h : tcp.KeepsStyle tcp') (h' : tcp'.KeepsStyle tcp'') :
    tcp.KeepsStyle tcp'' :=
  ⟨h'.numComps_eq.trans h.numComps_eq, h'.prg_eq.trans h.prg_eq,
    h'.numLayers_eq.trans h.numLayers_eq, h'.mct_eq.trans h.mct_eq,
    fun i => (h'.unquantized_eq i).trans (h.unquantized_eq i)⟩

theorem readSQcdSQcc_unquantized {fromQCC : Bool} {rest : List Nat}
    (h : t.readSQcdSQcc false fromQCC headerData = some (t', rest)) :
    t'.unquantized = t.unquantized := by
  cases headerData with
  | nil => exact nomatch h
  | cons sqcx body =>
    have hnext : (if t.ignores false fromQCC then t
        else t.setQuantization false fromQCC sqcx body).unquantized = t.unquantized := by
      split <;> rfl
    unfold readSQcdSQcc at h
    dsimp only at h
    generalize (if t.ignores false fromQCC then t
      else t.setQuantization false fromQCC sqcx body) = next at h hnext
    split at h
    · exact nomatch h
    · cases h
      exact hnext

theorem readQcd_keepsStyle (h : tcp.readQcd false headerData = some tcp') :
    tcp.KeepsStyle tcp' := by
  obtain ⟨⟨src, rest⟩, hread, h⟩ := Option.bind_eq_some_iff.mp h
  dsimp only at h
  split at h
  · exact nomatch h
  · cases h
    refine ⟨rfl, rfl, rfl, rfl, ?_⟩
    intro i
    dsimp only
    split
    · rename_i hzero
      subst hzero
      exact readSQcdSQcc_unquantized hread
    · split
      · unfold copyQuantization
        split <;> rfl
      · rfl

theorem readQcc_keepsStyle (h : tcp.readQcc false headerData = some tcp') :
    tcp.KeepsStyle tcp' := by
  unfold readQcc at h
  dsimp only at h
  split at h
  · exact nomatch h
  · split at h
    · exact nomatch h
    · obtain ⟨⟨tccp, rest⟩, hread, h⟩ := Option.bind_eq_some_iff.mp h
      split at h
      · exact nomatch h
      · cases h
        refine ⟨rfl, rfl, rfl, rfl, ?_⟩
        intro i
        show (update tcp.tccps _ tccp i).unquantized = _
        by_cases hi : i = (grkRead (compRoom tcp.numComps) headerData).1
        · rw [← hi] at hread
          rw [← hi, update_self]
          exact readSQcdSQcc_unquantized hread
        · rw [update_of_ne hi]

theorem readQuantMarkers_keepsStyle {l : List (Entry (List Nat))}
    (h : readQuantMarkers false l tcp = some tcp') : tcp.KeepsStyle tcp' := by
  induction l generalizing tcp with
  | nil =>
    obtain rfl : tcp = tcp' := Option.some.inj h
    exact ⟨rfl, rfl, rfl, rfl, fun _ => rfl⟩
  | cons entry l ih =>
    obtain ⟨tcp₁, hfirst, h⟩ := Option.bind_eq_some_iff.mp h
    have hkeeps : tcp.KeepsStyle tcp₁ := by
      cases entry with
      | default body => exact readQcd_keepsStyle hfirst
      | own i body => exact readQcc_keepsStyle hfirst
    exact hkeeps.trans (ih h)

theorem foldlM_readQcc {e : Encoder} (l : List Nat) (hnum : tcp.numComps = e.numComps) :
    (l.map e.writeQcc).foldlM (fun tcp seg => readQcc tcp false seg) tcp =
      readQuantMarkers false
        (l.map fun i => .own i (Encoder.writeSQcdSQcc (e.tccps i))) tcp := by
  induction l generalizing tcp with
  | nil => rfl
  | cons i l ih =>
    rw [map_cons, map_cons, readQuantMarkers, foldlM_cons, foldlM_cons]
    have hhead : readQcc tcp false (e.writeQcc i) =
        readQuantMarker false tcp (.own i (Encoder.writeSQcdSQcc (e.tccps i))) := by
      rw [Encoder.writeQcc, ← hnum]
      rfl
    rw [hhead]
    cases hread : readQuantMarker false tcp (.own i (Encoder.writeSQcdSQcc (e.tccps i))) with
    | none => rfl
    | some tcp₁ => exact ih ((readQcc_keepsStyle hread).numComps_eq.trans hnum)

end TileCodingParams

namespace Encoder

variable {dec : DecompressorParams} {tcp : TileCodingParams}

theorem WritableSteps.of_holds (h : WritableSteps t) (hholds : t'.Holds (writeSQcdSQcc t)) :
    t'.qntsty = t.qntsty ∧ t'.numgbits = t.numgbits ∧
      ∀ bandNo < numBands t, t'.stepsizes bandNo = t.stepsizes bandNo := by
  obtain ⟨hstyle, hguard⟩ := h.head_eq
  refine ⟨hholds.qntsty_eq.trans hstyle, hholds.numgbits_eq.trans hguard, ?_⟩
  intro bandNo hband
  have hcount : numBands t ≤ QuantBody.stepCount (writeSQcdSQcc t) := by
    rw [QuantBody.stepCount, h.wellFormed.2]
    split
    · exact h.numBands_eq.2.2
    · exact Nat.le_refl _
  rw [hholds.stepsizes_eq bandNo (hband.trans_le hcount), h.step_eq hband]

theorem Accepted.no_own_zero (q : List Nat) : .own 0 q ∉ e.quantEntries := by
  intro hmem
  rcases mem_cons.mp hmem with heq | hmem
  · exact nomatch heq
  · obtain ⟨i, hi, heq⟩ := mem_map.mp hmem
    cases heq
    exact Nat.lt_irrefl 0 (mem_differing.mp hi).1.1

theorem Accepted.readQuant_eq (h : e.Accepted) (hnum : tcp.numComps = e.numComps) :
    ((tcp.readQcd false e.writeHeader.qcd).bind fun tcp =>
      (e.writeHeader.cocs.foldlM (fun tcp seg => readCoc tcp dec seg) tcp).bind
        fun tcp =>
          e.writeHeader.qccs.foldlM (fun tcp seg => readQcc tcp false seg) tcp) =
      readQuantMarkers false e.quantEntries tcp := by
  have hcocs : e.writeHeader.cocs = [] := by
    show (e.differing compareCoc).map _ = []
    rw [h.cocs_eq, map_nil]
  rw [quantEntries, readQuantMarkers, foldlM_cons, hcocs]
  show Option.bind (tcp.readQcd false _) _ = Option.bind (tcp.readQcd false _) _
  cases hqcd : tcp.readQcd false (writeSQcdSQcc (e.tccps 0)) with
  | none => rw [show e.writeHeader.qcd = writeSQcdSQcc (e.tccps 0) from rfl, hqcd]; rfl
  | some tcp₁ =>
    rw [show e.writeHeader.qcd = writeSQcdSQcc (e.tccps 0) from rfl, hqcd]
    exact foldlM_readQcc _
      ((readQcd_keepsStyle hqcd).numComps_eq.trans hnum)

theorem Accepted.readQuant (h : e.Accepted) (hnum : tcp.numComps = e.numComps)
    (hfresh : TileCodingParams.Fresh false tcp) :
    ∃ tcp', readQuantMarkers false e.quantEntries tcp = some tcp' ∧
      ∀ i < e.numComps, (tcp'.tccps i).qntsty = (e.tccps i).qntsty ∧
        (tcp'.tccps i).numgbits = (e.tccps i).numgbits ∧
        ∀ bandNo < (e.tccps i).numresolutions * 3 - 2,
          (tcp'.tccps i).stepsizes bandNo = (e.tccps i).stepsizes bandNo := by
  have hheader := h.quantHeader
  have hpos : 0 < e.numComps := length_pos_iff.mpr h.comps_ne
  have hle : e.numComps ≤ 65536 := h.comps_le.trans (by decide)
  have hbefore : ∀ q d, ¬Before e.quantEntries 0 q d := by
    rintro q d ⟨pre, post, heq, hmem⟩
    exact Accepted.no_own_zero q (heq ▸ mem_append_left _ hmem)
  rw [← hnum] at hheader hpos hle
  obtain ⟨tcp', hread, hquant⟩ := (readQuantMarkers_spec hfresh hpos hle hheader).exists
    fun q d hb => absurd hb (hbefore q d)
  refine ⟨tcp', hread, ?_⟩
  intro i hi
  have hholds : ∀ body, (ownOf i e.quantEntries).or (defaultOf e.quantEntries) = some body →
      (tcp'.tccps i).Holds body := by
    intro body hbody
    rw [hquant.holds_iff hheader (fun q d hb => absurd hb (hbefore q d)) (hnum ▸ hi) hbody]
    exact fun _ _ q hb => absurd hb (hbefore q body)
  have hbands := (h.writableSteps i).numBands_eq.1
  cases hcompare : compareQcc (e.tccps 0) (e.tccps i) with
  | false =>
    by_cases hzero : i = 0
    · subst hzero
      simp [compareQcc] at hcompare
    · have hown : ownOf i e.quantEntries = some (writeSQcdSQcc (e.tccps i)) := by
        apply ownOf_of_mem hheader.single
        apply mem_cons_of_mem
        exact mem_map.mpr ⟨i, mem_differing.mpr ⟨⟨by omega, hi⟩, hcompare⟩, rfl⟩
      rw [← hbands]
      exact (h.writableSteps i).of_holds (hholds _ (by rw [hown]; rfl))
  | true =>
    have hown : ownOf i e.quantEntries = none := by
      rw [ownOf_eq_none]
      intro b hmem
      rcases mem_cons.mp hmem with heq | hmem
      · exact nomatch heq
      · obtain ⟨j, hj, heq⟩ := mem_map.mp hmem
        cases heq
        exact nomatch hcompare.symm.trans (mem_differing.mp hj).2
    obtain ⟨hqntsty, hgbits, hsteps⟩ :=
      (h.writableSteps 0).of_holds (hholds _ (by rw [hown]; rfl))
    have hsame := h.same i
    refine ⟨by rw [hqntsty, hsame], by rw [hgbits, hsame], ?_⟩
    intro bandNo hband
    have hband₀ : bandNo < numBands (e.tccps 0) := by
      rw [(h.writableSteps 0).numBands_eq.1]
      rw [hsame] at hband
      exact hband
    rw [hsteps bandNo hband₀]
    exact compareQcc_eq (h.writableSteps 0) (h.writableSteps i) hcompare bandNo hband₀

theorem hasStyle_of_unquantized {b : StyleBody} (heq : t'.unquantized = t.unquantized)
    (h : t.HasStyle b) : t'.HasStyle b := by
  have hplain : t.unquantized.HasStyle b :=
    ⟨h.numresolutions_eq, h.cblkwExpn_eq, h.cblkhExpn_eq, h.cblkStyle_eq, h.qmfbid_eq,
      h.atkIndex_eq, h.precWidthExp_eq, h.precHeightExp_eq⟩
  rw [← heq] at hplain
  exact ⟨hplain.numresolutions_eq, hplain.cblkwExpn_eq, hplain.cblkhExpn_eq, hplain.cblkStyle_eq,
    hplain.qmfbid_eq, hplain.atkIndex_eq, hplain.precWidthExp_eq, hplain.precHeightExp_eq⟩

/-- The COD segment has been read. -/
structure ReadsCod (e : Encoder) (tcp : TileCodingParams) : Prop where
  csty_ok : e.csty &&& 0xf8 = 0
  prg_lt : (e.prg % 256).toNat < numProgressionOrders
  numLayers_ne : e.numLayers ≠ 0
  mct_le : e.mct ≤ 1
  cblk_le : e.styleBody.cblkw + e.styleBody.cblkh ≤ 8
  cblkStyle_ok : cblkStyleOk (e.tccps 0).cblkStyle = true
  precincts_ok : e.csty % 2 = 1 → ∀ r < (e.tccps 0).numresolutions,
    precinctOk r (e.styleBody.precincts.getD r 0) = true
  numComps_eq : tcp.numComps = e.numComps
  prg_eq : tcp.prg = some (e.prg % 256).toNat
  numLayers_eq : tcp.numLayers = e.numLayers
  mct_eq : tcp.mct = e.mct
  noDfs : ¬e.styleBody.HasDfs
  style : ∀ i < e.numComps, (tcp.tccps i).HasStyle e.styleBody
  fresh : TileCodingParams.Fresh false tcp

theorem Accepted.readsCod (h : e.Accepted)
    (hread : readCod { numComps := e.numComps } dec e.writeCod = some tcp) :
    e.ReadsCod tcp := by
  rw [h.writeCod_eq] at hread
  obtain ⟨⟨hcsty, hprg, hlayers, hmct⟩, ⟨hnum, hprg', hlayers', hmct'⟩, ref, href, htccps⟩ :=
    readCod_cases rfl hread
  rw [layers_eq h.numLayers_lt] at hlayers hlayers'
  have hmod := csty_mod_two e.csty
  obtain ⟨hcblk, hstyleOk, hprec, hset, hqcc, htile⟩ :=
    readSPCodSPCoc_checks (b := e.styleBody) hmod href
  obtain ⟨hstyle, hdfs⟩ := readSPCodSPCoc_hasStyle (b := e.styleBody) hmod href
  have hnumres : ref.numresolutions = (e.tccps 0).numresolutions := by
    have hpos := h.numresolutions_pos
    rw [hstyle.numresolutions_eq (hdfs rfl)]
    show (e.tccps 0).numresolutions - 1 + 1 = _
    omega
  have hspec := readCod_spec (b := e.styleBody) rfl hread
  have hflags : ∀ i, (tcp.tccps i).quantizationMarkerSet = false ∧
      (tcp.tccps i).fromQCC = false ∧ (tcp.tccps i).fromTileHeader = false := by
    intro i
    rw [htccps]
    dsimp only
    split
    · exact ⟨hset, hqcc, htile⟩
    · split
      · exact ⟨rfl, rfl, rfl⟩
      · exact ⟨rfl, rfl, rfl⟩
  exact
    { csty_ok := hcsty, prg_lt := hprg, numLayers_ne := hlayers, mct_le := hmct, cblk_le := hcblk
      cblkStyle_ok := hstyleOk
      precincts_ok := fun hodd r hr => hprec hodd r (hnumres ▸ hr)
      numComps_eq := hnum, prg_eq := hprg', numLayers_eq := hlayers', mct_eq := hmct'
      noDfs := hdfs rfl
      style := fun i hi => hspec.2.2 i (Or.inr hi)
      fresh := ⟨fun i _ => (hflags i).2.2, fun _ i _ => ⟨(hflags i).1, (hflags i).2.1⟩⟩ }

theorem Accepted.readCod_of_readable (h : e.Accepted) (hr : e.Readable) (hdec : dec.reduce = 0) :
    ∃ tcp, readCod { numComps := e.numComps } dec e.writeCod = some tcp := by
  have hmarker : (StyleMarker.cod (e.prg % 256).toNat (e.numLayers / 256 % 256)
      (e.numLayers % 256) e.mct e.styleBody).WellFormed dec.reduce := by
    refine ⟨hr.csty_lt, ?_, ?_, hr.mct_le, hdec ▸ h.styleBody_wellFormed hr⟩
    · have hprg := prg_eq hr.prg_nonneg hr.prg_lt
      have hlt := hr.prg_lt
      omega
    · rw [layers_eq h.numLayers_lt]
      exact hr.numLayers_ne
  have hn : ({ numComps := e.numComps } : TileCodingParams).numComps ≤ 65536 :=
    h.comps_le.trans (by decide : SIZMarker.maxNumComponentsJ2K ≤ 65536)
  have hlt : ∀ i b, StyleMarker.cod (e.prg % 256).toNat (e.numLayers / 256 % 256)
      (e.numLayers % 256) e.mct e.styleBody = .coc i b → i < e.numComps := by
    intro i b heq
    cases heq
  obtain ⟨tcp, hread, _⟩ := readStyleMarker_wellFormed hn hlt hmarker
  rw [h.writeCod_eq]
  exact ⟨tcp, hread⟩

theorem csty_lt_eight {csty : Nat} (h : csty < 256) (hok : csty &&& 0xf8 = 0) : csty < 8 := by
  have hall : ∀ c < 256, c &&& 0xf8 = 0 → c < 8 := by decide +kernel
  exact hall csty h hok

/-- A header is read as it was written if and only if the limits are kept. -/
theorem Accepted.roundTrips_iff (h : e.Accepted) (hdec : dec.reduce = 0) :
    e.RoundTrips dec ↔ e.Readable := by
  have hsiz : SIZMarker.read 0 (SIZMarker.write e.siz) = some e.siz ↔ _ :=
    SIZMarker.read_write_iff h.siz_fits h.comps_ne h.comps_le h.comps
  have hpos := length_pos_iff.mpr h.comps_ne
  constructor
  · rintro ⟨tcp, hread, ⟨prg, hprg, hprg'⟩, _, _, hagrees⟩
    obtain ⟨siz, hsiz', hrest⟩ := Option.bind_eq_some_iff.mp hread
    obtain ⟨tcp', hrest, heq⟩ := Option.map_eq_some_iff.mp hrest
    cases heq
    obtain ⟨tcp₁, hcod, hquant⟩ := Option.bind_eq_some_iff.mp hrest
    have hreads := h.readsCod hcod
    rw [h.readQuant_eq hreads.numComps_eq] at hquant
    have hkeeps := readQuantMarkers_keepsStyle hquant
    have hstyle := hasStyle_of_unquantized (hkeeps.unquantized_eq 0) (hreads.style 0 hpos)
    have hfirst := hagrees 0 hpos
    have hiff := (h.style_agrees_iff hstyle hreads.noDfs hreads.cblk_le (fun hodd r hr =>
      hreads.precincts_ok hodd r (hfirst.numresolutions_eq ▸ hr))).2
    have hprg'' : prg = (e.prg % 256).toNat := by
      rw [hkeeps.prg_eq, hreads.prg_eq] at hprg
      exact (Option.some.inj hprg).symm
    have hw : e.styleBody.cblkw = ((e.tccps 0).cblkwExpn + 254) % 256 := rfl
    have hh : e.styleBody.cblkh = ((e.tccps 0).cblkhExpn + 254) % 256 := rfl
    have hcblk := hreads.cblk_le
    have hwlt := h.cblkw_lt
    have hhlt := h.cblkh_lt
    rw [hdec] at hsiz'
    exact
      { siz_ok := hsiz.mp hsiz'
        csty_lt := csty_lt_eight h.csty_lt hreads.csty_ok
        prg_nonneg := by omega
        prg_lt := by have := hreads.prg_lt; omega
        numLayers_ne := hreads.numLayers_ne
        mct_le := hreads.mct_le
        cblkw_ge := by omega
        cblkh_ge := by omega
        cblk_le := by omega
        cblkStyle_ok := hreads.cblkStyle_ok
        precincts := hiff.mp fun r hr =>
          ⟨hfirst.precWidthExp_eq r hr, hfirst.precHeightExp_eq r hr⟩ }
  · intro hr
    obtain ⟨tcp₁, hcod⟩ := h.readCod_of_readable hr hdec
    have hreads := h.readsCod hcod
    obtain ⟨tcp, hquant, hsteps⟩ := h.readQuant hreads.numComps_eq hreads.fresh
    have hkeeps := readQuantMarkers_keepsStyle hquant
    have hread : readHeader dec e.writeHeader = some (e.siz, tcp) := by
      unfold readHeader
      rw [hdec, show e.writeHeader.siz = SIZMarker.write e.siz from rfl, hsiz.mpr hr.siz_ok,
        Option.bind_some, show e.writeHeader.cod = e.writeCod from rfl,
        show e.siz.comps.length = e.numComps from rfl, hcod, Option.bind_some,
        h.readQuant_eq hreads.numComps_eq, hquant]
      rfl
    refine ⟨tcp, hread, ⟨_, hkeeps.prg_eq.trans hreads.prg_eq,
      (prg_eq hr.prg_nonneg hr.prg_lt).symm⟩, hkeeps.numLayers_eq.trans hreads.numLayers_eq,
      hkeeps.mct_eq.trans hreads.mct_eq, ?_⟩
    intro i hi
    have hstyle := hasStyle_of_unquantized (hkeeps.unquantized_eq i) (hreads.style i hi)
    have hnum : (tcp.tccps i).numresolutions = (e.tccps 0).numresolutions := by
      have hpos := h.numresolutions_pos
      rw [hstyle.numresolutions_eq hreads.noDfs]
      show (e.tccps 0).numresolutions - 1 + 1 = _
      omega
    obtain ⟨⟨_, hw, hh, hcblk, hqmfbid⟩, hprec⟩ := h.style_agrees_iff hstyle hreads.noDfs
      hreads.cblk_le fun hodd r hlt => hreads.precincts_ok hodd r (hnum ▸ hlt)
    have hprec := hprec.mpr hr.precincts
    obtain ⟨hqntsty, hgbits, hstep⟩ := hsteps i hi
    have hsame := h.same i
    refine ⟨?_, ?_, ?_, ?_, ?_, ?_, ?_, hqntsty, hgbits, hstep⟩
    · rw [hnum, hsame]
    · rw [hw, hsame]
    · rw [hh, hsame]
    · rw [hcblk, hsame]
    · rw [hqmfbid, hsame]
    · rw [hsame]
      exact fun r hlt => (hprec r hlt).1
    · rw [hsame]
      exact fun r hlt => (hprec r hlt).2

end Encoder

/-- **The main header of parameters that the compressor accepts is read as it was written if and only
if the parameters are within the limits that the decompressor checks for.** -/
theorem roundTrips_iff_readable (q : Quantizers)
    (profile : CParameters → CImage → Option CParameters) (p : CParameters) (image : CImage)
    (e : Encoder) (h : initCompress q profile p image = some e) (dec : DecompressorParams)
    (hdec : dec.reduce = 0) : e.RoundTrips dec ↔ e.Readable :=
  (initCompress_accepted h).roundTrips_iff hdec

namespace CParameters

/-- Lossless compression with two resolutions, blocks of 64 by 64 and one tile. -/
def lossless : CParameters :=
  { tileSizeOn := false, tx0 := 0, ty0 := 0, tWidth := 0, tHeight := 0, numlayers := 1, csty := 0
    numgbits := 2, progOrder := 0, numresolution := 2, cblockwInit := 64, cblockhInit := 64
    cblkSty := 0, irreversible := false, qfactor := 0, resSpec := 0, prcwInit := fun _ => 0
    prchInit := fun _ => 0, mct := 0, mctData := false, rsiz := 0 }

/-- An image of 4 by 4 with three components. -/
def smallImage (prec : UInt8) : CImage :=
  ⟨0, 0, 4, 4, List.replicate 3 ⟨prec, false, 1, 1, 4, 4⟩, false⟩

/-- The exponent of all step sizes is 9. -/
def flatSteps : Quantizers := ⟨fun _ _ _ _ _ _ _ => 9 * 8, fun _ _ _ _ _ _ => (9, 0)⟩

end CParameters

open CParameters in
theorem roundTrips_iff_readable_lossless :
    initCompress flatSteps (fun p _ => some p) lossless (smallImage 8) =
        some (lossless.encoder flatSteps (smallImage 8)) ∧
      (lossless.encoder flatSteps (smallImage 8)).RoundTrips {} := by
  have hinit : initCompress flatSteps (fun p _ => some p) lossless (smallImage 8) =
      some (lossless.encoder flatSteps (smallImage 8)) := rfl
  refine ⟨hinit, (roundTrips_iff_readable _ _ _ _ _ hinit {} rfl).mpr ?_⟩
  exact
    { siz_ok := by decide, csty_lt := by decide, prg_nonneg := by decide, prg_lt := by decide
      numLayers_ne := by decide, mct_le := by decide, cblkw_ge := by decide, cblkh_ge := by decide
      cblk_le := by decide, cblkStyle_ok := by decide, precincts := fun h => absurd h (by decide) }

open CParameters in
/-- A precision of 17 bits is accepted by the compressor, and refused in the SIZ segment. -/
theorem not_roundTrips_deep :
    initCompress flatSteps (fun p _ => some p) lossless (smallImage 17) =
        some (lossless.encoder flatSteps (smallImage 17)) ∧
      ¬(lossless.encoder flatSteps (smallImage 17)).RoundTrips {} := by
  refine ⟨rfl, ?_⟩
  rintro ⟨tcp, hread, _⟩
  have hnone : (readHeader {} (lossless.encoder flatSteps (smallImage 17)).writeHeader).isNone =
      true := by decide +kernel
  rw [hread] at hnone
  exact nomatch hnone

end GrokCodec.Codestream
