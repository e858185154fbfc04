import GrokCodec.Canvas.PrecinctGrid
import GrokCodec.Codestream.SelectiveTileParts
import GrokCodec.PacketIter.LayerWalk

/-!
The packet mask against the packet iterator. The mask is written in nested loops over indices;
the iterator of the spatial orders goes by the corners of the precincts. Bit `i` of the mask is
meant for packet `i` of the tile.
-/

namespace GrokCodec.T2

open PacketIter Codestream Ordered Resumable List Component Nat

/-- What a decoder asks of a tile. The window is on the reference grid and is padded in the
samples of each resolution. -/
structure DecodeLimits where
  layers : Nat
  resolutions : Nat
  window : Rect
  padding : Nat

/-- Precinct `k` of an axis holds a sample of the padded window. -/
def AxisMeets (a : Axis) (w0 w1 padding k : Nat) : Prop :=
  ∃ v, (a.res0 ≤ v ∧ v < a.res1) ∧
    ((a.grid0 + k) * 2 ^ a.precExp ≤ v ∧ v < (a.grid0 + k + 1) * 2 ^ a.precExp) ∧
    w0 ⌈/⌉ a.dPRJ ≤ v + padding ∧ v < w1 ⌈/⌉ a.dPRJ + padding

/-- A packet of a decoded layer and resolution whose precinct meets the padded window. -/
structure Wanted (T : Tile) (limits : DecodeLimits) (p : Packet) : Prop where
  layno : p.layno < limits.layers
  resno : p.resno < limits.resolutions
  meetsX : AxisMeets (T.axisX p.compno p.resno) limits.window.x0 limits.window.x1 limits.padding
    (p.precinctIndex % (T.axisX p.compno p.resno).count)
  meetsY : AxisMeets (T.axisY p.compno p.resno) limits.window.y0 limits.window.y1 limits.padding
    (p.precinctIndex / (T.axisX p.compno p.resno).count)

/-- The mask has a bit for every wanted packet of the tile. -/
def MaskCovers (T : Tile) (order : ProgOrder) (compression singleProgression : Bool)
    (tileWindow : Rect) : Prop :=
  let it := T.genericIter order compression singleProgression tileWindow
  ∃ ps, Enumerates it.next State.packet (it.start [] 0) ps ∧
    ∀ (limits : DecodeLimits) (i : Nat) (p : Packet), ps[i]? = some p → Wanted T limits p →
      (computePacketMask (tilePacketInfo T order []) limits.resolutions)[i]? = some true

/-- The order of the loops that write the mask. -/
def maskKey (order : ProgOrder) (p : Packet) : List Nat :=
  match order with
  | .lrcp => [p.layno, p.resno, p.compno, p.precinctIndex]
  | .rlcp => [p.resno, p.layno, p.compno, p.precinctIndex]
  | .rpcl => [p.resno, p.precinctIndex, p.compno, p.layno]
  | .pcrl => [p.precinctIndex, p.compno, p.resno, p.layno]
  | .cprl => [p.compno, p.precinctIndex, p.resno, p.layno]
  | .prcl => []

/-- The loops of the mask have a packet wherever the iterator has one, and nowhere one of a higher
resolution. -/
def NeverAhead (T : Tile) (order : ProgOrder) (ps : List Packet) : Prop :=
  ∀ (i : Nat) (p : Packet), ps[i]? = some p →
    ∃ q, (tilePacketInfo T order []).walk[i]? = some q ∧ q.resno ≤ p.resno

/-- Packets of different resolutions come in the same order by precinct index as by precinct
corner. -/
def InStep (T : Tile) (order : ProgOrder) : Prop :=
  ∀ p q, T.Coded p → T.Coded q → p.resno ≠ q.resno →
    maskKey order p < maskKey order q → T.iterKey order p < T.iterKey order q

/-- What the precinct counts of selective fetching take for granted: every level of decomposition
halves both directions, whatever its kernel, and the component bounds are rounded within
32 bits. -/
structure Fetchable (T : Tile) : Prop where
  both : ∀ c < T.numcomps, ∀ i, (T.comps c).horizontalDepth i = i ∧ (T.comps c).verticalDepth i = i
  fits : ∀ c < T.numcomps, T.bounds.x1 + (T.comps c).dx ≤ 2 ^ 32 ∧
    T.bounds.y1 + (T.comps c).dy ≤ 2 ^ 32

/-- The steps of the two orders that mix resolutions reach every precinct corner. -/
def StepsReach (T : Tile) (order : ProgOrder) : Prop :=
  match order with
  | .pcrl => ∀ c < T.numcomps, T.StepReaches c T.updateDx T.updateDy
  | .cprl => T.StepReaches 0 T.updateDx T.updateDy ∧ ∀ c, c + 1 < T.numcomps →
      T.StepReaches (c + 1) ((T.comps c).updateDx 0) ((T.comps c).updateDy 0)
  | _ => True

section Counts

variable {T : Tile} {order : ProgOrder}

theorem tileCompBound_eq {x d : Nat} (hd : 1 ≤ d) (h : x + d ≤ 2 ^ 32) :
    tileCompBound x d = ceildiv x d := by
  have hx : x < 2 ^ 32 := by omega
  rw [ceildiv_eq hd hx, ceilDiv_eq_add_pred_div, tileCompBound, u32_of_lt (by omega)]

variable {c : Nat}

theorem tileCompBounds_eq (hT : Fetchable T) (hc : c < T.numcomps) :
    tileCompBounds T.bounds (T.comps c) = T.bounds.scaleDownCeil (T.comps c).dx (T.comps c).dy := by
  obtain ⟨hx, hy⟩ := hT.fits c hc
  have hxle := T.x_le
  have hyle := T.y_le
  rw [tileCompBounds, Rect.scaleDownCeil, tileCompBound_eq (T.comps c).dx_range.1 (by omega),
    tileCompBound_eq (T.comps c).dy_range.1 (by omega),
    tileCompBound_eq (T.comps c).dx_range.1 (by omega),
    tileCompBound_eq (T.comps c).dy_range.1 (by omega)]

theorem resBounds_eq (c r : Nat) : (T.comps c).resBounds T.bounds r =
    ⟨(T.axisX c r).res0, (T.axisY c r).res0, (T.axisX c r).res1, (T.axisY c r).res1⟩ := by
  have hx1 : T.bounds.x1 < 2 ^ 32 := (T.axisX c r).t1_lt
  have hy1 : T.bounds.y1 < 2 ^ 32 := (T.axisY c r).t1_lt
  have hx0 := T.x_le.trans_lt hx1
  have hy0 := T.y_le.trans_lt hy1
  have hdx := (T.comps c).dx_range.1
  have hdy := (T.comps c).dy_range.1
  simp only [resBounds, Rect.scaleDownCeil, ceildiv_ceildiv_pow hx0 hdx,
    ceildiv_ceildiv_pow hx1 hdx, ceildiv_ceildiv_pow hy0 hdy,
    ceildiv_ceildiv_pow hy1 hdy]
  rfl

/-- Selective fetching counts the precincts that the packet manager counts. -/
theorem tilePacketInfo_precincts (hT : Fetchable T) {r : Nat} (hc : c < T.numcomps)
    (hr : r < (T.comps c).numresolutions) :
    (tilePacketInfo T order []).precincts c r =
      (T.comps c).precinctGridWidth T.bounds r * (T.comps c).precinctGridHeight T.bounds r := by
  have hdepth := hT.both c hc ((T.comps c).numresolutions - 1 - r)
  have hres : (tileCompBounds T.bounds (T.comps c)).scaleDownCeil
      (2 ^ ((T.comps c).numresolutions - 1 - r)) (2 ^ ((T.comps c).numresolutions - 1 - r)) =
        (T.comps c).resBounds T.bounds r := by
    rw [tileCompBounds_eq hT hc, resBounds, depthX, depthY,
      levelsDone, hdepth.1, hdepth.2]
  have hrect : Canvas.IsRect32 ((T.comps c).resBounds T.bounds r) := by
    rw [resBounds_eq]
    have hx1 := (T.axisX c r).res1_lt
    have hy1 := (T.axisY c r).res1_lt
    exact ⟨Axis.res0_le_res1, Axis.res0_le_res1, le_pred_of_lt hx1, le_pred_of_lt hy1⟩
  have hlookup : (tilePacketInfo T order []).precincts c r =
      computeNumPrecincts (tileCompBounds T.bounds (T.comps c)) (T.comps c).numresolutions r
        ((T.comps c).precWidthExp r) ((T.comps c).precHeightExp r) := by
    simp [TilePacketInfo.precincts, tilePacketInfo, hc, hr]
  rw [hlookup, Canvas.computeNumPrecincts_eq hres hrect]
  rfl

theorem tilePacketInfo_resolutions (hc : c < T.numcomps) :
    (tilePacketInfo T order []).resolutions c = (T.comps c).numresolutions := by
  simp [TilePacketInfo.resolutions, tilePacketInfo, hc]

end Counts

section Walk

variable {info : TilePacketInfo}

section Sorted

variable {key : Packet → List Nat} {pre : List Nat} {c r : Nat}

theorem layersOf_under {i : Nat} (hkey : ∀ l, key ⟨c, r, i, l⟩ = pre ++ [l]) :
    SortedUnder key pre (info.layersOf c r i) := by
  unfold TilePacketInfo.layersOf
  split
  · exact .map pairwise_lt_range hkey
  · exact .nil

theorem precinctsOf_under {l : Nat} (hkey : ∀ i, key ⟨c, r, i, l⟩ = pre ++ [i]) :
    SortedUnder key pre (info.precinctsOf l r c) := by
  unfold TilePacketInfo.precinctsOf
  split
  · exact .map pairwise_lt_range hkey
  · exact .nil

end Sorted

theorem walk_sorted (info : TilePacketInfo) : KeySorted (maskKey info.progression) info.walk := by
  unfold TilePacketInfo.walk
  cases info.progression with
  | lrcp | rlcp =>
    exact SortedUnder.sorted (.flatMap pairwise_lt_range fun _ _ => .flatMap pairwise_lt_range
      fun _ _ => .flatMap pairwise_lt_range fun _ _ => precinctsOf_under fun _ => rfl)
  | rpcl =>
    refine SortedUnder.sorted (.flatMap pairwise_lt_range fun _ _ => .flatMap pairwise_lt_range
      fun _ _ => .flatMap pairwise_lt_range fun _ _ => ?_)
    split
    · exact layersOf_under fun _ => rfl
    · exact .nil
  | pcrl | cprl =>
    exact SortedUnder.sorted (.flatMap pairwise_lt_range fun _ _ => .flatMap pairwise_lt_range
      fun _ _ => .flatMap pairwise_lt_range fun _ _ => layersOf_under fun _ => rfl)
  | prcl => exact List.Pairwise.nil

end Walk

section Tile

variable {T : Tile} {order : ProgOrder} {p q : Packet}

theorem mem_tileWalk (hT : Fetchable T) (horder : order ≠ .prcl) :
    p ∈ (tilePacketInfo T order []).walk ↔ T.Coded p := by
  rw [mem_walk horder]
  constructor
  · intro h
    have hc := h.compno
    have hr := h.resno
    have hi := h.precinctIndex
    rw [tilePacketInfo_resolutions hc] at hr
    rw [tilePacketInfo_precincts hT hc hr, T.lt_grid_iff] at hi
    exact ⟨⟨hc, hr, hi.2, h.layno⟩, hi.1⟩
  · rintro ⟨h, hw⟩
    refine ⟨h.compno, ?_, ?_, h.layno⟩
    · rw [tilePacketInfo_resolutions h.compno]
      exact h.resno
    · rw [tilePacketInfo_precincts hT h.compno h.resno, T.lt_grid_iff]
      exact ⟨hw, h.precinctIndex⟩

/-- What the generic iterator hands out, order by order. -/
structure HandedOut (T : Tile) (order : ProgOrder) (ps : List Packet) : Prop where
  ordered : KeySorted (T.iterKey order) ps
  coded : ∀ p ∈ ps, T.Coded p
  all : StepsReach T order → order ≠ .rpcl → ∀ p, T.Coded p → p ∈ ps
  layers : ∀ p ∈ ps, ∀ l < T.numLayers, { p with layno := l } ∈ ps

variable {ps : List Packet}

theorem handedOut_of_mem_iff (hsorted : KeySorted (T.iterKey order) ps)
    (hmem : ∀ p, p ∈ ps ↔ T.Coded p) : HandedOut T order ps :=
  ⟨hsorted, fun p hp => (hmem p).mp hp, fun _ _ p hp => (hmem p).mpr hp, fun p hp l hl => by
    obtain ⟨⟨hc, hr, hi, -⟩, hw⟩ := (hmem p).mp hp
    exact (hmem _).mpr ⟨⟨hc, hr, hi, hl⟩, hw⟩⟩

theorem handedOut_of_found (dx dy : Nat → Nat) (hsorted : KeySorted (T.iterKey order) ps)
    (hmem : ∀ p, p ∈ ps ↔ T.Found (dx p.compno) (dy p.compno) p)
    (hreach : StepsReach T order → order ≠ .rpcl → ∀ c < T.numcomps, T.StepReaches c (dx c) (dy c)) :
    HandedOut T order ps where
  ordered := hsorted
  coded p hp := ((hmem p).mp hp).coded
  all hsteps hne p hp := (hmem p).mpr ((hreach hsteps hne _ hp.1.compno).found hp.1 hp.2)
  layers p hp l hl := by
    have hf := (hmem p).mp hp
    exact (hmem _).mpr ⟨⟨hf.packet.compno, hf.packet.resno, hf.packet.precinctIndex, hl⟩, hf.noWrap,
      hf.x, hf.y⟩

variable {w : Rect}

theorem exists_handedOut (T : Tile) (horder : order ≠ .prcl)
    (compression singleProgression : Bool) (hw : T.NoWindow w) :
    ∃ ps, Enumerates (T.genericIter order compression singleProgression w).next State.packet
      ((T.genericIter order compression singleProgression w).start [] 0) ps ∧
        HandedOut T order ps := by
  obtain ⟨ps, henum, hsorted, hmem⟩ := T.exists_walk order compression singleProgression hw
  refine ⟨ps, henum, ?_⟩
  cases order with
  | lrcp | rlcp => exact handedOut_of_mem_iff hsorted hmem
  | rpcl =>
    exact handedOut_of_found (fun _ => T.updateDx) (fun _ => T.updateDy) hsorted hmem
      fun _ h => absurd rfl h
  | pcrl =>
    exact handedOut_of_found (fun _ => T.updateDx) (fun _ => T.updateDy) hsorted hmem
      fun hsteps _ => hsteps
  | cprl =>
    refine handedOut_of_found T.cprlStepX T.cprlStepY hsorted hmem fun hsteps _ c hc => ?_
    cases c with
    | zero => exact hsteps.1
    | succ c => exact hsteps.2 c hc
  | prcl => exact absurd rfl horder

theorem axisMeets_tile {a : Axis} {k : Nat} (hk : k < a.count) : AxisMeets a a.t0 a.t1 0 k := by
  have hpow := Nat.two_pow_pos a.precExp
  have hres := Axis.lt_of_count_pos (zero_lt_of_lt hk)
  have hupper : (a.grid0 + k) * 2 ^ a.precExp < a.res1 := by
    have hlt := (Axis.lt_count_iff hres).mp hk
    rw [Axis.grid1, lt_ceilDiv_iff hpow, Nat.mul_comm] at hlt
    exact hlt
  have hlower : a.res0 < (a.grid0 + k + 1) * 2 ^ a.precExp := by
    have hdiv := lt_mul_div_succ a.res0 hpow
    rw [Nat.mul_comm] at hdiv
    exact hdiv.trans_le (mul_le_mul_right _ (by rw [Axis.grid0]; omega))
  have hnext : (a.grid0 + k) * 2 ^ a.precExp < (a.grid0 + k + 1) * 2 ^ a.precExp :=
    Nat.mul_lt_mul_of_pos_right (lt_succ_self _) hpow
  refine ⟨max a.res0 ((a.grid0 + k) * 2 ^ a.precExp), ⟨le_max_left _ _, max_lt hres hupper⟩,
    ⟨le_max_right _ _, max_lt hlower hnext⟩, ?_, ?_⟩
  · exact le_max_left _ _
  · exact max_lt hres hupper

theorem wanted_of_hasPacket (hp : T.HasPacket p) :
    Wanted T ⟨T.numLayers, p.resno + 1, T.bounds, 0⟩ p := by
  obtain ⟨hx, hy, -⟩ := MixedRadix.index_iff.mpr ⟨hp.precinctIndex, rfl, rfl⟩
  exact ⟨hp.layno, lt_succ_self _, axisMeets_tile hx, axisMeets_tile hy⟩

theorem computePacketMask_getElem? {info : TilePacketInfo} {resolutions i : Nat} :
    (computePacketMask info resolutions)[i]? = some true ↔
      ∃ q, info.walk[i]? = some q ∧ q.resno < resolutions := by
  simp [computePacketMask]

/-- A mask that is nowhere ahead of the iterator in resolution is one that covers it. -/
theorem maskCovers_iff {compression singleProgression : Bool}
    (henum : Enumerates (T.genericIter order compression singleProgression w).next State.packet
      ((T.genericIter order compression singleProgression w).start [] 0) ps)
    (hout : HandedOut T order ps) :
    MaskCovers T order compression singleProgression w ↔ NeverAhead T order ps := by
  constructor
  · rintro ⟨qs, hqs, hcover⟩ i p hp
    rw [henum.unique hqs] at hp
    have hcoded := hout.coded p (henum.unique hqs ▸ mem_of_getElem? hp)
    obtain ⟨q, hq, hlt⟩ := computePacketMask_getElem?.mp
      (hcover _ i p hp (wanted_of_hasPacket hcoded.1))
    exact ⟨q, hq, le_of_lt_succ hlt⟩
  · intro hle
    refine ⟨ps, henum, fun limits i p hp hwanted => ?_⟩
    obtain ⟨q, hq, hqp⟩ := hle i p hp
    exact computePacketMask_getElem?.mpr ⟨q, hq, hqp.trans_lt hwanted.resno⟩

/-- An order that goes by resolution first is in step whatever comes after. -/
theorem inStep_rpcl (T : Tile) : InStep T .rpcl := by
  intro p q _ _ hres hlt
  simp only [maskKey, cons_lt_cons_iff] at hlt
  exact List.Lex.rel (hlt.resolve_right fun h => hres h.1)

/-- In step, the mask is nowhere ahead of the iterator. -/
theorem neverAhead_of_inStep (hT : Fetchable T) (horder : order ≠ .prcl)
    (hsteps : StepsReach T order) (hout : HandedOut T order ps) (hin : InStep T order) :
    NeverAhead T order ps := by
  have hwalk := walk_sorted (tilePacketInfo T order [])
  have hmem : ∀ a, a ∈ ps → a ∈ (tilePacketInfo T order []).walk := fun a ha =>
    (mem_tileWalk hT horder).mpr (hout.coded a ha)
  intro i p hp
  have hi : i < ps.length := (List.getElem?_eq_some_iff.mp hp).1
  have hq := List.getElem?_eq_getElem
    (hi.trans_le (length_le_of_subset hout.ordered.nodup hmem))
  refine ⟨_, hq, ?_⟩
  by_cases hr : order = .rpcl
  · -- packets may be missing, but both lists go by resolution
    subst hr
    have hfirst : ∀ {a b : Packet} {k k' : List Nat}, a.resno :: k < b.resno :: k' →
        a.resno ≤ b.resno := by
      intro a b k k' hlt
      rcases cons_lt_cons_iff.mp hlt with h | h
      · exact h.le
      · exact h.1.le
    exact label_le_of_sublist (hout.ordered.imp hfirst) (hwalk.imp hfirst) hout.ordered.nodup hmem
      hp hq
  · have hiff : ∀ a, a ∈ ps ↔ a ∈ (tilePacketInfo T order []).walk := fun a =>
      ⟨hmem a, fun ha => hout.all hsteps hr a ((mem_tileWalk hT horder).mp ha)⟩
    have hagree : Agree Packet.resno (T.iterKey order) (maskKey order) ps := fun a ha b hb =>
      hin a b (hout.coded a ha) (hout.coded b hb)
    exact hagree.label_le hout.ordered hwalk hiff hp hq

end Tile

/-- One row of eight samples with one level of decomposition and a precinct size for each of the
two resolutions. -/
def rowOfEight (precExp0 precExp1 : Nat) (h0 : precExp0 ≤ 15) (h1 : 1 ≤ precExp1 ∧ precExp1 ≤ 15) :
    Tile where
  bounds := ⟨0, 0, 8, 1⟩
  numcomps := 1
  comps := fun _ =>
    { Component.part1 1 2 0 0 unit_range two_res zero_exp zero_exp with
      precWidthExp := fun r => if r = 0 then precExp0 else precExp1
      precHeightExp := fun r => if r = 0 then precExp0 else precExp1
      precWidthExp_le := fun r => by
        split
        · exact h0
        · exact h1.2
      precHeightExp_le := fun r => by
        split
        · exact h0
        · exact h1.2
      precExp_pos := fun r hr => by simp only [if_neg hr, h1.1, and_self] }
  numLayers := 1
  x_le := by decide
  y_le := by decide
  x1_le := by decide
  y1_le := by decide
  numcomps_range := one_comp
  numLayers_range := one_layer

/-- Precincts of two samples in both resolutions: two below, four above. -/
def sameSizes : Tile := rowOfEight 1 1 one_exp ⟨le_rfl, one_exp⟩

/-- Precincts of two samples below and of four above: two of each, with the same corners. -/
def halvedSizes : Tile := rowOfEight 1 2 one_exp (by decide)

theorem coded_halvedSizes {p : Packet} (hp : halvedSizes.Coded p) :
    p ∈ [⟨0, 0, 0, 0⟩, ⟨0, 0, 1, 0⟩, ⟨0, 1, 0, 0⟩, (⟨0, 1, 1, 0⟩ : Packet)] := by
  obtain ⟨c, r, i, l⟩ := p
  have hc : c < 1 := hp.1.compno
  have hr : r < 2 := hp.1.resno
  have hl : l < 1 := hp.1.layno
  have hi : i < halvedSizes.numPrecincts c r := hp.1.precinctIndex
  obtain rfl : c = 0 := by omega
  obtain rfl : l = 0 := by omega
  have hcount : ∀ r < 2, halvedSizes.numPrecincts 0 r = 2 := by decide +kernel
  rw [hcount r hr] at hi
  obtain rfl | rfl : r = 0 ∨ r = 1 := by omega
  all_goals obtain rfl | rfl : i = 0 ∨ i = 1 := by omega
  all_goals decide

end GrokCodec.T2
