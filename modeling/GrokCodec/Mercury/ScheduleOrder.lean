import GrokCodec.Mercury.PacketSchedule

/-!
The schedule against the classic packet iterator. For a tile whose bounds and precinct grids mercury
computes as the classic path does, sorting by key gives the walk's sequence; the remaining tiles are
those in which one of the two loses something to fixed-width arithmetic.
-/

namespace GrokCodec.Mercury

open PacketIter Ordered Resumable List Axis Nat MixedRadix

section Axes

variable {a : Axis}

theorem axis_single (h0 : a.t0 = 0) (hpos : 0 < a.t1) (hle : a.t1 ≤ a.stride) :
    a.grid0 = 0 ∧ a.count = 1 ∧ a.corner 0 = 0 := by
  have hres0 : a.res0 = 0 := Nat.le_zero.mp (res0_le_iff.mpr (by omega))
  have hgrid0 : a.grid0 = 0 := by rw [grid0, hres0, Nat.zero_div]
  have hlt : a.res0 < a.res1 := by
    rw [hres0, lt_res1_iff]
    omega
  have hfirst : 0 < a.grid1 := lt_grid1_iff.mpr (by omega)
  have hlast : ¬ 1 < a.grid1 := fun h => by
    have := lt_grid1_iff.mp h
    omega
  refine ⟨hgrid0, ?_, ?_⟩
  · rw [Axis.count, if_pos hlt]
    omega
  · rw [Axis.corner, hgrid0, h0]
    simp

/-- At a spacing beyond the coordinates, only an axis from the origin has a sample, and that
sample's precinct does not wrap. -/
theorem axis_far (h : a.dPRJ = 2 ^ 32) : (0 < a.count ↔ a.t0 = 0 ∧ 0 < a.t1) ∧ a.count ≤ 1 ∧
    (a.precExp ≤ 15 → ¬ a.Wraps) := by
  have ht1 := a.t1_lt
  have hfar : 2 ^ 32 ≤ a.stride := by
    rw [stride, h]
    exact Nat.le_mul_of_pos_right _ (Nat.two_pow_pos _)
  have hgrid1 : a.grid1 ≤ 1 := by
    by_contra hlt
    have := lt_grid1_iff.mp (by omega : 1 < a.grid1)
    omega
  have hres0 : a.res0 ≤ 0 ↔ a.t0 ≤ a.dPRJ * 0 := res0_le_iff
  have hres1 : 0 < a.res1 ↔ a.dPRJ * 0 < a.t1 := lt_res1_iff
  have hone : 1 < a.res1 ↔ a.dPRJ * 1 < a.t1 := lt_res1_iff
  refine ⟨?_, ?_, ?_⟩
  · rw [count_pos_iff]
    omega
  · rw [Axis.count]
    split <;> omega
  · rintro hexp ⟨-, -, hwrap⟩
    have hpow : 2 ^ a.precExp ≤ 2 ^ 15 := Nat.pow_le_pow_right (by decide) hexp
    have : a.grid1 * 2 ^ a.precExp ≤ 1 * 2 ^ 15 := Nat.mul_le_mul hgrid1 hpow
    omega

theorem axis_unit (h : a.dPRJ = 1) : (0 < a.count ↔ a.t0 < a.t1) ∧
    (a.t0 = 0 → a.count ≤ 1 → a.t1 ≤ 2 ^ a.precExp) := by
  have hres (t : Nat) : t ⌈/⌉ a.dPRJ = t := by simp [h]
  have hpos : 0 < a.count ↔ a.t0 < a.t1 := by
    rw [count_pos_iff, res0, res1, hres, hres]
  refine ⟨hpos, fun h0 hcount => ?_⟩
  by_contra hlt
  have hgrid0 : a.grid0 = 0 := by rw [grid0, res0, hres, h0, Nat.zero_div]
  have hstride : a.stride = 2 ^ a.precExp := by rw [stride, h, Nat.one_mul]
  have hnon := count_pos_iff.mp (hpos.mpr (by omega))
  have := (lt_count_iff hnon).mpr (by rw [hgrid0]; exact lt_grid1_iff.mpr (by omega) :
    a.grid0 + 1 < a.grid1)
  omega

end Axes

section Shared

variable {T : Tile}

theorem Alike.pow2Sampled (h : Alike T) : T.Pow2Sampled := fun c hc =>
  ⟨⟨0, (h c hc).1⟩, ⟨0, (h c hc).2.1⟩⟩

theorem Alike.depth (h : Alike T) {c : Nat} (hc : c < T.numcomps) (r : Nat) :
    (T.comps c).depthX r = (T.comps 0).numresolutions - 1 - r ∧
      (T.comps c).depthY r = (T.comps 0).numresolutions - 1 - r := by
  obtain ⟨-, -, hpart1, hnum, -, -⟩ := h c hc
  obtain ⟨hx, hy⟩ := (T.comps c).depth_part1 hpart1 ((T.comps c).levelsDone r)
  refine ⟨hx.trans ?_, hy.trans ?_⟩ <;> rw [Component.levelsDone, hnum]

theorem Alike.dPRJ (h : Alike T) {c : Nat} (hc : c < T.numcomps) (r : Nat) :
    (T.axisX c r).dPRJ = 2 ^ ((T.comps 0).numresolutions - 1 - r) ∧
      (T.axisY c r).dPRJ = 2 ^ ((T.comps 0).numresolutions - 1 - r) := by
  obtain ⟨hdx, hdy, -⟩ := h c hc
  obtain ⟨hx, hy⟩ := h.depth hc r
  refine ⟨?_, ?_⟩
  · change (T.comps c).dx * 2 ^ (T.comps c).depthX r = _
    rw [hdx, hx, Nat.one_mul]
  · change (T.comps c).dy * 2 ^ (T.comps c).depthY r = _
    rw [hdy, hy, Nat.one_mul]

theorem Alike.axis_eq (h : Alike T) {c r : Nat} (hc : c < T.numcomps) (hlost : ¬ ShiftLost T r) :
    axisX T r = T.axisX c r ∧ axisY T r = T.axisY c r := by
  obtain ⟨-, -, -, -, hpw, hph⟩ := h c hc
  obtain ⟨hx, hy⟩ := h.dPRJ hc r
  have hnum := (T.comps 0).numresolutions_range.2
  have hmod : ((T.comps 0).numresolutions - 1 - r) % 32 = (T.comps 0).numresolutions - 1 - r := by
    refine mod_eq_of_lt ?_
    unfold ShiftLost at hlost
    omega
  refine ⟨?_, ?_⟩
  · change mk _ _ (2 ^ _) _ _ _ _ = mk _ _ _ _ _ _ _
    simp only [hmod, mk.injEq, true_and]
    exact ⟨hx.symm, congrFun hpw.symm r⟩
  · change mk _ _ (2 ^ _) _ _ _ _ = mk _ _ _ _ _ _ _
    simp only [hmod, mk.injEq, true_and]
    exact ⟨hy.symm, congrFun hph.symm r⟩

/-- Below 32 decomposition levels a single precinct of resolution 0 covers the tile. -/
def ShiftKept (T : Tile) : Prop :=
  (T.comps 0).numresolutions = 33 →
    (T.bounds.x0 = T.bounds.x1 ∨ T.bounds.y0 = T.bounds.y1) ∨
      (T.bounds.x0 = 0 ∧ T.bounds.y0 = 0 ∧ T.bounds.x1 ≤ 2 ^ (T.comps 0).precWidthExp 0 ∧
        T.bounds.y1 ≤ 2 ^ (T.comps 0).precHeightExp 0)

/-- Mercury has the precinct grid and the precinct positions of the classic path. -/
structure GridKept (T : Tile) (order : ProgressionOrder) (c r : Nat) : Prop where
  countX : (axisX T r).count = (T.axisX c r).count
  countY : (axisY T r).count = (T.axisY c r).count
  posX : ∀ i < (axisX T r).count, precPosition ((axisX T r).grid0 + i) (axisX T r).grid0
    ((codParams T order).precinctWidth r) ((tileGeom T).components c r).x0 (tileGeom T).tileX0
    (2 ^ ((codParams T order).numLevels - r)) = (T.axisX c r).corner i
  posY : ∀ j < (axisY T r).count, precPosition ((axisY T r).grid0 + j) (axisY T r).grid0
    ((codParams T order).precinctHeight r) ((tileGeom T).components c r).y0 (tileGeom T).tileY0
    (2 ^ ((codParams T order).numLevels - r)) = (T.axisY c r).corner j

theorem single_kept {a b : Axis} (ha : a.t0 = 0) (hb : b.t0 = 0)
    (ha1 : 0 < a.t1) (hb1 : 0 < b.t1) (hale : a.t1 ≤ a.stride) (hble : b.t1 ≤ b.stride) :
    a.count = b.count ∧ ∀ span res scale, ∀ i < a.count,
      precPosition (a.grid0 + i) a.grid0 span res a.t0 scale = b.corner i := by
  obtain ⟨hgrid, hcount, -⟩ := axis_single ha ha1 hale
  obtain ⟨-, hcount', hcorner⟩ := axis_single hb hb1 hble
  refine ⟨hcount.trans hcount'.symm, fun _ _ _ i hi => ?_⟩
  obtain rfl : i = 0 := by omega
  rw [hcorner, hgrid, ha]
  unfold precPosition
  split <;> simp

theorem Alike.gridKept (h : Alike T) (hkept : ShiftKept T) (order : ProgressionOrder) {c r : Nat}
    (hc : c < T.numcomps) (hx : T.bounds.x0 < T.bounds.x1) (hy : T.bounds.y0 < T.bounds.y1) :
    GridKept T order c r := by
  obtain ⟨hdx, hdy⟩ := h.dPRJ hc r
  by_cases hlost : ShiftLost T r
  · obtain ⟨hnum, rfl⟩ := hlost
    obtain ⟨hx0, hy0, hx1, hy1⟩ := (hkept hnum).resolve_left (by omega)
    obtain ⟨-, -, -, -, hpw, hph⟩ := h c hc
    have hx1pos : 0 < T.bounds.x1 := by omega
    have hy1pos : 0 < T.bounds.y1 := by omega
    have hwide {a : Axis} {t : Nat} (hle : t ≤ 2 ^ a.precExp) : t ≤ a.stride :=
      hle.trans (Nat.le_mul_of_pos_left _ a.dPRJ_pos)
    have hX := single_kept (a := axisX T 0) (b := T.axisX c 0) hx0 hx0 hx1pos hx1pos
      (hwide hx1) (hwide (by rw [← hpw] at hx1; exact hx1))
    have hY := single_kept (a := axisY T 0) (b := T.axisY c 0) hy0 hy0 hy1pos hy1pos
      (hwide hy1) (hwide (by rw [← hph] at hy1; exact hy1))
    exact ⟨hX.1, hY.1, hX.2 _ _ _, hY.2 _ _ _⟩
  · obtain ⟨hX, hY⟩ := h.axis_eq hc hlost
    have hscaleX : 2 ^ ((codParams T order).numLevels - r) = (axisX T r).dPRJ := by
      rw [hX, hdx]
      rfl
    have hscaleY : 2 ^ ((codParams T order).numLevels - r) = (axisY T r).dPRJ := by
      rw [hY, hdy]
      rfl
    refine ⟨by rw [hX], by rw [hY], fun i _ => ?_, fun j _ => ?_⟩
    · rw [hscaleX, ← hX]
      exact precPosition_eq
    · rw [hscaleY, ← hY]
      exact precPosition_eq

def ProgressionOrder.toGrok : ProgressionOrder → ProgOrder
  | .lrcp => .lrcp
  | .rlcp => .rlcp
  | .rpcl => .rpcl
  | .pcrl => .pcrl
  | .cprl => .cprl

/-- The step of one component reaches the precincts of a component like it. -/
theorem Alike.stepReaches (h : Alike T) {c c' : Nat} (hc : c < T.numcomps) (hc' : c' < T.numcomps) :
    T.StepReaches c' ((T.comps c).updateDx 0) ((T.comps c).updateDy 0) := by
  obtain ⟨hdx, hdy, -, hnum, hpw, hph⟩ := h c hc
  obtain ⟨hdx', hdy', -, hnum', hpw', hph'⟩ := h c' hc'
  obtain ⟨hx1, hy1⟩ := And.intro T.x1_le T.y1_le
  have hstride (r : Nat) : (T.comps c').strideX r = (T.comps c).strideX r ∧
      (T.comps c').strideY r = (T.comps c).strideY r := by
    obtain ⟨hX, hY⟩ := h.depth hc r
    obtain ⟨hX', hY'⟩ := h.depth hc' r
    simp only [Component.strideX, Component.strideY, *, and_self]
  have hpow (r : Nat) : (∃ k, (T.comps c).strideX r = 2 ^ k) ∧
      ∃ k, (T.comps c).strideY r = 2 ^ k := by
    rw [Component.strideX, Component.strideY, hdx, hdy, Nat.one_mul, Nat.one_mul]
    exact ⟨⟨_, rfl⟩, ⟨_, rfl⟩⟩
  intro r hr _
  have hr' : r < (T.comps c).numresolutions := by omega
  refine ⟨fun q h0 h1 hd => ?_, fun q h0 h1 hd => ?_⟩
  · have hle := le_of_dvd (by omega) hd
    rw [(hstride r).1] at hd hle
    exact (@commonStep_dvd 1 (fun _ => (T.comps c).numresolutions) (fun _ => (T.comps c).strideX)
      (fun _ _ r => (hpow r).1) 0 r (by decide) hr' (by omega)).trans hd
  · have hle := le_of_dvd (by omega) hd
    rw [(hstride r).2] at hd hle
    exact (@commonStep_dvd 1 (fun _ => (T.comps c).numresolutions) (fun _ => (T.comps c).strideY)
      (fun _ _ r => (hpow r).2) 0 r (by decide) hr' (by omega)).trans hd

/-- What the classic path hands out: all packets whose grid does not wrap, in the order of the
progression. -/
theorem Alike.enumerates (h : Alike T) (order : ProgressionOrder) (compression single : Bool)
    {w : Rect} (hw : T.NoWindow w) :
    ∃ ps, Enumerates (T.genericIter order.toGrok compression single w).next State.packet
        ((T.genericIter order.toGrok compression single w).start [] 0) ps ∧
      (∀ p, p ∈ ps ↔ T.Coded p) ∧
      KeySorted (T.iterKey order.toGrok) ps := by
  have hfound {p : Packet} {dx dy : Nat}
      (hreach : p.compno < T.numcomps → T.StepReaches p.compno dx dy) :
      T.Found dx dy p ↔ T.Coded p :=
    ⟨fun hf => hf.coded, fun hp => (hreach hp.1.compno).found hp.1 hp.2⟩
  obtain ⟨ps, henum, hsorted, hmem⟩ := T.exists_walk order.toGrok compression single hw
  refine ⟨ps, henum, fun p => (hmem p).trans ?_, hsorted⟩
  cases order with
  | lrcp | rlcp => exact Iff.rfl
  | rpcl | pcrl => exact hfound h.pow2Sampled.stepReaches
  | cprl =>
    refine hfound fun hc => ?_
    generalize p.compno = c at hc
    cases c with
    | zero => exact h.pow2Sampled.stepReaches hc
    | succ c => exact h.stepReaches (by omega) hc

theorem lt_of_res_lt {a : Axis} (h : a.res0 < a.res1) : a.t0 < a.t1 :=
  lt_of_le_of_lt (res0_le_iff.mp le_rfl) (lt_res1_iff.mp h)

/-- No raster index of the tile leaves 32 bits. -/
def IndexFits (T : Tile) : Prop :=
  ∀ c < T.numcomps, ∀ r < (T.comps 0).numresolutions, T.numPrecincts c r ≤ 2 ^ 32

/-- The key of a slot, with precinct positions as the classic path has them. -/
def slotKey (T : Tile) (c r i j l : Nat) : ProgressionOrder → List Nat
  | .lrcp => [l, r, c, (axisY T r).grid0 + j, (axisX T r).grid0 + i]
  | .rlcp => [r, l, c, (axisY T r).grid0 + j, (axisX T r).grid0 + i]
  | .rpcl => [r, (T.axisY c r).corner j, (T.axisX c r).corner i, c, l]
  | .pcrl => [(T.axisY c r).corner j, (T.axisX c r).corner i, c, r, l]
  | .cprl => [c, (T.axisY c r).corner j, (T.axisX c r).corner i, r, l]

theorem key_slot {order : ProgressionOrder} {c r i j l : Nat} (hkept : GridKept T order c r)
    (hj : j < (axisY T r).count) (hi : i < (axisX T r).count) :
    key (codParams T order) (tileGeom T) (slot T c r i j l) = slotKey T c r i j l order := by
  have hgrid := grid_of_pos T order c (zero_lt_of_lt hi) (zero_lt_of_lt hj)
  simp only [key, slot, hgrid, hkept.posX i hi, hkept.posY j hj]
  cases order <;> rfl

/-- The packet of a slot, in the terms of the classic path. -/
structure SlotOf (T : Tile) (order : ProgressionOrder) (c r i j l : Nat) : Prop where
  col : i < (axisX T r).count
  countX : (axisX T r).count = (T.axisX c r).count
  key_eq : key (codParams T order) (tileGeom T) (slot T c r i j l) = slotKey T c r i j l order
  packet_eq : packet (codParams T order) (tileGeom T) (slot T c r i j l) =
    ⟨c, r, i + j * (T.axisX c r).count, l⟩
  has : T.HasPacket ⟨c, r, i + j * (T.axisX c r).count, l⟩
  precX : T.precX ⟨c, r, i + j * (T.axisX c r).count, l⟩ = (T.axisX c r).corner i
  precY : T.precY ⟨c, r, i + j * (T.axisX c r).count, l⟩ = (T.axisY c r).corner j

theorem Alike.slotOf (h : Alike T) (hkept : ShiftKept T) (hfits : IndexFits T)
    (order : ProgressionOrder) {c r i j l : Nat} (hc : c < T.numcomps)
    (hr : r < (T.comps 0).numresolutions) (hj : j < (axisY T r).count)
    (hi : i < (axisX T r).count) (hl : l < T.numLayers) : SlotOf T order c r i j l := by
  have hx := lt_of_res_lt (a := axisX T r) (lt_of_count_pos (zero_lt_of_lt hi))
  have hy := lt_of_res_lt (a := axisY T r) (lt_of_count_pos (zero_lt_of_lt hj))
  have hgrid := h.gridKept hkept order hc hx hy (r := r)
  obtain ⟨hindex, hmod, hdiv⟩ := index_iff.mp ⟨hgrid.countX ▸ hi, hgrid.countY ▸ hj, rfl⟩
  have hlt := lt_of_lt_of_le hindex (hfits c hc r hr)
  refine ⟨hi, hgrid.countX, key_slot hgrid hj hi, ?_, ⟨hc, (h c hc).2.2.2.1 ▸ hr, hindex, hl⟩,
    ?_, ?_⟩
  · rw [packet_slot T order hj hi, hgrid.countX, u32_of_lt hlt]
  · rw [Tile.precX, ← hmod]
  · rw [Tile.precY, ← hdiv]

theorem Alike.exists_slotOf (h : Alike T) (hkept : ShiftKept T) (hfits : IndexFits T)
    (order : ProgressionOrder) {s : Slot} (hs : s ∈ slots (codParams T order) (tileGeom T)) :
    ∃ c r i j l, s = slot T c r i j l ∧ SlotOf T order c r i j l := by
  obtain ⟨c, hc, r, hr, j, hj, i, hi, l, hl, rfl⟩ := (mem_slots_iff T order).mp hs
  exact ⟨c, r, i, j, l, rfl, h.slotOf hkept hfits order hc hr hj hi hl⟩

section Keys

variable {order : ProgressionOrder} {c r i j l c' r' i' j' l' : Nat}

theorem SlotOf.key_lt (h : SlotOf T order c r i j l) (h' : SlotOf T order c' r' i' j' l')
    (hlt : key (codParams T order) (tileGeom T) (slot T c r i j l) <
      key (codParams T order) (tileGeom T) (slot T c' r' i' j' l')) :
    T.iterKey order.toGrok (packet (codParams T order) (tileGeom T) (slot T c r i j l)) <
      T.iterKey order.toGrok (packet (codParams T order) (tileGeom T) (slot T c' r' i' j' l')) := by
  have hraster (hr : r = r') (hc : c = c')
      (hpos : [(axisY T r).grid0 + j, (axisX T r).grid0 + i] <
        [(axisY T r').grid0 + j', (axisX T r').grid0 + i']) :
      i + j * (T.axisX c r).count < i' + j' * (T.axisX c' r').count := by
    subst hr hc
    refine (index_lt_iff (h.countX ▸ h.col) (h.countX ▸ h'.col)).mpr ?_
    simp only [cons_lt_cons_iff, not_lt_nil, and_false, or_false] at hpos
    omega
  rw [h.key_eq, h'.key_eq] at hlt
  rw [h.packet_eq, h'.packet_eq]
  cases order with
  | lrcp =>
    refine (append_lt_iff (p := [l, r, c]) (q := [l', r', c']) rfl).mpr ?_
    refine ((append_lt_iff (p := [l, r, c]) (q := [l', r', c']) rfl).mp hlt).imp_right ?_
    rintro ⟨heq, hpos⟩
    simp only [List.cons.injEq, and_true] at heq
    exact ⟨by simp only [heq], lt_of_prefix_lt [] [] [] (hraster heq.2.1 heq.2.2 hpos)⟩
  | rlcp =>
    refine (append_lt_iff (p := [r, l, c]) (q := [r', l', c']) rfl).mpr ?_
    refine ((append_lt_iff (p := [r, l, c]) (q := [r', l', c']) rfl).mp hlt).imp_right ?_
    rintro ⟨heq, hpos⟩
    simp only [List.cons.injEq, and_true] at heq
    exact ⟨by simp only [heq], lt_of_prefix_lt [] [] [] (hraster heq.1 heq.2.2 hpos)⟩
  | rpcl | pcrl | cprl =>
    simp only [Tile.iterKey, ProgressionOrder.toGrok, Tile.rpclKey, Tile.pcrlKey, Tile.cprlKey,
      h.precX, h.precY, h'.precX, h'.precY]
    exact hlt

theorem SlotOf.key_injective (h : SlotOf T order c r i j l) (h' : SlotOf T order c' r' i' j' l')
    (heq : key (codParams T order) (tileGeom T) (slot T c r i j l) =
      key (codParams T order) (tileGeom T) (slot T c' r' i' j' l')) :
    slot T c r i j l = slot T c' r' i' j' l' := by
  have hcorner (hc : c = c') (hr : r = r') (hy : (T.axisY c r).corner j = (T.axisY c' r').corner j')
      (hx : (T.axisX c r).corner i = (T.axisX c' r').corner i') : j = j' ∧ i = i' := by
    subst hc hr
    exact ⟨corner_strictMono.injective hy, corner_strictMono.injective hx⟩
  rw [h.key_eq, h'.key_eq] at heq
  cases order <;> simp only [slotKey, List.cons.injEq, and_true] at heq
  case lrcp =>
    obtain ⟨hl, hr, hc, hy, hx⟩ := heq
    rw [slot, slot, hy, hx, hl, hc, hr]
  case rlcp =>
    obtain ⟨hr, hl, hc, hy, hx⟩ := heq
    rw [slot, slot, hy, hx, hl, hc, hr]
  case rpcl =>
    obtain ⟨hr, hy, hx, hc, hl⟩ := heq
    obtain ⟨rfl, rfl⟩ := hcorner hc hr hy hx
    rw [hr, hc, hl]
  case pcrl =>
    obtain ⟨hy, hx, hc, hr, hl⟩ := heq
    obtain ⟨rfl, rfl⟩ := hcorner hc hr hy hx
    rw [hr, hc, hl]
  case cprl =>
    obtain ⟨hc, hy, hx, hr, hl⟩ := heq
    obtain ⟨rfl, rfl⟩ := hcorner hc hr hy hx
    rw [hr, hc, hl]

end Keys

theorem Alike.exists_slot (h : Alike T) (hkept : ShiftKept T) (hfits : IndexFits T)
    (order : ProgressionOrder) {p : Packet} (hp : T.HasPacket p) :
    ∃ s ∈ slots (codParams T order) (tileGeom T), packet (codParams T order) (tileGeom T) s = p := by
  obtain ⟨c, r, k, l⟩ := p
  obtain ⟨hc, hr, hk, hl⟩ := hp
  obtain ⟨hi, hj, hindex⟩ := index_iff.mpr ⟨hk, rfl, rfl⟩
  have hx := lt_of_res_lt (a := T.axisX c r) (lt_of_count_pos (zero_lt_of_lt hi))
  have hy := lt_of_res_lt (a := T.axisY c r) (lt_of_count_pos (zero_lt_of_lt hj))
  have hgrid := h.gridKept hkept order hc hx hy (r := r)
  have hr' := (h c hc).2.2.2.1 ▸ hr
  rw [← hgrid.countX] at hi
  rw [← hgrid.countY] at hj
  have hslot := h.slotOf hkept hfits order hc hr' hj hi hl
  refine ⟨_, (mem_slots_iff T order).mpr ⟨c, hc, r, hr', _, hj, _, hi, l, hl, rfl⟩, ?_⟩
  rw [hslot.packet_eq, hgrid.countX, ← hindex]

/-- Where mercury's grids are those of the classic path it lists every packet, in order. -/
theorem Alike.schedule_of (h : Alike T) (hwrap : T.NoWrap) (hfits : IndexFits T)
    (hkept : ShiftKept T) (order : ProgressionOrder) {ps : List Packet}
    (hmem : ∀ p, p ∈ ps ↔ T.Coded p)
    (hsorted : KeySorted (T.iterKey order.toGrok) ps) :
    ps = schedule (codParams T order) (tileGeom T) := by
  have hkeys : KeySorted (key (codParams T order) (tileGeom T)) _ :=
    keySorted_mergeSort (nodup_slots (codParams T order) (tileGeom T)) (by
      intro s hs s' hs' heq
      obtain ⟨c, r, i, j, l, rfl, hslot⟩ := h.exists_slotOf hkept hfits order hs
      obtain ⟨c', r', i', j', l', rfl, hslot'⟩ := h.exists_slotOf hkept hfits order hs'
      exact hslot.key_injective hslot' heq)
  refine (hsorted.eq_map_iff hkeys).mpr ⟨fun p => ?_, ?_⟩
  · simp only [mem_mergeSort, hmem]
    constructor
    · rintro ⟨hp, -⟩
      exact h.exists_slot hkept hfits order hp
    · rintro ⟨s, hs, rfl⟩
      obtain ⟨c, r, i, j, l, rfl, hslot⟩ := h.exists_slotOf hkept hfits order hs
      rw [hslot.packet_eq]
      exact ⟨hslot.has, hwrap c hslot.has.compno r hslot.has.resno⟩
  · intro s hs s' hs' hlt
    rw [mem_mergeSort] at hs hs'
    obtain ⟨c, r, i, j, l, rfl, hslot⟩ := h.exists_slotOf hkept hfits order hs
    obtain ⟨c', r', i', j', l', rfl, hslot'⟩ := h.exists_slotOf hkept hfits order hs'
    exact hslot.key_lt hslot' hlt

/-- The true grid below 32 levels: at most one precinct, and only in a tile at the origin. -/
theorem Alike.far (h : Alike T) {c : Nat} (hc : c < T.numcomps)
    (hnum : (T.comps 0).numresolutions = 33) : T.numPrecincts c 0 ≤ 1 ∧ ¬ T.Wraps c 0 ∧
      (0 < T.numPrecincts c 0 → T.bounds.x0 = 0 ∧ T.bounds.y0 = 0) := by
  obtain ⟨hdx, hdy⟩ := h.dPRJ hc 0
  rw [hnum] at hdx hdy
  obtain ⟨hx, hxle, hxwrap⟩ := axis_far hdx
  obtain ⟨hy, hyle, hywrap⟩ := axis_far hdy
  refine ⟨Nat.mul_le_mul hxle hyle, ?_, fun hpos => ⟨?_, ?_⟩⟩
  · rintro ⟨-, hw | hw⟩
    · exact hxwrap ((T.comps c).precWidthExp_le 0) hw
    · exact hywrap ((T.comps c).precHeightExp_le 0) hw
  · exact (hx.mp (Nat.pos_of_mul_pos_right hpos)).1
  · exact (hy.mp (Nat.pos_of_mul_pos_left hpos)).1

/-- The lost shift shows, unless the tile has no samples or one precinct at the origin. -/
theorem Alike.shiftKept_of (h : Alike T)
    (hin : ∀ j < (axisY T 0).count, ∀ i < (axisX T 0).count,
      u32 (i + j * (axisX T 0).count) < T.numPrecincts 0 0) : ShiftKept T := by
  intro hnum
  refine or_iff_not_imp_left.mpr fun hempty => ?_
  obtain ⟨hle, -, horigin⟩ := h.far T.numcomps_range.1 hnum
  have hdx : (axisX T 0).dPRJ = 1 := by
    change 2 ^ (((T.comps 0).numresolutions - 1 - 0) % 32) = 1
    rw [hnum]
    rfl
  have hdy : (axisY T 0).dPRJ = 1 := hdx
  obtain ⟨hxlt, hylt⟩ : T.bounds.x0 < T.bounds.x1 ∧ T.bounds.y0 < T.bounds.y1 := by
    have := T.x_le
    have := T.y_le
    omega
  have hxpos := (axis_unit hdx).1.mpr hxlt
  have hypos := (axis_unit hdy).1.mpr hylt
  obtain ⟨hx0, hy0⟩ := horigin (zero_lt_of_lt (hin 0 hypos 0 hxpos))
  have hxone : (axisX T 0).count ≤ 1 := by
    by_contra hlt
    have := hin 0 hypos 1 (by omega)
    rw [Nat.zero_mul, u32_of_lt (by decide)] at this
    omega
  have hyone : (axisY T 0).count ≤ 1 := by
    by_contra hlt
    have := hin 1 (by omega) 0 hxpos
    rw [show (axisX T 0).count = 1 by omega, u32_of_lt (by decide)] at this
    omega
  exact ⟨hx0, hy0, (axis_unit hdx).2 hx0 hxone, (axis_unit hdy).2 hy0 hyone⟩

theorem Alike.of_schedule (h : Alike T) (order : ProgressionOrder)
    (hmem : ∀ p, p ∈ schedule (codParams T order) (tileGeom T) ↔
      T.Coded p) : T.NoWrap ∧ IndexFits T ∧ ShiftKept T := by
  have hin {c r j i : Nat} (hc : c < T.numcomps) (hr : r < (T.comps 0).numresolutions)
      (hj : j < (axisY T r).count) (hi : i < (axisX T r).count) :
      T.HasPacket ⟨c, r, u32 (i + j * (axisX T r).count), 0⟩ ∧ ¬ T.Wraps c r := by
    refine (hmem ⟨c, r, _, 0⟩).mp ((mem_schedule _ _).mpr ⟨slot T c r i j 0, ?_, ?_⟩)
    · exact (mem_slots_iff T order).mpr
        ⟨c, hc, r, hr, j, hj, i, hi, 0, T.numLayers_range.1, rfl⟩
    · exact packet_slot T order hj hi
  have hwrap : T.NoWrap := by
    intro c hc r hr hw
    have hr' : r < (T.comps 0).numresolutions := (h c hc).2.2.2.1 ▸ hr
    by_cases hlost : ShiftLost T r
    · obtain ⟨hnum, rfl⟩ := hlost
      exact (h.far hc hnum).2.1 hw
    · obtain ⟨hX, hY⟩ := h.axis_eq hc hlost
      exact (hin hc hr' (hY ▸ Nat.pos_of_mul_pos_left hw.1)
        (hX ▸ Nat.pos_of_mul_pos_right hw.1)).2 hw
  refine ⟨hwrap, fun c hc r hr => ?_, h.shiftKept_of fun j hj i hi => ?_⟩
  · by_contra hlt
    have hr' := (h c hc).2.2.2.1 ▸ hr
    have hp : T.HasPacket ⟨c, r, 2 ^ 32, 0⟩ :=
      ⟨hc, hr', by show 2 ^ 32 < T.numPrecincts c r; omega, T.numLayers_range.1⟩
    obtain ⟨s, -, hs⟩ := (mem_schedule _ _).mp ((hmem _).mpr ⟨hp, hwrap c hc r hr'⟩)
    have hindex : u32 _ = 2 ^ 32 := congrArg Packet.precinctIndex hs
    have := u32_lt ((s.py - (grid (codParams T order) ((tileGeom T).components s.c s.r) s.r).2.1) *
      (grid (codParams T order) ((tileGeom T).components s.c s.r) s.r).1.2 +
      (s.px - (grid (codParams T order) ((tileGeom T).components s.c s.r) s.r).1.1))
    omega
  · exact (hin T.numcomps_range.1 (T.comps 0).numresolutions_range.1 hj hi).1.precinctIndex

theorem Alike.schedule_iff (h : Alike T) (order : ProgressionOrder) {ps : List Packet}
    (hmem : ∀ p, p ∈ ps ↔ T.Coded p)
    (hsorted : KeySorted (T.iterKey order.toGrok) ps) :
    ps = schedule (codParams T order) (tileGeom T) ↔ T.NoWrap ∧ IndexFits T ∧ ShiftKept T := by
  constructor
  · rintro rfl
    exact h.of_schedule order hmem
  · rintro ⟨hwrap, hfits, hkept⟩
    exact h.schedule_of hwrap hfits hkept order hmem hsorted

end Shared

section Edges

/-- The far edge of a tile fits 32 bits. -/
def SizAxis.EdgeFits (a : SizAxis) (t : Nat) : Prop := a.tOSiz + (t + 1) * a.tSiz ≤ uintMax

instance (a : SizAxis) (t : Nat) : Decidable (a.EdgeFits t) := inferInstanceAs (Decidable (_ ≤ _))

variable {a : SizAxis} {t : Nat}

theorem SizAxis.edges_of_fits (h : a.EdgeFits t) : a.edges t = a.classicEdges t := by
  have hlt : a.tOSiz + (t + 1) * a.tSiz < 2 ^ 32 := by
    have : uintMax < 2 ^ 32 := by decide
    unfold EdgeFits at h
    omega
  rw [edges, classicEdges, u32_of_lt (by omega : (t + 1) * a.tSiz < 2 ^ 32), u32_of_lt hlt]

/-- An edge that wraps comes out left of the tile. -/
theorem SizAxis.edges_of_not_fits (ht : t < a.tiles) (h : ¬ a.EdgeFits t) :
    (a.edges t).2 ≤ (a.edges t).1 := by
  have hmax : uintMax + 1 = 2 ^ 32 := by decide
  have hsiz := a.siz_le
  obtain ⟨-, htSiz⟩ := a.tSiz_range
  have hin := (lt_ceilDiv_iff a.tSiz_range.1).mp ht
  rw [Nat.mul_comm] at hin
  unfold EdgeFits at h
  have hsucc : (t + 1) * a.tSiz = t * a.tSiz + a.tSiz := succ_mul t a.tSiz
  have hlow : u32 (a.tOSiz + u32 (t * a.tSiz)) = a.tOSiz + t * a.tSiz := by
    rw [u32_of_lt (by omega : t * a.tSiz < 2 ^ 32), u32_of_lt (by omega)]
  have hhigh : u32 (a.tOSiz + u32 ((t + 1) * a.tSiz)) =
      a.tOSiz + (t + 1) * a.tSiz - 2 ^ 32 := by
    unfold u32
    omega
  rw [edges, hlow, hhigh]
  refine le_trans (Nat.min_le_left _ _) (le_trans ?_ (Nat.le_max_left _ _))
  omega

end Edges

section Tiles

variable {T : Tile} {siz : SizParams} {tileIdx : Nat}

/-- Both far edges of a tile fit 32 bits. -/
def SizParams.EdgesFit (siz : SizParams) (tileIdx : Nat) : Prop :=
  siz.x.EdgeFits (tileIdx % siz.x.tiles) ∧ siz.y.EdgeFits (tileIdx / siz.x.tiles)

instance (siz : SizParams) (tileIdx : Nat) : Decidable (siz.EdgesFit tileIdx) :=
  inferInstanceAs (Decidable (_ ∧ _))

theorem SizParams.tileBounds_of_fits (h : siz.EdgesFit tileIdx) :
    siz.tileBounds tileIdx = siz.getTileBounds tileIdx := by
  rw [tileBounds, getTileBounds, SizAxis.edges_of_fits h.1, SizAxis.edges_of_fits h.2]

/-- With a wrapped edge the tile has no samples for mercury. -/
theorem schedule_of_not_fits (htile : tileIdx < siz.numTiles) (h : ¬ siz.EdgesFit tileIdx)
    (cod : CodParams) (numComps numLevels : Nat) :
    schedule cod (chartTileGeom siz numComps numLevels tileIdx) = [] := by
  have htx : tileIdx % siz.x.tiles < siz.x.tiles := by
    refine mod_lt _ (Nat.pos_of_ne_zero fun h0 => ?_)
    rw [SizParams.numTiles, h0, Nat.zero_mul] at htile
    cases htile
  have hty := Nat.div_lt_of_lt_mul htile
  have hempty (c r : Nat) :
      ((chartTileGeom siz numComps numLevels tileIdx).components c r).x1 ≤
        ((chartTileGeom siz numComps numLevels tileIdx).components c r).x0 ∨
      ((chartTileGeom siz numComps numLevels tileIdx).components c r).y1 ≤
        ((chartTileGeom siz numComps numLevels tileIdx).components c r).y0 := by
    have hmono {lo hi : Nat} (hle : hi ≤ lo) : hi ⌈/⌉ 2 ^ ((numLevels - r) % 32) ≤
        lo ⌈/⌉ 2 ^ ((numLevels - r) % 32) := by
      have hstep := Nat.two_pow_pos ((numLevels - r) % 32)
      exact (ceilDiv_le_iff_le_mul hstep).mpr (hle.trans ((ceilDiv_le_iff_le_mul hstep).mp le_rfl))
    rcases not_and_or.mp h with hx | hy
    · exact .inl (hmono (SizAxis.edges_of_not_fits htx hx))
    · exact .inr (hmono (SizAxis.edges_of_not_fits hty hy))
  refine eq_nil_iff_forall_not_mem.mpr fun p hp => ?_
  obtain ⟨s, hs, -⟩ := (mem_schedule _ _).mp hp
  obtain ⟨-, -, ⟨j, hj, -⟩, -⟩ := (mem_slots _ _).mp hs
  rw [grid, if_pos (hempty s.c s.r)] at hj
  cases hj

/-- Every precinct grid of the tile is empty, or is lost to 32-bit arithmetic. -/
def NothingLeft (T : Tile) : Prop :=
  ∀ c < T.numcomps, ∀ r < (T.comps c).numresolutions, T.numPrecincts c r = 0 ∨ T.Wraps c r

theorem nothingLeft_iff {ps : List Packet}
    (hmem : ∀ p, p ∈ ps ↔ T.Coded p) :
    ps = [] ↔ NothingLeft T := by
  rw [eq_nil_iff_forall_not_mem]
  constructor
  · intro hnil c hc r hr
    refine or_iff_not_imp_left.mpr fun hpos => by_contra fun hw => ?_
    exact hnil ⟨c, r, 0, 0⟩
      ((hmem _).mpr ⟨⟨hc, hr, Nat.pos_of_ne_zero hpos, T.numLayers_range.1⟩, hw⟩)
  · intro hleft p hp
    obtain ⟨hhas, hw⟩ := (hmem p).mp hp
    have hzero := (hleft _ hhas.compno _ hhas.resno).resolve_right hw
    have := hhas.precinctIndex
    omega

/-- **Mercury's schedule is the sequence of the classic iterator exactly when** no precinct is smaller
than a code-block, which mercury refuses, the tile's edges fit 32 bits and neither side loses a
precinct grid: no grid wraps in the classic path, no raster index leaves 32 bits, and the shift of 32
levels changes nothing. A tile whose edges do not fit has no packets for mercury. -/
theorem schedule_eq_iff (T : Tile) (h : Alike T) (siz : SizParams) (tileIdx : Nat)
    (htile : tileIdx < siz.numTiles) (hbounds : T.bounds = siz.getTileBounds tileIdx)
    (order : ProgressionOrder) (blockW blockH : Nat) (compression single : Bool) (w : Rect)
    (hw : T.NoWindow w) :
    (∃ ps, combTile (codParams T order)
        (chartTileGeom siz T.numcomps ((T.comps 0).numresolutions - 1) tileIdx) blockW blockH =
          .ok ps ∧
      Enumerates (T.genericIter order.toGrok compression single w).next State.packet
        ((T.genericIter order.toGrok compression single w).start [] 0) ps) ↔
      (∀ r < (T.comps 0).numresolutions, tooSmall (codParams T order) blockW blockH r = false) ∧
        if siz.EdgesFit tileIdx then T.NoWrap ∧ IndexFits T ∧ ShiftKept T else NothingLeft T := by
  obtain ⟨ps, hps, hmem, hsorted⟩ := h.enumerates order compression single hw
  have hiff {qs : List Packet} : Enumerates _ State.packet _ qs ↔ ps = qs :=
    ⟨hps.unique, fun heq => heq ▸ hps⟩
  have hlevels : ∀ r, r ≤ (codParams T order).numLevels ↔ r < (T.comps 0).numresolutions := by
    intro r
    have := (T.comps 0).numresolutions_range.1
    change r ≤ (T.comps 0).numresolutions - 1 ↔ _
    omega
  simp only [combTile_eq_ok_iff, hiff, hlevels, and_assoc, exists_and_left, exists_eq_left']
  refine and_congr_right fun _ => ?_
  split
  case isTrue hfits =>
    rw [chartTileGeom, SizParams.tileBounds_of_fits hfits, ← hbounds]
    exact h.schedule_iff order hmem hsorted
  case isFalse hfits =>
    rw [schedule_of_not_fits htile hfits]
    exact nothingLeft_iff hmem

end Tiles

/-- A component with the largest precincts. -/
def wholeComponent (numresolutions : Nat) (h : 1 ≤ numresolutions ∧ numresolutions ≤ 33) : Component :=
  .part1 1 numresolutions 15 15 unit_range h max_exp max_exp

/-- An 8 by 8 tile whose origin is at `(8, 8)`. -/
def secondTile (numresolutions : Nat) (h : 1 ≤ numresolutions ∧ numresolutions ≤ 33) : Tile where
  bounds := ⟨8, 8, 16, 16⟩
  numcomps := 1
  comps := fun _ => wholeComponent numresolutions h
  numLayers := 1
  x_le := by decide
  y_le := by decide
  x1_le := by decide
  y1_le := by decide
  numcomps_range := one_comp
  numLayers_range := one_layer

theorem secondTile_alike (numresolutions : Nat) (h : 1 ≤ numresolutions ∧ numresolutions ≤ 33) :
    Alike (secondTile numresolutions h) := fun _ _ => ⟨rfl, rfl, rfl, rfl, rfl, rfl⟩

/-- A 16 by 16 image of four such tiles. -/
def fourTiles : SizParams where
  x := ⟨16, 0, 8, 0, by decide, by decide, by decide, by decide⟩
  y := ⟨16, 0, 8, 0, by decide, by decide, by decide, by decide⟩

theorem secondTile_schedule : ∃ ps,
    combTile (codParams (secondTile 4 (by decide)) .rpcl) (chartTileGeom fourTiles 1 3 3) 64 64 =
      .ok ps ∧ Enumerates
    ((secondTile 4 (by decide)).genericIter .rpcl false true ⟨8, 8, 16, 16⟩).next State.packet
    (((secondTile 4 (by decide)).genericIter .rpcl false true ⟨8, 8, 16, 16⟩).start [] 0) ps := by
  have hiff := schedule_eq_iff (secondTile 4 (by decide)) (secondTile_alike _ _) fourTiles 3
    (by decide +kernel) (by decide +kernel) .rpcl 64 64 false true ⟨8, 8, 16, 16⟩ (.inr rfl)
  refine hiff.mpr ⟨by decide +kernel, ?_, ?_, ?_⟩
  · unfold Tile.NoWrap
    decide +kernel
  · unfold IndexFits
    decide +kernel
  · intro hnum
    cases (show 4 = 33 from hnum)

/-- With 32 levels the shift is by none: mercury lists a packet of resolution 0, which has no
samples in this tile. -/
theorem secondTile_extra_packet : ∃ qs,
    combTile (codParams (secondTile 33 (by decide)) .lrcp) (chartTileGeom fourTiles 1 32 3) 64 64 =
      .ok qs ∧ ¬ Enumerates
    ((secondTile 33 (by decide)).genericIter .lrcp false true ⟨8, 8, 16, 16⟩).next State.packet
    (((secondTile 33 (by decide)).genericIter .lrcp false true ⟨8, 8, 16, 16⟩).start [] 0) qs := by
  refine ⟨_, (combTile_eq_ok_iff _ _).mpr ⟨by decide +kernel, rfl⟩, ?_⟩
  intro hschedule
  obtain ⟨ps, hps, hmem, -⟩ := (secondTile_alike 33 (by decide)).enumerates .lrcp false true
    (w := ⟨8, 8, 16, 16⟩) (.inr rfl)
  have hin : (⟨0, 0, 0, 0⟩ : Packet) ∈
      schedule (codParams (secondTile 33 (by decide)) .lrcp) (chartTileGeom fourTiles 1 32 3) := by
    refine (mem_schedule _ _).mpr ⟨⟨0, 0, 0, 0, 0⟩, ?_, ?_⟩ <;> decide +kernel
  rw [← hps.unique hschedule] at hin
  have hnone : (secondTile 33 (by decide)).numPrecincts 0 0 = 0 := by decide +kernel
  have := ((hmem _).mp hin).1.precinctIndex
  cases this

end GrokCodec.Mercury
