import GrokCodec.PacketIter.Members
import GrokCodec.PacketIter.NextOpt

/-!
Completeness of the generic spatial progressions. The loops step by the smallest projected
precinct size (in CPRL, that of the previous component), so they hand out every packet exactly
when every precinct corner inside the tile is a multiple of the step.
-/

namespace GrokCodec.PacketIter

open Resumable Ordered List Component Tile Nat MixedRadix

/-- The generic (non-OPT) iterator over the full range of a tile, decoding all of it. -/
def Tile.genericIter (T : Tile) (order : ProgOrder) (compression singleProgression : Bool)
    (tileWindow : Rect) : Iter :=
  { Iter.init T order compression singleProgression true false tileWindow T.maxRes T.numLayers with
    opt := false }

/-- No window restricts the iteration: it is unset, or is the tile itself. -/
def Tile.NoWindow (T : Tile) (tileWindow : Rect) : Prop :=
  tileWindow.empty = true ∨ tileWindow = T.bounds

namespace Tile

variable (T : Tile)

theorem le_foldl_max (f : Nat → Nat) (l : List Nat) (m : Nat) :
    m ≤ l.foldl (fun m c => max m (f c)) m ∧ ∀ c ∈ l, f c ≤ l.foldl (fun m c => max m (f c)) m := by
  induction l generalizing m with
  | nil => simp
  | cons a l ih =>
    obtain ⟨h1, h2⟩ := ih (max m (f a))
    simp only [foldl_cons, mem_cons]
    refine ⟨by omega, ?_⟩
    rintro c (rfl | hc)
    · omega
    · exact h2 c hc

theorem numresolutions_le_maxRes {c : Nat} (hc : c < T.numcomps) :
    (T.comps c).numresolutions ≤ T.maxRes :=
  (le_foldl_max (fun c => (T.comps c).numresolutions) _ 0).2 c (mem_range.mpr hc)

theorem genericIter_prog (order : ProgOrder) (compression single : Bool) (w : Rect) :
    (T.genericIter order compression single w).prog = T.fullProgression order := by
  cases order <;> cases single <;> simp [genericIter, Iter.init, fullProgression]

end Tile

section Steps

theorem minStride_pos {acc stride : Nat} (hs : 0 < stride) (h : 0 < acc ∨ stride < uintMax) :
    0 < minStride acc stride := by
  unfold minStride
  split
  · split <;> omega
  · omega

variable (f : Nat → Nat)

theorem minStride_foldl_pos (l : List Nat) (acc : Nat) (hf : ∀ r ∈ l, 0 < f r)
    (h : 0 < acc ∨ ∃ r ∈ l, f r < uintMax) : 0 < l.foldl (fun acc r => minStride acc (f r)) acc := by
  induction l generalizing acc with
  | nil => simpa using h
  | cons a l ih =>
    rw [foldl_cons]
    refine ih _ (fun r hr => hf r (mem_cons_of_mem _ hr)) ?_
    have ha := hf a mem_cons_self
    rcases h with h | ⟨r, hr, hlt⟩
    · exact .inl (minStride_pos ha (.inl h))
    · rcases mem_cons.mp hr with rfl | hr
      · exact .inl (minStride_pos ha (.inr hlt))
      · exact .inr ⟨r, hr, hlt⟩

theorem minStride_foldl_le (l : List Nat) (acc : Nat) (hf : ∀ r ∈ l, 0 < f r) :
    (0 < acc → l.foldl (fun acc r => minStride acc (f r)) acc ≤ acc) ∧
      ∀ r ∈ l, f r < uintMax → l.foldl (fun acc r => minStride acc (f r)) acc ≤ f r := by
  induction l generalizing acc with
  | nil => simp
  | cons a l ih =>
    have ha := hf a mem_cons_self
    obtain ⟨h1, h2⟩ := ih (minStride acc (f a)) (fun r hr => hf r (mem_cons_of_mem _ hr))
    have hle : 0 < acc → minStride acc (f a) ≤ acc := by
      unfold minStride
      split
      · split <;> omega
      · omega
    have hle' : f a < uintMax → minStride acc (f a) ≤ f a := by
      unfold minStride
      split
      · split <;> omega
      · omega
    simp only [foldl_cons, mem_cons]
    constructor
    · intro hacc
      exact (h1 (minStride_pos ha (.inl hacc))).trans (hle hacc)
    · rintro r (rfl | hr) hlt
      · exact (h1 (minStride_pos ha (.inr hlt))).trans (hle' hlt)
      · exact h2 r hr hlt

theorem minStride_foldl_pow2 (l : List Nat) (acc : Nat)
    (hf : ∀ r ∈ l, ∃ k, f r = 2 ^ k) (hacc : acc = 0 ∨ ∃ k, acc = 2 ^ k) :
    l.foldl (fun acc r => minStride acc (f r)) acc = 0 ∨
      ∃ k, l.foldl (fun acc r => minStride acc (f r)) acc = 2 ^ k := by
  induction l generalizing acc with
  | nil => exact hacc
  | cons a l ih =>
    refine ih _ (fun r hr => hf r (mem_cons_of_mem _ hr)) ?_
    dsimp only [minStride]
    split
    · split
      · exact .inr (hf a mem_cons_self)
      · rcases min_choice acc (f a) with h | h
        · rw [h]; exact hacc
        · rw [h]; exact .inr (hf a mem_cons_self)
    · exact hacc

theorem dvd_of_pow2 {a b : Nat} (ha : ∃ i, a = 2 ^ i) (hb : ∃ j, b = 2 ^ j) (h : a ≤ b) :
    a ∣ b := by
  obtain ⟨i, rfl⟩ := ha
  obtain ⟨j, rfl⟩ := hb
  exact Nat.pow_dvd_pow 2 ((Nat.pow_le_pow_iff_right (by decide)).mp h)

namespace Component

variable (c : Component)

theorem strideX_pos (r : Nat) : 0 < c.strideX r := Nat.mul_pos c.dx_range.1 (Nat.two_pow_pos _)

theorem strideY_pos (r : Nat) : 0 < c.strideY r := Nat.mul_pos c.dy_range.1 (Nat.two_pow_pos _)

theorem stride_highest_lt : c.strideX (c.numresolutions - 1) < uintMax ∧
    c.strideY (c.numresolutions - 1) < uintMax := by
  have hx := Nat.pow_le_pow_right (show 0 < 2 by decide)
    (c.precWidthExp_le (c.numresolutions - 1))
  have hy := Nat.pow_le_pow_right (show 0 < 2 by decide)
    (c.precHeightExp_le (c.numresolutions - 1))
  have hdx := c.dx_range.2
  have hdy := c.dy_range.2
  unfold strideX strideY depthX depthY levelsDone uintMax
  rw [Nat.sub_self, c.depth_zero.1, c.depth_zero.2, Nat.add_zero, Nat.add_zero]
  constructor
  · calc _ ≤ 255 * 2 ^ 15 := Nat.mul_le_mul hdx hx
      _ < 2 ^ 32 - 1 := by norm_num
  · calc _ ≤ 255 * 2 ^ 15 := Nat.mul_le_mul hdy hy
      _ < 2 ^ 32 - 1 := by norm_num

theorem updateDx_pos (dx : Nat) : 0 < c.updateDx dx :=
  minStride_foldl_pos _ _ _ (fun r _ => c.strideX_pos r) <| .inr
    ⟨c.numresolutions - 1, mem_range.mpr (by have := c.numresolutions_range.1; omega),
      c.stride_highest_lt.1⟩

theorem updateDy_pos (dy : Nat) : 0 < c.updateDy dy :=
  minStride_foldl_pos _ _ _ (fun r _ => c.strideY_pos r) <| .inr
    ⟨c.numresolutions - 1, mem_range.mpr (by have := c.numresolutions_range.1; omega),
      c.stride_highest_lt.2⟩

end Component

variable {n : Nat}

theorem foldl_pos (f : Nat → Nat → Nat) (hf : ∀ c acc, 0 < f acc c) (hn : 1 ≤ n) :
    0 < (List.range n).foldl f 0 := by
  obtain ⟨m, rfl⟩ : ∃ m, n = m + 1 := ⟨n - 1, by omega⟩
  rw [range_succ, foldl_append]
  exact hf _ _

theorem Tile.updateDx_pos (T : Tile) : 0 < T.updateDx :=
  foldl_pos _ (fun c acc => (T.comps c).updateDx_pos acc) T.numcomps_range.1

theorem Tile.updateDy_pos (T : Tile) : 0 < T.updateDy :=
  foldl_pos _ (fun c acc => (T.comps c).updateDy_pos acc) T.numcomps_range.1

theorem Tile.cprlStepX_pos (T : Tile) : ∀ c, 0 < T.cprlStepX c
  | 0 => T.updateDx_pos
  | c + 1 => (T.comps c).updateDx_pos 0

theorem Tile.cprlStepY_pos (T : Tile) : ∀ c, 0 < T.cprlStepY c
  | 0 => T.updateDy_pos
  | c + 1 => (T.comps c).updateDy_pos 0

/-- Subsampling by powers of two. -/
def Tile.Pow2Sampled (T : Tile) : Prop :=
  ∀ c < T.numcomps, (∃ i, (T.comps c).dx = 2 ^ i) ∧ ∃ j, (T.comps c).dy = 2 ^ j

/-- The step over all components of a family of strides. -/
def commonStep (n : Nat) (num : Nat → Nat) (f : Nat → Nat → Nat) : Nat :=
  (List.range n).foldl (fun acc c =>
    (List.range (num c)).foldl (fun acc r => minStride acc (f c r)) acc) 0

theorem commonStep_dvd {num : Nat → Nat} {f : Nat → Nat → Nat}
    (hpow : ∀ c < n, ∀ r, ∃ k, f c r = 2 ^ k) {c r : Nat} (hc : c < n) (hr : r < num c)
    (hlt : f c r < uintMax) : commonStep n num f ∣ f c r := by
  have hpos (c : Nat) (hc : c < n) (r : Nat) : 0 < f c r := by
    obtain ⟨k, hk⟩ := hpow c hc r
    rw [hk]
    exact Nat.two_pow_pos k
  -- every prefix of the components yields zero or a power of two below the strides seen so far
  have key (m : Nat) (hm : m ≤ n) :
      (commonStep m num f = 0 ∨ ∃ k, commonStep m num f = 2 ^ k) ∧
        (c < m → 0 < commonStep m num f ∧ commonStep m num f ≤ f c r) := by
    induction m with
    | zero => exact ⟨.inl rfl, by omega⟩
    | succ m ih =>
      obtain ⟨ih1, ih2⟩ := ih (by omega)
      have hstep : commonStep (m + 1) num f =
          (List.range (num m)).foldl (fun acc r => minStride acc (f m r)) (commonStep m num f) := by
        rw [commonStep, range_succ, foldl_append]
        rfl
      rw [hstep]
      obtain ⟨hle1, hle2⟩ := minStride_foldl_le (f m) (List.range (num m)) (commonStep m num f)
        (fun r _ => hpos m (by omega) r)
      refine ⟨minStride_foldl_pow2 _ _ _ (fun r _ => hpow m (by omega) r) ih1, fun hcm => ?_⟩
      rcases Nat.lt_succ_iff_lt_or_eq.mp hcm with h | rfl
      · obtain ⟨h1, h2⟩ := ih2 h
        exact ⟨minStride_foldl_pos _ _ _ (fun r _ => hpos m (by omega) r) (.inl h1),
          (hle1 h1).trans h2⟩
      · exact ⟨minStride_foldl_pos _ _ _ (fun r _ => hpos c (by omega) r)
          (.inr ⟨r, mem_range.mpr hr, hlt⟩), hle2 r (mem_range.mpr hr) hlt⟩
  obtain ⟨h1, h2⟩ := key n le_rfl
  obtain ⟨h2, h3⟩ := h2 hc
  exact dvd_of_pow2 (h1.resolve_left h2.ne') (hpow c hc r) h3

theorem Tile.updateDx_dvd {T : Tile} (hT : T.Pow2Sampled) {c r : Nat} (hc : c < T.numcomps)
    (hr : r < (T.comps c).numresolutions) (hlt : (T.comps c).strideX r < uintMax) :
    T.updateDx ∣ (T.comps c).strideX r := by
  refine commonStep_dvd (f := fun c r => (T.comps c).strideX r) (fun c hc r => ?_) hc hr hlt
  obtain ⟨i, hi⟩ := (hT c hc).1
  exact ⟨i + _, by rw [strideX, hi, ← Nat.pow_add]⟩

theorem Tile.updateDy_dvd {T : Tile} (hT : T.Pow2Sampled) {c r : Nat} (hc : c < T.numcomps)
    (hr : r < (T.comps c).numresolutions) (hlt : (T.comps c).strideY r < uintMax) :
    T.updateDy ∣ (T.comps c).strideY r := by
  refine commonStep_dvd (f := fun c r => (T.comps c).strideY r) (fun c hc r => ?_) hc hr hlt
  obtain ⟨j, hj⟩ := (hT c hc).2
  exact ⟨j + _, by rw [strideY, hj, ← Nat.pow_add]⟩

end Steps

/-- A generic iterator over its tile, possibly only over the lower resolutions. -/
structure Iter.IsGeneric (it : Iter) (order : ProgOrder) : Prop where
  opt : it.opt = false
  prog : it.prog = { it.tile.fullProgression order with res_e := it.prog.res_e }

theorem Tile.genericIter_isGeneric (T : Tile) (order : ProgOrder) (compression single : Bool)
    (w : Rect) : (T.genericIter order compression single w).IsGeneric order := by
  refine ⟨rfl, ?_⟩
  rw [genericIter_prog]
  rfl

theorem Tile.genericIter_res_e (T : Tile) (order : ProgOrder) (compression single : Bool)
    (w : Rect) : T.maxRes ≤ (T.genericIter order compression single w).prog.res_e := by
  rw [genericIter_prog]
  exact le_rfl

/-- A packet whose precinct grid the 32-bit counts do not lose. -/
def Tile.Coded (T : Tile) (p : Packet) : Prop := T.HasPacket p ∧ ¬ T.Wraps p.compno p.resno

/-- A packet whose precinct corner is reached with steps `dx` and `dy` from the tile origin,
in a resolution whose grid does not wrap. -/
structure Tile.Found (T : Tile) (dx dy : Nat) (p : Packet) : Prop where
  packet : T.HasPacket p
  noWrap : ¬ T.Wraps p.compno p.resno
  x : T.precX p = T.bounds.x0 ∨ dx ∣ T.precX p
  y : T.precY p = T.bounds.y0 ∨ dy ∣ T.precY p

variable {p : Packet}

theorem Tile.Found.coded {T : Tile} {dx dy : Nat} (h : T.Found dx dy p) : T.Coded p :=
  ⟨h.packet, h.noWrap⟩

theorem Tile.HasPacket.corner_bounds {T : Tile} (h : T.HasPacket p) :
    (T.bounds.x0 ≤ T.precX p ∧ T.precX p < T.bounds.x1) ∧
      (T.bounds.y0 ≤ T.precY p ∧ T.precY p < T.bounds.y1) := by
  obtain ⟨h1, h2, -⟩ := index_iff.mpr ⟨h.precinctIndex, rfl, rfl⟩
  exact ⟨⟨(T.axisX p.compno p.resno).t0_le_corner _, Axis.corner_lt h1⟩,
    ⟨(T.axisY p.compno p.resno).t0_le_corner _, Axis.corner_lt h2⟩⟩

theorem Tile.HasPacket.resno_lt {T : Tile} (h : T.HasPacket p) : p.resno < T.maxRes :=
  lt_of_lt_of_le h.resno (T.numresolutions_le_maxRes h.compno)

namespace Iter

variable {it : Iter} {order : ProgOrder} (hit : it.IsGeneric order)

include hit

variable {r : Nat}

/-- Over all positions of a sweep, a component and resolution hand out what the sweep finds. -/
theorem IsGeneric.exists_cell_iff {c dx dy : Nat} {p : Packet} (hc : c < it.tile.numcomps) :
    (∃ y ∈ alignedSteps dy it.prog.ty1 it.prog.ty0, ∃ x ∈ alignedSteps dx it.prog.tx1 it.prog.tx0,
      p ∈ it.cell c r x y) ↔ (p.compno = c ∧ p.resno = r) ∧ it.tile.Found dx dy p := by
  rw [hit.prog]
  constructor
  · rintro ⟨y, hy, x, hx, hp⟩
    obtain ⟨hx0, hx1, hxd⟩ := mem_alignedSteps.mp hx
    obtain ⟨hy0, hy1, hyd⟩ := mem_alignedSteps.mp hy
    obtain ⟨⟨rfl, rfl⟩, hl, hr, hw, hk, rfl, rfl⟩ :=
      (mem_cell hit.opt ⟨hx0, hx1⟩ ⟨hy0, hy1⟩).mp hp
    rw [hit.prog] at hl
    exact ⟨⟨rfl, rfl⟩, ⟨hc, hr, hk, hl.2⟩, hw, hxd, hyd⟩
  · rintro ⟨⟨rfl, rfl⟩, hp, hw, hxd, hyd⟩
    obtain ⟨hx, hy⟩ := hp.corner_bounds
    refine ⟨it.tile.precY p, mem_alignedSteps.mpr ⟨hy.1, hy.2, hyd⟩, it.tile.precX p,
      mem_alignedSteps.mpr ⟨hx.1, hx.2, hxd⟩, (mem_cell hit.opt hx hy).mpr ?_⟩
    rw [hit.prog]
    exact ⟨⟨rfl, rfl⟩, ⟨zero_le _, hp.layno⟩, hp.resno, hw, hp.precinctIndex, rfl, rfl⟩

theorem IsGeneric.mem_compRange {c : Nat} : c ∈ it.compRange ↔ c < it.tile.numcomps := by
  rw [compRange, hit.prog, mem_range'_1]
  simp [fullProgression]

theorem IsGeneric.mem_resRange : r ∈ it.resRange ↔ r < it.prog.res_e := by
  rw [resRange, hit.prog, mem_range'_1]
  simp [fullProgression]

theorem IsGeneric.mem_rpclRes {p : Packet} :
    p ∈ it.rpclRes r ↔ p.resno = r ∧ it.tile.Found it.tile.updateDx it.tile.updateDy p := by
  simp only [rpclRes, mem_flatMap]
  constructor
  · rintro ⟨y, hy, x, hx, c, hc, hp⟩
    obtain ⟨⟨-, hr⟩, hf⟩ :=
      (hit.exists_cell_iff (hit.mem_compRange.mp hc)).mp ⟨y, hy, x, hx, hp⟩
    exact ⟨hr, hf⟩
  · rintro ⟨rfl, hf⟩
    obtain ⟨y, hy, x, hx, hp⟩ := (hit.exists_cell_iff hf.packet.compno).mpr ⟨⟨rfl, rfl⟩, hf⟩
    exact ⟨y, hy, x, hx, _, hit.mem_compRange.mpr hf.packet.compno, hp⟩

omit hit

section AllResolutions

variable (hit : it.IsGeneric order) (hres : it.tile.maxRes ≤ it.prog.res_e)

include hit hres

/-- Whatever the nesting of the four loops, they hand out what a sweep with the common steps
finds. -/
theorem IsGeneric.mem_sweep {p : Packet} :
    (∃ y ∈ it.rows, ∃ x ∈ it.columns, ∃ c ∈ it.compRange, ∃ r ∈ it.resRange, p ∈ it.cell c r x y) ↔
      it.tile.Found it.tile.updateDx it.tile.updateDy p := by
  constructor
  · rintro ⟨y, hy, x, hx, c, hc, r, hr, hp⟩
    exact ((hit.exists_cell_iff (hit.mem_compRange.mp hc)).mp ⟨y, hy, x, hx, hp⟩).2
  · intro hf
    obtain ⟨y, hy, x, hx, hp⟩ := (hit.exists_cell_iff hf.packet.compno).mpr ⟨⟨rfl, rfl⟩, hf⟩
    exact ⟨y, hy, x, hx, _, hit.mem_compRange.mpr hf.packet.compno, _,
      hit.mem_resRange.mpr (lt_of_lt_of_le hf.packet.resno_lt hres), hp⟩

theorem IsGeneric.mem_pcrlPackets {p : Packet} :
    p ∈ it.pcrlPackets ↔ it.tile.Found it.tile.updateDx it.tile.updateDy p := by
  rw [← hit.mem_sweep hres]
  simp [pcrlPackets]

theorem IsGeneric.mem_prclPackets {p : Packet} :
    p ∈ it.prclPackets ↔ it.tile.Found it.tile.updateDx it.tile.updateDy p := by
  rw [← hit.mem_sweep hres]
  simp only [prclPackets, mem_flatMap]
  constructor
  · rintro ⟨y, hy, x, hx, r, hr, c, hc, hp⟩
    exact ⟨y, hy, x, hx, c, hc, r, hr, hp⟩
  · rintro ⟨y, hy, x, hx, c, hc, r, hr, hp⟩
    exact ⟨y, hy, x, hx, r, hr, c, hc, hp⟩

theorem IsGeneric.mem_rpclPackets {p : Packet} :
    p ∈ it.rpclPackets ↔ it.tile.Found it.tile.updateDx it.tile.updateDy p := by
  simp only [rpclPackets, mem_flatMap, hit.mem_rpclRes]
  constructor
  · rintro ⟨r, -, -, hf⟩
    exact hf
  · intro hf
    exact ⟨_, hit.mem_resRange.mpr (lt_of_lt_of_le hf.packet.resno_lt hres), rfl, hf⟩

/-- All packets in the order of `next_cprl`. -/
def cprlPackets (it : Iter) : List Packet := (List.range' 0 it.prog.comp_e).flatMap it.cprlComp

theorem IsGeneric.mem_cprlPackets {p : Packet} :
    p ∈ it.cprlPackets ↔ it.tile.Found (it.tile.cprlStepX p.compno) (it.tile.cprlStepY p.compno) p := by
  have hce : it.prog.comp_e = it.tile.numcomps := by rw [hit.prog]; rfl
  simp only [cprlPackets, cprlComp, mem_flatMap, mem_range'_1, Nat.zero_add, hce]
  constructor
  · rintro ⟨c, hc, y, hy, x, hx, r, hr, hp⟩
    obtain ⟨⟨rfl, -⟩, hf⟩ := (hit.exists_cell_iff hc.2).mp ⟨y, hy, x, hx, hp⟩
    exact hf
  · intro hf
    obtain ⟨y, hy, x, hx, hp⟩ := (hit.exists_cell_iff hf.packet.compno).mpr ⟨⟨rfl, rfl⟩, hf⟩
    exact ⟨_, ⟨zero_le _, hf.packet.compno⟩, y, hy, x, hx, _,
      mem_range'_1.mp (hit.mem_resRange.mpr (lt_of_lt_of_le hf.packet.resno_lt hres)), hp⟩

end AllResolutions

end Iter

namespace Tile

variable (T : Tile)

/-- The order CPRL names: component, corner of the precinct, resolution, layer. -/
def cprlKey (p : Packet) : List Nat := [p.compno, T.precY p, T.precX p, p.resno, p.layno]

def pcrlKey (p : Packet) : List Nat := [T.precY p, T.precX p, p.compno, p.resno, p.layno]

def prclKey (p : Packet) : List Nat := [T.precY p, T.precX p, p.resno, p.compno, p.layno]

def rpclKey (p : Packet) : List Nat := [p.resno, T.precY p, T.precX p, p.compno, p.layno]

end Tile

namespace Iter

variable {it : Iter} {order : ProgOrder} (hit : it.IsGeneric order)

include hit

/-- Packets handed out at a position have their corner there. -/
theorem IsGeneric.cell_at {c r x y dx dy : Nat} {p : Packet}
    (hx : x ∈ alignedSteps dx it.prog.tx1 it.prog.tx0)
    (hy : y ∈ alignedSteps dy it.prog.ty1 it.prog.ty0) (hp : p ∈ it.cell c r x y) :
    p.compno = c ∧ p.resno = r ∧ it.tile.precX p = x ∧ it.tile.precY p = y := by
  rw [hit.prog] at hx hy
  obtain ⟨hx0, hx1, -⟩ := mem_alignedSteps.mp hx
  obtain ⟨hy0, hy1, -⟩ := mem_alignedSteps.mp hy
  obtain ⟨⟨h1, h2⟩, -, -, -, -, h3, h4⟩ := (mem_cell hit.opt ⟨hx0, hx1⟩ ⟨hy0, hy1⟩).mp hp
  exact ⟨h1, h2, h3, h4⟩

theorem IsGeneric.cprl_sorted : KeySorted it.tile.cprlKey it.cprlPackets := by
  refine SortedUnder.sorted (.flatMap pairwise_lt_range' fun c _ =>
    .flatMap (alignedSteps_sorted _ _ _) fun y hy => .flatMap (alignedSteps_sorted _ _ _) fun x hx =>
      .flatMap pairwise_lt_range' fun r _ => .of_label (cell_sorted c r x y) fun p hp => ?_)
  obtain ⟨rfl, rfl, rfl, rfl⟩ := hit.cell_at hx hy hp
  rfl

theorem IsGeneric.pcrl_sorted : KeySorted it.tile.pcrlKey it.pcrlPackets := by
  refine SortedUnder.sorted (.flatMap (alignedSteps_sorted _ _ _) fun y hy =>
    .flatMap (alignedSteps_sorted _ _ _) fun x hx => .flatMap pairwise_lt_range' fun c _ =>
      .flatMap pairwise_lt_range' fun r _ => .of_label (cell_sorted c r x y) fun p hp => ?_)
  obtain ⟨rfl, rfl, rfl, rfl⟩ := hit.cell_at hx hy hp
  rfl

theorem IsGeneric.prcl_sorted : KeySorted it.tile.prclKey it.prclPackets := by
  refine SortedUnder.sorted (.flatMap (alignedSteps_sorted _ _ _) fun y hy =>
    .flatMap (alignedSteps_sorted _ _ _) fun x hx => .flatMap pairwise_lt_range' fun r _ =>
      .flatMap pairwise_lt_range' fun c _ => .of_label (cell_sorted c r x y) fun p hp => ?_)
  obtain ⟨rfl, rfl, rfl, rfl⟩ := hit.cell_at hx hy hp
  rfl

theorem IsGeneric.rpcl_sorted : KeySorted it.tile.rpclKey it.rpclPackets := by
  refine SortedUnder.sorted (.flatMap pairwise_lt_range' fun r _ =>
    .flatMap (alignedSteps_sorted _ _ _) fun y hy => .flatMap (alignedSteps_sorted _ _ _) fun x hx =>
      .flatMap pairwise_lt_range' fun c _ => .of_label (cell_sorted c r x y) fun p hp => ?_)
  obtain ⟨rfl, rfl, rfl, rfl⟩ := hit.cell_at hx hy hp
  rfl

omit hit

theorem le_numPrecinctsPerRes {c r : Nat} (hc : c < it.tile.numcomps)
    (hr : r < (it.comp c).numresolutions) :
    it.gridWidth c r * it.gridHeight c r ≤ it.numPrecinctsPerRes r := by
  have key := (le_foldl_max (fun c => if r < (it.comp c).numresolutions then
    it.gridWidth c r * it.gridHeight c r else 0) (List.range it.tile.numcomps) 0).2 c
    (mem_range.mpr hc)
  simp only [hr, if_true] at key
  refine key.trans (le_of_eq ?_)
  congr 1
  funext m c
  split <;> simp

variable {ps : List Packet}

theorem fresh_of_nodup (hnd : ps.Nodup)
    (hps : ∀ p ∈ ps, it.tile.Coded p) : it.Fresh ps := by
  refine .inr (List.Nodup.map_on (fun p hp q hq hkey => ?_) hnd)
  have hbound (p : Packet) (hp : p ∈ ps) : p.precinctIndex < it.numPrecinctsPerRes p.resno := by
    obtain ⟨hhas, hw⟩ := hps p hp
    have hpos := lt_of_le_of_lt (zero_le _) hhas.precinctIndex
    refine lt_of_lt_of_le hhas.precinctIndex (le_trans (le_of_eq ?_)
      (le_numPrecinctsPerRes hhas.compno hhas.resno))
    exact congrArg₂ (· * ·) (it.tile.gridWidth_eq hw hpos).symm (it.tile.gridHeight_eq hw hpos).symm
  have hp := hbound p hp
  have hq := hbound q hq
  obtain ⟨pc, pr, pi, pl⟩ := p
  obtain ⟨qc, qr, qi, ql⟩ := q
  simp only [includeKey, Prod.mk.injEq] at hkey
  obtain ⟨rfl, rfl, hkey⟩ := hkey
  dsimp only at hp hq hkey
  -- both indices are below the row length of the tracker
  have hdiv := congrArg (· / it.numPrecinctsPerRes pr) hkey
  have hmod := congrArg (· % it.numPrecinctsPerRes pr) hkey
  have hpos : 0 < it.numPrecinctsPerRes pr := by omega
  simp only [Nat.mul_comm _ (it.numPrecinctsPerRes pr), mul_add_div hpos, mul_add_mod,
    div_eq_of_lt hp, div_eq_of_lt hq, mod_eq_of_lt hp, mod_eq_of_lt hq] at hdiv hmod
  simp_all

theorem IsGeneric.order_eq (hit : it.IsGeneric order) : it.prog.progression = order := by
  rw [hit.prog]
  rfl

theorem start_at (hprog : it.prog = { it.tile.fullProgression order with res_e := it.prog.res_e })
    (lengths : List Nat) (bytes : Nat) : it.At it.home [] (it.start lengths bytes) := by
  have hdx := it.tile.updateDx_pos
  have hdy := it.tile.updateDy_pos
  refine ⟨⟨?_, rfl, fun _ => rfl⟩, ?_⟩
  · rw [hprog]; rfl
  · rw [home, hprog]
    simp only [State.cursor, start, origin, gt_iff_lt, hdx, hdy, if_true]
    rw [hprog]
    rfl

theorem IsGeneric.next_enumerates (hit : it.IsGeneric order) {f : State → Outcome State}
    (lengths : List Nat) (bytes : Nat) (hf : ∀ s, Stepping s → it.next s = f s)
    (hspec : Spec it.Fresh State.packet f (it.At it.home) Stepping ps (fun _ _ => True))
    (hfound : ∀ p ∈ ps, it.tile.Coded p) (hnd : ps.Nodup) :
    Enumerates it.next State.packet (it.start lengths bytes) ps := by
  have hstart := start_at hit.prog lengths bytes
  have hstep : Stepping (it.start lengths bytes) := ⟨it.tile.updateDx_pos, it.tile.updateDy_pos⟩
  obtain ⟨t, he, -⟩ := hspec [] _ (fresh_of_nodup hnd hfound) hstart
  exact (he.congr (hf _ hstep) hf).enumerates

theorem IsGeneric.cprl_enumerates (hit : it.IsGeneric .cprl)
    (hres : it.tile.maxRes ≤ it.prog.res_e) (lengths : List Nat) (bytes : Nat) :
    Enumerates it.next State.packet (it.start lengths bytes) it.cprlPackets := by
  have hhome : it.home = it.cprlOrigin 0 0 := by
    rw [home, show it.prog.comp_s = 0 by rw [hit.prog]; rfl]
    rfl
  refine hit.next_enumerates lengths bytes (f := it.nextCprl) ?_ ?_ ?_ hit.cprl_sorted.nodup
  · rintro s ⟨h1, h2⟩
    simp [next, hit.opt, hit.order_eq, h1.ne', h2.ne']
  · rw [hhome]
    exact nextCprl_spec it.tile.cprlStepX_pos it.tile.cprlStepY_pos
  · exact fun p hp => ((hit.mem_cprlPackets hres).mp hp).coded

theorem IsGeneric.rpcl_enumerates (hit : it.IsGeneric .rpcl) (lengths : List Nat) (bytes : Nat) :
    Enumerates it.next State.packet (it.start lengths bytes) it.rpclPackets := by
  refine hit.next_enumerates lengths bytes (f := it.nextRpcl) ?_
    (nextRpcl_spec it.tile.updateDx_pos it.tile.updateDy_pos) ?_ hit.rpcl_sorted.nodup
  · rintro s ⟨h1, h2⟩
    simp [next, hit.opt, hit.order_eq, h1.ne', h2.ne']
  · intro p hp
    obtain ⟨r, -, hp⟩ := mem_flatMap.mp hp
    exact (hit.mem_rpclRes.mp hp).2.coded

theorem IsGeneric.prcl_enumerates (hit : it.IsGeneric .prcl)
    (hres : it.tile.maxRes ≤ it.prog.res_e) (lengths : List Nat) (bytes : Nat) :
    Enumerates it.next State.packet (it.start lengths bytes) it.prclPackets := by
  refine hit.next_enumerates lengths bytes (f := it.nextPrcl) ?_
    (nextPrcl_spec it.tile.updateDx_pos it.tile.updateDy_pos) ?_ hit.prcl_sorted.nodup
  · rintro s ⟨h1, h2⟩
    simp [next, hit.opt, hit.order_eq, h1.ne', h2.ne']
  · exact fun p hp => ((hit.mem_prclPackets hres).mp hp).coded

theorem IsGeneric.pcrl_enumerates (hit : it.IsGeneric .pcrl)
    (hres : it.tile.maxRes ≤ it.prog.res_e) (hwin : it.tile.NoWindow it.tileWindow)
    (lengths : List Nat) (bytes : Nat) :
    Enumerates it.next State.packet (it.start lengths bytes) it.pcrlPackets := by
  have hnever : it.NeverPastWindow := by
    intro s hx hy
    rw [hit.prog] at hx hy
    rcases hwin with h | h
    · simp [pastWindow, h]
    · have hx' : ¬ it.tile.bounds.x1 ≤ s.x := not_le.mpr hx
      have hy' : ¬ it.tile.bounds.y1 ≤ s.y := not_le.mpr hy
      simp [pastWindow, h, hx', hy']
  refine hit.next_enumerates lengths bytes (f := it.nextPcrl) ?_
    (nextPcrl_spec it.tile.updateDx_pos it.tile.updateDy_pos hnever) ?_ hit.pcrl_sorted.nodup
  · rintro s ⟨h1, h2⟩
    simp [next, hit.opt, hit.order_eq, h1.ne', h2.ne']
  · exact fun p hp => ((hit.mem_pcrlPackets hres).mp hp).coded

end Iter

namespace Tile

variable (T : Tile)

/-- Every precinct boundary of component `c` strictly inside the tile is a multiple of the
step. -/
def StepReaches (c dx dy : Nat) : Prop :=
  ∀ r < (T.comps c).numresolutions, 0 < T.numPrecincts c r →
    (∀ q, T.bounds.x0 < q → q < T.bounds.x1 → (T.comps c).strideX r ∣ q → dx ∣ q) ∧
      ∀ q, T.bounds.y0 < q → q < T.bounds.y1 → (T.comps c).strideY r ∣ q → dy ∣ q

/-- No precinct grid of the tile is lost to 32-bit arithmetic. -/
def NoWrap : Prop := ∀ c < T.numcomps, ∀ r < (T.comps c).numresolutions, ¬ T.Wraps c r

/-- Every packet of the tile exactly once, in the order of a key. -/
structure ListsAll (key : Packet → List Nat) (ps : List Packet) : Prop where
  mem_iff : ∀ p, p ∈ ps ↔ T.HasPacket p
  nodup : ps.Nodup
  ordered : KeySorted key ps

variable {T}

theorem axisX_stride (c r : Nat) : (T.axisX c r).stride = (T.comps c).strideX r := by
  change (T.comps c).dx * 2 ^ (T.comps c).depthX r * 2 ^ (T.comps c).precWidthExp r = _
  rw [strideX, Nat.pow_add]
  ring

theorem axisY_stride (c r : Nat) : (T.axisY c r).stride = (T.comps c).strideY r := by
  change (T.comps c).dy * 2 ^ (T.comps c).depthY r * 2 ^ (T.comps c).precHeightExp r = _
  rw [strideY, Nat.pow_add]
  ring

theorem hasPacket_at {c r px py : Nat} (hc : c < T.numcomps)
    (hr : r < (T.comps c).numresolutions) (hx : px < (T.axisX c r).count)
    (hy : py < (T.axisY c r).count) :
    T.HasPacket ⟨c, r, px + py * (T.axisX c r).count, 0⟩ ∧
      T.precX ⟨c, r, px + py * (T.axisX c r).count, 0⟩ = (T.axisX c r).corner px ∧
      T.precY ⟨c, r, px + py * (T.axisX c r).count, 0⟩ = (T.axisY c r).corner py := by
  obtain ⟨hk, hkx, hky⟩ := index_iff.mp ⟨hx, hy, rfl⟩
  refine ⟨⟨hc, hr, hk, T.numLayers_range.1⟩, ?_, ?_⟩
  · rw [precX, ← hkx]
  · rw [precY, ← hky]

theorem StepReaches.found {p : Packet} {dx dy : Nat} (hreach : T.StepReaches p.compno dx dy)
    (hp : T.HasPacket p) (hw : ¬ T.Wraps p.compno p.resno) : T.Found dx dy p := by
  have hpos := lt_of_le_of_lt (zero_le _) hp.precinctIndex
  obtain ⟨h1, h2, -⟩ := index_iff.mpr ⟨hp.precinctIndex, rfl, rfl⟩
  obtain ⟨⟨hx0, hx1⟩, ⟨hy0, hy1⟩⟩ := hp.corner_bounds
  obtain ⟨hrx, hry⟩ := hreach _ hp.resno hpos
  refine ⟨hp, hw, ?_, ?_⟩
  · rcases Nat.eq_or_lt_of_le hx0 with h | h
    · exact .inl h.symm
    · have := ((Axis.exists_corner_iff h hx1).mp ⟨_, h1, rfl⟩).2
      exact .inr (hrx _ h hx1 (axisX_stride p.compno p.resno ▸ this))
  · rcases Nat.eq_or_lt_of_le hy0 with h | h
    · exact .inl h.symm
    · have := ((Axis.exists_corner_iff h hy1).mp ⟨_, h2, rfl⟩).2
      exact .inr (hry _ h hy1 (axisY_stride p.compno p.resno ▸ this))

/-- A sweep finds every packet exactly when no grid wraps and no corner is stepped over. -/
theorem all_found_iff (dx dy : Nat → Nat) :
    (∀ p, T.HasPacket p → T.Found (dx p.compno) (dy p.compno) p) ↔
      T.NoWrap ∧ ∀ c < T.numcomps, T.StepReaches c (dx c) (dy c) := by
  constructor
  · intro h
    refine ⟨fun c hc r hr hw => ?_, fun c hc r hr hn => ⟨fun q h0 h1 hd => ?_, fun q h0 h1 hd => ?_⟩⟩
    · have hpos := hw.1
      have hp := (hasPacket_at hc hr (Nat.pos_of_mul_pos_right hpos)
        (Nat.pos_of_mul_pos_left hpos)).1
      exact (h _ hp).noWrap hw
    · have hres := Axis.lt_of_count_pos (Nat.pos_of_mul_pos_right hn)
      obtain ⟨k, hk, hq⟩ := (Axis.exists_corner_iff h0 h1).mpr
        ⟨hres, (axisX_stride c r).symm ▸ hd⟩
      obtain ⟨hp, hpx, -⟩ := hasPacket_at hc hr hk (Nat.pos_of_mul_pos_left hn)
      rcases (h _ hp).x with hx | hx
      · rw [hpx, hq] at hx; omega
      · rwa [hpx, hq] at hx
    · have hres := Axis.lt_of_count_pos (Nat.pos_of_mul_pos_left hn)
      obtain ⟨k, hk, hq⟩ := (Axis.exists_corner_iff h0 h1).mpr
        ⟨hres, (axisY_stride c r).symm ▸ hd⟩
      obtain ⟨hp, -, hpy⟩ := hasPacket_at hc hr (Nat.pos_of_mul_pos_right hn) hk
      rcases (h _ hp).y with hy | hy
      · rw [hpy, hq] at hy; omega
      · rwa [hpy, hq] at hy
  · rintro ⟨hw, hreach⟩ p hp
    exact (hreach _ hp.compno).found hp (hw _ hp.compno _ hp.resno)

variable {ps : List Packet}

/-- A list of the packets a sweep finds, in the order of its key, is all of them exactly when
the sweep finds all of them. -/
theorem listsAll_iff {key : Packet → List Nat} (dx dy : Nat → Nat)
    (hmem : ∀ p, p ∈ ps ↔ T.Found (dx p.compno) (dy p.compno) p) (hsorted : KeySorted key ps) :
    T.ListsAll key ps ↔ T.NoWrap ∧ ∀ c < T.numcomps, T.StepReaches c (dx c) (dy c) := by
  rw [← all_found_iff]
  constructor
  · intro h p hp
    exact (hmem p).mp ((h.mem_iff p).mpr hp)
  · intro h
    exact ⟨fun p => ⟨fun hp => ((hmem p).mp hp).packet, fun hp => (hmem p).mpr (h p hp)⟩,
      hsorted.nodup, hsorted⟩

/-- With power-of-two subsampling the common steps divide every stride in reach. -/
theorem Pow2Sampled.stepReaches (hT : T.Pow2Sampled) {c : Nat} (hc : c < T.numcomps) :
    T.StepReaches c T.updateDx T.updateDy := by
  intro r hr _
  refine ⟨fun q h0 h1 hd => ?_, fun q h0 h1 hd => ?_⟩
  · have hle := le_of_dvd (by omega) hd
    have hx1 := T.x1_le
    exact (updateDx_dvd hT hc hr (by omega)).trans hd
  · have hle := le_of_dvd (by omega) hd
    have hy1 := T.y1_le
    exact (updateDy_dvd hT hc hr (by omega)).trans hd

/-- The generic iterator hands out all packets of the tile in the order of a key. -/
def Walks (T : Tile) (order : ProgOrder) (compression singleProgression : Bool) (w : Rect)
    (key : Packet → List Nat) : Prop :=
  let it := T.genericIter order compression singleProgression w
  ∃ ps, Enumerates it.next State.packet (it.start [] 0) ps ∧ T.ListsAll key ps

theorem walks_iff {order : ProgOrder} {compression single : Bool} {w : Rect}
    {key : Packet → List Nat}
    (h : Enumerates (T.genericIter order compression single w).next State.packet
      ((T.genericIter order compression single w).start [] 0) ps) :
    T.Walks order compression single w key ↔ T.ListsAll key ps := by
  constructor
  · rintro ⟨qs, hqs, hall⟩
    rwa [h.unique hqs]
  · intro hall
    exact ⟨ps, h, hall⟩

end Tile

/-- A component with a single resolution. -/
def Component.flat (d precExp : Nat) (hd : 1 ≤ d ∧ d ≤ 255) (hp : precExp ≤ 15) : Component :=
  .part1 d 1 precExp precExp hd one_res hp hp

/-- A tile of one row of samples with two components and one layer. -/
def Tile.row (width : Nat) (first second : Component) (hw : width ≤ uintMax) : Tile where
  bounds := ⟨0, 0, width, 1⟩
  numcomps := 2
  comps := fun c => if c = 0 then first else second
  numLayers := 1
  x_le := zero_le _
  y_le := zero_le _
  x1_le := hw
  y1_le := (by decide : 1 ≤ uintMax)
  numcomps_range := by decide
  numLayers_range := one_layer

/-- CPRL hands out every packet exactly once and in order exactly when no precinct grid wraps
and the steps of each component, with which the next component is walked, reach every precinct
boundary of that next component inside the tile. -/
theorem cprl_complete_iff (T : Tile) (hT : T.Pow2Sampled) (compression singleProgression : Bool)
    (w : Rect) :
    T.Walks .cprl compression singleProgression w T.cprlKey ↔
      T.NoWrap ∧ ∀ c, c + 1 < T.numcomps →
        T.StepReaches (c + 1) ((T.comps c).updateDx 0) ((T.comps c).updateDy 0) := by
  have hit := T.genericIter_isGeneric .cprl compression singleProgression w
  have hres := T.genericIter_res_e .cprl compression singleProgression w
  refine (walks_iff (hit.cprl_enumerates hres [] 0)).trans ((listsAll_iff _ _
    (fun p => hit.mem_cprlPackets hres) hit.cprl_sorted).trans ?_)
  refine and_congr_right fun _ => ⟨fun h c hc => h (c + 1) hc, fun h c hc => ?_⟩
  cases c with
  | zero => exact hT.stepReaches hc
  | succ c => exact h c hc

/-- Two samples in each of two components. -/
def Tile.twoSamples (e f : Nat) (he : e ≤ 15) (hf : f ≤ 15) : Tile :=
  row 2 (.flat 1 e unit_range he) (.flat 1 f unit_range hf) (by decide)

/-- Precincts of two samples in the first component, of one sample in the second. -/
def coarseThenFine : Tile := .twoSamples 1 0 one_exp zero_exp

/-- The second component is walked with the step of the first, over its second precinct. -/
theorem coarseThenFine_drops :
    ¬ coarseThenFine.Walks .cprl false false coarseThenFine.bounds coarseThenFine.cprlKey := by
  rintro ⟨ps, hps, hall⟩
  have hrun : Resumable.enumerate
      (coarseThenFine.genericIter .cprl false false coarseThenFine.bounds).next State.packet 4
      ((coarseThenFine.genericIter .cprl false false coarseThenFine.bounds).start [] 0) =
      some [⟨0, 0, 0, 0⟩, ⟨1, 0, 0, 0⟩] := by decide +kernel
  have hmem := (hall.mem_iff ⟨1, 0, 1, 0⟩).mpr
    ⟨by decide, by decide, by decide +kernel, by decide⟩
  rw [hps.unique (enumerate_sound hrun)] at hmem
  exact absurd hmem (by decide)

def fineThenCoarse : Tile := .twoSamples 0 1 zero_exp one_exp

theorem fineThenCoarse_walks :
    fineThenCoarse.Walks .cprl false true fineThenCoarse.bounds fineThenCoarse.cprlKey := by
  refine (cprl_complete_iff fineThenCoarse ?_ false true fineThenCoarse.bounds).mpr ⟨?_, ?_⟩
  · intro c _
    exact ⟨⟨0, by by_cases h : c = 0 <;> simp [fineThenCoarse, twoSamples, row, flat, part1, h]⟩,
      ⟨0, by by_cases h : c = 0 <;> simp [fineThenCoarse, twoSamples, row, flat, part1, h]⟩⟩
  · unfold Tile.NoWrap
    decide +kernel
  · intro c hc
    obtain rfl : c = 0 := by
      have : c + 1 < 2 := hc
      omega
    intro r _ _
    have hx : (fineThenCoarse.comps 0).updateDx 0 = 1 := by decide +kernel
    have hy : (fineThenCoarse.comps 0).updateDy 0 = 1 := by decide +kernel
    rw [hx, hy]
    exact ⟨fun q _ _ _ => one_dvd q, fun q _ _ _ => one_dvd q⟩

/-- Each of RPCL, PCRL and PRCL hands out every packet exactly once and in order exactly when
no precinct grid wraps and the smallest stride of the tile, which is the step of its loops,
divides every precinct boundary inside the tile. -/
theorem position_complete_iff (T : Tile) (compression singleProgression : Bool) (w : Rect)
    (hw : T.NoWindow w) :
    let Reached := T.NoWrap ∧ ∀ c < T.numcomps, T.StepReaches c T.updateDx T.updateDy
    (T.Walks .rpcl compression singleProgression w T.rpclKey ↔ Reached) ∧
      (T.Walks .pcrl compression singleProgression w T.pcrlKey ↔ Reached) ∧
      (T.Walks .prcl compression singleProgression w T.prclKey ↔ Reached) := by
  have hr := T.genericIter_isGeneric .rpcl compression singleProgression w
  have hp := T.genericIter_isGeneric .pcrl compression singleProgression w
  have hq := T.genericIter_isGeneric .prcl compression singleProgression w
  have hall (order : ProgOrder) := T.genericIter_res_e order compression singleProgression w
  refine ⟨?_, ?_, ?_⟩
  · exact (walks_iff (hr.rpcl_enumerates [] 0)).trans (listsAll_iff
      (fun _ => T.updateDx) (fun _ => T.updateDy) (fun p => hr.mem_rpclPackets (hall _))
      hr.rpcl_sorted)
  · exact (walks_iff (hp.pcrl_enumerates (hall _) hw [] 0)).trans (listsAll_iff
      (fun _ => T.updateDx) (fun _ => T.updateDy) (fun p => hp.mem_pcrlPackets (hall _))
      hp.pcrl_sorted)
  · exact (walks_iff (hq.prcl_enumerates (hall _) [] 0)).trans (listsAll_iff
      (fun _ => T.updateDx) (fun _ => T.updateDy) (fun p => hq.mem_prclPackets (hall _))
      hq.prcl_sorted)

/-- Subsampling by two and by three. -/
def twoAndThree : Tile :=
  row 4 (.flat 2 0 (by decide) (by decide)) (.flat 3 0 (by decide) (by decide)) (by decide)

/-- The loops step by two and pass over the corner at three. -/
theorem twoAndThree_drops :
    ¬ twoAndThree.Walks .rpcl false true twoAndThree.bounds twoAndThree.rpclKey ∧
      ¬ twoAndThree.Walks .pcrl false true twoAndThree.bounds twoAndThree.pcrlKey ∧
      ¬ twoAndThree.Walks .prcl false true twoAndThree.bounds twoAndThree.prclKey := by
  have hrun (order : ProgOrder) (ho : order = .rpcl ∨ order = .pcrl ∨ order = .prcl) :
      Resumable.enumerate (twoAndThree.genericIter order false true twoAndThree.bounds).next
        State.packet 4
        ((twoAndThree.genericIter order false true twoAndThree.bounds).start [] 0) =
        some [⟨0, 0, 0, 0⟩, ⟨1, 0, 0, 0⟩, ⟨0, 0, 1, 0⟩] := by
    rcases ho with rfl | rfl | rfl <;> decide +kernel
  have hdrop (order : ProgOrder) (ho : order = .rpcl ∨ order = .pcrl ∨ order = .prcl)
      (key : Packet → List Nat) : ¬ twoAndThree.Walks order false true twoAndThree.bounds key := by
    rintro ⟨ps, hps, hall⟩
    have hmem := (hall.mem_iff ⟨1, 0, 1, 0⟩).mpr
      ⟨by decide, by decide, by decide +kernel, by decide⟩
    rw [hps.unique (enumerate_sound (hrun order ho))] at hmem
    exact absurd hmem (by decide)
  exact ⟨hdrop _ (.inl rfl) _, hdrop _ (.inr (.inl rfl)) _, hdrop _ (.inr (.inr rfl)) _⟩

def twoAndFour : Tile :=
  row 8 (.flat 2 0 (by decide) (by decide)) (.flat 4 0 (by decide) (by decide)) (by decide)

theorem twoAndFour_walks :
    twoAndFour.Walks .rpcl false true twoAndFour.bounds twoAndFour.rpclKey ∧
      twoAndFour.Walks .pcrl false true twoAndFour.bounds twoAndFour.pcrlKey ∧
      twoAndFour.Walks .prcl false true twoAndFour.bounds twoAndFour.prclKey := by
  have hreached : twoAndFour.NoWrap ∧ ∀ c < twoAndFour.numcomps,
      twoAndFour.StepReaches c twoAndFour.updateDx twoAndFour.updateDy := by
    refine ⟨by unfold Tile.NoWrap; decide +kernel, fun c _ r _ _ => ⟨fun q _ _ hd => ?_, ?_⟩⟩
    · have hx : twoAndFour.updateDx = 2 := by decide +kernel
      rw [hx]
      refine dvd_trans ?_ hd
      by_cases h : c = 0
      · simp [twoAndFour, row, flat, part1, strideX, h]
      · simp [twoAndFour, row, flat, part1, strideX, h]
        exact dvd_mul_of_dvd_left (by decide) _
    · intro q h0 h1 _
      have : q < 1 := h1
      have : 0 < q := h0
      omega
  obtain ⟨h1, h2, h3⟩ := position_complete_iff twoAndFour false true twoAndFour.bounds (.inr rfl)
  exact ⟨h1.mpr hreached, h2.mpr hreached, h3.mpr hreached⟩

end GrokCodec.PacketIter
