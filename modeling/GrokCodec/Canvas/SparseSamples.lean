import GrokCodec.Canvas.SparseCanvas

/-!
What a sparse canvas is for: an array of samples, of which those in allocated blocks have a value.
-/

namespace GrokCodec.Canvas

open Assign List
open Nat (div_add_mod mod_lt two_pow_pos)

variable {T : Type}

/-- The part covers a coordinate. -/
def Piece.Covers (p : Piece) (x : Nat) : Prop := p.start ≤ x ∧ x < p.start + p.len

/-- A part of the range `lo` to `hi` that lies in one block. -/
structure Piece.IsIn (p : Piece) (lb lo hi : Nat) : Prop where
  grid_eq : p.grid = p.start / 2 ^ lb
  offset_eq : p.offset = p.start % 2 ^ lb
  fits : p.offset + p.len ≤ 2 ^ lb
  len_pos : 0 < p.len
  le_start : lo ≤ p.start
  end_le : p.start + p.len ≤ hi
  aligned : p.start = lo ∨ p.start % 2 ^ lb = 0

namespace Piece.IsIn

variable {p : Piece} {lb lo hi x : Nat}

theorem start_eq (h : p.IsIn lb lo hi) : p.start = 2 ^ lb * p.grid + p.offset := by
  rw [h.grid_eq, h.offset_eq]
  exact (div_add_mod _ _).symm

theorem lt_start_add (h : p.IsIn lb lo hi) {i : Nat} (hi : i < p.len) :
    p.offset + i < 2 ^ lb := by
  have := h.fits
  omega

theorem div_eq (h : p.IsIn lb lo hi) (hx : p.Covers x) : x / 2 ^ lb = p.grid := by
  obtain ⟨i, rfl⟩ := Nat.exists_eq_add_of_le hx.1
  have hi : i < p.len := by have := hx.2; omega
  rw [h.start_eq, Nat.add_assoc, Nat.mul_add_div (two_pow_pos lb),
    Nat.div_eq_of_lt (h.lt_start_add hi), Nat.add_zero]

theorem mod_eq (h : p.IsIn lb lo hi) (hx : p.Covers x) :
    x % 2 ^ lb = p.offset + (x - p.start) := by
  obtain ⟨i, rfl⟩ := Nat.exists_eq_add_of_le hx.1
  have hi : i < p.len := by have := hx.2; omega
  rw [Nat.add_sub_cancel_left, h.start_eq, Nat.add_assoc, Nat.mul_add_mod,
    Nat.mod_eq_of_lt (h.lt_start_add hi)]

end Piece.IsIn

/-- The state of the loop over the blocks of `lo` to `hi`: after the first block it is at a multiple
of the block size. -/
structure AtBlock (lb lo : Nat) (first : Bool) (grid y : Nat) : Prop where
  grid_eq : grid = y / 2 ^ lb
  le : lo ≤ y
  rest : first = false → y % 2 ^ lb = 0
  aligned : y = lo ∨ y % 2 ^ lb = 0

variable {lb lo : Nat}

theorem AtBlock.blockLen_eq {grid y : Nat} {first : Bool} (h : AtBlock lb lo first grid y) :
    (if first then 2 ^ lb - y % 2 ^ lb else 2 ^ lb) = 2 ^ lb - y % 2 ^ lb := by
  cases first with
  | true => rfl
  | false =>
    rw [h.rest rfl]
    rfl

theorem AtBlock.next {grid y : Nat} {first : Bool} (h : AtBlock lb lo first grid y) :
    AtBlock lb lo false (grid + 1) (y + (2 ^ lb - y % 2 ^ lb)) := by
  have hpow := two_pow_pos lb
  have hnext : y + (2 ^ lb - y % 2 ^ lb) = 2 ^ lb * (grid + 1) := by
    have hy := div_add_mod y (2 ^ lb)
    rw [← h.grid_eq] at hy
    rw [Nat.mul_add, Nat.mul_one]
    omega
  have hzero : (y + (2 ^ lb - y % 2 ^ lb)) % 2 ^ lb = 0 := by
    rw [hnext]
    exact Nat.mul_mod_right _ _
  refine ⟨?_, Nat.le_add_right_of_le h.le, fun _ => hzero, Or.inr hzero⟩
  rw [hnext, Nat.mul_div_cancel_left _ hpow]

variable {hi : Nat}

theorem pieces_isIn : ∀ {fuel : Nat} {first : Bool} {grid y : Nat},
    (y < hi → AtBlock lb lo first grid y) →
    ∀ p ∈ pieces lb hi fuel first grid y, p.IsIn lb lo hi := by
  intro fuel
  induction fuel with
  | zero => exact fun _ p hp => nomatch hp
  | succ fuel ih =>
    intro first grid y h p hp
    unfold pieces at hp
    by_cases hlt : y < hi
    · have hat := h hlt
      rw [if_pos hlt] at hp
      rw [hat.blockLen_eq] at hp
      have hmod := mod_lt y (two_pow_pos lb)
      rcases mem_cons.mp hp with rfl | hp
      · constructor
        · exact hat.grid_eq
        · exact Nat.sub_sub_self hmod.le
        · show 2 ^ lb - (2 ^ lb - y % 2 ^ lb) + min (2 ^ lb - y % 2 ^ lb) (hi - y) ≤ 2 ^ lb
          omega
        · show 0 < min (2 ^ lb - y % 2 ^ lb) (hi - y)
          omega
        · exact hat.le
        · show y + min (2 ^ lb - y % 2 ^ lb) (hi - y) ≤ hi
          omega
        · exact hat.aligned
      · apply ih _ p hp
        intro hnext
        have hmin : min (2 ^ lb - y % 2 ^ lb) (hi - y) = 2 ^ lb - y % 2 ^ lb := by omega
        rw [hmin]
        exact hat.next
    · rw [if_neg hlt] at hp
      exact nomatch hp

theorem pieces_cover : ∀ {fuel : Nat} {first : Bool} {grid y x : Nat},
    hi - y ≤ fuel → y ≤ x → x < hi → ∃ p ∈ pieces lb hi fuel first grid y, p.Covers x := by
  intro fuel
  induction fuel with
  | zero => intro first grid y x hfuel hle hlt; omega
  | succ fuel ih =>
    intro first grid y x hfuel hle hlt
    unfold pieces
    rw [if_pos (by omega)]
    have hpow := two_pow_pos lb
    have hmod := mod_lt y hpow
    have hpos : 0 < if first then 2 ^ lb - y % 2 ^ lb else 2 ^ lb := by
      cases first with
      | true => exact Nat.sub_pos_of_lt hmod
      | false => exact hpow
    generalize (if first then 2 ^ lb - y % 2 ^ lb else 2 ^ lb) = blockLen at hpos
    by_cases hx : x < y + min blockLen (hi - y)
    · exact ⟨_, mem_cons_self, hle, hx⟩
    · have hfuel' : hi - (y + min blockLen (hi - y)) ≤ fuel := by omega
      obtain ⟨p, hp, hcov⟩ := ih hfuel' (Nat.le_of_not_lt hx) hlt
      exact ⟨p, mem_cons_of_mem _ hp, hcov⟩

theorem axisPieces_isIn {p : Piece} (hp : p ∈ axisPieces lb lo hi) :
    p.IsIn lb lo hi := by
  rw [axisPieces, Nat.shiftRight_eq_div_pow] at hp
  apply pieces_isIn _ p hp
  intro _
  exact ⟨rfl, Nat.le_refl lo, (fun h => nomatch h), Or.inl rfl⟩

theorem axisPieces_cover (lb : Nat) {x : Nat} (hle : lo ≤ x) (hlt : x < hi) :
    ∃ p ∈ axisPieces lb lo hi, p.Covers x :=
  pieces_cover (Nat.le_refl _) hle hlt

variable {cell : Nat × Nat}

theorem mem_cells {width height : Nat} :
    cell ∈ cells width height ↔ cell.1 < width ∧ cell.2 < height := by
  obtain ⟨x, y⟩ := cell
  simp only [cells, mem_flatMap, mem_range, mem_map, Prod.mk.injEq]
  constructor
  · rintro ⟨_, hy, _, hx, rfl, rfl⟩
    exact ⟨hx, hy⟩
  · rintro ⟨hx, hy⟩
    exact ⟨y, hy, x, hx, rfl, rfl⟩

theorem overBlocks_induction {σ : Type} {grid : Rect} {f : Piece → Piece → σ → Option σ}
    (P : List (Piece × Piece) → σ → Prop) {pairs : List (Piece × Piece)} {s : σ} (hs : P [] s)
    (hgrid : ∀ p ∈ pairs, grid.x0 ≤ p.1.grid ∧ grid.y0 ≤ p.2.grid ∧ p.1.grid < grid.x1 ∧
      p.2.grid < grid.y1)
    (hstep : ∀ done, ∀ p ∈ pairs, ∀ s, P done s →
      ∃ s', f p.1 p.2 s = some s' ∧ P (done ++ [p]) s') :
    ∃ s', overBlocks grid f pairs s = some (true, s') ∧ P pairs s' := by
  suffices hrest : ∀ done s, P done s →
      ∃ s', overBlocks grid f pairs s = some (true, s') ∧ P (done ++ pairs) s' from hrest [] s hs
  induction pairs with
  | nil =>
    intro done s hs
    exact ⟨s, rfl, by rwa [append_nil]⟩
  | cons p pairs ih =>
    intro done s hs
    obtain ⟨s₁, hf, hs₁⟩ := hstep done p mem_cons_self s hs
    obtain ⟨s₂, hrest, hs₂⟩ := ih (fun q hq => hgrid q (mem_cons_of_mem _ hq))
      (fun done q hq => hstep done q (mem_cons_of_mem _ hq)) (done ++ [p]) s₁ hs₁
    refine ⟨s₂, ?_, ?_⟩
    · unfold overBlocks
      rw [if_pos (hgrid p mem_cons_self), hf]
      exact hrest
    · rw [append_assoc] at hs₂
      exact hs₂

theorem mapM_of_forall {α β : Type} {f : α → Option β} {g : α → β} {l : List α}
    (h : ∀ a ∈ l, f a = some (g a)) : l.mapM f = some (l.map g) := by
  induction l with
  | nil => rfl
  | cons a l ih =>
    rw [mapM_cons, h a mem_cons_self, ih fun b hb => h b (mem_cons_of_mem _ hb)]
    rfl

/-- A rectangle that contains a point. -/
def Holds (win : Rect) (x y : Nat) : Prop := win.x0 ≤ x ∧ x < win.x1 ∧ win.y0 ≤ y ∧ y < win.y1

/-- Two rectangles, one in the other. -/
structure Inside (win bounds : Rect) : Prop where
  x0_le : bounds.x0 ≤ win.x0
  x_le : win.x0 ≤ win.x1
  x1_le : win.x1 ≤ bounds.x1
  y0_le : bounds.y0 ≤ win.y0
  y_le : win.y0 ≤ win.y1
  y1_le : win.y1 ≤ bounds.y1

namespace SparseCanvas

/-- A canvas that is not empty, with blocks of fewer than `2 ^ 32` samples, all of them there. -/
structure Proper (c : SparseCanvas T) : Prop where
  exps : c.lbw + c.lbh < 32
  x_lt : c.bounds.x0 < c.bounds.x1
  y_lt : c.bounds.y0 < c.bounds.y1
  x1_lt : c.bounds.x1 < 2 ^ 32
  y1_lt : c.bounds.y1 < 2 ^ 32
  area : ∀ i b, c.blocks i = some b → b.area = 2 ^ c.lbw * 2 ^ c.lbh

/-- The sample is in a block of the grid. -/
def InGrid (c : SparseCanvas T) (x y : Nat) : Prop :=
  c.grid.x0 ≤ x / 2 ^ c.lbw ∧ x / 2 ^ c.lbw < c.grid.x1 ∧
    c.grid.y0 ≤ y / 2 ^ c.lbh ∧ y / 2 ^ c.lbh < c.grid.y1

instance (c : SparseCanvas T) (x y : Nat) : Decidable (c.InGrid x y) :=
  inferInstanceAs (Decidable (_ ∧ _))

/-- Where a sample is in its block. -/
def inner (c : SparseCanvas T) (x y : Nat) : Nat := 2 ^ c.lbw * (y % 2 ^ c.lbh) + x % 2 ^ c.lbw

/-- The value of a sample, if its block is allocated. -/
def sample (c : SparseCanvas T) (x y : Nat) : Option T :=
  if c.InGrid x y then
    (c.getBlock (x / 2 ^ c.lbw) (y / 2 ^ c.lbh)).map fun b => b.data (c.inner x y)
  else none

variable {c : SparseCanvas T} {lb : Nat}

theorem u32_ceildivpow2 {x1 : Nat} (hx : x1 < 2 ^ 32) :
    u32 (ceildivpow2 x1 lb) = x1 ⌈/⌉ 2 ^ lb := by
  rw [ceildivpow2_eq]
  exact u32_of_lt ((ceilDiv_le_self (two_pow_pos lb)).trans_lt hx)

theorem Proper.grid_eq (hc : c.Proper) :
    c.grid = ⟨c.bounds.x0 / 2 ^ c.lbw, c.bounds.y0 / 2 ^ c.lbh, c.bounds.x1 ⌈/⌉ 2 ^ c.lbw,
      c.bounds.y1 ⌈/⌉ 2 ^ c.lbh⟩ := by
  rw [grid, Rect.scaleDownPow2, u32_ceildivpow2 hc.x1_lt, u32_ceildivpow2 hc.y1_lt,
    Nat.shiftRight_eq_div_pow, Nat.shiftRight_eq_div_pow]

variable {x : Nat}

theorem div_lt_ceilDiv {x1 : Nat} (h : x < x1) : x / 2 ^ lb < x1 ⌈/⌉ 2 ^ lb := by
  rw [lt_ceilDiv_iff (two_pow_pos lb)]
  exact (Nat.mul_div_le x _).trans_lt h

variable {y : Nat}

theorem Proper.inGrid (hc : c.Proper) (h : Holds c.bounds x y) : c.InGrid x y := by
  rw [InGrid, hc.grid_eq]
  exact ⟨Nat.div_le_div_right h.1, div_lt_ceilDiv h.2.1, Nat.div_le_div_right h.2.2.1,
    div_lt_ceilDiv h.2.2.2⟩

theorem Proper.grid_lt (hc : c.Proper) :
    c.grid.x0 < c.grid.x1 ∧ c.grid.x1 < 2 ^ 32 ∧ c.grid.y1 < 2 ^ 32 := by
  rw [hc.grid_eq]
  exact ⟨div_lt_ceilDiv hc.x_lt, (ceilDiv_le_self (two_pow_pos _)).trans_lt hc.x1_lt,
    (ceilDiv_le_self (two_pow_pos _)).trans_lt hc.y1_lt⟩

variable {gx gy : Nat}

theorem Proper.blockIndex_inj (hc : c.Proper) {gx' gy' : Nat}
    (hx : c.grid.x0 ≤ gx ∧ gx < c.grid.x1) (hy : c.grid.y0 ≤ gy ∧ gy < c.grid.y1)
    (hx' : c.grid.x0 ≤ gx' ∧ gx' < c.grid.x1) (hy' : c.grid.y0 ≤ gy' ∧ gy' < c.grid.y1)
    (h : c.blockIndex gx gy = c.blockIndex gx' gy') : gx = gx' ∧ gy = gy' := by
  obtain ⟨hlt, hx1, hy1⟩ := hc.grid_lt
  rw [blockIndex, blockIndex, Rect.width, sub32_of_le hlt.le hx1, sub32_of_le hy.1 (by omega),
    sub32_of_le hx.1 (by omega), sub32_of_le hy'.1 (by omega), sub32_of_le hx'.1 (by omega)] at h
  have hmod : ∀ g, c.grid.x0 ≤ g ∧ g < c.grid.x1 → g - c.grid.x0 < c.grid.x1 - c.grid.x0 := by
    intro g hg
    omega
  have hrow : gy - c.grid.y0 = gy' - c.grid.y0 := by
    have := congrArg (· / (c.grid.x1 - c.grid.x0)) h
    simpa only [Nat.mul_comm _ (c.grid.x1 - c.grid.x0), Nat.mul_add_div (Nat.sub_pos_of_lt hlt),
      Nat.div_eq_of_lt (hmod _ hx), Nat.div_eq_of_lt (hmod _ hx'), Nat.add_zero] using this
  rw [hrow] at h
  omega

variable {win : Rect}

theorem mem_blockPairs {p : Piece × Piece} :
    p ∈ c.blockPairs win ↔
      p.1 ∈ axisPieces c.lbw win.x0 win.x1 ∧ p.2 ∈ axisPieces c.lbh win.y0 win.y1 := by
  obtain ⟨px, py⟩ := p
  simp only [blockPairs, mem_flatMap, mem_map, Prod.mk.injEq]
  constructor
  · rintro ⟨_, hy, _, hx, rfl, rfl⟩
    exact ⟨hx, hy⟩
  · rintro ⟨hx, hy⟩
    exact ⟨py, hy, px, hx, rfl, rfl⟩

/-- The two parts of a window that make up a part of a block. -/
structure IsPart (c : SparseCanvas T) (win : Rect) (px py : Piece) : Prop where
  isInX : px.IsIn c.lbw win.x0 win.x1
  isInY : py.IsIn c.lbh win.y0 win.y1

theorem isPart {p : Piece × Piece} (hp : p ∈ c.blockPairs win) :
    c.IsPart win p.1 p.2 :=
  ⟨axisPieces_isIn (mem_blockPairs.mp hp).1, axisPieces_isIn (mem_blockPairs.mp hp).2⟩

theorem exists_part (h : Holds win x y) :
    ∃ p ∈ c.blockPairs win, p.1.Covers x ∧ p.2.Covers y := by
  obtain ⟨px, hpx, hx⟩ := axisPieces_cover c.lbw h.1 h.2.1
  obtain ⟨py, hpy, hy⟩ := axisPieces_cover c.lbh h.2.2.1 h.2.2.2
  exact ⟨(px, py), mem_blockPairs.mpr ⟨hpx, hpy⟩, hx, hy⟩

variable {b : SparseBlock T}

namespace IsPart

variable {win : Rect} {px py : Piece} {x y : Nat}

theorem holds (h : c.IsPart win px py) (hx : px.Covers x) (hy : py.Covers y) :
    Holds win x y :=
  ⟨h.isInX.le_start.trans hx.1, hx.2.trans_le h.isInX.end_le, h.isInY.le_start.trans hy.1,
    hy.2.trans_le h.isInY.end_le⟩

theorem dataIndex_eq (h : c.IsPart win px py) (hx : px.Covers x) (hy : py.Covers y) :
    c.dataIndex px py (x - px.start, y - py.start) = c.inner x y := by
  rw [inner, dataIndex, h.isInX.mod_eq hx, h.isInY.mod_eq hy, Nat.shiftLeft_eq, Nat.mul_comm]
  exact Nat.add_assoc _ _ _

theorem inner_lt (c : SparseCanvas T) (x y : Nat) : c.inner x y < 2 ^ c.lbw * 2 ^ c.lbh := by
  have hy := mod_lt y (two_pow_pos c.lbh)
  calc 2 ^ c.lbw * (y % 2 ^ c.lbh) + x % 2 ^ c.lbw
      < 2 ^ c.lbw * (y % 2 ^ c.lbh + 1) := by rw [Nat.mul_add]; omega
    _ ≤ 2 ^ c.lbw * 2 ^ c.lbh := Nat.mul_le_mul_left _ hy

theorem exists_covers (px py : Piece) (hcell : cell ∈ cells px.len py.len) :
    ∃ x y, px.Covers x ∧ py.Covers y ∧ cell = (x - px.start, y - py.start) := by
  obtain ⟨hx, hy⟩ := mem_cells.mp hcell
  refine ⟨px.start + cell.1, py.start + cell.2, ⟨Nat.le_add_right _ _, ?_⟩,
    ⟨Nat.le_add_right _ _, ?_⟩, ?_⟩
  · omega
  · omega
  · rw [Nat.add_sub_cancel_left, Nat.add_sub_cancel_left]

theorem mem_cells_of_covers (hx : px.Covers x) (hy : py.Covers y) :
    (x - px.start, y - py.start) ∈ cells px.len py.len := by
  obtain ⟨hx₀, hx₁⟩ := hx
  obtain ⟨hy₀, hy₁⟩ := hy
  exact mem_cells.mpr ⟨by show x - px.start < px.len; omega, by show y - py.start < py.len; omega⟩

theorem get_eq (h : c.IsPart win px py) (hc : c.Proper) {i : Nat} (hb : c.blocks i = some b)
    (hcell : cell ∈ cells px.len py.len) :
    b.get (c.dataIndex px py cell) = some (b.data (c.dataIndex px py cell)) := by
  obtain ⟨x, y, hx, hy, rfl⟩ := exists_covers px py hcell
  rw [SparseBlock.get, h.dataIndex_eq hx hy, hc.area i b hb]
  exact if_pos (inner_lt c x y)

end IsPart

/-- Where a sample of a window is in the buffer. -/
def target (win : Rect) (spacingX spacingY x y : Nat) : Nat :=
  (y - win.y0) * spacingY + (x - win.x0) * spacingX

/-- Where a block begins in the window, its distance in the buffer from the first row and from the
first column is a number of 32 bits. -/
structure NoWrap (c : SparseCanvas T) (win : Rect) (spacingX spacingY : Nat) : Prop where
  columns : ∀ x, win.x0 ≤ x → x < win.x1 → x = win.x0 ∨ x % 2 ^ c.lbw = 0 →
    (x - win.x0) * spacingX < 2 ^ 32
  rows : ∀ y, win.y0 ≤ y → y < win.y1 → y = win.y0 ∨ y % 2 ^ c.lbh = 0 →
    (y - win.y0) * spacingY < 2 ^ 32

theorem axis_place {p : Piece} {lo hi spacing : Nat} (hp : p.IsIn lb lo hi) (hhi : hi < 2 ^ 32)
    (hwrap : ∀ x, lo ≤ x → x < hi → x = lo ∨ x % 2 ^ lb = 0 → (x - lo) * spacing < 2 ^ 32)
    (hx : p.Covers x) :
    u32 (sub32 p.start lo * spacing) + (x - p.start) * spacing = (x - lo) * spacing := by
  have hpos := hp.len_pos
  have hend := hp.end_le
  have hlo := hp.le_start
  rw [sub32_of_le hlo (by omega), u32_of_lt (hwrap _ hlo (by omega) hp.aligned), ← Nat.add_mul]
  congr 1
  have := hx.1
  omega

variable {px py : Piece}

theorem IsPart.place_eq {spacingX spacingY : Nat}
    (h : c.IsPart win px py) (hx1 : win.x1 < 2 ^ 32) (hy1 : win.y1 < 2 ^ 32)
    (hwrap : c.NoWrap win spacingX spacingY) (hx : px.Covers x) (hy : py.Covers y) :
    place win spacingX spacingY px py (x - px.start, y - py.start) =
      target win spacingX spacingY x y := by
  have hcol := axis_place h.isInX hx1 hwrap.columns hx
  have hrow := axis_place h.isInY hy1 hwrap.rows hy
  rw [target, place, ← hcol, ← hrow]
  dsimp only
  omega

/-- A canvas of the same blocks. -/
structure SameShape (c' c : SparseCanvas T) : Prop where
  lbw_eq : c'.lbw = c.lbw
  lbh_eq : c'.lbh = c.lbh
  bounds_eq : c'.bounds = c.bounds

variable {c' : SparseCanvas T}

theorem SameShape.grid_eq (h : c'.SameShape c) : c'.grid = c.grid := by
  rw [grid, grid, h.lbw_eq, h.lbh_eq, h.bounds_eq]

theorem SameShape.isPart (h : c'.SameShape c)
    (hp : c.IsPart win px py) : c'.IsPart win px py := by
  obtain ⟨hx, hy⟩ := hp
  rw [← h.lbw_eq] at hx
  rw [← h.lbh_eq] at hy
  exact ⟨hx, hy⟩

theorem SameShape.noWrap (h : c'.SameShape c) {sx sy : Nat}
    (hw : c.NoWrap win sx sy) : c'.NoWrap win sx sy := by
  obtain ⟨hx, hy⟩ := hw
  rw [← h.lbw_eq] at hx
  rw [← h.lbh_eq] at hy
  exact ⟨hx, hy⟩

variable {c₁ c₂ c₃ : SparseCanvas T}

theorem SameShape.trans (h : c₁.SameShape c₂) (h' : c₂.SameShape c₃) : c₁.SameShape c₃ :=
  ⟨h.lbw_eq.trans h'.lbw_eq, h.lbh_eq.trans h'.lbh_eq, h.bounds_eq.trans h'.bounds_eq⟩

theorem SameShape.refl (c : SparseCanvas T) : c.SameShape c := ⟨rfl, rfl, rfl⟩

/-- The block is one of the grid. -/
def GridHas (c : SparseCanvas T) (gx gy : Nat) : Prop :=
  c.grid.x0 ≤ gx ∧ c.grid.y0 ≤ gy ∧ gx < c.grid.x1 ∧ gy < c.grid.y1

theorem setBlock_sameShape (gx gy : Nat) (b : SparseBlock T) :
    (c.setBlock gx gy b).SameShape c := ⟨rfl, rfl, rfl⟩

theorem setBlock_blocks_self (gx gy : Nat) (b : SparseBlock T) :
    (c.setBlock gx gy b).blocks (c.blockIndex gx gy) = some b := Function.update_self _ _ _

theorem setBlock_blocks_of_ne {i : Nat} (b : SparseBlock T) (h : i ≠ c.blockIndex gx gy) :
    (c.setBlock gx gy b).blocks i = c.blocks i := Function.update_of_ne h _ _

theorem Proper.setBlock (hc : c.Proper) (hb : b.area = 2 ^ c.lbw * 2 ^ c.lbh) :
    (c.setBlock gx gy b).Proper := by
  refine ⟨hc.exps, hc.x_lt, hc.y_lt, hc.x1_lt, hc.y1_lt, ?_⟩
  intro i b' hb'
  by_cases hi : i = c.blockIndex gx gy
  · subst hi
    rw [setBlock_blocks_self] at hb'
    cases hb'
    exact hb
  · rw [setBlock_blocks_of_ne b hi] at hb'
    exact hc.area i b' hb'

theorem Proper.sample_setBlock (hc : c.Proper) (hg : c.GridHas gx gy)
    (b : SparseBlock T) (x y : Nat) :
    (c.setBlock gx gy b).sample x y =
      if x / 2 ^ c.lbw = gx ∧ y / 2 ^ c.lbh = gy then some (b.data (c.inner x y))
      else c.sample x y := by
  obtain ⟨hx0, hy0, hx1, hy1⟩ := hg
  by_cases h : x / 2 ^ c.lbw = gx ∧ y / 2 ^ c.lbh = gy
  · obtain ⟨rfl, rfl⟩ := h
    rw [if_pos ⟨rfl, rfl⟩]
    refine (if_pos (show c.InGrid x y from ⟨hx0, hx1, hy0, hy1⟩)).trans ?_
    exact congrArg (Option.map _) (setBlock_blocks_self (x / 2 ^ c.lbw) (y / 2 ^ c.lbh) b)
  · rw [if_neg h]
    by_cases hin : c.InGrid x y
    · have hne : c.blockIndex (x / 2 ^ c.lbw) (y / 2 ^ c.lbh) ≠ c.blockIndex gx gy := by
        intro heq
        exact h (hc.blockIndex_inj ⟨hin.1, hin.2.1⟩ hin.2.2 ⟨hx0, hx1⟩ ⟨hy0, hy1⟩ heq)
      have hget := setBlock_blocks_of_ne b hne
      refine (if_pos hin).trans (Eq.trans ?_ (if_pos hin).symm)
      exact congrArg (Option.map _) hget
    · exact (if_neg hin).trans (if_neg hin).symm

theorem sample_of_block (hg : c.GridHas gx gy) (hx : x / 2 ^ c.lbw = gx)
    (hy : y / 2 ^ c.lbh = gy) :
    c.sample x y = (c.getBlock gx gy).map fun b => b.data (c.inner x y) := by
  subst hx hy
  exact if_pos ⟨hg.1, hg.2.2.1, hg.2.1, hg.2.2.2⟩

/-- In a block, samples of a part are told from the others by their place. -/
theorem IsPart.covers_of_inner (h : c.IsPart win px py)
    {x' y' : Nat} (hx : px.Covers x) (hy : py.Covers y) (hdivx : x' / 2 ^ c.lbw = px.grid)
    (hdivy : y' / 2 ^ c.lbh = py.grid) (heq : c.inner x y = c.inner x' y') : x = x' ∧ y = y' := by
  have hpow := two_pow_pos c.lbw
  have hmodx : x % 2 ^ c.lbw = x' % 2 ^ c.lbw := by
    have := congrArg (· % 2 ^ c.lbw) heq
    simpa only [inner, Nat.mul_add_mod, Nat.mod_mod] using this
  have hmody : y % 2 ^ c.lbh = y' % 2 ^ c.lbh := by
    rw [inner, inner, hmodx] at heq
    exact Nat.eq_of_mul_eq_mul_left hpow (Nat.add_right_cancel heq)
  constructor
  · rw [← div_add_mod x (2 ^ c.lbw), h.isInX.div_eq hx, hmodx, ← hdivx, div_add_mod]
  · rw [← div_add_mod y (2 ^ c.lbh), h.isInY.div_eq hy, hmody, ← hdivy, div_add_mod]

theorem gridHas_of_isPart (hc : c.Proper) (h : c.IsPart win px py)
    (hin : Inside win c.bounds) : c.GridHas px.grid py.grid := by
  have hx : px.Covers px.start := ⟨Nat.le_refl _, Nat.lt_add_of_pos_right h.isInX.len_pos⟩
  have hy : py.Covers py.start := ⟨Nat.le_refl _, Nat.lt_add_of_pos_right h.isInY.len_pos⟩
  obtain ⟨hx0, hx1, hy0, hy1⟩ := h.holds hx hy
  obtain ⟨h0, h1, h2, h3⟩ := hc.inGrid (x := px.start) (y := py.start)
    ⟨hin.x0_le.trans hx0, hx1.trans_le hin.x1_le, hin.y0_le.trans hy0, hy1.trans_le hin.y1_le⟩
  rw [← h.isInX.grid_eq] at h0 h1
  rw [← h.isInY.grid_eq] at h2 h3
  exact ⟨h0, h2, h1, h3⟩

theorem isWindowValid_iff (hin : Inside win c.bounds) :
    c.isWindowValid win = true ↔ win.x0 < win.x1 ∧ win.y0 < win.y1 := by
  have := hin.x1_le
  have := hin.y1_le
  simp only [isWindowValid, Bool.not_eq_true', Bool.or_eq_false_iff, decide_eq_false_iff_not]
  omega

/-- What writing has done after some of the blocks of the window. -/
structure Written [Zero T] (c : SparseCanvas T) (win : Rect) (src : Option (Nat → T))
    (spacingX spacingY : Nat) (done : List (Piece × Piece)) (c' : SparseCanvas T) : Prop where
  shape : c'.SameShape c
  proper : c'.Proper
  covered : ∀ x y, (∃ p ∈ done, p.1.Covers x ∧ p.2.Covers y) → c'.sample x y =
    (c.sample x y).map fun _ => source src (target win spacingX spacingY x y)
  other : ∀ x y, (¬∃ p ∈ done, p.1.Covers x ∧ p.2.Covers y) → c'.sample x y = c.sample x y

theorem covers_singleton :
    (∃ p ∈ [(px, py)], p.1.Covers x ∧ p.2.Covers y) ↔ px.Covers x ∧ py.Covers y := by
  simp

section Write

variable [Zero T] {win : Rect} {src : Option (Nat → T)} {spacingX spacingY : Nat} {px py : Piece}

theorem Written.append {done done' : List (Piece × Piece)}
    (h : c₁.Written win src spacingX spacingY done c₂)
    (h' : c₂.Written win src spacingX spacingY done' c₃) :
    c₁.Written win src spacingX spacingY (done ++ done') c₃ := by
  refine ⟨h'.shape.trans h.shape, h'.proper, ?_, ?_⟩
  · rintro x y ⟨p, hp, hcov⟩
    by_cases hlast : ∃ p ∈ done', p.1.Covers x ∧ p.2.Covers y
    · rw [h'.covered x y hlast]
      by_cases hfirst : ∃ p ∈ done, p.1.Covers x ∧ p.2.Covers y
      · rw [h.covered x y hfirst, Option.map_map]
        rfl
      · rw [h.other x y hfirst]
    · rw [h'.other x y hlast]
      rcases mem_append.mp hp with hp | hp
      · exact h.covered x y ⟨p, hp, hcov⟩
      · exact absurd ⟨p, hp, hcov⟩ hlast
  · intro x y hnone
    rw [h'.other x y fun ⟨p, hp, hcov⟩ => hnone ⟨p, mem_append_right _ hp, hcov⟩,
      h.other x y fun ⟨p, hp, hcov⟩ => hnone ⟨p, mem_append_left _ hp, hcov⟩]

/-- The assignments of a write to one block. -/
def writePairs (c : SparseCanvas T) (win : Rect) (src : Option (Nat → T)) (spacingX spacingY : Nat)
    (px py : Piece) : List (Nat × T) :=
  (cells px.len py.len).map fun cell =>
    (c.dataIndex px py cell, source src (place win spacingX spacingY px py cell))

theorem writeBlock_eq (hc : c.Proper) (h : c.IsPart win px py)
    (hb : c.getBlock px.grid py.grid = some b) :
    writeBlock win src spacingX spacingY px py c = some (c.setBlock px.grid py.grid
      { b with data := assign (c.writePairs win src spacingX spacingY px py) b.data }) := by
  have hpairs : (cells px.len py.len).mapM (fun cell =>
      (b.get (c.dataIndex px py cell)).map fun _ =>
        (c.dataIndex px py cell, source src (place win spacingX spacingY px py cell))) =
      some (c.writePairs win src spacingX spacingY px py) := by
    apply mapM_of_forall
    intro cell hcell
    rw [h.get_eq hc hb hcell]
    rfl
  simp [writeBlock, hb, hpairs, Option.pure_def]

/-- Without a buffer it does not matter where the sample would be. -/
theorem IsPart.source_place (h : c.IsPart win px py) (hx1 : win.x1 < 2 ^ 32)
    (hy1 : win.y1 < 2 ^ 32) (hwrap : src.isSome → c.NoWrap win spacingX spacingY)
    (hx : px.Covers x) (hy : py.Covers y) :
    source src (place win spacingX spacingY px py (x - px.start, y - py.start)) =
      source src (target win spacingX spacingY x y) := by
  cases src with
  | none => rfl
  | some buffer => rw [h.place_eq hx1 hy1 (hwrap rfl) hx hy]

theorem mem_writePairs (h : c.IsPart win px py) (hx1 : win.x1 < 2 ^ 32) (hy1 : win.y1 < 2 ^ 32)
    (hwrap : src.isSome → c.NoWrap win spacingX spacingY) {p : Nat × T} :
    p ∈ c.writePairs win src spacingX spacingY px py ↔ ∃ x y, px.Covers x ∧ py.Covers y ∧
      p = (c.inner x y, source src (target win spacingX spacingY x y)) := by
  rw [writePairs, mem_map]
  constructor
  · rintro ⟨cell, hcell, rfl⟩
    obtain ⟨x, y, hx, hy, rfl⟩ := IsPart.exists_covers px py hcell
    exact ⟨x, y, hx, hy, by rw [h.dataIndex_eq hx hy, h.source_place hx1 hy1 hwrap hx hy]⟩
  · rintro ⟨x, y, hx, hy, rfl⟩
    exact ⟨_, IsPart.mem_cells_of_covers hx hy,
      by rw [h.dataIndex_eq hx hy, h.source_place hx1 hy1 hwrap hx hy]⟩

theorem writeBlock_spec (hc : c.Proper) (h : c.IsPart win px py) (hg : c.GridHas px.grid py.grid)
    (hx1 : win.x1 < 2 ^ 32) (hy1 : win.y1 < 2 ^ 32)
    (hwrap : src.isSome → c.NoWrap win spacingX spacingY) :
    ∃ c', writeBlock win src spacingX spacingY px py c = some c' ∧
      c.Written win src spacingX spacingY [(px, py)] c' := by
  cases hb : c.getBlock px.grid py.grid with
  | none =>
    refine ⟨c, by simp only [writeBlock, hb], SameShape.refl c, hc, ?_, fun _ _ _ => rfl⟩
    intro x y hxy
    obtain ⟨hx, hy⟩ := covers_singleton.mp hxy
    rw [sample_of_block hg (h.isInX.div_eq hx) (h.isInY.div_eq hy), hb]
    rfl
  | some b =>
    refine ⟨_, writeBlock_eq hc h hb, setBlock_sameShape _ _ _,
      hc.setBlock (hc.area _ b hb), ?_, ?_⟩
    · intro x y hxy
      obtain ⟨hx, hy⟩ := covers_singleton.mp hxy
      have hdivx := h.isInX.div_eq hx
      have hdivy := h.isInY.div_eq hy
      rw [hc.sample_setBlock hg, if_pos ⟨hdivx, hdivy⟩, sample_of_block hg hdivx hdivy, hb]
      refine congrArg some (assign_of_mem ((mem_writePairs h hx1 hy1 hwrap).mpr
        ⟨x, y, hx, hy, rfl⟩) ?_ _)
      intro p hp hkey
      obtain ⟨x', y', hx', hy', rfl⟩ := (mem_writePairs h hx1 hy1 hwrap).mp hp
      obtain ⟨rfl, rfl⟩ := h.covers_of_inner hx' hy' hdivx hdivy hkey
      rfl
    · intro x y hxy
      rw [covers_singleton] at hxy
      rw [hc.sample_setBlock hg]
      by_cases hblock : x / 2 ^ c.lbw = px.grid ∧ y / 2 ^ c.lbh = py.grid
      · rw [if_pos hblock, sample_of_block hg hblock.1 hblock.2, hb]
        refine congrArg some (assign_of_not_mem ?_ _)
        intro p hp hkey
        obtain ⟨x', y', hx', hy', rfl⟩ := (mem_writePairs h hx1 hy1 hwrap).mp hp
        obtain ⟨rfl, rfl⟩ := h.covers_of_inner hx' hy' hblock.1 hblock.2 hkey
        exact hxy ⟨hx', hy'⟩
      · rw [if_neg hblock]

/-- A write gives the samples of its window their values, and leaves the others. -/
theorem write_spec (hc : c.Proper) (hin : Inside win c.bounds)
    (hwrap : src.isSome → c.NoWrap win spacingX spacingY) :
    ∃ c', c.write win src spacingX spacingY =
        some (decide (win.x0 < win.x1 ∧ win.y0 < win.y1), c') ∧
      c'.SameShape c ∧ c'.Proper ∧
      (∀ x y, Holds win x y → c'.sample x y =
        (c.sample x y).map fun _ => source src (target win spacingX spacingY x y)) ∧
      ∀ x y, ¬Holds win x y → c'.sample x y = c.sample x y := by
  by_cases hne : win.x0 < win.x1 ∧ win.y0 < win.y1
  · have hpart : ∀ p ∈ c.blockPairs win, c.GridHas p.1.grid p.2.grid := fun p hp =>
      gridHas_of_isPart hc (isPart hp) hin
    have hnil : c.Written win src spacingX spacingY [] c :=
      ⟨SameShape.refl c, hc, (fun _ _ ⟨_, hp, _⟩ => nomatch hp), fun _ _ _ => rfl⟩
    have hstep : ∀ done, ∀ p ∈ c.blockPairs win, ∀ c₁,
        c.Written win src spacingX spacingY done c₁ →
        ∃ c₂, writeBlock win src spacingX spacingY p.1 p.2 c₁ = some c₂ ∧
          c.Written win src spacingX spacingY (done ++ [p]) c₂ := by
      intro done p hp c₁ h₁
      have hg := hpart p hp
      rw [GridHas, ← h₁.shape.grid_eq] at hg
      obtain ⟨c₂, hstep, h₂⟩ := writeBlock_spec h₁.proper (h₁.shape.isPart (isPart hp)) hg
        (hin.x1_le.trans_lt hc.x1_lt) (hin.y1_le.trans_lt hc.y1_lt)
        fun hsrc => h₁.shape.noWrap (hwrap hsrc)
      exact ⟨c₂, hstep, h₁.append h₂⟩
    obtain ⟨c', hrun, hc'⟩ := overBlocks_induction _ hnil hpart hstep
    refine ⟨c', ?_, hc'.shape, hc'.proper, ?_, ?_⟩
    · rw [write, if_pos ⟨hin.x_le, hin.y_le, (isWindowValid_iff hin).mpr hne⟩, hrun,
        decide_eq_true hne]
    · exact fun x y hxy => hc'.covered x y (exists_part hxy)
    · intro x y hxy
      apply hc'.other
      rintro ⟨p, hp, hx, hy⟩
      exact hxy ((isPart hp).holds hx hy)
  · refine ⟨c, ?_, SameShape.refl c, hc, ?_, fun _ _ _ => rfl⟩
    · rw [write, if_neg fun h => hne ((isWindowValid_iff hin).mp h.2.2), decide_eq_false hne]
    · intro x y hxy
      obtain ⟨hx0, hx1, hy0, hy1⟩ := hxy
      exact absurd ⟨hx0.trans_lt hx1, hy0.trans_lt hy1⟩ hne

end Write

section Read

variable {win : Rect} {spacingX spacingY : Nat} {px py : Piece}

/-- The assignments of a read from one block. -/
def readPairs (c : SparseCanvas T) (win : Rect) (spacingX spacingY : Nat) (px py : Piece) :
    List (Nat × T) :=
  match c.getBlock px.grid py.grid with
  | none => []
  | some b => (cells px.len py.len).map fun cell =>
    (place win spacingX spacingY px py cell, b.data (c.dataIndex px py cell))

theorem readBlock_eq (hc : c.Proper) (h : c.IsPart win px py) (dest : Nat → T) :
    c.readBlock win spacingX spacingY px py dest =
      some (assign (c.readPairs win spacingX spacingY px py) dest) := by
  cases hb : c.getBlock px.grid py.grid with
  | none =>
    simp only [readBlock, readPairs, hb]
    rfl
  | some b =>
    have hpairs : (cells px.len py.len).mapM (fun cell =>
        (b.get (c.dataIndex px py cell)).map fun v =>
          (place win spacingX spacingY px py cell, v)) =
        some ((cells px.len py.len).map fun cell =>
          (place win spacingX spacingY px py cell, b.data (c.dataIndex px py cell))) := by
      apply mapM_of_forall
      intro cell hcell
      rw [h.get_eq hc hb hcell]
      rfl
    simp [readBlock, readPairs, hb, hpairs, Option.pure_def]

theorem mem_readPairs (h : c.IsPart win px py) (hg : c.GridHas px.grid py.grid)
    (hx1 : win.x1 < 2 ^ 32) (hy1 : win.y1 < 2 ^ 32) (hwrap : c.NoWrap win spacingX spacingY)
    {p : Nat × T} :
    p ∈ c.readPairs win spacingX spacingY px py ↔ ∃ x y, px.Covers x ∧ py.Covers y ∧
      c.sample x y = some p.2 ∧ target win spacingX spacingY x y = p.1 := by
  have hsample : ∀ {x y}, px.Covers x → py.Covers y → c.sample x y =
      (c.getBlock px.grid py.grid).map fun b => b.data (c.inner x y) := fun hx hy =>
    sample_of_block hg (h.isInX.div_eq hx) (h.isInY.div_eq hy)
  cases hb : c.getBlock px.grid py.grid with
  | none =>
    rw [hb] at hsample
    simp only [readPairs, hb]
    constructor
    · exact fun hp => nomatch hp
    · rintro ⟨x, y, hx, hy, hv, _⟩
      rw [hsample hx hy] at hv
      exact nomatch hv
  | some b =>
    rw [hb] at hsample
    simp only [readPairs, hb, mem_map]
    constructor
    · rintro ⟨cell, hcell, rfl⟩
      obtain ⟨x, y, hx, hy, rfl⟩ := IsPart.exists_covers px py hcell
      refine ⟨x, y, hx, hy, ?_, (h.place_eq hx1 hy1 hwrap hx hy).symm⟩
      rw [hsample hx hy, h.dataIndex_eq hx hy]
      rfl
    · rintro ⟨x, y, hx, hy, hv, htarget⟩
      refine ⟨_, IsPart.mem_cells_of_covers hx hy, ?_⟩
      rw [hsample hx hy] at hv
      rw [h.place_eq hx1 hy1 hwrap hx hy, h.dataIndex_eq hx hy, htarget]
      exact Prod.ext rfl (Option.some.inj hv)

/-- The assignments of a read. -/
def windowPairs (c : SparseCanvas T) (win : Rect) (spacingX spacingY : Nat)
    (parts : List (Piece × Piece)) : List (Nat × T) :=
  parts.flatMap fun p => c.readPairs win spacingX spacingY p.1 p.2

theorem mem_windowPairs (hc : c.Proper) (hin : Inside win c.bounds)
    (hwrap : c.NoWrap win spacingX spacingY) {q : Nat × T} :
    q ∈ c.windowPairs win spacingX spacingY (c.blockPairs win) ↔ ∃ x y, Holds win x y ∧
      target win spacingX spacingY x y = q.1 ∧ c.sample x y = some q.2 := by
  have hx1 := hin.x1_le.trans_lt hc.x1_lt
  have hy1 := hin.y1_le.trans_lt hc.y1_lt
  have hpairs : ∀ p ∈ c.blockPairs win, _ := fun p hp =>
    mem_readPairs (isPart hp) (gridHas_of_isPart hc (isPart hp) hin) hx1 hy1 hwrap (p := q)
  rw [windowPairs, mem_flatMap]
  constructor
  · rintro ⟨p, hp, hq⟩
    obtain ⟨x, y, hx, hy, hv, ht⟩ := (hpairs p hp).mp hq
    exact ⟨x, y, (isPart hp).holds hx hy, ht, hv⟩
  · rintro ⟨x, y, hxy, ht, hv⟩
    obtain ⟨p, hp, hx, hy⟩ := exists_part (c := c) hxy
    exact ⟨p, hp, (hpairs p hp).mpr ⟨x, y, hx, hy, hv, ht⟩⟩

/-- The samples of a window are where they belong in the buffer; the rest of it is as before. -/
def Reads (sample : Nat → Nat → Option T) (win : Rect) (spacingX spacingY : Nat)
    (dest dest' : Nat → T) : Prop :=
  ∀ i,
    (∃ x y, Holds win x y ∧ target win spacingX spacingY x y = i ∧ sample x y = some (dest' i)) ∨
    (¬∃ x y, Holds win x y ∧ target win spacingX spacingY x y = i ∧ (sample x y).isSome) ∧
      dest' i = dest i

theorem read_spec (hc : c.Proper) (hin : Inside win c.bounds)
    (hwrap : c.NoWrap win spacingX spacingY) (dest : Nat → T) :
    ∃ dest', c.read win dest spacingX spacingY =
        some (decide (win.x0 < win.x1 ∧ win.y0 < win.y1), dest') ∧
      Reads c.sample win spacingX spacingY dest dest' := by
  by_cases hne : win.x0 < win.x1 ∧ win.y0 < win.y1
  · obtain ⟨dest', hrun, rfl⟩ := overBlocks_induction
      (fun done dest' => dest' = assign (c.windowPairs win spacingX spacingY done) dest)
      (f := c.readBlock win spacingX spacingY) (s := dest) rfl
      (fun p hp => gridHas_of_isPart hc (isPart hp) hin)
      (by
        rintro done p hp _ rfl
        refine ⟨_, readBlock_eq hc (isPart hp) _, ?_⟩
        rw [← assign_append, windowPairs, windowPairs, flatMap_append,
          flatMap_singleton])
    refine ⟨assign (c.windowPairs win spacingX spacingY (c.blockPairs win)) dest, ?_, ?_⟩
    · rw [read, if_pos ⟨hin.x_le, hin.y_le, (isWindowValid_iff hin).mpr hne⟩, hrun,
        decide_eq_true hne]
    · intro i
      by_cases hi : ∃ q ∈ c.windowPairs win spacingX spacingY (c.blockPairs win), q.1 = i
      · obtain ⟨q, hq, rfl, heq⟩ := exists_assign_eq hi dest
        rw [heq]
        exact Or.inl ((mem_windowPairs hc hin hwrap).mp hq)
      · refine Or.inr ⟨?_, assign_of_not_mem (fun q hq hqi => hi ⟨q, hq, hqi⟩) dest⟩
        rintro ⟨x, y, hxy, ht, hv⟩
        obtain ⟨v, hv⟩ := Option.isSome_iff_exists.mp hv
        exact hi ⟨(i, v), (mem_windowPairs hc hin hwrap).mpr ⟨x, y, hxy, ht, hv⟩, rfl⟩
  · refine ⟨dest, ?_, ?_⟩
    · rw [read, if_neg fun h => hne ((isWindowValid_iff hin).mp h.2.2), decide_eq_false hne]
    · intro i
      refine Or.inr ⟨?_, rfl⟩
      rintro ⟨x, y, ⟨hx0, hx1, hy0, hy1⟩, _⟩
      exact hne ⟨hx0.trans_lt hx1, hy0.trans_lt hy1⟩

end Read

theorem Proper.u32_area (hc : c.Proper) :
    u32 (2 ^ c.lbw * 2 ^ c.lbh) = 2 ^ c.lbw * 2 ^ c.lbh := by
  apply u32_of_lt
  rw [← Nat.pow_add]
  exact Nat.pow_lt_pow_right (by decide) hc.exps

/-- The sample is in a block that the window touches. -/
def Touches (c : SparseCanvas T) (win : Rect) (x y : Nat) : Prop :=
  ∃ x' y', Holds win x' y' ∧ x' / 2 ^ c.lbw = x / 2 ^ c.lbw ∧ y' / 2 ^ c.lbh = y / 2 ^ c.lbh

theorem touches_iff : c.Touches win x y ↔
    ∃ p ∈ c.blockPairs win, x / 2 ^ c.lbw = p.1.grid ∧ y / 2 ^ c.lbh = p.2.grid := by
  constructor
  · rintro ⟨x', y', hxy, hx, hy⟩
    obtain ⟨p, hp, hx', hy'⟩ := exists_part (c := c) hxy
    exact ⟨p, hp, hx.symm.trans ((isPart hp).isInX.div_eq hx'),
      hy.symm.trans ((isPart hp).isInY.div_eq hy')⟩
  · rintro ⟨p, hp, hx, hy⟩
    have hX := (isPart hp).isInX
    have hY := (isPart hp).isInY
    refine ⟨p.1.start, p.2.start, (isPart hp).holds ⟨Nat.le_refl _, ?_⟩ ⟨Nat.le_refl _, ?_⟩,
      hX.grid_eq.symm.trans hx.symm, hY.grid_eq.symm.trans hy.symm⟩
    · exact Nat.lt_add_of_pos_right hX.len_pos
    · exact Nat.lt_add_of_pos_right hY.len_pos

/-- What allocating has done after some of the blocks of the window. -/
structure Allocated [Zero T] (c : SparseCanvas T) (zeroOutBuffer : Bool)
    (done : List (Piece × Piece)) (c' : SparseCanvas T) : Prop where
  shape : c'.SameShape c
  proper : c'.Proper
  kept : ∀ x y v, c.sample x y = some v → c'.sample x y = some v
  fresh : ∀ x y, c.sample x y = none →
    (∃ p ∈ done, x / 2 ^ c.lbw = p.1.grid ∧ y / 2 ^ c.lbh = p.2.grid) →
    ∃ v, c'.sample x y = some v ∧ (zeroOutBuffer = true → v = 0)
  other : ∀ x y, c.sample x y = none →
    (¬∃ p ∈ done, x / 2 ^ c.lbw = p.1.grid ∧ y / 2 ^ c.lbh = p.2.grid) → c'.sample x y = none

section Alloc

variable [Zero T] {win : Rect} {zeroOutBuffer : Bool} {px py : Piece}

theorem Allocated.append {done done' : List (Piece × Piece)}
    (h : c₁.Allocated zeroOutBuffer done c₂) (h' : c₂.Allocated zeroOutBuffer done' c₃) :
    c₁.Allocated zeroOutBuffer (done ++ done') c₃ := by
  refine ⟨h'.shape.trans h.shape, h'.proper, fun x y v hv => h'.kept x y v (h.kept x y v hv),
    ?_, ?_⟩
  · rintro x y hnone ⟨p, hp, hxy⟩
    by_cases hfirst : ∃ p ∈ done, x / 2 ^ c₁.lbw = p.1.grid ∧ y / 2 ^ c₁.lbh = p.2.grid
    · obtain ⟨v, hv, hzero⟩ := h.fresh x y hnone hfirst
      exact ⟨v, h'.kept x y v hv, hzero⟩
    · have hlast : p ∈ done' := by
        rcases mem_append.mp hp with hp | hp
        · exact absurd ⟨p, hp, hxy⟩ hfirst
        · exact hp
      rw [← h.shape.lbw_eq, ← h.shape.lbh_eq] at hxy
      exact h'.fresh x y (h.other x y hnone hfirst) ⟨p, hlast, hxy⟩
  · intro x y hnone hno
    have hfirst := h.other x y hnone fun ⟨p, hp, hxy⟩ => hno ⟨p, mem_append_left _ hp, hxy⟩
    apply h'.other x y hfirst
    rintro ⟨p, hp, hxy⟩
    rw [h.shape.lbw_eq, h.shape.lbh_eq] at hxy
    exact hno ⟨p, mem_append_right _ hp, hxy⟩

theorem allocBlock_spec (hc : c.Proper) (hg : c.GridHas px.grid py.grid)
    (memory : Nat → Nat → T) :
    c.Allocated zeroOutBuffer [(px, py)] (allocBlock zeroOutBuffer memory px py c) := by
  unfold allocBlock
  cases hb : c.getBlock px.grid py.grid with
  | some b =>
    refine ⟨SameShape.refl c, hc, fun _ _ _ => id, ?_, fun _ _ h _ => h⟩
    rintro x y hnone ⟨p, hp, hx, hy⟩
    cases mem_singleton.mp hp
    rw [sample_of_block hg hx hy, hb] at hnone
    exact nomatch hnone
  | none =>
    refine ⟨setBlock_sameShape _ _ _, hc.setBlock hc.u32_area, ?_, ?_, ?_⟩
    · intro x y v hv
      have hne : ¬(x / 2 ^ c.lbw = px.grid ∧ y / 2 ^ c.lbh = py.grid) := by
        rintro ⟨hx, hy⟩
        rw [sample_of_block hg hx hy, hb] at hv
        exact nomatch hv
      rw [hc.sample_setBlock hg, if_neg hne, hv]
    · rintro x y hnone ⟨p, hp, hxy⟩
      cases mem_singleton.mp hp
      refine ⟨_, by rw [hc.sample_setBlock hg, if_pos hxy], ?_⟩
      intro hzero
      rw [hzero]
      rfl
    · intro x y hnone hno
      rw [hc.sample_setBlock hg, if_neg fun hxy => hno ⟨_, mem_singleton_self _, hxy⟩, hnone]

/-- The samples that have a value keep it; those of the touched blocks get one. -/
def Allocates (sample sample' : Nat → Nat → Option T) (touched : Nat → Nat → Prop)
    (zeroOutBuffer : Bool) : Prop :=
  ∀ x y, match sample x y with
    | some v => sample' x y = some v
    | none =>
      (touched x y → ∃ v, sample' x y = some v ∧ (zeroOutBuffer = true → v = 0)) ∧
        (¬touched x y → sample' x y = none)

theorem alloc_spec (hc : c.Proper) (hin : Inside win c.bounds) (memory : Nat → Nat → T) :
    ∃ c', c.alloc win zeroOutBuffer memory = some (true, c') ∧ c'.SameShape c ∧ c'.Proper ∧
      Allocates c.sample c'.sample (c.Touches win) zeroOutBuffer := by
  by_cases hne : win.x0 < win.x1 ∧ win.y0 < win.y1
  · have hpart : ∀ p ∈ c.blockPairs win, c.GridHas p.1.grid p.2.grid := fun p hp =>
      gridHas_of_isPart hc (isPart hp) hin
    have hnil : c.Allocated zeroOutBuffer [] c :=
      ⟨SameShape.refl c, hc, fun _ _ _ => id, (fun _ _ _ ⟨_, hp, _⟩ => nomatch hp),
        fun _ _ h _ => h⟩
    have hstep : ∀ done, ∀ p ∈ c.blockPairs win, ∀ c₁, c.Allocated zeroOutBuffer done c₁ →
        ∃ c₂, some (allocBlock zeroOutBuffer memory p.1 p.2 c₁) = some c₂ ∧
          c.Allocated zeroOutBuffer (done ++ [p]) c₂ := by
      intro done p hp c₁ h₁
      have hg := hpart p hp
      rw [GridHas, ← h₁.shape.grid_eq] at hg
      exact ⟨_, rfl, h₁.append (allocBlock_spec h₁.proper hg memory)⟩
    obtain ⟨c', hrun, hc'⟩ := overBlocks_induction
      (f := fun px py c => some (allocBlock zeroOutBuffer memory px py c)) _ hnil hpart hstep
    refine ⟨c', ?_, hc'.shape, hc'.proper, ?_⟩
    · rw [alloc, if_pos ((isWindowValid_iff hin).mpr hne), hrun]
    · intro x y
      cases hxy : c.sample x y with
      | some v => exact hc'.kept x y v hxy
      | none =>
        rw [touches_iff]
        exact ⟨hc'.fresh x y hxy, hc'.other x y hxy⟩
  · refine ⟨c, ?_, SameShape.refl c, hc, ?_⟩
    · rw [alloc, if_neg fun h => hne ((isWindowValid_iff hin).mp h)]
    · intro x y
      cases hxy : c.sample x y with
      | some v => rfl
      | none =>
        refine ⟨?_, fun _ => rfl⟩
        rintro ⟨x', y', ⟨hx0, hx1, hy0, hy1⟩, _⟩
        exact absurd ⟨hx0.trans_lt hx1, hy0.trans_lt hy1⟩ hne

end Alloc

end SparseCanvas

end GrokCodec.Canvas
