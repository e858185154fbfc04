import GrokCodec.Mercury.TileGeom
import GrokCodec.Lib.Tiling

/-!
The tile grid of a SIZ segment. Along each axis the image is cut at the multiples of the tile size.
-/

namespace GrokCodec.Codestream

open Tiling SIZMarker Mercury.Geometry

/-- The grid as `SIZMarker::read` stores it, in 16 bits. -/
def numTiles (siz : Siz) : Nat := u16 (tGridWidth siz) * u16 (tGridHeight siz)

/-- Tiles are numbered row by row. -/
def tileBounds (siz : Siz) (tileIndex : Nat) : Rect :=
  getTileBounds siz (tileIndex % u16 (tGridWidth siz)) (tileIndex / u16 (tGridWidth siz))

def Siz.bounds (siz : Siz) : Rect := ⟨siz.x0, siz.y0, siz.x1, siz.y1⟩

def Contains (r : Rect) (p : Nat × Nat) : Prop :=
  (r.x0 ≤ p.1 ∧ p.1 < r.x1) ∧ r.y0 ≤ p.2 ∧ p.2 < r.y1

def Mono32 (f : Nat → Nat) : Prop := ∀ {a b}, a ≤ b → b < 2 ^ 32 → f a ≤ f b

/-- What the checks on a SIZ segment say about one axis of the image and its tiles. -/
structure TiledAxis (t0 size lo hi : Nat) : Prop where
  size_pos : 0 < size
  origin : t0 ≤ lo
  first : lo < t0 + size
  nonempty : lo < hi
  fits : hi < 2 ^ 32

namespace TiledAxis

variable {t0 size lo hi : Nat} (h : TiledAxis t0 size lo hi)

include h

theorem count_eq : ceildiv (hi - t0) size = (hi - t0) ⌈/⌉ size :=
  ceildiv_eq h.size_pos (by have := h.fits; omega)

/-- The edges of a tile, of which the lower one is computed in 32 bits and the upper one in 64. -/
theorem edges {i : Nat} (hi' : i < ceildiv (hi - t0) size) :
    max (u32 (t0 + u32 (i * size))) lo = cut lo hi t0 size i ∧
      (if t0 + (i + 1) * size > hi then hi else u32 (t0 + (i + 1) * size)) =
        cut lo hi t0 size (i + 1) ∧
      cut lo hi t0 size i < cut lo hi t0 size (i + 1) := by
  rw [h.count_eq] at hi'
  have hstart := tile_start_lt h.size_pos hi'
  obtain ⟨hsize, horigin, hfirst, hne, hfits⟩ := h
  have hgrown : size ≤ (i + 1) * size := Nat.le_mul_of_pos_left size i.succ_pos
  rw [lower_edge (hstart.trans hfits)]
  unfold cut
  rw [Nat.succ_mul] at hgrown ⊢
  refine ⟨by omega, ?_, by omega⟩
  split
  · omega
  · rw [u32_of_lt (by omega)]
    omega

/-- The tiles split the axis, also after a map that keeps the order of 32-bit numbers. -/
theorem splits {f : Nat → Nat} (hf : Mono32 f) :
    Splits (ceildiv (hi - t0) size)
      (fun i v => f (cut lo hi t0 size i) ≤ v ∧ v < f (cut lo hi t0 size (i + 1)))
      (fun v => f lo ≤ v ∧ v < f hi) := by
  have hmono : Monotone fun i => f (cut lo hi t0 size i) := fun i j hij => by
    refine hf (cut_mono hij) ?_
    have := h.fits
    have := h.nonempty
    unfold cut
    omega
  have hcuts := splits_cuts hmono (ceildiv (hi - t0) size)
  have hle : hi - t0 ≤ size * ((hi - t0) ⌈/⌉ size) := (ceilDiv_le_iff_le_mul h.size_pos).mp le_rfl
  rw [Nat.mul_comm, ← h.count_eq] at hle
  obtain ⟨-, horigin, -, hne, -⟩ := h
  rwa [show cut lo hi t0 size 0 = lo by unfold cut; omega,
    show cut lo hi t0 size (ceildiv (hi - t0) size) = hi by unfold cut; omega] at hcuts

end TiledAxis

variable {reduce : Nat} {headerData : List Nat} {siz : Siz}

theorem tiledAxes (hfits : siz.Fits) (hok : fieldsOk reduce siz = true) :
    TiledAxis siz.tx0 siz.tWidth siz.x0 siz.x1 ∧ TiledAxis siz.ty0 siz.tHeight siz.y0 siz.y1 := by
  simp only [fieldsOk, gridOk, Bool.and_eq_true, decide_eq_true_eq] at hok
  unfold satAdd at hok
  have hx1 := hfits.x1
  have hy1 := hfits.y1
  constructor <;> constructor <;> omega

theorem grid_stored (hok : fieldsOk reduce siz = true) :
    u16 (tGridWidth siz) = tGridWidth siz ∧ u16 (tGridHeight siz) = tGridHeight siz := by
  simp only [fieldsOk, tilesOk, Bool.and_eq_true, decide_eq_true_eq] at hok
  obtain ⟨⟨-, ⟨hw, hh⟩, hle⟩, -⟩ := hok
  have hmax : maxNumTilesJ2K = 65535 := rfl
  have hwle := Nat.le_mul_of_pos_right (tGridWidth siz) (Nat.pos_of_ne_zero hh)
  have hhle := Nat.le_mul_of_pos_left (tGridHeight siz) (Nat.pos_of_ne_zero hw)
  exact ⟨Nat.mod_eq_of_lt (by omega), Nat.mod_eq_of_lt (by omega)⟩

theorem ceildiv_mono32 {d : Nat} (hd : 0 < d) : Mono32 (ceildiv · d) := fun hab hb => by
  dsimp only
  rw [ceildiv_eq hd hb, ceildiv_eq hd (hab.trans_lt hb), ceilDiv_le_iff_le_mul hd]
  exact hab.trans ((ceilDiv_le_iff_le_mul hd).mp le_rfl)

/-- **The tiles partition the image, and their components partition each component.** -/
theorem tiles_partition (hbytes : ∀ b ∈ headerData, b < 256)
    (h : read reduce headerData = some siz) :
    (∀ k < numTiles siz, (tileBounds siz k).empty = false) ∧
    Splits (numTiles siz) (fun k => Contains (tileBounds siz k)) (Contains siz.bounds) ∧
    ∀ comp ∈ siz.comps,
      Splits (numTiles siz) (fun k => Contains ((tileBounds siz k).scaleDownCeil comp.dx comp.dy))
        (Contains (siz.bounds.scaleDownCeil comp.dx comp.dy)) := by
  obtain ⟨hfits, -, hok⟩ := read_some hbytes h
  obtain ⟨hx, hy⟩ := tiledAxes hfits hok
  obtain ⟨hw, hh⟩ := grid_stored hok
  have hedges (k) (hk : k < tGridWidth siz * tGridHeight siz) :=
    have ⟨hcolumn, hrow, _⟩ := MixedRadix.index_iff.mpr ⟨hk, rfl, rfl⟩
    And.intro (hx.edges hcolumn) (hy.edges hrow)
  unfold numTiles tileBounds getTileBounds
  rw [hw, hh]
  refine ⟨fun k hk => ?_, ?_, fun comp hcomp => ?_⟩
  · obtain ⟨⟨hx0, hx1, hx⟩, hy0, hy1, hy⟩ := hedges k hk
    simp [Rect.empty, hx0, hx1, hx, hy0, hy1, hy]
  · refine ((hx.splits (f := id) fun hab _ => hab).prod
      (hy.splits (f := id) fun hab _ => hab)).congr fun k hk p => ?_
    obtain ⟨⟨hx0, hx1, -⟩, hy0, hy1, -⟩ := hedges k hk
    simp only [Contains, hx0, hx1, hy0, hy1]
    rfl
  · obtain ⟨hdx, hdy⟩ := (accepted_of_read hbytes h).comps comp hcomp
    refine ((hx.splits (ceildiv_mono32 hdx)).prod (hy.splits (ceildiv_mono32 hdy))).congr
      fun k hk p => ?_
    obtain ⟨⟨hx0, hx1, -⟩, hy0, hy1, -⟩ := hedges k hk
    simp only [Contains, Rect.scaleDownCeil, hx0, hx1, hy0, hy1]
    rfl

/-- Five tiles, the last of which is three samples wide. -/
theorem wideSegment_tiles : ∃ siz, read 0 (wideSegment (2 ^ 30 - 1)) = some siz ∧ numTiles siz = 5 ∧
    tileBounds siz 4 = ⟨2 ^ 32 - 4, 0, 2 ^ 32 - 1, 2⟩ ∧
    Splits (numTiles siz) (fun k => Contains (tileBounds siz k)) (Contains siz.bounds) := by
  have hread : read 0 (wideSegment (2 ^ 30 - 1)) =
      some ⟨0, 2 ^ 32 - 1, 2, 0, 0, 2 ^ 30 - 1, 2, 0, 0, [⟨8, false, 1, 1⟩]⟩ := by decide +kernel
  exact ⟨_, hread, by decide +kernel, by decide +kernel,
    (tiles_partition (by decide +kernel) hread).2.1⟩

end GrokCodec.Codestream
