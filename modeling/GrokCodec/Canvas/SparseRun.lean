import GrokCodec.Canvas.SparseSamples

/-!
Sequences of allocations, writes and reads, against an array of samples.
-/

namespace GrokCodec.Canvas

open List Option

namespace SparseCanvas

variable {T : Type}

/-- A call on a canvas. -/
inductive Op (T : Type) where
  | alloc (win : Rect) (zeroOutBuffer : Bool) (memory : Nat → Nat → T)
  | write (win : Rect) (src : Option (Nat → T)) (spacingX spacingY : Nat)
  | read (win : Rect) (dest : Nat → T) (spacingX spacingY : Nat)

/-- The window of the call is in the canvas, and its blocks have offsets of 32 bits in the buffer, if
there is one. -/
def Op.Fits (c : SparseCanvas T) : Op T → Prop
  | .alloc win _ _ => Inside win c.bounds
  | .write win src spacingX spacingY =>
    Inside win c.bounds ∧ (src.isSome → c.NoWrap win spacingX spacingY)
  | .read win _ spacingX spacingY => Inside win c.bounds ∧ c.NoWrap win spacingX spacingY

/-- The array after a write. -/
def Writes [Zero T] (cells cells' : Nat → Nat → Option T) (win : Rect) (src : Option (Nat → T))
    (spacingX spacingY : Nat) : Prop :=
  (∀ x y, Holds win x y → cells' x y =
    (cells x y).map fun _ => source src (target win spacingX spacingY x y)) ∧
  ∀ x y, ¬Holds win x y → cells' x y = cells x y

/-- Every call does to the canvas what it does to an array whose samples have a value in the blocks
that were allocated. -/
inductive Faithful [Zero T] : SparseCanvas T → (Nat → Nat → Option T) → List (Op T) → Prop where
  | nil (c : SparseCanvas T) (cells : Nat → Nat → Option T) : Faithful c cells []
  | alloc {c c' : SparseCanvas T} {cells cells' : Nat → Nat → Option T} {win : Rect}
      {zeroOutBuffer : Bool} {memory : Nat → Nat → T} {ops : List (Op T)}
      (run : c.alloc win zeroOutBuffer memory = some (true, c'))
      (spec : Allocates cells cells' (c.Touches win) zeroOutBuffer)
      (rest : Faithful c' cells' ops) :
      Faithful c cells (.alloc win zeroOutBuffer memory :: ops)
  | write {c c' : SparseCanvas T} {cells cells' : Nat → Nat → Option T} {win : Rect}
      {src : Option (Nat → T)} {spacingX spacingY : Nat} {ops : List (Op T)}
      (run : c.write win src spacingX spacingY =
        some (decide (win.x0 < win.x1 ∧ win.y0 < win.y1), c'))
      (spec : Writes cells cells' win src spacingX spacingY)
      (rest : Faithful c' cells' ops) :
      Faithful c cells (.write win src spacingX spacingY :: ops)
  | read {c : SparseCanvas T} {cells : Nat → Nat → Option T} {win : Rect}
      {dest dest' : Nat → T} {spacingX spacingY : Nat} {ops : List (Op T)}
      (run : c.read win dest spacingX spacingY =
        some (decide (win.x0 < win.x1 ∧ win.y0 < win.y1), dest'))
      (spec : Reads cells win spacingX spacingY dest dest')
      (rest : Faithful c cells ops) :
      Faithful c cells (.read win dest spacingX spacingY :: ops)

theorem SameShape.fits {c c' : SparseCanvas T} (h : c'.SameShape c) {op : Op T}
    (hop : op.Fits c) : op.Fits c' := by
  cases op with
  | alloc win _ _ =>
    rw [Op.Fits, h.bounds_eq]
    exact hop
  | write win _ _ _ =>
    refine ⟨?_, fun hsrc => h.noWrap (hop.2 hsrc)⟩
    rw [h.bounds_eq]
    exact hop.1
  | read win _ _ _ =>
    refine ⟨?_, h.noWrap hop.2⟩
    rw [h.bounds_eq]
    exact hop.1

theorem faithful_sample [Zero T] {ops : List (Op T)} {c : SparseCanvas T} (hc : c.Proper)
    (hops : ∀ op ∈ ops, op.Fits c) : Faithful c c.sample ops := by
  induction ops generalizing c with
  | nil => exact Faithful.nil c c.sample
  | cons op ops ih =>
    have hop := hops op mem_cons_self
    have hrest : ∀ {c'}, c'.SameShape c → c'.Proper → Faithful c' c'.sample ops :=
      fun hshape hc' => ih hc' fun op hmem => hshape.fits (hops op (mem_cons_of_mem _ hmem))
    cases op with
    | alloc win zeroOutBuffer memory =>
      obtain ⟨c', hrun, hshape, hc', hspec⟩ := alloc_spec hc hop memory
      exact Faithful.alloc hrun hspec (hrest hshape hc')
    | write win src spacingX spacingY =>
      obtain ⟨c', hrun, hshape, hc', hspec⟩ := write_spec hc hop.1 hop.2
      exact Faithful.write hrun hspec (hrest hshape hc')
    | read win dest spacingX spacingY =>
      obtain ⟨dest', hrun, hspec⟩ := read_spec hc hop.1 hop.2 dest
      exact Faithful.read hrun hspec (hrest (SameShape.refl c) hc)

/-- **Allocations, writes and reads in any order act on a sparse canvas as on an array, if the offsets
of the blocks in the buffers have 32 bits.** -/
theorem faithful_of_fits [Zero T] (lbw lbh : Nat) (bounds : Rect) (hexps : lbw + lbh < 32)
    (hx : bounds.x0 < bounds.x1) (hy : bounds.y0 < bounds.y1) (hx1 : bounds.x1 < 2 ^ 32)
    (hy1 : bounds.y1 < 2 ^ 32) (ops : List (Op T))
    (hops : ∀ op ∈ ops, op.Fits ({ lbw, lbh, bounds } : SparseCanvas T)) :
    Faithful { lbw, lbh, bounds } (fun _ _ => none) ops := by
  have hc : ({ lbw, lbh, bounds } : SparseCanvas T).Proper :=
    ⟨hexps, hx, hy, hx1, hy1, fun i b hb => nomatch hb⟩
  have hempty : ({ lbw, lbh, bounds } : SparseCanvas T).sample = fun _ _ => none := by
    funext x y
    exact ite_self none
  rw [← hempty]
  exact faithful_sample hc hops

/-- Two blocks, one over the other: a column of three samples is written and read. -/
def columnOps (spacingY : Nat) : List (Op Nat) :=
  [.alloc ⟨0, 0, 1, 3⟩ true fun _ _ => 0, .write ⟨0, 0, 1, 3⟩ (some fun i => i) 1 spacingY,
    .read ⟨0, 0, 1, 3⟩ (fun _ => 0) 1 1]

theorem faithful_of_fits_column :
    Faithful { lbw := 1, lbh := 1, bounds := ⟨0, 0, 1, 3⟩ } (fun _ _ => none)
      (columnOps (2 ^ 31 - 1)) := by
  refine faithful_of_fits 1 1 ⟨0, 0, 1, 3⟩ (by decide) (by decide) (by decide) (by decide)
    (by decide) _ ?_
  have hin : Inside ⟨0, 0, 1, 3⟩ ⟨0, 0, 1, 3⟩ := by constructor <;> decide
  intro op hop
  simp only [columnOps, mem_cons, not_mem_nil, or_false] at hop
  rcases hop with rfl | rfl | rfl
  · exact hin
  on_goal 1 => refine ⟨hin, fun _ => ⟨?_, ?_⟩⟩
  on_goal 3 => refine ⟨hin, ⟨?_, ?_⟩⟩
  all_goals
    intro i _ hi _
    dsimp only at hi ⊢
    omega

/-- Rows that are `2 ^ 31` apart: the third one is written from the place of the first. -/
theorem not_faithful_column :
    ¬Faithful { lbw := 1, lbh := 1, bounds := ⟨0, 0, 1, 3⟩ } (fun _ _ => none)
      (columnOps (2 ^ 31)) := by
  intro h
  cases h with
  | alloc run spec rest =>
  cases rest with
  | write run' spec' rest =>
  cases rest with
  | read run'' spec'' _ =>
  have hread : ((((({ lbw := 1, lbh := 1, bounds := ⟨0, 0, 1, 3⟩ } : SparseCanvas Nat).alloc
      ⟨0, 0, 1, 3⟩ true fun _ _ => 0).bind fun r =>
        r.2.write ⟨0, 0, 1, 3⟩ (some fun i => i) 1 (2 ^ 31)).bind fun r =>
          r.2.read ⟨0, 0, 1, 3⟩ (fun _ => 0) 1 1).map fun r => r.2 2) = some 0 := by
    decide +kernel
  rw [run, bind_some, run', bind_some, run'', map_some,
    some_inj] at hread
  dsimp only at hread
  have htouch : ({ lbw := 1, lbh := 1, bounds := ⟨0, 0, 1, 3⟩ } : SparseCanvas Nat).Touches
      ⟨0, 0, 1, 3⟩ 0 2 := ⟨0, 2, ⟨by decide, by decide, by decide, by decide⟩, rfl, rfl⟩
  obtain ⟨v, hv, _⟩ := (spec 0 2).1 htouch
  have hcell := spec'.1 0 2 ⟨by decide, by decide, by decide, by decide⟩
  rw [hv] at hcell
  rcases spec'' 2 with ⟨x, y, ⟨_, hx, _, _⟩, htarget, hval⟩ | ⟨hnone, _⟩
  · obtain rfl : x = 0 := Nat.lt_one_iff.mp hx
    have hy : (y - 0) * 1 + (0 - 0) * 1 = 2 := htarget
    obtain rfl : y = 2 := by omega
    rw [hcell, hread] at hval
    have hzero : (2 - 0) * 2 ^ 31 + (0 - 0) * 1 = 0 := some.inj hval
    exact absurd hzero (by decide)
  · exact hnone ⟨0, 2, ⟨by decide, by decide, by decide, by decide⟩, rfl, by rw [hcell]; rfl⟩

end SparseCanvas

end GrokCodec.Canvas
