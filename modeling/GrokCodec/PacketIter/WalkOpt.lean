import GrokCodec.PacketIter.Walk
import GrokCodec.PacketIter.NextOpt

/-!
What the loops of the optimised iterators hand out when the whole tile is decoded.
-/

namespace GrokCodec.PacketIter

open Resumable Ordered

namespace Iter

variable {it : Iter}

/-- The part of `precInfoCheck` that looks at the first component. -/
def hasGrid0 (it : Iter) (r : Nat) : Bool :=
  decide (r < (it.comp 0).numresolutions) && decide (it.gridWidth 0 r > 0) &&
    decide (it.gridHeight 0 r > 0)

theorem precInfoCheck_eq (it : Iter) (inf : ResPrecinctInfo) (s : State) :
    it.precInfoCheck inf s = (inf.valid && it.hasGrid0 s.resno) := by
  simp only [precInfoCheck, hasGrid0, Bool.and_assoc]

theorem visitLayerOPT_eq (hs : it.singleProgression = true) (index : Nat) :
    it.visitLayerOPT index = it.visitLayer index := by
  funext s
  simp [visitLayerOPT, visitLayer, updateInclude, hs]

section Loops

variable {κ : Cursor} {body : State → Outcome State} {K : State → Prop}
variable {out : Nat → List Packet} {e d : Nat} {step : State → Nat}

theorem xLoopTo_spec (hd : 0 < d) (hstep : ∀ s : State, s.dx = κ.dx → step s = d)
    (hbody : ∀ p, p < e → it.Hands body (it.At { κ with x := p }) (fun m => m.x = p ∧ K m) (out p)
      (it.At { κ with x := p })) (a : Nat) :
    it.Hands (xLoopTo e step body) (it.At { κ with x := a }) K
      ((strideSteps d e a).flatMap out) (fun h s => ∃ p, it.At { κ with x := p } h s) := by
  have hx (p : Nat) (h : List Packet) (s : State) (hs : it.At { κ with x := p } h s) :
      s.x = p := congrArg Cursor.x hs.cursor_eq
  refine Spec.forLoop (A := fun p => it.At { κ with x := p })
    (B := fun p => it.At { κ with x := p }) (fun _ _ => Fresh.of_append) (strideSteps_steps hd e)
    (fun p _ => by omega) hx ?_ hbody a
  intro p h s hs
  refine hs.set rfl rfl rfl ?_
  have hc := congrArg (fun k : Cursor => { k with x := p + d }) hs.cursor_eq
  rw [hx p h s hs, hstep s (congrArg Cursor.dx hs.cursor_eq)]
  exact hc

theorem yLoopTo_spec (head tail : Nat → Cursor) (hd : 0 < d)
    (hhead : ∀ p, (head p).y = p) (htail : ∀ p, (tail p).y = p)
    (hstep : ∀ p s, State.cursor s = tail p → step s = d) (a : Nat)
    (hnext : ∀ p, a ≤ p → head (p + d) = { tail p with y := p + d })
    (hbody : ∀ p, p < e → it.Hands body (it.At (head p)) (fun m => m.y = p ∧ K m) (out p)
      (it.At (tail p))) :
    it.Hands (yLoopTo e step body) (it.At (head a)) K
      ((strideSteps d e a).flatMap out) (fun h s => ∃ p, it.At (head p) h s) := by
  suffices hloop : it.Hands (yLoopTo e step body) (fun h s => a ≤ a ∧ it.At (head a) h s) K
      ((strideSteps d e a).flatMap out) (fun h s => ∃ p, a ≤ p ∧ it.At (head p) h s) from
    hloop.conseq (fun _ _ h => ⟨le_rfl, h⟩) (fun _ h => h) fun _ _ ⟨p, h⟩ => ⟨p, h.2⟩
  refine Spec.forLoop (A := fun p h s => a ≤ p ∧ it.At (head p) h s)
    (B := fun p h s => a ≤ p ∧ it.At (tail p) h s) (fun _ _ => Fresh.of_append)
    (strideSteps_steps hd e) (fun p _ => by omega) ?_ ?_ (fun p hp h s hok hs => ?_) a
  · rintro p h s ⟨-, hs⟩
    rw [← hhead p, ← hs.cursor_eq]
    rfl
  · rintro p h s ⟨hp, hs⟩
    refine ⟨by omega, hs.set rfl rfl rfl ?_⟩
    have hy : s.y = p := by rw [← htail p, ← hs.cursor_eq]; rfl
    rw [hnext p hp, ← hs.cursor_eq, hy, hstep p s hs.cursor_eq]
    rfl
  · obtain ⟨t, he, ht⟩ := hbody p hp h s hok hs.2
    exact ⟨t, he, hs.1, ht⟩

theorem xSweepTo_spec {x0 : Nat} (hd : 0 < κ.dx) (hx : κ.x = x0)
    (hbody : ∀ p, p < e → it.Hands body (it.At { κ with x := p }) (fun m => m.x = p ∧ K m) (out p)
      (it.At { κ with x := p })) :
    it.Hands (fun s => (xLoopTo e State.dx body s).after fun s => { s with x := x0 }) (it.At κ) K
      ((strideSteps κ.dx e x0).flatMap out) (it.At κ) := by
  have hself : { κ with x := x0 } = κ := by rw [← hx]
  have hloop := xLoopTo_spec (κ := κ) hd (fun _ h => h) hbody x0
  rw [hself] at hloop
  refine hloop.sweep fun p h s hs => hs.set rfl rfl rfl ?_
  exact (congrArg (fun k : Cursor => { k with x := x0 }) hs.cursor_eq).trans hself

end Loops

theorem visitLayer_at_spec (κ : Cursor) (index : Nat) :
    it.Hands (it.visitLayer index) (it.At κ)
      (fun m => m.compno = κ.compno ∧ m.resno = κ.resno ∧ m.x = κ.x ∧ m.y = κ.y)
      (it.layerPackets κ.compno κ.resno index it.prog.lay_s) (it.At κ) := by
  refine (visitLayer_spec κ index).weaken ?_
  rintro m ⟨hm, -⟩
  rw [← hm]
  exact ⟨rfl, rfl, rfl, rfl⟩

/-- The precinct that `next_rpclOPT` takes to be at a position. -/
def rpclIndexOPT (inf : ResPrecinctInfo) (x y : Nat) : Nat :=
  genPrecinct0GridRPCLOPT x inf.decompLevel inf.precWidthExp inf.resInPrecGridX0 +
    genPrecinct0GridRPCLOPT y inf.decompLevel inf.precHeightExp inf.resInPrecGridY0 *
      inf.tileBoundsPrecGrid.width

/-- Where row `y` starts: the first row at the tile, the others at the grid. -/
def rpclRowStartOPT (it : Iter) (inf : ResPrecinctInfo) (y : Nat) : Nat :=
  if y = it.prog.ty0 then it.prog.tx0 else inf.tileBoundsPrecPRJ.x0

/-- One row of resolution `r` in `next_rpclOPT`. -/
def rpclRowPacketsOPT (it : Iter) (r y : Nat) : List Packet :=
  let inf := it.infoOPT r
  (strideSteps inf.precWidthPRJ inf.tileBoundsPrecPRJ.x1 (it.rpclRowStartOPT inf y)).flatMap
    fun x => it.compRange.flatMap fun c => it.layerPackets c r (rpclIndexOPT inf x y) it.prog.lay_s

/-- Resolution `r` in `next_rpclOPT`. -/
def rpclResOPT (it : Iter) (r : Nat) : List Packet :=
  let inf := it.infoOPT r
  if inf.valid && it.hasGrid0 r then
    (strideSteps inf.precHeightPRJ inf.tileBoundsPrecPRJ.y1 it.prog.ty0).flatMap
      (it.rpclRowPacketsOPT r)
  else []

variable (hw : it.wholeTile = true)

include hw

theorem nextRpclOPT_eq : it.nextRpclOPT = it.resLoop fun s =>
    if (it.infoOPT s.resno).valid && it.hasGrid0 s.resno then
      (yLoopTo (it.infoOPT s.resno).tileBoundsPrecPRJ.y1
        (fun _ => (it.infoOPT s.resno).precHeightPRJ) (it.rpclRowOPT (it.infoOPT s.resno)) s).after
          fun s => { s with y := it.prog.ty0, x := it.prog.tx0 }
    else .done s := by
  unfold nextRpclOPT
  simp [hw, precInfoCheck_eq]

variable (hs : it.singleProgression = true)

include hs

/-- A row of the whole tile. Its number is computed on entry. -/
theorem rpclRowOPT_eq (inf : ResPrecinctInfo) (s : State) :
    it.rpclRowOPT inf s =
      ((xLoopTo inf.tileBoundsPrecPRJ.x1 (fun _ => inf.precWidthPRJ) (fun t =>
        (it.compLoop (it.visitLayer (rpclIndexOPT inf t.x s.y)) t).after it.resetComp) s).after
          fun t => { t with x := inf.tileBoundsPrecPRJ.x0 }).after
            fun t => { t with skippedLeft := false } := by
  simp only [rpclRowOPT, hw, visitLayerOPT_eq hs, Bool.not_true, Bool.false_and, Bool.true_or,
    if_true, Bool.false_eq_true, if_false]
  rfl

theorem rpclRowOPT_spec {κ : Cursor} {r : Nat} (hr : κ.resno = r) (hc : κ.compno = it.prog.comp_s)
    (hx : κ.x = it.rpclRowStartOPT (it.infoOPT r) κ.y) (hpos : 0 < (it.infoOPT r).precWidthPRJ) :
    it.Hands (it.rpclRowOPT (it.infoOPT r)) (it.At κ)
      (fun m => m.y = κ.y ∧ m.resno = r) (it.rpclRowPacketsOPT r κ.y)
      (it.At { κ with x := (it.infoOPT r).tileBoundsPrecPRJ.x0 }) := by
  unfold rpclRowPacketsOPT
  generalize it.infoOPT r = inf at *
  subst hr
  have hself : { κ with x := it.rpclRowStartOPT inf κ.y } = κ := by rw [← hx]
  refine Spec.congr (f := fun s =>
    ((xLoopTo inf.tileBoundsPrecPRJ.x1 (fun _ => inf.precWidthPRJ) (fun t =>
      (it.compLoop (it.visitLayer (rpclIndexOPT inf t.x κ.y)) t).after it.resetComp) s).after
        fun t => { t with x := inf.tileBoundsPrecPRJ.x0 }).after
          fun t => { t with skippedLeft := false }) ?_ (fun h s hκ => ?_) (fun s hm => ?_)
  · refine Spec.after (Q := it.At { κ with x := inf.tileBoundsPrecPRJ.x0 })
      (Spec.sweep (A := fun p => it.At { κ with x := p }) ?_ ?_)
      fun h s hs => hs.set rfl rfl rfl hs.cursor_eq
    · refine Spec.conseq (xLoopTo_spec (κ := κ) hpos (fun _ _ => rfl) (fun p _ => ?_)
        (it.rpclRowStartOPT inf κ.y))
        (fun h s hs => by rw [hself]; exact hs) (fun _ h => h) (fun _ _ h => h)
      refine Spec.congr (f := fun s =>
        (it.compLoop (it.visitLayer (rpclIndexOPT inf p κ.y)) s).after it.resetComp) ?_
        (fun h s hκ => ?_) (fun s hm => by rw [hm.1])
      · refine compSweep_spec hc fun c _ => ?_
        refine (visitLayer_at_spec { κ with x := p, compno := c } _).weaken ?_
        rintro m ⟨h1, h2, h3, h4⟩
        exact ⟨h1, h3, h4, h2⟩
      · have hsx : s.x = p := congrArg Cursor.x hκ.cursor_eq
        rw [hsx]
    · intro p h s hs
      exact hs.set rfl rfl rfl (congrArg (fun k : Cursor =>
        { k with x := inf.tileBoundsPrecPRJ.x0 }) hs.cursor_eq)
  · have hsy : s.y = κ.y := congrArg Cursor.y hκ.cursor_eq
    rw [rpclRowOPT_eq hw hs, hsy]
  · rw [rpclRowOPT_eq hw hs, hm.1]

/-- The rows of a resolution. The first one starts at the tile, the rows after it where the
grid does. -/
theorem rpclRowsOPT_spec {κ : Cursor} {r : Nat} (hr : κ.resno = r) (hc : κ.compno = it.prog.comp_s)
    (hx : κ.x = it.prog.tx0) (hy : κ.y = it.prog.ty0) (hpx : 0 < (it.infoOPT r).precWidthPRJ)
    (hpy : 0 < (it.infoOPT r).precHeightPRJ) :
    it.Hands (fun s => (yLoopTo (it.infoOPT r).tileBoundsPrecPRJ.y1
      (fun _ => (it.infoOPT r).precHeightPRJ) (it.rpclRowOPT (it.infoOPT r)) s).after
        fun s => { s with y := it.prog.ty0, x := it.prog.tx0 }) (it.At κ) (fun m => m.resno = r)
      ((strideSteps (it.infoOPT r).precHeightPRJ (it.infoOPT r).tileBoundsPrecPRJ.y1
        it.prog.ty0).flatMap (it.rpclRowPacketsOPT r)) (it.At κ) := by
  let head (p : Nat) : Cursor := { κ with y := p, x := it.rpclRowStartOPT (it.infoOPT r) p }
  let tail (p : Nat) : Cursor := { κ with y := p, x := (it.infoOPT r).tileBoundsPrecPRJ.x0 }
  have hhome : head it.prog.ty0 = κ := by
    simp [head, rpclRowStartOPT, ← hx, ← hy]
  refine Spec.sweep (A := fun p => it.At (head p)) ?_ fun p h s hs => hs.set rfl rfl rfl ?_
  · rw [show it.At κ = it.At (head it.prog.ty0) by rw [hhome]]
    refine yLoopTo_spec head tail hpy (fun _ => rfl) (fun _ => rfl) (fun _ _ _ => rfl) it.prog.ty0
      (fun p hp => ?_) (fun p _ => ?_)
    · simp only [head, tail, rpclRowStartOPT]
      rw [if_neg (by omega)]
    · exact rpclRowOPT_spec hw hs (κ := head p) hr hc rfl hpx
  · have hcur := congrArg (fun k : Cursor => { k with y := it.prog.ty0, x := it.prog.tx0 })
      hs.cursor_eq
    refine hcur.trans ?_
    simp only [head, ← hx, ← hy]

/-- What `next_rpclOPT` hands out. -/
def rpclPacketsOPT (it : Iter) : List Packet := it.resRange.flatMap it.rpclResOPT

theorem nextRpclOPT_spec (hpos : ∀ r, (it.infoOPT r).valid = true →
      0 < (it.infoOPT r).precWidthPRJ ∧ 0 < (it.infoOPT r).precHeightPRJ) :
    it.Hands it.nextRpclOPT (it.At it.home) (fun _ => True) it.rpclPacketsOPT
      (fun _ _ => True) := by
  rw [nextRpclOPT_eq hw]
  refine (resLoop_spec (κ := it.home) (fun r _ => ?_) it.prog.res_s).forget
  have hres (h : List Packet) (s : State) (hκ : it.At { it.home with resno := r } h s) :
      s.resno = r := congrArg Cursor.resno hκ.cursor_eq
  unfold rpclResOPT
  dsimp only
  split
  case isTrue hcheck =>
    obtain ⟨hpx, hpy⟩ := hpos r (by simp_all)
    have hrows := rpclRowsOPT_spec hw hs (κ := { it.home with resno := r }) rfl rfl rfl rfl hpx hpy
    exact (hrows.congr (fun h s hκ => by rw [hres h s hκ, if_pos hcheck])
      (fun s hm => by rw [hm, if_pos hcheck])).weaken (fun m hm => ⟨hm, trivial⟩)
  case isFalse hcheck =>
    exact Spec.skip fun h s hκ => ⟨s, by rw [hres h s hκ, if_neg hcheck], hκ⟩

/-- The grid position that `next_pcrlOPT` and `next_cprlOPT` find at a position of the tile. -/
def slotOPT (it : Iter) (r x y : Nat) : Option (Nat × Nat) :=
  let inf := it.infoOPT r
  if inf.valid then
    match genPrecinct0GridPCRLOPT y inf.precHeightPRJ inf.decompLevel inf.precHeightExp
        inf.resInPrecGridY0,
      genPrecinct0GridPCRLOPT x inf.precWidthPRJ inf.decompLevel inf.precWidthExp
        inf.resInPrecGridX0 with
    | some py, some px => some (px, py)
    | _, _ => none
  else none

omit hw

theorem visitOPT_eq (s : State) :
    it.visitOPT s = match it.slotOPT s.resno s.x s.y with
      | none => .done s
      | some (px, py) =>
        it.visitLayer (px + py * it.gridWidth s.compno s.resno)
          { s with precinctIndex := px + py * it.gridWidth s.compno s.resno } := by
  unfold visitOPT slotOPT
  dsimp only
  split
  · split <;> simp [visitLayerOPT_eq hs, *]
  · rfl

/-- The packets `visitOPT` hands out at a position. -/
def cellOPT (it : Iter) (c r x y : Nat) : List Packet :=
  match it.slotOPT r x y with
  | none => []
  | some (px, py) => it.layerPackets c r (px + py * it.gridWidth c r) it.prog.lay_s

theorem visitOPT_spec (κ : Cursor) :
    it.Hands it.visitOPT (it.At κ)
      (fun m => m.compno = κ.compno ∧ m.resno = κ.resno ∧ m.x = κ.x ∧ m.y = κ.y)
      (it.cellOPT κ.compno κ.resno κ.x κ.y) (it.At κ) := by
  have hcur (s : State) (hs : s.cursor = κ) :
      s.compno = κ.compno ∧ s.resno = κ.resno ∧ s.x = κ.x ∧ s.y = κ.y := by
    rw [← hs]; exact ⟨rfl, rfl, rfl, rfl⟩
  unfold cellOPT
  cases hv : it.slotOPT κ.resno κ.x κ.y with
  | none =>
    refine Spec.skip fun h s hκ => ⟨s, ?_, hκ⟩
    obtain ⟨h1, h2, h3, h4⟩ := hcur s hκ.2
    simp [visitOPT_eq hs, h2, h3, h4, hv]
  | some q =>
    obtain ⟨index, hindex⟩ : ∃ i, i = q.1 + q.2 * it.gridWidth κ.compno κ.resno := ⟨_, rfl⟩
    have heq (s : State) (hκ : s.cursor = κ) :
        it.visitOPT s = it.visitLayer index { s with precinctIndex := index } := by
      obtain ⟨h1, h2, h3, h4⟩ := hcur s hκ
      simp [visitOPT_eq hs, h1, h2, h3, h4, hv, hindex]
    intro h s hok hκ
    -- the index is stored before the layers are looked at
    obtain ⟨t, he, ht⟩ := visitLayer_spec κ index h { s with precinctIndex := index }
      (by rw [hindex]; exact hok) (hκ.set rfl rfl rfl hκ.2)
    dsimp only
    rw [← hindex]
    have hindexed : it.visitOPT { s with precinctIndex := index } = it.visitOPT s :=
      (heq { s with precinctIndex := index } hκ.2).trans (heq s hκ.2).symm
    refine ⟨t, Emits.of_eq (Emits.mono (he.congr (heq { s with precinctIndex := index } hκ.2)
      fun m hm => ?_) fun m hm => ?_) hindexed.symm, ht⟩
    · rw [heq m hm.1, ← hm.2]
    · exact hcur m hm.1

/-- The columns of a row in `next_pcrlOPT` and `next_cprlOPT`. -/
def columnsOPT (it : Iter) : List Nat :=
  strideSteps it.tile.updateDx (it.infoOPT (it.prog.res_e - 1)).tileBoundsPrecPRJ.x1 it.prog.tx0

def rowsOPT (it : Iter) : List Nat :=
  strideSteps it.tile.updateDy (it.infoOPT (it.prog.res_e - 1)).tileBoundsPrecPRJ.y1 it.prog.ty0

/-- What `next_pcrlOPT` hands out when no check stops it. -/
def pcrlPacketsOPT (it : Iter) : List Packet :=
  it.rowsOPT.flatMap fun y => it.columnsOPT.flatMap fun x =>
    it.compRange.flatMap fun c => it.resRange.flatMap fun r => it.cellOPT c r x y

/-- What `next_cprlOPT` hands out when no check stops it. -/
def cprlPacketsOPT (it : Iter) : List Packet :=
  it.compRange.flatMap fun c => it.rowsOPT.flatMap fun y => it.columnsOPT.flatMap fun x =>
    it.resRange.flatMap fun r => it.cellOPT c r x y

/-- The loops of `next_pcrlOPT` over the whole tile, below its check. -/
def pcrlSweepOPT (it : Iter) : State → Outcome State :=
  let inf := it.infoOPT (it.prog.res_e - 1)
  yLoopTo inf.tileBoundsPrecPRJ.y1 State.dy fun s =>
    (xLoopTo inf.tileBoundsPrecPRJ.x1 State.dx (fun s =>
      (it.compLoop (fun s => (it.resLoop it.visitOPT s).after it.resetRes) s).after
        it.resetComp) s).after fun s => { s with x := inf.tileBoundsPrecPRJ.x0 }

/-- The loops of `next_cprlOPT` over the whole tile, below its check. -/
def cprlSweepOPT (it : Iter) : State → Outcome State :=
  let inf := it.infoOPT (it.prog.res_e - 1)
  it.compLoop fun s =>
    (yLoopTo inf.tileBoundsPrecPRJ.y1 State.dy (fun s =>
      (xLoopTo inf.tileBoundsPrecPRJ.x1 State.dx
        (fun s => (it.resLoop it.visitOPT s).after it.resetRes) s).after
          fun s => { s with x := it.prog.tx0 }) s).after fun s => { s with y := it.prog.ty0 }

/-- The check both functions make on every entry. -/
def checkOPT (it : Iter) (r : Nat) : Bool :=
  (it.infoOPT (it.prog.res_e - 1)).valid && it.hasGrid0 r

omit hs

theorem nextPcrlOPT_eq (hw : it.wholeTile = true) (s : State) :
    it.nextPcrlOPT s = if it.checkOPT s.resno then it.pcrlSweepOPT s else .stop s := by
  simp only [nextPcrlOPT, pcrlSweepOPT, checkOPT, hw, precInfoCheck_eq, Bool.not_true,
    Bool.false_and, Bool.false_eq_true, if_false]
  rfl

theorem nextCprlOPT_eq (hw : it.wholeTile = true) (s : State) :
    it.nextCprlOPT s = if it.checkOPT s.resno then it.cprlSweepOPT s else .stop s := by
  simp only [nextCprlOPT, cprlSweepOPT, checkOPT, hw, precInfoCheck_eq, Bool.not_true,
    Bool.false_and, Bool.false_eq_true, if_false]
  rfl

section Sweeps

variable (hs : it.singleProgression = true) (hdx : 0 < it.tile.updateDx)
  (hdy : 0 < it.tile.updateDy)

include hs hdx hdy

theorem pcrlSweepOPT_spec
    (hx0 : (it.infoOPT (it.prog.res_e - 1)).tileBoundsPrecPRJ.x0 = it.prog.tx0) :
    it.Hands it.pcrlSweepOPT (it.At it.home) (fun _ => True) it.pcrlPacketsOPT
      (fun _ _ => True) := by
  unfold pcrlSweepOPT
  dsimp only
  rw [hx0]
  refine Spec.forget (yLoopTo_spec (fun p => { it.home with y := p })
    (fun p => { it.home with y := p }) hdy (fun _ => rfl) (fun _ => rfl)
    (fun _ _ h => congrArg Cursor.dy h) it.prog.ty0 (fun _ _ => rfl) fun y _ => ?_)
  refine xSweepTo_spec hdx rfl fun x _ => compSweep_spec rfl fun c _ => resSweep_spec rfl fun r _ => ?_
  refine (visitOPT_spec hs { it.home with y := y, x := x, compno := c, resno := r }).weaken ?_
  rintro m ⟨h1, h2, h3, h4⟩
  exact ⟨h2, h1, h3, h4, trivial⟩

theorem cprlSweepOPT_spec :
    it.Hands it.cprlSweepOPT (it.At it.home) (fun _ => True) it.cprlPacketsOPT
      (fun _ _ => True) := by
  refine (compLoop_spec (fun c => { it.home with compno := c })
    (fun c => { it.home with compno := c }) (fun _ => rfl) (fun _ => rfl) (fun _ => rfl)
    (fun c _ => ?_) it.prog.comp_s).forget
  refine Spec.sweep (A := fun p => it.At { it.home with compno := c, y := p }) ?_ ?_
  · refine yLoopTo_spec (fun p => { it.home with compno := c, y := p })
      (fun p => { it.home with compno := c, y := p }) hdy (fun _ => rfl) (fun _ => rfl)
      (fun _ _ h => congrArg Cursor.dy h) it.prog.ty0 (fun _ _ => rfl) fun y _ => ?_
    refine xSweepTo_spec hdx rfl fun x _ => resSweep_spec rfl fun r _ => ?_
    refine (visitOPT_spec hs { it.home with y := y, x := x, compno := c, resno := r }).weaken ?_
    rintro m ⟨h1, h2, h3, h4⟩
    exact ⟨h2, h3, h4, h1, trivial⟩
  · intro p h s hs
    exact hs.set rfl rfl rfl
      (congrArg (fun k : Cursor => { k with y := it.prog.ty0 }) hs.cursor_eq)

end Sweeps

end Iter

end GrokCodec.PacketIter
