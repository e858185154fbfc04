import GrokCodec.PacketIter.Next
import GrokCodec.Lib.Ordered

/-!
What each loop of the iterator hands out, as a list. A loop over a counter concatenates the
outputs of its body over the counter's values; a spatial loop does so over the positions its
steps reach.
-/

namespace GrokCodec.PacketIter

open Resumable Ordered List

/-- The loop variables of the iterator. -/
structure Cursor where
  compno : Nat
  resno : Nat
  x : Nat
  y : Nat
  dx : Nat
  dy : Nat
  dxActive : Nat
  dyActive : Nat
  deriving DecidableEq

def State.cursor (s : State) : Cursor :=
  ⟨s.compno, s.resno, s.x, s.y, s.dx, s.dy, s.dxActive, s.dyActive⟩

/-- The loop variables at column `p` of a row. -/
def Cursor.atX (κ : Cursor) (p : Nat) : Cursor :=
  { κ with x := p, dxActive := κ.dx - p % κ.dx }

/-- The loop variables at row `p` of the tile. -/
def Cursor.atY (κ : Cursor) (p : Nat) : Cursor :=
  { κ with y := p, dyActive := κ.dy - p % κ.dy }

/-- The steps `next_cprl` uses for component `c`: those of the component before it, and for the
first component the smallest over all of them. -/
def Tile.cprlStepX (T : Tile) : Nat → Nat
  | 0 => T.updateDx
  | c + 1 => (T.comps c).updateDx 0

def Tile.cprlStepY (T : Tile) : Nat → Nat
  | 0 => T.updateDy
  | c + 1 => (T.comps c).updateDy 0

namespace Iter

variable (it : Iter)

/-- Between two precincts: the layer counter is at its start, and the include tracker holds
exactly the packets handed out so far. -/
structure Idle (h : List Packet) (s : State) : Prop where
  layno : s.layno = it.prog.lay_s
  incrementInner : s.incrementInner = false
  included : it.singleProgression = false → s.included = (h.map it.includeKey).reverse

/-- An idle state whose loop variables are `κ`. -/
def At (κ : Cursor) (h : List Packet) (s : State) : Prop := it.Idle h s ∧ s.cursor = κ

/-- Histories in which the include tracker never meets a packet twice. -/
def Fresh (h : List Packet) : Prop :=
  it.singleProgression = true ∨ (h.map it.includeKey).Nodup

/-- What a piece of the iterator hands out, from a state with `P` to one with `Q`. -/
abbrev Hands (f : State → Outcome State) (P : List Packet → State → Prop) (K : State → Prop)
    (out : List Packet) (Q : List Packet → State → Prop) : Prop :=
  Spec it.Fresh State.packet f P K out Q

def compRange : List Nat := List.range' it.prog.comp_s (it.prog.comp_e - it.prog.comp_s)

def resRange : List Nat := List.range' it.prog.res_s (it.prog.res_e - it.prog.res_s)

variable {it}

theorem Fresh.of_append {a b : List Packet} (h : it.Fresh (a ++ b)) : it.Fresh a := by
  rcases h with h | h
  · exact .inl h
  · rw [map_append] at h
    exact .inr h.of_append_left

variable {h : List Packet} {s : State}

theorem updateInclude_fresh {p : Packet}
    (hinc : it.singleProgression = false → s.included = (h.map it.includeKey).reverse)
    (hp : s.packet = p) (hok : it.Fresh (h ++ [p])) :
    ∃ keys, it.updateInclude s = (true, { s with included := keys }) ∧
      (it.singleProgression = false → keys = ((h ++ [p]).map it.includeKey).reverse) := by
  unfold updateInclude
  by_cases hs : it.singleProgression = true
  · exact ⟨s.included, by simp [hs], by simp [hs]⟩
  · have hinc := hinc (by simpa using hs)
    have hnot : it.includeKey p ∉ s.included := by
      have hnd := hok.resolve_left hs
      rw [map_append, nodup_append] at hnd
      rw [hinc, mem_reverse]
      intro hm
      exact hnd.2.2 _ hm _ (by simp) rfl
    refine ⟨it.includeKey p :: s.included, by simp [hs, hp, hnot], fun _ => ?_⟩
    rw [hinc]
    simp

/-- The packets of one precinct from layer `l` on. -/
def layerPackets (it : Iter) (c r index l : Nat) : List Packet :=
  (List.range' l (it.prog.lay_e - l)).map fun l => ⟨c, r, index, l⟩

theorem layerPackets_cons (it : Iter) (c r index : Nat) {l : Nat} (hl : l < it.prog.lay_e) :
    it.layerPackets c r index l = ⟨c, r, index, l⟩ :: it.layerPackets c r index (l + 1) := by
  unfold layerPackets
  rw [show it.prog.lay_e - l = it.prog.lay_e - (l + 1) + 1 by omega, List.range'_succ]
  rfl

/-- The layer that the next visit of the current precinct turns to. -/
def pendingLayer (s : State) : Nat := if s.incrementInner then s.layno + 1 else s.layno

theorem visitLayer_spec (κ : Cursor) (index : Nat) :
    it.Hands (it.visitLayer index) (it.At κ)
      (fun m => m.cursor = κ ∧ m.precinctIndex = index)
      (it.layerPackets κ.compno κ.resno index it.prog.lay_s) (it.At κ) := by
  refine (Spec.countUp (A := fun l h s => s.cursor = κ ∧ pendingLayer s = l ∧
    (it.singleProgression = false → s.included = (h.map it.includeKey).reverse))
    (fun _ _ => Fresh.of_append) ?_ ?_ it.prog.lay_s).conseq (fun h s hs => ?_) (fun _ h => h)
    (fun _ _ h => h)
  · rintro l h s hle ⟨hκ, hl, hinc⟩
    have hstep : it.visitLayer index s = .done (it.resetLayer
        (if s.incrementInner then { s with layno := s.layno + 1 } else s)) := by
      unfold pendingLayer at hl
      unfold visitLayer
      split at hl <;> simp_all
    refine ⟨_, hstep, ⟨rfl, rfl, ?_⟩, ?_⟩
    · intro hs
      rw [← hinc hs]
      split <;> rfl
    · rw [← hκ]
      split <;> rfl
  · rintro l h s hlt hok ⟨hκ, hl, hinc⟩
    -- the state in which the packet of layer `l` is handed out, before the tracker is asked
    obtain ⟨m, hm⟩ : ∃ m : State, m = { s with
        layno := l, incrementInner := true, precinctIndex := index } := ⟨_, rfl⟩
    have hmp : m.packet = ⟨κ.compno, κ.resno, index, l⟩ := by rw [hm, ← hκ]; rfl
    obtain ⟨keys, hupd, hkeys⟩ := updateInclude_fresh (s := m) (by rw [hm]; exact hinc) hmp hok
    refine ⟨{ m with included := keys }, ?_, hmp, ⟨by rw [hm, ← hκ]; rfl, by rw [hm]⟩,
      by rw [hm, ← hκ]; rfl, by rw [hm]; rfl, hkeys⟩
    unfold pendingLayer at hl
    unfold visitLayer
    split at hl <;> simp_all
  · exact ⟨hs.2, by simp [pendingLayer, hs.1.incrementInner, hs.1.layno], hs.1.included⟩

/-- The packets `visit` hands out at a position. -/
def cell (it : Iter) (c r x y : Nat) : List Packet :=
  match it.validatePrecinct c r x y with
  | none => []
  | some (px, py) => it.layerPackets c r (px + py * it.gridWidth c r) it.prog.lay_s

theorem visit_spec (κ : Cursor) :
    it.Hands it.visit (it.At κ)
      (fun m => m.cursor = κ ∧ (it.validatePrecinct κ.compno κ.resno κ.x κ.y).isSome)
      (it.cell κ.compno κ.resno κ.x κ.y) (it.At κ) := by
  have hcur (s : State) (hs : s.cursor = κ) :
      s.compno = κ.compno ∧ s.resno = κ.resno ∧ s.x = κ.x ∧ s.y = κ.y := by
    rw [← hs]; exact ⟨rfl, rfl, rfl, rfl⟩
  unfold cell
  cases hv : it.validatePrecinct κ.compno κ.resno κ.x κ.y with
  | none =>
    refine Spec.skip fun h s hs => ⟨s, ?_, hs⟩
    obtain ⟨h1, h2, h3, h4⟩ := hcur s hs.2
    simp [visit, h1, h2, h3, h4, hv]
  | some q =>
    have heq (s : State) (hs : s.cursor = κ) :
        it.visit s = it.visitLayer (q.1 + q.2 * it.gridWidth κ.compno κ.resno) s := by
      obtain ⟨h1, h2, h3, h4⟩ := hcur s hs
      simp [visit, h1, h2, h3, h4, hv]
    exact ((visitLayer_spec κ _).congr (fun h s hs => heq s hs.2) (fun s hs => heq s hs.1)).weaken
      (fun m hm => ⟨hm.1, rfl⟩)

section Loops

variable {κ : Cursor} {body : State → Outcome State} {K : State → Prop} {out : Nat → List Packet}

theorem At.cursor_eq (hs : it.At κ h s) : s.cursor = κ := hs.2

/-- An assignment to the loop variables keeps the rest. -/
theorem At.set {s t : State} {κ' : Cursor} (hs : it.At κ h s) (hl : t.layno = s.layno)
    (hi : t.incrementInner = s.incrementInner) (hk : t.included = s.included) (hc : t.cursor = κ') :
    it.At κ' h t :=
  ⟨⟨hl.trans hs.1.layno, hi.trans hs.1.incrementInner, fun h => hk.trans (hs.1.included h)⟩, hc⟩

theorem compLoop_spec (head tail : Nat → Cursor)
    (hhead : ∀ c, (head c).compno = c) (htail : ∀ c, (tail c).compno = c)
    (hnext : ∀ c, head (c + 1) = { tail c with compno := c + 1 })
    (hbody : ∀ c, c < it.prog.comp_e →
      it.Hands body (it.At (head c)) (fun m => m.compno = c ∧ K m) (out c) (it.At (tail c)))
    (a : Nat) :
    it.Hands (it.compLoop body) (it.At (head a)) K
      ((List.range' a (it.prog.comp_e - a)).flatMap out) (fun h s => ∃ c, it.At (head c) h s) := by
  refine Spec.forLoop (A := fun c => it.At (head c)) (B := fun c => it.At (tail c))
    (fun _ _ => Fresh.of_append) (range'_steps it.prog.comp_e) (fun c _ => Nat.lt_succ_self c)
    ?_ ?_ hbody a
  · intro c h s hs
    rw [← hhead c, ← hs.cursor_eq]
    rfl
  · intro c h s hs
    refine hs.set rfl rfl rfl ?_
    have hc : s.compno = c := by rw [← htail c, ← hs.cursor_eq]; rfl
    rw [hnext, ← hs.cursor_eq]
    simp [State.cursor, hc]

theorem compSweep_spec (hκ : κ.compno = it.prog.comp_s)
    (hbody : ∀ c, c < it.prog.comp_e → it.Hands body (it.At { κ with compno := c })
      (fun m => m.compno = c ∧ K m) (out c) (it.At { κ with compno := c })) :
    it.Hands (fun s => (it.compLoop body s).after it.resetComp) (it.At κ) K
      (it.compRange.flatMap out) (it.At κ) := by
  have hself : { κ with compno := it.prog.comp_s } = κ := by rw [← hκ]
  have hloop := compLoop_spec (fun c => { κ with compno := c }) (fun c => { κ with compno := c })
    (fun _ => rfl) (fun _ => rfl) (fun _ => rfl) hbody it.prog.comp_s
  rw [hself] at hloop
  refine hloop.sweep fun c h s hs => hs.set rfl rfl rfl ?_
  exact (congrArg (fun k : Cursor => { k with compno := it.prog.comp_s }) hs.cursor_eq).trans hself

theorem resLoop_spec
    (hbody : ∀ r, r < it.prog.res_e → it.Hands body (it.At { κ with resno := r })
      (fun m => m.resno = r ∧ K m) (out r) (it.At { κ with resno := r })) (a : Nat) :
    it.Hands (it.resLoop body) (it.At { κ with resno := a }) K
      ((List.range' a (it.prog.res_e - a)).flatMap out)
      (fun h s => ∃ r, it.At { κ with resno := r } h s) := by
  have hres (r : Nat) (h : List Packet) (s : State) (hs : it.At { κ with resno := r } h s) :
      s.resno = r := congrArg Cursor.resno hs.cursor_eq
  refine Spec.counterLoop (A := fun r => it.At { κ with resno := r }) (fun _ _ => Fresh.of_append)
    hres (fun r h s hs => hs.set rfl rfl rfl ?_) hbody
  have hc := congrArg (fun k : Cursor => { k with resno := r + 1 }) hs.cursor_eq
  rw [hres r h s hs]
  exact hc

theorem resSweep_spec (hκ : κ.resno = it.prog.res_s)
    (hbody : ∀ r, r < it.prog.res_e → it.Hands body (it.At { κ with resno := r })
      (fun m => m.resno = r ∧ K m) (out r) (it.At { κ with resno := r })) :
    it.Hands (fun s => (it.resLoop body s).after it.resetRes) (it.At κ) K
      (it.resRange.flatMap out) (it.At κ) := by
  have hself : { κ with resno := it.prog.res_s } = κ := by rw [← hκ]
  have hloop := resLoop_spec (κ := κ) hbody it.prog.res_s
  rw [hself] at hloop
  refine hloop.sweep fun r h s hs => hs.set rfl rfl rfl ?_
  exact (congrArg (fun k : Cursor => { k with resno := it.prog.res_s }) hs.cursor_eq).trans hself

theorem step_aligned {d : Nat} (hd : 0 < d) (p : Nat) : d = d - (p + (d - p % d)) % d := by
  rw [Nat.mod_eq_zero_of_dvd (add_sub_mod_dvd hd p), Nat.sub_zero]

theorem lt_alignedStep {d : Nat} (hd : 0 < d) (p : Nat) : p < p + (d - p % d) := by
  have := Nat.mod_lt p hd
  omega

theorem xSweep_spec (hd : 0 < κ.dx) (hκ : κ = κ.atX it.prog.tx0)
    (hbody : ∀ p, p < it.prog.tx1 → it.Hands body (it.At (κ.atX p)) (fun m => m.x = p ∧ K m)
      (out p) (it.At (κ.atX p))) :
    it.Hands (fun s => (it.xLoop body s).after it.resetX) (it.At κ) K
      ((alignedSteps κ.dx it.prog.tx1 it.prog.tx0).flatMap out) (it.At κ) := by
  have hloop : it.Hands (it.xLoop body) (it.At (κ.atX it.prog.tx0)) K
      ((alignedSteps κ.dx it.prog.tx1 it.prog.tx0).flatMap out)
      (fun h s => ∃ p, it.At (κ.atX p) h s) := by
    refine Spec.forLoop (A := fun p => it.At (κ.atX p)) (B := fun p => it.At (κ.atX p))
      (fun _ _ => Fresh.of_append) (alignedSteps_steps hd it.prog.tx1)
      (fun p _ => lt_alignedStep hd p) ?_ ?_ hbody it.prog.tx0
    · exact fun p h s hs => congrArg Cursor.x hs.cursor_eq
    intro p h s hs
    refine hs.set rfl rfl rfl ?_
    have hc := hs.cursor_eq
    simp only [State.cursor, Cursor.atX, Cursor.mk.injEq] at hc ⊢
    obtain ⟨h1, h2, h3, h4, h5, h6, h7, h8⟩ := hc
    exact ⟨h1, h2, by rw [h3, h7], h4, h5, h6, h5.trans (step_aligned hd p), h8⟩
  rw [← hκ] at hloop
  refine hloop.sweep fun p h s hs => hs.set rfl rfl rfl ?_
  have hc := congrArg (fun k : Cursor => k.atX it.prog.tx0) hs.cursor_eq
  rw [hκ]
  exact hc

theorem yLoop_spec (hd : 0 < κ.dy)
    (hbody : ∀ p, p < it.prog.ty1 → it.Hands body (it.At (κ.atY p)) (fun m => m.y = p ∧ K m)
      (out p) (it.At (κ.atY p))) :
    it.Hands (it.yLoop body) (it.At (κ.atY it.prog.ty0)) K
      ((alignedSteps κ.dy it.prog.ty1 it.prog.ty0).flatMap out)
      (fun h s => ∃ p, it.At (κ.atY p) h s) := by
  refine Spec.forLoop (A := fun p => it.At (κ.atY p)) (B := fun p => it.At (κ.atY p))
    (fun _ _ => Fresh.of_append) (alignedSteps_steps hd it.prog.ty1)
    (fun p _ => lt_alignedStep hd p) ?_ ?_ hbody it.prog.ty0
  · exact fun p h s hs => congrArg Cursor.y hs.cursor_eq
  intro p h s hs
  refine hs.set rfl rfl rfl ?_
  have hc := hs.cursor_eq
  simp only [State.cursor, Cursor.atY, Cursor.mk.injEq] at hc ⊢
  obtain ⟨h1, h2, h3, h4, h5, h6, h7, h8⟩ := hc
  exact ⟨h1, h2, h3, by rw [h4, h8], h5, h6, h7, h6.trans (step_aligned hd p)⟩

end Loops

/-- Both steps are non-zero, which `next` tests before it enters a spatial progression. -/
def Stepping (m : State) : Prop := 0 < m.dx ∧ 0 < m.dy

/-- The loop variables at the start of a sweep over the tile with steps `dx` and `dy`. -/
def origin (it : Iter) (c r dx dy : Nat) : Cursor where
  compno := c
  resno := r
  x := it.prog.tx0
  y := it.prog.ty0
  dx := dx
  dy := dy
  dxActive := dx - it.prog.tx0 % dx
  dyActive := dy - it.prog.ty0 % dy

/-- The packets of component `c` in the order of `next_cprl`. -/
def cprlComp (it : Iter) (c : Nat) : List Packet :=
  (alignedSteps (it.tile.cprlStepY c) it.prog.ty1 it.prog.ty0).flatMap fun y =>
    (alignedSteps (it.tile.cprlStepX c) it.prog.tx1 it.prog.tx0).flatMap fun x =>
      (List.range' it.prog.res_s (it.prog.res_e - it.prog.res_s)).flatMap fun r => it.cell c r x y

theorem visit_at_spec (κ : Cursor) :
    it.Hands it.visit (it.At κ)
      (fun m => (m.compno = κ.compno ∧ m.resno = κ.resno ∧ m.x = κ.x ∧ m.y = κ.y) ∧
        (m.dx = κ.dx ∧ m.dy = κ.dy) ∧ (it.validatePrecinct m.compno m.resno m.x m.y).isSome)
      (it.cell κ.compno κ.resno κ.x κ.y) (it.At κ) := by
  refine (visit_spec κ).weaken (fun m hm => ?_)
  obtain ⟨hc, hv⟩ := hm
  rw [← hc] at hv ⊢
  exact ⟨⟨rfl, rfl, rfl, rfl⟩, ⟨rfl, rfl⟩, hv⟩

/-- The start of the sweep over component `c`, with the steps for component `k`. -/
def cprlOrigin (it : Iter) (c k : Nat) : Cursor :=
  it.origin c it.prog.res_s (it.tile.cprlStepX k) (it.tile.cprlStepY k)

theorem nextCprl_spec (hdx : ∀ c, 0 < it.tile.cprlStepX c) (hdy : ∀ c, 0 < it.tile.cprlStepY c) :
    it.Hands it.nextCprl (it.At (it.cprlOrigin 0 0)) Stepping
      ((List.range' 0 it.prog.comp_e).flatMap it.cprlComp) (fun _ _ => True) := by
  refine (compLoop_spec (fun c => it.cprlOrigin c c) (fun c => it.cprlOrigin c (c + 1)) (fun _ => rfl)
    (fun _ => rfl) (fun _ => rfl) (fun c _ => ?_) 0).forget
  -- rows of the tile
  refine (yLoop_spec (κ := it.cprlOrigin c c) (hdy c) fun y _ => ?_).sweep ?_
  · refine xSweep_spec (hdx c) rfl fun x _ => resSweep_spec rfl fun r _ => ?_
    refine (visit_at_spec _).weaken ?_
    rintro m ⟨⟨h1, h2, h3, h4⟩, ⟨h5, h6⟩, -⟩
    exact ⟨h2, h3, h4, h1, h5 ▸ hdx c, h6 ▸ hdy c⟩
  · intro p h s hs
    refine hs.set rfl rfl rfl ?_
    have hc := hs.cursor_eq
    simp only [State.cursor, Cursor.atY, cprlOrigin, origin, Cursor.mk.injEq] at hc
    obtain ⟨h1, h2, h3, h4, h5, h6, h7, h8⟩ := hc
    simp only [State.cursor, updateDxyForComp, cprlOrigin, origin, Tile.cprlStepX, Tile.cprlStepY,
      comp, h1, h2, h3]

/-- The rows and columns the spatial loops visit with the steps of `update_dxy`. -/
def rows (it : Iter) : List Nat := alignedSteps it.tile.updateDy it.prog.ty1 it.prog.ty0

def columns (it : Iter) : List Nat := alignedSteps it.tile.updateDx it.prog.tx1 it.prog.tx0

/-- Where the iterator starts. -/
def home (it : Iter) : Cursor :=
  it.origin it.prog.comp_s it.prog.res_s it.tile.updateDx it.tile.updateDy

def pcrlPackets (it : Iter) : List Packet :=
  it.rows.flatMap fun y => it.columns.flatMap fun x =>
    it.compRange.flatMap fun c => it.resRange.flatMap fun r => it.cell c r x y

def prclPackets (it : Iter) : List Packet :=
  it.rows.flatMap fun y => it.columns.flatMap fun x =>
    it.resRange.flatMap fun r => it.compRange.flatMap fun c => it.cell c r x y

/-- The packets of resolution `r` in the order of `next_rpcl`. -/
def rpclRes (it : Iter) (r : Nat) : List Packet :=
  it.rows.flatMap fun y => it.columns.flatMap fun x => it.compRange.flatMap fun c => it.cell c r x y

def rpclPackets (it : Iter) : List Packet := it.resRange.flatMap it.rpclRes

/-- The bail-out test of `next_pcrl` never fires inside the tile. -/
def NeverPastWindow (it : Iter) : Prop :=
  ∀ s : State, s.x < it.prog.tx1 → s.y < it.prog.ty1 → it.pastWindow s = false

theorem nextPcrl_spec (hdx : 0 < it.tile.updateDx) (hdy : 0 < it.tile.updateDy)
    (hwin : it.NeverPastWindow) :
    it.Hands it.nextPcrl (it.At it.home) Stepping it.pcrlPackets (fun _ _ => True) := by
  refine (yLoop_spec (κ := it.home) hdy fun y hy => ?_).forget
  refine xSweep_spec hdx rfl fun x hx => ?_
  -- the window test is passed on entry and on every re-entry
  refine Spec.congr (f := fun s =>
    (it.compLoop (fun s => (it.resLoop it.visit s).after it.resetRes) s).after it.resetComp) ?_
    (fun h s hs => ?_) (fun s hs => ?_)
  · refine compSweep_spec rfl fun c _ => resSweep_spec rfl fun r _ => ?_
    refine (visit_at_spec _).weaken ?_
    rintro m ⟨⟨h1, h2, h3, h4⟩, ⟨h5, h6⟩, -⟩
    exact ⟨h2, h1, h3, h4, h5 ▸ hdx, h6 ▸ hdy⟩
  · have h1 : s.x = x := congrArg Cursor.x hs.cursor_eq
    have h2 : s.y = y := congrArg Cursor.y hs.cursor_eq
    simp [hwin s (by omega) (by omega)]
  · simp [hwin s (by omega) (by omega)]

theorem nextPrcl_spec (hdx : 0 < it.tile.updateDx) (hdy : 0 < it.tile.updateDy) :
    it.Hands it.nextPrcl (it.At it.home) Stepping it.prclPackets (fun _ _ => True) := by
  refine (yLoop_spec (κ := it.home) hdy fun y _ => ?_).forget
  refine xSweep_spec hdx rfl fun x _ => resSweep_spec rfl fun r _ => compSweep_spec rfl fun c _ => ?_
  refine (visit_at_spec _).weaken ?_
  rintro m ⟨⟨h1, h2, h3, h4⟩, ⟨h5, h6⟩, -⟩
  exact ⟨h1, h2, h3, h4, h5 ▸ hdx, h6 ▸ hdy⟩

theorem sane_of_valid {c : Nat} (hc : s.compno ≤ c) (he : c < it.prog.comp_e) {x y : Nat}
    (hv : (it.validatePrecinct c s.resno x y).isSome) : it.sane s = true := by
  unfold sane
  rw [any_eq_true]
  refine ⟨c, mem_range'_1.mpr ⟨hc, by omega⟩, ?_⟩
  unfold validatePrecinct at hv
  split at hv
  · cases hv
  · split at hv
    · cases hv
    · simp
      omega

theorem cell_of_not_sane {c : Nat} (hs : it.sane s = false) (hc : s.compno ≤ c)
    (he : c < it.prog.comp_e) (x y : Nat) : it.cell c s.resno x y = [] := by
  unfold cell
  cases hv : it.validatePrecinct c s.resno x y with
  | none => rfl
  | some q =>
    have := sane_of_valid hc he (by rw [hv]; rfl : (it.validatePrecinct c s.resno x y).isSome)
    rw [this] at hs
    cases hs

theorem nextRpcl_spec (hdx : 0 < it.tile.updateDx) (hdy : 0 < it.tile.updateDy) :
    it.Hands it.nextRpcl (it.At it.home) Stepping it.rpclPackets (fun _ _ => True) := by
  refine (resLoop_spec (κ := it.home) (K := fun m => it.sane m = true ∧ Stepping m)
    (fun r _ => ?_) it.prog.res_s).conseq (fun _ _ h => h) (fun _ h => h.2) (fun _ _ _ => trivial)
  obtain ⟨κ, hκ⟩ : ∃ κ : Cursor, κ = { it.home with resno := r } := ⟨_, rfl⟩
  rw [← hκ]
  -- the sweep over the tile, as if the resolution were never skipped
  have hsweep : it.Hands (fun s =>
      (it.yLoop (fun s =>
        (it.xLoop (fun s => (it.compLoop it.visit s).after it.resetComp) s).after it.resetX)
          s).after it.resetY) (it.At κ) (fun m => m.resno = r ∧ it.sane m = true ∧ Stepping m)
      (it.rpclRes r) (it.At κ) := by
    have hκy : κ = κ.atY it.prog.ty0 := by rw [hκ]; rfl
    have hdyκ : κ.dy = it.tile.updateDy := by rw [hκ]; rfl
    rw [rpclRes, rows, ← hdyκ]
    refine Spec.sweep (A := fun p => it.At (κ.atY p)) ?_ fun p h s hs => hs.set rfl rfl rfl ?_
    · nth_rewrite 1 [hκy]
      refine yLoop_spec (by rw [hdyκ]; exact hdy) fun y _ => ?_
      subst hκ
      refine xSweep_spec hdx rfl fun x _ => compSweep_spec rfl fun c hc => ?_
      refine (visit_at_spec _).weaken ?_
      rintro m ⟨⟨h1, h2, h3, h4⟩, ⟨h5, h6⟩, h7⟩
      exact ⟨h1, h3, h4, h2, sane_of_valid le_rfl (by rw [h1]; exact hc) h7, h5 ▸ hdx, h6 ▸ hdy⟩
    · have hc := congrArg (fun k : Cursor => k.atY it.prog.ty0) hs.cursor_eq
      rw [hκy]
      exact hc
  intro h s hok hs
  by_cases hsane : it.sane s = true
  · obtain ⟨t, he, ht⟩ := hsweep h s hok hs
    exact ⟨t, he.congr (by simp [hsane]) (fun m hm => by simp [hm.2.1]), ht⟩
  · have hr : s.resno = r := by rw [hκ] at hs; exact congrArg Cursor.resno hs.cursor_eq
    have hc0 : s.compno = it.prog.comp_s := by
      rw [hκ] at hs; exact congrArg Cursor.compno hs.cursor_eq
    have hnil : it.rpclRes r = [] := by
      simp only [rpclRes, flatMap_eq_nil_iff]
      intro y _ x _ c hc
      have hc := mem_range'_1.mp hc
      rw [← hr]
      exact cell_of_not_sane (by simpa using hsane) (by omega) (by omega) x y
    rw [hnil, append_nil]
    exact ⟨s, .done (by simp [hsane]), hs⟩

end Iter

end GrokCodec.PacketIter
