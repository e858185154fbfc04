import GrokCodec.Wavelet.Fwd53

/-!
The inverse 5/3 kernels on one line, as the whole-tile decompressor runs them.

A kernel reads the two bands of a line, rebuilds the line in a scratch buffer in one sweep and
copies it to its destination. The scalar kernels and the vector ones differ only in how they
write the reflection at the end of the line and in when they apply the DC shift.
-/

namespace GrokCodec.Wavelet

open Loop Lifting Line

/-- State of the sweeps: `s` is the last rebuilt even sample, `d` the last odd value read. -/
structure JoinState where
  i : Nat
  j : Nat
  s : Int
  d : Int
  scratch : Line

def joinBodyP0 (bandL bandH : Line) (st : JoinState) : JoinState :=
  let d1n := bandH st.j
  let s0n := bandL st.j - (st.d + d1n + 2) / 4
  { i := st.i + 2, j := st.j + 1, s := s0n, d := d1n
    scratch := (st.scratch.set st.i st.s).set (st.i + 1) (st.d + (st.s + s0n) / 2) }

/-- `for(; i < len - 3; i += 2, j++)`. -/
def joinLoopP0 (bandL bandH : Line) (len : Nat) (st : JoinState) : JoinState :=
  repeatWhile (fun st => st.i < len - 3) (joinBodyP0 bandL bandH) len st

/-- The sweep over a line that starts on an even coordinate; `guard` is the length up to which
the loop is skipped and `reflect` the correction at a trailing low-pass sample. -/
def joinP0 (guard : Nat) (reflect : Int → Int) (scratch : Line) (len : Nat)
    (bandL bandH : Line) : Line :=
  let st : JoinState := ⟨0, 1, bandL 0 - (bandH 0 + 1) / 2, bandH 0, scratch⟩
  let st := if guard < len then joinLoopP0 bandL bandH len st else st
  let scratch := st.scratch.set st.i st.s
  if len % 2 = 1 then
    let last := bandL ((len - 1) / 2) - reflect st.d
    (scratch.set (len - 1) last).set (len - 2) (st.d + (st.s + last) / 2)
  else scratch.set (len - 1) (st.d + st.s)

def joinBodyP1 (bandL bandH : Line) (st : JoinState) : JoinState :=
  let d1n := bandH (st.j + 1)
  let s0n := bandL st.j - (st.d + d1n + 2) / 4
  { i := st.i + 2, j := st.j + 1, s := s0n, d := d1n
    scratch := (st.scratch.set st.i st.s).set (st.i + 1) (st.d + (s0n + st.s) / 2) }

/-- `for(; i < len - 2 - !(len & 1); i += 2, j++)`. -/
def joinLoopP1 (bandL bandH : Line) (len : Nat) (st : JoinState) : JoinState :=
  repeatWhile (fun st => st.i < len - 2 - (1 - len % 2)) (joinBodyP1 bandL bandH) len st

/-- The sweep over a line of three samples or more that starts on an odd coordinate. -/
def joinP1 (reflect : Int → Int) (scratch : Line) (len : Nat) (bandL bandH : Line) : Line :=
  let s0c := bandL 0 - (bandH 0 + bandH 1 + 2) / 4
  let st := joinLoopP1 bandL bandH len ⟨1, 1, s0c, bandH 1, scratch.set 0 (bandH 0 + s0c)⟩
  let scratch := st.scratch.set st.i st.s
  if len % 2 = 0 then
    let sn := bandL (len / 2 - 1) - reflect st.d
    (scratch.set (len - 2) (st.d + (sn + st.s) / 2)).set (len - 1) sn
  else scratch.set (len - 1) (st.d + st.s)

/-- `memcpy(dest, scratch, len)`. -/
def copyLine (dest scratch : Line) (len : Nat) : Line :=
  fun k => if k < len then scratch k else dest k

def loadHP053 (scratch : Line) (width : Nat) (bandL bandH dest : Line) : Line :=
  copyLine dest (joinP0 2 (fun d => (d + 1) / 2) scratch width bandL bandH) width

def loadHP153 (scratch : Line) (width : Nat) (bandL bandH dest : Line) : Line :=
  copyLine dest (joinP1 (fun d => (d + 1) / 2) scratch width bandL bandH) width

def loadH53 (scratch : Line) (sn dn parity : Nat) (bandL bandH dest : Line) : Line :=
  let width := sn + dn
  if parity = 0 then
    if 1 < width then loadHP053 scratch width bandL bandH dest else dest.set 0 (bandL 0)
  else if width = 1 then dest.set 0 (bandH 0 / 2)
  else if width = 2 then
    let s0 := bandL 0 - (bandH 0 + 1) / 2
    (dest.set 0 (bandH 0 + s0)).set 1 s0
  else loadHP153 scratch width bandL bandH dest

/-- Shift and range of the samples of a component, handed to the last vertical pass. -/
structure DcShiftParam where
  shift : Int := 0
  min : Int := 0
  max : Int := 0
  enabled : Bool := false

/-- `std::clamp`. -/
def clamp (v lo hi : Int) : Int := if v < lo then lo else if hi < v then hi else v

def DcShiftParam.apply (dc : DcShiftParam) (v : Int) : Int := clamp (v + dc.shift) dc.min dc.max

def vP053 (scratch : Line) (height : Nat) (bandL bandH dest : Line) : Line :=
  copyLine dest (joinP0 2 (fun d => (d + 1) / 2) scratch height bandL bandH) height

def vP153 (scratch : Line) (height : Nat) (bandL bandH dest : Line) : Line :=
  copyLine dest (joinP1 (fun d => (d + 1) / 2) scratch height bandL bandH) height

/-- `hwy_v_final_store_53` on one of the columns a vector kernel works on. -/
def hwyVFinalStore53 (scratch : Line) (height : Nat) (dest : Line)
    (dcShift dcMin dcMax : Int) : Line :=
  if dcShift ≠ 0 ∨ dcMin ≠ dcMax then
    copyLine dest (fun k => clamp (scratch k + dcShift) dcMin dcMax) height
  else copyLine dest scratch height

def hwyVP053 (scratch : Line) (height : Nat) (bandL bandH dest : Line)
    (dcShift dcMin dcMax : Int) : Line :=
  hwyVFinalStore53 (joinP0 3 (fun d => (d + d + 2) / 4) scratch height bandL bandH) height dest
    dcShift dcMin dcMax

def hwyVP153 (scratch : Line) (height : Nat) (bandL bandH dest : Line)
    (dcShift dcMin dcMax : Int) : Line :=
  hwyVFinalStore53 (joinP1 (fun d => (d + d + 2) / 4) scratch height bandL bandH) height dest
    dcShift dcMin dcMax

/-- The shift a scalar column gets after it has been rebuilt. -/
def shiftColumn (dc : DcShiftParam) (height : Nat) (dest : Line) : Line :=
  if dc.enabled then copyLine dest (fun k => dc.apply (dest k)) height else dest

/-- `v_53` on one column; `wide` says whether the column belongs to a full group that goes to a
vector kernel. -/
def v53 (wide : Bool) (scratch : Line) (sn dn parity : Nat) (dc : DcShiftParam)
    (winL winH winDest : Line) : Line :=
  let height := sn + dn
  let shift := if dc.enabled then dc.shift else 0
  if parity = 0 then
    if height = 1 then winDest.set 0 (if dc.enabled then dc.apply (winL 0) else winL 0)
    else if wide then hwyVP053 scratch height winL winH winDest shift dc.min dc.max
    else shiftColumn dc height (vP053 scratch height winL winH winDest)
  else if height = 1 then
    -- the lone row is a high-pass one; the two split windows coincide here
    winDest.set 0 (if dc.enabled then dc.apply (winL 0 / 2) else winL 0 / 2)
  else if height = 2 then
    let s := winL 0 - (winH 0 + 1) / 2
    if dc.enabled then (winDest.set 0 (dc.apply (winH 0 + s))).set 1 (dc.apply s)
    else (winDest.set 0 (winH 0 + s)).set 1 s
  else if wide then hwyVP153 scratch height winL winH winDest shift dc.min dc.max
  else shiftColumn dc height (vP153 scratch height winL winH winDest)

/-- The two bands of a line, each value at the position it describes. -/
def interleave53 (p : Nat) (bandL bandH : Line) : Line :=
  fun k => if IsLow p k then bandL (k / 2) else bandH (k / 2)

/-- What the inverse kernels are meant to compute. -/
def synthesize53 (p n : Nat) (y : Line) : Line := synthesize predict53 update53 p n y

def restore53 (n : Nat) (y : Line) : Line := restore update53 n y

section Join

variable {bandL bandH scratch y : Line} {n : Nat} {reflect : Int → Int}

theorem interleave53_low {p k : Nat} (h : (k + p) % 2 = 0) :
    interleave53 p bandL bandH k = bandL (k / 2) := if_pos h

theorem interleave53_high {p k : Nat} (h : (k + p) % 2 = 1) :
    interleave53 p bandL bandH k = bandH (k / 2) := if_neg (by unfold IsLow; omega)

theorem restore53_def (k : Nat) :
    restore53 n y k = y k - (y (prev k) + y (next n k) + 2) / 4 := rfl

theorem synthesize53_low {p k : Nat} (h : (k + p) % 2 = 0) :
    synthesize53 p n y k = restore53 n y k := synthesize_of_low h

theorem synthesize53_high {p k : Nat} (h : (k + p) % 2 = 1) :
    synthesize53 p n y k = y k + (restore53 n y (prev k) + restore53 n y (next n k)) / 2 :=
  synthesize_of_high (by unfold IsLow; omega)

theorem synthesize53_last {p k : Nat} (h : (k + p) % 2 = 1) (hk : 0 < k) (last : n = k + 1) :
    synthesize53 p n y k = y k + restore53 n y (k - 1) := by
  rw [synthesize53_high h, prev_of_pos hk, next_of_last (by omega)]
  omega

/-- The sweep over a line whose first sample has parity `p`: everything below `i` is done. -/
structure Joined (p : Nat) (bandL bandH : Line) (n : Nat) (st : JoinState) : Prop where
  j : st.i + 2 = 2 * st.j + p
  lt : st.i + 1 < n
  s : st.s = restore53 n (interleave53 p bandL bandH) st.i
  d : st.d = interleave53 p bandL bandH (st.i + 1)
  done : ∀ k, k < st.i → st.scratch k = synthesize53 p n (interleave53 p bandL bandH) k

namespace Joined

variable {p k : Nat} {st : JoinState} (h : Joined p bandL bandH n st)

include h

theorem low : synthesize53 p n (interleave53 p bandL bandH) st.i = st.s := by
  rw [synthesize53_low (by have := h.j; omega), h.s]

theorem high (hlt : st.i + 2 < n) : synthesize53 p n (interleave53 p bandL bandH) (st.i + 1) =
    st.d + (st.s + restore53 n (interleave53 p bandL bandH) (st.i + 2)) / 2 := by
  rw [synthesize53_high (by have := h.j; omega), prev_succ, next_of_lt hlt, h.s, h.d]

theorem step (hp : p ≤ 1) (hi : st.i + 3 < n) {st' : JoinState} (hi' : st'.i = st.i + 2)
    (hj : st'.j = st.j + 1) (hd : st'.d = bandH (st.j + p))
    (hs : st'.s = bandL st.j - (st.d + bandH (st.j + p) + 2) / 4)
    (hscratch : st'.scratch =
      (st.scratch.set st.i st.s).set (st.i + 1) (st.d + (st.s + st'.s) / 2)) :
    Joined p bandL bandH n st' := by
  have hij := h.j
  have hlow : bandL st.j = interleave53 p bandL bandH (st.i + 2) := by
    rw [interleave53_low (by omega), show (st.i + 2) / 2 = st.j by omega]
  have hhigh : bandH (st.j + p) = interleave53 p bandL bandH (st.i + 3) := by
    rw [interleave53_high (by omega), show (st.i + 3) / 2 = st.j + p by omega]
  have hnew : st'.s = restore53 n (interleave53 p bandL bandH) (st.i + 2) := by
    rw [restore53_def, prev_succ, next_of_lt (by omega), hs, hlow, hhigh, h.d]
  refine ⟨by omega, by omega, by rw [hnew, hi'], by rw [hd, hhigh, hi'], fun k hk => ?_⟩
  rw [hscratch, hnew]
  obtain below | rfl | rfl : k < st.i ∨ k = st.i ∨ k = st.i + 1 := by omega
  · rw [set_of_ne (by omega), set_of_ne (by omega), h.done k below]
  · rw [set_of_ne (by omega), set_same, h.low]
  · rw [set_same, h.high (by omega)]

/-- A line that ends with a low-pass sample, corrected twice from the same difference. -/
theorem finish_low (hreflect : ∀ d, reflect d = (d + d + 2) / 4) (hn : n = st.i + 3) {line : Line}
    (hlast : line (st.i + 2) = bandL ((st.i + 2) / 2) - reflect st.d)
    (hodd : line (st.i + 1) = st.d + (st.s + line (st.i + 2)) / 2) (heven : line st.i = st.s)
    (hline : ∀ k, k < st.i → line k = st.scratch k) (hk : k < n) :
    line k = synthesize53 p n (interleave53 p bandL bandH) k := by
  have hij := h.j
  have hrestore : line (st.i + 2) = restore53 n (interleave53 p bandL bandH) (st.i + 2) := by
    rw [hlast, restore53_def, prev_succ, next_of_last (by omega), interleave53_low (by omega),
      hreflect, h.d]
    rfl
  obtain below | rfl | rfl | rfl : k < st.i ∨ k = st.i ∨ k = st.i + 1 ∨ k = st.i + 2 := by omega
  · rw [hline k below, h.done k below]
  · rw [heven, h.low]
  · rw [hodd, hrestore, h.high (by omega)]
  · rw [hrestore, synthesize53_low (by omega)]

theorem finish_high (hn : n = st.i + 2) (hk : k < n) :
    ((st.scratch.set st.i st.s).set (st.i + 1) (st.d + st.s)) k =
      synthesize53 p n (interleave53 p bandL bandH) k := by
  obtain below | rfl | rfl : k < st.i ∨ k = st.i ∨ k = st.i + 1 := by omega
  · rw [set_of_ne (by omega), set_of_ne (by omega), h.done k below]
  · rw [set_of_ne (by omega), set_same, h.low]
  · rw [set_same, synthesize53_last (by have := h.j; omega) (by omega) (by omega), h.s, h.d]
    rfl

theorem loop (body : JoinState → JoinState) (stop : Nat)
    (hbody : ∀ st, Joined p bandL bandH n st → st.i < stop →
      Joined p bandL bandH n (body st) ∧ (body st).i = st.i + 2) (hstop : stop ≤ n) :
    Joined p bandL bandH n (repeatWhile (fun st => st.i < stop) body n st) ∧
      stop ≤ (repeatWhile (fun st => st.i < stop) body n st).i := by
  refine repeatWhile_rule _ JoinState.i (fun st h hlt => ?_) h (by omega)
  obtain ⟨hnext, hi⟩ := hbody st h hlt
  exact ⟨hnext, by omega⟩

end Joined

theorem joinP0_spec {guard : Nat} (hn : 2 ≤ n) (hguard : guard ≤ 3)
    (hreflect : ∀ d, reflect d = (d + d + 2) / 4) {k : Nat} (hk : k < n) :
    joinP0 guard reflect scratch n bandL bandH k =
      synthesize53 0 n (interleave53 0 bandL bandH) k := by
  have start : Joined 0 bandL bandH n ⟨0, 1, bandL 0 - (bandH 0 + 1) / 2, bandH 0, scratch⟩ := by
    have hd : bandH 0 = interleave53 0 bandL bandH 1 := by rw [interleave53_high (by decide)]
    refine ⟨rfl, hn, ?_, hd, fun k hk => absurd hk (Nat.not_lt_zero k)⟩
    show bandL 0 - (bandH 0 + 1) / 2 = restore53 n (interleave53 0 bandL bandH) 0
    rw [restore53_def, prev_zero, next_of_lt (by omega), zero_add, ← hd,
      interleave53_low (by decide), Nat.zero_div]
    omega
  unfold joinP0
  generalize JoinState.mk 0 1 _ _ _ = first at start ⊢
  have swept : ∃ st, Joined 0 bandL bandH n st ∧ n ≤ st.i + 3 ∧
      (if guard < n then joinLoopP0 bandL bandH n first else first) = st := by
    split
    · have := start.loop (joinBodyP0 bandL bandH) (n - 3)
        (fun st h hlt => ⟨h.step (by decide) (by omega) rfl rfl rfl rfl rfl, rfl⟩) (Nat.sub_le _ _)
      exact ⟨_, this.1, by have := this.2; omega, rfl⟩
    · have := start.lt
      exact ⟨_, start, by omega, rfl⟩
  obtain ⟨st, h, stop, heq⟩ := swept
  have hj := h.j
  have hlt := h.lt
  simp only [heq]
  by_cases odd : n % 2 = 1
  · rw [if_pos odd, show n - 1 = st.i + 2 by omega, show n - 2 = st.i + 1 by omega]
    refine h.finish_low hreflect (by omega) ?_ ?_ ?_ (fun k hk => ?_) hk
    · rw [set_of_ne (by omega), set_same]
    · rw [set_same, set_of_ne (by omega), set_same]
    · rw [set_of_ne (by omega), set_of_ne (by omega), set_same]
    · rw [set_of_ne (by omega), set_of_ne (by omega), set_of_ne (by omega)]
  · rw [if_neg odd, show n - 1 = st.i + 1 by omega]
    exact h.finish_high (by omega) hk

theorem joinP1_spec (hn : 3 ≤ n) (hreflect : ∀ d, reflect d = (d + d + 2) / 4) {k : Nat}
    (hk : k < n) :
    joinP1 reflect scratch n bandL bandH k =
      synthesize53 1 n (interleave53 1 bandL bandH) k := by
  have hfirst : bandL 0 - (bandH 0 + bandH 1 + 2) / 4 =
      restore53 n (interleave53 1 bandL bandH) 1 := by
    rw [restore53_def, prev_succ, next_of_lt (by omega)]
    rfl
  have start : Joined 1 bandL bandH n
      ⟨1, 1, restore53 n (interleave53 1 bandL bandH) 1, bandH 1,
        scratch.set 0 (bandH 0 + restore53 n (interleave53 1 bandL bandH) 1)⟩ := by
    have hd : bandH 1 = interleave53 1 bandL bandH 2 := by rw [interleave53_high (by decide)]
    refine ⟨rfl, hn, rfl, hd, fun k hk => ?_⟩
    obtain rfl : k = 0 := Nat.lt_one_iff.mp hk
    rw [synthesize53_high (by omega), prev_zero, next_of_lt (by omega), zero_add]
    simp only [interleave53, IsLow]
    norm_num
    omega
  unfold joinP1
  simp only [hfirst]
  obtain ⟨h, stop⟩ := start.loop (joinBodyP1 bandL bandH) (n - 2 - (1 - n % 2))
    (fun st h hlt => by
      have hj := h.j
      refine ⟨h.step (by decide) (by omega) rfl rfl rfl rfl ?_, rfl⟩
      rw [joinBodyP1, add_comm st.s]) (by omega)
  unfold joinLoopP1
  generalize repeatWhile _ _ n _ = st at h stop ⊢
  have hj := h.j
  have hlt := h.lt
  by_cases even : n % 2 = 0
  · rw [if_pos even, show n - 1 = st.i + 2 by omega, show n - 2 = st.i + 1 by omega,
      show n / 2 - 1 = (st.i + 2) / 2 by omega]
    refine h.finish_low hreflect (by omega) ?_ ?_ ?_ (fun k hk => ?_) hk
    · rw [set_same]
    · rw [set_of_ne (by omega), set_same, set_same, add_comm st.s]
    · rw [set_of_ne (by omega), set_of_ne (by omega), set_same]
    · rw [set_of_ne (by omega), set_of_ne (by omega), set_of_ne (by omega)]
  · rw [if_neg even, show n - 1 = st.i + 1 by omega]
    exact h.finish_high (by omega) hk

theorem synthesize53_pair (bandL bandH : Line) :
    let s := bandL 0 - (bandH 0 + 1) / 2
    synthesize53 1 2 (interleave53 1 bandL bandH) 0 = bandH 0 + s ∧
      synthesize53 1 2 (interleave53 1 bandL bandH) 1 = s := by
  have hrestore : restore53 2 (interleave53 1 bandL bandH) 1 = bandL 0 - (bandH 0 + 1) / 2 := by
    rw [restore53_def, prev_succ, next_of_last (by decide), interleave53_low (by decide),
      interleave53_high (by decide)]
    norm_num
    omega
  constructor
  · rw [synthesize53_high (by decide), prev_zero, next_of_lt (by decide), zero_add, hrestore,
      interleave53_high (by decide)]
    norm_num
    omega
  · rw [synthesize53_low (by decide), hrestore]

end Join

section Lines

variable {bandL bandH dest scratch : Line} {sn dn parity k : Nat} {dc : DcShiftParam}

theorem copyLine_of_lt {len : Nat} (h : k < len) : copyLine dest scratch len k = scratch k :=
  if_pos h

theorem copyLine_of_ge {len : Nat} (h : len ≤ k) : copyLine dest scratch len k = dest k :=
  if_neg (Nat.not_lt.mpr h)

/-- The reflection as the scalar kernels write it. -/
theorem reflect_eq (d : Int) : (d + 1) / 2 = (d + d + 2) / 4 := by omega

theorem loadH53_apply (hp : parity ≤ 1) (hlen : 2 ≤ sn + dn) (hk : k < sn + dn) :
    loadH53 scratch sn dn parity bandL bandH dest k =
      synthesize53 parity (sn + dn) (interleave53 parity bandL bandH) k := by
  unfold loadH53
  obtain rfl | rfl : parity = 0 ∨ parity = 1 := by omega
  · simp only [if_true, if_pos (show 1 < sn + dn by omega)]
    rw [loadHP053, copyLine_of_lt hk, joinP0_spec hlen (by decide) reflect_eq hk]
  · simp only [if_neg (show ¬ (1 = 0) by decide), if_neg (show ¬ sn + dn = 1 by omega)]
    by_cases two : sn + dn = 2
    · rw [if_pos two, two]
      obtain ⟨first, second⟩ := synthesize53_pair bandL bandH
      obtain rfl | rfl : k = 0 ∨ k = 1 := by omega
      · rw [set_of_ne (by decide), set_same, first]
      · rw [set_same, second]
    · rw [if_neg two, loadHP153, copyLine_of_lt hk, joinP1_spec (by omega) reflect_eq hk]

/-- What the last vertical pass does to a rebuilt sample. -/
def DcShiftParam.finish (dc : DcShiftParam) (v : Int) : Int := if dc.enabled then dc.apply v else v

/-- The vector kernels see only shift and range, and take an empty range for "no shift". -/
def DcShiftParam.Fusable (dc : DcShiftParam) : Prop :=
  if dc.enabled then dc.min < dc.max else dc.min = dc.max

theorem hwyVFinalStore53_apply (hdc : dc.Fusable) {height : Nat} (hk : k < height) :
    hwyVFinalStore53 scratch height dest (if dc.enabled then dc.shift else 0) dc.min dc.max k =
      dc.finish (scratch k) := by
  unfold hwyVFinalStore53 DcShiftParam.finish
  unfold DcShiftParam.Fusable at hdc
  by_cases on : dc.enabled = true
  · simp only [on, if_true] at hdc ⊢
    rw [if_pos (Or.inr (by omega)), copyLine_of_lt hk]
    rfl
  · simp only [on, Bool.false_eq_true, if_false] at hdc ⊢
    rw [if_neg (by simp [hdc]), copyLine_of_lt hk]

theorem shiftColumn_apply {height : Nat} (hk : k < height) :
    shiftColumn dc height dest k = dc.finish (dest k) := by
  unfold shiftColumn DcShiftParam.finish
  split
  · rw [copyLine_of_lt hk]
  · rfl

theorem v53_apply {wide : Bool} (hdc : dc.Fusable) (hp : parity ≤ 1) (hlen : 2 ≤ sn + dn)
    (hk : k < sn + dn) :
    v53 wide scratch sn dn parity dc bandL bandH dest k =
      dc.finish (synthesize53 parity (sn + dn) (interleave53 parity bandL bandH) k) := by
  unfold v53
  obtain rfl | rfl : parity = 0 ∨ parity = 1 := by omega
  · simp only [if_true, if_neg (show ¬ sn + dn = 1 by omega)]
    cases wide
    · rw [if_neg (by decide), shiftColumn_apply hk, vP053, copyLine_of_lt hk,
        joinP0_spec hlen (by decide) reflect_eq hk]
    · rw [if_pos rfl, hwyVP053, hwyVFinalStore53_apply hdc hk,
        joinP0_spec hlen (by decide) (fun _ => rfl) hk]
  · simp only [if_neg (show ¬ (1 = 0) by decide), if_neg (show ¬ sn + dn = 1 by omega)]
    by_cases two : sn + dn = 2
    · rw [if_pos two, two]
      obtain ⟨first, second⟩ := synthesize53_pair bandL bandH
      unfold DcShiftParam.finish
      obtain rfl | rfl : k = 0 ∨ k = 1 := by omega
      · rw [first]
        split <;> rw [set_of_ne (by decide), set_same]
      · rw [second]
        split <;> rw [set_same]
    · rw [if_neg two]
      cases wide
      · rw [if_neg (by decide), shiftColumn_apply hk, vP153, copyLine_of_lt hk,
          joinP1_spec (by omega) reflect_eq hk]
      · rw [if_pos rfl, hwyVP153, hwyVFinalStore53_apply hdc hk,
          joinP1_spec (by omega) (fun _ => rfl) hk]

end Lines

end GrokCodec.Wavelet
