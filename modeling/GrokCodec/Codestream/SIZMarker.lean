import GrokCodec.Lib.ByteStream
import GrokCodec.Util.Geometry

/-!
SIZ marker segments: image and tile grid, and precision, sign and subsampling of the components.
-/

namespace GrokCodec.Codestream

open ByteStream List Nat

structure SizComponent where
  prec : Nat
  sgnd : Bool
  dx : Nat
  dy : Nat
  deriving DecidableEq, Repr

/-- What a SIZ segment says. -/
structure Siz where
  rsiz : Nat
  x1 : Nat
  y1 : Nat
  x0 : Nat
  y0 : Nat
  tWidth : Nat
  tHeight : Nat
  tx0 : Nat
  ty0 : Nat
  comps : List SizComponent
  deriving DecidableEq, Repr

/-- `grk_read` of a value of `n` bytes: the value and the bytes after it. -/
def grkRead (n : Nat) (src : List Nat) : Nat × List Nat := (ofBytes (src.take n), src.drop n)

namespace SIZMarker

def maxNumComponentsJ2K : Nat := 16384

def maxNumTilesJ2K : Nat := 65535

def maxSupportedImagePrecision : Nat := 16

def isBroadcast (v : Nat) : Bool := v ≥ 0x0100 && v ≤ 0x030b && v &&& 0xf ≤ 0xb

def isImf (v : Nat) : Bool := v ≥ 0x0400 && v ≤ 0x099b && v &&& 0xf ≤ 0xb && v &&& 0xf0 ≤ 0x90

/-- A Part 2 profile is not looked at. -/
def profileOk (rsiz : Nat) : Bool :=
  rsiz &&& 0x8000 ≠ 0 ||
    (let profile := rsiz &&& 0x0fff
     profile ≤ 7 || isBroadcast profile || isImf profile)

/-- `satAdd<uint32_t>`. -/
def satAdd (a b : Nat) : Nat := min (a + b) uintMax

/-- `grk_aligned_width_fits`, for buffers that are aligned to 64 bytes. -/
def alignedWidthFits (width : Nat) : Bool := width + 32 - 1 ≤ uintMax

variable (siz : Siz)

/-- The checks on image and tiles. -/
def gridOk : Bool :=
  siz.x0 < siz.x1 && siz.y0 < siz.y1 && siz.tWidth ≠ 0 && siz.tHeight ≠ 0 &&
    alignedWidthFits siz.tWidth && siz.tx0 ≤ siz.x0 && siz.ty0 ≤ siz.y0 &&
    siz.x0 < satAdd siz.tx0 siz.tWidth && siz.y0 < satAdd siz.ty0 siz.tHeight

def componentOk (comp : SizComponent) : Bool :=
  comp.dx ≠ 0 && comp.dy ≠ 0 && comp.prec ≤ maxSupportedImagePrecision

def tGridWidth : Nat := ceildiv (siz.x1 - siz.tx0) siz.tWidth

def tGridHeight : Nat := ceildiv (siz.y1 - siz.ty0) siz.tHeight

def tilesOk : Bool :=
  tGridWidth siz ≠ 0 && tGridHeight siz ≠ 0 && tGridWidth siz * tGridHeight siz ≤ maxNumTilesJ2K

variable (reduce : Nat)

/-- `GrkImage::subsampleAndReduce` of a new image. The lower edge in y is compared with the
component's `y0` before it is set, which is zero. -/
def subsampleAndReduceOk (siz : Siz) (comp : SizComponent) : Bool :=
  ceildivpow2 (ceildiv siz.x0 comp.dx) reduce < ceildivpow2 (ceildiv siz.x1 comp.dx) reduce &&
    0 < ceildivpow2 (ceildiv siz.y1 comp.dy) reduce

def readComponent (src : List Nat) : SizComponent × List Nat :=
  let (val, src) := grkRead 1 src
  let (dx, src) := grkRead 1 src
  let (dy, src) := grkRead 1 src
  (⟨(val &&& 0x7f) + 1, val >>> 7 ≠ 0, dx, dy⟩, src)

def readComponents : Nat → List Nat → List SizComponent
  | 0, _ => []
  | n + 1, src =>
    let (comp, src) := readComponent src
    comp :: readComponents n src

/-- The fields of a segment whose length allows for `numComps` components, and its Csiz. -/
def readFields (numComps : Nat) (src : List Nat) : Siz × Nat :=
  let (rsiz, src) := grkRead 2 src
  let (x1, src) := grkRead 4 src
  let (y1, src) := grkRead 4 src
  let (x0, src) := grkRead 4 src
  let (y0, src) := grkRead 4 src
  let (tWidth, src) := grkRead 4 src
  let (tHeight, src) := grkRead 4 src
  let (tx0, src) := grkRead 4 src
  let (ty0, src) := grkRead 4 src
  let (csiz, src) := grkRead 2 src
  (⟨rsiz, x1, y1, x0, y0, tWidth, tHeight, tx0, ty0, readComponents numComps src⟩, csiz)

def fieldsOk (siz : Siz) : Bool :=
  profileOk siz.rsiz && gridOk siz && siz.comps.all componentOk && tilesOk siz &&
    siz.comps.all (subsampleAndReduceOk reduce siz)

/-- `SIZMarker::read`. The order of the checks is left out. -/
def read (headerData : List Nat) : Option Siz :=
  if headerData.length < 36 ∨ (headerData.length - 36) % 3 ≠ 0 then none
  else
    let numComps := (headerData.length - 36) / 3
    let fields := readFields numComps headerData
    if fields.2 = 0 ∨ fields.2 > maxNumComponentsJ2K ∨ fields.2 ≠ numComps then none
    else if fieldsOk reduce fields.1 then some fields.1 else none

def writeComponent (comp : SizComponent) : List Nat :=
  [u8 (comp.prec - 1 + if comp.sgnd then 2 ^ 7 else 0), u8 comp.dx, u8 comp.dy]

/-- `SIZMarker::write` after the marker and its length. -/
def write : List Nat :=
  beBytes 2 siz.rsiz ++ beBytes 4 siz.x1 ++ beBytes 4 siz.y1 ++ beBytes 4 siz.x0 ++
    beBytes 4 siz.y0 ++ beBytes 4 siz.tWidth ++ beBytes 4 siz.tHeight ++ beBytes 4 siz.tx0 ++
    beBytes 4 siz.ty0 ++ beBytes 2 siz.comps.length ++ siz.comps.flatMap writeComponent

end SIZMarker

/-- The values fit the fields of a segment. -/
structure Siz.Fits (siz : Siz) : Prop where
  rsiz : siz.rsiz < 2 ^ 16
  x1 : siz.x1 < 2 ^ 32
  y1 : siz.y1 < 2 ^ 32
  x0 : siz.x0 < 2 ^ 32
  y0 : siz.y0 < 2 ^ 32
  tWidth : siz.tWidth < 2 ^ 32
  tHeight : siz.tHeight < 2 ^ 32
  tx0 : siz.tx0 < 2 ^ 32
  ty0 : siz.ty0 < 2 ^ 32

namespace SIZMarker

variable {reduce : Nat} {headerData : List Nat} {siz : Siz}

theorem grkRead_lt (n : Nat) {src : List Nat} (hsrc : ∀ b ∈ src, b < 256) :
    (grkRead n src).1 < 256 ^ n ∧ ∀ b ∈ (grkRead n src).2, b < 256 := by
  refine ⟨?_, fun b hb => hsrc b (mem_of_mem_drop hb)⟩
  apply lt_of_lt_of_le (ofBytes_lt fun b hb => hsrc b (mem_of_mem_take hb))
  exact Nat.pow_le_pow_right (by omega) (length_take_le _ _)

theorem length_readComponents (n : Nat) (src : List Nat) : (readComponents n src).length = n := by
  induction n generalizing src with
  | zero => rfl
  | succ n ih => rw [readComponents, length_cons, ih]

theorem readFields_fits (numComps : Nat) (hbytes : ∀ b ∈ headerData, b < 256) :
    (readFields numComps headerData).1.Fits := by
  obtain ⟨hrsiz, h⟩ := grkRead_lt 2 hbytes
  obtain ⟨hx1, h⟩ := grkRead_lt 4 h
  obtain ⟨hy1, h⟩ := grkRead_lt 4 h
  obtain ⟨hx0, h⟩ := grkRead_lt 4 h
  obtain ⟨hy0, h⟩ := grkRead_lt 4 h
  obtain ⟨htWidth, h⟩ := grkRead_lt 4 h
  obtain ⟨htHeight, h⟩ := grkRead_lt 4 h
  obtain ⟨htx0, h⟩ := grkRead_lt 4 h
  obtain ⟨hty0, -⟩ := grkRead_lt 4 h
  exact ⟨hrsiz, hx1, hy1, hx0, hy0, htWidth, htHeight, htx0, hty0⟩

theorem read_some (hbytes : ∀ b ∈ headerData, b < 256) (h : read reduce headerData = some siz) :
    siz.Fits ∧ siz.comps ≠ [] ∧ fieldsOk reduce siz = true := by
  unfold read at h
  split at h
  · exact nomatch h
  · have hfits := readFields_fits ((headerData.length - 36) / 3) hbytes
    dsimp only at h
    split at h
    · exact nomatch h
    next hcsiz =>
      split at h
      next hok =>
        obtain rfl := Option.some.inj h
        refine ⟨hfits, ?_, hok⟩
        apply ne_nil_of_length_pos
        show 0 < (readComponents _ _).length
        rw [length_readComponents]
        omega
      next => exact nomatch h

theorem grkRead_beBytes {n v : Nat} (hv : v < 256 ^ n) (rest : List Nat) :
    grkRead n (beBytes n v ++ rest) = (v, rest) := by
  rw [grkRead, take_left' (length_beBytes n v), drop_left' (length_beBytes n v),
    ofBytes_beBytes hv]

theorem grkRead_be16 {v : Nat} (hv : v < 2 ^ 16) (rest : List Nat) :
    grkRead 2 (beBytes 2 v ++ rest) = (v, rest) := grkRead_beBytes hv rest

theorem grkRead_be32 {v : Nat} (hv : v < 2 ^ 32) (rest : List Nat) :
    grkRead 4 (beBytes 4 v ++ rest) = (v, rest) := grkRead_beBytes hv rest

/-- A component that a segment can hold. -/
structure WritableComponent (comp : SizComponent) : Prop where
  prec_pos : 0 < comp.prec
  prec_le : comp.prec ≤ 128
  dx : comp.dx < 256
  dy : comp.dy < 256

theorem grkRead_one (b : Nat) (rest : List Nat) : grkRead 1 (b :: rest) = (b, rest) := by
  simp [grkRead, ofBytes]

theorem readComponent_write {comp : SizComponent} (h : WritableComponent comp) (rest : List Nat) :
    readComponent (writeComponent comp ++ rest) = (comp, rest) := by
  obtain ⟨prec, sgnd, dx, dy⟩ := comp
  obtain ⟨hpos, hle, hdx, hdy⟩ := h
  dsimp only at hpos hle hdx hdy
  have hprec : (prec - 1 + if sgnd = true then 2 ^ 7 else 0) % 2 ^ 8 % 128 + 1 = prec := by
    cases sgnd <;> simp <;> omega
  have hsgnd : decide ((prec - 1 + if sgnd = true then 2 ^ 7 else 0) % 2 ^ 8 / 128 ≠ 0) = sgnd := by
    cases sgnd <;> simp <;> omega
  have hmask : ∀ v : Nat, v &&& 0x7f = v % 128 := fun v => and_two_pow_sub_one_eq_mod v 7
  have hshift : ∀ v : Nat, v >>> 7 = v / 128 := fun v => shiftRight_eq_div_pow v 7
  simp only [readComponent, writeComponent, cons_append, nil_append, grkRead_one, hmask,
    hshift, u8]
  rw [hprec, hsgnd, show dx % 2 ^ 8 = dx from mod_eq_of_lt hdx,
    show dy % 2 ^ 8 = dy from mod_eq_of_lt hdy]

theorem readComponents_write {comps : List SizComponent} (h : ∀ c ∈ comps, WritableComponent c)
    (rest : List Nat) :
    readComponents comps.length (comps.flatMap writeComponent ++ rest) = comps := by
  induction comps with
  | nil => rfl
  | cons comp comps ih =>
    rw [flatMap_cons, append_assoc, length_cons, readComponents,
      readComponent_write (h comp mem_cons_self)]
    dsimp only
    rw [ih fun c hc => h c (mem_cons_of_mem _ hc)]

theorem readFields_write (hfits : siz.Fits) (hlen : siz.comps.length < 2 ^ 16)
    (hcomps : ∀ c ∈ siz.comps, WritableComponent c) :
    readFields siz.comps.length (write siz) = (siz, siz.comps.length) := by
  have h := readComponents_write hcomps []
  rw [append_nil] at h
  simp [readFields, write, grkRead_be16 hfits.rsiz, grkRead_be32 hfits.x1, grkRead_be32 hfits.y1,
    grkRead_be32 hfits.x0, grkRead_be32 hfits.y0, grkRead_be32 hfits.tWidth,
    grkRead_be32 hfits.tHeight, grkRead_be32 hfits.tx0, grkRead_be32 hfits.ty0, grkRead_be16 hlen, h]

theorem length_flatMap_writeComponent (comps : List SizComponent) :
    (comps.flatMap writeComponent).length = 3 * comps.length := by
  induction comps with
  | nil => rfl
  | cons comp comps ih =>
    rw [flatMap_cons, length_append, ih, length_cons]
    show 3 + 3 * comps.length = _
    omega

theorem length_write (siz : Siz) : (write siz).length = 36 + 3 * siz.comps.length := by
  simp only [write, length_append, length_beBytes, length_flatMap_writeComponent]

theorem fieldsOk_of_read (h : read reduce headerData = some siz) : fieldsOk reduce siz = true := by
  unfold read at h
  dsimp only at h
  repeat' split at h
  · exact nomatch h
  · exact nomatch h
  · rename_i hok
    rwa [Option.some.inj h] at hok
  · exact nomatch h

/-- A segment is read as it was written if and only if it passes the checks. -/
theorem read_write_iff (hfits : siz.Fits) (hne : siz.comps ≠ [])
    (hlen : siz.comps.length ≤ maxNumComponentsJ2K)
    (hcomps : ∀ c ∈ siz.comps, 0 < c.prec ∧ c.dx < 256 ∧ c.dy < 256) :
    read reduce (write siz) = some siz ↔ fieldsOk reduce siz = true := by
  refine ⟨fieldsOk_of_read, fun hok => ?_⟩
  have hmax : maxNumComponentsJ2K = 16384 := rfl
  have hpos := length_pos_iff.mpr hne
  have hwritable : ∀ c ∈ siz.comps, WritableComponent c := by
    intro c hc
    obtain ⟨hprec, hdx, hdy⟩ := hcomps c hc
    have hall : siz.comps.all componentOk = true := by
      simp only [fieldsOk, Bool.and_eq_true] at hok
      exact hok.1.1.2
    have hc' := all_eq_true.mp hall c hc
    have hle : c.prec ≤ 16 := by
      simp only [componentOk, Bool.and_eq_true, decide_eq_true_eq] at hc'
      exact hc'.2
    exact ⟨hprec, by omega, hdx, hdy⟩
  have hfields := readFields_write hfits (by omega) hwritable
  have hcount : (36 + 3 * siz.comps.length - 36) / 3 = siz.comps.length := by omega
  unfold read
  rw [length_write, if_neg (by omega), hcount]
  dsimp only
  rw [hfields, if_neg (by omega), if_pos hok]

end SIZMarker

end GrokCodec.Codestream
