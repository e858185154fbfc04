import GrokCodec.Util.Geometry

/-!
Compressed tile parts of a tile on their way to the disk cache and back. The buffers are released
once they are stored, and `reloadFromDisk` fills them again.
-/

namespace GrokCodec.Cache

open List

structure TPFetch where
  offset : Nat
  length : Nat
  data : Option (List Nat)
  fits : ∀ d ∈ data, d.length = length

def leBytes (w v : Nat) : List Nat :=
  (range w).map fun i => v / 256 ^ i % 256

variable (seq : List TPFetch)

/-- What `spillToDisk` stores. -/
def spilled : List Nat :=
  let parts := seq.take (u16 seq.length)
  leBytes 2 parts.length ++
    (parts.flatMap fun tp => leBytes 8 tp.offset ++ leBytes 8 tp.length) ++
    parts.flatMap fun tp => tp.data.getD []

def TPFetch.release (tp : TPFetch) : TPFetch :=
  ⟨tp.offset, tp.length, none, nofun⟩

def released : List TPFetch :=
  (seq.take (u16 seq.length)).map TPFetch.release ++ seq.drop (u16 seq.length)

/-- The last loop of `reloadFromDisk`, with its result. -/
def reloadParts : List TPFetch → List Nat → List TPFetch × Bool
  | [], _ => ([], true)
  | tp :: seq, bytes =>
    if tp.length = 0 then ((tp :: (reloadParts seq bytes).1), (reloadParts seq bytes).2)
    else if h : bytes.length < tp.length then (tp :: seq, false)
    else
      let rest := reloadParts seq (bytes.drop tp.length)
      (⟨tp.offset, tp.length, some (bytes.take tp.length), by simp; omega⟩ :: rest.1, rest.2)

def reloaded (blob : List Nat) : List TPFetch × Bool :=
  let numParts := blob.getD 0 0 + 256 * blob.getD 1 0
  if blob.length < 2 ∨ numParts ≠ u16 seq.length ∨ blob.length - 2 < 16 * numParts then (seq, false)
  else
    let parts := reloadParts (seq.take numParts) (blob.drop (2 + 16 * numParts))
    (parts.1 ++ seq.drop numParts, parts.2)

theorem reloadParts_iff :
    reloadParts (seq.map TPFetch.release) (seq.flatMap fun tp => tp.data.getD []) = (seq, true) ↔
      ∀ tp ∈ seq, tp.data.isSome = true ↔ tp.length ≠ 0 := by
  induction seq with
  | nil => simp [reloadParts]
  | cons tp seq ih =>
    obtain ⟨offset, length, data, fits⟩ := tp
    rw [forall_mem_cons, ← ih]
    cases data with
    | none =>
      by_cases hl : length = 0
      · simp [reloadParts, TPFetch.release, hl, Prod.ext_iff]
      · rw [map_cons, TPFetch.release, reloadParts, if_neg hl]
        split <;> simp [hl]
    | some d =>
      obtain rfl : d.length = length := fits d rfl
      by_cases hl : d.length = 0
      · simp [reloadParts, TPFetch.release, hl, Prod.ext_iff]
      · simp [reloadParts, TPFetch.release, hl, Prod.ext_iff]

/-- **A tile comes back from disk as it was if the parts with data are those with a length.** -/
theorem reloaded_spilled_iff (seq : List TPFetch) (hlen : seq.length < 2 ^ 16) :
    reloaded (released seq) (spilled seq) = (seq, true) ↔
      ∀ tp ∈ seq, tp.data.isSome = true ↔ tp.length ≠ 0 := by
  have hcount : u16 seq.length = seq.length := Nat.mod_eq_of_lt hlen
  have hreleased : released seq = seq.map TPFetch.release := by simp [released, hcount]
  obtain ⟨header, hheader, hspilled⟩ : ∃ header, header.length = 2 + 16 * seq.length ∧
      spilled seq = header ++ seq.flatMap fun tp => tp.data.getD [] := by
    refine ⟨_, ?_, by rw [spilled, hcount, take_length]⟩
    simp [leBytes, Nat.mul_comm]
  have hread : (spilled seq).getD 0 0 + 256 * (spilled seq).getD 1 0 = seq.length := by
    have : seq.length % 256 + 256 * (seq.length / 256 % 256) = seq.length := by omega
    simpa [spilled, hcount, leBytes, range_succ] using this
  have hlong : 2 + 16 * seq.length ≤ (spilled seq).length := by simp [hspilled, hheader]
  rw [← reloadParts_iff, reloaded, hreleased]
  simp only [hread, length_map, hcount]
  rw [if_neg (by omega), hspilled, drop_left' hheader]
  simp [take_of_length_le, drop_eq_nil_of_le, Prod.ext_iff]

/-- A part of two bytes and an empty one. -/
def twoParts : List TPFetch := [⟨0, 2, some [7, 8], by simp⟩, ⟨2, 0, none, nofun⟩]

theorem twoParts_reloaded :
    reloaded (released twoParts) (spilled twoParts) = (twoParts, true) :=
  (reloaded_spilled_iff twoParts (by decide)).mpr (by simp [twoParts])

/-- A part that was not fetched takes the bytes of the next one. -/
theorem missing_part_shifts :
    let seq := [⟨0, 1, none, nofun⟩, ⟨1, 1, some [7], by simp⟩]
    let r := reloaded (released seq) (spilled seq)
    (r.1.map TPFetch.data, r.2) = ([some [7], none], false) := by
  decide +kernel

end GrokCodec.Cache
