import GrokCodec.Lib.MixedRadix
import GrokCodec.Util.Geometry

/-!
The check that progression order changes leave no packet out. Every change marks its layers,
resolutions and components in one flat array, and the array is then scanned for gaps.
-/

namespace GrokCodec.Codestream

open Function MixedRadix

/-- The range of a progression order change. Its layers start at 0. -/
structure ProgressionRange where
  res_s : UInt8
  res_e : UInt8
  comp_s : UInt16
  comp_e : UInt16
  lay_e : UInt16
  deriving DecidableEq, Repr

/-- The layers of one component and resolution, from `comp_index` on. -/
def markLayers (step_l : Nat) : Nat → Nat → (Nat → Bool) → Nat → Bool
  | 0, _, packet_array => packet_array
  | n + 1, comp_index, packet_array =>
    markLayers step_l n (comp_index + step_l) (update packet_array comp_index true)

/-- The components of one resolution, from `res_index` on. -/
def markComponents (step_c step_l layers : Nat) : Nat → Nat → (Nat → Bool) → Nat → Bool
  | 0, _, packet_array => packet_array
  | n + 1, res_index, packet_array =>
    markComponents step_c step_l layers n (res_index + step_c)
      (markLayers step_l layers res_index packet_array)

/-- The resolutions of a change, from `index` on. -/
def markResolutions (step_c step_r step_l comp_s components layers : Nat) :
    Nat → Nat → (Nat → Bool) → Nat → Bool
  | 0, _, packet_array => packet_array
  | n + 1, index, packet_array =>
    markResolutions step_c step_r step_l comp_s components layers n (index + step_r)
      (markComponents step_c step_l layers components (index + u32 (comp_s * step_c)) packet_array)

/-- Steps over the components, to the first gap. -/
def scanComponents (step_c : Nat) (packet_array : Nat → Bool) : Nat → Nat → Nat × Bool
  | 0, index => (index, false)
  | n + 1, index =>
    if packet_array index then scanComponents step_c packet_array n (index + step_c)
    else (index, true)

/-- A gap ends the scan of its resolution only, and the index stays at the gap. -/
def scanResolutions (step_c : Nat) (packet_array : Nat → Bool) (numComps : Nat) :
    Nat → Nat × Bool → Nat × Bool
  | 0, scan => scan
  | n + 1, (index, loss) =>
    let (index, gap) := scanComponents step_c packet_array numComps index
    scanResolutions step_c packet_array numComps n (index, loss || gap)

def scanLayers (step_c : Nat) (packet_array : Nat → Bool) (numComps numresolutions : Nat) :
    Nat → Nat × Bool → Nat × Bool
  | 0, scan => scan
  | n + 1, scan =>
    scanLayers step_c packet_array numComps numresolutions n
      (scanResolutions step_c packet_array numComps numresolutions scan)

/-- One change of `validateProgressionOrders`. -/
def markProgression (numresolutions : UInt8) (numComps numLayers : UInt16)
    (packet_array : Nat → Bool) (poc : ProgressionRange) : Nat → Bool :=
  let step_c := 1
  let step_r := u32 (numComps.toNat * step_c)
  let step_l := u32 (numresolutions.toNat * step_r)
  markResolutions step_c step_r step_l poc.comp_s.toNat
    (min poc.comp_e.toNat numComps.toNat - poc.comp_s.toNat) (min poc.lay_e.toNat numLayers.toNat)
    (min poc.res_e.toNat numresolutions.toNat - poc.res_s.toNat) (u32 (step_r * poc.res_s.toNat))
    packet_array

def validateProgressionOrders (progressions : List ProgressionRange) (numresolutions : UInt8)
    (numComps numLayers : UInt16) : Bool :=
  let packet_array :=
    progressions.foldl (markProgression numresolutions numComps numLayers) fun _ => false
  let (_, loss) := scanLayers 1 packet_array numComps.toNat numresolutions.toNat numLayers.toNat
    (0, false)
  !loss

/-- A change covers a layer of a resolution and component. -/
def ProgressionRange.Covers (poc : ProgressionRange) (layno resno compno : Nat) : Prop :=
  (poc.res_s.toNat ≤ resno ∧ resno < poc.res_e.toNat) ∧
    (poc.comp_s.toNat ≤ compno ∧ compno < poc.comp_e.toNat) ∧ layno < poc.lay_e.toNat

section Mark

variable {step_c step_r step_l layers components comp_s : Nat} {a : Nat → Bool}

variable (n index i : Nat)

theorem index_step (step k : Nat) : index + step + k * step = index + (k + 1) * step := by ring

theorem markLayers_iff :
    markLayers step_l n index a i = true ↔
      a i = true ∨ ∃ l < n, i = index + l * step_l := by
  induction n generalizing index a with
  | zero => simp [markLayers]
  | succ n ih =>
    have hfirst : update a index true i = true ↔ a i = true ∨ i = index := by
      by_cases hi : i = index <;> simp [hi]
    simp only [markLayers, ih, hfirst, Nat.exists_lt_succ_left, or_assoc, index_step, Nat.zero_mul,
      Nat.add_zero]

theorem markComponents_iff :
    markComponents step_c step_l layers n index a i = true ↔
      a i = true ∨ ∃ c < n, ∃ l < layers, i = index + c * step_c + l * step_l := by
  induction n generalizing index a with
  | zero => simp [markComponents]
  | succ n ih =>
    simp only [markComponents, ih, markLayers_iff, Nat.exists_lt_succ_left, or_assoc, index_step,
      Nat.zero_mul, Nat.add_zero]

theorem markResolutions_iff :
    markResolutions step_c step_r step_l comp_s components layers n index a i = true ↔
      a i = true ∨ ∃ r < n, ∃ c < components, ∃ l < layers,
        i = index + r * step_r + u32 (comp_s * step_c) + c * step_c + l * step_l := by
  induction n generalizing index a with
  | zero => simp [markResolutions]
  | succ n ih =>
    simp only [markResolutions, ih, markComponents_iff, Nat.exists_lt_succ_left, or_assoc,
      index_step, Nat.zero_mul, Nat.add_zero]

end Mark

section Scan

variable {a : Nat → Bool} {m numComps numresolutions : Nat}

/-- A step of the scan that looks at the next `m` entries: it passes them if there is no gap, and a
gap is never forgotten. -/
structure Scans (a : Nat → Bool) (m : Nat) (step : Nat × Bool → Nat × Bool) : Prop where
  full : ∀ {index loss}, (∀ k < m, a (index + k) = true) → step (index, loss) = (index + m, loss)
  gap : ∀ {index loss}, ¬ (∀ k < m, a (index + k) = true) → (step (index, loss)).2 = true
  kept : ∀ {index}, (step (index, true)).2 = true

theorem next_full {n index : Nat} : (∀ k < n + 1, a (index + k) = true) ↔
    a index = true ∧ ∀ k < n, a (index + 1 + k) = true := by
  simp only [Nat.forall_lt_succ_left, Nat.add_zero, Nat.add_assoc, Nat.add_comm 1]

theorem scanComponents_full {n index : Nat} (h : ∀ k < n, a (index + k) = true) :
    scanComponents 1 a n index = (index + n, false) := by
  induction n generalizing index with
  | zero => rfl
  | succ n ih =>
    obtain ⟨hfirst, hrest⟩ := next_full.mp h
    rw [scanComponents, if_pos hfirst, ih hrest, Nat.add_assoc, Nat.add_comm 1 n]

theorem scanComponents_gap {n index : Nat} (h : ¬ ∀ k < n, a (index + k) = true) :
    (scanComponents 1 a n index).2 = true := by
  induction n generalizing index with
  | zero => exact absurd (fun k hk => absurd hk (Nat.not_lt_zero k)) h
  | succ n ih =>
    rw [scanComponents]
    split
    · next hfirst => exact ih fun hrest => h (next_full.mpr ⟨hfirst, hrest⟩)
    · rfl

theorem scans_components (a : Nat → Bool) (numComps : Nat) :
    Scans a numComps fun (index, loss) =>
      ((scanComponents 1 a numComps index).1, loss || (scanComponents 1 a numComps index).2) where
  full := by
    intro index loss h
    simp only [scanComponents_full h, Bool.or_false]
  gap := by
    intro index loss h
    simp only [scanComponents_gap h, Bool.or_true]
  kept := by
    intro index
    simp

theorem Scans.repeated {step : Nat × Bool → Nat × Bool} (h : Scans a m step) (n : Nat) :
    Scans a (n * m) (step^[n]) := by
  induction n with
  | zero => exact ⟨fun _ => by simp, fun hne => absurd (by simp) hne, rfl⟩
  | succ n ih =>
    have hsplit (index : Nat) : (∀ k < (n + 1) * m, a (index + k) = true) ↔
        (∀ k < m, a (index + k) = true) ∧ ∀ k < n * m, a (index + m + k) = true := by
      rw [Nat.succ_mul]
      constructor
      · intro hall
        refine ⟨fun k hk => hall k (by omega), fun k hk => ?_⟩
        rw [Nat.add_assoc]
        exact hall (m + k) (by omega)
      · rintro ⟨hfirst, hrest⟩ k hk
        by_cases hlt : k < m
        · exact hfirst k hlt
        · have := hrest (k - m) (by omega)
          rwa [show index + m + (k - m) = index + k by omega] at this
    refine ⟨fun {index loss} hall => ?_, fun {index loss} hne => ?_, fun {index} => ?_⟩
    · obtain ⟨hfirst, hrest⟩ := (hsplit index).mp hall
      rw [iterate_succ_apply, h.full hfirst, ih.full hrest, Nat.succ_mul]
      congr 1
      omega
    · rw [iterate_succ_apply]
      by_cases hfirst : ∀ k < m, a (index + k) = true
      · rw [h.full hfirst]
        exact ih.gap fun hrest => hne ((hsplit index).mpr ⟨hfirst, hrest⟩)
      · have hloss : (step (index, loss)).2 = true := h.gap hfirst
        obtain ⟨next, hnext⟩ : ∃ next, step (index, loss) = (next, true) := ⟨_, Prod.ext rfl hloss⟩
        rw [hnext]
        exact ih.kept
    · rw [iterate_succ_apply]
      obtain ⟨next, hnext⟩ : ∃ next, step (index, true) = (next, true) := ⟨_, Prod.ext rfl h.kept⟩
      rw [hnext]
      exact ih.kept

theorem scanResolutions_eq (n : Nat) (scan : Nat × Bool) :
    scanResolutions 1 a numComps n scan = (fun (index, loss) =>
      ((scanComponents 1 a numComps index).1, loss || (scanComponents 1 a numComps index).2))^[n]
        scan := by
  induction n generalizing scan with
  | zero => rfl
  | succ n ih => exact ih _

theorem scanLayers_eq (n : Nat) (scan : Nat × Bool) :
    scanLayers 1 a numComps numresolutions n scan =
      (scanResolutions 1 a numComps numresolutions)^[n] scan := by
  induction n generalizing scan with
  | zero => rfl
  | succ n ih => exact ih _

theorem scanLayers_iff (n : Nat) :
    (scanLayers 1 a numComps numresolutions n (0, false)).2 = false ↔
      ∀ k < n * (numresolutions * numComps), a k = true := by
  have hres : Scans a (numresolutions * numComps) (scanResolutions 1 a numComps numresolutions) := by
    have h := (scans_components a numComps).repeated numresolutions
    rwa [← funext (scanResolutions_eq numresolutions)] at h
  have hlay := hres.repeated n
  rw [← funext (scanLayers_eq n)] at hlay
  have hzero : (∀ k < n * (numresolutions * numComps), a (0 + k) = true) ↔
      ∀ k < n * (numresolutions * numComps), a k = true := by
    simp
  rw [← hzero]
  constructor
  · intro hloss
    by_contra hgap
    exact Bool.false_ne_true (hloss.symm.trans (hlay.gap hgap))
  · intro hall
    rw [hlay.full hall]

end Scan

section Validate

variable {numresolutions : UInt8} {numComps numLayers : UInt16}

/-- The place of a packet in the flat array. -/
def packetIndex (numresolutions : UInt8) (numComps : UInt16) (layno resno compno : Nat) : Nat :=
  (layno * numresolutions.toNat + resno) * numComps.toNat + compno

theorem packetIndex_inj {l r c l' r' c' : Nat} (hr : r < numresolutions.toNat)
    (hc : c < numComps.toNat) (hr' : r' < numresolutions.toNat) (hc' : c' < numComps.toNat)
    (h : packetIndex numresolutions numComps l r c = packetIndex numresolutions numComps l' r' c') :
    l = l' ∧ r = r' ∧ c = c' := by
  obtain ⟨hrow, hcomp⟩ := index_inj hc hc' h
  obtain ⟨hlay, hres⟩ := index_inj hr hr' hrow
  exact ⟨hlay, hres, hcomp⟩

theorem steps_eq (numresolutions : UInt8) (numComps : UInt16) :
    u32 (numComps.toNat * 1) = numComps.toNat ∧
      u32 (numresolutions.toNat * numComps.toNat) = numresolutions.toNat * numComps.toNat := by
  have hc := numComps.toNat_lt
  have hr := numresolutions.toNat_lt
  have hstep : u32 (numComps.toNat * 1) = numComps.toNat := by
    rw [Nat.mul_one]
    exact u32_of_lt (by omega)
  refine ⟨hstep, ?_⟩
  apply u32_of_lt
  calc numresolutions.toNat * numComps.toNat ≤ 256 * 65536 := Nat.mul_le_mul hr.le hc.le
    _ < 2 ^ 32 := by decide

theorem markProgression_iff (a : Nat → Bool) (poc : ProgressionRange) (i : Nat) :
    markProgression numresolutions numComps numLayers a poc i = true ↔
      a i = true ∨ ∃ l < numLayers.toNat, ∃ r < numresolutions.toNat, ∃ c < numComps.toNat,
        poc.Covers l r c ∧ i = packetIndex numresolutions numComps l r c := by
  obtain ⟨hstep_r, hstep_l⟩ := steps_eq numresolutions numComps
  have hcomp : u32 (poc.comp_s.toNat * 1) = poc.comp_s.toNat := by
    have := poc.comp_s.toNat_lt
    rw [Nat.mul_one]
    exact u32_of_lt (by omega)
  have hres : u32 (numComps.toNat * poc.res_s.toNat) = numComps.toNat * poc.res_s.toNat := by
    apply u32_of_lt
    calc numComps.toNat * poc.res_s.toNat ≤ 65536 * 256 :=
          Nat.mul_le_mul numComps.toNat_lt.le poc.res_s.toNat_lt.le
      _ < 2 ^ 32 := by decide
  unfold markProgression
  simp only [hstep_r, hstep_l]
  rw [markResolutions_iff, hcomp, hres]
  refine or_congr Iff.rfl ?_
  unfold ProgressionRange.Covers packetIndex
  constructor
  · rintro ⟨r, hr, c, hc, l, hl, rfl⟩
    refine ⟨l, by omega, poc.res_s.toNat + r, by omega, poc.comp_s.toNat + c, by omega, ?_, by ring⟩
    omega
  · rintro ⟨l, hl, r, hr, c, hc, ⟨⟨hrs, hre⟩, ⟨hcs, hce⟩, hle⟩, rfl⟩
    obtain ⟨r, rfl⟩ := Nat.exists_eq_add_of_le hrs
    obtain ⟨c, rfl⟩ := Nat.exists_eq_add_of_le hcs
    exact ⟨r, by omega, c, by omega, l, by omega, by ring⟩

theorem foldl_markProgression_iff (progressions : List ProgressionRange) (a : Nat → Bool)
    (i : Nat) :
    progressions.foldl (markProgression numresolutions numComps numLayers) a i = true ↔
      a i = true ∨ ∃ l < numLayers.toNat, ∃ r < numresolutions.toNat, ∃ c < numComps.toNat,
        (∃ poc ∈ progressions, poc.Covers l r c) ∧
          i = packetIndex numresolutions numComps l r c := by
  induction progressions generalizing a with
  | nil => simp
  | cons poc progressions ih =>
    rw [List.foldl_cons, ih, markProgression_iff, or_assoc]
    refine or_congr Iff.rfl ?_
    constructor
    · rintro (⟨l, hl, r, hr, c, hc, hcov, hi⟩ | ⟨l, hl, r, hr, c, hc, ⟨q, hq, hcov⟩, hi⟩)
      · exact ⟨l, hl, r, hr, c, hc, ⟨poc, List.mem_cons_self, hcov⟩, hi⟩
      · exact ⟨l, hl, r, hr, c, hc, ⟨q, List.mem_cons_of_mem _ hq, hcov⟩, hi⟩
    · rintro ⟨l, hl, r, hr, c, hc, ⟨q, hq, hcov⟩, hi⟩
      rcases List.mem_cons.mp hq with rfl | hq
      · exact .inl ⟨l, hl, r, hr, c, hc, hcov, hi⟩
      · exact .inr ⟨l, hl, r, hr, c, hc, ⟨q, hq, hcov⟩, hi⟩

/-- **The check accepts progression order changes exactly if they leave no packet out.** -/
theorem validateProgressionOrders_iff (progressions : List ProgressionRange)
    (numresolutions : UInt8) (numComps numLayers : UInt16) :
    validateProgressionOrders progressions numresolutions numComps numLayers = true ↔
      ∀ layno < numLayers.toNat, ∀ resno < numresolutions.toNat, ∀ compno < numComps.toNat,
        ∃ poc ∈ progressions, poc.Covers layno resno compno := by
  have hscan : validateProgressionOrders progressions numresolutions numComps numLayers = true ↔
      ∀ k < numLayers.toNat * (numresolutions.toNat * numComps.toNat),
        progressions.foldl (markProgression numresolutions numComps numLayers) (fun _ => false) k =
          true := by
    rw [← scanLayers_iff, validateProgressionOrders, Bool.not_eq_true']
  have hindex (l r c) : packetIndex numresolutions numComps l r c =
      c + (r + l * numresolutions.toNat) * numComps.toNat := by
    rw [packetIndex, Nat.add_comm, Nat.add_comm r]
  rw [hscan, Nat.mul_comm, Nat.mul_comm numresolutions.toNat, Nat.mul_assoc]
  constructor
  · intro hall l hl r hr c hc
    have hrow := (index_iff.mp ⟨hr, hl, rfl⟩).1
    have hlt := (index_iff.mp ⟨hc, hrow, hindex l r c⟩).1
    have hmarked := (foldl_markProgression_iff progressions _ _).mp (hall _ hlt)
    rcases hmarked with hstart | ⟨l', _, r', hr', c', hc', hcov, heq⟩
    · cases hstart
    · obtain ⟨rfl, rfl, rfl⟩ := packetIndex_inj hr hc hr' hc' heq
      exact hcov
  · intro hall k hk
    obtain ⟨hc, hrow, hplace⟩ := index_iff.mpr ⟨hk, rfl, rfl⟩
    obtain ⟨hr, hl, hres⟩ := index_iff.mpr ⟨hrow, rfl, rfl⟩
    refine (foldl_markProgression_iff progressions _ _).mpr
      (.inr ⟨_, hl, _, hr, _, hc, hall _ hl _ hr _ hc, ?_⟩)
    rw [hindex, ← hres]
    exact hplace

end Validate

end GrokCodec.Codestream
