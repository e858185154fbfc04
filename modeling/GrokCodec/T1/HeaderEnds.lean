import GrokCodec.T1.HeaderSteps

/-!
Reading a packet header ends. Every round of its loops reads a bit or takes a pass of the layer,
so the rounds that the model allows are enough.
-/

namespace GrokCodec.T1

open Relational Nat

theorem bitsLeft_getbit {b b' : BitIO} {bit : Nat} (h : b.getbit = .ok (bit, b')) :
    b'.bitsLeft < b.bitsLeft := by
  unfold BitIO.getbit BitIO.bytein at h
  split at h
  case isTrue hct =>
    cases hbyte : b.start[b.offset]? with
    | none => simp [hbyte, bind, Except.bind] at h
    | some byte =>
      have hlt := (List.getElem?_eq_some_iff.mp hbyte).1
      simp only [hbyte] at h
      split at h <;> cases h
      unfold BitIO.bitsLeft
      dsimp only
      split <;> omega
  case isFalse hct =>
    cases h
    unfold BitIO.bitsLeft
    dsimp only
    omega

/-- A program of the header reader that does not run out of rounds when it is run from `s`. -/
def Ends {α : Type} (m : HeaderM α) (s : Reader) : Prop := (runFrom m s).1 ≠ .error .outOfFuel

variable {α β : Type} {m : HeaderM α} {s : Reader}

theorem Ends.bind {f : α → HeaderM β} (hm : Ends m s)
    (hf : ∀ a t, runFrom m s = (.ok a, t) → Ends (f a) t) : Ends (m >>= f) s := by
  unfold Ends
  rw [runFrom_bind]
  rcases hrun : runFrom m s with ⟨e | a, t⟩
  · rintro ⟨⟩
    exact hm (congrArg Prod.fst hrun)
  · exact hf a t hrun

/-- Programs without loops end, from every state. -/
theorem ends_of_header (h : Header (· ≠ .outOfFuel) m) (s : Reader) : Ends m s :=
  fun herror => h.error herror rfl

theorem Ends.of_header_bind {f : α → HeaderM β} (hm : Header (· ≠ .outOfFuel) m)
    (hf : ∀ a t, Ends (f a) t) : Ends (m >>= f) s :=
  (ends_of_header hm s).bind fun a t _ => hf a t

theorem Ends.gets_bind {f : Reader → α} {g : α → HeaderM β} (h : Ends (g (f s)) s) :
    Ends (gets f >>= g) s := h

theorem ends_onCblk (f : Codeblock → Codeblock) (s : Reader) : Ends (onCblk f) s := by
  rintro ⟨⟩

theorem ends_commaRounds (fuel : Nat) (n : UInt8) (hs : s.bio.bitsLeft < fuel) :
    Ends (commaRounds fuel n) s := by
  induction fuel generalizing n s with
  | zero => exact absurd hs (not_lt_zero _)
  | succ fuel ih =>
    refine (ends_of_header (header_readBit fun _ h => h) s).bind fun bit t hbit => ?_
    have hlt : t.bio.bitsLeft < s.bio.bitsLeft := by
      unfold readBit at hbit
      rw [runFrom_bind, runFrom_gets] at hbit
      simp only at hbit
      cases hget : s.bio.getbit with
      | error e => rw [hget] at hbit; cases hbit
      | ok r =>
        rw [hget] at hbit
        cases hbit
        exact bitsLeft_getbit hget
    split
    · exact ends_of_header (.pure _) t
    · exact ih _ (by omega)

/-- A part of the remaining passes, and not none of them if there are some. -/
def TakesPart (remaining passes : UInt8) : Prop :=
  passes.toNat ≤ remaining.toNat ∧ (0 < remaining.toNat → 0 < passes.toNat)

theorem TakesPart.toNat_sub {remaining passes : UInt8} (h : TakesPart remaining passes) :
    (remaining - passes).toNat = remaining.toNat - passes.toNat :=
  UInt8.toNat_sub_of_le _ _ (UInt8.le_iff_toNat_le.mpr h.1)

theorem takesPart_min {a b remaining : UInt8} (hab : a ≠ b) :
    TakesPart remaining (min (a - b) remaining) := by
  change TakesPart remaining (if a - b ≤ remaining then a - b else remaining)
  split
  case isTrue hle =>
    refine ⟨UInt8.le_iff_toNat_le.mp hle, fun _ => Nat.pos_of_ne_zero fun hzero => hab ?_⟩
    rw [← UInt8.sub_add_cancel a b, show a - b = 0 from UInt8.toNat_inj.mp hzero, UInt8.zero_add]
  case isFalse => exact ⟨le_rfl, id⟩

/-- The last segment has room for a pass. -/
def HasRoom (s : Reader) : Prop :=
  s.cblk.back.maxPasses = maxPassesPerSegmentJ2K ∨
    s.cblk.back.maxPasses ≠ s.cblk.back.headerTotalPasses

variable (cblk_sty : UInt8) (layno : Nat)

theorem hasRoom_newSegment {t : Reader} (h : runFrom (newSegment cblk_sty) s = (.ok ⟨⟩, t)) :
    HasRoom t := by
  cases h
  refine .inr ?_
  simp only [Codeblock.back, Codeblock.push, List.getLastD_concat]
  unfold partOneMaxPasses
  split_ifs <;> decide

theorem takesPart_segmentPasses {remaining passes : UInt8} {t : Reader} (hs : HasRoom s)
    (h : runFrom (segmentPasses layno remaining) s = (.ok passes, t)) :
    TakesPart remaining passes := by
  have hret {p : UInt8} {u : Reader} (h : runFrom (if p > remaining then throw .corruptPacketHeader
      else pure p : HeaderM UInt8) u = (.ok passes, t)) : passes = p := by
    split at h <;> cases h
    rfl
  simp only [segmentPasses, fittingPasses, runFrom_bind, runFrom_gets] at h
  split_ifs at h with hmax
  · cases h
  · rw [hret h]
    exact ⟨le_rfl, id⟩
  · rw [hret h]
    exact takesPart_min (hs.resolve_left hmax)

theorem ends_parseSegments (fuel : Nat) (remaining : UInt8) (hfuel : remaining.toNat < fuel)
    (hs : HasRoom s) : Ends (parseSegments cblk_sty layno fuel remaining) s := by
  induction fuel generalizing remaining s with
  | zero => exact absurd hfuel (not_lt_zero _)
  | succ fuel ih =>
    refine (ends_of_header (header_segmentPasses (fun _ h => h) _ _) s).bind fun passes t hpasses => ?_
    have hpart := takesPart_segmentPasses layno hs hpasses
    refine .of_header_bind (header_readLengthOf (fun _ h => h) _) fun bytes _ =>
      .of_header_bind (header_recordLayerContribution _ _ _) fun _ u => ?_
    dsimp only
    split
    case isTrue hmore =>
      refine (ends_of_header (header_newSegment _) u).bind fun _ v hv =>
        ih _ ?_ (hasRoom_newSegment _ hv)
      have hpos := UInt8.lt_iff_toNat_lt.mp hmore
      rw [hpart.toNat_sub] at hpos ⊢
      have := hpart.2
      omega
    case isFalse => exact ends_of_header (.pure _) u

theorem header_parseHTSegments (fuel : Nat) (remaining : UInt8) (hfuel : remaining.toNat ≤ fuel) :
    Header (· ≠ .outOfFuel) (parseHTSegments layno fuel remaining) := by
  induction fuel generalizing remaining with
  | zero =>
    obtain rfl : remaining = 0 := UInt8.toNat_inj.mp (Nat.le_zero.mp hfuel)
    exact .pure _
  | succ fuel ih =>
    unfold parseHTSegments
    split
    · exact .pure _
    case isFalse hne =>
      refine .read (fun s t h => by rw [h.cblk.totalHeaderPasses]) fun s =>
        .read (fun _ _ h => h.cblk.back_maxPasses) fun _ =>
        .read (fun _ _ h => h.cblk.back_headerTotalPasses) fun _ =>
        .bind (header_openHTSegment _ _ _) fun _ =>
        .bind (header_readLengthOf (fun _ h => h) _) fun _ =>
        .bind (header_corrupt fun _ h => h).whenever fun _ =>
        .bind (header_recordLayerContribution _ _ _) fun _ => ih _ ?_
      have hpos : 0 < remaining.toNat := Nat.pos_of_ne_zero fun h => hne (UInt8.toNat_inj.mp h)
      have hpart : TakesPart remaining (if s.cblk.totalHeaderPasses % 3 = 0 then 1
          else min (3 - s.cblk.totalHeaderPasses % 3) remaining) := by
        split
        · exact ⟨hpos, fun _ => by decide⟩
        · refine takesPart_min fun hthree => ?_
          have hmod : 3 = s.cblk.totalHeaderPasses.toNat % 3 := congrArg UInt8.toNat hthree
          have := mod_lt s.cblk.totalHeaderPasses.toNat (by decide : 0 < 3)
          omega
      rw [hpart.toNat_sub]
      have := hpart.2 hpos
      omega

theorem header_readHTPacketHeader (passes : UInt8) :
    Header (· ≠ .outOfFuel) (readHTPacketHeader layno passes cblk_sty) := by
  have hloop (remaining : UInt8) := header_parseHTSegments layno 256 remaining remaining.toNat_lt.le
  refine .read (fun _ _ h => h.cblk.htState) fun _ => .ite ?_ (hloop _)
  exact .bind (header_readPlaceholders (fun _ h => h) _ _ _) fun _ => hloop _

theorem ends_readPartOnePacketHeader (passes : UInt8) :
    Ends (readPartOnePacketHeader layno passes cblk_sty) s := by
  refine .gets_bind ((ends_of_header (header_newSegment _).whenever s).bind fun _ t ht =>
    ends_parseSegments _ _ _ _ passes.toNat_lt ?_)
  unfold whenever at ht
  split at ht
  case isTrue => exact hasRoom_newSegment _ ht
  case isFalse hfull =>
    cases ht
    simp only [Bool.or_eq_true, beq_iff_eq, not_or] at hfull
    exact .inr (Ne.symm hfull.2)

/-- **A packet header is read to its end or to an error of the stream.** -/
theorem readPacketHeader_ends (s : Reader) :
    (runFrom (readPacketHeader layno cblk_sty) s).1 ≠ .error .outOfFuel := by
  change Ends (readPacketHeader layno cblk_sty) s
  refine .of_header_bind (header_getnumpasses fun _ h => h) fun passes _ =>
    (ends_onCblk _ _).bind fun _ t _ => Ends.bind (.gets_bind (ends_commaRounds _ _ (lt_succ_self _)))
      fun increment _ _ => (ends_onCblk _ _).bind fun _ _ _ => .gets_bind ?_
  refine .of_header_bind (header_onCblk (.enter _)).whenever fun _ u => .gets_bind ?_
  split
  · exact ends_of_header (header_readHTPacketHeader _ _ _) u
  · exact ends_readPartOnePacketHeader _ _ _

end GrokCodec.T1
