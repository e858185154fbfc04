import GrokCodec.T1.Codeblock

/-!
What the programs of the packet header reader are made of: reads of the header side of the code
block, and a few kinds of updates of it.
-/

namespace GrokCodec.T1

open Relational List Function

/-- The fields of a segment that headers read. -/
structure SegmentHeader where
  headerTotalPasses : UInt8
  maxPasses : UInt8
  calculatedPassesInLayer : Nat → UInt8

def Segment.header (seg : Segment) : SegmentHeader :=
  ⟨seg.headerTotalPasses, seg.maxPasses, seg.calculatedPassesInLayer⟩

/-- Two code blocks look the same to a header. -/
structure SameHeader (a b : Codeblock) : Prop where
  segs : a.segs.map Segment.header = b.segs.map Segment.header
  signalledPassesByLayer : a.signalledPassesByLayer = b.signalledPassesByLayer
  numlenbits : a.numlenbits = b.numlenbits
  htState : a.htState = b.htState

theorem map_modify {α β : Type} {h : α → β} {f : α → α} {g : β → β} (hf : ∀ x, h (f x) = g (h x))
    (l : List α) (i : Nat) : (l.modify i f).map h = (l.map h).modify i g := by
  apply ext_getElem?
  intro j
  simp only [List.getElem?_map, List.getElem?_modify]
  cases l[j]? with
  | none => rfl
  | some x =>
    by_cases hij : i = j
    · simp [hij, hf]
    · simp [hij]

namespace SameHeader

variable {a b : Codeblock} (hab : SameHeader a b)

include hab

theorem length : a.segs.length = b.segs.length := by
  simpa using congrArg List.length hab.segs

theorem isEmpty : a.segs.isEmpty = b.segs.isEmpty := by
  have hlen := hab.length
  rw [Bool.eq_iff_iff, isEmpty_iff_length_eq_zero, isEmpty_iff_length_eq_zero, hlen]

theorem back : a.back.header = b.back.header := by
  have hlast := congrArg getLast? hab.segs
  simp only [getLast?_map] at hlast
  simp only [Codeblock.back, List.getLastD_eq_getLast?]
  cases ha : a.segs.getLast? with
  | none =>
    rw [ha] at hlast
    rw [Option.map_eq_none_iff.mp hlast.symm]
  | some x =>
    rw [ha] at hlast
    obtain ⟨y, hy, hxy⟩ := Option.map_eq_some_iff.mp hlast.symm
    rw [hy]
    exact hxy.symm

theorem back_maxPasses : a.back.maxPasses = b.back.maxPasses :=
  congrArg SegmentHeader.maxPasses hab.back

theorem back_headerTotalPasses : a.back.headerTotalPasses = b.back.headerTotalPasses :=
  congrArg SegmentHeader.headerTotalPasses hab.back

theorem totalHeaderPasses : a.totalHeaderPasses = b.totalHeaderPasses := by
  have hfold (l : List Segment) : l.foldl (fun total seg => total + seg.headerTotalPasses) 0 =
      (l.map Segment.header).foldl (fun total seg => total + seg.headerTotalPasses) 0 := by
    rw [foldl_map]
    rfl
  rw [Codeblock.totalHeaderPasses, Codeblock.totalHeaderPasses, hfold, hfold, hab.segs]

end SameHeader

/-- Two calls look the same: they have the same bits before them and the same output so far. -/
structure SameCall (s t : Reader) : Prop where
  cblk : SameHeader s.cblk t.cblk
  bio : s.bio = t.bio
  signalledLayerDataBytes : s.signalledLayerDataBytes = t.signalledLayerDataBytes
  contributions : s.contributions = t.contributions

/-- The updates of a code block once the passes and the length bits of a layer are known. -/
inductive SegmentStep : (Codeblock → Codeblock) → Prop
  | push {room : Codeblock → UInt8} (hroom : ∀ a b, SameHeader a b → room a = room b) :
      SegmentStep fun cblk => cblk.push (room cblk)
  | modifyBack {f : Segment → Segment} (g : SegmentHeader → SegmentHeader)
      (hf : ∀ x, (f x).header = g x.header) : SegmentStep fun cblk => cblk.modifyBack f
  | enter (htState : HTState) : SegmentStep fun cblk => { cblk with htState }
  | trans {f g : Codeblock → Codeblock} (hf : SegmentStep f) (hg : SegmentStep g) :
      SegmentStep fun cblk => g (f cblk)

/-- The updates of a reader that go with them. -/
inductive ReaderStep : (Reader → Reader) → Prop
  | bio (bio : BitIO) : ReaderStep fun s => { s with bio }
  | cblk {f : Codeblock → Codeblock} (hf : SegmentStep f) :
      ReaderStep fun s => { s with cblk := f s.cblk }
  | record {f : Codeblock → Codeblock} (hf : SegmentStep f) (passes : UInt8) (bytes : Nat) :
      ReaderStep fun s => { s with
        cblk := f s.cblk
        signalledLayerDataBytes := u32 (s.signalledLayerDataBytes + bytes)
        contributions := s.contributions ++ [(passes, u16 bytes)] }

theorem SegmentStep.sameHeader {f : Codeblock → Codeblock} (hf : SegmentStep f) :
    ∀ {a b}, SameHeader a b → SameHeader (f a) (f b) := by
  induction hf with
  | push hroom =>
    intro a b hab
    exact { hab with segs := by simp only [Codeblock.push, map_append, hab.segs, hroom a b hab] }
  | modifyBack g hf =>
    intro a b hab
    exact { hab with
      segs := by
        simp only [Codeblock.modifyBack, hab.length]
        rw [map_modify hf, map_modify hf, hab.segs] }
  | enter => exact fun hab => { hab with htState := rfl }
  | trans _ _ ihf ihg => exact fun hab => ihg (ihf hab)

theorem ReaderStep.sameCall {f : Reader → Reader} (hf : ReaderStep f) {s t : Reader}
    (h : SameCall s t) : SameCall (f s) (f t) := by
  cases hf with
  | bio => exact { h with bio := rfl }
  | cblk hf => exact { h with cblk := hf.sameHeader h.cblk }
  | record hf =>
    refine ⟨hf.sameHeader h.cblk, h.bio, ?_, ?_⟩
    · simp only [h.signalledLayerDataBytes]
    · simp only [h.contributions]

theorem getbit_ne_outOfFuel {b : BitIO} {e : HeaderError} (h : b.getbit = .error e) :
    e ≠ .outOfFuel := by
  unfold BitIO.getbit at h
  by_cases hct : b.ct = 0
  · rw [if_pos hct] at h
    unfold BitIO.bytein at h
    cases hbyte : b.start[b.offset]? with
    | none =>
      simp only [hbyte, bind, Except.bind, Except.error.injEq] at h
      rw [← h]
      decide
    | some byte =>
      simp only [hbyte] at h
      split at h
      · simp only [bind, Except.bind, Except.error.injEq] at h
        rw [← h]
        exact HeaderError.noConfusion
      · simp [bind, Except.bind, pure, Except.pure] at h
  · rw [if_neg hct] at h
    simp [bind, Except.bind, pure, Except.pure] at h

/-- A program of the header reader, with the exceptions that it may throw. -/
abbrev Header {α : Type} (E : HeaderError → Prop) (m : HeaderM α) : Prop :=
  Built SameCall ReaderStep E m

section Programs

variable {E : HeaderError → Prop} (hE : ∀ e, e ≠ .outOfFuel → E e)

theorem header_onCblk {f : Codeblock → Codeblock} (hf : SegmentStep f) : Header E (onCblk f) :=
  .modify (.cblk hf)

theorem header_recordLayerContribution (layno : Nat) (passes : UInt8) (bytes : Nat) :
    Header E (recordLayerContribution layno passes bytes) :=
  .modify (.record (.modifyBack (fun h => { h with
    calculatedPassesInLayer := update h.calculatedPassesInLayer layno passes
    headerTotalPasses := h.headerTotalPasses + passes }) fun _ => rfl) passes bytes)

theorem header_newSegment (cblk_sty : UInt8) : Header E (newSegment cblk_sty) := by
  refine header_onCblk (.push fun a b hab => ?_)
  rw [hab.isEmpty, hab.back_maxPasses]

theorem header_newHTSegment (maxPasses : UInt8) : Header E (newHTSegment maxPasses) :=
  header_onCblk (.push fun _ _ _ => rfl)

theorem header_openHTSegment (phase maxPasses headerTotalPasses : UInt8) :
    Header E (openHTSegment phase maxPasses headerTotalPasses) :=
  .ite (header_newHTSegment _) (header_newHTSegment _).whenever

include hE

theorem header_readBit : Header E readBit := by
  refine .read (fun s t h => by rw [h.bio]) fun s => ?_
  cases hbit : s.bio.getbit with
  | error e => exact .throw (hE e (getbit_ne_outOfFuel hbit))
  | ok r => exact .bind (.modify (.bio r.2)) fun _ => .pure _

theorem header_readBits (n : Nat) : Header E (readBits n) := by
  induction n with
  | zero => exact .pure _
  | succ n ih => exact .bind (header_readBit hE) fun _ => .bind ih fun _ => .pure _

theorem header_getnumpasses : Header E getnumpasses := by
  refine .bind (header_readBit hE) fun _ => .ite (.pure _) ?_
  refine .bind (header_readBit hE) fun _ => .ite (.pure _) ?_
  refine .bind (header_readBits hE 2) fun _ => .ite (.pure _) ?_
  refine .bind (header_readBits hE 5) fun _ => .ite (.pure _) ?_
  exact .bind (header_readBits hE 7) fun _ => .pure _

theorem header_corrupt {α : Type} : Header E (throw .corruptPacketHeader : HeaderM α) :=
  .throw (hE _ (by decide))

theorem header_readLength (bits : UInt8) : Header E (readLength bits) :=
  .ite (header_corrupt hE) <| .bind (header_readBits hE _) fun _ =>
    .ite (header_corrupt hE) (.pure _)

theorem header_readLengthOf (passes : UInt8) : Header E (readLengthOf passes) :=
  .read (fun _ _ h => h.cblk.numlenbits) fun _ => header_readLength hE _

theorem header_segmentPasses (layno : Nat) (remaining : UInt8) :
    Header E (segmentPasses layno remaining) := by
  refine .read (fun _ _ h => h.cblk.back_maxPasses) fun _ =>
    .read (fun _ _ h => h.cblk.back_headerTotalPasses) fun _ => .bind ?_ fun passes => ?_
  · exact .ite (.ite (header_corrupt hE) (.pure _)) (.pure _)
  · refine .bind (header_onCblk (.modifyBack (fun h => { h with
      calculatedPassesInLayer := update h.calculatedPassesInLayer layno passes })
        fun _ => rfl)) fun _ => ?_
    exact .ite (header_corrupt hE) (.pure _)

theorem header_readExtraBits (n bytes : Nat) : Header E (readExtraBits n bytes) := by
  induction n generalizing bytes with
  | zero => exact .pure _
  | succ n ih => exact .bind (header_readBit hE) fun _ => ih _

theorem header_readPlaceholderLength (mixed : Bool) (remaining refinement : UInt8) :
    Header E (readPlaceholderLength mixed remaining refinement) := by
  refine .ite (.bind (header_readLengthOf hE _) fun _ => .pure _) ?_
  refine .read (fun _ _ h => h.cblk.numlenbits) fun _ => .bind (header_readLength hE _) fun _ => ?_
  refine .ite (.ite (header_corrupt hE) ?_) (.bind (header_readExtraBits hE _ _) fun _ => .pure _)
  exact .bind (header_onCblk (.enter _)) fun _ => .pure _

theorem header_enterPartOne (mixed : Bool) (cblk_sty : UInt8) :
    Header E (enterPartOne mixed cblk_sty) := by
  refine .ite (header_onCblk (.trans (.modifyBack (fun h => { h with
    maxPasses := partOneMaxPasses cblk_sty 0 }) fun _ => rfl) (.enter _))) (header_corrupt hE)

theorem header_readPlaceholders (layno : Nat) (remaining cblk_sty : UInt8) :
    Header E (readPlaceholders layno remaining cblk_sty) := by
  refine .read (fun _ _ h => h.cblk.isEmpty) fun _ => .bind (header_newHTSegment _).whenever fun _ =>
    .read (fun _ _ h => h.cblk.back_headerTotalPasses) fun _ =>
    .bind (header_readPlaceholderLength hE _ _ _) fun _ =>
    .read (fun s t h => by rw [h.cblk.htState]) fun _ =>
    .bind (header_enterPartOne hE _ _).whenever fun _ =>
    .bind (header_recordLayerContribution _ _ _) fun _ =>
    .read (fun _ _ h => h.cblk.htState) fun _ => .ite (.pure _) ?_
  exact .bind (header_onCblk (.modifyBack (fun h => { h with maxPasses := h.headerTotalPasses })
    fun _ => rfl)) fun _ => .pure _

end Programs

/-- A program of the header reader with loops, which may run out of rounds. -/
abbrev Loops {α : Type} (m : HeaderM α) : Prop := Header (fun _ => True) m

theorem loops_getcommacode : Loops getcommacode := by
  have hrounds (fuel : Nat) (n : UInt8) : Loops (commaRounds fuel n) := by
    induction fuel generalizing n with
    | zero => exact .throw trivial
    | succ fuel ih =>
      exact .bind (header_readBit fun _ _ => trivial) fun _ => .ite (.pure _) (ih _)
  exact .read (fun s t h => by rw [h.bio]) fun _ => hrounds _ _

theorem loops_parseSegments (cblk_sty : UInt8) (layno fuel : Nat) (remaining : UInt8) :
    Loops (parseSegments cblk_sty layno fuel remaining) := by
  induction fuel generalizing remaining with
  | zero => exact .throw trivial
  | succ fuel ih =>
    refine .bind (header_segmentPasses (fun _ _ => trivial) _ _) fun _ =>
      .bind (header_readLengthOf (fun _ _ => trivial) _) fun _ =>
      .bind (header_recordLayerContribution _ _ _) fun _ => ?_
    exact .ite (.bind (header_newSegment _) fun _ => ih _) (.pure _)

theorem loops_parseHTSegments (layno fuel : Nat) (remaining : UInt8) :
    Loops (parseHTSegments layno fuel remaining) := by
  induction fuel generalizing remaining with
  | zero => exact .ite (.pure _) (.throw trivial)
  | succ fuel ih =>
    refine .ite (.pure _) ?_
    exact .read (fun s t h => by rw [h.cblk.totalHeaderPasses]) fun _ =>
      .read (fun _ _ h => h.cblk.back_maxPasses) fun _ =>
      .read (fun _ _ h => h.cblk.back_headerTotalPasses) fun _ =>
      .bind (header_openHTSegment _ _ _) fun _ =>
      .bind (header_readLengthOf (fun _ _ => trivial) _) fun _ =>
      .bind (Built.throw trivial).whenever fun _ =>
      .bind (header_recordLayerContribution _ _ _) fun _ => ih _

theorem loops_readHTPacketHeader (layno : Nat) (passes cblk_sty : UInt8) :
    Loops (readHTPacketHeader layno passes cblk_sty) := by
  refine .read (fun _ _ h => h.cblk.htState) fun _ => .ite ?_ (loops_parseHTSegments _ _ _)
  exact .bind (header_readPlaceholders (fun _ _ => trivial) _ _ _) fun _ =>
    loops_parseHTSegments _ _ _

theorem loops_readPartOnePacketHeader (layno : Nat) (passes cblk_sty : UInt8) :
    Loops (readPartOnePacketHeader layno passes cblk_sty) := by
  refine .read (fun s t h => ?_) fun _ => .bind (header_newSegment _).whenever fun _ =>
    loops_parseSegments _ _ _ _
  rw [h.cblk.isEmpty, h.cblk.back_headerTotalPasses, h.cblk.back_maxPasses]

/-- The updates of a whole call. -/
inductive CallStep : (Reader → Reader) → Prop
  | part {f : Reader → Reader} (hf : ReaderStep f) : CallStep f
  | signal (layno : Nat) (passes : UInt8) : CallStep fun s => { s with
      cblk := { s.cblk with
        signalledPassesByLayer := update s.cblk.signalledPassesByLayer layno passes } }
  | lengthen (increment : UInt8) : CallStep fun s => { s with
      cblk := { s.cblk with numlenbits := s.cblk.numlenbits + increment } }

theorem CallStep.sameCall {f : Reader → Reader} (hf : CallStep f) {s t : Reader}
    (h : SameCall s t) : SameCall (f s) (f t) := by
  cases hf with
  | part hf => exact hf.sameCall h
  | signal layno passes =>
    exact { h with cblk := { h.cblk with
      signalledPassesByLayer := by simp only [h.cblk.signalledPassesByLayer] } }
  | lengthen increment =>
    exact { h with cblk := { h.cblk with numlenbits := by simp only [h.cblk.numlenbits] } }

theorem built_readPacketHeader (layno : Nat) (cblk_sty : UInt8) :
    Built SameCall CallStep (fun _ => True) (readPacketHeader layno cblk_sty) := by
  have hpart {α : Type} {m : HeaderM α} (h : Loops m) :
      Built SameCall CallStep (fun _ => True) m := h.mono fun _ => .part
  refine .bind (hpart (header_getnumpasses fun _ _ => trivial)) fun _ =>
    .bind (.modify (.signal _ _)) fun _ => .bind (hpart loops_getcommacode) fun _ =>
    .bind (.modify (.lengthen _)) fun _ => .read (fun _ _ h => h.cblk.isEmpty) fun _ =>
    .bind (hpart (header_onCblk (.enter _))).whenever fun _ =>
    .read (fun _ _ h => h.cblk.htState) fun _ => .ite ?_ ?_
  · exact hpart (loops_readHTPacketHeader _ _ _)
  · exact hpart (loops_readPartOnePacketHeader _ _ _)

end GrokCodec.T1
