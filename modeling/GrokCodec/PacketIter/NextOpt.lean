import GrokCodec.PacketIter.Next

/-!
The optimised iterators, which share one table of precinct infos between all components, and
`PacketIter::next`, which chooses between them and the generic ones.
-/

namespace GrokCodec.PacketIter

open Resumable

/-- `skipPackets`: drop the next `n` packets of the buffer by their known lengths. -/
def State.skipPackets (s : State) (n : Nat) : Option State :=
  let skippedBytes := (s.packetLengths.take n).sum
  if skippedBytes ≤ s.bytesLeft then
    some { s with packetLengths := s.packetLengths.drop n, bytesLeft := s.bytesLeft - skippedBytes,
                  processedPackets := s.processedPackets + n }
  else none

/-- Skip `n` packets and go on, or give up. -/
def State.skipThen (s : State) (n : Nat) (f : State → Outcome State) : Outcome State :=
  match s.skipPackets n with
  | none => .stop s
  | some t => f t

namespace Iter

variable (it : Iter) (precInfo : ResPrecinctInfo) (s : State)

/-- `precInfoCheck`: looks at the first component's grid in the current resolution, whatever
resolution the info is for. -/
def precInfoCheck (inf : ResPrecinctInfo) (s : State) : Bool :=
  inf.valid && decide (s.resno < (it.comp 0).numresolutions) &&
    decide (it.gridWidth 0 s.resno > 0) && decide (it.gridHeight 0 s.resno > 0)

def visitPrecinctOPT (prec_e : Nat) (s : State) : Outcome State :=
  let s := if s.incrementInner then { s with precinctIndex := s.precinctIndex + 1 } else s
  if s.precinctIndex < prec_e then .yield { s with incrementInner := true }
  else .done { s with precinctIndex := it.prog.prec_s, incrementInner := false }

def nextLrcpOPT : State → Outcome State :=
  it.layLoop fun s =>
    (it.resLoop (fun s =>
      let precInfo := it.infoOPT s.resno
      if it.precInfoCheck precInfo s then
        (it.compLoop (it.visitPrecinctOPT precInfo.numPrecincts) s).after it.resetComp
      else .done s) s).after it.resetRes

def nextRlcpOPT : State → Outcome State :=
  it.resLoop fun s =>
    let precInfo := it.infoOPT s.resno
    if it.precInfoCheck precInfo s then
      (it.layLoop (fun s =>
        (it.compLoop (it.visitPrecinctOPT precInfo.numPrecincts) s).after it.resetComp) s).after
          it.resetLay
    else .done s

def visitLayerOPT (index : Nat) (s : State) : Outcome State :=
  let s := if s.incrementInner then { s with layno := s.layno + 1 } else s
  if s.layno < it.prog.lay_e then .yield { s with incrementInner := true, precinctIndex := index }
  else .done (it.resetLayer s)

/-- `genPrecinctY0GridPCRL_OPT` and `genPrecinctX0GridPCRL_OPT`. -/
def genPrecinct0GridPCRLOPT (p precPRJ decompLevel precExp resInPrecGrid0 : Nat) : Option Nat :=
  if p &&& (precPRJ - 1) = 0 then
    some (sub32 (u32 (ceildivpow2 p decompLevel) >>> precExp) resInPrecGrid0)
  else none

/-- `genPrecinctY0GridRPCL_OPT` and `genPrecinctX0GridRPCL_OPT`, which do not test alignment. -/
def genPrecinct0GridRPCLOPT (p decompLevel precExp resInPrecGrid0 : Nat) : Nat :=
  sub32 (u32 (ceildivpow2 p decompLevel >>> precExp)) resInPrecGrid0

/-- The innermost loop body of `next_cprlOPT` and `next_pcrlOPT`. -/
def visitOPT : Outcome State :=
  let rpInfo := it.infoOPT s.resno
  if rpInfo.valid then
    match genPrecinct0GridPCRLOPT s.y rpInfo.precHeightPRJ rpInfo.decompLevel rpInfo.precHeightExp
        rpInfo.resInPrecGridY0,
      genPrecinct0GridPCRLOPT s.x rpInfo.precWidthPRJ rpInfo.decompLevel rpInfo.precWidthExp
        rpInfo.resInPrecGridX0 with
    | some py, some px =>
      let index := px + py * it.gridWidth s.compno s.resno
      it.visitLayerOPT index { s with precinctIndex := index }
    | _, _ => .done s
  else .done s

/-- `for(; y < e; y += step)`. -/
def yLoopTo (e : Nat) (step : State → Nat) (body : State → Outcome State) :
    State → Outcome State :=
  forLoop (fun s => e - s.y) (fun s => decide (s.y < e)) (fun s => { s with y := s.y + step s }) body

/-- `for(; x < e; x += step)`. -/
def xLoopTo (e : Nat) (step : State → Nat) (body : State → Outcome State) :
    State → Outcome State :=
  forLoop (fun s => e - s.x) (fun s => decide (s.x < e)) (fun s => { s with x := s.x + step s }) body

/-- The precincts of a component from row `y` of the window on, in every resolution. -/
def remainingPrecincts (y : Nat) : Nat :=
  ((List.range it.prog.res_e).map fun i =>
    let info := it.infoOPT i
    (ceildivpow2 precInfo.tileBoundsPrecPRJ.x1 info.precWidthExpPRJ) *
      (ceildivpow2 precInfo.tileBoundsPrecPRJ.y1 info.precHeightExpPRJ -
        ceildivpow2 y info.precHeightExpPRJ)).sum

def nextCprlOPT : Outcome State :=
  let precInfo := it.infoOPT (it.prog.res_e - 1)
  let row := xLoopTo precInfo.tileBoundsPrecPRJ.x1 State.dx
    (fun s => (it.resLoop it.visitOPT s).after it.resetRes)
  if it.precInfoCheck precInfo s then
    it.compLoop (fun s =>
      (yLoopTo precInfo.tileBoundsPrecPRJ.y1 State.dy (fun s =>
        if !it.wholeTile && s.y == precInfo.winPrecPRJ.y1 then
          if s.compno + 1 = it.prog.comp_e then .stop s
          else if it.plt then
            s.skipThen (it.remainingPrecincts precInfo s.y * it.prog.lay_e) .leave
          else (row s).after fun s => { s with x := it.prog.tx0 }
        else (row s).after fun s => { s with x := it.prog.tx0 }) s).after
          fun s => { s with y := it.prog.ty0 }) s
  else .stop s

def nextPcrlOPT : Outcome State :=
  let precInfo := it.infoOPT (it.prog.res_e - 1)
  let win := precInfo.winPrecPRJ
  if it.precInfoCheck precInfo s then
    yLoopTo precInfo.tileBoundsPrecPRJ.y1 State.dy (fun s =>
      if !it.wholeTile && s.y == win.y1 then .stop s
      else
        (xLoopTo precInfo.tileBoundsPrecPRJ.x1 State.dx (fun s =>
          if !it.wholeTile && (decide (s.y ≥ win.y1) ||
              (decide (win.y1 > 0) && s.y == win.y1 - 1 && decide (s.x ≥ win.x1))) then .stop s
          else
            (it.compLoop (fun s => (it.resLoop it.visitOPT s).after it.resetRes) s).after
              it.resetComp) s).after fun s => { s with x := precInfo.tileBoundsPrecPRJ.x0 }) s
  else .stop s

/-- The columns of one row of `next_rpclOPT`. -/
def rpclRowOPT : Outcome State :=
  let win := precInfo.winPrecPRJ
  let py := genPrecinct0GridRPCLOPT s.y precInfo.decompLevel precInfo.precHeightExp
    precInfo.resInPrecGridY0
  let precIndexY := py * precInfo.tileBoundsPrecGrid.width
  let xMax := if it.wholeTile || !it.plt then precInfo.tileBoundsPrecPRJ.x1 else win.x1
  ((xLoopTo xMax (fun _ => precInfo.precWidthPRJ) (fun s =>
      if !it.wholeTile && s.resno + 1 == it.maxNumDecompositionResolutions &&
          (win.y1 == 0 || s.y == win.y1 - 1) && decide (s.x ≥ win.x1) then .stop s
      else
        let px := genPrecinct0GridRPCLOPT s.x precInfo.decompLevel precInfo.precWidthExp
          precInfo.resInPrecGridX0
        (it.compLoop (it.visitLayerOPT (px + precIndexY)) s).after it.resetComp) s).after
    fun s => { s with x := precInfo.tileBoundsPrecPRJ.x0 }).andThen fun s =>
      if !it.wholeTile && it.plt && precInfo.winPrecinctsRight != 0 then
        s.skipThen precInfo.winPrecinctsRight fun s => .done { s with skippedLeft := false }
      else .done { s with skippedLeft := false }

/-- Left of the window, once a row. -/
def rpclSkipLeftOPT : Outcome State :=
  if !s.skippedLeft && precInfo.winPrecinctsLeft != 0 then
    if s.x < precInfo.winPrecPRJ.x0 then
      s.skipThen precInfo.winPrecinctsLeft fun s =>
        .done { s with x := precInfo.winPrecPRJ.x0, skippedLeft := true }
    else .done { s with skippedLeft := true }
  else .done s

def nextRpclOPT : State → Outcome State :=
  it.resLoop fun s =>
    let precInfo := it.infoOPT s.resno
    let win := precInfo.winPrecPRJ
    if it.precInfoCheck precInfo s then
      (yLoopTo precInfo.tileBoundsPrecPRJ.y1 (fun _ => precInfo.precHeightPRJ) (fun s =>
        if it.wholeTile then it.rpclRowOPT precInfo s
        else if s.resno + 1 == it.maxNumDecompositionResolutions && s.y == win.y1 then .stop s
        else if it.plt then
          (if s.y < win.y0 then
            s.skipThen precInfo.winPrecinctsTop fun s =>
              rpclSkipLeftOPT precInfo { s with y := win.y0 }
          else if s.y == win.y1 && precInfo.winPrecinctsBottom != 0 then
            s.skipThen precInfo.winPrecinctsBottom .leave
          else rpclSkipLeftOPT precInfo s).andThen (it.rpclRowOPT precInfo)
        else it.rpclRowOPT precInfo s) s).after
          fun s => { s with y := it.prog.ty0, x := it.prog.tx0 }
    else .done s

/-- `PacketIter::next`. -/
def next : Outcome State :=
  if it.opt then
    match it.prog.progression with
    | .lrcp => it.nextLrcpOPT s
    | .rlcp => it.nextRlcpOPT s
    | .pcrl => it.nextPcrlOPT s
    | .rpcl => it.nextRpclOPT s
    | .cprl => it.nextCprlOPT s
    | .prcl => .stop s
  else
    match it.prog.progression with
    | .lrcp => it.nextLrcp s
    | .rlcp => it.nextRlcp s
    | order =>
      if s.dx = 0 ∨ s.dy = 0 then .stop s
      else match order with
        | .pcrl => it.nextPcrl s
        | .rpcl => it.nextRpcl s
        | .prcl => it.nextPrcl s
        | _ => it.nextCprl s

end Iter

end GrokCodec.PacketIter
