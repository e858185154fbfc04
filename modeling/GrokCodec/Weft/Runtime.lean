import GrokCodec.Lib.Trace

/-!
The weft runtime: nodes with a wakeup word, workers that run passes of scheduled nodes, and host
threads that tug nodes and wait for stillness. Every access to an atomic or to the locked queue is
one step; the steps of different threads interleave.
-/

namespace GrokCodec.Weft

open Trace

/-- `NodeState`: the bits SCHEDULED and DIRTY. -/
structure Word where
  scheduled : Bool := false
  dirty : Bool := false
  deriving DecidableEq, Repr

namespace Word

/-- What `tug` swaps in for `s`; the node is won if it was not scheduled. -/
def tug (s : Word) : Word := if s.scheduled then { s with dirty := true } else ⟨true, false⟩

def openShed (s : Word) : Word := { s with dirty := false }

/-- What `try_tie_off` swaps in for `s`. -/
def tieOff (s : Word) : Word := { s with scheduled := false }

end Word

/-- Where a thread stands in `tug`: before the load, in the swap loop, before the counter, and
before the node is chained or spooled. -/
inductive Tug (N : Type) where
  | load (target : N)
  | swap (target : N) (seen : Word)
  | count (target : N)
  | place (target : N)
  deriving DecidableEq, Repr

/-- Where a thread stands in `ply_node`. In a pass, `chain` is the node claimed for a tail chain. -/
inductive Pc (N : Type) where
  | openShed
  | shuttle (chain : Option N)
  | tug (chain : Option N) (pc : Tug N)
  | tieLoad
  | tie (seen : Word)
  | countDown
  deriving DecidableEq, Repr

/-- One activation of `ply_node`. -/
structure Frame (N : Type) where
  id : N
  depth : Nat
  pc : Pc N
  deriving DecidableEq, Repr

/-- Where a host thread stands: outside, in `Runtime::tug`, or in `await_stillness`, which is at the
load of `outstanding`, at the load of `failed` in the loop, or past the loop. -/
inductive Host (N : Type) where
  | outside
  | tug (pc : Tug N)
  | await
  | awaitFailed
  | awaited
  deriving DecidableEq, Repr

/-- A worker with its calls of `ply_node`, the innermost one first, or a host thread. A worker whose
node has panicked keeps the calls it has unwound, as they keep their nodes scheduled. -/
inductive Thread (N : Type) where
  | worker (frames : List (Frame N))
  | panicked (frames : List (Frame N))
  | host (pc : Host N)
  deriving DecidableEq, Repr

/-- What the threads share. -/
structure Shared (N : Type) where
  words : N → Word
  queue : List N
  outstanding : Nat
  shutdown : Bool
  failed : Bool

/-- What a step is for an observer: a tug takes effect, a pass of a node starts,
`await_stillness` returns, or none of these. -/
inductive Event (N : Type) where
  | tugged (n : N)
  | opened (n : N)
  | returned (ok : Bool)
  | silent
  deriving DecidableEq, Repr

def CHAIN_DEPTH_CAP : Nat := 2

section Steps

variable {N : Type} [DecidableEq N]

def Shared.setWord (sh : Shared N) (n : N) (w : Word) : Shared N :=
  { sh with words := Function.update sh.words n w }

/-- The steps of `tug`. The swap is weak: it may fail for no reason. `won` and `lost` say where the
thread goes on. -/
inductive TugStep (sh : Shared N) : Tug N → Event N → Shared N → Option (Tug N) → Prop
  | load (n : N) : TugStep sh (.load n) .silent sh (some (.swap n (sh.words n)))
  | won (n : N) (seen : Word) (heq : sh.words n = seen) (h : seen.scheduled = false) :
      TugStep sh (.swap n seen) (.tugged n) (sh.setWord n seen.tug) (some (.count n))
  | lost (n : N) (seen : Word) (heq : sh.words n = seen) (h : seen.scheduled = true) :
      TugStep sh (.swap n seen) (.tugged n) (sh.setWord n seen.tug) none
  | retry (n : N) (seen : Word) :
      TugStep sh (.swap n seen) .silent sh (some (.swap n (sh.words n)))
  | count (n : N) : TugStep sh (.count n) .silent
      { sh with outstanding := sh.outstanding + 1 } (some (.place n))

def spool (sh : Shared N) (n : N) : Shared N := { sh with queue := sh.queue ++ [n] }

/-- The steps of the innermost `ply_node`, which replace its frame. A pass may tug any node and may
report a failure, which stores the two flags one after the other. -/
inductive FrameStep (sh : Shared N) : Frame N → Event N → Shared N → List (Frame N) → Prop
  | openShed (n : N) (d : Nat) : FrameStep sh ⟨n, d, .openShed⟩ (.opened n)
      (sh.setWord n (sh.words n).openShed) [⟨n, d, .shuttle none⟩]
  | tug (n : N) (d : Nat) (chain : Option N) (target : N) :
      FrameStep sh ⟨n, d, .shuttle chain⟩ .silent sh [⟨n, d, .tug chain (.load target)⟩]
  | tugging {n : N} {d : Nat} {chain : Option N} {t t' : Tug N} {e : Event N} {sh' : Shared N}
      (h : TugStep sh t e sh' (some t')) :
      FrameStep sh ⟨n, d, .tug chain t⟩ e sh' [⟨n, d, .tug chain t'⟩]
  | tugged {n : N} {d : Nat} {chain : Option N} {t : Tug N} {e : Event N} {sh' : Shared N}
      (h : TugStep sh t e sh' none) :
      FrameStep sh ⟨n, d, .tug chain t⟩ e sh' [⟨n, d, .shuttle chain⟩]
  | chain (n : N) (d : Nat) (target : N) (h : d < CHAIN_DEPTH_CAP) :
      FrameStep sh ⟨n, d, .tug none (.place target)⟩ .silent sh [⟨n, d, .shuttle (some target)⟩]
  | spool (n : N) (d : Nat) (chain : Option N) (target : N)
      (h : ¬ (d < CHAIN_DEPTH_CAP ∧ chain = none)) :
      FrameStep sh ⟨n, d, .tug chain (.place target)⟩ .silent (spool sh target)
        [⟨n, d, .shuttle chain⟩]
  | fail (n : N) (d : Nat) (chain : Option N) :
      FrameStep sh ⟨n, d, .shuttle chain⟩ .silent { sh with failed := true } [⟨n, d, .shuttle chain⟩]
  | stop (n : N) (d : Nat) (chain : Option N) (h : sh.failed = true) :
      FrameStep sh ⟨n, d, .shuttle chain⟩ .silent { sh with shutdown := true }
        [⟨n, d, .shuttle chain⟩]
  | passOver (n : N) (d : Nat) :
      FrameStep sh ⟨n, d, .shuttle none⟩ .silent sh [⟨n, d, .tieLoad⟩]
  | tailChain (n : N) (d : Nat) (next : N) :
      FrameStep sh ⟨n, d, .shuttle (some next)⟩ .silent sh
        [⟨next, d + 1, .openShed⟩, ⟨n, d, .tieLoad⟩]
  | tieLoad (n : N) (d : Nat) :
      FrameStep sh ⟨n, d, .tieLoad⟩ .silent sh [⟨n, d, .tie (sh.words n)⟩]
  | tieDirty (n : N) (d : Nat) (seen : Word) (h : seen.dirty = true) :
      FrameStep sh ⟨n, d, .tie seen⟩ .silent sh [⟨n, d, .openShed⟩]
  | tieOff (n : N) (d : Nat) (seen : Word) (h : seen.dirty = false) (heq : sh.words n = seen) :
      FrameStep sh ⟨n, d, .tie seen⟩ .silent (sh.setWord n seen.tieOff) [⟨n, d, .countDown⟩]
  | tieRetry (n : N) (d : Nat) (seen : Word) (h : seen.dirty = false) :
      FrameStep sh ⟨n, d, .tie seen⟩ .silent sh [⟨n, d, .tie (sh.words n)⟩]
  | countDown (n : N) (d : Nat) :
      FrameStep sh ⟨n, d, .countDown⟩ .silent { sh with outstanding := sh.outstanding - 1 } []

/-- The steps of a host thread. -/
inductive HostStep (sh : Shared N) : Host N → Event N → Shared N → Host N → Prop
  | tug (target : N) : HostStep sh .outside .silent sh (.tug (.load target))
  | tugging {t t' : Tug N} {e : Event N} {sh' : Shared N} (h : TugStep sh t e sh' (some t')) :
      HostStep sh (.tug t) e sh' (.tug t')
  | tugged {t : Tug N} {e : Event N} {sh' : Shared N} (h : TugStep sh t e sh' none) :
      HostStep sh (.tug t) e sh' .outside
  | spool (target : N) : HostStep sh (.tug (.place target)) .silent (spool sh target) .outside
  | await : HostStep sh .outside .silent sh .await
  | still (h : sh.outstanding = 0) : HostStep sh .await .silent sh .awaited
  | busy (h : sh.outstanding ≠ 0) : HostStep sh .await .silent sh .awaitFailed
  | stopped (h : sh.failed = true) : HostStep sh .awaitFailed .silent sh .awaited
  | wait (h : sh.failed = false) : HostStep sh .awaitFailed .silent sh .await
  | returns : HostStep sh .awaited (.returned !sh.failed) sh .outside
  | drop : HostStep sh .outside .silent { sh with shutdown := true } .outside

/-- The steps of a thread. A panic is reported by the worker that has caught it. -/
inductive ThreadStep (sh : Shared N) : Thread N → Event N → Shared N → Thread N → Prop
  | take (n : N) (queue : List N) (hq : sh.queue = n :: queue) (h : sh.shutdown = false) :
      ThreadStep sh (.worker []) .silent { sh with queue } (.worker [⟨n, 0, .openShed⟩])
  | frame {f : Frame N} {frames new : List (Frame N)} {e : Event N} {sh' : Shared N}
      (h : FrameStep sh f e sh' new) :
      ThreadStep sh (.worker (f :: frames)) e sh' (.worker (new ++ frames))
  | panic (n : N) (d : Nat) (chain : Option N) (frames : List (Frame N)) :
      ThreadStep sh (.worker (⟨n, d, .shuttle chain⟩ :: frames)) .silent sh
        (.panicked (⟨n, d, .shuttle chain⟩ :: frames))
  | fail (frames : List (Frame N)) :
      ThreadStep sh (.panicked frames) .silent { sh with failed := true } (.panicked frames)
  | stop (frames : List (Frame N)) (h : sh.failed = true) :
      ThreadStep sh (.panicked frames) .silent { sh with shutdown := true } (.panicked frames)
  | host {h h' : Host N} {e : Event N} {sh' : Shared N} (hstep : HostStep sh h e sh' h') :
      ThreadStep sh (.host h) e sh' (.host h')

end Steps

/-- A runtime with threads `T` and nodes `N`. -/
structure State (T N : Type) where
  shared : Shared N
  threads : T → Thread N

/-- The runtime: any number of workers and host threads, none of which has done anything. -/
def weft (T N : Type) [DecidableEq T] [DecidableEq N] : System (State T N) (T × Event N) where
  init s := s.shared = ⟨fun _ => {}, [], 0, false, false⟩ ∧
    ∀ t, s.threads t = .worker [] ∨ s.threads t = .host .outside
  step s e s' := ∃ thread, ThreadStep s.shared (s.threads e.1) e.2 s'.shared thread ∧
    s'.threads = Function.update s.threads e.1 thread

end GrokCodec.Weft
