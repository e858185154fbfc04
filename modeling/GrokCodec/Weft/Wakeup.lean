import Mathlib.Algebra.Order.BigOperators.Group.Finset
import GrokCodec.Weft.Runtime

/-!
The wakeup protocol over whole runs. A scheduled node has exactly one owner: a queue entry, a call
of `ply_node`, a tail-chain claim, or a tug that has won it and not yet handed it on. `outstanding`
counts the owners whose tug has passed the counter.
-/

namespace GrokCodec.Weft

open Trace List Function Nat Bool

variable {N : Type} [DecidableEq N]

/-- One for the node that is meant. -/
def one (m n : N) : Nat := if m = n then 1 else 0

/-- How often a thread at this point of `tug` owns `n`. -/
def Tug.owns (n : N) : Tug N → Nat
  | .load _ | .swap _ _ => 0
  | .count m | .place m => one m n

def Tug.tokens : Tug N → Nat
  | .load _ | .swap _ _ | .count _ => 0
  | .place _ => 1

def chainOwns (n : N) : Option N → Nat
  | none => 0
  | some m => one m n

def chainTokens : Option N → Nat
  | none => 0
  | some _ => 1

def Frame.owns (n : N) (f : Frame N) : Nat :=
  match f.pc with
  | .openShed | .tieLoad | .tie _ => one f.id n
  | .shuttle chain => one f.id n + chainOwns n chain
  | .tug chain t => one f.id n + chainOwns n chain + t.owns n
  | .countDown => 0

def Frame.tokens (f : Frame N) : Nat :=
  match f.pc with
  | .openShed | .tieLoad | .tie _ | .countDown => 1
  | .shuttle chain => 1 + chainTokens chain
  | .tug chain t => 1 + chainTokens chain + t.tokens

def Host.owns (n : N) : Host N → Nat
  | .tug t => t.owns n
  | _ => 0

def Host.tokens : Host N → Nat
  | .tug t => t.tokens
  | _ => 0

def Thread.owns (n : N) : Thread N → Nat
  | .worker frames | .panicked frames => (frames.map (Frame.owns n)).sum
  | .host h => h.owns n

def Thread.tokens : Thread N → Nat
  | .worker frames | .panicked frames => (frames.map Frame.tokens).sum
  | .host h => h.tokens

variable {t t' : Thread N} {new : List (Frame N)} {f : Frame N}

section Conservation

variable {sh sh' : Shared N} {e : Event N}

theorem setWord_words (sh : Shared N) (m n : N) (w : Word) :
    (sh.setWord m w).words n = if n = m then w else sh.words n := by
  simp [Shared.setWord, update_apply]

@[simp] theorem setWord_queue (sh : Shared N) (n : N) (w : Word) :
    (sh.setWord n w).queue = sh.queue := rfl

@[simp] theorem setWord_outstanding (sh : Shared N) (n : N) (w : Word) :
    (sh.setWord n w).outstanding = sh.outstanding := rfl

@[simp] theorem openShed_scheduled (w : Word) : w.openShed.scheduled = w.scheduled := rfl

theorem scheduled_setWord (sh : Shared N) (m n : N) (w : Word) :
    ((sh.setWord m w).words n).scheduled.toNat + one m n * (sh.words m).scheduled.toNat =
      (sh.words n).scheduled.toNat + one m n * w.scheduled.toNat := by
  rw [setWord_words, one]
  by_cases h : n = m
  · subst h
    simp [Nat.add_comm]
  · simp [h, Ne.symm h]

theorem TugStep.owns {t : Tug N} {t' : Option (Tug N)} (h : TugStep sh t e sh' t') (n : N) :
    sh'.queue = sh.queue ∧ t'.elim 0 (Tug.owns n) + (sh.words n).scheduled.toNat =
      t.owns n + (sh'.words n).scheduled.toNat := by
  cases h with
  | load m => exact ⟨rfl, rfl⟩
  | won m seen heq hs | lost m seen heq hs =>
    have hword := scheduled_setWord sh m n seen.tug
    have hsched : seen.tug.scheduled = true := by simp [Word.tug, hs]
    rw [heq, hs, hsched] at hword
    simp only [Option.elim, Tug.owns, toNat_false, toNat_true] at hword ⊢
    exact ⟨rfl, by omega⟩
  | retry m seen => exact ⟨rfl, rfl⟩
  | count m => exact ⟨rfl, rfl⟩

theorem TugStep.tokens {t : Tug N} {t' : Option (Tug N)} (h : TugStep sh t e sh' t') :
    sh'.queue = sh.queue ∧ t'.elim 0 Tug.tokens + sh.outstanding = t.tokens + sh'.outstanding := by
  cases h with
  | load m => exact ⟨rfl, rfl⟩
  | won m seen heq hs => exact ⟨rfl, rfl⟩
  | lost m seen heq hs => exact ⟨rfl, rfl⟩
  | retry m seen => exact ⟨rfl, rfl⟩
  | count m =>
    refine ⟨rfl, ?_⟩
    simp only [Option.elim, Tug.tokens]
    omega

theorem count_spool (sh : Shared N) (m n : N) :
    (spool sh m).queue.count n = sh.queue.count n + one m n := by
  simp [spool, one, count_append, count_singleton]

/-- A node changes hands without being duplicated or lost. -/
theorem FrameStep.owns (h : FrameStep sh f e sh' new) (n : N)
    (hown : f.owns f.id ≤ (sh.words f.id).scheduled.toNat) :
    sh'.queue.count n + (new.map (Frame.owns n)).sum + (sh.words n).scheduled.toNat =
      sh.queue.count n + f.owns n + (sh'.words n).scheduled.toNat := by
  cases h with
  | openShed m d =>
    have hword := scheduled_setWord sh m n (sh.words m).openShed
    simp only [openShed_scheduled] at hword
    simp only [map_cons, map_nil, sum_cons, sum_nil, Frame.owns, chainOwns,
      setWord_queue]
    omega
  | tug m d chain target => simp [Frame.owns, Tug.owns]
  | tugging htug | tugged htug =>
    obtain ⟨hq, ht⟩ := htug.owns n
    simp only [Option.elim] at ht
    simp only [map_cons, map_nil, sum_cons, sum_nil, Frame.owns, hq]
    omega
  | chain m d target hd => simp [Frame.owns, Tug.owns, chainOwns]
  | spool m d chain target hd =>
    simp only [map_cons, map_nil, sum_cons, sum_nil, Frame.owns, Tug.owns,
      count_spool]
    simp only [Weft.spool]
    omega
  | fail m d chain => simp [Frame.owns]
  | stop m d chain hf => simp [Frame.owns]
  | passOver m d => simp [Frame.owns, chainOwns]
  | tailChain m d next =>
    simp only [map_cons, map_nil, sum_cons, sum_nil, Frame.owns, chainOwns]
    omega
  | tieLoad m d => simp [Frame.owns]
  | tieDirty m d seen hs => simp [Frame.owns]
  | tieOff m d seen hs heq =>
    have hword := scheduled_setWord sh m n seen.tieOff
    have hm : one m m = 1 := if_pos rfl
    have hle : (sh.words m).scheduled.toNat ≤ 1 := toNat_le _
    simp only [Frame.owns, hm] at hown
    have hone : (sh.words m).scheduled.toNat = 1 := by omega
    have htied : seen.tieOff.scheduled.toNat = 0 := rfl
    rw [hone, htied] at hword
    simp only [map_cons, map_nil, sum_cons, sum_nil, Frame.owns, setWord_queue]
    omega
  | tieRetry m d seen hs => simp [Frame.owns]
  | countDown m d => simp [Frame.owns]

theorem FrameStep.tokens (h : FrameStep sh f e sh' new) (hcount : f.tokens ≤ sh.outstanding) :
    sh'.queue.length + (new.map Frame.tokens).sum + sh.outstanding =
      sh.queue.length + f.tokens + sh'.outstanding := by
  cases h with
  | openShed m d => simp [Frame.tokens, chainTokens]
  | tug m d chain target => simp [Frame.tokens, Tug.tokens]
  | tugging htug | tugged htug =>
    obtain ⟨hq, ht⟩ := htug.tokens
    simp only [Option.elim] at ht
    simp only [map_cons, map_nil, sum_cons, sum_nil, Frame.tokens, hq]
    omega
  | chain m d target hd => simp [Frame.tokens, Tug.tokens, chainTokens]
  | spool m d chain target hd =>
    simp only [map_cons, map_nil, sum_cons, sum_nil, Frame.tokens, Tug.tokens,
      Weft.spool, length_append, length_singleton]
    omega
  | fail m d chain => simp [Frame.tokens]
  | stop m d chain hf => simp [Frame.tokens]
  | passOver m d => simp [Frame.tokens, chainTokens]
  | tailChain m d next => simp [Frame.tokens, chainTokens]
  | tieLoad m d => simp [Frame.tokens]
  | tieDirty m d seen hs => simp [Frame.tokens]
  | tieOff m d seen hs heq => simp [Frame.tokens]
  | tieRetry m d seen hs => simp [Frame.tokens]
  | countDown m d =>
    simp only [Frame.tokens] at hcount
    simp only [map_nil, sum_nil, Frame.tokens]
    omega

theorem HostStep.owns {h h' : Host N} (hstep : HostStep sh h e sh' h') (n : N) :
    sh'.queue.count n + h'.owns n + (sh.words n).scheduled.toNat =
      sh.queue.count n + h.owns n + (sh'.words n).scheduled.toNat := by
  cases hstep with
  | tugging htug | tugged htug =>
    obtain ⟨hq, ht⟩ := htug.owns n
    simp only [Option.elim] at ht
    simp only [Host.owns, hq]
    omega
  | spool m =>
    simp only [Host.owns, Tug.owns, count_spool]
    simp only [Weft.spool]
    omega
  | tug m => rfl
  | await | still | busy | stopped | wait | returns | drop => rfl

theorem HostStep.tokens {h h' : Host N} (hstep : HostStep sh h e sh' h') :
    sh'.queue.length + h'.tokens + sh.outstanding =
      sh.queue.length + h.tokens + sh'.outstanding := by
  cases hstep with
  | tugging htug | tugged htug =>
    obtain ⟨hq, ht⟩ := htug.tokens
    simp only [Option.elim] at ht
    simp only [Host.tokens, hq]
    omega
  | spool m =>
    simp [Host.tokens, Tug.tokens, Weft.spool]
  | tug m => rfl
  | await | still | busy | stopped | wait | returns | drop => rfl

theorem ThreadStep.owns (h : ThreadStep sh t e sh' t')
    (hown : ∀ n, t.owns n ≤ (sh.words n).scheduled.toNat) (n : N) :
    sh'.queue.count n + t'.owns n + (sh.words n).scheduled.toNat =
      sh.queue.count n + t.owns n + (sh'.words n).scheduled.toNat := by
  cases h with
  | take m queue hq hs =>
    simp only [Thread.owns, map_cons, map_nil, sum_cons, sum_nil, Frame.owns, hq,
      count_cons, one, beq_iff_eq]
    omega
  | @frame f frames new _ _ h =>
    have hf := hown f.id
    simp only [Thread.owns, map_cons, sum_cons] at hf
    have := h.owns n (by omega)
    simp only [Thread.owns, map_append, sum_append_nat, map_cons, sum_cons]
    omega
  | panic | fail | stop => rfl
  | host hstep => exact hstep.owns n

theorem ThreadStep.tokens (h : ThreadStep sh t e sh' t') (hcount : t.tokens ≤ sh.outstanding) :
    sh'.queue.length + t'.tokens + sh.outstanding =
      sh.queue.length + t.tokens + sh'.outstanding := by
  cases h with
  | take m queue hq hs =>
    simp only [Thread.tokens, map_cons, map_nil, sum_cons, sum_nil, Frame.tokens,
      hq, length_cons]
    omega
  | @frame f frames new _ _ h =>
    simp only [Thread.tokens, map_cons, sum_cons] at hcount
    have := h.tokens (by omega)
    simp only [Thread.tokens, map_append, sum_append_nat, map_cons, sum_cons]
    omega
  | panic | fail | stop => rfl
  | host hstep => exact hstep.tokens

end Conservation

/-- A call of `ply_node` between `open_shed` and the swap that ties the node off. -/
def Frame.opened (f : Frame N) : Bool :=
  match f.pc with
  | .openShed | .countDown => false
  | .shuttle _ | .tug _ _ | .tieLoad | .tie _ => true

def Thread.frames : Thread N → List (Frame N)
  | .worker frames | .panicked frames => frames
  | .host _ => []

/-- The thread has a call for `n` that has started its pass. -/
def Thread.Opens (n : N) (t : Thread N) : Prop := ∃ f ∈ t.frames, f.id = n ∧ f.opened = true

variable {n : N}

theorem Thread.Opens.owns {t : Thread N} (h : t.Opens n) : 1 ≤ t.owns n := by
  obtain ⟨f, hf, rfl, hopen⟩ := h
  have hone : 1 ≤ f.owns f.id := by
    obtain ⟨m, d, pc⟩ := f
    cases pc <;> simp [Frame.opened, Frame.owns, one] at hopen ⊢
    omega
  have hsum (frames : List (Frame N)) (hmem : f ∈ frames) :
      1 ≤ (frames.map (Frame.owns f.id)).sum :=
    hone.trans (le_sum_of_mem (mem_map_of_mem hmem))
  cases t with
  | worker frames => exact hsum frames hf
  | panicked frames => exact hsum frames hf
  | host h => cases hf

section Words

variable {sh sh' : Shared N} {e : Event N}

/-- What one step does to one word: a tug or the start of a pass, which it shows, and otherwise
nothing, or tying off a node whose pass nobody has disturbed. -/
def WordStep (n : N) (opens : Prop) (w : Word) (e : Event N) (w' : Word) : Prop :=
  (e = .tugged n ∧ w' = w.tug) ∨ (e = .opened n ∧ w' = w.openShed) ∨
    e ≠ .tugged n ∧ e ≠ .opened n ∧ (w' = w ∨ opens ∧ w.dirty = false ∧ w' = w.tieOff)

omit [DecidableEq N] in
theorem WordStep.same {opens : Prop} {w : Word} (ht : e ≠ .tugged n) (ho : e ≠ .opened n) :
    WordStep n opens w e w := .inr (.inr ⟨ht, ho, .inl rfl⟩)

theorem TugStep.word {t : Tug N} {t' : Option (Tug N)} (h : TugStep sh t e sh' t') (n : N)
    (opens : Prop) : WordStep n opens (sh.words n) e (sh'.words n) := by
  have hswap (m : N) : WordStep n opens (sh.words n) (.tugged m)
      ((sh.setWord m (sh.words m).tug).words n) := by
    rw [setWord_words]
    by_cases hm : n = m
    · subst hm
      exact .inl ⟨rfl, if_pos rfl⟩
    · rw [if_neg hm]
      exact .same (by simpa using Ne.symm hm) (by simp)
  cases h with
  | load m => exact .same (by simp) (by simp)
  | won m seen heq hs => exact heq ▸ hswap m
  | lost m seen heq hs => exact heq ▸ hswap m
  | retry m seen => exact .same (by simp) (by simp)
  | count m => exact .same (by simp) (by simp)

theorem FrameStep.word (h : FrameStep sh f e sh' new) (n : N) :
    WordStep n (f.id = n ∧ f.opened = true) (sh.words n) e (sh'.words n) := by
  cases h with
  | openShed m d =>
    rw [setWord_words]
    by_cases hm : n = m
    · subst hm
      exact .inr (.inl ⟨rfl, if_pos rfl⟩)
    · rw [if_neg hm]
      exact .same (by simp) (by simpa using Ne.symm hm)
  | tugging htug => exact htug.word n _
  | tugged htug => exact htug.word n _
  | tieOff m d seen hs heq =>
    rw [setWord_words]
    by_cases hm : n = m
    · subst hm
      subst heq
      exact .inr (.inr ⟨by simp, by simp, .inr ⟨⟨rfl, rfl⟩, hs, if_pos rfl⟩⟩)
    · rw [if_neg hm]
      exact .same (by simp) (by simp)
  | tug | chain | spool | fail | stop | passOver | tailChain | tieLoad | tieDirty | tieRetry
  | countDown => exact .same (by simp) (by simp)

theorem ThreadStep.word (h : ThreadStep sh t e sh' t') (n : N) :
    WordStep n (t.Opens n) (sh.words n) e (sh'.words n) := by
  cases h with
  | @frame f frames new _ _ h =>
    rcases h.word n with htug | hopen | ⟨ht, ho, hsame | ⟨hf, hrest⟩⟩
    · exact .inl htug
    · exact .inr (.inl hopen)
    · exact .inr (.inr ⟨ht, ho, .inl hsame⟩)
    · exact .inr (.inr ⟨ht, ho, .inr ⟨⟨f, mem_cons_self, hf⟩, hrest⟩⟩)
  | host hstep =>
    cases hstep with
    | tugging htug => exact htug.word n _
    | tugged htug => exact htug.word n _
    | tug | spool | await | still | busy | stopped | wait | returns | drop =>
      exact .same (by simp) (by simp)
  | take | panic | fail | stop => exact .same (by simp) (by simp)

theorem FrameStep.opened {f g : Frame N} (h : FrameStep sh f e sh' new) (hg : g ∈ new)
    (he : e ≠ .opened g.id) (hopen : g.opened = true) :
    f.id = g.id ∧ f.opened = true := by
  cases h with
  | openShed m d =>
    obtain rfl := mem_singleton.mp hg
    exact absurd rfl he
  | tailChain m d next =>
    rcases mem_cons.mp hg with rfl | hg
    · cases hopen
    · obtain rfl := mem_singleton.mp hg
      exact ⟨rfl, rfl⟩
  | countDown => cases hg
  | tieDirty | tieOff =>
    obtain rfl := mem_singleton.mp hg
    cases hopen
  | tug | tugging | tugged | chain | spool | fail | stop | passOver | tieLoad | tieRetry =>
    obtain rfl := mem_singleton.mp hg
    exact ⟨rfl, rfl⟩

theorem ThreadStep.opens (h : ThreadStep sh t e sh' t') (he : e ≠ .opened n) (hopens : t'.Opens n) :
    t.Opens n := by
  cases h with
  | take m queue hq hs =>
    obtain ⟨f, hf, -, hopen⟩ := hopens
    obtain rfl := mem_singleton.mp hf
    cases hopen
  | @frame f frames new _ _ h =>
    obtain ⟨g, hg, hid, hopen⟩ := hopens
    rcases mem_append.mp hg with hg | hg
    swap
    · exact ⟨g, mem_cons_of_mem _ hg, hid, hopen⟩
    subst hid
    exact ⟨f, mem_cons_self, h.opened hg he hopen⟩
  | panic | fail | stop => exact hopens
  | host hstep =>
    obtain ⟨f, hf, -⟩ := hopens
    cases hf

end Words

section Runs

variable {T : Type} [Fintype T] [DecidableEq T] {s s' : State T N} {tr : List (T × Event N)}

/-- How many owners a node has. -/
def State.owners (s : State T N) (n : N) : Nat :=
  s.shared.queue.count n + ∑ t, (s.threads t).owns n

/-- How many owners have been counted. -/
def State.tokens (s : State T N) : Nat := s.shared.queue.length + ∑ t, (s.threads t).tokens

/-- Some tug of `n` has taken effect and no pass of `n` has started since. -/
def Unheard (n : N) (tr : List (T × Event N)) : Prop :=
  Unanswered (fun e => e.2 = .tugged n) (fun e => e.2 = .opened n) tr

structure Inv (tr : List (T × Event N)) (s : State T N) : Prop where
  owned : ∀ n, s.owners n = (s.shared.words n).scheduled.toNat
  counted : s.shared.outstanding = s.tokens
  heard : ∀ n, Unheard n tr → (s.shared.words n).scheduled = true ∧
    ((s.shared.words n).dirty = true ∨ ∀ t, ¬ (s.threads t).Opens n)

theorem inv_init (h : (weft T N).init s) : Inv [] s := by
  obtain ⟨hshared, hthreads⟩ := h
  have howns (t : T) (n : N) : (s.threads t).owns n = 0 := by
    rcases hthreads t with h | h <;> rw [h] <;> rfl
  have htokens (t : T) : (s.threads t).tokens = 0 := by
    rcases hthreads t with h | h <;> rw [h] <;> rfl
  refine ⟨fun n => ?_, ?_, fun n h => absurd h not_unanswered_nil⟩
  · simp [State.owners, hshared, howns]
  · simp [State.tokens, hshared, htokens]

omit [DecidableEq T] in
theorem Inv.owns_le (h : Inv tr s) (t : T) (n : N) :
    (s.threads t).owns n ≤ (s.shared.words n).scheduled.toNat := by
  rw [← h.owned n, State.owners]
  have := Finset.single_le_sum (fun t _ => zero_le ((s.threads t).owns n)) (Finset.mem_univ t)
  omega

omit [DecidableEq T] in
theorem Inv.tokens_le (h : Inv tr s) (t : T) : (s.threads t).tokens ≤ s.shared.outstanding := by
  rw [h.counted, State.tokens]
  have := Finset.single_le_sum (fun t _ => zero_le (s.threads t).tokens) (Finset.mem_univ t)
  omega

omit [DecidableEq T] in
theorem Inv.scheduled_of_opens (h : Inv tr s) {t : T} (hopens : (s.threads t).Opens n) :
    (s.shared.words n).scheduled = true := by
  have := hopens.owns.trans (h.owns_le t n)
  cases hs : (s.shared.words n).scheduled
  · rw [hs] at this
    cases this
  · rfl

theorem inv_step {e : T × Event N} (h : Inv tr s) (hstep : (weft T N).step s e s') :
    Inv (tr ++ [e]) s' := by
  obtain ⟨i, ev⟩ := e
  obtain ⟨thread, hthread, hthreads⟩ := hstep
  simp only at hthread hthreads
  have hopens (n : N) (hev : ev ≠ .opened n) (t : T) (ht : (s'.threads t).Opens n) :
      ∃ t, (s.threads t).Opens n := by
    rw [hthreads] at ht
    by_cases hti : t = i
    · rw [hti, update_self] at ht
      exact ⟨i, hthread.opens hev ht⟩
    · rw [update_of_ne hti] at ht
      exact ⟨t, ht⟩
  refine ⟨fun n => ?_, ?_, fun n hunheard => ?_⟩
  · have hsum := sum_update (Thread.owns n) s.threads i thread
    have hlocal := hthread.owns (h.owns_le i) n
    have howned := h.owned n
    unfold State.owners at howned ⊢
    rw [hthreads]
    omega
  · have hsum := sum_update Thread.tokens s.threads i thread
    have hlocal := hthread.tokens (h.tokens_le i)
    have hcounted := h.counted
    unfold State.tokens at hcounted ⊢
    rw [hthreads]
    omega
  · rcases hthread.word n with ⟨rfl, hword⟩ | ⟨rfl, hword⟩ | ⟨htug, hopened, hword⟩
    · -- the tug marks a scheduled node, or it wins one that has no owner
      rw [hword, Word.tug]
      cases hs : (s.shared.words n).scheduled with
      | true => exact ⟨rfl, .inl rfl⟩
      | false =>
        refine ⟨rfl, .inr fun t ht => ?_⟩
        obtain ⟨t', ht'⟩ := hopens n (by simp) t ht
        rw [h.scheduled_of_opens ht'] at hs
        cases hs
    · rcases unanswered_concat hunheard with hreq | ⟨-, hans⟩
      · cases hreq
      · exact absurd rfl hans
    · rcases unanswered_concat hunheard with hreq | ⟨hunheard, -⟩
      · exact absurd hreq htug
      obtain ⟨hsched, hdirty⟩ := h.heard n hunheard
      rcases hword with hword | ⟨hself, hclean, -⟩
      · rw [hword]
        refine ⟨hsched, hdirty.imp_right fun hnone t ht => ?_⟩
        obtain ⟨t', ht'⟩ := hopens n hopened t ht
        exact hnone t' ht'
      · -- the node is tied off only while its word is clean
        rcases hdirty with hdirty | hnone
        · rw [hclean] at hdirty
          cases hdirty
        · exact absurd hself (hnone i)

theorem inv_run (h : (weft T N).Run tr s) : Inv tr s :=
  h.invariant (fun _ => inv_init) fun _ _ _ _ => inv_step

/-- A pass that is running. -/
def Frame.inPass (f : Frame N) : Bool :=
  match f.pc with
  | .shuttle _ | .tug _ _ => true
  | .openShed | .tieLoad | .tie _ | .countDown => false

/-- The passes of `n` that a thread is running. -/
def Thread.passes (n : N) : Thread N → Nat
  | .worker frames => frames.countP fun f => f.id = n ∧ f.inPass = true
  | .panicked _ | .host _ => 0

theorem Thread.passes_le_owns (n : N) (t : Thread N) : t.passes n ≤ t.owns n := by
  cases t with
  | worker frames =>
    simp only [Thread.passes, Thread.owns]
    induction frames with
    | nil => exact Nat.le_refl 0
    | cons f frames ih =>
      have hf : (if f.id = n ∧ f.inPass = true then 1 else 0) ≤ f.owns n := by
        split
        · obtain ⟨m, d, pc⟩ := f
          rename_i h
          obtain ⟨rfl, hpass⟩ := h
          cases pc <;> simp [Frame.inPass, Frame.owns, one] at hpass ⊢
          omega
        · exact zero_le _
      rw [countP_cons, map_cons, sum_cons]
      simp only [decide_eq_true_eq]
      omega
  | panicked | host => exact zero_le _

/-- The passes of `n` that are running. -/
def State.passes (s : State T N) (n : N) : Nat := ∑ t, (s.threads t).passes n

omit [DecidableEq T] in
theorem Inv.passes_le (h : Inv tr s) (n : N) : s.passes n ≤ 1 := by
  have hsum : s.passes n ≤ ∑ t, (s.threads t).owns n :=
    Finset.sum_le_sum fun t _ => Thread.passes_le_owns n (s.threads t)
  have howned := h.owned n
  have hle := toNat_le (s.shared.words n).scheduled
  unfold State.owners at howned
  omega

/-- No node is scheduled, queued or running. -/
def Quiescent (s : State T N) : Prop :=
  (∀ n, (s.shared.words n).scheduled = false) ∧ s.shared.queue = [] ∧
    ∀ t, (s.threads t).frames = []

/-- The counter is zero and no host thread is about to raise it. -/
def Calm (s : State T N) : Prop :=
  s.shared.outstanding = 0 ∧ ∀ t n, s.threads t ≠ .host (.tug (.count n))

omit [DecidableEq N] in
theorem tokens_pos (f : Frame N) : 1 ≤ f.tokens := by
  unfold Frame.tokens
  split <;> omega

omit [DecidableEq N] in
theorem frames_of_tokens {t : Thread N} (h : t.tokens = 0) : t.frames = [] := by
  have hnil (frames : List (Frame N)) (h : (frames.map Frame.tokens).sum = 0) : frames = [] := by
    cases frames with
    | nil => rfl
    | cons f frames =>
      have := tokens_pos f
      rw [map_cons, sum_cons] at h
      omega
  cases t with
  | worker frames => exact hnil frames h
  | panicked frames => exact hnil frames h
  | host h => rfl

omit [DecidableEq T] in
theorem Inv.calm_parts (h : Inv tr s) (hzero : s.shared.outstanding = 0) :
    s.shared.queue = [] ∧ ∀ t, (s.threads t).tokens = 0 := by
  have hcounted := h.counted
  rw [hzero, State.tokens] at hcounted
  refine ⟨length_eq_zero_iff.mp (by omega), fun t => ?_⟩
  have := h.tokens_le t
  omega

omit [DecidableEq T] in
/-- **A zero counter means stillness exactly when no host thread has won a node that it has not
counted.** -/
theorem Inv.quiescent_iff (h : Inv tr s) (hzero : s.shared.outstanding = 0) :
    Quiescent s ↔ ∀ t n, s.threads t ≠ .host (.tug (.count n)) := by
  obtain ⟨hqueue, htokens⟩ := h.calm_parts hzero
  constructor
  · rintro ⟨hidle, -, -⟩ t n ht
    have hle := h.owns_le t n
    rw [hidle n, ht] at hle
    simp [Thread.owns, Host.owns, Tug.owns, one] at hle
  · intro hnone
    refine ⟨fun n => ?_, hqueue, fun t => frames_of_tokens (htokens t)⟩
    have howns (t : T) : (s.threads t).owns n = 0 := by
      have hframes := frames_of_tokens (htokens t)
      have htok := htokens t
      have hcount := hnone t
      generalize s.threads t = thread at hframes htok hcount
      cases thread with
      | worker frames =>
        obtain rfl : frames = [] := hframes
        rfl
      | panicked frames =>
        obtain rfl : frames = [] := hframes
        rfl
      | host pc =>
        cases pc with
        | tug t =>
          cases t with
          | load | swap => rfl
          | count m => exact absurd rfl (hcount m)
          | place m => cases htok
        | outside | await | awaitFailed | awaited => rfl
    have howned := h.owned n
    rw [State.owners, hqueue, Finset.sum_eq_zero fun t _ => howns t] at howned
    cases hs : (s.shared.words n).scheduled
    · rfl
    · rw [hs] at howned
      cases howned

/-- Tugs from outside the pool keep clear of `await_stillness`: it does not find the counter at zero
while a host thread has won a node that it has not counted, and no host thread wins a node while
`await_stillness` is about to return. -/
def Apart (s : State T N) (e : T × Event N) (s' : State T N) : Prop :=
  (s.threads e.1 = .host .await → s'.threads e.1 = .host .awaited →
    ∀ t n, s.threads t ≠ .host (.tug (.count n))) ∧
  ∀ n, s'.threads e.1 = .host (.tug (.count n)) → ∀ t, s.threads t ≠ .host .awaited

omit [Fintype T] in
theorem ThreadStep.failed {sh sh' : Shared N} {e : Event N} (h : ThreadStep sh t e sh' t')
    (hfailed : sh'.failed = false) : sh.failed = false := by
  have htug {t : Tug N} {t' : Option (Tug N)} (h : TugStep sh t e sh' t') : sh.failed = false := by
    cases h <;> exact hfailed
  cases h with
  | @frame f frames new _ _ h =>
    cases h with
    | tugging h => exact htug h
    | tugged h => exact htug h
    | fail => cases hfailed
    | _ => exact hfailed
  | host h =>
    cases h with
    | tugging h => exact htug h
    | tugged h => exact htug h
    | _ => exact hfailed
  | fail => cases hfailed
  | take | panic | stop => exact hfailed

omit [Fintype T] in
theorem ThreadStep.returned {sh sh' : Shared N} (h : ThreadStep sh t (.returned true) sh' t') :
    t = .host .awaited ∧ sh.failed = false ∧ sh' = sh ∧ t' = .host .outside := by
  generalize he : Event.returned true = e at h
  have htug {t : Tug N} {t' : Option (Tug N)} (h : TugStep sh t e sh' t') : False := by
    cases h <;> cases he
  cases h with
  | frame h =>
    cases h with
    | tugging h => exact absurd h htug
    | tugged h => exact absurd h htug
    | _ => cases he
  | host h =>
    cases h with
    | returns =>
      obtain hok := Event.returned.inj he
      exact ⟨rfl, by simpa using hok.symm, rfl, rfl⟩
    | tugging h => exact absurd h htug
    | tugged h => exact absurd h htug
    | _ => cases he
  | take | panic | fail | stop => cases he

/-- In calm, only a host thread that wins a node can end it. -/
theorem Inv.calm_step (h : Inv tr s) (hcalm : Calm s) {i : T} {e : Event N} {sh : Shared N}
    {thread : Thread N} (hstep : ThreadStep s.shared (s.threads i) e sh thread)
    (hwin : ∀ n, thread ≠ .host (.tug (.count n))) :
    Calm ⟨sh, update s.threads i thread⟩ := by
  obtain ⟨hqueue, htokens⟩ := h.calm_parts hcalm.1
  have hself := htokens i
  have hcount := hcalm.2 i
  refine ⟨?_, fun t n => ?_⟩
  · show sh.outstanding = 0
    rw [← hcalm.1]
    generalize s.threads i = self at hself hcount hstep
    cases hstep with
    | take => rfl
    | @frame f frames =>
      have := tokens_pos f
      simp only [Thread.tokens, map_cons, sum_cons] at hself
      omega
    | panic | fail | stop => rfl
    | host hstep =>
      cases hstep with
      | tugging htug =>
        cases htug with
        | count m => exact absurd rfl (hcount m)
        | load | won | retry => rfl
      | tugged htug =>
        cases htug
        rfl
      | tug | spool | await | still | busy | stopped | wait | returns | drop => rfl
  · by_cases hti : t = i
    · rw [hti]
      show update s.threads i thread i ≠ _
      rw [update_self]
      exact hwin n
    · show update s.threads i thread t ≠ _
      rw [update_of_ne hti]
      exact hcalm.2 t n

/-- While tugs keep clear, `await_stillness` leaves its loop without a failure only in calm. -/
theorem calm_of_awaited (h : ((weft T N).restrict Apart).Run tr s) :
    ∀ t, s.threads t = .host .awaited → s.shared.failed = false → Calm s := by
  induction h with
  | init hinit =>
    intro t ht
    rcases hinit.2 t with h | h <;> rw [h] at ht <;> cases ht
  | @step tr s s' e hrun hstep ih =>
    intro t ht hfailed
    obtain ⟨i, ev⟩ := e
    obtain ⟨⟨thread, hthread, hthreads⟩, hload, hwin⟩ := hstep
    have hself : s'.threads i = thread := by rw [hthreads, update_self]
    have hbefore := hthread.failed hfailed
    have hinv := inv_run hrun.of_restrict
    have hcalm : Calm s := by
      by_cases hti : t = i
      · -- the step is the one that leaves the loop
        rw [hti] at ht
        have hthread' := hthread
        rw [← hself, ht] at hthread'
        generalize hfrom : s.threads i = self at hthread'
        generalize s'.shared = sh' at hthread'
        cases hthread' with
        | host hstep =>
          cases hstep with
          | still hzero => exact ⟨hzero, hload hfrom ht⟩
          | stopped hstop =>
            rw [hbefore] at hstop
            cases hstop
      · rw [hthreads, update_of_ne hti] at ht
        exact ih t ht hbefore
    have hnowin : ∀ n, thread ≠ .host (.tug (.count n)) := by
      intro n hn
      have hclear := hwin n (hself.trans hn)
      by_cases hti : t = i
      · rw [hti, hself, hn] at ht
        cases ht
      · rw [hthreads, update_of_ne hti] at ht
        exact hclear t ht
    have hstate : s' = ⟨s'.shared, update s.threads i thread⟩ := by
      rw [← hthreads]
    rw [hstate]
    exact hinv.calm_step hcalm hthread hnowin

/-- **The wakeup protocol.** In every run at most one pass of a node is running, every tug of an idle
node has been followed by the start of a pass, and a zero counter means stillness exactly when no
host thread has won a node that it has not counted; where tugs from outside the pool keep clear of
`await_stillness`, it returns without a failure only in stillness. -/
theorem wakeup_protocol (h : (weft T N).Run tr s) :
    (∀ n, s.passes n ≤ 1) ∧
    (∀ n, (s.shared.words n).scheduled = false → ∀ before after t,
      tr = before ++ (t, .tugged n) :: after → ∃ e ∈ after, e.2 = .opened n) ∧
    (s.shared.outstanding = 0 →
      (Quiescent s ↔ ∀ t n, s.threads t ≠ .host (.tug (.count n)))) ∧
    (((weft T N).restrict Apart).Run tr s →
      ∀ t s', (weft T N).step s (t, .returned true) s' → Quiescent s') := by
  have hinv := inv_run h
  refine ⟨hinv.passes_le, ?_, hinv.quiescent_iff, ?_⟩
  · intro n hidle before after t htr
    have hheard : ¬ Unheard n tr := by
      intro hunheard
      rw [(hinv.heard n hunheard).1] at hidle
      cases hidle
    exact answered_of_not_unanswered hheard htr rfl
  · rintro hclear t s' ⟨thread, hstep, hthreads⟩
    obtain ⟨hawaited, hfailed, hshared, rfl⟩ := hstep.returned
    have hcalm := calm_of_awaited hclear t hawaited hfailed
    obtain ⟨hidle, hqueue, hframes⟩ := (hinv.quiescent_iff hcalm.1).mpr hcalm.2
    refine ⟨fun n => by rw [hshared]; exact hidle n, by rw [hshared]; exact hqueue, fun u => ?_⟩
    rw [hthreads]
    by_cases hut : u = t
    · rw [hut]
      simp only [update_self]
      rfl
    · rw [update_of_ne hut]
      exact hframes u

omit [Fintype T] in
theorem step_thread {i : T} {e : Event N} {sh : Shared N} {thread : Thread N}
    (hstep : ThreadStep s.shared (s.threads i) e sh thread) :
    (weft T N).step s (i, e) ⟨sh, update s.threads i thread⟩ :=
  ⟨thread, hstep, rfl⟩

end Runs

/-- A worker and two host threads before anything has happened. -/
def atRest : State (Fin 3) Unit :=
  ⟨⟨fun _ => {}, [], 0, false, false⟩, fun t => if t = 0 then .worker [] else .host .outside⟩

theorem atRest_run : (weft (Fin 3) Unit).Run [] atRest := by
  refine .init ⟨rfl, fun t => ?_⟩
  by_cases ht : t = 0
  · exact .inl (if_pos ht)
  · exact .inr (if_neg ht)

/-- A host thread tugs the node, and a worker takes it, runs its pass and ties it off. -/
theorem wakeup_of_tugged_pass : ∃ tr s before after, (weft (Fin 3) Unit).Run tr s ∧
    tr = before ++ (1, .tugged ()) :: after ∧ (∃ e ∈ after, e.2 = .opened ()) ∧
    (∀ n, s.passes n ≤ 1) ∧ Quiescent s := by
  have h := (((((((((((atRest_run.step (@step_thread _ _ _ _ _ 1 _ _ _ (.host (.tug ())))).step
    (@step_thread _ _ _ _ _ 1 _ _ _ (.host (.tugging (.load ()))))).step
    (@step_thread _ _ _ _ _ 1 _ _ _ (.host (.tugging (.won () {} rfl rfl))))).step
    (@step_thread _ _ _ _ _ 1 _ _ _ (.host (.tugging (.count ()))))).step
    (@step_thread _ _ _ _ _ 1 _ _ _ (.host (.spool ())))).step
    (@step_thread _ _ _ _ _ 0 _ _ _ (.take () [] rfl rfl))).step
    (@step_thread _ _ _ _ _ 0 _ _ _ (.frame (.openShed () 0)))).step
    (@step_thread _ _ _ _ _ 0 _ _ _ (.frame (.passOver () 0)))).step
    (@step_thread _ _ _ _ _ 0 _ _ _ (.frame (.tieLoad () 0)))).step
    (@step_thread _ _ _ _ _ 0 _ _ _ (.frame (.tieOff () 0 _ rfl rfl)))).step
    (@step_thread _ _ _ _ _ 0 _ _ _ (.frame (.countDown () 0))))
  obtain ⟨hpasses, htug, hstill, -⟩ := wakeup_protocol h
  exact ⟨_, _, [(1, .silent), (1, .silent)], _, h, rfl,
    htug () rfl [(1, .silent), (1, .silent)] _ 1 rfl, hpasses, (hstill rfl).mpr (by decide)⟩

/-- One host thread has won the node and not yet counted it when another finds the counter at zero:
`await_stillness` returns with the node scheduled. -/
theorem stillness_before_count : ∃ tr s s', (weft (Fin 3) Unit).Run tr s ∧
    (weft (Fin 3) Unit).step s (2, .returned true) s' ∧ ¬ Quiescent s' := by
  have h := ((((atRest_run.step (@step_thread _ _ _ _ _ 1 _ _ _ (.host (.tug ())))).step
    (@step_thread _ _ _ _ _ 1 _ _ _ (.host (.tugging (.load ()))))).step
    (@step_thread _ _ _ _ _ 1 _ _ _ (.host (.tugging (.won () {} rfl rfl))))).step
    (@step_thread _ _ _ _ _ 2 _ _ _ (.host .await))).step
    (@step_thread _ _ _ _ _ 2 _ _ _ (.host (.still rfl)))
  refine ⟨_, _, _, h, @step_thread _ _ _ _ _ 2 _ _ _ (.host .returns), ?_⟩
  rintro ⟨hidle, -, -⟩
  cases hidle ()

end GrokCodec.Weft
