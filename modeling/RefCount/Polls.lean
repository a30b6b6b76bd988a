import RefCount.Steps

/-!
# Which thread polls which future

A poll borrows its future until it returns, so a future that a program counter
speaks of exists, is being polled by that thread and by no other, and has the
shape the place in the code supposes. What a step does to the futures that are
not its own is at most to clear a flag.
-/

namespace RefCount

/-! ## Shapes of futures -/

inductive FutKind where
  | ref
  | blockedRefs
  | waiting
  | elsewhere
  | owning
  deriving DecidableEq, Repr

/-- A `FutureExclusiveRef` is `waiting` while it has its inner future, and `elsewhere`
if that is one of another `RefCount`. -/
def Fut.kind : Fut → FutKind
  | .ref _ => .ref
  | .blockedRefs _ => .blockedRefs
  | .exclusiveRef ⟨some (.this _)⟩ => .waiting
  | .exclusiveRef ⟨some .other⟩ => .elsewhere
  | .exclusiveRef ⟨none⟩ => .owning

@[elab_as_elim]
theorem Fut.shapes {motive : Fut → Prop} (ref : ∀ x, motive (.ref x)) (blockedRefs : ∀ x, motive (.blockedRefs x))
    (waiting : ∀ x, motive (.exclusiveRef ⟨some (.this x)⟩)) (elsewhere : motive (.exclusiveRef ⟨some .other⟩))
    (owning : motive (.exclusiveRef ⟨none⟩)) (fut : Fut) : motive fut := by
  cases fut with
  | ref x => exact ref x
  | blockedRefs x => exact blockedRefs x
  | exclusiveRef fut =>
    obtain ⟨_ | ⟨x | _⟩⟩ := fut
    · exact owning
    · exact waiting x
    · exact elsewhere

@[simp] theorem kind_setRegistered (fut : Fut) (b : Bool) : (fut.setRegistered b).kind = fut.kind := by
  cases fut using Fut.shapes <;> rfl

def FutKind.hasFlag : FutKind → Bool
  | .elsewhere => false
  | .owning => false
  | _ => true

theorem registered?_isSome (fut : Fut) : fut.registered?.isSome = fut.kind.hasFlag := by
  cases fut using Fut.shapes <;> rfl

@[simp] theorem registered?_setRegistered (fut : Fut) (b : Bool) :
    (fut.setRegistered b).registered? = if fut.kind.hasFlag then some b else none := by
  cases fut using Fut.shapes <;> rfl

/-! ## The future of a program counter -/

def IncrOp.polls : IncrOp → Option FutId
  | .pollRef f _ => some f
  | _ => none

def BlockOp.polls : BlockOp → Option FutId
  | .pollBlockedRefs f _ => some f
  | .pollExclusiveRef f _ => some f
  | _ => none

def CheckOp.polls : CheckOp → Option FutId
  | .pollExclusiveRef f _ => some f
  | _ => none

def WakeOp.polls (x : Waiter) : WakeOp → Option FutId
  | .release _ => none
  | .queueFull => some x.registered

def Pc.polls : Pc → Option FutId
  | .done _ => none
  | .incrLoad op => op.polls
  | .incrCas op _ _ => op.polls
  | .blockLoad op => op.polls
  | .blockCas op _ _ => op.polls
  | .noStandardRefs op => op.polls
  | .releaseStore _ => none
  | .releasePop _ _ => none
  | .wakeSetRegistered op x => op.polls x
  | .wakeWaker op x => op.polls x
  | .refIsBlocked f _ => some f
  | .blockedIsBlocked f _ => some f
  | .registeredLoad f _ => some f
  | .registerPush f _ => some f
  | .registeredStore f _ => some f
  | .wakeByRef f _ => some f
  | .otherPoll f _ => some f

def BlockOp.fits (k : FutKind) : BlockOp → Bool
  | .pollBlockedRefs _ _ => k = .blockedRefs
  | .pollExclusiveRef _ _ => k = .waiting
  | _ => true

/-- The shapes a program counter that polls may find its future in. -/
def Pc.fits (k : FutKind) : Pc → Bool
  | .incrLoad (.pollRef _ _) => k = .ref
  | .incrCas (.pollRef _ _) _ _ => k = .ref
  | .refIsBlocked _ _ => k = .ref
  | .blockLoad op => op.fits k
  | .blockCas op _ _ => op.fits k
  | .noStandardRefs (.pollExclusiveRef _ _) => k = .owning
  | .wakeSetRegistered .queueFull _ => k.hasFlag
  | .wakeWaker .queueFull _ => k.hasFlag
  | .blockedIsBlocked _ _ => k = .blockedRefs ∨ k = .waiting
  | .registeredLoad _ _ => k.hasFlag
  | .registerPush _ _ => k.hasFlag
  | .registeredStore _ _ => k.hasFlag
  | .otherPoll _ _ => k = .elsewhere
  | _ => true

@[simp] theorem pollStart_polls (f : FutId) (w : Waker) (fut : Fut) : (pollStart f w fut).polls = some f := by
  cases fut using Fut.shapes <;> rfl

@[simp] theorem pollStart_fits (f : FutId) (w : Waker) (fut : Fut) : (pollStart f w fut).fits fut.kind = true := by
  cases fut using Fut.shapes <;> rfl

theorem Begins.polls {c : Call} {p : Pc} (h : Begins c p) : p.polls = none := by
  cases h <;> rfl

section
variable {cfg : Config} {s : Sys} {p q : Pc}

theorem Jump.polls {b : Bool} (h : Jump cfg s b p q) {f : FutId} (hq : q.polls = some f) : p.polls = some f := by
  cases h <;> exact hq

theorem Jump.polls_of {b : Bool} (h : Jump cfg s b p q) {f : FutId} (hp : p.polls = some f) : q.polls = some f := by
  cases h <;> exact hp

theorem Jump.fits {b : Bool} (h : Jump cfg s b p q) {k : FutKind} (hp : p.fits k = true) : q.fits k = true := by
  cases h with
  | incrLoad _ => rename_i op _ _; cases op <;> exact hp
  | incrRetry _ _ _ => rename_i op _ _ _ _ _ _; cases op <;> exact hp
  | pollBlockedRefsFail _ => exact decide_eq_true (.inl (of_decide_eq_true hp))
  | pollExclusiveRefFail _ => exact decide_eq_true (.inr (of_decide_eq_true hp))
  | refBlocked _ => rw [of_decide_eq_true hp]; rfl
  | blockedBlocked _ => rcases of_decide_eq_true hp with rfl | rfl <;> rfl
  | _ => first | rfl | exact hp

theorem Requests.polls {fut : Fut} {h : Bool} (hr : Requests s p fut h) : p.polls = none := by
  cases hr <;> rfl

theorem Adds.polls {op : IncrOp} (h : Adds p op) : p.polls = op.polls := by
  cases h <;> rfl

end

theorem IncrOp.Plain.polls {op : IncrOp} (h : op.Plain) : op.polls = none := by
  cases h <;> rfl

theorem CheckOp.Plain.polls {op : CheckOp} (h : op.Plain) : op.polls = none := by
  cases h <;> rfl

theorem Asks.polls {op : BlockOp} {q : CheckOp} (h : Asks op q) : op.polls = none ∧ q.polls = none := by
  cases h <;> exact ⟨rfl, rfl⟩

theorem Blocks.polls {op : BlockOp} {r : Res} (h : Blocks op r) : op.polls = none := by
  cases h <;> rfl

/-! ## The call of a program counter -/

def IncrOp.call : IncrOp → Call
  | .getRef => .getRef
  | .tryGetRef => .tryGetRef
  | .blockingGetRef => .blockingGetRef
  | .pollRef f w => .poll f w

def BlockOp.call : BlockOp → Call
  | .tryBlockRefs => .tryBlockRefs
  | .blockRefs => .blockRefs
  | .getExclusiveRef => .getExclusiveRef
  | .tryGetExclusiveRef => .tryGetExclusiveRef
  | .blockingGetExclusiveRef => .blockingGetExclusiveRef
  | .pollBlockedRefs f w => .poll f w
  | .pollExclusiveRef f w => .poll f w

def CheckOp.call : CheckOp → Call
  | .getExclusiveRef => .getExclusiveRef
  | .tryGetExclusiveRef _ => .tryGetExclusiveRef
  | .blockingGetExclusiveRef => .blockingGetExclusiveRef
  | .pollExclusiveRef f w => .poll f w

def ReleaseOp.call : ReleaseOp → Call
  | .unblockRefs => .unblockRefs
  | .dropExclusiveRef => .dropExclusiveRef
  | .tryGetExclusiveRef => .tryGetExclusiveRef

def WakeOp.call (x : Waiter) : WakeOp → Call
  | .release op => op.call
  | .queueFull => .poll x.registered x.waker

def Pc.call : Pc → Option Call
  | .done _ => none
  | .incrLoad op => some op.call
  | .incrCas op _ _ => some op.call
  | .blockLoad op => some op.call
  | .blockCas op _ _ => some op.call
  | .noStandardRefs op => some op.call
  | .releaseStore op => some op.call
  | .releasePop op _ => some op.call
  | .wakeSetRegistered op x => some (op.call x)
  | .wakeWaker op x => some (op.call x)
  | .refIsBlocked f w => some (.poll f w)
  | .blockedIsBlocked f w => some (.poll f w)
  | .registeredLoad f w => some (.poll f w)
  | .registerPush f w => some (.poll f w)
  | .registeredStore f w => some (.poll f w)
  | .wakeByRef f w => some (.poll f w)
  | .otherPoll f w => some (.poll f w)

@[simp] theorem pollStart_call (f : FutId) (w : Waker) (fut : Fut) :
    (pollStart f w fut).call = some (.poll f w) := by
  cases fut using Fut.shapes <;> rfl

theorem Begins.call {c : Call} {p : Pc} (h : Begins c p) : p.call = some c := by
  cases h <;> rfl

theorem Jump.call {cfg : Config} {s : Sys} {b : Bool} {p q : Pc} (h : Jump cfg s b p q) {c : Call} (hq : q.call = some c) :
    p.call = some c := by
  cases h <;> first | exact hq | exact nomatch hq

theorem Asks.call {op : BlockOp} {q : CheckOp} (h : Asks op q) : q.call = op.call := by
  cases h <;> rfl

def Sys.idle (s : Sys) : Prop := ∀ t, ∃ r, s.pc t = .done r

/-! ## What a step leaves alone -/

/-- The thread that makes a step; a call is one of the caller. -/
def Act.thread? : Act → Option ThreadId
  | .call t _ => some t
  | .step t _ => some t
  | _ => none

section
variable {cfg : Config} {s s' : Sys} {a : Act}

theorem Step.pc_frame (h : Step cfg s a s') {u : ThreadId} (hu : a.thread? ≠ some u) : s'.pc u = s.pc u := by
  cases h with
  | dropRef => rfl
  | forgetRef => rfl
  | dropFuture => rfl
  | newFuture _ => rfl
  | _ =>
    have hne : ¬ u = _ := fun e => hu (e ▸ rfl)
    first
      | exact (setPc_pc _ _ _ _).trans (if_neg hne)

theorem Step.call (h : Step cfg s a s') {t : ThreadId} {c : Call} (ht : (s'.pc t).call = some c) :
    (s.pc t).call = some c ∨ a = .call t c := by
  by_cases ha : a.thread? = some t
  · cases h with
    | begin _ hb => cases ha; rw [setPc_self, hb.call] at ht; cases ht; exact .inr rfl
    | beginUnblock _ _ => cases ha; rw [setPc_self] at ht; cases ht; exact .inr rfl
    | beginDrop _ _ => cases ha; rw [setPc_self] at ht; cases ht; exact .inr rfl
    | beginPoll _ _ _ => cases ha; rw [setPc_self, pollStart_call] at ht; cases ht; exact .inr rfl
    | jump hj => cases ha; rw [setPc_self] at ht; exact .inl (hj.call ht)
    | blockAsk hpc hq _ =>
      cases ha
      rw [setPc_self, Pc.call, hq.call] at ht
      rw [hpc]; exact .inl ht
    | blockPollExclusive hpc _ => cases ha; rw [setPc_self] at ht; rw [hpc]; exact .inl ht
    | release hpc => cases ha; rw [setPc_self] at ht; rw [hpc]; exact .inl ht
    | pop hpc _ => cases ha; rw [setPc_self] at ht; rw [hpc]; exact .inl ht
    | clear hpc => cases ha; rw [setPc_self] at ht; rw [hpc]; exact .inl ht
    | wakeDrain hpc => cases ha; rw [setPc_self] at ht; rw [hpc]; exact .inl ht
    | push hpc _ => cases ha; rw [setPc_self] at ht; rw [hpc]; exact .inl ht
    | otherReady hpc => cases ha; rw [setPc_self] at ht; rw [hpc]; exact .inl ht
    | dropRef => cases ha
    | forgetRef => cases ha
    | dropFuture => cases ha
    | newFuture hn => cases hn <;> cases ha
    | _ => cases ha; simp [Pc.call] at ht
  · rw [h.pc_frame ha] at ht
    exact .inl ht

end

/-! ## What a step does to a future -/

/-- The poll of `f` is about to return `Pending` and to leave the flag as it is. -/
inductive Suspends (s : Sys) : Pc → FutId → Waker → Prop
  | registered {f : FutId} {w : Waker} : s.registered? f = some true → Suspends s (.registeredLoad f w) f w
  | queueFull {y : Waiter} : Suspends s (.wakeWaker .queueFull y) y.registered y.waker
  | yield {f : FutId} {w : Waker} : Suspends s (.wakeByRef f w) f w

/-- What becomes of future `f` in a step that does not drop it. -/
inductive Evolves (s : Sys) : Act → FutId → FutRec → FutRec → Prop
  | same {a : Act} {f : FutId} {x : FutRec} : Evolves s a f x x
  | clear {t : ThreadId} {b : Bool} {op : WakeOp} {y : Waiter} {x : FutRec} : s.pc t = .wakeSetRegistered op y →
      Evolves s (.step t b) y.registered x (x.setRegistered false)
  | begin {t : ThreadId} {f : FutId} {w : Waker} {x : FutRec} : x.status.isPolling = false →
      Evolves s (.call t (.poll f w)) f x (x.beginPoll t w s.wakes.length)
  | finish {t : ThreadId} {b : Bool} {f : FutId} {x : FutRec} : (s.pc t).polls = some f →
      Evolves s (.step t b) f x x.finish
  | block {t : ThreadId} {f : FutId} {w : Waker} {n : Nat} {l : BlockPair} {x : FutRec} :
      s.pc t = .blockCas (.pollExclusiveRef f w) n l → s.count = l.refCount →
      Evolves s (.step t false) f x x.setBlocked
  | suspend {t : ThreadId} {b : Bool} {f : FutId} {w : Waker} {x : FutRec} : Suspends s (s.pc t) f w →
      Evolves s (.step t b) f x (x.setStatus .pending)
  | store {t : ThreadId} {b : Bool} {f : FutId} {w : Waker} {x : FutRec} : s.pc t = .registeredStore f w →
      Evolves s (.step t b) f x x.register
  | elsewhere {t : ThreadId} {b : Bool} {f : FutId} {w : Waker} {x : FutRec} : s.pc t = .otherPoll f w →
      Evolves s (.step t b) f x (x.setStatus .elsewhere)
  | dropInner {t : ThreadId} {b : Bool} {f : FutId} {w : Waker} {x : FutRec} : s.pc t = .otherPoll f w →
      Evolves s (.step t b) f x x.dropInner

section
variable {cfg : Config} {s s' : Sys} {a : Act}

theorem Suspends.polls {p : Pc} {f : FutId} {w : Waker} (h : Suspends s p f w) : p.polls = some f := by
  cases h <;> rfl

theorem modifyFut_evolves {f g : FutId} {x : FutRec} {k : FutRec → FutRec} (hx : s.futs f = some x)
    (hg : f = g → Evolves s a f x (k x)) : ∃ x', (s.modifyFut g k).futs f = some x' ∧ Evolves s a f x x' := by
  rw [modifyFut_futs]
  by_cases e : f = g
  · refine ⟨k x, ?_, hg e⟩
    subst e
    rw [if_pos rfl, hx]; rfl
  · exact ⟨x, by rw [if_neg e, hx], .same⟩

theorem Step.evolves (h : Step cfg s a s') {f : FutId} {x : FutRec} (hx : s.futs f = some x) (hn : f < s.nextFut) :
    (a = .dropFuture f ∧ x.status.isPolling = false ∧ s'.futs f = none) ∨
      ∃ x', s'.futs f = some x' ∧ Evolves s a f x x' := by
  have hne := Nat.ne_of_lt hn
  cases h with
  | beginPoll hpc hy hs =>
    refine .inr (modifyFut_evolves hx ?_)
    rintro rfl
    rw [hx, Option.some.injEq] at hy
    subst hy; exact .begin hs
  | request _ => exact .inr ⟨x, by simp [hne, hx], .same⟩
  | panicPoll ha _ => exact .inr (modifyFut_evolves hx fun e => .finish (by rw [ha.polls, e]; rfl))
  | acquirePoll hpc _ => exact .inr (modifyFut_evolves hx fun e => .finish (by rw [hpc, e]; rfl))
  | blockPollBlocked hpc _ => exact .inr (modifyFut_evolves hx fun e => .finish (by rw [hpc, e]; rfl))
  | blockPollExclusive hpc hc => exact .inr (modifyFut_evolves hx fun e => .block (e ▸ hpc) hc)
  | grantPoll hpc _ => exact .inr (modifyFut_evolves hx fun e => .finish (by rw [hpc, e]; rfl))
  | clear hpc =>
    refine .inr (modifyFut_evolves hx ?_)
    rintro rfl
    exact .clear hpc
  | wakeFull hpc =>
    refine .inr (modifyFut_evolves hx ?_)
    rintro rfl
    exact .suspend (by rw [hpc]; exact .queueFull)
  | registered hpc hr => exact .inr (modifyFut_evolves hx fun e => .suspend (by rw [hpc, e]; exact .registered hr))
  | register hpc =>
    refine .inr (modifyFut_evolves hx ?_)
    rintro rfl
    exact .store hpc
  | yield hpc => exact .inr (modifyFut_evolves hx fun e => .suspend (by rw [hpc, e]; exact .yield))
  | otherPending hpc => exact .inr (modifyFut_evolves hx fun e => .elsewhere (e ▸ hpc))
  | otherReady hpc => exact .inr (modifyFut_evolves hx fun e => .dropInner (e ▸ hpc))
  | dropFuture hy hs =>
    rename_i g y
    by_cases e : f = g
    · subst e
      rw [hx, Option.some.injEq] at hy
      subst hy
      exact .inl ⟨rfl, hs, by simp⟩
    · exact .inr ⟨x, by simp [e, hx], .same⟩
  | newFuture _ => exact .inr ⟨x, by simp [hne, hx], .same⟩
  | _ => exact .inr ⟨x, hx, .same⟩

theorem Step.new (h : Step cfg s a s') {f : FutId} {x : FutRec} (hx : s.futs f = none) (hx' : s'.futs f = some x) :
    f = s.nextFut ∧ ∃ fut b, x = ⟨fut, .created, none, 0, b⟩ ∧
      ((∃ t d, a = .step t d ∧ Requests s (s.pc t) fut b) ∨ Constructs a fut ∧ b = false) := by
  have hmod : ∀ {g : FutId} {k : FutRec → FutRec}, (s.modifyFut g k).futs f = none := by
    intro g k
    rw [modifyFut_futs]
    split
    · rename_i e; rw [← e, hx]; rfl
    · exact hx
  cases h with
  | request hr =>
    simp only [Sys.returnFuture, Sys.return, setPc_futs, addFut_futs] at hx'
    split at hx'
    · rename_i e
      cases hx'
      exact ⟨e, _, _, rfl, .inl ⟨_, _, rfl, hr⟩⟩
    · rw [hx] at hx'; cases hx'
  | newFuture hn =>
    rw [addFut_futs] at hx'
    split at hx'
    · rename_i e
      cases hx'
      exact ⟨e, _, _, rfl, .inr ⟨hn, rfl⟩⟩
    · rw [hx] at hx'; cases hx'
  | beginPoll _ _ _ => exact nomatch hmod.symm.trans hx'
  | panicPoll _ _ => exact nomatch hmod.symm.trans hx'
  | acquirePoll _ _ => exact nomatch hmod.symm.trans hx'
  | blockPollBlocked _ _ => exact nomatch hmod.symm.trans hx'
  | blockPollExclusive _ _ => exact nomatch hmod.symm.trans hx'
  | grantPoll _ _ => exact nomatch hmod.symm.trans hx'
  | clear _ => exact nomatch hmod.symm.trans hx'
  | wakeFull _ => exact nomatch hmod.symm.trans hx'
  | registered _ _ => exact nomatch hmod.symm.trans hx'
  | register _ => exact nomatch hmod.symm.trans hx'
  | yield _ => exact nomatch hmod.symm.trans hx'
  | otherPending _ => exact nomatch hmod.symm.trans hx'
  | otherReady _ => exact nomatch hmod.symm.trans hx'
  | dropFuture _ _ =>
    simp only [Function.update_apply] at hx'
    split at hx'
    · cases hx'
    · rw [hx] at hx'; cases hx'
  | _ => exact nomatch hx.symm.trans hx'

end

/-! ## The invariant -/

def FutRec.Sound (x : FutRec) : Prop := x.holdsBlock = true → x.fut.kind = .owning

structure Wf (s : Sys) : Prop where
  fresh : ∀ f, s.nextFut ≤ f → s.futs f = none
  sound : ∀ f x, s.futs f = some x → x.Sound
  polls : ∀ t f, (s.pc t).polls = some f →
    ∃ x, s.futs f = some x ∧ x.status = .polling t ∧ (s.pc t).fits x.fut.kind = true

theorem Wf.new : Wf Sys.new := ⟨fun _ _ => rfl, fun _ _ h => (nomatch h), fun _ _ h => nomatch h⟩

theorem Wf.lt {s : Sys} (hw : Wf s) {f : FutId} {x : FutRec} (hx : s.futs f = some x) : f < s.nextFut := by
  rcases Nat.lt_or_ge f s.nextFut with h | h
  · exact h
  · rw [hw.fresh f h] at hx; cases hx

theorem Wf.polled {s : Sys} (hw : Wf s) {t : ThreadId} {f : FutId} {x : FutRec} (hp : (s.pc t).polls = some f)
    (hx : s.futs f = some x) : x.status = .polling t ∧ (s.pc t).fits x.fut.kind = true := by
  obtain ⟨y, hy, hs⟩ := hw.polls t f hp
  rw [hx, Option.some.injEq] at hy
  subst hy; exact hs

theorem Wf.polls_at {s : Sys} (hw : Wf s) {t : ThreadId} {p : Pc} {f : FutId} (hpc : s.pc t = p) (hp : p.polls = some f) :
    ∃ x, s.futs f = some x ∧ x.status = .polling t ∧ p.fits x.fut.kind = true := by
  subst hpc; exact hw.polls t f hp

theorem Wf.polled_at {s : Sys} (hw : Wf s) {t : ThreadId} {p : Pc} {f : FutId} {x : FutRec} (hpc : s.pc t = p)
    (hp : p.polls = some f) (hx : s.futs f = some x) : x.status = .polling t ∧ p.fits x.fut.kind = true := by
  subst hpc; exact hw.polled hp hx

theorem Wf.polls_inj {s : Sys} (hw : Wf s) {t u : ThreadId} {f : FutId} (ht : (s.pc t).polls = some f)
    (hu : (s.pc u).polls = some f) : t = u := by
  obtain ⟨x, hx, hs, _⟩ := hw.polls t f ht
  rw [(hw.polled hu hx).1, FutStatus.polling.injEq] at hs
  exact hs.symm

section
variable {cfg : Config} {s s' : Sys} {a : Act}

theorem Wf.polled_frame (hw : Wf s) (h : Step cfg s a s') {u : ThreadId} {f : FutId} {x : FutRec}
    (hu : a.thread? ≠ some u) (hp : (s.pc u).polls = some f) (hx : s.futs f = some x) :
    s'.futs f = some x ∨ s'.futs f = some (x.setRegistered false) := by
  have hpol : x.status.isPolling = true := by rw [(hw.polled hp hx).1]; rfl
  have hother : ∀ {t b}, a = .step t b → (s.pc t).polls ≠ some f := by
    rintro t b rfl ht
    exact hu (by rw [hw.polls_inj ht hp]; rfl)
  rcases h.evolves hx (hw.lt hx) with ⟨_, hs, _⟩ | ⟨x', hx', he⟩
  · rw [hpol] at hs; cases hs
  · cases he with
    | same => exact .inl hx'
    | clear _ => exact .inr hx'
    | begin hs => rw [hpol] at hs; cases hs
    | finish ht => exact absurd ht (hother rfl)
    | block ht _ => exact absurd (congrArg Pc.polls ht) (hother rfl)
    | suspend ht => exact absurd ht.polls (hother rfl)
    | store ht => exact absurd (congrArg Pc.polls ht) (hother rfl)
    | elsewhere ht => exact absurd (congrArg Pc.polls ht) (hother rfl)
    | dropInner ht => exact absurd (congrArg Pc.polls ht) (hother rfl)

theorem Step.nextFut_le (h : Step cfg s a s') : s.nextFut ≤ s'.nextFut := by
  cases h with
  | request _ => exact Nat.le_succ _
  | newFuture _ => exact Nat.le_succ _
  | _ => exact Nat.le_refl _

theorem Wf.step_fresh (hw : Wf s) (h : Step cfg s a s') (f : FutId) (hf : s'.nextFut ≤ f) : s'.futs f = none := by
  have hf' := hw.fresh f (Nat.le_trans h.nextFut_le hf)
  cases h with
  | request _ =>
    have hne : f ≠ s.nextFut := Nat.ne_of_gt hf
    simp [hf', hne]
  | newFuture _ =>
    have hne : f ≠ s.nextFut := Nat.ne_of_gt hf
    simp [hf', hne]
  | dropFuture _ _ => simp [Function.update_apply, hf']
  | _ =>
    first
      | exact hf'
      | (simp only [setPc_futs, modifyFut_futs, Sys.return, Sys.returnReady, Sys.returnPending]
         split
         · rename_i e; subst e; simp [hf']
         · simp [hf'])

/-- What holds of every future is kept by a step if the changes a step can make to
one future keep it, and new futures have it. -/
theorem Step.futs_all {P : FutRec → Prop} (h : Step cfg s a s') (hw : Wf s) (hp : ∀ f x, s.futs f = some x → P x)
    (hflag : ∀ b x, P x → P (x.setRegistered b)) (hfin : ∀ x, P x → P x.finish)
    (hpend : ∀ t x, x.status = .polling t → P x → P (x.setStatus .pending))
    (hbegin : ∀ t f w x, a = .call t (.poll f w) → s.futs f = some x → P x → P (x.beginPoll t w s.wakes.length))
    (hblock : ∀ t x, x.status = .polling t → x.fut.kind = .waiting → P x → P x.setBlocked)
    (hother : ∀ t x, x.status = .polling t → x.fut.kind = .elsewhere → P x →
      P (x.setStatus .elsewhere) ∧ P x.dropInner)
    (hreq : ∀ t fut b, Requests s (s.pc t) fut b → P ⟨fut, .created, none, 0, b⟩)
    (hnew : ∀ fut, Constructs a fut → P ⟨fut, .created, none, 0, false⟩) (f : FutId) (x' : FutRec)
    (hx' : s'.futs f = some x') : P x' := by
  cases hx : s.futs f with
  | none =>
    obtain ⟨_, fut, b, rfl, ⟨t, _, _, hr⟩ | ⟨hc, rfl⟩⟩ := h.new hx hx'
    · exact hreq t fut b hr
    · exact hnew fut hc
  | some x =>
    have hpx := hp f x hx
    rcases h.evolves hx (hw.lt hx) with ⟨_, _, hn⟩ | ⟨y, hy, he⟩
    · rw [hn] at hx'; cases hx'
    · rw [hy, Option.some.injEq] at hx'
      subst hx'
      cases he with
      | same => exact hpx
      | clear _ => exact hflag false x hpx
      | begin _ => exact hbegin _ f _ x rfl hx hpx
      | finish _ => exact hfin x hpx
      | block ht _ =>
        obtain ⟨hs, hk⟩ := hw.polled_at ht rfl hx
        exact hblock _ x hs (of_decide_eq_true hk) hpx
      | suspend ht => exact hpend _ x (hw.polled ht.polls hx).1 hpx
      | store ht =>
        have hs := (hw.polled_at ht rfl hx).1
        exact hpend _ (x.setRegistered true) hs (hflag true x hpx)
      | elsewhere ht =>
        obtain ⟨hs, hk⟩ := hw.polled_at ht rfl hx
        exact (hother _ x hs (of_decide_eq_true hk) hpx).1
      | dropInner ht =>
        obtain ⟨hs, hk⟩ := hw.polled_at ht rfl hx
        exact (hother _ x hs (of_decide_eq_true hk) hpx).2

theorem Requests.sound {p : Pc} {fut : Fut} {b : Bool} (hr : Requests s p fut b) :
    FutRec.Sound ⟨fut, .created, none, 0, b⟩ := by
  cases hr <;> first | exact fun _ => rfl | exact fun h => nomatch h

theorem FutRec.Sound.setRegistered {x : FutRec} (b : Bool) (h : x.Sound) : (x.setRegistered b).Sound := by
  intro hb
  rw [FutRec.setRegistered, kind_setRegistered]
  exact h hb

theorem Wf.step_sound (hw : Wf s) (h : Step cfg s a s') : ∀ f x, s'.futs f = some x → x.Sound :=
  h.futs_all hw hw.sound (fun b _ hx => hx.setRegistered b) (fun _ _ => nofun) (fun _ _ _ hx => hx)
    (fun _ _ _ _ _ _ hx => hx) (fun _ _ _ _ _ _ => rfl) (fun _ _ _ _ hx => ⟨hx, fun _ => rfl⟩)
    (fun _ _ _ hr => hr.sound) fun _ _ => nofun

theorem modifyFut_idle {f g : FutId} {x' : FutRec} {k : FutRec → FutRec} (e : g = f)
    (hk : ∀ x, (k x).status.isPolling = false) (hx' : (s.modifyFut g k).futs f = some x') :
    x'.status.isPolling = false := by
  rw [modifyFut_futs, if_pos e.symm] at hx'
  obtain ⟨x, _, rfl⟩ := Option.map_eq_some_iff.mp hx'
  exact hk x

theorem Step.poll_ends (h : Step cfg s a s') {t : ThreadId} {f : FutId} (ht : (s.pc t).polls = some f) :
    (s'.pc t).polls = some f ∨ ∀ x', s'.futs f = some x' → x'.status.isPolling = false := by
  by_cases ha : a.thread? = some t
  · cases h with
    | begin hpc _ => cases ha; rw [hpc] at ht; cases ht
    | beginUnblock hpc _ => cases ha; rw [hpc] at ht; cases ht
    | beginDrop hpc _ => cases ha; rw [hpc] at ht; cases ht
    | beginPoll hpc _ _ => cases ha; rw [hpc] at ht; cases ht
    | jump hj => cases ha; rw [setPc_pc, if_pos rfl]; exact .inl (hj.polls_of ht)
    | request hr => cases ha; rw [hr.polls] at ht; cases ht
    | panic hadds hp _ => cases ha; rw [hadds.polls, hp.polls] at ht; cases ht
    | panicPoll hadds _ =>
      cases ha
      rw [hadds.polls] at ht
      exact .inr fun x' => modifyFut_idle (Option.some.inj ht) fun _ => rfl
    | acquire hpc hp _ =>
      cases ha
      rw [hpc, Pc.polls, hp.polls] at ht; cases ht
    | acquirePoll hpc _ =>
      cases ha
      rw [hpc] at ht
      exact .inr fun x' => modifyFut_idle (Option.some.inj ht) fun _ => rfl
    | blockAsk hpc hq _ =>
      cases ha
      rw [hpc, Pc.polls, hq.polls.1] at ht; cases ht
    | blockUser hpc hb _ =>
      cases ha
      rw [hpc, Pc.polls, hb.polls] at ht; cases ht
    | blockPollBlocked hpc _ =>
      cases ha
      rw [hpc] at ht
      exact .inr fun x' => modifyFut_idle (Option.some.inj ht) fun _ => rfl
    | blockPollExclusive hpc _ => cases ha; rw [hpc] at ht; rw [setPc_pc, if_pos rfl]; exact .inl ht
    | grant hpc hp _ =>
      cases ha
      rw [hpc, Pc.polls, hp.polls] at ht; cases ht
    | grantPoll hpc _ =>
      cases ha
      rw [hpc] at ht
      exact .inr fun x' => modifyFut_idle (Option.some.inj ht) fun _ => rfl
    | release hpc => cases ha; rw [hpc] at ht; cases ht
    | pop hpc _ => cases ha; rw [hpc] at ht; cases ht
    | clear hpc => cases ha; rw [hpc] at ht; rw [setPc_pc, if_pos rfl]; exact .inl ht
    | wakeDrain hpc => cases ha; rw [hpc] at ht; cases ht
    | wakeFull hpc =>
      cases ha
      rw [hpc] at ht
      exact .inr fun x' => modifyFut_idle (Option.some.inj ht) fun _ => rfl
    | registered hpc _ =>
      cases ha
      rw [hpc] at ht
      exact .inr fun x' => modifyFut_idle (Option.some.inj ht) fun _ => rfl
    | push hpc _ => cases ha; rw [hpc] at ht; rw [setPc_pc, if_pos rfl]; exact .inl ht
    | register hpc =>
      cases ha
      rw [hpc] at ht
      exact .inr fun x' => modifyFut_idle (Option.some.inj ht) fun _ => rfl
    | yield hpc =>
      cases ha
      rw [hpc] at ht
      exact .inr fun x' => modifyFut_idle (Option.some.inj ht) fun _ => rfl
    | otherPending hpc =>
      cases ha
      rw [hpc] at ht
      exact .inr fun x' => modifyFut_idle (Option.some.inj ht) fun _ => rfl
    | otherReady hpc => cases ha; rw [hpc] at ht; rw [setPc_pc, if_pos rfl]; exact .inl ht
    | dropRef => cases ha
    | forgetRef => cases ha
    | dropFuture => cases ha
    | newFuture hn => cases hn <;> cases ha
  · rw [h.pc_frame ha]
    exact .inl ht

theorem Wf.step (hw : Wf s) (h : Step cfg s a s') : Wf s' := by
  refine ⟨hw.step_fresh h, hw.step_sound h, fun u f hu => ?_⟩
  by_cases ha : a.thread? = some u
  · cases h with
    | begin hpc hb =>
      cases ha
      rw [setPc_pc, if_pos rfl, hb.polls] at hu; cases hu
    | beginPoll hpc hx hs =>
      rename_i t r g w x
      cases ha
      rw [setPc_pc, if_pos rfl, pollStart_polls] at hu
      cases hu
      exact ⟨x.beginPoll u w s.wakes.length, by simp [hx], rfl, by simp [FutRec.beginPoll]⟩
    | jump hj =>
      cases ha
      rw [setPc_pc, if_pos rfl] at hu ⊢
      obtain ⟨x, hx, hs, hk⟩ := hw.polls u f (hj.polls hu)
      exact ⟨x, hx, hs, hj.fits hk⟩
    | blockAsk hpc hq hc =>
      cases ha
      rw [setPc_pc, if_pos rfl] at hu
      exact nomatch hq.polls.2.symm.trans hu
    | blockPollExclusive hpc hc =>
      rename_i t g w n l
      cases ha
      rw [setPc_pc, if_pos rfl] at hu ⊢
      cases hu
      obtain ⟨x, hx, hs, hk⟩ := hw.polls u f (by rw [hpc]; rfl)
      exact ⟨x.setBlocked, by simp [hx], hs, rfl⟩
    | clear hpc =>
      rename_i t b op w
      cases ha
      rw [setPc_pc, if_pos rfl] at hu ⊢
      obtain ⟨x, hx, hs, hk⟩ := hw.polls u f (by rw [hpc]; exact hu)
      have hf : f = w.registered := by
        cases op with
        | release op => cases hu
        | queueFull => exact (Option.some.inj hu).symm
      subst hf
      refine ⟨x.setRegistered false, by simp [hx], hs, ?_⟩
      rw [FutRec.setRegistered, kind_setRegistered]
      rw [hpc] at hk
      cases op <;> exact hk
    | push hpc hl =>
      cases ha
      rw [setPc_pc, if_pos rfl] at hu ⊢
      cases hu
      obtain ⟨x, hx, hs, hk⟩ := hw.polls_at hpc rfl
      exact ⟨x, hx, hs, hk⟩
    | otherReady hpc =>
      cases ha
      rw [setPc_pc, if_pos rfl] at hu ⊢
      cases hu
      obtain ⟨x, hx, hs, _⟩ := hw.polls_at hpc rfl
      exact ⟨x.dropInner, by simp [hx], hs, rfl⟩
    | dropRef => cases ha
    | forgetRef => cases ha
    | dropFuture => cases ha
    | newFuture hn => cases hn <;> cases ha
    | _ => cases ha; simp [Pc.polls, WakeOp.polls] at hu
  · rw [h.pc_frame ha] at hu ⊢
    obtain ⟨x, hx, hs, hk⟩ := hw.polls u f hu
    rcases hw.polled_frame h ha hu hx with hx' | hx'
    · exact ⟨x, hx', hs, hk⟩
    · exact ⟨_, hx', hs, by rw [FutRec.setRegistered, kind_setRegistered]; exact hk⟩

/-- A future that is being polled has its poll in progress. -/
def Polled (s : Sys) : Prop := ∀ f x t, s.futs f = some x → x.status = .polling t → (s.pc t).polls = some f

theorem Polled.step (hw : Wf s) (hp : Polled s) (h : Step cfg s a s') : Polled s' := by
  intro f x' t hx' hs
  have hgoes : ∀ x, s.futs f = some x → x.status = .polling t → (s'.pc t).polls = some f := by
    intro x hx hxs
    rcases h.poll_ends (hp f x t hx hxs) with hpoll | hn
    · exact hpoll
    · have := hn x' hx'
      rw [hs] at this; cases this
  cases hx : s.futs f with
  | none =>
    obtain ⟨_, fut, b, rfl, _⟩ := h.new hx hx'
    cases hs
  | some x =>
    rcases h.evolves hx (hw.lt hx) with ⟨_, _, hn⟩ | ⟨y, hy, he⟩
    · rw [hn] at hx'; cases hx'
    · rw [hy, Option.some.injEq] at hx'
      subst hx'
      cases he with
      | begin _ =>
        cases hs
        cases h with
        | begin _ hb => cases hb
        | newFuture hn => cases hn
        | beginPoll _ _ _ => rw [setPc_pc, if_pos rfl, pollStart_polls]
      | finish _ => cases hs
      | suspend _ => cases hs
      | store _ => cases hs
      | elsewhere _ => cases hs
      | _ => exact hgoes x hx hs

end

end RefCount
