import RefCount.Machine

/-!
# What one step can do

`Step` lists the steps of the machine once, each with what it needs and the state
it leads to; `exec_step` reads them off `exec`. A step that only moves a program
counter is a `Jump`. Every invariant is proved by cases on `Step`.
-/

namespace RefCount

/-! ## Projections of the updates -/

section
variable (s : Sys) (t u : ThreadId) (p : Pc) (f g : FutId) (k : FutRec → FutRec) (fut : Fut) (h : Bool)

@[simp] theorem setPc_pc : (s.setPc t p).pc u = if u = t then p else s.pc u := by
  simp [Sys.setPc, Function.update_apply]
@[simp] theorem setPc_count : (s.setPc t p).count = s.count := rfl
@[simp] theorem setPc_waiterQueue : (s.setPc t p).waiterQueue = s.waiterQueue := rfl
@[simp] theorem setPc_futs : (s.setPc t p).futs = s.futs := rfl
@[simp] theorem setPc_nextFut : (s.setPc t p).nextFut = s.nextFut := rfl
@[simp] theorem setPc_refs : (s.setPc t p).refs = s.refs := rfl
@[simp] theorem setPc_forgotten : (s.setPc t p).forgotten = s.forgotten := rfl
@[simp] theorem setPc_exclusiveRefs : (s.setPc t p).exclusiveRefs = s.exclusiveRefs := rfl
@[simp] theorem setPc_blocks : (s.setPc t p).blocks = s.blocks := rfl
@[simp] theorem setPc_wakes : (s.setPc t p).wakes = s.wakes := rfl

@[simp] theorem modifyFut_futs : (s.modifyFut f k).futs g = if g = f then (s.futs f).map k else s.futs g := by
  simp [Sys.modifyFut, Function.update_apply]
@[simp] theorem modifyFut_pc : (s.modifyFut f k).pc = s.pc := rfl
@[simp] theorem modifyFut_count : (s.modifyFut f k).count = s.count := rfl
@[simp] theorem modifyFut_waiterQueue : (s.modifyFut f k).waiterQueue = s.waiterQueue := rfl
@[simp] theorem modifyFut_nextFut : (s.modifyFut f k).nextFut = s.nextFut := rfl
@[simp] theorem modifyFut_refs : (s.modifyFut f k).refs = s.refs := rfl
@[simp] theorem modifyFut_forgotten : (s.modifyFut f k).forgotten = s.forgotten := rfl
@[simp] theorem modifyFut_exclusiveRefs : (s.modifyFut f k).exclusiveRefs = s.exclusiveRefs := rfl
@[simp] theorem modifyFut_blocks : (s.modifyFut f k).blocks = s.blocks := rfl
@[simp] theorem modifyFut_wakes : (s.modifyFut f k).wakes = s.wakes := rfl

@[simp] theorem addFut_futs : (s.addFut fut h).futs g =
    if g = s.nextFut then some ⟨fut, .created, none, 0, h⟩ else s.futs g := by
  simp [Sys.addFut, Function.update_apply]
@[simp] theorem addFut_pc : (s.addFut fut h).pc = s.pc := rfl
@[simp] theorem addFut_count : (s.addFut fut h).count = s.count := rfl
@[simp] theorem addFut_waiterQueue : (s.addFut fut h).waiterQueue = s.waiterQueue := rfl
@[simp] theorem addFut_nextFut : (s.addFut fut h).nextFut = s.nextFut + 1 := rfl
@[simp] theorem addFut_refs : (s.addFut fut h).refs = s.refs := rfl
@[simp] theorem addFut_forgotten : (s.addFut fut h).forgotten = s.forgotten := rfl
@[simp] theorem addFut_exclusiveRefs : (s.addFut fut h).exclusiveRefs = s.exclusiveRefs := rfl
@[simp] theorem addFut_blocks : (s.addFut fut h).blocks = s.blocks := rfl
@[simp] theorem addFut_wakes : (s.addFut fut h).wakes = s.wakes := rfl

end

theorem setPc_self {s : Sys} (t : ThreadId) (q : Pc) : (s.setPc t q).pc t = q :=
  (setPc_pc s t t q).trans (if_pos rfl)

attribute [simp] Sys.return Sys.returnFuture Sys.returnReady Sys.returnPending

/-! ## Moves of a program counter alone -/

inductive Begins : Call → Pc → Prop
  | getRef : Begins .getRef (.incrLoad .getRef)
  | tryGetRef : Begins .tryGetRef (.incrLoad .tryGetRef)
  | blockingGetRef : Begins .blockingGetRef (.incrLoad .blockingGetRef)
  | getExclusiveRef : Begins .getExclusiveRef (.blockLoad .getExclusiveRef)
  | tryGetExclusiveRef : Begins .tryGetExclusiveRef (.blockLoad .tryGetExclusiveRef)
  | blockingGetExclusiveRef : Begins .blockingGetExclusiveRef (.blockLoad .blockingGetExclusiveRef)
  | tryBlockRefs : Begins .tryBlockRefs (.blockLoad .tryBlockRefs)
  | blockRefs : Begins .blockRefs (.blockLoad .blockRefs)

/-- The moves of a thread alone; `b` is whether its step may fail spuriously. -/
inductive Jump (cfg : Config) (s : Sys) (b : Bool) : Pc → Pc → Prop
  | incrLoad {op : IncrOp} {l : IncrPair} : IncrPair.observe cfg.overflowChecks s.count = some l →
      Jump cfg s b (.incrLoad op) (.incrCas op 0 l)
  | incrRetry {op : IncrOp} {n : Nat} {l l' : IncrPair} : ¬ (s.count = l.refCount ∧ b = false) → n < 3 →
      IncrPair.observe cfg.overflowChecks s.count = some l' →
      Jump cfg s b (.incrCas op n l) (.incrCas op (n + 1) l')
  | tryGetRefNone {n : Nat} {l : IncrPair} : ¬ n < 3 → Jump cfg s b (.incrCas .tryGetRef n l) (.done .none)
  | blockingGetRefLoop {n : Nat} {l : IncrPair} : ¬ n < 3 →
      Jump cfg s b (.incrCas .blockingGetRef n l) (.incrCas .blockingGetRef 0 l)
  | pollRefFail {f : FutId} {w : Waker} {n : Nat} {l : IncrPair} : ¬ n < 3 →
      Jump cfg s b (.incrCas (.pollRef f w) n l) (.wakeByRef f w)
  | blockLoad {op : BlockOp} : Jump cfg s b (.blockLoad op) (.blockCas op 0 (.observe s.count))
  | blockRetry {op : BlockOp} {n : Nat} {l : BlockPair} : n < 3 →
      Jump cfg s b (.blockCas op n l) (.blockCas op (n + 1) (.observe s.count))
  | tryBlockRefsFalse {n : Nat} {l : BlockPair} : ¬ n < 3 →
      Jump cfg s b (.blockCas .tryBlockRefs n l) (.done (.bool false))
  | tryGetExclusiveRefNone {n : Nat} {l : BlockPair} : ¬ n < 3 →
      Jump cfg s b (.blockCas .tryGetExclusiveRef n l) (.done .none)
  | blockingGetExclusiveRefLoop {n : Nat} {l : BlockPair} : ¬ n < 3 →
      Jump cfg s b (.blockCas .blockingGetExclusiveRef n l) (.blockLoad .blockingGetExclusiveRef)
  | pollBlockedRefsFail {f : FutId} {w : Waker} {n : Nat} {l : BlockPair} : ¬ n < 3 →
      Jump cfg s b (.blockCas (.pollBlockedRefs f w) n l) (.blockedIsBlocked f w)
  | pollExclusiveRefFail {f : FutId} {w : Waker} {n : Nat} {l : BlockPair} : ¬ n < 3 →
      Jump cfg s b (.blockCas (.pollExclusiveRef f w) n l) (.blockedIsBlocked f w)
  | tryGetExclusiveRefAgain {i : Nat} : noStandardRefs s.count = false → i + 1 < 5 →
      Jump cfg s b (.noStandardRefs (.tryGetExclusiveRef i)) (.noStandardRefs (.tryGetExclusiveRef (i + 1)))
  | tryGetExclusiveRefGiveUp {i : Nat} : noStandardRefs s.count = false → ¬ i + 1 < 5 →
      Jump cfg s b (.noStandardRefs (.tryGetExclusiveRef i)) (.releaseStore .tryGetExclusiveRef)
  | blockingGetExclusiveRefWait : noStandardRefs s.count = false →
      Jump cfg s b (.noStandardRefs .blockingGetExclusiveRef) (.noStandardRefs .blockingGetExclusiveRef)
  | pollExclusiveRefWait {f : FutId} {w : Waker} : noStandardRefs s.count = false →
      Jump cfg s b (.noStandardRefs (.pollExclusiveRef f w)) (.wakeByRef f w)
  | firstPopEmpty {op : ReleaseOp} : s.waiterQueue = [] →
      Jump cfg s b (.releasePop op true) (.releasePop op false)
  | popEmpty {op : ReleaseOp} : s.waiterQueue = [] → Jump cfg s b (.releasePop op false) (.done op.res)
  | refBlocked {f : FutId} {w : Waker} : isBlocked s.count = true →
      Jump cfg s b (.refIsBlocked f w) (.registeredLoad f w)
  | refAllowed {f : FutId} {w : Waker} : isBlocked s.count = false →
      Jump cfg s b (.refIsBlocked f w) (.incrLoad (.pollRef f w))
  | blockedBlocked {f : FutId} {w : Waker} : isBlocked s.count = true →
      Jump cfg s b (.blockedIsBlocked f w) (.registeredLoad f w)
  | blockedAllowed {f : FutId} {w : Waker} : isBlocked s.count = false →
      Jump cfg s b (.blockedIsBlocked f w) (.wakeByRef f w)
  | notRegistered {f : FutId} {w : Waker} : s.registered? f ≠ some true →
      Jump cfg s b (.registeredLoad f w) (.registerPush f w)
  | queueFull {f : FutId} {w : Waker} : ¬ s.waiterQueue.length < cfg.maxWaiting →
      Jump cfg s b (.registerPush f w) (.wakeSetRegistered .queueFull ⟨w, f⟩)

/-- The requests that end in a new future, and whether it holds the block. -/
inductive Requests (s : Sys) : Pc → Fut → Bool → Prop
  | getRef {n : Nat} {l : IncrPair} : ¬ n < 3 → Requests s (.incrCas .getRef n l) (.ref .new) false
  | blockRefs {n : Nat} {l : BlockPair} : ¬ n < 3 → Requests s (.blockCas .blockRefs n l) (.blockedRefs .new) false
  | getExclusiveRef {n : Nat} {l : BlockPair} : ¬ n < 3 →
      Requests s (.blockCas .getExclusiveRef n l) (.exclusiveRef (.new (some (.new .this)))) false
  | getExclusiveRefBlocked : noStandardRefs s.count = false →
      Requests s (.noStandardRefs .getExclusiveRef) (.exclusiveRef (.new none)) true

/-- The requests that go on to `no_standard_refs` with the block in their hands. -/
inductive Asks : BlockOp → CheckOp → Prop
  | getExclusiveRef : Asks .getExclusiveRef .getExclusiveRef
  | tryGetExclusiveRef : Asks .tryGetExclusiveRef (.tryGetExclusiveRef 0)
  | blockingGetExclusiveRef : Asks .blockingGetExclusiveRef .blockingGetExclusiveRef

inductive Blocks : BlockOp → Res → Prop
  | tryBlockRefs : Blocks .tryBlockRefs (.bool true)
  | blockRefs : Blocks .blockRefs .unit

inductive IncrOp.Plain : IncrOp → Prop
  | getRef : IncrOp.Plain .getRef
  | tryGetRef : IncrOp.Plain .tryGetRef
  | blockingGetRef : IncrOp.Plain .blockingGetRef

inductive CheckOp.Plain : CheckOp → Prop
  | getExclusiveRef : CheckOp.Plain .getExclusiveRef
  | tryGetExclusiveRef {i : Nat} : CheckOp.Plain (.tryGetExclusiveRef i)
  | blockingGetExclusiveRef : CheckOp.Plain .blockingGetExclusiveRef

inductive Adds : Pc → IncrOp → Prop
  | load {op : IncrOp} : Adds (.incrLoad op) op
  | cas {op : IncrOp} {n : Nat} {l : IncrPair} : Adds (.incrCas op n l) op

inductive Constructs : Act → Fut → Prop
  | newFutureRef : Constructs .newFutureRef (.ref .new)
  | newFutureBlockedRefs : Constructs .newFutureBlockedRefs (.blockedRefs .new)
  | newFutureExclusiveRef {inner : Option Src} :
      Constructs (.newFutureExclusiveRef inner) (.exclusiveRef (.new (inner.map InnerFut.new)))

/-! ## The steps -/

inductive Step (cfg : Config) (s : Sys) : Act → Sys → Prop
  | begin {t : ThreadId} {r : Res} {c : Call} {p : Pc} : s.pc t = .done r → Begins c p →
      Step cfg s (.call t c) (s.setPc t p)
  | beginUnblock {t : ThreadId} {r : Res} : s.pc t = .done r → 0 < s.blocks →
      Step cfg s (.call t .unblockRefs) (Sys.setPc { s with blocks := s.blocks - 1 } t (.releaseStore .unblockRefs))
  | beginDrop {t : ThreadId} {r : Res} : s.pc t = .done r → 0 < s.exclusiveRefs →
      Step cfg s (.call t .dropExclusiveRef)
        (Sys.setPc { s with exclusiveRefs := s.exclusiveRefs - 1 } t (.releaseStore .dropExclusiveRef))
  | beginPoll {t : ThreadId} {r : Res} {f : FutId} {w : Waker} {x : FutRec} : s.pc t = .done r →
      s.futs f = some x → x.status.isPolling = false →
      Step cfg s (.call t (.poll f w))
        ((s.modifyFut f (FutRec.beginPoll t w s.wakes.length)).setPc t (pollStart f w x.fut))
  | jump {t : ThreadId} {b : Bool} {q : Pc} : Jump cfg s b (s.pc t) q → Step cfg s (.step t b) (s.setPc t q)
  | request {t : ThreadId} {b : Bool} {fut : Fut} {h : Bool} : Requests s (s.pc t) fut h →
      Step cfg s (.step t b) (s.returnFuture t fut h)
  | panic {t : ThreadId} {b : Bool} {op : IncrOp} : Adds (s.pc t) op → op.Plain →
      IncrPair.observe cfg.overflowChecks s.count = none → Step cfg s (.step t b) (s.return t .panicked)
  | panicPoll {t : ThreadId} {b : Bool} {f : FutId} {w : Waker} : Adds (s.pc t) (.pollRef f w) →
      IncrPair.observe cfg.overflowChecks s.count = none → Step cfg s (.step t b) (s.returnReady t f .panicked)
  | acquire {t : ThreadId} {op : IncrOp} {n : Nat} {l : IncrPair} : s.pc t = .incrCas op n l → op.Plain →
      s.count = l.refCount →
      Step cfg s (.step t false) (Sys.return { s with count := s.count + refIncr, refs := s.refs + 1 } t .ref)
  | acquirePoll {t : ThreadId} {f : FutId} {w : Waker} {n : Nat} {l : IncrPair} :
      s.pc t = .incrCas (.pollRef f w) n l → s.count = l.refCount →
      Step cfg s (.step t false) (Sys.returnReady { s with count := s.count + refIncr, refs := s.refs + 1 } t f .ref)
  | blockAsk {t : ThreadId} {op : BlockOp} {q : CheckOp} {n : Nat} {l : BlockPair} : s.pc t = .blockCas op n l →
      Asks op q → s.count = l.refCount →
      Step cfg s (.step t false) (Sys.setPc { s with count := s.count ||| refBlocked } t (.noStandardRefs q))
  | blockUser {t : ThreadId} {op : BlockOp} {r : Res} {n : Nat} {l : BlockPair} : s.pc t = .blockCas op n l →
      Blocks op r → s.count = l.refCount →
      Step cfg s (.step t false)
        (Sys.return { s with count := s.count ||| refBlocked, blocks := s.blocks + 1 } t r)
  | blockPollBlocked {t : ThreadId} {f : FutId} {w : Waker} {n : Nat} {l : BlockPair} :
      s.pc t = .blockCas (.pollBlockedRefs f w) n l → s.count = l.refCount →
      Step cfg s (.step t false)
        (Sys.returnReady { s with count := s.count ||| refBlocked, blocks := s.blocks + 1 } t f .unit)
  | blockPollExclusive {t : ThreadId} {f : FutId} {w : Waker} {n : Nat} {l : BlockPair} :
      s.pc t = .blockCas (.pollExclusiveRef f w) n l → s.count = l.refCount →
      Step cfg s (.step t false)
        ((Sys.modifyFut { s with count := s.count ||| refBlocked } f FutRec.setBlocked).setPc t
          (.noStandardRefs (.pollExclusiveRef f w)))
  | grant {t : ThreadId} {b : Bool} {op : CheckOp} : s.pc t = .noStandardRefs op → op.Plain →
      noStandardRefs s.count = true →
      Step cfg s (.step t b) (Sys.return { s with exclusiveRefs := s.exclusiveRefs + 1 } t .exclusiveRef)
  | grantPoll {t : ThreadId} {b : Bool} {f : FutId} {w : Waker} : s.pc t = .noStandardRefs (.pollExclusiveRef f w) →
      noStandardRefs s.count = true →
      Step cfg s (.step t b) (Sys.returnReady { s with exclusiveRefs := s.exclusiveRefs + 1 } t f .exclusiveRef)
  | release {t : ThreadId} {b : Bool} {op : ReleaseOp} : s.pc t = .releaseStore op →
      Step cfg s (.step t b) (Sys.setPc { s with count := refAllowed } t (.releasePop op true))
  | pop {t : ThreadId} {b : Bool} {op : ReleaseOp} {first : Bool} {x : Waiter} {rest : List Waiter} :
      s.pc t = .releasePop op first → s.waiterQueue = x :: rest →
      Step cfg s (.step t b) (Sys.setPc { s with waiterQueue := rest } t (.wakeSetRegistered (.release op) x))
  | clear {t : ThreadId} {b : Bool} {op : WakeOp} {x : Waiter} : s.pc t = .wakeSetRegistered op x →
      Step cfg s (.step t b)
        ((s.modifyFut x.registered (FutRec.setRegistered false)).setPc t (.wakeWaker op x))
  | wakeDrain {t : ThreadId} {b : Bool} {op : ReleaseOp} {x : Waiter} : s.pc t = .wakeWaker (.release op) x →
      Step cfg s (.step t b) (Sys.setPc { s with wakes := s.wakes ++ [x] } t (.releasePop op false))
  | wakeFull {t : ThreadId} {b : Bool} {x : Waiter} : s.pc t = .wakeWaker .queueFull x →
      Step cfg s (.step t b) (Sys.returnPending { s with wakes := s.wakes ++ [x] } t x.registered)
  | registered {t : ThreadId} {b : Bool} {f : FutId} {w : Waker} : s.pc t = .registeredLoad f w →
      s.registered? f = some true → Step cfg s (.step t b) (s.returnPending t f)
  | push {t : ThreadId} {b : Bool} {f : FutId} {w : Waker} : s.pc t = .registerPush f w →
      s.waiterQueue.length < cfg.maxWaiting →
      Step cfg s (.step t b)
        (Sys.setPc { s with waiterQueue := s.waiterQueue ++ [⟨w, f⟩] } t (.registeredStore f w))
  | register {t : ThreadId} {b : Bool} {f : FutId} {w : Waker} : s.pc t = .registeredStore f w →
      Step cfg s (.step t b) ((s.modifyFut f FutRec.register).return t .pending)
  | yield {t : ThreadId} {b : Bool} {f : FutId} {w : Waker} : s.pc t = .wakeByRef f w →
      Step cfg s (.step t b) (Sys.returnPending { s with wakes := s.wakes ++ [⟨w, f⟩] } t f)
  | otherPending {t : ThreadId} {f : FutId} {w : Waker} : s.pc t = .otherPoll f w →
      Step cfg s (.step t true) ((s.modifyFut f (FutRec.setStatus .elsewhere)).return t .pending)
  | otherReady {t : ThreadId} {f : FutId} {w : Waker} : s.pc t = .otherPoll f w →
      Step cfg s (.step t false)
        ((s.modifyFut f FutRec.dropInner).setPc t (.noStandardRefs (.pollExclusiveRef f w)))
  | dropRef : s.forgotten < s.refs →
      Step cfg s .dropRef { s with count := s.count - refIncr, refs := s.refs - 1 }
  | forgetRef : s.forgotten < s.refs → Step cfg s .forgetRef { s with forgotten := s.forgotten + 1 }
  | dropFuture {f : FutId} {x : FutRec} : s.futs f = some x → x.status.isPolling = false →
      Step cfg s (.dropFuture f) { s with futs := Function.update s.futs f none }
  | newFuture {a : Act} {fut : Fut} : Constructs a fut → Step cfg s a (s.addFut fut false)

section
variable {cfg : Config} {s s' : Sys}

theorem incrObserve_step {t : ThreadId} {b : Bool} {op : IncrOp} {n : Nat} (ha : Adds (s.pc t) op)
    (hj : ∀ l, IncrPair.observe cfg.overflowChecks s.count = some l → Jump cfg s b (s.pc t) (.incrCas op n l)) :
    Step cfg s (.step t b) (s.incrObserve cfg t op n s.count) := by
  unfold Sys.incrObserve
  cases h : IncrPair.observe cfg.overflowChecks s.count with
  | some l => exact .jump (hj l h)
  | none =>
    cases op with
    | pollRef f w => exact .panicPoll ha h
    | getRef => exact .panic ha .getRef h
    | tryGetRef => exact .panic ha .tryGetRef h
    | blockingGetRef => exact .panic ha .blockingGetRef h

theorem incrCas_step {t : ThreadId} {b : Bool} {op : IncrOp} {n : Nat} {l : IncrPair}
    (hpc : s.pc t = .incrCas op n l) : Step cfg s (.step t b) (s.incrCas cfg t op n l b) := by
  unfold Sys.incrCas
  split
  · rename_i h
    obtain ⟨hc, rfl⟩ := h
    rw [l.next, ← hc]
    cases op with
    | pollRef f w => exact .acquirePoll hpc hc
    | getRef => exact .acquire hpc .getRef hc
    | tryGetRef => exact .acquire hpc .tryGetRef hc
    | blockingGetRef => exact .acquire hpc .blockingGetRef hc
  · rename_i hf
    split
    · rename_i hn
      exact incrObserve_step (hpc ▸ .cas) fun l' hl' => hpc ▸ .incrRetry hf hn hl'
    · rename_i hn
      cases op with
      | pollRef f w => exact .jump (hpc ▸ .pollRefFail hn)
      | getRef => exact .request (hpc ▸ .getRef hn)
      | tryGetRef => exact .jump (hpc ▸ .tryGetRefNone hn)
      | blockingGetRef => exact .jump (hpc ▸ .blockingGetRefLoop hn)

theorem blockCas_step {t : ThreadId} {b : Bool} {op : BlockOp} {n : Nat} {l : BlockPair}
    (hpc : s.pc t = .blockCas op n l) : Step cfg s (.step t b) (s.blockCas t op n l b) := by
  unfold Sys.blockCas
  split
  · rename_i h
    obtain ⟨hc, rfl⟩ := h
    rw [l.next, ← hc]
    cases op with
    | tryBlockRefs => exact .blockUser hpc .tryBlockRefs hc
    | blockRefs => exact .blockUser hpc .blockRefs hc
    | getExclusiveRef => exact .blockAsk hpc .getExclusiveRef hc
    | tryGetExclusiveRef => exact .blockAsk hpc .tryGetExclusiveRef hc
    | blockingGetExclusiveRef => exact .blockAsk hpc .blockingGetExclusiveRef hc
    | pollBlockedRefs f w => exact .blockPollBlocked hpc hc
    | pollExclusiveRef f w => exact .blockPollExclusive hpc hc
  · split
    · rename_i hn
      exact .jump (hpc ▸ .blockRetry hn)
    · rename_i hn
      cases op with
      | tryBlockRefs => exact .jump (hpc ▸ .tryBlockRefsFalse hn)
      | blockRefs => exact .request (hpc ▸ .blockRefs hn)
      | getExclusiveRef => exact .request (hpc ▸ .getExclusiveRef hn)
      | tryGetExclusiveRef => exact .jump (hpc ▸ .tryGetExclusiveRefNone hn)
      | blockingGetExclusiveRef => exact .jump (hpc ▸ .blockingGetExclusiveRefLoop hn)
      | pollBlockedRefs f w => exact .jump (hpc ▸ .pollBlockedRefsFail hn)
      | pollExclusiveRef f w => exact .jump (hpc ▸ .pollExclusiveRefFail hn)

theorem check_step {t : ThreadId} {b : Bool} {op : CheckOp} (hpc : s.pc t = .noStandardRefs op) :
    Step cfg s (.step t b) (s.check t op) := by
  unfold Sys.check
  cases h : RefCount.noStandardRefs s.count with
  | true =>
    cases op with
    | getExclusiveRef => exact .grant hpc .getExclusiveRef h
    | tryGetExclusiveRef i => exact .grant hpc .tryGetExclusiveRef h
    | blockingGetExclusiveRef => exact .grant hpc .blockingGetExclusiveRef h
    | pollExclusiveRef f w => exact .grantPoll hpc h
  | false =>
    cases op with
    | getExclusiveRef => exact .request (hpc ▸ .getExclusiveRefBlocked h)
    | tryGetExclusiveRef i =>
      simp only [Bool.false_eq_true, if_false, Sys.checkErr]
      split
      · rename_i hi; exact .jump (hpc ▸ .tryGetExclusiveRefAgain h hi)
      · rename_i hi; exact .jump (hpc ▸ .tryGetExclusiveRefGiveUp h hi)
    | blockingGetExclusiveRef =>
      refine .jump ?_
      rw [hpc]
      exact .blockingGetExclusiveRefWait h
    | pollExclusiveRef f w => exact .jump (hpc ▸ .pollExclusiveRefWait h)

theorem releasePop_step {t : ThreadId} {b : Bool} {op : ReleaseOp} {first : Bool}
    (hpc : s.pc t = .releasePop op first) : Step cfg s (.step t b) (s.releasePop t op first) := by
  unfold Sys.releasePop
  cases hq : s.waiterQueue with
  | cons x rest => exact .pop hpc hq
  | nil =>
    cases first with
    | true => exact .jump (hpc ▸ .firstPopEmpty hq)
    | false => exact .jump (hpc ▸ .popEmpty hq)

theorem stepThread_step {t : ThreadId} {b : Bool} (h : s.stepThread cfg t b = some s') :
    Step cfg s (.step t b) s' := by
  unfold Sys.stepThread at h
  cases hpc : s.pc t with
  | done r => rw [hpc] at h; cases h
  | incrLoad op =>
    rw [hpc] at h; cases h
    exact incrObserve_step (hpc ▸ .load) fun l hl => hpc ▸ .incrLoad hl
  | incrCas op n l => rw [hpc] at h; cases h; exact incrCas_step hpc
  | blockLoad op => rw [hpc] at h; cases h; exact .jump (hpc ▸ .blockLoad)
  | blockCas op n l => rw [hpc] at h; cases h; exact blockCas_step hpc
  | noStandardRefs op => rw [hpc] at h; cases h; exact check_step hpc
  | releaseStore op => rw [hpc] at h; cases h; exact .release hpc
  | releasePop op first => rw [hpc] at h; cases h; exact releasePop_step hpc
  | wakeSetRegistered op x => rw [hpc] at h; cases h; exact .clear hpc
  | wakeWaker op x =>
    rw [hpc] at h; cases h
    cases op with
    | release op => exact .wakeDrain hpc
    | queueFull => exact .wakeFull hpc
  | refIsBlocked f w =>
    rw [hpc] at h; cases h
    cases hb : isBlocked s.count with
    | true => exact .jump (hpc ▸ .refBlocked hb)
    | false => exact .jump (hpc ▸ .refAllowed hb)
  | blockedIsBlocked f w =>
    rw [hpc] at h; cases h
    cases hb : isBlocked s.count with
    | true => exact .jump (hpc ▸ .blockedBlocked hb)
    | false => exact .jump (hpc ▸ .blockedAllowed hb)
  | registeredLoad f w =>
    rw [hpc] at h; cases h
    unfold Sys.registeredLoad
    split
    · rename_i hr; exact .registered hpc hr
    · rename_i hr; exact .jump (hpc ▸ .notRegistered hr)
  | registerPush f w =>
    rw [hpc] at h; cases h
    unfold Sys.registerPush
    split
    · rename_i hq; exact .push hpc hq
    · rename_i hq; exact .jump (hpc ▸ .queueFull hq)
  | registeredStore f w => rw [hpc] at h; cases h; exact .register hpc
  | wakeByRef f w => rw [hpc] at h; cases h; exact .yield hpc
  | otherPoll f w =>
    rw [hpc] at h; cases h
    cases b with
    | true => exact .otherPending hpc
    | false => exact .otherReady hpc

theorem call_step {t : ThreadId} {r : Res} {c : Call} (hpc : s.pc t = .done r) (h : s.call t c = some s') :
    Step cfg s (.call t c) s' := by
  cases c with
  | unblockRefs =>
    simp only [Sys.call] at h
    split at h
    · rename_i hb; cases h; exact .beginUnblock hpc hb
    · cases h
  | dropExclusiveRef =>
    simp only [Sys.call] at h
    split at h
    · rename_i hb; cases h; exact .beginDrop hpc hb
    · cases h
  | poll f w =>
    simp only [Sys.call] at h
    cases hf : s.futs f with
    | none => rw [hf] at h; cases h
    | some x =>
      rw [hf] at h
      cases hx : x.status.isPolling with
      | true => simp [hx] at h
      | false =>
        simp only [hx, Bool.false_eq_true, if_false, Option.some.injEq] at h
        subst h
        exact .beginPoll hpc hf hx
  | getRef => cases h; exact .begin hpc .getRef
  | tryGetRef => cases h; exact .begin hpc .tryGetRef
  | blockingGetRef => cases h; exact .begin hpc .blockingGetRef
  | getExclusiveRef => cases h; exact .begin hpc .getExclusiveRef
  | tryGetExclusiveRef => cases h; exact .begin hpc .tryGetExclusiveRef
  | blockingGetExclusiveRef => cases h; exact .begin hpc .blockingGetExclusiveRef
  | tryBlockRefs => cases h; exact .begin hpc .tryBlockRefs
  | blockRefs => cases h; exact .begin hpc .blockRefs

theorem exec_step {a : Act} (h : exec cfg s a = some s') : Step cfg s a s' := by
  cases a with
  | call t c =>
    simp only [exec] at h
    cases hpc : s.pc t with
    | done r => rw [hpc] at h; exact call_step hpc h
    | _ => rw [hpc] at h; cases h
  | step t b => exact stepThread_step h
  | dropRef =>
    simp only [exec] at h
    split at h
    · rename_i hr; cases h; exact .dropRef hr
    · cases h
  | forgetRef =>
    simp only [exec] at h
    split at h
    · rename_i hr; cases h; exact .forgetRef hr
    · cases h
  | dropFuture f =>
    simp only [exec] at h
    cases hf : s.futs f with
    | none => rw [hf] at h; cases h
    | some x =>
      rw [hf] at h
      cases hx : x.status.isPolling with
      | true => simp [hx] at h
      | false =>
        simp only [hx, Bool.false_eq_true, if_false, Option.some.injEq] at h
        subst h
        exact .dropFuture hf hx
  | newFutureRef => cases h; exact .newFuture .newFutureRef
  | newFutureBlockedRefs => cases h; exact .newFuture .newFutureBlockedRefs
  | newFutureExclusiveRef inner => cases h; exact .newFuture .newFutureExclusiveRef

end

end RefCount
