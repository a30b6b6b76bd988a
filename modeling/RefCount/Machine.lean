import RefCount.Lts
import RefCount.Word

/-!
# The reference counter as a machine of atomic steps

`lib.rs`, `futures.rs` and `waiter.rs`. Any number of threads run the operations;
every access to the count word, to the waiter queue, to a `registered` flag and
every `waker.wake()` is one step. A program counter stands in front of the next
access of its operation and carries the locals that are live there; what the
code computes between two accesses belongs to the step of the first. Spins and
backoff change nothing and have no step. The machine is sequentially consistent, so its
fences have none either; `Orderings` and the modules over it have the weaker orderings.

The futures live in a memory of their own: a `Waiter` names the future whose flag
it points at, and a write through it to a future that is gone has no effect here.
-/

namespace RefCount

abbrev ThreadId := Nat
abbrev FutId := Nat
abbrev Waker := Nat

/-! ## Waiters and futures -/

structure Waiter where
  waker : Waker
  registered : FutId
  deriving DecidableEq, Repr

structure FutureRef where
  registered : Bool
  deriving DecidableEq, Repr

structure FutureBlockedRefs where
  registered : Bool
  deriving DecidableEq, Repr

/-- The `src` of an inner future: the `RefCount` of the machine, or another one. -/
inductive Src where
  | this
  | other
  deriving DecidableEq, Repr

/-- An inner future. The flag of one of another `RefCount` is that one's business. -/
inductive InnerFut where
  | this (fut : FutureBlockedRefs)
  | other
  deriving DecidableEq, Repr

structure FutureExclusiveRef where
  blockedFut : Option InnerFut
  deriving DecidableEq, Repr

def FutureRef.new : FutureRef := ⟨false⟩
def FutureBlockedRefs.new : FutureBlockedRefs := ⟨false⟩
def FutureExclusiveRef.new (blockedFut : Option InnerFut) : FutureExclusiveRef := ⟨blockedFut⟩

/-- `FutureBlockedRefs::new(src)`. -/
def InnerFut.new : Src → InnerFut
  | .this => .this .new
  | .other => .other

def InnerFut.registered? : InnerFut → Option Bool
  | .this fut => some fut.registered
  | .other => none

def InnerFut.setRegistered (b : Bool) : InnerFut → InnerFut
  | .this _ => .this ⟨b⟩
  | .other => .other

inductive Fut where
  | ref (fut : FutureRef)
  | blockedRefs (fut : FutureBlockedRefs)
  | exclusiveRef (fut : FutureExclusiveRef)
  deriving DecidableEq, Repr

/-- The flag of a future; a `FutureExclusiveRef` has that of its inner future. -/
def Fut.registered? : Fut → Option Bool
  | .ref fut => some fut.registered
  | .blockedRefs fut => some fut.registered
  | .exclusiveRef fut => fut.blockedFut.bind InnerFut.registered?

def Fut.setRegistered (b : Bool) : Fut → Fut
  | .ref _ => .ref ⟨b⟩
  | .blockedRefs _ => .blockedRefs ⟨b⟩
  | .exclusiveRef fut => .exclusiveRef ⟨fut.blockedFut.map (InnerFut.setRegistered b)⟩

/-- `elsewhere`: the last poll returned `Pending` from an inner future of another
`RefCount`, which has the waker. `finished`: it returned `Ready`, or unwound. -/
inductive FutStatus where
  | created
  | polling (t : ThreadId)
  | pending
  | elsewhere
  | finished
  deriving DecidableEq, Repr

/-- A future in memory, with the waker its last poll was given and how many
wake-ups the system had seen when that poll began. `holdsBlock`: the block was
taken for it, by `get_exclusive_ref` or by its inner future, and is still its. -/
structure FutRec where
  fut : Fut
  status : FutStatus
  waker : Option Waker
  since : Nat
  holdsBlock : Bool
  deriving DecidableEq, Repr

/-! ## The locals of the attempts -/

/-- The pair of locals that `many_weak_try_incr_refs!` compares and swaps. -/
structure IncrPair where
  refCount : UInt32
  nextRefCount : UInt32
  even : refCount.toNat % 2 = 0
  next : nextRefCount = refCount + refIncr

/-- The pair from an observed word. The addition wraps in a release build and
panics in one with overflow checks. -/
def IncrPair.observe (overflowChecks : Bool) (state : UInt32) : Option IncrPair :=
  if overflowChecks = true ∧ 2 ^ 32 ≤ (state &&& refCountMask).toNat + refIncr.toNat then none
  else some ⟨state &&& refCountMask, (state &&& refCountMask) + refIncr,
    by rw [mask_toNat]; omega, rfl⟩

/-- The pair of locals of `try_block_refs`. -/
structure BlockPair where
  refCount : UInt32
  nextRefCount : UInt32
  even : refCount.toNat % 2 = 0
  next : nextRefCount = refCount ||| refBlocked

def BlockPair.observe (state : UInt32) : BlockPair :=
  ⟨state &&& refCountMask, (state &&& refCountMask) ||| refBlocked, by rw [mask_toNat]; omega, rfl⟩

/-! ## Program counters

A routine that several operations run (`many_weak_try_incr_refs!`,
`try_block_refs`, `no_standard_refs`, `unblock_refs`, `Waiter::wake`) has one
program counter, which carries the operation it returns to. -/

inductive IncrOp where
  | getRef
  | tryGetRef
  | blockingGetRef
  | pollRef (f : FutId) (waker : Waker)
  deriving DecidableEq, Repr

inductive BlockOp where
  | tryBlockRefs
  | blockRefs
  | getExclusiveRef
  | tryGetExclusiveRef
  | blockingGetExclusiveRef
  | pollBlockedRefs (f : FutId) (waker : Waker)
  | pollExclusiveRef (f : FutId) (waker : Waker)
  deriving DecidableEq, Repr

/-- The operations that hold the block and run `no_standard_refs`. -/
inductive CheckOp where
  | getExclusiveRef
  | tryGetExclusiveRef (i : Nat)
  | blockingGetExclusiveRef
  | pollExclusiveRef (f : FutId) (waker : Waker)
  deriving DecidableEq, Repr

/-- The operations that run `unblock_refs`. -/
inductive ReleaseOp where
  | unblockRefs
  | dropExclusiveRef
  | tryGetExclusiveRef
  deriving DecidableEq, Repr

/-- The places that run `Waiter::wake`: the drain of `unblock_refs`, and the
`Err` branch of `try_register_future!`. -/
inductive WakeOp where
  | release (op : ReleaseOp)
  | queueFull
  deriving DecidableEq, Repr

/-- What an operation returns. `Some`, `Ready` and a plain value are the value. -/
inductive Res where
  | unit
  | bool (b : Bool)
  | none
  | ref
  | exclusiveRef
  | future (f : FutId)
  | pending
  | panicked
  deriving DecidableEq, Repr

inductive Pc where
  | done (r : Res)
  | incrLoad (op : IncrOp)
  | incrCas (op : IncrOp) (attempt : Nat) (locals : IncrPair)
  | blockLoad (op : BlockOp)
  | blockCas (op : BlockOp) (attempt : Nat) (locals : BlockPair)
  | noStandardRefs (op : CheckOp)
  | releaseStore (op : ReleaseOp)
  | releasePop (op : ReleaseOp) (first : Bool)
  | wakeSetRegistered (op : WakeOp) (waiter : Waiter)
  | wakeWaker (op : WakeOp) (waiter : Waiter)
  | refIsBlocked (f : FutId) (waker : Waker)
  | blockedIsBlocked (f : FutId) (waker : Waker)
  | registeredLoad (f : FutId) (waker : Waker)
  | registerPush (f : FutId) (waker : Waker)
  | registeredStore (f : FutId) (waker : Waker)
  | wakeByRef (f : FutId) (waker : Waker)
  | otherPoll (f : FutId) (waker : Waker)

/-! ## The state -/

/-- `maxWaiting` is `MAX_WAITING`; `overflowChecks` is that of the build profile. -/
structure Config where
  maxWaiting : Nat
  overflowChecks : Bool

/-- `refs` counts the `Ref` values that exist, `forgotten` those of them that were
passed to `mem::forget`; `exclusiveRefs` counts the `ExclusiveRef` values, and
`blocks` the callers that took the block by `try_block_refs` or `block_refs` and
have not called `unblock_refs`. `wakes` is every wake-up made so far. -/
structure Sys where
  count : UInt32
  waiterQueue : List Waiter
  pc : ThreadId → Pc
  futs : FutId → Option FutRec
  nextFut : FutId
  refs : Nat
  forgotten : Nat
  exclusiveRefs : Nat
  blocks : Nat
  wakes : List Waiter

/-- `RefCount::new`. -/
def Sys.new : Sys where
  count := 0
  waiterQueue := []
  pc := fun _ => .done .unit
  futs := fun _ => none
  nextFut := 0
  refs := 0
  forgotten := 0
  exclusiveRefs := 0
  blocks := 0
  wakes := []

def Sys.setPc (s : Sys) (t : ThreadId) (p : Pc) : Sys := { s with pc := Function.update s.pc t p }

def Sys.modifyFut (s : Sys) (f : FutId) (g : FutRec → FutRec) : Sys :=
  { s with futs := Function.update s.futs f ((s.futs f).map g) }

def Sys.addFut (s : Sys) (fut : Fut) (holdsBlock : Bool) : Sys :=
  { s with
    futs := Function.update s.futs s.nextFut (some ⟨fut, .created, none, 0, holdsBlock⟩)
    nextFut := s.nextFut + 1 }

def FutRec.setStatus (status : FutStatus) (r : FutRec) : FutRec := { r with status := status }

def FutRec.setRegistered (b : Bool) (r : FutRec) : FutRec := { r with fut := r.fut.setRegistered b }

/-- `registered` is stored, and the poll returns `Pending`. -/
def FutRec.register (r : FutRec) : FutRec := { r with fut := r.fut.setRegistered true, status := .pending }

/-- The inner future is ready: `self.blocked_fut = None`. -/
def FutRec.setBlocked (r : FutRec) : FutRec :=
  { r with fut := .exclusiveRef (.new none), holdsBlock := true }

/-- An inner future of another `RefCount` is ready: the block it took is not of this one. -/
def FutRec.dropInner (r : FutRec) : FutRec := { r with fut := .exclusiveRef (.new none) }

def FutRec.beginPoll (t : ThreadId) (waker : Waker) (since : Nat) (r : FutRec) : FutRec :=
  { r with status := .polling t, waker := some waker, since := since }

def FutRec.finish (r : FutRec) : FutRec := { r with status := .finished, holdsBlock := false }

def Sys.registered? (s : Sys) (f : FutId) : Option Bool := (s.futs f).bind (·.fut.registered?)

def Sys.return (s : Sys) (t : ThreadId) (r : Res) : Sys := s.setPc t (.done r)

def Sys.returnFuture (s : Sys) (t : ThreadId) (fut : Fut) (holdsBlock : Bool) : Sys :=
  (s.addFut fut holdsBlock).return t (.future s.nextFut)

/-- `poll` of `f` returns `Ready`, or unwinds. -/
def Sys.returnReady (s : Sys) (t : ThreadId) (f : FutId) (r : Res) : Sys :=
  (s.modifyFut f FutRec.finish).return t r

def Sys.returnPending (s : Sys) (t : ThreadId) (f : FutId) : Sys :=
  (s.modifyFut f (FutRec.setStatus .pending)).return t .pending

/-! ## Taking a standard reference: `get_ref`, `try_get_ref`, `blocking_get_ref` -/

def Sys.incrPanic (s : Sys) (t : ThreadId) : IncrOp → Sys
  | .pollRef f _ => s.returnReady t f .panicked
  | _ => s.return t .panicked

/-- The locals are computed from an observed word, by the first load and after
each of the first three failed attempts. -/
def Sys.incrObserve (cfg : Config) (s : Sys) (t : ThreadId) (op : IncrOp) (attempt : Nat) (state : UInt32) : Sys :=
  match IncrPair.observe cfg.overflowChecks state with
  | some locals => s.setPc t (.incrCas op attempt locals)
  | none => s.incrPanic t op

def Sys.incrOk (s : Sys) (t : ThreadId) : IncrOp → Sys
  | .pollRef f _ => s.returnReady t f .ref
  | _ => s.return t .ref

/-- The four attempts failed. `blocking_get_ref` starts over with the pair it has. -/
def Sys.incrErr (s : Sys) (t : ThreadId) (locals : IncrPair) : IncrOp → Sys
  | .getRef => s.returnFuture t (.ref .new) false
  | .tryGetRef => s.return t .none
  | .blockingGetRef => s.setPc t (.incrCas .blockingGetRef 0 locals)
  | .pollRef f waker => s.setPc t (.wakeByRef f waker)

def Sys.incrCas (cfg : Config) (s : Sys) (t : ThreadId) (op : IncrOp) (attempt : Nat) (locals : IncrPair)
    (spurious : Bool) : Sys :=
  if s.count = locals.refCount ∧ spurious = false then
    Sys.incrOk { s with count := locals.nextRefCount, refs := s.refs + 1 } t op
  else if attempt < 3 then s.incrObserve cfg t op (attempt + 1) s.count
  else s.incrErr t locals op

/-! ## Blocking: `try_block_refs`, `block_refs` -/

def Sys.blockOk (s : Sys) (t : ThreadId) : BlockOp → Sys
  | .tryBlockRefs => Sys.return { s with blocks := s.blocks + 1 } t (.bool true)
  | .blockRefs => Sys.return { s with blocks := s.blocks + 1 } t .unit
  | .getExclusiveRef => s.setPc t (.noStandardRefs .getExclusiveRef)
  | .tryGetExclusiveRef => s.setPc t (.noStandardRefs (.tryGetExclusiveRef 0))
  | .blockingGetExclusiveRef => s.setPc t (.noStandardRefs .blockingGetExclusiveRef)
  | .pollBlockedRefs f _ => Sys.returnReady { s with blocks := s.blocks + 1 } t f .unit
  | .pollExclusiveRef f waker =>
    (s.modifyFut f FutRec.setBlocked).setPc t (.noStandardRefs (.pollExclusiveRef f waker))

def Sys.blockErr (s : Sys) (t : ThreadId) : BlockOp → Sys
  | .tryBlockRefs => s.return t (.bool false)
  | .blockRefs => s.returnFuture t (.blockedRefs .new) false
  | .getExclusiveRef => s.returnFuture t (.exclusiveRef (.new (some (.new .this)))) false
  | .tryGetExclusiveRef => s.return t .none
  | .blockingGetExclusiveRef => s.setPc t (.blockLoad .blockingGetExclusiveRef)
  | .pollBlockedRefs f waker => s.setPc t (.blockedIsBlocked f waker)
  | .pollExclusiveRef f waker => s.setPc t (.blockedIsBlocked f waker)

def Sys.blockCas (s : Sys) (t : ThreadId) (op : BlockOp) (attempt : Nat) (locals : BlockPair)
    (spurious : Bool) : Sys :=
  if s.count = locals.refCount ∧ spurious = false then
    Sys.blockOk { s with count := locals.nextRefCount } t op
  else if attempt < 3 then s.setPc t (.blockCas op (attempt + 1) (.observe s.count))
  else s.blockErr t op

/-! ## Exclusive references -/

def Sys.checkOk (s : Sys) (t : ThreadId) : CheckOp → Sys
  | .pollExclusiveRef f _ => s.returnReady t f .exclusiveRef
  | _ => s.return t .exclusiveRef

def Sys.checkErr (s : Sys) (t : ThreadId) : CheckOp → Sys
  | .getExclusiveRef => s.returnFuture t (.exclusiveRef (.new none)) true
  | .tryGetExclusiveRef i =>
    if i + 1 < 5 then s.setPc t (.noStandardRefs (.tryGetExclusiveRef (i + 1)))
    else s.setPc t (.releaseStore .tryGetExclusiveRef)
  | .blockingGetExclusiveRef => s.setPc t (.noStandardRefs .blockingGetExclusiveRef)
  | .pollExclusiveRef f waker => s.setPc t (.wakeByRef f waker)

def Sys.check (s : Sys) (t : ThreadId) (op : CheckOp) : Sys :=
  if RefCount.noStandardRefs s.count then Sys.checkOk { s with exclusiveRefs := s.exclusiveRefs + 1 } t op
  else s.checkErr t op

/-! ## `unblock_refs` and `Waiter::wake` -/

def ReleaseOp.res : ReleaseOp → Res
  | .unblockRefs => .unit
  | .dropExclusiveRef => .unit
  | .tryGetExclusiveRef => .none

/-- One `waiter_queue.pop()`. An empty first pop spins and goes on to the loop. -/
def Sys.releasePop (s : Sys) (t : ThreadId) (op : ReleaseOp) (first : Bool) : Sys :=
  match s.waiterQueue with
  | waiter :: rest => Sys.setPc { s with waiterQueue := rest } t (.wakeSetRegistered (.release op) waiter)
  | [] => if first then s.setPc t (.releasePop op false) else s.return t op.res

/-- `self.waker.wake()`, the last access of `Waiter::wake`. -/
def Sys.wakeWaker (s : Sys) (t : ThreadId) (waiter : Waiter) : WakeOp → Sys
  | .release op => Sys.setPc { s with wakes := s.wakes ++ [waiter] } t (.releasePop op false)
  | .queueFull => Sys.returnPending { s with wakes := s.wakes ++ [waiter] } t waiter.registered

/-! ## `try_register_future!` and the polls -/

def Sys.registeredLoad (s : Sys) (t : ThreadId) (f : FutId) (waker : Waker) : Sys :=
  if s.registered? f = some true then s.returnPending t f else s.setPc t (.registerPush f waker)

def Sys.registerPush (cfg : Config) (s : Sys) (t : ThreadId) (f : FutId) (waker : Waker) : Sys :=
  if s.waiterQueue.length < cfg.maxWaiting then
    Sys.setPc { s with waiterQueue := s.waiterQueue ++ [⟨waker, f⟩] } t (.registeredStore f waker)
  else s.setPc t (.wakeSetRegistered .queueFull ⟨waker, f⟩)

/-- The poll of an inner future of another `RefCount`. None of its accesses is to this
one, so it is one step, and may return `Pending` or `Ready`. -/
def Sys.otherPoll (s : Sys) (t : ThreadId) (f : FutId) (waker : Waker) (pending : Bool) : Sys :=
  if pending then (s.modifyFut f (FutRec.setStatus .elsewhere)).return t .pending
  else (s.modifyFut f FutRec.dropInner).setPc t (.noStandardRefs (.pollExclusiveRef f waker))

/-- The next atomic step of thread `t`. What the code of this `RefCount` does not decide,
`spurious` does: a `compare_exchange_weak` fails spuriously, and an inner future of another
`RefCount` returns `Pending`, if it says so. -/
def Sys.stepThread (cfg : Config) (s : Sys) (t : ThreadId) (spurious : Bool) : Option Sys :=
  match s.pc t with
  | .done _ => none
  | .incrLoad op => some (s.incrObserve cfg t op 0 s.count)
  | .incrCas op attempt locals => some (s.incrCas cfg t op attempt locals spurious)
  | .blockLoad op => some (s.setPc t (.blockCas op 0 (.observe s.count)))
  | .blockCas op attempt locals => some (s.blockCas t op attempt locals spurious)
  | .noStandardRefs op => some (s.check t op)
  | .releaseStore op => some (Sys.setPc { s with count := refAllowed } t (.releasePop op true))
  | .releasePop op first => some (s.releasePop t op first)
  | .wakeSetRegistered op waiter =>
    some ((s.modifyFut waiter.registered (FutRec.setRegistered false)).setPc t (.wakeWaker op waiter))
  | .wakeWaker op waiter => some (s.wakeWaker t waiter op)
  | .refIsBlocked f waker =>
    some (s.setPc t (if isBlocked s.count then .registeredLoad f waker else .incrLoad (.pollRef f waker)))
  | .blockedIsBlocked f waker =>
    some (s.setPc t (if isBlocked s.count then .registeredLoad f waker else .wakeByRef f waker))
  | .registeredLoad f waker => some (s.registeredLoad t f waker)
  | .registerPush f waker => some (s.registerPush cfg t f waker)
  | .registeredStore f _ => some ((s.modifyFut f FutRec.register).return t .pending)
  | .wakeByRef f waker => some (Sys.returnPending { s with wakes := s.wakes ++ [⟨waker, f⟩] } t f)
  | .otherPoll f waker => some (s.otherPoll t f waker spurious)

/-! ## Operations -/

inductive Call where
  | getRef
  | tryGetRef
  | blockingGetRef
  | getExclusiveRef
  | tryGetExclusiveRef
  | blockingGetExclusiveRef
  | tryBlockRefs
  | blockRefs
  | unblockRefs
  | poll (f : FutId) (waker : Waker)
  | dropExclusiveRef
  deriving DecidableEq, Repr

def pollStart (f : FutId) (waker : Waker) : Fut → Pc
  | .ref _ => .refIsBlocked f waker
  | .blockedRefs _ => .blockLoad (.pollBlockedRefs f waker)
  | .exclusiveRef ⟨some (.this _)⟩ => .blockLoad (.pollExclusiveRef f waker)
  | .exclusiveRef ⟨some .other⟩ => .otherPoll f waker
  | .exclusiveRef ⟨none⟩ => .noStandardRefs (.pollExclusiveRef f waker)

def FutStatus.isPolling : FutStatus → Bool
  | .polling _ => true
  | _ => false

/-- A poll borrows its future mutably: no other poll of it, and no drop, until it
returns. `unblock_refs` may be called only by a caller that holds the block. -/
def Sys.call (s : Sys) (t : ThreadId) : Call → Option Sys
  | .getRef => some (s.setPc t (.incrLoad .getRef))
  | .tryGetRef => some (s.setPc t (.incrLoad .tryGetRef))
  | .blockingGetRef => some (s.setPc t (.incrLoad .blockingGetRef))
  | .getExclusiveRef => some (s.setPc t (.blockLoad .getExclusiveRef))
  | .tryGetExclusiveRef => some (s.setPc t (.blockLoad .tryGetExclusiveRef))
  | .blockingGetExclusiveRef => some (s.setPc t (.blockLoad .blockingGetExclusiveRef))
  | .tryBlockRefs => some (s.setPc t (.blockLoad .tryBlockRefs))
  | .blockRefs => some (s.setPc t (.blockLoad .blockRefs))
  | .unblockRefs =>
    if 0 < s.blocks then
      some (Sys.setPc { s with blocks := s.blocks - 1 } t (.releaseStore .unblockRefs))
    else none
  | .poll f waker =>
    match s.futs f with
    | some r =>
      if r.status.isPolling then none
      else some ((s.modifyFut f (FutRec.beginPoll t waker s.wakes.length)).setPc t (pollStart f waker r.fut))
    | none => none
  | .dropExclusiveRef =>
    if 0 < s.exclusiveRefs then
      some (Sys.setPc { s with exclusiveRefs := s.exclusiveRefs - 1 } t (.releaseStore .dropExclusiveRef))
    else none

/-- `dropRef` is the `fetch_sub` of `Drop for Ref`. The last three are the public
constructors of the futures, the third called with `None` or with a new inner future of
this or of another `RefCount`. -/
inductive Act where
  | call (t : ThreadId) (c : Call)
  | step (t : ThreadId) (spurious : Bool)
  | dropRef
  | forgetRef
  | dropFuture (f : FutId)
  | newFutureRef
  | newFutureBlockedRefs
  | newFutureExclusiveRef (blockedFut : Option Src)
  deriving DecidableEq, Repr

def exec (cfg : Config) (s : Sys) : Act → Option Sys
  | .call t c =>
    match s.pc t with
    | .done _ => s.call t c
    | _ => none
  | .step t spurious => s.stepThread cfg t spurious
  | .dropRef =>
    if s.forgotten < s.refs then some { s with count := s.count - refIncr, refs := s.refs - 1 } else none
  | .forgetRef => if s.forgotten < s.refs then some { s with forgotten := s.forgotten + 1 } else none
  | .dropFuture f =>
    match s.futs f with
    | some r => if r.status.isPolling then none else some { s with futs := Function.update s.futs f none }
    | none => none
  | .newFutureRef => some (s.addFut (.ref .new) false)
  | .newFutureBlockedRefs => some (s.addFut (.blockedRefs .new) false)
  | .newFutureExclusiveRef blockedFut =>
    some (s.addFut (.exclusiveRef (.new (blockedFut.map InnerFut.new))) false)

end RefCount
