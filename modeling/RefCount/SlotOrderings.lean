import RefCount.Linearizable
import RefCount.RelAcq

/-!
# The ring under its orderings

The queue with the orderings that the source gives to `head`, `tail` and the stamps. A load
may return a stale word. A value is not atomic: each access to one is recorded with the
accesses that happen before it. Every write to `head` and `tail` is `SeqCst`; so a `SeqCst`
load reads the last one, and a `SeqCst` fence keeps later loads from any that is older.
-/

namespace RefCount.ArrayQueue

open RelAcq

inductive Loc where
  | head
  | tail
  | stamp (i : Nat)
  deriving DecidableEq, Repr

/-- What the next step accesses. A `compare_exchange_weak` is `SeqCst`, and `Relaxed` where it
fails; `count` says for a store how far the location has come, as its messages do. -/
inductive Access (w : Nat) where
  | plain
  | load (l : Loc) (o : Order)
  | cas (l : Loc) (expected : BitVec w)
  | store (l : Loc) (o : Order) (count : Nat)
  | value (i : Nat)

structure SlotAccess where
  place : Nat
  known : List Nat

/-- `ring` has the last word of each location. A message of `head` or `tail` carries the count
of that counter, one of a stamp `2 * p` if the slot waits for position `p` and `2 * p + 1` if
it holds it. `accesses` are those to the values, and `known` those that a thread knows of. -/
structure WeakState (w : Nat) (V : Type) where
  ring : State w V
  cells : Loc → List (Msg (Loaded w) Nat)
  seen : Tid → Loc → Nat
  known : Tid → List Nat
  accesses : List SlotAccess

def WeakState.new (w : Nat) (V : Type) : WeakState w V where
  ring := State.new w V
  cells := fun l =>
    match l with
    | .head => [⟨⟨0, 0⟩, []⟩]
    | .tail => [⟨⟨0, 0⟩, []⟩]
    | .stamp i => [⟨⟨BitVec.ofNat w i, 2 * i⟩, []⟩]
  seen := fun _ _ => 0
  known := fun _ => []
  accesses := []

section
variable {w : Nat} {V : Type} (C : Nat)

def Pc.access : Pc w V → Access w
  | .done _ => .plain
  | .fault => .plain
  | .pushLoadTail _ _ => .load .tail .relaxed
  | .pushLoadStamp _ _ tail => .load (.stamp (index C tail.stamp).toNat) .acquire
  | .pushCasTail _ _ tail => .cas .tail tail.stamp
  | .pushWrite _ _ tail => .value (index C tail.stamp).toNat
  | .pushStoreStamp _ tail => .store (.stamp (index C tail.stamp).toNat) .release (2 * tail.count + 1)
  | .pushLoadHead _ _ => .load .head .acquire
  | .forceCasHead _ tail => .cas .head (tail.stamp - oneLap w C)
  | .forceStoreTail _ tail => .store .tail .seqCst (tail.count + 1)
  | .forceReplace _ tail => .value (index C tail.stamp).toNat
  | .forceStoreStamp _ tail => .store (.stamp (index C tail.stamp).toNat) .release (2 * tail.count + 1)
  | .popLoadHead => .load .head .relaxed
  | .popLoadStamp head => .load (.stamp (index C head.stamp).toNat) .acquire
  | .popCasHead head => .cas .head head.stamp
  | .popRead head => .value (index C head.stamp).toNat
  | .popStoreStamp _ head => .store (.stamp (index C head.stamp).toNat) .release (2 * (head.count + C))
  | .popLoadTail _ => .load .tail .relaxed
  | .isEmptyLoadHead => .load .head .seqCst
  | .isEmptyLoadTail _ => .load .tail .seqCst
  | .isFullLoadTail => .load .tail .seqCst
  | .isFullLoadHead _ => .load .head .seqCst
  | .lenLoadTail => .load .tail .seqCst
  | .lenLoadHead _ => .load .head .seqCst
  | .lenLoadTailAgain _ _ => .load .tail .seqCst

/-- The source has a `SeqCst` fence between the load of the stamp and what comes here. -/
def Pc.fenced : Pc w V → Bool
  | .pushLoadHead _ _ => true
  | .forceCasHead _ _ => true
  | .popLoadTail _ => true
  | _ => false

def State.word (s : State w V) : Loc → BitVec w
  | .head => s.head
  | .tail => s.tail
  | .stamp i => (s.buffer i).stamp

/-- The queue as a thread sees it that reads `x` at `l`. -/
def State.present (s : State w V) (x : Loaded w) : Loc → State w V
  | .head => { s with head := x.stamp, heads := x.count }
  | .tail => { s with tail := x.stamp, tails := x.count }
  | .stamp i => { s with buffer := Function.update s.buffer i { s.buffer i with stamp := x.stamp } }

variable (σ : WeakState w V) (t : Tid) (spurious : Bool) (i : Nat)

def WeakState.view (l : Loc) : View Nat := ⟨σ.seen t l, σ.known t⟩

def WeakState.move (s : State w V) (l : Loc) (v : View Nat) : WeakState w V :=
  { σ with
    ring := s
    seen := Function.update σ.seen t (Function.update (σ.seen t) l v.seen)
    known := Function.update σ.known t v.known }

def WeakState.write (l : Loc) (cell : List (Msg (Loaded w) Nat)) : WeakState w V :=
  { σ with cells := Function.update σ.cells l cell }

/-- The thread has seen the last message at `l`. -/
def WeakState.latest (l : Loc) : WeakState w V :=
  { σ with seen := Function.update σ.seen t (Function.update (σ.seen t) l ((σ.cells l).length - 1)) }

def WeakState.fence : WeakState w V := (σ.latest t .head).latest t .tail

/-- The thread reads message `i`, and goes on with what it read. -/
def WeakState.read (l : Loc) (o : Order) : Option (WeakState w V) :=
  (readable (σ.cells l) (σ.view t l) i).bind fun m =>
    ((σ.ring.present m.value l).stepThread C t spurious).map fun s =>
      σ.move t { σ.ring with pc := s.pc, hist := s.hist } l ((σ.view t l).learn o i m)

/-- A fence that comes next is made at once, so that it shows the thread the least. -/
def WeakState.load (l : Loc) (o : Order) : Option (WeakState w V) :=
  ((if o = .seqCst then σ.latest t l else σ).read C t spurious i l o).map fun σ' =>
    if (σ'.ring.pc t).fenced then σ'.fence t else σ'

/-- A `compare_exchange_weak` that finds what it expects in the last message writes the next. -/
def WeakState.cas (l : Loc) (expected : BitVec w) : Option (WeakState w V) :=
  ((σ.cells l)[i]?).bind fun m =>
    if m.value.stamp = expected ∧ spurious = false then
      if i + 1 = (σ.cells l).length then
        (σ.ring.stepThread C t spurious).bind fun s =>
          (rmw .seqCst (σ.view t l) (σ.cells l) ⟨s.word l, m.value.count + 1⟩).map fun (v, cell) =>
            (σ.write l cell).move t s l v
      else none
    else σ.read C t spurious i l .relaxed

def WeakState.store (l : Loc) (o : Order) (count : Nat) : Option (WeakState w V) :=
  (σ.ring.stepThread C t spurious).map fun s =>
    let (v, cell) := RelAcq.store o (σ.view t l) (σ.cells l) ⟨s.word l, count⟩
    (σ.write l cell).move t s l v

/-- The thread reads or writes the value in slot `p`. -/
def WeakState.value (p : Nat) : Option (WeakState w V) :=
  (σ.ring.stepThread C t spurious).map fun s =>
    { σ with
      ring := s
      known := Function.update σ.known t (σ.accesses.length :: σ.known t)
      accesses := σ.accesses ++ [⟨p, σ.known t⟩] }

def WeakState.stepThread : Option (WeakState w V) :=
  match (σ.ring.pc t).access C with
  | .plain => none
  | .load l o => σ.load C t spurious i l o
  | .cas l expected => σ.cas C t spurious i l expected
  | .store l o count => σ.store C t spurious l o count
  | .value p => σ.value C t spurious p

def WeakState.exec : Act V × Nat → Option (WeakState w V)
  | (.step t spurious, i) => σ.stepThread C t spurious i
  | (.call t c, _) => (ArrayQueue.exec C σ.ring (.call t c)).map fun s => { σ with ring := s }

end

end RefCount.ArrayQueue
