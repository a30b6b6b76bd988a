import Mathlib.Data.Nat.Log
import RefCount.Fifo
import RefCount.Lts
import RefCount.Stamp

/-!
# `ArrayQueue` as a machine of atomic steps

`array_queue.rs`. As in the machine of the reference counter a program counter stands
in front of the next access to shared memory: `head`, `tail`, the stamp of a slot, and
the value of a slot, whose reads and writes are steps of their own. Words have `w`
bits. What would be undefined behaviour or a panic leads to `fault`: an unchecked
addition that overflows, an index that is not below `C`, a read of a slot that holds
no value, a write over a value that nobody took.
-/

namespace RefCount.ArrayQueue

open Linear

abbrev Tid := Nat

/-! ## Stamps -/

/-- `(C + 1).next_power_of_two()` is `2 ^ lapBits C`. -/
def lapBits (C : Nat) : Nat := Nat.clog 2 (C + 1)

def oneLap (w C : Nat) : BitVec w := Stamp.lapSize w (lapBits C)

section
variable {w : Nat} (C : Nat)

def index (x : BitVec w) : BitVec w := x &&& (oneLap w C - 1)

def lap (x : BitVec w) : BitVec w := x &&& ~~~(oneLap w C - 1)

def checkedAdd (x y : BitVec w) : Option (BitVec w) := if x.toNat + y.toNat < 2 ^ w then some (x + y) else none

def checkedSub (x y : BitVec w) : Option (BitVec w) := if y.toNat ≤ x.toNat then some (x - y) else none

/-- `new_tail` of `push_or_else`, and `new` of `pop`. -/
def newStamp (x : BitVec w) : Option (BitVec w) :=
  (checkedAdd (index C x) 1).bind fun i => if i.toNat < C then checkedAdd x 1 else some (lap C x + oneLap w C)

/-- The macro `queue_size!`. -/
def queueSize (head tail : BitVec w) : Option (BitVec w) :=
  if (index C head).toNat < (index C tail).toNat then checkedSub (index C tail) (index C head)
  else if (index C tail).toNat < (index C head).toNat then
    (checkedSub (BitVec.ofNat w C) (index C head)).bind fun n => checkedAdd n (index C tail)
  else if tail = head then some 0
  else some (BitVec.ofNat w C)

end

/-! ## The state -/

structure Slot (w : Nat) (V : Type) where
  stamp : BitVec w
  value : Option V

/-- A word loaded from `head` or `tail`. `count` says how often that counter had moved
when it was loaded. -/
structure Loaded (w : Nat) where
  stamp : BitVec w
  count : Nat

inductive PushOp where
  | push
  | forcePush
  deriving DecidableEq, Repr

inductive Call (V : Type) where
  | op (op : Fifo.Op V)
  | isEmpty
  | isFull
  | len
  deriving DecidableEq

inductive Res (V : Type) where
  | unit
  | ret (r : Fifo.Ret V)
  | bool (b : Bool)
  | size (n : Nat)
  deriving DecidableEq

inductive Pc (w : Nat) (V : Type) where
  | done (r : Res V)
  | fault
  | pushLoadTail (op : PushOp) (value : V)
  | pushLoadStamp (op : PushOp) (value : V) (tail : Loaded w)
  | pushCasTail (op : PushOp) (value : V) (tail : Loaded w)
  | pushWrite (op : PushOp) (value : V) (tail : Loaded w)
  | pushStoreStamp (op : PushOp) (tail : Loaded w)
  | pushLoadHead (value : V) (tail : Loaded w)
  | forceCasHead (value : V) (tail : Loaded w)
  | forceStoreTail (value : V) (tail : Loaded w)
  | forceReplace (value : V) (tail : Loaded w)
  | forceStoreStamp (old : V) (tail : Loaded w)
  | popLoadHead
  | popLoadStamp (head : Loaded w)
  | popCasHead (head : Loaded w)
  | popRead (head : Loaded w)
  | popStoreStamp (msg : V) (head : Loaded w)
  | popLoadTail (head : Loaded w)
  | isEmptyLoadHead
  | isEmptyLoadTail (head : BitVec w)
  | isFullLoadTail
  | isFullLoadHead (tail : BitVec w)
  | lenLoadTail
  | lenLoadHead (tail : BitVec w)
  | lenLoadTailAgain (tail head : BitVec w)

/-- `heads` and `tails` count the moves of `head` and `tail`; `hist` is every call and
return of `push`, `force_push` and `pop` so far. -/
structure State (w : Nat) (V : Type) where
  head : BitVec w
  tail : BitVec w
  buffer : Nat → Slot w V
  pc : Tid → Pc w V
  heads : Nat
  tails : Nat
  hist : List (Event (Fifo.Op V) (Fifo.Ret V))

/-- `ArrayQueue::new`, which panics if `C` is zero. -/
def State.new (w : Nat) (V : Type) : State w V where
  head := 0
  tail := 0
  buffer := fun i => ⟨BitVec.ofNat w i, none⟩
  pc := fun _ => .done .unit
  heads := 0
  tails := 0
  hist := []

section
variable {w : Nat} {V : Type} (C : Nat)

def State.setPc (s : State w V) (t : Tid) (p : Pc w V) : State w V := { s with pc := Function.update s.pc t p }

def State.loadTail (s : State w V) : Loaded w := ⟨s.tail, s.tails⟩

def State.loadHead (s : State w V) : Loaded w := ⟨s.head, s.heads⟩

def State.slot (s : State w V) (x : BitVec w) : Slot w V := s.buffer (index C x).toNat

def State.setStamp (s : State w V) (x stamp : BitVec w) : State w V :=
  { s with buffer := Function.update s.buffer (index C x).toNat { s.slot C x with stamp := stamp } }

def State.setValue (s : State w V) (x : BitVec w) (value : Option V) : State w V :=
  { s with buffer := Function.update s.buffer (index C x).toNat { s.slot C x with value := value } }

def State.return (s : State w V) (t : Tid) (r : Fifo.Ret V) : State w V :=
  State.setPc { s with hist := s.hist ++ [.ret t r] } t (.done (.ret r))

/-! ## `push_or_else` -/

def PushOp.op (value : V) : PushOp → Fifo.Op V
  | .push => .push value
  | .forcePush => .forcePush value

/-- What is returned after `Ok(())` of `push_or_else`. -/
def PushOp.ok : PushOp → Fifo.Ret V
  | .push => .result (.ok ())
  | .forcePush => .option none

def PushOp.full (value : V) (tail : Loaded w) : PushOp → Pc w V
  | .push => .pushLoadHead value tail
  | .forcePush => .forceCasHead value tail

def State.pushLoadStamp (s : State w V) (t : Tid) (op : PushOp) (value : V) (tail : Loaded w) : State w V :=
  match newStamp C tail.stamp with
  | none => s.setPc t .fault
  | some _ =>
    if (index C tail.stamp).toNat < C then
      if tail.stamp = (s.slot C tail.stamp).stamp then s.setPc t (.pushCasTail op value tail)
      else
        match checkedAdd tail.stamp 1 with
        | none => s.setPc t .fault
        | some next =>
          if (s.slot C tail.stamp).stamp + oneLap w C = next then s.setPc t (op.full value tail)
          else s.setPc t (.pushLoadTail op value)
    else s.setPc t .fault

def State.pushCasTail (s : State w V) (t : Tid) (op : PushOp) (value : V) (tail : Loaded w) (spurious : Bool) :
    State w V :=
  if s.tail = tail.stamp ∧ spurious = false then
    match newStamp C tail.stamp with
    | none => s.setPc t .fault
    | some newTail =>
      State.setPc { s with tail := newTail, tails := s.tails + 1 } t (.pushWrite op value tail)
  else s.setPc t (.pushLoadStamp op value s.loadTail)

/-- The write does not drop what is in the slot. -/
def State.pushWrite (s : State w V) (t : Tid) (op : PushOp) (value : V) (tail : Loaded w) : State w V :=
  match (s.slot C tail.stamp).value with
  | some _ => s.setPc t .fault
  | none => (s.setValue C tail.stamp (some value)).setPc t (.pushStoreStamp op tail)

/-- `slot.stamp.store(tail + 1)`, the last access of both ways to push. -/
def State.publish (s : State w V) (t : Tid) (tail : Loaded w) (r : Fifo.Ret V) : State w V :=
  match checkedAdd tail.stamp 1 with
  | none => s.setPc t .fault
  | some stamp => (s.setStamp C tail.stamp stamp).return t r

/-! ## The closures of `push` and `force_push` -/

def State.pushLoadHead (s : State w V) (t : Tid) (value : V) (tail : Loaded w) : State w V :=
  if s.head + oneLap w C = tail.stamp then s.return t (.result (.error value))
  else s.setPc t (.pushLoadTail .push value)

def State.forceCasHead (s : State w V) (t : Tid) (value : V) (tail : Loaded w) (spurious : Bool) : State w V :=
  match newStamp C tail.stamp with
  | none => s.setPc t .fault
  | some newTail =>
    if s.head = tail.stamp - oneLap w C ∧ spurious = false then
      State.setPc { s with head := newTail - oneLap w C, heads := s.heads + 1 } t (.forceStoreTail value tail)
    else s.setPc t (.pushLoadTail .forcePush value)

def State.forceStoreTail (s : State w V) (t : Tid) (value : V) (tail : Loaded w) : State w V :=
  match newStamp C tail.stamp with
  | none => s.setPc t .fault
  | some newTail => State.setPc { s with tail := newTail, tails := s.tails + 1 } t (.forceReplace value tail)

def State.forceReplace (s : State w V) (t : Tid) (value : V) (tail : Loaded w) : State w V :=
  match (s.slot C tail.stamp).value with
  | none => s.setPc t .fault
  | some old => (s.setValue C tail.stamp (some value)).setPc t (.forceStoreStamp old tail)

/-! ## `pop` -/

def State.popLoadStamp (s : State w V) (t : Tid) (head : Loaded w) : State w V :=
  if (index C head.stamp).toNat < C then
    match checkedAdd head.stamp 1 with
    | none => s.setPc t .fault
    | some next =>
      if next = (s.slot C head.stamp).stamp then s.setPc t (.popCasHead head)
      else if (s.slot C head.stamp).stamp = head.stamp then s.setPc t (.popLoadTail head)
      else s.setPc t .popLoadHead
  else s.setPc t .fault

def State.popCasHead (s : State w V) (t : Tid) (head : Loaded w) (spurious : Bool) : State w V :=
  match newStamp C head.stamp with
  | none => s.setPc t .fault
  | some new =>
    if s.head = head.stamp ∧ spurious = false then
      State.setPc { s with head := new, heads := s.heads + 1 } t (.popRead head)
    else s.setPc t (.popLoadStamp s.loadHead)

def State.popRead (s : State w V) (t : Tid) (head : Loaded w) : State w V :=
  match (s.slot C head.stamp).value with
  | none => s.setPc t .fault
  | some msg => (s.setValue C head.stamp none).setPc t (.popStoreStamp msg head)

def State.popStoreStamp (s : State w V) (t : Tid) (msg : V) (head : Loaded w) : State w V :=
  (s.setStamp C head.stamp (head.stamp + oneLap w C)).return t (.option (some msg))

def State.popLoadTail (s : State w V) (t : Tid) (head : Loaded w) : State w V :=
  if s.tail = head.stamp then s.return t (.option none)
  else s.setPc t .popLoadHead

/-! ## `is_empty`, `is_full` and `len` -/

def State.lenLoadTailAgain (s : State w V) (t : Tid) (tail head : BitVec w) : State w V :=
  if s.tail = tail then
    match queueSize C head tail with
    | none => s.setPc t .fault
    | some n => s.setPc t (.done (.size n.toNat))
  else s.setPc t .lenLoadTail

/-! ## Steps -/

/-- The next atomic step of thread `t`; a `compare_exchange_weak` it makes fails
spuriously if `spurious` says so. -/
def State.stepThread (s : State w V) (t : Tid) (spurious : Bool) : Option (State w V) :=
  match s.pc t with
  | .done _ => none
  | .fault => none
  | .pushLoadTail op value => some (s.setPc t (.pushLoadStamp op value s.loadTail))
  | .pushLoadStamp op value tail => some (s.pushLoadStamp C t op value tail)
  | .pushCasTail op value tail => some (s.pushCasTail C t op value tail spurious)
  | .pushWrite op value tail => some (s.pushWrite C t op value tail)
  | .pushStoreStamp op tail => some (s.publish C t tail op.ok)
  | .pushLoadHead value tail => some (s.pushLoadHead C t value tail)
  | .forceCasHead value tail => some (s.forceCasHead C t value tail spurious)
  | .forceStoreTail value tail => some (s.forceStoreTail C t value tail)
  | .forceReplace value tail => some (s.forceReplace C t value tail)
  | .forceStoreStamp old tail => some (s.publish C t tail (.option (some old)))
  | .popLoadHead => some (s.setPc t (.popLoadStamp s.loadHead))
  | .popLoadStamp head => some (s.popLoadStamp C t head)
  | .popCasHead head => some (s.popCasHead C t head spurious)
  | .popRead head => some (s.popRead C t head)
  | .popStoreStamp msg head => some (s.popStoreStamp C t msg head)
  | .popLoadTail head => some (s.popLoadTail t head)
  | .isEmptyLoadHead => some (s.setPc t (.isEmptyLoadTail s.head))
  | .isEmptyLoadTail head => some (s.setPc t (.done (.bool (s.tail = head))))
  | .isFullLoadTail => some (s.setPc t (.isFullLoadHead s.tail))
  | .isFullLoadHead tail => some (s.setPc t (.done (.bool (s.head + oneLap w C = tail))))
  | .lenLoadTail => some (s.setPc t (.lenLoadHead s.tail))
  | .lenLoadHead tail => some (s.setPc t (.lenLoadTailAgain tail s.head))
  | .lenLoadTailAgain tail head => some (s.lenLoadTailAgain C t tail head)

def opStart : Fifo.Op V → Pc w V
  | .push value => .pushLoadTail .push value
  | .forcePush value => .pushLoadTail .forcePush value
  | .pop => .popLoadHead

def State.call (s : State w V) (t : Tid) : Call V → State w V
  | .op op => State.setPc { s with hist := s.hist ++ [.call t op] } t (opStart op)
  | .isEmpty => s.setPc t .isEmptyLoadHead
  | .isFull => s.setPc t .isFullLoadTail
  | .len => s.setPc t .lenLoadTail

inductive Act (V : Type) where
  | call (t : Tid) (c : Call V)
  | step (t : Tid) (spurious : Bool)
  deriving DecidableEq

def exec (s : State w V) : Act V → Option (State w V)
  | .call t c =>
    match s.pc t with
    | .done _ => some (s.call t c)
    | _ => none
  | .step t spurious => s.stepThread C t spurious

end

end RefCount.ArrayQueue
