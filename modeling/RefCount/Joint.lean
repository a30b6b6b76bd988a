import RefCount.ArrayQueue
import RefCount.Machine

/-!
# The counter and its queue together

`struct RefCount` has the count word and an `ArrayQueue` of waiters. `Machine` takes the
queue for a list and each of its operations for one step; here the steps of the counter and
those inside `push` and `pop` interleave, access by access. The capacity of the queue is
`MAX_WAITING`, and the list of the counter's own state stays empty.
-/

namespace RefCount

structure Joint (w : Nat) where
  counter : Sys
  queue : ArrayQueue.State w Waiter

def Joint.new (w : Nat) : Joint w := ⟨Sys.new, ArrayQueue.State.new w Waiter⟩

/-- The call of the queue that the code makes here. -/
def Pc.queueOp : Pc → Option (Fifo.Op Waiter)
  | .releasePop _ _ => some .pop
  | .registerPush f waker => some (.push ⟨waker, f⟩)
  | _ => none

/-- Where the code goes on with what that call returns. -/
def Pc.resume : Fifo.Ret Waiter → Pc → Pc
  | .option (some waiter), .releasePop op _ => .wakeSetRegistered (.release op) waiter
  | .option none, .releasePop op true => .releasePop op false
  | .option none, .releasePop op false => .done op.res
  | .result (.ok ()), .registerPush f waker => .registeredStore f waker
  | .result (.error waiter), .registerPush _ _ => .wakeSetRegistered .queueFull waiter
  | _, p => p

section
variable {w : Nat}

/-- What follows on the return of `push` or `pop` belongs to its last step. -/
def Joint.return (s : Joint w) (t : ThreadId) (queue : ArrayQueue.State w Waiter) : Joint w :=
  match queue.pc t with
  | .done (.ret r) => ⟨s.counter.setPc t ((s.counter.pc t).resume r), queue⟩
  | _ => ⟨s.counter, queue⟩

def Joint.stepQueue (cfg : Config) (s : Joint w) (t : ThreadId) (op : Fifo.Op Waiter) (spurious : Bool) :
    Option (Joint w) :=
  match s.queue.pc t with
  | .done _ => some ⟨s.counter, s.queue.call t (.op op)⟩
  | _ => (s.queue.stepThread cfg.maxWaiting t spurious).map (s.return t)

def Joint.stepCounter (cfg : Config) (s : Joint w) (a : Act) : Option (Joint w) :=
  (RefCount.exec cfg s.counter a).map fun counter => ⟨counter, s.queue⟩

def Joint.exec (cfg : Config) (s : Joint w) : Act → Option (Joint w)
  | .step t spurious =>
    match (s.counter.pc t).queueOp with
    | some op => s.stepQueue cfg t op spurious
    | none => s.stepCounter cfg (.step t spurious)
  | a => s.stepCounter cfg a

end

end RefCount
