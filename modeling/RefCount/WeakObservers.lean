import RefCount.WeakHistories

/-!
# What the observers report under the orderings

`len`, `is_empty` and `is_full` load `head` and `tail` with `SeqCst`, as all writes to these
are made, and so read the last words. What the others read meanwhile may be old: such a load
is no step of the ring, but moves neither counter and begins no eviction.
-/

namespace RefCount.ArrayQueue

open Lts RelAcq

section
variable {w C : Nat} {V : Type} {σ σ' : WeakState w V} {g g' : Ghost V} {t : Tid} {b : Bool} {l : Loc} {At : Nat → Prop}
  {H T : Nat}

end

end RefCount.ArrayQueue
