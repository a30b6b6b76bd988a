import RefCount.ArrayQueue

/-!
# What one step of the queue can do

`Moved` lists what a step of the queue does to the program counter of its thread, to the
number of moves of `head` and `tail` and to the history, whatever it does to the slots;
`stepThread_moved` reads it off `stepThread`. What depends on these alone is proved by
cases on `Moved`.
-/

namespace RefCount.ArrayQueue

section
variable {w : Nat} {V : Type}

/-- The moves of a thread that leaves both counters alone. -/
inductive Jump (s : State w V) : Pc w V → Pc w V → Prop
  | pushLoadTail {op : PushOp} {v : V} : Jump s (.pushLoadTail op v) (.pushLoadStamp op v s.loadTail)
  | pushFree {op : PushOp} {v : V} {x : Loaded w} : Jump s (.pushLoadStamp op v x) (.pushCasTail op v x)
  | pushFull {op : PushOp} {v : V} {x : Loaded w} : Jump s (.pushLoadStamp op v x) (op.full v x)
  | pushStale {op : PushOp} {v : V} {x : Loaded w} : Jump s (.pushLoadStamp op v x) (.pushLoadTail op v)
  | pushMiss {op : PushOp} {v : V} {x : Loaded w} :
      Jump s (.pushCasTail op v x) (.pushLoadStamp op v s.loadTail)
  | pushWrite {op : PushOp} {v : V} {x : Loaded w} : Jump s (.pushWrite op v x) (.pushStoreStamp op x)
  | pushNotFull {v : V} {x : Loaded w} : Jump s (.pushLoadHead v x) (.pushLoadTail .push v)
  | forceMiss {v : V} {x : Loaded w} : Jump s (.forceCasHead v x) (.pushLoadTail .forcePush v)
  | forceReplace {v old : V} {x : Loaded w} : Jump s (.forceReplace v x) (.forceStoreStamp old x)
  | popLoadHead : Jump s .popLoadHead (.popLoadStamp s.loadHead)
  | popFull {x : Loaded w} : Jump s (.popLoadStamp x) (.popCasHead x)
  | popFree {x : Loaded w} : Jump s (.popLoadStamp x) (.popLoadTail x)
  | popStale {x : Loaded w} : Jump s (.popLoadStamp x) .popLoadHead
  | popMiss {x : Loaded w} : Jump s (.popCasHead x) (.popLoadStamp s.loadHead)
  | popRead {msg : V} {x : Loaded w} : Jump s (.popRead x) (.popStoreStamp msg x)
  | popNotEmpty {x : Loaded w} : Jump s (.popLoadTail x) .popLoadHead
  | isEmptyLoadHead : Jump s .isEmptyLoadHead (.isEmptyLoadTail s.head)
  | isEmptyLoadTail {x : BitVec w} : Jump s (.isEmptyLoadTail x) (.done (.bool (s.tail = x)))
  | isFullLoadTail : Jump s .isFullLoadTail (.isFullLoadHead s.tail)
  | isFullLoadHead {b : Bool} {x : BitVec w} : Jump s (.isFullLoadHead x) (.done (.bool b))
  | lenLoadTail : Jump s .lenLoadTail (.lenLoadHead s.tail)
  | lenLoadHead {x : BitVec w} : Jump s (.lenLoadHead x) (.lenLoadTailAgain x s.head)
  | lenSame {x y : BitVec w} {n : Nat} : Jump s (.lenLoadTailAgain x y) (.done (.size n))
  | lenMoved {x y : BitVec w} : Jump s (.lenLoadTailAgain x y) .lenLoadTail
  | fault {p : Pc w V} : Jump s p .fault

/-- The moves of a thread that moves `head`: a `force_push` needs the `head` it expects. -/
inductive MovesHead (C : Nat) (s : State w V) (spurious : Bool) : Pc w V → Pc w V → Prop
  | force {v : V} {x : Loaded w} : s.head = x.stamp - oneLap w C ∧ spurious = false →
      MovesHead C s spurious (.forceCasHead v x) (.forceStoreTail v x)
  | pop {x : Loaded w} : MovesHead C s spurious (.popCasHead x) (.popRead x)

inductive MovesTail : Pc w V → Pc w V → Prop
  | push {op : PushOp} {v : V} {x : Loaded w} : MovesTail (.pushCasTail op v x) (.pushWrite op v x)
  | force {v : V} {x : Loaded w} : MovesTail (.forceStoreTail v x) (.forceReplace v x)

inductive Moved (C : Nat) (s s' : State w V) (t : Tid) (spurious : Bool) : Prop
  | jump {q : Pc w V} : Jump s (s.pc t) q → s'.pc = Function.update s.pc t q → s'.heads = s.heads → s'.tails = s.tails →
      s'.hist = s.hist → Moved C s s' t spurious
  | head {q : Pc w V} : MovesHead C s spurious (s.pc t) q → s'.pc = Function.update s.pc t q → s'.heads = s.heads + 1 →
      s'.tails = s.tails → s'.hist = s.hist → Moved C s s' t spurious
  | tail {q : Pc w V} : MovesTail (s.pc t) q → s'.pc = Function.update s.pc t q → s'.heads = s.heads →
      s'.tails = s.tails + 1 → s'.hist = s.hist → Moved C s s' t spurious
  | ret {r : Fifo.Ret V} : s'.pc = Function.update s.pc t (.done (.ret r)) → s'.heads = s.heads → s'.tails = s.tails →
      s'.hist = s.hist ++ [.ret t r] → Moved C s s' t spurious

end

section
variable {w C : Nat} {V : Type} {s s' : State w V} {t : Tid}

theorem stepThread_moved {b : Bool} (h : s.stepThread C t b = some s') : Moved C s s' t b := by
  have hjump : ∀ {p q : Pc w V}, s.pc t = p → Jump s p q → Moved C s (s.setPc t q) t b := by
    intro p q hpc hj
    exact .jump (hpc ▸ hj) rfl rfl rfl rfl
  unfold State.stepThread at h
  cases hpc : s.pc t with
  | done r => rw [hpc] at h; cases h
  | fault => rw [hpc] at h; cases h
  | pushLoadTail op v => rw [hpc] at h; cases h; exact hjump hpc .pushLoadTail
  | pushLoadStamp op v x =>
    rw [hpc] at h; cases h
    unfold State.pushLoadStamp
    repeat' split
    · exact hjump hpc .fault
    · exact hjump hpc .pushFree
    · exact hjump hpc .fault
    · exact hjump hpc .pushFull
    · exact hjump hpc .pushStale
    · exact hjump hpc .fault
  | pushCasTail op v x =>
    rw [hpc] at h; cases h
    unfold State.pushCasTail
    repeat' split
    · exact hjump hpc .fault
    · exact .tail (hpc ▸ .push) rfl rfl rfl rfl
    · exact hjump hpc .pushMiss
  | pushWrite op v x =>
    rw [hpc] at h; cases h
    unfold State.pushWrite
    split
    · exact hjump hpc .fault
    · exact .jump (hpc ▸ .pushWrite) rfl rfl rfl rfl
  | pushStoreStamp op x =>
    rw [hpc] at h; cases h
    unfold State.publish
    split
    · exact hjump hpc .fault
    · exact .ret rfl rfl rfl rfl
  | pushLoadHead v x =>
    rw [hpc] at h; cases h
    unfold State.pushLoadHead
    split
    · exact .ret rfl rfl rfl rfl
    · exact hjump hpc .pushNotFull
  | forceCasHead v x =>
    rw [hpc] at h; cases h
    unfold State.forceCasHead
    repeat' split
    · exact hjump hpc .fault
    · rename_i hcas
      exact .head (hpc ▸ .force hcas) rfl rfl rfl rfl
    · exact hjump hpc .forceMiss
  | forceStoreTail v x =>
    rw [hpc] at h; cases h
    unfold State.forceStoreTail
    split
    · exact hjump hpc .fault
    · exact .tail (hpc ▸ .force) rfl rfl rfl rfl
  | forceReplace v x =>
    rw [hpc] at h; cases h
    unfold State.forceReplace
    split
    · exact hjump hpc .fault
    · exact .jump (hpc ▸ .forceReplace) rfl rfl rfl rfl
  | forceStoreStamp old x =>
    rw [hpc] at h; cases h
    unfold State.publish
    split
    · exact hjump hpc .fault
    · exact .ret rfl rfl rfl rfl
  | popLoadHead => rw [hpc] at h; cases h; exact hjump hpc .popLoadHead
  | popLoadStamp x =>
    rw [hpc] at h; cases h
    unfold State.popLoadStamp
    repeat' split
    · exact hjump hpc .fault
    · exact hjump hpc .popFull
    · exact hjump hpc .popFree
    · exact hjump hpc .popStale
    · exact hjump hpc .fault
  | popCasHead x =>
    rw [hpc] at h; cases h
    unfold State.popCasHead
    repeat' split
    · exact hjump hpc .fault
    · exact .head (hpc ▸ .pop) rfl rfl rfl rfl
    · exact hjump hpc .popMiss
  | popRead x =>
    rw [hpc] at h; cases h
    unfold State.popRead
    split
    · exact hjump hpc .fault
    · exact .jump (hpc ▸ .popRead) rfl rfl rfl rfl
  | popStoreStamp msg x => rw [hpc] at h; cases h; exact .ret rfl rfl rfl rfl
  | popLoadTail x =>
    rw [hpc] at h; cases h
    unfold State.popLoadTail
    split
    · exact .ret rfl rfl rfl rfl
    · exact hjump hpc .popNotEmpty
  | isEmptyLoadHead => rw [hpc] at h; cases h; exact hjump hpc .isEmptyLoadHead
  | isEmptyLoadTail x => rw [hpc] at h; cases h; exact hjump hpc .isEmptyLoadTail
  | isFullLoadTail => rw [hpc] at h; cases h; exact hjump hpc .isFullLoadTail
  | isFullLoadHead x => rw [hpc] at h; cases h; exact hjump hpc .isFullLoadHead
  | lenLoadTail => rw [hpc] at h; cases h; exact hjump hpc .lenLoadTail
  | lenLoadHead x => rw [hpc] at h; cases h; exact hjump hpc .lenLoadHead
  | lenLoadTailAgain x y =>
    rw [hpc] at h; cases h
    unfold State.lenLoadTailAgain
    repeat' split
    · exact hjump hpc .fault
    · exact hjump hpc .lenSame
    · exact hjump hpc .lenMoved

end

end RefCount.ArrayQueue
