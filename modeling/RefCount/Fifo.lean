import RefCount.Linear

/-!
# A bounded queue

What a queue of capacity `C` is for: a list of at most `C` values, where `push` fails
on a full list and `forcePush` makes room by handing out the oldest value.
-/

namespace Fifo

open Linear

inductive Op (V : Type) where
  | push (value : V)
  | forcePush (value : V)
  | pop
  deriving DecidableEq, Repr

/-- `result` is what `push` returns, `option` what the other two do. -/
inductive Ret (V : Type) where
  | result (r : Except V Unit)
  | option (value : Option V)
  deriving DecidableEq

section
variable {V : Type} (C : Nat)

def apply (l : List V) : Op V → Ret V × List V
  | .push v => if l.length < C then (.result (.ok ()), l ++ [v]) else (.result (.error v), l)
  | .forcePush v => if l.length < C then (.option none, l ++ [v]) else (.option l.head?, l.tail ++ [v])
  | .pop => (.option l.head?, l.tail)

def object : Object (List V) (Op V) (Ret V) := ⟨[], apply C⟩

/-- The value that an operation with this result put into the queue. -/
def accepted : Op V × Ret V → Option V
  | (.push v, .result (.ok ())) => some v
  | (.forcePush v, _) => some v
  | _ => none

/-- The value that an operation with this result took out of the queue. -/
def handedOut : Op V × Ret V → Option V
  | (.forcePush _, .option value) => value
  | (.pop, .option value) => value
  | _ => none

variable {C}

theorem apply_length (hC : 0 < C) {l : List V} (hl : l.length ≤ C) (op : Op V) : (apply C l op).2.length ≤ C := by
  cases op with
  | push v =>
    simp only [apply]
    split
    · rw [List.length_append]; exact ‹_›
    · exact hl
  | forcePush v =>
    simp only [apply]
    split
    · rw [List.length_append]; exact ‹_›
    · simp only [List.length_append, List.length_tail, List.length_singleton]
      omega
  | pop =>
    simp only [apply, List.length_tail]
    omega

theorem apply_conserves (hC : 0 < C) (l : List V) (op : Op V) :
    l ++ (accepted (op, (apply C l op).1)).toList =
      (handedOut (op, (apply C l op).1)).toList ++ (apply C l op).2 := by
  cases op with
  | push v =>
    simp only [apply]
    split
    · rfl
    · exact List.append_nil l
  | forcePush v =>
    simp only [apply]
    split
    · rfl
    · cases l with
      | nil => exact absurd hC ‹_›
      | cons x l => rfl
  | pop =>
    cases l with
    | nil => rfl
    | cons x l => exact List.append_nil _

/-- The values accepted are those handed out, in this order, and those still held. -/
theorem legal_conserves (hC : 0 < C) {q : List V} {l : List (Op V × Ret V)} (h : (object C).Legal q l) :
    q ++ l.filterMap accepted = l.filterMap handedOut ++ (object C).final q l := by
  induction l generalizing q with
  | nil => exact List.append_nil q
  | cons x l ih =>
    obtain ⟨op, r⟩ := x
    obtain ⟨hr, h⟩ := h
    have hr : (apply C q op).1 = r := hr
    subst hr
    have ih : (apply C q op).2 ++ l.filterMap accepted =
      l.filterMap handedOut ++ (object C).final (apply C q op).2 l := ih h
    have hcons : ∀ (f : Op V × Ret V → Option V) x, (x :: l).filterMap f = (f x).toList ++ l.filterMap f := by
      intro f x
      cases hx : f x <;> simp [hx]
    calc q ++ List.filterMap accepted ((op, (apply C q op).1) :: l)
        = (q ++ (accepted (op, (apply C q op).1)).toList) ++ l.filterMap accepted := by
          rw [hcons, List.append_assoc]
      _ = (handedOut (op, (apply C q op).1)).toList ++ ((apply C q op).2 ++ l.filterMap accepted) := by
          rw [apply_conserves hC, List.append_assoc]
      _ = List.filterMap handedOut ((op, (apply C q op).1) :: l) ++
            (object C).final q ((op, (apply C q op).1) :: l) := by
          rw [ih, hcons, List.append_assoc]; rfl

end

end Fifo
