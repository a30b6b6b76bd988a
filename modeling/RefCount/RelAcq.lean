import Mathlib.Data.List.Basic
import RefCount.Lts

/-!
# One location under release and acquire

The modification order of an atomic location is a list of messages. An agent has seen it up
to some message and knows of events elsewhere; a load returns any message that is not older
than what the agent has seen. A message carries what its writer released and, if a
read-modify-write made it, what the message before it carried. What acquires, learns it.
-/

namespace RelAcq

open Lts (getElem?_concat)

inductive Order where
  | relaxed
  | acquire
  | release
  | seqCst
  deriving DecidableEq, Repr

def Order.acquires : Order → Bool
  | .acquire => true
  | .seqCst => true
  | _ => false

def Order.releases : Order → Bool
  | .release => true
  | .seqCst => true
  | _ => false

structure View (K : Type) where
  seen : Nat
  known : List K

structure Msg (V K : Type) where
  value : V
  known : List K

section
variable {V K : Type}

def View.join (u v : View K) : View K := ⟨max u.seen v.seen, u.known ++ v.known⟩

/-- The agent reads message `i`, which is `m`. -/
def View.learn (o : Order) (v : View K) (i : Nat) (m : Msg V K) : View K :=
  ⟨i, if o.acquires then v.known ++ m.known else v.known⟩

def View.shares (o : Order) (v : View K) : List K := if o.releases then v.known else []

def readable (cell : List (Msg V K)) (v : View K) (i : Nat) : Option (Msg V K) :=
  if v.seen ≤ i then cell[i]? else none

/-- A read-modify-write reads the last message. The new one is the last then. -/
def rmw (o : Order) (v : View K) (cell : List (Msg V K)) (value : V) : Option (View K × List (Msg V K)) :=
  cell.getLast?.map fun m =>
    (⟨cell.length, (v.learn o 0 m).known⟩, cell ++ [⟨value, m.known ++ v.shares o⟩])

def store (o : Order) (v : View K) (cell : List (Msg V K)) (value : V) : View K × List (Msg V K) :=
  (⟨cell.length, v.known⟩, cell ++ [⟨value, v.shares o⟩])

/-! ## More seen and more known -/

structure View.Le (u v : View K) : Prop where
  seen : u.seen ≤ v.seen
  known : ∀ k ∈ u.known, k ∈ v.known

theorem View.Le.rfl {v : View K} : v.Le v := ⟨Nat.le_refl _, fun _ h => h⟩

theorem View.le_join_left (u v : View K) : u.Le (u.join v) :=
  ⟨Nat.le_max_left _ _, fun _ h => List.mem_append_left _ h⟩

theorem View.le_join_right (u v : View K) : v.Le (u.join v) :=
  ⟨Nat.le_max_right _ _, fun _ h => List.mem_append_right _ h⟩

theorem View.mem_learn {o : Order} {v : View K} {i : Nat} {m : Msg V K} {k : K} (h : k ∈ v.known) :
    k ∈ (v.learn o i m).known := by
  unfold View.learn
  split
  · exact List.mem_append_left _ h
  · exact h

theorem readable_eq_some {cell : List (Msg V K)} {v : View K} {i : Nat} {m : Msg V K} :
    readable cell v i = some m ↔ v.seen ≤ i ∧ cell[i]? = some m := by
  unfold readable
  split
  · simp [*]
  · simp [*]

theorem View.le_learn {o : Order} {v : View K} {i : Nat} {m : Msg V K} {cell : List (Msg V K)}
    (h : readable cell v i = some m) : v.Le (v.learn o i m) :=
  ⟨(readable_eq_some.mp h).1, fun _ => View.mem_learn⟩

theorem View.learn_acquires {o : Order} (ho : o.acquires = true) {v : View K} {i : Nat} {m : Msg V K} {k : K}
    (h : k ∈ m.known) : k ∈ (v.learn o i m).known := by
  unfold View.learn
  rw [if_pos ho]
  exact List.mem_append_right _ h

theorem View.learn_known {o : Order} {v : View K} {i : Nat} {m : Msg V K} {k : K} (h : k ∈ (v.learn o i m).known) :
    k ∈ v.known ∨ k ∈ m.known := by
  unfold View.learn at h
  split at h
  · exact List.mem_append.mp h
  · exact .inl h

theorem View.shares_known {o : Order} {v : View K} {k : K} (h : k ∈ v.shares o) : k ∈ v.known := by
  unfold View.shares at h
  split at h
  · exact h
  · cases h

theorem rmw_appends {o : Order} {v v' : View K} {cell cell' : List (Msg V K)} {value : V}
    (h : rmw o v cell value = some (v', cell')) :
    (∃ known, cell' = cell ++ [⟨value, known⟩]) ∧ ∀ k ∈ v.known, k ∈ v'.known := by
  obtain ⟨m, _, e⟩ := Option.map_eq_some_iff.mp h
  cases e
  exact ⟨⟨_, rfl⟩, fun k => View.mem_learn⟩

/-- A read-modify-write makes known what its agent or the message before it knew. -/
theorem rmw_known {o : Order} {v v' : View K} {cell cell' : List (Msg V K)} {value : V}
    (h : rmw o v cell value = some (v', cell')) : ∃ m ∈ cell, (∀ k ∈ v'.known, k ∈ v.known ∨ k ∈ m.known) ∧
      ∀ m' ∈ cell', m' ∈ cell ∨ ∀ k ∈ m'.known, k ∈ m.known ∨ k ∈ v.known := by
  obtain ⟨m, hm, e⟩ := Option.map_eq_some_iff.mp h
  cases e
  refine ⟨m, List.mem_of_getLast? hm, fun _ => View.learn_known, fun m' hm' => ?_⟩
  rcases List.mem_append.mp hm' with hm' | hm'
  · exact .inl hm'
  · obtain rfl := List.mem_singleton.mp hm'
    exact .inr fun k hk => (List.mem_append.mp hk).imp id View.shares_known

theorem View.mem_shares {o : Order} (ho : o.releases = true) {v : View K} {k : K} (h : k ∈ v.known) : k ∈ v.shares o := by
  unfold View.shares
  rw [if_pos ho]
  exact h

/-! ## What an agent may still read -/

/-- Every message that an agent with view `v` may read meets `P`. -/
def View.Sees (v : View K) (cell : List (Msg V K)) (P : Nat → V → Prop) : Prop :=
  ∀ i m, v.seen ≤ i → cell[i]? = some m → P i m.value

variable {v : View K} {cell : List (Msg V K)} {P Q : Nat → V → Prop}

theorem View.Sees.of_le (h : v.Sees cell P) {u : View K} (hle : v.Le u) : u.Sees cell P :=
  fun i m hi hm => h i m (Nat.le_trans hle.seen hi) hm

theorem View.Sees.read (h : v.Sees cell P) {i : Nat} {m : Msg V K} (hr : readable cell v i = some m) :
    P i m.value :=
  h i m (readable_eq_some.mp hr).1 (readable_eq_some.mp hr).2

theorem View.Sees.append (h : v.Sees cell P) {m : Msg V K} (hQ : ∀ i w, i < cell.length → P i w → Q i w)
    (hm : Q cell.length m.value) : v.Sees (cell ++ [m]) Q := by
  intro i n hi hn
  rcases getElem?_concat hn with hn | ⟨rfl, rfl⟩
  · exact hQ i n.value (List.getElem?_eq_some_iff.mp hn).1 (h i n hi hn)
  · exact hm

/-- The agent that wrote the last message reads no other. -/
theorem sees_last {m : Msg V K} (hv : v.seen = cell.length) (hm : P cell.length m.value) : v.Sees (cell ++ [m]) P := by
  intro i n hi hn
  have hlen := (List.getElem?_eq_some_iff.mp hn).1
  rw [List.length_append, List.length_singleton] at hlen
  obtain rfl : i = cell.length := by omega
  rw [List.getElem?_concat_length] at hn
  cases hn
  exact hm

end

end RelAcq
