import Mathlib.Data.List.Induction
import Mathlib.Data.List.Nodup
import Mathlib.Logic.Function.Basic
import Mathlib.Logic.Relation
import RefCount.Lts

/-!
# Linearizability

An object is given by what one operation does to it when nothing else happens. A
history is the sequence of calls and returns that an implementation shows; it is
linearizable if its operations, each at one moment between its call and its return,
can be put in an order in which the object gives the results that were returned.

`Atomic` is the object with clients: a thread calls, its operation takes effect in
one step, and the thread returns the result. Every history of `Atomic` is
linearizable, so an implementation that simulates it, history for history, is too.
-/

namespace Linear

open Lts (getElem?_concat getElem?_mono)

section
variable {Q Op Ret : Type}

structure Object (Q Op Ret : Type) where
  init : Q
  apply : Q → Op → Ret × Q

inductive Event (Op Ret : Type) where
  | call (t : Nat) (op : Op)
  | ret (t : Nat) (r : Ret)
  deriving DecidableEq, Repr

/-- An operation of a history: `called` and `returned` are positions in it. -/
structure Operation (Op Ret : Type) where
  thread : Nat
  op : Op
  called : Nat
  returned : Option (Nat × Ret)
  deriving DecidableEq, Repr

/-- A return ends the operation of its thread that has not returned. -/
def record (ops : List (Operation Op Ret)) (time : Nat) : Event Op Ret → List (Operation Op Ret)
  | .call t op => ops ++ [⟨t, op, time, none⟩]
  | .ret t r => ops.map fun o => if o.thread = t ∧ o.returned.isNone then { o with returned := some (time, r) } else o

def recordFrom (h : List (Event Op Ret)) : List (Operation Op Ret) × Nat :=
  h.foldl (fun x e => (record x.1 x.2 e, x.2 + 1)) ([], 0)

def operations (h : List (Event Op Ret)) : List (Operation Op Ret) := (recordFrom h).1

def Object.Legal (O : Object Q Op Ret) : Q → List (Op × Ret) → Prop
  | _, [] => True
  | q, x :: l => (O.apply q x.1).1 = x.2 ∧ O.Legal (O.apply q x.1).2 l

def Object.final (O : Object Q Op Ret) (q : Q) (l : List (Op × Ret)) : Q := l.foldl (fun q x => (O.apply q x.1).2) q

/-- `l` orders operations, given by their numbers, with their results: every operation
that returned is there with what it returned, none is there twice, and one that
returned before another was called comes before it. -/
structure Linearizes (O : Object Q Op Ret) (ops : List (Operation Op Ret)) (l : List (Nat × Op × Ret)) : Prop where
  once : (l.map Prod.fst).Nodup
  known : ∀ x ∈ l, ∃ o, ops[x.1]? = some o ∧ o.op = x.2.1
  complete : ∀ i o k r, ops[i]? = some o → o.returned = some (k, r) → (i, o.op, r) ∈ l
  legal : O.Legal O.init (l.map Prod.snd)
  realTime : ∀ i j o p k r, ops[i]? = some o → ops[j]? = some p → o.returned = some (k, r) → k < p.called →
    j ∈ l.map Prod.fst → [i, j].Sublist (l.map Prod.fst)

inductive Phase (Op Ret : Type) where
  | idle
  | called (i : Nat) (op : Op)
  | answered (i : Nat) (r : Ret)

structure Atomic (Q Op Ret : Type) where
  object : Q
  phase : Nat → Phase Op Ret
  hist : List (Event Op Ret)
  log : List (Nat × Op × Ret)

def Atomic.new (O : Object Q Op Ret) : Atomic Q Op Ret := ⟨O.init, fun _ => .idle, [], []⟩

inductive Atomic.Step (O : Object Q Op Ret) (a : Atomic Q Op Ret) : Atomic Q Op Ret → Prop
  | call {t : Nat} {op : Op} : a.phase t = .idle →
      Step O a { a with phase := Function.update a.phase t (.called (operations a.hist).length op)
                        hist := a.hist ++ [.call t op] }
  | commit {t i : Nat} {op : Op} : a.phase t = .called i op →
      Step O a { a with object := (O.apply a.object op).2
                        phase := Function.update a.phase t (.answered i (O.apply a.object op).1)
                        log := a.log ++ [(i, op, (O.apply a.object op).1)] }
  | ret {t i : Nat} {r : Ret} : a.phase t = .answered i r →
      Step O a { a with phase := Function.update a.phase t .idle
                        hist := a.hist ++ [.ret t r] }

/-! ## Histories and legal orders grow at the end -/

theorem recordFrom_append (h : List (Event Op Ret)) (e : Event Op Ret) :
    recordFrom (h ++ [e]) = (record (recordFrom h).1 (recordFrom h).2 e, (recordFrom h).2 + 1) := by
  unfold recordFrom
  rw [List.foldl_append]; rfl

theorem recordFrom_snd (h : List (Event Op Ret)) : (recordFrom h).2 = h.length := by
  induction h using List.reverseRecOn with
  | nil => rfl
  | append_singleton h e ih => rw [recordFrom_append, List.length_append, ih]; rfl

theorem operations_append (h : List (Event Op Ret)) (e : Event Op Ret) :
    operations (h ++ [e]) = record (operations h) h.length e := by
  unfold operations
  rw [recordFrom_append, recordFrom_snd]

theorem legal_append {O : Object Q Op Ret} {q : Q} {l : List (Op × Ret)} {x : Op × Ret} (hl : O.Legal q l)
    (hx : (O.apply (O.final q l) x.1).1 = x.2) : O.Legal q (l ++ [x]) := by
  induction l generalizing q with
  | nil => exact ⟨hx, trivial⟩
  | cons y l ih => exact ⟨hl.1, ih hl.2 hx⟩

theorem final_append (O : Object Q Op Ret) (q : Q) (l : List (Op × Ret)) (x : Op × Ret) :
    O.final q (l ++ [x]) = (O.apply (O.final q l) x.1).2 := by
  unfold Object.final
  rw [List.foldl_append]; rfl

/-! ## Every history of the object with clients is linearizable -/

/-- Where the operation number `i` stands. -/
structure Stands (a : Atomic Q Op Ret) (i : Nat) (o : Operation Op Ret) : Prop where
  called : o.called < a.hist.length
  returned : ∀ k r, o.returned = some (k, r) → k < a.hist.length ∧ (i, o.op, r) ∈ a.log
  pending : o.returned = none →
    (a.phase o.thread = .called i o.op ∧ i ∉ a.log.map Prod.fst) ∨
    ∃ r, a.phase o.thread = .answered i r ∧ (i, o.op, r) ∈ a.log

structure Atomic.Inv (O : Object Q Op Ret) (a : Atomic Q Op Ret) : Prop where
  linearizes : Linearizes O (operations a.hist) a.log
  object : a.object = O.final O.init (a.log.map Prod.snd)
  stands : ∀ i o, (operations a.hist)[i]? = some o → Stands a i o
  phases : ∀ t i, (∃ op, a.phase t = .called i op) ∨ (∃ r, a.phase t = .answered i r) →
    ∃ o, (operations a.hist)[i]? = some o ∧ o.thread = t ∧ o.returned = none

variable {O : Object Q Op Ret} {a b : Atomic Q Op Ret}

theorem Atomic.Inv.new (O : Object Q Op Ret) : Atomic.Inv O (Atomic.new O) := by
  refine ⟨⟨List.nodup_nil, nofun, ?_, trivial, ?_⟩, rfl, ?_, ?_⟩
  · intro i o k r h
    simp [Atomic.new, operations, recordFrom] at h
  · intro i j o p k r h
    simp [Atomic.new, operations, recordFrom] at h
  · intro i o h
    simp [Atomic.new, operations, recordFrom] at h
  · intro t i h
    rcases h with ⟨_, h⟩ | ⟨_, h⟩ <;> cases h

/-! ### A call -/

theorem operations_call (h : List (Event Op Ret)) (t : Nat) (op : Op) :
    operations (h ++ [.call t op]) = operations h ++ [⟨t, op, h.length, none⟩] :=
  operations_append h _

theorem Linearizes.call {ops : List (Operation Op Ret)} {l : List (Nat × Op × Ret)} (h : Linearizes O ops l)
    {o : Operation Op Ret} (hn : o.returned = none) (hl : ops.length ∉ l.map Prod.fst) : Linearizes O (ops ++ [o]) l := by
  refine ⟨h.once, ?_, ?_, h.legal, ?_⟩
  · intro x hx
    obtain ⟨p, hp, e⟩ := h.known x hx
    exact ⟨p, getElem?_mono hp, e⟩
  · intro i p k r hp hr
    rcases getElem?_concat hp with hp | ⟨_, rfl⟩
    · exact h.complete i p k r hp hr
    · rw [hn] at hr; cases hr
  · intro i j p q k r hp hq hr hk hj
    rcases getElem?_concat hp with hp | ⟨_, rfl⟩
    · rcases getElem?_concat hq with hq | ⟨rfl, rfl⟩
      · exact h.realTime i j p q k r hp hq hr hk hj
      · exact absurd hj hl
    · rw [hn] at hr; cases hr

theorem Atomic.Inv.call (hi : Atomic.Inv O a) {t : Nat} {op : Op} (ht : a.phase t = .idle) :
    Atomic.Inv O { a with phase := Function.update a.phase t (.called (operations a.hist).length op)
                          hist := a.hist ++ [.call t op] } := by
  have hlog : (operations a.hist).length ∉ a.log.map Prod.fst := by
    intro hm
    obtain ⟨x, hx, e⟩ := List.mem_map.mp hm
    obtain ⟨o, ho, _⟩ := hi.linearizes.known x hx
    obtain ⟨hlt, _⟩ := List.getElem?_eq_some_iff.mp ho
    exact absurd hlt (by rw [e]; exact Nat.lt_irrefl _)
  refine ⟨?_, hi.object, ?_, ?_⟩
  · show Linearizes O (operations (a.hist ++ [.call t op])) a.log
    rw [operations_call]
    exact hi.linearizes.call rfl hlog
  · intro i o ho
    rw [operations_call] at ho
    rcases getElem?_concat ho with ho | ⟨rfl, rfl⟩
    · obtain ⟨hc, hr, hp⟩ := hi.stands i o ho
      refine ⟨Nat.lt_of_lt_of_le hc (by simp), fun k r h => ⟨?_, (hr k r h).2⟩, fun h => ?_⟩
      · exact Nat.lt_of_lt_of_le (hr k r h).1 (by simp)
      · have hne : o.thread ≠ t := by
          intro e
          rcases hp h with ⟨h', _⟩ | ⟨_, h', _⟩
          · rw [e, ht] at h'; cases h'
          · rw [e, ht] at h'; cases h'
        simp only [Function.update_of_ne hne]
        exact hp h
    · exact ⟨by simp, nofun, fun _ => .inl ⟨Function.update_self .., hlog⟩⟩
  · intro u i hu
    rw [operations_call]
    by_cases e : u = t
    · subst e
      simp only [Function.update_self] at hu
      rcases hu with ⟨_, h⟩ | ⟨_, h⟩
      · cases h
        exact ⟨_, List.getElem?_concat_length, rfl, rfl⟩
      · cases h
    · simp only [Function.update_of_ne e] at hu
      obtain ⟨o, ho, h⟩ := hi.phases u i hu
      exact ⟨o, getElem?_mono ho, h⟩

/-! ### An operation takes effect -/

/-- An operation that has been called and is not in the order may come last. -/
theorem Linearizes.commit {ops : List (Operation Op Ret)} {l : List (Nat × Op × Ret)} (h : Linearizes O ops l)
    {i : Nat} {o : Operation Op Ret} (ho : ops[i]? = some o) (hl : i ∉ l.map Prod.fst) {q : Q}
    (hq : q = O.final O.init (l.map Prod.snd)) : Linearizes O ops (l ++ [(i, o.op, (O.apply q o.op).1)]) := by
  refine ⟨?_, ?_, ?_, ?_, ?_⟩
  · rw [List.map_append, List.nodup_append]
    refine ⟨h.once, List.nodup_singleton _, ?_⟩
    intro x hx y hy e
    rw [List.map_singleton, List.mem_singleton] at hy
    rw [e, hy] at hx
    exact hl hx
  · intro x hx
    rcases List.mem_append.mp hx with hx | hx
    · exact h.known x hx
    · rw [List.mem_singleton] at hx
      subst hx
      exact ⟨o, ho, rfl⟩
  · intro j p k r hp hr
    exact List.mem_append_left _ (h.complete j p k r hp hr)
  · rw [List.map_append]
    refine legal_append h.legal ?_
    rw [← hq]
  · intro j m p p' k r hp hp' hr hk hm
    have hj : j ∈ l.map Prod.fst := List.mem_map.mpr ⟨_, h.complete j p k r hp hr, rfl⟩
    rw [List.map_append, List.mem_append] at hm
    rw [List.map_append]
    rcases hm with hm | hm
    · exact (h.realTime j m p p' k r hp hp' hr hk hm).trans (List.sublist_append_left _ _)
    · rw [List.map_singleton, List.mem_singleton] at hm
      subst hm
      exact (List.singleton_sublist.mpr hj).append (List.Sublist.refl [m])

theorem Atomic.Inv.commit (hi : Atomic.Inv O a) {t i : Nat} {op : Op} (ht : a.phase t = .called i op) :
    Atomic.Inv O { a with object := (O.apply a.object op).2
                          phase := Function.update a.phase t (.answered i (O.apply a.object op).1)
                          log := a.log ++ [(i, op, (O.apply a.object op).1)] } := by
  obtain ⟨o₀, ho₀, rfl, hn₀⟩ := hi.phases t i (.inl ⟨op, ht⟩)
  have hnew : o₀.op = op ∧ i ∉ a.log.map Prod.fst := by
    rcases (hi.stands i o₀ ho₀).pending hn₀ with ⟨h, hl⟩ | ⟨_, h, _⟩
    · rw [ht] at h
      injection h with _ h
      exact ⟨h.symm, hl⟩
    · rw [ht] at h; cases h
  obtain ⟨rfl, hlog⟩ := hnew
  refine ⟨hi.linearizes.commit ho₀ hlog hi.object, ?_, ?_, ?_⟩
  · rw [List.map_append, List.map_singleton, final_append, ← hi.object]
  · intro j o ho
    obtain ⟨hc, hr, hp⟩ := hi.stands j o ho
    refine ⟨hc, fun k r h => ⟨(hr k r h).1, List.mem_append_left _ (hr k r h).2⟩, fun h => ?_⟩
    by_cases e : j = i
    · subst e
      rw [ho₀, Option.some.injEq] at ho
      subst ho
      exact .inr ⟨_, Function.update_self .., List.mem_append_right _ List.mem_cons_self⟩
    · have hne : o.thread ≠ o₀.thread := by
        intro e'
        rcases hp h with ⟨h', _⟩ | ⟨_, h', _⟩
        · rw [e', ht] at h'
          injection h' with h' _
          exact e h'.symm
        · rw [e', ht] at h'; cases h'
      simp only [Function.update_of_ne hne]
      rcases hp h with ⟨h', hl⟩ | ⟨r, h', hl⟩
      · refine .inl ⟨h', ?_⟩
        rw [List.map_append, List.mem_append, not_or]
        exact ⟨hl, fun hm => e (by simpa using hm)⟩
      · exact .inr ⟨r, h', List.mem_append_left _ hl⟩
  · intro u j hu
    by_cases e : u = o₀.thread
    · subst e
      simp only [Function.update_self] at hu
      rcases hu with ⟨_, h⟩ | ⟨_, h⟩
      · cases h
      · cases h
        exact ⟨o₀, ho₀, rfl, hn₀⟩
    · simp only [Function.update_of_ne e] at hu
      exact hi.phases u j hu

/-! ### A return -/

def Operation.answer (t time : Nat) (r : Ret) (o : Operation Op Ret) : Operation Op Ret :=
  if o.thread = t ∧ o.returned.isNone then { o with returned := some (time, r) } else o

theorem operations_ret (h : List (Event Op Ret)) (t : Nat) (r : Ret) :
    operations (h ++ [.ret t r]) = (operations h).map (Operation.answer t h.length r) :=
  operations_append h _

theorem answer_fields (t time : Nat) (r : Ret) (o : Operation Op Ret) : (o.answer t time r).thread = o.thread ∧
    (o.answer t time r).op = o.op ∧ (o.answer t time r).called = o.called := by
  unfold Operation.answer
  split <;> exact ⟨rfl, rfl, rfl⟩

theorem answer_cases (t time : Nat) (r : Ret) (o : Operation Op Ret) :
    (o.answer t time r = o ∧ (o.thread = t → o.returned.isSome = true)) ∨
    (o.thread = t ∧ o.returned = none ∧ (o.answer t time r).returned = some (time, r)) := by
  unfold Operation.answer
  by_cases h : o.thread = t ∧ o.returned.isNone
  · rw [if_pos h]
    exact .inr ⟨h.1, Option.isNone_iff_eq_none.mp h.2, rfl⟩
  · rw [if_neg h]
    refine .inl ⟨rfl, fun e => ?_⟩
    cases hr : o.returned with
    | none => exact absurd ⟨e, by rw [hr]; rfl⟩ h
    | some x => rfl

theorem Atomic.Inv.answered (hi : Atomic.Inv O a) {t i j : Nat} {r : Ret} {o : Operation Op Ret}
    (ht : a.phase t = .answered i r) (ho : (operations a.hist)[j]? = some o) (e : o.thread = t)
    (hn : o.returned = none) : j = i ∧ (i, o.op, r) ∈ a.log := by
  subst e
  rcases (hi.stands j o ho).pending hn with ⟨h, _⟩ | ⟨r', h, hl⟩
  · rw [ht] at h; cases h
  · rw [ht] at h
    injection h with h₁ h₂
    subst h₁ h₂
    exact ⟨rfl, hl⟩

theorem Atomic.Inv.ret (hi : Atomic.Inv O a) {t i : Nat} {r : Ret} (ht : a.phase t = .answered i r) :
    Atomic.Inv O { a with phase := Function.update a.phase t .idle, hist := a.hist ++ [.ret t r] } := by
  have hget : ∀ {j : Nat} {o' : Operation Op Ret}, (operations (a.hist ++ [.ret t r]))[j]? = some o' →
      ∃ o, (operations a.hist)[j]? = some o ∧ o' = o.answer t a.hist.length r := by
    intro j o' h
    rw [operations_ret, List.getElem?_map] at h
    obtain ⟨o, ho, e⟩ := Option.map_eq_some_iff.mp h
    exact ⟨o, ho, e.symm⟩
  have hcomp : ∀ j o' k r', (operations (a.hist ++ [.ret t r]))[j]? = some o' → o'.returned = some (k, r') →
      k < a.hist.length + 1 ∧ (j, o'.op, r') ∈ a.log := by
    intro j o' k r' ho' hr
    obtain ⟨o, ho, rfl⟩ := hget ho'
    rcases answer_cases t a.hist.length r o with ⟨e, _⟩ | ⟨e, hn, hs⟩
    · rw [e] at hr ⊢
      obtain ⟨hk, hl⟩ := (hi.stands j o ho).returned k r' hr
      exact ⟨Nat.lt_succ_of_lt hk, hl⟩
    · rw [hs] at hr
      cases hr
      obtain ⟨rfl, hl⟩ := hi.answered ht ho e hn
      rw [(answer_fields t a.hist.length r o).2.1]
      exact ⟨Nat.lt_succ_self _, hl⟩
  refine ⟨⟨hi.linearizes.once, ?_, ?_, hi.linearizes.legal, ?_⟩, hi.object, ?_, ?_⟩
  · intro x hx
    obtain ⟨o, ho, e⟩ := hi.linearizes.known x hx
    refine ⟨o.answer t a.hist.length r, ?_, (answer_fields t a.hist.length r o).2.1.trans e⟩
    rw [operations_ret, List.getElem?_map, ho]; rfl
  · intro j o' k r' ho' hr
    exact (hcomp j o' k r' ho' hr).2
  · intro j m o' p' k r' ho' hp' hr hk hm
    obtain ⟨o, ho, rfl⟩ := hget ho'
    obtain ⟨p, hp, rfl⟩ := hget hp'
    rw [(answer_fields t a.hist.length r p).2.2] at hk
    rcases answer_cases t a.hist.length r o with ⟨e, _⟩ | ⟨e, hn, hs⟩
    · rw [e] at hr
      exact hi.linearizes.realTime j m o p k r' ho hp hr hk hm
    · -- the operation returns only now, after every call there is
      rw [hs] at hr
      cases hr
      exact absurd (hi.stands m p hp).called (Nat.lt_asymm hk)
  · intro j o' ho'
    have hc := hcomp j o'
    obtain ⟨o, ho, rfl⟩ := hget ho'
    obtain ⟨hcall, _, hp⟩ := hi.stands j o ho
    refine ⟨?_, ?_, ?_⟩
    · rw [(answer_fields t a.hist.length r o).2.2]
      exact Nat.lt_of_lt_of_le hcall (by simp)
    · intro k r' hr
      rw [List.length_append]
      exact hc k r' ho' hr
    · intro hn
      rcases answer_cases t a.hist.length r o with ⟨e, hne⟩ | ⟨_, _, hs⟩
      · rw [e] at hn ⊢
        have hne' : o.thread ≠ t := by
          intro e'
          have := hne e'
          rw [hn] at this; cases this
        simp only [Function.update_of_ne hne']
        exact hp hn
      · rw [hs] at hn; cases hn
  · intro u j hu
    by_cases e : u = t
    · subst e
      simp only [Function.update_self] at hu
      rcases hu with ⟨_, h⟩ | ⟨_, h⟩ <;> cases h
    · simp only [Function.update_of_ne e] at hu
      obtain ⟨o, ho, rfl, hn⟩ := hi.phases u j hu
      refine ⟨o, ?_, rfl, hn⟩
      rw [operations_ret, List.getElem?_map, ho]
      show some (o.answer t a.hist.length r) = some o
      unfold Operation.answer
      rw [if_neg fun h => e h.1]

theorem Atomic.Inv.step (hi : Atomic.Inv O a) (h : Atomic.Step O a b) : Atomic.Inv O b := by
  cases h with
  | call ht => exact hi.call ht
  | commit ht => exact hi.commit ht
  | ret ht => exact hi.ret ht

theorem Atomic.Inv.steps (hi : Atomic.Inv O a) (h : Relation.ReflTransGen (Atomic.Step O) a b) : Atomic.Inv O b := by
  induction h with
  | refl => exact hi
  | tail _ hst ih => exact ih.step hst

end

end Linear
