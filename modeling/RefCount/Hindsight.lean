import RefCount.Linear

/-!
# Operations that take effect in hindsight

An operation that leaves the object as it is may take effect at an earlier moment of its
call: a client looks at the object, others go on, and later the client answers what it would
have got then. The histories of such clients are linearizable too. The operation goes into
the order where the client looked, behind everything that had returned before it was called.
-/

namespace Linear

open Lts (getElem?_concat)

section
variable {Q Op Ret : Type}

/-- The object with clients that remember it: `memory t` is the object as thread `t` last saw
it, and the operation for which it looked. `log` is without the operations that take effect
in hindsight. -/
structure Hindsight (Q Op Ret : Type) extends Atomic Q Op Ret where
  memory : Nat → Option (Nat × Q)

def Hindsight.new (O : Object Q Op Ret) : Hindsight Q Op Ret := ⟨Atomic.new O, fun _ => none⟩

inductive Hindsight.Step (O : Object Q Op Ret) (m : Hindsight Q Op Ret) : Hindsight Q Op Ret → Prop
  | now {a : Atomic Q Op Ret} : Atomic.Step O m.toAtomic a → Step O m { m with toAtomic := a }
  | look {t i : Nat} {op : Op} : m.phase t = .called i op →
      Step O m { m with memory := Function.update m.memory t (some (i, m.object)) }
  | late {t i : Nat} {op : Op} {q : Q} {r : Ret} : m.phase t = .called i op → m.memory t = some (i, q) →
      O.apply q op = (r, q) → Step O m { m with phase := Function.update m.phase t (.answered i r) }

/-! ## The place of an operation in the order -/

/-- At some place of the order the object is `q`, and all operations that returned before
number `i` was called come before that place. -/
def Place (O : Object Q Op Ret) (ops : List (Operation Op Ret)) (i : Nat) (q : Q) (l : List (Nat × Op × Ret)) : Prop :=
  ∃ l₁ l₂, l = l₁ ++ l₂ ∧ O.final O.init (l₁.map Prod.snd) = q ∧
    ∀ j o p k r, ops[i]? = some o → ops[j]? = some p → p.returned = some (k, r) → k < o.called → j ∈ l₁.map Prod.fst

variable {O : Object Q Op Ret} {ops : List (Operation Op Ret)} {l l₁ l₂ : List (Nat × Op × Ret)} {i : Nat} {q : Q}

theorem legal_split {l₁ l₂ : List (Op × Ret)} (h : O.Legal q (l₁ ++ l₂)) :
    O.Legal q l₁ ∧ O.Legal (O.final q l₁) l₂ := by
  induction l₁ generalizing q with
  | nil => exact ⟨trivial, h⟩
  | cons x l₁ ih =>
    obtain ⟨h₁, h₂⟩ := ih h.2
    exact ⟨⟨h.1, h₁⟩, h₂⟩

theorem legal_join {l₁ l₂ : List (Op × Ret)} (h₁ : O.Legal q l₁) (h₂ : O.Legal (O.final q l₁) l₂) :
    O.Legal q (l₁ ++ l₂) := by
  induction l₁ generalizing q with
  | nil => exact h₂
  | cons x l₁ ih => exact ⟨h₁.1, ih h₁.2 h₂⟩

theorem final_join (O : Object Q Op Ret) (q : Q) (l₁ l₂ : List (Op × Ret)) :
    O.final q (l₁ ++ l₂) = O.final (O.final q l₁) l₂ := List.foldl_append

/-- An operation that leaves the object as it is changes nothing for those behind it. -/
theorem final_insert {l₁ l₂ : List (Op × Ret)} {x : Op × Ret} (hx : O.apply (O.final q l₁) x.1 = (x.2, O.final q l₁)) :
    O.final q (l₁ ++ x :: l₂) = O.final q (l₁ ++ l₂) := by
  rw [final_join, final_join]
  show O.final (O.apply (O.final q l₁) x.1).2 l₂ = _
  rw [hx]

theorem legal_insert {l₁ l₂ : List (Op × Ret)} {x : Op × Ret} (h : O.Legal q (l₁ ++ l₂))
    (hx : O.apply (O.final q l₁) x.1 = (x.2, O.final q l₁)) : O.Legal q (l₁ ++ x :: l₂) := by
  obtain ⟨h₁, h₂⟩ := legal_split h
  refine legal_join h₁ ⟨by rw [hx], ?_⟩
  rw [hx]
  exact h₂

/-- An operation that is not in the order may take its place. -/
theorem Linearizes.insert (h : Linearizes O ops (l₁ ++ l₂)) {o : Operation Op Ret} {r : Ret} (ho : ops[i]? = some o)
    (hl : i ∉ (l₁ ++ l₂).map Prod.fst)
    (hr : O.apply (O.final O.init (l₁.map Prod.snd)) o.op = (r, O.final O.init (l₁.map Prod.snd)))
    (hbefore : ∀ j p k r, ops[j]? = some p → p.returned = some (k, r) → k < o.called → j ∈ l₁.map Prod.fst) :
    Linearizes O ops (l₁ ++ (i, o.op, r) :: l₂) := by
  have hmem : ∀ x, x ∈ l₁ ++ (i, o.op, r) :: l₂ ↔ x = (i, o.op, r) ∨ x ∈ l₁ ++ l₂ := by
    intro x
    simp only [List.mem_append, List.mem_cons]
    tauto
  have hsub : ((l₁ ++ l₂).map Prod.fst).Sublist ((l₁ ++ (i, o.op, r) :: l₂).map Prod.fst) :=
    ((List.Sublist.refl l₁).append (List.sublist_cons_self _ l₂)).map _
  have hmap : (l₁ ++ (i, o.op, r) :: l₂).map Prod.fst = l₁.map Prod.fst ++ i :: l₂.map Prod.fst := by simp
  refine ⟨?_, ?_, ?_, ?_, ?_⟩
  · have honce := h.once
    rw [hmap, List.nodup_middle]
    rw [List.map_append] at honce hl
    exact List.nodup_cons.mpr ⟨hl, honce⟩
  · intro x hx
    rcases (hmem x).mp hx with rfl | hx
    · exact ⟨o, ho, rfl⟩
    · exact h.known x hx
  · intro j p k r' hp hr'
    exact (hmem _).mpr (.inr (h.complete j p k r' hp hr'))
  · rw [List.map_append, List.map_cons]
    refine legal_insert ?_ hr
    rw [← List.map_append]
    exact h.legal
  · intro j m p p' k r' hp hp' hr' hk hm
    by_cases e : m = i
    · subst e
      obtain rfl : o = p' := Option.some.inj (ho.symm.trans hp')
      rw [hmap]
      exact (List.singleton_sublist.mpr (hbefore j p k r' hp hr' hk)).append
        (List.singleton_sublist.mpr (List.mem_cons_self ..))
    · have hm' : m ∈ (l₁ ++ l₂).map Prod.fst := by
        obtain ⟨x, hx, rfl⟩ := List.mem_map.mp hm
        rcases (hmem x).mp hx with rfl | hx
        · exact absurd rfl e
        · exact List.mem_map_of_mem hx
      exact (h.realTime j m p p' k r' hp hp' hr' hk hm').trans hsub

theorem Place.insert {j : Nat} {q' : Q} {x : Nat × Op × Ret} (h : Place O ops j q' (l₁ ++ l₂))
    (hx : O.apply (O.final O.init (l₁.map Prod.snd)) x.2.1 = (x.2.2, O.final O.init (l₁.map Prod.snd))) :
    Place O ops j q' (l₁ ++ x :: l₂) := by
  obtain ⟨a, b, e, hq, hbefore⟩ := h
  rcases List.append_eq_append_iff.mp e with ⟨c, rfl, rfl⟩ | ⟨c, rfl, rfl⟩
  · -- the new operation goes in before the place
    refine ⟨l₁ ++ x :: c, b, by simp, ?_, ?_⟩
    · rw [List.map_append, List.map_cons, final_insert hx, ← List.map_append]
      exact hq
    · intro m o p k r ho hp hr hk
      have hm := hbefore m o p k r ho hp hr hk
      rw [List.map_append, List.mem_append] at hm ⊢
      exact hm.imp id fun hm => List.mem_cons_of_mem _ hm
  · exact ⟨a, c ++ x :: l₂, by simp, hq, hbefore⟩

theorem Place.append (h : Place O ops i q l) (x : Nat × Op × Ret) : Place O ops i q (l ++ [x]) := by
  obtain ⟨l₁, l₂, rfl, hq, hbefore⟩ := h
  exact ⟨l₁, l₂ ++ [x], List.append_assoc .., hq, hbefore⟩

/-- Calls and returns that come later do not change the place of an operation. -/
theorem Place.of_ops {ops' : List (Operation Op Ret)} (h : Place O ops i q l)
    (hops : ∀ (j : Nat) (o p : Operation Op Ret) (k : Nat) (r : Ret), ops'[i]? = some o → ops'[j]? = some p →
      p.returned = some (k, r) → k < o.called → ops[j]? = some p ∧ ∃ o', ops[i]? = some o' ∧ o'.called = o.called) :
    Place O ops' i q l := by
  obtain ⟨l₁, l₂, e, hq, hbefore⟩ := h
  refine ⟨l₁, l₂, e, hq, fun j o p k r ho hp hr hk => ?_⟩
  obtain ⟨hp', o', ho', hc⟩ := hops j o p k r ho hp hr hk
  exact hbefore j o' p k r ho' hp' hr (by rw [hc]; exact hk)

/-! ## Clients that look back -/

variable {a : Atomic Q Op Ret}

/-- An operation takes its place in the order. -/
theorem Atomic.Inv.insert (hi : Atomic.Inv O a) {t : Nat} {op : Op} {r : Ret} (ht : a.phase t = .called i op)
    (hplace : Place O (operations a.hist) i q a.log) (hr : O.apply q op = (r, q)) :
    ∃ l₁ l₂, a.log = l₁ ++ l₂ ∧ O.apply (O.final O.init (l₁.map Prod.snd)) op = (r, O.final O.init (l₁.map Prod.snd)) ∧
      Atomic.Inv O { a with phase := Function.update a.phase t (.answered i r), log := l₁ ++ (i, op, r) :: l₂ } := by
  obtain ⟨o₀, ho₀, rfl, hn₀⟩ := hi.phases t i (.inl ⟨op, ht⟩)
  obtain ⟨l₁, l₂, hlog, rfl, hbefore⟩ := hplace
  have hnew : o₀.op = op ∧ i ∉ a.log.map Prod.fst := by
    rcases (hi.stands i o₀ ho₀).pending hn₀ with ⟨h, hl⟩ | ⟨_, h, _⟩
    · rw [ht] at h
      injection h with _ h
      exact ⟨h.symm, hl⟩
    · rw [ht] at h; cases h
  obtain ⟨rfl, hnot⟩ := hnew
  have hlin := hi.linearizes
  have hobj := hi.object
  rw [hlog] at hlin hobj hnot
  have hmem : ∀ x, x ∈ l₁ ++ (i, o₀.op, r) :: l₂ ↔ x = (i, o₀.op, r) ∨ x ∈ a.log := by
    intro x
    rw [hlog]
    simp only [List.mem_append, List.mem_cons]
    tauto
  refine ⟨l₁, l₂, hlog, hr, hlin.insert ho₀ hnot hr fun j p k r' => hbefore j o₀ p k r' ho₀, ?_, ?_, ?_⟩
  · rw [List.map_append, List.map_cons, final_insert hr, ← List.map_append]
    exact hobj
  · intro j o ho
    obtain ⟨hc, hret, hp⟩ := hi.stands j o ho
    refine ⟨hc, fun k r' h => ⟨(hret k r' h).1, (hmem _).mpr (.inr (hret k r' h).2)⟩, fun h => ?_⟩
    by_cases e : j = i
    · subst e
      obtain rfl : o₀ = o := Option.some.inj (ho₀.symm.trans ho)
      exact .inr ⟨r, Function.update_self .., (hmem _).mpr (.inl rfl)⟩
    · have hne : o.thread ≠ o₀.thread := by
        intro e'
        rcases hp h with ⟨h', _⟩ | ⟨_, h', _⟩
        · rw [e', ht] at h'
          injection h' with h' _
          exact e h'.symm
        · rw [e', ht] at h'; cases h'
      simp only [Function.update_of_ne hne]
      rcases hp h with ⟨h', hl⟩ | ⟨r', h', hl⟩
      · refine .inl ⟨h', fun hm => ?_⟩
        obtain ⟨x, hx, hxj⟩ := List.mem_map.mp hm
        rcases (hmem x).mp hx with rfl | hx
        · exact e hxj.symm
        · exact hl (List.mem_map.mpr ⟨x, hx, hxj⟩)
      · exact .inr ⟨r', h', (hmem _).mpr (.inr hl)⟩
  · intro u j hu
    by_cases e : u = o₀.thread
    · subst e
      simp only [Function.update_self] at hu
      rcases hu with ⟨_, h⟩ | ⟨_, h⟩
      · cases h
      · cases h
        exact ⟨o₀, ho₀, rfl, hn₀⟩
    · simp only [Function.update_of_ne e] at hu
      exact hi.phases u j hu

/-- With some order in place of `log`, the clients are as those that do not look back; and a
client that has looked for its operation has a place in it. -/
structure Hindsight.Ordered (O : Object Q Op Ret) (m : Hindsight Q Op Ret) (l : List (Nat × Op × Ret)) : Prop where
  atomic : Atomic.Inv O { m.toAtomic with log := l }
  place : ∀ t i op q, m.phase t = .called i op → m.memory t = some (i, q) → Place O (operations m.hist) i q l
  past : ∀ t i q, m.memory t = some (i, q) → i < (operations m.hist).length

variable {m m' : Hindsight Q Op Ret}

theorem Hindsight.Ordered.new : (Hindsight.new O).Ordered O [] := by
  refine ⟨Atomic.Inv.new O, ?_, ?_⟩
  · intro t i op q h
    cases h
  · intro t i q h
    cases h

theorem Hindsight.Ordered.call (h : m.Ordered O l) {t : Nat} {op : Op} (ht : m.phase t = .idle) :
    Hindsight.Ordered O
      { m with phase := Function.update m.phase t (.called (operations m.hist).length op)
               hist := m.hist ++ [.call t op] } l := by
  refine ⟨h.atomic.call ht, fun u i op' q hu hm => ?_, fun u i q hm => ?_⟩
  · have hlt := h.past u i q hm
    have hu : m.phase u = .called i op' := by
      by_cases e : u = t
      · subst e
        simp only [Function.update_self] at hu
        cases hu
        exact absurd hlt (Nat.lt_irrefl _)
      · simpa only [Function.update_of_ne e] using hu
    refine (h.place u i op' q hu hm).of_ops fun j o p k r ho hp hr hk => ?_
    simp only [operations_call] at ho hp
    rw [List.getElem?_append_left hlt] at ho
    rcases getElem?_concat hp with hp | ⟨_, rfl⟩
    · exact ⟨hp, o, ho, rfl⟩
    · cases hr
  · simp only [operations_call, List.length_append]
    exact Nat.lt_add_right _ (h.past u i q hm)

theorem Hindsight.Ordered.ret (h : m.Ordered O l) {t i : Nat} {r : Ret} (ht : m.phase t = .answered i r) :
    Hindsight.Ordered O
      { m with phase := Function.update m.phase t .idle, hist := m.hist ++ [.ret t r] } l := by
  refine ⟨h.atomic.ret ht, fun u j op q hu hm => ?_, fun u j q hm => ?_⟩
  · have hu : m.phase u = .called j op := by
      by_cases e : u = t
      · subst e
        simp only [Function.update_self] at hu
        cases hu
      · simpa only [Function.update_of_ne e] using hu
    refine (h.place u j op q hu hm).of_ops fun n o p k r' ho hp hr hk => ?_
    simp only [operations_ret, List.getElem?_map, Option.map_eq_some_iff] at ho hp
    obtain ⟨o, ho, rfl⟩ := ho
    obtain ⟨p, hp, rfl⟩ := hp
    have hc := (answer_fields t m.hist.length r o).2.2
    rcases answer_cases t m.hist.length r p with ⟨e, _⟩ | ⟨_, _, e⟩
    · rw [e]
      exact ⟨hp, o, ho, hc.symm⟩
    · -- what returns now returns after every call there is
      rw [e] at hr
      cases hr
      rw [hc] at hk
      exact absurd (h.atomic.stands j o ho).called (Nat.lt_asymm hk)
  · simp only [operations_ret, List.length_map]
    exact h.past u j q hm

theorem Hindsight.Ordered.commit (h : m.Ordered O l) {t i : Nat} {op : Op} (ht : m.phase t = .called i op) :
    Hindsight.Ordered O
      { m with object := (O.apply m.object op).2
               phase := Function.update m.phase t (.answered i (O.apply m.object op).1)
               log := m.log ++ [(i, op, (O.apply m.object op).1)] } (l ++ [(i, op, (O.apply m.object op).1)]) := by
  refine ⟨h.atomic.commit ht, fun u j op' q hu hm => ?_, h.past⟩
  by_cases e : u = t
  · subst e
    simp only [Function.update_self] at hu
    cases hu
  · simp only [Function.update_of_ne e] at hu
    exact (h.place u j op' q hu hm).append _

/-- Where a client looks, everything that has returned is in the order. -/
theorem Hindsight.Ordered.look (h : m.Ordered O l) {t i : Nat} {op : Op} (ht : m.phase t = .called i op) :
    Hindsight.Ordered O { m with memory := Function.update m.memory t (some (i, m.object)) } l := by
  refine ⟨h.atomic, fun u j op' q hu hm => ?_, fun u j q hm => ?_⟩
  · by_cases e : u = t
    · subst e
      simp only [Function.update_self] at hm
      cases hm
      refine ⟨l, [], (List.append_nil l).symm, h.atomic.object.symm, fun n o p k r _ hp hr _ => ?_⟩
      exact List.mem_map.mpr ⟨_, h.atomic.linearizes.complete n p k r hp hr, rfl⟩
    · simp only [Function.update_of_ne e] at hm
      exact h.place u j op' q hu hm
  · by_cases e : u = t
    · subst e
      simp only [Function.update_self] at hm
      cases hm
      obtain ⟨o, ho, _⟩ := h.atomic.phases u i (.inl ⟨op, ht⟩)
      exact (List.getElem?_eq_some_iff.mp ho).1
    · simp only [Function.update_of_ne e] at hm
      exact h.past u j q hm

theorem Hindsight.Ordered.late (h : m.Ordered O l) {t i : Nat} {op : Op} {r : Ret} (ht : m.phase t = .called i op)
    (hm : m.memory t = some (i, q)) (hr : O.apply q op = (r, q)) :
    ∃ l', Hindsight.Ordered O { m with phase := Function.update m.phase t (.answered i r) } l' := by
  obtain ⟨l₁, l₂, rfl, hx, ha⟩ := h.atomic.insert ht (h.place t i op q ht hm) hr
  refine ⟨_, ha, fun u j op' q' hu hm' => ?_, h.past⟩
  by_cases e : u = t
  · subst e
    simp only [Function.update_self] at hu
    cases hu
  · simp only [Function.update_of_ne e] at hu
    exact (h.place u j op' q' hu hm').insert hx

theorem Hindsight.Ordered.step (h : m.Ordered O l) (hst : Hindsight.Step O m m') : ∃ l', m'.Ordered O l' := by
  cases hst with
  | now hst =>
    cases hst with
    | call ht => exact ⟨l, h.call ht⟩
    | commit ht => exact ⟨_, h.commit ht⟩
    | ret ht => exact ⟨l, h.ret ht⟩
  | look ht => exact ⟨l, h.look ht⟩
  | late ht hm hr => exact h.late ht hm hr

theorem Hindsight.ordered (h : Relation.ReflTransGen (Hindsight.Step O) (Hindsight.new O) m) : ∃ l, m.Ordered O l := by
  induction h with
  | refl => exact ⟨[], Hindsight.Ordered.new⟩
  | tail _ hst ih =>
    obtain ⟨l, hl⟩ := ih
    exact hl.step hst

/-- Steps of clients that do not look back. -/
theorem Hindsight.steps {b : Atomic Q Op Ret} (h : Relation.ReflTransGen (Atomic.Step O) m.toAtomic b) :
    Relation.ReflTransGen (Hindsight.Step O) m { m with toAtomic := b } := by
  induction h with
  | refl => exact .refl
  | tail _ hst ih => exact ih.tail (.now hst)

end

end Linear
