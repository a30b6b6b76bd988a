import RefCount.RaceFree

/-!
# The data of a readers-writer lock

The lock of the README: data beside a `RefCount`, read through a reference of either kind and
written through an `ExclusiveRef`. The data are not atomic. A read returns a write that
happens before it and that no other such write hides; under the orderings of the source
there is one, and it is the last one made.
-/

namespace RefCount

open Lts RelAcq

/-! ## Sections -/

structure Weak.Sections (σ : Weak) : Prop where
  earlier : ∀ (j : Nat) (y : Section), σ.begun[j]? = some y → ∀ i ∈ y.known, i < j
  exclusive : ∀ i ∈ σ.exclusives, ∃ x, σ.begun[i]? = some x ∧ x.exclusive = true

/-- At most one section begins on the way. -/
inductive Weak.Grows (σ σ' : Weak) : Prop
  | same : σ'.begun = σ.begun → (∀ i ∈ σ'.exclusives, i ∈ σ.exclusives) → Grows σ σ'
  | begins (y : Section) : σ'.begun = σ.begun ++ [y] → σ.begun.length ∈ σ'.refs ++ σ'.exclusives →
      (∀ i ∈ σ'.exclusives, i ∈ σ.exclusives ∨ i = σ.begun.length ∧ y.exclusive = true) → Grows σ σ'

section
variable {cfg : Config} {σ σ' : Weak} {s : Sys} {t : ThreadId} {b : Bool} {v : View Nat}

theorem Weak.grows_move {cell : List (Msg UInt32 Nat)} : σ.Grows (Weak.move { σ with cell := cell } t s v) := by
  unfold Weak.move
  generalize Weak.begins { σ with cell := cell } s = o
  cases o with
  | none => exact .same rfl fun _ h => h
  | some e =>
    cases e with
    | false => exact .begins ⟨false, v.known⟩ rfl (List.mem_append_left _ (List.mem_cons_self ..)) fun _ h => .inl h
    | true =>
      refine .begins ⟨true, v.known⟩ rfl (List.mem_append_right _ (List.mem_cons_self ..)) fun i h => ?_
      rcases List.mem_cons.mp h with rfl | h
      · exact .inr ⟨rfl, rfl⟩
      · exact .inl h

theorem Weak.grows_load {i : Nat} {o : Order} (h : σ.load cfg t b i o = some σ') : σ.Grows σ' := by
  obtain ⟨m, _, h⟩ := Option.bind_eq_some_iff.mp h
  obtain ⟨s₀, _, rfl⟩ := Option.map_eq_some_iff.mp h
  exact Weak.grows_move

theorem Weak.grows_cas {i : Nat} {w : UInt32} (h : σ.cas cfg t b i w = some σ') : σ.Grows σ' := by
  unfold Weak.cas at h
  split at h
  · split at h
    · obtain ⟨s₀, _, h⟩ := Option.bind_eq_some_iff.mp h
      obtain ⟨r, _, rfl⟩ := Option.map_eq_some_iff.mp h
      exact Weak.grows_move
    · cases h
  · exact Weak.grows_load h

theorem Weak.grows_stepThread {i : Nat} (h : σ.stepThread cfg t b i = some σ') : σ.Grows σ' := by
  unfold Weak.stepThread at h
  cases hpc : (σ.sys.pc t).access with
  | plain =>
    rw [hpc] at h
    obtain ⟨s₀, _, rfl⟩ := Option.map_eq_some_iff.mp h
    exact Weak.grows_move
  | load o => rw [hpc] at h; exact Weak.grows_load h
  | cas w => rw [hpc] at h; exact Weak.grows_cas h
  | store o =>
    rw [hpc] at h
    obtain ⟨s₀, _, rfl⟩ := Option.map_eq_some_iff.mp h
    exact Weak.grows_move

theorem Weak.exec_grows {x : Act × Nat} (h : Weak.exec cfg σ x = some σ') : σ.Grows σ' := by
  obtain ⟨a, i⟩ := x
  have hsys : (RefCount.exec cfg σ.sys a).map (fun s => { σ with sys := s }) = some σ' → σ.Grows σ' := by
    intro h
    obtain ⟨s₀, _, rfl⟩ := Option.map_eq_some_iff.mp h
    exact .same rfl fun _ h => h
  cases a with
  | step t b => exact Weak.grows_stepThread h
  | dropRef =>
    simp only [Weak.exec] at h
    split at h
    · obtain ⟨s₀, _, h⟩ := Option.bind_eq_some_iff.mp h
      obtain ⟨r, _, rfl⟩ := Option.map_eq_some_iff.mp h
      exact .same rfl fun _ h => h
    · cases h
  | call t c =>
    cases c with
    | dropExclusiveRef =>
      simp only [Weak.exec] at h
      split at h
      · obtain ⟨s₀, _, rfl⟩ := Option.map_eq_some_iff.mp h
        exact .same rfl fun _ h => List.mem_of_mem_erase h
      · cases h
    | poll f w =>
      obtain ⟨s₀, _, rfl⟩ := Option.map_eq_some_iff.mp h
      exact .same rfl fun _ h => h
    | _ => exact hsys h
  | _ => exact hsys h

theorem Weak.Grows.begun (h : σ.Grows σ') {j : Nat} {y : Section} (hy : σ.begun[j]? = some y) : σ'.begun[j]? = some y := by
  cases h with
  | same hb _ => rw [hb]; exact hy
  | begins z hb _ _ => rw [hb, List.getElem?_append_left (List.getElem?_eq_some_iff.mp hy).1]; exact hy

theorem Weak.Sections.new : Weak.new.Sections where
  earlier := fun _ _ h => by cases h
  exclusive := fun _ h => by cases h

theorem Weak.Sections.grows (hs : σ.Sections) (he : σ'.Ended) (h : σ.Grows σ') : σ'.Sections := by
  refine ⟨fun j y hy i hi => ?_, fun i hi => ?_⟩
  · cases h with
    | same hb _ => exact hs.earlier j y (hb ▸ hy) i hi
    | begins z hb hlive _ =>
      have hknown := he.known i (.begun y (List.mem_of_getElem? hy) hi)
      rw [hb] at hy
      rcases getElem?_concat hy with hy | ⟨rfl, _⟩
      · exact hs.earlier j y hy i hi
      · -- the section itself lives, so it is not among those known to have ended
        have hlt := hknown.1
        rw [hb, List.length_append, List.length_singleton] at hlt
        refine Nat.lt_of_le_of_ne (Nat.le_of_lt_succ hlt) fun e => ?_
        rw [e] at hknown
        exact hknown.2 hlive
  · cases h with
    | same hb hx =>
      rw [hb]
      exact hs.exclusive i (hx i hi)
    | begins z hb _ hx =>
      rw [hb]
      rcases hx i hi with hi | ⟨rfl, hz⟩
      · obtain ⟨x, hx, hexcl⟩ := hs.exclusive i hi
        refine ⟨x, ?_, hexcl⟩
        rw [List.getElem?_append_left (List.getElem?_eq_some_iff.mp hx).1]
        exact hx
      · exact ⟨z, List.getElem?_concat_length, hz⟩

end

/-! ## The lock -/

/-- `writer` is the section of the `WriteGuard` that the value was written through. -/
structure Write (V : Type) where
  writer : Nat
  value : V

structure RwLock (V : Type) where
  state : Weak
  init : V
  data : List (Write V)

def RwLock.new {V : Type} (init : V) : RwLock V := ⟨Weak.new, init, []⟩

inductive RwAct (V : Type) where
  | state (x : Act × Nat)
  | write (i : Nat) (value : V)
  deriving DecidableEq

section
variable {V : Type}

def RwLock.exec (cfg : Config) (l : RwLock V) : RwAct V → Option (RwLock V)
  | .state x => (Weak.exec cfg l.state x).map fun σ => { l with state := σ }
  | .write i value => if i ∈ l.state.exclusives then some { l with data := l.data ++ [⟨i, value⟩] } else none

def RwLock.Protocol (l : RwLock V) (a : RwAct V) (l' : RwLock V) : Prop :=
  match a with
  | .state x => Weak.Protocol l.state x l'.state
  | .write _ _ => True

instance RwLock.instDecidableProtocol (l : RwLock V) (a : RwAct V) (l' : RwLock V) : Decidable (RwLock.Protocol l a l') := by
  cases a with
  | state x => exact inferInstanceAs (Decidable (Weak.Protocol _ _ _))
  | write i v => exact .isTrue trivial

/-- What is done in section `i` before it ends happens before what is done in section `j`. -/
def Weak.Precedes (σ : Weak) (i j : Nat) : Prop := i = j ∨ ∃ y, σ.begun[j]? = some y ∧ i ∈ y.known

/-- Write `p` happens before write `q`. -/
def RwLock.Hides (l : RwLock V) (q p : Nat) : Prop :=
  ∃ w z, l.data[p]? = some w ∧ l.data[q]? = some z ∧ l.state.Precedes w.writer z.writer ∧ (w.writer = z.writer → p < q)

/-- A read through the guard of section `j` may return `v`. -/
def RwLock.Reads (l : RwLock V) (j : Nat) (v : V) : Prop :=
  (∃ p w, l.data[p]? = some w ∧ w.value = v ∧ l.state.Precedes w.writer j ∧
    ∀ q z, l.data[q]? = some z → l.state.Precedes z.writer j → ¬ l.Hides q p) ∨
  v = l.init ∧ ∀ w ∈ l.data, ¬ l.state.Precedes w.writer j

/-- The last value written, or the first one of all. -/
def RwLock.value (l : RwLock V) : V := (l.data.getLast?.map Write.value).getD l.init

structure RwLock.Inv (l : RwLock V) : Prop where
  ordered : Ordered l.state.begun
  ended : l.state.Ended
  sections : l.state.Sections
  writers : ∀ w ∈ l.data, ∃ x, l.state.begun[w.writer]? = some x ∧ x.exclusive = true
  sorted : l.data.Pairwise fun w z => l.state.Precedes w.writer z.writer

end

section
variable {V : Type} {cfg : Config} {l l' : RwLock V} {σ : Weak} {i j p q : Nat} {v : V}

theorem Weak.Precedes.grows {σ' : Weak} (h : σ.Precedes i j) (hg : σ.Grows σ') : σ'.Precedes i j :=
  h.imp id fun ⟨y, hy, hi⟩ => ⟨y, hg.begun hy, hi⟩

theorem RwLock.Inv.new (v : V) : (RwLock.new v).Inv where
  ordered := fun _ _ _ _ _ h => by cases h
  ended := .new
  sections := .new
  writers := fun _ h => by cases h
  sorted := .nil

/-- A section that lives comes after every exclusive one. -/
theorem RwLock.Inv.precedes (hi : l.Inv) (hj : j ∈ l.state.refs ++ l.state.exclusives) {x : Section}
    (hx : l.state.begun[i]? = some x) (hexcl : x.exclusive = true) : l.state.Precedes i j := by
  have hlt := hi.ended.begun j hj
  have hy : l.state.begun[j]? = some l.state.begun[j] := List.getElem?_eq_getElem hlt
  rcases Nat.lt_trichotomy i j with hij | rfl | hji
  · exact .inr ⟨_, hy, hi.ordered i j x _ hij hx hy (.inl hexcl)⟩
  · exact .inl rfl
  · have hknown := hi.ordered j i _ x hji hy hx (.inr hexcl)
    exact absurd hj (hi.ended.known j (.begun x (List.mem_of_getElem? hx) hknown)).2

theorem RwLock.Inv.state (hi : l.Inv) (ho : Ordered σ.begun) (he : σ.Ended) (hg : l.state.Grows σ) :
    RwLock.Inv { l with state := σ } where
  ordered := ho
  ended := he
  sections := hi.sections.grows he hg
  writers := fun w hw => by
    obtain ⟨x, hx, hexcl⟩ := hi.writers w hw
    exact ⟨x, hg.begun hx, hexcl⟩
  sorted := hi.sorted.imp fun h => h.grows hg

theorem RwLock.Inv.write (hi : l.Inv) (hmem : i ∈ l.state.exclusives) : RwLock.Inv { l with data := l.data ++ [⟨i, v⟩] } where
  ordered := hi.ordered
  ended := hi.ended
  sections := hi.sections
  writers := fun w hw => by
    rcases List.mem_append.mp hw with hw | hw
    · exact hi.writers w hw
    · obtain rfl := List.mem_singleton.mp hw
      exact hi.sections.exclusive i hmem
  sorted := by
    refine List.pairwise_append.mpr ⟨hi.sorted, List.pairwise_singleton _ _, fun w hw z hz => ?_⟩
    obtain rfl := List.mem_singleton.mp hz
    obtain ⟨x, hx, hexcl⟩ := hi.writers w hw
    exact hi.precedes (List.mem_append_right _ hmem) hx hexcl

theorem RwLock.reach {init : V} (h : Reach (RwLock.exec cfg) RwLock.Protocol (RwLock.new init) l) : l.Inv := by
  refine (h.inv (fun l => l.Inv ∧ ∃ lock, l.state.Inv lock) ⟨.new init, _, Weak.Inv.new⟩ ?_).1
  intro l a l' ⟨hi, lock, hw⟩ hp hst
  cases a with
  | state x =>
    obtain ⟨σ, hσ, rfl⟩ := Option.map_eq_some_iff.mp hst
    obtain ⟨lock', hw'⟩ := hw.exec hp hσ
    exact ⟨hi.state hw'.ordered (hi.ended.exec hσ) (Weak.exec_grows hσ), lock', hw'⟩
  | write i v =>
    simp only [RwLock.exec] at hst
    split at hst
    · rename_i hmem
      cases hst
      exact ⟨hi.write hmem, lock, hw⟩
    · cases hst

/-! ## What a guard reads -/

theorem RwLock.Inv.lt (hi : l.Inv) (h : l.state.Precedes i j) (hne : i ≠ j) : i < j := by
  rcases h with e | ⟨y, hy, hk⟩
  · exact absurd e hne
  · exact hi.sections.earlier j y hy i hk

/-- Nothing hides the last write, and it hides every other. -/
theorem RwLock.Inv.hides (hi : l.Inv) (hp : p < l.data.length) (hq : q < l.data.length) (h : l.Hides q p) : p < q := by
  obtain ⟨w, z, hw, hz, hwz, hlt⟩ := h
  rcases Nat.lt_trichotomy p q with hpq | rfl | hqp
  · exact hpq
  · rw [hw] at hz
    cases hz
    exact hlt rfl
  · by_cases e : w.writer = z.writer
    · exact hlt e
    · obtain ⟨_, rfl⟩ := List.getElem?_eq_some_iff.mp hw
      obtain ⟨_, rfl⟩ := List.getElem?_eq_some_iff.mp hz
      have hzw := List.pairwise_iff_getElem.mp hi.sorted q p hq hp hqp
      have h₁ := hi.lt hwz e
      have h₂ := hi.lt hzw (Ne.symm e)
      omega

theorem RwLock.Inv.hides_of_lt (hi : l.Inv) (hq : q < l.data.length) (hpq : p < q) : l.Hides q p :=
  ⟨_, _, List.getElem?_eq_getElem (hpq.trans hq), List.getElem?_eq_getElem hq,
    List.pairwise_iff_getElem.mp hi.sorted p q (hpq.trans hq) hq hpq, fun _ => hpq⟩

theorem RwLock.value_eq (hp : p + 1 = l.data.length) {w : Write V} (hw : l.data[p]? = some w) : l.value = w.value := by
  unfold RwLock.value
  rw [List.getLast?_eq_getElem?, ← hp, Nat.add_sub_cancel, hw]
  rfl

/-- A read through a guard returns the last value written, whatever stale words of the count the
threads have read: every write happens before it, and all but the last are hidden. -/
theorem rwlock_reads_last_write (cfg : Config) {init : V}
    (h : Reach (RwLock.exec cfg) RwLock.Protocol (RwLock.new init) l) (hj : j ∈ l.state.refs ++ l.state.exclusives) :
    (∀ w ∈ l.data, l.state.Precedes w.writer j) ∧ ∀ v, l.Reads j v ↔ v = l.value := by
  have hi := RwLock.reach h
  have hall : ∀ w ∈ l.data, l.state.Precedes w.writer j := by
    intro w hw
    obtain ⟨x, hx, hexcl⟩ := hi.writers w hw
    exact hi.precedes hj hx hexcl
  refine ⟨hall, fun v => ⟨?_, ?_⟩⟩
  · rintro (⟨p, w, hw, rfl, _, hlast⟩ | ⟨rfl, hnone⟩)
    · have hp := (List.getElem?_eq_some_iff.mp hw).1
      refine (RwLock.value_eq ?_ hw).symm
      by_contra hne
      have hq : p + 1 < l.data.length := by omega
      exact hlast (p + 1) _ (List.getElem?_eq_getElem hq) (hall _ (List.getElem_mem hq)) (hi.hides_of_lt hq (Nat.lt_succ_self p))
    · have hempty : l.data = [] := List.eq_nil_iff_forall_not_mem.mpr fun w hw => hnone w hw (hall w hw)
      unfold RwLock.value
      rw [hempty]
      rfl
  · rintro rfl
    rcases Nat.eq_zero_or_pos l.data.length with h0 | hpos
    · have hempty := List.length_eq_zero_iff.mp h0
      refine .inr ⟨?_, fun w hw => ?_⟩
      · unfold RwLock.value
        rw [hempty]
        rfl
      · rw [hempty] at hw
        cases hw
    · have hp : l.data.length - 1 + 1 = l.data.length := Nat.sub_add_cancel hpos
      have hlt : l.data.length - 1 < l.data.length := by omega
      have hget := List.getElem?_eq_getElem hlt
      refine .inl ⟨_, _, hget, (RwLock.value_eq hp hget).symm, hall _ (List.getElem_mem hlt), fun q z hz _ hhides => ?_⟩
      have hq := (List.getElem?_eq_some_iff.mp hz).1
      have := hi.hides hlt hq hhides
      omega

end

/-- The writer of `staleAsk` writes twice and drops its guard, and a reader comes that loads the
count from before the writer asked. -/
def staleRead : List (RwAct Nat) :=
  staleAsk.map .state ++ [.write 1 5, .write 1 6] ++
  [(.call 1 .dropExclusiveRef, 1), (.step 1 false, 0), (.step 1 false, 0), (.step 1 false, 0), (.call 0 .getRef, 0),
    (.step 0 false, 1), (.step 0 false, 4), (.step 0 false, 4)].map .state

theorem rwlock_reads_last_write_stale : ∃ l, run (RwLock.exec ⟨2, false⟩) (RwLock.new 0) staleRead = some l ∧
    2 ∈ l.state.refs ∧ l.value = 6 ∧ ∀ v, l.Reads 2 v ↔ v = l.value := by
  have hg : AllSteps (RwLock.exec ⟨2, false⟩) RwLock.Protocol (RwLock.new 0) staleRead := by decide
  refine ⟨_, rfl, by decide, rfl, ?_⟩
  exact (rwlock_reads_last_write ⟨2, false⟩ (Reach.run .start hg rfl) (by decide)).2

end RefCount
