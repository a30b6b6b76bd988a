import RefCount.StaleStamps

/-!
# Who knows of the accesses to a slot

What the last message of a stamp brings along knows of every access to the value of its
slot, and while a thread is at work in the slot, the thread does. Loads keep this, and so
does a step that writes, if it does so for the one slot that it is about.
-/

namespace RefCount.ArrayQueue

open Lts RelAcq

/-! ## The invariant -/

/-- Of two accesses to the value of one slot, the first happens before the second. -/
def SlotOrdered (accesses : List SlotAccess) : Prop :=
  ∀ (j k : Nat) (x y : SlotAccess), j < k → accesses[j]? = some x → accesses[k]? = some y → x.place = y.place →
    j ∈ y.known

section
variable {w : Nat} {V : Type} (C : Nat)

/-- Access `k` was one to the value in slot `i`. -/
def WeakState.Accessed (σ : WeakState w V) (i k : Nat) : Prop := ∃ x, σ.accesses[k]? = some x ∧ x.place = i

/-- Location `l` is a counter that has come to `n`. -/
structure WeakState.Counts (σ : WeakState w V) (l : Loc) (x : Loaded w) : Prop where
  upTo : ∀ m ∈ σ.cells l, m.value.upTo C x.count
  last : ∃ pre known, σ.cells l = pre ++ [⟨x, known⟩]

/-- The messages of the stamp of slot `i`. What the last one brings along knows of every
access to the value, unless a thread is at work in the slot, which does. -/
structure WeakState.Slots (σ : WeakState w V) (i : Nat) (c : Cell) : Prop where
  dated : ∀ m ∈ σ.cells (.stamp i), Dated w C σ.ring.tails i m.value
  grows : (σ.cells (.stamp i)).Pairwise fun m n => m.value.count < n.value.count
  last : ∃ pre known, σ.cells (.stamp i) = pre ++ [⟨⟨c.stamp w C, c.phase⟩, known⟩] ∧
    (c.owner = none → ∀ k, σ.Accessed i k → k ∈ known)
  worker : ∀ t, c.owner = some t → ∀ k, σ.Accessed i k → k ∈ σ.known t

structure WeakState.Inv (σ : WeakState w V) (g : Ghost V) : Prop where
  ring : ArrayQueue.Inv C σ.ring g
  owned : Owned C σ.ring g
  head : σ.Counts C .head σ.ring.loadHead
  tail : σ.Counts C .tail σ.ring.loadTail
  slots : ∀ i < C, σ.Slots C i (g.cell i)
  claims : ∀ t i k, (σ.ring.pc t).claims C = some (i, k) →
    ∃ m ∈ σ.cells (.stamp i), k ≤ m.value.count ∧ ∀ a ∈ m.known, a ∈ σ.known t
  ordered : SlotOrdered σ.accesses

end

section
variable {w C : Nat} {V : Type} {σ σ' : WeakState w V} {g g' : Ghost V} {t : Tid} {b : Bool} {l : Loc}

theorem WeakState.Inv.new : (WeakState.new w V).Inv C ⟨.free, []⟩ := by
  have hzero : Stamp.enc w (lapBits C) C 0 = 0 := by simp [Stamp.enc]
  refine ⟨ArrayQueue.Inv.new, Owned.new, ⟨?_, [], [], rfl⟩, ⟨?_, [], [], rfl⟩, ?_, ?_, ?_⟩
  · intro m hm
    obtain rfl := List.mem_singleton.mp hm
    exact ⟨hzero.symm, Nat.le_refl _⟩
  · intro m hm
    obtain rfl := List.mem_singleton.mp hm
    exact ⟨hzero.symm, Nat.le_refl _⟩
  · intro i hi
    have hstamp : (⟨BitVec.ofNat w i, 2 * i⟩ : Loaded w) = ⟨(Cell.free i).stamp w C, (Cell.free i).phase⟩ := by
      show (_ : Loaded w) = ⟨Stamp.enc w (lapBits C) C i, 2 * i⟩
      unfold Stamp.enc
      rw [Nat.div_eq_of_lt hi, Nat.mod_eq_of_lt hi, Nat.zero_mul, Nat.zero_add]
    refine ⟨?_, List.pairwise_singleton _ _, ⟨[], [], ?_, ?_⟩, ?_⟩
    · intro m hm
      obtain rfl := List.mem_singleton.mp hm
      rw [hstamp]
      exact ((ArrayQueue.Inv.new (w := w) (V := V)).cells i hi).dated
    · show [_] = [_]
      rw [← hstamp]
    · rintro _ k ⟨x, hx, _⟩
      cases hx
    · intro t ht
      cases ht
  · intro t i k h
    cases h
  · intro j k x y _ h
    cases h

theorem WeakState.Slots.le_phase {i : Nat} {c : Cell} (h : σ.Slots C i c) {m : Msg (Loaded w) Nat}
    (hm : m ∈ σ.cells (.stamp i)) : m.value.count ≤ c.phase := by
  obtain ⟨pre, known, hlast, _⟩ := h.last
  have hgrows := h.grows
  rw [hlast] at hm hgrows
  rcases List.mem_append.mp hm with hm | hm
  · exact Nat.le_of_lt ((List.pairwise_append.mp hgrows).2.2 m hm _ (List.mem_singleton_self _))
  · obtain rfl := List.mem_singleton.mp hm
    exact Nat.le_refl _

/-- Who has read a stamp of the slot as new as the last, knows what the last message brings along. -/
theorem WeakState.Slots.known_of_le {i : Nat} {c : Cell} (h : σ.Slots C i c) (ho : c.owner = none) {m : Msg (Loaded w) Nat}
    (hm : m ∈ σ.cells (.stamp i)) (hle : c.phase ≤ m.value.count) {k : Nat} (hk : σ.Accessed i k) : k ∈ m.known := by
  obtain ⟨pre, known, hlast, hknown⟩ := h.last
  have hgrows := h.grows
  rw [hlast] at hm hgrows
  rcases List.mem_append.mp hm with hm | hm
  · exact absurd ((List.pairwise_append.mp hgrows).2.2 m hm _ (List.mem_singleton_self _)) (Nat.not_lt.mpr hle)
  · obtain rfl := List.mem_singleton.mp hm
    exact hknown ho k hk

theorem known_move {v : View Nat} (hv : ∀ k ∈ σ.known t, k ∈ v.known) (u : Tid) :
    ∀ k ∈ σ.known u, k ∈ Function.update σ.known t v.known u := by
  intro k hk
  rw [Function.update_apply]
  split
  · rename_i e
    subst e
    exact hv k hk
  · exact hk

/-! ## Loads -/

theorem WeakState.Inv.reads (hi : σ.Inv C g) {m : Msg (Loaded w) Nat} {s : State w V} {q : Pc w V} {v : View Nat}
    (hr : σ.ring.Reads C g t m.value l s q) (hm : m ∈ σ.cells l) (hv : ∀ k ∈ σ.known t, k ∈ v.known)
    (ha : (σ.ring.pc t).access C = .load l .acquire → ∀ k ∈ m.known, k ∈ v.known) :
    (σ.move t { σ.ring with pc := s.pc, hist := s.hist } l v).Inv C g := by
  refine ⟨hi.ring.move hr.pc ⟨rfl, rfl, rfl, rfl, rfl⟩ hr.cell.2 hr.knows, hi.owned.move hr.pc hr.cell.1,
    ⟨hi.head.upTo, hi.head.last⟩, ⟨hi.tail.upTo, hi.tail.last⟩, fun i hiC => ?_, fun u i k hc => ?_, hi.ordered⟩
  · have h := hi.slots i hiC
    exact ⟨h.dated, h.grows, h.last, fun u hu k hk => known_move hv u k (h.worker u hu k hk)⟩
  · have hq : (s.pc u).claims C = some (i, k) := hc
    rw [hr.pc, Function.update_apply] at hq
    split at hq
    · rename_i e
      subst e
      obtain ⟨hacc, rfl, hle⟩ := hr.claims i k hq
      refine ⟨m, hm, hle, fun a hk => ?_⟩
      show a ∈ Function.update σ.known u v.known u
      rw [Function.update_self]
      exact ha hacc a hk
    · obtain ⟨n, hn, hle, hknown⟩ := hi.claims u i k hq
      exact ⟨n, hn, hle, fun a ha => known_move hv u a (hknown a ha)⟩

/-- If the access is a load of a stamp, message `i` of it is short of a full cycle of stamps
old. -/
def WeakState.Fresh (C : Nat) (σ : WeakState w V) (i : Nat) : Access w → Prop
  | .load (.stamp j) _ => ∀ m ∈ (σ.cells (.stamp j))[i]?, σ.ring.tails < m.value.count / 2 + (laps w C - 1) * C
  | _ => True

def Act.access (C : Nat) (s : State w V) : Act V → Access w
  | .call _ _ => .plain
  | .step t _ => (s.pc t).access C

/-- No step uses a stamp that a full cycle of stamps was stored after. -/
def WeakState.Near (C : Nat) (σ : WeakState w V) (x : Act V × Nat) : Prop :=
  ArrayQueue.Near (laps w C - 1) C σ.ring x.1 ∧ σ.Fresh C x.2 (x.1.access C σ.ring)

theorem WeakState.Inv.had (hi : σ.Inv C g) {m : Msg (Loaded w) Nat} (hm : m ∈ σ.cells l)
    (hl : ∀ j, l = .stamp j → j < C ∧ σ.ring.tails < m.value.count / 2 + (laps w C - 1) * C) :
    σ.ring.Had C g m.value l := by
  cases l with
  | head => exact hi.head.upTo m hm
  | tail => exact hi.tail.upTo m hm
  | stamp j =>
    obtain ⟨hj, hnear⟩ := hl j rfl
    exact ⟨(hi.slots j hj).dated m hm, (hi.slots j hj).le_phase hm, hnear⟩

theorem access_stamp_lt (hl : Layout w C) {p : Pc w V} {j : Nat} {o : Order} (hk : p.Knows C σ.ring.heads σ.ring.tails g)
    (h : p.access C = .load (.stamp j) o) : j < C := by
  cases p with
  | pushLoadStamp op value y =>
    cases h
    rw [hk.1, enc_index hl]
    exact Nat.mod_lt _ hl.pos
  | popLoadStamp y =>
    cases h
    rw [hk.1, enc_index hl]
    exact Nat.mod_lt _ hl.pos
  | _ => cases h

/-- What a thread has seen is not part of the invariant. -/
theorem WeakState.Inv.latest (hi : σ.Inv C g) (t : Tid) (l : Loc) : (σ.latest t l).Inv C g :=
  ⟨hi.ring, hi.owned, ⟨hi.head.upTo, hi.head.last⟩, ⟨hi.tail.upTo, hi.tail.last⟩,
    fun i hiC => ⟨(hi.slots i hiC).dated, (hi.slots i hiC).grows, (hi.slots i hiC).last, (hi.slots i hiC).worker⟩,
    hi.claims, hi.ordered⟩

theorem WeakState.Inv.had_load (hl : Layout w C) (hi : σ.Inv C g) {i : Nat} {o : Order} {m : Msg (Loaded w) Nat}
    (hacc : (σ.ring.pc t).access C = .load l o) (hn : σ.Near C (.step t b, i)) (hget : (σ.cells l)[i]? = some m) :
    σ.ring.Had C g m.value l := by
  refine hi.had (List.mem_of_getElem? hget) fun j hj => ?_
  subst hj
  have hold : σ.Fresh C i ((σ.ring.pc t).access C) := hn.2
  rw [hacc] at hold
  exact ⟨access_stamp_lt hl (hi.ring.knows t) hacc, hold m hget⟩

theorem WeakState.Inv.read (hl : Layout w C) (hi : σ.Inv C g) {i : Nat} {o : Order}
    (hacc : (σ.ring.pc t).access C = .load l o) (hn : σ.Near C (.step t b, i)) (h : σ.read C t b i l o = some σ') :
    σ'.Inv C g := by
  obtain ⟨m, hm, h⟩ := Option.bind_eq_some_iff.mp h
  obtain ⟨s, hs, rfl⟩ := Option.map_eq_some_iff.mp h
  have hget := (readable_eq_some.mp hm).2
  obtain ⟨q, hr⟩ := hi.ring.present_load hl hacc (hi.had_load hl hacc hn hget) hn.1 hs
  refine hi.reads hr (List.mem_of_getElem? hget) (fun k hk => View.mem_learn (v := σ.view t l) hk) fun ha k hk => ?_
  rw [hacc] at ha
  cases ha
  exact View.learn_acquires rfl hk

theorem WeakState.Inv.load (hl : Layout w C) (hi : σ.Inv C g) {i : Nat} {o : Order}
    (hacc : (σ.ring.pc t).access C = .load l o) (hn : σ.Near C (.step t b, i)) (h : σ.load C t b i l o = some σ') :
    σ'.Inv C g := by
  obtain ⟨σ₁, h₁, rfl⟩ := Option.map_eq_some_iff.mp h
  have hread : σ₁.Inv C g := by
    split at h₁
    · exact (hi.latest t l).read hl hacc hn h₁
    · exact hi.read hl hacc hn h₁
  split
  · exact (hread.latest t .head).latest t .tail
  · exact hread

theorem WeakState.Inv.had_cas (hi : σ.Inv C g) {e : BitVec w} {m : Msg (Loaded w) Nat}
    (hacc : (σ.ring.pc t).access C = .cas l e) (hm : m ∈ σ.cells l) : σ.ring.Had C g m.value l := by
  refine hi.had hm fun j hj => ?_
  subst hj
  cases hpc : σ.ring.pc t with
  | _ => rw [hpc] at hacc; cases hacc

theorem WeakState.Inv.cas_fails (hl : Layout w C) (hi : σ.Inv C g) {i : Nat} {e : BitVec w} {m : Msg (Loaded w) Nat}
    (hacc : (σ.ring.pc t).access C = .cas l e) (hm : (σ.cells l)[i]? = some m) (hf : ¬ (m.value.stamp = e ∧ b = false))
    (h : σ.read C t b i l .relaxed = some σ') : σ'.Inv C g := by
  obtain ⟨n, hn, h⟩ := Option.bind_eq_some_iff.mp h
  obtain ⟨s, hs, rfl⟩ := Option.map_eq_some_iff.mp h
  obtain rfl : m = n := Option.some.inj (hm.symm.trans (readable_eq_some.mp hn).2)
  have hmem := List.mem_of_getElem? hm
  obtain ⟨q, hr⟩ := hi.ring.present_cas hl hacc (hi.had_cas hacc hmem) hf hs
  refine hi.reads hr hmem (fun k hk => View.mem_learn (v := σ.view t l) hk) fun ha => ?_
  rw [hacc] at ha
  cases ha

/-! ## Steps that write -/

/-- What a step of thread `t` leaves of the cells of the slots other than `i`. -/
structure Elsewhere (C : Nat) (s : State w V) (t : Tid) (s' : State w V) (i : Nat) : Prop where
  stamp : ∀ j, j ≠ i → (s'.buffer j).stamp = (s.buffer j).stamp
  before : ∀ d, (s.pc t).cell C t = some d → d.next C % C = i
  after : ∀ d, (s'.pc t).cell C t = some d → d.next C % C = i
  tails : s'.tails = s.tails ∨ s'.tails = s.tails + 1 ∧ s.tails % C = i

theorem Progress.elsewhere (hl : Layout w C) {s s' : State w V} (hi : Inv C s g) (ho : Owned C s g)
    (hp : Progress C s g s' t g') {i j : Nat} (he : Elsewhere C s t s' i) (hj : j < C) (hne : j ≠ i) :
    (g'.cell j).owner = (g.cell j).owner ∧ (g'.cell j).phase = (g.cell j).phase ∧
    (g'.cell j).stamp w C = (g.cell j).stamp w C := by
  have hok := hi.cells j hj
  have hok' := hp.inv.cells j hj
  have hstamp : (g'.cell j).stamp w C = (g.cell j).stamp w C := by
    have h := he.stamp j hne
    rw [hi.slots j hj, hp.inv.slots j hj] at h
    exact h
  cases howner : (g.cell j).owner with
  | some u =>
    have hcell := ho j hj u howner
    have hu : u ≠ t := by
      rintro rfl
      exact hne (hok.place.symm.trans (he.before _ hcell))
    rw [← hp.others u hu] at hcell
    have hsame := hp.inv.claims u _ hcell
    rw [hok.place] at hsame
    rw [hsame]
    exact ⟨howner, rfl, rfl⟩
  | none =>
    have howner' : (g'.cell j).owner = none := by
      cases howner' : (g'.cell j).owner with
      | none => rfl
      | some u =>
        have hcell := hp.owned ho j hj u howner'
        have hu : u ≠ t := by
          rintro rfl
          exact hne (hok'.place.symm.trans (he.after _ hcell))
        rw [hp.others u hu] at hcell
        have hsame := hi.claims u _ hcell
        rw [hok'.place] at hsame
        rw [hsame, howner'] at howner
        cases howner
    refine ⟨howner', ?_, hstamp⟩
    have hdated := hok.dated (w := w)
    have hlow : s'.tails ≤ (g.cell j).next C := by
      rcases he.tails with e | ⟨e, hT⟩
      · rw [e]
        exact hok.low
      · rw [e]
        refine Nat.lt_of_le_of_ne hok.low fun e => ?_
        rw [e, hok.place] at hT
        exact hne hT
    have hhigh : (g.cell j).next C < s'.tails + C := by
      refine Nat.lt_of_lt_of_le hok.high (Nat.add_le_add_right ?_ C)
      rcases he.tails with e | ⟨e, _⟩
      · exact Nat.le_of_eq e.symm
      · rw [e]
        exact Nat.le_succ _
    rw [← Cell.next_of_phase howner] at hlow hhigh
    exact hok'.phase_eq hl howner' (hstamp.trans (Cell.stamp_eq _)) hdated.place hlow hhigh

theorem WeakState.Inv.wrote (hl : Layout w C) (hi : σ.Inv C g) (hp : Progress C σ.ring g σ'.ring t g') {i : Nat}
    (he : Elsewhere C σ.ring t σ'.ring i) (hcells : ∀ j, j ≠ i → σ'.cells (.stamp j) = σ.cells (.stamp j))
    (hmsgs : ∀ m ∈ σ.cells (.stamp i), m ∈ σ'.cells (.stamp i)) (hhead : σ'.Counts C .head σ'.ring.loadHead)
    (htail : σ'.Counts C .tail σ'.ring.loadTail) (hknown : ∀ u, ∀ k ∈ σ.known u, k ∈ σ'.known u)
    (hacc : ∀ j k, j ≠ i → σ'.Accessed j k → σ.Accessed j k) (hslot : σ'.Slots C i (g'.cell i))
    (hclaims : (σ'.ring.pc t).claims C = none) (hord : SlotOrdered σ'.accesses) : σ'.Inv C g' := by
  have hT : σ.ring.tails ≤ σ'.ring.tails := by
    rcases he.tails with e | ⟨e, _⟩
    · exact Nat.le_of_eq e.symm
    · rw [e]
      exact Nat.le_succ _
  refine ⟨hp.inv, hp.owned hi.owned, hhead, htail, fun j hj => ?_, fun u j k hc => ?_, hord⟩
  · by_cases hne : j = i
    · rw [hne]
      exact hslot
    · obtain ⟨howner, hphase, hstamp⟩ := hp.elsewhere hl hi.ring hi.owned he hj hne
      have h := hi.slots j hj
      refine ⟨?_, ?_, ?_, ?_⟩
      · rw [hcells j hne]
        exact fun m hm => (h.dated m hm).mono hT
      · rw [hcells j hne]
        exact h.grows
      · obtain ⟨pre, known, hlast, hk⟩ := h.last
        rw [hcells j hne, howner, hphase, hstamp]
        exact ⟨pre, known, hlast, fun ho k ha => hk ho k (hacc j k hne ha)⟩
      · rw [howner]
        exact fun u hu k ha => hknown u k (h.worker u hu k (hacc j k hne ha))
  · by_cases hu : u = t
    · rw [hu, hclaims] at hc
      cases hc
    · rw [hp.others u hu] at hc
      obtain ⟨m, hm, hle, hk⟩ := hi.claims u j k hc
      refine ⟨m, ?_, hle, fun a ha => hknown u a (hk a ha)⟩
      by_cases hne : j = i
      · rw [hne] at hm ⊢
        exact hmsgs m hm
      · rw [hcells j hne]
        exact hm

theorem WeakState.Counts.next {x y : Loaded w} {k : List Nat} (h : σ.Counts C l x) (hx : x.count ≤ y.count)
    (hy : y.upTo C y.count) (hc : σ'.cells l = σ.cells l ++ [⟨y, k⟩]) : σ'.Counts C l y := by
  refine ⟨fun m hm => ?_, σ.cells l, k, hc⟩
  rw [hc] at hm
  rcases List.mem_append.mp hm with hm | hm
  · exact (h.upTo m hm).mono hx
  · obtain rfl := List.mem_singleton.mp hm
    exact hy

theorem WeakState.Counts.same {x : Loaded w} (h : σ.Counts C l x) (hc : σ'.cells l = σ.cells l) : σ'.Counts C l x := by
  refine ⟨?_, ?_⟩
  · rw [hc]
    exact h.upTo
  · rw [hc]
    exact h.last

end

end RefCount.ArrayQueue
