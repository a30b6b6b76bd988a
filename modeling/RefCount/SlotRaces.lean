import RefCount.SlotViews

/-!
# The values in the slots

Who takes a slot has read a stamp of it that the one before him stored when he was done with
the value; so each access to the value of a slot happens after every earlier one, whatever
stale words the threads read in between.
-/

namespace RefCount.ArrayQueue

open Lts RelAcq

section
variable {w C : Nat} {V : Type} {σ σ' : WeakState w V} {g g' : Ghost V} {t : Tid} {b : Bool} {l : Loc}

/-! ## Claims -/

/-- Thread `t` moves the counter at `l` and so claims slot `i`, in which nobody is at work and
which has come to `k`. -/
structure State.Claims (C : Nat) (s : State w V) (g : Ghost V) (t : Tid) (s' : State w V) (l : Loc) (i k : Nat) (c : Cell) :
    Prop where
  elsewhere : Elsewhere C s t s' i
  place : i < C
  before : (g.cell i).owner = none ∧ (g.cell i).phase = k
  read : (s.pc t).claims C = some (i, k)
  after : (s'.pc t).cell C t = some c ∧ c.next C % C = i ∧ c.phase = k
  claims : (s'.pc t).claims C = none
  moves : l = .head ∧ s'.heads = s.heads + 1 ∧ s'.loadTail = s.loadTail ∨
    l = .tail ∧ s'.tails = s.tails + 1 ∧ s'.loadHead = s.loadHead

theorem WeakState.Inv.claimed (hl : Layout w C) (hi : σ.Inv C g) {s : State w V} (hp : Progress C σ.ring g s t g')
    {i k : Nat} {c : Cell} {v : View Nat} {cell : List (Msg (Loaded w) Nat)} (hc : σ.ring.Claims C g t s l i k c)
    (hhead : ((σ.write l cell).move t s l v).Counts C .head s.loadHead)
    (htail : ((σ.write l cell).move t s l v).Counts C .tail s.loadTail) (hv : ∀ a ∈ σ.known t, a ∈ v.known) :
    ((σ.write l cell).move t s l v).Inv C g' := by
  obtain ⟨hafter, hplace, hphase⟩ := hc.after
  have hcells : ∀ j, ((σ.write l cell).move t s l v).cells (.stamp j) = σ.cells (.stamp j) := by
    intro j
    refine Function.update_of_ne ?_ _ _
    rcases hc.moves with ⟨rfl, _⟩ | ⟨rfl, _⟩
    · exact Loc.noConfusion
    · exact Loc.noConfusion
  have hslot := hi.slots i hc.place
  have hcell : g'.cell i = c := by
    have := hp.inv.claims t c hafter
    rw [hplace] at this
    exact this
  obtain ⟨m, hm, hle, hk⟩ := hi.claims t i k hc.read
  have hstamp : c.stamp w C = (g.cell i).stamp w C := by rw [Cell.stamp_eq, Cell.stamp_eq, hphase, hc.before.2]
  have howner : c.owner = some t := Pc.cell_owner hafter
  refine hi.wrote hl hp hc.elsewhere (fun j _ => hcells j) (fun m hm => by rw [hcells]; exact hm) hhead htail
    (known_move hv) (fun _ _ _ h => h) ?_ hc.claims hi.ordered
  rw [hcell]
  refine ⟨?_, ?_, ?_, ?_⟩
  · rw [hcells]
    refine fun m hm => (hslot.dated m hm).mono ?_
    rcases hc.elsewhere.tails with e | ⟨e, _⟩
    · exact Nat.le_of_eq e.symm
    · exact Nat.le_of_lt (Nat.lt_of_lt_of_eq (Nat.lt_succ_self _) e.symm)
  · rw [hcells]
    exact hslot.grows
  · obtain ⟨pre, known, hlast, _⟩ := hslot.last
    rw [hcells, hstamp, hphase, ← hc.before.2]
    exact ⟨pre, known, hlast, fun ho => by rw [howner] at ho; cases ho⟩
  · intro u hu a ha
    obtain rfl : t = u := Option.some.inj (howner.symm.trans hu)
    show a ∈ Function.update σ.known t v.known t
    rw [Function.update_self]
    exact hv a (hk a (hslot.known_of_le hc.before.1 hm (by rw [hc.before.2]; exact hle) ha))

theorem Inv.cas_claims (hl : Layout w C) {s s' : State w V} (hi : Inv C s g) {e : BitVec w}
    (hacc : (s.pc t).access C = .cas l e) (hword : s.word l = e)
    (hn : (s.pc t).near (laps w C - 1) C s.heads s.tails = true) (h : s.stepThread C t false = some s') :
    ∃ i k c, s.Claims C g t s' l i k c := by
  unfold State.stepThread at h
  have hk := hi.knows t
  cases hpc : s.pc t with
  | pushCasTail op value y =>
    rw [hpc] at h hacc hn hk
    cases hacc
    obtain ⟨hT, hcell⟩ := hi.pushCas_free hl hk.1 hk.2 (of_decide_eq_true hn) hword
    have hword : s.tail = y.stamp := hword
    have hnew : newStamp C y.stamp = some (Stamp.enc w (lapBits C) C (y.count + 1)) := by rw [hk.1.1, enc_succ hl]
    simp only [State.pushCasTail, hword, and_self, if_true, hnew, Option.some.injEq] at h
    subst h
    rw [hT] at hcell
    refine ⟨y.count % C, 2 * y.count, .writing y.count t false, ⟨fun _ _ => rfl, ?_, ?_, .inr ⟨rfl, by rw [hT]⟩⟩,
      Nat.mod_lt _ hl.pos, ?_, by rw [hpc]; rfl, ?_, ?_, .inr ⟨rfl, rfl, rfl⟩⟩
    · intro d hd
      rw [hpc] at hd
      cases hd
    · intro d hd
      rw [setPc_self] at hd
      cases hd
      exact Nat.add_mod_right _ _
    · rw [hcell]
      exact ⟨rfl, rfl⟩
    · rw [setPc_self]
      exact ⟨rfl, Nat.add_mod_right _ _, rfl⟩
    · rw [setPc_self]
      rfl
  | forceCasHead value y =>
    rw [hpc] at h hacc hn hk
    cases hacc
    have hword : s.head = y.stamp - oneLap w C := hword
    obtain ⟨hH, hT⟩ := hi.lag hl hk.1 (of_decide_eq_true hn) (by rw [hword, BitVec.sub_add_cancel])
    have hcell := hi.lag_full hl hk.2.2 hH
    have hnew : newStamp C y.stamp = some (Stamp.enc w (lapBits C) C (y.count + 1)) := by rw [hk.1.1, enc_succ hl]
    simp only [State.forceCasHead, hnew, hword, and_self, if_true, Option.some.injEq] at h
    subst h
    have hplace : s.heads % C = y.count % C := by rw [← hH, Nat.add_mod_right]
    have hcount : y.count - C = s.heads := by omega
    have hsum : y.count - C + C = y.count := Nat.sub_add_cancel hk.2.1
    rw [hplace] at hcell
    refine ⟨y.count % C, 2 * (y.count - C) + 1, .evicting (y.count - C) t, ⟨fun _ _ => rfl, ?_, ?_, .inl rfl⟩,
      Nat.mod_lt _ hl.pos, ?_, by rw [hpc]; rfl, ?_, ?_, .inl ⟨rfl, rfl, rfl⟩⟩
    · intro d hd
      rw [hpc] at hd
      cases hd
    · intro d hd
      rw [setPc_self] at hd
      cases hd
      show (y.count - C + C) % C = y.count % C
      rw [hsum]
    · rw [hcell, hcount]
      exact ⟨rfl, rfl⟩
    · rw [setPc_self]
      refine ⟨rfl, ?_, rfl⟩
      show (y.count - C + C) % C = y.count % C
      rw [hsum]
    · rw [setPc_self]
      rfl
  | popCasHead y =>
    rw [hpc] at h hacc hn hk
    cases hacc
    obtain ⟨hH, hcell⟩ := hi.popCas_full hl hk.1 hk.2 (of_decide_eq_true hn) hword
    have hword : s.head = y.stamp := hword
    have hnew : newStamp C y.stamp = some (Stamp.enc w (lapBits C) C (y.count + 1)) := by rw [hk.1.1, enc_succ hl]
    simp only [State.popCasHead, hnew, hword, and_self, if_true, Option.some.injEq] at h
    subst h
    rw [hH] at hcell
    refine ⟨y.count % C, 2 * y.count + 1, .reading y.count t false, ⟨fun _ _ => rfl, ?_, ?_, .inl rfl⟩,
      Nat.mod_lt _ hl.pos, ?_, by rw [hpc]; rfl, ?_, ?_, .inl ⟨rfl, rfl, rfl⟩⟩
    · intro d hd
      rw [hpc] at hd
      cases hd
    · intro d hd
      rw [setPc_self] at hd
      cases hd
      exact Nat.add_mod_right _ _
    · rw [hcell]
      exact ⟨rfl, rfl⟩
    · rw [setPc_self]
      exact ⟨rfl, Nat.add_mod_right _ _, rfl⟩
    · rw [setPc_self]
      rfl
  | _ => rw [hpc] at hacc; cases hacc

theorem WeakState.Counts.last_eq {x : Loaded w} (h : σ.Counts C l x) {i : Nat} {m : Msg (Loaded w) Nat}
    (hm : (σ.cells l)[i]? = some m) (hlen : i + 1 = (σ.cells l).length) : m.value = x := by
  obtain ⟨pre, known, hlast⟩ := h.last
  rw [hlast, List.length_append, List.length_singleton] at hlen
  rw [hlast, show i = pre.length from Nat.succ.inj hlen, List.getElem?_concat_length] at hm
  rw [← Option.some.inj hm]

theorem WeakState.Inv.cas_succeeds (hl : Layout w C) (hi : σ.Inv C g) {i : Nat} {e : BitVec w} {m : Msg (Loaded w) Nat}
    {s : State w V} {v : View Nat} {cell : List (Msg (Loaded w) Nat)} (hacc : (σ.ring.pc t).access C = .cas l e)
    (hm : (σ.cells l)[i]? = some m) (he : m.value.stamp = e) (hlen : i + 1 = (σ.cells l).length)
    (hn : ArrayQueue.Near (laps w C - 1) C σ.ring (.step t false)) (hs : σ.ring.stepThread C t false = some s)
    (hr : rmw .seqCst (σ.view t l) (σ.cells l) ⟨s.word l, m.value.count + 1⟩ = some (v, cell)) :
    ∃ g', Progress C σ.ring g s t g' ∧ ((σ.write l cell).move t s l v).Inv C g' := by
  obtain ⟨⟨known, hcell⟩, hv⟩ := rmw_appends hr
  obtain ⟨g', hp⟩ := hi.ring.step hl hn hs
  have hwritten : ((σ.write l cell).move t s l v).cells l = σ.cells l ++ [⟨⟨s.word l, m.value.count + 1⟩, known⟩] :=
    (Function.update_self ..).trans hcell
  have hother : ∀ l', l' ≠ l → ((σ.write l cell).move t s l v).cells l' = σ.cells l' :=
    fun _ h => Function.update_of_ne h _ _
  have hword : σ.ring.word l = e := by
    cases l with
    | head => rw [← he, hi.head.last_eq hm hlen]; rfl
    | tail => rw [← he, hi.tail.last_eq hm hlen]; rfl
    | stamp j =>
      cases hpc : σ.ring.pc t with
      | _ => rw [hpc] at hacc; cases hacc
  obtain ⟨j, k, c, hc⟩ := hi.ring.cas_claims hl hacc hword hn hs
  refine ⟨g', hp, hi.claimed hl hp hc ?_ ?_ hv⟩
  · rcases hc.moves with ⟨rfl, hH, _⟩ | ⟨rfl, _, hH⟩
    · refine hi.head.next (y := s.loadHead) (k := known) (Nat.le_of_lt (Nat.lt_of_lt_of_eq (Nat.lt_succ_self _) hH.symm))
        ⟨hp.inv.head, Nat.le_refl _⟩ ?_
      have hload : s.loadHead = ⟨s.word .head, σ.ring.heads + 1⟩ := by rw [← hH]; rfl
      rw [hwritten, hi.head.last_eq hm hlen, hload]
      rfl
    · rw [hH]
      exact hi.head.same (hother _ Loc.noConfusion)
  · rcases hc.moves with ⟨rfl, _, hT⟩ | ⟨rfl, hT, _⟩
    · rw [hT]
      exact hi.tail.same (hother _ Loc.noConfusion)
    · refine hi.tail.next (y := s.loadTail) (k := known) (Nat.le_of_lt (Nat.lt_of_lt_of_eq (Nat.lt_succ_self _) hT.symm))
        ⟨hp.inv.tail, Nat.le_refl _⟩ ?_
      have hload : s.loadTail = ⟨s.word .tail, σ.ring.tails + 1⟩ := by rw [← hT]; rfl
      rw [hwritten, hi.tail.last_eq hm hlen, hload]
      rfl

theorem WeakState.Inv.cas (hl : Layout w C) (hi : σ.Inv C g) {i : Nat} {e : BitVec w}
    (hacc : (σ.ring.pc t).access C = .cas l e) (hn : σ.Near C (.step t b, i)) (h : σ.cas C t b i l e = some σ') :
    ∃ g', σ'.Inv C g' := by
  obtain ⟨m, hm, h⟩ := Option.bind_eq_some_iff.mp h
  split at h
  · rename_i he
    obtain ⟨he, rfl⟩ := he
    split at h
    · rename_i hlen
      obtain ⟨s, hs, h⟩ := Option.bind_eq_some_iff.mp h
      obtain ⟨⟨v, cell⟩, hr, rfl⟩ := Option.map_eq_some_iff.mp h
      obtain ⟨g', _, hi'⟩ := hi.cas_succeeds hl hacc hm he hlen hn.1 hs hr
      exact ⟨g', hi'⟩
    · cases h
  · rename_i hf
    exact ⟨g, hi.cas_fails hl hacc hm hf h⟩

/-! ## At work in a slot -/

theorem WeakState.Inv.own (hi : σ.Inv C g) {i : Nat} {c : Cell} (hc : (σ.ring.pc t).cell C t = some c)
    (hplace : c.next C % C = i) : g.cell i = c := by
  have := hi.ring.claims t c hc
  rw [hplace] at this
  exact this

/-- Thread `t` is at work in slot `i`, and still is after the step. -/
theorem WeakState.Inv.works (hl : Layout w C) (hi : σ.Inv C g) (hp : Progress C σ.ring g σ'.ring t g') {i : Nat}
    {c c' : Cell} (hbefore : (σ.ring.pc t).cell C t = some c) (hafter : (σ'.ring.pc t).cell C t = some c')
    (hphase : c'.phase = c.phase) (he : Elsewhere C σ.ring t σ'.ring i)
    (hcells : ∀ j, σ'.cells (.stamp j) = σ.cells (.stamp j)) (hhead : σ'.Counts C .head σ'.ring.loadHead)
    (htail : σ'.Counts C .tail σ'.ring.loadTail) (hknown : ∀ u, ∀ k ∈ σ.known u, k ∈ σ'.known u)
    (hacc : ∀ j k, j ≠ i → σ'.Accessed j k → σ.Accessed j k) (hworker : ∀ k, σ'.Accessed i k → k ∈ σ'.known t)
    (hclaims : (σ'.ring.pc t).claims C = none) (hord : SlotOrdered σ'.accesses) : σ'.Inv C g' := by
  have hplace := he.before c hbefore
  have hiC : i < C := by
    rw [← hplace]
    exact Nat.mod_lt _ hl.pos
  have hc := hi.own hbefore hplace
  have hc' : g'.cell i = c' := by
    have := hp.inv.claims t c' hafter
    rw [he.after c' hafter] at this
    exact this
  have hslot := hi.slots i hiC
  rw [hc] at hslot
  have howner : c'.owner = some t := Pc.cell_owner hafter
  refine hi.wrote hl hp he (fun j _ => hcells j) (fun m hm => by rw [hcells]; exact hm) hhead htail hknown hacc ?_ hclaims hord
  rw [hc']
  refine ⟨?_, ?_, ?_, ?_⟩
  · rw [hcells]
    refine fun m hm => (hslot.dated m hm).mono ?_
    rcases he.tails with e | ⟨e, _⟩
    · exact Nat.le_of_eq e.symm
    · exact Nat.le_of_lt (Nat.lt_of_lt_of_eq (Nat.lt_succ_self _) e.symm)
  · rw [hcells]
    exact hslot.grows
  · obtain ⟨pre, known, hlast, _⟩ := hslot.last
    rw [hcells, Cell.stamp_eq, hphase, ← Cell.stamp_eq]
    exact ⟨pre, known, hlast, fun ho => by rw [howner] at ho; cases ho⟩
  · intro u hu
    obtain rfl : t = u := Option.some.inj (howner.symm.trans hu)
    exact hworker

/-- A step of thread `t` at the value in slot `i`. -/
structure State.Works (C : Nat) (s : State w V) (t : Tid) (s' : State w V) (i : Nat) (c c' : Cell) : Prop where
  before : (s.pc t).cell C t = some c
  after : (s'.pc t).cell C t = some c'
  phase : c'.phase = c.phase
  elsewhere : Elsewhere C s t s' i
  claims : (s'.pc t).claims C = none
  head : s'.loadHead = s.loadHead

theorem setValue_stamp {s : State w V} (y : BitVec w) (v : Option V) (j : Nat) :
    ((s.setValue C y v).buffer j).stamp = (s.buffer j).stamp := by
  show (Function.update s.buffer _ _ j).stamp = _
  rw [Function.update_apply]
  split
  · rename_i e
    rw [e]
    rfl
  · rfl

theorem works_setValue {s : State w V} {p q : Pc w V} {y : Loaded w} {v : Option V} {i : Nat} {c d : Cell}
    (hpc : s.pc t = p) (hp : p.cell C t = some c) (hq : q.cell C t = some d) (hphase : d.phase = c.phase)
    (hplace : c.next C % C = i) (hplace' : d.next C % C = i) (hclaims : q.claims C = none) :
    State.Works C s t ((s.setValue C y.stamp v).setPc t q) i c d := by
  refine ⟨by rw [hpc]; exact hp, by rw [setPc_self]; exact hq, hphase,
    ⟨fun j _ => setValue_stamp _ _ j, ?_, ?_, .inl rfl⟩, by rw [setPc_self]; exact hclaims, rfl⟩
  · intro d hd
    rw [hpc, hp] at hd
    cases hd
    exact hplace
  · intro d hd
    rw [setPc_self, hq] at hd
    cases hd
    exact hplace'

theorem Inv.value_works (hl : Layout w C) {s s' : State w V} (hi : Inv C s g) {i : Nat}
    (hacc : (s.pc t).access C = .value i) (h : s.stepThread C t b = some s') (hf : s'.pc t ≠ .fault) :
    s'.loadTail = s.loadTail ∧ ∃ c c', s.Works C t s' i c c' := by
  unfold State.stepThread at h
  have hk := hi.knows t
  cases hpc : s.pc t with
  | pushWrite op value y =>
    rw [hpc] at h hacc hk
    cases hacc
    have hplace : (y.count + C) % C = (index C y.stamp).toNat := by rw [hk.1.1, enc_index hl, Nat.add_mod_right]
    simp only [State.pushWrite] at h
    cases hv : (s.slot C y.stamp).value with
    | some old =>
      rw [hv] at h
      cases h
      exact absurd (setPc_self _ _ _) hf
    | none =>
      rw [hv] at h
      cases h
      exact ⟨rfl, _, _, works_setValue (c := .writing y.count t false) (d := .writing y.count t true) hpc rfl rfl rfl hplace
        hplace rfl⟩
  | forceReplace value y =>
    rw [hpc] at h hacc hk
    cases hacc
    have hplace : (y.count - C + C + C) % C = (index C y.stamp).toNat := by
      rw [Nat.sub_add_cancel hk.2.1, hk.1.1, enc_index hl, Nat.add_mod_right]
    simp only [State.forceReplace] at h
    cases hv : (s.slot C y.stamp).value with
    | none =>
      rw [hv] at h
      cases h
      exact absurd (setPc_self _ _ _) hf
    | some old =>
      rw [hv] at h
      cases h
      exact ⟨rfl, _, _, works_setValue (c := .replacing (y.count - C) t false) (d := .replacing (y.count - C) t true) hpc rfl
        rfl rfl hplace hplace rfl⟩
  | popRead y =>
    rw [hpc] at h hacc hk
    cases hacc
    have hplace : (y.count + C) % C = (index C y.stamp).toNat := by rw [hk.1.1, enc_index hl, Nat.add_mod_right]
    simp only [State.popRead] at h
    cases hv : (s.slot C y.stamp).value with
    | none =>
      rw [hv] at h
      cases h
      exact absurd (setPc_self _ _ _) hf
    | some msg =>
      rw [hv] at h
      cases h
      exact ⟨rfl, _, _, works_setValue (c := .reading y.count t false) (d := .reading y.count t true) hpc rfl rfl rfl hplace
        hplace rfl⟩
  | _ => rw [hpc] at hacc; cases hacc

theorem WeakState.Inv.value (hl : Layout w C) (hi : σ.Inv C g) {i j : Nat} (hacc : (σ.ring.pc t).access C = .value i)
    (hn : σ.Near C (.step t b, j)) (h : σ.value C t b i = some σ') :
    ∃ g', Progress C σ.ring g σ'.ring t g' ∧ σ'.Inv C g' := by
  obtain ⟨s, hs, rfl⟩ := Option.map_eq_some_iff.mp h
  obtain ⟨g', hp⟩ := hi.ring.step hl hn.1 hs
  have hfault : s.pc t ≠ .fault := by
    intro e
    have hk := hp.inv.knows t
    rw [e] at hk
    exact hk
  obtain ⟨hT, c, c', hw⟩ := hi.ring.value_works hl hacc hs hfault
  have hplace := hw.elsewhere.before c hw.before
  have hiC : i < C := by
    rw [← hplace]
    exact Nat.mod_lt _ hl.pos
  -- the thread owns the slot, so it knows of every access so far
  have hall : ∀ k, σ.Accessed i k → k ∈ σ.known t := by
    refine (hi.slots i hiC).worker t ?_
    rw [hi.own hw.before hplace]
    exact Pc.cell_owner hw.before
  have hknown : ∀ u, ∀ k ∈ σ.known u, k ∈ Function.update σ.known t (σ.accesses.length :: σ.known t) u := by
    intro u k hk
    rw [Function.update_apply]
    split
    · rename_i e
      subst e
      exact List.mem_cons_of_mem _ hk
    · exact hk
  have hold : ∀ j k, (∃ x, (σ.accesses ++ [⟨i, σ.known t⟩])[k]? = some x ∧ x.place = j) →
      σ.Accessed j k ∨ k = σ.accesses.length ∧ j = i := by
    rintro j k ⟨x, hx, rfl⟩
    rcases getElem?_concat hx with hx | ⟨rfl, rfl⟩
    · exact .inl ⟨x, hx, rfl⟩
    · exact .inr ⟨rfl, rfl⟩
  refine ⟨g', hp, hi.works hl hp hw.before hw.after hw.phase hw.elsewhere (fun _ => rfl) ?_ ?_ hknown ?_ ?_ hw.claims ?_⟩
  · rw [show _ = σ.ring.loadHead from hw.head]
    exact hi.head.same rfl
  · rw [show _ = σ.ring.loadTail from hT]
    exact hi.tail.same rfl
  · intro j k hne hk
    rcases hold j k hk with h | ⟨_, e⟩
    · exact h
    · exact absurd e hne
  · intro k hk
    show k ∈ Function.update σ.known t _ t
    rw [Function.update_self]
    rcases hold i k hk with h | ⟨rfl, _⟩
    · exact List.mem_cons_of_mem _ (hall k h)
    · exact List.mem_cons_self ..
  · intro j k x y hjk hx hy hxy
    rcases getElem?_concat hy with hy | ⟨rfl, rfl⟩
    · rw [List.getElem?_append_left (hjk.trans (List.getElem?_eq_some_iff.mp hy).1)] at hx
      exact hi.ordered j k x y hjk hx hy hxy
    · rw [List.getElem?_append_left hjk] at hx
      exact hall j ⟨x, hx, hxy⟩

/-! ## Stores -/

theorem Inv.storeTail_works (hl : Layout w C) {s s' : State w V} (hi : Inv C s g) {value : V} {y : Loaded w}
    (hpc : s.pc t = .forceStoreTail value y) (h : s.stepThread C t b = some s') :
    s'.tails = y.count + 1 ∧ s.tails = y.count ∧ s.Works C t s' (y.count % C) (.evicting (y.count - C) t)
      (.replacing (y.count - C) t false) := by
  have hk := hi.knows t
  have hclaims := hi.claims t (.evicting (y.count - C) t) (by rw [hpc]; rfl)
  rw [hpc] at hk
  have hsum : y.count - C + C = y.count := Nat.sub_add_cancel hk.2.1
  have hplace : (y.count - C + C) % C = y.count % C := by rw [hsum]
  have hT : s.tails = y.count := by
    have hok := hi.ok hl y.count
    rw [show Cell.next C (.evicting (y.count - C) t) = y.count from hsum] at hclaims
    rw [hclaims] at hok
    exact hok.turn.2.trans hsum
  unfold State.stepThread at h
  rw [hpc] at h
  simp only [State.forceStoreTail, hk.1.1, enc_succ hl, Option.some.injEq] at h
  subst h
  refine ⟨by rw [← hT]; rfl, hT, by rw [hpc]; rfl, by rw [setPc_self]; rfl, rfl, ⟨fun _ _ => rfl, ?_, ?_, .inr ⟨rfl, ?_⟩⟩,
    by rw [setPc_self]; rfl, rfl⟩
  · intro d hd
    rw [hpc] at hd
    cases hd
    exact hplace
  · intro d hd
    rw [setPc_self] at hd
    cases hd
    show (y.count - C + C + C) % C = y.count % C
    rw [hsum, Nat.add_mod_right]
  · rw [hT]

/-- The state after a store of `count` at `l`. -/
def WeakState.stored (σ : WeakState w V) (t : Tid) (s : State w V) (l : Loc) (o : Order) (count : Nat) : WeakState w V :=
  (σ.write l (σ.cells l ++ [⟨⟨s.word l, count⟩, (σ.view t l).shares o⟩])).move t s l ⟨(σ.cells l).length, σ.known t⟩

theorem WeakState.stored_known {s : State w V} {o : Order} {count : Nat} (u : Tid) :
    (σ.stored t s l o count).known u = σ.known u := by
  show Function.update σ.known t (σ.known t) u = σ.known u
  rw [Function.update_eq_self]

theorem WeakState.stored_cells {s : State w V} {o : Order} {count : Nat} :
    (σ.stored t s l o count).cells l = σ.cells l ++ [⟨⟨s.word l, count⟩, (σ.view t l).shares o⟩] :=
  Function.update_self ..

theorem WeakState.stored_cells_of_ne {s : State w V} {o : Order} {count : Nat} {l' : Loc} (h : l' ≠ l) :
    (σ.stored t s l o count).cells l' = σ.cells l' :=
  Function.update_of_ne h _ _

theorem WeakState.Inv.storeTail (hl : Layout w C) (hi : σ.Inv C g) {value : V} {y : Loaded w} {s : State w V} {o : Order}
    (hpc : σ.ring.pc t = .forceStoreTail value y) (hs : σ.ring.stepThread C t b = some s)
    (hp : Progress C σ.ring g s t g') : (σ.stored t s .tail o (y.count + 1)).Inv C g' := by
  obtain ⟨hT', hT, hw⟩ := hi.ring.storeTail_works hl hpc hs
  have hplace := hw.elsewhere.before _ hw.before
  have hall : ∀ k, σ.Accessed (y.count % C) k → k ∈ σ.known t := by
    refine (hi.slots _ (Nat.mod_lt _ hl.pos)).worker t ?_
    rw [hi.own hw.before hplace]
    exact Pc.cell_owner hw.before
  have hload : s.loadTail = ⟨s.word .tail, y.count + 1⟩ := by rw [← hT']; rfl
  refine hi.works hl hp hw.before hw.after hw.phase hw.elsewhere (fun j => stored_cells_of_ne Loc.noConfusion) ?_ ?_ ?_
    (fun _ _ _ hk => hk) ?_ hw.claims hi.ordered
  · rw [show (σ.stored t s .tail o (y.count + 1)).ring.loadHead = σ.ring.loadHead from hw.head]
    exact hi.head.same (stored_cells_of_ne Loc.noConfusion)
  · refine hi.tail.next (y := s.loadTail) (k := (σ.view t .tail).shares o) ?_ ⟨hp.inv.tail, Nat.le_refl _⟩ ?_
    · show σ.ring.tails ≤ s.tails
      omega
    · rw [stored_cells, hload]
  · intro u k hk
    rw [stored_known]
    exact hk
  · intro k hk
    rw [stored_known]
    exact hall k hk

/-- Thread `t` is done with slot `i` and stores its stamp, which has come to `k`. -/
structure State.Leaves (C : Nat) (s : State w V) (t : Tid) (s' : State w V) (i k : Nat) (c : Cell) : Prop where
  before : (s.pc t).cell C t = some c
  after : (s'.pc t).cell C t = none
  next : k / 2 + k % 2 * C = c.next C
  place : k / 2 % C = i
  phase : c.phase < k
  stamp : s'.word (.stamp i) = stampAt w C k
  elsewhere : Elsewhere C s t s' i
  tails : s'.tails = s.tails
  claims : (s'.pc t).claims C = none
  head : s'.loadHead = s.loadHead
  tail : s'.loadTail = s.loadTail

theorem setStamp_stamp {s : State w V} {y : BitVec w} {i : Nat} (hy : (index C y).toNat = i) (z : BitVec w) (j : Nat) :
    ((s.setStamp C y z).buffer j).stamp = if j = i then z else (s.buffer j).stamp := by
  subst hy
  show (Function.update s.buffer _ _ j).stamp = _
  rw [Function.update_apply]
  split
  · rfl
  · rfl

theorem leaves_setStamp {s : State w V} {y : Loaded w} {r : Fifo.Ret V} {c : Cell} {k : Nat} {z : BitVec w}
    (hy : (index C y.stamp).toNat = y.count % C) (hc : (s.pc t).cell C t = some c) (hnext : c.next C = y.count + C)
    (hk : k / 2 + k % 2 * C = y.count + C) (hphase : c.phase < k) (hz : z = stampAt w C k) :
    s.Leaves C t ((s.setStamp C y.stamp z).return t r) (y.count % C) k c := by
  have hdone : ((s.setStamp C y.stamp z).return t r).pc t = .done (.ret r) := setPc_self _ _ _
  have hplace : k / 2 % C = y.count % C := by
    have e := congrArg (· % C) hk
    simpa only [Nat.add_mul_mod_self_right, Nat.add_mod_right] using e
  refine ⟨hc, by rw [hdone]; rfl, hk.trans hnext.symm, hplace, hphase, ?_, ⟨?_, ?_, ?_, .inl rfl⟩, rfl, by rw [hdone]; rfl, rfl,
    rfl⟩
  · exact (setStamp_stamp hy z _).trans ((if_pos rfl).trans hz)
  · intro j hj
    exact (setStamp_stamp hy z j).trans (if_neg hj)
  · intro d hd
    rw [hc] at hd
    cases hd
    rw [hnext, Nat.add_mod_right]
  · intro d hd
    rw [hdone] at hd
    cases hd

theorem odd_next (n C : Nat) : (2 * n + 1) / 2 + (2 * n + 1) % 2 * C = n + C := by
  rw [show (2 * n + 1) / 2 = n by omega, show (2 * n + 1) % 2 = 1 by omega, Nat.one_mul]

theorem even_next (n C : Nat) : 2 * n / 2 + 2 * n % 2 * C = n := by
  rw [Nat.mul_mod_right, Nat.mul_div_cancel_left n (by omega), Nat.zero_mul, Nat.add_zero]

theorem Inv.storeStamp_leaves (hl : Layout w C) {s s' : State w V} (hi : Inv C s g) {i count : Nat} {o : Order}
    (hacc : (s.pc t).access C = .store (.stamp i) o count) (h : s.stepThread C t b = some s') :
    o = .release ∧ ∃ c, s.Leaves C t s' i count c := by
  unfold State.stepThread at h
  have hk := hi.knows t
  have hpos := hl.pos
  cases hpc : s.pc t with
  | pushStoreStamp op y =>
    rw [hpc] at h hacc hk
    have hy : (index C y.stamp).toNat = y.count % C := by rw [hk.1, enc_index hl]
    rw [show (Pc.pushStoreStamp op y).access C = .store (.stamp (index C y.stamp).toNat) .release (2 * y.count + 1) from rfl,
      hy] at hacc
    cases hacc
    simp only [State.publish, hk.1, enc_add_one hl, Option.some.injEq] at h
    rw [← hk.1] at h
    subst h
    refine ⟨rfl, _, leaves_setStamp hy (c := .writing y.count t true) (by rw [hpc]; rfl) rfl (odd_next _ C)
      (Nat.lt_succ_self _) ?_⟩
    rw [stampAt_odd, hk.1]
  | forceStoreStamp old y =>
    rw [hpc] at h hacc hk
    have hy : (index C y.stamp).toNat = y.count % C := by rw [hk.1.1, enc_index hl]
    rw [show (Pc.forceStoreStamp old y).access C = .store (.stamp (index C y.stamp).toNat) .release (2 * y.count + 1) from rfl,
      hy] at hacc
    cases hacc
    simp only [State.publish, hk.1.1, enc_add_one hl, Option.some.injEq] at h
    rw [← hk.1.1] at h
    subst h
    have hle := hk.2.1
    refine ⟨rfl, _, leaves_setStamp hy (c := .replacing (y.count - C) t true) (by rw [hpc]; rfl) ?_ (odd_next _ C) ?_ ?_⟩
    · show y.count - C + C + C = y.count + C
      omega
    · show 2 * (y.count - C) + 1 < _
      omega
    · rw [stampAt_odd, hk.1.1]
  | popStoreStamp msg y =>
    rw [hpc] at h hacc hk
    have hy : (index C y.stamp).toNat = y.count % C := by rw [hk.1.1, enc_index hl]
    rw [show (Pc.popStoreStamp msg y).access C = .store (.stamp (index C y.stamp).toNat) .release (2 * (y.count + C)) from rfl,
      hy] at hacc
    cases hacc
    simp only [Option.some.injEq] at h
    subst h
    refine ⟨rfl, _, leaves_setStamp hy (c := .reading y.count t true) (by rw [hpc]; rfl) rfl (even_next _ C) ?_ ?_⟩
    · show 2 * y.count + 1 < _
      omega
    · rw [stampAt_even, hk.1.1, oneLap, Stamp.enc_add_lap hl.stamp]
  | _ => rw [hpc] at hacc; cases hacc

/-- Nobody is at work in the slot that thread `t` has left, and it has come to where he says. -/
theorem WeakState.Inv.left (hl : Layout w C) (hi : σ.Inv C g) {s : State w V} (hp : Progress C σ.ring g s t g') {i k : Nat}
    {c : Cell} (hw : σ.ring.Leaves C t s i k c) : i < C ∧ g.cell i = c ∧ (g'.cell i).owner = none ∧ (g'.cell i).phase = k := by
  have hplace := hw.elsewhere.before c hw.before
  have hiC : i < C := by
    rw [← hplace]
    exact Nat.mod_lt _ hl.pos
  have hc := hi.own hw.before hplace
  have hok := hi.ring.cells i hiC
  rw [hc] at hok
  have hok' := hp.inv.cells i hiC
  have howner : (g'.cell i).owner = none := by
    cases ho : (g'.cell i).owner with
    | none => rfl
    | some u =>
      have hcell := hp.owned hi.owned i hiC u ho
      have hu : u ≠ t := by
        rintro rfl
        rw [hw.after] at hcell
        cases hcell
      rw [hp.others u hu] at hcell
      have hsame := hi.own hcell hok'.place
      rw [hc] at hsame
      rw [← hsame, Pc.cell_owner hw.before] at ho
      exact absurd (Option.some.inj ho).symm hu
  refine ⟨hiC, hc, howner, ?_⟩
  have hstamp : (g'.cell i).stamp w C = stampAt w C k := by
    rw [← hw.stamp]
    exact (congrArg Slot.stamp (hp.inv.slots i hiC)).symm
  refine hok'.phase_eq hl howner hstamp hw.place ?_ ?_
  · rw [hw.next, hw.tails]
    exact hok.low
  · rw [hw.next, hw.tails]
    exact hok.high

theorem WeakState.Inv.storeStamp (hl : Layout w C) (hi : σ.Inv C g) {i k : Nat} {c : Cell} {s : State w V}
    (hw : σ.ring.Leaves C t s i k c) (hp : Progress C σ.ring g s t g') :
    (σ.stored t s (.stamp i) .release k).Inv C g' := by
  obtain ⟨hiC, hc, howner, hphase⟩ := hi.left hl hp hw
  have hslot := hi.slots i hiC
  rw [hc] at hslot
  have hother : ∀ l, l ≠ .stamp i → (σ.stored t s (.stamp i) .release k).cells l = σ.cells l := fun l => stored_cells_of_ne
  have hmsg : (⟨s.word (.stamp i), k⟩ : Loaded w) = ⟨(g'.cell i).stamp w C, (g'.cell i).phase⟩ := by
    rw [hw.stamp, Cell.stamp_eq, hphase]
  refine hi.wrote hl hp hw.elsewhere (fun j hj => hother _ fun e => hj (Loc.stamp.inj e)) ?_ ?_ ?_ ?_ (fun _ _ _ h => h) ?_
    hw.claims hi.ordered
  · intro m hm
    rw [stored_cells]
    exact List.mem_append_left _ hm
  · rw [show (σ.stored t s (.stamp i) .release k).ring.loadHead = σ.ring.loadHead from hw.head]
    exact hi.head.same (hother _ Loc.noConfusion)
  · rw [show (σ.stored t s (.stamp i) .release k).ring.loadTail = σ.ring.loadTail from hw.tail]
    exact hi.tail.same (hother _ Loc.noConfusion)
  · intro u a ha
    rw [stored_known]
    exact ha
  · refine ⟨?_, ?_, ?_, ?_⟩
    · rw [stored_cells]
      intro m hm
      rcases List.mem_append.mp hm with hm | hm
      · exact (hslot.dated m hm).mono (Nat.le_of_eq hw.tails.symm)
      · obtain rfl := List.mem_singleton.mp hm
        show Dated w C s.tails i ⟨s.word (.stamp i), k⟩
        rw [hmsg]
        exact (hp.inv.cells i hiC).dated
    · rw [stored_cells]
      refine List.pairwise_append.mpr ⟨hslot.grows, List.pairwise_singleton _ _, fun m hm n hn => ?_⟩
      obtain rfl := List.mem_singleton.mp hn
      exact Nat.lt_of_le_of_lt (hslot.le_phase hm) hw.phase
    · refine ⟨σ.cells (.stamp i), (σ.view t (.stamp i)).shares .release, ?_, fun _ a ha => ?_⟩
      · rw [stored_cells, hmsg]
      · exact View.mem_shares rfl (hslot.worker t (Pc.cell_owner hw.before) a ha)
    · intro u hu
      rw [howner] at hu
      cases hu

theorem WeakState.Inv.store (hl : Layout w C) (hi : σ.Inv C g) {j : Nat} {o : Order} {count : Nat}
    (hacc : (σ.ring.pc t).access C = .store l o count) (hn : σ.Near C (.step t b, j))
    (h : σ.store C t b l o count = some σ') : ∃ g', Progress C σ.ring g σ'.ring t g' ∧ σ'.Inv C g' := by
  obtain ⟨s, hs, e⟩ := Option.map_eq_some_iff.mp h
  obtain rfl : σ.stored t s l o count = σ' := e
  obtain ⟨g', hp⟩ := hi.ring.step hl hn.1 hs
  refine ⟨g', hp, ?_⟩
  cases l with
  | head =>
    cases hpc : σ.ring.pc t with
    | _ => rw [hpc] at hacc; cases hacc
  | tail =>
    cases hpc : σ.ring.pc t with
    | forceStoreTail value y =>
      rw [hpc] at hacc
      cases hacc
      exact hi.storeTail hl hpc hs hp
    | _ => rw [hpc] at hacc; cases hacc
  | stamp i =>
    obtain ⟨rfl, c, hw⟩ := hi.ring.storeStamp_leaves hl hacc hs
    exact hi.storeStamp hl hw hp

/-! ## Runs -/

theorem opStart_claims (op : Fifo.Op V) : (opStart op : Pc w V).claims C = none := by
  cases op <;> rfl

theorem WeakState.Inv.call (hi : σ.Inv C g) {r : Res V} (hpc : σ.ring.pc t = .done r) (c : Call V) :
    ({ σ with ring := σ.ring.call t c } : WeakState w V).Inv C g := by
  have hp := hi.ring.call hpc c
  have hsame : (σ.ring.call t c).loadHead = σ.ring.loadHead ∧ (σ.ring.call t c).loadTail = σ.ring.loadTail := by
    cases c with
    | _ => exact ⟨rfl, rfl⟩
  have hclaims : ((σ.ring.call t c).pc t).claims C = none := by
    cases c with
    | op op =>
      show ((State.setPc _ t (opStart op)).pc t).claims C = none
      rw [setPc_self]
      exact opStart_claims op
    | _ =>
      show ((State.setPc _ t _).pc t).claims C = none
      rw [setPc_self]
      rfl
  refine ⟨hp.inv, hp.owned hi.owned, ?_, ?_, fun i hiC => ?_, fun u i k hc => ?_, hi.ordered⟩
  · rw [hsame.1]
    exact ⟨hi.head.upTo, hi.head.last⟩
  · rw [hsame.2]
    exact ⟨hi.tail.upTo, hi.tail.last⟩
  · have h := hi.slots i hiC
    have htails : (σ.ring.call t c).tails = σ.ring.tails := congrArg Loaded.count hsame.2
    exact ⟨fun m hm => (h.dated m hm).mono (Nat.le_of_eq htails.symm), h.grows, h.last, h.worker⟩
  · by_cases hu : u = t
    · subst hu
      rw [hclaims] at hc
      cases hc
    · rw [hp.others u hu] at hc
      exact hi.claims u i k hc

theorem WeakState.Inv.exec (hl : Layout w C) (hi : σ.Inv C g) {x : Act V × Nat} (hn : σ.Near C x)
    (h : σ.exec C x = some σ') : ∃ g', σ'.Inv C g' := by
  obtain ⟨a, i⟩ := x
  cases a with
  | call t c =>
    obtain ⟨s, hs, rfl⟩ := Option.map_eq_some_iff.mp h
    simp only [ArrayQueue.exec] at hs
    cases hpc : σ.ring.pc t with
    | done r =>
      rw [hpc] at hs
      cases hs
      exact ⟨g, hi.call hpc c⟩
    | _ => rw [hpc] at hs; cases hs
  | step t b =>
    have h : σ.stepThread C t b i = some σ' := h
    unfold WeakState.stepThread at h
    cases hacc : (σ.ring.pc t).access C with
    | plain => rw [hacc] at h; cases h
    | load l o => rw [hacc] at h; exact ⟨g, hi.load hl hacc hn h⟩
    | cas l e => rw [hacc] at h; exact hi.cas hl hacc hn h
    | store l o count =>
      rw [hacc] at h
      obtain ⟨g', _, hi'⟩ := hi.store hl hacc hn h
      exact ⟨g', hi'⟩
    | value p =>
      rw [hacc] at h
      obtain ⟨g', _, hi'⟩ := hi.value hl hacc hn h
      exact ⟨g', hi'⟩

end

section
variable {w C : Nat} {V : Type}

instance instDecidableFresh (σ : WeakState w V) (i : Nat) (a : Access w) : Decidable (σ.Fresh C i a) := by
  cases a with
  | load l o =>
    cases l with
    | stamp j => exact inferInstanceAs (Decidable (∀ m ∈ (σ.cells (.stamp j))[i]?, _ < _))
    | _ => exact .isTrue trivial
  | _ => exact .isTrue trivial

instance instDecidableNearWeakState (σ : WeakState w V) (x : Act V × Nat) : Decidable (σ.Near C x) :=
  inferInstanceAs (Decidable (_ ∧ _))

end

end RefCount.ArrayQueue
