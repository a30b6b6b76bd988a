import RefCount.HappensBefore

/-!
# No data race

Under the orderings of the source the machine is still a reader–writer lock, and a section
knows of every section before it that it excludes.
-/

namespace RefCount

open Lts RelAcq
open RwLock (Lock)

section
variable {cfg : Config} {σ σ' : Weak} {l : Lock Carrier} {t : ThreadId} {b : Bool}

/-! ## Every step -/

/-- Who looks for standard references, looks with the view of the carrier that has the block. -/
theorem Weak.Inv.asker (hi : σ.Inv l) {op : CheckOp} (hpc : σ.sys.pc t = .noStandardRefs op) :
    ∃ d, 0 < σ.sys.held d ∧ ¬ d.excl ∧ σ.HasView d (σ.views t) := by
  cases op with
  | pollExclusiveRef f w =>
    have hpolls := congrArg Pc.polls hpc
    obtain ⟨x, hx, _⟩ := hi.sim.wf.polls t f hpolls
    have hkind := (hi.sim.wf.polled_at hpc rfl hx).2
    have hblock := (hi.sim.honest f x hx).owns (of_decide_eq_true hkind) (hi.sim.wf.not_finished hpolls hx)
    refine ⟨.fut f, ?_, id, .polling t f hpolls⟩
    show 0 < blockOf (σ.sys.futs f)
    rw [hx, blockOf, hblock]
    exact Nat.one_pos
  | _ => exact ⟨.thread t, by rw [held_thread hpc]; exact Nat.one_pos, id, .thread t⟩

theorem Weak.Inv.load (hi : σ.Inv l) {i : Nat} {o : Order} (h : σ.load cfg t b i o = some σ')
    (hst : ∀ op, σ.sys.pc t ≠ .releaseStore op)
    (ho : ∀ op, σ.sys.pc t = .noStandardRefs op → o.acquires = true)
    (hc : ∀ m, σ.cell[i]? = some m → ¬ (σ.sys.pc t).swaps m.value b) : ∃ l', σ'.Inv l' := by
  unfold Weak.load at h
  obtain ⟨m, hm, h⟩ := Option.bind_eq_some_iff.mp h
  obtain ⟨s₀, he, rfl⟩ := Option.map_eq_some_iff.mp h
  obtain ⟨hle, hget⟩ := readable_eq_some.mp hm
  have hstep : Step cfg _ (.step t b) s₀ := exec_step he
  have hw : s₀.count = m.value := step_reads hstep hst (hc m hget)
  have hlt : i < σ.cell.length := (List.getElem?_eq_some_iff.mp hget).1
  by_cases hx : σ.sys.exclusiveRefs < s₀.exclusiveRefs
  · rcases hstep.exclusiveRefs with hle | ⟨u, _, op, e, hpc, hz⟩
    · exact absurd hx (Nat.not_lt.mpr hle)
    · cases e
      obtain ⟨d, hd, hdx, hview⟩ := hi.asker hpc
      -- the word only counted down since, so a word without references is the last
      have hdown : m.value.toNat = σ.sys.count.toNat + 2 * (σ.cell.length - 1 - i) := (hi.follows d _ hd hview).read hm
      have hnone : m.value.toNat / 2 = 0 := (noStandardRefs_iff _).mp hz
      have hlast : i + 1 = σ.cell.length := by omega
      have hzero : σ.sys.refs = 0 := by
        have hword := hi.sim.word
        have hrefs := hi.sim.refs
        omega
      refine hi.grant hd hdx he hw hst hx hzero ⟨hlast, fun k hk => View.learn_acquires (ho op hpc) ?_⟩
      rw [hi.last hget hlast]
      exact hk
  · exact hi.read he hw hst (View.le_learn hm) hlt hx

theorem Weak.Inv.cas (hi : σ.Inv l) {i : Nat} {w : UInt32} (hpc : (σ.sys.pc t).access = .cas w)
    (h : σ.cas cfg t b i w = some σ') (hr : σ'.sys.refs ≤ maxRefs) : ∃ l', σ'.Inv l' := by
  unfold Weak.cas at h
  split at h
  · rename_i hfinds
    obtain ⟨hfinds, rfl⟩ := hfinds
    obtain ⟨m, hm, rfl⟩ := Option.map_eq_some_iff.mp hfinds
    split at h
    · rename_i hlen
      obtain ⟨s₀, he, h⟩ := Option.bind_eq_some_iff.mp h
      rw [hi.rmw] at h
      cases h
      rw [move_sys] at hr
      have hcount : m.value = σ.sys.count := by rw [hi.last hm hlen]
      rcases access_cas hpc with ⟨op, n, p, hpc, e⟩ | ⟨op, n, p, hpc, e⟩
      · exact hi.takeRef he hpc (hcount.symm.trans e) hr
      · exact hi.takeBlock he hpc (hcount.symm.trans e) hr
    · cases h
  · rename_i hfails
    refine hi.load h (fun op e => ?_) (fun op e => ?_) (fun m hm hs => hfails ⟨?_, hs.2⟩)
    · rw [e] at hpc; cases hpc
    · rw [e] at hpc; cases hpc
    · rw [hm, Access.cas.inj (hpc.symm.trans hs.1)]
      rfl

theorem Weak.Inv.store (hi : σ.Inv l) {o : Order} (hpc : (σ.sys.pc t).access = .store o)
    (h : σ.store cfg t b o = some σ') (hr : σ'.sys.refs ≤ maxRefs) : ∃ l', σ'.Inv l' := by
  obtain ⟨op, hop, rfl⟩ := access_store hpc
  obtain ⟨s₀, he, rfl⟩ := Option.map_eq_some_iff.mp h
  refine hi.storeAllowed he hop ?_
  have hs : s₀.refs ≤ maxRefs := by rwa [← move_sys (s := s₀)]
  exact hs

theorem Weak.Inv.stepThread (hi : σ.Inv l) {i : Nat} (h : σ.stepThread cfg t b i = some σ') (hr : σ'.sys.refs ≤ maxRefs) :
    ∃ l', σ'.Inv l' := by
  unfold Weak.stepThread at h
  cases hpc : (σ.sys.pc t).access with
  | load o =>
    rw [hpc] at h
    obtain ⟨hst, ho, hc⟩ := access_load hpc
    exact hi.load h hst ho fun m _ => hc _ _
  | cas w => rw [hpc] at h; exact hi.cas hpc h hr
  | store o => rw [hpc] at h; exact hi.store hpc h hr
  | plain =>
    rw [hpc] at h
    obtain ⟨s₀, he, rfl⟩ := Option.map_eq_some_iff.mp h
    have hstep : Step cfg _ (.step t b) s₀ := exec_step he
    have hst : ∀ op, σ.sys.pc t ≠ .releaseStore op := by
      intro op e
      rw [e] at hpc
      cases hpc
    have hcount : s₀.count = σ.sys.count := step_reads hstep hst fun ⟨e, _⟩ => by
      rw [hpc] at e
      cases e
    have hx : ¬ σ.sys.exclusiveRefs < s₀.exclusiveRefs := by
      intro hlt
      rcases hstep.exclusiveRefs with hle | ⟨u, _, op, e, hop, _⟩
      · exact absurd hlt (Nat.not_lt.mpr hle)
      · cases e
        rw [hop] at hpc
        cases hpc
    have hsame : ({ s₀ with count := σ.sys.count } : Sys) = s₀ := by rw [← hcount]
    have hread := hi.read (w := σ.sys.count) he hcount hst .rfl (hi.bound.1 t) hx
    rw [hsame] at hread
    exact hread

/-- The steps of a client that keeps to the protocol. -/
def Weak.Protocol (σ : Weak) (x : Act × Nat) (σ' : Weak) : Prop := RefCount.Protocol σ.sys x.1 σ'.sys

instance Weak.instDecidableProtocol (σ : Weak) (x : Act × Nat) (σ' : Weak) : Decidable (Weak.Protocol σ x σ') :=
  inferInstanceAs (Decidable (RefCount.Protocol _ _ _))

theorem Weak.Inv.exec (hi : σ.Inv l) {x : Act × Nat} (hp : Weak.Protocol σ x σ') (h : Weak.exec cfg σ x = some σ') :
    ∃ l', σ'.Inv l' := by
  obtain ⟨a, i⟩ := x
  have hclient : (∀ t b, a ≠ .step t b) → (a ≠ .dropRef ∧ ∀ t, a ≠ .call t .dropExclusiveRef) →
      (∀ u f w, a ≠ .call u (.poll f w)) →
      (RefCount.exec cfg σ.sys a).map (fun s => { σ with sys := s }) = some σ' → ∃ l', σ'.Inv l' := by
    intro ha hq hpoll h
    obtain ⟨s₀, he, rfl⟩ := Option.map_eq_some_iff.mp h
    exact hi.client ha hq he hp (fun _ => .rfl) hi.bound.1 fun u f w e => absurd e (hpoll u f w)
  cases a with
  | step t b => exact hi.stepThread h hp.2.2
  | dropRef =>
    simp only [Weak.exec] at h
    split at h
    · rename_i hmem
      obtain ⟨s₀, he, h⟩ := Option.bind_eq_some_iff.mp h
      rw [hi.rmw] at h
      cases h
      exact hi.dropRef hmem he hp
    · cases h
  | call t c =>
    cases c with
    | dropExclusiveRef =>
      simp only [Weak.exec] at h
      split at h
      · rename_i hmem
        obtain ⟨s₀, he, rfl⟩ := Option.map_eq_some_iff.mp h
        exact hi.dropExclusiveRef hmem he hp
      · cases h
    | poll f w =>
      obtain ⟨s₀, he, rfl⟩ := Option.map_eq_some_iff.mp h
      refine hi.client (by simp) (by simp) he hp (fun u => ?_) (fun u => ?_) fun u g w' e => ?_
      · by_cases e : u = t
        · subst e
          rw [Function.update_self]
          exact View.le_join_left _ _
        · rw [Function.update_of_ne e]
          exact .rfl
      · rw [Function.update_apply]
        split
        · exact max_lt (hi.bound.1 t) (hi.bound.2.1 f)
        · exact hi.bound.1 u
      · cases e
        rw [Function.update_self]
        exact View.le_join_right _ _
    | _ => exact hclient (by simp) (by simp) (by simp) h
  | _ => exact hclient (by simp) (by simp) (by simp) h

theorem Weak.reach (h : Reach (Weak.exec cfg) Weak.Protocol Weak.new σ) : ∃ l, σ.Inv l := by
  refine h.inv (fun σ => ∃ l, σ.Inv l) ⟨_, Weak.Inv.new⟩ ?_
  rintro σ x σ' ⟨l, hi⟩ hp hst
  exact hi.exec hp hst

end

/-! ## What is known to have ended, has ended -/

/-- Some agent, message or section knows that section `i` has ended. -/
inductive Weak.Knows (σ : Weak) (i : Nat) : Prop
  | view (t : ThreadId) : i ∈ (σ.views t).known → Knows σ i
  | futView (f : FutId) : i ∈ (σ.futViews f).known → Knows σ i
  | exclusiveView : i ∈ σ.exclusiveView.known → Knows σ i
  | msg (m : Msg UInt32 Nat) : m ∈ σ.cell → i ∈ m.known → Knows σ i
  | begun (y : Section) : y ∈ σ.begun → i ∈ y.known → Knows σ i

structure Weak.Ended (σ : Weak) : Prop where
  nodup : (σ.refs ++ σ.exclusives).Nodup
  begun : ∀ i ∈ σ.refs ++ σ.exclusives, i < σ.begun.length
  known : ∀ i, σ.Knows i → i < σ.begun.length ∧ i ∉ σ.refs ++ σ.exclusives

section
variable {cfg : Config} {σ σ' : Weak} {s : Sys} {t : ThreadId} {b : Bool} {v : View Nat}

theorem Weak.Ended.new : Weak.new.Ended where
  nodup := List.nodup_nil
  begun := fun i h => by cases h
  known := fun i h => by
    cases h with
    | msg m hm hi =>
      obtain rfl := List.mem_singleton.mp hm
      cases hi
    | begun y hy _ => cases hy
    | view _ h => exact absurd h List.not_mem_nil
    | futView _ h => exact absurd h List.not_mem_nil
    | exclusiveView h => cases h

theorem Weak.Ended.of_knows (he : σ.Ended) (hsame : σ'.refs = σ.refs ∧ σ'.exclusives = σ.exclusives ∧ σ'.begun = σ.begun)
    (hk : ∀ i, σ'.Knows i → σ.Knows i) : σ'.Ended := by
  obtain ⟨hr, hx, hb⟩ := hsame
  refine ⟨?_, ?_, ?_⟩
  · rw [hr, hx]
    exact he.nodup
  · rw [hr, hx, hb]
    exact he.begun
  · intro i h
    rw [hr, hx, hb]
    exact he.known i (hk i h)

theorem Weak.Ended.begin (he : σ.Ended) (hv : ∀ i ∈ v.known, σ.Knows i) (o : Option Bool) : (σ.begin v o).Ended := by
  have hgrow : ∀ τ : Weak, (τ.refs ++ τ.exclusives).Perm (σ.begun.length :: (σ.refs ++ σ.exclusives)) →
      τ.begun.length = σ.begun.length + 1 → (∀ i, τ.Knows i → σ.Knows i) → τ.Ended := by
    intro τ hp hl hk
    refine ⟨?_, fun i hi => ?_, fun i hi => ?_⟩
    · exact hp.nodup_iff.mpr (List.nodup_cons.mpr ⟨fun h => Nat.lt_irrefl _ (he.begun _ h), he.nodup⟩)
    · rw [hl]
      rcases List.mem_cons.mp (hp.mem_iff.mp hi) with rfl | hi
      · exact Nat.lt_succ_self _
      · exact Nat.lt_succ_of_lt (he.begun i hi)
    · obtain ⟨hlt, hnot⟩ := he.known i (hk i hi)
      refine ⟨by omega, fun h => ?_⟩
      rcases List.mem_cons.mp (hp.mem_iff.mp h) with rfl | h
      · exact Nat.lt_irrefl _ hlt
      · exact hnot h
  have hbegun : ∀ y : Section, y.known = v.known → ∀ z ∈ σ.begun ++ [y], ∀ i ∈ z.known, σ.Knows i := by
    intro y hy z hz i hi
    rcases List.mem_append.mp hz with hz | hz
    · exact .begun z hz hi
    · obtain rfl := List.mem_singleton.mp hz
      exact hv i (hy ▸ hi)
  cases o with
  | none => exact he
  | some e =>
    cases e with
    | false =>
      refine hgrow _ (.refl _) List.length_append fun i hi => ?_
      cases hi with
      | view t h => exact .view t h
      | futView f h => exact .futView f h
      | exclusiveView h => exact .exclusiveView h
      | msg m hm h => exact .msg m hm h
      | begun z hz h => exact hbegun _ rfl z hz i h
    | true =>
      refine hgrow _ List.perm_middle List.length_append fun i hi => ?_
      cases hi with
      | view t h => exact .view t h
      | futView f h => exact .futView f h
      | exclusiveView h => exact hv i h
      | msg m hm h => exact .msg m hm h
      | begun z hz h => exact hbegun _ rfl z hz i h

theorem known_update {views : ThreadId → View Nat} {u : ThreadId} {i : Nat}
    (h : i ∈ (Function.update views t v u).known) : i ∈ v.known ∨ i ∈ (views u).known := by
  rw [Function.update_apply] at h
  split at h
  · exact .inl h
  · exact .inr h

theorem Weak.Ended.move (he : σ.Ended) {cell : List (Msg UInt32 Nat)}
    (hcell : ∀ m ∈ cell, ∀ i ∈ m.known, σ.Knows i) (hv : ∀ i ∈ v.known, σ.Knows i) :
    (Weak.move { σ with cell := cell } t s v).Ended := by
  unfold Weak.move
  refine Weak.Ended.begin ?_ (fun i hi => .view t ?_) _
  · refine he.of_knows ⟨rfl, rfl, rfl⟩ fun i hi => ?_
    cases hi with
    | view u h =>
      rcases known_update h with h | h
      · exact hv i h
      · exact .view u h
    | futView f h =>
      rcases handOn_cases (σ := { σ with cell := cell }) (s := s) (t := t) (v := v) f with e | e
      · exact .futView f (e ▸ h)
      · exact hv i (e ▸ h)
    | exclusiveView h => exact .exclusiveView h
    | msg m hm h => exact hcell m hm i h
    | begun y hy h => exact .begun y hy h
  · show i ∈ (Function.update σ.views t v t).known
    rw [Function.update_self]
    exact hi

theorem Weak.Ended.load (he : σ.Ended) {i : Nat} {o : Order} (h : σ.load cfg t b i o = some σ') : σ'.Ended := by
  obtain ⟨m, hm, h⟩ := Option.bind_eq_some_iff.mp h
  obtain ⟨s₀, _, rfl⟩ := Option.map_eq_some_iff.mp h
  have hmem := List.mem_of_getElem? (readable_eq_some.mp hm).2
  refine he.move (fun m hm i hi => .msg m hm hi) fun i hi => ?_
  rcases View.learn_known hi with hi | hi
  · exact .view t hi
  · exact .msg m hmem hi

theorem Weak.Ended.written (he : σ.Ended) {o : Order} {value : UInt32} {cell : List (Msg UInt32 Nat)}
    (h : rmw o (σ.views t) σ.cell value = some (v, cell)) : (Weak.move { σ with cell := cell } t s v).Ended := by
  obtain ⟨m, hm, hv, hcell⟩ := rmw_known h
  refine he.move (fun m' hm' i hi => ?_) fun i hi => (hv i hi).elim (.view t) (.msg m hm)
  rcases hcell m' hm' with hold | hnew
  · exact .msg m' hold hi
  · exact (hnew i hi).elim (.msg m hm) (.view t)

theorem Weak.Ended.cas (he : σ.Ended) {i : Nat} {w : UInt32} (h : σ.cas cfg t b i w = some σ') : σ'.Ended := by
  unfold Weak.cas at h
  split at h
  · split at h
    · obtain ⟨s₀, _, h⟩ := Option.bind_eq_some_iff.mp h
      obtain ⟨⟨v, cell⟩, hrmw, rfl⟩ := Option.map_eq_some_iff.mp h
      exact he.written hrmw
    · cases h
  · exact he.load h

theorem Weak.Ended.store (he : σ.Ended) {o : Order} (h : σ.store cfg t b o = some σ') : σ'.Ended := by
  obtain ⟨s₀, _, rfl⟩ := Option.map_eq_some_iff.mp h
  refine he.move (fun m hm i hi => ?_) fun i hi => .view t hi
  rcases List.mem_append.mp hm with hm | hm
  · exact .msg m hm hi
  · obtain rfl := List.mem_singleton.mp hm
    exact .view t (View.shares_known hi)

theorem Weak.Ended.stepThread (he : σ.Ended) {i : Nat} (h : σ.stepThread cfg t b i = some σ') : σ'.Ended := by
  unfold Weak.stepThread at h
  cases hpc : (σ.sys.pc t).access with
  | plain =>
    rw [hpc] at h
    obtain ⟨s₀, _, rfl⟩ := Option.map_eq_some_iff.mp h
    exact he.move (fun m hm i hi => .msg m hm hi) fun i hi => .view t hi
  | load o => rw [hpc] at h; exact he.load h
  | cas w => rw [hpc] at h; exact he.cas h
  | store o => rw [hpc] at h; exact he.store h

/-- Section `i` ends, and some agent or message gets to know it. -/
theorem Weak.Ended.ends (he : σ.Ended) {i : Nat} (hi : i ∈ σ.refs ++ σ.exclusives)
    (hp : (i :: (σ'.refs ++ σ'.exclusives)).Perm (σ.refs ++ σ.exclusives)) (hb : σ'.begun = σ.begun)
    (hk : ∀ j, σ'.Knows j → j = i ∨ σ.Knows j) : σ'.Ended := by
  have hnodup := List.nodup_cons.mp (hp.nodup_iff.mpr he.nodup)
  refine ⟨hnodup.2, fun j hj => ?_, fun j hj => ?_⟩
  · rw [hb]
    exact he.begun j (hp.mem_iff.mp (List.mem_cons_of_mem _ hj))
  · rw [hb]
    rcases hk j hj with rfl | hj
    · exact ⟨he.begun j hi, hnodup.1⟩
    · obtain ⟨hlt, hnot⟩ := he.known j hj
      exact ⟨hlt, fun h => hnot (hp.mem_iff.mp (List.mem_cons_of_mem _ h))⟩

theorem Weak.Ended.exec (he : σ.Ended) {x : Act × Nat} (h : Weak.exec cfg σ x = some σ') : σ'.Ended := by
  obtain ⟨a, i⟩ := x
  have hsys : (RefCount.exec cfg σ.sys a).map (fun s => { σ with sys := s }) = some σ' → σ'.Ended := by
    intro h
    obtain ⟨s₀, _, rfl⟩ := Option.map_eq_some_iff.mp h
    refine he.of_knows ⟨rfl, rfl, rfl⟩ fun j hj => ?_
    cases hj with
    | view t h => exact .view t h
    | futView f h => exact .futView f h
    | exclusiveView h => exact .exclusiveView h
    | msg m hm h => exact .msg m hm h
    | begun z hz h => exact .begun z hz h
  cases a with
  | step t b => exact he.stepThread h
  | dropRef =>
    simp only [Weak.exec] at h
    split at h
    · rename_i hmem
      obtain ⟨s₀, _, h⟩ := Option.bind_eq_some_iff.mp h
      obtain ⟨⟨v, cell⟩, hrmw, rfl⟩ := Option.map_eq_some_iff.mp h
      obtain ⟨m, hm, _, hcell⟩ := rmw_known hrmw
      refine he.ends (List.mem_append_left _ hmem) ((List.perm_cons_erase hmem).symm.append_right _) rfl fun j hj => ?_
      cases hj with
      | view t h => exact .inr (.view t h)
      | futView f h => exact .inr (.futView f h)
      | exclusiveView h => exact .inr (.exclusiveView h)
      | begun z hz h => exact .inr (.begun z hz h)
      | msg m' hm' h =>
        rcases hcell m' hm' with hold | hnew
        · exact .inr (.msg m' hold h)
        · exact (hnew j h).elim (fun h => .inr (.msg m hm h)) fun h => .inl (List.mem_singleton.mp h)
    · cases h
  | call t c =>
    cases c with
    | dropExclusiveRef =>
      simp only [Weak.exec] at h
      split at h
      · rename_i hmem
        obtain ⟨s₀, _, rfl⟩ := Option.map_eq_some_iff.mp h
        refine he.ends (List.mem_append_right _ hmem)
          (List.perm_middle.symm.trans ((List.perm_cons_erase hmem).symm.append_left _)) rfl fun j hj => ?_
        cases hj with
        | view u h =>
          rcases known_update h with h | h
          · rcases List.mem_cons.mp h with rfl | h
            · exact .inl rfl
            · exact .inr ((List.mem_append.mp h).elim (.view t) .exclusiveView)
          · exact .inr (.view u h)
        | futView f h => exact .inr (.futView f h)
        | exclusiveView h => exact .inr (.exclusiveView h)
        | msg m hm h => exact .inr (.msg m hm h)
        | begun z hz h => exact .inr (.begun z hz h)
      · cases h
    | poll f w =>
      obtain ⟨s₀, _, rfl⟩ := Option.map_eq_some_iff.mp h
      refine he.of_knows ⟨rfl, rfl, rfl⟩ fun j hj => ?_
      cases hj with
      | view u h =>
        rcases known_update h with h | h
        · exact (List.mem_append.mp h).elim (.view t) (.futView f)
        · exact .view u h
      | futView f h => exact .futView f h
      | exclusiveView h => exact .exclusiveView h
      | msg m hm h => exact .msg m hm h
      | begun z hz h => exact .begun z hz h
    | _ => exact hsys h
  | _ => exact hsys h

theorem Weak.ended (h : Reach (Weak.exec cfg) Weak.Protocol Weak.new σ) : σ.Ended :=
  h.inv Weak.Ended Weak.Ended.new fun _ _ _ he _ hst => he.exec hst

end

/-! ## The results -/

/-- The loads of the source need no more than their orderings: in every state that the
protocol reaches, one `ExclusiveRef` at most is live, and no `Ref` beside it; the word
counts the `Ref`s; and a thread that is about to store `REF_ALLOWED` drops the
`ExclusiveRef` and has seen the last message, so it overwrites no count that it did
not see. -/
theorem weak_mutual_exclusion (cfg : Config) {σ : Weak} (h : Reach (Weak.exec cfg) Weak.Protocol Weak.new σ) :
    σ.sys.exclusiveRefs ≤ 1 ∧ (0 < σ.sys.exclusiveRefs → σ.sys.refs = 0) ∧
    (standardRefCount σ.sys.count).toNat = σ.sys.refs ∧
    (∀ t op, σ.sys.pc t = .releaseStore op → op = .dropExclusiveRef ∧ (σ.views t).seen + 1 = σ.cell.length ∧
      isBlocked σ.sys.count = true ∧ σ.sys.refs = 0) := by
  obtain ⟨l, hi⟩ := Weak.reach h
  have hs := hi.sim
  have hlock : Exclusion.Inv σ.sys l := ⟨hi.sim, hi.calls⟩
  refine ⟨?_, fun h0 => hs.refs_zero (c := .exclusiveRef) h0 trivial, hs.exact, ?_⟩
  · rcases Nat.eq_zero_or_pos σ.sys.exclusiveRefs with h0 | h0
    · rw [h0]
      exact Nat.zero_le 1
    · exact Nat.le_of_eq (hs.held.eq_one (c := .exclusiveRef) h0)
  · intro t op hpc
    obtain rfl := hlock.drops (stores_step (b := false) hpc)
    have hd : 0 < σ.sys.held (.dropping t) := by
      rw [held_dropping hpc]
      exact Nat.one_pos
    refine ⟨rfl, (hi.caught _ _ hd trivial (.dropping t)).seen, hs.blocked.mpr ?_, hs.refs_zero hd trivial⟩
    rw [hs.holder hd]
    exact RwLock.Block.held_ne_free _

/-- Thread 1 takes the block over the `Ref` of thread 0, and its first look for standard
references after the drop still returns the old count. -/
def staleAsk : List (Act × Nat) :=
  [(.call 0 .getRef, 0), (.step 0 false, 0), (.step 0 false, 0), (.call 1 .getExclusiveRef, 0), (.step 1 false, 0),
    (.step 1 false, 1), (.step 1 false, 1), (.step 1 false, 2), (.dropRef, 0), (.call 1 (.poll 0 7), 0),
    (.step 1 false, 2), (.step 1 false, 0), (.call 1 (.poll 0 7), 0), (.step 1 false, 3)]

theorem weak_mutual_exclusion_stale : ∃ σ, run (Weak.exec ⟨2, false⟩) Weak.new staleAsk = some σ ∧
    σ.sys.exclusiveRefs = 1 ∧ σ.sys.refs = 0 := by
  have hg : AllSteps (Weak.exec ⟨2, false⟩) Weak.Protocol Weak.new staleAsk := by decide
  have h := weak_mutual_exclusion ⟨2, false⟩ (Reach.run .start hg rfl)
  exact ⟨_, rfl, rfl, h.2.1 Nat.one_pos⟩

end RefCount
