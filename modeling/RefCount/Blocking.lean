import RefCount.Sequential

/-!
# Where the queue waits

`push` and `pop` wait for a slot whose stamp is not stored yet. A call that runs alone,
while all the others are stopped, returns unless another call has claimed the slot it needs;
the loop of `unblock_refs`, which pops until it gets `None`, ends unless another call has
claimed one of the slots from `head` to `tail`.
-/

namespace RefCount.ArrayQueue

open Lts

section
variable {w : Nat} {V : Type} (C : Nat)

/-- When the call of thread `t` returns, if it runs alone from `s` on. -/
structure Waits (s : State w V) (t : Tid) (fails : Nat) : Prop where
  claimed : (s.pc t).claimed C ≠ none → Returns C t fails s
  pop : (s.pc t).popping = true →
    (Returns C t fails s ↔ ∀ u, (s.pc u).claimed C ≠ some (index C s.head).toNat)
  push : (s.pc t).pushing = true →
    (Returns C t fails s ↔ ∀ u, (s.pc u).claimed C ≠ some (index C s.tail).toNat)

/-- Nobody has claimed a slot from `head` to `tail`. -/
def Unclaimed (s : State w V) : Prop :=
  ∀ n, s.heads ≤ n → n ≤ s.tails → ∀ u, (s.pc u).claimed C ≠ some (n % C)

/-- Thread `t` alone calls `pop` until it gets `None`, at most `n` times: the loop of
`unblock_refs`. Each call takes less than `m` steps. -/
def State.drain (t : Tid) (m : Nat) : Nat → State w V → Option (List V × State w V)
  | 0, _ => none
  | n + 1, s =>
    ((s.call t (.op .pop)).complete C t m 0).bind fun p =>
      match p.1 with
      | .ret (.option (some v)) => (State.drain t m n p.2).map fun q => (v :: q.1, q.2)
      | _ => some ([], p.2)

end

section
variable {w C : Nat} {V : Type} {s s' : State w V} {g : Ghost V} {t : Tid} {fails : Nat}

/-! ## One call -/

theorem Inv.pop_returns_iff (hl : Layout w C) (hi : Inv C s g) (ho : Owned C s g) (hp : (s.pc t).popping = true)
    (hr : (s.pc t).recent (laps w C - 1) C s.heads s.tails = true) :
    Returns C t fails s ↔ ∀ u, (s.pc u).claimed C ≠ some (s.heads % C) := by
  rw [hi.unclaimed_iff hl ho]
  constructor
  · intro hret
    by_contra hc
    refine not_returns (I := fun s' => s'.heads = s.heads ∧ Inv C s' g ∧ (s'.pc t).popping = true ∧
      (s'.pc t).recent (laps w C - 1) C s'.heads s'.tails = true) ?_ ?_ ⟨rfl, hi, hp, hr⟩ hret
    · intro s' r hs' e
      rw [e] at hs'
      cases hs'.2.2.1
    · rintro s₁ b s₂ ⟨hh, hi₁, hp₁, hr₁⟩ hst
      rw [← hh] at hc
      obtain ⟨hh₂, h⟩ := hi₁.spins_popping hl hc hp₁ hr₁ hst
      exact ⟨hh₂.trans hh, h⟩
  · intro hc
    exact hi.returns_popping hl hc hp hr

theorem Inv.push_returns_iff (hl : Layout w C) (hi : Inv C s g) (ho : Owned C s g) (hp : (s.pc t).pushing = true)
    (hr : (s.pc t).recent (laps w C - 1) C s.heads s.tails = true) :
    Returns C t fails s ↔ ∀ u, (s.pc u).claimed C ≠ some (s.tails % C) := by
  rw [hi.unclaimed_iff hl ho]
  constructor
  · intro hret
    by_contra hc
    refine not_returns (I := fun s' => s'.tails = s.tails ∧ Inv C s' g ∧ (s'.pc t).pushing = true ∧
      (s'.pc t).recent (laps w C - 1) C s'.heads s'.tails = true) ?_ ?_ ⟨rfl, hi, hp, hr⟩ hret
    · intro s' r hs' e
      rw [e] at hs'
      cases hs'.2.2.1
    · rintro s₁ b s₂ ⟨hh, hi₁, hp₁, hr₁⟩ hst
      rw [← hh] at hc
      obtain ⟨hh₂, h⟩ := hi₁.spins_pushing hl hc hp₁ hr₁ hst
      exact ⟨hh₂.trans hh, h⟩
  · intro hc
    exact hi.returns_pushing hl hc hp hr

theorem Inv.claimed_returns (hl : Layout w C) (hi : Inv C s g) (hc : (s.pc t).claimed C ≠ none) : Returns C t fails s := by
  cases hpc : s.pc t with
  | pushWrite op v x => exact hi.returns_pushWrite hl hpc
  | pushStoreStamp op x => exact hi.returns_pushStoreStamp hl hpc
  | forceStoreTail v x => exact hi.returns_forceStoreTail hl hpc
  | forceReplace v x => exact hi.returns_forceReplace hl hpc
  | forceStoreStamp v x => exact hi.returns_forceStoreStamp hl hpc
  | popRead x => exact hi.returns_popRead hl hpc
  | popStoreStamp v x => exact Inv.returns_popStoreStamp hpc
  | _ => rw [hpc] at hc; exact absurd rfl hc

theorem Inv.waits (hl : Layout w C) (hi : Inv C s g) (ho : Owned C s g)
    (hr : (s.pc t).recent (laps w C - 1) C s.heads s.tails = true) : Waits C s t fails := by
  refine ⟨hi.claimed_returns hl, ?_, ?_⟩
  · intro hp
    rw [hi.head, enc_index hl]
    exact hi.pop_returns_iff hl ho hp hr
  · intro hp
    rw [hi.tail, enc_index hl]
    exact hi.push_returns_iff hl ho hp hr

/-! ## The loop -/

def Pc.popped : Pc w V → Bool
  | .popRead _ => true
  | .popStoreStamp _ _ => true
  | _ => false

def Pc.ended : Pc w V → Bool
  | .done _ => true
  | .fault => true
  | _ => false

/-- A `pop` that began when the counts were `H` and `T`, and has run alone since. -/
def PopFrom (t : Tid) (H T : Nat) (s : State w V) : Prop :=
  s.tails = T ∧ ((s.pc t).popping = true ∧ s.heads = H ∨ (s.pc t).popped = true ∧ s.heads = H + 1 ∨
    (s.pc t).ended = true ∧ H ≤ s.heads ∧ s.heads ≤ H + 1)

theorem Jump.popping {p q : Pc w V} (hj : Jump s p q) (hp : p.popping = true) : q.popping = true ∨ q.ended = true := by
  cases hj with
  | fault => exact .inr rfl
  | popLoadHead => exact .inl rfl
  | popFull => exact .inl rfl
  | popFree => exact .inl rfl
  | popStale => exact .inl rfl
  | popMiss => exact .inl rfl
  | popNotEmpty => exact .inl rfl
  | _ => cases hp

theorem Jump.popped {p q : Pc w V} (hj : Jump s p q) (hp : p.popped = true) : q.popped = true ∨ q.ended = true := by
  cases hj with
  | fault => exact .inr rfl
  | popRead => exact .inl rfl
  | _ => cases hp

theorem Jump.ended {p q : Pc w V} (hj : Jump s p q) (hp : p.ended = true) : q.ended = true := by
  cases hj with
  | fault => rfl
  | _ => cases hp

theorem MovesHead.popping {p q : Pc w V} {b : Bool} (hm : MovesHead C s b p q) : p.popped = false ∧ p.ended = false ∧
    (p.popping = true → q.popped = true) := by
  cases hm with
  | force => exact ⟨rfl, rfl, fun hp => by cases hp⟩
  | pop => exact ⟨rfl, rfl, fun _ => rfl⟩

theorem MovesTail.not_pop {p q : Pc w V} (hm : MovesTail p q) :
    p.popping = false ∧ p.popped = false ∧ p.ended = false := by
  cases hm <;> exact ⟨rfl, rfl, rfl⟩

theorem PopFrom.step {H T : Nat} {b : Bool} (hp : PopFrom t H T s) (h : s.stepThread C t b = some s') : PopFrom t H T s' := by
  obtain ⟨hT, hp⟩ := hp
  cases stepThread_moved h with
  | jump hj hpc hH' hT' _ =>
    refine ⟨hT'.trans hT, ?_⟩
    rw [hpc, hH', Function.update_self]
    rcases hp with ⟨hp, hH⟩ | ⟨hp, hH⟩ | ⟨hp, hH⟩
    · rcases hj.popping hp with hq | hq
      · exact .inl ⟨hq, hH⟩
      · exact .inr (.inr ⟨hq, by omega⟩)
    · rcases hj.popped hp with hq | hq
      · exact .inr (.inl ⟨hq, hH⟩)
      · exact .inr (.inr ⟨hq, by omega⟩)
    · exact .inr (.inr ⟨hj.ended hp, hH⟩)
  | head hm hpc hH' hT' _ =>
    refine ⟨hT'.trans hT, ?_⟩
    obtain ⟨hno, hno', hpop⟩ := hm.popping
    rw [hpc, hH', Function.update_self]
    rcases hp with ⟨hp, hH⟩ | ⟨hp, _⟩ | ⟨hp, _⟩
    · exact .inr (.inl ⟨hpop hp, congrArg (· + 1) hH⟩)
    · rw [hno] at hp; cases hp
    · rw [hno'] at hp; cases hp
  | tail hm _ _ _ _ =>
    obtain ⟨hno, hno', hno''⟩ := hm.not_pop
    rcases hp with ⟨hp, _⟩ | ⟨hp, _⟩ | ⟨hp, _⟩
    · rw [hno] at hp; cases hp
    · rw [hno'] at hp; cases hp
    · rw [hno''] at hp; cases hp
  | ret hpc hH' hT' _ =>
    refine ⟨hT'.trans hT, .inr (.inr ?_)⟩
    rw [hpc, hH', Function.update_self]
    exact ⟨rfl, by omega⟩

theorem PopFrom.complete {H T n : Nat} {r : Res V} (hp : PopFrom t H T s) (h : s.complete C t n fails = some (r, s')) :
    PopFrom t H T s' := by
  induction n generalizing s fails with
  | zero => cases h
  | succ n ih =>
    unfold State.complete at h
    split at h
    · cases h; exact hp
    · obtain ⟨s₁, hs₁, h⟩ := Option.bind_eq_some_iff.mp h
      exact ih (hp.step hs₁) h

theorem Inv.popped_alone (hl : Layout w C) (hi : Inv C s g) (ho : Owned C s g) {r₀ r : Res V} {m : Nat}
    (hpc : s.pc t = .done r₀) (h : (s.call t (.op .pop)).complete C t m fails = some (r, s')) :
    r = .ret (.option (held s g).head?) ∧ s'.tails = s.tails ∧ s.heads ≤ s'.heads ∧ s'.heads ≤ s.heads + 1 ∧
    ∃ g', After C t (held s g) .pop s s' g' := by
  obtain ⟨hr, g', ha⟩ := (During.call hi ho hpc .pop).complete hl h
  have hstart : (s.call t (.op .pop)).pc t = .popLoadHead := setPc_self _ t _
  have hfrom : PopFrom t s.heads s.tails (s.call t (.op .pop)) := by
    refine ⟨rfl, .inl ⟨?_, rfl⟩⟩
    rw [hstart]
    rfl
  obtain ⟨hT, hH⟩ := hfrom.complete h
  rw [ha.done] at hH
  refine ⟨hr, hT, ?_, ?_, g', ha.inv, ha.owned, ha.list, ha.done, ?_⟩
  · rcases hH with ⟨hp, _⟩ | ⟨hp, _⟩ | ⟨_, hle, _⟩
    · cases hp
    · cases hp
    · exact hle
  · rcases hH with ⟨hp, _⟩ | ⟨hp, _⟩ | ⟨_, _, hle⟩
    · cases hp
    · cases hp
    · exact hle
  · intro u hu
    exact (ha.others u hu).trans (setPc_others _ t _ u hu)

theorem State.drain_mono {m m' n : Nat} {x : List V × State w V} (hle : m ≤ m') (h : s.drain C t m n = some x) :
    s.drain C t m' n = some x := by
  induction n generalizing s x with
  | zero => cases h
  | succ n ih =>
    unfold State.drain at h ⊢
    obtain ⟨⟨r, s₁⟩, hs₁, h⟩ := Option.bind_eq_some_iff.mp h
    rw [State.complete_mono hle hs₁, Option.bind_some]
    dsimp only at h ⊢
    split at h
    · obtain ⟨q, hq, rfl⟩ := Option.map_eq_some_iff.mp h
      rw [ih hq]
      rfl
    · exact h

theorem Inv.pop_call_returns_iff (hl : Layout w C) (hi : Inv C s g) (ho : Owned C s g) {r : Res V} (hpc : s.pc t = .done r) :
    Returns C t fails (s.call t (.op .pop)) ↔ ∀ u, (s.pc u).claimed C ≠ some (s.heads % C) := by
  have hd := During.call hi ho hpc .pop
  have hstart : (s.call t (.op .pop)).pc t = .popLoadHead := setPc_self _ t _
  rw [hd.inv.pop_returns_iff hl hd.owned (by rw [hstart]; rfl) (by rw [hstart]; rfl)]
  refine forall_congr' fun u => ?_
  by_cases e : u = t
  · subst e
    rw [hstart, hpc]
    exact Iff.rfl
  · rw [show (s.call t (.op .pop)).pc u = s.pc u from setPc_others _ t _ u e]
    exact Iff.rfl

theorem Inv.drains (hl : Layout w C) (hi : Inv C s g) (ho : Owned C s g) {r : Res V} (hpc : s.pc t = .done r)
    (hu : Unclaimed C s) : ∃ m n x, s.drain C t m n = some x := by
  generalize hk : (held s g).length = k
  induction k generalizing s g r with
  | zero =>
    have hret : Returns C t 0 (s.call t (.op .pop)) := (hi.pop_call_returns_iff hl ho hpc).mpr (hu _ (Nat.le_refl _) hi.le)
    obtain ⟨m, r', s', hm⟩ := hret
    obtain ⟨hr, _⟩ := hi.popped_alone hl ho hpc hm
    rw [List.eq_nil_of_length_eq_zero hk] at hr
    subst hr
    refine ⟨m, 1, ([], s'), ?_⟩
    unfold State.drain
    rw [hm]
    rfl
  | succ k ih =>
    have hret : Returns C t 0 (s.call t (.op .pop)) := (hi.pop_call_returns_iff hl ho hpc).mpr (hu _ (Nat.le_refl _) hi.le)
    obtain ⟨m₁, r', s', hm⟩ := hret
    obtain ⟨hr, hT, hH, _, g', ha⟩ := hi.popped_alone hl ho hpc hm
    obtain ⟨v, l, hv⟩ := List.exists_cons_of_length_eq_add_one hk
    have hlist : (held s' g').length = k := by
      rw [ha.list, hv]
      rw [hv] at hk
      exact Nat.succ.inj hk
    have hu' : Unclaimed C s' := by
      intro n h₁ h₂ u
      by_cases e : u = t
      · subst e
        rw [ha.done]
        exact nofun
      · rw [ha.others u e]
        exact hu n (by omega) (by omega) u
    obtain ⟨m₂, n, x, hx⟩ := ih ha.inv ha.owned ha.done hu' hlist
    rw [hv] at hr
    subst hr
    refine ⟨max m₁ m₂, n + 1, (v :: x.1, x.2), ?_⟩
    unfold State.drain
    rw [State.complete_mono (Nat.le_max_left _ _) hm, Option.bind_some]
    show (s'.drain C t (max m₁ m₂) n).map _ = _
    rw [State.drain_mono (Nat.le_max_right _ _) hx]
    rfl

theorem Inv.unclaimed_of_drain (hl : Layout w C) (hi : Inv C s g) (ho : Owned C s g) {r : Res V} (hpc : s.pc t = .done r)
    {m n : Nat} {x : List V × State w V} (h : s.drain C t m n = some x) : Unclaimed C s := by
  induction n generalizing s g r x with
  | zero => cases h
  | succ n ih =>
    unfold State.drain at h
    obtain ⟨⟨r', s'⟩, hs', h⟩ := Option.bind_eq_some_iff.mp h
    have hhead := (hi.pop_call_returns_iff hl ho hpc).mp ⟨m, r', s', hs'⟩
    obtain ⟨hr, hT, _, hH, g', ha⟩ := hi.popped_alone hl ho hpc hs'
    intro k h₁ h₂ u
    by_cases e : k = s.heads
    · subst e
      exact hhead u
    -- there is a value to pop, so the loop goes on
    have hne : held s g ≠ [] := by
      have hlen : s.tails ≤ g.vals.length := by rw [hi.length]; exact Nat.le_add_right _ _
      intro hnil
      have hnil := List.drop_eq_nil_iff.mp hnil
      omega
    obtain ⟨v, l, hv⟩ := List.exists_cons_of_ne_nil hne
    rw [hv] at hr
    subst hr
    obtain ⟨q, hq, _⟩ := Option.map_eq_some_iff.mp h
    have hrest := ih ha.inv ha.owned ha.done hq k (by omega) (by omega) u
    by_cases e : u = t
    · subst e
      rw [hpc]
      exact nofun
    · rwa [ha.others u e] at hrest

/-! ## Runs -/

theorem run_inv (hl : Layout w C) {as : List (Act V)}
    (h : AllSteps (exec C) (fun s a _ => Near (laps w C - 1) C s a) (State.new w V) as) :
    AllStates (exec C) (fun s => ∃ g, Inv C s g ∧ Owned C s g) (State.new w V) as := by
  refine AllSteps.inv _ ?_ ⟨_, Inv.new, Owned.new⟩ h
  rintro s a s' ⟨g, hi, ho⟩ hn hst
  obtain ⟨_, g', hp⟩ := exec_progress hl hi hn hst
  exact ⟨g', hp.inv, hp.owned ho⟩

/-- In every state of a run in which the stamps in use stay short of a full cycle by one lap:
a call that goes on alone returns if it has claimed its slot, and otherwise if and only if
nobody has claimed the slot at its end of the queue; the loop of `unblock_refs` ends if and
only if nobody has claimed a slot from `head` to `tail`. -/
theorem waits_for_claimed_slots (hl : Layout w C) (as : List (Act V))
    (h : AllSteps (exec C) (fun s a _ => Near (laps w C - 1) C s a) (State.new w V) as) :
    AllStates (exec C) (fun s =>
      (∀ t fails, (s.pc t).recent (laps w C - 1) C s.heads s.tails = true → Waits C s t fails) ∧
      ∀ t r, s.pc t = .done r → ((∃ m n x, s.drain C t m n = some x) ↔ Unclaimed C s)) (State.new w V) as := by
  apply (run_inv hl h).imp
  rintro s ⟨g, hi, ho⟩
  refine ⟨fun t fails hr => hi.waits hl ho hr, ?_⟩
  intro t r hpc
  constructor
  · rintro ⟨m, n, x, hx⟩
    exact hi.unclaimed_of_drain hl ho hpc hx
  · exact hi.drains hl ho hpc

theorem not_returns_round {ps : List (Pc w V)} {p : Pc w V} (hdone : ∀ r, .done r ∉ ps)
    (hstep : ∀ p ∈ ps, ∀ b, ∃ q ∈ ps, (s.setPc t p).stepThread C t b = some (s.setPc t q)) (hp : p ∈ ps) :
    ¬ Returns C t fails (s.setPc t p) := by
  refine not_returns (I := fun s' => ∃ q ∈ ps, s' = s.setPc t q) ?_ ?_ ⟨p, hp, rfl⟩
  · rintro _ r ⟨q, hq, rfl⟩ e
    rw [setPc_self] at e
    exact hdone r (e ▸ hq)
  · rintro _ b s' ⟨q, hq, rfl⟩ hst
    obtain ⟨q', hq', e⟩ := hstep q hq b
    rw [e] at hst
    cases hst
    exact ⟨q', hq', rfl⟩

theorem not_returns_push {value : V} {new stamp : BitVec w} (hnew : newStamp C s.tail = some new)
    (hidx : (index C s.tail).toNat < C) (hslot : (s.slot C s.tail).stamp = stamp) (hne : s.tail ≠ stamp)
    (hadd : checkedAdd s.tail 1 = some (stamp + oneLap w C)) (hhead : s.head + oneLap w C ≠ s.tail) :
    ¬ Returns C t fails (s.setPc t (.pushLoadTail .push value)) := by
  have hround : Pc.pushLoadTail .push value ∈
      [.pushLoadTail .push value, .pushLoadStamp .push value s.loadTail, .pushLoadHead value s.loadTail] :=
    List.mem_cons_self ..
  refine not_returns_round (by simp) ?_ hround
  intro p hp b
  simp only [List.mem_cons, List.not_mem_nil, or_false] at hp
  rcases hp with rfl | rfl | rfl
  · refine ⟨.pushLoadStamp .push value s.loadTail, by simp, ?_⟩
    simp only [State.stepThread, setPc_self, setPc_setPc]
    rfl
  · refine ⟨.pushLoadHead value s.loadTail, by simp, ?_⟩
    have hslot' : ∀ p, ((s.setPc t p).slot C s.loadTail.stamp).stamp = stamp := fun _ => hslot
    have htail : s.loadTail.stamp = s.tail := rfl
    simp only [State.stepThread, setPc_self, State.pushLoadStamp, hslot']
    simp only [htail, hnew, if_pos hidx, if_neg hne, hadd, if_true, setPc_setPc, PushOp.full]
  · refine ⟨.pushLoadTail .push value, by simp, ?_⟩
    simp only [State.stepThread, setPc_self]
    exact congrArg some ((if_neg hhead).trans (setPc_setPc s t _ _))

end

/-! ## Fixed schedules -/

def stoppedPush : List (Act Nat) := callSteps 1 (.op (.push 10)) 3

/-- In words of three bits with two slots: thread 0 is about to move `head`, and meanwhile
`head` goes through a full cycle of stamps, until thread 2 has claimed the same slot but not
stamped it. -/
def stalePop : List (Act Nat) :=
  callSteps 1 (.op (.push 10)) 5 ++ callSteps 0 (.op .pop) 2 ++ callSteps 1 (.op .pop) 5 ++
  callSteps 1 (.op (.push 20)) 5 ++ callSteps 1 (.op .pop) 5 ++ callSteps 1 (.op (.push 30)) 5 ++
  callSteps 1 (.op .pop) 5 ++ callSteps 1 (.op (.push 40)) 5 ++ callSteps 1 (.op .pop) 5 ++
  callSteps 2 (.op (.push 50)) 4 ++ List.replicate 3 (.step 0 false) ++ [.step 2 false] ++
  callSteps 1 (.op (.push 60)) 5

/-- A `pop` alone does not return while a push is stopped between its CAS and the store of its
stamp, so neither does `unblock_refs`; nor need a `push` return on a queue that is not full and in
which nobody has claimed a slot, once a stamp has been used after a full cycle. -/
theorem waits_for_claimed_slots_stopped :
    (∃ s, run (exec 2) (State.new 64 Nat) stoppedPush = some s ∧ ∀ fails,
      ¬ Returns 2 0 fails (s.call 0 (.op .pop)) ∧ ∀ m n, s.drain 2 0 m n = none) ∧
    ∃ s, run (exec 2) (State.new 3 Nat) stalePop = some s ∧ s.tails = s.heads + 1 ∧ (∀ t, (s.pc t).claimed 2 = none) ∧
      ∀ fails, ¬ Returns 2 1 fails (s.call 1 (.op (.push 70))) := by
  constructor
  · have hl : Layout 64 2 := ⟨by decide, by decide⟩
    have hnear : AllSteps (exec 2) (fun s a _ => Near (laps 64 2 - 1) 2 s a) (State.new 64 Nat) stoppedPush := by
      decide
    obtain ⟨g, hi, ho⟩ := (run_inv hl hnear).last rfl
    refine ⟨_, rfl, fun fails => ⟨?_, fun m n => ?_⟩⟩
    · intro hret
      exact (hi.pop_call_returns_iff hl ho rfl).mp hret 1 rfl
    · cases hd : State.drain 2 0 m n _ with
      | none => rfl
      | some x => exact absurd rfl (hi.unclaimed_of_drain hl ho rfl hd 0 (Nat.zero_le _) (Nat.zero_le _) 1)
  · have hrun : ∃ s, run (exec 2) (State.new 3 Nat) stalePop = some s ∧ s.tails = s.heads + 1 ∧
        (∀ t, (s.pc t).claimed 2 = none) ∧ s.head = 1#3 ∧ s.tail = 4#3 ∧ (s.buffer 0).stamp = 1#3 := by
      refine ⟨_, rfl, rfl, fun t => ?_, rfl, rfl, rfl⟩
      match t with
      | 0 => rfl
      | 1 => rfl
      | 2 => rfl
      | n + 3 => rfl
    obtain ⟨s, hs, hlen, hclaimed, hhead, htail, hstamp⟩ := hrun
    refine ⟨s, hs, hlen, hclaimed, fun fails => ?_⟩
    have hnew : newStamp 2 s.tail = some 5#3 := by
      rw [htail]; decide
    have hslot : (s.slot 2 s.tail).stamp = 1#3 := by
      rw [htail]; exact hstamp
    refine not_returns_push hnew ?_ hslot ?_ ?_ ?_
    · rw [htail]; decide
    · rw [htail]; decide
    · rw [htail]; decide
    · rw [htail, hhead]; decide

theorem waits_for_claimed_slots_stopped_near :
    ∃ s, run (exec 2) (State.new 64 Nat) stoppedPush = some s ∧ Returns 2 1 0 s ∧ ¬ ∃ m n x, s.drain 2 0 m n = some x := by
  have h := waits_for_claimed_slots (w := 64) (C := 2) ⟨by decide, by decide⟩ stoppedPush (by decide)
  obtain ⟨hw, hd⟩ := h.last rfl
  refine ⟨_, rfl, (hw 1 0 rfl).claimed nofun, ?_⟩
  rw [hd 0 _ rfl]
  intro hu
  exact hu 0 (Nat.zero_le _) (Nat.zero_le _) 1 rfl

end RefCount.ArrayQueue
