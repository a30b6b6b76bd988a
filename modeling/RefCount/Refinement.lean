import RefCount.Joint
import RefCount.Linearizable
import RefCount.Sequential
import RefCount.Serial

/-!
# The queue of the counter may be taken for a list

The counter whose `push` and `pop` run access by access refines the machine in which each
of them is one step on a list. The machine makes that step where the operation on the ring
takes effect: from then on it is ahead of the thread, which has yet to come back from the
ring with the answer.
-/

namespace RefCount

open Lts ArrayQueue

/-! ## Steps that do not see the queue -/

section
variable {cfg : Config} {c c' : Sys} {l : List Waiter} {p : ThreadId → Pc} {t : ThreadId}

/-- The same counter with another queue, and threads that stand elsewhere. -/
def Sys.framed (c : Sys) (l : List Waiter) (p : ThreadId → Pc) : Sys := { c with waiterQueue := l, pc := p }

def Sys.follow (c : Sys) (l : List Waiter) (p : ThreadId → Pc) (t : ThreadId) : Sys :=
  c.framed l (Function.update p t (c.pc t))

attribute [local simp] Sys.follow Sys.framed Sys.setPc Sys.modifyFut Sys.addFut Function.update_self

theorem follow_setPc (c : Sys) (q : Pc) : (c.setPc t q).follow l p t = (c.framed l p).setPc t q := by
  unfold Sys.follow Sys.setPc
  simp only [Function.update_self]
  rfl

theorem incrObserve_framed (op : IncrOp) (n : Nat) (state : UInt32) :
    (c.framed l p).incrObserve cfg t op n state = (c.incrObserve cfg t op n state).follow l p t := by
  unfold Sys.incrObserve
  split
  · rw [follow_setPc]
  · cases op <;> simp [Sys.incrPanic]

theorem incrCas_framed (op : IncrOp) (n : Nat) (locals : IncrPair) (b : Bool) :
    (c.framed l p).incrCas cfg t op n locals b = (c.incrCas cfg t op n locals b).follow l p t := by
  unfold Sys.incrCas
  show (if c.count = locals.refCount ∧ b = false then _ else _) = _
  split
  · cases op <;> simp [Sys.incrOk]
  · split
    · exact incrObserve_framed op (n + 1) c.count
    · cases op <;> simp [Sys.incrErr]

theorem blockCas_framed (op : BlockOp) (n : Nat) (locals : BlockPair) (b : Bool) :
    (c.framed l p).blockCas t op n locals b = (c.blockCas t op n locals b).follow l p t := by
  unfold Sys.blockCas
  show (if c.count = locals.refCount ∧ b = false then _ else _) = _
  split
  · cases op <;> simp [Sys.blockOk]
  · split
    · exact (follow_setPc _ _).symm
    · cases op <;> simp [Sys.blockErr]

theorem check_framed (op : CheckOp) : (c.framed l p).check t op = (c.check t op).follow l p t := by
  unfold Sys.check
  show (if RefCount.noStandardRefs c.count then _ else _) = _
  split
  · cases op <;> simp [Sys.checkOk]
  · cases op with
    | tryGetExclusiveRef i =>
      unfold Sys.checkErr
      simp only
      split <;> exact (follow_setPc c _).symm
    | _ => simp [Sys.checkErr]

theorem stepThread_framed {b : Bool} (hp : p t = c.pc t) (hq : (c.pc t).queueOp = none)
    (h : c.stepThread cfg t b = some c') : (c.framed l p).stepThread cfg t b = some (c'.follow l p t) := by
  have hp' : (c.framed l p).pc t = c.pc t := hp
  unfold Sys.stepThread at h ⊢
  rw [hp']
  cases hpc : c.pc t with
  | done r => rw [hpc] at h; cases h
  | incrLoad op => rw [hpc] at h; cases h; exact congrArg some (incrObserve_framed op 0 c.count)
  | incrCas op n locals => rw [hpc] at h; cases h; exact congrArg some (incrCas_framed op n locals b)
  | blockLoad op => rw [hpc] at h; cases h; exact congrArg some (follow_setPc _ _).symm
  | blockCas op n locals => rw [hpc] at h; cases h; exact congrArg some (blockCas_framed op n locals b)
  | noStandardRefs op => rw [hpc] at h; cases h; exact congrArg some (check_framed op)
  | releasePop op first => rw [hpc] at hq; cases hq
  | registerPush f w => rw [hpc] at hq; cases hq
  | wakeWaker op x =>
    rw [hpc] at h; cases h
    cases op <;> simp [Sys.wakeWaker]
  | registeredLoad f w =>
    rw [hpc] at h; cases h
    refine congrArg some ?_
    unfold Sys.registeredLoad
    show (if c.registered? f = some true then _ else _) = _
    split <;> simp
  | refIsBlocked f w => rw [hpc] at h; cases h; exact congrArg some (follow_setPc c _).symm
  | blockedIsBlocked f w => rw [hpc] at h; cases h; exact congrArg some (follow_setPc c _).symm
  | otherPoll f w =>
    rw [hpc] at h; cases h
    cases b <;> simp [Sys.otherPoll]
  | _ => rw [hpc] at h; cases h; simp

theorem call_framed {k : Call} (h : c.call t k = some c') : (c.framed l p).call t k = some (c'.follow l p t) := by
  cases k with
  | unblockRefs =>
    simp only [Sys.call] at h ⊢
    show (if 0 < c.blocks then _ else _) = _
    split at h
    · rename_i hb
      cases h
      rw [if_pos hb]
      simp
    · cases h
  | dropExclusiveRef =>
    simp only [Sys.call] at h ⊢
    show (if 0 < c.exclusiveRefs then _ else _) = _
    split at h
    · rename_i hb
      cases h
      rw [if_pos hb]
      simp
    · cases h
  | poll f w =>
    simp only [Sys.call] at h ⊢
    rw [show (c.framed l p).futs = c.futs from rfl]
    cases hf : c.futs f with
    | none => rw [hf] at h; cases h
    | some x =>
      rw [hf] at h
      cases hx : x.status.isPolling with
      | true => simp [hx] at h
      | false =>
        simp only [hx, Bool.false_eq_true, if_false, Option.some.injEq] at h ⊢
        subst h
        simp
  | _ => cases h; exact congrArg some (follow_setPc _ _).symm

/-- What a step does where it does not look at the queue, it does with every queue. -/
theorem exec_framed {a : Act} (ha : ∀ t, a.thread? = some t → p t = c.pc t ∧ (c.pc t).queueOp = none)
    (h : exec cfg c a = some c') : ∃ p', exec cfg (c.framed l p) a = some (c'.framed l p') ∧
      (∀ t, a.thread? = some t → p' t = c'.pc t) ∧ ∀ u, a.thread? ≠ some u → p' u = p u := by
  cases ht : a.thread? with
  | some t =>
    have hne : ∀ u, some t ≠ some u → Function.update p t (c'.pc t) u = p u :=
      fun u hu => Function.update_of_ne (fun e => hu (congrArg some e.symm)) _ _
    have heq : ∀ u, some t = some u → Function.update p t (c'.pc t) u = c'.pc u := by
      intro u hu
      cases hu
      exact Function.update_self ..
    refine ⟨_, ?_, heq, hne⟩
    cases a with
    | step t b => cases ht; exact stepThread_framed (ha t rfl).1 (ha t rfl).2 h
    | call t k =>
      cases ht
      have hp : (c.framed l p).pc t = c.pc t := (ha t rfl).1
      simp only [exec] at h ⊢
      rw [hp]
      cases hpc : c.pc t with
      | done r => rw [hpc] at h; exact call_framed h
      | _ => rw [hpc] at h; cases h
    | _ => cases ht
  | none =>
    have hno : ∀ u, none = some u → p u = c'.pc u := by
      intro u hu
      cases hu
    refine ⟨p, ?_, hno, fun _ _ => rfl⟩
    cases a with
    | step t b => cases ht
    | call t k => cases ht
    | dropFuture f =>
      cases exec_step h with
      | dropFuture hf hx =>
        simp only [exec]
        rw [show (c.framed l p).futs = c.futs from rfl, hf]
        exact if_neg (by rw [hx]; exact Bool.noConfusion)
      | newFuture hn => cases hn
    | dropRef =>
      simp only [exec] at h
      split at h
      · rename_i hr; cases h; exact if_pos hr
      · cases h
    | forgetRef =>
      simp only [exec] at h
      split at h
      · rename_i hr; cases h; exact if_pos hr
      · cases h
    | _ => cases h; rfl

/-- The step of a thread at its call of the queue is that operation of the list. -/
theorem stepThread_queueOp {op : Fifo.Op Waiter} {b : Bool} (hq : (c.pc t).queueOp = some op) :
    c.stepThread cfg t b = some (Sys.setPc { c with waiterQueue := (Fifo.apply cfg.maxWaiting c.waiterQueue op).2 } t
      ((c.pc t).resume (Fifo.apply cfg.maxWaiting c.waiterQueue op).1)) := by
  unfold Sys.stepThread
  cases hpc : c.pc t with
  | releasePop o first =>
    rw [hpc] at hq; cases hq
    refine congrArg some ?_
    unfold Sys.releasePop
    cases hw : c.waiterQueue with
    | nil =>
      have e : { c with waiterQueue := [] } = c := by rw [← hw]
      cases first with
      | true => exact (congrArg (fun d => Sys.setPc d t (.releasePop o false)) e).symm
      | false => exact (congrArg (fun d => Sys.setPc d t (.done o.res)) e).symm
    | cons x rest => rfl
  | registerPush f w =>
    rw [hpc] at hq; cases hq
    refine congrArg some ?_
    unfold Sys.registerPush
    simp only [Fifo.apply]
    split <;> rfl
  | _ => rw [hpc] at hq; cases hq

end

/-! ## The view of the machine -/

/-- Where the thread stands for the machine, if its operation on the ring stands there. -/
def Pc.resumed (p : Pc) : Standing Waiter → Pc
  | .answered r => p.resume r
  | _ => p

section
variable {w : Nat} {cfg : Config} {s s' : Joint w} {g : Ghost Waiter} {t : ThreadId}

def Joint.viewPc (C : Nat) (s : Joint w) (g : Ghost Waiter) (t : ThreadId) : Pc :=
  (s.counter.pc t).resumed ((s.queue.pc t).standing C g.vals)

def Joint.view (C : Nat) (s : Joint w) (g : Ghost Waiter) : Sys := s.counter.framed (held s.queue g) (s.viewPc C g)

/-- A thread is in the ring only for the call that its place in the code makes. -/
def Joint.Calls (C : Nat) (s : Joint w) (g : Ghost Waiter) (t : ThreadId) : Prop :=
  (∃ r, s.queue.pc t = .done r) ∨ ∃ op, (s.counter.pc t).queueOp = some op ∧
    ((s.queue.pc t).standing C g.vals = .called op ∨ ∃ r, (s.queue.pc t).standing C g.vals = .answered r)

structure Joint.Inv (C : Nat) (s : Joint w) (g : Ghost Waiter) : Prop where
  queue : ArrayQueue.Inv C s.queue g
  owned : Owned C s.queue g
  calls : ∀ t, s.Calls C g t

theorem Joint.Inv.new (C : Nat) : (Joint.new w).Inv C ⟨.free, []⟩ := ⟨ArrayQueue.Inv.new, Owned.new, fun _ => .inl ⟨_, rfl⟩⟩

theorem Joint.viewPc_idle {C : Nat} {r : ArrayQueue.Res Waiter} (h : s.queue.pc t = .done r) :
    s.viewPc C g t = s.counter.pc t := by
  unfold Joint.viewPc
  rw [h]; rfl

theorem Joint.Inv.outside {C : Nat} (hi : s.Inv C g) (h : (s.counter.pc t).queueOp = none) :
    ∃ r, s.queue.pc t = .done r := by
  rcases hi.calls t with h' | ⟨op, hop, _⟩
  · exact h'
  · rw [h] at hop; cases hop

/-- A step of the counter's own is the same step of the machine. -/
theorem Joint.Inv.stepCounter {C : Nat} (hi : s.Inv C g) {a : Act}
    (ha : ∀ t, a.thread? = some t → (s.counter.pc t).queueOp = none) (h : s.stepCounter cfg a = some s') :
    s'.Inv C g ∧ RefCount.exec cfg (s.view C g) a = some (s'.view C g) := by
  obtain ⟨c', hc, rfl⟩ := Option.map_eq_some_iff.mp h
  have hview : ∀ t, a.thread? = some t → s.viewPc C g t = s.counter.pc t ∧ (s.counter.pc t).queueOp = none := by
    intro t ht
    obtain ⟨r, hr⟩ := hi.outside (ha t ht)
    exact ⟨viewPc_idle hr, ha t ht⟩
  have hframe : ∀ u, a.thread? ≠ some u → c'.pc u = s.counter.pc u := fun u hu => (exec_step hc).pc_frame hu
  obtain ⟨p', hp, hown, hothers⟩ := exec_framed (l := held s.queue g) hview hc
  refine ⟨⟨hi.queue, hi.owned, ?_⟩, ?_⟩
  · intro u
    by_cases hu : a.thread? = some u
    · exact .inl (hi.outside (ha u hu))
    · have := hi.calls u
      unfold Joint.Calls at this ⊢
      rw [hframe u hu]
      exact this
  · refine hp.trans (congrArg (fun q => some (c'.framed (held s.queue g) q)) (funext fun u => ?_))
    by_cases hu : a.thread? = some u
    · obtain ⟨r, hr⟩ := hi.outside (ha u hu)
      rw [hown u hu]
      exact (viewPc_idle (s := ⟨c', s.queue⟩) hr).symm
    · rw [hothers u hu]
      unfold Joint.viewPc
      rw [hframe u hu]

/-! ### Steps inside the ring -/

theorem Joint.return_inside {C : Nat} {q : ArrayQueue.State w Waiter} (h : (q.pc t).standing C g.vals ≠ .idle) :
    s.return t q = ⟨s.counter, q⟩ := by
  unfold Joint.return
  cases hq : q.pc t with
  | done r => rw [hq] at h; exact absurd rfl h
  | _ => rfl

theorem Joint.return_done {q : ArrayQueue.State w Waiter} {r : Fifo.Ret Waiter} (h : q.pc t = .done (.ret r)) :
    s.return t q = ⟨s.counter.setPc t ((s.counter.pc t).resume r), q⟩ := by
  unfold Joint.return
  rw [h]

/-- After a step of thread `t` in the ring it stands at `p` for the machine, and the others
stand where they stood. -/
structure Joint.Lands (C : Nat) (s : Joint w) (g : Ghost Waiter) (t : ThreadId) (s' : Joint w) (g' : Ghost Waiter)
    (p : Pc) : Prop where
  inv : s'.Inv C g'
  counter : ∀ l q, s'.counter.framed l q = s.counter.framed l q
  own : s'.viewPc C g' t = p
  others : ∀ u, u ≠ t → s'.viewPc C g' u = s.viewPc C g u

theorem Joint.Inv.lands {C : Nat} {g' : Ghost Waiter} (hi : s.Inv C g)
    (hp : Progress C s.queue g s'.queue t g') (hc : ∀ l q, s'.counter.framed l q = s.counter.framed l q)
    (hpc : ∀ u, u ≠ t → s'.counter.pc u = s.counter.pc u) (ht : s'.Calls C g' t) :
    s.Lands C g t s' g' (s'.viewPc C g' t) := by
  obtain ⟨more, hmore⟩ := hp.vals
  have hst : ∀ u, u ≠ t → (s'.queue.pc u).standing C g'.vals = (s.queue.pc u).standing C g.vals := by
    intro u hu
    rw [hp.others u hu, hmore, (hi.queue.knows u).standing more]
  refine ⟨⟨hp.inv, hp.owned hi.owned, ?_⟩, hc, rfl, ?_⟩
  · intro u
    by_cases hu : u = t
    · rw [hu]; exact ht
    · have h := hi.calls u
      unfold Joint.Calls at h ⊢
      rw [hst u hu, hpc u hu, hp.others u hu]
      exact h
  · intro u hu
    unfold Joint.viewPc
    rw [hst u hu, hpc u hu]

theorem Joint.Inv.inside {C : Nat} {g' : Ghost Waiter} {q : ArrayQueue.State w Waiter} {op : Fifo.Op Waiter}
    (hi : s.Inv C g) (hp : Progress C s.queue g q t g') (hop : (s.counter.pc t).queueOp = some op)
    {x : Standing Waiter} (hx : (q.pc t).standing C g'.vals = x) (h : x = .called op ∨ ∃ r, x = .answered r) :
    s.Lands C g t ⟨s.counter, q⟩ g' ((s.counter.pc t).resumed x) := by
  subst hx
  exact @Joint.Inv.lands w s ⟨s.counter, q⟩ g t C g' hi hp (fun _ _ => rfl) (fun _ _ => rfl) (.inr ⟨op, hop, h⟩)

theorem Joint.Inv.back {C : Nat} {g' : Ghost Waiter} {q : ArrayQueue.State w Waiter} {r : Fifo.Ret Waiter}
    (hi : s.Inv C g) (hp : Progress C s.queue g q t g') (hdone : q.pc t = .done (.ret r)) :
    s.Lands C g t (s.return t q) g' ((s.counter.pc t).resume r) := by
  rw [return_done hdone]
  have h : s.Lands C g t ⟨s.counter.setPc t ((s.counter.pc t).resume r), q⟩ g' _ :=
    hi.lands hp (fun _ _ => rfl) (fun u hu => Function.update_of_ne hu _ _) (.inl ⟨_, hdone⟩)
  rw [viewPc_idle hdone] at h
  rw [show (s.counter.setPc t ((s.counter.pc t).resume r)).pc t = _ from Function.update_self ..] at h
  exact h

theorem Joint.Lands.view_eq {C : Nat} {g' : Ghost Waiter} (h : s.Lands C g t s' g' (s.viewPc C g t))
    (hh : held s'.queue g' = held s.queue g) : s'.view C g' = s.view C g := by
  unfold Joint.view
  rw [hh, h.counter]
  congr 1
  funext u
  by_cases hu : u = t
  · rw [hu, h.own]
  · exact h.others u hu

/-- The operation on the ring takes effect, and the machine makes its step. -/
theorem Joint.Lands.view_step {g' : Ghost Waiter} {op : Fifo.Op Waiter} {b : Bool}
    (h : s.Lands cfg.maxWaiting g t s' g' ((s.counter.pc t).resume (Fifo.apply cfg.maxWaiting (held s.queue g) op).1))
    (hop : (s.counter.pc t).queueOp = some op) (hpc : s.viewPc cfg.maxWaiting g t = s.counter.pc t)
    (hh : held s'.queue g' = (Fifo.apply cfg.maxWaiting (held s.queue g) op).2) :
    RefCount.exec cfg (s.view cfg.maxWaiting g) (.step t b) = some (s'.view cfg.maxWaiting g') := by
  have hview : ((s.view cfg.maxWaiting g).pc t).queueOp = some op := by
    show (s.viewPc cfg.maxWaiting g t).queueOp = some op
    rw [hpc, hop]
  refine (stepThread_queueOp hview).trans (congrArg some ?_)
  show Sys.setPc (s.counter.framed _ _) t ((s.viewPc cfg.maxWaiting g t).resume _) = _
  unfold Joint.view
  rw [hpc, hh, h.counter]
  unfold Sys.setPc Sys.framed
  congr 1
  funext u
  by_cases hu : u = t
  · subst hu
    exact (Function.update_self ..).trans h.own.symm
  · exact (Function.update_of_ne hu _ _).trans (h.others u hu).symm

theorem stepThread_ret {C : Nat} {q q' : ArrayQueue.State w Waiter} {b : Bool} {r : Fifo.Ret Waiter}
    (h : q.stepThread C t b = some q') (hr : q'.hist = q.hist ++ [.ret t r]) : q'.pc t = .done (.ret r) := by
  rcases stepThread_hist h with e | ⟨r', e, hpc⟩
  · rw [hr] at e
    exact absurd e (by simp)
  · rw [hr] at e
    cases List.append_cancel_left e
    exact hpc

/-- A step of a thread inside the ring, its call and its return included, is a step of the
machine or leaves it as it is. -/
theorem Joint.Inv.stepQueue (hl : Layout w cfg.maxWaiting) (hi : s.Inv cfg.maxWaiting g) {op : Fifo.Op Waiter} {b : Bool}
    (hop : (s.counter.pc t).queueOp = some op)
    (hn : (s.queue.pc t).near (laps w cfg.maxWaiting - 1) cfg.maxWaiting s.queue.heads s.queue.tails = true)
    (h : s.stepQueue cfg t op b = some s') : ∃ g', s'.Inv cfg.maxWaiting g' ∧
      (s'.view cfg.maxWaiting g' = s.view cfg.maxWaiting g ∨
        RefCount.exec cfg (s.view cfg.maxWaiting g) (.step t b) = some (s'.view cfg.maxWaiting g')) := by
  rcases hi.calls t with ⟨r, hr⟩ | ⟨op', hop', hst⟩
  · -- the call
    unfold Joint.stepQueue at h
    rw [hr] at h
    cases h
    have hx : ((s.queue.call t (.op op)).pc t).standing cfg.maxWaiting g.vals = .called op := by
      rw [show (s.queue.call t (.op op)).pc t = opStart op from ArrayQueue.setPc_self _ t _]
      cases op <;> rfl
    have hland := hi.inside (hi.queue.call hr (.op op)) hop hx (.inl rfl)
    have hpc : s.viewPc cfg.maxWaiting g t = s.counter.pc t := viewPc_idle hr
    refine ⟨g, hland.inv, .inl (Lands.view_eq (t := t) ?_ rfl)⟩
    rw [hpc]
    exact hland
  obtain rfl : op = op' := Option.some.inj (hop.symm.trans hop')
  have hidle : ∀ r, s.queue.pc t ≠ .done r := by
    intro r hr
    rw [hr] at hst
    rcases hst with hst | ⟨_, hst⟩
    · cases hst
    · cases hst
  obtain ⟨q, hq, rfl⟩ : ∃ q, s.queue.stepThread cfg.maxWaiting t b = some q ∧ s.return t q = s' := by
    unfold Joint.stepQueue at h
    cases hpc : s.queue.pc t with
    | done r => exact absurd hpc (hidle r)
    | _ => rw [hpc] at h; exact Option.map_eq_some_iff.mp h
  obtain ⟨g', hp⟩ := hi.queue.step hl hn hq
  have heff := hp.effect
  have hview : s.viewPc cfg.maxWaiting g t =
      (s.counter.pc t).resumed ((s.queue.pc t).standing cfg.maxWaiting g.vals) := rfl
  have hin : ∀ {x : Standing Waiter}, (q.pc t).standing cfg.maxWaiting g'.vals = x →
      (x = .called op ∨ ∃ r, x = .answered r) →
      s.Lands cfg.maxWaiting g t (s.return t q) g' ((s.counter.pc t).resumed x) := by
    intro x hx h
    have hne : (q.pc t).standing cfg.maxWaiting g'.vals ≠ .idle := by
      rw [hx]
      rintro rfl
      rcases h with h | ⟨_, h⟩
      · cases h
      · cases h
    rw [return_inside hne]
    exact hi.inside hp hop hx h
  have hqueue : (s.return t q).queue = q := by
    unfold Joint.return
    split <;> rfl
  refine ⟨g', ?_⟩
  generalize hx : (s.queue.pc t).standing cfg.maxWaiting g.vals = x at heff hst hview
  generalize hy : (q.pc t).standing cfg.maxWaiting g'.vals = y at heff
  cases heff with
  | quiet hh _ =>
    have hland := hin hy hst
    rw [← hview] at hland
    exact ⟨hland.inv, .inl (hland.view_eq (by rw [hqueue]; exact hh))⟩
  | call hh _ =>
    rcases hst with hst | ⟨_, hst⟩
    · cases hst
    · cases hst
  | commit hh _ =>
    obtain rfl : op = _ := hst.elim (fun e => (Standing.called.inj e).symm) fun ⟨_, e⟩ => by cases e
    have hland := hin hy (.inr ⟨_, rfl⟩)
    exact ⟨hland.inv, .inr (hland.view_step hop hview (by rw [hqueue]; exact hh))⟩
  | fail hh hr =>
    obtain rfl : op = _ := hst.elim (fun e => (Standing.called.inj e).symm) fun ⟨_, e⟩ => by cases e
    have hland := hi.back hp (stepThread_ret hq hr)
    exact ⟨hland.inv, .inr (hland.view_step hop hview (by rw [hqueue]; exact hh))⟩
  | ret hh hr =>
    have hland := hi.back hp (stepThread_ret hq hr)
    refine ⟨hland.inv, .inl (Lands.view_eq (t := t) ?_ (by rw [hqueue]; exact hh))⟩
    rw [hview]
    exact hland

/-! ## Runs -/

/-- No thread in the ring uses a stamp whose counter has moved on by all laps but one. -/
def Joint.Near (cfg : Config) (s : Joint w) : Act → Prop
  | .step t _ =>
    (s.queue.pc t).near (laps w cfg.maxWaiting - 1) cfg.maxWaiting s.queue.heads s.queue.tails = true
  | _ => True

instance (cfg : Config) (s : Joint w) (a : Act) : Decidable (s.Near cfg a) := by
  cases a with
  | step t b => exact inferInstanceAs (Decidable (_ = _))
  | _ => exact .isTrue trivial

theorem Joint.Inv.exec (hl : Layout w cfg.maxWaiting) (hi : s.Inv cfg.maxWaiting g) {a : Act} (hn : s.Near cfg a)
    (h : s.exec cfg a = some s') : ∃ g', s'.Inv cfg.maxWaiting g' ∧
      (a.isStep = true ∧ s'.view cfg.maxWaiting g' = s.view cfg.maxWaiting g ∨
        RefCount.exec cfg (s.view cfg.maxWaiting g) a = some (s'.view cfg.maxWaiting g')) := by
  cases a with
  | step t b =>
    simp only [Joint.exec] at h
    cases hop : (s.counter.pc t).queueOp with
    | none =>
      rw [hop] at h
      obtain ⟨hi', he⟩ := hi.stepCounter (a := .step t b) (fun u hu => by cases hu; exact hop) h
      exact ⟨g, hi', .inr he⟩
    | some op =>
      rw [hop] at h
      obtain ⟨g', hi', he⟩ := hi.stepQueue hl hop hn h
      exact ⟨g', hi', he.imp_left fun e => ⟨rfl, e⟩⟩
  | call t c =>
    have hop : (s.counter.pc t).queueOp = none := by
      obtain ⟨c', hc, _⟩ := Option.map_eq_some_iff.mp h
      simp only [RefCount.exec] at hc
      cases hpc : s.counter.pc t with
      | done r => rfl
      | _ => rw [hpc] at hc; cases hc
    obtain ⟨hi', he⟩ := hi.stepCounter (a := .call t c) (fun u hu => by cases hu; exact hop) h
    exact ⟨g, hi', .inr he⟩
  | _ =>
    obtain ⟨hi', he⟩ := hi.stepCounter (fun u hu => by cases hu) h
    exact ⟨g, hi', .inr he⟩

/-- `c` has the count word, the references, the futures and the wake-ups of `s`; a thread
that is not in a call of the queue stands where it stands in `s`, and one that is may have
the answer already. -/
structure Joint.Agrees (s : Joint w) (c : Sys) : Prop where
  counter : ∃ l p, c = s.counter.framed l p
  outside : ∀ t, (s.counter.pc t).queueOp = none → c.pc t = s.counter.pc t
  inside : ∀ t, c.pc t = s.counter.pc t ∨ ∃ r, c.pc t = (s.counter.pc t).resume r

theorem Joint.Inv.agrees {C : Nat} (hi : s.Inv C g) : s.Agrees (s.view C g) := by
  refine ⟨⟨_, _, rfl⟩, ?_, ?_⟩
  · intro t ht
    obtain ⟨r, hr⟩ := hi.outside ht
    exact viewPc_idle hr
  · intro t
    show s.viewPc C g t = _ ∨ ∃ r, s.viewPc C g t = _
    unfold Joint.viewPc
    cases (s.queue.pc t).standing C g.vals with
    | answered r => exact .inr ⟨r, rfl⟩
    | _ => exact .inl rfl

end

/-- Every run over the ring is a run over the list: the same calls, the same drops and, but
for steps of threads inside `push` and `pop`, the same steps in the same order; and each
state that the one comes to agrees with a state that the other has then come to. -/
theorem joint_refines {w : Nat} (cfg : Config) (hl : Layout w cfg.maxWaiting) {as : List Act} {s : Joint w}
    (hn : AllSteps (Joint.exec cfg) (fun s a _ => s.Near cfg a) (Joint.new w) as)
    (hr : run (Joint.exec cfg) (Joint.new w) as = some s) :
    ∃ bs, bs.Sublist as ∧ bs.filter (fun a => !a.isStep) = as.filter (fun a => !a.isStep) ∧
      ∀ as₁ u, as₁ <+: as → run (Joint.exec cfg) (Joint.new w) as₁ = some u →
        ∃ bs₁ c, bs₁ <+: bs ∧ run (exec cfg) Sys.new bs₁ = some c ∧ u.Agrees c := by
  have hs : ∀ s a s' c, (∃ g, Joint.Inv (w := w) cfg.maxWaiting s g ∧ c = s.view cfg.maxWaiting g) → s.Near cfg a →
      s.exec cfg a = some s' → (a.isStep = true ∧ ∃ g, s'.Inv cfg.maxWaiting g ∧ c = s'.view cfg.maxWaiting g) ∨
        ∃ c', exec cfg c a = some c' ∧ ∃ g, s'.Inv cfg.maxWaiting g ∧ c' = s'.view cfg.maxWaiting g := by
    rintro s a s' c ⟨g, hi, rfl⟩ hn hst
    obtain ⟨g', hi', ⟨hq, he⟩ | he⟩ := hi.exec hl hn hst
    · exact .inl ⟨hq, g', hi', he.symm⟩
    · exact .inr ⟨_, he, g', hi', rfl⟩
  obtain ⟨bs, hsub, hfilter, hfollow⟩ := run_follows _ hs ⟨_, Joint.Inv.new _, rfl⟩ hn hr
  refine ⟨bs, hsub, hfilter, ?_⟩
  intro as₁ u hpre hu
  obtain ⟨bs₁, c, hbs, hc, g, hi, rfl⟩ := hfollow as₁ u hpre hu
  exact ⟨bs₁, _, hbs, hc, hi.agrees⟩

/-- Beside an `ExclusiveRef` thread 1 polls a future and stops in its `push`, with its slot
claimed. The `ExclusiveRef` is dropped, and the first `pop` meets the slot; then the push ends. -/
def slowPush : List Act :=
  askExclusiveRef 0 ++ .call 1 .getRef :: List.replicate 5 (.step 1 false) ++
    .call 1 (.poll 0 7) :: List.replicate 6 (.step 1 false) ++
    .call 0 .dropExclusiveRef :: List.replicate 5 (.step 0 false) ++ List.replicate 3 (.step 1 false) ++
    List.replicate 11 (.step 0 false)

theorem joint_refines_slow_push : ∃ s : Joint 8, run (Joint.exec ⟨2, false⟩) (Joint.new 8) slowPush = some s ∧
    s.counter.wakes = [⟨7, 0⟩] ∧
    ∃ bs c, bs.Sublist slowPush ∧ run (exec ⟨2, false⟩) Sys.new bs = some c ∧ s.Agrees c := by
  have hl : Layout 8 2 := ⟨by decide, by decide⟩
  have hnear : AllSteps (Joint.exec ⟨2, false⟩) (fun s a _ => s.Near ⟨2, false⟩ a) (Joint.new 8) slowPush := by decide
  obtain ⟨bs, hsub, _, hfollow⟩ := joint_refines ⟨2, false⟩ hl hnear rfl
  obtain ⟨bs₁, c, hbs, hrun, ha⟩ := hfollow slowPush _ (List.prefix_refl _) rfl
  exact ⟨_, rfl, rfl, bs₁, c, hbs.sublist.trans hsub, hrun, ha⟩

end RefCount
