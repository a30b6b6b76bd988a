import RefCount.Consume
import RefCount.Exclusion
import RefCount.Executor
import RefCount.Refinement

/-!
# The reference counter over its ring

What the refinement carries over. Mutual exclusion, for any number of threads, with the
accesses to the slots of the ring among the steps; and the tasks of a single-threaded
executor, where no premise about stamps is left.
-/

namespace RefCount

open Lts ArrayQueue

section
variable {w : Nat} {cfg : Config} {s s' : Joint w} {g : Ghost Waiter} {t : ThreadId}

/-! ## Mutual exclusion -/

def Joint.Protocol (cfg : Config) (s : Joint w) (a : Act) (s' : Joint w) : Prop :=
  RefCount.Protocol s.counter a s'.counter ∧ s.Near cfg a

instance Joint.instDecidableProtocol (cfg : Config) (s : Joint w) (a : Act) (s' : Joint w) :
    Decidable (s.Protocol cfg a s') :=
  inferInstanceAs (Decidable (_ ∧ _))

end

section
variable {w : Nat} {cfg : Config} {s s' : Joint w} {g : Ghost Waiter} {t : ThreadId} {l : List Waiter}

/-- The counter with the list that the ring holds. -/
def Joint.listed (s : Joint w) (l : List Waiter) : Sys := { s.counter with waiterQueue := l }

theorem step_waiterQueue {c c' : Sys} {a : Act} (ha : ∀ t, a.thread? = some t → (c.pc t).queueOp = none)
    (h : exec cfg c a = some c') : c'.waiterQueue = c.waiterQueue := by
  obtain ⟨p, hp, _⟩ := exec_framed (l := c.waiterQueue) (p := c.pc) (fun t ht => ⟨rfl, ha t ht⟩) h
  have he : some c' = some (c'.framed c.waiterQueue p) := h.symm.trans hp
  rw [Option.some.inj he]
  rfl

theorem Joint.stepCounter_listed {a : Act} (ha : ∀ t, a.thread? = some t → (s.counter.pc t).queueOp = none)
    (h : s.stepCounter cfg a = some s') :
    RefCount.exec cfg (s.listed l) a = some (s'.listed l) ∧ s'.queue = s.queue := by
  obtain ⟨c, hc, rfl⟩ := Option.map_eq_some_iff.mp h
  obtain ⟨p, hp, hown, hothers⟩ := exec_framed (l := l) (p := s.counter.pc) (fun t ht => ⟨rfl, ha t ht⟩) hc
  have hpc : p = c.pc := by
    funext u
    by_cases hu : a.thread? = some u
    · exact hown u hu
    · rw [hothers u hu]
      exact ((exec_step hc).pc_frame hu).symm
  rw [hpc] at hp
  exact ⟨hp, rfl⟩

theorem Joint.exec_listed {a : Act} {c' : Sys} (ha : ∀ t, a.thread? = some t → (s.counter.pc t).queueOp = none)
    (h : RefCount.exec cfg (s.listed l) a = some c') :
    ∃ c₁, s.stepCounter cfg a = some ⟨c₁, s.queue⟩ ∧ Joint.listed ⟨c₁, s.queue⟩ l = c' := by
  obtain ⟨p, hp, hown, hothers⟩ := exec_framed (c := s.listed l) (l := s.counter.waiterQueue) (p := s.counter.pc)
    (fun t ht => ⟨rfl, ha t ht⟩) h
  have hpc : p = c'.pc := by
    funext u
    by_cases hu : a.thread? = some u
    · exact hown u hu
    · rw [hothers u hu]
      exact ((exec_step h).pc_frame hu).symm
  refine ⟨c'.framed s.counter.waiterQueue p, ?_, ?_⟩
  · exact Option.map_eq_some_iff.mpr ⟨_, hp, rfl⟩
  · have hq : c'.waiterQueue = l := step_waiterQueue (c := s.listed l) ha h
    rw [hpc]
    unfold Joint.listed Sys.framed
    rw [← hq]

/-- A call of the ring that runs alone, from inside the ring to the return. -/
theorem Joint.run_complete {op : Fifo.Op Waiter} {r : Fifo.Ret Waiter} {c : Sys} (hop : (c.pc t).queueOp = some op)
    {n : Nat} {q q' : ArrayQueue.State w Waiter} (hq : q.complete cfg.maxWaiting t n 0 = some (.ret r, q'))
    (hin : ∀ r, q.pc t ≠ .done r) :
    ∃ k, run (Joint.exec cfg) ⟨c, q⟩ (List.replicate k (.step t false)) =
      some ⟨c.setPc t ((c.pc t).resume r), q'⟩ := by
  induction n generalizing q with
  | zero => cases hq
  | succ n ih =>
    unfold ArrayQueue.State.complete at hq
    split at hq
    · rename_i r' hpc
      exact absurd hpc (hin r')
    · obtain ⟨q₁, hq₁, hq⟩ := Option.bind_eq_some_iff.mp hq
      simp only [Nat.lt_irrefl, decide_false, Bool.and_false, Nat.zero_sub, ite_self] at hq₁ hq
      have hstep : Joint.exec cfg ⟨c, q⟩ (.step t false) = some (Joint.return ⟨c, q⟩ t q₁) := by
        simp only [Joint.exec, hop, Joint.stepQueue]
        cases hpc : q.pc t with
        | done r => exact absurd hpc (hin r)
        | _ => rw [hq₁]; rfl
      by_cases hdone : ∃ r₁, q₁.pc t = .done r₁
      · obtain ⟨r₁, hr₁⟩ := hdone
        have hret : (ArrayQueue.Res.ret r, q') = (r₁, q₁) := by
          cases n with
          | zero => cases hq
          | succ n =>
            unfold ArrayQueue.State.complete at hq
            rw [hr₁] at hq
            exact (Option.some.inj hq).symm
        cases hret
        refine ⟨1, ?_⟩
        rw [List.replicate_one, run_cons hstep, return_done hr₁]
        rfl
      · have hne : ∀ r, q₁.pc t ≠ .done r := fun r hr => hdone ⟨r, hr⟩
        obtain ⟨k, hk⟩ := ih hq hne
        refine ⟨k + 1, ?_⟩
        have hret : Joint.return ⟨c, q⟩ t q₁ = ⟨c, q₁⟩ := by
          unfold Joint.return
          split
          · exact absurd ‹_› (hne _)
          · rfl
        rw [hret] at hstep
        rw [List.replicate_succ, run_cons hstep]
        exact hk

/-- With nobody in the ring, a thread that goes on alone makes a step of the machine in some
number of its own. -/
theorem Joint.run_step (hl : Layout w cfg.maxWaiting) (hq : Quiet cfg.maxWaiting s.queue g l) {c' : Sys}
    (h : RefCount.exec cfg (s.listed l) (.step t false) = some c') :
    ∃ k s' g', run (Joint.exec cfg) s (List.replicate k (.step t false)) = some s' ∧
      Quiet cfg.maxWaiting s'.queue g' c'.waiterQueue ∧ s'.listed c'.waiterQueue = c' := by
  cases hop : (s.counter.pc t).queueOp with
  | none =>
    have ha : ∀ u, Act.thread? (.step t false) = some u → (s.counter.pc u).queueOp = none := by
      intro u hu
      cases hu
      exact hop
    obtain ⟨c₁, hc₁, he⟩ := exec_listed ha h
    have hw : c'.waiterQueue = l := step_waiterQueue (c := s.listed l) ha h
    refine ⟨1, ⟨c₁, s.queue⟩, g, ?_, by rw [hw]; exact hq, by rw [hw]; exact he⟩
    have hstep : Joint.exec cfg s (.step t false) = some ⟨c₁, s.queue⟩ := by
      simp only [Joint.exec, hop]
      exact hc₁
    rw [List.replicate_one, run_cons hstep]
    rfl
  | some op =>
    have hview : (Sys.pc (s.listed l) t).queueOp = some op := hop
    obtain rfl := Option.some.inj ((stepThread_queueOp (b := false) hview).symm.trans h)
    obtain ⟨n, q', g', hn, hq'⟩ := hq.serve_op hl t op 0
    obtain ⟨r, hr⟩ := hq.idle t
    have hcall : Joint.exec cfg s (.step t false) = some ⟨s.counter, s.queue.call t (.op op)⟩ := by
      simp only [Joint.exec, hop, Joint.stepQueue, hr]
    have hin : ∀ r, (s.queue.call t (.op op)).pc t ≠ .done r := by
      intro r hr
      have hst : ((s.queue.call t (.op op)).pc t).standing cfg.maxWaiting g.vals = .called op := by
        rw [show (s.queue.call t (.op op)).pc t = opStart op from ArrayQueue.setPc_self _ t _]
        cases op <;> rfl
      rw [hr] at hst
      cases hst
    obtain ⟨k, hk⟩ := run_complete (c := s.counter) hop hn hin
    refine ⟨k + 1, ⟨s.counter.setPc t ((s.counter.pc t).resume (Fifo.apply cfg.maxWaiting l op).1), q'⟩, g', ?_, hq', rfl⟩
    rw [List.replicate_succ, run_cons hcall]
    exact hk

theorem Joint.run_steps (hl : Layout w cfg.maxWaiting) {n : Nat} {c' : Sys} (hq : Quiet cfg.maxWaiting s.queue g l)
    (h : run (RefCount.exec cfg) (s.listed l) (List.replicate n (.step t false)) = some c') :
    ∃ k s' g', run (Joint.exec cfg) s (List.replicate k (.step t false)) = some s' ∧
      Quiet cfg.maxWaiting s'.queue g' c'.waiterQueue ∧ s'.listed c'.waiterQueue = c' := by
  induction n generalizing s g l with
  | zero =>
    cases h
    exact ⟨0, s, g, rfl, hq, rfl⟩
  | succ n ih =>
    rw [List.replicate_succ] at h
    obtain ⟨c₁, hc₁, h⟩ := Option.bind_eq_some_iff.mp h
    obtain ⟨k₁, s₁, g₁, hrun₁, hq₁, he⟩ := run_step hl hq hc₁
    rw [← he] at h
    obtain ⟨k, s', g', hrun, hq', he'⟩ := ih hq₁ h
    exact ⟨k₁ + k, s', g', by rw [List.replicate_add]; exact run_concat hrun₁ hrun, hq', he'⟩

end

/-! ## A single-threaded executor -/

section
variable {w : Nat} {cfg : Config} {waker : FutId → Waker} {s s' : Joint w} {g : Ghost Waiter} {a : Act}

def Joint.Executor (waker : FutId → Waker) (s : Joint w) (a : Act) (s' : Joint w) : Prop :=
  RefCount.Executor waker s.counter a s'.counter

instance (waker : FutId → Waker) (s : Joint w) (a : Act) (s' : Joint w) : Decidable (s.Executor waker a s') :=
  inferInstanceAs (Decidable (RefCount.Executor waker s.counter a s'.counter))

structure Joint.Tasks (cfg : Config) (waker : FutId → Waker) (s : Joint w) (g : Ghost Waiter) : Prop where
  inv : s.Inv cfg.maxWaiting g
  tasks : Executor.Inv waker (s.view cfg.maxWaiting g)
  others : ∀ u, u ≠ 0 → ∃ r, s.counter.pc u = .done r
  fresh : (s.queue.pc 0).fresh s.queue.heads s.queue.tails

theorem Joint.Tasks.new : (Joint.new w).Tasks cfg waker ⟨.free, []⟩ :=
  ⟨.new _, .new, fun _ _ => ⟨_, rfl⟩, trivial⟩

/-- What a step does to the ring, and whose place in the code it changes. -/
theorem Joint.exec_parts (h : s.exec cfg a = some s') :
    (s'.queue = s.queue ∨ ∃ t b, a = .step t b ∧ ((∃ op, s'.queue = s.queue.call t (.op op)) ∨
      s.queue.stepThread cfg.maxWaiting t b = some s'.queue)) ∧
    ∀ u, a.thread? ≠ some u → s'.counter.pc u = s.counter.pc u := by
  have hcounter : ∀ a, s.stepCounter cfg a = some s' → s'.queue = s.queue ∧
      ∀ u, a.thread? ≠ some u → s'.counter.pc u = s.counter.pc u := by
    intro a h
    obtain ⟨c, hc, rfl⟩ := Option.map_eq_some_iff.mp h
    exact ⟨rfl, fun u hu => (exec_step hc).pc_frame hu⟩
  cases a with
  | step t b =>
    simp only [Joint.exec] at h
    cases hop : (s.counter.pc t).queueOp with
    | none =>
      rw [hop] at h
      exact ⟨.inl (hcounter _ h).1, (hcounter _ h).2⟩
    | some op =>
      rw [hop] at h
      have hframe : ∀ q, s.return t q = s' → s'.queue = q ∧ ∀ u, some t ≠ some u → s'.counter.pc u = s.counter.pc u := by
        rintro q rfl
        unfold Joint.return
        split
        · exact ⟨rfl, fun u hu => Function.update_of_ne (fun e => hu (congrArg some e.symm)) _ _⟩
        · exact ⟨rfl, fun _ _ => rfl⟩
      unfold Joint.stepQueue at h
      cases hpc : s.queue.pc t with
      | done r =>
        rw [hpc] at h; cases h
        exact ⟨.inr ⟨t, b, rfl, .inl ⟨op, rfl⟩⟩, fun _ _ => rfl⟩
      | _ =>
        rw [hpc] at h
        obtain ⟨q, hq, hs⟩ := Option.map_eq_some_iff.mp h
        obtain ⟨rfl, hothers⟩ := hframe q hs
        exact ⟨.inr ⟨t, b, rfl, .inr hq⟩, hothers⟩
  | _ => exact ⟨.inl (hcounter _ h).1, (hcounter _ h).2⟩

theorem Joint.Tasks.step (hl : Layout w cfg.maxWaiting) (hi : s.Tasks cfg waker g) (he : Joint.Executor waker s a s')
    (h : s.exec cfg a = some s') : ∃ g', s'.Tasks cfg waker g' := by
  have hn : s.Near cfg a := by
    cases a with
    | step t b =>
      obtain rfl : t = 0 := he.1.1 t rfl
      exact hi.fresh.near hl
    | _ => trivial
  obtain ⟨hqueue, hpc⟩ := exec_parts h
  obtain ⟨g', hi', hview⟩ := hi.inv.exec hl hn h
  refine ⟨g', hi', ?_, ?_, ?_⟩
  · rcases hview with ⟨_, hview⟩ | hview
    · rw [hview]
      exact hi.tasks
    · refine hi.tasks.step ⟨⟨he.1.1, fun hstep => ?_⟩, he.2⟩ hview
      -- between two operations nobody is in the ring
      have hcall := he.1.2 hstep
      obtain ⟨r, hr⟩ := call_eq_none.mp hcall
      exact (congrArg Pc.call (hi.inv.agrees.outside 0 (by rw [hr]; rfl))).trans hcall
  · intro u hu
    rw [hpc u fun ha => hu (he.1.1 u ha)]
    exact hi.others u hu
  · rcases hqueue with hq | ⟨t, b, rfl, ⟨op, hq⟩ | hq⟩
    · rw [hq]
      exact hi.fresh
    · obtain rfl : t = 0 := he.1.1 t rfl
      rw [hq, show (s.queue.call 0 (.op op)).pc 0 = opStart op from ArrayQueue.setPc_self _ 0 _]
      cases op <;> trivial
    · obtain rfl : t = 0 := he.1.1 t rfl
      exact hi.fresh.step hq

theorem Joint.Tasks.quiet (hi : s.Tasks cfg waker g) (hd : s.counter.idle) :
    Quiet cfg.maxWaiting s.queue g (held s.queue g) ∧ s.view cfg.maxWaiting g = s.listed (held s.queue g) := by
  have hq : ∀ t, ∃ r, s.queue.pc t = .done r := by
    intro t
    obtain ⟨r, hr⟩ := hd t
    exact hi.inv.outside (by rw [hr]; rfl)
  refine ⟨⟨hi.inv.queue, hi.inv.owned, hq, rfl⟩, ?_⟩
  unfold Joint.view Joint.listed Sys.framed
  congr 1
  funext t
  obtain ⟨r, hr⟩ := hq t
  exact viewPc_idle hr

end

/-- Between two operations of a single-threaded executor, over the ring itself: its slots hold
some waiters `l`, in order and nothing else; there are none unless references are blocked; the
waiter of a future is there once at most, and its flag says whether it is; a future whose last poll
returned `Pending` has its waiter there, or was woken since that poll began; and the drop of an
`ExclusiveRef` comes to its end, with the waiters called in that order and the ring empty. -/
theorem joint_no_task_forgotten {w : Nat} (cfg : Config) (waker : FutId → Waker) (hl : Layout w cfg.maxWaiting) {s : Joint w}
    (h : Reach (Joint.exec cfg) (Joint.Executor waker) (Joint.new w) s) (hd : s.counter.idle) :
    ∃ l p, Stored cfg.maxWaiting s.queue l p ∧ (l ≠ [] → isBlocked s.counter.count = true) ∧
    (∀ f x, s.counter.futs f = some x → l.countP (·.registered = f) ≤ 1 ∧
      (x.fut.registered? = some true ↔ l.countP (·.registered = f) = 1)) ∧
    (∀ f x, s.counter.futs f = some x → x.status = .pending →
      ⟨waker f, f⟩ ∈ l ∨ ⟨waker f, f⟩ ∈ s.counter.wakes.drop x.since) ∧
    (∀ s₁, s.exec cfg (.call 0 .dropExclusiveRef) = some s₁ → ∃ n s',
      run (Joint.exec cfg) s₁ (List.replicate n (.step 0 false)) = some s' ∧
      s'.counter.idle ∧ (∃ p, Stored cfg.maxWaiting s'.queue [] p) ∧ s'.counter.wakes = s.counter.wakes ++ l) := by
  obtain ⟨g, hi⟩ : ∃ g, s.Tasks cfg waker g := by
    refine h.inv (fun s => ∃ g, s.Tasks cfg waker g) ⟨_, .new⟩ ?_
    rintro s a s' ⟨g, hi⟩ he hst
    exact hi.step hl he hst
  obtain ⟨hq, hview⟩ := hi.quiet hd
  have ht := hi.tasks
  rw [hview] at ht
  refine ⟨_, _, hq.stored hl, ht.serial.queue_blocked hd, fun f x hx => ht.flags hd hx,
    fun f x hx hp => ht.remembered hd hx hp, ?_⟩
  intro s₁ h₁
  have hidle : ∀ t, (s.counter.pc t).queueOp = none := by
    intro t
    obtain ⟨r, hr⟩ := hd t
    rw [hr]; rfl
  obtain ⟨hc₁, hq₁⟩ := Joint.stepCounter_listed (l := held s.queue g) (fun t _ => hidle t) h₁
  have hquiet : Quiet cfg.maxWaiting s₁.queue g (held s.queue g) := by
    rw [hq₁]
    exact hq
  obtain ⟨n, hn⟩ := run_releases cfg .dropExclusiveRef hc₁ hd
  obtain ⟨c', hrun, hidle, _, hempty, hwakes⟩ := hn (List.replicate n false) List.length_replicate
  rw [List.map_replicate] at hrun
  obtain ⟨k, s', g', hrun', hq', he'⟩ := Joint.run_steps hl hquiet hrun
  rw [hempty] at hq'
  exact ⟨k, s', hrun', by rw [← he'] at hidle; exact hidle, ⟨_, hq'.stored hl⟩, by rw [← he'] at hwakes; exact hwakes⟩

/-- A future is polled beside an `ExclusiveRef`. -/
def pollBlocked : List Act :=
  askExclusiveRef 0 ++ .call 0 .getRef :: steps 5 ++ .call 0 (.poll 0 7) :: steps 9

theorem joint_no_task_forgotten_polled :
    ∃ s : Joint 8, run (Joint.exec ⟨2, true⟩) (Joint.new 8) pollBlocked = some s ∧
    ∃ l p, Stored 2 s.queue l p ∧ (⟨7, 0⟩ ∈ l ∨ ⟨7, 0⟩ ∈ s.counter.wakes.drop 0) := by
  have hg : AllSteps (Joint.exec ⟨2, true⟩) (Joint.Executor fun f => f + 7) (Joint.new 8) pollBlocked := by decide
  have hidle : ∀ s, run (Joint.exec ⟨2, true⟩) (Joint.new 8) pollBlocked = some s → s.counter.idle := by
    intro s hs t
    cases hs
    match t with
    | 0 => exact ⟨_, rfl⟩
    | _ + 1 => exact ⟨_, rfl⟩
  obtain ⟨l, p, hstored, _, _, h, _⟩ := joint_no_task_forgotten ⟨2, true⟩ (fun f => f + 7) ⟨by decide, by decide⟩
    (Reach.run .start hg rfl) (hidle _ rfl)
  exact ⟨_, rfl, l, p, hstored, h 0 _ rfl rfl⟩

end RefCount
