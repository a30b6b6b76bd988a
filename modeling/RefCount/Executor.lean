import RefCount.Orphan
import RefCount.Wakers

/-!
# A single-threaded executor

The tasks request references, poll the futures they got until those are ready, and drop the
references; each future has one waker for its life. Then nobody is forgotten: a pending future
is queued or was woken, the queue is drained when its block ends, and if nobody has a reference
some future is there to go on with.
-/

namespace RefCount

open Lts

def Call.ofTasks : Call → Bool
  | .getRef => true
  | .getExclusiveRef => true
  | .poll _ _ => true
  | .dropExclusiveRef => true
  | _ => false

def Act.ofTasks : Act → Bool
  | .call _ c => c.ofTasks
  | .step _ _ => true
  | .dropRef => true
  | _ => false

/-- One thread runs the tasks; it polls a future with the waker of that future, and not again
after `Ready`. -/
def Executor (waker : FutId → Waker) (s : Sys) (a : Act) (s' : Sys) : Prop :=
  OneThread s a s' ∧ a.ofTasks = true ∧
  ∀ p ∈ a.poll?, p.2 = waker p.1 ∧ ∀ x ∈ s.futs p.1, x.status ≠ .finished

instance (waker : FutId → Waker) (s : Sys) (a : Act) (s' : Sys) : Decidable (Executor waker s a s') :=
  inferInstanceAs (Decidable (_ ∧ _ ∧ ∀ p ∈ _, _ ∧ ∀ x ∈ _, _))

/-- The futures of the tasks, and that one with the block is not finished. -/
structure FutRec.OfTasks (x : FutRec) : Prop where
  asked : x.fut.kind ≠ .blockedRefs
  here : x.fut.kind ≠ .elsewhere ∧ x.status ≠ .elsewhere
  unfinished : x.holdsBlock = true → x.status ≠ .finished

structure Executor.Inv (waker : FutId → Waker) (s : Sys) : Prop where
  serial : Serial.Inv s
  one : ∀ u, u ≠ 0 → (s.pc u).call = none
  calls : CallsWithin Call.ofTasks s
  futs : ∀ f x, s.futs f = some x → x.OfTasks
  polled : Polled s
  covered : Covered OfFuture s
  polls : ∀ t f w, (s.pc t).call = some (.poll f w) → w = waker f
  wakers : ∀ y, s.outstanding y ∨ y ∈ s.wakes → y.waker = waker y.registered
  owning : ∀ f x, s.futs f = some x → x.fut.kind = .owning → s.queued f = 0
  blocks : s.blocks = 0
  carried : isBlocked s.count = true → ∃ c, 0 < s.held c

section
variable {cfg : Config} {s s' : Sys} {a : Act} {waker : FutId → Waker}

theorem Act.ofTasks_within (h : a.ofTasks = true) : a.within Call.ofTasks = true := by
  cases a with
  | call t c => exact h
  | newFutureBlockedRefs => cases h
  | newFutureExclusiveRef _ => cases h
  | _ => rfl

/-! ## Wakers -/

theorem Step.woken (h : Step cfg s a s') {y : Waiter} (hy : y ∈ s'.wakes) :
    y ∈ s.wakes ∨ s.outstanding y ∨ ∃ t, s.pc t = .wakeByRef y.registered y.waker := by
  cases h with
  | wakeDrain hpc =>
    rcases List.mem_append.mp hy with hy | hy
    · exact .inl hy
    · rw [List.mem_singleton] at hy
      subst hy
      exact .inr (.inl (.inr ⟨_, by rw [hpc]; rfl⟩))
  | wakeFull hpc =>
    rcases List.mem_append.mp hy with hy | hy
    · exact .inl hy
    · rw [List.mem_singleton] at hy
      subst hy
      exact .inr (.inl (.inr ⟨_, by rw [hpc]; rfl⟩))
  | yield hpc =>
    rcases List.mem_append.mp hy with hy | hy
    · exact .inl hy
    · rw [List.mem_singleton] at hy
      subst hy
      exact .inr (.inr ⟨_, hpc⟩)
  | _ => exact .inl hy

theorem Executor.Inv.step_polls (hi : Inv waker s) (ha : Executor waker s a s') (h : Step cfg s a s') (t : ThreadId)
    (f : FutId) (w : Waker) (ht : (s'.pc t).call = some (.poll f w)) : w = waker f := by
  rcases h.call ht with ht | rfl
  · exact hi.polls t f w ht
  · exact (ha.2.2 (f, w) rfl).1

theorem Executor.Inv.step_wakers (hi : Inv waker s) (h : Step cfg s a s') (y : Waiter)
    (hy : s'.outstanding y ∨ y ∈ s'.wakes) : y.waker = waker y.registered := by
  rcases hy with hy | hy
  · rcases h.outstanding hy with ho | ⟨t, b, _, hpc⟩
    · exact hi.wakers y (.inl ho)
    · exact hi.polls t _ _ (by rw [hpc]; rfl)
  · rcases h.woken hy with hw | ho | ⟨t, hpc⟩
    · exact hi.wakers y (.inr hw)
    · exact hi.wakers y (.inl ho)
    · exact hi.polls t _ _ (by rw [hpc]; rfl)

/-! ## Futures -/

theorem Executor.Inv.step_futs (hi : Inv waker s) (ha : a.ofTasks = true) (h : Step cfg s a s') :
    ∀ f x, s'.futs f = some x → x.OfTasks := by
  refine h.futs_all hi.serial.wf hi.futs ?_ ?_ ?_ ?_ ?_ ?_ ?_ ?_
  · intro b x hx
    have hkind : (x.setRegistered b).fut.kind = x.fut.kind := kind_setRegistered x.fut b
    exact ⟨hkind ▸ hx.asked, hkind ▸ hx.here, hx.unfinished⟩
  · exact fun x hx => ⟨hx.asked, ⟨hx.here.1, FutStatus.noConfusion⟩, Bool.noConfusion⟩
  · exact fun t x _ hx => ⟨hx.asked, ⟨hx.here.1, FutStatus.noConfusion⟩, fun _ => FutStatus.noConfusion⟩
  · exact fun t f w x _ _ hx => ⟨hx.asked, ⟨hx.here.1, FutStatus.noConfusion⟩, fun _ => FutStatus.noConfusion⟩
  · intro t x hs _ hx
    refine ⟨FutKind.noConfusion, ⟨FutKind.noConfusion, hx.here.2⟩, fun _ => ?_⟩
    rw [FutRec.setBlocked, hs]
    exact FutStatus.noConfusion
  · exact fun t x _ hk hx => absurd hk hx.here.1
  · intro t fut b hr
    have hcall := hi.calls t
    generalize s.pc t = p at hr hcall
    cases hr with
    | blockRefs _ => cases hcall _ rfl
    | _ =>
      exact ⟨FutKind.noConfusion, ⟨FutKind.noConfusion, FutStatus.noConfusion⟩, fun _ => FutStatus.noConfusion⟩
  · intro fut hn
    cases hn <;> cases ha

theorem Step.queued_le (h : Step cfg s a s') (f : FutId) :
    s'.queued f ≤ s.queued f ∨ ∃ t b w, a = .step t b ∧ s.pc t = .registerPush f w := by
  cases h.turn f with
  | quiet hu _ _ => exact .inl (Nat.le_of_eq hu.queued)
  | new _ hu _ => exact .inl (Nat.le_of_eq hu.queued)
  | push hpc _ _ _ _ => exact .inr ⟨_, _, _, rfl, hpc⟩
  | store _ _ hq _ _ => exact .inl (Nat.le_of_eq hq)
  | pop _ _ _ hq _ _ => exact .inl (by omega)
  | clear _ _ _ hq _ _ => exact .inl (Nat.le_of_eq hq)

/-- A `FutureExclusiveRef` gets the block only over an empty queue, and does not register after. -/
theorem Executor.Inv.step_owning (hi : Inv waker s) (h : Step cfg s a s') (f : FutId) (x' : FutRec)
    (hx' : s'.futs f = some x') (hk : x'.fut.kind = .owning) : s'.queued f = 0 := by
  have hw := hi.serial.wf
  have hq : s.queued f = 0 := by
    cases hx : s.futs f with
    | none =>
      obtain ⟨rfl, _⟩ := h.new hx hx'
      exact hi.serial.registered.placed_new.queue
    | some x =>
      rcases h.evolves hx (hw.lt hx) with ⟨_, _, hn⟩ | ⟨y, hy, he⟩
      · rw [hn] at hx'; cases hx'
      · rw [hy, Option.some.injEq] at hx'
        subst hx'
        cases he with
        | clear _ =>
          rw [FutRec.setRegistered, kind_setRegistered] at hk
          exact hi.owning _ x hx hk
        | store _ =>
          rw [FutRec.register, kind_setRegistered] at hk
          exact hi.owning _ x hx hk
        | block hpc hc =>
          rename_i t w n l
          have heven : isBlocked s.count = false := (not_isBlocked_iff _).mpr (hc ▸ l.even)
          have hnil := hi.serial.queue_nil (t := t) (by rw [hpc]; exact Option.some_ne_none _) (by rw [hpc]; rfl) heven
          unfold Sys.queued
          rw [hnil]; rfl
        | dropInner hpc =>
          have hfit := (hw.polled_at hpc rfl hx).2
          exact absurd (of_decide_eq_true hfit) (hi.futs f x hx).here.1
        | _ => exact hi.owning _ x hx hk
  rcases h.queued_le f with hle | ⟨t, b, w, rfl, hpc⟩
  · omega
  · obtain ⟨x, hx, _, hfit⟩ := hw.polls t f (by rw [hpc]; rfl)
    have hsame : s'.futs = s.futs := by
      cases h with
      | jump _ => rfl
      | push _ _ => rfl
      | request hr => rw [hpc] at hr; cases hr
      | panic hadds _ _ => rw [hpc] at hadds; cases hadds
      | panicPoll hadds _ => rw [hpc] at hadds; cases hadds
      | newFuture hn => cases hn
      | _ => simp_all
    rw [hsame, hx, Option.some.injEq] at hx'
    subst hx'
    rw [hpc, Pc.fits, hk] at hfit
    cases hfit

/-! ## The block -/

theorem Executor.Inv.step_blocks (hi : Inv waker s) (h : Step cfg s a s') : s'.blocks = 0 := by
  rcases h.blocks with hle | hu | ⟨t, op, r, hcall, hb⟩
  · rw [hi.blocks] at hle
    exact Nat.le_zero.mp hle
  · unfold Sys.blocksUser at hu
    split at hu
    · split at hu
      · rename_i t f w n l hpc
        obtain ⟨x, hx, _, hfit⟩ := hi.serial.wf.polls_at hpc rfl
        exact absurd (of_decide_eq_true hfit) (hi.futs f x hx).asked
      · cases hu
    · cases hu
  · have hok := hi.calls t _ hcall
    cases hb <;> cases hok

theorem Executor.Inv.new : Inv waker Sys.new where
  serial := .new
  one := fun _ _ => rfl
  calls := .new
  futs := nofun
  polled := nofun
  covered := Covered.new
  polls := nofun
  wakers := by
    rintro y ((hy | ⟨t, ht⟩) | hy)
    · cases hy
    · cases ht
    · cases hy
  owning := nofun
  blocks := rfl
  carried := nofun

theorem Executor.Inv.step (hi : Inv waker s) (ha : Executor waker s a s') (h : exec cfg s a = some s') :
    Inv waker s' := by
  have hst := exec_step h
  have hw := hi.serial.wf
  obtain ⟨hserial, hone⟩ := OneThread.step hi.one ha.1 hst
  exact {
    serial := hi.serial.step hserial h
    one := hone
    calls := hi.calls.step (Act.ofTasks_within ha.2.1) hst
    futs := hi.step_futs ha.2.1 hst
    polled := hi.polled.step hw hst
    covered := hi.covered.step (fun _ _ => rfl) hw (hi.serial.registered.flagHolds hw a) h
    polls := hi.step_polls ha hst
    wakers := hi.step_wakers hst
    owning := hi.step_owning hst
    blocks := hi.step_blocks hst
    carried := carried_step hw hi.carried (fun f hf => by cases a <;> cases hf; cases ha.2.1) hst }

/-! ## Between two operations -/

theorem idle_settled (hd : s.idle) : s.settled := by
  intro t
  obtain ⟨r, hr⟩ := hd t
  rw [hr]
  exact ⟨rfl, rfl⟩

theorem Executor.Inv.flags (hi : Inv waker s) (hd : s.idle) {f : FutId} {x : FutRec} (hx : s.futs f = some x) :
    s.queued f ≤ 1 ∧ (x.fut.registered? = some true ↔ s.queued f = 1) := by
  have hflag : s.registered? f = x.fut.registered? := by
    unfold Sys.registered?
    rw [hx]; rfl
  cases hb : x.fut.registered? with
  | some b =>
    obtain ⟨hle, hb⟩ := hi.serial.registered.settled (idle_settled hd) (hflag.trans hb)
    exact ⟨hle, by rw [← hb, Option.some.injEq]⟩
  | none =>
    have hk : x.fut.kind = .owning := by
      have hsome := registered?_isSome x.fut
      rw [hb] at hsome
      cases hk : x.fut.kind with
      | owning => rfl
      | elsewhere => exact absurd hk (hi.futs f x hx).here.1
      | _ => rw [hk] at hsome; cases hsome
    rw [hi.owning f x hx hk]
    exact ⟨Nat.zero_le 1, by simp⟩

theorem Executor.Inv.remembered (hi : Inv waker s) (hd : s.idle) {f : FutId} {x : FutRec} (hx : s.futs f = some x)
    (hp : x.status = .pending) : ⟨waker f, f⟩ ∈ s.waiterQueue ∨ ⟨waker f, f⟩ ∈ s.wakes.drop x.since := by
  have hself : ∀ y : Waiter, s.outstanding y ∨ y ∈ s.wakes → y.registered = f → y = ⟨waker f, f⟩ := by
    rintro ⟨w, g⟩ hy rfl
    rw [Waiter.mk.injEq]
    exact ⟨hi.wakers _ hy, rfl⟩
  obtain ⟨w, _, ⟨y, hy, e⟩ | ⟨y, hy, e⟩⟩ := hi.covered.idle hd hx hp
  · exact .inl (hself y (.inl (.inl hy)) e ▸ hy)
  · exact .inr (hself y (.inr (List.mem_of_mem_drop hy)) e ▸ hy)

/-- A future that has the block has not been polled yet, or was woken since its last poll began. -/
theorem Executor.Inv.carrier_woken (hi : Inv waker s) (hd : s.idle) {f : FutId} {x : FutRec} (hx : s.futs f = some x)
    (hb : x.holdsBlock = true) : x.status = .created ∨ x.status = .pending ∧ ⟨waker f, f⟩ ∈ s.wakes.drop x.since := by
  have hk := hi.serial.wf.sound f x hx hb
  cases hs : x.status with
  | created => exact .inl rfl
  | elsewhere => exact absurd hs (hi.futs f x hx).here.2
  | finished => exact absurd hs ((hi.futs f x hx).unfinished hb)
  | polling t =>
    have hpolls := hi.polled f x t hx hs
    rw [(idle_settled hd t).1] at hpolls; cases hpolls
  | pending =>
    rcases hi.remembered hd hx hs with hq | hw
    · have h0 := hi.owning f x hx hk
      have hpos : 0 < s.queued f := queued_pos.mpr ⟨_, hq, rfl⟩
      omega
    · exact .inr ⟨rfl, hw⟩

/-- If nobody has a reference, a pending future can go on, or one that has the block can. -/
theorem Executor.Inv.ready (hi : Inv waker s) (hd : s.idle) (he : s.exclusiveRefs = 0) {f : FutId} {x : FutRec}
    (hx : s.futs f = some x) (hp : x.status = .pending) :
    ∃ g y, s.futs g = some y ∧ (y.status = .created ∨ y.status = .pending ∧ ⟨waker g, g⟩ ∈ s.wakes.drop y.since) ∧
      (y.fut.kind = .owning ∨ isBlocked s.count = false) := by
  cases hb : isBlocked s.count with
  | false =>
    refine ⟨f, x, hx, .inr ⟨hp, ?_⟩, .inr rfl⟩
    rcases hi.remembered hd hx hp with hq | hw
    · have hset := hi.serial.queue_blocked hd (List.ne_nil_of_mem hq)
      rw [hb] at hset; cases hset
    · exact hw
  | true =>
    obtain ⟨c, hc⟩ := hi.carried hb
    have horphan : 0 < s.exclusiveRefs ∨ ∃ g y, s.futs g = some y ∧ y.fut.kind = .owning ∧ y.holdsBlock = true :=
      block_idle hi.serial.wf hi.blocks hi.carried hd hb
    rcases horphan with h0 | ⟨g, y, hy, hk, hh⟩
    · rw [he] at h0; cases h0
    · exact ⟨g, y, hy, hi.carrier_woken hd hy hh, .inl hk⟩

theorem word_zero {w : UInt32} (hz : noStandardRefs w = true) (hb : isBlocked w = false) : w = 0 := by
  have h₁ := (noStandardRefs_iff w).mp hz
  have h₂ := (not_isBlocked_iff w).mp hb
  rw [← UInt32.toNat_inj]
  show w.toNat = 0
  omega

end

/-! ## A poll that is ready -/

section
variable {s : Sys} {t : ThreadId} {f : FutId} {w : Waker}

/-- Thread `t` alone returns from its poll with `Ready`. -/
def Finishes (cfg : Config) (s : Sys) (t : ThreadId) : Prop :=
  ∃ n s' r, run (exec cfg) s (List.replicate n (.step t false)) = some s' ∧ s'.pc t = .done r ∧ r ≠ .pending ∧
    r ≠ .panicked

theorem Finishes.step {cfg : Config} {s' : Sys} (h : exec cfg s (.step t false) = some s') (hf : Finishes cfg s' t) :
    Finishes cfg s t := by
  obtain ⟨n, u, r, hrun, hr⟩ := hf
  refine ⟨n + 1, u, r, ?_, hr⟩
  rw [List.replicate_succ, run_cons h]
  exact hrun

theorem Finishes.done {cfg : Config} {s' : Sys} {r : Res} (h : exec cfg s (.step t false) = some s')
    (hr : s'.pc t = .done r) (hp : r ≠ .pending) (hq : r ≠ .panicked) : Finishes cfg s t :=
  ⟨1, s', r, by rw [List.replicate_one, run_cons h]; rfl, hr, hp, hq⟩

theorem check_finishes (cfg : Config) (hpc : s.pc t = .noStandardRefs (.pollExclusiveRef f w))
    (hz : noStandardRefs s.count = true) : Finishes cfg s t := by
  have h : exec cfg s (.step t false) =
      some (Sys.returnReady { s with exclusiveRefs := s.exclusiveRefs + 1 } t f .exclusiveRef) := by
    simp only [exec, Sys.stepThread, hpc, Sys.check, hz, if_true, Sys.checkOk]
  exact .done h (setPc_self _ _) Res.noConfusion Res.noConfusion

theorem run_tryBlock (cfg : Config) (op : BlockOp) (hpc : s.pc t = .blockLoad op) (hc : s.count = 0) :
    ∃ s₁, exec cfg s (.step t false) = some s₁ ∧
      exec cfg s₁ (.step t false) = some (Sys.blockOk { s₁ with count := refBlocked } t op) := by
  refine ⟨s.setPc t (.blockCas op 0 (.observe 0)), ?_, ?_⟩
  · simp [exec, Sys.stepThread, hpc, hc]
  · have hl : (BlockPair.observe 0).refCount = 0 := rfl
    have hn : (BlockPair.observe 0).nextRefCount = refBlocked := rfl
    simp [exec, Sys.stepThread, Sys.blockCas, hc, hl, hn]

theorem ref_finishes (cfg : Config) (hpc : s.pc t = .refIsBlocked f w) (hc : s.count = 0) : Finishes cfg s t := by
  let p : IncrPair := ⟨0, 0 + refIncr, rfl, rfl⟩
  let s₁ := s.setPc t (.incrLoad (.pollRef f w))
  let s₂ := s₁.setPc t (.incrCas (.pollRef f w) 0 p)
  have h₀ : exec cfg s (.step t false) = some s₁ := by
    have hb : isBlocked 0 = false := rfl
    simp [exec, Sys.stepThread, hpc, hc, hb, s₁]
  have h₁ : exec cfg s₁ (.step t false) = some s₂ := by
    have ho : IncrPair.observe cfg.overflowChecks 0 = some p := observe_even rfl fun _ => by decide
    simp only [exec, Sys.stepThread, s₁, s₂, setPc_self, Sys.incrObserve, setPc_count, hc, ho]
  have h₂ : exec cfg s₂ (.step t false) =
      some (Sys.returnReady { s₂ with count := 0 + refIncr, refs := s.refs + 1 } t f .ref) := by
    simp [exec, Sys.stepThread, s₂, s₁, Sys.incrCas, Sys.incrOk, hc, p]
  exact .step h₀ (.step h₁ (.done h₂ (setPc_self _ _) Res.noConfusion Res.noConfusion))

/-- Where the word counts no reference, the poll of a future that has the block is ready, and the
poll of any future is if the bit is clear. -/
theorem pollStart_finishes (cfg : Config) {fut : Fut} (hpc : s.pc t = pollStart f w fut) (hn : fut.kind ≠ .elsewhere)
    (hz : noStandardRefs s.count = true) (hk : fut.kind = .owning ∨ isBlocked s.count = false) : Finishes cfg s t := by
  cases fut using Fut.shapes with
  | ref _ =>
    have hc := word_zero hz (hk.resolve_left FutKind.noConfusion)
    exact ref_finishes cfg hpc hc
  | blockedRefs _ =>
    have hc := word_zero hz (hk.resolve_left FutKind.noConfusion)
    obtain ⟨s₁, h₁, h₂⟩ := run_tryBlock cfg (.pollBlockedRefs f w) hpc hc
    exact .step h₁ (.done h₂ (setPc_self _ _) Res.noConfusion Res.noConfusion)
  | waiting _ =>
    have hc := word_zero hz (hk.resolve_left FutKind.noConfusion)
    obtain ⟨s₁, h₁, h₂⟩ := run_tryBlock cfg (.pollExclusiveRef f w) hpc hc
    have hone : noStandardRefs refBlocked = true := by decide
    exact .step h₁ (.step h₂ (check_finishes cfg (setPc_self _ _) hone))
  | elsewhere => exact absurd rfl hn
  | owning => exact check_finishes cfg hpc hz

theorem run_poll_ready (cfg : Config) {x : FutRec} (hd : (s.pc t).call = none) (hx : s.futs f = some x)
    (hs : x.status.isPolling = false) (hn : x.fut.kind ≠ .elsewhere) (hz : noStandardRefs s.count = true)
    (hk : x.fut.kind = .owning ∨ isBlocked s.count = false) :
    ∃ s₁, exec cfg s (.call t (.poll f w)) = some s₁ ∧ Finishes cfg s₁ t := by
  obtain ⟨r, hr⟩ := call_eq_none.mp hd
  refine ⟨(s.modifyFut f (FutRec.beginPoll t w s.wakes.length)).setPc t (pollStart f w x.fut), ?_, ?_⟩
  · simp [exec, hr, Sys.call, hx, hs]
  · exact pollStart_finishes cfg (setPc_self _ _) hn hz hk

end

section
variable {waker : FutId → Waker} {s : Sys}

/-- If nobody has a reference and some future is pending, there is one to go on with. -/
theorem Executor.Inv.goes_on (cfg : Config) (hi : Inv waker s) (hd : s.idle) (he : s.exclusiveRefs = 0)
    (hp : ∃ f x, s.futs f = some x ∧ x.status = .pending) :
    ∃ f x, s.futs f = some x ∧
      (x.status = .created ∨ x.status = .pending ∧ ⟨waker f, f⟩ ∈ s.wakes.drop x.since) ∧
      (noStandardRefs s.count = true →
        ∃ s₁, exec cfg s (.call 0 (.poll f (waker f))) = some s₁ ∧ Finishes cfg s₁ 0) := by
  obtain ⟨f, x, hx, hp⟩ := hp
  obtain ⟨g, y, hy, hwoken, hk⟩ := hi.ready hd he hx hp
  refine ⟨g, y, hy, hwoken, fun hz => ?_⟩
  have hs : y.status.isPolling = false := by
    rcases hwoken with hs | ⟨hs, _⟩
    · rw [hs]; rfl
    · rw [hs]; rfl
  exact run_poll_ready cfg (idle_iff.mp hd 0) hy hs (hi.futs g y hy).here.1 hz hk

/-! ## Runs in which the references fit the word -/

/-- A run of the executor with at most `maxRefs` references at any time. -/
def Executor.Fits (waker : FutId → Waker) (s : Sys) (a : Act) (s' : Sys) : Prop :=
  Executor waker s a s' ∧ s'.refs ≤ maxRefs

theorem Executor.disciplined {a : Act} {s' : Sys} (h : Executor waker s a s') : Disciplined s a := by
  refine ⟨fun f hf x hx _ => ?_, ?_⟩
  · cases a with
    | call t c =>
      cases c with
      | poll g w => cases hf; exact (h.2.2 (f, w) rfl).2 x hx
      | _ => cases hf
    | _ => cases hf
  · cases a with
    | newFutureExclusiveRef _ => cases h.2.1
    | _ => rfl

/-- The tasks store `REF_ALLOWED` only by the drop of an `ExclusiveRef`. -/
theorem Executor.Inv.storesClean (hi : Inv waker s) (a : Act) : StoresClean s a := by
  intro op ho hne
  have hok := hi.calls.stores ho
  cases op with
  | dropExclusiveRef => exact absurd rfl hne
  | _ => cases hok

theorem Executor.Fits.sim {cfg : Config} (h : Reach (exec cfg) (Executor.Fits waker) Sys.new s) :
    Executor.Inv waker s ∧ ∃ l, Sim s l := by
  refine h.inv (fun s => Executor.Inv waker s ∧ ∃ l, Sim s l) ⟨.new, _, Sim.new⟩ ?_
  rintro s a s' ⟨hi, l, hs⟩ ha hst
  obtain ⟨l', _, hs', _⟩ := hs.step ha.1.disciplined (hi.storesClean a) ha.2 (exec_step hst)
  exact ⟨hi.step ha.1 hst, l', hs'⟩

/-- There the word counts the references. So the system goes on by itself: if nobody has a
reference and some future is pending, some future that was created or woken is ready. -/
theorem Executor.Fits.goes_on {cfg : Config} (h : Reach (exec cfg) (Executor.Fits waker) Sys.new s) (hd : s.idle)
    (hr : s.refs = 0) (he : s.exclusiveRefs = 0) (hp : ∃ f x, s.futs f = some x ∧ x.status = .pending) :
    ∃ f x, s.futs f = some x ∧
      (x.status = .created ∨ x.status = .pending ∧ ⟨waker f, f⟩ ∈ s.wakes.drop x.since) ∧
      ∃ s₁, exec cfg s (.call 0 (.poll f (waker f))) = some s₁ ∧ Finishes cfg s₁ 0 := by
  obtain ⟨hi, l, hs⟩ := Executor.Fits.sim h
  obtain ⟨f, x, hx, hwoken, hready⟩ := hi.goes_on cfg hd he hp
  refine ⟨f, x, hx, hwoken, hready ?_⟩
  rw [noStandardRefs_iff]
  have hcount := hs.exact
  rw [standardRefCount_toNat] at hcount
  omega

end

/-- Between two operations of a single-threaded executor: waiters are queued only while references
are blocked; a future is queued once at most, and its flag says whether it is; a future whose last
poll returned `Pending` is queued, or was woken since that poll began; the drop of an `ExclusiveRef`
returns, having called the queued wakers in their order and emptied the queue; and if nobody has a
reference and some future is pending, then some future that is not finished has not been polled
yet or was woken since, and is ready at its next poll if the word counts no reference. -/
theorem no_task_forgotten (cfg : Config) (waker : FutId → Waker) {s : Sys}
    (h : Reach (exec cfg) (Executor waker) Sys.new s) (hd : s.idle) :
    (s.waiterQueue ≠ [] → isBlocked s.count = true) ∧
    (∀ f x, s.futs f = some x → s.queued f ≤ 1 ∧ (x.fut.registered? = some true ↔ s.queued f = 1)) ∧
    (∀ f x, s.futs f = some x → x.status = .pending →
      ⟨waker f, f⟩ ∈ s.waiterQueue ∨ ⟨waker f, f⟩ ∈ s.wakes.drop x.since) ∧
    (∀ s₁, exec cfg s (.call 0 .dropExclusiveRef) = some s₁ → ∃ n, ∀ bs : List Bool, bs.length = n →
      ∃ s', run (exec cfg) s₁ (bs.map (.step 0)) = some s' ∧ s'.idle ∧ s'.waiterQueue = [] ∧
        s'.wakes = s.wakes ++ s.waiterQueue) ∧
    (s.refs = 0 → s.exclusiveRefs = 0 → (∃ f x, s.futs f = some x ∧ x.status = .pending) →
      ∃ f x, s.futs f = some x ∧
        (x.status = .created ∨ x.status = .pending ∧ ⟨waker f, f⟩ ∈ s.wakes.drop x.since) ∧
        (noStandardRefs s.count = true →
          ∃ s₁, exec cfg s (.call 0 (.poll f (waker f))) = some s₁ ∧ Finishes cfg s₁ 0)) := by
  have hi : Executor.Inv waker s := by
    refine h.inv (Executor.Inv waker) .new ?_
    intro s a s' hi ha hst
    exact hi.step ha hst
  refine ⟨hi.serial.queue_blocked hd, fun f x hx => hi.flags hd hx, fun f x hx hp => hi.remembered hd hx hp, ?_, ?_⟩
  · intro s₁ h₁
    obtain ⟨n, hn⟩ := run_releases cfg .dropExclusiveRef h₁ hd
    refine ⟨n, fun bs hlen => ?_⟩
    obtain ⟨s', hrun, hidle, _, hempty, hwakes⟩ := hn bs hlen
    exact ⟨s', hrun, hidle, hempty, hwakes⟩
  · exact fun _ he hp => hi.goes_on cfg hd he hp

/-- A request for a reference and one for an exclusive reference are polled beside an `ExclusiveRef`,
and the queue has room for one of them. -/
def twoWait : List Act :=
  askExclusiveRef 0 ++ .call 0 .getRef :: steps 5 ++ .call 0 .getExclusiveRef :: steps 5 ++
    .call 0 (.poll 0 7) :: steps 4 ++ .call 0 (.poll 1 8) :: steps 10

/-- The first is queued, and the second has woken itself. -/
theorem no_task_forgotten_two : ∃ s, run (exec ⟨1, true⟩) Sys.new twoWait = some s ∧
    s.waiterQueue = [⟨7, 0⟩] ∧ isBlocked s.count = true ∧
    (⟨8, 1⟩ ∈ s.waiterQueue ∨ ⟨8, 1⟩ ∈ s.wakes.drop 0) := by
  have hg : AllSteps (exec ⟨1, true⟩) (Executor fun f => f + 7) Sys.new twoWait := by decide
  have hidle : ∀ s, run (exec ⟨1, true⟩) Sys.new twoWait = some s → s.idle := by
    intro s hs t
    cases hs
    match t with
    | 0 => exact ⟨_, rfl⟩
    | _ + 1 => exact ⟨_, rfl⟩
  have h := no_task_forgotten ⟨1, true⟩ (fun f => f + 7) (Reach.run .start hg rfl) (hidle _ rfl)
  exact ⟨_, rfl, rfl, h.1 (List.cons_ne_nil _ _), h.2.2.1 1 _ rfl rfl⟩

end RefCount
