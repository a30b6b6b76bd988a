import RefCount.Lifetime

/-!
# Wake-ups

A pending future is covered while a waiter of it is outstanding, or was woken since
its last poll began. Only the end of `Waiter::wake` takes a waiter away, and there it
is a wake-up, so a future that is covered once stays covered. What is left is that a
poll that returns `Pending` leaves its future covered, and that a queue with waiters
has somebody who will drain it.
-/

namespace RefCount

open Lts

/-- Some waiter with `p` is outstanding, or was woken after the first `since` wake-ups. -/
def Sys.covered (s : Sys) (p : Waiter → Prop) (since : Nat) : Prop :=
  (∃ y, s.outstanding y ∧ p y) ∨ ∃ y ∈ s.wakes.drop since, p y

def Pc.draining : Pc → Bool
  | .releasePop _ _ => true
  | .wakeSetRegistered (.release _) _ => true
  | .wakeWaker (.release _) _ => true
  | _ => false

section
variable {cfg : Config} {s s' : Sys} {a : Act}

/-! ## Waiters are not lost -/

theorem Step.wakes (h : Step cfg s a s') : ∃ l, s'.wakes = s.wakes ++ l := by
  cases h with
  | wakeDrain _ => exact ⟨_, rfl⟩
  | wakeFull _ => exact ⟨_, rfl⟩
  | yield _ => exact ⟨_, rfl⟩
  | _ => exact ⟨[], (List.append_nil _).symm⟩

theorem Step.wakes_length (h : Step cfg s a s') : s.wakes.length ≤ s'.wakes.length := by
  obtain ⟨l, hl⟩ := h.wakes
  rw [hl, List.length_append]
  exact Nat.le_add_right _ _

theorem hand_cases {p : Pc} {x : Waiter} (h : p.hand = some x) :
    (∃ op, p = .wakeSetRegistered op x) ∨ ∃ op, p = .wakeWaker op x := by
  cases p with
  | wakeSetRegistered op y => cases h; exact .inl ⟨op, rfl⟩
  | wakeWaker op y => cases h; exact .inr ⟨op, rfl⟩
  | _ => cases h

theorem exec_busy (h : exec cfg s a = some s') {t : ThreadId} (ha : a.thread? = some t)
    (hp : (s.pc t).call.isSome = true) : ∃ b, a = .step t b := by
  cases a with
  | call u c =>
    cases ha
    simp only [exec] at h
    cases hpc : s.pc t with
    | done r => rw [hpc] at hp; cases hp
    | _ => rw [hpc] at h; cases h
  | step u b => cases ha; exact ⟨b, rfl⟩
  | _ => cases ha

theorem exec_hand (h : exec cfg s a = some s') {t : ThreadId} {x : Waiter} (hx : (s.pc t).hand = some x) :
    (s'.pc t).hand = some x ∨ s'.wakes = s.wakes ++ [x] := by
  by_cases ha : a.thread? = some t
  · rcases hand_cases hx with ⟨op, hpc⟩ | ⟨op, hpc⟩
    · obtain ⟨b, rfl⟩ := exec_busy h ha (by rw [hpc]; rfl)
      simp only [exec, Sys.stepThread, hpc, Option.some.injEq] at h
      subst h
      apply Or.inl
      rw [setPc_self]; rfl
    · obtain ⟨b, rfl⟩ := exec_busy h ha (by rw [hpc]; rfl)
      simp only [exec, Sys.stepThread, hpc, Option.some.injEq] at h
      subst h
      apply Or.inr
      cases op <;> rfl
  · rw [(exec_step h).pc_frame ha]
    exact .inl hx

theorem exec_outstanding (h : exec cfg s a = some s') {x : Waiter} (hx : s.outstanding x) :
    s'.outstanding x ∨ s'.wakes = s.wakes ++ [x] := by
  rcases hx with hx | ⟨t, hx⟩
  · cases exec_step h with
    | pop hpc hq =>
      rename_i t b op first y rest
      rw [hq] at hx
      rcases List.mem_cons.mp hx with rfl | hx
      · exact .inl (.inr ⟨t, by rw [setPc_self]; rfl⟩)
      · exact .inl (.inl hx)
    | push _ _ => exact .inl (.inl (List.mem_append_left _ hx))
    | _ => exact .inl (.inl hx)
  · rcases exec_hand h hx with hx' | hx'
    · exact .inl (.inr ⟨t, hx'⟩)
    · exact .inr hx'

theorem exec_covered (h : exec cfg s a = some s') {p : Waiter → Prop} {since : Nat} (hle : since ≤ s.wakes.length)
    (hc : s.covered p since) : s'.covered p since := by
  rcases hc with ⟨y, hy, hp⟩ | ⟨y, hy, hp⟩
  · rcases exec_outstanding h hy with hy' | hy'
    · exact .inl ⟨y, hy', hp⟩
    · refine .inr ⟨y, ?_, hp⟩
      rw [hy', List.drop_append_of_le_length hle]
      exact List.mem_append_right _ List.mem_cons_self
  · obtain ⟨l, hl⟩ := (exec_step h).wakes
    refine .inr ⟨y, ?_, hp⟩
    rw [hl, List.drop_append_of_le_length hle]
    exact List.mem_append_left _ hy

/-! ## Covered futures -/

/-- The waiters that count for a future are given by `R f w`, where `w` is the waker of
its last poll. -/
structure Covered (R : FutId → Waker → Waiter → Prop) (s : Sys) : Prop where
  since : ∀ f x, s.futs f = some x → x.since ≤ s.wakes.length
  waker : ∀ t f w x, (s.pc t).call = some (.poll f w) → s.futs f = some x → x.waker = some w
  storing : ∀ t f w x, s.pc t = .registeredStore f w → s.futs f = some x → s.covered (R f w) x.since
  pending : ∀ f x, s.futs f = some x → x.status = .pending → ∃ w, x.waker = some w ∧ s.covered (R f w) x.since

/-- A poll that relies on the flag of its future finds the future covered. -/
def FlagHolds (R : FutId → Waker → Waiter → Prop) (s : Sys) : Act → Prop
  | .step t _ =>
    match s.pc t with
    | .registeredLoad f w => s.registered? f = some true → ∀ x, s.futs f = some x → s.covered (R f w) x.since
    | _ => True
  | _ => True

theorem call_polls {p : Pc} {f : FutId} {w : Waker} (h : p.call = some (.poll f w)) : p.polls = some f := by
  cases p with
  | incrLoad op => cases op <;> cases h; rfl
  | incrCas op _ _ => cases op <;> cases h; rfl
  | blockLoad op => cases op <;> cases h <;> rfl
  | blockCas op _ _ => cases op <;> cases h <;> rfl
  | noStandardRefs op => cases op <;> cases h; rfl
  | releaseStore op => cases op <;> cases h
  | releasePop op _ => cases op <;> cases h
  | wakeSetRegistered op x =>
    cases op with
    | release op => cases op <;> cases h
    | queueFull => cases h; rfl
  | wakeWaker op x =>
    cases op with
    | release op => cases op <;> cases h
    | queueFull => cases h; rfl
  | done _ => cases h
  | _ => cases h; rfl

theorem Suspends.call {p : Pc} {f : FutId} {w : Waker} (h : Suspends s p f w) : p.call = some (.poll f w) := by
  cases h <;> rfl

variable {R : FutId → Waker → Waiter → Prop}

theorem exec_suspends {t : ThreadId} {b : Bool} {f : FutId} {w : Waker} {x : FutRec} (hR : ∀ f w, R f w ⟨w, f⟩)
    (h : exec cfg s (.step t b) = some s') (hs : Suspends s (s.pc t) f w) (hx : s.futs f = some x)
    (hle : x.since ≤ s.wakes.length) (hf : FlagHolds R s (.step t b)) : s'.covered (R f w) x.since := by
  generalize hpc : s.pc t = p at hs
  cases hs with
  | registered hr =>
    simp only [FlagHolds, hpc] at hf
    exact exec_covered h hle (hf hr x hx)
  | queueFull =>
    rename_i y
    exact exec_covered h hle (.inl ⟨y, .inr ⟨t, by rw [hpc]; rfl⟩, hR _ _⟩)
  | yield =>
    simp only [exec, Sys.stepThread, hpc, Option.some.injEq] at h
    subst h
    refine .inr ⟨⟨w, f⟩, ?_, hR f w⟩
    show _ ∈ (s.wakes ++ _).drop _
    rw [List.drop_append_of_le_length hle]
    exact List.mem_append_right _ List.mem_cons_self

theorem Covered.step_since (hw : Wf s) (hc : Covered R s) (h : Step cfg s a s') (f : FutId) (x' : FutRec)
    (hx' : s'.futs f = some x') : x'.since ≤ s'.wakes.length := by
  refine Nat.le_trans ?_ h.wakes_length
  cases hx : s.futs f with
  | none =>
    obtain ⟨_, fut, b, rfl, _⟩ := h.new hx hx'
    exact Nat.zero_le _
  | some x =>
    have hle := hc.since f x hx
    rcases h.evolves hx (hw.lt hx) with ⟨_, _, hn⟩ | ⟨y, hy, he⟩
    · rw [hn] at hx'; cases hx'
    · rw [hy, Option.some.injEq] at hx'
      subst hx'
      cases he with
      | begin _ => exact Nat.le_refl _
      | _ => exact hle

theorem Covered.polled (hw : Wf s) (hc : Covered R s) (h : Step cfg s a s') {t : ThreadId} {f : FutId} {w : Waker}
    {x' : FutRec} (ht : (s.pc t).call = some (.poll f w)) (hx' : s'.futs f = some x') :
    ∃ x, s.futs f = some x ∧ x'.since = x.since ∧ x'.waker = some w := by
  have hp := call_polls ht
  obtain ⟨x, hx, hs, _⟩ := hw.polls t f hp
  have hpol : x.status.isPolling = true := by rw [hs]; rfl
  have hwk := hc.waker t f w x ht hx
  refine ⟨x, hx, ?_⟩
  rcases h.evolves hx (hw.lt hx) with ⟨_, hs', _⟩ | ⟨y, hy, he⟩
  · rw [hpol] at hs'; cases hs'
  · rw [hy, Option.some.injEq] at hx'
    subst hx'
    cases he with
    | begin hs' => rw [hpol] at hs'; cases hs'
    | _ => exact ⟨rfl, hwk⟩

theorem Step.storing (h : Step cfg s a s') {t : ThreadId} {f : FutId} {w : Waker}
    (ht : s'.pc t = .registeredStore f w) : s.pc t = .registeredStore f w ∨ ⟨w, f⟩ ∈ s'.waiterQueue := by
  by_cases ha : a.thread? = some t
  · cases h with
    | push _ _ =>
      cases ha
      rw [setPc_self] at ht
      cases ht
      exact .inr (List.mem_append_right _ List.mem_cons_self)
    | begin _ hb =>
      cases ha
      rw [setPc_self] at ht
      subst ht; cases hb
    | beginPoll _ _ _ =>
      cases ha
      rw [setPc_self] at ht
      unfold pollStart at ht
      split at ht <;> cases ht
    | jump hj =>
      cases ha
      rw [setPc_self] at ht
      subst ht
      generalize s.pc t = p at hj
      cases hj
    | dropRef => cases ha
    | forgetRef => cases ha
    | dropFuture => cases ha
    | newFuture hn => cases hn <;> cases ha
    | _ => cases ha; simp at ht
  · rw [h.pc_frame ha] at ht
    exact .inl ht

theorem Covered.step (hR : ∀ f w, R f w ⟨w, f⟩) (hw : Wf s) (hc : Covered R s) (hf : FlagHolds R s a)
    (h : exec cfg s a = some s') : Covered R s' := by
  have hst := exec_step h
  refine ⟨hc.step_since hw hst, ?_, ?_, ?_⟩
  · intro t f w x' ht hx'
    rcases hst.call ht with ht' | rfl
    · obtain ⟨x, _, _, hwk⟩ := hc.polled hw hst ht' hx'
      exact hwk
    · cases hst with
      | begin _ hb => cases hb
      | beginPoll hpc hx hs =>
        simp only [setPc_futs, modifyFut_futs, if_true, hx, Option.map_some, Option.some.injEq] at hx'
        subst hx'; rfl
      | newFuture hn => cases hn
  · intro t f w x' ht hx'
    rcases hst.storing ht with ht' | hmem
    · obtain ⟨x, hx, hsince, _⟩ := hc.polled hw hst (by rw [ht']; rfl) hx'
      rw [hsince]
      exact exec_covered h (hc.since f x hx) (hc.storing t f w x ht' hx)
    · exact .inl ⟨⟨w, f⟩, .inl hmem, hR f w⟩
  · intro f x' hx' hp
    cases hx : s.futs f with
    | none =>
      obtain ⟨_, fut, b, rfl, _⟩ := hst.new hx hx'
      cases hp
    | some x =>
      have hle := hc.since f x hx
      rcases hst.evolves hx (hw.lt hx) with ⟨_, _, hn⟩ | ⟨y, hy, he⟩
      · rw [hn] at hx'; cases hx'
      · rw [hy, Option.some.injEq] at hx'
        subst hx'
        cases he with
        | same =>
          obtain ⟨w, hwk, hcov⟩ := hc.pending f x hx hp
          exact ⟨w, hwk, exec_covered h hle hcov⟩
        | clear _ =>
          obtain ⟨w, hwk, hcov⟩ := hc.pending _ x hx hp
          exact ⟨w, hwk, exec_covered h hle hcov⟩
        | block _ _ =>
          obtain ⟨w, hwk, hcov⟩ := hc.pending f x hx hp
          exact ⟨w, hwk, exec_covered h hle hcov⟩
        | dropInner _ =>
          obtain ⟨w, hwk, hcov⟩ := hc.pending f x hx hp
          exact ⟨w, hwk, exec_covered h hle hcov⟩
        | begin _ => cases hp
        | finish _ => cases hp
        | elsewhere _ => cases hp
        | suspend hs => exact ⟨_, hc.waker _ f _ x hs.call hx, exec_suspends (x := x) hR h hs hx hle hf⟩
        | store hpc =>
          refine ⟨_, hc.waker _ f _ x (by rw [hpc]; rfl) hx, ?_⟩
          exact exec_covered h hle (hc.storing _ f _ x hpc hx)

theorem Covered.new : Covered R Sys.new :=
  ⟨nofun, fun _ _ _ _ _ => nofun, nofun, nofun⟩

/-! ## The queue has a drain -/

def Drained (s : Sys) : Prop :=
  s.waiterQueue ≠ [] → isBlocked s.count = true ∨ ∃ t, (s.pc t).draining = true

/-- A waiter is pushed while the bit is set, or while an `unblock_refs` is still draining. -/
def PushHeeded (cfg : Config) (s : Sys) : Act → Prop
  | .step t _ =>
    match s.pc t with
    | .registerPush _ _ =>
      s.waiterQueue.length < cfg.maxWaiting → isBlocked s.count = true ∨ ∃ u, (s.pc u).draining = true
    | _ => True
  | _ => True

/-- Only the store of `REF_ALLOWED` clears the bit, and a drain follows it. -/
theorem exec_unblocks (h : exec cfg s a = some s') (hw : Wf s) (hb : isBlocked s.count = true) :
    isBlocked s'.count = true ∨ ∃ t, (s'.pc t).draining = true := by
  cases (exec_step h).effect hw with
  | quiet e _ _ => rw [e]; exact .inl hb
  | acquire _ e _ _ => rw [e, add_refIncr_blocked]; exact .inl hb
  | dropRef _ e _ _ => rw [e, sub_refIncr_blocked]; exact .inl hb
  | block _ _ he e _ _ =>
    rw [(not_isBlocked_iff _).mpr he] at hb; cases hb
  | pass _ _ _ e _ _ => rw [e]; exact .inl hb
  | mint _ _ _ _ e _ _ => rw [e]; exact .inl hb
  | lose e _ _ => rw [e]; exact .inl hb
  | @release t b op c hpc _ _ _ _ =>
    simp only [exec, Sys.stepThread, hpc, Option.some.injEq] at h
    subst h
    exact .inr ⟨t, by rw [setPc_self]; rfl⟩

theorem draining_cases {p : Pc} (h : p.draining = true) : (∃ op first, p = .releasePop op first) ∨
    ∃ op x, p = .wakeSetRegistered (.release op) x ∨ p = .wakeWaker (.release op) x := by
  cases p with
  | releasePop op first => exact .inl ⟨op, first, rfl⟩
  | wakeSetRegistered op x =>
    cases op with
    | release op => exact .inr ⟨op, x, .inl rfl⟩
    | queueFull => cases h
  | wakeWaker op x =>
    cases op with
    | release op => exact .inr ⟨op, x, .inr rfl⟩
    | queueFull => cases h
  | _ => cases h

/-- A drain ends only at an empty queue. -/
theorem exec_draining (h : exec cfg s a = some s') {t : ThreadId} (hd : (s.pc t).draining = true) :
    (s'.pc t).draining = true ∨ s'.waiterQueue = [] := by
  by_cases ha : a.thread? = some t
  · rcases draining_cases hd with ⟨op, first, hpc⟩ | ⟨op, x, hpc | hpc⟩
    · obtain ⟨b, rfl⟩ := exec_busy h ha (by rw [hpc]; rfl)
      simp only [exec, Sys.stepThread, hpc, Option.some.injEq] at h
      subst h
      unfold Sys.releasePop
      cases hq : s.waiterQueue with
      | nil =>
        apply Or.inr
        cases first <;> exact hq
      | cons y rest =>
        apply Or.inl
        simp only [setPc_self]; rfl
    · obtain ⟨b, rfl⟩ := exec_busy h ha (by rw [hpc]; rfl)
      simp only [exec, Sys.stepThread, hpc, Option.some.injEq] at h
      subst h
      apply Or.inl
      rw [setPc_self]; rfl
    · obtain ⟨b, rfl⟩ := exec_busy h ha (by rw [hpc]; rfl)
      simp only [exec, Sys.stepThread, hpc, Option.some.injEq] at h
      subst h
      apply Or.inl
      show ((Sys.setPc _ t _).pc t).draining = true
      rw [setPc_self]; rfl
  · rw [(exec_step h).pc_frame ha]
    exact .inl hd

theorem Step.waiterQueue (h : Step cfg s a s') (hp : PushHeeded cfg s a) (hq : s'.waiterQueue ≠ []) :
    s.waiterQueue ≠ [] ∨ isBlocked s.count = true ∨ ∃ t, (s.pc t).draining = true := by
  cases h with
  | pop _ hq' => exact .inl (by rw [hq']; exact List.cons_ne_nil _ _)
  | push hpc hl =>
    simp only [PushHeeded, hpc] at hp
    exact .inr (hp hl)
  | _ => exact .inl hq

theorem Drained.step (hw : Wf s) (hd : Drained s) (hp : PushHeeded cfg s a) (h : exec cfg s a = some s') :
    Drained s' := by
  intro hq
  have hst := exec_step h
  have hs : isBlocked s.count = true ∨ ∃ t, (s.pc t).draining = true := by
    rcases hst.waiterQueue hp hq with hq' | hs
    · exact hd hq'
    · exact hs
  rcases hs with hb | ⟨t, ht⟩
  · exact exec_unblocks h hw hb
  · rcases exec_draining h ht with ht' | hn
    · exact .inr ⟨t, ht'⟩
    · exact absurd hn hq

end

/-! ## No lost wake-up -/

/-- On a free lock at rest no waiter is left in the queue, and every pending future has
had the waker of its last poll called since that poll began. One that is pending
`elsewhere` sleeps on the other `RefCount`, which has its waker. -/
def NoLostWakeup (s : Sys) : Prop :=
  s.idle → isBlocked s.count = false → s.waiterQueue = [] ∧
    ∀ f x, s.futs f = some x → x.status = .pending → ∃ w, x.waker = some w ∧ ∃ y ∈ s.wakes.drop x.since, y.waker = w

def OfWaker (_ : FutId) (w : Waker) (y : Waiter) : Prop := y.waker = w

/-- What the step of a poll finds: a push is heeded by a release to come or under way,
and a set flag means that the waker of this poll will be called, or was. -/
def Registers (cfg : Config) (s : Sys) (a : Act) (_ : Sys) : Prop := PushHeeded cfg s a ∧ FlagHolds OfWaker s a

theorem idle_draining {s : Sys} (hi : s.idle) (t : ThreadId) : (s.pc t).draining = false := by
  obtain ⟨r, hr⟩ := hi t
  rw [hr]; rfl

theorem idle_hand {s : Sys} (hi : s.idle) (t : ThreadId) : (s.pc t).hand = none := by
  obtain ⟨r, hr⟩ := hi t
  rw [hr]; rfl

theorem noLostWakeup_of {s : Sys} (hd : Drained s) (hc : Covered OfWaker s) : NoLostWakeup s := by
  intro hi hb
  have hq : s.waiterQueue = [] := by
    by_contra hq
    rcases hd hq with hb' | ⟨t, ht⟩
    · rw [hb] at hb'; cases hb'
    · rw [idle_draining hi t] at ht; cases ht
  refine ⟨hq, ?_⟩
  intro f x hx hp
  obtain ⟨w, hw, ⟨y, hy | ⟨t, ht⟩, _⟩ | hwoken⟩ := hc.pending f x hx hp
  · rw [hq] at hy; cases hy
  · rw [idle_hand hi t] at ht; cases ht
  · exact ⟨w, hw, hwoken⟩

/-- In a run whose polls register as they should, no wake-up is lost. -/
theorem no_lost_wakeup (cfg : Config) (as : List Act) (h : AllSteps (exec cfg) (Registers cfg) Sys.new as) :
    AllStates (exec cfg) NoLostWakeup Sys.new as := by
  have hi : AllStates (exec cfg) (fun s => Wf s ∧ Drained s ∧ Covered OfWaker s) Sys.new as := by
    refine AllSteps.inv _ ?_ ⟨Wf.new, fun hq => absurd rfl hq, Covered.new⟩ h
    intro s a s' hi hg hst
    exact ⟨hi.1.step (exec_step hst), hi.2.1.step hi.1 hg.1 hst, hi.2.2.step (fun _ _ => rfl) hi.1 hg.2 hst⟩
  apply hi.imp
  intro s hs
  exact noLostWakeup_of hs.2.1 hs.2.2

/-- Thread 1 asks for a reference beside the `ExclusiveRef` of thread 0, polls its future
and stops before the push. -/
def pollBeforePush : List Act :=
  askExclusiveRef 0 ++
  [.call 1 .getRef, .step 1 false, .step 1 false, .step 1 false, .step 1 false, .step 1 false,
   .call 1 (.poll 0 7), .step 1 false, .step 1 false]

def dropExclusiveRef : List Act := [.call 0 .dropExclusiveRef, .step 0 false, .step 0 false, .step 0 false]

def pushAndStore : List Act := [.step 1 false, .step 1 false]

def wakeAndReturn : List Act := [.step 0 false, .step 0 false]

/-- The push comes before the release: the drain finds the waiter and wakes it. -/
theorem no_lost_wakeup_woken : ∃ s, run (exec ⟨2, false⟩) Sys.new
      (pollBeforePush ++ pushAndStore ++ dropExclusiveRef ++ wakeAndReturn) = some s ∧
    s.wakes = [⟨7, 0⟩] ∧ NoLostWakeup s := by
  have h := no_lost_wakeup ⟨2, false⟩ (pollBeforePush ++ pushAndStore ++ dropExclusiveRef ++ wakeAndReturn)
  have hg : AllSteps (exec ⟨2, false⟩) (Registers ⟨2, false⟩) Sys.new
      (pollBeforePush ++ pushAndStore ++ dropExclusiveRef ++ wakeAndReturn) := by
    have hload : ∀ P : Prop, some false = some true → P := nofun
    refine ⟨⟨trivial, trivial⟩, ⟨trivial, trivial⟩, ⟨trivial, trivial⟩, ⟨trivial, trivial⟩, ?_⟩
    refine ⟨⟨trivial, trivial⟩, ⟨trivial, trivial⟩, ⟨trivial, trivial⟩, ⟨trivial, trivial⟩, ⟨trivial, trivial⟩, ?_⟩
    refine ⟨⟨trivial, trivial⟩, ⟨trivial, trivial⟩, ⟨trivial, trivial⟩, ⟨trivial, hload _⟩, ?_⟩
    refine ⟨⟨fun _ => .inl rfl, trivial⟩, ⟨trivial, trivial⟩, ⟨trivial, trivial⟩, ⟨trivial, trivial⟩, ?_⟩
    exact ⟨⟨trivial, trivial⟩, ⟨trivial, trivial⟩, ⟨trivial, trivial⟩, ⟨trivial, trivial⟩, trivial⟩
  exact ⟨_, rfl, rfl, (h hg).last rfl⟩

/-- The whole release falls between the look at the bit and the push: nobody is left to
wake the waiter, and the lock is free. -/
theorem no_lost_wakeup_late_push : ∃ s, run (exec ⟨2, false⟩) Sys.new
      (pollBeforePush ++ dropExclusiveRef ++ pushAndStore) = some s ∧
    s.idle ∧ isBlocked s.count = false ∧ s.waiterQueue = [⟨7, 0⟩] ∧ s.wakes = [] ∧
    (∃ x, s.futs 0 = some x ∧ x.status = .pending) ∧ ¬ NoLostWakeup s := by
  have hidle : ∀ s, run (exec ⟨2, false⟩) Sys.new (pollBeforePush ++ dropExclusiveRef ++ pushAndStore) = some s →
      s.idle := by
    intro s hs t
    cases hs
    match t with
    | 0 => exact ⟨_, rfl⟩
    | 1 => exact ⟨_, rfl⟩
    | _ + 2 => exact ⟨_, rfl⟩
  refine ⟨_, rfl, hidle _ rfl, rfl, rfl, rfl, ⟨_, rfl, rfl⟩, ?_⟩
  intro h
  exact nomatch (h (hidle _ rfl) rfl).1

end RefCount
