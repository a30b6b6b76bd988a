import RefCount.Lock

/-!
# The futures that waiters point at

A waiter outlives the poll that made it: it is in the queue, or in the hands of a
thread that wakes it. The futures have no `Drop`, so nothing takes a waiter back
when its future ends.
-/

namespace RefCount

open Lts

def Pc.hand : Pc → Option Waiter
  | .wakeSetRegistered _ x => some x
  | .wakeWaker _ x => some x
  | _ => none

/-- A waiter that is queued, or popped and not yet woken. -/
def Sys.outstanding (s : Sys) (x : Waiter) : Prop := x ∈ s.waiterQueue ∨ ∃ t, (s.pc t).hand = some x

/-- The future whose flag the step ends: one that is dropped, or a
`FutureExclusiveRef` whose inner future is reset to `None`. -/
def Sys.ends (s : Sys) : Act → Option FutId
  | .dropFuture f => some f
  | .step t false =>
    match s.pc t with
    | .blockCas (.pollExclusiveRef f _) _ locals => if s.count = locals.refCount then some f else none
    | _ => none
  | _ => none

def WaitersLive (s : Sys) : Prop :=
  ∀ x, s.outstanding x → ∃ r, s.futs x.registered = some r ∧ r.fut.registered?.isSome = true

section
variable {cfg : Config} {s s' : Sys} {a : Act}

theorem Begins.hand {c : Call} {p : Pc} (h : Begins c p) : p.hand = none := by
  cases h <;> rfl

theorem pollStart_hand (f : FutId) (w : Waker) (fut : Fut) : (pollStart f w fut).hand = none := by
  unfold pollStart
  split <;> rfl

theorem Jump.hand {b : Bool} {p q : Pc} (h : Jump cfg s b p q) {x : Waiter} (hx : q.hand = some x) :
    p = .registerPush x.registered x.waker := by
  cases h with
  | queueFull _ => cases hx; rfl
  | _ => cases hx

theorem Step.outstanding (h : Step cfg s a s') {x : Waiter} (hx : s'.outstanding x) :
    s.outstanding x ∨ ∃ t b, a = .step t b ∧ s.pc t = .registerPush x.registered x.waker := by
  rcases hx with hx | ⟨u, hx⟩
  · cases h with
    | pop hpc hq =>
      apply Or.inl
      apply Or.inl
      rw [hq]; exact List.mem_cons_of_mem _ hx
    | push hpc hl =>
      rcases List.mem_append.mp hx with hx | hx
      · exact .inl (.inl hx)
      · rw [List.mem_singleton] at hx
        subst hx
        exact .inr ⟨_, _, rfl, hpc⟩
    | _ => exact .inl (.inl hx)
  · by_cases ha : a.thread? = some u
    · cases h with
      | begin _ hb => cases ha; rw [setPc_self, hb.hand] at hx; cases hx
      | beginPoll _ _ _ => cases ha; rw [setPc_self, pollStart_hand] at hx; cases hx
      | jump hj => cases ha; rw [setPc_self] at hx; exact .inr ⟨_, _, rfl, hj.hand hx⟩
      | pop hpc hq =>
        cases ha
        rw [setPc_self] at hx
        cases hx
        apply Or.inl
        apply Or.inl
        rw [hq]; exact List.mem_cons_self
      | clear hpc =>
        cases ha
        rw [setPc_self] at hx
        exact .inl (.inr ⟨u, by rw [hpc]; exact hx⟩)
      | dropRef => cases ha
      | forgetRef => cases ha
      | dropFuture => cases ha
      | newFuture hn => cases hn <;> cases ha
      | _ => cases ha; simp [Pc.hand] at hx
    · rw [h.pc_frame ha] at hx
      exact .inl (.inr ⟨u, hx⟩)

theorem Step.kept (h : Step cfg s a s') (hw : Wf s) {f : FutId} {x : FutRec} (hx : s.futs f = some x)
    (he : s.ends a ≠ some f) : ∃ x', s'.futs f = some x' ∧ x'.fut.kind.hasFlag = x.fut.kind.hasFlag := by
  rcases h.evolves hx (hw.lt hx) with ⟨rfl, _, _⟩ | ⟨x', hx', hev⟩
  · exact absurd rfl he
  · refine ⟨x', hx', ?_⟩
    cases hev with
    | clear _ => exact congrArg FutKind.hasFlag (kind_setRegistered x.fut false)
    | block hpc hc => exact absurd (by simp only [Sys.ends, hpc, if_pos hc]) he
    | store _ => exact congrArg FutKind.hasFlag (kind_setRegistered x.fut true)
    | dropInner hpc =>
      have hfit := (hw.polled_at hpc rfl hx).2
      rw [of_decide_eq_true hfit]; rfl
    | _ => rfl

theorem WaitersLive.step (hl : WaitersLive s) (hw : Wf s) (h : Step cfg s a s')
    (he : ∀ f ∈ s.ends a, ∀ x, s.outstanding x → x.registered ≠ f) : WaitersLive s' := by
  intro x hx
  rcases h.outstanding hx with ho | ⟨t, b, rfl, hpc⟩
  · obtain ⟨r, hr, hflag⟩ := hl x ho
    obtain ⟨r', hr', hk⟩ := h.kept hw hr fun e => he _ e x ho rfl
    refine ⟨r', hr', ?_⟩
    rw [registered?_isSome, hk, ← registered?_isSome]; exact hflag
  · obtain ⟨r, hr, _, hfit⟩ := hw.polls_at hpc rfl
    obtain ⟨r', hr', hk⟩ := h.kept hw hr (by cases b <;> simp [Sys.ends, hpc])
    refine ⟨r', hr', ?_⟩
    rw [registered?_isSome, hk]; exact hfit

theorem exec_ends {f : FutId} (h : exec cfg s a = some s') (he : s.ends a = some f) :
    (∀ x, s.outstanding x → s'.outstanding x) ∧ ∀ r, s'.futs f = some r → r.fut.registered?.isSome = false := by
  cases a with
  | dropFuture g =>
    cases he
    cases exec_step h with
    | newFuture hn => cases hn
    | dropFuture _ _ =>
      refine ⟨fun x hx => hx, fun r hr => ?_⟩
      simp at hr
  | step t b =>
    cases b with
    | true => cases he
    | false =>
      simp only [Sys.ends] at he
      split at he
      · rename_i g w n l hpc
        split at he
        · rename_i hc
          cases he
          simp only [exec, Sys.stepThread, hpc, Sys.blockCas, hc, true_and, if_true, Sys.blockOk,
            Option.some.injEq] at h
          subst h
          refine ⟨fun x hx => ?_, fun r hr => ?_⟩
          · rcases hx with hx | ⟨u, hu⟩
            · exact .inl hx
            · refine .inr ⟨u, ?_⟩
              have hne : u ≠ t := by
                intro e
                rw [e, hpc] at hu; cases hu
              rw [setPc_pc, if_neg hne]; exact hu
          · simp only [setPc_futs, modifyFut_futs, if_true] at hr
            obtain ⟨y, _, rfl⟩ := Option.map_eq_some_iff.mp hr
            rfl
        · cases he
      · cases he
  | _ => cases he

end

/-- In a run, every outstanding waiter points at a future that exists in every state,
if and only if no future is dropped, and no inner future reset, while a waiter of it
is outstanding. -/
theorem waiters_point_at_futures (cfg : Config) (as : List Act) :
    AllStates (exec cfg) WaitersLive Sys.new as ↔
    AllSteps (exec cfg) (fun s a _ => ∀ f ∈ s.ends a, ∀ x, s.outstanding x → x.registered ≠ f) Sys.new as := by
  constructor
  · intro hl
    refine AllStates.steps (G := fun _ _ _ => True) (fun _ => True) ?_ trivial (allSteps_of fun _ _ _ _ _ => trivial) hl
    intro s a s' _ _ _ hl' hst
    refine ⟨?_, trivial⟩
    intro f hf x hx e
    obtain ⟨hout, hgone⟩ := exec_ends hst hf
    obtain ⟨r, hr, hflag⟩ := hl' x (hout x hx)
    rw [e] at hr
    rw [hgone r hr] at hflag; cases hflag
  · intro hc
    have hi : AllStates (exec cfg) (fun s => Wf s ∧ WaitersLive s) Sys.new as := by
      refine AllSteps.inv _ ?_ ⟨Wf.new, ?_⟩ hc
      · intro s a s' hi he hst
        exact ⟨hi.1.step (exec_step hst), hi.2.step hi.1 (exec_step hst) he⟩
      · intro x hx
        rcases hx with hx | ⟨t, hx⟩ <;> cases hx
    exact hi.imp fun s hs => hs.2

/-- A request for a reference registers while an `ExclusiveRef` is live, and is cancelled. -/
def cancelRegistered : List Act :=
  askExclusiveRef 0 ++
  [.call 1 .getRef, .step 1 false, .step 1 false, .step 1 false, .step 1 false, .step 1 false,
   .call 1 (.poll 0 7), .step 1 false, .step 1 false, .step 1 false, .step 1 false,
   .dropFuture 0]

/-- The queue keeps the waiter of the dropped future, and the next `unblock_refs` pops
it and is about to write its flag. -/
theorem waiters_point_at_futures_cancelled :
    (∃ s, run (exec ⟨2, false⟩) Sys.new cancelRegistered = some s ∧ s.waiterQueue = [⟨7, 0⟩] ∧ s.futs 0 = none) ∧
    (∃ s, run (exec ⟨2, false⟩) Sys.new
      (cancelRegistered ++ [.call 0 .dropExclusiveRef, .step 0 false, .step 0 false]) = some s ∧
      s.pc 0 = .wakeSetRegistered (.release .dropExclusiveRef) ⟨7, 0⟩ ∧ s.futs 0 = none) ∧
    ¬ AllStates (exec ⟨2, false⟩) WaitersLive Sys.new cancelRegistered := by
  refine ⟨⟨_, rfl, rfl, rfl⟩, ⟨_, rfl, rfl, rfl⟩, ?_⟩
  intro h
  obtain ⟨r, hr, _⟩ := h.last rfl ⟨7, 0⟩ (.inl (List.mem_singleton.mpr rfl))
  cases hr

end RefCount
