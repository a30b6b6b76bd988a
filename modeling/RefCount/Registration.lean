import RefCount.Wakeup

/-!
# The `registered` flag and the queue

The poller sets the flag after its push, the releaser clears it after its pop. A
future has at most one waiter between its push and its clear; `Place` is where that
waiter is. `Turn` says what a step does to the flag and to the waiter of one future.
-/

namespace RefCount

open Lts

/-- The future whose flag a releaser is about to clear. -/
def Pc.popped : Pc → Option FutId
  | .wakeSetRegistered (.release _) x => some x.registered
  | _ => none

/-- A poll is about to push, or about to wake itself because the queue is full. -/
def Pc.pushes (f : FutId) : Pc → Prop
  | .registerPush g _ => g = f
  | .wakeSetRegistered .queueFull x => x.registered = f
  | _ => False

def Pc.stores (f : FutId) : Pc → Prop
  | .registeredStore g _ => g = f
  | _ => False

inductive Place where
  | nowhere
  | queue
  | hand (t : ThreadId)
  deriving DecidableEq

def Sys.queued (s : Sys) (f : FutId) : Nat := s.waiterQueue.countP fun x => x.registered = f

structure Sys.placed (s : Sys) (f : FutId) (l : Place) : Prop where
  queue : s.queued f = if l = .queue then 1 else 0
  hand : ∀ t, (s.pc t).popped = some f ↔ l = .hand t

/-- What the flag `b` of a future says about its waiter. Between the push and the store
the flag lags behind. -/
structure FlagAgrees (s : Sys) (f : FutId) (b : Bool) (l : Place) : Prop where
  pushes : ∀ t, (s.pc t).pushes f → b = false
  stores : ∀ t, (s.pc t).stores f → b = false
  agrees : (∀ t, ¬ (s.pc t).stores f) → (b = true ↔ l ≠ .nowhere)

structure Registered (s : Sys) : Prop where
  known : ∀ x, s.outstanding x → x.registered < s.nextFut
  flag : ∀ f b, s.registered? f = some b → ∃ l, s.placed f l ∧ FlagAgrees s f b l

/-- The flag is stored while the waiter is still to be cleared. -/
def StoreInTime (s : Sys) : Act → Prop
  | .step t _ =>
    match s.pc t with
    | .registeredStore f _ => 0 < s.queued f ∨ ∃ u, (s.pc u).popped = some f
    | _ => True
  | _ => True

/-! ## What a step does to one future -/

/-- The waiters of `f` and the places that write its flag are as they were. -/
structure Unmoved (s s' : Sys) (f : FutId) : Prop where
  queued : s'.queued f = s.queued f
  popped : ∀ t, (s'.pc t).popped = some f ↔ (s.pc t).popped = some f
  stores : ∀ t, (s'.pc t).stores f ↔ (s.pc t).stores f

def Sys.others (s s' : Sys) (t : ThreadId) : Prop := ∀ u, u ≠ t → s'.pc u = s.pc u

inductive Turn (s s' : Sys) (f : FutId) : Act → Prop
  | quiet {a : Act} : Unmoved s s' f → (∀ b, s'.registered? f = some b → s.registered? f = some b) →
      (∀ t, (s'.pc t).pushes f → (s.pc t).pushes f ∨ s.registered? f ≠ some true) → Turn s s' f a
  | new {a : Act} : f = s.nextFut → Unmoved s s' f → (∀ b, s'.registered? f = some b → b = false) →
      Turn s s' f a
  | push {t : ThreadId} {b : Bool} {w : Waker} : s.pc t = .registerPush f w → s'.pc t = .registeredStore f w →
      s'.queued f = s.queued f + 1 → s'.registered? f = s.registered? f → s.others s' t → Turn s s' f (.step t b)
  | store {t : ThreadId} {b : Bool} {w : Waker} {r : Res} : s.pc t = .registeredStore f w → s'.pc t = .done r →
      s'.queued f = s.queued f → (∀ c, s'.registered? f = some c → s.registered? f ≠ none ∧ c = true) →
      s.others s' t → Turn s s' f (.step t b)
  | pop {t : ThreadId} {b : Bool} {op : ReleaseOp} {first : Bool} {x : Waiter} : s.pc t = .releasePop op first →
      s'.pc t = .wakeSetRegistered (.release op) x → x.registered = f → s'.queued f + 1 = s.queued f →
      s'.registered? f = s.registered? f → s.others s' t → Turn s s' f (.step t b)
  | clear {t : ThreadId} {b : Bool} {op : WakeOp} {x : Waiter} : s.pc t = .wakeSetRegistered op x →
      s'.pc t = .wakeWaker op x → x.registered = f → s'.queued f = s.queued f →
      (∀ c, s'.registered? f = some c → s.registered? f ≠ none ∧ c = false) → s.others s' t →
      Turn s s' f (.step t b)

section
variable {cfg : Config} {s s' : Sys} {a : Act} {f : FutId}

theorem queued_congr (h : s'.waiterQueue = s.waiterQueue) : s'.queued f = s.queued f := by
  unfold Sys.queued
  rw [h]

theorem Unmoved.of_pc {t : ThreadId} {p q : Pc} (hpc : s.pc t = p) (hs : s'.pc = Function.update s.pc t q)
    (hq : s'.queued f = s.queued f) (hp : p.popped = some f ↔ q.popped = some f)
    (hst : p.stores f ↔ q.stores f) : Unmoved s s' f := by
  refine ⟨hq, ?_, ?_⟩
  · intro u
    rw [hs, Function.update_apply]
    split
    · rename_i e; subst e
      rw [hpc]; exact hp.symm
    · exact Iff.rfl
  · intro u
    rw [hs, Function.update_apply]
    split
    · rename_i e; subst e
      rw [hpc]; exact hst.symm
    · exact Iff.rfl

theorem registered?_modifyFut {g : FutId} {k : FutRec → FutRec}
    (hk : ∀ x b, (k x).fut.registered? = some b → x.fut.registered? = some b) (b : Bool)
    (h : (s.modifyFut g k).registered? f = some b) : s.registered? f = some b := by
  unfold Sys.registered? at h ⊢
  rw [modifyFut_futs] at h
  split at h
  · rename_i e; subst e
    cases hx : s.futs f with
    | none => rw [hx] at h; cases h
    | some x =>
      rw [hx] at h
      exact hk x b h
  · exact h

/-- A step that does nothing to the flag of `f`, nor to its waiter. -/
theorem Turn.frame {t : ThreadId} {p q : Pc} (hpc : s.pc t = p) (hs : s'.pc = Function.update s.pc t q)
    (hq : s'.queued f = s.queued f) (hb : ∀ b, s'.registered? f = some b → s.registered? f = some b)
    (hp : p.popped = some f ↔ q.popped = some f) (hst : p.stores f ↔ q.stores f)
    (hpush : q.pushes f → p.pushes f ∨ s.registered? f ≠ some true) : Turn s s' f a := by
  refine .quiet (Unmoved.of_pc hpc hs hq hp hst) hb ?_
  intro u
  rw [hs, Function.update_apply]
  split
  · rename_i e; subst e
    rw [hpc]; exact hpush
  · exact .inl

theorem Turn.of_pc {t : ThreadId} {p q : Pc} (hpc : s.pc t = p) (hs : s'.pc = Function.update s.pc t q)
    (hq : s'.waiterQueue = s.waiterQueue) (hb : ∀ b, s'.registered? f = some b → s.registered? f = some b)
    (hp : p.popped = none) (hp' : q.popped = none) (hst : ¬ p.stores f) (hst' : ¬ q.stores f)
    (hpush : q.pushes f → p.pushes f ∨ s.registered? f ≠ some true) : Turn s s' f a := by
  refine .frame hpc hs (queued_congr hq) hb ?_ ?_ hpush
  · rw [hp, hp']
  · exact ⟨fun h => absurd h hst, fun h => absurd h hst'⟩

theorem others_setPc {t : ThreadId} {q : Pc} (hs : s'.pc = Function.update s.pc t q) : s.others s' t := by
  intro u hu
  rw [hs, Function.update_of_ne hu]

/-- Program counters with no part in the flag of `f`. -/
def Pc.aside (f : FutId) (p : Pc) : Prop := p.popped = none ∧ ¬ p.stores f ∧ ¬ p.pushes f

theorem Begins.aside {c : Call} {p : Pc} (h : Begins c p) : p.aside f := by
  cases h <;> exact ⟨rfl, id, id⟩

theorem pollStart_aside (g : FutId) (w : Waker) (fut : Fut) : (pollStart g w fut).aside f := by
  unfold pollStart
  split <;> exact ⟨rfl, id, id⟩

theorem Requests.aside {p : Pc} {fut : Fut} {h : Bool} (hr : Requests s p fut h) : p.aside f := by
  cases hr <;> exact ⟨rfl, id, id⟩

theorem Adds.aside {p : Pc} {op : IncrOp} (h : Adds p op) : p.aside f := by
  cases h <;> exact ⟨rfl, id, id⟩

theorem Turn.of_aside {t : ThreadId} {p q : Pc} (hpc : s.pc t = p) (hs : s'.pc = Function.update s.pc t q)
    (hq : s'.waiterQueue = s.waiterQueue) (hb : ∀ b, s'.registered? f = some b → s.registered? f = some b)
    (hp : p.aside f) (hp' : q.aside f) : Turn s s' f a :=
  .of_pc hpc hs hq hb hp.1 hp'.1 hp.2.1 hp'.2.1 fun h => absurd h hp'.2.2

theorem Jump.turn {t : ThreadId} {b : Bool} {q : Pc} (h : Jump cfg s b (s.pc t) q) :
    Turn s (s.setPc t q) f (.step t b) := by
  generalize hpc : s.pc t = p at h
  cases h with
  | notRegistered hr =>
    refine .of_pc hpc rfl rfl (fun _ => id) rfl rfl id id ?_
    intro e
    have e : _ = f := e
    subst e; exact .inr hr
  | queueFull _ => exact .of_pc hpc rfl rfl (fun _ => id) rfl rfl id id .inl
  | _ => exact .of_aside hpc rfl rfl (fun _ => id) ⟨rfl, id, id⟩ ⟨rfl, id, id⟩

theorem registered?_addFut {fut : Fut} {h : Bool} (hne : f ≠ s.nextFut) :
    (s.addFut fut h).registered? f = s.registered? f := by
  unfold Sys.registered?
  rw [addFut_futs, if_neg hne]

theorem Fut.new_registered? {p : Pc} {fut : Fut} {b : Bool}
    (h : (∃ hold, Requests s p fut hold) ∨ Constructs a fut) (hb : fut.registered? = some b) : b = false := by
  rcases h with ⟨_, h⟩ | h
  · cases h <;> cases hb <;> rfl
  · cases h with
    | @newFutureExclusiveRef inner =>
      match inner with
      | none => cases hb
      | some .this => cases hb; rfl
      | some .other => cases hb
    | _ => cases hb; rfl

theorem registered?_add {p : Pc} {fut : Fut} {h : Bool} (hn : (∃ hold, Requests s p fut hold) ∨ Constructs a fut)
    (b : Bool) (hb : (s.addFut fut h).registered? s.nextFut = some b) : b = false := by
  unfold Sys.registered? at hb
  rw [addFut_futs, if_pos rfl] at hb
  exact Fut.new_registered? hn hb

theorem setRegistered_registered? {x : FutRec} {b c : Bool} (h : (x.fut.setRegistered b).registered? = some c) :
    x.fut.registered? ≠ none ∧ c = b := by
  rw [registered?_setRegistered, ← registered?_isSome] at h
  cases hx : x.fut.registered? with
  | none => rw [hx] at h; cases h
  | some d =>
    rw [hx] at h
    cases h
    exact ⟨nofun, rfl⟩

theorem registered?_write {g : FutId} {k : FutRec → FutRec} {b : Bool}
    (hk : ∀ x, (k x).fut = x.fut.setRegistered b) (c : Bool) (h : (s.modifyFut g k).registered? g = some c) :
    s.registered? g ≠ none ∧ c = b := by
  unfold Sys.registered? at h ⊢
  rw [modifyFut_futs, if_pos rfl] at h
  cases hx : s.futs g with
  | none => rw [hx] at h; cases h
  | some x =>
    rw [hx] at h
    have h : (k x).fut.registered? = some c := h
    rw [hk] at h
    exact setRegistered_registered? h

theorem registered?_modifyFut_ne {g : FutId} {k : FutRec → FutRec} (hne : f ≠ g) :
    (s.modifyFut g k).registered? f = s.registered? f := by
  unfold Sys.registered?
  rw [modifyFut_futs, if_neg hne]

theorem queued_cons {x : Waiter} {rest : List Waiter} (hq : s.waiterQueue = x :: rest)
    (hq' : s'.waiterQueue = rest) : s.queued f = s'.queued f + if x.registered = f then 1 else 0 := by
  unfold Sys.queued
  rw [hq, hq', List.countP_cons]
  simp

theorem queued_concat {x : Waiter} (hq : s'.waiterQueue = s.waiterQueue ++ [x]) :
    s'.queued f = s.queued f + if x.registered = f then 1 else 0 := by
  unfold Sys.queued
  rw [hq, List.countP_append, List.countP_singleton]
  simp

theorem Step.turn (h : Step cfg s a s') (f : FutId) : Turn s s' f a := by
  have hkeep : ∀ b, s.registered? f = some b → s.registered? f = some b := fun _ => id
  cases h with
  | begin hpc hb => exact .of_aside hpc rfl rfl hkeep ⟨rfl, id, id⟩ hb.aside
  | beginUnblock hpc _ => exact .of_aside hpc rfl rfl hkeep ⟨rfl, id, id⟩ ⟨rfl, id, id⟩
  | beginDrop hpc _ => exact .of_aside hpc rfl rfl hkeep ⟨rfl, id, id⟩ ⟨rfl, id, id⟩
  | beginPoll hpc _ _ =>
    exact .of_aside hpc rfl rfl (registered?_modifyFut fun _ _ => id) ⟨rfl, id, id⟩ (pollStart_aside _ _ _)
  | jump hj => exact hj.turn
  | request hr =>
    rename_i t b fut hold
    by_cases e : f = s.nextFut
    · subst e
      refine .new rfl (Unmoved.of_pc rfl rfl rfl ?_ ?_) (registered?_add (a := .forgetRef) (.inl ⟨_, hr⟩))
      · rw [(hr.aside (f := s.nextFut)).1]; rfl
      · exact ⟨fun h => absurd h hr.aside.2.1, fun h => h.elim⟩
    · refine .of_aside rfl rfl rfl ?_ hr.aside ⟨rfl, id, id⟩
      intro b hb
      exact (registered?_addFut e).symm.trans hb
  | panic ha _ _ => exact .of_aside rfl rfl rfl hkeep ha.aside ⟨rfl, id, id⟩
  | panicPoll ha _ => exact .of_aside rfl rfl rfl (registered?_modifyFut fun _ _ => id) ha.aside ⟨rfl, id, id⟩
  | acquire hpc _ _ => exact .of_aside hpc rfl rfl hkeep ⟨rfl, id, id⟩ ⟨rfl, id, id⟩
  | acquirePoll hpc _ =>
    exact .of_aside hpc rfl rfl (registered?_modifyFut fun _ _ => id) ⟨rfl, id, id⟩ ⟨rfl, id, id⟩
  | blockAsk hpc _ _ => exact .of_aside hpc rfl rfl hkeep ⟨rfl, id, id⟩ ⟨rfl, id, id⟩
  | blockUser hpc _ _ => exact .of_aside hpc rfl rfl hkeep ⟨rfl, id, id⟩ ⟨rfl, id, id⟩
  | blockPollBlocked hpc _ =>
    exact .of_aside hpc rfl rfl (registered?_modifyFut fun _ _ => id) ⟨rfl, id, id⟩ ⟨rfl, id, id⟩
  | blockPollExclusive hpc _ =>
    exact .of_aside hpc rfl rfl (registered?_modifyFut fun _ _ => nofun) ⟨rfl, id, id⟩ ⟨rfl, id, id⟩
  | grant hpc _ _ => exact .of_aside hpc rfl rfl hkeep ⟨rfl, id, id⟩ ⟨rfl, id, id⟩
  | grantPoll hpc _ =>
    exact .of_aside hpc rfl rfl (registered?_modifyFut fun _ _ => id) ⟨rfl, id, id⟩ ⟨rfl, id, id⟩
  | release hpc => exact .of_aside hpc rfl rfl hkeep ⟨rfl, id, id⟩ ⟨rfl, id, id⟩
  | pop hpc hq =>
    rename_i t b op first x rest
    have hc : s.queued f = (Sys.setPc { s with waiterQueue := rest } t (.wakeSetRegistered (.release op) x)).queued f +
        if x.registered = f then 1 else 0 := queued_cons hq rfl
    by_cases e : x.registered = f
    · rw [if_pos e] at hc
      exact .pop hpc (setPc_self _ _) e hc.symm rfl (others_setPc rfl)
    · rw [if_neg e] at hc
      refine .frame hpc rfl hc.symm hkeep ?_ Iff.rfl False.elim
      simp [Pc.popped, e]
  | clear hpc =>
    rename_i t b op x
    by_cases e : x.registered = f
    · subst e
      exact .clear hpc (setPc_self _ _) rfl rfl (registered?_write (fun _ => rfl)) (others_setPc rfl)
    · refine .frame hpc rfl rfl ?_ ?_ Iff.rfl False.elim
      · intro c hc
        exact (registered?_modifyFut_ne fun e' => e e'.symm).symm.trans hc
      · cases op with
        | release op => simp [Pc.popped, e]
        | queueFull => exact Iff.rfl
  | wakeDrain hpc => exact .of_aside hpc rfl rfl hkeep ⟨rfl, id, id⟩ ⟨rfl, id, id⟩
  | wakeFull hpc =>
    exact .of_aside hpc rfl rfl (registered?_modifyFut fun _ _ => id) ⟨rfl, id, id⟩ ⟨rfl, id, id⟩
  | registered hpc _ =>
    exact .of_aside hpc rfl rfl (registered?_modifyFut fun _ _ => id) ⟨rfl, id, id⟩ ⟨rfl, id, id⟩
  | push hpc hl =>
    rename_i t b g w
    have hc : (Sys.setPc { s with waiterQueue := s.waiterQueue ++ [⟨w, g⟩] } t (.registeredStore g w)).queued f =
        s.queued f + if Waiter.registered ⟨w, g⟩ = f then 1 else 0 := queued_concat rfl
    by_cases e : g = f
    · subst e
      rw [if_pos rfl] at hc
      exact .push hpc (setPc_self _ _) hc rfl (others_setPc rfl)
    · rw [if_neg e] at hc
      exact .frame hpc rfl hc hkeep Iff.rfl ⟨fun h => h.elim, fun h => absurd h e⟩ False.elim
  | register hpc =>
    rename_i t b g w
    by_cases e : g = f
    · subst e
      exact .store hpc (setPc_self _ _) rfl (registered?_write (fun _ => rfl)) (others_setPc rfl)
    · refine .frame hpc rfl rfl ?_ Iff.rfl ⟨fun h => absurd h e, fun h => h.elim⟩ False.elim
      intro c hc
      exact (registered?_modifyFut_ne fun e' => e e'.symm).symm.trans hc
  | yield hpc =>
    exact .of_aside hpc rfl rfl (registered?_modifyFut fun _ _ => id) ⟨rfl, id, id⟩ ⟨rfl, id, id⟩
  | otherPending hpc =>
    exact .of_aside hpc rfl rfl (registered?_modifyFut fun _ _ => id) ⟨rfl, id, id⟩ ⟨rfl, id, id⟩
  | otherReady hpc =>
    exact .of_aside hpc rfl rfl (registered?_modifyFut fun _ _ => nofun) ⟨rfl, id, id⟩ ⟨rfl, id, id⟩
  | dropRef _ => exact .quiet ⟨rfl, fun _ => Iff.rfl, fun _ => Iff.rfl⟩ hkeep fun _ => .inl
  | forgetRef _ => exact .quiet ⟨rfl, fun _ => Iff.rfl, fun _ => Iff.rfl⟩ hkeep fun _ => .inl
  | @dropFuture g x _ _ =>
    refine .quiet ⟨rfl, fun _ => Iff.rfl, fun _ => Iff.rfl⟩ ?_ fun _ => .inl
    intro b hb
    have hb : ((Function.update s.futs g none f).bind fun x => x.fut.registered?) = some b := hb
    by_cases e : f = g
    · subst e
      rw [Function.update_self] at hb; cases hb
    · rw [Function.update_of_ne e] at hb; exact hb
  | newFuture hn =>
    by_cases e : f = s.nextFut
    · subst e
      exact .new rfl ⟨rfl, fun _ => Iff.rfl, fun _ => Iff.rfl⟩ (registered?_add (p := .done .unit) (.inr hn))
    · refine .quiet ⟨rfl, fun _ => Iff.rfl, fun _ => Iff.rfl⟩ ?_ fun _ => .inl
      intro b hb
      exact (registered?_addFut e).symm.trans hb

/-! ## The invariant -/

theorem placed_unmoved {l : Place} (hp : s.placed f l) (hu : Unmoved s s' f) : s'.placed f l :=
  ⟨hu.queued.trans hp.queue, fun t => (hu.popped t).trans (hp.hand t)⟩

theorem FlagAgrees.unmoved {b : Bool} {l : Place} (ha : FlagAgrees s f b l) (hb : s.registered? f = some b)
    (hu : Unmoved s s' f) (hp : ∀ t, (s'.pc t).pushes f → (s.pc t).pushes f ∨ s.registered? f ≠ some true) :
    FlagAgrees s' f b l := by
  refine ⟨?_, ?_, ?_⟩
  · intro t ht
    rcases hp t ht with ht' | hn
    · exact ha.pushes t ht'
    · rw [hb] at hn
      cases b with
      | false => rfl
      | true => exact absurd rfl hn
  · intro t ht
    exact ha.stores t ((hu.stores t).mp ht)
  · intro hn
    exact ha.agrees fun t ht => hn t ((hu.stores t).mpr ht)

theorem pushes_polls {p : Pc} (h : p.pushes f) : p.polls = some f := by
  cases p with
  | registerPush g w => exact congrArg some h
  | wakeSetRegistered op x =>
    cases op with
    | release op => exact h.elim
    | queueFull => exact congrArg some h
  | _ => exact h.elim

theorem stores_polls {p : Pc} (h : p.stores f) : p.polls = some f := by
  cases p with
  | registeredStore g w => exact congrArg some h
  | _ => exact h.elim

theorem popped_hand {p : Pc} (h : p.popped = some f) : ∃ x, p.hand = some x ∧ x.registered = f := by
  cases p with
  | wakeSetRegistered op x =>
    cases op with
    | release op => exact ⟨x, rfl, Option.some.inj h⟩
    | queueFull => cases h
  | _ => cases h

theorem Registered.placed_new (hr : Registered s) : s.placed s.nextFut .nowhere := by
  refine ⟨?_, ?_⟩
  · show s.queued s.nextFut = 0
    unfold Sys.queued
    rw [List.countP_eq_zero]
    intro x hx e
    exact Nat.ne_of_lt (hr.known x (.inl hx)) (of_decide_eq_true e)
  · intro t
    refine ⟨fun h => ?_, nofun⟩
    obtain ⟨x, hx, e⟩ := popped_hand h
    exact absurd e (Nat.ne_of_lt (hr.known x (.inr ⟨t, hx⟩)))

theorem FlagAgrees.polled (hw : Wf s) {b : Bool} {l : Place} (ha : FlagAgrees s f b l) {t : ThreadId}
    (ht : (s.pc t).polls = some f) (hn : ¬ (s.pc t).stores f) : b = true ↔ l ≠ .nowhere := by
  apply ha.agrees
  intro u hu
  have e := hw.polls_inj ht (stores_polls hu)
  subst e
  exact hn hu

theorem FlagAgrees.nowhere {b : Bool} {l : Place} (h : b = true ↔ l ≠ .nowhere) (hb : b = false) : l = .nowhere := by
  by_contra hl
  rw [h.mpr hl] at hb; cases hb

theorem Registered.push (hw : Wf s) {b : Bool} {l : Place} (hp : s.placed f l) (ha : FlagAgrees s f b l)
    {t : ThreadId} {w : Waker} (hpc : s.pc t = .registerPush f w) (hpc' : s'.pc t = .registeredStore f w)
    (hq : s'.queued f = s.queued f + 1) (ho : s.others s' t) : s'.placed f .queue ∧ FlagAgrees s' f b .queue := by
  have hb : b = false := ha.pushes t (by rw [hpc]; exact rfl)
  have hl := FlagAgrees.nowhere (ha.polled hw (t := t) (by rw [hpc]; rfl) (by rw [hpc]; exact id)) hb
  subst hl
  refine ⟨⟨?_, ?_⟩, fun _ _ => hb, fun _ _ => hb, ?_⟩
  · rw [hq, hp.queue]; rfl
  · intro u
    by_cases e : u = t
    · subst e
      rw [hpc']
      exact ⟨nofun, nofun⟩
    · rw [ho u e, hp.hand u]
      exact ⟨nofun, nofun⟩
  · intro hn
    exact absurd (by rw [hpc']; exact rfl) (hn t)

theorem Registered.store (hw : Wf s) {l : Place} (hp : s.placed f l) {t : ThreadId} {w : Waker} {r : Res}
    (hpc : s.pc t = .registeredStore f w) (hpc' : s'.pc t = .done r) (hq : s'.queued f = s.queued f)
    (ho : s.others s' t) (hs : 0 < s.queued f ∨ ∃ u, (s.pc u).popped = some f) :
    s'.placed f l ∧ FlagAgrees s' f true l := by
  have hpolls : (s.pc t).polls = some f := by rw [hpc]; rfl
  have hnone : ∀ u, (s'.pc u).polls = some f → False := by
    intro u hu
    by_cases e : u = t
    · subst e
      rw [hpc'] at hu; cases hu
    · rw [ho u e] at hu
      exact e (hw.polls_inj hu hpolls)
  have hl : l ≠ .nowhere := by
    rintro rfl
    rcases hs with h | ⟨u, hu⟩
    · rw [hp.queue] at h; exact absurd h (Nat.lt_irrefl 0)
    · exact nomatch (hp.hand u).mp hu
  refine ⟨⟨hq.trans hp.queue, ?_⟩, ?_, ?_, ?_⟩
  · intro u
    rw [← hp.hand u]
    by_cases e : u = t
    · subst e
      rw [hpc, hpc']; exact Iff.rfl
    · rw [ho u e]
  · intro u hu
    exact (hnone u (pushes_polls hu)).elim
  · intro u hu
    exact (hnone u (stores_polls hu)).elim
  · intro _
    exact ⟨fun _ => hl, fun _ => rfl⟩

theorem Registered.pop {b : Bool} {l : Place} (hp : s.placed f l) (ha : FlagAgrees s f b l) {t : ThreadId}
    {op : ReleaseOp} {first : Bool} {x : Waiter} (hpc : s.pc t = .releasePop op first)
    (hpc' : s'.pc t = .wakeSetRegistered (.release op) x) (hx : x.registered = f)
    (hq : s'.queued f + 1 = s.queued f) (ho : s.others s' t) :
    s'.placed f (.hand t) ∧ FlagAgrees s' f b (.hand t) := by
  have hl : l = .queue := by
    by_contra hne
    have h0 := hp.queue
    rw [if_neg hne] at h0
    omega
  subst hl
  have hq0 : s.queued f = 1 := hp.queue
  refine ⟨⟨?_, ?_⟩, ?_, ?_, ?_⟩
  · rw [if_neg nofun]
    omega
  · intro u
    by_cases e : u = t
    · subst e
      rw [hpc']
      exact ⟨fun _ => rfl, fun _ => congrArg some hx⟩
    · rw [ho u e, hp.hand u]
      exact ⟨nofun, fun h => absurd (Place.hand.inj h).symm e⟩
  · intro u hu
    by_cases e : u = t
    · subst e
      rw [hpc'] at hu; exact hu.elim
    · rw [ho u e] at hu
      exact ha.pushes u hu
  · intro u hu
    by_cases e : u = t
    · subst e
      rw [hpc'] at hu; exact hu.elim
    · rw [ho u e] at hu
      exact ha.stores u hu
  · intro hn
    have hb := ha.agrees fun u hu => by
      by_cases e : u = t
      · subst e
        rw [hpc] at hu; exact hu.elim
      · exact hn u (by rw [ho u e]; exact hu)
    exact ⟨fun _ => nofun, fun _ => hb.mpr nofun⟩

theorem Registered.clear (hw : Wf s) {b : Bool} {l : Place} (hp : s.placed f l) (ha : FlagAgrees s f b l)
    {t : ThreadId} {op : WakeOp} {x : Waiter} (hpc : s.pc t = .wakeSetRegistered op x)
    (hpc' : s'.pc t = .wakeWaker op x) (hx : x.registered = f) (hq : s'.queued f = s.queued f)
    (ho : s.others s' t) : s'.placed f .nowhere ∧ FlagAgrees s' f false .nowhere := by
  have hl : l = .nowhere ∨ l = .hand t := by
    cases op with
    | release op => exact .inr ((hp.hand t).mp (by rw [hpc]; exact congrArg some hx))
    | queueFull =>
      have hb : b = false := ha.pushes t (by rw [hpc]; exact hx)
      exact .inl (FlagAgrees.nowhere (ha.polled hw (t := t) (by rw [hpc]; exact congrArg some hx)
        (by rw [hpc]; exact id)) hb)
  refine ⟨⟨?_, ?_⟩, fun _ _ => rfl, fun _ _ => rfl, fun _ => ⟨nofun, fun h => absurd rfl h⟩⟩
  · rw [hq, hp.queue]
    rcases hl with rfl | rfl <;> rfl
  · intro u
    refine ⟨fun h => ?_, nofun⟩
    by_cases e : u = t
    · subst e
      rw [hpc'] at h; cases h
    · rw [ho u e, hp.hand u] at h
      rcases hl with rfl | rfl
      · cases h
      · exact absurd (Place.hand.inj h).symm e

theorem Registered.new : Registered Sys.new := by
  refine ⟨?_, nofun⟩
  intro x hx
  rcases hx with hx | ⟨t, hx⟩
  · cases hx
  · cases hx

theorem Registered.step (hw : Wf s) (hr : Registered s) (hc : StoreInTime s a) (h : Step cfg s a s') :
    Registered s' := by
  refine ⟨?_, ?_⟩
  · intro x hx
    refine Nat.lt_of_lt_of_le ?_ h.nextFut_le
    rcases h.outstanding hx with hx' | ⟨t, b, rfl, hpc⟩
    · exact hr.known x hx'
    · obtain ⟨y, hy, _⟩ := hw.polls t x.registered (by rw [hpc]; rfl)
      exact hw.lt hy
  · intro f b' hb'
    cases h.turn f with
    | quiet hu hb hp =>
      obtain ⟨l, hpl, ha⟩ := hr.flag f b' (hb b' hb')
      exact ⟨l, placed_unmoved hpl hu, ha.unmoved (hb b' hb') hu hp⟩
    | new e hu hb =>
      subst e
      obtain rfl := hb b' hb'
      exact ⟨.nowhere, placed_unmoved hr.placed_new hu, fun _ _ => rfl, fun _ _ => rfl,
        fun _ => ⟨nofun, fun h => absurd rfl h⟩⟩
    | push hpc hpc' hq hb ho =>
      obtain ⟨l, hpl, ha⟩ := hr.flag f b' (hb ▸ hb')
      exact ⟨_, Registered.push hw hpl ha hpc hpc' hq ho⟩
    | store hpc hpc' hq hb ho =>
      obtain ⟨hsome, rfl⟩ := hb b' hb'
      obtain ⟨b, hsome⟩ := Option.ne_none_iff_exists'.mp hsome
      obtain ⟨l, hpl, _⟩ := hr.flag f b hsome
      simp only [StoreInTime, hpc] at hc
      exact ⟨l, Registered.store hw hpl hpc hpc' hq ho hc⟩
    | pop hpc hpc' hx hq hb ho =>
      obtain ⟨l, hpl, ha⟩ := hr.flag f b' (hb ▸ hb')
      exact ⟨_, Registered.pop hpl ha hpc hpc' hx hq ho⟩
    | clear hpc hpc' hx hq hb ho =>
      obtain ⟨hsome, rfl⟩ := hb b' hb'
      obtain ⟨b, hsome⟩ := Option.ne_none_iff_exists'.mp hsome
      obtain ⟨l, hpl, ha⟩ := hr.flag f b hsome
      exact ⟨_, Registered.clear hw hpl ha hpc hpc' hx hq ho⟩

end

/-! ## The flag agrees with the queue -/

/-- No poll and no release is in progress. -/
def Sys.settled (s : Sys) : Prop := ∀ t, (s.pc t).polls = none ∧ (s.pc t).draining = false

/-- A pending future has a waiter that is queued or popped, or was woken since its last
poll began. Between polls and releases its flag is set exactly when one waiter of it is
queued. -/
def FlagMatches (s : Sys) : Prop :=
  (∀ f x, s.futs f = some x → x.status = .pending → s.covered (fun y => y.registered = f) x.since) ∧
  (s.settled → ∀ f x, s.futs f = some x → x.status = .pending →
    (∀ b, x.fut.registered? = some b → (b = true ↔ s.queued f = 1)) ∧
    (0 < s.queued f ∨ ∃ y ∈ s.wakes.drop x.since, y.registered = f))

def OfFuture (f : FutId) (_ : Waker) (y : Waiter) : Prop := y.registered = f

theorem outstanding_of_placed {s : Sys} {f : FutId} {l : Place} (hp : s.placed f l) (hl : l ≠ .nowhere) :
    ∃ y, s.outstanding y ∧ y.registered = f := by
  cases l with
  | nowhere => exact absurd rfl hl
  | queue =>
    have hq : 0 < s.queued f := by rw [hp.queue]; exact Nat.one_pos
    obtain ⟨y, hy, e⟩ := List.countP_pos_iff.mp hq
    exact ⟨y, .inl hy, of_decide_eq_true e⟩
  | hand t =>
    obtain ⟨y, hy, e⟩ := popped_hand ((hp.hand t).mpr rfl)
    exact ⟨y, .inr ⟨t, hy⟩, e⟩

/-- A poll that reads a set flag relies on a waiter that is there. -/
theorem Registered.flagHolds {s : Sys} (hw : Wf s) (hr : Registered s) (a : Act) : FlagHolds OfFuture s a := by
  cases a with
  | step t b =>
    simp only [FlagHolds]
    split
    · rename_i f w hpc
      intro hb x hx
      obtain ⟨l, hp, ha⟩ := hr.flag f true hb
      have hl := (ha.polled hw (t := t) (by rw [hpc]; rfl) (by rw [hpc]; exact id)).mp rfl
      exact .inl (outstanding_of_placed hp hl)
    · trivial
  | _ => trivial

theorem settled_hand {s : Sys} (hs : s.settled) (t : ThreadId) : (s.pc t).hand = none := by
  obtain ⟨hp, hd⟩ := hs t
  cases hh : (s.pc t).hand with
  | none => rfl
  | some x =>
    rcases hand_cases hh with ⟨op, hpc⟩ | ⟨op, hpc⟩
    · rw [hpc] at hp hd
      cases op with
      | release _ => cases hd
      | queueFull => cases hp
    · rw [hpc] at hp hd
      cases op with
      | release _ => cases hd
      | queueFull => cases hp

/-- Between polls and releases a future has at most one waiter, and the flag says whether it does. -/
theorem Registered.settled {s : Sys} (hr : Registered s) (hs : s.settled) {f : FutId} {b : Bool}
    (hb : s.registered? f = some b) : s.queued f ≤ 1 ∧ (b = true ↔ s.queued f = 1) := by
  obtain ⟨l, hpl, ha⟩ := hr.flag f b hb
  have hagree := ha.agrees fun t ht => by
    have hpolls := stores_polls ht
    rw [(hs t).1] at hpolls; cases hpolls
  rw [hagree, hpl.queue]
  cases l with
  | nowhere => simp
  | queue => simp
  | hand t =>
    obtain ⟨y, hy, _⟩ := popped_hand ((hpl.hand t).mpr rfl)
    rw [settled_hand hs t] at hy; cases hy

theorem flagMatches_of {s : Sys} (hr : Registered s) (hc : Covered OfFuture s) : FlagMatches s := by
  refine ⟨?_, ?_⟩
  · intro f x hx hp
    obtain ⟨w, _, hcov⟩ := hc.pending f x hx hp
    exact hcov
  intro hs f x hx hp
  refine ⟨?_, ?_⟩
  · intro b hb
    exact (hr.settled hs (by unfold Sys.registered?; rw [hx]; exact hb)).2
  · obtain ⟨w, _, ⟨y, hy | ⟨t, ht⟩, e⟩ | hwoken⟩ := hc.pending f x hx hp
    · exact .inl (List.countP_pos_iff.mpr ⟨y, hy, decide_eq_true e⟩)
    · rw [settled_hand hs t] at ht; cases ht
    · exact .inr hwoken

/-- In a run whose polls store their flag before a releaser clears it, the flag agrees
with the queue. -/
theorem flag_agrees_with_queue (cfg : Config) (as : List Act)
    (h : AllSteps (exec cfg) (fun s a _ => StoreInTime s a) Sys.new as) :
    AllStates (exec cfg) FlagMatches Sys.new as := by
  have hi : AllStates (exec cfg) (fun s => Wf s ∧ Registered s ∧ Covered OfFuture s) Sys.new as := by
    refine AllSteps.inv _ ?_ ⟨Wf.new, .new, Covered.new⟩ h
    intro s a s' hi hg hst
    exact ⟨hi.1.step (exec_step hst), hi.2.1.step hi.1 hg (exec_step hst),
      hi.2.2.step (fun _ _ => rfl) hi.1 (hi.2.1.flagHolds hi.1 a) hst⟩
  apply hi.imp
  intro s hs
  exact flagMatches_of hs.2.1 hs.2.2

/-- Thread 0 holds an `ExclusiveRef`; thread 1 asks for a reference, polls its future and
stops between the push and the store. -/
def pollBeforeStore : List Act := pollBeforePush ++ [.step 1 false]

/-- The store comes before the release, and the flag is cleared. -/
theorem flag_agrees_with_queue_cleared : ∃ s, run (exec ⟨2, false⟩) Sys.new
      (pollBeforeStore ++ [.step 1 false] ++ dropExclusiveRef ++ wakeAndReturn) = some s ∧
    s.registered? 0 = some false ∧ s.queued 0 = 0 ∧ FlagMatches s := by
  have h := flag_agrees_with_queue ⟨2, false⟩ (pollBeforeStore ++ [.step 1 false] ++ dropExclusiveRef ++ wakeAndReturn)
  have hg : AllSteps (exec ⟨2, false⟩) (fun s a _ => StoreInTime s a) Sys.new
      (pollBeforeStore ++ [.step 1 false] ++ dropExclusiveRef ++ wakeAndReturn) := by
    refine ⟨trivial, trivial, trivial, trivial, trivial, trivial, trivial, trivial, trivial, trivial, trivial,
      trivial, trivial, trivial, .inl ?_, trivial, trivial, trivial, trivial, trivial, trivial, trivial⟩
    decide
  exact ⟨_, rfl, rfl, rfl, (h hg).last rfl⟩

/-- The whole release falls between the push and the store: the flag is set and stays
set, with nothing in the queue. -/
theorem flag_agrees_with_queue_stale : ∃ s, run (exec ⟨2, false⟩) Sys.new
      (pollBeforeStore ++ dropExclusiveRef ++ wakeAndReturn ++ [.step 1 false]) = some s ∧
    s.settled ∧ s.registered? 0 = some true ∧ s.waiterQueue = [] ∧
    (∃ x, s.futs 0 = some x ∧ x.status = .pending) ∧ ¬ FlagMatches s := by
  have hs : ∀ s, run (exec ⟨2, false⟩) Sys.new
      (pollBeforeStore ++ dropExclusiveRef ++ wakeAndReturn ++ [.step 1 false]) = some s → s.settled := by
    intro s hs t
    cases hs
    match t with
    | 0 => exact ⟨rfl, rfl⟩
    | 1 => exact ⟨rfl, rfl⟩
    | _ + 2 => exact ⟨rfl, rfl⟩
  refine ⟨_, rfl, hs _ rfl, rfl, rfl, ⟨_, rfl, rfl⟩, ?_⟩
  intro h
  exact nomatch ((h.2 (hs _ rfl) 0 _ rfl rfl).1 true rfl).mp rfl

end RefCount
