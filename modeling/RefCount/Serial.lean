import RefCount.Registration

/-!
# Runs of complete operations

An executor runs one operation at a time: the next one begins, and a reference is dropped,
when the last has returned. Nobody else moves within an operation, so what a poll saw of the
bit and of its flag still holds when it pushes its waiter and when it stores the flag.
-/

namespace RefCount

open Lts

def Act.isStep : Act → Bool
  | .step _ _ => true
  | _ => false

/-- Everything but the next step of the operation in progress waits until that has returned. -/
def Serial (s : Sys) (a : Act) (_ : Sys) : Prop := a.isStep = false → s.idle

def OneThread (s : Sys) (a : Act) (_ : Sys) : Prop :=
  (∀ t ∈ a.thread?, t = 0) ∧ (a.isStep = false → (s.pc 0).call = none)

instance (s : Sys) (a : Act) (s' : Sys) : Decidable (OneThread s a s') := inferInstanceAs (Decidable (_ ∧ (_ → _)))

/-- The poll has seen the bit set, and is about to look at its flag or to push. -/
def Pc.sawBlocked : Pc → Bool
  | .registeredLoad _ _ => true
  | .registerPush _ _ => true
  | _ => false

structure Serial.Inv (s : Sys) : Prop where
  wf : Wf s
  one : ∃ t, ∀ u, u ≠ t → (s.pc u).call = none
  drained : Drained s
  registered : Registered s
  saw : ∀ t, (s.pc t).sawBlocked = true → isBlocked s.count = true
  stored : ∀ t f w, s.pc t = .registeredStore f w → 0 < s.queued f

section
variable {cfg : Config} {s s' : Sys} {a : Act} {t : ThreadId}

theorem call_eq_none {p : Pc} : p.call = none ↔ ∃ r, p = .done r := by
  cases p <;> simp [Pc.call]

theorem exec_step_busy {b : Bool} (h : exec cfg s (.step t b) = some s') : (s.pc t).call ≠ none := by
  intro hn
  obtain ⟨r, hr⟩ := call_eq_none.mp hn
  simp [exec, Sys.stepThread, hr] at h

theorem idle_iff : s.idle ↔ ∀ t, (s.pc t).call = none :=
  forall_congr' fun _ => call_eq_none.symm

/-! ## One operation at a time -/

theorem OneThread.step (h₀ : ∀ u, u ≠ 0 → (s.pc u).call = none) (h₁ : OneThread s a s') (h : Step cfg s a s') :
    Serial s a s' ∧ ∀ u, u ≠ 0 → (s'.pc u).call = none := by
  refine ⟨fun ha => idle_iff.mpr fun u => ?_, fun u hu => ?_⟩
  · by_cases e : u = 0
    · rw [e]; exact h₁.2 ha
    · exact h₀ u e
  · rw [h.pc_frame fun ha => hu (h₁.1 u ha)]
    exact h₀ u hu

/-- What one thread does is a run of complete operations. -/
theorem oneThread_serial {as : List Act} (h : AllSteps (exec cfg) OneThread Sys.new as) :
    AllSteps (exec cfg) Serial Sys.new as := by
  refine AllSteps.imp_inv (fun s => ∀ u, u ≠ 0 → (s.pc u).call = none) ?_ (fun _ _ => rfl) h
  intro s a s' h₀ h₁ hst
  exact OneThread.step h₀ h₁ (exec_step hst)

theorem Serial.Inv.mover (hi : Inv s) (hs : Serial s a s') (h : exec cfg s a = some s') (ht : (s.pc t).call ≠ none) :
    ∃ b, a = .step t b := by
  cases a with
  | step u b =>
    obtain ⟨v, hv⟩ := hi.one
    have htv : t = v := by
      by_contra e
      exact ht (hv t e)
    have huv : u = v := by
      by_contra e
      exact exec_step_busy h (hv u e)
    exact ⟨b, by rw [htv, huv]⟩
  | _ => exact absurd (idle_iff.mp (hs rfl) t) ht

theorem Serial.Inv.step_one (hi : Inv s) (hs : Serial s a s') (h : exec cfg s a = some s') :
    ∃ t, ∀ u, u ≠ t → (s'.pc u).call = none := by
  have hst := exec_step h
  cases ha : a.thread? with
  | none =>
    obtain ⟨t, ht⟩ := hi.one
    refine ⟨t, fun u hu => ?_⟩
    rw [hst.pc_frame (by rw [ha]; exact (Option.some_ne_none u).symm)]
    exact ht u hu
  | some t =>
    refine ⟨t, fun u hu => ?_⟩
    rw [hst.pc_frame (by rw [ha]; exact fun e => hu (Option.some.inj e).symm)]
    by_contra hb
    obtain ⟨b, rfl⟩ := hi.mover hs h hb
    exact hu (Option.some.inj ha)

/-! ## What a poll saw still holds -/

theorem Step.sawBlocked (h : Step cfg s a s') (hs : (s'.pc t).sawBlocked = true) :
    (s.pc t).sawBlocked = true ∨ isBlocked s'.count = true := by
  by_cases ha : a.thread? = some t
  · cases h with
    | begin _ hb =>
      cases ha
      rw [setPc_self] at hs
      cases hb <;> cases hs
    | beginPoll _ _ _ =>
      cases ha
      rw [setPc_self] at hs
      unfold pollStart at hs
      split at hs <;> cases hs
    | jump hj =>
      cases ha
      rw [setPc_self] at hs
      generalize s.pc t = p at hj
      cases hj with
      | refBlocked hb => exact .inr hb
      | blockedBlocked hb => exact .inr hb
      | notRegistered _ => exact .inl rfl
      | _ => cases hs
    | dropRef => cases ha
    | forgetRef => cases ha
    | dropFuture => cases ha
    | newFuture hn => cases hn <;> cases ha
    | _ => cases ha; simp [Pc.sawBlocked] at hs
  · rw [h.pc_frame ha] at hs
    exact .inl hs

theorem sawBlocked_cases {p : Pc} (h : p.sawBlocked = true) :
    (∃ f w, p = .registeredLoad f w) ∨ ∃ f w, p = .registerPush f w := by
  cases p with
  | registeredLoad f w => exact .inl ⟨f, w, rfl⟩
  | registerPush f w => exact .inr ⟨f, w, rfl⟩
  | _ => cases h

theorem Serial.Inv.step_saw (hi : Inv s) (hs : Serial s a s') (h : exec cfg s a = some s') (t : ThreadId)
    (ht : (s'.pc t).sawBlocked = true) : isBlocked s'.count = true := by
  rcases (exec_step h).sawBlocked ht with hold | hb
  · have hset := hi.saw t hold
    rcases sawBlocked_cases hold with ⟨f, w, hpc⟩ | ⟨f, w, hpc⟩
    all_goals
      obtain ⟨b, rfl⟩ := hi.mover hs h (by rw [hpc]; exact Option.some_ne_none _)
      simp only [exec, Sys.stepThread, hpc, Option.some.injEq] at h
      subst h
    · unfold Sys.registeredLoad
      split <;> exact hset
    · unfold Sys.registerPush
      split <;> exact hset
  · exact hb

theorem Serial.Inv.pushHeeded (hi : Inv s) (a : Act) : PushHeeded cfg s a := by
  cases a with
  | step t b =>
    simp only [PushHeeded]
    split
    · rename_i f w hpc
      intro _
      exact .inl (hi.saw t (by rw [hpc]; rfl))
    · trivial
  | _ => trivial

theorem Serial.Inv.storeInTime (hi : Inv s) (a : Act) : StoreInTime s a := by
  cases a with
  | step t b =>
    simp only [StoreInTime]
    split
    · rename_i f w hpc
      exact .inl (hi.stored t f w hpc)
    · trivial
  | _ => trivial

theorem queued_pos {f : FutId} : 0 < s.queued f ↔ ∃ x ∈ s.waiterQueue, x.registered = f := by
  unfold Sys.queued
  simp [List.countP_pos_iff]

theorem Serial.Inv.step_stored (hi : Inv s) (hs : Serial s a s') (h : exec cfg s a = some s') (t : ThreadId)
    (f : FutId) (w : Waker) (ht : s'.pc t = .registeredStore f w) : 0 < s'.queued f := by
  rcases (exec_step h).storing ht with hpc | hmem
  · obtain ⟨b, rfl⟩ := hi.mover hs h (by rw [hpc]; exact Option.some_ne_none _)
    simp only [exec, Sys.stepThread, hpc, Option.some.injEq] at h
    subst h
    rw [Sys.return, setPc_self] at ht
    cases ht
  · exact queued_pos.mpr ⟨_, hmem, rfl⟩

theorem Serial.Inv.new : Inv Sys.new where
  wf := Wf.new
  one := ⟨0, fun _ _ => rfl⟩
  drained := fun hq => absurd rfl hq
  registered := .new
  saw := nofun
  stored := nofun

theorem Serial.Inv.step (hi : Inv s) (hs : Serial s a s') (h : exec cfg s a = some s') : Inv s' where
  wf := hi.wf.step (exec_step h)
  one := hi.step_one hs h
  drained := hi.drained.step hi.wf (hi.pushHeeded a) h
  registered := hi.registered.step hi.wf (hi.storeInTime a) (exec_step h)
  saw := hi.step_saw hs h
  stored := hi.step_stored hs h

/-- Between two operations a waiter is in the queue only while references are blocked. -/
theorem Serial.Inv.queue_blocked (hi : Inv s) (hd : s.idle) (hq : s.waiterQueue ≠ []) : isBlocked s.count = true := by
  rcases hi.drained hq with hb | ⟨t, ht⟩
  · exact hb
  · rw [idle_draining hd t] at ht; cases ht

theorem Serial.Inv.queue_nil (hi : Inv s) (ht : (s.pc t).call ≠ none) (hd : (s.pc t).draining = false)
    (hb : isBlocked s.count = false) : s.waiterQueue = [] := by
  by_contra hq
  rcases hi.drained hq with hb' | ⟨u, hu⟩
  · rw [hb] at hb'; cases hb'
  · obtain ⟨v, hv⟩ := hi.one
    have hbusy : (s.pc u).call ≠ none := by
      intro hn
      obtain ⟨r, hr⟩ := call_eq_none.mp hn
      rw [hr] at hu; cases hu
    have htv : t = v := by
      by_contra e
      exact ht (hv t e)
    have huv : u = v := by
      by_contra e
      exact hbusy (hv u e)
    rw [huv, ← htv, hd] at hu; cases hu

end

/-! ## A release runs to its end -/

/-- The calls that release the block. -/
inductive Releases : Call → ReleaseOp → Prop
  | unblockRefs : Releases .unblockRefs .unblockRefs
  | dropExclusiveRef : Releases .dropExclusiveRef .dropExclusiveRef

/-- `s'` is `s` after thread `t` has emptied the queue and returned: it has called the waker of
each waiter that was queued, in their order. -/
structure Drains (t : ThreadId) (op : ReleaseOp) (s s' : Sys) : Prop where
  returned : s'.pc t = .done op.res
  others : ∀ u, u ≠ t → s'.pc u = s.pc u
  empty : s'.waiterQueue = []
  wakes : s'.wakes = s.wakes ++ s.waiterQueue

section
variable {s : Sys} {t : ThreadId} {op : ReleaseOp}

theorem exists_cons_three {α : Type} {l : List α} {n : Nat} (h : l.length = n + 3) :
    ∃ a b c l', l = a :: b :: c :: l' ∧ l'.length = n := by
  obtain ⟨a, l₁, rfl⟩ := List.exists_cons_of_length_eq_add_one h
  obtain ⟨b, l₂, rfl⟩ := List.exists_cons_of_length_eq_add_one (Nat.succ.inj h)
  obtain ⟨c, l₃, rfl⟩ := List.exists_cons_of_length_eq_add_one (Nat.succ.inj (Nat.succ.inj h))
  exact ⟨a, b, c, l₃, rfl, Nat.succ.inj (Nat.succ.inj (Nat.succ.inj h))⟩

theorem run_wake (cfg : Config) {first : Bool} {x : Waiter} {rest : List Waiter} (hpc : s.pc t = .releasePop op first)
    (hq : s.waiterQueue = x :: rest) (b₁ b₂ b₃ : Bool) :
    ∃ s', run (exec cfg) s [.step t b₁, .step t b₂, .step t b₃] = some s' ∧ s'.pc t = .releasePop op false ∧
      (∀ u, u ≠ t → s'.pc u = s.pc u) ∧ s'.waiterQueue = rest ∧ s'.wakes = s.wakes ++ [x] ∧ s'.count = s.count := by
  let s₁ := Sys.setPc { s with waiterQueue := rest } t (.wakeSetRegistered (.release op) x)
  let s₂ := (s₁.modifyFut x.registered (FutRec.setRegistered false)).setPc t (.wakeWaker (.release op) x)
  let s₃ := Sys.setPc { s₂ with wakes := s.wakes ++ [x] } t (.releasePop op false)
  have h₁ : exec cfg s (.step t b₁) = some s₁ := by
    simp [exec, Sys.stepThread, hpc, Sys.releasePop, hq, s₁]
  have h₂ : exec cfg s₁ (.step t b₂) = some s₂ := by
    simp [exec, Sys.stepThread, s₁, s₂]
  have h₃ : exec cfg s₂ (.step t b₃) = some s₃ := by
    simp only [exec, Sys.stepThread, s₂, setPc_self]; rfl
  refine ⟨s₃, ?_, setPc_self _ _, fun u hu => ?_, rfl, rfl, rfl⟩
  · rw [run_cons h₁, run_cons h₂, run_cons h₃]; rfl
  · simp [s₃, s₂, s₁, hu]

/-- The loop takes three steps for each waiter, and one for the empty pop. -/
theorem run_drain (cfg : Config) (q : List Waiter) : ∀ s : Sys, s.waiterQueue = q → s.pc t = .releasePop op false →
    ∀ bs : List Bool, bs.length = 3 * q.length + 1 →
      ∃ s', run (exec cfg) s (bs.map (.step t)) = some s' ∧ Drains t op s s' ∧ s'.count = s.count := by
  induction q with
  | nil =>
    intro s hq hpc bs hlen
    obtain ⟨b, rfl⟩ := List.length_eq_one_iff.mp hlen
    have h₁ : exec cfg s (.step t b) = some (s.return t op.res) := by
      simp [exec, Sys.stepThread, hpc, Sys.releasePop, hq]
    refine ⟨s.return t op.res, ?_, ⟨setPc_self _ _, fun u hu => ?_, hq, ?_⟩, rfl⟩
    · rw [List.map_cons, run_cons h₁]; rfl
    · exact (setPc_pc _ _ _ _).trans (if_neg hu)
    · show s.wakes = s.wakes ++ s.waiterQueue
      rw [hq, List.append_nil]
  | cons x rest ih =>
    intro s hq hpc bs hlen
    obtain ⟨b₁, b₂, b₃, bs, rfl, hbs⟩ := exists_cons_three (n := 3 * rest.length + 1) hlen
    obtain ⟨s₃, hrun₃, hpc₃, ho₃, hq₃, hw₃, hc₃⟩ := run_wake cfg hpc hq b₁ b₂ b₃
    obtain ⟨s', hrun, hd, hc⟩ := ih s₃ hq₃ hpc₃ bs hbs
    refine ⟨s', run_concat hrun₃ hrun, ⟨hd.returned, fun u hu => ?_, hd.empty, ?_⟩, hc.trans hc₃⟩
    · rw [hd.others u hu, ho₃ u hu]
    · rw [hd.wakes, hw₃, hq₃, hq, List.append_assoc]; rfl

/-- From the store on, `unblock_refs` returns after a number of steps that is known at the store,
whatever fails spuriously in between. -/
theorem run_release (cfg : Config) (hpc : s.pc t = .releaseStore op) :
    ∃ n, ∀ bs : List Bool, bs.length = n → ∃ s', run (exec cfg) s (bs.map (.step t)) = some s' ∧
      Drains t op s s' ∧ s'.count = refAllowed := by
  let s₁ := Sys.setPc { s with count := refAllowed } t (.releasePop op true)
  have h₁ : ∀ b, exec cfg s (.step t b) = some s₁ := fun b => by
    simp [exec, Sys.stepThread, hpc, s₁]
  have ho₁ : ∀ u, u ≠ t → s₁.pc u = s.pc u := fun u hu => (setPc_pc _ _ _ _).trans (if_neg hu)
  cases hq : s.waiterQueue with
  | nil =>
    refine ⟨3, fun bs hlen => ?_⟩
    obtain ⟨b₁, b₂, b₃, bs, rfl, hbs⟩ := exists_cons_three (n := 0) hlen
    let s₂ := s₁.setPc t (.releasePop op false)
    have h₂ : exec cfg s₁ (.step t b₂) = some s₂ := by
      simp [exec, Sys.stepThread, Sys.releasePop, hq, s₁, s₂]
    obtain ⟨s', hrun, hd, hc⟩ := run_drain cfg [] s₂ hq (setPc_self _ _) (b₃ :: bs) (congrArg Nat.succ hbs)
    refine ⟨s', ?_, ⟨hd.returned, fun u hu => ?_, hd.empty, hd.wakes⟩, hc⟩
    · rw [List.map_cons, List.map_cons, run_cons (h₁ b₁), run_cons h₂]
      exact hrun
    · rw [hd.others u hu, ← ho₁ u hu]
      exact (setPc_pc _ _ _ _).trans (if_neg hu)
  | cons x rest =>
    refine ⟨3 * rest.length + 5, fun bs hlen => ?_⟩
    obtain ⟨b₁, bs, rfl⟩ := List.exists_cons_of_length_eq_add_one hlen
    obtain ⟨b₂, b₃, b₄, bs, rfl, hbs⟩ := exists_cons_three (Nat.succ.inj hlen)
    obtain ⟨s₄, hrun₄, hpc₄, ho₄, hq₄, hw₄, hc₄⟩ := run_wake cfg (setPc_self _ _ : s₁.pc t = _) hq b₂ b₃ b₄
    obtain ⟨s', hrun, hd, hc⟩ := run_drain cfg rest s₄ hq₄ hpc₄ bs hbs
    refine ⟨s', ?_, ⟨hd.returned, fun u hu => ?_, hd.empty, ?_⟩, hc.trans hc₄⟩
    · rw [List.map_cons, run_cons (h₁ b₁)]
      exact run_concat hrun₄ hrun
    · rw [hd.others u hu, ho₄ u hu, ho₁ u hu]
    · rw [hd.wakes, hw₄, hq₄, hq, List.append_assoc]; rfl

theorem run_releases (cfg : Config) {c : Call} {s₀ : Sys} (hr : Releases c op)
    (h : exec cfg s₀ (.call t c) = some s) (hd : s₀.idle) :
    ∃ n, ∀ bs : List Bool, bs.length = n → ∃ s', run (exec cfg) s (bs.map (.step t)) = some s' ∧ s'.idle ∧
      s'.count = refAllowed ∧ s'.waiterQueue = [] ∧ s'.wakes = s₀.wakes ++ s₀.waiterQueue := by
  have hcall : s.pc t = .releaseStore op ∧ (∀ u, u ≠ t → s.pc u = s₀.pc u) ∧ s.waiterQueue = s₀.waiterQueue ∧
      s.wakes = s₀.wakes := by
    refine ⟨?_, fun u hu => (exec_step h).pc_frame fun e => hu (Option.some.inj e).symm, ?_⟩
    · cases hr <;> cases exec_step h with
      | begin _ hb => cases hb
      | newFuture hn => cases hn
      | _ => exact setPc_self _ _
    · cases hr <;> cases exec_step h with
      | begin _ hb => cases hb
      | newFuture hn => cases hn
      | _ => exact ⟨rfl, rfl⟩
  obtain ⟨hpc, ho, hq, hw⟩ := hcall
  obtain ⟨n, hn⟩ := run_release cfg hpc
  refine ⟨n, fun bs hlen => ?_⟩
  obtain ⟨s', hrun, hdr, hc⟩ := hn bs hlen
  refine ⟨s', hrun, fun u => ?_, hc, hdr.empty, by rw [hdr.wakes, hq, hw]⟩
  by_cases e : u = t
  · rw [e]; exact ⟨_, hdr.returned⟩
  · rw [hdr.others u e, ho u e]
    exact hd u

end

end RefCount
