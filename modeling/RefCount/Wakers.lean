import RefCount.Serial

/-!
# The waker of the last poll

A future is queued once, with the waker it was polled with then. A later poll that finds the
flag set returns `Pending` and drops the waker it was given, so a release calls the waker of
the last poll only if it is one of those that are queued.
-/

namespace RefCount

open Lts

def Act.poll? : Act → Option (FutId × Waker)
  | .call _ (.poll f w) => some (f, w)
  | _ => none

/-- A future whose flag is set is polled with a waker that is in the queue. -/
def Refreshes (s : Sys) (a : Act) (_ : Sys) : Prop :=
  ∀ p ∈ a.poll?, s.registered? p.1 = some true → ∃ y ∈ s.waiterQueue, y.waker = p.2

instance (s : Sys) (a : Act) (s' : Sys) : Decidable (Refreshes s a s') := inferInstanceAs (Decidable (∀ p ∈ _, _ → _))

/-- Whoever releases the block between two operations has, when the call returns, had the waker
of every pending future's last poll called since that poll began. -/
def ReleaseWakes (cfg : Config) (s : Sys) : Prop :=
  s.idle → ∀ t c op s₁, Releases c op → exec cfg s (.call t c) = some s₁ →
    ∃ n, ∀ bs : List Bool, bs.length = n → ∃ s', run (exec cfg) s₁ (bs.map (.step t)) = some s' ∧ s'.idle ∧
      isBlocked s'.count = false ∧ ∀ f x, s.futs f = some x → x.status = .pending →
        ∃ w, x.waker = some w ∧ ∃ y ∈ s'.wakes.drop x.since, y.waker = w

section
variable {cfg : Config} {s s' : Sys} {a : Act} {R : FutId → Waker → Waiter → Prop}

/-- A poll of a future whose flag is set finds it covered for its own waker. -/
def FlagCovered (R : FutId → Waker → Waiter → Prop) (s : Sys) : Prop :=
  ∀ t f w x, (s.pc t).call = some (.poll f w) → s.futs f = some x → x.fut.registered? = some true →
    s.covered (R f w) x.since

theorem FlagCovered.flagHolds (hf : FlagCovered R s) (a : Act) : FlagHolds R s a := by
  cases a with
  | step t b =>
    simp only [FlagHolds]
    split
    · rename_i f w hpc
      intro hb x hx
      refine hf t f w x (by rw [hpc]; rfl) hx ?_
      unfold Sys.registered? at hb
      rwa [hx] at hb
    · trivial
  | _ => trivial

theorem Evolves.flag {f : FutId} {x x' : FutRec} (he : Evolves s a f x x') (hb : x'.fut.registered? = some true) :
    x.fut.registered? = some true ∨ ∃ t b w, a = .step t b ∧ s.pc t = .registeredStore f w := by
  cases he with
  | clear _ => exact nomatch (setRegistered_registered? hb).2
  | block _ _ => cases hb
  | dropInner _ => cases hb
  | store hpc => exact .inr ⟨_, _, _, rfl, hpc⟩
  | _ => exact .inl hb

theorem FlagCovered.step (hw : Wf s) (hc : Covered R s) (hf : FlagCovered R s)
    (hn : ∀ f w, a.poll? = some (f, w) → s.registered? f = some true → ∃ y ∈ s.waiterQueue, R f w y)
    (h : exec cfg s a = some s') : FlagCovered R s' := by
  have hst := exec_step h
  intro t f w x' ht hx' hb
  rcases hst.call ht with hold | rfl
  · obtain ⟨x, hx, hsince, _⟩ := hc.polled hw hst hold hx'
    rw [hsince]
    apply exec_covered h (hc.since f x hx)
    rcases hst.evolves hx (hw.lt hx) with ⟨_, _, hnone⟩ | ⟨y, hy, he⟩
    · rw [hnone] at hx'; cases hx'
    · rw [hy, Option.some.injEq] at hx'
      subst hx'
      rcases he.flag hb with hb | ⟨u, d, v, rfl, hpc⟩
      · exact hf t f w x hold hx hb
      · have e := hw.polls_inj (t := u) (u := t) (by rw [hpc]; rfl) (call_polls hold)
        subst e
        rw [hpc] at hold
        cases hold
        exact hc.storing u f w x hpc hx
  · cases hst with
    | begin _ hbegins => cases hbegins
    | newFuture hnew => cases hnew
    | beginPoll hpc hx _ =>
      simp only [setPc_futs, modifyFut_futs, if_true, hx, Option.map_some, Option.some.injEq] at hx'
      subst hx'
      obtain ⟨y, hy, hR⟩ := hn f w rfl (by unfold Sys.registered?; rw [hx]; exact hb)
      exact .inl ⟨y, .inl hy, hR⟩

theorem FlagCovered.new : FlagCovered R Sys.new := nofun

structure Wakers.Inv (s : Sys) : Prop where
  serial : Serial.Inv s
  covered : Covered OfWaker s
  flag : FlagCovered OfWaker s

theorem Wakers.Inv.step (hi : Inv s) (hs : Serial s a s') (hr : Refreshes s a s') (h : exec cfg s a = some s') : Inv s' where
  serial := hi.serial.step hs h
  covered := hi.covered.step (fun _ _ => rfl) hi.serial.wf (hi.flag.flagHolds a) h
  flag := hi.flag.step hi.serial.wf hi.covered (fun f w hp hb => hr (f, w) hp hb) h

/-- Between two operations a waiter that counts for a pending future is queued, or was woken. -/
theorem Covered.idle (hc : Covered R s) (hd : s.idle) {f : FutId} {x : FutRec} (hx : s.futs f = some x)
    (hp : x.status = .pending) :
    ∃ w, x.waker = some w ∧ ((∃ y ∈ s.waiterQueue, R f w y) ∨ ∃ y ∈ s.wakes.drop x.since, R f w y) := by
  obtain ⟨w, hw, ⟨y, hy | ⟨t, ht⟩, hR⟩ | hwoken⟩ := hc.pending f x hx hp
  · exact ⟨w, hw, .inl ⟨y, hy, hR⟩⟩
  · rw [idle_hand hd t] at ht; cases ht
  · exact ⟨w, hw, .inr hwoken⟩

theorem Wakers.Inv.releaseWakes (hi : Inv s) : ReleaseWakes cfg s := by
  intro hd t c op s₁ hr h
  obtain ⟨n, hn⟩ := run_releases cfg hr h hd
  refine ⟨n, fun bs hlen => ?_⟩
  obtain ⟨s', hrun, hidle, hcount, _, hwakes⟩ := hn bs hlen
  refine ⟨s', hrun, hidle, by rw [hcount]; rfl, fun f x hx hp => ?_⟩
  obtain ⟨w, hw, hcov⟩ := hi.covered.idle hd hx hp
  refine ⟨w, hw, ?_⟩
  rw [hwakes, List.drop_append_of_le_length (hi.covered.since f x hx)]
  rcases hcov with ⟨y, hy, hR⟩ | ⟨y, hy, hR⟩
  · exact ⟨y, List.mem_append_right _ hy, hR⟩
  · exact ⟨y, List.mem_append_left _ hy, hR⟩

end

/-- In a run of complete operations in which a future whose flag is set is polled only with wakers
that are queued: every release, when it has returned, has had the waker of each pending future's
last poll called since that poll began; and wherever references are allowed between two operations
that is so too. -/
theorem release_wakes_last_poll (cfg : Config) (as : List Act)
    (h : AllSteps (exec cfg) (fun s a s' => Serial s a s' ∧ Refreshes s a s') Sys.new as) :
    AllStates (exec cfg) (fun s => ReleaseWakes cfg s ∧ NoLostWakeup s) Sys.new as := by
  have hi : AllStates (exec cfg) Wakers.Inv Sys.new as := by
    refine AllSteps.inv Wakers.Inv ?_ ⟨.new, Covered.new, .new⟩ h
    intro s a s' hi hg hst
    exact hi.step hg.1 hg.2 hst
  apply hi.imp
  intro s hi
  exact ⟨hi.releaseWakes, noLostWakeup_of hi.serial.drained hi.covered⟩

def steps (n : Nat) : List Act := List.replicate n (.step 0 false)

/-- Beside an `ExclusiveRef`, a request for a reference is polled with the waker 7 and queued, and
polled again with the waker `w`; then the `ExclusiveRef` is dropped. -/
def pollTwice (w : Waker) : List Act :=
  askExclusiveRef 0 ++ .call 0 .getRef :: steps 5 ++ .call 0 (.poll 0 7) :: steps 4 ++
    .call 0 (.poll 0 w) :: steps 2 ++ .call 0 .dropExclusiveRef :: steps 5

theorem release_wakes_last_poll_same : ∃ s, run (exec ⟨2, true⟩) Sys.new (pollTwice 7) = some s ∧
    s.wakes = [⟨7, 0⟩] ∧ NoLostWakeup s := by
  have hg : AllSteps (exec ⟨2, true⟩) (fun s a s' => Serial s a s' ∧ Refreshes s a s') Sys.new (pollTwice 7) :=
    (oneThread_serial (by decide)).and (by decide)
  exact ⟨_, rfl, rfl, ((release_wakes_last_poll ⟨2, true⟩ (pollTwice 7) hg).last rfl).2⟩

/-- The future has been moved to another task, whose waker is 9. The release calls 7 alone. -/
theorem release_wakes_last_poll_moved : AllSteps (exec ⟨2, true⟩) Serial Sys.new (pollTwice 9) ∧
    (∃ s, run (exec ⟨2, true⟩) Sys.new (pollTwice 9) = some s ∧ s.wakes = [⟨7, 0⟩] ∧
      ∃ x, s.futs 0 = some x ∧ x.status = .pending ∧ x.waker = some 9) ∧
    ¬ AllStates (exec ⟨2, true⟩) (fun s => ReleaseWakes ⟨2, true⟩ s ∧ NoLostWakeup s) Sys.new (pollTwice 9) := by
  refine ⟨oneThread_serial (by decide), ⟨_, rfl, rfl, _, rfl, rfl, rfl⟩, fun h => ?_⟩
  have hidle : ∀ s, run (exec ⟨2, true⟩) Sys.new (pollTwice 9) = some s → s.idle := by
    intro s hs t
    cases hs
    match t with
    | 0 => exact ⟨_, rfl⟩
    | _ + 1 => exact ⟨_, rfl⟩
  obtain ⟨w, hw, y, hy, hyw⟩ := ((h.last rfl).2 (hidle _ rfl) rfl).2 0 _ rfl rfl
  cases hw
  obtain rfl := List.mem_singleton.mp hy
  cases hyw

end RefCount
