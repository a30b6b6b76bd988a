import RefCount.Lock

/-!
# Mutual exclusion

The asynchronous and blocking protocol of the README: `get_ref`, `try_get_ref`,
`blocking_get_ref`, `get_exclusive_ref`, `blocking_get_exclusive_ref`, the polls of
what they return and the drops. Here every store of `REF_ALLOWED` is that of an
`ExclusiveRef`, beside which there is no standard reference, so the machine is a
reader–writer lock without further condition.
-/

namespace RefCount

open Lts

def Call.inProtocol : Call → Bool
  | .tryGetExclusiveRef => false
  | .tryBlockRefs => false
  | .blockRefs => false
  | .unblockRefs => false
  | _ => true

/-- The steps of a client that keeps to the protocol and lets no more references
exist than the word can count. -/
def Protocol (s : Sys) (a : Act) (s' : Sys) : Prop :=
  a.within Call.inProtocol = true ∧ Disciplined s a ∧ s'.refs ≤ maxRefs

instance (s : Sys) (a : Act) (s' : Sys) : Decidable (Protocol s a s') := inferInstanceAs (Decidable (_ ∧ _ ∧ _))

structure Exclusion.Inv (s : Sys) (l : RwLock.Lock Carrier) : Prop where
  sim : Sim s l
  calls : CallsWithin Call.inProtocol s

section
variable {cfg : Config} {s s' : Sys} {a : Act} {l : RwLock.Lock Carrier}

theorem Exclusion.Inv.drops (hi : Inv s l) {op : ReleaseOp} (ho : s.stores a = some op) : op = .dropExclusiveRef := by
  have h := hi.calls.stores ho
  cases op with
  | dropExclusiveRef => rfl
  | _ => cases h

theorem Exclusion.Inv.storesClean (hi : Inv s l) : StoresClean s a :=
  fun _ ho hne => absurd (hi.drops ho) hne

theorem Exclusion.Inv.step (hi : Inv s l) (hp : Protocol s a s') (h : exec cfg s a = some s') :
    ∃ l', RwLock.Step Carrier.excl l l' ∧ Inv s' l' ∧
      (l'.block = .free → l.block = .free ∨ (s.stores a).isSome = true) := by
  obtain ⟨hc, hd, hr⟩ := hp
  obtain ⟨l', hl, hs, hf, _⟩ := hi.sim.step hd hi.storesClean hr (exec_step h)
  exact ⟨l', hl, ⟨hs, hi.calls.step hc (exec_step h)⟩, hf⟩

theorem Exclusion.reach (h : Reach (exec cfg) Protocol Sys.new s) : ∃ l, Exclusion.Inv s l := by
  refine h.inv (fun s => ∃ l, Exclusion.Inv s l) ⟨_, Sim.new, .new⟩ ?_
  rintro s a s' ⟨l, hi⟩ hp hst
  obtain ⟨l', _, hi', _⟩ := hi.step hp hst
  exact ⟨l', hi'⟩

theorem blocked_takes (hb : isBlocked s.count = true) : ¬ TakesRef s a ∧ ¬ TakesBlock s a := by
  rw [isBlocked_iff] at hb
  refine ⟨?_, ?_⟩
  · rintro ⟨t, op, n, l, _, _, e⟩
    rw [e, l.even] at hb; cases hb
  · rintro ⟨t, op, n, l, _, _, e⟩
    rw [e, l.even] at hb; cases hb

/-- A run without a store of `REF_ALLOWED` that starts blocked stays blocked, and
no reference comes up in it. -/
theorem blocked_run {n : Nat} (hi : Exclusion.Inv s l) (hb : l.block ≠ .free) (hn : l.readers ≤ n) {as : List Act}
    (hr : AllSteps (exec cfg) (fun u a u' => Protocol u a u' ∧ (u.stores a).isSome = false) s as) :
    AllStates (exec cfg) (fun u => isBlocked u.count = true ∧ u.refs ≤ n) s as := by
  have hrun := AllSteps.inv (fun u => ∃ l, Exclusion.Inv u l ∧ l.block ≠ .free ∧ l.readers ≤ n) ?_ ⟨l, hi, hb, hn⟩ hr
  · refine hrun.imp fun u ⟨l, hi, hb, hn⟩ => ⟨hi.sim.blocked.mpr hb, ?_⟩
    rw [hi.sim.refs]; exact hn
  · rintro u a u' ⟨l, hi, hb, hn⟩ ⟨hp, hst⟩ hu
    obtain ⟨l', hl, hi', hf⟩ := hi.step hp hu
    refine ⟨l', hi', fun e => (hf e).elim hb fun hs => ?_, Nat.le_trans (hl.blocked hb).1 hn⟩
    rw [hst] at hs
    exact Bool.noConfusion hs

end

/-- In every state that the protocol reaches: one `ExclusiveRef` at most is live, and
no `Ref` beside it; the word counts the `Ref`s; a thread that is about to store
`REF_ALLOWED` is dropping the `ExclusiveRef`, and nothing else holds; and from a
blocked state on, until that store, the bit stays set, no `Ref` is taken and no other
requester takes the block. -/
theorem mutual_exclusion (cfg : Config) {s : Sys} (h : Reach (exec cfg) Protocol Sys.new s) :
    s.exclusiveRefs ≤ 1 ∧ (0 < s.exclusiveRefs → s.refs = 0) ∧ (standardRefCount s.count).toNat = s.refs ∧
    (∀ t op, s.pc t = .releaseStore op →
      op = .dropExclusiveRef ∧ isBlocked s.count = true ∧ s.refs = 0 ∧ s.exclusiveRefs = 0) ∧
    (isBlocked s.count = true → ∀ as,
      AllSteps (exec cfg) (fun u a u' => Protocol u a u' ∧ (u.stores a).isSome = false) s as →
      AllStates (exec cfg) (fun u => isBlocked u.count = true ∧ u.refs ≤ s.refs) s as ∧
      AllSteps (exec cfg) (fun u a _ => ¬ TakesRef u a ∧ ¬ TakesBlock u a) s as) := by
  obtain ⟨l, hi⟩ := Exclusion.reach h
  have hs := hi.sim
  refine ⟨?_, ?_, hs.exact, ?_, ?_⟩
  · rcases Nat.eq_zero_or_pos s.exclusiveRefs with h0 | h0
    · rw [h0]; exact Nat.zero_le 1
    · exact Nat.le_of_eq (hs.held.eq_one (c := .exclusiveRef) h0)
  · exact fun h0 => hs.refs_zero (c := .exclusiveRef) h0 trivial
  · intro t op hpc
    obtain rfl := hi.drops (stores_step (b := false) hpc)
    have hd : 0 < s.held (.dropping t) := by rw [held_dropping hpc]; exact Nat.one_pos
    refine ⟨rfl, hs.blocked.mpr ?_, hs.refs_zero hd trivial, ?_⟩
    · rw [hs.holder hd]; exact nofun
    · exact hs.held.others (d := .exclusiveRef) hd Carrier.noConfusion
  · intro hb as hr
    have hst := blocked_run hi (hs.blocked.mp hb) (Nat.le_of_eq hs.refs.symm) hr
    exact ⟨hst, hst.allSteps fun u a _ _ hu => blocked_takes hu.1⟩

theorem mutual_exclusion_granted : ∃ s : Sys, run (exec ⟨2, false⟩) Sys.new (askExclusiveRef 0) = some s ∧
    s.exclusiveRefs = 1 ∧ s.refs = 0 ∧
    AllStates (exec ⟨2, false⟩) (fun u => isBlocked u.count = true ∧ u.refs ≤ s.refs) s
      [.call 1 .tryGetRef, .step 1 false, .step 1 false] := by
  have hg : AllSteps (exec ⟨2, false⟩) Protocol Sys.new (askExclusiveRef 0) := by decide
  have h := mutual_exclusion ⟨2, false⟩ (Reach.run .start hg rfl)
  exact ⟨_, rfl, rfl, h.2.1 Nat.one_pos, (h.2.2.2.2 rfl _ (by decide)).1⟩

end RefCount
