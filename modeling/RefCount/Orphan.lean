import RefCount.Lock

/-!
# Orphaned blocks

A word with the block bit set has somebody who will clear it, as long as nobody who
has the block disappears. `FutureExclusiveRef` has no `Drop`: one that is dropped
while it has the block takes it along.
-/

namespace RefCount

open Lts

def Act.isSafe : Act → Bool
  | .call _ c => c.safe
  | .forgetRef => false
  | _ => true

/-- Safe code that leaks nothing. -/
def SafeApi (_ : Sys) (a : Act) (_ : Sys) : Prop := a.isSafe = true

instance (s : Sys) (a : Act) (s' : Sys) : Decidable (SafeApi s a s') := inferInstanceAs (Decidable (_ = _))

def Act.dropped : Act → Option FutId
  | .dropFuture f => some f
  | _ => none

/-- The step is the `compare_exchange_weak` by which a `FutureBlockedRefs` of its own
gets the block; safe code has such a future from its constructor only, also where it
makes it the inner future of a `FutureExclusiveRef` of another `RefCount`, and no way to
unblock. -/
def Sys.blocksUser (s : Sys) : Act → Bool
  | .step t false =>
    match s.pc t with
    | .blockCas (.pollBlockedRefs _ _) _ locals => s.count = locals.refCount
    | _ => false
  | _ => false

/-- No future is dropped that has the block, and no block is taken for keeps. -/
def KeepsBlock (s : Sys) (a : Act) (_ : Sys) : Prop :=
  (∀ f ∈ a.dropped, ∀ x ∈ s.futs f, x.holdsBlock = false) ∧ s.blocksUser a = false

instance (s : Sys) (a : Act) (s' : Sys) : Decidable (KeepsBlock s a s') := inferInstanceAs (Decidable (_ ∧ _))

def Fut.isExclusiveRef : Fut → Bool
  | .exclusiveRef _ => true
  | _ => false

structure Orphan.Inv (s : Sys) : Prop where
  wf : Wf s
  calls : CallsWithin Call.safe s
  blocks : s.blocks = 0
  carried : isBlocked s.count = true → ∃ c, 0 < s.held c

section
variable {cfg : Config} {s s' : Sys} {a : Act}

/-- Whatever a step does, a set bit has a carrier after it, unless the carrier is
dropped. -/
theorem carried_step (hw : Wf s) (hc : isBlocked s.count = true → ∃ c, 0 < s.held c)
    (hk : ∀ f ∈ a.dropped, ∀ x ∈ s.futs f, x.holdsBlock = false) (h : Step cfg s a s')
    (hb : isBlocked s'.count = true) : ∃ c, 0 < s'.held c := by
  cases h.effect hw with
  | quiet e₁ e₂ e₃ => rw [e₁] at hb; rw [e₃]; exact hc hb
  | acquire _ e₁ e₂ e₃ => rw [e₁, add_refIncr_blocked] at hb; rw [e₃]; exact hc hb
  | dropRef _ e₁ e₂ e₃ => rw [e₁, sub_refIncr_blocked] at hb; rw [e₃]; exact hc hb
  | block c _ _ _ _ hg => exact ⟨c, hg.gets⟩
  | pass c d _ _ _ hp => exact ⟨d, hp.gets⟩
  | mint _ _ _ _ _ _ hg => exact ⟨.exclusiveRef, hg.gets⟩
  | @lose f _ _ hl =>
    have hpos : 0 < blockOf (s.futs f) := hl.has
    cases hx : s.futs f with
    | none => rw [hx] at hpos; cases hpos
    | some x =>
      have hn := hk f rfl x hx
      simp [hx, blockOf, hn] at hpos
  | release _ _ _ e₁ _ _ => rw [e₁] at hb; cases hb

theorem Step.blocks (h : Step cfg s a s') : s'.blocks ≤ s.blocks ∨ s.blocksUser a = true ∨
    ∃ t op r, (s.pc t).call = some op.call ∧ Blocks op r := by
  cases h with
  | beginUnblock _ _ => exact .inl (Nat.sub_le _ _)
  | blockUser hpc hb _ => exact .inr (.inr ⟨_, _, _, by rw [hpc]; rfl, hb⟩)
  | blockPollBlocked hpc hc => exact .inr (.inl (by simp [Sys.blocksUser, hpc, hc]))
  | _ => exact .inl (Nat.le_refl _)

theorem Orphan.Inv.step (hi : Inv s) (hs : SafeApi s a s') (hk : KeepsBlock s a s') (h : exec cfg s a = some s') :
    Inv s' := by
  have hst := exec_step h
  refine ⟨hi.wf.step hst, ?_, ?_, carried_step hi.wf hi.carried hk.1 hst⟩
  · intro t c ht
    rcases hst.call ht with ht | rfl
    · exact hi.calls t c ht
    · exact hs
  · rcases hst.blocks with hle | hu | ⟨t, op, r, hcall, hb⟩
    · rw [hi.blocks] at hle; exact Nat.le_zero.mp hle
    · rw [hk.2] at hu; cases hu
    · have hsafe := hi.calls t _ hcall
      cases hb <;> cases hsafe

/-- When nothing is in progress, the block is in an `ExclusiveRef` or in a future. -/
theorem block_idle (hw : Wf s) (h0 : s.blocks = 0) (hc : isBlocked s.count = true → ∃ c, 0 < s.held c) (hd : s.idle)
    (hb : isBlocked s.count = true) : 0 < s.exclusiveRefs ∨
    ∃ f x, s.futs f = some x ∧ x.fut.kind = .owning ∧ x.holdsBlock = true := by
  obtain ⟨c, hc⟩ := hc hb
  cases c with
  | thread t =>
    obtain ⟨r, hr⟩ := hd t
    rw [held_thread hr] at hc; cases hc
  | dropping t =>
    obtain ⟨r, hr⟩ := hd t
    rw [held_dropping hr] at hc; cases hc
  | user => exact absurd h0 (Nat.ne_of_gt hc)
  | exclusiveRef => exact .inl hc
  | fut f =>
    have hc : 0 < blockOf (s.futs f) := hc
    cases hx : s.futs f with
    | none => rw [hx] at hc; cases hc
    | some x =>
      have hh : x.holdsBlock = true := by
        cases hb : x.holdsBlock with
        | true => rfl
        | false => simp [hx, blockOf, hb] at hc
      exact .inr ⟨f, x, hx, hw.sound f x hx hh, hh⟩

theorem Orphan.Inv.idle (hi : Inv s) (hd : s.idle) (hb : isBlocked s.count = true) : 0 < s.exclusiveRefs ∨
    ∃ f x, s.futs f = some x ∧ x.fut.kind = .owning ∧ x.holdsBlock = true :=
  block_idle hi.wf hi.blocks hi.carried hd hb

/-- In a run of safe code in which nobody who has the block disappears: whenever no
operation is in progress and the bit is set, there is an `ExclusiveRef` or a future
that has the block; a future made with `None`, or with an inner future of another
`RefCount`, has none. So once every reference and every exclusive request is gone,
references are allowed, and `try_get_ref` takes one unless the word is at its limit
and the build checks for overflow. -/
theorem no_orphaned_block (cfg : Config) (as : List Act) (h : AllSteps (exec cfg) SafeApi Sys.new as)
    (hk : AllSteps (exec cfg) KeepsBlock Sys.new as) :
    AllStates (exec cfg) (fun s => s.idle →
      (isBlocked s.count = true → 0 < s.exclusiveRefs ∨
        ∃ f x, s.futs f = some x ∧ x.fut.kind = .owning ∧ x.holdsBlock = true) ∧
      (s.refs = 0 → s.exclusiveRefs = 0 → (∀ f x, s.futs f = some x → x.fut.isExclusiveRef = false) →
        isBlocked s.count = false ∧ ∀ t, (cfg.overflowChecks = true → (standardRefCount s.count).toNat < maxRefs) →
          ∃ s', run (exec cfg) s (takeRef t) = some s' ∧ s'.pc t = .done .ref)) Sys.new as := by
  have hi : AllStates (exec cfg) Orphan.Inv Sys.new as := by
    refine AllSteps.inv Orphan.Inv ?_ ⟨Wf.new, .new, rfl, nofun⟩ (h.and hk)
    intro s a s' hi hs hst
    exact hi.step hs.1 hs.2 hst
  apply hi.imp
  intro s hi hd
  refine ⟨hi.idle hd, ?_⟩
  intro _ he hf
  have hfree : isBlocked s.count = false := by
    cases hb : isBlocked s.count with
    | false => rfl
    | true =>
      rcases hi.idle hd hb with h0 | ⟨f, x, hx, hkind, _⟩
      · rw [he] at h0; cases h0
      · have hx' := hf f x hx
        cases hfut : x.fut with
        | exclusiveRef _ => rw [hfut] at hx'; cases hx'
        | _ => rw [hfut] at hkind; cases hkind
  refine ⟨hfree, ?_⟩
  intro t ho
  obtain ⟨r, hr⟩ := hd t
  have heven := (not_isBlocked_iff s.count).mp hfree
  obtain ⟨s', hrun, hpc, _⟩ := run_takeRef cfg hr heven fun hov => by
    have hlt := ho hov
    have hm : maxRefs = 2 ^ 31 - 1 := rfl
    rw [standardRefCount_toNat] at hlt
    omega
  exact ⟨s', hrun, hpc⟩

end

/-- Thread 1 asks for an `ExclusiveRef` beside the `Ref` of thread 0 and gets a future
that has the block. -/
def askBesideRef : List Act := takeRef 0 ++ askExclusiveRef 1

/-- The future is kept and the bit is accounted for. -/
theorem no_orphaned_block_kept : ∃ s, run (exec ⟨2, false⟩) Sys.new askBesideRef = some s ∧
    isBlocked s.count = true ∧ (s.idle → 0 < s.exclusiveRefs ∨
      ∃ f x, s.futs f = some x ∧ x.fut.kind = .owning ∧ x.holdsBlock = true) := by
  have h := (no_orphaned_block ⟨2, false⟩ askBesideRef (by decide) (by decide)).last rfl
  exact ⟨_, rfl, rfl, fun hd => (h hd).1 rfl⟩

/-- The future is dropped, then the `Ref`: nobody is left, and the bit stays set. -/
theorem no_orphaned_block_dropped : AllSteps (exec ⟨2, false⟩) SafeApi Sys.new
      (askBesideRef ++ [.dropFuture 0, .dropRef]) ∧
    ∃ s, run (exec ⟨2, false⟩) Sys.new (askBesideRef ++ [.dropFuture 0, .dropRef]) = some s ∧ s.idle ∧
      isBlocked s.count = true ∧ s.refs = 0 ∧ s.exclusiveRefs = 0 ∧ ∀ f, s.futs f = none := by
  refine ⟨by decide, ⟨_, rfl, ?_, rfl, rfl, rfl, ?_⟩⟩
  · intro t
    match t with
    | 0 => exact ⟨_, rfl⟩
    | 1 => exact ⟨_, rfl⟩
    | _ + 2 => exact ⟨_, rfl⟩
  · intro f
    match f with
    | 0 => rfl
    | _ + 1 => rfl

end RefCount
