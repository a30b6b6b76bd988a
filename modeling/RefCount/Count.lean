import RefCount.Lock

/-!
# The count

Three clients, and for each the steps at which the word goes wrong. `unblock_refs`
stores `REF_ALLOWED` whatever the other 31 bits hold, so a store beside a live
`Ref` loses the count: by a caller of the block methods, or in the roll-back of
`try_get_exclusive_ref`. And without overflow checks an attempt at a full count
adds `REF_INCR` across the end of the word.
-/

namespace RefCount

open Lts

/-! ## Manual blocking -/

def Call.manual : Call → Bool
  | .getRef => true
  | .tryGetRef => true
  | .blockingGetRef => true
  | .tryBlockRefs => true
  | .blockRefs => true
  | .unblockRefs => true
  | .poll _ _ => true
  | _ => false

/-- A client that takes references and blocks them by hand. -/
def Manual (_ : Sys) (a : Act) (s' : Sys) : Prop := a.within Call.manual = true ∧ s'.refs ≤ maxRefs

instance (s : Sys) (a : Act) (s' : Sys) : Decidable (Manual s a s') := inferInstanceAs (Decidable (_ ∧ _))

/-- The word counts the references, and its bit says whether a caller has the block:
one that was given it, or one inside `unblock_refs` before the store. -/
def ManualExact (s : Sys) : Prop :=
  (standardRefCount s.count).toNat = s.refs ∧
  (isBlocked s.count = true ↔ 0 < s.blocks ∨ ∃ t, s.pc t = .releaseStore .unblockRefs)

def Fut.isManual (fut : Fut) : Prop := fut.kind = .ref ∨ fut.kind = .blockedRefs

structure Manual.Inv (s : Sys) (l : RwLock.Lock Carrier) : Prop where
  sim : Sim s l
  calls : CallsWithin Call.manual s
  futs : ∀ f x, s.futs f = some x → x.fut.isManual
  shared : s.exclusiveRefs = 0
  kept : l.block ≠ .lost

section
variable {cfg : Config} {s s' : Sys} {a : Act} {l : RwLock.Lock Carrier}

theorem Manual.Inv.new : Inv Sys.new ⟨0, .free⟩ := ⟨Sim.new, .new, fun _ _ => nofun, rfl, nofun⟩

theorem manual_futs_step (hw : Wf s) (hc : CallsWithin Call.manual s) (hf : ∀ f x, s.futs f = some x → x.fut.isManual)
    (ha : a.within Call.manual = true) (h : Step cfg s a s') : ∀ f x, s'.futs f = some x → x.fut.isManual := by
  refine h.futs_all hw hf (fun b x hx => ?_) (fun _ hx => hx) (fun _ _ _ hx => hx) (fun _ _ _ _ _ _ hx => hx) ?_ ?_ ?_ ?_
  · rw [Fut.isManual, FutRec.setRegistered, kind_setRegistered]; exact hx
  · intro t x _ hk hx
    rw [Fut.isManual, hk] at hx
    rcases hx with hx | hx <;> cases hx
  · intro t x _ hk hx
    rw [Fut.isManual, hk] at hx
    rcases hx with hx | hx <;> cases hx
  · intro t fut b hr
    have hcall := hc t
    generalize s.pc t = p at hr hcall
    cases hr with
    | getRef _ => exact .inl rfl
    | blockRefs _ => exact .inr rfl
    | getExclusiveRef _ => cases hcall _ rfl
    | getExclusiveRefBlocked _ => cases hcall _ rfl
  · intro fut hn
    cases hn with
    | newFutureRef => exact .inl rfl
    | _ => cases ha

theorem Manual.Inv.no_check (hi : Inv s l) {t : ThreadId} {op : CheckOp} : s.pc t ≠ .noStandardRefs op := by
  intro hpc
  have hc := hi.calls t op.call (by rw [hpc]; rfl)
  cases op with
  | pollExclusiveRef f w =>
    obtain ⟨x, hx, _, hk⟩ := hi.sim.wf.polls_at hpc rfl
    rcases hi.futs f x hx with hm | hm <;> rw [hm] at hk <;> cases hk
  | _ => cases hc

theorem Manual.Inv.no_fut (hi : Inv s l) (f : FutId) : s.held (.fut f) = 0 := by
  show blockOf (s.futs f) = 0
  cases hx : s.futs f with
  | none => rfl
  | some x =>
    cases hb : x.holdsBlock with
    | false => simp [blockOf, hb]
    | true =>
      have hk := hi.sim.wf.sound f x hx hb
      rcases hi.futs f x hx with hm | hm <;> rw [hm] at hk <;> cases hk

theorem Manual.Inv.disciplined (hi : Inv s l) (ha : a.within Call.manual = true) : Disciplined s a := by
  refine ⟨fun f _ x hx hk => ?_, ?_⟩
  · rcases hi.futs f x hx with hm | hm <;> rw [hm] at hk <;> cases hk
  · cases a with
    | newFutureExclusiveRef _ => cases ha
    | _ => rfl

theorem Manual.Inv.step (hi : Inv s l) (hm : Manual s a s') (hc : StoresClean s a) (h : exec cfg s a = some s') :
    ∃ l', Inv s' l' := by
  have hst := exec_step h
  obtain ⟨l', _, hs, _, hl⟩ := hi.sim.step (hi.disciplined hm.1) hc hm.2 hst
  refine ⟨l', hs, hi.calls.step hm.1 hst, manual_futs_step hi.sim.wf hi.calls hi.futs hm.1 hst, ?_, fun e => ?_⟩
  · rcases hst.exclusiveRefs with he | ⟨t, b, op, _, hpc, _⟩
    · rw [hi.shared] at he; exact Nat.le_zero.mp he
    · exact absurd hpc hi.no_check
  · rcases hl e with he | ⟨f, _, hf⟩
    · exact hi.kept he
    · rw [hi.no_fut f] at hf; cases hf

theorem Manual.Inv.exact (hi : Inv s l) : ManualExact s := by
  refine ⟨hi.sim.exact, hi.sim.blocked.trans ⟨fun hb => ?_, ?_⟩⟩
  · cases hl : l.block with
    | free => exact absurd hl hb
    | lost => exact absurd hl hi.kept
    | held c =>
      have hc : 0 < s.held c := by rw [hi.sim.held, hl, RwLock.Block.tokens_self]; exact Nat.one_pos
      cases c with
      | user => exact .inl hc
      | thread t =>
        rcases holds_pos hc with ⟨op, hpc⟩ | ⟨op, hpc⟩
        · exact absurd hpc hi.no_check
        · have hm := hi.calls t op.call (by rw [hpc]; rfl)
          cases op with
          | unblockRefs => exact .inr ⟨t, hpc⟩
          | _ => cases hm
      | dropping t => cases hi.calls t .dropExclusiveRef (by rw [drops_pos hc]; rfl)
      | fut f => rw [hi.no_fut f] at hc; cases hc
      | exclusiveRef => exact absurd hi.shared (Nat.ne_of_gt hc)
  · rintro (hu | ⟨t, hpc⟩)
    · rw [hi.sim.holder (c := .user) hu]; exact nofun
    · have ht : 0 < s.held (.thread t) := by rw [held_thread hpc]; exact Nat.one_pos
      rw [hi.sim.holder ht]; exact nofun

/-- In a run of manual blocking, the word counts the references in every state, its
bit is set exactly while a caller has the block, and no drop takes it below zero, if
and only if every `unblock_refs` stores `REF_ALLOWED` when no `Ref` is live. -/
theorem manual_blocking (cfg : Config) (as : List Act) (h : AllSteps (exec cfg) Manual Sys.new as) :
    AllStates (exec cfg) ManualExact Sys.new as ∧
      AllSteps (exec cfg) (fun s a _ => a = .dropRef → refIncr.toNat ≤ s.count.toNat) Sys.new as ↔
    AllSteps (exec cfg) (fun s a _ => s.stores a = some .unblockRefs → s.refs = 0) Sys.new as := by
  constructor
  · rintro ⟨hs, _⟩
    refine AllStates.steps (fun _ => True) (fun s a s' _ _ _ he hst => ⟨fun ho => ?_, trivial⟩) trivial h hs
    exact stores_exact ho hst he.1
  · intro hc
    have hi : AllStates (exec cfg) (fun s => ∃ l, Manual.Inv s l) Sys.new as := by
      refine AllSteps.inv _ ?_ ⟨_, Manual.Inv.new⟩ (h.and hc)
      rintro s a s' ⟨l, hi⟩ ⟨hm, hc⟩ hst
      refine hi.step hm (fun op ho _ => ?_) hst
      have hop := hi.calls.stores ho
      cases op with
      | unblockRefs => exact hc ho
      | _ => cases hop
    refine ⟨hi.imp fun s ⟨l, hi⟩ => hi.exact, hi.allSteps ?_⟩
    rintro s a s' hst ⟨l, hi⟩ rfl
    exact hi.sim.dropRef hst

end

/-- The drop comes between the block and the `unblock_refs`. -/
theorem manual_blocking_dropped :
    AllStates (exec ⟨2, false⟩) ManualExact Sys.new
      [.call 0 .tryGetRef, .step 0 false, .step 0 false, .call 1 .tryBlockRefs, .step 1 false, .step 1 false,
       .dropRef, .call 1 .unblockRefs, .step 1 false] :=
  ((manual_blocking ⟨2, false⟩ _ (by decide)).mpr (by decide)).1

def unblockBesideRef : List Act :=
  [.call 0 .tryGetRef, .step 0 false, .step 0 false,
   .call 1 .tryBlockRefs, .step 1 false, .step 1 false,
   .call 1 .unblockRefs, .step 1 false]

/-- The word has lost the `Ref`, and its drop wraps. -/
theorem manual_blocking_lost : AllSteps (exec ⟨2, false⟩) Manual Sys.new (unblockBesideRef ++ [.dropRef]) ∧
    ¬ AllStates (exec ⟨2, false⟩) ManualExact Sys.new unblockBesideRef ∧
    (∃ s, run (exec ⟨2, false⟩) Sys.new unblockBesideRef = some s ∧ s.refs = 1 ∧ s.count = 0) ∧
    ∃ s, run (exec ⟨2, false⟩) Sys.new (unblockBesideRef ++ [.dropRef]) = some s ∧ s.refs = 0 ∧
      s.count = 4294967294 := by
  refine ⟨by decide, fun h => ?_, ⟨_, rfl, rfl, rfl⟩, ⟨_, rfl, rfl, rfl⟩⟩
  exact absurd (h.last rfl).1 (by decide)

/-! ## The roll-back of `try_get_exclusive_ref` -/

def Safe (s : Sys) (a : Act) (s' : Sys) : Prop :=
  a.within Call.safe = true ∧ Disciplined s a ∧ s'.refs ≤ maxRefs

instance (s : Sys) (a : Act) (s' : Sys) : Decidable (Safe s a s') := inferInstanceAs (Decidable (_ ∧ _ ∧ _))

/-- What the steps of a run keep to when every failed `try_get_exclusive_ref` undoes
what it did: its store clears the bit it had set and leaves the other bits alone, its
other steps leave the word alone, no `ExclusiveRef` comes up beside a `Ref`, and no
drop of a `Ref` wraps the word. -/
structure RollsBack (s : Sys) (a : Act) (s' : Sys) : Prop where
  undoes : s.stores a = some .tryGetExclusiveRef →
    isBlocked s.count = true ∧ s'.count = s.count &&& refCountMask
  leaves : ∀ t b, a = .step t b → (s.pc t).call = some .tryGetExclusiveRef → s.stores a = none →
    ¬ TakesBlock s a → s'.count = s.count
  grants : s.exclusiveRefs < s'.exclusiveRefs → s.refs = 0
  drops : a = .dropRef → refIncr.toNat ≤ s.count.toNat

structure Safe.Inv (s : Sys) (l : RwLock.Lock Carrier) : Prop where
  sim : Sim s l
  calls : CallsWithin Call.safe s

section
variable {cfg : Config} {s s' : Sys} {a : Act} {l : RwLock.Lock Carrier}

theorem Safe.Inv.storesClean (hi : Inv s l) (hc : s.stores a = some .tryGetExclusiveRef → s.refs = 0) :
    StoresClean s a := by
  intro op ho hne
  have hop := hi.calls.stores ho
  cases op with
  | tryGetExclusiveRef => exact hc ho
  | dropExclusiveRef => exact absurd rfl hne
  | unblockRefs => cases hop

theorem Safe.Inv.step (hi : Inv s l) (ha : a.within Call.safe = true) (hd : Disciplined s a)
    (hc : s.stores a = some .tryGetExclusiveRef → s.refs = 0) (hr : s'.refs ≤ maxRefs)
    (h : exec cfg s a = some s') : ∃ l', Inv s' l' := by
  obtain ⟨l', _, hs, _⟩ := hi.sim.step hd (hi.storesClean hc) hr (exec_step h)
  exact ⟨l', hs, hi.calls.step ha (exec_step h)⟩

theorem Sim.grants (hs : Sim s l) (h : exec cfg s a = some s') (he : s.exclusiveRefs < s'.exclusiveRefs) :
    s.refs = 0 := by
  rcases (exec_step h).exclusiveRefs with hle | ⟨_, _, _, _, _, hz⟩
  · exact absurd he (Nat.not_lt.mpr hle)
  · rw [← hs.exact, standardRefCount_toNat]
    exact (noStandardRefs_iff _).mp hz

theorem tryGetExclusiveRef_leaves {t : ThreadId} {b : Bool} (h : Step cfg s (.step t b) s')
    (hp : (s.pc t).call = some .tryGetExclusiveRef) (hst : s.stores (.step t b) = none)
    (hb : ¬ TakesBlock s (.step t b)) : s'.count = s.count := by
  cases h with
  | acquire hpc hop _ => rw [hpc] at hp; cases hop <;> cases hp
  | acquirePoll hpc _ => rw [hpc] at hp; cases hp
  | blockAsk hpc _ hc => exact absurd ⟨t, _, _, _, rfl, hpc, hc⟩ hb
  | blockUser hpc _ hc => exact absurd ⟨t, _, _, _, rfl, hpc, hc⟩ hb
  | blockPollBlocked hpc hc => exact absurd ⟨t, _, _, _, rfl, hpc, hc⟩ hb
  | blockPollExclusive hpc hc => exact absurd ⟨t, _, _, _, rfl, hpc, hc⟩ hb
  | release hpc => rw [stores_step hpc] at hst; cases hst
  | _ => rfl

/-- The store of a thread that has the block in its hands, with no `Ref` left, clears
the block bit and no other. -/
theorem Sim.undoes (hs : Sim s l) (h : exec cfg s a = some s') (ho : s.stores a = some .tryGetExclusiveRef)
    (hz : s.refs = 0) : isBlocked s.count = true ∧ s'.count = s.count &&& refCountMask := by
  obtain ⟨t, b, rfl, hpc⟩ := stores_eq ho
  have ht : 0 < s.held (.thread t) := by rw [held_thread hpc]; exact Nat.one_pos
  refine ⟨hs.blocked.mpr (by rw [hs.holder ht]; exact nofun), ?_⟩
  rw [(exec_stores ho h).1, ← UInt32.toNat_inj, mask_toNat]
  have hw := hs.word
  have hb : (RwLock.Block.held (Carrier.thread t)).bit = 1 := rfl
  rw [← hs.refs, hz, hs.holder ht, hb] at hw
  rw [hw]; rfl

theorem Safe.Inv.rollsBack (hi : Inv s l) (hc : s.stores a = some .tryGetExclusiveRef → s.refs = 0)
    (h : exec cfg s a = some s') : RollsBack s a s' where
  undoes := fun ho => hi.sim.undoes h ho (hc ho)
  leaves := fun t b ha hp hst hb => by
    subst ha
    exact tryGetExclusiveRef_leaves (exec_step h) hp hst hb
  grants := hi.sim.grants h
  drops := fun ha => by
    subst ha
    exact hi.sim.dropRef h

/-- In a run of the safe methods, the word counts the references in every state and
every failed `try_get_exclusive_ref` rolls back completely, if and only if each of
them stores `REF_ALLOWED` when no `Ref` is live. -/
theorem try_get_exclusive_ref_rollback (cfg : Config) (as : List Act) (h : AllSteps (exec cfg) Safe Sys.new as) :
    AllStates (exec cfg) (fun s => (standardRefCount s.count).toNat = s.refs) Sys.new as ∧
      AllSteps (exec cfg) RollsBack Sys.new as ↔
    AllSteps (exec cfg) (fun s a _ => s.stores a = some .tryGetExclusiveRef → s.refs = 0) Sys.new as := by
  constructor
  · rintro ⟨hs, _⟩
    refine AllStates.steps (fun _ => True) (fun s a s' _ _ _ he hst => ⟨fun ho => ?_, trivial⟩) trivial h hs
    exact stores_exact ho hst he
  · intro hc
    have hi : AllStates (exec cfg) (fun s => ∃ l, Safe.Inv s l) Sys.new as := by
      refine AllSteps.inv _ ?_ ⟨_, Sim.new, .new⟩ (h.and hc)
      rintro s a s' ⟨l, hi⟩ ⟨⟨ha, hd, hr⟩, hc⟩ hst
      exact hi.step ha hd hc hr hst
    refine ⟨hi.imp fun s ⟨l, hi⟩ => hi.sim.exact, ?_⟩
    refine ((hi.allSteps fun _ _ _ _ hi => hi).and hc).imp ?_
    rintro s a s' hst ⟨⟨l, hi⟩, hc⟩
    exact hi.rollsBack hc hst

end

/-- One thread has a `Ref`; another runs `try_get_exclusive_ref` as far as the roll-back. -/
def tryExclusiveBesideRef : List Act :=
  [.call 0 .tryGetRef, .step 0 false, .step 0 false,
   .call 1 .tryGetExclusiveRef, .step 1 false, .step 1 false,
   .step 1 false, .step 1 false, .step 1 false, .step 1 false, .step 1 false]

/-- The `Ref` is dropped after the last check and before the roll-back. -/
theorem try_get_exclusive_ref_rollback_dropped :
    AllStates (exec ⟨2, false⟩) (fun s => (standardRefCount s.count).toNat = s.refs) Sys.new
      (tryExclusiveBesideRef ++ [.dropRef, .step 1 false, .step 1 false, .step 1 false]) :=
  ((try_get_exclusive_ref_rollback ⟨2, false⟩ _ (by decide)).mpr (by decide)).1

/-- `try_get_exclusive_ref` returns `None` with the live `Ref` no longer counted, and
then `get_exclusive_ref` grants an `ExclusiveRef` beside it. -/
theorem try_get_exclusive_ref_rollback_lost :
    AllSteps (exec ⟨2, false⟩) Safe Sys.new
      (tryExclusiveBesideRef ++ [.step 1 false, .step 1 false, .step 1 false,
        .call 1 .getExclusiveRef, .step 1 false, .step 1 false, .step 1 false]) ∧
    (∃ s, run (exec ⟨2, false⟩) Sys.new (tryExclusiveBesideRef ++ [.step 1 false, .step 1 false, .step 1 false]) =
      some s ∧ s.pc 1 = .done .none ∧ s.refs = 1 ∧ (standardRefCount s.count).toNat = 0) ∧
    ∃ s, run (exec ⟨2, false⟩) Sys.new
      (tryExclusiveBesideRef ++ [.step 1 false, .step 1 false, .step 1 false,
        .call 1 .getExclusiveRef, .step 1 false, .step 1 false, .step 1 false]) = some s ∧
      s.pc 1 = .done .exclusiveRef ∧ s.exclusiveRefs = 1 ∧ s.refs = 1 :=
  ⟨by decide, ⟨_, rfl, rfl, rfl, rfl⟩, ⟨_, rfl, rfl, rfl, rfl⟩⟩

/-! ## The sum `cur_state + REF_INCR` -/

/-- A client of the safe methods that lets any number of references exist. -/
def Unbounded (s : Sys) (a : Act) (_ : Sys) : Prop := a.within Call.safe = true ∧ Disciplined s a

instance (s : Sys) (a : Act) (s' : Sys) : Decidable (Unbounded s a s') := inferInstanceAs (Decidable (_ ∧ _))

/-- The step computes `cur_state + REF_INCR` from the word it sees: the first load,
and each of the first three failed attempts. -/
def Sys.adds (s : Sys) : Act → Bool
  | .step t spurious =>
    match s.pc t with
    | .incrLoad _ => true
    | .incrCas _ attempt locals => ¬ (s.count = locals.refCount ∧ spurious = false) ∧ attempt < 3
    | _ => false
  | _ => false

/-- The sum does not wrap (with overflow checks it panics instead), an acquisition
makes the count one larger than the number of references was, and no `ExclusiveRef`
comes up beside a `Ref`. -/
structure Counted (cfg : Config) (s : Sys) (a : Act) (s' : Sys) : Prop where
  sum : s.adds a = true → cfg.overflowChecks = true ∨ (s.count &&& refCountMask).toNat + refIncr.toNat < 2 ^ 32
  acquires : s.refs < s'.refs → (standardRefCount s'.count).toNat = s.refs + 1
  grants : s.exclusiveRefs < s'.exclusiveRefs → s.refs = 0

structure Unbounded.Inv (s : Sys) (l : RwLock.Lock Carrier) : Prop extends Safe.Inv s l where
  locals : ∀ t op n (p : IncrPair), s.pc t = .incrCas op n p → p.refCount.toNat + 2 < 2 ^ 32

section
variable {cfg : Config} {s s' : Sys} {a : Act} {l : RwLock.Lock Carrier}

theorem observe_eq {oc : Bool} {w : UInt32} {p : IncrPair} (h : IncrPair.observe oc w = some p) :
    p.refCount = w &&& refCountMask ∧ (oc = true → (w &&& refCountMask).toNat + refIncr.toNat < 2 ^ 32) := by
  unfold IncrPair.observe at h
  split at h
  · cases h
  · rename_i hn
    cases h
    exact ⟨rfl, fun ho => Nat.lt_of_not_le fun hle => hn ⟨ho, hle⟩⟩

theorem Jump.locals {b : Bool} {q : Pc} {t : ThreadId} (h : Jump cfg s b (s.pc t) q) {op : IncrOp} {n : Nat}
    {p : IncrPair} (hq : q = .incrCas op n p) : (∃ o m, s.pc t = .incrCas o m p) ∨
      s.adds (.step t b) = true ∧ IncrPair.observe cfg.overflowChecks s.count = some p := by
  generalize hpc : s.pc t = r at h
  cases h with
  | incrLoad hl => cases hq; exact .inr ⟨by simp [Sys.adds, hpc], hl⟩
  | incrRetry hf hn hl =>
    cases hq
    refine .inr ⟨?_, hl⟩
    simp only [Sys.adds, hpc]
    exact decide_eq_true ⟨hf, hn⟩
  | blockingGetRefLoop _ => cases hq; exact .inl ⟨_, _, rfl⟩
  | _ => cases hq

theorem Step.locals (h : Step cfg s a s') {t : ThreadId} {op : IncrOp} {n : Nat} {p : IncrPair}
    (ht : s'.pc t = .incrCas op n p) : (∃ o m, s.pc t = .incrCas o m p) ∨
      s.adds a = true ∧ IncrPair.observe cfg.overflowChecks s.count = some p := by
  by_cases ha : a.thread? = some t
  · cases h with
    | begin _ hb => cases ha; rw [setPc_self] at ht; subst ht; cases hb
    | beginPoll _ _ _ =>
      cases ha
      rw [setPc_self] at ht
      unfold pollStart at ht
      split at ht <;> cases ht
    | jump hj => cases ha; rw [setPc_self] at ht; exact hj.locals ht
    | dropRef => cases ha
    | forgetRef => cases ha
    | dropFuture => cases ha
    | newFuture hn => cases hn <;> cases ha
    | _ => cases ha; simp at ht
  · rw [h.pc_frame ha] at ht
    exact .inl ⟨op, n, ht⟩

theorem Step.refs (h : Step cfg s a s') : s'.refs ≤ s.refs ∨ s'.refs = s.refs + 1 ∧ TakesRef s a := by
  cases h with
  | acquire hpc _ hc => exact .inr ⟨rfl, _, _, _, _, rfl, hpc, hc⟩
  | acquirePoll hpc hc => exact .inr ⟨rfl, _, _, _, _, rfl, hpc, hc⟩
  | dropRef _ => exact .inl (Nat.sub_le _ _)
  | _ => exact .inl (Nat.le_refl _)

theorem Sim.mask (hs : Sim s l) : (s.count &&& refCountMask).toNat = 2 * s.refs := by
  rw [mask_toNat, ← standardRefCount_toNat, hs.exact]

theorem Unbounded.Inv.refs_le (hi : Inv s l) (h : Step cfg s a s') : s'.refs ≤ maxRefs := by
  have hm : maxRefs = 2 ^ 31 - 1 := rfl
  have hw := hi.sim.word
  have hr := hi.sim.refs
  have hlt : s.count.toNat < 2 ^ 32 := s.count.toNat_lt
  rcases h.refs with hle | ⟨he, t, op, n, p, _, hpc, hc⟩
  · omega
  · have := hi.locals t op n p hpc
    rw [← hc] at this
    omega

theorem Unbounded.Inv.step (hi : Inv s l) (hu : Unbounded s a s')
    (hsum : s.adds a = true → cfg.overflowChecks = true ∨ s.refs < maxRefs)
    (hc : s.stores a = some .tryGetExclusiveRef → s.refs = 0) (h : exec cfg s a = some s') : ∃ l', Inv s' l' := by
  obtain ⟨l', hs⟩ := hi.toInv.step hu.1 hu.2 hc (hi.refs_le (exec_step h)) h
  refine ⟨l', hs, fun t op n p hp => ?_⟩
  rcases (exec_step h).locals hp with ⟨o, m, hpc⟩ | ⟨ha, ho⟩
  · exact hi.locals t o m p hpc
  · obtain ⟨hl, hoc⟩ := observe_eq ho
    have hm : maxRefs = 2 ^ 31 - 1 := rfl
    rw [hl]
    rcases hsum ha with hov | hlt
    · exact hoc hov
    · have := hi.sim.mask
      omega

theorem Unbounded.Inv.counted (hi : Inv s l) (hu : Unbounded s a s')
    (hsum : s.adds a = true → cfg.overflowChecks = true ∨ s.refs < maxRefs)
    (hc : s.stores a = some .tryGetExclusiveRef → s.refs = 0) (h : exec cfg s a = some s') : Counted cfg s a s' where
  sum := fun ha => (hsum ha).imp id fun hlt => by
    have hm : maxRefs = 2 ^ 31 - 1 := rfl
    rw [hi.sim.mask, refIncr_toNat]
    omega
  acquires := fun hlt => by
    obtain ⟨l', hi'⟩ := hi.step hu hsum hc h
    rw [hi'.sim.exact]
    rcases (exec_step h).refs with hle | ⟨he, _⟩
    · exact absurd hlt (Nat.not_lt.mpr hle)
    · exact he
  grants := hi.sim.grants h

/-- In a run of the safe methods, the count is exact in every state, every acquisition
raises it by one without a wrap, and an `ExclusiveRef` comes up only when no `Ref` is
live, if and only if no attempt adds to a full count in a build without overflow
checks, and no roll-back of `try_get_exclusive_ref` is made beside a `Ref`. -/
theorem acquisitions_count (cfg : Config) (as : List Act) (h : AllSteps (exec cfg) Unbounded Sys.new as) :
    AllStates (exec cfg) (fun s => (standardRefCount s.count).toNat = s.refs) Sys.new as ∧
      AllSteps (exec cfg) (Counted cfg) Sys.new as ↔
    AllSteps (exec cfg) (fun s a _ => (s.adds a = true → cfg.overflowChecks = true ∨ s.refs < maxRefs) ∧
      (s.stores a = some .tryGetExclusiveRef → s.refs = 0)) Sys.new as := by
  constructor
  · rintro ⟨hs, hc⟩
    refine AllStates.steps (fun _ => True) (fun s a s' _ hk he he' hst => ⟨⟨fun ha => ?_, fun ho => ?_⟩, trivial⟩)
      trivial hc hs
    · refine (hk.sum ha).imp id fun hlt => ?_
      have hm : maxRefs = 2 ^ 31 - 1 := rfl
      rw [mask_toNat, ← standardRefCount_toNat, he, refIncr_toNat] at hlt
      omega
    · exact stores_exact ho hst he'
  · intro hc
    have hi : AllStates (exec cfg) (fun s => ∃ l, Unbounded.Inv s l) Sys.new as := by
      refine AllSteps.inv _ ?_ ⟨⟨0, .free⟩, ⟨Sim.new, .new⟩, fun _ _ _ _ => nofun⟩ (h.and hc)
      rintro s a s' ⟨l, hi⟩ ⟨hu, hsum, hc⟩ hst
      exact hi.step hu hsum hc hst
    refine ⟨hi.imp fun s ⟨l, hi⟩ => hi.sim.exact, ?_⟩
    refine (((hi.allSteps fun _ _ _ _ hi => hi).and h).and hc).imp ?_
    rintro s a s' hst ⟨⟨⟨l, hi⟩, hu⟩, hsum, hc⟩
    exact hi.counted hu hsum hc hst

end

/-- A `Ref` is taken, leaked, and dropped by nobody: the next request for an
`ExclusiveRef` waits. -/
theorem acquisitions_count_leaked :
    AllStates (exec ⟨2, false⟩) (fun s => (standardRefCount s.count).toNat = s.refs) Sys.new
      (takeRef 0 ++ [.forgetRef] ++ askExclusiveRef 1) :=
  ((acquisitions_count ⟨2, false⟩ _ (by decide)).mpr (by decide)).1

def takeRefs : Nat → List Act
  | 0 => []
  | n + 1 => takeRefs n ++ takeRef 0

theorem mem_takeRefs {n : Nat} {a : Act} (h : a ∈ takeRefs n) : a ∈ takeRef 0 := by
  induction n with
  | zero => cases h
  | succ n ih => exact (List.mem_append.mp h).elim ih id

theorem run_takeRefs (n : Nat) : ∃ s r, run (exec ⟨2, false⟩) Sys.new (takeRefs n) = some s ∧ s.pc 0 = .done r ∧
    s.count.toNat = 2 * n % 2 ^ 32 ∧ s.refs = n ∧ s.exclusiveRefs = 0 := by
  induction n with
  | zero => exact ⟨Sys.new, _, rfl, rfl, rfl, rfl, rfl⟩
  | succ n ih =>
    obtain ⟨s, r, hrun, hpc, hc, hr, he⟩ := ih
    have heven : s.count.toNat % 2 = 0 := by omega
    obtain ⟨s', hrun', hpc', hc', hr', he'⟩ := run_takeRef ⟨2, false⟩ hpc heven nofun
    refine ⟨s', _, run_concat hrun hrun', hpc', ?_, by rw [hr', hr], by rw [he', he]⟩
    rw [hc', UInt32.toNat_add, refIncr_toNat, hc]
    omega

theorem takeRefs_unbounded (n : Nat) :
    AllSteps (exec ⟨2, false⟩) Unbounded Sys.new (takeRefs n ++ askExclusiveRef 0) := by
  refine allSteps_of fun a ha u u' _ => ?_
  have hmem : a ∈ takeRef 0 ++ askExclusiveRef 0 := by
    rcases List.mem_append.mp ha with h | h
    · exact List.mem_append_left _ (mem_takeRefs h)
    · exact List.mem_append_right _ h
  simp only [takeRef, askExclusiveRef, List.cons_append, List.nil_append, List.mem_cons, List.not_mem_nil,
    or_false] at hmem
  have hfree : ∀ a : Act, a.within Call.safe = true → a.polled = none → a.makesUnbacked = false →
      Unbounded u a u' := by
    intro a hs hp hne
    refine ⟨hs, ?_, hne⟩
    intro f hf
    rw [hp] at hf; cases hf
  rcases hmem with rfl | rfl | rfl | rfl | rfl | rfl | rfl <;> exact hfree _ rfl rfl rfl

/-- Without overflow checks, `2 ^ 31` references wrap the word to zero, and
`get_exclusive_ref` grants an `ExclusiveRef` beside them. -/
theorem acquisitions_count_wrap : ∃ s s', AllSteps (exec ⟨2, false⟩) Unbounded Sys.new
      (takeRefs (2 ^ 31) ++ askExclusiveRef 0) ∧
    run (exec ⟨2, false⟩) Sys.new (takeRefs (2 ^ 31)) = some s ∧ s.refs = 2 ^ 31 ∧
    (standardRefCount s.count).toNat = 0 ∧
    run (exec ⟨2, false⟩) s (askExclusiveRef 0) = some s' ∧ s'.refs = 2 ^ 31 ∧ s'.exclusiveRefs = 1 := by
  -- a name for the number, so that nothing unfolds so many calls
  obtain ⟨n, hn⟩ : ∃ n : Nat, n = 2 ^ 31 := ⟨_, rfl⟩
  rw [← hn]
  obtain ⟨s, r, hrun, hpc, hc, hr, he⟩ := run_takeRefs n
  have h0 : s.count = 0 := by
    rw [← UInt32.toNat_inj, hc, hn]; rfl
  obtain ⟨s', hrun', he', hr', _⟩ := run_askExclusiveRef ⟨2, false⟩ hpc h0
  exact ⟨s, s', takeRefs_unbounded n, hrun, hr, by rw [h0]; rfl, hrun', hr'.trans hr, by rw [he', he]⟩

end RefCount
