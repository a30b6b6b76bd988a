import RefCount.Block

/-!
# The machine is a reader–writer lock

`Sim s l`: the word of `s` is the number of readers of the lock `l` and its block
bit, the standard references are the readers, and who has the block in `s` is the
carrier of `l`. A step of the machine is a step of the lock as long as the number
of references fits the word, nobody makes an `ExclusiveRef` out of a future that
has none coming, and `REF_ALLOWED` is stored over a word without references.
-/

namespace RefCount

open RwLock (Lock)

/-- The inner future is none of another `RefCount`, and a `FutureExclusiveRef` without
one was given the block. -/
structure FutRec.Honest (x : FutRec) : Prop where
  here : x.fut.kind ≠ .elsewhere
  owns : x.fut.kind = .owning → x.status ≠ .finished → x.holdsBlock = true

def Act.polled : Act → Option FutId
  | .call _ (.poll f _) => some f
  | _ => none

/-- `FutureExclusiveRef::new` is called without an inner future of this `RefCount`: with
`None`, or with an inner future of another one. -/
def Act.makesUnbacked : Act → Bool
  | .newFutureExclusiveRef inner => inner ≠ some .this
  | _ => false

/-- The client polls no `FutureExclusiveRef` again after `Ready`, and makes none
that claims a block nobody took. -/
def Disciplined (s : Sys) (a : Act) : Prop :=
  (∀ f ∈ a.polled, ∀ x ∈ s.futs f, x.fut.kind = .owning → x.status ≠ .finished) ∧ a.makesUnbacked = false

instance (s : Sys) (a : Act) : Decidable (Disciplined s a) := inferInstanceAs (Decidable (_ ∧ _))

/-- The operation that stores `REF_ALLOWED` in this step, if one does. -/
def Sys.stores (s : Sys) : Act → Option ReleaseOp
  | .step t _ =>
    match s.pc t with
    | .releaseStore op => some op
    | _ => none
  | _ => none

/-- Where the word is overwritten by `REF_ALLOWED` outside of
`Drop for ExclusiveRef`, no standard reference exists. -/
def StoresClean (s : Sys) (a : Act) : Prop := ∀ op ∈ s.stores a, op ≠ .dropExclusiveRef → s.refs = 0

instance (s : Sys) (a : Act) : Decidable (StoresClean s a) := inferInstanceAs (Decidable (∀ op ∈ _, _))

structure Sim (s : Sys) (l : Lock Carrier) : Prop where
  wf : Wf s
  honest : ∀ f x, s.futs f = some x → x.Honest
  word : s.count.toNat = 2 * l.readers + l.block.bit
  refs : s.refs = l.readers
  held : Hands s l.block
  excl : RwLock.Exclusive Carrier.excl l

theorem Sim.new : Sim Sys.new ⟨0, .free⟩ where
  wf := Wf.new
  honest := fun _ _ h => nomatch h
  word := rfl
  refs := rfl
  held := fun c => by cases c <;> rfl
  excl := fun _ h => nomatch h

section
variable {cfg : Config} {s s' : Sys} {a : Act} {l : Lock Carrier}

theorem Requests.honest {p : Pc} {fut : Fut} {b : Bool} (hr : Requests s p fut b) :
    FutRec.Honest ⟨fut, .created, none, 0, b⟩ := by
  cases hr <;> refine ⟨FutKind.noConfusion, ?_⟩ <;> first | exact fun _ _ => rfl | exact FutKind.noConfusion

theorem Constructs.hasFlag {fut : Fut} (h : Constructs a fut) : fut.kind.hasFlag = !a.makesUnbacked := by
  cases h with
  | newFutureRef => rfl
  | newFutureBlockedRefs => rfl
  | @newFutureExclusiveRef inner =>
    cases inner with
    | none => rfl
    | some src => cases src <;> rfl

theorem FutRec.Honest.setRegistered {x : FutRec} (b : Bool) (h : x.Honest) : (x.setRegistered b).Honest := by
  have hkind : (x.setRegistered b).fut.kind = x.fut.kind := kind_setRegistered x.fut b
  exact ⟨hkind ▸ h.here, hkind ▸ h.owns⟩

theorem Wf.not_finished (hw : Wf s) {t : ThreadId} {f : FutId} {x : FutRec} (hp : (s.pc t).polls = some f)
    (hx : s.futs f = some x) : x.status ≠ .finished := by
  rw [(hw.polled hp hx).1]; exact FutStatus.noConfusion

theorem honest_step (hh : ∀ f x, s.futs f = some x → x.Honest) (hw : Wf s) (hd : Disciplined s a)
    (h : Step cfg s a s') : ∀ f x, s'.futs f = some x → x.Honest := by
  refine h.futs_all hw hh (fun b _ hx => hx.setRegistered b) (fun _ hx => ⟨hx.here, fun _ hs => absurd rfl hs⟩)
    ?_ ?_ (fun _ _ _ _ _ => ⟨FutKind.noConfusion, fun _ _ => rfl⟩) (fun _ _ _ hk hx => absurd hk hx.here)
    (fun _ _ _ hr => hr.honest) ?_
  · exact fun t x hs hx => ⟨hx.here, fun hk _ => hx.owns hk (by rw [hs]; exact nofun)⟩
  · exact fun t f w x ha hf hx => ⟨hx.here, fun hk _ => hx.owns hk (hd.1 f (by rw [ha]; rfl) x hf hk)⟩
  · intro fut hn
    have hflag : fut.kind.hasFlag = true := by
      rw [hn.hasFlag, hd.2]; rfl
    refine ⟨fun e => ?_, fun e => ?_⟩
    · rw [e] at hflag; cases hflag
    · rw [e] at hflag; cases hflag

/-! ## The simulation -/

theorem stores_step {t : ThreadId} {b : Bool} {op : ReleaseOp} (hpc : s.pc t = .releaseStore op) :
    s.stores (.step t b) = some op := by
  simp [Sys.stores, hpc]

theorem stores_eq {op : ReleaseOp} (h : s.stores a = some op) :
    ∃ t b, a = .step t b ∧ s.pc t = .releaseStore op := by
  cases a with
  | step t b =>
    refine ⟨t, b, rfl, ?_⟩
    simp only [Sys.stores] at h
    split at h
    · rename_i o hpc
      rw [hpc, Option.some.inj h]
    · cases h
  | _ => simp [Sys.stores] at h

theorem Sim.held_free (h : Sim s l) (he : s.count.toNat % 2 = 0) : l.block = .free := by
  have hb := l.block.bit_le
  have hw := h.word
  exact RwLock.Block.bit_eq_zero.mp (by omega)

theorem Sim.holder (h : Sim s l) {c : Carrier} (hc : 0 < s.held c) : l.block = .held c := h.held.holder hc

theorem add_refIncr_toNat {w : UInt32} (h : w.toNat + 2 < 2 ^ 32) : (w + refIncr).toNat = w.toNat + 2 := by
  rw [UInt32.toNat_add, refIncr_toNat, Nat.mod_eq_of_lt h]

theorem sub_refIncr_toNat {w : UInt32} (h : 2 ≤ w.toNat) : (w - refIncr).toNat = w.toNat - 2 := by
  have hle : refIncr ≤ w := UInt32.le_iff_toNat_le.mpr h
  rw [UInt32.toNat_sub_of_le _ _ hle, refIncr_toNat]

/-- One step of the machine is one step of the lock. Only a store of `REF_ALLOWED`
frees it, and only the drop of a future loses its block. -/
theorem Sim.step (hs : Sim s l) (hd : Disciplined s a) (hc : StoresClean s a) (hr : s'.refs ≤ maxRefs)
    (h : Step cfg s a s') : ∃ l', RwLock.Step Carrier.excl l l' ∧ Sim s' l' ∧
      (l'.block = .free → l.block = .free ∨ (s.stores a).isSome = true) ∧
      (l'.block = .lost → l.block = .lost ∨ ∃ f, a = .dropFuture f ∧ 0 < s.held (.fut f)) := by
  have hw := hs.wf.step h
  have hh := honest_step hs.honest hs.wf hd h
  have hword := hs.word
  have hrefs := hs.refs
  -- it is enough to find the step of the lock and to relate word, references and hands
  suffices hl : ∃ l', RwLock.Step Carrier.excl l l' ∧ s'.count.toNat = 2 * l'.readers + l'.block.bit ∧
      s'.refs = l'.readers ∧ Hands s' l'.block ∧
      (l'.block = .free → l.block = .free ∨ (s.stores a).isSome = true) ∧
      (l'.block = .lost → l.block = .lost ∨ ∃ f, a = .dropFuture f ∧ 0 < s.held (.fut f)) by
    obtain ⟨l', hl, hw', hr', ht, hf⟩ := hl
    exact ⟨l', hl, ⟨hw, hh, hw', hr', ht, hl.exclusive hs.excl⟩, hf⟩
  cases h.effect hs.wf with
  | quiet e₁ e₂ e₃ => exact ⟨l, .idle, by rw [e₁, hword], by rw [e₂, hrefs], fun c => by rw [e₃, hs.held], .inl, .inl⟩
  | acquire he e₁ e₂ e₃ =>
    have hf := hs.held_free he
    refine ⟨_, .enter hf, ?_, by rw [e₂, hrefs], fun c => by rw [e₃, hs.held], .inl, .inl⟩
    show s'.count.toNat = 2 * (l.readers + 1) + l.block.bit
    have hm : maxRefs = 2 ^ 31 - 1 := rfl
    rw [hf] at hword ⊢
    have hb : (RwLock.Block.free : RwLock.Block Carrier).bit = 0 := rfl
    rw [e₁, add_refIncr_toNat (by omega)]
    omega
  | dropRef h0 e₁ e₂ e₃ =>
    refine ⟨_, .leave (by omega), ?_, by rw [e₂, hrefs], fun c => by rw [e₃, hs.held], .inl, .inl⟩
    show s'.count.toNat = 2 * (l.readers - 1) + l.block.bit
    rw [e₁, sub_refIncr_toNat (by omega)]
    omega
  | block c hx he e₁ e₂ hg =>
    have hf := hs.held_free he
    have hh := hs.held
    rw [hf] at hh
    refine ⟨_, .block c hf hx, ?_, by rw [e₂, hrefs], hh.gains hg, fun _ => .inl hf, nofun⟩
    show s'.count.toNat = 2 * l.readers + 1
    rw [e₁, or_refBlocked_toNat he, hword, hf]; rfl
  | pass c d hx e₁ e₂ hp =>
    have hb := hs.holder hp.has
    refine ⟨_, .pass c d hb fun he => (hx he).imp id fun hz => ?_, ?_, by rw [e₂, hrefs], hs.held.passes hp,
      nofun, nofun⟩
    · have := (noStandardRefs_iff _).mp hz
      have := l.block.bit_le
      omega
    · show s'.count.toNat = 2 * l.readers + 1
      rw [e₁, hword, hb]; rfl
  | mint hpc hx hb _ _ _ _ =>
    have hk := (hs.wf.polled_at hpc rfl hx).2
    have := (hs.honest _ _ hx).owns (of_decide_eq_true hk) (hs.wf.not_finished (congrArg Pc.polls hpc) hx)
    rw [hb] at this; cases this
  | lose e₁ e₂ hl =>
    have hb := hs.holder hl.has
    refine ⟨_, .lose _ hb, ?_, by rw [e₂, hrefs], hs.held.loses hl, nofun, fun _ => .inr ⟨_, rfl, hl.has⟩⟩
    show s'.count.toNat = 2 * l.readers + 1
    rw [e₁, hword, hb]; rfl
  | release c hpc e₀ e₁ e₂ hl =>
    rename_i t b op
    have hb := hs.holder hl.has
    have hz : l.readers = 0 := by
      by_cases e : op = .dropExclusiveRef
      · rw [if_pos e] at e₀
        exact hs.excl c hb (e₀ ▸ trivial)
      · rw [← hrefs]; exact hc op (stores_step hpc) e
    refine ⟨_, .giveBack c hb, ?_, by rw [e₂, hrefs], hs.held.loses hl, fun _ => .inr ?_, nofun⟩
    · show s'.count.toNat = 2 * l.readers + 0
      rw [e₁, hz]; rfl
    · rw [stores_step hpc]; rfl

theorem Sim.blocked (hs : Sim s l) : isBlocked s.count = true ↔ l.block ≠ .free := by
  rw [isBlocked_iff, ← RwLock.Block.bit_eq_one]
  have := hs.word
  have := l.block.bit_le
  omega

theorem Sim.exact (hs : Sim s l) : (standardRefCount s.count).toNat = s.refs := by
  rw [standardRefCount_toNat, hs.refs]
  have := hs.word
  have := l.block.bit_le
  omega

theorem Sim.refs_zero (hs : Sim s l) {c : Carrier} (hc : 0 < s.held c) (hx : c.excl) : s.refs = 0 :=
  hs.refs.trans (hs.excl c (hs.holder hc) hx)

end

/-! ## Clients -/

/-- The step is a `compare_exchange_weak` that takes a standard reference. -/
def TakesRef (s : Sys) (a : Act) : Prop :=
  ∃ t op n l, a = .step t false ∧ s.pc t = .incrCas op n l ∧ s.count = l.refCount

/-- The step is a `compare_exchange_weak` that sets the block bit. -/
def TakesBlock (s : Sys) (a : Act) : Prop :=
  ∃ t op n l, a = .step t false ∧ s.pc t = .blockCas op n l ∧ s.count = l.refCount

/-- The acts of a client that makes only the calls `ok`, and constructs no future
that blocks. -/
def Act.within (ok : Call → Bool) : Act → Bool
  | .call _ c => ok c
  | .newFutureBlockedRefs => false
  | .newFutureExclusiveRef _ => false
  | _ => true

/-- The calls that are not `unsafe`. -/
def Call.safe : Call → Bool
  | .tryBlockRefs => false
  | .blockRefs => false
  | .unblockRefs => false
  | _ => true

def CallsWithin (ok : Call → Bool) (s : Sys) : Prop := ∀ t c, (s.pc t).call = some c → ok c = true

section
variable {cfg : Config} {s s' : Sys} {a : Act} {ok : Call → Bool}

theorem CallsWithin.new : CallsWithin ok Sys.new := fun _ _ h => nomatch h

theorem CallsWithin.step (hc : CallsWithin ok s) (ha : a.within ok = true) (h : Step cfg s a s') :
    CallsWithin ok s' := by
  intro t c ht
  rcases h.call ht with ht | rfl
  · exact hc t c ht
  · exact ha

theorem CallsWithin.stores (hc : CallsWithin ok s) {op : ReleaseOp} (ho : s.stores a = some op) :
    ok op.call = true := by
  obtain ⟨t, _, _, hpc⟩ := stores_eq ho
  exact hc t op.call (by rw [hpc]; rfl)

theorem exec_stores {op : ReleaseOp} (ho : s.stores a = some op) (h : exec cfg s a = some s') :
    s'.count = refAllowed ∧ s'.refs = s.refs := by
  obtain ⟨t, b, rfl, hpc⟩ := stores_eq ho
  simp only [exec, Sys.stepThread, hpc, Option.some.injEq] at h
  subst h; exact ⟨rfl, rfl⟩

theorem stores_exact {op : ReleaseOp} (ho : s.stores a = some op) (h : exec cfg s a = some s')
    (he : (standardRefCount s'.count).toNat = s'.refs) : s.refs = 0 := by
  obtain ⟨hc, hr⟩ := exec_stores ho h
  rw [← hr, ← he, hc]; rfl

theorem Sim.dropRef {l : Lock Carrier} (hs : Sim s l) (h : exec cfg s .dropRef = some s') :
    refIncr.toNat ≤ s.count.toNat := by
  have hr : 0 < s.refs := by
    cases exec_step h with
    | newFuture hn => cases hn
    | dropRef hr => exact Nat.zero_lt_of_lt hr
  have := hs.word
  have := hs.refs
  rw [refIncr_toNat]
  omega

end

/-! ## Calls that nobody interferes with -/

def takeRef (t : ThreadId) : List Act := [.call t .tryGetRef, .step t false, .step t false]

def askExclusiveRef (t : ThreadId) : List Act :=
  [.call t .getExclusiveRef, .step t false, .step t false, .step t false]

section
variable {s : Sys} {t : ThreadId} {r : Res}

theorem observe_even {oc : Bool} {w : UInt32} (he : w.toNat % 2 = 0) (ho : oc = true → w.toNat + 2 < 2 ^ 32) :
    IncrPair.observe oc w = some ⟨w, w + refIncr, he, rfl⟩ := by
  have hn : ¬ (oc = true ∧ 2 ^ 32 ≤ w.toNat + refIncr.toNat) := by
    rintro ⟨h, hle⟩
    rw [refIncr_toNat] at hle
    have := ho h
    omega
  simp only [IncrPair.observe, mask_even he, hn, if_false]

theorem run_takeRef (cfg : Config) (hpc : s.pc t = .done r) (he : s.count.toNat % 2 = 0)
    (ho : cfg.overflowChecks = true → s.count.toNat + 2 < 2 ^ 32) :
    ∃ s', Lts.run (exec cfg) s (takeRef t) = some s' ∧ s'.pc t = .done .ref ∧ s'.count = s.count + refIncr ∧
      s'.refs = s.refs + 1 ∧ s'.exclusiveRefs = s.exclusiveRefs := by
  let p : IncrPair := ⟨s.count, s.count + refIncr, he, rfl⟩
  let s₁ := s.setPc t (.incrLoad .tryGetRef)
  let s₂ := s₁.setPc t (.incrCas .tryGetRef 0 p)
  have h₁ : exec cfg s (.call t .tryGetRef) = some s₁ := by simp [exec, hpc, Sys.call, s₁]
  have h₂ : exec cfg s₁ (.step t false) = some s₂ := by
    simp only [exec, Sys.stepThread, s₁, s₂, setPc_self, Sys.incrObserve, setPc_count, observe_even he ho, p]
  let s₃ := Sys.return { s₂ with count := s.count + refIncr, refs := s.refs + 1 } t .ref
  have h₃ : exec cfg s₂ (.step t false) = some s₃ := by
    simp [exec, Sys.stepThread, s₁, s₂, s₃, Sys.incrCas, Sys.incrOk, p]
  refine ⟨s₃, ?_, setPc_self _ _, rfl, rfl, rfl⟩
  rw [takeRef, Lts.run_cons h₁, Lts.run_cons h₂, Lts.run_cons h₃]; rfl

theorem run_askExclusiveRef (cfg : Config) (hpc : s.pc t = .done r) (hc : s.count = 0) :
    ∃ s', Lts.run (exec cfg) s (askExclusiveRef t) = some s' ∧ s'.exclusiveRefs = s.exclusiveRefs + 1 ∧
      s'.refs = s.refs ∧ s'.count = 1 := by
  let s₁ := s.setPc t (.blockLoad .getExclusiveRef)
  let s₂ := s₁.setPc t (.blockCas .getExclusiveRef 0 (.observe 0))
  let s₃ := Sys.setPc { s₂ with count := 1 } t (.noStandardRefs .getExclusiveRef)
  have h₁ : exec cfg s (.call t .getExclusiveRef) = some s₁ := by simp [exec, hpc, Sys.call, s₁]
  have h₂ : exec cfg s₁ (.step t false) = some s₂ := by simp [exec, Sys.stepThread, s₁, s₂, hc]
  have h₃ : exec cfg s₂ (.step t false) = some s₃ := by
    have hl : (BlockPair.observe 0).refCount = 0 := rfl
    have hn : (BlockPair.observe 0).nextRefCount = 1 := rfl
    simp [exec, Sys.stepThread, s₁, s₂, s₃, Sys.blockCas, Sys.blockOk, hc, hl, hn]
  let s₄ := Sys.return { s₃ with exclusiveRefs := s.exclusiveRefs + 1 } t .exclusiveRef
  have h₄ : exec cfg s₃ (.step t false) = some s₄ := by
    have hz : noStandardRefs 1 = true := rfl
    simp [exec, Sys.stepThread, s₁, s₂, s₃, s₄, Sys.check, Sys.checkOk, hz]
  refine ⟨s₄, ?_, rfl, rfl, rfl⟩
  rw [askExclusiveRef, Lts.run_cons h₁, Lts.run_cons h₂, Lts.run_cons h₃, Lts.run_cons h₄]; rfl

end

end RefCount
