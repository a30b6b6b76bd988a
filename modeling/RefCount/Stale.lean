import RefCount.Orderings
import RefCount.Exclusion

/-!
# Steps on a stale word

A load may return an older value than the last, so a step of a thread is one of the machine
whose word is what the thread reads. Where it writes nothing it is a step of the lock all
the same, unless it is granted an `ExclusiveRef`; and whoever has the block after a step
came to it in one of the ways of `Gets`.
-/

namespace RefCount

open RelAcq
open RwLock (Lock)

/-! ## Who comes to the block -/

section
variable {cfg : Config} {s s' : Sys} {a : Act}

/-- How a carrier that has a block after the step came to it. -/
inductive Gets (s : Sys) (s' : Sys) : Act → Carrier → Prop
  | keeps {a : Act} {c : Carrier} : 0 < s.held c → Gets s s' a c
  | asks {t : ThreadId} {op : BlockOp} {n : Nat} {l : BlockPair} : s.pc t = .blockCas op n l →
      s.count = l.refCount → Gets s s' (.step t false) (.thread t)
  | polls {t : ThreadId} {f : FutId} {w : Waker} {n : Nat} {l : BlockPair} :
      s.pc t = .blockCas (.pollExclusiveRef f w) n l → s.count = l.refCount → Gets s s' (.step t false) (.fut f)
  | grants {t : ThreadId} {b : Bool} {op : CheckOp} : s.pc t = .noStandardRefs op → noStandardRefs s.count = true →
      s.exclusiveRefs < s'.exclusiveRefs → Gets s s' (.step t b) .exclusiveRef
  | defers {t : ThreadId} {b : Bool} : s.pc t = .noStandardRefs .getExclusiveRef → s.nextFut < s'.nextFut →
      Gets s s' (.step t b) (.fut s.nextFut)
  | drops {t : ThreadId} : 0 < s.exclusiveRefs → Gets s s' (.call t .dropExclusiveRef) (.dropping t)
  | unblocks {t : ThreadId} : Gets s s' (.call t .unblockRefs) (.thread t)
  | user {a : Act} : Gets s s' a .user

theorem Step.gets_thread (h : Step cfg s a s') {u : ThreadId} (hu : 0 < (s'.pc u).holds) : Gets s s' a (.thread u) := by
  by_cases ha : a.thread? = some u
  · have hself : ∀ {x : Sys} {q : Pc}, ((x.setPc u q).pc u).holds = q.holds := by
      intro x q
      rw [setPc_self]
    cases h with
    | begin _ hb => cases ha; rw [hself, hb.holds.1] at hu; cases hu
    | beginUnblock _ _ => cases ha; exact .unblocks
    | beginDrop _ _ => cases ha; rw [hself] at hu; cases hu
    | beginPoll _ _ _ => cases ha; rw [hself, (pollStart_holds _ _ _).1] at hu; cases hu
    | jump hj => cases ha; rw [hself, hj.holds.1] at hu; exact .keeps hu
    | blockAsk hpc _ hc => cases ha; exact .asks hpc hc
    | dropRef => cases ha
    | forgetRef => cases ha
    | dropFuture => cases ha
    | newFuture hn => cases hn <;> cases ha
    | _ => cases ha; cases Nat.lt_of_lt_of_eq hu hself
  · rw [h.pc_frame ha] at hu
    exact .keeps hu

theorem Step.gets_dropping (h : Step cfg s a s') {u : ThreadId} (hu : 0 < (s'.pc u).drops) : Gets s s' a (.dropping u) := by
  by_cases ha : a.thread? = some u
  · have hself : ∀ {x : Sys} {q : Pc}, ((x.setPc u q).pc u).drops = q.drops := by
      intro x q
      rw [setPc_self]
    cases h with
    | begin _ hb => cases ha; rw [hself, hb.holds.2] at hu; cases hu
    | beginUnblock _ _ => cases ha; rw [hself] at hu; cases hu
    | beginDrop _ he => cases ha; exact .drops he
    | beginPoll _ _ _ => cases ha; rw [hself, (pollStart_holds _ _ _).2] at hu; cases hu
    | jump hj => cases ha; rw [hself, hj.holds.2] at hu; exact .keeps hu
    | blockAsk _ hq _ => cases ha; rw [hself, hq.holds.2] at hu; cases hu
    | dropRef => cases ha
    | forgetRef => cases ha
    | dropFuture => cases ha
    | newFuture hn => cases hn <;> cases ha
    | _ => cases ha; cases Nat.lt_of_lt_of_eq hu hself
  · rw [h.pc_frame ha] at hu
    exact .keeps hu

theorem blockOf_pos {x : Option FutRec} (h : 0 < blockOf x) : ∃ y, x = some y ∧ y.holdsBlock = true := by
  cases x with
  | none => cases h
  | some y =>
    cases hb : y.holdsBlock with
    | true => exact ⟨y, rfl, hb⟩
    | false => simp [blockOf, hb] at h

theorem Step.gets_fut (hw : Wf s) (h : Step cfg s a s') {f : FutId} (hf : 0 < blockOf (s'.futs f)) :
    Gets s s' a (.fut f) := by
  obtain ⟨x', hx', hb⟩ := blockOf_pos hf
  have hkeeps : ∀ x, s.futs f = some x → x.holdsBlock = true → Gets s s' a (.fut f) := by
    intro x hx hh
    refine .keeps ?_
    show 0 < blockOf _
    rw [hx, blockOf, hh]
    exact Nat.one_pos
  cases hx : s.futs f with
  | none =>
    obtain ⟨rfl, fut, b, rfl, ⟨t, d, rfl, hr⟩ | ⟨_, rfl⟩⟩ := h.new hx hx'
    · generalize hpc : s.pc t = p at hr
      cases hr with
      | getExclusiveRefBlocked _ =>
        refine .defers hpc (Nat.lt_of_not_le fun hle => ?_)
        rw [hw.step_fresh h _ hle] at hx'
        cases hx'
      | _ => cases hb
    · cases hb
  | some x =>
    rcases h.evolves hx (hw.lt hx) with ⟨_, _, hn⟩ | ⟨y, hy, he⟩
    · rw [hn] at hx'; cases hx'
    · rw [hy, Option.some.injEq] at hx'
      subst hx'
      cases he with
      | finish _ => cases hb
      | block hpc hc => exact .polls hpc hc
      | _ => exact hkeeps x hx hb

theorem Step.gets (hw : Wf s) (h : Step cfg s a s') {c : Carrier} (hc : 0 < s'.held c) : Gets s s' a c := by
  cases c with
  | thread u => exact h.gets_thread hc
  | dropping u => exact h.gets_dropping hc
  | fut f => exact h.gets_fut hw hc
  | user => exact .user
  | exclusiveRef =>
    rcases Nat.lt_or_ge s.exclusiveRefs s'.exclusiveRefs with hlt | hle
    · rcases h.exclusiveRefs with hle | ⟨t, b, op, rfl, hpc, hz⟩
      · omega
      · exact .grants hpc hz hlt
    · exact .keeps (Nat.lt_of_lt_of_le hc hle)

end

/-! ## What a step reads -/

section
variable {cfg : Config} {s s' : Sys} {l : Lock Carrier} {t : ThreadId} {b : Bool}

theorem held_count (s : Sys) (w : UInt32) : Sys.held { s with count := w } = s.held := by
  funext c
  cases c <;> rfl

theorem Wf.withCount (hw : Wf s) (w : UInt32) : Wf { s with count := w } := ⟨hw.fresh, hw.sound, hw.polls⟩

theorem disciplined_step : Disciplined s (.step t b) := by
  refine ⟨?_, rfl⟩
  intro f hf
  cases hf

/-- A step that reads `w` for the word and does not write it, is a step of the lock. -/
theorem Sim.presented {w : UInt32} {s₀ : Sys} (hs : Sim s l) (h : Step cfg { s with count := w } (.step t b) s₀)
    (hw : s₀.count = w) (hst : ∀ op, s.pc t ≠ .releaseStore op)
    (hz : s.exclusiveRefs < s₀.exclusiveRefs → s.refs = 0) :
    ∃ l', RwLock.Step Carrier.excl l l' ∧ Sim { s₀ with count := s.count } l' ∧ s₀.refs = s.refs := by
  have hwf := hs.wf.withCount w
  have hwf' := hwf.step h
  have hd : Disciplined { s with count := w } (.step t b) := disciplined_step
  have hh := honest_step (s := { s with count := w }) hs.honest hwf hd h
  have hrefs := hs.refs
  have hheld : Sys.held { s with count := w } = s.held := held_count s w
  have hheld' : Sys.held { s₀ with count := s.count } = s₀.held := held_count s₀ s.count
  suffices hl : ∃ l', RwLock.Step Carrier.excl l l' ∧ s.count.toNat = 2 * l'.readers + l'.block.bit ∧
      s₀.refs = l'.readers ∧ Hands s₀ l'.block ∧ s₀.refs = s.refs by
    obtain ⟨l', hl, hword, hr, ht, he⟩ := hl
    refine ⟨l', hl, ⟨hwf'.withCount _, hh, hword, hr, ?_, hl.exclusive hs.excl⟩, he⟩
    intro c
    rw [hheld', ht c]
  cases h.effect hwf with
  | quiet _ e₂ e₃ => exact ⟨l, .idle, hs.word, e₂.trans hrefs, fun c => by rw [e₃, hheld, hs.held], e₂⟩
  | acquire _ e₁ _ _ =>
    have hsum : w.toNat = (w + refIncr).toNat := congrArg UInt32.toNat (hw.symm.trans e₁)
    rw [UInt32.toNat_add, refIncr_toNat] at hsum
    omega
  | block c _ he e₁ _ _ =>
    have hbit := or_refBlocked_toNat he
    rw [← e₁, hw] at hbit
    exact absurd hbit (Nat.ne_of_lt (Nat.lt_succ_self _))
  | pass c d _ _ e₂ hp =>
    have hhands : Hands { s with count := w } l.block := fun c => by rw [hheld, hs.held]
    have hb := hhands.holder hp.has
    refine ⟨_, .pass c d hb fun hx => ?_, ?_, e₂.trans hrefs, hhands.passes hp, e₂⟩
    · cases h.gets hwf hp.gets with
      | keeps hk => exact absurd (hhands.others hp.has (Ne.symm hp.ne)) (Nat.ne_of_gt hk)
      | grants _ _ hlt => exact .inr (hrefs.symm.trans (hz hlt))
      | _ => cases hx
    · rw [hs.word, hb]; rfl
  | mint hpc hx hb _ _ _ _ =>
    have hk := (hwf.polled_at hpc rfl hx).2
    have := (hs.honest _ _ hx).owns (of_decide_eq_true hk) (hwf.not_finished (congrArg Pc.polls hpc) hx)
    rw [hb] at this
    cases this
  | release c hpc _ _ _ _ => exact absurd hpc (hst _)

theorem Sim.free (hs : Sim s l) (he : s.count.toNat % 2 = 0) (c : Carrier) : s.held c = 0 := by
  rw [hs.held c, hs.held_free he]
  exact if_neg (Ne.symm (RwLock.Block.held_ne_free c))

/-- The step compares and swaps, and finds what it expects. -/
def Pc.swaps (p : Pc) (w : UInt32) (b : Bool) : Prop := p.access = .cas w ∧ b = false

theorem step_reads {s s' : Sys} (h : Step cfg s (.step t b) s') (hst : ∀ op, s.pc t ≠ .releaseStore op)
    (hc : ¬ (s.pc t).swaps s.count b) : s'.count = s.count := by
  cases h with
  | acquire hpc _ he => exact absurd ⟨by rw [hpc, he]; rfl, rfl⟩ hc
  | acquirePoll hpc he => exact absurd ⟨by rw [hpc, he]; rfl, rfl⟩ hc
  | blockUser hpc _ he => exact absurd ⟨by rw [hpc, he]; rfl, rfl⟩ hc
  | blockAsk hpc _ he => exact absurd ⟨by rw [hpc, he]; rfl, rfl⟩ hc
  | blockPollBlocked hpc he => exact absurd ⟨by rw [hpc, he]; rfl, rfl⟩ hc
  | blockPollExclusive hpc he => exact absurd ⟨by rw [hpc, he]; rfl, rfl⟩ hc
  | release hpc => exact absurd hpc (hst _)
  | newFuture hn => cases hn
  | _ => rfl

theorem step_exclusiveRefs {s s' : Sys} (h : Step cfg s (.step t b) s') :
    s'.exclusiveRefs = s.exclusiveRefs ∨ s'.exclusiveRefs = s.exclusiveRefs + 1 := by
  cases h with
  | grant _ _ _ => exact .inr rfl
  | grantPoll _ _ => exact .inr rfl
  | newFuture hn => cases hn
  | _ => exact .inl rfl

theorem access_cas {p : Pc} {w : UInt32} (h : p.access = .cas w) :
    (∃ op n l, p = .incrCas op n l ∧ w = l.refCount) ∨ ∃ op n l, p = .blockCas op n l ∧ w = l.refCount := by
  cases p with
  | incrCas op n l => cases h; exact .inl ⟨op, n, l, rfl, rfl⟩
  | blockCas op n l => cases h; exact .inr ⟨op, n, l, rfl, rfl⟩
  | _ => cases h

theorem access_store {p : Pc} {o : Order} (h : p.access = .store o) : ∃ op, p = .releaseStore op ∧ o = .release := by
  cases p with
  | releaseStore op => cases h; exact ⟨op, rfl, rfl⟩
  | _ => cases h

theorem access_load {p : Pc} {o : Order} (h : p.access = .load o) :
    (∀ op, p ≠ .releaseStore op) ∧ (∀ op, p = .noStandardRefs op → o.acquires = true) ∧ ∀ w b, ¬ p.swaps w b := by
  refine ⟨?_, ?_, ?_⟩
  · rintro op rfl
    cases h
  · rintro op rfl
    cases h
    rfl
  · rintro w b ⟨e, _⟩
    rw [h] at e
    cases e

/-! ## What a `compare_exchange_weak` writes -/

theorem cas_writes {s s' : Sys} {op : BlockOp} {n : Nat} {p : BlockPair} (h : exec cfg s (.step t false) = some s')
    (hpc : s.pc t = .blockCas op n p) (hc : s.count = p.refCount) : s'.count ≠ s.count := by
  have he : s'.count = s.count ||| refBlocked := by
    simp only [exec, Sys.stepThread, hpc, Sys.blockCas, hc, and_self, if_true, Option.some.injEq] at h
    rw [← h, hc, ← p.next]
    cases op <;> rfl
  intro e
  have hbit := or_refBlocked_toNat (hc ▸ p.even : s.count.toNat % 2 = 0)
  rw [← he, e] at hbit
  exact Nat.ne_of_lt (Nat.lt_succ_self _) hbit

theorem takes_ref {s s' : Sys} {op : IncrOp} {n : Nat} {p : IncrPair} (hw : Wf s)
    (h : exec cfg s (.step t false) = some s') (hpc : s.pc t = .incrCas op n p) (hc : s.count = p.refCount) :
    s.count.toNat % 2 = 0 ∧ s'.refs = s.refs + 1 ∧ s'.held = s.held := by
  have hr : s'.refs = s.refs + 1 := by
    simp only [exec, Sys.stepThread, hpc, Sys.incrCas, hc, and_self, if_true, Option.some.injEq] at h
    rw [← h]
    cases op <;> rfl
  have hne : s'.refs ≠ s.refs := by omega
  cases (exec_step h).effect hw with
  | acquire he _ _ e₃ => exact ⟨he, hr, e₃⟩
  | quiet _ e _ => exact absurd e hne
  | block _ _ _ _ e _ => exact absurd e hne
  | pass _ _ _ _ e _ => exact absurd e hne
  | mint _ _ _ _ _ e _ => exact absurd e hne
  | release _ _ _ _ e _ => exact absurd e hne

theorem takes_block {s s' : Sys} {op : BlockOp} {n : Nat} {p : BlockPair}
    (h : exec cfg s (.step t false) = some s') (hpc : s.pc t = .blockCas op n p) (hc : s.count = p.refCount) :
    s.count.toNat % 2 = 0 ∧ s'.refs = s.refs ∧ s'.exclusiveRefs = s.exclusiveRefs := by
  refine ⟨by rw [hc]; exact p.even, ?_⟩
  simp only [exec, Sys.stepThread, hpc, Sys.blockCas, hc, and_self, if_true, Option.some.injEq] at h
  rw [← h]
  cases op <;> exact ⟨rfl, rfl⟩

theorem sim_cas {s₀ : Sys} (hs : Sim s l) (h : Step cfg s (.step t b) s₀) (hst : ∀ op, s.pc t ≠ .releaseStore op)
    (hr : s₀.refs ≤ maxRefs) : ∃ l', Sim s₀ l' := by
  have hd : Disciplined s (.step t b) := disciplined_step
  have hclean : StoresClean s (.step t b) := by
    intro op ho
    obtain ⟨u, c, e, hpc⟩ := stores_eq ho
    cases e
    exact absurd hpc (hst op)
  obtain ⟨l', _, hs', _⟩ := hs.step hd hclean hr h
  exact ⟨l', hs'⟩

end

end RefCount
