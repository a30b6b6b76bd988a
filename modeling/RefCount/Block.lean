import RefCount.Polls
import RefCount.RwLock

/-!
# Who has the block

A thread has the block between setting the bit and passing the block on, and
again inside `unblock_refs` before the store; a `FutureExclusiveRef` has it once
it was taken for it; each `ExclusiveRef` has one, and so has each caller of the
block methods. `Effect` says what a step does to the word, to the number of
standard references and to these holders.
-/

namespace RefCount

/-- `dropping t`: thread `t` is in `Drop for ExclusiveRef`, before the store. -/
inductive Carrier where
  | thread (t : ThreadId)
  | dropping (t : ThreadId)
  | fut (f : FutId)
  | exclusiveRef
  | user
  deriving DecidableEq, Repr

/-- The carriers that rely on there being no standard references. -/
def Carrier.excl : Carrier → Prop
  | .dropping _ => True
  | .exclusiveRef => True
  | _ => False

def Pc.holds : Pc → Nat
  | .noStandardRefs (.pollExclusiveRef _ _) => 0
  | .noStandardRefs _ => 1
  | .releaseStore .dropExclusiveRef => 0
  | .releaseStore _ => 1
  | _ => 0

def Pc.drops : Pc → Nat
  | .releaseStore .dropExclusiveRef => 1
  | _ => 0

theorem holds_pos {p : Pc} (h : 0 < p.holds) : (∃ op, p = .noStandardRefs op) ∨ ∃ op, p = .releaseStore op := by
  cases p with
  | noStandardRefs op => exact .inl ⟨op, rfl⟩
  | releaseStore op => exact .inr ⟨op, rfl⟩
  | _ => cases h

theorem drops_pos {p : Pc} (h : 0 < p.drops) : p = .releaseStore .dropExclusiveRef := by
  cases p with
  | releaseStore op =>
    cases op with
    | dropExclusiveRef => rfl
    | _ => cases h
  | _ => cases h

def blockOf : Option FutRec → Nat
  | some x => x.holdsBlock.toNat
  | none => 0

/-- How many blocks a carrier has in its hands. -/
def Sys.held (s : Sys) : Carrier → Nat
  | .thread t => (s.pc t).holds
  | .dropping t => (s.pc t).drops
  | .fut f => blockOf (s.futs f)
  | .exclusiveRef => s.exclusiveRefs
  | .user => s.blocks

/-- `c` takes a block into its hands, and no other carrier's hands change. -/
structure Gains (s s' : Sys) (c : Carrier) : Prop where
  gets : 0 < s'.held c
  gain : s.held c = 0 → s'.held c = 1
  others : ∀ d, d ≠ c → s'.held d = s.held d

structure Loses (s s' : Sys) (c : Carrier) : Prop where
  has : 0 < s.held c
  loss : s.held c = 1 → s'.held c = 0
  others : ∀ d, d ≠ c → s'.held d = s.held d

structure Passes (s s' : Sys) (c d : Carrier) : Prop where
  ne : c ≠ d
  has : 0 < s.held c
  loss : s.held c = 1 → s'.held c = 0
  gets : 0 < s'.held d
  gain : s.held d = 0 → s'.held d = 1
  others : ∀ e, e ≠ c → e ≠ d → s'.held e = s.held e

/-- What a step does to the word, the standard references and the holders of the
block. `mint` is the `ExclusiveRef` of a future that no block was taken for. -/
inductive Effect (s s' : Sys) : Act → Prop
  | quiet {a : Act} : s'.count = s.count → s'.refs = s.refs → s'.held = s.held → Effect s s' a
  | acquire {t : ThreadId} : s.count.toNat % 2 = 0 → s'.count = s.count + refIncr → s'.refs = s.refs + 1 →
      s'.held = s.held → Effect s s' (.step t false)
  | dropRef : 0 < s.refs → s'.count = s.count - refIncr → s'.refs = s.refs - 1 → s'.held = s.held →
      Effect s s' .dropRef
  | block {t : ThreadId} (c : Carrier) : ¬ c.excl → s.count.toNat % 2 = 0 → s'.count = s.count ||| refBlocked →
      s'.refs = s.refs → Gains s s' c → Effect s s' (.step t false)
  | pass {a : Act} (c d : Carrier) : (d.excl → c.excl ∨ noStandardRefs s.count = true) → s'.count = s.count →
      s'.refs = s.refs → Passes s s' c d → Effect s s' a
  | mint {t : ThreadId} {b : Bool} {f : FutId} {w : Waker} {x : FutRec} :
      s.pc t = .noStandardRefs (.pollExclusiveRef f w) → s.futs f = some x → x.holdsBlock = false →
      noStandardRefs s.count = true → s'.count = s.count → s'.refs = s.refs → Gains s s' .exclusiveRef →
      Effect s s' (.step t b)
  | lose {f : FutId} : s'.count = s.count → s'.refs = s.refs → Loses s s' (.fut f) → Effect s s' (.dropFuture f)
  | release {t : ThreadId} {b : Bool} {op : ReleaseOp} (c : Carrier) : s.pc t = .releaseStore op →
      c = (if op = .dropExclusiveRef then .dropping t else .thread t) → s'.count = refAllowed →
      s'.refs = s.refs → Loses s s' c → Effect s s' (.step t b)

section
variable {cfg : Config} {s s' : Sys} {a : Act}

theorem Begins.holds {c : Call} {p : Pc} (h : Begins c p) : p.holds = 0 ∧ p.drops = 0 := by
  cases h <;> exact ⟨rfl, rfl⟩

theorem Jump.holds {b : Bool} {p q : Pc} (h : Jump cfg s b p q) : q.holds = p.holds ∧ q.drops = p.drops := by
  cases h <;> exact ⟨rfl, rfl⟩

theorem pollStart_holds (f : FutId) (w : Waker) (fut : Fut) :
    (pollStart f w fut).holds = 0 ∧ (pollStart f w fut).drops = 0 := by
  cases fut using Fut.shapes <;> exact ⟨rfl, rfl⟩

/-! ## Hands that a step leaves alone -/

/-- A step of thread `t` from `p` to `q` leaves the hands of `d` alone if it
changes nothing that `d` stands for. -/
theorem held_frame {t : ThreadId} {p q : Pc} {d : Carrier} (hpc : s.pc t = p)
    (hs : s'.pc = Function.update s.pc t q) (ht : d ≠ .thread t ∨ q.holds = p.holds)
    (hd : d ≠ .dropping t ∨ q.drops = p.drops) (hf : ∀ f, d ≠ .fut f ∨ blockOf (s'.futs f) = blockOf (s.futs f))
    (he : d ≠ .exclusiveRef ∨ s'.exclusiveRefs = s.exclusiveRefs) (hb : d ≠ .user ∨ s'.blocks = s.blocks) :
    s'.held d = s.held d := by
  cases d with
  | thread u =>
    show (s'.pc u).holds = (s.pc u).holds
    rw [hs, Function.update_apply]
    split
    · rename_i e; subst e
      rw [hpc]
      exact ht.resolve_left fun h => h rfl
    · rfl
  | dropping u =>
    show (s'.pc u).drops = (s.pc u).drops
    rw [hs, Function.update_apply]
    split
    · rename_i e; subst e
      rw [hpc]
      exact hd.resolve_left fun h => h rfl
    · rfl
  | fut f => exact (hf f).resolve_left fun h => h rfl
  | exclusiveRef => exact he.resolve_left fun h => h rfl
  | user => exact hb.resolve_left fun h => h rfl

theorem held_same {t : ThreadId} {p q : Pc} (hpc : s.pc t = p) (hs : s'.pc = Function.update s.pc t q)
    (hq : q.holds = p.holds ∧ q.drops = p.drops) (hf : ∀ f, blockOf (s'.futs f) = blockOf (s.futs f))
    (he : s'.exclusiveRefs = s.exclusiveRefs) (hb : s'.blocks = s.blocks) : s'.held = s.held :=
  funext fun _ => held_frame hpc hs (.inr hq.1) (.inr hq.2) (fun f => .inr (hf f)) (.inr he) (.inr hb)

theorem blockOf_modifyFut {g : FutId} {k : FutRec → FutRec}
    (hk : ∀ x, s.futs g = some x → (k x).holdsBlock = x.holdsBlock) (f : FutId) :
    blockOf ((s.modifyFut g k).futs f) = blockOf (s.futs f) := by
  rw [modifyFut_futs]
  split
  · rename_i e; subst e
    cases hx : s.futs f with
    | none => rfl
    | some x => exact congrArg Bool.toNat (hk x hx)
  · rfl

theorem blockOf_modifyFut_ne {g : FutId} {k : FutRec → FutRec} {d : Carrier} (hd : d ≠ .fut g) (f : FutId) :
    d ≠ .fut f ∨ blockOf ((s.modifyFut g k).futs f) = blockOf (s.futs f) := by
  by_cases e : f = g
  · exact .inl (e ▸ hd)
  · rw [modifyFut_futs, if_neg e]; exact .inr rfl

theorem blockOf_addFut (hw : Wf s) {fut : Fut} (f : FutId) :
    blockOf ((s.addFut fut false).futs f) = blockOf (s.futs f) := by
  rw [addFut_futs]
  split
  · rename_i e; subst e
    rw [hw.fresh _ (Nat.le_refl _)]; rfl
  · rfl

theorem blockOf_finish (hw : Wf s) {t : ThreadId} {g : FutId} (hp : (s.pc t).polls = some g)
    (hk : (s.pc t).fits .owning = false) (f : FutId) :
    blockOf ((s.modifyFut g FutRec.finish).futs f) = blockOf (s.futs f) := by
  refine blockOf_modifyFut (fun x hx => ?_) f
  have hfit := (hw.polled hp hx).2
  cases hb : x.holdsBlock with
  | false => rfl
  | true =>
    rw [hw.sound g x hx hb, hk] at hfit
    cases hfit

theorem Adds.holds {p : Pc} {op : IncrOp} (h : Adds p op) : p.holds = 0 ∧ p.drops = 0 := by
  cases h <;> exact ⟨rfl, rfl⟩

theorem Adds.fits {p : Pc} {f : FutId} {w : Waker} (h : Adds p (.pollRef f w)) : p.fits .owning = false := by
  cases h <;> rfl

theorem Asks.holds {op : BlockOp} {q : CheckOp} (h : Asks op q) :
    (Pc.noStandardRefs q).holds = 1 ∧ (Pc.noStandardRefs q).drops = 0 := by
  cases h <;> exact ⟨rfl, rfl⟩

theorem CheckOp.Plain.holds {op : CheckOp} (h : op.Plain) :
    (Pc.noStandardRefs op).holds = 1 ∧ (Pc.noStandardRefs op).drops = 0 := by
  cases h <;> exact ⟨rfl, rfl⟩

theorem held_thread {t : ThreadId} {p : Pc} (hpc : s.pc t = p) : s.held (.thread t) = p.holds :=
  congrArg Pc.holds hpc

theorem held_dropping {t : ThreadId} {p : Pc} (hpc : s.pc t = p) : s.held (.dropping t) = p.drops :=
  congrArg Pc.drops hpc

end

/-! ## The effect of a step -/

section
variable {cfg : Config} {s s' : Sys} {a : Act}

theorem Requests.effect (hw : Wf s) {t : ThreadId} {b : Bool} {fut : Fut} {h : Bool} (hr : Requests s (s.pc t) fut h) :
    Effect s (s.returnFuture t fut h) (.step t b) := by
  generalize hpc : s.pc t = p at hr
  cases hr with
  | getExclusiveRefBlocked hz =>
    refine .pass (.thread t) (.fut s.nextFut) False.elim rfl rfl
      ⟨Carrier.noConfusion, ?_, fun _ => ?_, ?_, fun _ => ?_, fun d h₁ h₂ => ?_⟩
    · rw [held_thread hpc]; exact Nat.one_pos
    · exact held_thread (setPc_self _ _)
    · show 0 < blockOf _
      simp [blockOf]
    · show blockOf _ = 1
      simp [blockOf]
    · refine held_frame hpc rfl (.inl h₁) (.inr rfl) (fun f => ?_) (.inr rfl) (.inr rfl)
      by_cases e : f = s.nextFut
      · exact .inl (e ▸ h₂)
      · exact .inr (by simp [e])
  | _ => exact .quiet rfl rfl (held_same hpc rfl ⟨rfl, rfl⟩ (blockOf_addFut hw) rfl rfl)

theorem Step.effect (hw : Wf s) (h : Step cfg s a s') : Effect s s' a := by
  cases h with
  | begin hpc hb => exact .quiet rfl rfl (held_same hpc rfl hb.holds (fun _ => rfl) rfl rfl)
  | beginUnblock hpc hb =>
    rename_i t r
    refine .pass .user (.thread t) False.elim rfl rfl
      ⟨Carrier.noConfusion, hb, fun e => ?_, ?_, fun _ => ?_, fun d h₁ h₂ => ?_⟩
    · exact Nat.sub_eq_zero_of_le (Nat.le_of_eq e)
    · rw [held_thread (setPc_self _ _)]; exact Nat.one_pos
    · exact held_thread (setPc_self _ _)
    · exact held_frame hpc rfl (.inl h₂) (.inr rfl) (fun _ => .inr rfl) (.inr rfl) (.inl h₁)
  | beginDrop hpc he =>
    rename_i t r
    refine .pass .exclusiveRef (.dropping t) (fun _ => .inl trivial) rfl rfl
      ⟨Carrier.noConfusion, he, fun e => ?_, ?_, fun _ => ?_, fun d h₁ h₂ => ?_⟩
    · exact Nat.sub_eq_zero_of_le (Nat.le_of_eq e)
    · rw [held_dropping (setPc_self _ _)]; exact Nat.one_pos
    · exact held_dropping (setPc_self _ _)
    · exact held_frame hpc rfl (.inr rfl) (.inl h₂) (fun _ => .inr rfl) (.inl h₁) (.inr rfl)
  | beginPoll hpc _ _ =>
    exact .quiet rfl rfl (held_same hpc rfl (pollStart_holds _ _ _) (blockOf_modifyFut fun _ _ => rfl) rfl rfl)
  | jump hj => exact .quiet rfl rfl (held_same rfl rfl hj.holds (fun _ => rfl) rfl rfl)
  | request hr => exact hr.effect hw
  | panic ha _ _ =>
    exact .quiet rfl rfl (held_same rfl rfl ⟨ha.holds.1.symm, ha.holds.2.symm⟩ (fun _ => rfl) rfl rfl)
  | panicPoll ha _ =>
    exact .quiet rfl rfl (held_same rfl rfl ⟨ha.holds.1.symm, ha.holds.2.symm⟩
      (blockOf_finish hw ha.polls ha.fits) rfl rfl)
  | acquire hpc _ hc =>
    exact .acquire (hc ▸ IncrPair.even _) rfl rfl (held_same hpc rfl ⟨rfl, rfl⟩ (fun _ => rfl) rfl rfl)
  | acquirePoll hpc hc =>
    exact .acquire (hc ▸ IncrPair.even _) rfl rfl (held_same hpc rfl ⟨rfl, rfl⟩
      (blockOf_finish hw (congrArg Pc.polls hpc) (congrArg (Pc.fits _) hpc)) rfl rfl)
  | blockAsk hpc hq hc =>
    rename_i t op q n l
    refine .block (.thread t) id (hc ▸ BlockPair.even _) rfl rfl ⟨?_, fun _ => ?_, fun d hd => ?_⟩
    · rw [held_thread (setPc_self _ _), hq.holds.1]; exact Nat.one_pos
    · exact (held_thread (setPc_self _ _)).trans hq.holds.1
    · exact held_frame hpc rfl (.inl hd) (.inr hq.holds.2) (fun _ => .inr rfl) (.inr rfl) (.inr rfl)
  | blockUser hpc _ hc =>
    refine .block .user id (hc ▸ BlockPair.even _) rfl rfl ⟨Nat.succ_pos _, fun e => congrArg (· + 1) e, fun d hd => ?_⟩
    exact held_frame hpc rfl (.inr rfl) (.inr rfl) (fun _ => .inr rfl) (.inr rfl) (.inl hd)
  | blockPollBlocked hpc hc =>
    refine .block .user id (hc ▸ BlockPair.even _) rfl rfl ⟨Nat.succ_pos _, fun e => congrArg (· + 1) e, fun d hd => ?_⟩
    have hf := blockOf_finish hw (congrArg Pc.polls hpc) (congrArg (Pc.fits _) hpc)
    exact held_frame hpc rfl (.inr rfl) (.inr rfl) (fun f => .inr (hf f)) (.inr rfl) (.inl hd)
  | blockPollExclusive hpc hc =>
    rename_i t f w n l
    obtain ⟨x, hx, _⟩ := hw.polls _ _ (congrArg Pc.polls hpc)
    refine .block (.fut f) id (hc ▸ BlockPair.even _) rfl rfl ⟨?_, fun _ => ?_, fun d hd => ?_⟩
    · show 0 < blockOf _
      simp [hx, blockOf, FutRec.setBlocked]
    · show blockOf _ = 1
      simp [hx, blockOf, FutRec.setBlocked]
    · exact held_frame hpc rfl (.inr rfl) (.inr rfl) (blockOf_modifyFut_ne hd) (.inr rfl) (.inr rfl)
  | grant hpc hp hz =>
    rename_i t b op
    refine .pass (.thread t) .exclusiveRef (fun _ => .inr hz) rfl rfl
      ⟨Carrier.noConfusion, ?_, fun _ => ?_, Nat.succ_pos _, fun e => congrArg (· + 1) e, fun d h₁ h₂ => ?_⟩
    · rw [held_thread hpc, hp.holds.1]; exact Nat.one_pos
    · exact held_thread (setPc_self _ _)
    · exact held_frame hpc rfl (.inl h₁) (.inr hp.holds.2.symm) (fun _ => .inr rfl) (.inl h₂) (.inr rfl)
  | grantPoll hpc hz =>
    rename_i t b f w
    obtain ⟨x, hx, _⟩ := hw.polls _ _ (congrArg Pc.polls hpc)
    cases hb : x.holdsBlock with
    | false =>
      refine .mint hpc hx hb hz rfl rfl ⟨Nat.succ_pos _, fun e => congrArg (· + 1) e, fun d hd => ?_⟩
      have hf := blockOf_modifyFut (s := s) (k := FutRec.finish) fun y hy => by
        rw [hx, Option.some.injEq] at hy
        subst hy; exact hb.symm
      exact held_frame hpc rfl (.inr rfl) (.inr rfl) (fun f => .inr (hf f)) (.inl hd) (.inr rfl)
    | true =>
      refine .pass (.fut f) .exclusiveRef (fun _ => .inr hz) rfl rfl
        ⟨Carrier.noConfusion, ?_, fun _ => ?_, Nat.succ_pos _, fun e => congrArg (· + 1) e, fun d h₁ h₂ => ?_⟩
      · show 0 < blockOf _
        simp [hx, blockOf, hb]
      · show blockOf _ = 0
        simp [hx, blockOf, FutRec.finish]
      · exact held_frame hpc rfl (.inr rfl) (.inr rfl) (blockOf_modifyFut_ne h₁) (.inl h₂) (.inr rfl)
  | release hpc =>
    rename_i t b op
    by_cases e : op = .dropExclusiveRef
    · subst e
      refine .release (.dropping t) hpc rfl rfl rfl ⟨?_, fun _ => ?_, fun d hd => ?_⟩
      · rw [held_dropping hpc]; exact Nat.one_pos
      · exact held_dropping (setPc_self _ _)
      · exact held_frame hpc rfl (.inr rfl) (.inl hd) (fun _ => .inr rfl) (.inr rfl) (.inr rfl)
    · have hh : (Pc.releaseStore op).holds = 1 ∧ (Pc.releaseStore op).drops = 0 := by
        cases op with
        | dropExclusiveRef => exact absurd rfl e
        | _ => exact ⟨rfl, rfl⟩
      refine .release (.thread t) hpc (if_neg e).symm rfl rfl ⟨?_, fun _ => ?_, fun d hd => ?_⟩
      · rw [held_thread hpc, hh.1]; exact Nat.one_pos
      · exact held_thread (setPc_self _ _)
      · exact held_frame hpc rfl (.inl hd) (.inr hh.2.symm) (fun _ => .inr rfl) (.inr rfl) (.inr rfl)
  | pop hpc _ => exact .quiet rfl rfl (held_same hpc rfl ⟨rfl, rfl⟩ (fun _ => rfl) rfl rfl)
  | clear hpc =>
    exact .quiet rfl rfl (held_same hpc rfl ⟨rfl, rfl⟩ (blockOf_modifyFut fun _ _ => rfl) rfl rfl)
  | wakeDrain hpc => exact .quiet rfl rfl (held_same hpc rfl ⟨rfl, rfl⟩ (fun _ => rfl) rfl rfl)
  | wakeFull hpc =>
    exact .quiet rfl rfl (held_same hpc rfl ⟨rfl, rfl⟩ (blockOf_modifyFut fun _ _ => rfl) rfl rfl)
  | registered hpc _ =>
    exact .quiet rfl rfl (held_same hpc rfl ⟨rfl, rfl⟩ (blockOf_modifyFut fun _ _ => rfl) rfl rfl)
  | push hpc _ => exact .quiet rfl rfl (held_same hpc rfl ⟨rfl, rfl⟩ (fun _ => rfl) rfl rfl)
  | register hpc =>
    exact .quiet rfl rfl (held_same hpc rfl ⟨rfl, rfl⟩ (blockOf_modifyFut fun _ _ => rfl) rfl rfl)
  | yield hpc =>
    exact .quiet rfl rfl (held_same hpc rfl ⟨rfl, rfl⟩ (blockOf_modifyFut fun _ _ => rfl) rfl rfl)
  | otherPending hpc =>
    exact .quiet rfl rfl (held_same hpc rfl ⟨rfl, rfl⟩ (blockOf_modifyFut fun _ _ => rfl) rfl rfl)
  | otherReady hpc =>
    exact .quiet rfl rfl (held_same hpc rfl ⟨rfl, rfl⟩ (blockOf_modifyFut fun _ _ => rfl) rfl rfl)
  | dropRef hr => exact .dropRef (Nat.zero_lt_of_lt hr) rfl rfl rfl
  | forgetRef _ => exact .quiet rfl rfl rfl
  | dropFuture hx hs =>
    rename_i f x
    have hf : blockOf (Function.update s.futs f none f) = 0 := by rw [Function.update_self]; rfl
    have hn : ∀ g, g ≠ f → blockOf (Function.update s.futs f none g) = blockOf (s.futs g) := fun g hg => by
      rw [Function.update_of_ne hg]
    cases hb : x.holdsBlock with
    | false =>
      refine .quiet rfl rfl (funext fun d => ?_)
      cases d with
      | fut g =>
        by_cases e : g = f
        · subst e
          exact hf.trans (by simp [Sys.held, hx, blockOf, hb])
        · exact hn g e
      | _ => rfl
    | true =>
      refine .lose rfl rfl ⟨?_, fun _ => hf, fun d hd => ?_⟩
      · show 0 < blockOf _
        simp [hx, blockOf, hb]
      · cases d with
        | fut g => exact hn g fun e => hd (e ▸ rfl)
        | _ => rfl
  | newFuture _ =>
    refine .quiet rfl rfl (funext fun d => ?_)
    cases d with
    | fut f => exact blockOf_addFut hw f
    | _ => rfl

theorem Step.exclusiveRefs (h : Step cfg s a s') : s'.exclusiveRefs ≤ s.exclusiveRefs ∨
    ∃ t b op, a = .step t b ∧ s.pc t = .noStandardRefs op ∧ noStandardRefs s.count = true := by
  cases h with
  | beginDrop _ _ => exact .inl (Nat.sub_le _ _)
  | grant hpc _ hz => exact .inr ⟨_, _, _, rfl, hpc, hz⟩
  | grantPoll hpc hz => exact .inr ⟨_, _, _, rfl, hpc, hz⟩
  | _ => exact .inl (Nat.le_refl _)

end

/-! ## One block at most -/

/-- What is in the hands of the carriers is the block of a lock. -/
def Hands (s : Sys) (b : RwLock.Block Carrier) : Prop := ∀ c, s.held c = b.tokens c

section
variable {s s' : Sys} {b : RwLock.Block Carrier} {c d : Carrier}

theorem Hands.holder (h : Hands s b) (hc : 0 < s.held c) : b = .held c := by
  rw [h c] at hc
  exact RwLock.Block.tokens_pos.mp hc

theorem Hands.eq_one (h : Hands s b) (hc : 0 < s.held c) : s.held c = 1 := by
  rw [h c, h.holder hc, RwLock.Block.tokens_self]

theorem Hands.others (h : Hands s b) (hc : 0 < s.held c) (hd : d ≠ c) : s.held d = 0 := by
  rw [h d, h.holder hc, RwLock.Block.tokens_ne hd.symm]

theorem Hands.of_one (h₁ : s.held c = 1) (h₀ : ∀ d, d ≠ c → s.held d = 0) : Hands s (.held c) := by
  intro d
  by_cases e : d = c
  · subst e; rw [h₁, RwLock.Block.tokens_self]
  · rw [h₀ d e, RwLock.Block.tokens_ne (Ne.symm e)]

theorem Hands.gains (h : Hands s .free) (hg : Gains s s' c) : Hands s' (.held c) :=
  .of_one (hg.gain (h c)) fun d hd => (hg.others d hd).trans (h d)

theorem Hands.passes (h : Hands s b) (hp : Passes s s' c d) : Hands s' (.held d) := by
  refine .of_one (hp.gain (h.others hp.has (Ne.symm hp.ne))) fun e he => ?_
  by_cases hec : e = c
  · subst hec; exact hp.loss (h.eq_one hp.has)
  · rw [hp.others e hec he, h.others hp.has hec]

theorem Hands.loses (h : Hands s b) (hl : Loses s s' c) (d : Carrier) : s'.held d = 0 := by
  by_cases e : d = c
  · subst e; exact hl.loss (h.eq_one hl.has)
  · rw [hl.others d e, h.others hl.has e]

end

end RefCount
