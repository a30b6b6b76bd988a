import RefCount.Lock

/-!
# One `ExclusiveRef` for one block

A `FutureExclusiveRef` says that it has the block by having no inner future. That is true of
one from `get_exclusive_ref`, and after an inner future of the same `RefCount` is ready; it is
not after `FutureExclusiveRef::new(_, None)`, nor after an inner future of another `RefCount` is
ready, which took the block of that one, nor once the reference is handed over. Every act of
safe and unsafe code is allowed here.
-/

namespace RefCount

open Lts

/-- The future whose poll returns `Ready` with an `ExclusiveRef` in this step: it is at its
check, and the word counts no `Ref`. -/
def Sys.grants (s : Sys) : Act → Option FutId
  | .step t _ =>
    match s.pc t with
    | .noStandardRefs (.pollExclusiveRef f _) => if noStandardRefs s.count then some f else none
    | _ => none
  | _ => none

/-- The futures that have no block of this `RefCount` coming from this step on: the one that
`FutureExclusiveRef::new` makes without an inner future of it, and the one that is ready. -/
def Sys.unbacks (s : Sys) (a : Act) : List FutId :=
  if a.makesUnbacked then [s.nextFut] else (s.grants a).toList

/-- The history of a run: every future that came to have no block coming. -/
def unbacked (s : Sys) (a : Act) (us : List FutId) : List FutId := s.unbacks a ++ us

def Backed (p : Sys × List FutId) (a : Act) (_ : Sys × List FutId) : Prop := ∀ f ∈ p.1.grants a, f ∉ p.2

instance (p : Sys × List FutId) (a : Act) (q : Sys × List FutId) : Decidable (Backed p a q) :=
  inferInstanceAs (Decidable (∀ f ∈ _, _))

/-- A poll that returns `Ready` has a block that was taken for this very future, that it still
has and that nobody else has; and no second `ExclusiveRef` is live. -/
def HandsOver (s : Sys) (a : Act) (s' : Sys) : Prop :=
  (∀ f ∈ s.grants a, isBlocked s.count = true ∧ 0 < s.held (.fut f) ∧ ∀ c, 0 < s.held c → c = .fut f) ∧
  s'.exclusiveRefs ≤ 1

section
variable {cfg : Config} {s s' : Sys} {a : Act} {us : List FutId} {f : FutId}

theorem grants_eq (h : f ∈ s.grants a) :
    ∃ t b w, a = .step t b ∧ s.pc t = .noStandardRefs (.pollExclusiveRef f w) ∧ noStandardRefs s.count = true := by
  cases a with
  | step t b =>
    simp only [Sys.grants] at h
    split at h
    · rename_i g w hpc
      split at h
      · rename_i hz
        cases h
        exact ⟨t, b, w, rfl, hpc, hz⟩
      · cases h
    · cases h
  | _ => cases h

theorem grants_step {t : ThreadId} {w : Waker} (hpc : s.pc t = .noStandardRefs (.pollExclusiveRef f w))
    (hz : noStandardRefs s.count = true) (b : Bool) : f ∈ s.grants (.step t b) := by
  simp [Sys.grants, hpc, hz]

theorem makesUnbacked_eq (h : a.makesUnbacked = true) : ∃ inner, a = .newFutureExclusiveRef inner := by
  cases a with
  | newFutureExclusiveRef inner => exact ⟨inner, rfl⟩
  | _ => cases h

theorem mem_unbacks : f ∈ s.unbacks a ↔ a.makesUnbacked = true ∧ f = s.nextFut ∨ f ∈ s.grants a := by
  unfold Sys.unbacks
  split
  · rename_i hm
    obtain ⟨inner, rfl⟩ := makesUnbacked_eq hm
    simp [Sys.grants, hm]
  · rename_i hm
    simp only [Option.mem_toList]
    exact ⟨.inr, fun h => h.resolve_left fun e => hm e.1⟩

/-- Where a poll may find a future without an inner future of this `RefCount`. -/
theorem noFlag_pc {p : Pc} {k : FutKind} (hp : p.polls = some f) (hk : p.fits k = true) (hn : k.hasFlag = false) :
    ∃ w, p = .noStandardRefs (.pollExclusiveRef f w) ∨ p = .wakeByRef f w ∨ p = .otherPoll f w := by
  have hk : p.fits .elsewhere = true ∨ p.fits .owning = true := by
    cases k with
    | elsewhere => exact .inl hk
    | owning => exact .inr hk
    | _ => cases hn
  cases p with
  | noStandardRefs op =>
    cases op with
    | pollExclusiveRef g w => cases hp; exact ⟨w, .inl rfl⟩
    | _ => cases hp
  | wakeByRef g w => cases hp; exact ⟨w, .inr (.inl rfl)⟩
  | otherPoll g w => cases hp; exact ⟨w, .inr (.inr rfl)⟩
  | incrLoad op | incrCas op | blockLoad op | blockCas op | wakeSetRegistered op | wakeWaker op =>
    cases op <;> first | cases hp; done | (rcases hk with hk | hk <;> cases hk)
  | _ => first | cases hp; done | (rcases hk with hk | hk <;> cases hk)

/-! ## Futures without a block -/

/-- Its poll will not look for a block of this `RefCount`, and it has none. -/
def FutRec.Unbacked (x : FutRec) : Prop := x.fut.kind.hasFlag = false ∧ x.holdsBlock = false

theorem noFlag_finish {t : ThreadId} {b : Bool} {x : FutRec} (hw : Wf s) (h : exec cfg s (.step t b) = some s')
    (hp : (s.pc t).polls = some f) (hx : s.futs f = some x) (hx' : s'.futs f = some x.finish)
    (hk : x.fut.kind.hasFlag = false) : f ∈ s.grants (.step t b) := by
  obtain ⟨hs, hfit⟩ := hw.polled hp hx
  obtain ⟨w, hpc | hpc | hpc⟩ := noFlag_pc hp hfit hk
  · cases hz : noStandardRefs s.count with
    | true => exact grants_step hpc hz b
    | false =>
      have hsame : s'.futs = s.futs := by
        simp only [exec, Sys.stepThread, hpc, Sys.check, hz, Option.some.injEq] at h
        subst h; rfl
      rw [hsame, hx, Option.some.injEq] at hx'
      rw [hx'] at hs; cases hs
  · simp only [exec, Sys.stepThread, hpc, Option.some.injEq] at h
    subst h
    simp [hx, FutRec.finish, FutRec.setStatus] at hx'
  · cases b with
    | true =>
      simp only [exec, Sys.stepThread, hpc, Sys.otherPoll, if_true, Option.some.injEq] at h
      subst h
      simp [hx, FutRec.finish, FutRec.setStatus] at hx'
    | false =>
      simp only [exec, Sys.stepThread, hpc, Sys.otherPoll, Bool.false_eq_true, if_false, Option.some.injEq] at h
      subst h
      simp [hx, FutRec.finish, FutRec.dropInner, hs] at hx'

theorem unbacked_same {x x' : FutRec} (hw : Wf s) (h : exec cfg s a = some s') (hx : s.futs f = some x)
    (hx' : s'.futs f = some x') (hg : f ∉ s.grants a) : x'.Unbacked ↔ x.Unbacked := by
  rcases (exec_step h).evolves hx (hw.lt hx) with ⟨_, _, hn⟩ | ⟨y, hy, he⟩
  · rw [hn] at hx'; cases hx'
  · rw [hy, Option.some.injEq] at hx'
    subst hx'
    unfold FutRec.Unbacked
    cases he with
    | same => exact Iff.rfl
    | clear _ => simp [FutRec.setRegistered]
    | begin _ => exact Iff.rfl
    | finish hp =>
      have hk : x.fut.kind.hasFlag ≠ false := fun hk => hg (noFlag_finish hw h hp hx hy hk)
      exact ⟨fun e => absurd e.1 hk, fun e => absurd e.1 hk⟩
    | block hpc _ =>
      have hk := (hw.polled_at hpc rfl hx).2
      have hflag : x.fut.kind.hasFlag = true := by rw [of_decide_eq_true hk]; rfl
      simp [FutRec.setBlocked, hflag]
    | dropInner hpc =>
      have hk := (hw.polled_at hpc rfl hx).2
      have hflag : x.fut.kind.hasFlag = false := by rw [of_decide_eq_true hk]; rfl
      exact and_congr_left fun _ => ⟨fun _ => hflag, fun _ => rfl⟩
    | elsewhere _ => exact Iff.rfl
    | suspend _ => exact Iff.rfl
    | store _ => simp [FutRec.register]

/-- The history names the futures that claim a block they do not have. -/
structure Backing (s : Sys) (us : List FutId) : Prop where
  wf : Wf s
  old : ∀ f ∈ us, f < s.nextFut
  mem_iff : ∀ f x, s.futs f = some x → (f ∈ us ↔ x.Unbacked)

theorem Backing.new : Backing Sys.new [] := ⟨Wf.new, fun _ h => (nomatch h), fun _ _ h => nomatch h⟩

theorem Requests.backed {p : Pc} {fut : Fut} {b : Bool} (hr : Requests s p fut b) :
    fut.kind.hasFlag = false → b = true := by
  cases hr <;> first | exact fun _ => rfl | exact fun h => nomatch h

theorem Backing.grants_live (hb : Backing s us) (hf : f ∈ s.grants a) :
    ∃ x, s.futs f = some x ∧ x.fut.kind.hasFlag = false := by
  obtain ⟨t, b, w, rfl, hpc, _⟩ := grants_eq hf
  obtain ⟨x, hx, _, hk⟩ := hb.wf.polls_at hpc rfl
  exact ⟨x, hx, by rw [of_decide_eq_true hk]; rfl⟩

theorem Backing.step (hb : Backing s us) (h : exec cfg s a = some s') : Backing s' (unbacked s a us) := by
  have hst := exec_step h
  refine ⟨hb.wf.step hst, fun f hf => ?_, fun f x' hx' => ?_⟩
  · rcases List.mem_append.mp hf with hf | hf
    · rcases mem_unbacks.mp hf with ⟨hm, rfl⟩ | hg
      · obtain ⟨inner, rfl⟩ := makesUnbacked_eq hm
        cases h; exact Nat.lt_succ_self _
      · obtain ⟨x, hx, _⟩ := hb.grants_live hg
        exact Nat.lt_of_lt_of_le (hb.wf.lt hx) hst.nextFut_le
    · exact Nat.lt_of_lt_of_le (hb.old f hf) hst.nextFut_le
  · have hmem : f ∈ unbacked s a us ↔ f ∈ s.unbacks a ∨ f ∈ us := List.mem_append
    rw [hmem]
    cases hx : s.futs f with
    | none =>
      obtain ⟨rfl, fut, b, rfl, hnew⟩ := hst.new hx hx'
      have hus : s.nextFut ∉ us := fun hf => Nat.lt_irrefl _ (hb.old _ hf)
      have hg : s.nextFut ∉ s.grants a := fun hg => by
        obtain ⟨x, hx₂, _⟩ := hb.grants_live hg
        rw [hx] at hx₂; cases hx₂
      rw [mem_unbacks, or_iff_left hus, or_iff_left hg]
      rcases hnew with ⟨t, d, rfl, hr⟩ | ⟨hc, rfl⟩
      · constructor
        · rintro ⟨e, _⟩
          cases e
        · rintro ⟨hk, hh⟩
          rw [hr.backed hk] at hh; cases hh
      · exact and_congr (by simp [hc.hasFlag]) ⟨fun _ => rfl, fun _ => rfl⟩
    | some x =>
      have hold : ¬ (a.makesUnbacked = true ∧ f = s.nextFut) :=
        fun e => Nat.ne_of_lt (hb.wf.lt hx) e.2
      rw [mem_unbacks, or_iff_right hold]
      by_cases hg : f ∈ s.grants a
      · refine ⟨fun _ => ?_, fun _ => .inl hg⟩
        obtain ⟨y, hy, hk⟩ := hb.grants_live hg
        rw [hx, Option.some.injEq] at hy
        subst hy
        obtain ⟨t, b, w, rfl, hpc, hz⟩ := grants_eq hg
        simp only [exec, Sys.stepThread, hpc, Sys.check, hz, if_true, Option.some.injEq] at h
        subst h
        simp only [Sys.checkOk, Sys.returnReady, Sys.return, setPc_futs, modifyFut_futs, if_true, hx,
          Option.map_some, Option.some.injEq] at hx'
        subst hx'
        exact ⟨hk, rfl⟩
      · rw [or_iff_right hg, unbacked_same hb.wf h hx hx' hg]
        exact hb.mem_iff f x hx

/-- A future from outside the history that is ready has a block in its hands. -/
theorem Backing.grants_held (hb : Backing s us) (hf : f ∈ s.grants a) : f ∉ us ↔ 0 < s.held (.fut f) := by
  obtain ⟨x, hx, hk⟩ := hb.grants_live hf
  have hheld : s.held (.fut f) = x.holdsBlock.toNat := by
    show blockOf (s.futs f) = _
    rw [hx]; rfl
  rw [hb.mem_iff f x hx, hheld]
  unfold FutRec.Unbacked
  cases x.holdsBlock with
  | true => simp
  | false => simp [hk]

/-! ## The block in the hands of one carrier -/

/-- One carrier at most has the block, and the bit is set as long as one has it. -/
def OneBlock (s : Sys) : Prop := ∃ b, Hands s b ∧ (isBlocked s.count = true ↔ b ≠ .free)

theorem OneBlock.new : OneBlock Sys.new :=
  ⟨.free, fun c => by cases c <;> rfl, fun h => (nomatch h), fun h => absurd rfl h⟩

theorem OneBlock.step (ho : OneBlock s) (hb : Backing s us) (hg : ∀ f ∈ s.grants a, f ∉ us) (h : Step cfg s a s') :
    OneBlock s' := by
  obtain ⟨b, hh, hbit⟩ := ho
  have hfree : s.count.toNat % 2 = 0 → b = .free := fun he => by
    by_contra hne
    have := (isBlocked_iff _).mp (hbit.mpr hne)
    omega
  have hset : ∀ {c}, 0 < s.held c → isBlocked s.count = true := fun hc => by
    rw [hbit, hh.holder hc]; exact RwLock.Block.held_ne_free _
  cases h.effect hb.wf with
  | quiet e₁ _ e₃ => exact ⟨b, fun c => by rw [e₃, hh c], by rw [e₁, hbit]⟩
  | acquire _ e₁ _ e₃ => exact ⟨b, fun c => by rw [e₃, hh c], by rw [e₁, add_refIncr_blocked, hbit]⟩
  | dropRef _ e₁ _ e₃ => exact ⟨b, fun c => by rw [e₃, hh c], by rw [e₁, sub_refIncr_blocked, hbit]⟩
  | block c _ he e₁ _ hgain =>
    obtain rfl := hfree he
    refine ⟨.held c, hh.gains hgain, fun _ => RwLock.Block.held_ne_free c, fun _ => ?_⟩
    rw [e₁, isBlocked_iff, or_refBlocked_toNat he]
    omega
  | pass c d _ e₁ _ hp =>
    refine ⟨.held d, hh.passes hp, fun _ => RwLock.Block.held_ne_free d, fun _ => ?_⟩
    rw [e₁]; exact hset hp.has
  | mint hpc hx hfalse hz _ _ _ =>
    rename_i t d f w x _ _ _
    have hf := grants_step hpc hz d
    have hpos := (hb.grants_held hf).mp (hg _ hf)
    simp [Sys.held, blockOf, hx, hfalse] at hpos
  | lose e₁ _ hl =>
    refine ⟨.lost, hh.loses hl, fun _ => RwLock.Block.lost_ne_free, fun _ => ?_⟩
    rw [e₁]; exact hset hl.has
  | release c _ _ e₁ _ hl =>
    refine ⟨.free, hh.loses hl, fun hs => ?_, fun hne => absurd rfl hne⟩
    rw [e₁] at hs; cases hs

theorem OneBlock.exclusiveRefs (ho : OneBlock s) : s.exclusiveRefs ≤ 1 := by
  obtain ⟨b, hh, _⟩ := ho
  rcases Nat.eq_zero_or_pos s.exclusiveRefs with h0 | h0
  · rw [h0]; exact Nat.zero_le 1
  · exact Nat.le_of_eq (hh.eq_one (c := .exclusiveRef) h0)

theorem OneBlock.carrier (ho : OneBlock s) {c : Carrier} (hc : 0 < s.held c) :
    isBlocked s.count = true ∧ ∀ d, 0 < s.held d → d = c := by
  obtain ⟨b, hh, hbit⟩ := ho
  refine ⟨?_, fun d hd => ?_⟩
  · rw [hbit, hh.holder hc]; exact RwLock.Block.held_ne_free c
  · by_contra hne
    rw [hh.others hc hne] at hd; cases hd

end

/-- In any run: every poll that returns `Ready` hands over a block that was taken for its future
and has not been handed over before, and no two `ExclusiveRef`s are ever live, if and only if no
poll returns `Ready` for a future that `FutureExclusiveRef::new` made without an inner future of
this `RefCount`, or that has been ready before. -/
theorem hands_over_once (cfg : Config) (as : List Act) :
    AllSteps (exec cfg) HandsOver Sys.new as ↔ AllSteps (recorded (exec cfg) unbacked) Backed (Sys.new, []) as := by
  have hrec : AllSteps (recorded (exec cfg) unbacked) (fun p a q => HandsOver p.1 a q.1) (Sys.new, []) as ↔
      AllSteps (exec cfg) HandsOver Sys.new as := allSteps_recorded
  rw [← hrec]
  constructor
  · refine AllSteps.imp_inv (fun p => Backing p.1 p.2) (fun p a q hb hg hst => ?_) Backing.new
    obtain ⟨hex, hq⟩ := recorded_eq_some.mp hst
    refine ⟨fun f hf => ?_, hq ▸ hb.step hex⟩
    exact (hb.grants_held hf).mpr (hg.1 f hf).2.1
  · refine AllSteps.imp_inv (fun p => Backing p.1 p.2 ∧ OneBlock p.1) (fun p a q ⟨hb, ho⟩ hg hst => ?_)
      ⟨Backing.new, OneBlock.new⟩
    obtain ⟨hex, hq⟩ := recorded_eq_some.mp hst
    have ho' := ho.step hb hg (exec_step hex)
    refine ⟨⟨fun f hf => ?_, ho'.exclusiveRefs⟩, hq ▸ hb.step hex, ho'⟩
    have hheld := (hb.grants_held hf).mp (hg f hf)
    obtain ⟨hset, hother⟩ := ho.carrier hheld
    exact ⟨hset, hheld, hother⟩

/-- A future made by `FutureExclusiveRef::new(_, None)` is ready with the bit clear, and so is one
whose inner future is of another `RefCount` and ready; one that `get_exclusive_ref` returned beside
a `Ref` is ready at each poll after the `Ref` is dropped, and two `ExclusiveRef`s are live. -/
theorem hands_over_once_again :
    ¬ AllSteps (exec ⟨2, true⟩) HandsOver Sys.new [.newFutureExclusiveRef none, .call 0 (.poll 0 7), .step 0 false] ∧
    ¬ AllSteps (exec ⟨2, true⟩) HandsOver Sys.new
      [.newFutureExclusiveRef (some .other), .call 0 (.poll 0 7), .step 0 false, .step 0 false] ∧
    ¬ AllSteps (exec ⟨2, true⟩) HandsOver Sys.new (takeRef 0 ++ askExclusiveRef 1 ++
      [.dropRef, .call 1 (.poll 0 7), .step 1 false, .call 1 (.poll 0 7), .step 1 false]) ∧
    ∃ s, run (exec ⟨2, true⟩) Sys.new (takeRef 0 ++ askExclusiveRef 1 ++
      [.dropRef, .call 1 (.poll 0 7), .step 1 false, .call 1 (.poll 0 7), .step 1 false]) = some s ∧
      s.exclusiveRefs = 2 := by
  refine ⟨fun h => ?_, fun h => ?_, fun h => ?_, _, rfl, rfl⟩
  · have := (h.2.2.1.1 0 rfl).1
    cases this
  · have := (h.2.2.2.1.1 0 rfl).1
    cases this
  · have := h.2.2.2.2.2.2.2.2.2.2.2.1.2
    exact absurd this (by decide)

end RefCount
