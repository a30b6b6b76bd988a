import RefCount.Handover
import RefCount.Orphan
import RefCount.Wakers

/-!
# Overtaking

The documentation promises fairness as long as the queue has room. But a release empties the queue
and hands nothing over: whoever was queued competes again at its next poll, with every request that
comes up in between.
-/

namespace RefCount

open Lts

/-- The future whose waiter enters the queue in this step. -/
def Sys.enters (cfg : Config) (s : Sys) : Act → Option FutId
  | .step t _ =>
    match s.pc t with
    | .registerPush f _ => if s.waiterQueue.length < cfg.maxWaiting then some f else none
    | _ => none
  | _ => none

def Sys.finished (s : Sys) (f : FutId) : Bool :=
  match s.futs f with
  | some x => x.status = .finished
  | none => true

/-- The history of a run: the futures that entered the queue and have not been ready since, each
with the number of futures that there were then. -/
def waiting (cfg : Config) (s : Sys) (a : Act) (es : List (FutId × FutId)) : List (FutId × FutId) :=
  match exec cfg s a with
  | some s' => ((s.enters cfg a).map fun f => (f, s.nextFut)).toList ++ es.filter fun e => !s'.finished e.1
  | none => es

/-- An `ExclusiveRef` that is granted while futures wait goes to a future older than the entry of
each of them; so it goes neither to a later future nor to a call that returns it at once. -/
def InTurn (p : Sys × List (FutId × FutId)) (a : Act) (q : Sys × List (FutId × FutId)) : Prop :=
  ∀ e ∈ p.2, p.1.exclusiveRefs < q.1.exclusiveRefs → ∃ g ∈ p.1.grants a, g < e.2

/-- A call that asks for an exclusive reference, or polls for one a future that is not among the
first `n`. A `try_get_exclusive_ref` beside a `Ref` rolls its block back. -/
def Sys.asksAfter (n : FutId) (s : Sys) : Act → Bool
  | .call _ .getExclusiveRef => true
  | .call _ .tryGetExclusiveRef => noStandardRefs s.count
  | .call _ .blockingGetExclusiveRef => true
  | .call _ (.poll g _) => n ≤ g && (s.futs g).any fun x => x.fut.isExclusiveRef
  | _ => false

/-- While a future waits, nobody who came later asks for an exclusive reference at a time when
references are allowed, or claims a block by `FutureExclusiveRef::new(_, None)` or with an inner
future of another `RefCount`. -/
def GivesWay (p : Sys × List (FutId × FutId)) (a : Act) (_ : Sys × List (FutId × FutId)) : Prop :=
  ∀ e ∈ p.2, (p.1.asksAfter e.2 a = true → isBlocked p.1.count = true) ∧ a.makesUnbacked = false

instance (p : Sys × List (FutId × FutId)) (a : Act) (q : Sys × List (FutId × FutId)) : Decidable (GivesWay p a q) :=
  inferInstanceAs (Decidable (∀ e ∈ _, _))

def BlockOp.newer (n : FutId) : BlockOp → Bool
  | .getExclusiveRef => true
  | .tryGetExclusiveRef => true
  | .blockingGetExclusiveRef => true
  | .pollExclusiveRef g _ => n ≤ g
  | _ => false

def CheckOp.newer (n : FutId) : CheckOp → Bool
  | .pollExclusiveRef g _ => n ≤ g
  | _ => true

/-- The thread is on its way to an `ExclusiveRef`, and its request is not that of one of the first
`n` futures. -/
def Pc.newer (n : FutId) : Pc → Bool
  | .blockLoad op => op.newer n
  | .blockCas op _ _ => op.newer n
  | .noStandardRefs op => op.newer n
  | _ => false

def Pc.checks : Pc → Bool
  | .noStandardRefs _ => true
  | _ => false

/-- A newer request gets nowhere: it tries while references are blocked, or it is a
`try_get_exclusive_ref` beside a `Ref`. -/
def Kept (s : Sys) (p : Pc) : Prop :=
  isBlocked s.count = true ∧ p.checks = false ∨ p.call = some .tryGetExclusiveRef ∧ noStandardRefs s.count = false

structure Fairness.Inv (s : Sys) (es : List (FutId × FutId)) : Prop where
  serial : Serial.Inv s
  kept : ∀ e ∈ es, ∀ t, (s.pc t).newer e.2 = true → Kept s (s.pc t)
  unblocked : ∀ e ∈ es, ∀ g x, s.futs g = some x → e.2 ≤ g → x.fut.kind.hasFlag = true

section
variable {cfg : Config} {s s' : Sys} {a : Act} {t : ThreadId} {n : FutId}

theorem newer_busy {p : Pc} (h : p.newer n = true) : p.call ≠ none := by
  intro hc
  obtain ⟨r, rfl⟩ := call_eq_none.mp hc
  cases h

theorem Kept.even {p : Pc} (hk : Kept s p) (he : s.count.toNat % 2 = 0) :
    p.call = some .tryGetExclusiveRef ∧ noStandardRefs s.count = false := by
  rcases hk with ⟨hb, _⟩ | hk
  · rw [(not_isBlocked_iff _).mpr he] at hb; cases hb
  · exact hk

theorem Kept.check {p : Pc} (hk : Kept s p) (hc : p.checks = true) :
    p.call = some .tryGetExclusiveRef ∧ noStandardRefs s.count = false := by
  rcases hk with ⟨_, hn⟩ | hk
  · rw [hc] at hn; cases hn
  · exact hk

theorem Step.newer_kept (hw : Wf s) (h : Step cfg s a s') (ha : a.thread? = some t) (ht : (s'.pc t).newer n = true)
    (hk : (s.pc t).newer n = true → Kept s (s.pc t))
    (hu : ∀ g x, s.futs g = some x → n ≤ g → x.fut.kind.hasFlag = true) :
    (∃ c, a = .call t c) ∨ Kept s' (s'.pc t) := by
  cases h with
  | begin _ _ => cases ha; exact .inl ⟨_, rfl⟩
  | beginUnblock _ _ => cases ha; exact .inl ⟨_, rfl⟩
  | beginDrop _ _ => cases ha; exact .inl ⟨_, rfl⟩
  | beginPoll _ _ _ => cases ha; exact .inl ⟨_, rfl⟩
  | jump hj =>
    cases ha
    rw [setPc_self] at ht ⊢
    generalize s.pc t = p at hj hk
    apply Or.inr
    cases hj with
    | blockLoad => exact hk ht
    | blockRetry _ => exact hk ht
    | blockingGetExclusiveRefLoop _ => exact hk rfl
    | tryGetExclusiveRefAgain hz _ => exact .inr ⟨rfl, hz⟩
    | blockingGetExclusiveRefWait _ => cases ((hk rfl).check rfl).1
    | _ => cases ht
  | blockAsk hpc hq hc =>
    cases ha
    rw [setPc_self] at ht ⊢
    have he : s.count.toNat % 2 = 0 := hc ▸ BlockPair.even _
    rw [hpc] at hk
    have hk := hk (by cases hq <;> rfl)
    obtain ⟨hcall, hz⟩ := hk.even he
    refine .inr (.inr ⟨?_, ?_⟩)
    · rw [← hcall]
      exact congrArg some hq.call
    · show noStandardRefs (s.count ||| refBlocked) = false
      rw [or_refBlocked_noStandardRefs he]
      exact hz
  | blockPollExclusive hpc hc =>
    cases ha
    rw [setPc_self] at ht
    rw [hpc] at hk
    cases ((hk ht).even (hc ▸ BlockPair.even _)).1
  | otherReady hpc =>
    cases ha
    rw [setPc_self] at ht
    obtain ⟨x, hx, _, hfit⟩ := hw.polls_at hpc rfl
    have hflag := hu _ x hx (of_decide_eq_true ht)
    rw [of_decide_eq_true hfit] at hflag; cases hflag
  | dropRef => cases ha
  | forgetRef => cases ha
  | dropFuture => cases ha
  | newFuture hn => cases hn <;> cases ha
  | _ => cases ha; simp [Pc.newer] at ht

theorem call_newer_kept {c : Call} (h : Step cfg s (.call t c) s') (ht : (s'.pc t).newer n = true)
    (hask : s.asksAfter n (.call t c) = true → isBlocked s.count = true)
    (hu : ∀ g x, s.futs g = some x → n ≤ g → x.fut.kind.hasFlag = true) : Kept s' (s'.pc t) := by
  cases h with
  | begin _ hb =>
    rw [setPc_self] at ht ⊢
    cases hb with
    | getExclusiveRef => exact .inl ⟨hask rfl, rfl⟩
    | blockingGetExclusiveRef => exact .inl ⟨hask rfl, rfl⟩
    | tryGetExclusiveRef =>
      cases hz : noStandardRefs s.count with
      | true => exact .inl ⟨hask hz, rfl⟩
      | false => exact .inr ⟨rfl, hz⟩
    | _ => cases ht
  | beginUnblock _ _ => rw [setPc_self] at ht; cases ht
  | beginDrop _ _ => rw [setPc_self] at ht; cases ht
  | newFuture hn => cases hn
  | beginPoll hpc hx hs =>
    rename_i r f w x
    rw [setPc_self] at ht ⊢
    have hexcl : n ≤ f → x.fut.isExclusiveRef = true → isBlocked s.count = true := by
      intro hle he
      exact hask (by simp [Sys.asksAfter, hle, hx, he])
    have hflag := hu f x hx
    generalize x.fut = fut at ht hflag hexcl
    cases fut using Fut.shapes with
    | ref _ => cases ht
    | blockedRefs _ => cases ht
    | waiting _ => exact .inl ⟨hexcl (of_decide_eq_true ht) rfl, rfl⟩
    | elsewhere => cases ht
    | owning => cases hflag (of_decide_eq_true ht)

theorem Step.newer_unblocked (hw : Wf s) (h : Step cfg s a s') (hnew : a.makesUnbacked = false)
    (hk : ∀ t, (s.pc t).newer n = true → Kept s (s.pc t))
    (hu : ∀ g x, s.futs g = some x → n ≤ g → x.fut.kind.hasFlag = true)
    (g : FutId) (x' : FutRec) (hx' : s'.futs g = some x') (hg : n ≤ g) : x'.fut.kind.hasFlag = true := by
  cases hx : s.futs g with
  | none =>
    obtain ⟨_, fut, b, rfl, ⟨t, d, rfl, hr⟩ | ⟨hc, _⟩⟩ := h.new hx hx'
    · have hkt := hk t
      generalize s.pc t = p at hr hkt
      cases hr with
      | getExclusiveRefBlocked _ => cases ((hkt rfl).check rfl).1
      | _ => rfl
    · rw [hc.hasFlag, hnew]; rfl
  | some x =>
    have hkind := hu g x hx hg
    rcases h.evolves hx (hw.lt hx) with ⟨_, _, hn⟩ | ⟨y, hy, he⟩
    · rw [hn] at hx'; cases hx'
    · rw [hy, Option.some.injEq] at hx'
      subst hx'
      cases he with
      | clear _ => rw [FutRec.setRegistered, kind_setRegistered]; exact hkind
      | store _ => rw [FutRec.register, kind_setRegistered]; exact hkind
      | block hpc hc =>
        have hkt := hk _ (by rw [hpc]; exact decide_eq_true hg)
        rw [hpc] at hkt
        cases (hkt.even (hc ▸ BlockPair.even _)).1
      | dropInner hpc =>
        have hfit := (hw.polled_at hpc rfl hx).2
        rw [of_decide_eq_true hfit] at hkind; cases hkind
      | _ => exact hkind

/-! ## The history -/

theorem enters_eq {f : FutId} (h : s.enters cfg a = some f) :
    ∃ t b w, a = .step t b ∧ s.pc t = .registerPush f w ∧ s.waiterQueue.length < cfg.maxWaiting := by
  cases a with
  | step t b =>
    simp only [Sys.enters] at h
    split at h
    · rename_i g w hpc
      split at h
      · rename_i hl
        cases h
        exact ⟨t, b, w, rfl, hpc, hl⟩
      · cases h
    · cases h
  | _ => cases h

theorem mem_waiting {es : List (FutId × FutId)} {e : FutId × FutId} (h : exec cfg s a = some s')
    (he : e ∈ waiting cfg s a es) : s.enters cfg a = some e.1 ∧ e.2 = s.nextFut ∨ e ∈ es := by
  simp only [waiting, h] at he
  rcases List.mem_append.mp he with hin | hold
  · obtain ⟨f, hf, rfl⟩ := Option.mem_map.mp (Option.mem_toList.mp hin)
    exact .inl ⟨hf, rfl⟩
  · exact .inr (List.mem_filter.mp hold).1

theorem Fairness.Inv.new : Inv Sys.new [] := ⟨.new, fun _ h => (nomatch h), fun _ h => nomatch h⟩

theorem Fairness.Inv.step {es : List (FutId × FutId)} (hi : Inv s es) (hs : Serial s a s')
    (hg : ∀ e ∈ es, (s.asksAfter e.2 a = true → isBlocked s.count = true) ∧ a.makesUnbacked = false)
    (h : exec cfg s a = some s') : Inv s' (waiting cfg s a es) := by
  have hst := exec_step h
  have hw := hi.serial.wf
  refine ⟨hi.serial.step hs h, fun e he u hu => ?_, fun e he g x' hx' hle => ?_⟩
  · have hau : a.thread? = some u := by
      by_contra hne
      have hpc := hst.pc_frame hne
      rw [hpc] at hu
      obtain ⟨b, rfl⟩ := hi.serial.mover hs h (newer_busy hu)
      exact hne rfl
    rcases mem_waiting h he with ⟨hf, _⟩ | hold
    · obtain ⟨t, b, w, rfl, hpc, hl⟩ := enters_eq hf
      cases hau
      simp only [exec, Sys.stepThread, hpc, Sys.registerPush, if_pos hl, Option.some.injEq] at h
      subst h
      rw [setPc_self] at hu; cases hu
    · rcases hst.newer_kept hw hau hu (hi.kept e hold u) (hi.unblocked e hold) with ⟨c, rfl⟩ | hk
      · exact call_newer_kept hst hu (hg e hold).1 (hi.unblocked e hold)
      · exact hk
  · rcases mem_waiting h he with ⟨hf, hn⟩ | hold
    · obtain ⟨t, b, w, rfl, hpc, hl⟩ := enters_eq hf
      simp only [exec, Sys.stepThread, hpc, Sys.registerPush, if_pos hl, Option.some.injEq] at h
      subst h
      have hlt : g < s.nextFut := hw.lt (x := x') hx'
      rw [hn] at hle
      exact absurd hle (Nat.not_le_of_lt hlt)
    · exact hst.newer_unblocked hw (hg e hold).2 (hi.kept e hold) (hi.unblocked e hold) g x' hx' hle

/-- A grant is the check of a request that is not newer. -/
theorem Fairness.Inv.inTurn {es : List (FutId × FutId)} (hi : Inv s es) (h : Step cfg s a s')
    (hlt : s.exclusiveRefs < s'.exclusiveRefs) {e : FutId × FutId} (he : e ∈ es) : ∃ g ∈ s.grants a, g < e.2 := by
  rcases h.exclusiveRefs with hle | ⟨t, b, op, rfl, hpc, hz⟩
  · omega
  · have hold : op.newer e.2 = false := by
      cases hn : op.newer e.2 with
      | false => rfl
      | true =>
        have hk := hi.kept e he t (by rw [hpc]; exact hn)
        rw [hpc] at hk
        have hfalse := (hk.check rfl).2
        rw [hz] at hfalse; cases hfalse
    cases op with
    | pollExclusiveRef g w =>
      exact ⟨g, grants_step hpc hz b, Nat.lt_of_not_le (of_decide_eq_false hold)⟩
    | _ => cases hold

end

/-- In a run of complete operations: if, while a future is in the queue or has been since it was
last ready, nobody who came later asks for an exclusive reference while references are allowed,
then no `ExclusiveRef` is granted to anybody who came later than a future that waits. -/
theorem granted_in_turn (cfg : Config) (as : List Act)
    (h : AllSteps (recorded (exec cfg) (waiting cfg)) (fun p a q => Serial p.1 a q.1 ∧ GivesWay p a q) (Sys.new, []) as) :
    AllSteps (recorded (exec cfg) (waiting cfg)) InTurn (Sys.new, []) as := by
  refine AllSteps.imp_inv (fun p => Fairness.Inv p.1 p.2) (fun p a q hi hg hst => ?_) Fairness.Inv.new h
  obtain ⟨hex, hq⟩ := recorded_eq_some.mp hst
  refine ⟨fun e he hlt => hi.inTurn (exec_step hex) hlt he, ?_⟩
  rw [hq]
  exact hi.step hg.1 hg.2 hex

/-- A request for a reference is queued beside an `ExclusiveRef`, which is dropped then. -/
def queueAndRelease : List Act :=
  askExclusiveRef 0 ++ .call 0 .getRef :: steps 5 ++ .call 0 (.poll 0 7) :: steps 4 ++
    .call 0 .dropExclusiveRef :: steps 5

/-- The future is polled before the next exclusive request is made. -/
theorem granted_in_turn_polled :
    AllSteps (recorded (exec ⟨1, true⟩) (waiting ⟨1, true⟩)) InTurn (Sys.new, [])
      (queueAndRelease ++ .call 0 (.poll 0 7) :: steps 3 ++ .dropRef :: askExclusiveRef 0) ∧
    ∃ s, run (exec ⟨1, true⟩) Sys.new
      (queueAndRelease ++ .call 0 (.poll 0 7) :: steps 3 ++ .dropRef :: askExclusiveRef 0) = some s ∧
      s.exclusiveRefs = 1 := by
  refine ⟨granted_in_turn ⟨1, true⟩ _ ?_, _, rfl, rfl⟩
  exact (allSteps_recorded.mpr (oneThread_serial (by decide))).and (by decide)

/-- The next exclusive request is made before the future is polled, and is granted at once. -/
theorem granted_in_turn_overtaken :
    AllSteps (exec ⟨1, true⟩) Serial Sys.new (queueAndRelease ++ askExclusiveRef 0) ∧
    (∃ s, run (exec ⟨1, true⟩) Sys.new (queueAndRelease ++ askExclusiveRef 0) = some s ∧ s.exclusiveRefs = 1 ∧
      s.wakes = [⟨7, 0⟩] ∧ ∃ x, s.futs 0 = some x ∧ x.status = .pending) ∧
    ¬ AllSteps (recorded (exec ⟨1, true⟩) (waiting ⟨1, true⟩)) InTurn (Sys.new, [])
      (queueAndRelease ++ askExclusiveRef 0) := by
  refine ⟨oneThread_serial (by decide), ⟨_, rfl, rfl, rfl, _, rfl, rfl⟩, fun h => ?_⟩
  have h : AllSteps (recorded (exec ⟨1, true⟩) (waiting ⟨1, true⟩)) InTurn (Sys.new, [])
      ((queueAndRelease ++ [.call 0 .getExclusiveRef, .step 0 false, .step 0 false]) ++ [.step 0 false]) := h
  have hgrant := (h.append rfl).1
  obtain ⟨g, hg, _⟩ := hgrant (0, 1) (List.mem_singleton.mpr rfl) Nat.one_pos
  cases hg

end RefCount
