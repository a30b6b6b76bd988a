import RefCount.Steps

/-!
# Several attempts, one update

`get_ref`, `try_get_ref`, `blocking_get_ref` and `try_block_refs` try a
`compare_exchange_weak` again and again with locals that may be out of date. Here one call
of them meets a word that the other threads write as they like.
-/

namespace RefCount

open Lts

inductive Acquisition where
  | getRef
  | tryGetRef
  | blockingGetRef
  | tryBlockRefs
  deriving DecidableEq, Repr

def Acquisition.call : Acquisition → Call
  | .getRef => .getRef
  | .tryGetRef => .tryGetRef
  | .blockingGetRef => .blockingGetRef
  | .tryBlockRefs => .tryBlockRefs

def Acquisition.update (w : UInt32) : Acquisition → UInt32
  | .tryBlockRefs => w ||| 1
  | _ => w + 2

def Acquisition.success : Acquisition → Res
  | .tryBlockRefs => .bool true
  | _ => .ref

/-- What a call returns that gives up: its four attempts have failed, or the addition panics. -/
inductive Acquisition.Failure (cfg : Config) : Acquisition → Res → Prop
  | getRef {f : FutId} : Failure cfg .getRef (.future f)
  | tryGetRef : Failure cfg .tryGetRef .none
  | tryBlockRefs : Failure cfg .tryBlockRefs (.bool false)
  | panicked {c : Acquisition} : c ≠ .tryBlockRefs → cfg.overflowChecks = true → Failure cfg c .panicked

/-- What happens to the word during the call: a step of the call, or a write of another
thread. -/
inductive Event where
  | step (spurious : Bool)
  | write (w : UInt32)
  deriving DecidableEq, Repr

def Event.isStep : Event → Bool
  | .step _ => true
  | .write _ => false

section
variable (cfg : Config) (t : ThreadId)

def meet (s : Sys) : Event → Option Sys
  | .step spurious => s.stepThread cfg t spurious
  | .write w => some { s with count := w }

def ownWrites : Sys → List Event → List (UInt32 × UInt32)
  | _, [] => []
  | s, .write w :: es => ownWrites { s with count := w } es
  | s, .step spurious :: es =>
    match s.stepThread cfg t spurious with
    | some s' => (if s'.count = s.count then [] else [(s.count, s'.count)]) ++ ownWrites s' es
    | none => []

end

inductive Acquisition.Incr : Acquisition → IncrOp → Prop
  | getRef : Incr .getRef .getRef
  | tryGetRef : Incr .tryGetRef .tryGetRef
  | blockingGetRef : Incr .blockingGetRef .blockingGetRef

/-- Between two accesses of the call. -/
inductive Acquisition.Trying (c : Acquisition) : Pc → Prop
  | incrLoad {op : IncrOp} : c.Incr op → c.Trying (.incrLoad op)
  | incrCas {op : IncrOp} {n : Nat} {l : IncrPair} : c.Incr op → c.Trying (.incrCas op n l)
  | blockLoad : c = .tryBlockRefs → c.Trying (.blockLoad .tryBlockRefs)
  | blockCas {n : Nat} {l : BlockPair} : c = .tryBlockRefs → c.Trying (.blockCas .tryBlockRefs n l)

/-- The steps that a call has left that does not start over. -/
def Pc.attemptsLeft : Pc → Nat
  | .incrLoad _ => 5
  | .incrCas _ attempt _ => 3 - attempt + 1
  | .blockLoad _ => 5
  | .blockCas _ attempt _ => 3 - attempt + 1
  | _ => 0

section
variable {cfg : Config} {s s' : Sys} {t : ThreadId} {c : Acquisition}

/-! ## One step -/

/-- What one step of the call does: it writes, and has succeeded, or goes on, or has failed. -/
inductive Acquisition.Outcome (cfg : Config) (c : Acquisition) (s s' : Sys) (t : ThreadId) : Prop
  | wrote : isBlocked s.count = false → s'.count = c.update s.count → s'.pc t = .done c.success → Outcome cfg c s s' t
  | goesOn : s'.count = s.count → c.Trying (s'.pc t) →
      (c ≠ .blockingGetRef → (s'.pc t).attemptsLeft < (s.pc t).attemptsLeft) → Outcome cfg c s s' t
  | failed {r : Res} : s'.count = s.count → s'.pc t = .done r → c.Failure cfg r → Outcome cfg c s s' t

theorem Acquisition.Failure.ne {r : Res} (h : c.Failure cfg r) : r ≠ c.success := by
  cases h with
  | panicked hc _ => cases c <;> exact nofun
  | _ => exact nofun

theorem Acquisition.Incr.update {op : IncrOp} (h : c.Incr op) (w : UInt32) : c.update w = w + refIncr := by
  cases h <;> rfl

theorem Acquisition.Incr.success {op : IncrOp} (h : c.Incr op) : c.success = .ref := by
  cases h <;> rfl

theorem IncrPair.observe_none {overflowChecks : Bool} {w : UInt32} (h : IncrPair.observe overflowChecks w = none) :
    overflowChecks = true := by
  unfold IncrPair.observe at h
  split at h
  · rename_i hpanic
    exact hpanic.1
  · cases h

theorem Acquisition.Incr.observe {op : IncrOp} (h : c.Incr op) (n : Nat) (hlt : 3 - n + 1 < (s.pc t).attemptsLeft) :
    c.Outcome cfg s (s.incrObserve cfg t op n s.count) t := by
  unfold Sys.incrObserve
  split
  · refine .goesOn rfl ?_ fun _ => ?_
    · simp only [setPc_pc, if_true]
      exact .incrCas h
    · rw [setPc_self]
      exact hlt
  · rename_i hobs
    refine .failed (r := .panicked) ?_ ?_ (.panicked ?_ (IncrPair.observe_none hobs))
    · cases h <;> rfl
    · cases h <;> simp [Sys.incrPanic]
    · cases h <;> exact nofun

theorem Acquisition.Incr.cas {op : IncrOp} (h : c.Incr op) {n : Nat} {l : IncrPair} (b : Bool)
    (hpc : s.pc t = .incrCas op n l) : c.Outcome cfg s (s.incrCas cfg t op n l b) t := by
  unfold Sys.incrCas
  split
  · rename_i hcas
    refine .wrote ?_ ?_ ?_
    · rw [not_isBlocked_iff, hcas.1]
      exact l.even
    · rw [h.update, hcas.1, ← l.next]
      cases h <;> rfl
    · rw [h.success]
      cases h <;> simp [Sys.incrOk]
  · split
    · refine h.observe _ ?_
      rw [hpc, Pc.attemptsLeft]
      omega
    · cases h with
      | getRef => exact .failed (r := .future s.nextFut) rfl (setPc_self _ _) .getRef
      | tryGetRef => exact .failed rfl (setPc_self _ _) .tryGetRef
      | blockingGetRef =>
        -- the loop goes on with the pair it has
        refine .goesOn rfl ?_ fun hne => absurd rfl hne
        simp only [Sys.incrErr, setPc_pc, if_true]
        exact .incrCas .blockingGetRef

theorem blockCas_outcome {n : Nat} {l : BlockPair} (b : Bool) (hpc : s.pc t = .blockCas .tryBlockRefs n l) :
    Acquisition.Outcome cfg .tryBlockRefs s (s.blockCas t .tryBlockRefs n l b) t := by
  unfold Sys.blockCas
  split
  · rename_i hcas
    refine .wrote ?_ ?_ ?_
    · rw [not_isBlocked_iff, hcas.1]
      exact l.even
    · rw [hcas.1]
      exact l.next
    · simp [Sys.blockOk, Acquisition.success]
  · split
    · refine .goesOn rfl ?_ fun _ => ?_
      · simp only [setPc_pc, if_true]
        exact .blockCas rfl
      · rw [setPc_self, hpc, Pc.attemptsLeft, Pc.attemptsLeft]
        omega
    · exact .failed rfl (setPc_self _ _) .tryBlockRefs

theorem Acquisition.Trying.step {b : Bool} (ht : c.Trying (s.pc t)) (h : s.stepThread cfg t b = some s') :
    c.Outcome cfg s s' t := by
  generalize hp : s.pc t = p at ht
  unfold Sys.stepThread at h
  rw [hp] at h
  cases ht with
  | incrLoad hi =>
    cases h
    refine hi.observe 0 ?_
    rw [hp, Pc.attemptsLeft]
    omega
  | incrCas hi => cases h; exact hi.cas b hp
  | blockLoad e =>
    cases h
    refine .goesOn rfl ?_ fun _ => ?_
    · simp only [setPc_pc, if_true]
      exact .blockCas e
    · rw [setPc_self, hp, Pc.attemptsLeft, Pc.attemptsLeft]
      omega
  | blockCas e => cases h; subst e; exact blockCas_outcome b hp

/-! ## The whole call -/

theorem ownWrites_done {r : Res} (hpc : s.pc t = .done r) (es : List Event) : ownWrites cfg t s es = [] := by
  induction es generalizing s with
  | nil => rfl
  | cons e es ih =>
    cases e with
    | write w => exact ih (s := { s with count := w }) hpc
    | step b => simp only [ownWrites, Sys.stepThread, hpc]

theorem run_done {r : Res} (hpc : s.pc t = .done r) {es : List Event} (h : run (meet cfg t) s es = some s') :
    s'.pc t = .done r := by
  induction es generalizing s with
  | nil => cases h; exact hpc
  | cons e es ih =>
    cases e with
    | write w => exact ih (s := { s with count := w }) hpc h
    | step b =>
      have hnone : meet cfg t s (.step b) = none := by simp only [meet, Sys.stepThread, hpc]
      simp only [run, hnone] at h
      cases h

theorem Acquisition.Trying.not_done {r : Res} (h : c.Trying (.done r)) : False := by
  cases h

theorem Acquisition.Trying.attemptsLeft_pos {p : Pc} (h : c.Trying p) : 0 < p.attemptsLeft := by
  cases h <;> exact Nat.succ_pos _

theorem Acquisition.update_toNat {w : UInt32} (hw : isBlocked w = false) :
    (c = .tryBlockRefs → (c.update w).toNat = w.toNat + 1) ∧
    (c ≠ .tryBlockRefs → (c.update w).toNat = (w.toNat + 2) % 2 ^ 32) := by
  constructor
  · rintro rfl
    exact or_refBlocked_toNat ((not_isBlocked_iff w).mp hw)
  · intro hc
    cases c with
    | tryBlockRefs => exact absurd rfl hc
    | _ => exact UInt32.toNat_add w 2

theorem Acquisition.update_ne {w : UInt32} (hw : isBlocked w = false) : c.update w ≠ w := by
  intro e
  have hlt : w.toNat < 2 ^ 32 := w.toNat_lt
  obtain ⟨hblock, hincr⟩ := Acquisition.update_toNat (c := c) hw
  rw [e] at hblock hincr
  by_cases hc : c = .tryBlockRefs
  · have := hblock hc
    omega
  · have := hincr hc
    omega

/-- The call has not written, or has written once and succeeded. -/
theorem Acquisition.Trying.run (ht : c.Trying (s.pc t)) {es : List Event} (h : run (meet cfg t) s es = some s') :
    ownWrites cfg t s es = [] ∧ s'.pc t ≠ .done c.success ∨
    (∃ w, isBlocked w = false ∧ ownWrites cfg t s es = [(w, c.update w)]) ∧ s'.pc t = .done c.success := by
  induction es generalizing s with
  | nil =>
    cases h
    refine .inl ⟨rfl, fun e => ?_⟩
    rw [e] at ht
    exact ht.not_done
  | cons e es ih =>
    cases e with
    | write w => exact ih (s := { s with count := w }) ht h
    | step b =>
      cases hst : s.stepThread cfg t b with
      | none => simp [Lts.run, meet, hst] at h
      | some s₁ =>
        rw [run_cons (t := s₁) hst] at h
        simp only [ownWrites, hst]
        cases ht.step hst with
        | wrote hfree hcount hpc =>
          have hne : s₁.count ≠ s.count := by
            rw [hcount]
            exact Acquisition.update_ne hfree
          rw [if_neg hne, ownWrites_done hpc, hcount]
          exact .inr ⟨⟨s.count, hfree, rfl⟩, run_done hpc h⟩
        | goesOn hcount ht₁ _ =>
          rw [if_pos hcount]
          exact ih ht₁ h
        | failed hcount hpc hf =>
          rw [if_pos hcount, ownWrites_done hpc, run_done hpc h]
          exact .inl ⟨rfl, fun e => hf.ne (Pc.done.inj e)⟩

/-- A call that does not start over has returned when its steps are used up. -/
theorem Acquisition.Trying.returns (ht : c.Trying (s.pc t)) (hc : c ≠ .blockingGetRef) {es : List Event}
    (h : Lts.run (meet cfg t) s es = some s') (hn : (s.pc t).attemptsLeft ≤ es.countP Event.isStep) :
    s'.pc t = .done c.success ∨ ∃ r, s'.pc t = .done r ∧ c.Failure cfg r := by
  induction es generalizing s with
  | nil => exact absurd hn (Nat.not_le_of_lt ht.attemptsLeft_pos)
  | cons e es ih =>
    cases e with
    | write w => exact ih (s := { s with count := w }) ht h hn
    | step b =>
      rw [List.countP_cons_of_pos (by rfl)] at hn
      cases hst : s.stepThread cfg t b with
      | none => simp [Lts.run, meet, hst] at h
      | some s₁ =>
        rw [run_cons (t := s₁) hst] at h
        cases ht.step hst with
        | wrote _ _ hpc => exact .inl (run_done hpc h)
        | goesOn _ ht₁ hlt =>
          have := hlt hc
          exact ih ht₁ h (by omega)
        | failed _ hpc hf => exact .inr ⟨_, run_done hpc h, hf⟩

/-! ## Nobody else writes -/

theorem IncrPair.observe_free {overflowChecks : Bool} {w : UInt32} (hw : isBlocked w = false)
    (hsafe : overflowChecks = true → w.toNat < 2 ^ 32 - 2) :
    ∃ l, IncrPair.observe overflowChecks w = some l ∧ l.refCount = w := by
  have heven := (not_isBlocked_iff w).mp hw
  have hmask := mask_even heven
  unfold IncrPair.observe
  split
  · rename_i h
    have := hsafe h.1
    rw [hmask, refIncr_toNat] at h
    omega
  · exact ⟨_, rfl, hmask⟩

theorem Acquisition.Incr.retry {op : IncrOp} (h : c.Incr op) (hw : isBlocked s.count = false)
    (hsafe : cfg.overflowChecks = true → s.count.toNat < 2 ^ 32 - 2) {n k : Nat} {l : IncrPair} (hk : n + k < 4)
    (hpc : s.pc t = .incrCas op n l) (hl : l.refCount = s.count) :
    ∃ s', Lts.run (meet cfg t) s (List.replicate k (.step true) ++ [.step false]) = some s' ∧ s'.pc t = .done c.success ∧
      s'.count = c.update s.count := by
  induction k generalizing s n l with
  | zero =>
    have hst : meet cfg t s (.step false) = some (s.incrCas cfg t op n l false) := by
      simp only [meet, Sys.stepThread, hpc]
    refine ⟨_, (run_cons hst).mpr rfl, ?_, ?_⟩
    · unfold Sys.incrCas
      rw [if_pos ⟨hl.symm, rfl⟩, h.success]
      cases h <;> simp [Sys.incrOk]
    · unfold Sys.incrCas
      rw [if_pos ⟨hl.symm, rfl⟩, h.update, ← hl, ← l.next]
      cases h <;> rfl
  | succ k ih =>
    obtain ⟨l', hobs, hl'⟩ := IncrPair.observe_free hw hsafe
    have hst : meet cfg t s (.step true) = some (s.setPc t (.incrCas op (n + 1) l')) := by
      have hn : n < 3 := by omega
      simp only [meet, Sys.stepThread, hpc, Sys.incrCas, Bool.true_eq_false, and_false, if_false, if_pos hn,
        Sys.incrObserve, hobs]
    obtain ⟨s', hrun, hdone, hcount⟩ := ih (s := s.setPc t (.incrCas op (n + 1) l')) hw hsafe (n := n + 1) (by omega)
      (by simp) hl'
    exact ⟨s', (run_cons hst).mpr hrun, hdone, hcount⟩

theorem blockCas_retry (hw : isBlocked s.count = false) {n k : Nat} {l : BlockPair} (hk : n + k < 4)
    (hpc : s.pc t = .blockCas .tryBlockRefs n l) (hl : l.refCount = s.count) :
    ∃ s', run (meet cfg t) s (List.replicate k (.step true) ++ [.step false]) = some s' ∧ s'.pc t = .done (.bool true) ∧
      s'.count = s.count ||| 1 := by
  induction k generalizing s n l with
  | zero =>
    have hst : meet cfg t s (.step false) = some (s.blockCas t .tryBlockRefs n l false) := by
      simp only [meet, Sys.stepThread, hpc]
    refine ⟨_, (run_cons hst).mpr rfl, ?_, ?_⟩
    · unfold Sys.blockCas
      rw [if_pos ⟨hl.symm, rfl⟩]
      simp [Sys.blockOk]
    · unfold Sys.blockCas
      rw [if_pos ⟨hl.symm, rfl⟩, ← hl]
      exact l.next
  | succ k ih =>
    have hl' : (BlockPair.observe s.count).refCount = s.count := mask_even ((not_isBlocked_iff _).mp hw)
    have hst : meet cfg t s (.step true) = some (s.setPc t (.blockCas .tryBlockRefs (n + 1) (.observe s.count))) := by
      have hn : n < 3 := by omega
      simp only [meet, Sys.stepThread, hpc, Sys.blockCas, Bool.true_eq_false, and_false, if_false, if_pos hn]
    obtain ⟨s', hrun, hdone, hcount⟩ := ih (s := s.setPc t (.blockCas .tryBlockRefs (n + 1) (.observe s.count))) hw
      (n := n + 1) (by omega) (by simp) hl'
    exact ⟨s', (run_cons hst).mpr hrun, hdone, hcount⟩

/-! ## The bit stays set -/

theorem Acquisition.Trying.blocked (ht : c.Trying (s.pc t)) {es : List Event} (hw : isBlocked s.count = true)
    (hes : ∀ w, .write w ∈ es → isBlocked w = true) : ownWrites cfg t s es = [] := by
  induction es generalizing s with
  | nil => rfl
  | cons e es ih =>
    have hes' : ∀ w, .write w ∈ es → isBlocked w = true := fun w h => hes w (List.mem_cons_of_mem e h)
    cases e with
    | write w => exact ih (s := { s with count := w }) ht (hes w (List.mem_cons_self ..)) hes'
    | step b =>
      unfold ownWrites
      cases hst : s.stepThread cfg t b with
      | none => rfl
      | some s₁ =>
        simp only
        cases ht.step hst with
        | wrote hfree _ _ => rw [hw] at hfree; cases hfree
        | goesOn hcount ht₁ _ =>
          rw [if_pos hcount]
          exact ih ht₁ (by rw [hcount]; exact hw) hes'
        | failed hcount hpc _ => rw [if_pos hcount, ownWrites_done hpc]; rfl

/-! ## Every acquisition -/

theorem Acquisition.begins {s₁ : Sys} (h : exec cfg s (.call t c.call) = some s₁) :
    (∃ op, c.Incr op ∧ s₁.pc t = .incrLoad op) ∨ c = .tryBlockRefs ∧ s₁.pc t = .blockLoad .tryBlockRefs := by
  simp only [exec] at h
  split at h
  · cases c with
    | getRef => cases h; exact .inl ⟨_, .getRef, by simp⟩
    | tryGetRef => cases h; exact .inl ⟨_, .tryGetRef, by simp⟩
    | blockingGetRef => cases h; exact .inl ⟨_, .blockingGetRef, by simp⟩
    | tryBlockRefs => cases h; exact .inr ⟨rfl, by simp⟩
  · cases h

theorem Acquisition.trying {s₁ : Sys} (h : exec cfg s (.call t c.call) = some s₁) : c.Trying (s₁.pc t) := by
  rcases Acquisition.begins h with ⟨op, hi, hpc⟩ | ⟨hc, hpc⟩
  · rw [hpc]; exact .incrLoad hi
  · rw [hpc]; exact .blockLoad hc

/-- A call that does not block and has not written by its fifth step has made its four attempts,
or the addition has panicked: it returns its failure. -/
theorem Acquisition.gives_up {s₁ s₂ : Sys} (hc : c ≠ .blockingGetRef) (h₁ : exec cfg s (.call t c.call) = some s₁)
    {es : List Event} (h₂ : Lts.run (meet cfg t) s₁ es = some s₂) (hn : 5 ≤ es.countP Event.isStep)
    (hw : ownWrites cfg t s₁ es = []) : ∃ r, s₂.pc t = .done r ∧ c.Failure cfg r := by
  have ht := Acquisition.trying h₁
  have hleft : (s₁.pc t).attemptsLeft = 5 := by
    rcases Acquisition.begins h₁ with ⟨op, _, hpc⟩ | ⟨_, hpc⟩
    · rw [hpc]; rfl
    · rw [hpc]; rfl
  rcases ht.returns hc h₂ (hleft ▸ hn) with hdone | hfailed
  · rcases ht.run h₂ with ⟨_, hne⟩ | ⟨⟨w, _, hone⟩, _⟩
    · exact absurd hdone hne
    · rw [hw] at hone; cases hone
  · exact hfailed

theorem Acquisition.succeeds {s₁ : Sys} (h : exec cfg s (.call t c.call) = some s₁) (hw : isBlocked s₁.count = false)
    (hsafe : c ≠ .tryBlockRefs → cfg.overflowChecks = true → s₁.count.toNat < 2 ^ 32 - 2) (b : Bool) {k : Nat} (hk : k < 4) :
    ∃ s₂, Lts.run (meet cfg t) s₁ (.step b :: (List.replicate k (.step true) ++ [.step false])) = some s₂ ∧
      s₂.pc t = .done c.success ∧ s₂.count = c.update s₁.count := by
  rcases Acquisition.begins h with ⟨op, hi, hpc⟩ | ⟨rfl, hpc⟩
  · have hne : c ≠ .tryBlockRefs := by cases hi <;> exact nofun
    obtain ⟨l, hobs, hl⟩ := IncrPair.observe_free hw (hsafe hne)
    have hst : meet cfg t s₁ (.step b) = some (s₁.setPc t (.incrCas op 0 l)) := by
      simp only [meet, Sys.stepThread, hpc, Sys.incrObserve, hobs]
    obtain ⟨s₂, hrun, hdone, hcount⟩ := hi.retry (s := s₁.setPc t (.incrCas op 0 l)) (t := t) hw (hsafe hne) (n := 0) (k := k)
      (by omega) (by simp) hl
    exact ⟨s₂, (run_cons hst).mpr hrun, hdone, hcount⟩
  · have hl : (BlockPair.observe s₁.count).refCount = s₁.count := mask_even ((not_isBlocked_iff _).mp hw)
    have hst : meet cfg t s₁ (.step b) = some (s₁.setPc t (.blockCas .tryBlockRefs 0 (.observe s₁.count))) := by
      simp only [meet, Sys.stepThread, hpc]
    obtain ⟨s₂, hrun, hdone, hcount⟩ := blockCas_retry (s := s₁.setPc t (.blockCas .tryBlockRefs 0 (.observe s₁.count)))
      (t := t) hw (n := 0) (k := k) (by omega) (by simp) hl
    exact ⟨s₂, (run_cons hst).mpr hrun, hdone, hcount⟩

/-- One call, whatever the other threads write meanwhile and however often an attempt fails
spuriously: it writes at most once, over a word in which the bit is clear, and reports
success if and only if it has written. Alone it succeeds unless all four attempts fail
spuriously, and it changes nothing while the bit is set. -/
theorem acquisition_updates_once (c : Acquisition) {s s₁ : Sys} {t : ThreadId} {cfg : Config}
    (h₁ : exec cfg s (.call t c.call) = some s₁) :
    (∀ es s₂, Lts.run (meet cfg t) s₁ es = some s₂ →
      ownWrites cfg t s₁ es = [] ∧ s₂.pc t ≠ .done c.success ∨
      (∃ w w', ownWrites cfg t s₁ es = [(w, w')] ∧ isBlocked w = false ∧ w' = c.update w ∧
        (c = .tryBlockRefs → w'.toNat = w.toNat + 1) ∧
        (c ≠ .tryBlockRefs → w.toNat < 2 ^ 32 - 2 → w'.toNat = w.toNat + 2)) ∧ s₂.pc t = .done c.success) ∧
    (isBlocked s₁.count = false → (c ≠ .tryBlockRefs → cfg.overflowChecks = true → s₁.count.toNat < 2 ^ 32 - 2) → ∀ b k, k < 4 →
      ∃ s₂, Lts.run (meet cfg t) s₁ (.step b :: (List.replicate k (.step true) ++ [.step false])) = some s₂ ∧
        s₂.pc t = .done c.success ∧ s₂.count = c.update s₁.count) ∧
    ∀ es, isBlocked s₁.count = true → (∀ w, .write w ∈ es → isBlocked w = true) → ownWrites cfg t s₁ es = [] := by
  have ht := Acquisition.trying h₁
  refine ⟨fun es s₂ h₂ => ?_, fun hw hsafe b k hk => Acquisition.succeeds h₁ hw hsafe b hk,
    fun es hw hes => ht.blocked hw hes⟩
  rcases ht.run h₂ with hnone | ⟨⟨w, hw, hone⟩, hdone⟩
  · exact .inl hnone
  · obtain ⟨hblock, hincr⟩ := Acquisition.update_toNat (c := c) hw
    refine .inr ⟨⟨w, _, hone, hw, rfl, hblock, fun hc hlt => ?_⟩, hdone⟩
    rw [hincr hc]
    omega

end

/-- The word that the first attempt observes has the bit set; the second attempt meets what is
left of it when the bit is masked away. -/
theorem acquisition_updates_once_masked : ∃ s₁ s₂, exec ⟨1, true⟩ Sys.new (.call 0 .getRef) = some s₁ ∧
    Lts.run (meet ⟨1, true⟩ 0) s₁ [.step false, .write 5, .step false, .write 4, .step false] = some s₂ ∧
    ∃ w w', ownWrites ⟨1, true⟩ 0 s₁ [.step false, .write 5, .step false, .write 4, .step false] = [(w, w')] ∧
      isBlocked w = false ∧ w' = w + 2 := by
  refine ⟨_, _, rfl, rfl, ?_⟩
  have hcall : exec ⟨1, true⟩ Sys.new (.call 0 (Acquisition.call .getRef)) = some _ := rfl
  obtain ⟨h, _⟩ := acquisition_updates_once .getRef hcall
  rcases h [.step false, .write 5, .step false, .write 4, .step false] _ rfl with ⟨_, hne⟩ | ⟨⟨w, w', hone, hw, hw', _⟩, _⟩
  · exact absurd rfl hne
  · exact ⟨w, w', hone, hw, hw'⟩

end RefCount
