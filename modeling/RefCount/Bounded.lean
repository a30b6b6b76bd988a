import RefCount.Fairness

/-!
# How long an operation takes

Every operation but the two that block returns after so many steps of its own, whatever the
other threads do between them. One that releases takes three more for each waiter that it
may have to wake: those in the queue when it begins, and those that enter it meanwhile.
-/

namespace RefCount

open Lts

/-! ## The steps that are left -/

def Call.waits : Call → Bool
  | .blockingGetRef => true
  | .blockingGetExclusiveRef => true
  | _ => false

/-- What a waiter in the queue may cost the operation: a pop, a store to `registered` and a
wake. -/
def Call.perWaiter : Call → Nat
  | .unblockRefs => 3
  | .dropExclusiveRef => 3
  | .tryGetExclusiveRef => 3
  | _ => 0

/-- The steps of the operation, but for those that `perWaiter` counts. The poll of an inner
future of another `RefCount` is one. -/
def Call.steps : Call → Nat
  | .getExclusiveRef => 6
  | .tryGetExclusiveRef => 13
  | .unblockRefs => 3
  | .dropExclusiveRef => 3
  | .poll _ _ => 10
  | _ => 5

/-- The steps after the attempts. -/
def IncrOp.after : IncrOp → Nat
  | .pollRef _ _ => 1
  | _ => 0

def CheckOp.left : CheckOp → Nat
  | .tryGetExclusiveRef i => 4 - i + 4
  | .pollExclusiveRef _ _ => 2
  | _ => 1

def BlockOp.after : BlockOp → Nat
  | .getExclusiveRef => 1
  | .tryGetExclusiveRef => 8
  | .pollBlockedRefs _ _ => 5
  | .pollExclusiveRef _ _ => 5
  | _ => 0

def Pc.left : Pc → Nat
  | .done _ => 0
  | .incrLoad op => 5 + op.after
  | .incrCas op attempt _ => 3 - attempt + 1 + op.after
  | .blockLoad op => 5 + op.after
  | .blockCas op attempt _ => 3 - attempt + 1 + op.after
  | .noStandardRefs op => op.left
  | .releaseStore _ => 3
  | .releasePop _ first => if first then 2 else 1
  | .wakeSetRegistered (.release _) _ => 3
  | .wakeSetRegistered .queueFull _ => 2
  | .wakeWaker (.release _) _ => 2
  | .wakeWaker .queueFull _ => 1
  | .refIsBlocked _ _ => 7
  | .blockedIsBlocked _ _ => 5
  | .registeredLoad _ _ => 4
  | .registerPush _ _ => 3
  | .registeredStore _ _ => 1
  | .wakeByRef _ _ => 1
  | .otherPoll _ _ => 3

/-- The steps that `c`, which thread `t` runs, has left if no waiter enters the queue. -/
def Sys.left (s : Sys) (t : ThreadId) (c : Call) : Nat := (s.pc t).left + c.perWaiter * s.waiterQueue.length

def Act.isStepOf (t : ThreadId) : Act → Bool
  | .step u _ => u = t
  | _ => false

section
variable {cfg : Config} {s s' : Sys} {a : Act} {t : ThreadId} {c : Call}

/-! ## One step -/

theorem Jump.left {b : Bool} {p q : Pc} (h : Jump cfg s b p q) (hc : p.call = some c) (hw : c.waits = false) :
    q.left + 1 ≤ p.left := by
  cases h with
  | blockingGetRefLoop _ => cases hc; cases hw
  | blockingGetExclusiveRefLoop _ => cases hc; cases hw
  | blockingGetExclusiveRefWait _ => cases hc; cases hw
  | incrLoad _ => simp only [Pc.left]; omega
  | blockLoad => simp only [Pc.left]; omega
  | incrRetry _ hn _ => simp only [Pc.left]; omega
  | blockRetry hn => simp only [Pc.left]; omega
  | tryGetExclusiveRefAgain _ hi => simp only [Pc.left, CheckOp.left]; omega
  | _ => simp [Pc.left, IncrOp.after, BlockOp.after, CheckOp.left]

theorem CheckOp.left_pos (op : CheckOp) : 1 ≤ op.left := by
  cases op <;> simp [CheckOp.left]

theorem Pc.left_pos {p : Pc} (h : p.call = some c) : 1 ≤ p.left := by
  cases p with
  | done r => cases h
  | noStandardRefs op => exact op.left_pos
  | releasePop op first => cases first <;> simp [Pc.left]
  | wakeSetRegistered op x => cases op <;> simp [Pc.left]
  | wakeWaker op x => cases op <;> simp [Pc.left]
  | _ => simp only [Pc.left]; omega

theorem Asks.left {op : BlockOp} {q : CheckOp} (h : Asks op q) (hc : op.call.waits = false) : q.left ≤ op.after := by
  cases h with
  | blockingGetExclusiveRef => cases hc
  | _ => simp [CheckOp.left, BlockOp.after]

theorem ReleaseOp.perWaiter (op : ReleaseOp) : op.call.perWaiter = 3 := by
  cases op <;> rfl

theorem left_setPc {q : Pc} : (s.setPc t q).left t c = q.left + c.perWaiter * s.waiterQueue.length := by
  unfold Sys.left
  rw [setPc_self]
  rfl

theorem left_of_pc {p : Pc} (hpc : s.pc t = p) : s.left t c = p.left + c.perWaiter * s.waiterQueue.length := by
  unfold Sys.left
  rw [hpc]

/-- A step of its own brings the operation nearer to its end. -/
theorem Step.own_left {b : Bool} (h : Step cfg s (.step t b) s') (hc : (s.pc t).call = some c) (hw : c.waits = false) :
    s'.left t c + 1 ≤ s.left t c := by
  have hdone : ∀ {u : Sys} {r : Res}, u.pc t = .done r → u.waiterQueue = s.waiterQueue → u.left t c + 1 ≤ s.left t c := by
    intro u r hu hq
    have hpos := Pc.left_pos hc
    have hu : u.left t c = 0 + c.perWaiter * s.waiterQueue.length := by rw [left_of_pc hu, hq]; rfl
    rw [hu]
    unfold Sys.left
    omega
  cases h with
  | jump hj =>
    have := hj.left hc hw
    rw [left_setPc]
    unfold Sys.left
    omega
  | blockAsk hpc hq _ =>
    rw [hpc] at hc
    cases hc
    have := hq.left hw
    rw [left_setPc, left_of_pc hpc]
    simp only [Pc.left]
    omega
  | blockPollExclusive hpc _ =>
    rw [left_setPc, left_of_pc hpc, modifyFut_waiterQueue]
    simp only [Pc.left, CheckOp.left, BlockOp.after]
    omega
  | release hpc =>
    rw [left_setPc, left_of_pc hpc]
    simp only [Pc.left, if_true]
    omega
  | @pop _ _ op first x rest hpc hq =>
    rw [hpc] at hc
    cases hc
    rw [left_setPc, left_of_pc hpc, hq, op.perWaiter, List.length_cons]
    cases first <;> simp only [Pc.left, if_true, Bool.false_eq_true, if_false] <;> omega
  | @clear _ _ op x hpc =>
    rw [left_setPc, left_of_pc hpc, modifyFut_waiterQueue]
    cases op <;> simp only [Pc.left] <;> omega
  | wakeDrain hpc =>
    rw [left_setPc, left_of_pc hpc]
    simp only [Pc.left, Bool.false_eq_true, if_false]
    omega
  | push hpc _ =>
    rw [hpc] at hc
    cases hc
    rw [left_setPc, left_of_pc hpc]
    simp [Pc.left, Call.perWaiter]
  | otherReady hpc =>
    rw [left_setPc, left_of_pc hpc, modifyFut_waiterQueue]
    simp only [Pc.left, CheckOp.left]
    omega
  | newFuture hn => cases hn
  | _ => exact hdone (setPc_self _ _) rfl

theorem Step.call_idle {d : Call} (h : Step cfg s (.call t d) s') : (s.pc t).call = none := by
  cases h with
  | begin hpc _ => rw [hpc]; rfl
  | beginUnblock hpc _ => rw [hpc]; rfl
  | beginDrop hpc _ => rw [hpc]; rfl
  | beginPoll hpc _ _ => rw [hpc]; rfl
  | newFuture hn => cases hn

/-- The queue grows only by a waiter that enters it. -/
theorem Step.queue_length (h : Step cfg s a s') :
    s'.waiterQueue.length ≤ s.waiterQueue.length + (s.enters cfg a).toList.length := by
  cases h with
  | @pop _ _ _ _ _ rest _ hq =>
    rw [hq, List.length_cons]
    show rest.length ≤ _
    omega
  | push hpc hlt =>
    simp only [setPc_waiterQueue, List.length_append, List.length_singleton, Sys.enters, hpc, if_pos hlt]
    simp
  | _ => exact Nat.le_add_right _ _

theorem Step.left (h : Step cfg s a s') (hc : (s.pc t).call = some c) (hw : c.waits = false) :
    (a.isStepOf t).toNat + s'.left t c ≤ s.left t c + c.perWaiter * (s.enters cfg a).toList.length := by
  by_cases ha : a.isStepOf t = true
  · cases a with
    | step u b =>
      obtain rfl := of_decide_eq_true ha
      have := h.own_left hc hw
      rw [ha, Bool.toNat_true]
      omega
    | _ => cases ha
  · have hne : a.thread? ≠ some t := by
      intro e
      cases a with
      | step u b => cases e; exact ha (decide_eq_true rfl)
      | call u d =>
        cases e
        rw [h.call_idle] at hc
        cases hc
      | _ => cases e
    have hlen := Nat.mul_le_mul_left c.perWaiter h.queue_length
    rw [Nat.mul_add] at hlen
    unfold Sys.left
    rw [h.pc_frame hne, Bool.eq_false_of_not_eq_true ha, Bool.toNat_false]
    omega

end

end RefCount
