import RefCount.Lifetime

/-!
# Every waiter is woken once

A history of the waiter queue: which waiters entered it, which were popped, which of these
were woken, and who has one in his hands that is not. In every run the queue is what entered
and was not popped, in that order, and what was popped was woken once or is in the hands of
one thread.
-/

namespace RefCount

open Lts List

structure Ledger where
  entered : List Waiter
  popped : List Waiter
  woken : List Waiter
  hands : List (ThreadId × Waiter)

def Ledger.new : Ledger := ⟨[], [], [], []⟩

def Ledger.next (cfg : Config) (s : Sys) (a : Act) (l : Ledger) : Ledger :=
  match a with
  | .step t _ =>
    match s.pc t with
    | .registerPush f w => if s.waiterQueue.length < cfg.maxWaiting then { l with entered := l.entered ++ [⟨w, f⟩] } else l
    | .releasePop _ _ =>
      match s.waiterQueue with
      | x :: _ => { l with popped := l.popped ++ [x], hands := (t, x) :: l.hands }
      | [] => l
    | .wakeWaker (.release _) x => { l with woken := l.woken ++ [x], hands := l.hands.erase (t, x) }
    | _ => l
  | _ => l

/-- The waiter that the thread has popped and not yet woken. -/
def Pc.drained : Pc → Option Waiter
  | .wakeSetRegistered (.release _) x => some x
  | .wakeWaker (.release _) x => some x
  | _ => none

structure Ledger.Inv (s : Sys) (l : Ledger) : Prop where
  queue : l.entered = l.popped ++ s.waiterQueue
  woken : l.popped.Perm (l.woken ++ l.hands.map Prod.snd)
  wakes : l.woken.Sublist s.wakes
  nodup : l.hands.Nodup
  hands : ∀ t x, (t, x) ∈ l.hands ↔ (s.pc t).drained = some x

section
variable {cfg : Config} {s s' : Sys} {a : Act} {l : Ledger} {t : ThreadId} {x : Waiter}

theorem Ledger.Inv.new : Ledger.new.Inv Sys.new where
  queue := rfl
  woken := .refl _
  wakes := .refl _
  nodup := List.nodup_nil
  hands := fun t x => by simp [Ledger.new, Sys.new, Pc.drained]

/-- A step that leaves the queue alone and takes nothing into a hand or out of it. -/
theorem Ledger.Inv.quiet (hi : l.Inv s) (hq : s'.waiterQueue = s.waiterQueue) (hw : s.wakes.Sublist s'.wakes)
    (hp : ∀ t, (s'.pc t).drained = (s.pc t).drained) : l.Inv s' where
  queue := by rw [hq]; exact hi.queue
  woken := hi.woken
  wakes := hi.wakes.trans hw
  nodup := hi.nodup
  hands := fun t x => by rw [hp]; exact hi.hands t x

theorem Begins.drained {c : Call} {p : Pc} (h : Begins c p) : p.drained = none := by
  cases h <;> rfl

theorem setPc_drained {q : Pc} (u : ThreadId) : ((s.setPc t q).pc u).drained = if u = t then q.drained else (s.pc u).drained := by
  rw [setPc_pc]
  split <;> rfl

theorem Ledger.Inv.pop (hi : l.Inv s) {op : ReleaseOp} {first : Bool} {rest : List Waiter}
    (hpc : s.pc t = .releasePop op first) (hq : s.waiterQueue = x :: rest) :
    Ledger.Inv (Sys.setPc { s with waiterQueue := rest } t (.wakeSetRegistered (.release op) x))
      { l with popped := l.popped ++ [x], hands := (t, x) :: l.hands } := by
  have hfresh : ∀ y, (t, y) ∉ l.hands := by
    intro y hy
    have hd := (hi.hands t y).mp hy
    rw [hpc] at hd
    cases hd
  refine ⟨?_, ?_, hi.wakes, List.nodup_cons.mpr ⟨hfresh x, hi.nodup⟩, fun u y => ?_⟩
  · have hqueue := hi.queue
    rw [hq] at hqueue
    rw [hqueue, List.append_assoc]
    rfl
  · calc l.popped ++ [x] ~ [x] ++ l.popped := List.perm_append_comm
      _ ~ [x] ++ (l.woken ++ l.hands.map Prod.snd) := hi.woken.append_left _
      _ ~ l.woken ++ ([x] ++ l.hands.map Prod.snd) := List.perm_append_comm_assoc ..
  · rw [setPc_drained, List.mem_cons, hi.hands]
    split
    · rename_i e
      rw [e, hpc]
      simp [Pc.drained, eq_comm]
    · rename_i e
      simp [e]

theorem Ledger.Inv.push (hi : l.Inv s) {f : FutId} {w : Waker} (hpc : s.pc t = .registerPush f w) :
    Ledger.Inv (Sys.setPc { s with waiterQueue := s.waiterQueue ++ [⟨w, f⟩] } t (.registeredStore f w))
      { l with entered := l.entered ++ [⟨w, f⟩] } := by
  refine ⟨?_, hi.woken, hi.wakes, hi.nodup, fun u y => ?_⟩
  · rw [hi.queue, List.append_assoc]
    rfl
  · rw [setPc_drained, hi.hands]
    split
    · rename_i e
      rw [e, hpc]
      rfl
    · rfl

end

end RefCount
