import RefCount.QueueSteps

/-!
# `ArrayQueue` is a linearizable bounded queue

The machine simulates the bounded queue with clients, history for history. The only
premise is about stale stamps: while an operation uses a stamp it has loaded, its counter
stays short of a full cycle of stamps by one lap. Without it a `push` can fail on a queue
that was never full.
-/

namespace RefCount.ArrayQueue

open Lts Linear

section
variable {w C : Nat} {V : Type} {s s' : State w V} {g : Ghost V}

/-! ## The simulation -/

def Standing.of : Phase (Fifo.Op V) (Fifo.Ret V) → Standing V
  | .idle => .idle
  | .called _ op => .called op
  | .answered _ r => .answered r

/-- The queue with clients holds what the ring holds, and its operations stand where
those of the threads stand. -/
structure Sim (C : Nat) (s : State w V) (g : Ghost V) (a : Atomic (List V) (Fifo.Op V) (Fifo.Ret V)) : Prop where
  inv : Inv C s g
  object : a.object = held s g
  hist : a.hist = s.hist
  standing : ∀ t, (s.pc t).standing C g.vals = Standing.of (a.phase t)

theorem Pc.Knows.standing {p : Pc w V} {H T : Nat} (h : p.Knows C H T g) (more : List V) :
    p.standing C (g.vals ++ more) = p.standing C g.vals := by
  have hget : ∀ {n : Nat}, n < g.vals.length → (g.vals ++ more)[n]? = g.vals[n]? :=
    fun hn => List.getElem?_append_left hn
  cases p with
  | forceStoreTail v x =>
    obtain ⟨hlt, _⟩ := List.getElem?_eq_some_iff.mp h.2.2
    exact congrArg (fun o => Standing.answered (Fifo.Ret.option o)) (hget (Nat.lt_of_le_of_lt (Nat.sub_le _ _) hlt))
  | forceReplace v x =>
    obtain ⟨hlt, _⟩ := List.getElem?_eq_some_iff.mp h.2.2
    exact congrArg (fun o => Standing.answered (Fifo.Ret.option o)) (hget (Nat.lt_of_le_of_lt (Nat.sub_le _ _) hlt))
  | popRead x => exact congrArg (fun o => Standing.answered (Fifo.Ret.option o)) (hget h.2)
  | _ => rfl

theorem Standing.of_idle {x : Phase (Fifo.Op V) (Fifo.Ret V)} (h : .idle = Standing.of x) : x = .idle := by
  cases x with
  | idle => rfl
  | _ => cases h

theorem Standing.of_called {x : Phase (Fifo.Op V) (Fifo.Ret V)} {op : Fifo.Op V} (h : .called op = Standing.of x) :
    ∃ i, x = .called i op := by
  cases x with
  | called i op => cases h; exact ⟨i, rfl⟩
  | _ => cases h

theorem Standing.of_answered {x : Phase (Fifo.Op V) (Fifo.Ret V)} {r : Fifo.Ret V} (h : .answered r = Standing.of x) :
    ∃ i, x = .answered i r := by
  cases x with
  | answered i r => cases h; exact ⟨i, rfl⟩
  | _ => cases h

variable {a : Atomic (List V) (Fifo.Op V) (Fifo.Ret V)}

/-- The clients do what the effect of a step says, in at most two steps of their own. -/
theorem Sim.step {t : Tid} {g' : Ghost V} (hs : Sim C s g a) (hp : Progress C s g s' t g') :
    ∃ a', Relation.ReflTransGen (Atomic.Step (Fifo.object C)) a a' ∧ Sim C s' g' a' := by
  obtain ⟨more, hmore⟩ := hp.vals
  have hst := hs.standing t
  have hothers : ∀ u, u ≠ t → (s'.pc u).standing C g'.vals = Standing.of (a.phase u) := by
    intro u hu
    rw [hp.others u hu, hmore, (hs.inv.knows u).standing more]
    exact hs.standing u
  -- thread `t` comes to stand at `y`, the others stay
  have hall : ∀ y, (s'.pc t).standing C g'.vals = Standing.of y →
      ∀ u, (s'.pc u).standing C g'.vals = Standing.of (Function.update a.phase t y u) := by
    intro y hy u
    by_cases e : u = t
    · subst e
      rw [Function.update_self]; exact hy
    · rw [Function.update_of_ne e]; exact hothers u e
  have heff := hp.effect
  generalize hx : (s.pc t).standing C g.vals = x at heff hst
  generalize hy : (s'.pc t).standing C g'.vals = y at heff hall
  cases heff with
  | quiet hh hl =>
    refine ⟨a, .refl, hp.inv, by rw [hh]; exact hs.object, by rw [hl]; exact hs.hist, ?_⟩
    intro u
    by_cases e : u = t
    · subst e
      rw [hy]; exact hst
    · exact hothers u e
  | call hh hl =>
    refine ⟨_, .single (.call (Standing.of_idle hst)), hp.inv, by rw [hh]; exact hs.object, ?_, hall _ rfl⟩
    rw [hl, ← hs.hist]
  | commit hh hl =>
    obtain ⟨i, hphase⟩ := Standing.of_called hst
    refine ⟨_, .single (.commit hphase), hp.inv, ?_, by rw [hl]; exact hs.hist, hall _ ?_⟩
    · rw [hh, ← hs.object]; rfl
    · rw [← hs.object]; rfl
  | @fail op hh hl =>
    obtain ⟨i, hphase⟩ := Standing.of_called hst
    refine ⟨_, .tail (.single (.commit hphase)) (.ret (t := t) (i := i) (r := (Fifo.apply C a.object op).1) ?_),
      hp.inv, ?_, ?_, ?_⟩
    · exact Function.update_self ..
    · rw [hh, ← hs.object]; rfl
    · rw [hl, ← hs.hist, ← hs.object]
    · simp only [Function.update_idem]
      exact hall _ rfl
  | ret hh hl =>
    obtain ⟨i, hphase⟩ := Standing.of_answered hst
    refine ⟨_, .single (.ret hphase), hp.inv, by rw [hh]; exact hs.object, ?_, hall _ rfl⟩
    rw [hl, ← hs.hist]

theorem Sim.new : Sim C (State.new w V) ⟨.free, []⟩ (Atomic.new (Fifo.object C)) :=
  ⟨Inv.new, rfl, rfl, fun _ => rfl⟩

theorem Inv.call (hi : Inv C s g) {t : Tid} {r : Res V} (hpc : s.pc t = .done r) (c : Call V) :
    Progress C s g (s.call t c) t g := by
  cases c with
  | op op =>
    have hq : (opStart op : Pc w V).cell C t = none := by cases op <;> rfl
    have hk : (opStart op : Pc w V).Knows C s.heads s.tails g := by cases op <;> trivial
    have hs : (opStart op : Pc w V).standing C g.vals = .called op := by cases op <;> rfl
    refine ⟨hi.move rfl ⟨rfl, rfl, rfl, rfl, rfl⟩ hq hk, ⟨[], (List.append_nil _).symm⟩, setPc_others _ t _, ?_,
      fun ho => ho.move rfl (by rw [hpc]; rfl)⟩
    rw [hpc]
    show Effect C s g _ g t .idle (((State.setPc _ t _).pc t).standing C g.vals)
    rw [setPc_self, hs]
    exact .call rfl rfl
  | isEmpty => exact Progress.quiet hi hpc rfl rfl trivial rfl
  | isFull => exact Progress.quiet hi hpc rfl rfl trivial rfl
  | len => exact Progress.quiet hi hpc rfl rfl trivial rfl

/-! ## Runs -/

/-- No step uses a stamp whose counter has moved on by `n` laps. -/
def Near (n C : Nat) (s : State w V) : Act V → Prop
  | .call _ _ => True
  | .step t _ => (s.pc t).near n C s.heads s.tails = true

instance (n : Nat) (s : State w V) (a : Act V) : Decidable (Near n C s a) := by
  cases a with
  | call _ _ => exact .isTrue trivial
  | step t _ => exact inferInstanceAs (Decidable (_ = _))

theorem exec_progress (hl : Layout w C) (hi : Inv C s g) {a : Act V} (hn : Near (laps w C - 1) C s a) (h : exec C s a = some s') :
    ∃ t g', Progress C s g s' t g' := by
  cases a with
  | call t c =>
    simp only [exec] at h
    cases hpc : s.pc t with
    | done r =>
      rw [hpc] at h; cases h
      exact ⟨t, g, hi.call hpc c⟩
    | _ => rw [hpc] at h; cases h
  | step t b =>
    obtain ⟨g', hp⟩ := hi.step hl hn h
    exact ⟨t, g', hp⟩

/-- The place of the slot whose value the thread is about to read or write. -/
def Pc.accesses (C : Nat) : Pc w V → Option Nat
  | .pushWrite _ _ tail => some (index C tail.stamp).toNat
  | .forceReplace _ tail => some (index C tail.stamp).toNat
  | .popRead head => some (index C head.stamp).toNat
  | _ => none

theorem Pc.accesses_cell {p : Pc w V} {H T i : Nat} {t : Tid} (hl : Layout w C) (hk : p.Knows C H T g)
    (h : p.accesses C = some i) : ∃ c, p.cell C t = some c ∧ c.next C % C = i := by
  cases p with
  | pushWrite op v x =>
    cases h
    refine ⟨_, rfl, ?_⟩
    rw [hk.1.1, enc_index hl]
    exact Nat.add_mod_right _ _
  | forceReplace v x =>
    cases h
    refine ⟨_, rfl, ?_⟩
    rw [hk.1.1, enc_index hl]
    show (x.count - C + C + C) % C = _
    rw [Nat.sub_add_cancel hk.2.1, Nat.add_mod_right]
  | popRead x =>
    cases h
    refine ⟨_, rfl, ?_⟩
    rw [hk.1.1, enc_index hl]
    exact Nat.add_mod_right _ _
  | _ => cases h

theorem Inv.exclusive (hl : Layout w C) (hi : Inv C s g) {t u : Tid} {i : Nat} (ht : (s.pc t).accesses C = some i)
    (hu : (s.pc u).accesses C = some i) : t = u := by
  obtain ⟨c, hc, ec⟩ := Pc.accesses_cell (t := t) hl (hi.knows t) ht
  obtain ⟨d, hd, ed⟩ := Pc.accesses_cell (t := u) hl (hi.knows u) hu
  have h₁ := hi.claims t c hc
  have h₂ := hi.claims u d hd
  rw [ec] at h₁
  rw [ed, h₁] at h₂
  subst h₂
  exact Option.some.inj ((Pc.cell_owner hc).symm.trans (Pc.cell_owner hd))

end

/-! ## Fixed schedules -/

/-- Thread `t` calls `c` and takes `n` steps, none of which fails spuriously. -/
def callSteps {V : Type} (t : Tid) (c : Call V) (n : Nat) : List (Act V) := .call t c :: List.replicate n (.step t false)

end RefCount.ArrayQueue
