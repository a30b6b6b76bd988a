import RefCount.Hindsight
import RefCount.Observers
import RefCount.SlotRaces

/-!
# The ring is linearizable under its orderings

A `push` that returns `Err` has read a `head` that may be old, and a `pop` of nothing a `tail`.
The fence before that load keeps it from being older than the fence, and the stamp read
before the fence from telling of anything younger: the queue was full, or empty, at the
fence. There the operation takes effect, in hindsight.
-/

namespace RefCount.ArrayQueue

open Lts Linear RelAcq

section
variable {w : Nat} {V : Type} (C : Nat)

/-- The load that may end an operation that changes nothing: where, the count that is read
there if it does, and what is returned. -/
def Pc.verdict : Pc w V → Option (Loc × Nat × Fifo.Ret V)
  | .pushLoadHead value tail => some (.head, tail.count - C, .result (.error value))
  | .popLoadTail head => some (.tail, head.count, .option none)
  | _ => none

/-- What a load of thread `t` that reads `x` at `l` does to its operation. -/
inductive State.Outcome (s : State w V) (g : Ghost V) (t : Tid) (x : Loaded w) (l : Loc) (s' : State w V) : Prop
  | quiet : s'.hist = s.hist → (s'.pc t).standing C g.vals = (s.pc t).standing C g.vals → Outcome s g t x l s'
  | fails {k : Nat} {r : Fifo.Ret V} : (s.pc t).verdict C = some (l, k, r) → (k ≤ x.count → x.count = k) →
      s'.hist = s.hist ++ [.ret t r] → s'.pc t = .done (.ret r) → Outcome s g t x l s'

end

section
variable {w C : Nat} {V : Type} {s s' : State w V} {g g' : Ghost V} {t u : Tid} {b : Bool} {x : Loaded w} {l : Loc}

/-! ## Loads -/

theorem Inv.present_pushLoadHead (hl : Layout w C) (hi : Inv C s g) {value : V} {y : Loaded w}
    (hpc : s.pc t = .pushLoadHead value y) (hx : x.upTo C s.heads) (hnear : s.tails < y.count + (laps w C - 1) * C) :
    s.Outcome C g t x .head ((s.present x .head).pushLoadHead C t value y) := by
  have hk := hi.knows t
  rw [hpc] at hk
  obtain ⟨hy, hC, _⟩ := hk
  unfold State.pushLoadHead
  split
  · rename_i e
    have e : x.stamp + oneLap w C = y.stamp := e
    refine .fails (k := y.count - C) (by rw [hpc]; rfl) (fun hle => ?_) rfl (setPc_self _ _ _)
    have hlap := laps_cycle w C
    have hx' := hx.2
    have hHT := hi.le
    rw [hx.1, hy.1, oneLap, Stamp.enc_add_lap hl.stamp] at e
    have heq := Stamp.enc_near hl.stamp (p := y.count) (q := x.count + C) (by omega)
      (by unfold laps at hlap hnear; omega) e
    omega
  · refine .quiet rfl ?_
    rw [setPc_self, hpc]
    rfl

theorem Inv.present_popLoadTail (hl : Layout w C) (hi : Inv C s g) {y : Loaded w} (hpc : s.pc t = .popLoadTail y)
    (hx : x.upTo C s.tails) (hnear : s.heads < y.count + (laps w C - 1) * C) :
    s.Outcome C g t x .tail ((s.present x .tail).popLoadTail t y) := by
  have hk := hi.knows t
  rw [hpc] at hk
  obtain ⟨hy, _⟩ := hk
  unfold State.popLoadTail
  split
  · rename_i e
    have e : x.stamp = y.stamp := e
    refine .fails (k := y.count) (by rw [hpc]; rfl) (fun hle => ?_) rfl (setPc_self _ _ _)
    have hlap := laps_cycle w C
    have hx' := hx.2
    have hroom := hi.room
    rw [hx.1, hy.1] at e
    exact Stamp.enc_near hl.stamp hle (by unfold laps at hlap hnear; omega) e
  · refine .quiet rfl ?_
    rw [setPc_self, hpc]
    rfl

/-- The loads of the ring, whatever word they read. -/
theorem Inv.load_outcome (hl : Layout w C) (hi : Inv C s g) {o : Order} (hacc : (s.pc t).access C = .load l o)
    (hx : s.Had C g x l) (hn : (s.pc t).near (laps w C - 1) C s.heads s.tails = true)
    (h : (s.present x l).stepThread C t b = some s') (hf : s'.pc t ≠ .fault) : s.Outcome C g t x l s' := by
  have hquiet : ∀ {p q : Pc w V}, s.pc t = p → q.standing C g.vals = p.standing C g.vals →
      s.Outcome C g t x l ((s.present x l).setPc t q) := by
    intro p q hpc hs
    refine .quiet ?_ ?_
    · cases l <;> rfl
    · rw [setPc_self, hpc, hs]
  have hfault : s' ≠ (s.present x l).setPc t .fault := by
    rintro rfl
    exact hf (setPc_self _ _ _)
  unfold State.stepThread at h
  rw [present_pc] at h
  cases hpc : s.pc t with
  | pushLoadStamp op value y =>
    rw [hpc] at h hacc
    cases hacc
    have h := Option.some.inj h
    unfold State.pushLoadStamp at h
    repeat' split at h
    all_goals subst h
    · exact absurd rfl hfault
    · exact hquiet hpc rfl
    · exact absurd rfl hfault
    · exact hquiet hpc (op.full_standing value y g.vals)
    · exact hquiet hpc rfl
    · exact absurd rfl hfault
  | pushLoadHead value y =>
    rw [hpc] at h hacc hn
    cases hacc
    cases h
    exact hi.present_pushLoadHead hl hpc hx (of_decide_eq_true hn)
  | popLoadStamp y =>
    rw [hpc] at h hacc
    cases hacc
    have h := Option.some.inj h
    unfold State.popLoadStamp at h
    repeat' split at h
    all_goals subst h
    · exact absurd rfl hfault
    · exact hquiet hpc rfl
    · exact hquiet hpc rfl
    · exact hquiet hpc rfl
    · exact absurd rfl hfault
  | popLoadTail y =>
    rw [hpc] at h hacc hn
    cases hacc
    cases h
    exact hi.present_popLoadTail hl hpc hx (of_decide_eq_true hn)
  | lenLoadTailAgain y z =>
    rw [hpc] at h hacc
    cases hacc
    have h := Option.some.inj h
    unfold State.lenLoadTailAgain at h
    repeat' split at h
    all_goals subst h
    · exact absurd rfl hfault
    · exact hquiet hpc rfl
    · exact hquiet hpc rfl
  | pushLoadTail op value => rw [hpc] at h hacc; cases hacc; cases h; exact hquiet hpc rfl
  | popLoadHead => rw [hpc] at h hacc; cases hacc; cases h; exact hquiet hpc rfl
  | isEmptyLoadHead => rw [hpc] at h hacc; cases hacc; cases h; exact hquiet hpc rfl
  | isEmptyLoadTail y => rw [hpc] at h hacc; cases hacc; cases h; exact hquiet hpc rfl
  | isFullLoadTail => rw [hpc] at h hacc; cases hacc; cases h; exact hquiet hpc rfl
  | isFullLoadHead y => rw [hpc] at h hacc; cases hacc; cases h; exact hquiet hpc rfl
  | lenLoadTail => rw [hpc] at h hacc; cases hacc; cases h; exact hquiet hpc rfl
  | lenLoadHead y => rw [hpc] at h hacc; cases hacc; cases h; exact hquiet hpc rfl
  | _ => rw [hpc] at hacc; cases hacc

/-- A `compare_exchange_weak` that fails only sends its operation round the loop. -/
theorem Inv.cas_outcome (hl : Layout w C) (hi : Inv C s g) {e : BitVec w} (hacc : (s.pc t).access C = .cas l e)
    (hf : ¬ (x.stamp = e ∧ b = false)) (h : (s.present x l).stepThread C t b = some s') :
    s.Outcome C g t x l s' ∧ (s'.pc t).verdict C = none := by
  have hquiet : ∀ {p q : Pc w V}, s.pc t = p → q.standing C g.vals = p.standing C g.vals → q.verdict C = none →
      s.Outcome C g t x l ((s.present x l).setPc t q) ∧ (((s.present x l).setPc t q).pc t).verdict C = none := by
    intro p q hpc hs hv
    refine ⟨.quiet ?_ ?_, by rw [setPc_self, hv]⟩
    · cases l <;> rfl
    · rw [setPc_self, hpc, hs]
  have hk := hi.knows t
  unfold State.stepThread at h
  rw [present_pc] at h
  cases hpc : s.pc t with
  | pushCasTail op value y =>
    rw [hpc] at h hacc
    cases hacc
    cases h
    unfold State.pushCasTail
    split
    · rename_i he
      exact absurd he hf
    · exact hquiet hpc rfl rfl
  | forceCasHead value y =>
    rw [hpc] at h hacc hk
    cases hacc
    cases h
    unfold State.forceCasHead
    rw [hk.1.1, enc_succ hl, ← hk.1.1]
    simp only
    split
    · rename_i he
      exact absurd he hf
    · exact hquiet hpc rfl rfl
  | popCasHead y =>
    rw [hpc] at h hacc hk
    cases hacc
    cases h
    unfold State.popCasHead
    rw [hk.1.1, enc_succ hl, ← hk.1.1]
    simp only
    split
    · rename_i he
      exact absurd he hf
    · exact hquiet hpc rfl rfl
  | _ => rw [hpc] at hacc; cases hacc

theorem stepThread_verdict (h : s.stepThread C t b = some s') (hacc : ∀ l o, (s.pc t).access C ≠ .load l o) :
    (s'.pc t).verdict C = none := by
  have hnew : ∀ {q : Pc w V}, s'.pc = Function.update s.pc t q → q.verdict C = none → (s'.pc t).verdict C = none := by
    intro q hpc hq
    rw [hpc, Function.update_self, hq]
  generalize hp : s.pc t = p at hacc
  cases stepThread_moved h with
  | jump hj hpc =>
    refine hnew hpc ?_
    rw [hp] at hj
    cases hj with
    | pushFull => exact absurd rfl (hacc _ _)
    | popFree => exact absurd rfl (hacc _ _)
    | _ => rfl
  | head hm hpc =>
    rw [hp] at hm
    cases hm with
    | _ => exact hnew hpc rfl
  | tail hm hpc =>
    rw [hp] at hm
    cases hm with
    | _ => exact hnew hpc rfl
  | ret hpc => exact hnew hpc rfl

/-! ## What a thread has seen at its fence -/

def State.moves (s : State w V) : Loc → Nat
  | .head => s.heads
  | .tail => s.tails
  | .stamp _ => 0

variable {σ σ' : WeakState w V} {k : Nat} {r : Fifo.Ret V} {op : Fifo.Op V} {q : List V}

/-- Thread `t` reads no count at `l` below `n`; and if it reads `k`, its operation would have
returned `r` on `q`. -/
def WeakState.Looked (C : Nat) (σ : WeakState w V) (t : Tid) (l : Loc) (k : Nat) (r : Fifo.Ret V) (op : Fifo.Op V)
    (q : List V) : Prop :=
  ∃ n, k ≤ n ∧ n ≤ σ.ring.moves l ∧ (σ.view t l).Sees (σ.cells l) (fun _ x => n ≤ x.count) ∧
    (n = k → Fifo.apply C q op = (r, q))

theorem WeakState.Inv.counts (hi : σ.Inv C g) (h : l = .head ∨ l = .tail) :
    σ.Counts C l ⟨σ.ring.word l, σ.ring.moves l⟩ := by
  rcases h with rfl | rfl
  · exact hi.head
  · exact hi.tail

theorem verdict_counter {p : Pc w V} (h : p.verdict C = some (l, k, r)) : l = .head ∨ l = .tail := by
  cases p with
  | pushLoadHead value y => cases h; exact .inl rfl
  | popLoadTail y => cases h; exact .inr rfl
  | _ => cases h

theorem verdict_fenced {p : Pc w V} (h : p.verdict C = some (l, k, r)) : p.fenced = true := by
  cases p with
  | pushLoadHead value y => rfl
  | popLoadTail y => rfl
  | _ => cases h

theorem verdict_called {p : Pc w V} (h : p.verdict C = some (l, k, r)) (vals : List V) :
    ∃ op, p.standing C vals = .called op := by
  cases p with
  | pushLoadHead value y => exact ⟨_, rfl⟩
  | popLoadTail y => exact ⟨_, rfl⟩
  | _ => cases h

/-- At the fence the count is that of the queue, and `q` is what it holds. -/
theorem WeakState.Inv.looks (hl : Layout w C) (hi : σ.Inv C g) (hv : (σ.ring.pc t).verdict C = some (l, k, r))
    (hop : (σ.ring.pc t).standing C g.vals = .called op) (hseen : σ.seen t l = (σ.cells l).length - 1) :
    σ.Looked C t l k r op (held σ.ring g) := by
  have hsees : (σ.view t l).Sees (σ.cells l) (fun _ x => σ.ring.moves l ≤ x.count) := by
    intro i m hle hm
    have hlt := (List.getElem?_eq_some_iff.mp hm).1
    have hle : σ.seen t l ≤ i := hle
    have hlast := (hi.counts (verdict_counter hv)).last_eq hm (by omega)
    rw [hlast]
  have hk := hi.ring.knows t
  have hroom := hi.ring.room
  have hle := hi.ring.le
  cases hpc : σ.ring.pc t with
  | pushLoadHead value y =>
    rw [hpc] at hv hop hk
    cases hv
    cases hop
    obtain ⟨hy, hC, hphase⟩ := hk
    have hy' := hy.2
    refine ⟨σ.ring.heads, by omega, Nat.le_refl _, hsees, fun e => ?_⟩
    have hH : σ.ring.heads + C = y.count := by omega
    have hT : σ.ring.tails = σ.ring.heads + C := by omega
    have hfull := hi.ring.lag_full hl hphase hH
    have hlen := hi.ring.length_of (by rw [hT, Nat.add_mod_right, hfull]; rfl)
    have hheld : ¬ (held σ.ring g).length < C := by
      rw [held_length hlen]
      omega
    simp only [Fifo.apply, if_neg hheld]
  | popLoadTail y =>
    rw [hpc] at hv hop hk
    cases hv
    cases hop
    obtain ⟨hy, hphase⟩ := hk
    have hy' := hy.2
    refine ⟨σ.ring.tails, by omega, Nat.le_refl _, hsees, fun e => ?_⟩
    have hfree := (hi.ring.ok hl σ.ring.tails).free_tail hl.pos rfl (by rw [e]; exact hphase)
    have hlen := hi.ring.length_of (by rw [hfree]; rfl)
    have hheld : held σ.ring g = [] := by
      apply List.eq_nil_of_length_eq_zero
      rw [held_length hlen]
      omega
    rw [hheld]
    rfl
  | _ => rw [hpc] at hv; cases hv

/-- What a step of thread `t` leaves to the others. -/
structure WeakState.Frame (σ : WeakState w V) (t : Tid) (σ' : WeakState w V) : Prop where
  others : ∀ u, u ≠ t → σ'.ring.pc u = σ.ring.pc u ∧ σ'.seen u = σ.seen u
  moves : ∀ l, σ.ring.moves l ≤ σ'.ring.moves l
  cells : ∀ l, σ'.cells l = σ.cells l ∨ ∃ m, σ'.cells l = σ.cells l ++ [m]

theorem WeakState.Looked.frame (h : σ.Looked C u l k r op q) (hf : σ.Frame t σ') (hi : σ'.Inv C g') (hu : u ≠ t)
    (hc : l = .head ∨ l = .tail) : σ'.Looked C u l k r op q := by
  obtain ⟨n, hk, hn, hsees, happly⟩ := h
  have hn' := Nat.le_trans hn (hf.moves l)
  refine ⟨n, hk, hn', ?_, happly⟩
  have hsees : (σ'.view u l).Sees (σ.cells l) (fun _ x => n ≤ x.count) := by
    unfold WeakState.view
    rw [(hf.others u hu).2]
    exact hsees
  rcases hf.cells l with e | ⟨m, e⟩
  · rw [e]
    exact hsees
  · rw [e]
    refine hsees.append (fun _ _ _ h => h) ?_
    have hlast := (hi.counts hc).last_eq (i := (σ.cells l).length) (m := m)
      (by rw [e, List.getElem?_concat_length]) (by rw [e, List.length_append]; rfl)
    rw [hlast]
    exact hn'

/-! ### The frame of each step -/

theorem WeakState.Frame.trans {σ'' : WeakState w V} (h : σ.Frame t σ') (hc : σ'.cells = σ.cells) (h' : σ'.Frame t σ'') :
    σ.Frame t σ'' := by
  refine ⟨fun u hu => ?_, fun l => Nat.le_trans (h.moves l) (h'.moves l), fun l => ?_⟩
  · exact ⟨(h'.others u hu).1.trans (h.others u hu).1, (h'.others u hu).2.trans (h.others u hu).2⟩
  · rw [← hc]
    exact h'.cells l

theorem WeakState.latest_frame (σ : WeakState w V) (t : Tid) (l : Loc) : σ.Frame t (σ.latest t l) :=
  ⟨fun _ hu => ⟨rfl, Function.update_of_ne hu _ _⟩, fun _ => Nat.le_refl _, fun _ => .inl rfl⟩

theorem stepThread_counts (h : s.stepThread C t b = some s') (l : Loc) : s.moves l ≤ s'.moves l := by
  have hm := (stepThread_moves h).counts
  cases l with
  | head =>
    show s.heads ≤ s'.heads
    omega
  | tail =>
    show s.tails ≤ s'.tails
    omega
  | stamp i => exact Nat.le_refl _

theorem WeakState.read_frame {i : Nat} {o : Order} (h : σ.read C t b i l o = some σ') :
    σ.Frame t σ' ∧ σ'.cells = σ.cells := by
  obtain ⟨m, _, h⟩ := Option.bind_eq_some_iff.mp h
  obtain ⟨s, hs, rfl⟩ := Option.map_eq_some_iff.mp h
  refine ⟨⟨fun u hu => ⟨?_, Function.update_of_ne hu _ _⟩, fun _ => Nat.le_refl _, fun _ => .inl rfl⟩, rfl⟩
  exact ((stepThread_moves hs).others u hu).trans (congrFun present_pc u)

theorem WeakState.load_cases {i : Nat} {o : Order} (h : σ.load C t b i l o = some σ') :
    ∃ σ₁, (if o = .seqCst then σ.latest t l else σ).read C t b i l o = some σ₁ ∧ σ'.ring = σ₁.ring ∧
      ((σ₁.ring.pc t).fenced = true → σ' = σ₁.fence t) := by
  obtain ⟨σ₁, h₁, rfl⟩ := Option.map_eq_some_iff.mp h
  refine ⟨σ₁, h₁, ?_, fun hf => if_pos hf⟩
  split
  · rfl
  · rfl

theorem WeakState.load_frame {i : Nat} {o : Order} (h : σ.load C t b i l o = some σ') : σ.Frame t σ' := by
  obtain ⟨σ₁, h₁, rfl⟩ := Option.map_eq_some_iff.mp h
  have hread : σ.Frame t σ₁ ∧ σ₁.cells = σ.cells := by
    split at h₁
    · obtain ⟨hf, hc⟩ := read_frame h₁
      exact ⟨(σ.latest_frame t l).trans rfl hf, hc⟩
    · exact read_frame h₁
  split
  · exact hread.1.trans hread.2 ((σ₁.latest_frame t .head).trans rfl ((σ₁.latest t .head).latest_frame t .tail))
  · exact hread.1

/-- A step of the ring that writes `m` at `l`, and moves what its thread has seen there. -/
theorem WeakState.write_frame {s : State w V} {cell : List (Msg (Loaded w) Nat)} {v : View Nat}
    (h : σ.ring.stepThread C t b = some s) (hc : ∃ m, cell = σ.cells l ++ [m]) :
    σ.Frame t ((σ.write l cell).move t s l v) := by
  refine ⟨fun u hu => ⟨(stepThread_moves h).others u hu, Function.update_of_ne hu _ _⟩, stepThread_counts h, fun l' => ?_⟩
  by_cases e : l' = l
  · subst e
    obtain ⟨m, rfl⟩ := hc
    exact .inr ⟨m, Function.update_self ..⟩
  · exact .inl (Function.update_of_ne e _ _)

/-! ## The simulation -/

/-- The clients do what the effect of a step of thread `t` says; only `t` goes on. -/
theorem Effect.clients {a : Atomic (List V) (Fifo.Op V) (Fifo.Ret V)} {y z : Standing V} (h : Effect C s g s' g' t y z)
    (hobj : a.object = held s g) (hhist : a.hist = s.hist) (hy : y = Standing.of (a.phase t)) :
    ∃ z' log, z = Standing.of z' ∧ Relation.ReflTransGen (Atomic.Step (Fifo.object C)) a
      ⟨held s' g', Function.update a.phase t z', s'.hist, log⟩ := by
  cases h with
  | quiet hh hl =>
    refine ⟨a.phase t, a.log, hy, ?_⟩
    rw [hh, hl, ← hobj, ← hhist, Function.update_eq_self]
  | @call op hh hl =>
    refine ⟨.called (operations a.hist).length op, a.log, rfl, ?_⟩
    rw [hh, hl, ← hobj, ← hhist]
    exact .single (.call (Standing.of_idle hy))
  | @commit op hh hl =>
    obtain ⟨i, hphase⟩ := Standing.of_called hy
    refine ⟨.answered i (Fifo.apply C (held s g) op).1, a.log ++ [(i, op, (Fifo.apply C (held s g) op).1)], rfl, ?_⟩
    rw [hh, hl, ← hobj, ← hhist]
    exact .single (.commit hphase)
  | @fail op hh hl =>
    obtain ⟨i, hphase⟩ := Standing.of_called hy
    refine ⟨.idle, a.log ++ [(i, op, (Fifo.apply C (held s g) op).1)], rfl, ?_⟩
    rw [hh, hl, ← hobj, ← hhist]
    have hret := Atomic.Step.ret (O := Fifo.object C) (a := { a with
      object := (Fifo.apply C a.object op).2
      phase := Function.update a.phase t (.answered i (Fifo.apply C a.object op).1)
      log := a.log ++ [(i, op, (Fifo.apply C a.object op).1)] }) (t := t) (Function.update_self ..)
    simp only [Function.update_idem] at hret
    exact .tail (.single (.commit hphase)) hret
  | @ret r hh hl =>
    obtain ⟨i, hphase⟩ := Standing.of_answered hy
    refine ⟨.idle, a.log, rfl, ?_⟩
    rw [hh, hl, ← hobj, ← hhist]
    exact .single (.ret hphase)

/-- The queue with clients that look back holds what the ring holds; and an operation that
may end without effect has looked. -/
structure WeakState.Sim (C : Nat) (σ : WeakState w V) (g : Ghost V) (m : Hindsight (List V) (Fifo.Op V) (Fifo.Ret V)) :
    Prop where
  inv : σ.Inv C g
  clients : ArrayQueue.Sim C σ.ring g m.toAtomic
  looked : ∀ t l k r, (σ.ring.pc t).verdict C = some (l, k, r) → ∃ i op q, m.phase t = .called i op ∧
    m.memory t = some (i, q) ∧ σ.Looked C t l k r op q

variable {m m' : Hindsight (List V) (Fifo.Op V) (Fifo.Ret V)}

/-- Thread `t` has moved, and the clients with it. -/
theorem WeakState.Sim.moved (hs : σ.Sim C g m) (hi : σ'.Inv C g') (hf : σ.Frame t σ')
    (hc : ArrayQueue.Sim C σ'.ring g' m'.toAtomic)
    (hphase : ∀ u, u ≠ t → m'.phase u = m.phase u) (hmem : ∀ u, u ≠ t → m'.memory u = m.memory u)
    (ht : ∀ l k r, (σ'.ring.pc t).verdict C = some (l, k, r) → ∃ i op q, m'.phase t = .called i op ∧
      m'.memory t = some (i, q) ∧ σ'.Looked C t l k r op q) : σ'.Sim C g' m' := by
  refine ⟨hi, hc, fun u l k r hv => ?_⟩
  by_cases hu : u = t
  · subst hu
    exact ht l k r hv
  · rw [(hf.others u hu).1] at hv
    obtain ⟨i, op, q, h₁, h₂, h₃⟩ := hs.looked u l k r hv
    exact ⟨i, op, q, by rw [hphase u hu]; exact h₁, by rw [hmem u hu]; exact h₂, h₃.frame hf hi hu (verdict_counter hv)⟩

/-- A step of the ring that is not a load. -/
theorem WeakState.Sim.ring_step (hs : σ.Sim C g m) (hp : Progress C σ.ring g σ'.ring t g') (hi : σ'.Inv C g')
    (hf : σ.Frame t σ') (hv : (σ'.ring.pc t).verdict C = none) :
    ∃ m', Relation.ReflTransGen (Hindsight.Step (Fifo.object C)) m m' ∧ σ'.Sim C g' m' := by
  obtain ⟨z, log, hz, hsteps⟩ := hp.effect.clients hs.clients.object hs.clients.hist (hs.clients.standing t)
  refine ⟨_, Hindsight.steps hsteps, hs.moved hi hf ⟨hp.inv, rfl, rfl, fun u => ?_⟩ ?_ (fun _ _ => rfl) ?_⟩
  · show _ = Standing.of (Function.update m.phase t z u)
    by_cases hu : u = t
    · subst hu
      rw [Function.update_self, hz]
    · obtain ⟨more, hmore⟩ := hp.vals
      rw [Function.update_of_ne hu, hp.others u hu, hmore, (hs.inv.ring.knows u).standing more]
      exact hs.clients.standing u
  · intro u hu
    exact Function.update_of_ne hu _ _
  · intro l k r h
    rw [hv] at h
    cases h

/-- A load by thread `t` that reads `x` at `l`. An operation that ends with it takes effect
where its thread looked. -/
theorem WeakState.Sim.load_step (hs : σ.Sim C g m) (hi : σ'.Inv C g) (hl : Layout w C) (hf : σ.Frame t σ')
    (hheads : σ'.ring.heads = σ.ring.heads) (ho : σ.ring.Outcome C g t x l σ'.ring)
    (hread : ∀ k r, (σ.ring.pc t).verdict C = some (l, k, r) → ∃ i known, σ.seen t l ≤ i ∧
      (σ.cells l)[i]? = some ⟨x, known⟩)
    (hfence : ∀ l k r, (σ'.ring.pc t).verdict C = some (l, k, r) → σ'.seen t l = (σ'.cells l).length - 1) :
    ∃ m', Relation.ReflTransGen (Hindsight.Step (Fifo.object C)) m m' ∧ σ'.Sim C g m' := by
  have hheld : held σ'.ring g = held σ.ring g := by
    unfold held
    rw [hheads]
  cases ho with
  | quiet hhist hst =>
    have hc : ArrayQueue.Sim C σ'.ring g m.toAtomic := by
      refine ⟨hi.ring, hs.clients.object.trans hheld.symm, hs.clients.hist.trans hhist.symm, fun u => ?_⟩
      by_cases hu : u = t
      · subst hu
        rw [hst]
        exact hs.clients.standing u
      · rw [(hf.others u hu).1]
        exact hs.clients.standing u
    cases hv : (σ'.ring.pc t).verdict C with
    | none =>
      refine ⟨m, .refl, hs.moved hi hf hc (fun _ _ => rfl) (fun _ _ => rfl) fun l k r h => ?_⟩
      rw [hv] at h
      cases h
    | some v =>
      obtain ⟨l, k, r⟩ := v
      obtain ⟨op, hop⟩ := verdict_called hv g.vals
      obtain ⟨i, hphase⟩ := Standing.of_called (hop.symm.trans (hc.standing t))
      refine ⟨_, .single (.look hphase), hs.moved hi hf hc (fun _ _ => rfl) (fun u hu => Function.update_of_ne hu _ _) ?_⟩
      intro l' k' r' h
      obtain ⟨rfl, rfl, rfl⟩ : l = l' ∧ k = k' ∧ r = r' := by simpa using hv.symm.trans h
      refine ⟨i, op, m.object, hphase, Function.update_self .., ?_⟩
      rw [hs.clients.object, ← hheld]
      exact hi.looks hl hv hop (hfence l k r hv)
  | @fails k r hv hcount hhist hpc =>
    obtain ⟨i, op, q, hphase, hmem, n, hkn, _, hsees, happly⟩ := hs.looked t l k r hv
    obtain ⟨j, known, hseen, hget⟩ := hread k r hv
    have hn : n ≤ x.count := hsees j ⟨x, known⟩ hseen hget
    have heq : n = k := by
      have := hcount (Nat.le_trans hkn hn)
      omega
    have hlate := Hindsight.Step.late (O := Fifo.object C) hphase hmem (happly heq)
    have hret := Atomic.Step.ret (O := Fifo.object C)
      (a := { m.toAtomic with phase := Function.update m.phase t (.answered i r) }) (t := t) (Function.update_self ..)
    simp only [Function.update_idem] at hret
    refine ⟨_, .tail (.single hlate) (.now hret), hs.moved hi hf ⟨hi.ring, hs.clients.object.trans hheld.symm, ?_, ?_⟩
      (fun u hu => Function.update_of_ne hu _ _) (fun _ _ => rfl) fun l k r h => ?_⟩
    · rw [hhist, ← hs.clients.hist]
    · intro u
      show _ = Standing.of (Function.update m.phase t .idle u)
      by_cases hu : u = t
      · subst hu
        rw [Function.update_self, hpc]
        rfl
      · rw [Function.update_of_ne hu, (hf.others u hu).1]
        exact hs.clients.standing u
    · rw [hpc] at h
      cases h

theorem WeakState.Inv.read_outcome (hl : Layout w C) (hi : σ.Inv C g) {i : Nat} {o : Order}
    (hacc : (σ.ring.pc t).access C = .load l o) (hn : σ.Near C (.step t b, i)) (h : σ.read C t b i l o = some σ') :
    ∃ msg, σ.seen t l ≤ i ∧ (σ.cells l)[i]? = some msg ∧ σ.ring.Outcome C g t msg.value l σ'.ring ∧
      σ'.ring.heads = σ.ring.heads := by
  have hf : σ'.ring.pc t ≠ .fault := by
    intro e
    have hk := (hi.read hl hacc hn h).ring.knows t
    rw [e] at hk
    exact hk
  obtain ⟨msg, hmsg, h⟩ := Option.bind_eq_some_iff.mp h
  obtain ⟨s, hs, rfl⟩ := Option.map_eq_some_iff.mp h
  obtain ⟨hseen, hget⟩ := readable_eq_some.mp hmsg
  refine ⟨msg, hseen, hget, ?_, rfl⟩
  cases hi.ring.load_outcome hl hacc (hi.had_load hl hacc hn hget) hn.1 hs hf with
  | quiet h₁ h₂ => exact .quiet h₁ h₂
  | fails h₁ h₂ h₃ h₄ => exact .fails h₁ h₂ h₃ h₄

theorem verdict_access {p : Pc w V} (h : p.verdict C = some (l, k, r)) :
    p.access C = .load l .acquire ∨ p.access C = .load l .relaxed := by
  cases p with
  | pushLoadHead value y => cases h; exact .inl rfl
  | popLoadTail y => cases h; exact .inr rfl
  | _ => cases h

theorem WeakState.fence_seen (σ : WeakState w V) (t : Tid) (h : l = .head ∨ l = .tail) :
    (σ.fence t).seen t l = (σ.cells l).length - 1 := by
  rcases h with rfl | rfl
  · simp [fence, latest]
  · simp [fence, latest]

theorem WeakState.Sim.load (hl : Layout w C) (hs : σ.Sim C g m) {i : Nat} {o : Order}
    (hacc : (σ.ring.pc t).access C = .load l o) (hn : σ.Near C (.step t b, i)) (h : σ.load C t b i l o = some σ') :
    ∃ m', Relation.ReflTransGen (Hindsight.Step (Fifo.object C)) m m' ∧ σ'.Sim C g m' := by
  have hi := hs.inv.load hl hacc hn h
  have hf := load_frame h
  obtain ⟨σ₁, h₁, hsame, hfence⟩ := load_cases h
  have hread : ∃ msg, (o ≠ .seqCst → σ.seen t l ≤ i ∧ (σ.cells l)[i]? = some msg) ∧
      σ.ring.Outcome C g t msg.value l σ₁.ring ∧ σ₁.ring.heads = σ.ring.heads := by
    split at h₁
    · rename_i ho
      obtain ⟨msg, _, _, hout, hheads⟩ := (hs.inv.latest t l).read_outcome hl hacc hn h₁
      exact ⟨msg, fun hne => absurd ho hne, hout, hheads⟩
    · obtain ⟨msg, hseen, hget, hout, hheads⟩ := hs.inv.read_outcome hl hacc hn h₁
      exact ⟨msg, fun _ => ⟨hseen, hget⟩, hout, hheads⟩
  obtain ⟨msg, hget, hout, hheads⟩ := hread
  refine hs.load_step hi hl hf (by rw [hsame, hheads]) (by rw [hsame]; exact hout) (fun k r hv => ?_) fun l' k r hv => ?_
  · have hne : o ≠ .seqCst := by
      rintro rfl
      rcases verdict_access hv with e | e
      · rw [hacc] at e; cases e
      · rw [hacc] at e; cases e
    obtain ⟨h₂, h₃⟩ := hget hne
    exact ⟨i, msg.known, h₂, h₃⟩
  · rw [hsame] at hv
    rw [hfence (verdict_fenced hv)]
    exact σ₁.fence_seen t (verdict_counter hv)

theorem WeakState.Sim.cas (hl : Layout w C) (hs : σ.Sim C g m) {i : Nat} {e : BitVec w}
    (hacc : (σ.ring.pc t).access C = .cas l e) (hn : σ.Near C (.step t b, i)) (h : σ.cas C t b i l e = some σ') :
    ∃ g' m', Relation.ReflTransGen (Hindsight.Step (Fifo.object C)) m m' ∧ σ'.Sim C g' m' := by
  obtain ⟨msg, hmsg, h⟩ := Option.bind_eq_some_iff.mp h
  split at h
  · rename_i he
    obtain ⟨he, rfl⟩ := he
    split at h
    · rename_i hlen
      obtain ⟨s, hst, h⟩ := Option.bind_eq_some_iff.mp h
      obtain ⟨⟨v, cell⟩, hr, rfl⟩ := Option.map_eq_some_iff.mp h
      obtain ⟨g', hp, hi⟩ := hs.inv.cas_succeeds hl hacc hmsg he hlen hn.1 hst hr
      obtain ⟨⟨known, hcell⟩, _⟩ := rmw_appends hr
      refine ⟨g', hs.ring_step hp hi (write_frame hst ⟨_, hcell⟩) (stepThread_verdict hst fun l o h => ?_)⟩
      rw [hacc] at h
      cases h
    · cases h
  · rename_i hf
    have hi := hs.inv.cas_fails hl hacc hmsg hf h
    have hframe := (read_frame h).1
    obtain ⟨n, hn', h⟩ := Option.bind_eq_some_iff.mp h
    obtain ⟨s, hst, rfl⟩ := Option.map_eq_some_iff.mp h
    obtain rfl : msg = n := Option.some.inj (hmsg.symm.trans (readable_eq_some.mp hn').2)
    obtain ⟨hout, hv⟩ := hs.inv.ring.cas_outcome hl hacc hf hst
    refine ⟨g, hs.load_step (x := msg.value) (l := l) hi hl hframe rfl ?_ (fun k r hv => ?_) fun l k r h => ?_⟩
    · cases hout with
      | quiet h₁ h₂ => exact .quiet h₁ h₂
      | fails h₁ h₂ h₃ h₄ => exact .fails h₁ h₂ h₃ h₄
    · rcases verdict_access hv with e | e
      · rw [hacc] at e; cases e
      · rw [hacc] at e; cases e
    · have h : (s.pc t).verdict C = some (l, k, r) := h
      rw [hv] at h
      cases h

theorem WeakState.Sim.call (hs : σ.Sim C g m) {r : Res V} (hpc : σ.ring.pc t = .done r) (c : Call V) :
    ∃ m', Relation.ReflTransGen (Hindsight.Step (Fifo.object C)) m m' ∧
      ({ σ with ring := σ.ring.call t c } : WeakState w V).Sim C g m' := by
  refine hs.ring_step (hs.inv.ring.call hpc c) (hs.inv.call hpc c) ⟨fun u hu => ⟨?_, rfl⟩, fun l => ?_, fun _ => .inl rfl⟩ ?_
  · exact (hs.inv.ring.call hpc c).others u hu
  · cases c with
    | _ => cases l <;> exact Nat.le_refl _
  · cases c with
    | op op =>
      show ((State.setPc _ t (opStart op)).pc t).verdict C = none
      rw [setPc_self]
      cases op <;> rfl
    | _ =>
      show ((State.setPc _ t _).pc t).verdict C = none
      rw [setPc_self]
      rfl

theorem WeakState.Sim.exec (hl : Layout w C) (hs : σ.Sim C g m) {x : Act V × Nat} (hn : σ.Near C x)
    (h : σ.exec C x = some σ') :
    ∃ g' m', Relation.ReflTransGen (Hindsight.Step (Fifo.object C)) m m' ∧ σ'.Sim C g' m' := by
  obtain ⟨a, i⟩ := x
  cases a with
  | call t c =>
    obtain ⟨s, hst, rfl⟩ := Option.map_eq_some_iff.mp h
    simp only [ArrayQueue.exec] at hst
    cases hpc : σ.ring.pc t with
    | done r =>
      rw [hpc] at hst
      cases hst
      exact ⟨g, hs.call hpc c⟩
    | _ => rw [hpc] at hst; cases hst
  | step t b =>
    have h : σ.stepThread C t b i = some σ' := h
    unfold WeakState.stepThread at h
    cases hacc : (σ.ring.pc t).access C with
    | plain => rw [hacc] at h; cases h
    | load l o => rw [hacc] at h; exact ⟨g, hs.load hl hacc hn h⟩
    | cas l e => rw [hacc] at h; exact hs.cas hl hacc hn h
    | store l o count =>
      rw [hacc] at h
      obtain ⟨g', hp, hi⟩ := hs.inv.store hl hacc hn h
      obtain ⟨s, hst, rfl⟩ := Option.map_eq_some_iff.mp h
      refine ⟨g', hs.ring_step hp hi (write_frame hst ⟨_, rfl⟩) (stepThread_verdict hst fun l o h => ?_)⟩
      rw [hacc] at h
      cases h
    | value p =>
      rw [hacc] at h
      obtain ⟨g', hp, hi⟩ := hs.inv.value hl hacc hn h
      obtain ⟨s, hst, rfl⟩ := Option.map_eq_some_iff.mp h
      refine ⟨g', hs.ring_step hp hi ⟨fun u hu => ⟨hp.others u hu, rfl⟩, stepThread_counts hst, fun _ => .inl rfl⟩
        (stepThread_verdict hst fun l o h => ?_)⟩
      rw [hacc] at h
      cases h

theorem WeakState.Sim.new : (WeakState.new w V).Sim C ⟨.free, []⟩ (Hindsight.new (Fifo.object C)) :=
  ⟨WeakState.Inv.new, ArrayQueue.Sim.new, fun t l k r h => by cases h⟩

end

end RefCount.ArrayQueue
