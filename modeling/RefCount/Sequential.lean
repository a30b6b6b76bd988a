import RefCount.Jumps
import RefCount.Solo

/-!
# Calls one after the other

As long as every call returns before the next one is made, the queue is a list of at most
`C` values: for any number of laps, and however often the stamps wrap. Every call returns
once one of its `compare_exchange_weak` does not fail spuriously, and none comes to a fault.
-/

namespace RefCount.ArrayQueue

section
variable {w : Nat} {V : Type} (C : Nat)

def applyCall (l : List V) : Call V → Res V × List V
  | .op op => (.ret (Fifo.apply C l op).1, (Fifo.apply C l op).2)
  | .isEmpty => (.bool (decide (l.length = 0)), l)
  | .isFull => (.bool (decide (l.length = C)), l)
  | .len => (.size l.length, l)

def applyCalls : List V → List (Call V) → List (Res V) × List V
  | l, [] => ([], l)
  | l, c :: cs =>
    let (r, l') := applyCall C l c
    let (rs, l'') := applyCalls l' cs
    (r :: rs, l'')

/-- A complete call: who makes it, and how many of its `compare_exchange_weak` fail spuriously. -/
structure Served (V : Type) where
  thread : Tid
  call : Call V
  fails : Nat

/-- One call after the other, each with less than `n` steps. -/
def State.serve (n : Nat) : State w V → List (Served V) → Option (List (Res V) × State w V)
  | s, [] => some ([], s)
  | s, x :: xs =>
    ((s.call x.thread x.call).complete C x.thread n x.fails).bind fun p =>
      (State.serve n p.2 xs).map fun q => (p.1 :: q.1, q.2)

/-- A stamp in use has been loaded since the counter last moved. -/
def Pc.fresh (H T : Nat) : Pc w V → Prop
  | .pushLoadStamp _ _ tail => tail.count = T
  | .pushCasTail _ _ tail => tail.count = T
  | .pushLoadHead _ tail => tail.count = T
  | .forceCasHead _ tail => tail.count = T
  | .popLoadStamp head => head.count = H
  | .popCasHead head => head.count = H
  | .popLoadTail head => head.count = H
  | _ => True

/-- Between calls, with the list `l` in the queue. -/
structure Quiet (s : State w V) (g : Ghost V) (l : List V) : Prop where
  inv : Inv C s g
  owned : Owned C s g
  idle : ∀ t, ∃ r, s.pc t = .done r
  list : held s g = l

end

section
variable {w C : Nat} {V : Type} {s s' : State w V} {g : Ghost V} {t : Tid} {l : List V}

/-! ## Steps of a call that is served alone -/

theorem Pc.fresh.near (hl : Layout w C) {p : Pc w V} {H T : Nat} (h : p.fresh H T) :
    p.near (laps w C - 1) C H T = true := by
  have hlt := lt_add_laps hl
  cases p with
  | pushLoadStamp op v x => rw [← h]; exact decide_eq_true (hlt _)
  | pushCasTail op v x => rw [← h]; exact decide_eq_true (hlt _)
  | pushLoadHead v x => rw [← h]; exact decide_eq_true (hlt _)
  | forceCasHead v x => rw [← h]; exact decide_eq_true (hlt _)
  | popCasHead x => rw [← h]; exact decide_eq_true (hlt _)
  | popLoadTail x => rw [← h]; exact decide_eq_true (hlt _)
  | _ => rfl

theorem stepThread_hist {b : Bool} (h : s.stepThread C t b = some s') :
    s'.hist = s.hist ∨ ∃ r, s'.hist = s.hist ++ [.ret t r] ∧ s'.pc t = .done (.ret r) := by
  cases stepThread_moved h with
  | jump _ _ _ _ hh => exact .inl hh
  | head _ _ _ _ hh => exact .inl hh
  | tail _ _ _ _ hh => exact .inl hh
  | ret hpc _ _ hh =>
    refine .inr ⟨_, hh, ?_⟩
    rw [hpc, Function.update_self]

theorem Pc.fresh.jump {p q : Pc w V} (hf : p.fresh s.heads s.tails) (hj : Jump s p q) : q.fresh s.heads s.tails := by
  cases hj with
  | pushLoadTail => exact rfl
  | pushFree => exact hf
  | @pushFull op => cases op <;> exact hf
  | pushMiss => exact rfl
  | popLoadHead => exact rfl
  | popFull => exact hf
  | popFree => exact hf
  | popMiss => exact rfl
  | _ => trivial

theorem Pc.fresh.step {b : Bool} (hf : (s.pc t).fresh s.heads s.tails) (h : s.stepThread C t b = some s') :
    (s'.pc t).fresh s'.heads s'.tails := by
  cases stepThread_moved h with
  | jump hj hpc hH hT _ =>
    rw [hpc, hH, hT, Function.update_self]
    exact hf.jump hj
  | head hm hpc _ _ _ =>
    rw [hpc, Function.update_self]
    generalize s.pc t = p at hm
    cases hm <;> trivial
  | tail hm hpc _ _ _ =>
    rw [hpc, Function.update_self]
    generalize s.pc t = p at hm
    cases hm <;> trivial
  | ret hpc _ _ _ =>
    rw [hpc, Function.update_self]
    trivial

/-- Thread `t` is in the call `op`, which began with the list `l`, and runs alone. -/
structure During (C : Nat) (t : Tid) (l : List V) (op : Fifo.Op V) (s : State w V) (g : Ghost V) : Prop where
  inv : Inv C s g
  owned : Owned C s g
  fresh : (s.pc t).fresh s.heads s.tails
  answer : (s.pc t).standing C g.vals = .called op ∧ held s g = l ∨
    (∃ r, (s.pc t).standing C g.vals = .answered r ∧ Fifo.apply C l op = (r, held s g)) ∨
    ∃ r, s.pc t = .done (.ret r) ∧ Fifo.apply C l op = (r, held s g)

/-- After the call `op`, which began with the list `l`; the other threads are where they were. -/
structure After (C : Nat) (t : Tid) (l : List V) (op : Fifo.Op V) (s s' : State w V) (g : Ghost V) : Prop where
  inv : Inv C s' g
  owned : Owned C s' g
  list : held s' g = (Fifo.apply C l op).2
  done : s'.pc t = .done (.ret (Fifo.apply C l op).1)
  others : ∀ u, u ≠ t → s'.pc u = s.pc u

variable {op : Fifo.Op V}

theorem During.step (hl : Layout w C) (hd : During C t l op s g) {b : Bool} (h : s.stepThread C t b = some s') :
    (∃ g', During C t l op s' g') ∧ ∀ u, u ≠ t → s'.pc u = s.pc u := by
  obtain ⟨g', hp⟩ := hd.inv.step hl (hd.fresh.near hl) h
  -- a step that ends the call sets the result that it writes into the history
  have hend : ∀ r, s'.hist = s.hist ++ [.ret t r] → s'.pc t = .done (.ret r) := by
    intro r hr
    rcases stepThread_hist h with e | ⟨r', e, hpc⟩
    · rw [hr] at e
      exact absurd e (by simp)
    · rw [hr] at e
      have e := List.append_cancel_left e
      cases e
      exact hpc
  refine ⟨⟨g', hp.inv, hp.owned hd.owned, hd.fresh.step h, ?_⟩, hp.others⟩
  have heff := hp.effect
  rcases hd.answer with ⟨hst, hheld⟩ | ⟨r, hst, ha⟩ | ⟨r, hpc, _⟩
  · rw [hst] at heff
    generalize hy : (s'.pc t).standing C g'.vals = y at heff
    cases heff with
    | quiet hh _ => exact .inl ⟨rfl, hh.trans hheld⟩
    | commit hh _ =>
      refine .inr (.inl ⟨_, rfl, ?_⟩)
      rw [hh, hheld]
    | fail hh hr =>
      refine .inr (.inr ⟨_, hend _ hr, ?_⟩)
      rw [hh, hheld]
  · rw [hst] at heff
    generalize hy : (s'.pc t).standing C g'.vals = y at heff
    cases heff with
    | quiet hh _ => exact .inr (.inl ⟨r, rfl, by rw [hh]; exact ha⟩)
    | ret hh hr => exact .inr (.inr ⟨r, hend _ hr, by rw [hh]; exact ha⟩)
  · unfold State.stepThread at h
    rw [hpc] at h; cases h

theorem During.complete (hl : Layout w C) {n fails : Nat} {r : Res V} (hd : During C t l op s g)
    (h : s.complete C t n fails = some (r, s')) :
    r = .ret (Fifo.apply C l op).1 ∧ ∃ g', After C t l op s s' g' := by
  induction n generalizing s g fails with
  | zero => cases h
  | succ n ih =>
    unfold State.complete at h
    split at h
    · rename_i r' hpc
      cases h
      rcases hd.answer with ⟨hst, _⟩ | ⟨r', hst, _⟩ | ⟨r', hpc', ha⟩
      · rw [hpc] at hst; cases hst
      · rw [hpc] at hst; cases hst
      · rw [hpc] at hpc'
        cases hpc'
        refine ⟨by rw [ha], g, hd.inv, hd.owned, by rw [ha], by rw [hpc, ha], fun _ _ => rfl⟩
    · obtain ⟨s₁, hs₁, h⟩ := Option.bind_eq_some_iff.mp h
      obtain ⟨⟨g₁, hd₁⟩, ho⟩ := hd.step hl hs₁
      obtain ⟨hr, g', ha⟩ := ih hd₁ h
      exact ⟨hr, g', ha.inv, ha.owned, ha.list, ha.done, fun u hu => (ha.others u hu).trans (ho u hu)⟩

theorem During.call (hi : Inv C s g) (ho : Owned C s g) {r : Res V} (hpc : s.pc t = .done r) (op : Fifo.Op V) :
    During C t (held s g) op (s.call t (.op op)) g := by
  have hp := hi.call hpc (.op op)
  have hstart : (s.call t (.op op)).pc t = opStart op := setPc_self _ t _
  refine ⟨hp.inv, hp.owned ho, ?_, .inl ⟨?_, rfl⟩⟩
  · rw [hstart]
    cases op <;> trivial
  · rw [hstart]
    cases op <;> rfl

/-! ## A call between calls -/

theorem Quiet.new : Quiet C (State.new w V) ⟨.free, []⟩ [] :=
  ⟨Inv.new, Owned.new, fun _ => ⟨_, rfl⟩, rfl⟩

theorem Quiet.owner (hq : Quiet C s g l) {i : Nat} (hi : i < C) : (g.cell i).owner = none := by
  cases ho : (g.cell i).owner with
  | none => rfl
  | some u =>
    have hc := hq.owned i hi u ho
    obtain ⟨r, hr⟩ := hq.idle u
    rw [hr] at hc; cases hc

theorem Quiet.serve_op (hl : Layout w C) (hq : Quiet C s g l) (t : Tid) (op : Fifo.Op V) (fails : Nat) :
    ∃ n s' g', (s.call t (.op op)).complete C t n fails = some (.ret (Fifo.apply C l op).1, s') ∧
      Quiet C s' g' (Fifo.apply C l op).2 := by
  obtain ⟨r, hr⟩ := hq.idle t
  have hd := During.call hq.inv hq.owned hr op
  have hpc : (s.call t (.op op)).pc t = opStart op := setPc_self _ t _
  have hret : Returns C t fails (s.call t (.op op)) := by
    have howner := fun n => hq.owner (Nat.mod_lt n hl.pos)
    cases op with
    | push v => exact hd.inv.returns_pushing hl (howner _) (by rw [hpc]; rfl) (by rw [hpc]; rfl)
    | forcePush v => exact hd.inv.returns_pushing hl (howner _) (by rw [hpc]; rfl) (by rw [hpc]; rfl)
    | pop => exact hd.inv.returns_popping hl (howner _) (by rw [hpc]; rfl) (by rw [hpc]; rfl)
  rw [hq.list] at hd
  obtain ⟨n, r', s', hn⟩ := hret
  obtain ⟨rfl, g', ha⟩ := hd.complete hl hn
  refine ⟨n, s', g', hn, ha.inv, ha.owned, ?_, ha.list⟩
  intro u
  by_cases e : u = t
  · subst e
    exact ⟨_, ha.done⟩
  · have hothers : (s.call t (.op op)).pc u = s.pc u := setPc_others _ t _ u e
    rw [ha.others u e, hothers]
    exact hq.idle u

theorem setPc_setPc (s : State w V) (t : Tid) (p q : Pc w V) : (s.setPc t p).setPc t q = s.setPc t q := by
  unfold State.setPc
  simp only [Function.update_idem]

theorem Quiet.length (hl : Layout w C) (hq : Quiet C s g l) : s.tails = s.heads + l.length := by
  have howner := hq.owner (Nat.mod_lt s.tails hl.pos)
  have hev : (g.cell (s.tails % C)).isEvicting = false := by
    cases hc : g.cell (s.tails % C) with
    | evicting p u => rw [hc] at howner; cases howner
    | _ => rfl
  have hlen := hq.inv.length_of hev
  have hle := hq.inv.le
  rw [← hq.list, held_length hlen]
  omega

theorem Quiet.observe (hq : Quiet C s g l) (t : Tid) (r : Res V) : Quiet C (s.setPc t (.done r)) g l := by
  refine ⟨hq.inv.move rfl ⟨rfl, rfl, rfl, rfl, rfl⟩ rfl trivial, hq.owned.move rfl ?_, ?_, hq.list⟩
  · obtain ⟨r', hr⟩ := hq.idle t
    rw [hr]; rfl
  · intro u
    by_cases e : u = t
    · subst e
      exact ⟨r, setPc_self s u _⟩
    · rw [setPc_others s t _ u e]
      exact hq.idle u

theorem Inv.tail_eq_head (hl : Layout w C) (hi : Inv C s g) : s.tail = s.head ↔ s.tails = s.heads := by
  have hlaps := hl.laps
  have hroom := hi.room
  have hpos := hl.pos
  rw [hi.tail, hi.head]
  constructor
  · intro e
    exact Stamp.enc_near hl.stamp hi.le (by unfold laps at hlaps; omega) e
  · intro e
    rw [e]

theorem Inv.head_lags (hl : Layout w C) (hi : Inv C s g) : s.head + oneLap w C = s.tail ↔ s.heads + C = s.tails := by
  have hlaps := hl.laps
  have hle := hi.le
  have hpos := hl.pos
  rw [hi.tail, hi.head, oneLap, Stamp.enc_add_lap hl.stamp]
  constructor
  · intro e
    exact Stamp.enc_near hl.stamp hi.room (by unfold laps at hlaps; omega) e
  · intro e
    rw [e]

theorem Quiet.serve_isEmpty (hl : Layout w C) (hq : Quiet C s g l) (t : Tid) (fails : Nat) :
    (s.call t .isEmpty).complete C t 3 fails =
      some (.bool (decide (l.length = 0)), s.setPc t (.done (.bool (decide (l.length = 0))))) := by
  have hlen := hq.length hl
  have hb : decide (s.tail = s.head) = decide (l.length = 0) := by
    apply decide_eq_decide.mpr
    rw [hq.inv.tail_eq_head hl]
    omega
  simp only [State.call, State.complete, State.stepThread, setPc_self, Pc.isCas, Option.bind_some, setPc_setPc]
  show some (Res.bool (decide (s.tail = s.head)), s.setPc t (.done (.bool (decide (s.tail = s.head))))) = _
  rw [hb]

theorem Quiet.serve_isFull (hl : Layout w C) (hq : Quiet C s g l) (t : Tid) (fails : Nat) :
    (s.call t .isFull).complete C t 3 fails =
      some (.bool (decide (l.length = C)), s.setPc t (.done (.bool (decide (l.length = C))))) := by
  have hlen := hq.length hl
  have hb : decide (s.head + oneLap w C = s.tail) = decide (l.length = C) := by
    apply decide_eq_decide.mpr
    rw [hq.inv.head_lags hl]
    omega
  simp only [State.call, State.complete, State.stepThread, setPc_self, Pc.isCas, Option.bind_some, setPc_setPc]
  show some (Res.bool (decide (s.head + oneLap w C = s.tail)),
    s.setPc t (.done (.bool (decide (s.head + oneLap w C = s.tail))))) = _
  rw [hb]

theorem Quiet.serve_len (hl : Layout w C) (hq : Quiet C s g l) (t : Tid) (fails : Nat) :
    (s.call t .len).complete C t 4 fails = some (.size l.length, s.setPc t (.done (.size l.length))) := by
  have hlen := hq.length hl
  have hroom := hq.inv.room
  obtain ⟨n, hn, hsize⟩ := queueSize_enc hl s.heads s.tails
  rw [← hq.inv.head, ← hq.inv.tail] at hn
  have hsize : n.toNat = l.length := by
    rw [hsize hq.inv.le hroom]
    omega
  have hend : ∀ p : Pc w V, (s.setPc t p).lenLoadTailAgain C t s.tail s.head = s.setPc t (.done (.size l.length)) := by
    intro p
    have htail : (s.setPc t p).tail = s.tail := rfl
    unfold State.lenLoadTailAgain
    rw [if_pos htail, hn]
    simp only [hsize, setPc_setPc]
  have hlast : (s.setPc t (.lenLoadTailAgain s.tail s.head)).stepThread C t false =
      some (s.setPc t (.done (.size l.length))) := by
    simp only [State.stepThread, setPc_self, hend]
  have hstart : (s.call t .len).complete C t 4 fails =
      (s.setPc t (.lenLoadTailAgain s.tail s.head)).complete C t 2 fails := by
    simp only [State.call, State.complete, State.stepThread, setPc_self, Pc.isCas, Option.bind_some, setPc_setPc]
    rfl
  rw [hstart]
  simp only [State.complete, setPc_self, Pc.isCas, Bool.false_and, hlast, Option.bind_some]


/-! ## Any number of calls -/

theorem State.complete_mono {n m fails : Nat} {x : Res V × State w V} (hle : n ≤ m) (h : s.complete C t n fails = some x) :
    s.complete C t m fails = some x := by
  induction n generalizing s m fails with
  | zero => cases h
  | succ n ih =>
    obtain ⟨m, rfl⟩ : ∃ k, m = k + 1 := ⟨m - 1, by omega⟩
    unfold State.complete at h ⊢
    split at h
    · exact h
    · obtain ⟨s₁, hs₁, h⟩ := Option.bind_eq_some_iff.mp h
      rw [hs₁]
      exact ih (by omega) h

theorem Quiet.serve_call (hl : Layout w C) (hq : Quiet C s g l) (t : Tid) (c : Call V) (fails : Nat) :
    ∃ n s' g', (s.call t c).complete C t n fails = some ((applyCall C l c).1, s') ∧
      Quiet C s' g' (applyCall C l c).2 := by
  cases c with
  | op op => exact hq.serve_op hl t op fails
  | isEmpty => exact ⟨3, _, g, hq.serve_isEmpty hl t fails, hq.observe t _⟩
  | isFull => exact ⟨3, _, g, hq.serve_isFull hl t fails, hq.observe t _⟩
  | len => exact ⟨4, _, g, hq.serve_len hl t fails, hq.observe t _⟩

theorem Quiet.serve (hl : Layout w C) (hq : Quiet C s g l) (calls : List (Served V)) :
    ∃ n s' g', (∀ m, n ≤ m → s.serve C m calls = some ((applyCalls C l (calls.map (·.call))).1, s')) ∧
      Quiet C s' g' (applyCalls C l (calls.map (·.call))).2 := by
  induction calls generalizing s g l with
  | nil => exact ⟨0, s, g, fun _ _ => rfl, hq⟩
  | cons x xs ih =>
    obtain ⟨n₁, s₁, g₁, hn₁, hq₁⟩ := hq.serve_call hl x.thread x.call x.fails
    obtain ⟨n₂, s₂, g₂, hn₂, hq₂⟩ := ih hq₁
    refine ⟨max n₁ n₂, s₂, g₂, ?_, hq₂⟩
    intro m hm
    have h₁ := State.complete_mono (show n₁ ≤ m by omega) hn₁
    have h₂ := hn₂ m (by omega)
    unfold State.serve
    rw [h₁]
    show (s₁.serve C m xs).map _ = _
    rw [h₂]
    rfl

theorem applyCalls_length (hC : 0 < C) {l : List V} (hle : l.length ≤ C) (calls : List (Call V)) :
    (applyCalls C l calls).2.length ≤ C := by
  induction calls generalizing l with
  | nil => exact hle
  | cons c cs ih =>
    refine ih ?_
    cases c with
    | op op => exact Fifo.apply_length hC hle op
    | _ => exact hle

/-- From a new queue on, any number of complete calls return what they return on a list of at
most `C` values. That each of them returns means that no loop runs for ever, and that no
unchecked operation or access goes wrong on the way. -/
theorem refines_list (hl : Layout w C) (calls : List (Served V)) :
    (applyCalls C [] (calls.map (·.call))).2.length ≤ C ∧
    ∃ n s', ∀ m, n ≤ m →
      (State.new w V).serve C m calls = some ((applyCalls C [] (calls.map (·.call))).1, s') := by
  refine ⟨applyCalls_length hl.pos (Nat.zero_le _) _, ?_⟩
  obtain ⟨n, s', _, hn, _⟩ := Quiet.new.serve hl calls
  exact ⟨n, s', hn⟩

end

/-- With words of three bits and two slots the stamps repeat after four values; the fifth is
the last one pushed here. -/
def twoLaps : List (Served Nat) :=
  [⟨0, .op (.push 10), 1⟩, ⟨1, .op (.forcePush 20), 0⟩, ⟨2, .op (.push 30), 2⟩, ⟨0, .op (.forcePush 30), 0⟩, ⟨1, .len, 0⟩,
    ⟨0, .isFull, 0⟩, ⟨2, .op .pop, 1⟩, ⟨2, .op .pop, 0⟩, ⟨0, .op .pop, 0⟩, ⟨1, .isEmpty, 0⟩, ⟨1, .op (.push 40), 0⟩,
    ⟨0, .op (.push 50), 0⟩, ⟨1, .op (.forcePush 60), 1⟩]

theorem refines_list_two_laps : ∃ n s', ∀ m, n ≤ m → (State.new 3 Nat).serve 2 m twoLaps = some
    ([.ret (.result (.ok ())), .ret (.option none), .ret (.result (.error 30)), .ret (.option (some 10)), .size 2,
      .bool true, .ret (.option (some 20)), .ret (.option (some 30)), .ret (.option none), .bool true,
      .ret (.result (.ok ())), .ret (.result (.ok ())), .ret (.option (some 40))], s') :=
  (refines_list (w := 3) (C := 2) ⟨by decide, by decide⟩ twoLaps).2

end RefCount.ArrayQueue
