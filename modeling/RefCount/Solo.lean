import RefCount.Linearizable

/-!
# Calls that run alone

A thread goes on with its call while all the others are stopped, somewhere. Between
its CAS and the store of the stamp a call has claimed a slot. A call that has not taken
effect yet returns if nobody has claimed the slot it needs, and otherwise goes round its
loop for ever.
-/

namespace RefCount.ArrayQueue

section
variable {w : Nat} {V : Type} (C : Nat)

def Pc.isCas : Pc w V → Bool
  | .pushCasTail _ _ _ => true
  | .forceCasHead _ _ => true
  | .popCasHead _ => true
  | _ => false

/-- Thread `t` runs alone until its call returns, for less than `n` steps; the first `fails`
of its `compare_exchange_weak` fail spuriously. -/
def State.complete (t : Tid) : Nat → Nat → State w V → Option (Res V × State w V)
  | 0, _, _ => none
  | n + 1, fails, s =>
    match s.pc t with
    | .done r => some (r, s)
    | p =>
      (s.stepThread C t (p.isCas && decide (0 < fails))).bind
        (State.complete t n (if p.isCas then fails - 1 else fails))

def Returns (t : Tid) (fails : Nat) (s : State w V) : Prop := ∃ n r s', s.complete C t n fails = some (r, s')

/-- The place of the slot that the thread has claimed. -/
def Pc.claimed : Pc w V → Option Nat
  | .pushWrite _ _ tail => some (index C tail.stamp).toNat
  | .pushStoreStamp _ tail => some (index C tail.stamp).toNat
  | .forceStoreTail _ tail => some (index C tail.stamp).toNat
  | .forceReplace _ tail => some (index C tail.stamp).toNat
  | .forceStoreStamp _ tail => some (index C tail.stamp).toNat
  | .popRead head => some (index C head.stamp).toNat
  | .popStoreStamp _ head => some (index C head.stamp).toNat
  | _ => none

def Pc.pushing : Pc w V → Bool
  | .pushLoadTail _ _ => true
  | .pushLoadStamp _ _ _ => true
  | .pushCasTail _ _ _ => true
  | .pushLoadHead _ _ => true
  | .forceCasHead _ _ => true
  | _ => false

def Pc.popping : Pc w V → Bool
  | .popLoadHead => true
  | .popLoadStamp _ => true
  | .popCasHead _ => true
  | .popLoadTail _ => true
  | _ => false

/-- The counter has moved on by less than `n` laps since the call loaded its stamp. -/
def Pc.recent (n C H T : Nat) : Pc w V → Bool
  | .popLoadStamp head => H < head.count + n * C
  | p => p.near n C H T

end

section
variable {w C : Nat} {V : Type} {s s' : State w V} {g : Ghost V} {t : Tid} {fails : Nat}

/-! ## Steps of the run -/

theorem Returns.done {r : Res V} (h : s.pc t = .done r) : Returns C t fails s := by
  refine ⟨1, r, s, ?_⟩
  simp only [State.complete, h]

theorem Returns.step {p : Pc w V} (hpc : s.pc t = p) (hp : p.isCas = false) (h : s.stepThread C t false = some s')
    (hr : Returns C t fails s') : Returns C t fails s := by
  obtain ⟨n, r, s'', hn⟩ := hr
  refine ⟨n + 1, r, s'', ?_⟩
  subst hpc
  unfold State.complete
  split
  · rename_i r' hd
    simp [State.stepThread, hd] at h
  · rw [hp]
    simpa [h] using hn

theorem Returns.cas {p : Pc w V} (hpc : s.pc t = p) (hp : p.isCas = true)
    (hfail : ∀ k, fails = k + 1 → ∃ s', s.stepThread C t true = some s' ∧ Returns C t k s')
    (hlast : fails = 0 → ∃ s', s.stepThread C t false = some s' ∧ Returns C t 0 s') : Returns C t fails s := by
  subst hpc
  cases fails with
  | zero =>
    obtain ⟨s', hs, n, r, s'', hn⟩ := hlast rfl
    refine ⟨n + 1, r, s'', ?_⟩
    unfold State.complete
    split
    · rename_i r' hd
      rw [hd] at hp; cases hp
    · rw [hp]
      simpa [hs] using hn
  | succ k =>
    obtain ⟨s', hs, n, r, s'', hn⟩ := hfail k rfl
    refine ⟨n + 1, r, s'', ?_⟩
    unfold State.complete
    split
    · rename_i r' hd
      rw [hd] at hp; cases hp
    · rw [hp]
      simpa [hs] using hn

theorem lt_add_laps (hl : Layout w C) (n : Nat) : n < n + (laps w C - 1) * C := by
  have hpos := hl.pos
  have hlaps := hl.laps
  have hlap := laps_cycle w C
  omega

/-! ## `pop` -/

theorem Inv.returns_popStoreStamp {msg : V} {x : Loaded w} (hpc : s.pc t = .popStoreStamp msg x) : Returns C t fails s := by
  have hstep : s.stepThread C t false = some (s.popStoreStamp C t msg x) := by
    simp only [State.stepThread, hpc]
  exact .step hpc rfl hstep (.done (setPc_self _ t _))

theorem Inv.returns_popRead (hl : Layout w C) (hi : Inv C s g) {x : Loaded w} (hpc : s.pc t = .popRead x) :
    Returns C t fails s := by
  have hstep : s.stepThread C t false = some (s.popRead C t x) := by
    simp only [State.stepThread, hpc]
  refine .step hpc rfl hstep ?_
  obtain ⟨g', hp⟩ := hi.popRead hl hpc
  have hk := hp.inv.knows t
  unfold State.popRead at hk ⊢
  split at hk
  · rw [setPc_self] at hk
    exact hk.elim
  · exact Inv.returns_popStoreStamp (setPc_self _ t _)

theorem Inv.returns_popCasHead (hl : Layout w C) (hi : Inv C s g) {x : Loaded w} (hpc : s.pc t = .popCasHead x)
    (hnear : s.heads < x.count + (laps w C - 1) * C) (he : s.head = x.stamp) :
    ∃ s', s.stepThread C t false = some s' ∧ Returns C t fails s' := by
  have hstep : s.stepThread C t false = some (s.popCasHead C t x false) := by
    simp only [State.stepThread, hpc]
  refine ⟨_, hstep, ?_⟩
  have hx : x.upTo C s.heads := by
    have hk := hi.knows t
    rw [hpc] at hk
    exact hk.1
  obtain ⟨g', hp⟩ := hi.popCasHead hl hpc hnear false
  have hnew := hp.inv
  have hhit : s.popCasHead C t x false = State.setPc { s with
      head := Stamp.enc w (lapBits C) C (x.count + 1), heads := s.heads + 1 } t (.popRead x) := by
    unfold State.popCasHead
    rw [hx.1, enc_succ hl]
    simp [he, hx.1]
  rw [hhit] at hnew ⊢
  exact hnew.returns_popRead hl (setPc_self _ t _)

theorem popCasHead_miss (hl : Layout w C) {x : Loaded w} {n : Nat} (hx : x.upTo C n) {b : Bool}
    (h : ¬ (s.head = x.stamp ∧ b = false)) : s.popCasHead C t x b = s.setPc t (.popLoadStamp s.loadHead) := by
  unfold State.popCasHead
  rw [hx.1, enc_succ hl]
  rw [hx.1] at h
  exact if_neg h

theorem Inv.loadHead (hi : Inv C s g) : s.loadHead.upTo C s.heads := ⟨hi.head, Nat.le_refl _⟩

theorem Inv.loadTail (hi : Inv C s g) : s.loadTail.upTo C s.tails := ⟨hi.tail, Nat.le_refl _⟩

theorem popLoadStamp_full (hl : Layout w C) (hi : Inv C s g) {x : Loaded w} (hx : x.upTo C s.heads)
    (hc : g.cell (x.count % C) = .full x.count) : s.popLoadStamp C t x = s.setPc t (.popCasHead x) := by
  have hlt := Nat.mod_lt x.count hl.pos
  unfold State.popLoadStamp
  rw [hi.slot hl hx, hc, hx.1, enc_add_one hl]
  simp only [enc_index hl, if_pos hlt, Cell.stamp, if_true]

theorem popLoadStamp_free (hl : Layout w C) (hi : Inv C s g) {x : Loaded w} (hx : x.upTo C s.heads)
    (hc : g.cell (x.count % C) = .free x.count) : s.popLoadStamp C t x = s.setPc t (.popLoadTail x) := by
  have hlt := Nat.mod_lt x.count hl.pos
  have hne := Stamp.enc_add_one_ne hl.stamp (p := x.count) rfl
  unfold State.popLoadStamp
  rw [hi.slot hl hx, hc, hx.1, enc_add_one hl]
  simp only [enc_index hl, if_pos hlt, Cell.stamp, if_neg hne, if_true]

/-- A `pop` that has just loaded `head`, with a slot that nobody has claimed; `hagain` is the
next round, after a spurious failure. -/
theorem Inv.returns_popLoadStamp_of (hl : Layout w C) (hi : Inv C s g) (ho : (g.cell (s.heads % C)).owner = none)
    (hpc : s.pc t = .popLoadStamp s.loadHead)
    (hagain : ∀ k, fails = k + 1 → ∀ s : State w V, Inv C s g → (g.cell (s.heads % C)).owner = none →
      s.pc t = .popLoadStamp s.loadHead → Returns C t k s) : Returns C t fails s := by
  have hstep : s.stepThread C t false = some (s.popLoadStamp C t s.loadHead) := by
    simp only [State.stepThread, hpc]
  refine .step hpc rfl hstep ?_
  have hnew := (hi.popLoadStamp hl hpc).inv
  rcases (hi.ok hl s.heads).head_cases rfl hi.le hi.room ho with ⟨hc, hT⟩ | ⟨hc, _⟩
  · rw [popLoadStamp_free hl hi hi.loadHead hc]
    have hpc' : (s.setPc t (.popLoadTail s.loadHead)).pc t = .popLoadTail s.loadHead := setPc_self s t _
    have hstep : (s.setPc t (.popLoadTail s.loadHead)).stepThread C t false =
        some ((s.setPc t (.popLoadTail s.loadHead)).popLoadTail t s.loadHead) := by
      simp only [State.stepThread, hpc']
    refine .step hpc' rfl hstep ?_
    have he : s.tail = s.loadHead.stamp := by
      show s.tail = s.head
      rw [hi.tail, hi.head, hT]
    have hend : (s.setPc t (.popLoadTail s.loadHead)).popLoadTail t s.loadHead =
        (s.setPc t (.popLoadTail s.loadHead)).return t (.option none) := if_pos he
    rw [hend]
    exact .done (setPc_self _ t _)
  · rw [popLoadStamp_full hl hi hi.loadHead hc] at hnew ⊢
    have hpc' : (s.setPc t (.popCasHead s.loadHead)).pc t = .popCasHead s.loadHead := setPc_self s t _
    refine .cas hpc' rfl ?_ ?_
    · intro k hk
      have hstep : (s.setPc t (.popCasHead s.loadHead)).stepThread C t true =
          some ((s.setPc t (.popCasHead s.loadHead)).popCasHead C t s.loadHead true) := by
        simp only [State.stepThread, hpc']
      refine ⟨_, hstep, ?_⟩
      rw [popCasHead_miss hl hi.loadHead (by simp)]
      refine hagain k hk _ ?_ ho (setPc_self _ t _)
      exact hnew.move rfl ⟨rfl, rfl, rfl, rfl, rfl⟩ rfl hi.loadHead
    · intro _
      exact hnew.returns_popCasHead hl hpc' (lt_add_laps hl _) rfl

theorem Inv.returns_popLoadStamp (hl : Layout w C) (hi : Inv C s g) (ho : (g.cell (s.heads % C)).owner = none)
    (hpc : s.pc t = .popLoadStamp s.loadHead) : Returns C t fails s := by
  induction fails generalizing s with
  | zero => exact hi.returns_popLoadStamp_of hl ho hpc nofun
  | succ k ih =>
    refine hi.returns_popLoadStamp_of hl ho hpc ?_
    intro j hj s hi ho hpc
    cases hj
    exact ih hi ho hpc

theorem Inv.returns_popLoadHead (hl : Layout w C) (hi : Inv C s g) (ho : (g.cell (s.heads % C)).owner = none)
    (hpc : s.pc t = .popLoadHead) : Returns C t fails s := by
  have hstep : s.stepThread C t false = some (s.setPc t (.popLoadStamp s.loadHead)) := by
    simp only [State.stepThread, hpc]
  refine .step hpc rfl hstep ?_
  have hnew : Inv C (s.setPc t (.popLoadStamp s.loadHead)) g :=
    hi.move rfl ⟨rfl, rfl, rfl, rfl, rfl⟩ rfl hi.loadHead
  exact hnew.returns_popLoadStamp hl ho (setPc_self _ t _)

theorem popLoadStamp_cases (hl : Layout w C) {x : Loaded w} {n : Nat} (hx : x.upTo C n) :
    s.popLoadStamp C t x = s.setPc t (.popCasHead x) ∨ s.popLoadStamp C t x = s.setPc t (.popLoadTail x) ∨
      s.popLoadStamp C t x = s.setPc t .popLoadHead := by
  have hlt := Nat.mod_lt x.count hl.pos
  unfold State.popLoadStamp
  rw [hx.1, enc_index hl, if_pos hlt, enc_add_one hl]
  simp only
  split
  · exact .inl rfl
  · split
    · exact .inr (.inl rfl)
    · exact .inr (.inr rfl)

theorem Inv.returns_popLoadTail (hl : Layout w C) (hi : Inv C s g) (ho : (g.cell (s.heads % C)).owner = none)
    {x : Loaded w} (hpc : s.pc t = .popLoadTail x) : Returns C t fails s := by
  have hstep : s.stepThread C t false = some (s.popLoadTail t x) := by
    simp only [State.stepThread, hpc]
  refine .step hpc rfl hstep ?_
  unfold State.popLoadTail
  split
  · exact .done (setPc_self _ t _)
  · have hnew : Inv C (s.setPc t .popLoadHead) g := hi.move rfl ⟨rfl, rfl, rfl, rfl, rfl⟩ rfl trivial
    exact hnew.returns_popLoadHead hl ho (setPc_self _ t _)

theorem Inv.returns_popCas (hl : Layout w C) (hi : Inv C s g) (ho : (g.cell (s.heads % C)).owner = none)
    {x : Loaded w} (hpc : s.pc t = .popCasHead x) (hnear : s.heads < x.count + (laps w C - 1) * C) :
    Returns C t fails s := by
  have hx : x.upTo C s.heads := by
    have hk := hi.knows t
    rw [hpc] at hk
    exact hk.1
  have hagain : ∀ k, Returns C t k (s.setPc t (.popLoadStamp s.loadHead)) := by
    intro k
    have hnew : Inv C (s.setPc t (.popLoadStamp s.loadHead)) g :=
      hi.move rfl ⟨rfl, rfl, rfl, rfl, rfl⟩ rfl hi.loadHead
    exact hnew.returns_popLoadStamp hl ho (setPc_self _ t _)
  have hstep : ∀ b, s.stepThread C t b = some (s.popCasHead C t x b) := by
    intro b
    simp only [State.stepThread, hpc]
  refine .cas hpc rfl ?_ ?_
  · intro k _
    refine ⟨_, hstep true, ?_⟩
    rw [popCasHead_miss hl hx (by simp)]
    exact hagain k
  · intro _
    by_cases he : s.head = x.stamp
    · exact hi.returns_popCasHead hl hpc hnear he
    · refine ⟨_, hstep false, ?_⟩
      rw [popCasHead_miss hl hx (by simp [he])]
      exact hagain 0

theorem Inv.returns_popping (hl : Layout w C) (hi : Inv C s g) (ho : (g.cell (s.heads % C)).owner = none)
    (hp : (s.pc t).popping = true) (hr : (s.pc t).recent (laps w C - 1) C s.heads s.tails = true) :
    Returns C t fails s := by
  cases hpc : s.pc t with
  | popLoadHead => exact hi.returns_popLoadHead hl ho hpc
  | popLoadStamp x =>
    rw [hpc] at hr
    have hx : x.upTo C s.heads := by
      have hk := hi.knows t
      rw [hpc] at hk
      exact hk
    have hstep : s.stepThread C t false = some (s.popLoadStamp C t x) := by
      simp only [State.stepThread, hpc]
    refine .step hpc rfl hstep ?_
    have hnew := (hi.popLoadStamp hl hpc).inv
    rcases popLoadStamp_cases hl hx with e | e | e
    · rw [e] at hnew ⊢
      exact hnew.returns_popCas hl ho (setPc_self _ t _) (of_decide_eq_true hr)
    · rw [e] at hnew ⊢
      exact hnew.returns_popLoadTail hl ho (setPc_self _ t _)
    · rw [e] at hnew ⊢
      exact hnew.returns_popLoadHead hl ho (setPc_self _ t _)
  | popCasHead x =>
    rw [hpc] at hr
    exact hi.returns_popCas hl ho hpc (of_decide_eq_true hr)
  | popLoadTail x => exact hi.returns_popLoadTail hl ho hpc
  | _ => rw [hpc] at hp; cases hp

/-! ## `push_or_else` -/

theorem returns_publish (hl : Layout w C) {x : Loaded w} (hx : x.stamp = Stamp.enc w (lapBits C) C x.count) {r : Fifo.Ret V} :
    Returns C t fails (s.publish C t x r) := by
  unfold State.publish
  rw [hx, enc_add_one hl]
  exact .done (setPc_self _ t _)

theorem Inv.returns_pushStoreStamp (hl : Layout w C) (hi : Inv C s g) {op : PushOp} {x : Loaded w}
    (hpc : s.pc t = .pushStoreStamp op x) : Returns C t fails s := by
  have hstep : s.stepThread C t false = some (s.publish C t x op.ok) := by
    simp only [State.stepThread, hpc]
  have hk := hi.knows t
  rw [hpc] at hk
  have hx : x.upTo C s.tails := hk
  exact .step hpc rfl hstep (returns_publish hl hx.1)

theorem Inv.returns_pushWrite (hl : Layout w C) (hi : Inv C s g) {op : PushOp} {value : V} {x : Loaded w}
    (hpc : s.pc t = .pushWrite op value x) : Returns C t fails s := by
  have hstep : s.stepThread C t false = some (s.pushWrite C t op value x) := by
    simp only [State.stepThread, hpc]
  refine .step hpc rfl hstep ?_
  obtain ⟨g', hp⟩ := hi.pushWrite hl hpc
  have hnew := hp.inv
  unfold State.pushWrite at hnew ⊢
  split at hnew
  · have hk := hnew.knows t
    rw [setPc_self] at hk
    exact hk.elim
  · exact hnew.returns_pushStoreStamp hl (setPc_self _ t _)

theorem Inv.returns_forceStoreStamp (hl : Layout w C) (hi : Inv C s g) {old : V} {x : Loaded w}
    (hpc : s.pc t = .forceStoreStamp old x) : Returns C t fails s := by
  have hstep : s.stepThread C t false = some (s.publish C t x (.option (some old))) := by
    simp only [State.stepThread, hpc]
  have hk := hi.knows t
  rw [hpc] at hk
  exact .step hpc rfl hstep (returns_publish hl hk.1.1)

theorem Inv.returns_forceReplace (hl : Layout w C) (hi : Inv C s g) {value : V} {x : Loaded w}
    (hpc : s.pc t = .forceReplace value x) : Returns C t fails s := by
  have hstep : s.stepThread C t false = some (s.forceReplace C t value x) := by
    simp only [State.stepThread, hpc]
  refine .step hpc rfl hstep ?_
  obtain ⟨g', hp⟩ := hi.forceReplace hl hpc
  have hnew := hp.inv
  unfold State.forceReplace at hnew ⊢
  split at hnew
  · have hk := hnew.knows t
    rw [setPc_self] at hk
    exact hk.elim
  · exact hnew.returns_forceStoreStamp hl (setPc_self _ t _)

theorem Inv.returns_forceStoreTail (hl : Layout w C) (hi : Inv C s g) {value : V} {x : Loaded w}
    (hpc : s.pc t = .forceStoreTail value x) : Returns C t fails s := by
  have hstep : s.stepThread C t false = some (s.forceStoreTail C t value x) := by
    simp only [State.stepThread, hpc]
  refine .step hpc rfl hstep ?_
  have hk := hi.knows t
  rw [hpc] at hk
  obtain ⟨g', hp⟩ := hi.forceStoreTail hl hpc
  have hnew := hp.inv
  unfold State.forceStoreTail at hnew ⊢
  rw [hk.1.1, enc_succ hl] at hnew ⊢
  exact hnew.returns_forceReplace hl (setPc_self _ t _)

theorem Inv.returns_pushCasTail (hl : Layout w C) (hi : Inv C s g) {op : PushOp} {value : V} {x : Loaded w}
    (hpc : s.pc t = .pushCasTail op value x) (hnear : s.tails < x.count + (laps w C - 1) * C) (he : s.tail = x.stamp) :
    ∃ s', s.stepThread C t false = some s' ∧ Returns C t fails s' := by
  have hstep : s.stepThread C t false = some (s.pushCasTail C t op value x false) := by
    simp only [State.stepThread, hpc]
  refine ⟨_, hstep, ?_⟩
  have hk := hi.knows t
  rw [hpc] at hk
  obtain ⟨g', hp⟩ := hi.pushCasTail hl hpc hnear false
  have hnew := hp.inv
  unfold State.pushCasTail at hnew ⊢
  rw [if_pos ⟨he, rfl⟩, hk.1.1, enc_succ hl] at hnew ⊢
  exact hnew.returns_pushWrite hl (setPc_self _ t _)

theorem Inv.returns_forceCasHead (hl : Layout w C) (hi : Inv C s g) {value : V} {x : Loaded w}
    (hpc : s.pc t = .forceCasHead value x) (hnear : s.tails < x.count + (laps w C - 1) * C)
    (he : s.head = x.stamp - oneLap w C) : ∃ s', s.stepThread C t false = some s' ∧ Returns C t fails s' := by
  have hstep : s.stepThread C t false = some (s.forceCasHead C t value x false) := by
    simp only [State.stepThread, hpc]
  refine ⟨_, hstep, ?_⟩
  have hk := hi.knows t
  rw [hpc] at hk
  obtain ⟨g', hp⟩ := hi.forceCasHead hl hpc hnear false
  have hnew := hp.inv
  have hhit : s.forceCasHead C t value x false = State.setPc { s with
      head := Stamp.enc w (lapBits C) C (x.count + 1) - oneLap w C, heads := s.heads + 1 } t (.forceStoreTail value x) := by
    unfold State.forceCasHead
    rw [hk.1.1, enc_succ hl]
    simp [he, hk.1.1]
  rw [hhit] at hnew ⊢
  exact hnew.returns_forceStoreTail hl (setPc_self _ t _)

theorem forceCasHead_miss (hl : Layout w C) {value : V} {x : Loaded w} {n : Nat} (hx : x.upTo C n) {b : Bool}
    (h : ¬ (s.head = x.stamp - oneLap w C ∧ b = false)) :
    s.forceCasHead C t value x b = s.setPc t (.pushLoadTail .forcePush value) := by
  unfold State.forceCasHead
  rw [hx.1, enc_succ hl]
  rw [hx.1] at h
  exact if_neg h

theorem pushLoadStamp_free (hl : Layout w C) (hi : Inv C s g) {op : PushOp} {value : V} {x : Loaded w}
    (hx : x.upTo C s.tails) (hc : g.cell (x.count % C) = .free x.count) :
    s.pushLoadStamp C t op value x = s.setPc t (.pushCasTail op value x) := by
  have hlt := Nat.mod_lt x.count hl.pos
  unfold State.pushLoadStamp
  rw [hi.slot hl hx, hc, hx.1, enc_succ hl]
  simp only [enc_index hl, if_pos hlt, Cell.stamp, if_true]

theorem pushLoadStamp_full (hl : Layout w C) (hi : Inv C s g) {op : PushOp} {value : V} {x : Loaded w} {p : Nat}
    (hx : x.upTo C s.tails) (hc : g.cell (x.count % C) = .full p) (hp : p + C = x.count) :
    s.pushLoadStamp C t op value x = s.setPc t (op.full value x) := by
  have hlt := Nat.mod_lt x.count hl.pos
  have hplace : p % C = x.count % C := by rw [← hp, Nat.add_mod_right]
  have hne := (Stamp.enc_add_one_ne hl.stamp hplace).symm
  have hlap : Stamp.enc w (lapBits C) C p + 1 + oneLap w C = Stamp.enc w (lapBits C) C x.count + 1 := by
    rw [BitVec.add_assoc, BitVec.add_comm 1, ← BitVec.add_assoc, oneLap, Stamp.enc_add_lap hl.stamp, hp]
  unfold State.pushLoadStamp
  rw [hi.slot hl hx, hc, hx.1, enc_succ hl, enc_add_one hl]
  simp only [enc_index hl, if_pos hlt, Cell.stamp, if_neg hne, hlap, if_true]

theorem Inv.returns_pushLoadHead {value : V} {x : Loaded w} (hpc : s.pc t = .pushLoadHead value x)
    (h : s.head + oneLap w C ≠ x.stamp → Returns C t fails (s.setPc t (.pushLoadTail .push value))) :
    Returns C t fails s := by
  have hstep : s.stepThread C t false = some (s.pushLoadHead C t value x) := by
    simp only [State.stepThread, hpc]
  refine .step hpc rfl hstep ?_
  unfold State.pushLoadHead
  split
  · exact .done (setPc_self _ t _)
  · exact h ‹_›

theorem Inv.returns_forceCas (hl : Layout w C) (hi : Inv C s g) {value : V} {x : Loaded w}
    (hpc : s.pc t = .forceCasHead value x) (hnear : s.tails < x.count + (laps w C - 1) * C)
    (h : ∀ k, (fails = k + 1 ∨ fails = k ∧ s.head ≠ x.stamp - oneLap w C) →
      Returns C t k (s.setPc t (.pushLoadTail .forcePush value))) : Returns C t fails s := by
  have hx : x.upTo C s.tails := by
    have hk := hi.knows t
    rw [hpc] at hk
    exact hk.1
  have hstep : ∀ b, s.stepThread C t b = some (s.forceCasHead C t value x b) := by
    intro b
    simp only [State.stepThread, hpc]
  refine .cas hpc rfl ?_ ?_
  · intro k hk
    refine ⟨_, hstep true, ?_⟩
    rw [forceCasHead_miss hl hx (by simp)]
    exact h k (.inl hk)
  · intro h0
    by_cases he : s.head = x.stamp - oneLap w C
    · exact hi.returns_forceCasHead hl hpc hnear he
    · refine ⟨_, hstep false, ?_⟩
      rw [forceCasHead_miss hl hx (by simp [he])]
      exact h 0 (.inr ⟨h0, he⟩)

theorem Inv.returns_pushCas (hl : Layout w C) (hi : Inv C s g) {op : PushOp} {value : V} {x : Loaded w}
    (hpc : s.pc t = .pushCasTail op value x) (hnear : s.tails < x.count + (laps w C - 1) * C)
    (h : ∀ k, (fails = k + 1 ∨ fails = k ∧ s.tail ≠ x.stamp) →
      Returns C t k (s.setPc t (.pushLoadStamp op value s.loadTail))) : Returns C t fails s := by
  have hmiss : ∀ b, ¬ (s.tail = x.stamp ∧ b = false) →
      s.stepThread C t b = some (s.setPc t (.pushLoadStamp op value s.loadTail)) := by
    intro b hb
    simp only [State.stepThread, hpc, State.pushCasTail, if_neg hb]
  refine .cas hpc rfl ?_ ?_
  · intro k hk
    exact ⟨_, hmiss true (by simp), h k (.inl hk)⟩
  · intro h0
    by_cases he : s.tail = x.stamp
    · exact hi.returns_pushCasTail hl hpc hnear he
    · exact ⟨_, hmiss false (by simp [he]), h 0 (.inr ⟨h0, he⟩)⟩

theorem returns_pushLoadTail {op : PushOp} {value : V} (hpc : s.pc t = .pushLoadTail op value)
    (h : Returns C t fails (s.setPc t (.pushLoadStamp op value s.loadTail))) : Returns C t fails s := by
  have hstep : s.stepThread C t false = some (s.setPc t (.pushLoadStamp op value s.loadTail)) := by
    simp only [State.stepThread, hpc]
  exact .step hpc rfl hstep h

/-- A push that has just loaded `tail`, with a slot that nobody has claimed; `hagain` is the
next round, after a spurious failure. -/
theorem Inv.returns_pushLoadStamp_of (hl : Layout w C) (hi : Inv C s g) (ho : (g.cell (s.tails % C)).owner = none)
    {op : PushOp} {value : V} (hpc : s.pc t = .pushLoadStamp op value s.loadTail)
    (hagain : ∀ k, fails = k + 1 → ∀ s : State w V, Inv C s g → (g.cell (s.tails % C)).owner = none →
      s.pc t = .pushLoadStamp op value s.loadTail → Returns C t k s) : Returns C t fails s := by
  have hstep : s.stepThread C t false = some (s.pushLoadStamp C t op value s.loadTail) := by
    simp only [State.stepThread, hpc]
  refine .step hpc rfl hstep ?_
  have hnew := (hi.pushLoadStamp hl hpc (lt_add_laps hl _)).inv
  rcases (hi.ok hl s.tails).tail_cases rfl hi.room ho with ⟨hc, _⟩ | ⟨hc, hT⟩
  · rw [pushLoadStamp_free hl hi hi.loadTail hc] at hnew ⊢
    refine hnew.returns_pushCas hl (setPc_self s t _) (lt_add_laps hl _) ?_
    intro k hk
    rcases hk with hk | ⟨_, hne⟩
    · refine hagain k hk _ ?_ ho (setPc_self _ t _)
      exact hnew.move rfl ⟨rfl, rfl, rfl, rfl, rfl⟩ rfl hi.loadTail
    · exact absurd rfl hne
  · rw [pushLoadStamp_full hl hi hi.loadTail hc hT.symm] at hnew ⊢
    cases op with
    | push =>
      refine Inv.returns_pushLoadHead (setPc_self s t _) ?_
      intro hne
      refine absurd ?_ hne
      show s.head + oneLap w C = s.tail
      rw [hi.head, hi.tail, oneLap, Stamp.enc_add_lap hl.stamp, hT]
    | forcePush =>
      refine hnew.returns_forceCas hl (setPc_self s t _) (lt_add_laps hl _) ?_
      intro k hk
      rcases hk with hk | ⟨_, hne⟩
      · refine returns_pushLoadTail (setPc_self _ t _) (hagain k hk _ ?_ ho (setPc_self _ t _))
        have hload : Inv C ((s.setPc t (PushOp.forcePush.full value s.loadTail)).setPc t
            (.pushLoadTail .forcePush value)) g := hnew.move rfl ⟨rfl, rfl, rfl, rfl, rfl⟩ rfl trivial
        exact hload.move rfl ⟨rfl, rfl, rfl, rfl, rfl⟩ rfl hi.loadTail
      · refine absurd ?_ hne
        show s.head = s.tail - oneLap w C
        rw [hi.head, hi.tail, hT, oneLap, ← Stamp.enc_add_lap hl.stamp, BitVec.add_sub_cancel]

theorem Inv.returns_pushLoadStamp (hl : Layout w C) (hi : Inv C s g) (ho : (g.cell (s.tails % C)).owner = none)
    {op : PushOp} {value : V} (hpc : s.pc t = .pushLoadStamp op value s.loadTail) : Returns C t fails s := by
  induction fails generalizing s with
  | zero => exact hi.returns_pushLoadStamp_of hl ho hpc nofun
  | succ k ih =>
    refine hi.returns_pushLoadStamp_of hl ho hpc ?_
    intro j hj s hi ho hpc
    cases hj
    exact ih hi ho hpc

theorem Inv.returns_pushAgain (hl : Layout w C) (hi : Inv C s g) (ho : (g.cell (s.tails % C)).owner = none)
    {op : PushOp} {value : V} : Returns C t fails (s.setPc t (.pushLoadStamp op value s.loadTail)) := by
  have hnew : Inv C (s.setPc t (.pushLoadStamp op value s.loadTail)) g :=
    hi.move rfl ⟨rfl, rfl, rfl, rfl, rfl⟩ rfl hi.loadTail
  exact hnew.returns_pushLoadStamp hl ho (setPc_self _ t _)

theorem Inv.returns_pushReload (hl : Layout w C) (hi : Inv C s g) (ho : (g.cell (s.tails % C)).owner = none)
    {op : PushOp} {value : V} : Returns C t fails (s.setPc t (.pushLoadTail op value)) := by
  have hnew : Inv C (s.setPc t (.pushLoadTail op value)) g := hi.move rfl ⟨rfl, rfl, rfl, rfl, rfl⟩ rfl trivial
  exact returns_pushLoadTail (setPc_self _ t _) (hnew.returns_pushAgain hl ho)

theorem pushLoadStamp_cases (hl : Layout w C) {op : PushOp} {value : V} {x : Loaded w} {n : Nat} (hx : x.upTo C n) :
    s.pushLoadStamp C t op value x = s.setPc t (.pushCasTail op value x) ∨
      s.pushLoadStamp C t op value x = s.setPc t (op.full value x) ∨
      s.pushLoadStamp C t op value x = s.setPc t (.pushLoadTail op value) := by
  have hlt := Nat.mod_lt x.count hl.pos
  unfold State.pushLoadStamp
  rw [hx.1, enc_succ hl, enc_index hl]
  simp only [if_pos hlt]
  split
  · exact .inl rfl
  · rw [enc_add_one hl]
    simp only
    split
    · exact .inr (.inl rfl)
    · exact .inr (.inr rfl)

theorem Inv.returns_pushing (hl : Layout w C) (hi : Inv C s g) (ho : (g.cell (s.tails % C)).owner = none)
    (hp : (s.pc t).pushing = true) (hr : (s.pc t).recent (laps w C - 1) C s.heads s.tails = true) :
    Returns C t fails s := by
  cases hpc : s.pc t with
  | pushLoadTail op value => exact returns_pushLoadTail hpc (hi.returns_pushAgain hl ho)
  | pushLoadStamp op value x =>
    rw [hpc] at hr
    have hnear := of_decide_eq_true hr
    have hx : x.upTo C s.tails := by
      have hk := hi.knows t
      rw [hpc] at hk
      exact hk
    have hstep : s.stepThread C t false = some (s.pushLoadStamp C t op value x) := by
      simp only [State.stepThread, hpc]
    refine .step hpc rfl hstep ?_
    have hnew := (hi.pushLoadStamp hl hpc hnear).inv
    rcases pushLoadStamp_cases hl hx with e | e | e
    · rw [e] at hnew ⊢
      exact hnew.returns_pushCas hl (setPc_self _ t _) hnear fun _ _ => hnew.returns_pushAgain hl ho
    · rw [e] at hnew ⊢
      cases op with
      | push => exact Inv.returns_pushLoadHead (setPc_self s t _) fun _ => hnew.returns_pushReload hl ho
      | forcePush =>
        exact hnew.returns_forceCas hl (setPc_self s t _) hnear fun _ _ => hnew.returns_pushReload hl ho
    · rw [e] at hnew ⊢
      exact returns_pushLoadTail (setPc_self s t _) (hnew.returns_pushAgain hl ho)
  | pushCasTail op value x =>
    rw [hpc] at hr
    exact hi.returns_pushCas hl hpc (of_decide_eq_true hr) fun _ _ => hi.returns_pushAgain hl ho
  | pushLoadHead value x => exact Inv.returns_pushLoadHead hpc fun _ => hi.returns_pushReload hl ho
  | forceCasHead value x =>
    rw [hpc] at hr
    exact hi.returns_forceCas hl hpc (of_decide_eq_true hr) fun _ _ => hi.returns_pushReload hl ho
  | _ => rw [hpc] at hp; cases hp

/-! ## A claimed slot -/

theorem not_returns {I : State w V → Prop} (hdone : ∀ s r, I s → s.pc t ≠ .done r)
    (hstep : ∀ s b s', I s → s.stepThread C t b = some s' → I s') (h : I s) : ¬ Returns C t fails s := by
  rintro ⟨n, r, s', hn⟩
  induction n generalizing s fails with
  | zero => cases hn
  | succ n ih =>
    unfold State.complete at hn
    split at hn
    · rename_i r' hd
      exact hdone s r' h hd
    · obtain ⟨s₁, hs₁, hn⟩ := Option.bind_eq_some_iff.mp hn
      exact ih (hstep s _ s₁ h hs₁) hn

theorem Inv.spins_popping (hl : Layout w C) (hi : Inv C s g) (ho : (g.cell (s.heads % C)).owner ≠ none)
    (hp : (s.pc t).popping = true) (hr : (s.pc t).recent (laps w C - 1) C s.heads s.tails = true) {b : Bool}
    (h : s.stepThread C t b = some s') :
    s'.heads = s.heads ∧ Inv C s' g ∧ (s'.pc t).popping = true ∧
      (s'.pc t).recent (laps w C - 1) C s'.heads s'.tails = true := by
  have hgo : ∀ q : Pc w V, q.popping = true → q.cell C t = none → q.Knows C s.heads s.tails g →
      q.recent (laps w C - 1) C s.heads s.tails = true → s' = s.setPc t q →
      s'.heads = s.heads ∧ Inv C s' g ∧ (s'.pc t).popping = true ∧
        (s'.pc t).recent (laps w C - 1) C s'.heads s'.tails = true := by
    intro q hq hc hk hr e
    subst e
    refine ⟨rfl, hi.move rfl ⟨rfl, rfl, rfl, rfl, rfl⟩ hc hk, ?_, ?_⟩
    · rw [setPc_self]; exact hq
    · rw [setPc_self]; exact hr
  have hfresh : (Pc.popLoadStamp s.loadHead : Pc w V).recent (laps w C - 1) C s.heads s.tails = true :=
    decide_eq_true (lt_add_laps hl _)
  have hk := hi.knows t
  unfold State.stepThread at h
  cases hpc : s.pc t with
  | popLoadHead =>
    rw [hpc] at h; cases h
    exact hgo (.popLoadStamp s.loadHead) rfl rfl hi.loadHead hfresh rfl
  | popLoadStamp x =>
    rw [hpc] at h hk hr; cases h
    have hx : x.upTo C s.heads := hk
    have hnew := (hi.popLoadStamp hl hpc).inv.knows t
    rcases popLoadStamp_cases hl hx with e | e | e
    · rw [e, setPc_self] at hnew
      exact hgo _ rfl rfl hnew hr e
    · rw [e, setPc_self] at hnew
      exact hgo _ rfl rfl hnew hr e
    · exact hgo .popLoadHead rfl rfl trivial rfl e
  | popCasHead x =>
    rw [hpc] at h hk hr; cases h
    have hx : x.upTo C s.heads := hk.1
    refine hgo (.popLoadStamp s.loadHead) rfl rfl hi.loadHead hfresh (popCasHead_miss hl hx ?_)
    rintro ⟨he, _⟩
    have hfull := (hi.popCas_full hl hx hk.2 (of_decide_eq_true hr) he).2
    rw [hfull] at ho
    exact ho rfl
  | popLoadTail x =>
    rw [hpc] at h hk hr; cases h
    refine hgo .popLoadHead rfl rfl trivial rfl (if_neg ?_)
    intro he
    obtain ⟨hT, hfree⟩ := hi.popTail_free hl hk.1 hk.2 (of_decide_eq_true hr) he
    rw [← hT, hfree] at ho
    exact ho rfl
  | _ => rw [hpc] at hp; cases hp

theorem Inv.spins_pushing (hl : Layout w C) (hi : Inv C s g) (ho : (g.cell (s.tails % C)).owner ≠ none)
    (hp : (s.pc t).pushing = true) (hr : (s.pc t).recent (laps w C - 1) C s.heads s.tails = true) {b : Bool}
    (h : s.stepThread C t b = some s') :
    s'.tails = s.tails ∧ Inv C s' g ∧ (s'.pc t).pushing = true ∧
      (s'.pc t).recent (laps w C - 1) C s'.heads s'.tails = true := by
  have hgo : ∀ q : Pc w V, q.pushing = true → q.cell C t = none → q.Knows C s.heads s.tails g →
      q.recent (laps w C - 1) C s.heads s.tails = true → s' = s.setPc t q →
      s'.tails = s.tails ∧ Inv C s' g ∧ (s'.pc t).pushing = true ∧
        (s'.pc t).recent (laps w C - 1) C s'.heads s'.tails = true := by
    intro q hq hc hk hr e
    subst e
    refine ⟨rfl, hi.move rfl ⟨rfl, rfl, rfl, rfl, rfl⟩ hc hk, ?_, ?_⟩
    · rw [setPc_self]; exact hq
    · rw [setPc_self]; exact hr
  have hfresh : ∀ op value, (Pc.pushLoadStamp op value s.loadTail : Pc w V).recent (laps w C - 1) C s.heads s.tails = true :=
    fun _ _ => decide_eq_true (lt_add_laps hl _)
  -- `head` does not lag behind: the slot would be full
  have hlag : ∀ x : Loaded w, x.upTo C s.tails → 2 * (x.count - C) + 1 ≤ (g.cell (x.count % C)).phase →
      s.tails < x.count + (laps w C - 1) * C → s.head + oneLap w C ≠ x.stamp := by
    intro x hx hphase hnear e
    obtain ⟨hH, hT⟩ := hi.lag hl hx hnear e
    have hfull := hi.lag_full hl hphase hH
    rw [hT, ← hH, Nat.add_mod_right, hfull] at ho
    exact ho rfl
  have hk := hi.knows t
  unfold State.stepThread at h
  cases hpc : s.pc t with
  | pushLoadTail op value =>
    rw [hpc] at h; cases h
    exact hgo (.pushLoadStamp op value s.loadTail) rfl rfl hi.loadTail (hfresh op value) rfl
  | pushLoadStamp op value x =>
    rw [hpc] at h hk hr; cases h
    have hx : x.upTo C s.tails := hk
    have hnew := (hi.pushLoadStamp hl hpc (of_decide_eq_true hr)).inv.knows t
    rcases pushLoadStamp_cases hl hx with e | e | e
    · rw [e, setPc_self] at hnew
      exact hgo _ rfl rfl hnew hr e
    · rw [e, setPc_self] at hnew
      cases op with
      | push => exact hgo (.pushLoadHead value x) rfl rfl hnew hr e
      | forcePush => exact hgo (.forceCasHead value x) rfl rfl hnew hr e
    · exact hgo (.pushLoadTail op value) rfl rfl trivial rfl e
  | pushCasTail op value x =>
    rw [hpc] at h hk hr; cases h
    refine hgo (.pushLoadStamp op value s.loadTail) rfl rfl hi.loadTail (hfresh op value) (if_neg ?_)
    rintro ⟨he, _⟩
    have hfree := (hi.pushCas_free hl hk.1 hk.2 (of_decide_eq_true hr) he).2
    rw [hfree] at ho
    exact ho rfl
  | pushLoadHead value x =>
    rw [hpc] at h hk hr; cases h
    exact hgo (.pushLoadTail .push value) rfl rfl trivial rfl (if_neg (hlag x hk.1 hk.2.2 (of_decide_eq_true hr)))
  | forceCasHead value x =>
    rw [hpc] at h hk hr; cases h
    refine hgo (.pushLoadTail .forcePush value) rfl rfl trivial rfl (forceCasHead_miss hl hk.1 ?_)
    rintro ⟨he, _⟩
    refine hlag x hk.1 hk.2.2 (of_decide_eq_true hr) ?_
    rw [he, BitVec.sub_add_cancel]
  | _ => rw [hpc] at hp; cases hp

/-! ## Who has claimed a slot -/

theorem Pc.claimed_cell (hl : Layout w C) {p : Pc w V} {H T : Nat} (hk : p.Knows C H T g) :
    p.claimed C = (p.cell C t).map fun c => c.next C % C := by
  have hidx : ∀ {x : Loaded w} {n : Nat}, x.upTo C n → (index C x.stamp).toNat = x.count % C := by
    intro x n hx
    rw [hx.1, enc_index hl]
  have hput : ∀ {x : Loaded w} {n : Nat}, x.upTo C n → C ≤ x.count →
      (index C x.stamp).toNat = (x.count - C + C + C) % C := by
    intro x n hx hC
    rw [hidx hx, Nat.sub_add_cancel hC, Nat.add_mod_right]
  cases p with
  | pushWrite op value x => exact congrArg some ((hidx hk.1).trans (Nat.add_mod_right _ _).symm)
  | pushStoreStamp op x =>
    have hx : x.upTo C T := hk
    exact congrArg some ((hidx hx).trans (Nat.add_mod_right _ _).symm)
  | forceStoreTail value x =>
    refine congrArg some ((hput hk.1 hk.2.1).trans ?_)
    exact Nat.add_mod_right _ _
  | forceReplace value x => exact congrArg some (hput hk.1 hk.2.1)
  | forceStoreStamp old x => exact congrArg some (hput hk.1 hk.2.1)
  | popRead x => exact congrArg some ((hidx hk.1).trans (Nat.add_mod_right _ _).symm)
  | popStoreStamp msg x => exact congrArg some ((hidx hk.1).trans (Nat.add_mod_right _ _).symm)
  | _ => rfl

theorem Inv.unclaimed_iff (hl : Layout w C) (hi : Inv C s g) (ho : Owned C s g) (n : Nat) :
    (∀ u, (s.pc u).claimed C ≠ some (n % C)) ↔ (g.cell (n % C)).owner = none := by
  have hlt := Nat.mod_lt n hl.pos
  constructor
  · intro h
    cases hc : (g.cell (n % C)).owner with
    | none => rfl
    | some u =>
      refine absurd ?_ (h u)
      rw [Pc.claimed_cell (t := u) hl (hi.knows u), ho _ hlt u hc]
      exact congrArg some (hi.cells _ hlt).place
  · intro h u hu
    rw [Pc.claimed_cell (t := u) hl (hi.knows u)] at hu
    obtain ⟨c, hc, e⟩ := Option.map_eq_some_iff.mp hu
    have hg := hi.claims u c hc
    rw [e] at hg
    rw [hg, Pc.cell_owner hc] at h
    cases h

end

end RefCount.ArrayQueue
