import RefCount.Blocking

/-!
# What `len`, `is_empty` and `is_full` report

They load `head` and `tail` one after the other, so what they return is about a moment of
their call, if about any. A `force_push` on a full queue moves `head` before `tail`; between
the two the queue seems to hold one value less than it does, and `head` and `tail` move
although it stays full.
-/

namespace RefCount.ArrayQueue

open Lts

section
variable {w : Nat} {V : Type} (C : Nat)

def Pc.evicting : Pc w V → Bool
  | .forceStoreTail _ _ => true
  | _ => false

/-- A `force_push` has moved `head`, and not yet `tail`. -/
def Evicting (s : State w V) : Prop := ∃ t, (s.pc t).evicting = true

/-- The queue holds `n` values; that of an eviction is one of them from the CAS on. -/
def Holds (n : Nat) (s : State w V) : Prop :=
  Evicting s ∧ s.heads + n = s.tails + 1 ∨ ¬ Evicting s ∧ s.heads + n = s.tails

/-- What the result of a call says about the number of values, where `At n` is that there were
`n` of them at some moment. -/
def Reported (At : Nat → Prop) : Call V → Res V → Prop
  | .op _, _ => True
  | .isEmpty, .bool true => At 0
  | .isEmpty, .bool false => ∃ n, 0 < n ∧ At n
  | .isFull, .bool true => At C
  | .isFull, .bool false => ∃ n, n < C ∧ At n
  | .len, .size n => n ≤ C ∧ At n
  | _, _ => False

/-- The step is not one of those that mislead an observer of thread `t`: its load of `head` in
`is_empty` or `len`, or of `tail` in `is_full`, between the moves of `head` and `tail` of an
eviction, or the first of these moves between its loads of `tail` and `head` in `is_full`. -/
def Settled (t : Tid) (s : State w V) : Act V → Prop
  | .call _ _ => True
  | .step u spurious =>
    match s.pc u with
    | .isEmptyLoadHead => u = t → ¬ Evicting s
    | .isFullLoadTail => u = t → ¬ Evicting s
    | .lenLoadHead _ => u = t → ¬ Evicting s
    | .forceCasHead _ tail =>
      s.head = tail.stamp - oneLap w C ∧ spurious = false → ∀ y, s.pc t ≠ .isFullLoadHead y
    | _ => True

/-- What an observer knows, if `At n` says that there were `n` values at some moment of its
call, which began with the counts `H` and `T`. -/
def Pc.Watches (At : Nat → Prop) (H T : Nat) (s : State w V) : Call V → Pc w V → Prop
  | .op _, _ => True
  | .isEmpty, .isEmptyLoadHead => True
  | .isEmpty, .isEmptyLoadTail head => ∃ p, head = Stamp.enc w (lapBits C) C p ∧ H ≤ p ∧ p ≤ s.heads ∧
    (s.tails = p → At 0) ∧ (s.tails ≠ p → ∃ n, 0 < n ∧ At n)
  | .isFull, .isFullLoadTail => True
  | .isFull, .isFullLoadHead tail => ∃ q, tail = Stamp.enc w (lapBits C) C q ∧ H ≤ q ∧ q ≤ s.tails ∧ ¬ Evicting s ∧
    (s.heads + C = q → At C) ∧ (s.heads + C ≠ q → ∃ n, n < C ∧ At n)
  | .len, .lenLoadTail => True
  | .len, .lenLoadHead tail => ∃ q, tail = Stamp.enc w (lapBits C) C q ∧ T ≤ q ∧ q ≤ s.tails
  | .len, .lenLoadTailAgain tail head => ∃ q p, tail = Stamp.enc w (lapBits C) C q ∧
    head = Stamp.enc w (lapBits C) C p ∧ T ≤ q ∧ q ≤ s.tails ∧ (s.tails = q → p ≤ q ∧ q ≤ p + C ∧ At (q - p))
  | c, .done r => Reported C At c r
  | _, _ => False

end

section
variable {w C : Nat} {V : Type} {s s' : State w V} {g : Ghost V} {t u : Tid} {At : Nat → Prop} {H T : Nat}

theorem not_evicting_setPc {q : Pc w V} (hq : q.evicting = false) (h : Evicting (s.setPc t q)) : Evicting s := by
  obtain ⟨u, hu⟩ := h
  by_cases e : u = t
  · subst e
    rw [setPc_self, hq] at hu
    cases hu
  · rw [setPc_others s t q u e] at hu
    exact ⟨u, hu⟩

/-- How a step moves the counts: at most one of them, by one; and an eviction begins by a CAS on
`head` that succeeds. -/
structure Moves (C : Nat) (s s' : State w V) (t : Tid) (spurious : Bool) : Prop where
  counts : s'.heads = s.heads ∧ s'.tails = s.tails ∨ s'.heads = s.heads + 1 ∧ s'.tails = s.tails ∨
    s'.heads = s.heads ∧ s'.tails = s.tails + 1
  begins : Evicting s' → Evicting s ∨
    ∃ value x, s.pc t = .forceCasHead value x ∧ s.head = x.stamp - oneLap w C ∧ spurious = false
  others : ∀ u, u ≠ t → s'.pc u = s.pc u

theorem Jump.not_evicting {p q : Pc w V} (hj : Jump s p q) : q.evicting = false := by
  cases hj with
  | @pushFull op => cases op <;> rfl
  | _ => rfl

theorem Evicting.of_update {q : Pc w V} (hpc : s'.pc = Function.update s.pc t q) (hq : q.evicting = false)
    (he : Evicting s') : Evicting s := by
  obtain ⟨u, hu⟩ := he
  rw [hpc] at hu
  exact not_evicting_setPc hq ⟨u, hu⟩

theorem stepThread_moves {b : Bool} (h : s.stepThread C t b = some s') : Moves C s s' t b := by
  have hothers : ∀ {q : Pc w V}, s'.pc = Function.update s.pc t q → ∀ u, u ≠ t → s'.pc u = s.pc u := by
    intro q hpc u hu
    rw [hpc, Function.update_of_ne hu]
  cases stepThread_moved h with
  | jump hj hpc hH hT _ =>
    exact ⟨.inl ⟨hH, hT⟩, fun he => .inl (he.of_update hpc hj.not_evicting), hothers hpc⟩
  | head hm hpc hH hT _ =>
    refine ⟨.inr (.inl ⟨hH, hT⟩), fun he => ?_, hothers hpc⟩
    generalize hp : s.pc t = p at hm
    cases hm with
    | force hcas => exact .inr ⟨_, _, rfl, hcas⟩
    | pop => exact .inl (he.of_update hpc rfl)
  | tail hm hpc hH hT _ =>
    refine ⟨.inr (.inr ⟨hH, hT⟩), fun he => .inl ?_, hothers hpc⟩
    generalize s.pc t = p at hm
    cases hm <;> exact he.of_update hpc rfl
  | ret hpc hH hT _ => exact ⟨.inl ⟨hH, hT⟩, fun he => .inl (he.of_update hpc rfl), hothers hpc⟩

/-! ## The number of values -/

theorem exists_holds (hle : s.heads ≤ s.tails) : ∃ n, s.tails - s.heads ≤ n ∧ Holds n s := by
  by_cases he : Evicting s
  · exact ⟨s.tails + 1 - s.heads, by omega, .inl ⟨he, by omega⟩⟩
  · exact ⟨s.tails - s.heads, Nat.le_refl _, .inr ⟨he, by omega⟩⟩

theorem holds_of_not_evicting {n : Nat} (he : ¬ Evicting s) (hn : s.heads + n = s.tails) : Holds n s :=
  .inr ⟨he, hn⟩

theorem Holds.unique {n m : Nat} (hn : Holds n s) (hm : Holds m s) : n = m := by
  rcases hn with ⟨he, hn⟩ | ⟨he, hn⟩
  · rcases hm with ⟨_, hm⟩ | ⟨he', _⟩
    · omega
    · exact absurd he he'
  · rcases hm with ⟨he', _⟩ | ⟨_, hm⟩
    · exact absurd he' he
    · omega

theorem Inv.evicting_iff (hl : Layout w C) (hi : Inv C s g) (ho : Owned C s g) :
    Evicting s ↔ (g.cell (s.tails % C)).isEvicting = true := by
  have hlt := Nat.mod_lt s.tails hl.pos
  constructor
  · rintro ⟨t, ht⟩
    cases hpc : s.pc t with
    | forceStoreTail value x =>
      have hcell := hi.claims t (.evicting (x.count - C) t) (by rw [hpc]; rfl)
      have hmod := Nat.mod_lt (Cell.next C (.evicting (x.count - C) t)) hl.pos
      have hturn := (hi.cells _ hmod).turn
      rw [hcell] at hturn
      rw [hturn.2]
      show (g.cell (Cell.next C (.evicting (x.count - C) t) % C)).isEvicting = true
      rw [hcell]
      rfl
    | _ => rw [hpc] at ht; cases ht
  · intro h
    cases hc : g.cell (s.tails % C) with
    | evicting p u =>
      have hcell := ho _ hlt u (by rw [hc]; rfl)
      rw [hc] at hcell
      refine ⟨u, ?_⟩
      cases hpc : s.pc u with
      | forceStoreTail value x => rfl
      | _ => rw [hpc] at hcell; cases hcell
    | _ => rw [hc] at h; cases h

/-- The number of values is that of the list which the queue stands for. -/
theorem Inv.holds_iff (hl : Layout w C) (hi : Inv C s g) (ho : Owned C s g) {n : Nat} :
    Holds n s ↔ (held s g).length = n := by
  have hlen := hi.length
  have hle := hi.le
  have hev := hi.evicting_iff hl ho
  unfold held Holds
  rw [List.length_drop, hlen, hev]
  cases (g.cell (s.tails % C)).isEvicting with
  | true => simp; omega
  | false => simp; omega

/-- In every state of a run, as many values are held as are in the queue of which it has the
history, and whose operations take effect at once. -/
theorem holds_atomic (hl : Layout w C) (as : List (Act V))
    (h : AllSteps (exec C) (fun s a _ => Near (laps w C - 1) C s a) (State.new w V) as) :
    AllStates (exec C) (fun s => ∃ a,
      Relation.ReflTransGen (Linear.Atomic.Step (Fifo.object C)) (Linear.Atomic.new (Fifo.object C)) a ∧
      a.hist = s.hist ∧ ∀ n, Holds n s ↔ a.object.length = n) (State.new w V) as := by
  have hi : AllStates (exec C) (fun s => ∃ g a, Relation.ReflTransGen (Linear.Atomic.Step (Fifo.object C))
      (Linear.Atomic.new (Fifo.object C)) a ∧ Sim C s g a ∧ Owned C s g) (State.new w V) as := by
    refine AllSteps.inv _ ?_ ⟨_, _, .refl, Sim.new, Owned.new⟩ h
    rintro s x s' ⟨g, a, ha, hs, ho⟩ hn hst
    obtain ⟨t, g', hp⟩ := exec_progress hl hs.inv hn hst
    obtain ⟨a', ha', hs'⟩ := hs.step hp
    exact ⟨g', a', ha.trans ha', hs', hp.owned ho⟩
  apply hi.imp
  rintro s ⟨g, a, ha, hs, ho⟩
  refine ⟨a, ha, hs.hist, fun n => ?_⟩
  rw [hs.inv.holds_iff hl ho, hs.object]

/-! ## One step -/

theorem Pc.Watches.frame (hC : 0 < C) {g' : Ghost V} (hi : Inv C s g) (hi' : Inv C s' g')
    (hcounts : s'.heads = s.heads ∧ s'.tails = s.tails ∨ s'.heads = s.heads + 1 ∧ s'.tails = s.tails ∨
      s'.heads = s.heads ∧ s'.tails = s.tails + 1) (hat : ∀ n, Holds n s' → At n) {c : Call V} {p : Pc w V}
    (hfull : ∀ y, p = .isFullLoadHead y → Evicting s' → Evicting s)
    (h : p.Watches C At H T s c) : p.Watches C At H T s' c := by
  have hle := hi.le
  have hroom := hi.room
  have hle' := hi'.le
  cases c with
  | op op => trivial
  | isEmpty =>
    cases p with
    | isEmptyLoadTail head =>
      obtain ⟨p, e, hH, hp, hzero, hpos⟩ := h
      refine ⟨p, e, hH, by omega, fun ht => hzero (by omega), fun ht => ?_⟩
      by_cases heq : s.tails = p
      · -- `tail` has just moved
        obtain ⟨n, hn, hh⟩ := exists_holds hle'
        have hlt : 0 < n := by clear hpos; omega
        exact ⟨n, hlt, hat n hh⟩
      · exact hpos heq
    | _ => exact h
  | isFull =>
    cases p with
    | isFullLoadHead tail =>
      obtain ⟨q, e, hH, hq, hev, heq, hless⟩ := h
      have hev' : ¬ Evicting s' := fun he => hev (hfull tail rfl he)
      refine ⟨q, e, hH, by omega, hev', fun ht => heq (by omega), fun ht => ?_⟩
      by_cases hqC : s.heads + C = q
      · -- `head` has just moved
        have hlen : s'.heads + (C - 1) = s'.tails := by clear hless; omega
        exact ⟨C - 1, Nat.sub_lt hC Nat.one_pos, hat _ (holds_of_not_evicting hev' hlen)⟩
      · exact hless hqC
    | _ => exact h
  | len =>
    cases p with
    | lenLoadHead tail =>
      obtain ⟨q, e, hT, hq⟩ := h
      exact ⟨q, e, hT, by omega⟩
    | lenLoadTailAgain tail head =>
      obtain ⟨q, p, e₁, e₂, hT, hq, hat'⟩ := h
      exact ⟨q, p, e₁, e₂, hT, by omega, fun ht => hat' (by omega)⟩
    | _ => exact h

theorem Settled.load {b : Bool} {q : Pc w V} (hset : (∀ r, (s.setPc t q).pc t ≠ .done r) → Settled C t s (.step t b))
    (hq : ∀ r, q ≠ .done r) : Settled C t s (.step t b) := by
  refine hset fun r hr => ?_
  rw [setPc_self] at hr
  exact hq r hr

theorem Pc.Watches.step_isEmpty (hl : Layout w C) (hi : Inv C s g) (hH : H ≤ s.heads) (htails : s.tails < H + laps w C * C)
    (hat : ∀ n, Holds n s → At n) {b : Bool} (hset : (∀ r, s'.pc t ≠ .done r) → Settled C t s (.step t b))
    (h : (s.pc t).Watches C At H T s .isEmpty) (hst : s.stepThread C t b = some s') :
    (s'.pc t).Watches C At H T s' .isEmpty := by
  have hle := hi.le
  unfold State.stepThread at hst
  cases hpc : s.pc t with
  | isEmptyLoadHead =>
    rw [hpc] at hst; cases hst
    have hset := Settled.load hset fun r hr => by cases hr
    have hev : ¬ Evicting s := by simpa [Settled, hpc] using hset
    rw [setPc_self]
    refine ⟨s.heads, hi.head, hH, Nat.le_refl _, fun ht => ?_, fun ht => ?_⟩
    · exact hat 0 (holds_of_not_evicting hev ht.symm)
    · obtain ⟨n, hn, hh⟩ := exists_holds hle
      have ht : s.tails ≠ s.heads := ht
      exact ⟨n, by omega, hat n hh⟩
  | isEmptyLoadTail head =>
    rw [hpc] at hst h; cases hst
    obtain ⟨p, e, hHp, hp, hzero, hsome⟩ := h
    rw [setPc_self]
    by_cases heq : s.tails = p
    · have ht : s.tail = head := by rw [hi.tail, heq, e]
      rw [decide_eq_true ht]
      exact hzero heq
    · have ht : s.tail ≠ head := by
        rw [hi.tail, e]
        intro hstamp
        have hnear : s.tails < p + laps w C * C := by clear hsome; omega
        exact heq (Stamp.enc_near hl.stamp (Nat.le_trans hp hle) hnear hstamp)
      rw [decide_eq_false ht]
      exact hsome heq
  | done r => rw [hpc] at hst; cases hst
  | _ => rw [hpc] at h; exact h.elim

theorem Pc.Watches.step_isFull (hl : Layout w C) (hi : Inv C s g) (hH : H ≤ s.heads)
    (hheads : s.heads + C < H + laps w C * C) (hat : ∀ n, Holds n s → At n) {b : Bool}
    (hset : (∀ r, s'.pc t ≠ .done r) → Settled C t s (.step t b))
    (h : (s.pc t).Watches C At H T s .isFull) (hst : s.stepThread C t b = some s') :
    (s'.pc t).Watches C At H T s' .isFull := by
  have hle := hi.le
  have hroom := hi.room
  unfold State.stepThread at hst
  cases hpc : s.pc t with
  | isFullLoadTail =>
    rw [hpc] at hst; cases hst
    have hset := Settled.load hset fun r hr => by cases hr
    have hev : ¬ Evicting s := by simpa [Settled, hpc] using hset
    rw [setPc_self]
    refine ⟨s.tails, hi.tail, by omega, Nat.le_refl _, fun he => hev (not_evicting_setPc rfl he), fun ht => ?_, fun ht => ?_⟩
    · exact hat C (holds_of_not_evicting hev ht)
    · have ht : s.heads + C ≠ s.tails := ht
      exact ⟨s.tails - s.heads, by omega, hat _ (holds_of_not_evicting hev (by omega))⟩
  | isFullLoadHead tail =>
    rw [hpc] at hst h; cases hst
    obtain ⟨q, e, hHq, hq, hev, hfull, hless⟩ := h
    rw [setPc_self]
    have hlap : s.head + oneLap w C = Stamp.enc w (lapBits C) C (s.heads + C) := by
      rw [hi.head, oneLap, Stamp.enc_add_lap hl.stamp]
    by_cases heq : s.heads + C = q
    · have ht : s.head + oneLap w C = tail := by rw [hlap, heq, e]
      rw [decide_eq_true ht]
      exact hfull heq
    · have ht : s.head + oneLap w C ≠ tail := by
        rw [hlap, e]
        intro hstamp
        have hnear : s.heads + C < q + laps w C * C := by clear hless; omega
        exact heq (Stamp.enc_near hl.stamp (Nat.le_trans hq hroom) hnear hstamp)
      rw [decide_eq_false ht]
      exact hless heq
  | done r => rw [hpc] at hst; cases hst
  | _ => rw [hpc] at h; exact h.elim

theorem Pc.Watches.step_len (hl : Layout w C) (hi : Inv C s g) (hT : T ≤ s.tails) (htails : s.tails < T + laps w C * C)
    (hat : ∀ n, Holds n s → At n) {b : Bool} (hset : (∀ r, s'.pc t ≠ .done r) → Settled C t s (.step t b))
    (h : (s.pc t).Watches C At H T s .len) (hst : s.stepThread C t b = some s') :
    (s'.pc t).Watches C At H T s' .len := by
  have hle := hi.le
  have hroom := hi.room
  unfold State.stepThread at hst
  cases hpc : s.pc t with
  | lenLoadTail =>
    rw [hpc] at hst; cases hst
    rw [setPc_self]
    exact ⟨s.tails, hi.tail, hT, Nat.le_refl _⟩
  | lenLoadHead tail =>
    rw [hpc] at hst h; cases hst
    have hset := Settled.load hset fun r hr => by cases hr
    have hev : ¬ Evicting s := by simpa [Settled, hpc] using hset
    obtain ⟨q, e, hTq, hq⟩ := h
    rw [setPc_self]
    refine ⟨q, s.heads, e, hi.head, hTq, hq, fun ht => ?_⟩
    have ht : s.tails = q := ht
    exact ⟨by omega, by omega, hat _ (holds_of_not_evicting hev (by omega))⟩
  | lenLoadTailAgain tail head =>
    rw [hpc] at hst h; cases hst
    obtain ⟨q, p, e₁, e₂, hTq, hq, hmoment⟩ := h
    obtain ⟨n, hn, hsize⟩ := queueSize_enc hl p q
    unfold State.lenLoadTailAgain
    rw [e₁, e₂, hn]
    split
    · rename_i hagain
      rw [hi.tail] at hagain
      have hnear : s.tails < q + laps w C * C := by clear hmoment; omega
      obtain ⟨hle, hroom, hat⟩ := hmoment (Stamp.enc_near hl.stamp hq hnear hagain)
      rw [setPc_self, hsize hle hroom]
      exact ⟨by omega, hat⟩
    · rw [setPc_self]
      trivial
  | done r => rw [hpc] at hst; cases hst
  | _ => rw [hpc] at h; exact h.elim

theorem Pc.Watches.step (hl : Layout w C) (hi : Inv C s g) (hH : H ≤ s.heads) (hT : T ≤ s.tails) (hHT : T ≤ H + C)
    (htravel : s.heads < H + (laps w C - 1) * C ∧ s.tails < T + (laps w C - 1) * C)
    (hat : ∀ n, Holds n s → At n) {c : Call V} {b : Bool}
    (hset : (∀ r, s'.pc t ≠ .done r) → Settled C t s (.step t b)) (h : (s.pc t).Watches C At H T s c)
    (hst : s.stepThread C t b = some s') : (s'.pc t).Watches C At H T s' c := by
  have hcycle := laps_cycle w C
  cases c with
  | op op => trivial
  | isEmpty => exact h.step_isEmpty hl hi hH (by omega) hat hset hst
  | isFull => exact h.step_isFull hl hi hH (by omega) hat hset hst
  | len => exact h.step_len hl hi hT (by omega) hat hset hst

/-! ## The call as a whole -/

theorem exec_moves {a : Act V} (ha : ∀ b, a ≠ .step t b) (hc : ∀ c, a ≠ .call t c) (h : exec C s a = some s') :
    (s'.heads = s.heads ∧ s'.tails = s.tails ∨ s'.heads = s.heads + 1 ∧ s'.tails = s.tails ∨
      s'.heads = s.heads ∧ s'.tails = s.tails + 1) ∧ s'.pc t = s.pc t ∧
    (Settled C t s a → ∀ y, s.pc t = .isFullLoadHead y → Evicting s' → Evicting s) := by
  cases a with
  | call u c =>
    have hne : t ≠ u := fun e => hc c (by rw [e])
    simp only [exec] at h
    split at h
    · cases h
      cases c with
      | op op =>
        refine ⟨.inl ⟨rfl, rfl⟩, setPc_others _ u _ t hne, fun _ _ _ he => ?_⟩
        obtain ⟨v, hv⟩ := not_evicting_setPc (by cases op <;> rfl) he
        exact ⟨v, hv⟩
      | _ => exact ⟨.inl ⟨rfl, rfl⟩, setPc_others _ u _ t hne, fun _ _ _ he => not_evicting_setPc rfl he⟩
    · cases h
  | step u b =>
    have hne : t ≠ u := fun e => ha b (by rw [e])
    have hm := stepThread_moves h
    refine ⟨hm.counts, hm.others t hne, fun hset y hy he => ?_⟩
    rcases hm.begins he with he | ⟨value, x, hpc, hcas⟩
    · exact he
    · -- the eviction would begin between the two loads of `is_full`
      simp only [Settled, hpc] at hset
      exact absurd hy (hset hcas y)

theorem Pc.Watches.run (hl : Layout w C) (hHT : T ≤ H + C) {c : Call V} {bs : List (Act V)} {s₂ : State w V}
    (hi : Inv C s g) (hH : H ≤ s.heads) (hT : T ≤ s.tails) (h : (s.pc t).Watches C At H T s c)
    (hcall : ∀ c', .call t c' ∉ bs)
    (hnear : AllSteps (exec C) (fun s a _ => Near (laps w C - 1) C s a) s bs)
    (htravel : AllStates (exec C) (fun s =>
      s.heads < H + (laps w C - 1) * C ∧ s.tails < T + (laps w C - 1) * C) s bs)
    (hset : AllSteps (exec C) (fun s a _ => Settled C t s a) s bs)
    (hat : AllStates (exec C) (fun s => ∀ n, Holds n s → At n) s bs) (hrun : run (exec C) s bs = some s₂) :
    ∃ g₂, Inv C s₂ g₂ ∧ H ≤ s₂.heads ∧ T ≤ s₂.tails ∧ (s₂.pc t).Watches C At H T s₂ c := by
  induction bs generalizing s g with
  | nil =>
    cases hrun
    exact ⟨g, hi, hH, hT, h⟩
  | cons a bs ih =>
    cases hst : exec C s a with
    | none => simp [Lts.run, hst] at hrun
    | some s' =>
      rw [run_cons hst] at hrun
      rw [allSteps_cons hst] at hnear hset
      rw [allStates_cons hst] at htravel hat
      obtain ⟨_, g', hp⟩ := exec_progress hl hi hnear.1 hst
      have hcall' : ∀ c', .call t c' ∉ bs := fun c' hc => hcall c' (List.mem_cons_of_mem a hc)
      by_cases ha : ∃ b, a = .step t b
      · obtain ⟨b, rfl⟩ := ha
        have hmoves := (stepThread_moves hst).counts
        have hw := h.step hl hi hH hT hHT htravel.1 hat.1 (fun _ => hset.1) hst
        exact ih hp.inv (by omega) (by omega) hw hcall' hnear.2 htravel.2 hset.2 hat.2 hrun
      · obtain ⟨hmoves, hpc, hfull⟩ := exec_moves (fun b e => ha ⟨b, e⟩)
          (fun c' e => hcall c' (by rw [e]; exact List.mem_cons_self ..)) hst
        have hw : (s'.pc t).Watches C At H T s' c := by
          rw [hpc]
          exact h.frame hl.pos hi hp.inv hmoves hat.2.head (hfull hset.1)
        exact ih hp.inv (by omega) (by omega) hw hcall' hnear.2 htravel.2 hset.2 hat.2 hrun

/-- What `len`, `is_empty` and `is_full` return is about a moment of their call, if no eviction
misleads them and neither counter goes through a full cycle of stamps less one lap meanwhile. -/
theorem observers_report (hl : Layout w C) {as bs : List (Act V)} {c : Call V} {b : Bool} {s₀ s₁ s₂ s₃ : State w V} {r : Res V}
    (h₀ : run (exec C) (State.new w V) as = some s₀) (h₁ : exec C s₀ (.call t c) = some s₁)
    (h₂ : run (exec C) s₁ bs = some s₂) (h₃ : exec C s₂ (.step t b) = some s₃) (hr : s₃.pc t = .done r)
    (hcall : ∀ c', .call t c' ∉ bs)
    (hnear : AllSteps (exec C) (fun s a _ => Near (laps w C - 1) C s a) (State.new w V) (as ++ .call t c :: bs))
    (htravel : AllStates (exec C) (fun s =>
      s.heads < s₁.heads + (laps w C - 1) * C ∧ s.tails < s₁.tails + (laps w C - 1) * C) s₁ bs)
    (hset : AllSteps (exec C) (fun s a _ => Settled C t s a) s₁ bs) :
    Reported C (fun n => SomeState (exec C) (Holds n) s₁ bs) c r := by
  obtain ⟨g₀, hi₀, _⟩ := (run_inv hl hnear.left).last h₀
  have hnear' := hnear.append h₀
  rw [allSteps_cons h₁] at hnear'
  obtain ⟨_, g₁, hp₁⟩ := exec_progress hl hi₀ hnear'.1 h₁
  have hstart : (s₁.pc t).Watches C (fun n => SomeState (exec C) (Holds n) s₁ bs) s₁.heads s₁.tails s₁ c := by
    simp only [exec] at h₁
    split at h₁
    · cases h₁
      cases c with
      | op op => trivial
      | _ =>
        simp only [State.call, setPc_self]
        trivial
    · cases h₁
  have hat : AllStates (exec C) (fun s => ∀ n, Holds n s → SomeState (exec C) (Holds n) s₁ bs) s₁ bs :=
    allStates_someState Holds bs s₁
  obtain ⟨g₂, hi₂, hH, hT, hw⟩ := hstart.run hl hp₁.inv.room hp₁.inv (Nat.le_refl _) (Nat.le_refl _) hcall hnear'.2
    htravel hset hat h₂
  have hlast := hw.step hl hi₂ hH hT hp₁.inv.room (htravel.last h₂) (hat.last h₂) (fun hne => absurd hr (hne r)) h₃
  rw [hr] at hlast
  cases c with
  | op op => trivial
  | _ => exact hlast

end

/-! ## Fixed schedules -/

/-- One slot, which holds a value; a `force_push` is stopped after it has moved `head`. -/
def halfEvicted : List (Act Nat) := callSteps 0 (.op (.push 10)) 5 ++ callSteps 1 (.op (.forcePush 20)) 3

/-- The queue holds one value all the time, and is full: `len` returns 0, `is_empty` true and
`is_full` false. -/
theorem observers_report_evicting : ∃ s₀, run (exec 1) (State.new 64 Nat) halfEvicted = some s₀ ∧
    ∀ x ∈ [(Call.len, Res.size 0, 2), (.isEmpty, .bool true, 1), (.isFull, .bool false, 1)],
      ∃ s₁ s₂ s₃, exec 1 s₀ (.call 2 x.1) = some s₁ ∧
        run (exec 1) s₁ (List.replicate x.2.2 (.step 2 false)) = some s₂ ∧
        exec 1 s₂ (.step 2 false) = some s₃ ∧ s₃.pc 2 = .done x.2.1 ∧
        ¬ Reported 1 (fun n => SomeState (exec 1) (Holds n) s₁ (List.replicate x.2.2 (.step 2 false))) x.1 x.2.1 := by
  have hone : ∀ {s₁ : State 64 Nat} {n k : Nat},
      SomeState (exec 1) (Holds n) s₁ (List.replicate k (.step 2 false)) →
      AllStates (exec 1) (Holds 1) s₁ (List.replicate k (.step 2 false)) → n = 1 := by
    intro s₁ n k hsome hall
    obtain ⟨u, hn, h1⟩ := hsome.and_all hall
    exact hn.unique h1
  have hev : ∀ {u : State 64 Nat}, u.heads = u.tails → (u.pc 1).evicting = true → Holds 1 u :=
    fun he hpc => .inl ⟨⟨1, hpc⟩, by rw [he]⟩
  refine ⟨_, rfl, ?_⟩
  intro x hx
  simp only [List.mem_cons, List.not_mem_nil, or_false] at hx
  rcases hx with rfl | rfl | rfl
  · refine ⟨_, _, _, rfl, rfl, rfl, rfl, ?_⟩
    rintro ⟨_, h⟩
    cases hone h ⟨hev rfl rfl, hev rfl rfl, hev rfl rfl⟩
  · refine ⟨_, _, _, rfl, rfl, rfl, rfl, ?_⟩
    intro h
    cases hone h ⟨hev rfl rfl, hev rfl rfl⟩
  · refine ⟨_, _, _, rfl, rfl, rfl, rfl, ?_⟩
    rintro ⟨n, hn, h⟩
    cases hone h ⟨hev rfl rfl, hev rfl rfl⟩
    exact absurd hn (Nat.lt_irrefl 1)

/-- Thread 2 runs `len`; between its loads of `tail` and of `head` thread 0 takes the value. -/
def takenMeanwhile : List (Act Nat) := .step 2 false :: callSteps 0 (.op .pop) 3 ++ [.step 2 false]

theorem observers_report_taken : ∃ s₀ s₁ s₂ s₃, run (exec 2) (State.new 64 Nat) (callSteps 0 (.op (.push 10)) 5) = some s₀ ∧
    exec 2 s₀ (.call 2 .len) = some s₁ ∧ run (exec 2) s₁ takenMeanwhile = some s₂ ∧
    exec 2 s₂ (.step 2 false) = some s₃ ∧ s₃.pc 2 = .done (.size 0) ∧
    SomeState (exec 2) (Holds 0) s₁ takenMeanwhile := by
  refine ⟨_, _, _, _, rfl, rfl, rfl, rfl, rfl, ?_⟩
  refine (@observers_report 64 2 Nat 2 ⟨by decide, by decide⟩ (callSteps 0 (.op (.push 10)) 5)
    takenMeanwhile .len false _ _ _ _ (.size 0) rfl rfl rfl rfl rfl ?_ (by decide) (by decide) ?_).2
  · intro c' h
    simp [takenMeanwhile, callSteps] at h
  · refine ⟨trivial, trivial, trivial, trivial, trivial, ?_, trivial⟩
    rintro _ ⟨t, ht⟩
    rcases t with _ | _ | _ | _ <;> exact Bool.noConfusion ht

end RefCount.ArrayQueue
