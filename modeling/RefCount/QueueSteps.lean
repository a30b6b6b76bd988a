import RefCount.Occupancy

/-!
# What each step does to the queue

Every step keeps the invariant of the ring. For the operation of its thread it is quiet,
or the moment at which the operation takes effect, or its return: `push` and `force_push`
with room take effect when they move `tail`, an eviction and a `pop` with a value when they
move `head`, a `push` that fails and a `pop` of nothing at their load of the other counter.
-/

namespace RefCount.ArrayQueue

open Linear

/-- Where an operation stands, with its result once it has taken effect. -/
inductive Standing (V : Type) where
  | idle
  | called (op : Fifo.Op V)
  | answered (r : Fifo.Ret V)

section
variable {w : Nat} {V : Type} (C : Nat)

def Pc.standing (vals : List V) : Pc w V → Standing V
  | .pushLoadTail op value => .called (op.op value)
  | .pushLoadStamp op value _ => .called (op.op value)
  | .pushCasTail op value _ => .called (op.op value)
  | .pushWrite op _ _ => .answered op.ok
  | .pushStoreStamp op _ => .answered op.ok
  | .pushLoadHead value _ => .called (.push value)
  | .forceCasHead value _ => .called (.forcePush value)
  | .forceStoreTail _ tail => .answered (.option vals[tail.count - C]?)
  | .forceReplace _ tail => .answered (.option vals[tail.count - C]?)
  | .forceStoreStamp old _ => .answered (.option (some old))
  | .popLoadHead => .called .pop
  | .popLoadStamp _ => .called .pop
  | .popCasHead _ => .called .pop
  | .popLoadTail _ => .called .pop
  | .popRead head => .answered (.option vals[head.count]?)
  | .popStoreStamp msg _ => .answered (.option (some msg))
  | _ => .idle

def held (s : State w V) (g : Ghost V) : List V := g.vals.drop s.heads

/-- What a step of thread `t` does to the queue and to the history; `x` and `y` are where
the operation of `t` stands before and after. -/
inductive Effect (s : State w V) (g : Ghost V) (s' : State w V) (g' : Ghost V) (t : Tid) :
    Standing V → Standing V → Prop
  | quiet {x : Standing V} : held s' g' = held s g → s'.hist = s.hist → Effect s g s' g' t x x
  | call {op : Fifo.Op V} : held s' g' = held s g → s'.hist = s.hist ++ [.call t op] →
      Effect s g s' g' t .idle (.called op)
  | commit {op : Fifo.Op V} : held s' g' = (Fifo.apply C (held s g) op).2 → s'.hist = s.hist →
      Effect s g s' g' t (.called op) (.answered (Fifo.apply C (held s g) op).1)
  | fail {op : Fifo.Op V} : held s' g' = (Fifo.apply C (held s g) op).2 →
      s'.hist = s.hist ++ [.ret t (Fifo.apply C (held s g) op).1] → Effect s g s' g' t (.called op) .idle
  | ret {r : Fifo.Ret V} : held s' g' = held s g → s'.hist = s.hist ++ [.ret t r] →
      Effect s g s' g' t (.answered r) .idle

/-- The step of thread `t` from `s` to `s'` keeps the invariant. -/
structure Progress (s : State w V) (g : Ghost V) (s' : State w V) (t : Tid) (g' : Ghost V) : Prop where
  inv : Inv C s' g'
  vals : ∃ more, g'.vals = g.vals ++ more
  others : ∀ u, u ≠ t → s'.pc u = s.pc u
  effect : Effect C s g s' g' t ((s.pc t).standing C g.vals) ((s'.pc t).standing C g'.vals)
  owned : Owned C s g → Owned C s' g'

end

section
variable {w C : Nat} {V : Type} {s s' : State w V} {g : Ghost V} {t : Tid}

theorem setPc_self (s : State w V) (t : Tid) (q : Pc w V) : (s.setPc t q).pc t = q := Function.update_self ..

theorem setPc_others (s : State w V) (t : Tid) (q : Pc w V) : ∀ u, u ≠ t → (s.setPc t q).pc u = s.pc u :=
  fun _ hu => Function.update_of_ne hu _ _

/-! ## Reading the slot -/

theorem Inv.slot (hl : Layout w C) (hi : Inv C s g) {x : Loaded w} {n : Nat} (hx : x.upTo C n) :
    s.slot C x.stamp = ⟨(g.cell (x.count % C)).stamp w C, (g.cell (x.count % C)).value C g.vals⟩ := by
  unfold State.slot
  rw [hx.1, enc_index hl]
  exact hi.slots _ (Nat.mod_lt _ hl.pos)

theorem Inv.ok (hl : Layout w C) (hi : Inv C s g) (n : Nat) : (g.cell (n % C)).Ok C s.heads s.tails (n % C) :=
  hi.cells _ (Nat.mod_lt _ hl.pos)

/-- Only the cell at `tail` can be one that an eviction has yet to move past. -/
theorem Inv.not_evicting (hi : Inv C s g) {i : Nat} (hiC : i < C) (hne : i ≠ s.tails % C) :
    (g.cell i).isEvicting = false := by
  have hok := hi.cells i hiC
  cases hc : g.cell i with
  | evicting p t =>
    rw [hc] at hok
    have hT : s.tails = p + C := hok.turn.2
    exact absurd (hok.place.symm.trans (by rw [hT]; rfl)) hne
  | _ => rfl

theorem Inv.length_of (hi : Inv C s g) (h : (g.cell (s.tails % C)).isEvicting = false) : g.vals.length = s.tails := by
  have := hi.length
  rw [h] at this
  exact this

theorem Inv.tail_not_evicting (hl : Layout w C) (hi : Inv C s g) {c : Cell} (hc : c.isEvicting = false) :
    (Function.update g.cell (s.tails % C) c ((s.tails + 1) % C)).isEvicting = false := by
  by_cases e : (s.tails + 1) % C = s.tails % C
  · rw [e, Function.update_self]
    exact hc
  · rw [Function.update_of_ne e]
    exact hi.not_evicting (Nat.mod_lt _ hl.pos) e

theorem held_length (h : g.vals.length = s.tails) : (held s g).length = s.tails - s.heads := by
  unfold held
  rw [List.length_drop, h]

theorem held_cons (h : s.heads < g.vals.length) : held s g = g.vals[s.heads] :: g.vals.drop (s.heads + 1) :=
  List.drop_eq_getElem_cons h

theorem Effect.commit_of {s' : State w V} {g' : Ghost V} {op : Fifo.Op V} {r : Fifo.Ret V}
    (ha : Fifo.apply C (held s g) op = (r, held s' g')) (hh : s'.hist = s.hist) :
    Effect C s g s' g' t (.called op) (.answered r) := by
  have h : Effect C s g s' g' t (.called op) (.answered (Fifo.apply C (held s g) op).1) := .commit (by rw [ha]) hh
  rw [ha] at h
  exact h

theorem Inv.own (hi : Inv C s g) {p : Pc w V} {c : Cell} (hpc : s.pc t = p) (hp : p.cell C t = some c) :
    g.cell (c.next C % C) = c := hi.claims t c (by rw [hpc]; exact hp)

/-! ## Steps that move only the thread -/

theorem Progress.quiet (hi : Inv C s g) {p q : Pc w V} (hpc : s.pc t = p) (hp : p.cell C t = none)
    (hq : q.cell C t = none) (hk : q.Knows C s.heads s.tails g) (hs : q.standing C g.vals = p.standing C g.vals) :
    Progress C s g (s.setPc t q) t g := by
  refine ⟨hi.move rfl ⟨rfl, rfl, rfl, rfl, rfl⟩ hq hk, ⟨[], (List.append_nil _).symm⟩, setPc_others s t q, ?_,
    fun ho => ho.move rfl (by rw [hpc]; exact hp)⟩
  rw [setPc_self, hs, hpc]
  exact .quiet rfl rfl

theorem Pc.called_cell {p : Pc w V} {vals : List V} {op : Fifo.Op V} (h : p.standing C vals = .called op) :
    p.cell C t = none := by
  cases p <;> first | rfl | cases h

theorem Progress.fail (hi : Inv C s g) {op : Fifo.Op V} {r : Fifo.Ret V}
    (hp : (s.pc t).standing C g.vals = .called op) (ha : Fifo.apply C (held s g) op = (r, held s g)) :
    Progress C s g (s.return t r) t g := by
  refine ⟨hi.move rfl ⟨rfl, rfl, rfl, rfl, rfl⟩ rfl trivial, ⟨[], (List.append_nil _).symm⟩, setPc_others _ t _, ?_,
    fun ho => ho.move rfl (Pc.called_cell hp)⟩
  rw [hp]
  show Effect C s g _ g t _ (((State.setPc _ t _).pc t).standing C g.vals)
  rw [setPc_self]
  refine .fail (by rw [ha]; rfl) ?_
  rw [ha]; rfl

/-! ## `push_or_else` -/

theorem apply_room (op : PushOp) (value : V) {l : List V} (h : l.length < C) :
    Fifo.apply C l (op.op value) = (op.ok, l ++ [value]) := by
  cases op with
  | push => simp only [PushOp.op, Fifo.apply, if_pos h]; rfl
  | forcePush => simp only [PushOp.op, Fifo.apply, if_pos h]; rfl

theorem PushOp.full_cell (op : PushOp) (value : V) (x : Loaded w) : (op.full value x).cell C t = none := by
  cases op <;> rfl

theorem PushOp.full_standing (op : PushOp) (value : V) (x : Loaded w) (vals : List V) :
    (op.full value x).standing C vals = .called (op.op value) := by
  cases op <;> rfl

theorem Inv.pushLoadStamp (hl : Layout w C) (hi : Inv C s g) {op : PushOp} {value : V} {x : Loaded w}
    (hpc : s.pc t = .pushLoadStamp op value x) (hnear : s.tails < x.count + (laps w C - 1) * C) :
    Progress C s g (s.pushLoadStamp C t op value x) t g := by
  have hx : x.upTo C s.tails := by
    have := hi.knows t
    rw [hpc] at this; exact this
  have hok := hi.ok hl x.count
  have hslot := hi.slot hl hx
  have hlt := Nat.mod_lt x.count hl.pos
  unfold State.pushLoadStamp
  rw [hslot, hx.1, enc_succ hl, enc_add_one hl]
  simp only [enc_index hl, if_pos hlt]
  split
  · rename_i e
    exact Progress.quiet hi hpc rfl rfl ⟨hx, hok.push_stamp hl rfl hx.2 e⟩ rfl
  · split
    · rename_i e
      have hfull := hok.push_full hl rfl hx.2 hnear e
      refine Progress.quiet hi hpc rfl (op.full_cell value x) ?_ (op.full_standing value x g.vals)
      cases op with
      | push => exact ⟨hx, hfull⟩
      | forcePush => exact ⟨hx, hfull⟩
    · exact Progress.quiet hi hpc rfl rfl trivial rfl

/-- A position that is short of a full cycle, and whose stamp is that of `tail`, is the count of
`tail`. -/
theorem eq_of_stamp (hl : Layout w C) {n p : Nat} (hle : p ≤ n) (hnear : n < p + (laps w C - 1) * C)
    (e : Stamp.enc w (lapBits C) C n = Stamp.enc w (lapBits C) C p) : n = p := by
  have hlap := laps_cycle w C
  refine Stamp.enc_near hl.stamp hle ?_ e
  show n < p + laps w C * C
  omega

/-- The CAS of a push that finds its `tail` there: the slot is free. -/
theorem Inv.pushCas_free (hl : Layout w C) (hi : Inv C s g) {x : Loaded w} (hx : x.upTo C s.tails)
    (hphase : 2 * x.count ≤ (g.cell (x.count % C)).phase) (hnear : s.tails < x.count + (laps w C - 1) * C)
    (he : s.tail = x.stamp) : s.tails = x.count ∧ g.cell (s.tails % C) = .free s.tails := by
  have hT : s.tails = x.count := eq_of_stamp hl hx.2 hnear (by rw [← hi.tail, he, hx.1])
  exact ⟨hT, (hi.ok hl s.tails).free_tail hl.pos rfl (by rw [hT]; exact hphase)⟩

theorem Inv.pushCasTail (hl : Layout w C) (hi : Inv C s g) {op : PushOp} {value : V} {x : Loaded w}
    (hpc : s.pc t = .pushCasTail op value x) (hnear : s.tails < x.count + (laps w C - 1) * C) (spurious : Bool) :
    ∃ g', Progress C s g (s.pushCasTail C t op value x spurious) t g' := by
  have hk := hi.knows t
  rw [hpc] at hk
  obtain ⟨hx, hphase⟩ := hk
  unfold State.pushCasTail
  split
  · rename_i h
    obtain ⟨he, _⟩ := h
    obtain ⟨hT, hcell⟩ := hi.pushCas_free hl hx hphase hnear he
    have hok := hi.ok hl s.tails
    have hlen := hi.length_of (by rw [hcell]; rfl)
    have hroom : s.tails < s.heads + C := by
      rw [hcell] at hok
      exact hok.turn
    have hpos := hl.pos
    rw [hx.1, enc_succ hl, ← hT]
    refine ⟨⟨Function.update g.cell (s.tails % C) (.writing s.tails t false), g.vals ++ [value]⟩, ?_, ⟨[value], rfl⟩,
      setPc_others _ t _, ?_, fun ho => ho.update hi rfl ?_ ?_⟩
    · refine hi.update (Nat.mod_lt _ hl.pos) (.inl (by rw [hcell]; rfl)) rfl hi.head rfl (Nat.le_refl _)
        (Nat.le_succ _) (Nat.le_succ_of_le hi.le) hroom ?_ ?_ ?_ (fun _ _ => rfl) ?_ ?_ ?_ ?_
      · show g.vals.length + 1 = s.tails + 1 + _
        have hnot := hi.tail_not_evicting hl (c := .writing s.tails t false) rfl
        rw [hlen]
        exact (congrArg (s.tails + 1 + Bool.toNat ·) hnot).symm
      · refine ⟨Nat.add_mod_right _ _, ?_, ?_, hi.le⟩
        · show s.tails + 1 ≤ s.tails + C
          omega
        · show s.tails + C < s.tails + 1 + C
          omega
      · intro j hj hne
        exact (hi.cells j hj).tail_succ hne
      · show s.buffer _ = _
        rw [hi.slots _ (Nat.mod_lt _ hl.pos), hcell]; rfl
      · rw [hcell]; exact Nat.le_refl _
      · intro d hd
        cases hd
        rw [hT]
      · refine ⟨hx.mono (Nat.le_succ _), ?_⟩
        show (g.vals ++ [value])[x.count]? = some value
        rw [← hT, ← hlen]
        exact List.getElem?_concat_length
    · rw [setPc_self, hpc]
      have hheld : (held s g).length < C := by
        rw [held_length hlen]
        omega
      refine Effect.commit_of ((apply_room op value hheld).trans ?_) rfl
      show _ = (op.ok, (g.vals ++ [value]).drop s.heads)
      rw [List.drop_append_of_le_length (by rw [hlen]; exact hi.le)]; rfl
    · intro d hd
      rw [hpc] at hd; cases hd
    · intro u hu
      cases hu
      exact ⟨rfl, by rw [hT]; rfl⟩
  · exact ⟨g, Progress.quiet hi hpc rfl rfl ⟨hi.tail, Nat.le_refl _⟩ rfl⟩

/-! ## Steps at work in a slot -/

theorem Inv.access (hl : Layout w C) (hi : Inv C s g) {p q : Pc w V} {i : Nat} {c c' : Cell} (hpc : s.pc t = p)
    (hp : p.cell C t = some c) (hplace : c.next C % C = i) (hs : s'.pc = Function.update s.pc t q)
    (hcount : s'.head = s.head ∧ s'.tail = s.tail ∧ s'.heads = s.heads ∧ s'.tails = s.tails)
    (hbuf : s'.buffer = Function.update s.buffer i ⟨c'.stamp w C, c'.value C g.vals⟩)
    (hnext : c'.next C = c.next C) (hturn : c.Turn C s.heads s.tails → c'.Turn C s.heads s.tails)
    (hev : c.isEvicting = false ∧ c'.isEvicting = false) (hphase : c.phase ≤ c'.phase)
    (hclaim : ∀ d, q.cell C t = some d → d = c') (hk : q.Knows C s.heads s.tails ⟨Function.update g.cell i c', g.vals⟩) :
    Inv C s' ⟨Function.update g.cell i c', g.vals⟩ := by
  obtain ⟨e₁, e₂, e₃, e₄⟩ := hcount
  have hiC : i < C := by rw [← hplace]; exact Nat.mod_lt _ hl.pos
  have hc : g.cell i = c := by
    have := hi.own hpc hp
    rw [hplace] at this; exact this
  have hok := hi.cells i hiC
  rw [hc] at hok
  have hv : g.vals ++ [] = g.vals := List.append_nil _
  rw [← hv] at hk hbuf ⊢
  refine hi.update hiC (.inr (by rw [hc]; exact Pc.cell_owner hp)) hs
    (by rw [e₁, e₃]; exact hi.head) (by rw [e₂, e₄]; exact hi.tail) (Nat.le_of_eq e₃.symm) (Nat.le_of_eq e₄.symm)
    (by rw [e₃, e₄]; exact hi.le) (by rw [e₃, e₄]; exact hi.room) ?_ ?_ ?_ ?_ ?_ (by rw [hc]; exact hphase) hclaim ?_
  · rw [e₄, hi.length]
    by_cases e : s.tails % C = i
    · rw [e, Function.update_self, hc, hev.1, hev.2]; rfl
    · rw [Function.update_of_ne e]; rfl
  · rw [e₃, e₄]
    exact ⟨by rw [hnext]; exact hok.place, by rw [hnext]; exact hok.low, by rw [hnext]; exact hok.high, hturn hok.turn⟩
  · rw [e₃, e₄]
    intro j hj _
    exact hi.cells j hj
  · intro j hj
    rw [hbuf, Function.update_of_ne hj]
  · rw [hbuf, Function.update_self]
  · rw [e₃, e₄]; exact hk

theorem Owned.access (ho : Owned C s g) (hi : Inv C s g) {p q : Pc w V} {i : Nat} {c c' : Cell} {vals : List V}
    (hpc : s.pc t = p) (hp : p.cell C t = some c) (hplace : c.next C % C = i) (hs : s'.pc = Function.update s.pc t q)
    (hq : ∀ u, c'.owner = some u → u = t ∧ q.cell C t = some c') :
    Owned C s' ⟨Function.update g.cell i c', vals⟩ := by
  refine ho.update hi hs ?_ hq
  intro d hd
  rw [hpc, hp] at hd
  cases hd
  exact hplace

theorem Inv.pushWrite (hl : Layout w C) (hi : Inv C s g) {op : PushOp} {value : V} {x : Loaded w}
    (hpc : s.pc t = .pushWrite op value x) : ∃ g', Progress C s g (s.pushWrite C t op value x) t g' := by
  have hk := hi.knows t
  rw [hpc] at hk
  obtain ⟨hx, hv⟩ := hk
  have hown := hi.own hpc rfl
  have hslot := hi.slot hl hx
  have hi' := enc_index hl (w := w) x.count
  rw [show Cell.next C (.writing x.count t false) = x.count + C from rfl, Nat.add_mod_right] at hown
  rw [hown] at hslot
  have hvalue : (Cell.writing x.count t false).value C g.vals = none := rfl
  unfold State.pushWrite
  rw [hslot, hvalue]
  refine ⟨⟨Function.update g.cell (x.count % C) (.writing x.count t true), g.vals⟩, ?_, ⟨[], (List.append_nil _).symm⟩,
    setPc_others _ t _, ?_, fun ho => ho.access hi hpc rfl (Nat.add_mod_right _ _) rfl ?_⟩
  · refine hi.access hl hpc rfl (Nat.add_mod_right _ _) rfl ⟨rfl, rfl, rfl, rfl⟩ ?_ rfl id ⟨rfl, rfl⟩ (Nat.le_refl _)
      (fun d hd => (Option.some.inj hd).symm) hx
    unfold State.setPc State.setValue
    rw [hslot, hx.1, hi']
    simp only [Cell.stamp, Cell.value, if_true, hv]
  · rw [setPc_self, hpc]
    exact .quiet rfl rfl
  · intro u hu
    cases hu
    exact ⟨rfl, rfl⟩

theorem Inv.forceReplace (hl : Layout w C) (hi : Inv C s g) {value : V} {x : Loaded w}
    (hpc : s.pc t = .forceReplace value x) : ∃ g', Progress C s g (s.forceReplace C t value x) t g' := by
  have hk := hi.knows t
  rw [hpc] at hk
  obtain ⟨hx, hC, hv⟩ := hk
  have hsum : x.count - C + C = x.count := Nat.sub_add_cancel hC
  have hown := hi.own hpc rfl
  have hslot := hi.slot hl hx
  have hi' := enc_index hl (w := w) x.count
  have hplace : Cell.next C (.replacing (x.count - C) t false) % C = x.count % C := by
    show (x.count - C + C + C) % C = _
    rw [hsum, Nat.add_mod_right]
  rw [hplace] at hown
  rw [hown] at hslot
  obtain ⟨hlt, _⟩ := List.getElem?_eq_some_iff.mp hv
  obtain ⟨old, hold⟩ : ∃ old, g.vals[x.count - C]? = some old :=
    ⟨_, List.getElem?_eq_getElem (Nat.lt_of_le_of_lt (Nat.sub_le _ _) hlt)⟩
  have hvalue : (Cell.replacing (x.count - C) t false).value C g.vals = some old := hold
  unfold State.forceReplace
  rw [hslot, hvalue]
  refine ⟨⟨Function.update g.cell (x.count % C) (.replacing (x.count - C) t true), g.vals⟩, ?_,
    ⟨[], (List.append_nil _).symm⟩, setPc_others _ t _, ?_, fun ho => ho.access hi hpc rfl hplace rfl ?_⟩
  · refine hi.access hl hpc rfl hplace rfl ⟨rfl, rfl, rfl, rfl⟩ ?_ rfl id ⟨rfl, rfl⟩ (Nat.le_refl _)
      (fun d hd => (Option.some.inj hd).symm) ⟨hx, hC, hold⟩
    unfold State.setPc State.setValue
    rw [hslot, hx.1, hi']
    simp only [Cell.stamp, Cell.value, if_true, hsum, hv]
  · rw [setPc_self, hpc]
    show Effect C s g _ _ t (.answered (.option g.vals[x.count - C]?)) (.answered (.option (some old)))
    rw [hold]
    exact .quiet rfl rfl
  · intro u hu
    cases hu
    exact ⟨rfl, rfl⟩

theorem Inv.popRead (hl : Layout w C) (hi : Inv C s g) {x : Loaded w} (hpc : s.pc t = .popRead x) :
    ∃ g', Progress C s g (s.popRead C t x) t g' := by
  have hk := hi.knows t
  rw [hpc] at hk
  obtain ⟨hx, hlt⟩ := hk
  have hown := hi.own hpc rfl
  have hslot := hi.slot hl hx
  have hi' := enc_index hl (w := w) x.count
  rw [show Cell.next C (.reading x.count t false) = x.count + C from rfl, Nat.add_mod_right] at hown
  rw [hown] at hslot
  obtain ⟨msg, hmsg⟩ : ∃ msg, g.vals[x.count]? = some msg := ⟨_, List.getElem?_eq_getElem hlt⟩
  have hvalue : (Cell.reading x.count t false).value C g.vals = some msg := hmsg
  unfold State.popRead
  rw [hslot, hvalue]
  refine ⟨⟨Function.update g.cell (x.count % C) (.reading x.count t true), g.vals⟩, ?_, ⟨[], (List.append_nil _).symm⟩,
    setPc_others _ t _, ?_, fun ho => ho.access hi hpc rfl (Nat.add_mod_right _ _) rfl ?_⟩
  · refine hi.access hl hpc rfl (Nat.add_mod_right _ _) rfl ⟨rfl, rfl, rfl, rfl⟩ ?_ rfl id ⟨rfl, rfl⟩ (Nat.le_refl _)
      (fun d hd => (Option.some.inj hd).symm) ⟨hx, hmsg⟩
    unfold State.setPc State.setValue
    rw [hslot, hx.1, hi']
    simp only [Cell.stamp, Cell.value, if_true]
  · rw [setPc_self, hpc]
    show Effect C s g _ _ t (.answered (.option g.vals[x.count]?)) (.answered (.option (some msg)))
    rw [hmsg]
    exact .quiet rfl rfl
  · intro u hu
    cases hu
    exact ⟨rfl, rfl⟩

theorem Progress.publish (hl : Layout w C) (hi : Inv C s g) {p : Pc w V} {x : Loaded w} {c c' : Cell} {r : Fifo.Ret V}
    (hpc : s.pc t = p) (hx : x.stamp = Stamp.enc w (lapBits C) C x.count) (hp : p.cell C t = some c)
    (hplace : c.next C % C = x.count % C) (hst : p.standing C g.vals = .answered r)
    (hvalue : c'.value C g.vals = c.value C g.vals) (hnext : c'.next C = c.next C)
    (hturn : c.Turn C s.heads s.tails → c'.Turn C s.heads s.tails) (hev : c.isEvicting = false ∧ c'.isEvicting = false)
    (hphase : c.phase ≤ c'.phase) (hidle : c'.owner = none) :
    Progress C s g ((s.setStamp C x.stamp (c'.stamp w C)).return t r) t
      ⟨Function.update g.cell (x.count % C) c', g.vals⟩ := by
  have hown := hi.own hpc hp
  rw [hplace] at hown
  have hslot := hi.slot hl (x := x) (n := x.count) ⟨hx, Nat.le_refl _⟩
  rw [hown] at hslot
  refine ⟨?_, ⟨[], (List.append_nil _).symm⟩, setPc_others _ t _, ?_, fun ho => ho.access hi hpc hp hplace rfl ?_⟩
  · refine hi.access hl hpc hp hplace rfl ⟨rfl, rfl, rfl, rfl⟩ ?_ hnext hturn hev hphase (fun d hd => nomatch hd) trivial
    unfold State.return State.setPc State.setStamp
    rw [hslot, hx, enc_index hl, hvalue]
  · rw [hpc, hst]
    show Effect C s g _ _ t _ (((State.setPc _ t _).pc t).standing C g.vals)
    rw [setPc_self]
    exact .ret rfl rfl
  · intro u hu
    rw [hidle] at hu; cases hu

theorem Inv.pushStoreStamp (hl : Layout w C) (hi : Inv C s g) {op : PushOp} {x : Loaded w}
    (hpc : s.pc t = .pushStoreStamp op x) : ∃ g', Progress C s g (s.publish C t x op.ok) t g' := by
  have hk := hi.knows t
  rw [hpc] at hk
  have hx : x.upTo C s.tails := hk
  unfold State.publish
  rw [hx.1, enc_add_one hl, ← hx.1]
  have hstamp : x.stamp + 1 = (Cell.full x.count).stamp w C := by rw [hx.1]; rfl
  rw [hstamp]
  exact ⟨_, Progress.publish hl hi hpc hx.1 rfl (Nat.add_mod_right _ _) rfl rfl rfl id ⟨rfl, rfl⟩ (Nat.le_succ _) rfl⟩

theorem Inv.forceStoreStamp (hl : Layout w C) (hi : Inv C s g) {old : V} {x : Loaded w}
    (hpc : s.pc t = .forceStoreStamp old x) : ∃ g', Progress C s g (s.publish C t x (.option (some old))) t g' := by
  have hk := hi.knows t
  rw [hpc] at hk
  obtain ⟨hx, hC, hold⟩ := hk
  have hsum : x.count - C + C = x.count := Nat.sub_add_cancel hC
  unfold State.publish
  rw [hx.1, enc_add_one hl, ← hx.1]
  have hstamp : x.stamp + 1 = (Cell.full x.count).stamp w C := by rw [hx.1]; rfl
  rw [hstamp]
  refine ⟨_, Progress.publish hl hi hpc hx.1 rfl ?_ rfl ?_ ?_ ?_ ⟨rfl, rfl⟩ ?_ rfl⟩
  · show (x.count - C + C + C) % C = _
    rw [hsum, Nat.add_mod_right]
  · show g.vals[x.count]? = g.vals[x.count - C + C]?
    rw [hsum]
  · show x.count + C = x.count - C + C + C
    rw [hsum]
  · intro h
    show s.heads ≤ x.count
    rw [← hsum]; exact h
  · show 2 * (x.count - C) + 1 ≤ 2 * x.count + 1
    omega

theorem Inv.popStoreStamp (hl : Layout w C) (hi : Inv C s g) {msg : V} {x : Loaded w}
    (hpc : s.pc t = .popStoreStamp msg x) : ∃ g', Progress C s g (s.popStoreStamp C t msg x) t g' := by
  have hk := hi.knows t
  rw [hpc] at hk
  obtain ⟨hx, hmsg⟩ := hk
  unfold State.popStoreStamp
  have hstamp : x.stamp + oneLap w C = (Cell.free (x.count + C)).stamp w C := by
    rw [hx.1]
    exact Stamp.enc_add_lap hl.stamp x.count
  rw [hstamp]
  refine ⟨_, Progress.publish hl hi hpc hx.1 rfl (Nat.add_mod_right _ _) rfl rfl rfl ?_ ⟨rfl, rfl⟩ ?_ rfl⟩
  · intro h
    have h : x.count < s.heads := h
    show x.count + C < s.heads + C
    omega
  · show 2 * x.count + 1 ≤ 2 * (x.count + C)
    have := hl.pos
    omega

/-! ## The closures of `push` and `force_push` -/

/-- `head` lags one lap behind a tail that a pusher has loaded: then the queue is full and
the tail is still where it was. -/
theorem Inv.lag (hl : Layout w C) (hi : Inv C s g) {x : Loaded w} (hx : x.upTo C s.tails)
    (hnear : s.tails < x.count + (laps w C - 1) * C) (e : s.head + oneLap w C = x.stamp) :
    s.heads + C = x.count ∧ s.tails = x.count := by
  have hpos := hl.pos
  have hroom := hi.room
  have hle := hi.le
  have hlap := laps_cycle w C
  have hH : s.heads + C = x.count := by
    refine Stamp.enc_near hl.stamp (Nat.le_trans hx.2 hi.room) ?_ ?_
    · show s.heads + C < x.count + laps w C * C
      omega
    · rw [← Stamp.enc_add_lap hl.stamp, ← hi.head, ← hx.1]
      exact e
  have := hx.2
  omega

theorem Inv.lag_full (hl : Layout w C) (hi : Inv C s g) {x : Loaded w}
    (hphase : 2 * (x.count - C) + 1 ≤ (g.cell (x.count % C)).phase) (hH : s.heads + C = x.count) :
    g.cell (s.heads % C) = .full s.heads := by
  refine (hi.ok hl s.heads).full_head rfl hi.le hi.room ?_
  rw [← Nat.add_mod_right s.heads C, hH]
  omega

theorem Inv.pushLoadHead (hl : Layout w C) (hi : Inv C s g) {value : V} {x : Loaded w}
    (hpc : s.pc t = .pushLoadHead value x) (hnear : s.tails < x.count + (laps w C - 1) * C) :
    ∃ g', Progress C s g (s.pushLoadHead C t value x) t g' := by
  have hk := hi.knows t
  rw [hpc] at hk
  obtain ⟨hx, hC, hphase⟩ := hk
  unfold State.pushLoadHead
  split
  · rename_i e
    obtain ⟨hH, hT⟩ := hi.lag hl hx hnear e
    have hfull := hi.lag_full hl hphase hH
    have hlen := hi.length_of (by rw [hT, ← hH, Nat.add_mod_right, hfull]; rfl)
    have hcalled : (s.pc t).standing C g.vals = .called (.push value) := by rw [hpc]; rfl
    refine ⟨g, Progress.fail hi hcalled ?_⟩
    have hheld : ¬ (held s g).length < C := by
      rw [held_length hlen]
      omega
    simp only [Fifo.apply, if_neg hheld]
  · exact ⟨g, Progress.quiet hi hpc rfl rfl trivial rfl⟩

theorem Inv.forceCasHead (hl : Layout w C) (hi : Inv C s g) {value : V} {x : Loaded w}
    (hpc : s.pc t = .forceCasHead value x) (hnear : s.tails < x.count + (laps w C - 1) * C) (spurious : Bool) :
    ∃ g', Progress C s g (s.forceCasHead C t value x spurious) t g' := by
  have hk := hi.knows t
  rw [hpc] at hk
  obtain ⟨hx, hC, hphase⟩ := hk
  unfold State.forceCasHead
  rw [hx.1, enc_succ hl]
  simp only
  split
  · rename_i h
    obtain ⟨he, _⟩ := h
    have hpos := hl.pos
    obtain ⟨hH, hT⟩ := hi.lag hl hx hnear (by rw [he, hx.1, oneLap, BitVec.sub_add_cancel])
    have hplace : s.tails % C = s.heads % C := by rw [hT, ← hH, Nat.add_mod_right]
    have hfull := hi.lag_full hl hphase hH
    have hlen := hi.length_of (by rw [hplace, hfull]; rfl)
    have hcount : x.count - C = s.heads := by omega
    refine ⟨⟨Function.update g.cell (s.heads % C) (.evicting s.heads t), g.vals ++ [value]⟩, ?_, ⟨[value], rfl⟩,
      setPc_others _ t _, ?_, fun ho => ho.update hi rfl ?_ ?_⟩
    · refine hi.update (Nat.mod_lt _ hl.pos) (.inl (by rw [hfull]; rfl)) rfl ?_ hi.tail (Nat.le_succ _) (Nat.le_refl _)
        ?_ ?_ ?_ ?_ ?_ (fun _ _ => rfl) ?_ ?_ ?_ ?_
      · show Stamp.enc w (lapBits C) C (x.count + 1) - oneLap w C = Stamp.enc w (lapBits C) C (s.heads + 1)
        rw [oneLap, Stamp.enc_sub_lap hl.stamp (by omega)]
        congr 1
        omega
      · show s.heads + 1 ≤ s.tails
        omega
      · show s.tails ≤ s.heads + 1 + C
        omega
      · show g.vals.length + 1 =
          s.tails + (Function.update g.cell (s.heads % C) (.evicting s.heads t) (s.tails % C)).isEvicting.toNat
        rw [hplace, Function.update_self, hlen]; rfl
      · refine ⟨Nat.add_mod_right _ _, ?_, ?_, Nat.lt_succ_self _, hT.trans hH.symm⟩
        · exact Nat.le_of_eq (hT.trans hH.symm)
        · show s.heads + C < s.tails + C
          omega
      · intro j hj hne
        exact (hi.cells j hj).head_succ hne
      · show s.buffer _ = _
        rw [hi.slots _ (Nat.mod_lt _ hl.pos), hfull]
        have hv : g.vals[s.heads]? = (g.vals ++ [value])[s.heads]? :=
          (List.getElem?_append_left (by omega)).symm
        simp only [Cell.stamp, Cell.value, hv]
      · rw [hfull]; exact Nat.le_refl _
      · intro d hd
        cases hd
        rw [hcount]
      · refine ⟨hx, hC, ?_⟩
        show (g.vals ++ [value])[x.count]? = some value
        rw [← hT, ← hlen]
        exact List.getElem?_concat_length
    · rw [setPc_self, hpc]
      refine Effect.commit_of ?_ rfl
      have hlt : s.heads < g.vals.length := by omega
      have hnot : ¬ (held s g).length < C := by
        rw [held_length hlen]
        omega
      have hvalue : (g.vals ++ [value])[x.count - C]? = some g.vals[s.heads] := by
        rw [hcount, List.getElem?_append_left hlt]
        exact List.getElem?_eq_getElem hlt
      simp only [Fifo.apply, if_neg hnot, hvalue]
      rw [held_cons hlt]
      show _ = (_, (g.vals ++ [value]).drop (s.heads + 1))
      rw [List.drop_append_of_le_length hlt]; rfl
    · intro d hd
      rw [hpc] at hd; cases hd
    · intro u hu
      cases hu
      exact ⟨rfl, by rw [← hcount]; rfl⟩
  · exact ⟨g, Progress.quiet hi hpc rfl rfl trivial rfl⟩

theorem Inv.forceStoreTail (hl : Layout w C) (hi : Inv C s g) {value : V} {x : Loaded w}
    (hpc : s.pc t = .forceStoreTail value x) : ∃ g', Progress C s g (s.forceStoreTail C t value x) t g' := by
  have hk := hi.knows t
  rw [hpc] at hk
  obtain ⟨hx, hC, hv⟩ := hk
  have hsum : x.count - C + C = x.count := Nat.sub_add_cancel hC
  have hown := hi.own hpc rfl
  have hplace : Cell.next C (.evicting (x.count - C) t) % C = x.count % C := by
    show (x.count - C + C) % C = _
    rw [hsum]
  rw [hplace] at hown
  have hok := hi.ok hl x.count
  rw [hown] at hok
  have hT : s.tails = x.count := hok.turn.2.trans hsum
  have hH : x.count - C < s.heads := hok.turn.1
  have hle := hi.le
  have hpos := hl.pos
  have hlen : g.vals.length = s.tails + 1 := by
    rw [hi.length, hT, hown]; rfl
  unfold State.forceStoreTail
  rw [hx.1, enc_succ hl]
  refine ⟨⟨Function.update g.cell (x.count % C) (.replacing (x.count - C) t false), g.vals ++ []⟩, ?_, ⟨[], rfl⟩,
    setPc_others _ t _, ?_, fun ho => ho.access hi hpc rfl hplace rfl ?_⟩
  · refine hi.update (Nat.mod_lt _ hl.pos) (.inr (by rw [hown]; rfl)) rfl hi.head (by rw [← hT]; rfl) (Nat.le_refl _)
      (Nat.le_succ _) (Nat.le_succ_of_le hle) ?_ ?_ ?_ ?_ (fun _ _ => rfl) ?_ ?_ (fun d hd => (Option.some.inj hd).symm) ?_
    · show s.tails + 1 ≤ s.heads + C
      omega
    · show g.vals.length + 0 = s.tails + 1 + _
      have hnot := hi.tail_not_evicting hl (c := .replacing (x.count - C) t false) rfl
      rw [congrArg (· % C) hT] at hnot
      rw [hlen]
      exact (congrArg (s.tails + 1 + Bool.toNat ·) hnot).symm
    · refine ⟨?_, ?_, ?_, ?_⟩
      · show (x.count - C + C + C) % C = _
        rw [hsum, Nat.add_mod_right]
      · show s.tails + 1 ≤ x.count - C + C + C
        omega
      · show x.count - C + C + C < s.tails + 1 + C
        omega
      · show s.heads ≤ x.count - C + C
        omega
    · intro j hj hne
      exact (hi.cells j hj).tail_succ (by rw [hT]; exact hne)
    · show s.buffer _ = _
      rw [hi.slots _ (Nat.mod_lt _ hl.pos), hown, List.append_nil]
      rfl
    · rw [hown]; exact Nat.le_refl _
    · rw [List.append_nil]
      exact ⟨hx.mono (Nat.le_succ _), hC, hv⟩
  · rw [setPc_self, hpc]
    simp only [List.append_nil]
    exact .quiet rfl rfl
  · intro u hu
    cases hu
    exact ⟨rfl, rfl⟩

/-! ## `pop` -/

theorem Inv.popLoadStamp (hl : Layout w C) (hi : Inv C s g) {x : Loaded w} (hpc : s.pc t = .popLoadStamp x) :
    Progress C s g (s.popLoadStamp C t x) t g := by
  have hx : x.upTo C s.heads := by
    have := hi.knows t
    rw [hpc] at this; exact this
  have hok := hi.ok hl x.count
  have hslot := hi.slot hl hx
  have hlt := Nat.mod_lt x.count hl.pos
  unfold State.popLoadStamp
  rw [hslot, hx.1, enc_add_one hl]
  simp only [enc_index hl, if_pos hlt]
  split
  · rename_i e
    exact Progress.quiet hi hpc rfl rfl ⟨hx, hok.pop_full hl rfl hx.2 hi.le e⟩ rfl
  · split
    · rename_i e
      exact Progress.quiet hi hpc rfl rfl ⟨hx, hok.pop_free hl rfl hx.2 hi.le e⟩ rfl
    · exact Progress.quiet hi hpc rfl rfl trivial rfl

/-- The CAS of a pop that finds its `head` there: the slot is full. -/
theorem Inv.popCas_full (hl : Layout w C) (hi : Inv C s g) {x : Loaded w} (hx : x.upTo C s.heads)
    (hphase : 2 * x.count + 1 ≤ (g.cell (x.count % C)).phase) (hnear : s.heads < x.count + (laps w C - 1) * C)
    (he : s.head = x.stamp) : s.heads = x.count ∧ g.cell (s.heads % C) = .full s.heads := by
  have hH : s.heads = x.count := eq_of_stamp hl hx.2 hnear (by rw [← hi.head, he, hx.1])
  exact ⟨hH, (hi.ok hl s.heads).full_head rfl hi.le hi.room (by rw [hH]; exact hphase)⟩

theorem Inv.popCasHead (hl : Layout w C) (hi : Inv C s g) {x : Loaded w} (hpc : s.pc t = .popCasHead x)
    (hnear : s.heads < x.count + (laps w C - 1) * C) (spurious : Bool) :
    ∃ g', Progress C s g (s.popCasHead C t x spurious) t g' := by
  have hk := hi.knows t
  rw [hpc] at hk
  obtain ⟨hx, hphase⟩ := hk
  unfold State.popCasHead
  rw [hx.1, enc_succ hl]
  simp only
  split
  · rename_i h
    obtain ⟨he, _⟩ := h
    have hpos := hl.pos
    obtain ⟨hH, hfull⟩ := hi.popCas_full hl hx hphase hnear (by rw [he, hx.1])
    have hok := hi.ok hl s.heads
    rw [hfull] at hok
    have hT : s.heads < s.tails := by
      have : s.heads + C < s.tails + C := hok.high
      omega
    have hlen : s.tails ≤ g.vals.length := by rw [hi.length]; exact Nat.le_add_right _ _
    have hlt : s.heads < g.vals.length := Nat.lt_of_lt_of_le hT hlen
    rw [← hH]
    refine ⟨⟨Function.update g.cell (s.heads % C) (.reading s.heads t false), g.vals ++ []⟩, ?_, ⟨[], rfl⟩,
      setPc_others _ t _, ?_, fun ho => ho.update hi rfl ?_ ?_⟩
    · refine hi.update (Nat.mod_lt _ hl.pos) (.inl (by rw [hfull]; rfl)) rfl rfl hi.tail (Nat.le_succ _) (Nat.le_refl _)
        hT (Nat.le_trans hi.room (by show s.heads + C ≤ s.heads + 1 + C; omega)) ?_
        ⟨hok.place, hok.low, hok.high, Nat.lt_succ_self _⟩ ?_ (fun _ _ => rfl) ?_ ?_ ?_ ?_
      · show g.vals.length =
          s.tails + (Function.update g.cell (s.heads % C) (.reading s.heads t false) (s.tails % C)).isEvicting.toNat
        rw [hi.length]
        by_cases e : s.tails % C = s.heads % C
        · rw [e, Function.update_self, hfull]; rfl
        · rw [Function.update_of_ne e]
      · intro j hj hne
        exact (hi.cells j hj).head_succ hne
      · show s.buffer _ = _
        rw [hi.slots _ (Nat.mod_lt _ hl.pos), hfull, List.append_nil]
        rfl
      · rw [hfull]; exact Nat.le_refl _
      · intro d hd
        cases hd
        rw [hH]
      · rw [List.append_nil]
        exact ⟨hx.mono (Nat.le_succ _), by rw [← hH]; exact hlt⟩
    · rw [setPc_self, hpc]
      refine Effect.commit_of ?_ rfl
      have hvalue : (g.vals ++ [])[x.count]? = some g.vals[s.heads] := by
        rw [← hH, List.append_nil]
        exact List.getElem?_eq_getElem hlt
      simp only [hvalue]
      rw [Fifo.apply, held_cons hlt]
      show _ = (_, (g.vals ++ []).drop (s.heads + 1))
      rw [List.append_nil]; rfl
    · intro d hd
      rw [hpc] at hd; cases hd
    · intro u hu
      cases hu
      exact ⟨rfl, by rw [hH]; rfl⟩
  · exact ⟨g, Progress.quiet hi hpc rfl rfl ⟨hi.head, Nat.le_refl _⟩ rfl⟩

/-- A pop that finds its `head` in `tail`: the queue is empty and the slot is free. -/
theorem Inv.popTail_free (hl : Layout w C) (hi : Inv C s g) {x : Loaded w} (hx : x.upTo C s.heads)
    (hphase : 2 * x.count ≤ (g.cell (x.count % C)).phase) (hnear : s.heads < x.count + (laps w C - 1) * C)
    (he : s.tail = x.stamp) : s.tails = s.heads ∧ g.cell (s.tails % C) = .free s.tails := by
  have hpos := hl.pos
  have hroom := hi.room
  have hle := hi.le
  have hx' := hx.2
  have hT : s.tails = x.count := by
    refine Stamp.enc_near hl.stamp (Nat.le_trans hx.2 hi.le) ?_ (by rw [← hi.tail, he, hx.1])
    have hlap := laps_cycle w C
    show s.tails < x.count + laps w C * C
    omega
  exact ⟨by omega, (hi.ok hl s.tails).free_tail hl.pos rfl (by rw [hT]; exact hphase)⟩

theorem Inv.popLoadTail (hl : Layout w C) (hi : Inv C s g) {x : Loaded w} (hpc : s.pc t = .popLoadTail x)
    (hnear : s.heads < x.count + (laps w C - 1) * C) : ∃ g', Progress C s g (s.popLoadTail t x) t g' := by
  have hk := hi.knows t
  rw [hpc] at hk
  obtain ⟨hx, hphase⟩ := hk
  unfold State.popLoadTail
  split
  · rename_i e
    obtain ⟨hT, hfree⟩ := hi.popTail_free hl hx hphase hnear e
    have hlen := hi.length_of (by rw [hfree]; rfl)
    have hheld : held s g = [] := by
      apply List.eq_nil_of_length_eq_zero
      rw [held_length hlen, hT, Nat.sub_self]
    have hcalled : (s.pc t).standing C g.vals = .called .pop := by rw [hpc]; rfl
    refine ⟨g, Progress.fail hi hcalled ?_⟩
    rw [hheld]; rfl
  · exact ⟨g, Progress.quiet hi hpc rfl rfl trivial rfl⟩

/-! ## `len` -/

theorem Inv.lenLoadTailAgain (hl : Layout w C) (hi : Inv C s g) {tail head : BitVec w}
    (hpc : s.pc t = .lenLoadTailAgain tail head) : Progress C s g (s.lenLoadTailAgain C t tail head) t g := by
  have hk := hi.knows t
  rw [hpc] at hk
  obtain ⟨⟨q, rfl⟩, p, rfl⟩ := hk
  obtain ⟨n, hn, _⟩ := queueSize_enc hl p q
  unfold State.lenLoadTailAgain
  rw [hn]
  split
  · exact Progress.quiet hi hpc rfl rfl trivial rfl
  · exact Progress.quiet hi hpc rfl rfl trivial rfl

/-! ## Every step -/

/-- While an operation uses a stamp that it loaded from `tail` or `head`, that counter has
moved on by less than `n` laps. `H` and `T` are the counts now. -/
def Pc.near (n C H T : Nat) : Pc w V → Bool
  | .pushLoadStamp _ _ tail => T < tail.count + n * C
  | .pushCasTail _ _ tail => T < tail.count + n * C
  | .pushLoadHead _ tail => T < tail.count + n * C
  | .forceCasHead _ tail => T < tail.count + n * C
  | .popCasHead head => H < head.count + n * C
  | .popLoadTail head => H < head.count + n * C
  | _ => true

theorem Inv.step (hl : Layout w C) (hi : Inv C s g) {b : Bool} (hn : (s.pc t).near (laps w C - 1) C s.heads s.tails = true)
    (h : s.stepThread C t b = some s') : ∃ g', Progress C s g s' t g' := by
  unfold State.stepThread at h
  cases hpc : s.pc t with
  | done r => rw [hpc] at h; cases h
  | fault => rw [hpc] at h; cases h
  | pushLoadTail op value =>
    rw [hpc] at h; cases h
    exact ⟨g, Progress.quiet hi hpc rfl rfl ⟨hi.tail, Nat.le_refl _⟩ rfl⟩
  | pushLoadStamp op value x => rw [hpc] at h hn; cases h; exact ⟨g, hi.pushLoadStamp hl hpc (of_decide_eq_true hn)⟩
  | pushCasTail op value x => rw [hpc] at h hn; cases h; exact hi.pushCasTail hl hpc (of_decide_eq_true hn) b
  | pushWrite op value x => rw [hpc] at h; cases h; exact hi.pushWrite hl hpc
  | pushStoreStamp op x => rw [hpc] at h; cases h; exact hi.pushStoreStamp hl hpc
  | pushLoadHead value x => rw [hpc] at h hn; cases h; exact hi.pushLoadHead hl hpc (of_decide_eq_true hn)
  | forceCasHead value x => rw [hpc] at h hn; cases h; exact hi.forceCasHead hl hpc (of_decide_eq_true hn) b
  | forceStoreTail value x => rw [hpc] at h; cases h; exact hi.forceStoreTail hl hpc
  | forceReplace value x => rw [hpc] at h; cases h; exact hi.forceReplace hl hpc
  | forceStoreStamp old x => rw [hpc] at h; cases h; exact hi.forceStoreStamp hl hpc
  | popLoadHead =>
    rw [hpc] at h; cases h
    exact ⟨g, Progress.quiet hi hpc rfl rfl ⟨hi.head, Nat.le_refl _⟩ rfl⟩
  | popLoadStamp x => rw [hpc] at h; cases h; exact ⟨g, hi.popLoadStamp hl hpc⟩
  | popCasHead x => rw [hpc] at h hn; cases h; exact hi.popCasHead hl hpc (of_decide_eq_true hn) b
  | popRead x => rw [hpc] at h; cases h; exact hi.popRead hl hpc
  | popStoreStamp msg x => rw [hpc] at h; cases h; exact hi.popStoreStamp hl hpc
  | popLoadTail x => rw [hpc] at h hn; cases h; exact hi.popLoadTail hl hpc (of_decide_eq_true hn)
  | isEmptyLoadHead => rw [hpc] at h; cases h; exact ⟨g, Progress.quiet hi hpc rfl rfl trivial rfl⟩
  | isEmptyLoadTail head => rw [hpc] at h; cases h; exact ⟨g, Progress.quiet hi hpc rfl rfl trivial rfl⟩
  | isFullLoadTail => rw [hpc] at h; cases h; exact ⟨g, Progress.quiet hi hpc rfl rfl trivial rfl⟩
  | isFullLoadHead tail => rw [hpc] at h; cases h; exact ⟨g, Progress.quiet hi hpc rfl rfl trivial rfl⟩
  | lenLoadTail => rw [hpc] at h; cases h; exact ⟨g, Progress.quiet hi hpc rfl rfl ⟨_, hi.tail⟩ rfl⟩
  | lenLoadHead tail =>
    have hk := hi.knows t
    rw [hpc] at h hk; cases h
    exact ⟨g, Progress.quiet hi hpc rfl rfl ⟨hk, _, hi.head⟩ rfl⟩
  | lenLoadTailAgain tail head =>
    have hk := hi.knows t
    rw [hpc] at h hk; cases h
    exact ⟨g, hi.lenLoadTailAgain hl hpc⟩

end

end RefCount.ArrayQueue
