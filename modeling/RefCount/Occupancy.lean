import RefCount.Ring

/-!
# The invariant of the ring

Every slot has a cell, and a thread that is at work in a slot has a cell of its own that
says the same: so two threads are never at work in one slot. What a thread knows of the
cell that it looked at stays true, because cells only move on. `vals` are the values
accepted so far; the queue holds those from the count of `head` on.
-/

namespace RefCount.ArrayQueue

structure Ghost (V : Type) where
  cell : Nat → Cell
  vals : List V

section
variable {w : Nat} {V : Type} (C : Nat)

/-- The cell that the place of thread `t` in the code stands for. -/
def Pc.cell (t : Tid) : Pc w V → Option Cell
  | .pushWrite _ _ tail => some (.writing tail.count t false)
  | .pushStoreStamp _ tail => some (.writing tail.count t true)
  | .forceStoreTail _ tail => some (.evicting (tail.count - C) t)
  | .forceReplace _ tail => some (.replacing (tail.count - C) t false)
  | .forceStoreStamp _ tail => some (.replacing (tail.count - C) t true)
  | .popRead head => some (.reading head.count t false)
  | .popStoreStamp _ head => some (.reading head.count t true)
  | _ => none

/-- The stamp belongs to a position, and the counter has come to `n` since. -/
def Loaded.upTo (x : Loaded w) (n : Nat) : Prop := x.stamp = Stamp.enc w (lapBits C) C x.count ∧ x.count ≤ n

def Pc.Knows (H T : Nat) (g : Ghost V) : Pc w V → Prop
  | .fault => False
  | .pushLoadStamp _ _ tail => tail.upTo C T
  | .pushCasTail _ _ tail => tail.upTo C T ∧ 2 * tail.count ≤ (g.cell (tail.count % C)).phase
  | .pushWrite _ value tail => tail.upTo C T ∧ g.vals[tail.count]? = some value
  | .pushStoreStamp _ tail => tail.upTo C T
  | .pushLoadHead _ tail =>
    tail.upTo C T ∧ C ≤ tail.count ∧ 2 * (tail.count - C) + 1 ≤ (g.cell (tail.count % C)).phase
  | .forceCasHead _ tail =>
    tail.upTo C T ∧ C ≤ tail.count ∧ 2 * (tail.count - C) + 1 ≤ (g.cell (tail.count % C)).phase
  | .forceStoreTail value tail => tail.upTo C T ∧ C ≤ tail.count ∧ g.vals[tail.count]? = some value
  | .forceReplace value tail => tail.upTo C T ∧ C ≤ tail.count ∧ g.vals[tail.count]? = some value
  | .forceStoreStamp old tail => tail.upTo C T ∧ C ≤ tail.count ∧ g.vals[tail.count - C]? = some old
  | .popLoadStamp head => head.upTo C H
  | .popCasHead head => head.upTo C H ∧ 2 * head.count + 1 ≤ (g.cell (head.count % C)).phase
  | .popRead head => head.upTo C H ∧ head.count < g.vals.length
  | .popStoreStamp msg head => head.upTo C H ∧ g.vals[head.count]? = some msg
  | .popLoadTail head => head.upTo C H ∧ 2 * head.count ≤ (g.cell (head.count % C)).phase
  | .lenLoadHead tail => ∃ p, tail = Stamp.enc w (lapBits C) C p
  | .lenLoadTailAgain tail head =>
    (∃ p, tail = Stamp.enc w (lapBits C) C p) ∧ ∃ p, head = Stamp.enc w (lapBits C) C p
  | _ => True

/-- The value of an eviction that has not moved `tail` yet is accepted already. -/
structure Inv (s : State w V) (g : Ghost V) : Prop where
  head : s.head = Stamp.enc w (lapBits C) C s.heads
  tail : s.tail = Stamp.enc w (lapBits C) C s.tails
  le : s.heads ≤ s.tails
  room : s.tails ≤ s.heads + C
  length : g.vals.length = s.tails + (g.cell (s.tails % C)).isEvicting.toNat
  cells : ∀ i < C, (g.cell i).Ok C s.heads s.tails i
  slots : ∀ i < C, s.buffer i = ⟨(g.cell i).stamp w C, (g.cell i).value C g.vals⟩
  claims : ∀ t c, (s.pc t).cell C t = some c → g.cell (c.next C % C) = c
  knows : ∀ t, (s.pc t).Knows C s.heads s.tails g

/-- The converse of `Inv.claims`: a cell that has an owner is the cell of that thread. -/
def Owned (s : State w V) (g : Ghost V) : Prop :=
  ∀ i < C, ∀ u, (g.cell i).owner = some u → (s.pc u).cell C u = some (g.cell i)

end

section
variable {w C : Nat} {V : Type} {s s' : State w V} {g : Ghost V}

theorem Pc.cell_owner {p : Pc w V} {t : Tid} {c : Cell} (h : p.cell C t = some c) : c.owner = some t := by
  cases p <;> cases h <;> rfl

theorem Loaded.upTo.mono {x : Loaded w} {n m : Nat} (h : x.upTo C n) (hle : n ≤ m) : x.upTo C m :=
  ⟨h.1, Nat.le_trans h.2 hle⟩

theorem Pc.Knows.mono {p : Pc w V} {H T H' T' : Nat} {g' : Ghost V} {more : List V} (h : p.Knows C H T g)
    (hH : H ≤ H') (hT : T ≤ T') (hv : g'.vals = g.vals ++ more) (hc : ∀ i, (g.cell i).phase ≤ (g'.cell i).phase) :
    p.Knows C H' T' g' := by
  have hget : ∀ {n : Nat} {v : V}, g.vals[n]? = some v → g'.vals[n]? = some v := by
    intro n v hn
    obtain ⟨hlt, _⟩ := List.getElem?_eq_some_iff.mp hn
    rw [hv, List.getElem?_append_left hlt]; exact hn
  cases p with
  | fault => exact h
  | pushLoadStamp op v x => exact Loaded.upTo.mono h hT
  | pushCasTail op v x => exact ⟨h.1.mono hT, Nat.le_trans h.2 (hc _)⟩
  | pushWrite op v x => exact ⟨h.1.mono hT, hget h.2⟩
  | pushStoreStamp op x => exact Loaded.upTo.mono h hT
  | pushLoadHead v x => exact ⟨h.1.mono hT, h.2.1, Nat.le_trans h.2.2 (hc _)⟩
  | forceCasHead v x => exact ⟨h.1.mono hT, h.2.1, Nat.le_trans h.2.2 (hc _)⟩
  | forceStoreTail v x => exact ⟨h.1.mono hT, h.2.1, hget h.2.2⟩
  | forceReplace v x => exact ⟨h.1.mono hT, h.2.1, hget h.2.2⟩
  | forceStoreStamp v x => exact ⟨h.1.mono hT, h.2.1, hget h.2.2⟩
  | popLoadStamp x => exact Loaded.upTo.mono h hH
  | popCasHead x => exact ⟨h.1.mono hH, Nat.le_trans h.2 (hc _)⟩
  | popRead x =>
    refine ⟨h.1.mono hH, Nat.lt_of_lt_of_le h.2 ?_⟩
    rw [hv, List.length_append]
    exact Nat.le_add_right _ _
  | popStoreStamp v x => exact ⟨h.1.mono hH, hget h.2⟩
  | popLoadTail x => exact ⟨h.1.mono hH, Nat.le_trans h.2 (hc _)⟩
  | lenLoadHead x => exact h
  | lenLoadTailAgain x y => exact h
  | _ => trivial

theorem Inv.new : Inv C (State.new w V) ⟨.free, []⟩ := by
  have hcells : ∀ i < C, Cell.Ok C 0 0 i (.free i) := by
    intro i hi
    exact ⟨Nat.mod_eq_of_lt hi, Nat.zero_le _, by simpa [Cell.next] using hi, by simpa [Cell.Turn] using hi⟩
  have hzero : Stamp.enc w (lapBits C) C 0 = 0 := by simp [Stamp.enc]
  refine ⟨hzero.symm, hzero.symm, Nat.le_refl _, Nat.zero_le _, rfl, hcells, ?_, ?_, fun _ => trivial⟩
  · intro i hi
    have he : Stamp.enc w (lapBits C) C i = BitVec.ofNat w i := by
      unfold Stamp.enc
      rw [Nat.div_eq_of_lt hi, Nat.mod_eq_of_lt hi, Nat.zero_mul, Nat.zero_add]
    simp only [Cell.stamp, Cell.value, he, State.new]
  · intro t c hc
    cases hc

theorem Inv.move (hi : Inv C s g) {t : Tid} {q : Pc w V} (hpc : s'.pc = Function.update s.pc t q)
    (hs : s'.head = s.head ∧ s'.tail = s.tail ∧ s'.heads = s.heads ∧ s'.tails = s.tails ∧ s'.buffer = s.buffer)
    (hq : q.cell C t = none) (hk : q.Knows C s.heads s.tails g) : Inv C s' g := by
  obtain ⟨e₁, e₂, e₃, e₄, e₅⟩ := hs
  refine ⟨by rw [e₁, e₃]; exact hi.head, by rw [e₂, e₄]; exact hi.tail, by rw [e₃, e₄]; exact hi.le,
    by rw [e₃, e₄]; exact hi.room, by rw [e₄]; exact hi.length, by rw [e₃, e₄]; exact hi.cells,
    by rw [e₅]; exact hi.slots, ?_, ?_⟩
  · intro u c hc
    rw [hpc, Function.update_apply] at hc
    split at hc
    · rename_i e; subst e
      rw [hq] at hc; cases hc
    · exact hi.claims u c hc
  · intro u
    rw [hpc, e₃, e₄, Function.update_apply]
    split
    · exact hk
    · exact hi.knows u

theorem Inv.update (hi : Inv C s g) {t : Tid} {q : Pc w V} {i : Nat} {c' : Cell} {more : List V} (hiC : i < C)
    (hown : (g.cell i).owner = none ∨ (g.cell i).owner = some t)
    (hpc : s'.pc = Function.update s.pc t q)
    (hhead : s'.head = Stamp.enc w (lapBits C) C s'.heads) (htail : s'.tail = Stamp.enc w (lapBits C) C s'.tails)
    (hH : s.heads ≤ s'.heads) (hT : s.tails ≤ s'.tails) (hle : s'.heads ≤ s'.tails) (hroom : s'.tails ≤ s'.heads + C)
    (hlen : g.vals.length + more.length = s'.tails + (Function.update g.cell i c' (s'.tails % C)).isEvicting.toNat)
    (hok : c'.Ok C s'.heads s'.tails i) (hothers : ∀ j < C, j ≠ i → (g.cell j).Ok C s'.heads s'.tails j)
    (hbuf : ∀ j, j ≠ i → s'.buffer j = s.buffer j)
    (hslot : s'.buffer i = ⟨c'.stamp w C, c'.value C (g.vals ++ more)⟩)
    (hphase : (g.cell i).phase ≤ c'.phase) (hclaim : ∀ d, q.cell C t = some d → d = c')
    (hk : q.Knows C s'.heads s'.tails ⟨Function.update g.cell i c', g.vals ++ more⟩) :
    Inv C s' ⟨Function.update g.cell i c', g.vals ++ more⟩ := by
  have hTlen : s.tails ≤ g.vals.length := by rw [hi.length]; exact Nat.le_add_right _ _
  refine ⟨hhead, htail, hle, hroom, by rw [List.length_append]; exact hlen, ?_, ?_, ?_, ?_⟩
  · intro j hj
    show (Function.update g.cell i c' j).Ok C _ _ j
    by_cases e : j = i
    · subst e
      rw [Function.update_self]; exact hok
    · rw [Function.update_of_ne e]
      exact hothers j hj e
  · intro j hj
    show _ = (⟨(Function.update g.cell i c' j).stamp w C, (Function.update g.cell i c' j).value C _⟩ : Slot w V)
    by_cases e : j = i
    · subst e
      rw [Function.update_self]; exact hslot
    · rw [Function.update_of_ne e, hbuf j e, hi.slots j hj, (hi.cells j hj).value_append hTlen]
  · intro u d hd
    show Function.update g.cell i c' _ = d
    rw [hpc, Function.update_apply] at hd
    split at hd
    · rename_i e; subst e
      rw [hclaim d hd, hok.place, Function.update_self]
    · rename_i e
      have hg := hi.claims u d hd
      by_cases ei : d.next C % C = i
      · -- the other thread would be at work in the same slot
        rw [ei] at hg
        have ho := Pc.cell_owner hd
        rw [← hg] at ho
        rcases hown with h | h
        · rw [h] at ho; cases ho
        · rw [h] at ho
          exact absurd (Option.some.inj ho).symm e
      · rw [Function.update_of_ne ei]
        exact hg
  · intro u
    rw [hpc, Function.update_apply]
    split
    · exact hk
    · refine (hi.knows u).mono hH hT rfl ?_
      intro j
      show _ ≤ (Function.update g.cell i c' j).phase
      by_cases e : j = i
      · subst e
        rw [Function.update_self]; exact hphase
      · rw [Function.update_of_ne e]

/-! ## Owners -/

theorem Owned.new : Owned C (State.new w V) ⟨.free, []⟩ := by
  intro i _ u hu
  cases hu

theorem Owned.move (ho : Owned C s g) {t : Tid} {q : Pc w V} (hpc : s'.pc = Function.update s.pc t q)
    (hp : (s.pc t).cell C t = none) : Owned C s' g := by
  intro i hi u hu
  have h := ho i hi u hu
  have hne : u ≠ t := by
    rintro rfl
    rw [hp] at h; cases h
  rw [hpc, Function.update_of_ne hne]
  exact h

theorem Owned.update (ho : Owned C s g) (hi : Inv C s g) {t : Tid} {q : Pc w V} {i : Nat} {c' : Cell} {vals : List V}
    (hpc : s'.pc = Function.update s.pc t q) (hp : ∀ d, (s.pc t).cell C t = some d → d.next C % C = i)
    (hq : ∀ u, c'.owner = some u → u = t ∧ q.cell C t = some c') :
    Owned C s' ⟨Function.update g.cell i c', vals⟩ := by
  intro j hj u hu
  show (s'.pc u).cell C u = some (Function.update g.cell i c' j)
  have hu : (Function.update g.cell i c' j).owner = some u := hu
  by_cases e : j = i
  · subst e
    rw [Function.update_self] at hu ⊢
    obtain ⟨rfl, hc⟩ := hq u hu
    rw [hpc, Function.update_self]
    exact hc
  · rw [Function.update_of_ne e] at hu ⊢
    have h := ho j hj u hu
    have hne : u ≠ t := by
      rintro rfl
      exact e ((hi.cells j hj).place.symm.trans (hp _ h))
    rw [hpc, Function.update_of_ne hne]
    exact h

end

end RefCount.ArrayQueue
