import RefCount.SlotOrderings

/-!
# Loads of stale words

A stamp tells how far its slot has come, and so does an old stamp of the slot, of which it
tells less than is so: what `push` and `pop` conclude from a stamp that they read stays
true of the slot. A load of an old word is a step that moves its thread only.
-/

namespace RefCount.ArrayQueue

open RelAcq

/-! ## What a stale stamp tells -/

/-- The stamp of a slot that has come to `k`. -/
def stampAt (w C k : Nat) : BitVec w :=
  if k % 2 = 0 then Stamp.enc w (lapBits C) C (k / 2) else Stamp.enc w (lapBits C) C (k / 2) + 1

/-- `x` was the stamp of slot `i` once; `T` is the count of `tail` now. -/
structure Dated (w C T i : Nat) (x : Loaded w) : Prop where
  stamp : x.stamp = stampAt w C x.count
  place : x.count / 2 % C = i
  waits : x.count / 2 < T + C
  holds : x.count % 2 = 1 → x.count / 2 < T

section
variable {w C H T i p : Nat} {c : Cell} {x : Loaded w}

theorem Dated.mono {T' : Nat} (h : Dated w C T i x) (hle : T ≤ T') : Dated w C T' i x :=
  ⟨h.stamp, h.place, by have := h.waits; omega, fun ho => Nat.lt_of_lt_of_le (h.holds ho) hle⟩

theorem stampAt_even (p : Nat) : stampAt w C (2 * p) = Stamp.enc w (lapBits C) C p := by
  unfold stampAt
  rw [if_pos (Nat.mul_mod_right 2 p), Nat.mul_div_cancel_left p (by omega)]

theorem stampAt_odd (p : Nat) : stampAt w C (2 * p + 1) = Stamp.enc w (lapBits C) C p + 1 := by
  unfold stampAt
  rw [if_neg (by omega), show (2 * p + 1) / 2 = p by omega]

/-- The stamps of one slot tell whether it waits or holds a value. -/
theorem stampAt_parity (hl : Layout w C) {k m : Nat} (hk : k / 2 % C = m / 2 % C)
    (e : stampAt w C k = stampAt w C m) : k % 2 = m % 2 := by
  unfold stampAt at e
  split at e
  · split at e
    · omega
    · exact absurd e.symm (Stamp.enc_add_one_ne hl.stamp hk.symm)
  · split at e
    · exact absurd e (Stamp.enc_add_one_ne hl.stamp hk)
    · omega

theorem Cell.stamp_eq (c : Cell) : c.stamp w C = stampAt w C c.phase := by
  cases c with
  | free n => exact (stampAt_even n).symm
  | writing p t b => exact (stampAt_even p).symm
  | full p => exact (stampAt_odd p).symm
  | reading p t b => exact (stampAt_odd p).symm
  | evicting p t => exact (stampAt_odd p).symm
  | replacing p t b => exact (stampAt_odd p).symm

theorem Cell.Ok.dated (h : c.Ok C H T i) : Dated w C T i ⟨c.stamp w C, c.phase⟩ := by
  have hhigh := h.high
  have hplace := h.place'
  have hfree : ∀ n, c.phase = 2 * n → n % C = i → n < T + C → Dated w C T i ⟨c.stamp w C, c.phase⟩ := by
    intro n hn hi hlt
    refine ⟨c.stamp_eq, ?_, ?_, fun ho => ?_⟩
    · show c.phase / 2 % C = i
      rw [hn, Nat.mul_div_cancel_left n (by omega)]
      exact hi
    · show c.phase / 2 < T + C
      omega
    · have ho : c.phase % 2 = 1 := ho
      omega
  have hfull : ∀ q, c.phase = 2 * q + 1 → q % C = i → q < T → Dated w C T i ⟨c.stamp w C, c.phase⟩ := by
    intro q hq hi hlt
    refine ⟨c.stamp_eq, ?_, ?_, fun _ => ?_⟩
    · show c.phase / 2 % C = i
      rw [hq, show (2 * q + 1) / 2 = q by omega]
      exact hi
    · show c.phase / 2 < T + C
      omega
    · show c.phase / 2 < T
      omega
  cases c with
  | free n => exact hfree n rfl hplace hhigh
  | writing q t b => exact hfree q rfl hplace (Nat.lt_of_le_of_lt (Nat.le_add_right q C) hhigh)
  | full q => exact hfull q rfl hplace (Nat.lt_of_add_lt_add_right hhigh)
  | reading q t b => exact hfull q rfl hplace (Nat.lt_of_add_lt_add_right hhigh)
  | evicting q t => exact hfull q rfl hplace (Nat.lt_of_add_lt_add_right hhigh)
  | replacing q t b =>
    exact hfull q rfl hplace (Nat.lt_of_le_of_lt (Nat.le_add_right q C) (Nat.lt_of_add_lt_add_right hhigh))

/-- A stamp that reads as that of position `p`, and is short of a full cycle old. -/
theorem Dated.le_of_enc (hl : Layout w C) (h : Dated w C T i x) (hp : p % C = i) (hold : p < x.count / 2 + laps w C * C)
    (e : Stamp.enc w (lapBits C) C p = x.stamp) : 2 * p ≤ x.count := by
  have hplace := h.place
  rw [h.stamp, ← stampAt_even p] at e
  have hpar := stampAt_parity hl (by rw [Nat.mul_div_cancel_left p (by omega), hplace, hp]) e
  unfold stampAt at e
  rw [if_pos (Nat.mul_mod_right 2 p), if_pos (by omega), Nat.mul_div_cancel_left p (by omega)] at e
  by_contra hlt
  have hnear := Stamp.enc_near hl.stamp (p := x.count / 2) (q := p) (by omega) hold e
  omega

theorem Dated.lt_of_enc (hl : Layout w C) (h : Dated w C T i x) (hp : p % C = i) (hold : p < x.count / 2 + laps w C * C)
    (e : Stamp.enc w (lapBits C) C p + 1 = x.stamp) : 2 * p + 1 ≤ x.count := by
  have hplace := h.place
  rw [h.stamp, ← stampAt_odd p] at e
  have hpar := stampAt_parity hl (by rw [show (2 * p + 1) / 2 = p by omega, hplace, hp]) e
  unfold stampAt at e
  rw [if_neg (by omega), if_neg (by omega), show (2 * p + 1) / 2 = p by omega, Stamp.add_one_inj] at e
  by_contra hlt
  have hnear := Stamp.enc_near hl.stamp (p := x.count / 2) (q := p) (by omega) hold e
  omega

/-- A stamp that reads as that of a full slot of the lap before position `p`. -/
theorem Dated.push_full (hl : Layout w C) (h : Dated w C T i x) (hp : p % C = i) (hle : p ≤ T)
    (hnear : T < p + (laps w C - 1) * C) (hold : T < x.count / 2 + (laps w C - 1) * C)
    (e : x.stamp + oneLap w C = Stamp.enc w (lapBits C) C p + 1) : C ≤ p ∧ 2 * (p - C) + 1 ≤ x.count := by
  have hplace := h.place
  have hlap := laps_cycle w C
  rw [h.stamp] at e
  unfold stampAt at e
  split at e
  · rw [oneLap, Stamp.enc_add_lap hl.stamp] at e
    exact absurd e.symm (Stamp.enc_add_one_ne hl.stamp (by rw [hp, Nat.add_mod_right, hplace]))
  · have hq := h.holds (by omega)
    rw [BitVec.add_assoc, BitVec.add_comm 1, ← BitVec.add_assoc, oneLap, Stamp.enc_add_lap hl.stamp,
      Stamp.add_one_inj] at e
    have hpos : x.count / 2 + C = p := by
      by_cases hle' : p ≤ x.count / 2 + C
      · exact Stamp.enc_near hl.stamp hle' (by unfold laps at hlap hnear; omega) e
      · exact (Stamp.enc_near hl.stamp (Nat.le_of_not_le hle') (by unfold laps at hlap hold; omega) e.symm).symm
    omega

theorem Cell.next_of_phase (ho : c.owner = none) : c.phase / 2 + c.phase % 2 * C = c.next C := by
  cases c with
  | free n =>
    simp only [phase, next]
    rw [Nat.mul_mod_right, Nat.mul_div_cancel_left n (by omega), Nat.zero_mul, Nat.add_zero]
  | full q =>
    simp only [phase, next]
    rw [show (2 * q + 1) / 2 = q by omega, show (2 * q + 1) % 2 = 1 by omega, Nat.one_mul]
  | _ => cases ho

/-- What a slot that nobody is at work in has come to, shows in its stamp. -/
theorem Cell.Ok.phase_eq (hl : Layout w C) (h : c.Ok C H T i) (ho : c.owner = none) {k : Nat}
    (hs : c.stamp w C = stampAt w C k) (hplace : k / 2 % C = i)
    (hlow : T ≤ k / 2 + k % 2 * C) (hhigh : k / 2 + k % 2 * C < T + C) : c.phase = k := by
  have hpar : c.phase % 2 = k % 2 :=
    stampAt_parity hl ((h.dated (w := w)).place.trans hplace.symm) (c.stamp_eq.symm.trans hs)
  have hlow' := h.low
  have hhigh' := h.high
  have hplace' := h.place'
  have hmod : ∀ n m, n % C = m % C → T ≤ n → n < T + C → T ≤ m → m < T + C → n = m := by
    intro n m e h₁ h₂ h₃ h₄
    rcases Nat.le_total m n with hle | hle
    · exact eq_of_mod e hle (by omega)
    · exact (eq_of_mod e.symm hle (by omega)).symm
  cases c with
  | free n =>
    simp only [phase, next] at hlow' hhigh' hpar ⊢
    have hk : k % 2 = 0 := by omega
    rw [hk, Nat.zero_mul, Nat.add_zero] at hlow hhigh
    have hn := hmod n (k / 2) (hplace'.trans hplace.symm) hlow' hhigh' hlow hhigh
    omega
  | full q =>
    simp only [phase, next] at hlow' hhigh' hpar ⊢
    have hk : k % 2 = 1 := by omega
    rw [hk, Nat.one_mul] at hlow hhigh
    have hq := hmod (q + C) (k / 2 + C) (by rw [Nat.add_mod_right, Nat.add_mod_right]; exact hplace'.trans hplace.symm)
      hlow' hhigh' hlow hhigh
    omega
  | _ => cases ho

end

/-! ## Loads -/

section
variable {w : Nat} {V : Type} (C : Nat)

/-- The slot whose stamp the thread has read to claim it, and how far it had come at least. -/
def Pc.claims : Pc w V → Option (Nat × Nat)
  | .pushCasTail _ _ tail => some (tail.count % C, 2 * tail.count)
  | .forceCasHead _ tail => some (tail.count % C, 2 * (tail.count - C) + 1)
  | .popCasHead head => some (head.count % C, 2 * head.count + 1)
  | _ => none

/-- `x` was at location `l` once, and was not left behind by a full cycle of stamps. -/
def State.Had (s : State w V) (g : Ghost V) (x : Loaded w) : Loc → Prop
  | .head => x.upTo C s.heads
  | .tail => x.upTo C s.tails
  | .stamp i => Dated w C s.tails i x ∧ x.count ≤ (g.cell i).phase ∧ s.tails < x.count / 2 + (laps w C - 1) * C

/-- A step that reads `x` and writes nothing: thread `t` goes on at `q`. -/
structure State.Reads (s : State w V) (g : Ghost V) (t : Tid) (x : Loaded w) (l : Loc) (s' : State w V) (q : Pc w V) :
    Prop where
  pc : s'.pc = Function.update s.pc t q
  cell : (s.pc t).cell C t = none ∧ q.cell C t = none
  knows : q.Knows C s.heads s.tails g
  claims : ∀ i k, q.claims C = some (i, k) → (s.pc t).access C = .load l .acquire ∧ l = .stamp i ∧ k ≤ x.count

end

section
variable {w C : Nat} {V : Type} {s s' : State w V} {g : Ghost V} {t : Tid} {b : Bool} {x : Loaded w} {l : Loc}

theorem State.Reads.quiet {q : Pc w V} (hpc : s'.pc = Function.update s.pc t q) (hc : (s.pc t).cell C t = none)
    (hq : q.cell C t = none) (hk : q.Knows C s.heads s.tails g) (hn : q.claims C = none) : s.Reads C g t x l s' q :=
  ⟨hpc, ⟨hc, hq⟩, hk, fun i k h => by rw [hn] at h; cases h⟩

theorem present_stamp {i : Nat} {y : BitVec w} (hy : (index C y).toNat = i) :
    ((s.present x (.stamp i)).slot C y).stamp = x.stamp := by
  unfold State.slot
  rw [hy]
  show (Function.update s.buffer i _ i).stamp = _
  rw [Function.update_self]

theorem Inv.present_pushLoadStamp (hl : Layout w C) (hi : Inv C s g) {op : PushOp} {value : V} {y : Loaded w} {i : Nat}
    (hpc : s.pc t = .pushLoadStamp op value y) (hx : s.Had C g x (.stamp i)) (hy : (index C y.stamp).toNat = i)
    (hnear : s.tails < y.count + (laps w C - 1) * C) :
    ∃ q, s.Reads C g t x (.stamp i) ((s.present x (.stamp i)).pushLoadStamp C t op value y) q := by
  have hk : y.upTo C s.tails := by
    have := hi.knows t
    rw [hpc] at this
    exact this
  obtain ⟨hdated, hphase, hold⟩ := hx
  have hslot := present_stamp (s := s) (x := x) hy
  have hplace : y.count % C = i := by rw [← hy, hk.1, enc_index hl]
  have hacc : (s.pc t).access C = .load (.stamp i) .acquire := by rw [hpc, ← hy]; rfl
  have hcell : (s.pc t).cell C t = none := by rw [hpc]; rfl
  have hlt := Nat.mod_lt y.count hl.pos
  have hlap := laps_cycle w C
  have hle := hk.2
  unfold State.pushLoadStamp
  rw [hslot, hk.1, enc_succ hl, enc_add_one hl]
  simp only [enc_index hl, if_pos hlt]
  split
  · rename_i e
    have hread := hdated.le_of_enc hl hplace (by omega) e
    refine ⟨_, rfl, ⟨hcell, rfl⟩, ⟨hk, by rw [hplace]; exact Nat.le_trans hread hphase⟩, fun j k h => ?_⟩
    cases h
    exact ⟨hacc, by rw [hplace], hread⟩
  · split
    · rename_i e
      obtain ⟨hC, hread⟩ := hdated.push_full hl hplace hle hnear hold e
      have hknows : y.upTo C s.tails ∧ C ≤ y.count ∧ 2 * (y.count - C) + 1 ≤ (g.cell (y.count % C)).phase :=
        ⟨hk, hC, by rw [hplace]; exact Nat.le_trans hread hphase⟩
      cases op with
      | push => exact ⟨_, .quiet rfl hcell rfl hknows rfl⟩
      | forcePush =>
        refine ⟨_, rfl, ⟨hcell, rfl⟩, hknows, fun j k h => ?_⟩
        cases h
        exact ⟨hacc, by rw [hplace], hread⟩
    · exact ⟨_, .quiet rfl hcell rfl trivial rfl⟩

theorem Inv.present_popLoadStamp (hl : Layout w C) (hi : Inv C s g) {y : Loaded w} {i : Nat}
    (hpc : s.pc t = .popLoadStamp y) (hx : s.Had C g x (.stamp i)) (hy : (index C y.stamp).toNat = i) :
    ∃ q, s.Reads C g t x (.stamp i) ((s.present x (.stamp i)).popLoadStamp C t y) q := by
  have hk : y.upTo C s.heads := by
    have := hi.knows t
    rw [hpc] at this
    exact this
  obtain ⟨hdated, hphase, hold⟩ := hx
  have hslot := present_stamp (s := s) (x := x) hy
  have hplace : y.count % C = i := by rw [← hy, hk.1, enc_index hl]
  have hacc : (s.pc t).access C = .load (.stamp i) .acquire := by rw [hpc, ← hy]; rfl
  have hcell : (s.pc t).cell C t = none := by rw [hpc]; rfl
  have hlt := Nat.mod_lt y.count hl.pos
  have hlap := laps_cycle w C
  have hle := hk.2
  have hHT := hi.le
  unfold State.popLoadStamp
  rw [hslot, hk.1, enc_add_one hl]
  simp only [enc_index hl, if_pos hlt]
  split
  · rename_i e
    have hread := hdated.lt_of_enc hl hplace (by omega) e
    refine ⟨_, rfl, ⟨hcell, rfl⟩, ⟨hk, by rw [hplace]; exact Nat.le_trans hread hphase⟩, fun j k h => ?_⟩
    cases h
    exact ⟨hacc, by rw [hplace], hread⟩
  · split
    · rename_i e
      have hread := hdated.le_of_enc hl hplace (by omega) e.symm
      exact ⟨_, .quiet rfl hcell rfl ⟨hk, by rw [hplace]; exact Nat.le_trans hread hphase⟩ rfl⟩
    · exact ⟨_, .quiet rfl hcell rfl trivial rfl⟩

theorem present_pc : (s.present x l).pc = s.pc := by
  cases l <;> rfl

theorem Inv.present_load (hl : Layout w C) (hi : Inv C s g) {o : Order} (hacc : (s.pc t).access C = .load l o)
    (hx : s.Had C g x l) (hn : (s.pc t).near (laps w C - 1) C s.heads s.tails = true)
    (h : (s.present x l).stepThread C t b = some s') : ∃ q, s.Reads C g t x l s' q := by
  unfold State.stepThread at h
  rw [present_pc] at h
  cases hpc : s.pc t with
  | pushLoadTail op value =>
    rw [hpc] at h hacc
    cases hacc
    cases h
    exact ⟨_, .quiet rfl (by rw [hpc]; rfl) rfl hx rfl⟩
  | pushLoadStamp op value y =>
    rw [hpc] at h hacc hn
    cases hacc
    cases h
    exact hi.present_pushLoadStamp hl hpc hx rfl (of_decide_eq_true hn)
  | pushLoadHead value y =>
    rw [hpc] at h hacc
    cases hacc
    cases h
    unfold State.pushLoadHead
    split
    · exact ⟨_, .quiet rfl (by rw [hpc]; rfl) rfl trivial rfl⟩
    · exact ⟨_, .quiet rfl (by rw [hpc]; rfl) rfl trivial rfl⟩
  | popLoadHead =>
    rw [hpc] at h hacc
    cases hacc
    cases h
    exact ⟨_, .quiet rfl (by rw [hpc]; rfl) rfl hx rfl⟩
  | popLoadStamp y =>
    rw [hpc] at h hacc
    cases hacc
    cases h
    exact hi.present_popLoadStamp hl hpc hx rfl
  | popLoadTail y =>
    rw [hpc] at h hacc
    cases hacc
    cases h
    unfold State.popLoadTail
    split
    · exact ⟨_, .quiet rfl (by rw [hpc]; rfl) rfl trivial rfl⟩
    · exact ⟨_, .quiet rfl (by rw [hpc]; rfl) rfl trivial rfl⟩
  | isEmptyLoadHead => rw [hpc] at h hacc; cases hacc; cases h; exact ⟨_, .quiet rfl (by rw [hpc]; rfl) rfl trivial rfl⟩
  | isEmptyLoadTail y => rw [hpc] at h hacc; cases hacc; cases h; exact ⟨_, .quiet rfl (by rw [hpc]; rfl) rfl trivial rfl⟩
  | isFullLoadTail => rw [hpc] at h hacc; cases hacc; cases h; exact ⟨_, .quiet rfl (by rw [hpc]; rfl) rfl trivial rfl⟩
  | isFullLoadHead y => rw [hpc] at h hacc; cases hacc; cases h; exact ⟨_, .quiet rfl (by rw [hpc]; rfl) rfl trivial rfl⟩
  | lenLoadTail =>
    rw [hpc] at h hacc
    cases hacc
    cases h
    exact ⟨_, .quiet rfl (by rw [hpc]; rfl) rfl ⟨_, hx.1⟩ rfl⟩
  | lenLoadHead y =>
    have hk := hi.knows t
    rw [hpc] at h hacc hk
    cases hacc
    cases h
    exact ⟨_, .quiet rfl (by rw [hpc]; rfl) rfl ⟨hk, _, hx.1⟩ rfl⟩
  | lenLoadTailAgain y z =>
    have hk := hi.knows t
    rw [hpc] at h hacc hk
    cases hacc
    cases h
    obtain ⟨⟨q, rfl⟩, p, rfl⟩ := hk
    obtain ⟨n, hn, _⟩ := queueSize_enc hl p q
    unfold State.lenLoadTailAgain
    rw [hn]
    split
    · exact ⟨_, .quiet rfl (by rw [hpc]; rfl) rfl trivial rfl⟩
    · exact ⟨_, .quiet rfl (by rw [hpc]; rfl) rfl trivial rfl⟩
  | _ => rw [hpc] at hacc; cases hacc

/-- A `compare_exchange_weak` that fails. -/
theorem Inv.present_cas (hl : Layout w C) (hi : Inv C s g) {e : BitVec w} (hacc : (s.pc t).access C = .cas l e)
    (hx : s.Had C g x l) (hf : ¬ (x.stamp = e ∧ b = false)) (h : (s.present x l).stepThread C t b = some s') :
    ∃ q, s.Reads C g t x l s' q := by
  unfold State.stepThread at h
  rw [present_pc] at h
  cases hpc : s.pc t with
  | pushCasTail op value y =>
    rw [hpc] at h hacc
    cases hacc
    cases h
    unfold State.pushCasTail
    split
    · rename_i he
      exact absurd he hf
    · exact ⟨_, .quiet rfl (by rw [hpc]; rfl) rfl hx rfl⟩
  | forceCasHead value y =>
    have hk := hi.knows t
    rw [hpc] at h hacc hk
    cases hacc
    cases h
    unfold State.forceCasHead
    rw [hk.1.1, enc_succ hl, ← hk.1.1]
    simp only
    split
    · rename_i he
      exact absurd he hf
    · exact ⟨_, .quiet rfl (by rw [hpc]; rfl) rfl trivial rfl⟩
  | popCasHead y =>
    have hk := hi.knows t
    rw [hpc] at h hacc hk
    cases hacc
    cases h
    unfold State.popCasHead
    rw [hk.1.1, enc_succ hl, ← hk.1.1]
    simp only
    split
    · rename_i he
      exact absurd he hf
    · exact ⟨_, .quiet rfl (by rw [hpc]; rfl) rfl hx rfl⟩
  | _ => rw [hpc] at hacc; cases hacc

end

end RefCount.ArrayQueue
