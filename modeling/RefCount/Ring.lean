import RefCount.ArrayQueue

/-!
# The cells of the ring

A cell says what is going on in a slot: which position it stands for, who is at work in
it, and how far he is. The stamp and the value of the slot follow from it. `Cell.Ok`
ties a cell to the counts `H` and `T` of `head` and `tail`; the tests that `push` and
`pop` make on a stamp are read here as statements about the cell.
-/

namespace RefCount.ArrayQueue

/-- `free n`: waits for position `n`. `evicting p`: `head` has moved past `p`, `tail` not
yet; `replacing p`: `tail` has, and the value of position `p + C` takes the place of that
of `p`. The flag says that the thread has done its access to the value. -/
inductive Cell where
  | free (n : Nat)
  | writing (p : Nat) (t : Tid) (accessed : Bool)
  | full (p : Nat)
  | reading (p : Nat) (t : Tid) (accessed : Bool)
  | evicting (p : Nat) (t : Tid)
  | replacing (p : Nat) (t : Tid) (accessed : Bool)
  deriving DecidableEq

namespace Cell

def owner : Cell → Option Tid
  | .free _ => none
  | .writing _ t _ => some t
  | .full _ => none
  | .reading _ t _ => some t
  | .evicting _ t => some t
  | .replacing _ t _ => some t

/-- Grows as the cell goes from position to position: `2 * p` before `p` is published,
`2 * p + 1` after. -/
def phase : Cell → Nat
  | .free n => 2 * n
  | .writing p _ _ => 2 * p
  | .full p => 2 * p + 1
  | .reading p _ _ => 2 * p + 1
  | .evicting p _ => 2 * p + 1
  | .replacing p _ _ => 2 * p + 1

def stamp (w C : Nat) : Cell → BitVec w
  | .free n => Stamp.enc w (lapBits C) C n
  | .writing p _ _ => Stamp.enc w (lapBits C) C p
  | .full p => Stamp.enc w (lapBits C) C p + 1
  | .reading p _ _ => Stamp.enc w (lapBits C) C p + 1
  | .evicting p _ => Stamp.enc w (lapBits C) C p + 1
  | .replacing p _ _ => Stamp.enc w (lapBits C) C p + 1

def next (C : Nat) : Cell → Nat
  | .free n => n
  | .writing p _ _ => p + C
  | .full p => p + C
  | .reading p _ _ => p + C
  | .evicting p _ => p + C
  | .replacing p _ _ => p + C + C

/-- What the slot holds, if `vals` are the values accepted so far. -/
def value {V : Type} (C : Nat) (vals : List V) : Cell → Option V
  | .free _ => none
  | .writing p _ accessed => if accessed then vals[p]? else none
  | .full p => vals[p]?
  | .reading p _ accessed => if accessed then none else vals[p]?
  | .evicting p _ => vals[p]?
  | .replacing p _ accessed => if accessed then vals[p + C]? else vals[p]?

def isEvicting : Cell → Bool
  | .evicting _ _ => true
  | _ => false

/-- What the counts say about the position of a cell. -/
def Turn (C H T : Nat) : Cell → Prop
  | .free n => n < H + C
  | .writing p _ _ => H ≤ p
  | .full p => H ≤ p
  | .reading p _ _ => p < H
  | .evicting p _ => p < H ∧ T = p + C
  | .replacing p _ _ => H ≤ p + C

structure Ok (C H T i : Nat) (c : Cell) : Prop where
  place : c.next C % C = i
  low : T ≤ c.next C
  high : c.next C < T + C
  turn : c.Turn C H T

end Cell

/-! ## Places -/

/-- A queue of capacity `C` in words of `w` bits: `C` is not zero and `one_lap` fits. -/
structure Layout (w C : Nat) : Prop where
  pos : 0 < C
  fits : lapBits C < w

/-- How many laps have different stamps. -/
def laps (w C : Nat) : Nat := 2 ^ (w - lapBits C)

section
variable {w C H T i n p : Nat} {c : Cell}

theorem Layout.stamp (hl : Layout w C) : Stamp.Fits w (lapBits C) C :=
  ⟨hl.pos, Nat.le_pow_clog (by omega) (C + 1), hl.fits⟩

theorem Layout.laps (hl : Layout w C) : C + C ≤ laps w C * C := by
  have h : 2 ^ 1 ≤ 2 ^ (w - lapBits C) := Nat.pow_le_pow_right (by omega) (by have := hl.fits; omega)
  have := Nat.mul_le_mul_right C h
  unfold ArrayQueue.laps
  omega

theorem laps_cycle (w C : Nat) : (laps w C - 1) * C + C = laps w C * C := by
  have hlaps : 1 ≤ laps w C := Nat.one_le_two_pow
  rw [← Nat.succ_mul, Nat.succ_eq_add_one, Nat.sub_add_cancel hlaps]

theorem eq_of_mod (hm : n % C = p % C) (hle : p ≤ n) (hlt : n < p + C) : n = p := by
  have hd : n ≡ p [MOD C] := hm
  have hz := Nat.eq_zero_of_dvd_of_lt ((Nat.modEq_iff_dvd' hle).mp hd.symm) (by omega)
  omega

theorem enc_succ (hl : Layout w C) (p : Nat) :
    newStamp C (Stamp.enc w (lapBits C) C p) = some (Stamp.enc w (lapBits C) C (p + 1)) := by
  have hf := hl.stamp
  have hone : (1 : BitVec w).toNat = 1 := BitVec.toNat_one (by have := hl.fits; omega)
  have hi : (index C (Stamp.enc w (lapBits C) C p)).toNat = p % C :=
    (Stamp.toNat_and_mask hl.fits _).trans (Stamp.enc_index hf p)
  have hlt := Nat.mod_lt p hl.pos
  have hw : 2 ^ lapBits C < 2 ^ w := Nat.pow_lt_pow_right (by omega) hl.fits
  have hC := hf.index
  have hadd : (index C (Stamp.enc w (lapBits C) C p) + 1).toNat = p % C + 1 := by
    rw [BitVec.toNat_add, hi, hone, Nat.mod_eq_of_lt (by omega)]
  unfold newStamp checkedAdd
  rw [hi, hone, if_pos (by omega), Option.bind_some, hadd, if_pos (Stamp.enc_lt hf p)]
  split
  · rename_i h
    rw [Stamp.enc_succ hf h]
  · rename_i h
    exact congrArg some (Stamp.enc_succ_lap hf h)

theorem enc_index (hl : Layout w C) (p : Nat) : (index C (Stamp.enc w (lapBits C) C p)).toNat = p % C :=
  (Stamp.toNat_and_mask hl.fits _).trans (Stamp.enc_index hl.stamp p)

theorem enc_add_one (hl : Layout w C) (p : Nat) :
    checkedAdd (Stamp.enc w (lapBits C) C p) 1 = some (Stamp.enc w (lapBits C) C p + 1) := by
  have hone : (1 : BitVec w).toNat = 1 := BitVec.toNat_one (by have := hl.fits; omega)
  unfold checkedAdd
  rw [hone, if_pos (Stamp.enc_lt hl.stamp p)]

theorem checkedAdd_of {x y : BitVec w} (h : x.toNat + y.toNat < 2 ^ w) : ∃ z, checkedAdd x y = some z ∧
    z.toNat = x.toNat + y.toNat := by
  refine ⟨x + y, if_pos h, ?_⟩
  rw [BitVec.toNat_add, Nat.mod_eq_of_lt h]

theorem checkedSub_of {x y : BitVec w} (h : y.toNat ≤ x.toNat) : ∃ z, checkedSub x y = some z ∧
    z.toNat = x.toNat - y.toNat :=
  ⟨x - y, if_pos h, BitVec.toNat_sub_of_le h⟩

/-- `queue_size!` does not overflow, and gives the distance of two positions that are at
most `C` apart. -/
theorem queueSize_enc (hl : Layout w C) (p q : Nat) : ∃ n, queueSize C (Stamp.enc w (lapBits C) C p)
      (Stamp.enc w (lapBits C) C q) = some n ∧ (p ≤ q → q ≤ p + C → n.toNat = q - p) := by
  have hp := Nat.mod_lt p hl.pos
  have hq := Nat.mod_lt q hl.pos
  have hw : C < 2 ^ w := Nat.lt_trans hl.stamp.index (Nat.pow_lt_pow_right (by omega) hl.fits)
  have hC : (BitVec.ofNat w C).toNat = C := by rw [BitVec.toNat_ofNat, Nat.mod_eq_of_lt hw]
  have hdist : p ≤ q → q ≤ p + C → q % C = p % C + (q - p) ∨ q % C + C = p % C + (q - p) := by
    intro h₁ h₂
    have e : q % C = (p % C + (q - p)) % C := by rw [Nat.mod_add_mod, Nat.add_sub_cancel' h₁]
    by_cases hlt : p % C + (q - p) < C
    · rw [Nat.mod_eq_of_lt hlt] at e
      exact .inl e
    · have hlt' : p % C + (q - p) - C < C := by omega
      rw [Nat.mod_eq_sub_mod (Nat.not_lt.mp hlt), Nat.mod_eq_of_lt hlt'] at e
      exact .inr (by omega)
  unfold queueSize
  rw [enc_index hl, enc_index hl]
  split
  · obtain ⟨n, hn, e⟩ := checkedSub_of (x := index C (Stamp.enc w (lapBits C) C q))
      (y := index C (Stamp.enc w (lapBits C) C p)) (by rw [enc_index hl, enc_index hl]; omega)
    rw [enc_index hl, enc_index hl] at e
    refine ⟨n, hn, fun h₁ h₂ => ?_⟩
    have := hdist h₁ h₂
    omega
  · split
    · obtain ⟨m, hm, e⟩ := checkedSub_of (x := BitVec.ofNat w C) (y := index C (Stamp.enc w (lapBits C) C p))
        (by rw [hC, enc_index hl]; omega)
      rw [hC, enc_index hl] at e
      obtain ⟨n, hn, e'⟩ := checkedAdd_of (x := m) (y := index C (Stamp.enc w (lapBits C) C q))
        (by rw [e, enc_index hl]; omega)
      rw [e, enc_index hl] at e'
      refine ⟨n, by rw [hm]; exact hn, fun h₁ h₂ => ?_⟩
      have := hdist h₁ h₂
      omega
    · split
      · rename_i he
        refine ⟨0, rfl, fun h₁ h₂ => ?_⟩
        have hlaps := hl.laps
        have hpos := hl.pos
        have := Stamp.enc_near hl.stamp h₁ (by unfold laps at hlaps; omega) he
        have hz : (0 : BitVec w).toNat = 0 := BitVec.toNat_zero
        omega
      · rename_i he
        refine ⟨_, rfl, fun h₁ h₂ => ?_⟩
        have hne : q ≠ p := fun e => he (by rw [e])
        have := hdist h₁ h₂
        rw [hC]
        omega

namespace Cell

/-! ## What the stamp of a slot tells -/

theorem Ok.next_eq (h : c.Ok C H T i) (hi : T % C = i) : c.next C = T :=
  eq_of_mod (h.place.trans hi.symm) h.low h.high

theorem Ok.place' (h : c.Ok C H T i) : match c with
    | .free n => n % C = i
    | .writing p _ _ => p % C = i
    | .full p => p % C = i
    | .reading p _ _ => p % C = i
    | .evicting p _ => p % C = i
    | .replacing p _ _ => p % C = i := by
  have hp := h.place
  cases c <;> simpa [next] using hp

/-- A pusher that finds its own stamp may try to take the slot. -/
theorem Ok.push_stamp (hl : Layout w C) (h : c.Ok C H T i) (hp : p % C = i) (hle : p ≤ T)
    (e : Stamp.enc w (lapBits C) C p = c.stamp w C) : 2 * p ≤ c.phase := by
  have hlow := h.low
  have hplace := h.place'
  have hlaps := hl.laps
  have hpos := hl.pos
  cases c with
  | free n =>
    simp only [next] at hlow
    simp only [phase]
    omega
  | writing q t b =>
    simp only [next] at hlow
    simp only [phase]
    by_contra hn
    have := Stamp.enc_near hl.stamp (p := q) (q := p) (by omega) (by unfold laps at hlaps; omega) e
    omega
  | full q => exact absurd e.symm (Stamp.enc_add_one_ne hl.stamp (hplace.trans hp.symm))
  | reading q t b => exact absurd e.symm (Stamp.enc_add_one_ne hl.stamp (hplace.trans hp.symm))
  | evicting q t => exact absurd e.symm (Stamp.enc_add_one_ne hl.stamp (hplace.trans hp.symm))
  | replacing q t b => exact absurd e.symm (Stamp.enc_add_one_ne hl.stamp (hplace.trans hp.symm))

/-- A pusher that finds the stamp of a full slot of the lap before his own. -/
theorem Ok.push_full (hl : Layout w C) (h : c.Ok C H T i) (hp : p % C = i) (hle : p ≤ T)
    (hnear : T < p + (laps w C - 1) * C)
    (e : c.stamp w C + oneLap w C = Stamp.enc w (lapBits C) C p + 1) : C ≤ p ∧ 2 * (p - C) + 1 ≤ c.phase := by
  have hf := hl.stamp
  have hlow := h.low
  have hhigh := h.high
  have hplace := h.place'
  have hlaps := hl.laps
  have hpos := hl.pos
  have hlap := laps_cycle w C
  have hcycle : T + C < p + laps w C * C := by omega
  have hshift : ∀ q, Stamp.enc w (lapBits C) C q + 1 + oneLap w C = Stamp.enc w (lapBits C) C p + 1 →
      Stamp.enc w (lapBits C) C (q + C) = Stamp.enc w (lapBits C) C p := by
    intro q e
    rw [BitVec.add_assoc, BitVec.add_comm 1, ← BitVec.add_assoc, oneLap, Stamp.enc_add_lap hf,
      Stamp.add_one_inj] at e
    exact e
  have hbefore : ∀ q, q % C = i → Stamp.enc w (lapBits C) C q + oneLap w C ≠ Stamp.enc w (lapBits C) C p + 1 := by
    intro q hq e
    rw [oneLap, Stamp.enc_add_lap hf] at e
    exact Stamp.enc_add_one_ne hf (by rw [hp, Nat.add_mod_right, hq]) e.symm
  cases c with
  | free n => exact absurd e (hbefore n hplace)
  | writing q t b => exact absurd e (hbefore q hplace)
  | full q =>
    have : q + C = p := Stamp.enc_near hf (Nat.le_trans hle hlow) (Nat.lt_trans hhigh hcycle) (hshift q e)
    simp only [phase]
    omega
  | reading q t b =>
    have : q + C = p := Stamp.enc_near hf (Nat.le_trans hle hlow) (Nat.lt_trans hhigh hcycle) (hshift q e)
    simp only [phase]
    omega
  | evicting q t =>
    have : q + C = p := Stamp.enc_near hf (Nat.le_trans hle hlow) (Nat.lt_trans hhigh hcycle) (hshift q e)
    simp only [phase]
    omega
  | replacing q t b =>
    simp only [next] at hlow hhigh
    simp only [phase]
    by_cases hq : p ≤ q + C
    · have := Stamp.enc_near hf hq (by unfold laps at hcycle; omega) (hshift q e)
      omega
    · have := Stamp.enc_near hf (p := q + C) (q := p) (by omega) (by unfold laps at hlaps; omega) (hshift q e).symm
      omega

/-- A popper that finds the stamp of a full slot. -/
theorem Ok.pop_full (hl : Layout w C) (h : c.Ok C H T i) (hp : p % C = i) (hle : p ≤ H) (hHT : H ≤ T)
    (e : Stamp.enc w (lapBits C) C p + 1 = c.stamp w C) : 2 * p + 1 ≤ c.phase := by
  have hf := hl.stamp
  have hlow := h.low
  have hturn := h.turn
  have hplace := h.place'
  have hlaps := hl.laps
  have hpos := hl.pos
  have hnear : ∀ q, p ≤ q + C → Stamp.enc w (lapBits C) C p + 1 = Stamp.enc w (lapBits C) C q + 1 → p ≤ q := by
    intro q hq e
    by_contra hn
    have := Stamp.enc_near hf (p := q) (q := p) (by omega) (by unfold laps at hlaps; omega) (Stamp.add_one_inj.mp e)
    omega
  cases c with
  | free n => exact absurd e (Stamp.enc_add_one_ne hf (hp.trans hplace.symm))
  | writing q t b => exact absurd e (Stamp.enc_add_one_ne hf (hp.trans hplace.symm))
  | full q =>
    simp only [Turn] at hturn
    simp only [phase]
    omega
  | reading q t b =>
    simp only [next] at hlow
    have := hnear q (by omega) e
    simp only [phase]
    omega
  | evicting q t =>
    simp only [next] at hlow
    have := hnear q (by omega) e
    simp only [phase]
    omega
  | replacing q t b =>
    simp only [Turn] at hturn
    have := hnear q (by omega) e
    simp only [phase]
    omega

/-- A popper that finds the stamp of a slot that waits for his own position. -/
theorem Ok.pop_free (hl : Layout w C) (h : c.Ok C H T i) (hp : p % C = i) (hle : p ≤ H) (hHT : H ≤ T)
    (e : c.stamp w C = Stamp.enc w (lapBits C) C p) : 2 * p ≤ c.phase := by
  have hlow := h.low
  have hturn := h.turn
  have hplace := h.place'
  cases c with
  | free n =>
    simp only [next] at hlow
    simp only [phase]
    omega
  | writing q t b =>
    simp only [Turn] at hturn
    simp only [phase]
    omega
  | full q => exact absurd e (Stamp.enc_add_one_ne hl.stamp (hplace.trans hp.symm))
  | reading q t b => exact absurd e (Stamp.enc_add_one_ne hl.stamp (hplace.trans hp.symm))
  | evicting q t => exact absurd e (Stamp.enc_add_one_ne hl.stamp (hplace.trans hp.symm))
  | replacing q t b => exact absurd e (Stamp.enc_add_one_ne hl.stamp (hplace.trans hp.symm))

/-! ## What the cells at the ends are -/

theorem Ok.free_tail (hC : 0 < C) (h : c.Ok C H T i) (hi : T % C = i) (hp : 2 * T ≤ c.phase) : c = .free T := by
  have hn := h.next_eq hi
  cases c with
  | free n => exact congrArg Cell.free hn
  | _ =>
    simp only [next] at hn
    simp only [phase] at hp
    omega

theorem Ok.full_head (h : c.Ok C H T i) (hi : H % C = i) (hHT : H ≤ T) (hroom : T ≤ H + C)
    (hp : 2 * H + 1 ≤ c.phase) : c = .full H := by
  have hlow := h.low
  have hhigh := h.high
  have hturn := h.turn
  have hplace := h.place'
  cases c with
  | free n =>
    simp only [next, Turn] at hlow hturn
    have := eq_of_mod (hplace.trans hi.symm) (Nat.le_trans hHT hlow) hturn
    simp only [phase] at hp
    omega
  | writing q t b =>
    simp only [next, Turn, phase] at hhigh hturn hp
    have := eq_of_mod (hplace.trans hi.symm) hturn (by omega)
    omega
  | full q =>
    simp only [next, Turn] at hhigh hturn
    exact congrArg Cell.full (eq_of_mod (hplace.trans hi.symm) hturn (by omega))
  | reading q t b =>
    simp only [Turn, phase] at hturn hp
    omega
  | evicting q t =>
    simp only [Turn, phase] at hturn hp
    omega
  | replacing q t b =>
    simp only [next, phase] at hhigh hp
    omega

theorem Ok.head_cases (h : c.Ok C H T i) (hi : H % C = i) (hHT : H ≤ T) (hroom : T ≤ H + C) (ho : c.owner = none) :
    c = .free H ∧ T = H ∨ c = .full H ∧ H < T := by
  have hlow := h.low
  have hhigh := h.high
  have hturn := h.turn
  have hplace := h.place'
  cases c with
  | free n =>
    simp only [next, Turn] at hlow hturn
    have e := eq_of_mod (hplace.trans hi.symm) (Nat.le_trans hHT hlow) hturn
    subst e
    exact .inl ⟨rfl, Nat.le_antisymm hlow hHT⟩
  | full p =>
    simp only [next, Turn] at hhigh hturn
    have e := eq_of_mod (hplace.trans hi.symm) hturn (by omega)
    subst e
    exact .inr ⟨rfl, by omega⟩
  | _ => cases ho

theorem Ok.tail_cases (h : c.Ok C H T i) (hi : T % C = i) (hroom : T ≤ H + C) (ho : c.owner = none) :
    c = .free T ∧ T < H + C ∨ c = .full H ∧ T = H + C := by
  have hn := h.next_eq hi
  have hturn := h.turn
  cases c with
  | free n =>
    simp only [next, Turn] at hn hturn
    subst hn
    exact .inl ⟨rfl, hturn⟩
  | full p =>
    simp only [next, Turn] at hn hturn
    have e : p = H := by omega
    subst e
    exact .inr ⟨rfl, hn.symm⟩
  | _ => cases ho

/-! ## The counts move on -/

theorem Ok.tail_succ (h : c.Ok C H T i) (hi : i ≠ T % C) : c.Ok C H (T + 1) i := by
  have hne : c.next C ≠ T := fun e => hi (by rw [← h.place, e])
  have hhigh := h.high
  refine ⟨h.place, Nat.lt_of_le_of_ne h.low hne.symm, by omega, ?_⟩
  have hturn := h.turn
  cases c with
  | evicting q t => exact absurd hturn.2.symm hne
  | _ => exact hturn

theorem Ok.head_succ (h : c.Ok C H T i) (hi : i ≠ H % C) : c.Ok C (H + 1) T i := by
  refine ⟨h.place, h.low, h.high, ?_⟩
  have hturn := h.turn
  have hplace := h.place'
  cases c with
  | free n =>
    simp only [Turn] at hturn ⊢
    omega
  | writing q t b => exact Nat.lt_of_le_of_ne hturn fun e => hi (by rw [e]; exact hplace.symm)
  | full q => exact Nat.lt_of_le_of_ne hturn fun e => hi (by rw [e]; exact hplace.symm)
  | reading q t b => exact Nat.lt_succ_of_lt hturn
  | evicting q t => exact ⟨Nat.lt_succ_of_lt hturn.1, hturn.2⟩
  | replacing q t b =>
    exact Nat.lt_of_le_of_ne hturn fun e => hi (by rw [e, Nat.add_mod_right]; exact hplace.symm)

theorem Ok.value_append {V : Type} {vals more : List V} (h : c.Ok C H T i) (hT : T ≤ vals.length) :
    c.value C (vals ++ more) = c.value C vals := by
  have hhigh := h.high
  cases c with
  | free n => rfl
  | writing q t b =>
    simp only [next] at hhigh
    simp only [value]
    rw [List.getElem?_append_left (by omega)]
  | full q =>
    simp only [next] at hhigh
    exact List.getElem?_append_left (by omega)
  | reading q t b =>
    simp only [next] at hhigh
    simp only [value]
    rw [List.getElem?_append_left (by omega)]
  | evicting q t =>
    simp only [next] at hhigh
    exact List.getElem?_append_left (by omega)
  | replacing q t b =>
    simp only [next] at hhigh
    simp only [value]
    rw [List.getElem?_append_left (by omega), List.getElem?_append_left (by omega)]

end Cell

end

end RefCount.ArrayQueue
