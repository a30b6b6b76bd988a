import Mathlib.Data.Nat.ModEq
import Mathlib.Tactic.Ring
import Mathlib.Tactic.Linarith

/-!
# Positions as stamps

A position of a ring of `C` places is stored in one word of `w` bits: the place in the
low `k` bits, the number of the lap in the others. The lap wraps, so positions that
are `2 ^ (w - k)` laps apart have the same stamp.
-/

namespace Stamp

/-- A place fits into the low bits with room to spare, and the lap has a bit at least. -/
structure Fits (w k C : Nat) : Prop where
  pos : 0 < C
  index : C < 2 ^ k
  lap : k < w

def lapSize (w k : Nat) : BitVec w := BitVec.ofNat w (2 ^ k)

def enc (w k C p : Nat) : BitVec w := BitVec.ofNat w (p / C * 2 ^ k + p % C)

section
variable {w k C p q : Nat}

theorem toNat_lapSize (h : k < w) : (lapSize w k).toNat = 2 ^ k := by
  unfold lapSize
  rw [BitVec.toNat_ofNat]
  exact Nat.mod_eq_of_lt (Nat.pow_lt_pow_right (by omega) h)

theorem toNat_mask (h : k < w) : (lapSize w k - 1).toNat = 2 ^ k - 1 := by
  have hk := toNat_lapSize h
  have hpos : 0 < 2 ^ k := Nat.two_pow_pos k
  have hone : (1 : BitVec w).toNat = 1 := BitVec.toNat_one (by omega)
  rw [BitVec.toNat_sub_of_le, hk, hone]
  rw [BitVec.le_def, hk, hone]
  exact hpos

theorem toNat_and_mask (h : k < w) (x : BitVec w) : (x &&& (lapSize w k - 1)).toNat = x.toNat % 2 ^ k := by
  rw [BitVec.toNat_and, toNat_mask h, Nat.and_two_pow_sub_one_eq_mod]

theorem toNat_and_not_mask (h : k < w) (x : BitVec w) :
    (x &&& ~~~(lapSize w k - 1)).toNat = x.toNat / 2 ^ k * 2 ^ k := by
  have hm := toNat_mask h
  apply Nat.eq_of_testBit_eq
  intro i
  rw [BitVec.testBit_toNat, BitVec.getLsbD_and, BitVec.getLsbD_not, ← BitVec.testBit_toNat, ← BitVec.testBit_toNat,
    hm, Nat.testBit_two_pow_sub_one, Nat.testBit_mul_two_pow, Nat.testBit_div_two_pow]
  by_cases hi : k ≤ i
  · by_cases hw : i < w
    · simp [hi, hw, Nat.sub_add_cancel hi, Nat.not_lt.mpr hi]
    · have hx : x.toNat.testBit i = false :=
        Nat.testBit_lt_two_pow (Nat.lt_of_lt_of_le x.isLt (Nat.pow_le_pow_right (by omega) (Nat.not_lt.mp hw)))
      simp [hi, hw, Nat.sub_add_cancel hi, hx]
  · simp [hi, Nat.lt_of_not_le hi]

/-! ## The stamp of a position -/

theorem toNat_enc (h : Fits w k C) (p : Nat) : (enc w k C p).toNat = p / C % 2 ^ (w - k) * 2 ^ k + p % C := by
  have hw : 2 ^ w = 2 ^ k * 2 ^ (w - k) := by
    rw [← Nat.pow_add, Nat.add_sub_cancel' (Nat.le_of_lt h.lap)]
  have hlt : p % C < 2 ^ k := Nat.lt_trans (Nat.mod_lt p h.pos) h.index
  unfold enc
  rw [BitVec.toNat_ofNat, hw, Nat.mod_mul]
  have hlow : (p / C * 2 ^ k + p % C) % 2 ^ k = p % C := by
    rw [Nat.add_comm, Nat.add_mul_mod_self_right, Nat.mod_eq_of_lt hlt]
  have hhigh : (p / C * 2 ^ k + p % C) / 2 ^ k = p / C := by
    rw [Nat.add_comm, Nat.add_mul_div_right _ _ (Nat.two_pow_pos k), Nat.div_eq_of_lt hlt, Nat.zero_add]
  rw [hlow, hhigh]
  ring

theorem enc_index (h : Fits w k C) (p : Nat) : (enc w k C p).toNat % 2 ^ k = p % C := by
  have hlt : p % C < 2 ^ k := Nat.lt_trans (Nat.mod_lt p h.pos) h.index
  rw [toNat_enc h, Nat.add_comm, Nat.add_mul_mod_self_right, Nat.mod_eq_of_lt hlt]

theorem enc_lt (h : Fits w k C) (p : Nat) : (enc w k C p).toNat + 1 < 2 ^ w := by
  have hw : 2 ^ w = 2 ^ (w - k) * 2 ^ k := by
    rw [← Nat.pow_add, Nat.sub_add_cancel (Nat.le_of_lt h.lap)]
  have hlt := Nat.mod_lt p h.pos
  have hi := h.index
  have hl : p / C % 2 ^ (w - k) + 1 ≤ 2 ^ (w - k) := Nat.mod_lt _ (Nat.two_pow_pos _)
  have hm : (p / C % 2 ^ (w - k) + 1) * 2 ^ k ≤ 2 ^ (w - k) * 2 ^ k := Nat.mul_le_mul_right _ hl
  rw [Nat.add_mul, Nat.one_mul] at hm
  rw [toNat_enc h, hw]
  omega

theorem enc_add_lap (h : Fits w k C) (p : Nat) : enc w k C p + lapSize w k = enc w k C (p + C) := by
  unfold enc lapSize
  rw [← BitVec.ofNat_add, Nat.add_div_right p h.pos, Nat.add_mod_right, Nat.succ_mul]
  congr 1
  omega

theorem enc_sub_lap (h : Fits w k C) {p : Nat} (hp : C ≤ p) : enc w k C p - lapSize w k = enc w k C (p - C) := by
  have e := enc_add_lap h (p - C)
  rw [Nat.sub_add_cancel hp] at e
  rw [← e, BitVec.add_sub_cancel]

theorem succ_div_mod (hC : 0 < C) (p : Nat) :
    (p + 1) / C = p / C + (p % C + 1) / C ∧ (p + 1) % C = (p % C + 1) % C := by
  have e : p + 1 = C * (p / C) + (p % C + 1) := by
    have := Nat.div_add_mod p C
    omega
  constructor
  · conv_lhs => rw [e]
    exact Nat.mul_add_div hC _ _
  · conv_lhs => rw [e]
    exact Nat.mul_add_mod _ _ _

theorem enc_succ (h : Fits w k C) {p : Nat} (hp : p % C + 1 < C) : enc w k C p + 1 = enc w k C (p + 1) := by
  obtain ⟨hd, hm⟩ := succ_div_mod h.pos p
  rw [Nat.div_eq_of_lt hp] at hd
  rw [Nat.mod_eq_of_lt hp] at hm
  unfold enc
  rw [hd, hm, show (1 : BitVec w) = BitVec.ofNat w 1 from rfl, ← BitVec.ofNat_add]
  rfl

theorem enc_succ_lap (h : Fits w k C) {p : Nat} (hp : ¬ p % C + 1 < C) :
    (enc w k C p &&& ~~~(lapSize w k - 1)) + lapSize w k = enc w k C (p + 1) := by
  have hlt := Nat.mod_lt p h.pos
  have e : p % C + 1 = C := by omega
  obtain ⟨hd, hm⟩ := succ_div_mod h.pos p
  rw [e, Nat.div_self h.pos] at hd
  rw [e, Nat.mod_self] at hm
  have hlap : enc w k C p &&& ~~~(lapSize w k - 1) = BitVec.ofNat w (p / C * 2 ^ k) := by
    have hw : 2 ^ w = 2 ^ (w - k) * 2 ^ k := by
      rw [← Nat.pow_add, Nat.sub_add_cancel (Nat.le_of_lt h.lap)]
    have hb : p % C < 2 ^ k := Nat.lt_trans hlt h.index
    apply BitVec.eq_of_toNat_eq
    rw [toNat_and_not_mask h.lap, toNat_enc h, BitVec.toNat_ofNat, hw, Nat.mul_mod_mul_right, Nat.add_comm,
      Nat.add_mul_div_right _ _ (Nat.two_pow_pos k), Nat.div_eq_of_lt hb, Nat.zero_add]
  rw [hlap]
  unfold enc lapSize
  rw [← BitVec.ofNat_add, hd, hm, Nat.add_mul, Nat.one_mul, Nat.add_zero]

/-! ## Which positions have one stamp -/

theorem enc_eq_iff (h : Fits w k C) : enc w k C p = enc w k C q ↔ p ≡ q [MOD 2 ^ (w - k) * C] := by
  have hmod : ∀ n, n % (2 ^ (w - k) * C) = n % C + C * (n / C % 2 ^ (w - k)) := by
    intro n
    rw [Nat.mul_comm, Nat.mod_mul]
  constructor
  · intro e
    have hi : p % C = q % C := by rw [← enc_index h p, e, enc_index h q]
    have ht := congrArg BitVec.toNat e
    rw [toNat_enc h, toNat_enc h, hi] at ht
    have hl : p / C % 2 ^ (w - k) = q / C % 2 ^ (w - k) :=
      Nat.eq_of_mul_eq_mul_right (Nat.two_pow_pos k) (Nat.add_right_cancel ht)
    unfold Nat.ModEq
    rw [hmod, hmod, hi, hl]
  · intro e
    unfold Nat.ModEq at e
    have hi : p % C = q % C := by
      have e' := congrArg (· % C) e
      simpa only [Nat.mod_mul_left_mod] using e'
    rw [hmod, hmod, hi] at e
    have hl : p / C % 2 ^ (w - k) = q / C % 2 ^ (w - k) := Nat.eq_of_mul_eq_mul_left h.pos (Nat.add_left_cancel e)
    apply BitVec.eq_of_toNat_eq
    rw [toNat_enc h, toNat_enc h, hi, hl]

/-- Positions less than a whole cycle apart have different stamps. -/
theorem enc_near (h : Fits w k C) (hle : p ≤ q) (hlt : q < p + 2 ^ (w - k) * C) (e : enc w k C q = enc w k C p) :
    q = p := by
  have hd := (Nat.modEq_iff_dvd' hle).mp ((enc_eq_iff h).mp e.symm)
  have hz := Nat.eq_zero_of_dvd_of_lt hd (by omega)
  omega

theorem toNat_enc_add_one (h : Fits w k C) (p : Nat) : (enc w k C p + 1).toNat = (enc w k C p).toNat + 1 := by
  have hone : (1 : BitVec w).toNat = 1 := BitVec.toNat_one (by have := h.lap; omega)
  rw [BitVec.toNat_add, hone, Nat.mod_eq_of_lt (enc_lt h p)]

/-- One more than the stamp of a position is not the stamp of any position at its place. -/
theorem enc_add_one_ne (h : Fits w k C) (hpq : p % C = q % C) : enc w k C p + 1 ≠ enc w k C q := by
  intro e
  have hlt := Nat.lt_of_le_of_lt (Nat.mod_lt q h.pos) h.index
  have ht := congrArg BitVec.toNat e
  rw [toNat_enc_add_one h] at ht
  have hm : ((enc w k C p).toNat % 2 ^ k + 1) % 2 ^ k = (enc w k C q).toNat % 2 ^ k := by
    rw [Nat.mod_add_mod, ht]
  rw [enc_index h, enc_index h, hpq, Nat.mod_eq_of_lt hlt] at hm
  exact absurd hm (Nat.succ_ne_self _)

theorem add_one_inj {x y : BitVec w} : x + 1 = y + 1 ↔ x = y := BitVec.add_left_inj 1

end

end Stamp
