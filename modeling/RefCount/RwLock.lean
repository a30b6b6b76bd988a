import RefCount.Lts

/-!
# A lock with shared holders and one blocker

What a reader–writer lock is for, apart from any program. Readers may enter while
nobody blocks; a blocker keeps new readers out, and its block travels from one
carrier to the next until it is given back. A carrier in `excl` relies on there
being no readers; a block may reach it only once the readers are gone. A block
whose carrier disappears is `lost` and stays for ever.
-/

namespace RwLock

inductive Block (κ : Type) where
  | free
  | held (c : κ)
  | lost
  deriving DecidableEq, Repr

structure Lock (κ : Type) where
  readers : Nat
  block : Block κ

section
variable {κ : Type}

def Block.bit : Block κ → Nat
  | .free => 0
  | _ => 1

theorem Block.bit_eq_zero {b : Block κ} : b.bit = 0 ↔ b = .free := by
  cases b <;> simp [Block.bit]

theorem Block.bit_eq_one {b : Block κ} : b.bit = 1 ↔ b ≠ .free := by
  cases b <;> simp [Block.bit]

theorem Block.held_ne_free (c : κ) : Block.held c ≠ .free := fun h => nomatch h

theorem Block.lost_ne_free : (Block.lost : Block κ) ≠ .free := fun h => nomatch h

theorem Block.bit_le (b : Block κ) : b.bit ≤ 1 := by
  cases b <;> simp [Block.bit]

/-- The number of blocks a carrier has in its hands: one carrier at most has one. -/
def Block.tokens [DecidableEq κ] (b : Block κ) (c : κ) : Nat := if b = .held c then 1 else 0

section
variable [DecidableEq κ]

@[simp] theorem Block.tokens_self (c : κ) : (Block.held c).tokens c = 1 := if_pos rfl

theorem Block.tokens_ne {c d : κ} (h : c ≠ d) : (Block.held c).tokens d = 0 :=
  if_neg fun e => h (Block.held.inj e)

theorem Block.tokens_pos {b : Block κ} {c : κ} : 0 < b.tokens c ↔ b = .held c := by
  unfold Block.tokens
  split
  · simp [*]
  · simp [*]

end

variable (excl : κ → Prop)

inductive Step (l : Lock κ) : Lock κ → Prop
  | idle : Step l l
  | enter : l.block = .free → Step l { l with readers := l.readers + 1 }
  | leave : 0 < l.readers → Step l { l with readers := l.readers - 1 }
  | block (c : κ) : l.block = .free → ¬ excl c → Step l { l with block := .held c }
  | pass (c d : κ) : l.block = .held c → (excl d → excl c ∨ l.readers = 0) → Step l { l with block := .held d }
  | lose (c : κ) : l.block = .held c → Step l { l with block := .lost }
  | giveBack (c : κ) : l.block = .held c → Step l { l with block := .free }

/-- A carrier that relies on it has no readers beside it. -/
def Exclusive (l : Lock κ) : Prop := ∀ c, l.block = .held c → excl c → l.readers = 0

variable {excl}

theorem Step.exclusive {l l' : Lock κ} (hl : Exclusive excl l) (h : Step excl l l') : Exclusive excl l' := by
  intro c hc he
  cases h with
  | idle => exact hl c hc he
  | enter hf =>
    rw [hf] at hc; cases hc
  | leave _ =>
    show l.readers - 1 = 0
    rw [hl c hc he]
  | block d _ hd => cases hc; exact absurd he hd
  | pass d e hd hp =>
    cases hc
    rcases hp he with hx | hr
    · exact hl d hd hx
    · exact hr
  | lose d _ => cases hc
  | giveBack d _ => cases hc

/-- While the lock is blocked nobody enters, and only the carrier of the block
ends it. -/
theorem Step.blocked {l l' : Lock κ} (h : Step excl l l') (hb : l.block ≠ .free) :
    l'.readers ≤ l.readers ∧ (l'.block = .free → ∃ c, l.block = .held c) := by
  cases h with
  | idle => exact ⟨Nat.le_refl _, fun e => absurd e hb⟩
  | enter hf => exact absurd hf hb
  | leave _ => exact ⟨Nat.sub_le _ _, fun e => absurd e hb⟩
  | block c hf _ => exact absurd hf hb
  | pass c d hc _ => exact ⟨Nat.le_refl _, fun e => nomatch e⟩
  | lose c _ => exact ⟨Nat.le_refl _, fun e => nomatch e⟩
  | giveBack c hc => exact ⟨Nat.le_refl _, fun _ => ⟨c, hc⟩⟩

end

end RwLock
