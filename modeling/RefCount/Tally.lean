import RefCount.Exclusion
import RefCount.Orphan

/-!
# What `ref_count` counts

It adds the two fields of the word: the number of standard references, and the bit, which
is set as long as anybody has the block. An exclusive request has it before there is an
`ExclusiveRef`, and the drop of one after there was.
-/

namespace RefCount

open Lts

/-- The protocol, in which every future is kept. -/
def KeptProtocol (s : Sys) (a : Act) (s' : Sys) : Prop := Protocol s a s' ∧ a.dropped = none

instance (s : Sys) (a : Act) (s' : Sys) : Decidable (KeptProtocol s a s') := inferInstanceAs (Decidable (_ ∧ _))

def Tallies (s : Sys) : Prop :=
  (refCount s.count).toNat = s.refs + s.exclusiveRefs ∧
  (noRefs s.count = true ↔ s.refs = 0 ∧ s.exclusiveRefs = 0)

instance (s : Sys) : Decidable (Tallies s) := inferInstanceAs (Decidable (_ ∧ (_ ↔ _)))

section
variable {cfg : Config} {s : Sys}

theorem KeptProtocol.reach (h : Reach (exec cfg) KeptProtocol Sys.new s) : ∃ l, Exclusion.Inv s l ∧ l.block ≠ .lost := by
  refine h.inv (fun s => ∃ l, Exclusion.Inv s l ∧ l.block ≠ .lost) ⟨_, ⟨Sim.new, .new⟩, nofun⟩ ?_
  rintro s a s' ⟨l, hi, hl⟩ ⟨⟨hc, hd, hr⟩, hkept⟩ hst
  obtain ⟨l', _, hs, _, hlost⟩ := hi.sim.step hd hi.storesClean hr (exec_step hst)
  refine ⟨l', ⟨hs, hi.calls.step hc (exec_step hst)⟩, fun e => ?_⟩
  rcases hlost e with he | ⟨f, rfl, _⟩
  · exact hl he
  · cases hkept

/-- In every state that the protocol reaches: `ref_count` is the number of live references of both
kinds, and `no_refs` says that there are none, if and only if nobody has the block but an
`ExclusiveRef`. -/
theorem ref_count_tallies (h : Reach (exec cfg) KeptProtocol Sys.new s) :
    Tallies s ↔ ∀ c, 0 < s.held c → c = .exclusiveRef := by
  obtain ⟨l, hi, hlost⟩ := KeptProtocol.reach h
  have hs := hi.sim
  have hword := hs.word
  have hrefs := hs.refs
  have hexcl : s.exclusiveRefs = l.block.tokens .exclusiveRef := hs.held .exclusiveRef
  unfold Tallies
  rw [refCount_toNat, noRefs_iff]
  constructor
  · rintro ⟨hcount, _⟩ c hc
    have hb := hs.holder hc
    rw [hb] at hword hexcl
    by_contra hne
    rw [RwLock.Block.tokens_ne hne] at hexcl
    have hbit : (RwLock.Block.held c).bit = 1 := rfl
    omega
  · intro hall
    have hbit : l.block.bit = s.exclusiveRefs := by
      rw [hexcl]
      cases hb : l.block with
      | free => rfl
      | lost => exact absurd hb hlost
      | held c =>
        have hc : 0 < s.held c := by rw [hs.held, hb, RwLock.Block.tokens_self]; exact Nat.one_pos
        rw [hall c hc, RwLock.Block.tokens_self]
        rfl
    have hle := l.block.bit_le
    omega

end

theorem ref_count_tallies_granted : ∃ s : Sys, run (exec ⟨2, true⟩) Sys.new (askExclusiveRef 0) = some s ∧
    refCount s.count = 1 ∧ ∀ c, 0 < s.held c → c = .exclusiveRef := by
  have hg : AllSteps (exec ⟨2, true⟩) KeptProtocol Sys.new (askExclusiveRef 0) := by decide
  exact ⟨_, rfl, rfl, (ref_count_tallies (Reach.run .start hg rfl)).mp (by decide)⟩

/-- A future that has the block waits for a `Ref` to be dropped: `ref_count` is 2 with one
reference, and then 1 with none. -/
theorem ref_count_tallies_pending :
    AllSteps (exec ⟨2, true⟩) KeptProtocol Sys.new (askBesideRef ++ [.dropRef]) ∧
    ∃ s s', run (exec ⟨2, true⟩) Sys.new askBesideRef = some s ∧ exec ⟨2, true⟩ s .dropRef = some s' ∧
      refCount s.count = 2 ∧ s.refs = 1 ∧ s.exclusiveRefs = 0 ∧ ¬ Tallies s ∧
      refCount s'.count = 1 ∧ noRefs s'.count = false ∧ s'.refs = 0 ∧ s'.exclusiveRefs = 0 ∧ ¬ Tallies s' :=
  ⟨by decide, _, _, rfl, rfl, rfl, rfl, rfl, by decide, rfl, rfl, rfl, rfl, by decide⟩

end RefCount
