import RefCount.Stale
import RefCount.Wakeup

/-!
# Happens-before

Whoever has the block has seen the message that set its bit, and from there on the word
only counts down: a check that finds no standard reference has read the last message.
`Weak.Inv` says so, and where the end of every section is known; here is how each kind of
step keeps it.
-/

namespace RefCount

open Lts (getElem?_concat)
open RelAcq
open RwLock (Lock)

/-- What the last message brings along. -/
def Weak.released (σ : Weak) : List Nat := (σ.cell.getLast?.map (·.known)).getD []

/-- From what the agent has seen on, every message took one reference off the word. -/
def Weak.Follows (σ : Weak) (v : View Nat) : Prop :=
  v.Sees σ.cell fun i w => w.toNat = σ.sys.count.toNat + 2 * (σ.cell.length - 1 - i)

structure Weak.Caught (σ : Weak) (v : View Nat) : Prop where
  seen : v.seen + 1 = σ.cell.length
  known : ∀ k ∈ σ.released, k ∈ v.known

/-- Whose view a carrier of the block acts with. -/
inductive Weak.HasView (σ : Weak) : Carrier → View Nat → Prop
  | thread (t : ThreadId) : HasView σ (.thread t) (σ.views t)
  | dropping (t : ThreadId) : HasView σ (.dropping t) (σ.views t)
  | fut (f : FutId) : HasView σ (.fut f) (σ.futViews f)
  | polling (t : ThreadId) (f : FutId) : (σ.sys.pc t).polls = some f → HasView σ (.fut f) (σ.views t)
  | exclusiveRef : HasView σ .exclusiveRef σ.exclusiveView

/-- Of two sections of which one is exclusive, the end of the first happens before the
second begins. -/
def Ordered (begun : List Section) : Prop :=
  ∀ (i j : Nat) (x y : Section), i < j → begun[i]? = some x → begun[j]? = some y →
    (x.exclusive = true ∨ y.exclusive = true) → i ∈ y.known

structure Weak.Inv (σ : Weak) (l : Lock Carrier) : Prop where
  sim : Sim σ.sys l
  calls : CallsWithin Call.inProtocol σ.sys
  cell : ∃ pre known, σ.cell = pre ++ [⟨σ.sys.count, known⟩]
  bound : (∀ t, (σ.views t).seen < σ.cell.length) ∧ (∀ f, (σ.futViews f).seen < σ.cell.length) ∧
    σ.exclusiveView.seen < σ.cell.length
  follows : ∀ c v, 0 < σ.sys.held c → σ.HasView c v → σ.Follows v
  caught : ∀ c v, 0 < σ.sys.held c → c.excl → σ.HasView c v → σ.Caught v
  refs : σ.refs.length = σ.sys.refs
  exclusives : σ.exclusives.length = σ.sys.exclusiveRefs
  shared : ∀ i ∈ σ.refs, ∃ x, σ.begun[i]? = some x ∧ x.exclusive = false
  ended : ∀ i < σ.begun.length, i ∈ σ.released ∨ i ∈ σ.refs ∨ i ∈ σ.exclusives ∨
    ∃ t, 0 < (σ.sys.pc t).drops ∧ i ∈ (σ.views t).known
  ordered : Ordered σ.begun

section
variable {cfg : Config} {σ σ' : Weak} {l : Lock Carrier} {s : Sys} {t : ThreadId} {b : Bool} {v : View Nat}

theorem Weak.Inv.new : Weak.new.Inv ⟨0, .free⟩ where
  sim := Sim.new
  calls := CallsWithin.new
  cell := ⟨[], _, rfl⟩
  bound := ⟨fun _ => Nat.one_pos, fun _ => Nat.one_pos, Nat.one_pos⟩
  follows := fun c v hc => by
    have hzero := Sim.new.held c
    exact absurd hzero (Nat.ne_of_gt hc)
  caught := fun c v hc => by
    have hzero := Sim.new.held c
    exact absurd hzero (Nat.ne_of_gt hc)
  refs := rfl
  exclusives := rfl
  shared := nofun
  ended := nofun
  ordered := nofun

/-! ## The state after a step -/

section
variable (cell : List (Msg UInt32 Nat)) (o : Option Bool)

@[simp] theorem begin_sys : (σ.begin v o).sys = σ.sys := by cases o with | none => rfl | some e => cases e <;> rfl
@[simp] theorem begin_cell : (σ.begin v o).cell = σ.cell := by cases o with | none => rfl | some e => cases e <;> rfl
@[simp] theorem begin_views : (σ.begin v o).views = σ.views := by cases o with | none => rfl | some e => cases e <;> rfl
@[simp] theorem begin_futViews : (σ.begin v o).futViews = σ.futViews := by
  cases o with | none => rfl | some e => cases e <;> rfl

@[simp] theorem move_sys : (σ.move t s v).sys = s := begin_sys _
@[simp] theorem move_cell : (σ.move t s v).cell = σ.cell := begin_cell _
@[simp] theorem move_views : (σ.move t s v).views = Function.update σ.views t v := begin_views _
@[simp] theorem move_futViews : (σ.move t s v).futViews = σ.handOn t s v := begin_futViews _

end

theorem begins_none (hr : s.refs = σ.sys.refs) (he : ¬ σ.sys.exclusiveRefs < s.exclusiveRefs) : σ.begins s = none := by
  unfold Weak.begins
  rw [if_neg (Nat.not_lt.mpr (Nat.le_of_eq hr)), if_neg he]

theorem begins_exclusive (hr : s.refs = σ.sys.refs) (he : σ.sys.exclusiveRefs < s.exclusiveRefs) :
    σ.begins s = some true := by
  unfold Weak.begins
  rw [if_neg (Nat.not_lt.mpr (Nat.le_of_eq hr)), if_pos he]

theorem begins_ref (hr : s.refs = σ.sys.refs + 1) : σ.begins s = some false := by
  unfold Weak.begins
  rw [if_pos (by omega)]

theorem polls_call {p : Pc} {f : FutId} (h : p.polls = some f) : ∃ w, p.call = some (.poll f w) := by
  cases p with
  | incrLoad op => cases op <;> cases h; exact ⟨_, rfl⟩
  | incrCas op _ _ => cases op <;> cases h; exact ⟨_, rfl⟩
  | blockLoad op => cases op <;> cases h <;> exact ⟨_, rfl⟩
  | blockCas op _ _ => cases op <;> cases h <;> exact ⟨_, rfl⟩
  | noStandardRefs op => cases op <;> cases h; exact ⟨_, rfl⟩
  | wakeSetRegistered op x => cases op <;> cases h; exact ⟨_, rfl⟩
  | wakeWaker op x => cases op <;> cases h; exact ⟨_, rfl⟩
  | _ => cases h <;> exact ⟨_, rfl⟩

theorem polls_before {w : UInt32} {s₀ : Sys} (h : Step cfg { σ.sys with count := w } (.step t b) s₀) {u : ThreadId}
    {f : FutId} (hu : (s₀.pc u).polls = some f) : (σ.sys.pc u).polls = some f := by
  by_cases ha : (Act.step t b).thread? = some u
  · obtain ⟨w', hcall⟩ := polls_call hu
    rcases h.call hcall with hc | hc
    · exact call_polls hc
    · cases hc
  · rw [h.pc_frame ha] at hu
    exact hu

theorem handOn_of {f : FutId} (hf : f < σ.sys.nextFut) : σ.handOn t s v f = σ.futViews f ∨
    (σ.sys.pc t).polls = some f ∧ σ.handOn t s v f = v := by
  have hne : f ≠ σ.sys.nextFut := Nat.ne_of_lt hf
  have hnew : ∀ (x : Prop) [Decidable x] (φ : FutId → View Nat),
      (if x then Function.update φ σ.sys.nextFut v else φ) f = φ f := by
    intro x _ φ
    split
    · exact Function.update_of_ne hne _ _
    · rfl
  unfold Weak.handOn
  cases hp : (σ.sys.pc t).polls with
  | none => exact .inl (hnew _ _)
  | some g =>
    by_cases e : f = g
    · subst e
      exact .inr ⟨rfl, (hnew _ _).trans (Function.update_self ..)⟩
    · exact .inl ((hnew _ _).trans (Function.update_of_ne e _ _))

theorem handOn_cases (f : FutId) : σ.handOn t s v f = σ.futViews f ∨ σ.handOn t s v f = v := by
  have hupdate : ∀ {φ : FutId → View Nat} {g : FutId}, (φ f = σ.futViews f ∨ φ f = v) →
      (Function.update φ g v f = σ.futViews f ∨ Function.update φ g v f = v) := by
    intro φ g h
    by_cases e : f = g
    · subst e
      exact .inr (Function.update_self ..)
    · rw [Function.update_of_ne e]
      exact h
  unfold Weak.handOn
  cases (σ.sys.pc t).polls with
  | none =>
    split
    · exact hupdate (.inl rfl)
    · exact .inl rfl
  | some g =>
    split
    · exact hupdate (hupdate (.inl rfl))
    · exact hupdate (.inl rfl)

theorem handOn_polled {f : FutId} (hf : f < σ.sys.nextFut) (hp : (σ.sys.pc t).polls = some f) : σ.handOn t s v f = v := by
  unfold Weak.handOn
  rw [hp]
  split
  · exact (Function.update_of_ne (Nat.ne_of_lt hf) _ _).trans (Function.update_self ..)
  · exact Function.update_self ..

theorem handOn_new (h : σ.sys.nextFut < s.nextFut) : σ.handOn t s v σ.sys.nextFut = v := by
  unfold Weak.handOn
  rw [if_pos h]
  exact Function.update_self ..

/-- A carrier that keeps its block has seen and knows at least what it did. -/
theorem Weak.HasView.before {w : UInt32} {s₀ : Sys} {τ : Weak} {c : Carrier} {u : View Nat} (hw : Wf σ.sys)
    (hτ : τ.sys = σ.sys ∧ τ.views = σ.views ∧ τ.futViews = σ.futViews ∧ τ.exclusiveView = σ.exclusiveView)
    (h : Step cfg { σ.sys with count := w } (.step t b) s₀) (hs : s.pc = s₀.pc) (hle : (σ.views t).Le v)
    (hc : 0 < σ.sys.held c) (hg : c = .exclusiveRef → τ.begins s ≠ some true) (hu : (τ.move t s v).HasView c u) :
    ∃ u₀, σ.HasView c u₀ ∧ u₀.Le u := by
  obtain ⟨hsys, hviews, hfut, hexcl⟩ := hτ
  have hthread : ∀ x, (σ.views x).Le ((τ.move t s v).views x) := by
    intro x
    rw [move_views, hviews]
    by_cases e : x = t
    · subst e
      rw [Function.update_self]
      exact hle
    · rw [Function.update_of_ne e]
      exact .rfl
  cases hu with
  | thread x => exact ⟨_, .thread x, hthread x⟩
  | dropping x => exact ⟨_, .dropping x, hthread x⟩
  | fut f =>
    obtain ⟨x, hx, _⟩ := blockOf_pos (show 0 < blockOf (σ.sys.futs f) from hc)
    rw [move_futViews]
    have hlt : f < τ.sys.nextFut := by
      rw [hsys]
      exact hw.lt hx
    rcases handOn_of (s := s) (v := v) (t := t) hlt with e | ⟨hp, e⟩
    · rw [e, hfut]
      exact ⟨_, .fut f, .rfl⟩
    · rw [e]
      rw [hsys] at hp
      exact ⟨_, .polling t f hp, hle⟩
  | polling x f hp =>
    rw [move_sys, hs] at hp
    exact ⟨_, .polling x f (polls_before h hp), hthread x⟩
  | exclusiveRef =>
    refine ⟨_, .exclusiveRef, ?_⟩
    have he : (τ.move t s v).exclusiveView = σ.exclusiveView := by
      unfold Weak.move
      have hg := hg rfl
      cases hb : τ.begins s with
      | none => exact hexcl
      | some e =>
        cases e with
        | false => exact hexcl
        | true => exact absurd hb hg
    rw [he]
    exact .rfl

/-! ## Steps that write no message -/

theorem released_concat {c : List (Msg UInt32 Nat)} {m : Msg UInt32 Nat} (h : σ.cell = c ++ [m]) :
    σ.released = m.known := by
  unfold Weak.released
  rw [h, List.getLast?_concat]
  rfl

theorem Weak.Inv.last (hi : σ.Inv l) {i : Nat} {m : Msg UInt32 Nat} (hm : σ.cell[i]? = some m)
    (hlen : i + 1 = σ.cell.length) : m = ⟨σ.sys.count, σ.released⟩ := by
  obtain ⟨pre, known, hpre⟩ := hi.cell
  rw [released_concat hpre]
  rw [hpre, List.length_append, List.length_singleton] at hlen
  rw [hpre, show i = pre.length from Nat.succ.inj hlen, List.getElem?_concat_length] at hm
  exact (Option.some.inj hm).symm

theorem Weak.Caught.follows (hi : σ.Inv l) (hc : σ.Caught v) : σ.Follows v := by
  intro i m hle hm
  have hlt := (List.getElem?_eq_some_iff.mp hm).1
  have hseen := hc.seen
  have hlen : i + 1 = σ.cell.length := by omega
  rw [hi.last hm hlen]
  show σ.sys.count.toNat = σ.sys.count.toNat + 2 * (σ.cell.length - 1 - i)
  omega

theorem Weak.Inv.moved_bound (hi : σ.Inv l) {n : Nat} (hn : σ.cell.length ≤ n) (hv : v.seen < n) :
    (∀ u, (Function.update σ.views t v u).seen < n) ∧ (∀ f, (σ.handOn t s v f).seen < n) ∧ σ.exclusiveView.seen < n := by
  refine ⟨fun u => ?_, fun f => ?_, Nat.lt_of_lt_of_le hi.bound.2.2 hn⟩
  · rw [Function.update_apply]
    split
    · exact hv
    · exact Nat.lt_of_lt_of_le (hi.bound.1 u) hn
  · rcases handOn_cases (σ := σ) (s := s) (t := t) (v := v) f with e | e
    · rw [e]
      exact Nat.lt_of_lt_of_le (hi.bound.2.1 f) hn
    · rw [e]
      exact hv

/-- Where no exclusive section goes on, every section that is not a `Ref`'s has ended. -/
theorem Weak.Inv.all_ended (hi : σ.Inv l) (hx : ∀ c, c.excl → σ.sys.held c = 0) {i : Nat} (hlt : i < σ.begun.length) :
    i ∈ σ.released ∨ i ∈ σ.refs := by
  rcases hi.ended i hlt with h | h | h | ⟨t, ht, _⟩
  · exact .inl h
  · exact .inr h
  · have hlen := hi.exclusives
    rw [show σ.sys.exclusiveRefs = 0 from hx .exclusiveRef trivial] at hlen
    rw [List.length_eq_zero_iff.mp hlen] at h
    cases h
  · have hzero : (σ.sys.pc t).drops = 0 := hx (.dropping t) trivial
    omega

theorem Weak.Inv.frame (hi : σ.Inv l) {l' : Lock Carrier} (hsim : Sim σ'.sys l') (hcalls : CallsWithin Call.inProtocol σ'.sys)
    (hsame : σ'.sys.count = σ.sys.count ∧ σ'.cell = σ.cell ∧ σ'.refs = σ.refs ∧ σ'.begun = σ.begun)
    (hrefs : σ'.sys.refs = σ.sys.refs) (hexcl : σ'.exclusives.length = σ'.sys.exclusiveRefs)
    (hbound : (∀ t, (σ'.views t).seen < σ.cell.length) ∧ (∀ f, (σ'.futViews f).seen < σ.cell.length) ∧
      σ'.exclusiveView.seen < σ.cell.length)
    (hbefore : ∀ c u, 0 < σ'.sys.held c → σ'.HasView c u → ∃ d u₀, 0 < σ.sys.held d ∧ σ.HasView d u₀ ∧ u₀.Le u ∧
      (c.excl → d.excl))
    (hended : ∀ i, i ∈ σ.exclusives ∨ (∃ t, 0 < (σ.sys.pc t).drops ∧ i ∈ (σ.views t).known) →
      i ∈ σ'.exclusives ∨ ∃ t, 0 < (σ'.sys.pc t).drops ∧ i ∈ (σ'.views t).known) : σ'.Inv l' := by
  obtain ⟨hcount, hcell, hr, hbegun⟩ := hsame
  have hreleased : σ'.released = σ.released := by
    unfold Weak.released
    rw [hcell]
  have hseen : ∀ c u, σ'.HasView c u → u.seen < σ.cell.length := by
    intro c u hu
    cases hu with
    | fut f => exact hbound.2.1 f
    | exclusiveRef => exact hbound.2.2
    | _ => exact hbound.1 _
  refine ⟨hsim, hcalls, ?_, by rw [hcell]; exact hbound, ?_, ?_, by rw [hr, hrefs]; exact hi.refs, hexcl, ?_, ?_, ?_⟩
  · rw [hcell, hcount]
    exact hi.cell
  · intro c u hc hu
    obtain ⟨d, u₀, hd, hu₀, hle, _⟩ := hbefore c u hc hu
    have := (hi.follows d u₀ hd hu₀).of_le hle
    unfold Weak.Follows
    rw [hcell, hcount]
    exact this
  · intro c u hc hx hu
    obtain ⟨d, u₀, hd, hu₀, hle, hdx⟩ := hbefore c u hc hu
    obtain ⟨hs, hk⟩ := hi.caught d u₀ hd (hdx hx) hu₀
    have hlt := hseen c u hu
    have hle' := hle.seen
    refine ⟨by rw [hcell]; omega, fun k hk' => hle.known k (hk k ?_)⟩
    rw [← hreleased]
    exact hk'
  · rw [hr, hbegun]
    exact hi.shared
  · intro i hlt
    rw [hbegun] at hlt
    rw [hreleased, hr]
    rcases hi.ended i hlt with h | h | h
    · exact .inl h
    · exact .inr (.inl h)
    · exact .inr (.inr (hended i h))
  · rw [hbegun]
    exact hi.ordered

section
variable {w : UInt32} {s₀ : Sys}

/-- The thread has read `w` for the word, and was not granted an `ExclusiveRef`. -/
theorem Weak.Inv.read (hi : σ.Inv l) (he : RefCount.exec cfg { σ.sys with count := w } (.step t b) = some s₀) (hw : s₀.count = w)
    (hst : ∀ op, σ.sys.pc t ≠ .releaseStore op) (hle : (σ.views t).Le v) (hlt : v.seen < σ.cell.length)
    (hx : ¬ σ.sys.exclusiveRefs < s₀.exclusiveRefs) :
    ∃ l', (σ.move t { s₀ with count := σ.sys.count } v).Inv l' := by
  have h := exec_step he
  obtain ⟨l', _, hsim, hrefs⟩ := hi.sim.presented h hw hst fun hlt => absurd hlt hx
  have hcalls : CallsWithin Call.inProtocol s₀ := CallsWithin.step (s := { σ.sys with count := w }) hi.calls rfl h
  have hnone : σ.begins { s₀ with count := σ.sys.count } = none := begins_none hrefs hx
  have hmove : σ.move t { s₀ with count := σ.sys.count } v =
      { σ with
        sys := { s₀ with count := σ.sys.count }
        views := Function.update σ.views t v
        futViews := σ.handOn t { s₀ with count := σ.sys.count } v } := by
    unfold Weak.move
    rw [hnone]
    rfl
  have hframe : ∀ u, u ≠ t → s₀.pc u = σ.sys.pc u := fun u hu => h.pc_frame fun e => hu (Option.some.inj e).symm
  refine ⟨l', hi.frame (by rw [move_sys]; exact hsim) (by rw [move_sys]; exact hcalls) ?_ ?_ ?_ ?_ ?_ ?_⟩
  · rw [hmove]
    exact ⟨rfl, rfl, rfl, rfl⟩
  · rw [move_sys]
    exact hrefs
  · rw [hmove]
    rcases step_exclusiveRefs h with e | e
    · exact hi.exclusives.trans e.symm
    · exact absurd (Nat.lt_of_lt_of_eq (Nat.lt_succ_self _) e.symm) hx
  · rw [hmove]
    exact hi.moved_bound (Nat.le_refl _) hlt
  · intro c u hc hu
    rw [move_sys, held_count] at hc
    cases h.gets (hi.sim.wf.withCount w) hc with
    | keeps hk =>
      rw [held_count] at hk
      obtain ⟨u₀, hu₀, hle₀⟩ := Weak.HasView.before (s := { s₀ with count := σ.sys.count }) hi.sim.wf
        ⟨rfl, rfl, rfl, rfl⟩ h rfl hle hk
        (fun _ => by rw [hnone]; exact nofun) hu
      exact ⟨c, u₀, hk, hu₀, hle₀, id⟩
    | asks hpc hcas => exact absurd hw (cas_writes he hpc hcas)
    | polls hpc hcas => exact absurd hw (cas_writes he hpc hcas)
    | grants _ _ hlt => exact absurd hlt hx
    | defers hpc hlt =>
      refine ⟨.thread t, σ.views t, ?_, .thread t, ?_, False.elim⟩
      · rw [held_thread (s := σ.sys) hpc]
        exact Nat.one_pos
      · cases hu with
        | fut _ =>
          have hnew := handOn_new (σ := σ) (s := { s₀ with count := σ.sys.count }) (t := t) (v := v) hlt
          rw [move_futViews]
          show (σ.views t).Le (σ.handOn t _ v σ.sys.nextFut)
          rw [hnew]
          exact hle
        | polling x _ hp =>
          rw [move_sys] at hp
          obtain ⟨y, hy, _⟩ := hi.sim.wf.polls x _ (polls_before h hp)
          exact absurd (hi.sim.wf.lt hy) (Nat.lt_irrefl _)
    | user => cases hu
  · rintro i (hi | ⟨u, hu, hk⟩)
    · rw [hmove]
      exact .inl hi
    · have hne : u ≠ t := by
        rintro rfl
        exact hst _ (drops_pos hu)
      refine .inr ⟨u, ?_, ?_⟩
      · rw [move_sys]
        exact Nat.lt_of_lt_of_eq hu (congrArg Pc.drops (hframe u hne)).symm
      · rw [move_views, Function.update_of_ne hne]
        exact hk

theorem Ordered.concat {begun : List Section} (h : Ordered begun) {y : Section}
    (hy : ∀ i x, begun[i]? = some x → x.exclusive = true ∨ y.exclusive = true → i ∈ y.known) :
    Ordered (begun ++ [y]) := by
  intro i j x z hij hx hz hxz
  rcases getElem?_concat hz with hz | ⟨rfl, rfl⟩
  · have hlt := (List.getElem?_eq_some_iff.mp hz).1
    rw [List.getElem?_append_left (hij.trans hlt)] at hx
    exact h i j x z hij hx hz hxz
  · rw [List.getElem?_append_left hij] at hx
    exact hy i x hx hxz

/-- The thread has found no standard reference in the last message. -/
theorem Weak.Inv.grant (hi : σ.Inv l) {d : Carrier} (hd : 0 < σ.sys.held d) (hdx : ¬ d.excl)
    (he : RefCount.exec cfg { σ.sys with count := w } (.step t b) = some s₀) (hw : s₀.count = w)
    (hst : ∀ op, σ.sys.pc t ≠ .releaseStore op) (hx : σ.sys.exclusiveRefs < s₀.exclusiveRefs) (hzero : σ.sys.refs = 0)
    (hcaught : σ.Caught v) : ∃ l', (σ.move t { s₀ with count := σ.sys.count } v).Inv l' := by
  have h := exec_step he
  obtain ⟨l', _, hsim, hrefs⟩ := hi.sim.presented h hw hst fun _ => hzero
  have hcalls : CallsWithin Call.inProtocol s₀ := CallsWithin.step (s := { σ.sys with count := w }) hi.calls rfl h
  have hnone : ∀ c, c.excl → σ.sys.held c = 0 := fun c hc =>
    hi.sim.held.others hd fun e => hdx (e ▸ hc)
  have hone : s₀.exclusiveRefs = σ.sys.exclusiveRefs + 1 := by
    rcases step_exclusiveRefs h with e | e
    · exact absurd (hx.trans_eq e) (Nat.lt_irrefl _)
    · exact e
  have hmove : σ.move t { s₀ with count := σ.sys.count } v =
      { σ with
        sys := { s₀ with count := σ.sys.count }
        views := Function.update σ.views t v
        futViews := σ.handOn t { s₀ with count := σ.sys.count } v
        exclusives := σ.begun.length :: σ.exclusives
        exclusiveView := v
        begun := σ.begun ++ [⟨true, v.known⟩] } := by
    unfold Weak.move
    rw [begins_exclusive (s := { s₀ with count := σ.sys.count }) hrefs hx]
    rfl
  have hlt : v.seen < σ.cell.length := Nat.lt_of_lt_of_eq (Nat.lt_succ_self _) hcaught.seen
  have hheld : ∀ c, 0 < Sys.held { s₀ with count := σ.sys.count } c → c = .exclusiveRef := by
    intro c hc
    have h₀ : 0 < Sys.held { s₀ with count := σ.sys.count } .exclusiveRef := by
      show 0 < s₀.exclusiveRefs
      omega
    exact RwLock.Block.held.inj ((hsim.holder hc).symm.trans (hsim.holder h₀))
  rw [hmove]
  refine ⟨l', hsim, hcalls, hi.cell, ⟨?_, ?_, hlt⟩, ?_, ?_, hi.refs.trans hrefs.symm, ?_, ?_, ?_, ?_⟩
  · exact (hi.moved_bound (s := s₀) (Nat.le_refl _) hlt).1
  · exact (hi.moved_bound (Nat.le_refl _) hlt).2.1
  · intro c u hc hu
    cases hheld c hc
    cases hu
    exact Weak.Caught.follows (σ := σ) hi hcaught
  · intro c u hc _ hu
    cases hheld c hc
    cases hu
    exact ⟨hcaught.seen, hcaught.known⟩
  · show σ.exclusives.length + 1 = s₀.exclusiveRefs
    rw [hi.exclusives, hone]
  · intro i hir
    obtain ⟨x, hxi, hxs⟩ := hi.shared i hir
    exact ⟨x, by rw [List.getElem?_append_left (List.getElem?_eq_some_iff.mp hxi).1]; exact hxi, hxs⟩
  · intro i hlen
    rw [List.length_append, List.length_singleton] at hlen
    rcases Nat.lt_or_eq_of_le (Nat.le_of_lt_succ hlen) with hlt | rfl
    · rcases hi.all_ended hnone hlt with h | h
      · exact .inl h
      · exact .inr (.inl h)
    · exact .inr (.inr (.inl (List.mem_cons_self ..)))
  · refine hi.ordered.concat ?_
    intro i x hxi _
    rcases hi.all_ended hnone (List.getElem?_eq_some_iff.mp hxi).1 with h | h
    · exact hcaught.known i h
    · have hlen := hi.refs
      rw [hzero] at hlen
      rw [List.length_eq_zero_iff.mp hlen] at h
      cases h

end

/-! ## Steps that write a message -/

section
variable {s₀ : Sys}

/-- The view of a thread whose `compare_exchange_weak` wrote the next message. -/
def Weak.casView (σ : Weak) (t : ThreadId) : View Nat := ⟨σ.cell.length, (σ.views t).known ++ σ.released⟩

def Weak.casCell (σ : Weak) (t : ThreadId) (value : UInt32) : List (Msg UInt32 Nat) :=
  σ.cell ++ [⟨value, σ.released ++ (σ.views t).known⟩]

theorem Weak.Inv.rmw (hi : σ.Inv l) (o : Order) (v : View Nat) (value : UInt32) :
    RelAcq.rmw o v σ.cell value = some (⟨σ.cell.length, (v.learn o 0 ⟨σ.sys.count, σ.released⟩).known⟩,
      σ.cell ++ [⟨value, σ.released ++ v.shares o⟩]) := by
  obtain ⟨pre, known, hpre⟩ := hi.cell
  unfold RelAcq.rmw
  rw [released_concat hpre, hpre, List.getLast?_concat]
  rfl

theorem Weak.Inv.takeRef (hi : σ.Inv l) {op : IncrOp} {n : Nat} {p : IncrPair}
    (he : RefCount.exec cfg σ.sys (.step t false) = some s₀) (hpc : σ.sys.pc t = .incrCas op n p)
    (hc : σ.sys.count = p.refCount) (hr : s₀.refs ≤ maxRefs) :
    ∃ l', (Weak.move { σ with cell := σ.casCell t s₀.count } t s₀ (σ.casView t)).Inv l' := by
  have h := exec_step he
  obtain ⟨heven, hrefs, hheld⟩ := takes_ref hi.sim.wf he hpc hc
  obtain ⟨l', hsim⟩ := sim_cas hi.sim h (by rw [hpc]; exact fun _ => nofun) hr
  have hfree : ∀ c, s₀.held c = 0 := fun c => by rw [hheld, hi.sim.free heven]
  have hexcl : s₀.exclusiveRefs = σ.sys.exclusiveRefs := congrFun hheld .exclusiveRef
  have hmove : Weak.move { σ with cell := σ.casCell t s₀.count } t s₀ (σ.casView t) =
      { σ with
        sys := s₀
        cell := σ.casCell t s₀.count
        views := Function.update σ.views t (σ.casView t)
        futViews := σ.handOn t s₀ (σ.casView t)
        refs := σ.begun.length :: σ.refs
        begun := σ.begun ++ [⟨false, (σ.casView t).known⟩] } := by
    unfold Weak.move
    rw [begins_ref (σ := { σ with cell := σ.casCell t s₀.count }) hrefs]
    rfl
  have hlen : (σ.casCell t s₀.count).length = σ.cell.length + 1 := List.length_append
  have hnone : ∀ c, c.excl → σ.sys.held c = 0 := fun c _ => hi.sim.free heven c
  have hknown : ∀ i, i ∈ σ.released → i ∈ (σ.casView t).known := fun i h => List.mem_append_right _ h
  rw [hmove]
  refine ⟨l', hsim, CallsWithin.step hi.calls rfl h, ⟨σ.cell, _, rfl⟩, ?_, ?_, ?_, ?_, ?_, ?_, ?_, ?_⟩
  · rw [hlen]
    exact hi.moved_bound (Nat.le_succ _) (Nat.lt_succ_self _)
  · intro c u hc
    exact absurd (hfree c) (Nat.ne_of_gt hc)
  · intro c u hc
    exact absurd (hfree c) (Nat.ne_of_gt hc)
  · show σ.refs.length + 1 = s₀.refs
    rw [hi.refs, hrefs]
  · exact hi.exclusives.trans hexcl.symm
  · intro i hm
    rcases List.mem_cons.mp hm with rfl | hm
    · exact ⟨_, List.getElem?_concat_length, rfl⟩
    · obtain ⟨x, hx, hs⟩ := hi.shared i hm
      exact ⟨x, by rw [List.getElem?_append_left (List.getElem?_eq_some_iff.mp hx).1]; exact hx, hs⟩
  · intro i hlt
    rw [released_concat (c := σ.cell) rfl]
    rw [List.length_append, List.length_singleton] at hlt
    rcases Nat.lt_or_eq_of_le (Nat.le_of_lt_succ hlt) with hlt | rfl
    · rcases hi.all_ended hnone hlt with h | h
      · exact .inl (List.mem_append_left _ h)
      · exact .inr (.inl (List.mem_cons_of_mem _ h))
    · exact .inr (.inl (List.mem_cons_self ..))
  · refine hi.ordered.concat ?_
    intro i x hx he
    rcases hi.all_ended hnone (List.getElem?_eq_some_iff.mp hx).1 with h | h
    · exact hknown i h
    · obtain ⟨y, hy, hs⟩ := hi.shared i h
      rw [hx] at hy
      cases hy
      rcases he with e | e
      · rw [hs] at e; cases e
      · cases e

theorem Weak.Inv.takeBlock (hi : σ.Inv l) {op : BlockOp} {n : Nat} {p : BlockPair}
    (he : RefCount.exec cfg σ.sys (.step t false) = some s₀) (hpc : σ.sys.pc t = .blockCas op n p)
    (hc : σ.sys.count = p.refCount) (hr : s₀.refs ≤ maxRefs) :
    ∃ l', (Weak.move { σ with cell := σ.casCell t s₀.count } t s₀ (σ.casView t)).Inv l' := by
  have h := exec_step he
  obtain ⟨heven, hrefs, hexcl⟩ := takes_block he hpc hc
  obtain ⟨l', hsim⟩ := sim_cas hi.sim h (by rw [hpc]; exact fun _ => nofun) hr
  have hfree := hi.sim.free heven
  have hmove : Weak.move { σ with cell := σ.casCell t s₀.count } t s₀ (σ.casView t) =
      { σ with
        sys := s₀
        cell := σ.casCell t s₀.count
        views := Function.update σ.views t (σ.casView t)
        futViews := σ.handOn t s₀ (σ.casView t) } := by
    unfold Weak.move
    rw [begins_none (σ := { σ with cell := σ.casCell t s₀.count }) hrefs (Nat.not_lt.mpr (Nat.le_of_eq hexcl))]
    rfl
  have hlen : (σ.casCell t s₀.count).length = σ.cell.length + 1 := List.length_append
  have hgets : ∀ c, 0 < s₀.held c → ¬ c.excl ∧
      (c = .user ∨ c = .thread t ∨ ∃ f, c = .fut f ∧ (σ.sys.pc t).polls = some f ∧ f < σ.sys.nextFut) := by
    intro c hc
    cases h.gets hi.sim.wf hc with
    | keeps hk => exact absurd (hfree c) (Nat.ne_of_gt hk)
    | asks _ _ => exact ⟨id, .inr (.inl rfl)⟩
    | @polls _ f _ _ _ hpc' _ =>
      obtain ⟨x, hx, _⟩ := hi.sim.wf.polls t f (congrArg Pc.polls hpc')
      exact ⟨id, .inr (.inr ⟨f, rfl, congrArg Pc.polls hpc', hi.sim.wf.lt hx⟩)⟩
    | grants hpc' _ _ => rw [hpc] at hpc'; cases hpc'
    | defers hpc' _ => rw [hpc] at hpc'; cases hpc'
    | user => exact ⟨id, .inl rfl⟩
  rw [hmove]
  refine ⟨l', hsim, CallsWithin.step hi.calls rfl h, ⟨σ.cell, _, rfl⟩, ?_, ?_, ?_, ?_, ?_, hi.shared, ?_,
    hi.ordered⟩
  · rw [hlen]
    exact hi.moved_bound (Nat.le_succ _) (Nat.lt_succ_self _)
  · intro c u hc hu
    have hlast : u = σ.casView t := by
      rcases (hgets c hc).2 with rfl | rfl | ⟨f, rfl, hp, hf⟩
      · cases hu
      · cases hu with
        | thread => exact Function.update_self ..
      · cases hu with
        | fut => exact handOn_polled hf hp
        | polling x _ hx =>
          obtain rfl : t = x := hi.sim.wf.polls_inj hp (polls_before (w := σ.sys.count) h hx)
          exact Function.update_self ..
    subst hlast
    refine sees_last rfl ?_
    show s₀.count.toNat = s₀.count.toNat + 2 * ((σ.casCell t s₀.count).length - 1 - σ.cell.length)
    rw [hlen]
    omega
  · exact fun c u hc hx => absurd hx (hgets c hc).1
  · exact hi.refs.trans hrefs.symm
  · exact hi.exclusives.trans hexcl.symm
  · intro i hlt
    rw [released_concat (c := σ.cell) rfl]
    rcases hi.all_ended (fun c _ => hfree c) hlt with h | h
    · exact .inl (List.mem_append_left _ h)
    · exact .inr (.inl h)

theorem Weak.Inv.storeAllowed (hi : σ.Inv l) {op : ReleaseOp} (he : RefCount.exec cfg σ.sys (.step t b) = some s₀)
    (hpc : σ.sys.pc t = .releaseStore op) (hr : s₀.refs ≤ maxRefs) :
    ∃ l', (Weak.move { σ with cell := σ.cell ++ [⟨s₀.count, (σ.views t).known⟩] } t s₀
      ⟨σ.cell.length, (σ.views t).known⟩).Inv l' := by
  have h := exec_step he
  have hlock : Exclusion.Inv σ.sys l := ⟨hi.sim, hi.calls⟩
  obtain rfl : op = .dropExclusiveRef := hlock.drops (stores_step (b := b) hpc)
  have hdrops : 0 < (σ.sys.pc t).drops := by rw [hpc]; exact Nat.one_pos
  have hcaught := hi.caught (.dropping t) _ hdrops trivial (.dropping t)
  obtain ⟨hcount, hrefs, hexcl⟩ :
      s₀.count = refAllowed ∧ s₀.refs = σ.sys.refs ∧ s₀.exclusiveRefs = σ.sys.exclusiveRefs := by
    simp only [RefCount.exec, Sys.stepThread, hpc, Option.some.injEq] at he
    rw [← he]
    exact ⟨rfl, rfl, rfl⟩
  obtain ⟨l', _, hsim, _⟩ := hi.sim.step disciplined_step hlock.storesClean hr h
  have hfree : ∀ c, s₀.held c = 0 := hsim.free (by rw [hcount]; rfl)
  have hmove : Weak.move { σ with cell := σ.cell ++ [⟨s₀.count, (σ.views t).known⟩] } t s₀
      ⟨σ.cell.length, (σ.views t).known⟩ =
      { σ with
        sys := s₀
        cell := σ.cell ++ [⟨s₀.count, (σ.views t).known⟩]
        views := Function.update σ.views t ⟨σ.cell.length, (σ.views t).known⟩
        futViews := σ.handOn t s₀ ⟨σ.cell.length, (σ.views t).known⟩ } := by
    unfold Weak.move
    rw [begins_none (σ := { σ with cell := σ.cell ++ [⟨s₀.count, (σ.views t).known⟩] }) hrefs
      (Nat.not_lt.mpr (Nat.le_of_eq hexcl))]
    rfl
  have hlen : (σ.cell ++ [(⟨s₀.count, (σ.views t).known⟩ : Msg UInt32 Nat)]).length = σ.cell.length + 1 := List.length_append
  rw [hmove]
  refine ⟨l', hsim, CallsWithin.step hi.calls rfl h, ⟨σ.cell, _, rfl⟩, ?_, ?_, ?_,
    hi.refs.trans hrefs.symm, hi.exclusives.trans hexcl.symm, hi.shared, ?_, hi.ordered⟩
  · rw [hlen]
    exact hi.moved_bound (Nat.le_succ _) (Nat.lt_succ_self _)
  · exact fun c u hc => absurd (hfree c) (Nat.ne_of_gt hc)
  · exact fun c u hc => absurd (hfree c) (Nat.ne_of_gt hc)
  · intro i hlt
    rw [released_concat (c := σ.cell) rfl]
    rcases hi.ended i hlt with h | h | h | ⟨u, hu, hk⟩
    · exact .inl (hcaught.known i h)
    · exact .inr (.inl h)
    · exact .inr (.inr (.inl h))
    · obtain rfl : u = t :=
        Carrier.dropping.inj (RwLock.Block.held.inj ((hi.sim.holder (c := .dropping u) hu).symm.trans
          (hi.sim.holder (c := .dropping t) hdrops)))
      exact .inl hk

theorem Weak.Inv.dropExclusiveRef (hi : σ.Inv l) {i : Nat} (hmem : i ∈ σ.exclusives)
    (he : RefCount.exec cfg σ.sys (.call t .dropExclusiveRef) = some s₀) (hp : Protocol σ.sys (.call t .dropExclusiveRef) s₀) :
    ∃ l', Weak.Inv
      { σ with
        sys := s₀
        views := Function.update σ.views t
          ⟨((σ.views t).join σ.exclusiveView).seen, i :: ((σ.views t).join σ.exclusiveView).known⟩
        exclusives := σ.exclusives.erase i } l' := by
  have h := exec_step he
  obtain ⟨l', _, hlock, _⟩ := Exclusion.Inv.step ⟨hi.sim, hi.calls⟩ hp he
  obtain ⟨hpos, hone, hpc, hcount, hrefs⟩ : 0 < σ.sys.exclusiveRefs ∧ s₀.exclusiveRefs = σ.sys.exclusiveRefs - 1 ∧
      s₀.pc t = .releaseStore .dropExclusiveRef ∧ s₀.count = σ.sys.count ∧ s₀.refs = σ.sys.refs := by
    cases h with
    | begin _ hb => cases hb
    | beginDrop _ hx => exact ⟨hx, rfl, setPc_self _ _, rfl, rfl⟩
    | newFuture hn => cases hn
  have hdrops : 0 < (s₀.pc t).drops := by rw [hpc]; exact Nat.one_pos
  -- the `ExclusiveRef` had the block, the thread that drops it has it
  have hafter : ∀ c, 0 < s₀.held c → c = .dropping t := fun c hc =>
    RwLock.Block.held.inj ((hlock.sim.holder hc).symm.trans (hlock.sim.holder (c := .dropping t) hdrops))
  have hbefore : ∀ u, ¬ 0 < (σ.sys.pc u).drops := fun u hu =>
    absurd (RwLock.Block.held.inj ((hi.sim.holder (c := .dropping u) hu).symm.trans
      (hi.sim.holder (c := .exclusiveRef) hpos))) Carrier.noConfusion
  have hknown : ∀ j, j = i ∨ j ∈ σ.exclusives.erase i → j ∈ σ.exclusives.erase i ∨
      ∃ u, 0 < (s₀.pc u).drops ∧ j ∈ (Function.update σ.views t
        ⟨((σ.views t).join σ.exclusiveView).seen, i :: ((σ.views t).join σ.exclusiveView).known⟩ u).known := by
    rintro j (rfl | hj)
    · refine .inr ⟨t, hdrops, ?_⟩
      rw [Function.update_self]
      exact List.mem_cons_self ..
    · exact .inl hj
  refine ⟨l', hi.frame hlock.sim hlock.calls ⟨hcount, rfl, rfl, rfl⟩ hrefs ?_ ⟨fun u => ?_, hi.bound.2⟩ ?_ ?_⟩
  · show (σ.exclusives.erase i).length = s₀.exclusiveRefs
    rw [List.length_erase_of_mem hmem, hi.exclusives, hone]
  · show (Function.update σ.views t _ u).seen < σ.cell.length
    rw [Function.update_apply]
    split
    · exact max_lt (hi.bound.1 t) hi.bound.2.2
    · exact hi.bound.1 u
  · intro c u hc hu
    obtain rfl := hafter c hc
    refine ⟨.exclusiveRef, σ.exclusiveView, hpos, .exclusiveRef, ?_, fun _ => trivial⟩
    cases hu with
    | dropping =>
      show σ.exclusiveView.Le (Function.update σ.views t _ t)
      rw [Function.update_self]
      exact ⟨Nat.le_max_right _ _, fun k hk => List.mem_cons_of_mem _ (List.mem_append_right _ hk)⟩
  · rintro j (hj | ⟨u, hu, _⟩)
    · refine hknown j ?_
      by_cases e : j = i
      · exact .inl e
      · exact .inr ((List.mem_erase_of_ne e).mpr hj)
    · exact absurd hu (hbefore u)

theorem Weak.Inv.dropRef (hi : σ.Inv l) {i : Nat} (hmem : i ∈ σ.refs) (he : RefCount.exec cfg σ.sys .dropRef = some s₀)
    (hp : Protocol σ.sys .dropRef s₀) :
    ∃ l', Weak.Inv
      { σ with sys := s₀, cell := σ.cell ++ [⟨s₀.count, σ.released ++ [i]⟩], refs := σ.refs.erase i } l' := by
  have h := exec_step he
  have htwo := hi.sim.dropRef he
  obtain ⟨l', _, hlock, _⟩ := Exclusion.Inv.step ⟨hi.sim, hi.calls⟩ hp he
  obtain ⟨hpos, rfl⟩ : σ.sys.forgotten < σ.sys.refs ∧
      s₀ = { σ.sys with count := σ.sys.count - refIncr, refs := σ.sys.refs - 1 } := by
    cases h with
    | newFuture hn => cases hn
    | dropRef hlt => exact ⟨hlt, rfl⟩
  have hcount : σ.sys.count.toNat = (σ.sys.count - refIncr).toNat + 2 := by
    rw [sub_refIncr_toNat htwo]
    exact (Nat.sub_add_cancel htwo).symm
  have hlen : (σ.cell ++ [(⟨σ.sys.count - refIncr, σ.released ++ [i]⟩ : Msg UInt32 Nat)]).length = σ.cell.length + 1 :=
    List.length_append
  refine ⟨l', hlock.sim, hlock.calls, ⟨σ.cell, _, rfl⟩, ?_, ?_, ?_, ?_, hi.exclusives, ?_, ?_, hi.ordered⟩
  · rw [hlen]
    exact ⟨fun u => Nat.lt_succ_of_lt (hi.bound.1 u), fun f => Nat.lt_succ_of_lt (hi.bound.2.1 f),
      Nat.lt_succ_of_lt hi.bound.2.2⟩
  · intro c u hc hu
    have hv : σ.HasView c u := by
      cases hu with
      | thread x => exact .thread x
      | dropping x => exact .dropping x
      | fut f => exact .fut f
      | polling x f hx => exact .polling x f hx
      | exclusiveRef => exact .exclusiveRef
    refine (hi.follows c u hc hv).append ?_ ?_
    · intro j w hj hw
      show w.toNat = (σ.sys.count - refIncr).toNat + 2 * ((σ.cell ++ [_]).length - 1 - j)
      rw [hlen]
      omega
    · show (σ.sys.count - refIncr).toNat = (σ.sys.count - refIncr).toNat + 2 * ((σ.cell ++ [_]).length - 1 - σ.cell.length)
      rw [hlen]
      omega
  · intro c u hc hx
    have hzero := hi.sim.refs_zero (c := c) hc hx
    omega
  · show (σ.refs.erase i).length = σ.sys.refs - 1
    rw [List.length_erase_of_mem hmem, hi.refs]
  · exact fun j hj => hi.shared j (List.mem_of_mem_erase hj)
  · intro j hj
    rw [released_concat (c := σ.cell) rfl]
    rcases hi.ended j hj with h | h | h | ⟨u, hu, hk⟩
    · exact .inl (List.mem_append_left _ h)
    · by_cases e : j = i
      · subst e
        exact .inl (List.mem_append_right _ (List.mem_singleton_self _))
      · exact .inr (.inl ((List.mem_erase_of_ne e).mpr h))
    · exact .inr (.inr (.inl h))
    · exact .inr (.inr (.inr ⟨u, hu, hk⟩))

/-- A step of the client that leaves the word alone. -/
theorem Weak.Inv.client (hi : σ.Inv l) {a : Act} (ha : ∀ t b, a ≠ .step t b)
    (hq : a ≠ .dropRef ∧ ∀ t, a ≠ .call t .dropExclusiveRef)
    (he : RefCount.exec cfg σ.sys a = some s₀) (hp : Protocol σ.sys a s₀) {views : ThreadId → View Nat}
    (hle : ∀ u, (σ.views u).Le (views u)) (hbound : ∀ u, (views u).seen < σ.cell.length)
    (hpoll : ∀ u f w, a = .call u (.poll f w) → (σ.futViews f).Le (views u)) :
    ∃ l', Weak.Inv { σ with sys := s₀, views := views } l' := by
  have h := exec_step he
  obtain ⟨l', _, hlock, _⟩ := Exclusion.Inv.step ⟨hi.sim, hi.calls⟩ hp he
  obtain ⟨hcount, hrefs, hexcl⟩ :
      s₀.count = σ.sys.count ∧ s₀.refs = σ.sys.refs ∧ s₀.exclusiveRefs = σ.sys.exclusiveRefs := by
    cases h with
    | dropRef _ => exact absurd rfl hq.1
    | beginDrop _ _ => exact absurd rfl (hq.2 _)
    | _ => first | exact ⟨rfl, rfl, rfl⟩ | exact absurd rfl (ha _ _)
  have hkeep : ∀ u, 0 < (σ.sys.pc u).drops → s₀.pc u = σ.sys.pc u := by
    intro u hu
    refine h.pc_frame fun e => ?_
    cases a with
    | call x c =>
      cases e
      simp [RefCount.exec, drops_pos hu] at he
    | step x b => exact ha x b rfl
    | _ => cases e
  refine ⟨l', hi.frame hlock.sim hlock.calls ⟨hcount, rfl, rfl, rfl⟩ hrefs (hi.exclusives.trans hexcl.symm)
    ⟨hbound, hi.bound.2⟩ ?_ ?_⟩
  · intro c u hc hu
    cases h.gets hi.sim.wf hc with
    | keeps hk =>
      cases hu with
      | thread x => exact ⟨_, _, hk, .thread x, hle x, id⟩
      | dropping x => exact ⟨_, _, hk, .dropping x, hle x, id⟩
      | fut f => exact ⟨_, _, hk, .fut f, .rfl, id⟩
      | exclusiveRef => exact ⟨_, _, hk, .exclusiveRef, .rfl, id⟩
      | polling x f hx =>
        obtain ⟨w, hcall⟩ := polls_call hx
        rcases h.call hcall with hc' | hc'
        · exact ⟨_, _, hk, .polling x f (call_polls hc'), hle x, id⟩
        · exact ⟨_, _, hk, .fut f, hpoll x f w hc', id⟩
    | unblocks => exact absurd hp.1 Bool.false_ne_true
    | drops _ => exact absurd rfl (hq.2 _)
    | user => cases hu
    | _ => exact absurd rfl (ha _ _)
  · rintro i (hi | ⟨u, hu, hk⟩)
    · exact .inl hi
    · exact .inr ⟨u, Nat.lt_of_lt_of_eq hu (congrArg Pc.drops (hkeep u hu)).symm, (hle u).known i hk⟩

end

end

end RefCount
