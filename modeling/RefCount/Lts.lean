import Mathlib.Logic.Function.Basic

/-!
# Labelled transition systems

A deterministic system: in a state, a label either is not enabled or has one
successor. A run is a list of labels. A guard restricts the steps a client may
take; `Reach` is guarded reachability, and `AllSteps`, `AllStates` say that every
step, or every state, of one run meets a condition.
-/

namespace Lts

section
variable {σ α : Type} (step : σ → α → Option σ)

def run : σ → List α → Option σ
  | s, [] => some s
  | s, a :: as => (step s a).bind fun t => run t as

inductive Reach (G : σ → α → σ → Prop) (s₀ : σ) : σ → Prop
  | start : Reach G s₀ s₀
  | next {s t : σ} {a : α} : Reach G s₀ s → G s a t → step s a = some t → Reach G s₀ t

/-- Every step of the run meets `C`. -/
def AllSteps (C : σ → α → σ → Prop) : σ → List α → Prop
  | _, [] => True
  | s, a :: as =>
    match step s a with
    | some t => C s a t ∧ AllSteps C t as
    | none => True

instance decidableAllSteps {C : σ → α → σ → Prop} [h : ∀ s a t, Decidable (C s a t)] :
    ∀ (s : σ) (as : List α), Decidable (AllSteps step C s as)
  | _, [] => .isTrue trivial
  | s, a :: as =>
    match hs : step s a with
    | some t =>
      have : Decidable (AllSteps step C t as) := decidableAllSteps t as
      decidable_of_iff (C s a t ∧ AllSteps step C t as) (by simp [AllSteps, hs])
    | none => .isTrue (by simp [AllSteps, hs])

/-- Every state of the run, the first one included, meets `P`. -/
def AllStates (P : σ → Prop) : σ → List α → Prop
  | s, [] => P s
  | s, a :: as =>
    P s ∧ match step s a with
      | some t => AllStates P t as
      | none => True

instance decidableAllStates {P : σ → Prop} [h : ∀ s, Decidable (P s)] :
    ∀ (s : σ) (as : List α), Decidable (AllStates step P s as)
  | s, [] => h s
  | s, a :: as =>
    match hs : step s a with
    | some t =>
      have : Decidable (AllStates step P t as) := decidableAllStates t as
      decidable_of_iff (P s ∧ AllStates step P t as) (by simp [AllStates, hs])
    | none => decidable_of_iff (P s) (by simp [AllStates, hs])

/-- Some state of the run, the first one included, meets `P`. -/
def SomeState (P : σ → Prop) : σ → List α → Prop
  | s, [] => P s
  | s, a :: as =>
    P s ∨ match step s a with
      | some t => SomeState P t as
      | none => False

/-- The system with a history variable: a step that leaves `s` by `a` adds to it what `upd s a` says. -/
def recorded {η : Type} (upd : σ → α → η → η) (p : σ × η) (a : α) : Option (σ × η) :=
  (step p.1 a).map fun t => (t, upd p.1 a p.2)

end

section
variable {σ α : Type} {step : σ → α → Option σ}

theorem run_cons {s t u : σ} {a : α} {as : List α} (h : step s a = some t) :
    run step s (a :: as) = some u ↔ run step t as = some u := by
  simp [run, h]

theorem run_append {s : σ} (as bs : List α) :
    run step s (as ++ bs) = (run step s as).bind fun t => run step t bs := by
  induction as generalizing s with
  | nil => rfl
  | cons a as ih =>
    simp only [List.cons_append, run]
    cases step s a with
    | none => rfl
    | some t => exact ih

theorem run_concat {s t u : σ} {as bs : List α} (h₁ : run step s as = some t) (h₂ : run step t bs = some u) :
    run step s (as ++ bs) = some u := by
  rw [run_append, h₁]; exact h₂

theorem allSteps_cons {C : σ → α → σ → Prop} {s t : σ} {a : α} {as : List α} (h : step s a = some t) :
    AllSteps step C s (a :: as) ↔ C s a t ∧ AllSteps step C t as := by
  simp [AllSteps, h]

theorem allStates_cons {P : σ → Prop} {s t : σ} {a : α} {as : List α} (h : step s a = some t) :
    AllStates step P s (a :: as) ↔ P s ∧ AllStates step P t as := by
  simp [AllStates, h]

theorem AllStates.head {P : σ → Prop} {s : σ} {as : List α} (h : AllStates step P s as) : P s := by
  cases as with
  | nil => exact h
  | cons a as => exact h.1

theorem AllStates.last {P : σ → Prop} :
    ∀ {as : List α} {s t : σ}, AllStates step P s as → run step s as = some t → P t
  | [], s, t, h, hr => by
    cases hr; exact h
  | a :: as, s, t, h, hr => by
    cases hst : step s a with
    | none => simp [run, hst] at hr
    | some u =>
      rw [allStates_cons hst] at h
      rw [run_cons hst] at hr
      exact AllStates.last h.2 hr

/-- The invariant rule: what holds at the start and is kept by every guarded
step holds in every reachable state. -/
theorem Reach.inv {G : σ → α → σ → Prop} {s₀ : σ} (I : σ → Prop) (h₀ : I s₀)
    (hs : ∀ s a t, I s → G s a t → step s a = some t → I t) {s : σ} (h : Reach step G s₀ s) : I s := by
  induction h with
  | start => exact h₀
  | next _ hg hst ih => exact hs _ _ _ ih hg hst

theorem Reach.run {G : σ → α → σ → Prop} {s₀ t : σ} :
    ∀ {as : List α} {s : σ}, Reach step G s₀ s → AllSteps step G s as → run step s as = some t →
      Reach step G s₀ t
  | [], s, hr, _, h => by
    simp only [Lts.run, Option.some.injEq] at h
    subst h; exact hr
  | a :: as, s, hr, hg, h => by
    cases hst : step s a with
    | none => simp [Lts.run, hst] at h
    | some u =>
      rw [allSteps_cons hst] at hg
      rw [run_cons hst] at h
      exact Reach.run (.next hr hg.1 hst) hg.2 h

/-- An invariant kept by the steps that meet `C` holds in every state of a run
whose steps all meet it. -/
theorem AllSteps.inv {C : σ → α → σ → Prop} (I : σ → Prop)
    (hs : ∀ s a t, I s → C s a t → step s a = some t → I t) :
    ∀ {as : List α} {s : σ}, I s → AllSteps step C s as → AllStates step I s as
  | [], _, h, _ => h
  | a :: as, s, h, hc => by
    refine ⟨h, ?_⟩
    cases hst : step s a with
    | none => trivial
    | some t =>
      rw [allSteps_cons hst] at hc
      exact AllSteps.inv I hs (hs _ _ _ h hc.1 hst) hc.2

theorem AllStates.imp {P Q : σ → Prop} (h : ∀ s, P s → Q s) :
    ∀ {as : List α} {s : σ}, AllStates step P s as → AllStates step Q s as
  | [], _, hp => h _ hp
  | a :: as, s, hp => by
    refine ⟨h _ hp.1, ?_⟩
    cases hst : step s a with
    | none => trivial
    | some t =>
      rw [allStates_cons hst] at hp
      exact AllStates.imp h hp.2

theorem AllStates.allSteps {P : σ → Prop} {C : σ → α → σ → Prop} (h : ∀ s a t, step s a = some t → P s → C s a t) :
    ∀ {as : List α} {s : σ}, AllStates step P s as → AllSteps step C s as
  | [], _, _ => trivial
  | a :: as, s, hp => by
    unfold AllSteps
    cases hst : step s a with
    | none => trivial
    | some t =>
      rw [allStates_cons hst] at hp
      exact ⟨h _ _ _ hst hp.1, AllStates.allSteps h hp.2⟩

theorem allStates_someState {ι : Type} (P : ι → σ → Prop) :
    ∀ (as : List α) (s : σ), AllStates step (fun t => ∀ i, P i t → SomeState step (P i) s as) s as
  | [], _ => fun _ h => h
  | a :: as, s => by
    refine ⟨fun i h => .inl h, ?_⟩
    cases hst : step s a with
    | none => trivial
    | some t =>
      apply (allStates_someState P as t).imp
      intro u hu i hi
      refine .inr ?_
      rw [hst]
      exact hu i hi

theorem SomeState.and_all {P Q : σ → Prop} :
    ∀ {as : List α} {s : σ}, SomeState step P s as → AllStates step Q s as → ∃ t, P t ∧ Q t
  | [], s, hp, hq => ⟨s, hp, hq⟩
  | a :: as, s, hp, hq => by
    rcases hp with hp | hp
    · exact ⟨s, hp, hq.1⟩
    · cases hst : step s a with
      | none => rw [hst] at hp; exact hp.elim
      | some t =>
        rw [hst] at hp
        rw [allStates_cons hst] at hq
        exact hp.and_all hq.2

theorem allSteps_of {C : σ → α → σ → Prop} :
    ∀ {as : List α} {s : σ}, (∀ a ∈ as, ∀ s t, step s a = some t → C s a t) → AllSteps step C s as
  | [], _, _ => trivial
  | a :: as, s, h => by
    unfold AllSteps
    cases hst : step s a with
    | none => trivial
    | some t =>
      exact ⟨h a (List.mem_cons_self ..) s t hst, allSteps_of fun b hb => h b (List.mem_cons_of_mem a hb)⟩

theorem AllSteps.append {C : σ → α → σ → Prop} :
    ∀ {as bs : List α} {s t : σ}, AllSteps step C s (as ++ bs) → run step s as = some t → AllSteps step C t bs
  | [], _, _, _, h, hr => by
    cases hr; exact h
  | a :: as, bs, s, t, h, hr => by
    cases hst : step s a with
    | none => simp [run, hst] at hr
    | some u =>
      rw [List.cons_append, allSteps_cons hst] at h
      rw [run_cons hst] at hr
      exact h.2.append hr

theorem AllSteps.left {C : σ → α → σ → Prop} :
    ∀ {as bs : List α} {s : σ}, AllSteps step C s (as ++ bs) → AllSteps step C s as
  | [], _, _, _ => trivial
  | a :: as, bs, s, h => by
    unfold AllSteps
    cases hst : step s a with
    | none => trivial
    | some u =>
      rw [List.cons_append, allSteps_cons hst] at h
      exact ⟨h.1, h.2.left⟩

theorem AllSteps.imp {C D : σ → α → σ → Prop} (h : ∀ s a t, step s a = some t → C s a t → D s a t) :
    ∀ {as : List α} {s : σ}, AllSteps step C s as → AllSteps step D s as
  | [], _, _ => trivial
  | a :: as, s, hc => by
    unfold AllSteps at hc ⊢
    cases hst : step s a with
    | none => trivial
    | some t =>
      rw [hst] at hc
      exact ⟨h _ _ _ hst hc.1, AllSteps.imp h hc.2⟩

theorem AllSteps.and {C D : σ → α → σ → Prop} :
    ∀ {as : List α} {s : σ}, AllSteps step C s as → AllSteps step D s as →
      AllSteps step (fun s a t => C s a t ∧ D s a t) s as
  | [], _, _, _ => trivial
  | a :: as, s, hc, hd => by
    unfold AllSteps at hc hd ⊢
    cases hst : step s a with
    | none => trivial
    | some t =>
      rw [hst] at hc hd
      exact ⟨⟨hc.1, hd.1⟩, hc.2.and hd.2⟩

/-- What the steps that meet `G` imply, with an invariant `I` that they keep. -/
theorem AllSteps.imp_inv {G C : σ → α → σ → Prop} (I : σ → Prop)
    (hs : ∀ s a t, I s → G s a t → step s a = some t → C s a t ∧ I t) :
    ∀ {as : List α} {s : σ}, I s → AllSteps step G s as → AllSteps step C s as
  | [], _, _, _ => trivial
  | a :: as, s, hi, hg => by
    unfold AllSteps at hg ⊢
    cases hst : step s a with
    | none => trivial
    | some t =>
      rw [hst] at hg
      obtain ⟨hc, ht⟩ := hs _ _ _ hi hg.1 hst
      exact ⟨hc, AllSteps.imp_inv I hs ht hg.2⟩

/-- The converse of `AllSteps.inv`: where every state of a run meets `P`, a
step between two such states meets `C`. `I` carries what else is known. -/
theorem AllStates.steps {G C : σ → α → σ → Prop} {P : σ → Prop} (I : σ → Prop)
    (hs : ∀ s a t, I s → G s a t → P s → P t → step s a = some t → C s a t ∧ I t) :
    ∀ {as : List α} {s : σ}, I s → AllSteps step G s as → AllStates step P s as → AllSteps step C s as
  | [], _, _, _, _ => trivial
  | a :: as, s, hi, hg, hp => by
    cases hst : step s a with
    | none => simp [AllSteps, hst]
    | some t =>
      rw [allSteps_cons hst] at hg ⊢
      rw [allStates_cons hst] at hp
      obtain ⟨hc, hi'⟩ := hs _ _ _ hi hg.1 hp.1 hp.2.head hst
      exact ⟨hc, AllStates.steps I hs hi' hg.2 hp.2⟩

/-! ## Histories -/

/-- A history grows at its end. -/
theorem getElem?_concat {l : List α} {x y : α} {i : Nat} (h : (l ++ [x])[i]? = some y) :
    l[i]? = some y ∨ i = l.length ∧ x = y := by
  rcases Nat.lt_or_ge i l.length with hlt | hge
  · rw [List.getElem?_append_left hlt] at h
    exact .inl h
  · rw [List.getElem?_append_right hge, List.getElem?_singleton] at h
    split at h
    · exact .inr ⟨by omega, Option.some.inj h⟩
    · cases h

theorem getElem?_mono {l : List α} {x y : α} {i : Nat} (h : l[i]? = some y) : (l ++ [x])[i]? = some y := by
  rw [List.getElem?_append_left (List.getElem?_eq_some_iff.mp h).1]
  exact h

theorem recorded_eq_some {η : Type} {upd : σ → α → η → η} {p q : σ × η} {a : α} :
    recorded step upd p a = some q ↔ step p.1 a = some q.1 ∧ q.2 = upd p.1 a p.2 := by
  unfold recorded
  cases hst : step p.1 a with
  | none => simp
  | some t => simp [Prod.ext_iff, eq_comm]

/-- A history variable changes no run. -/
theorem allSteps_recorded {η : Type} {upd : σ → α → η → η} {C : σ → α → σ → Prop} :
    ∀ {as : List α} {s : σ} {h : η},
      AllSteps (recorded step upd) (fun p a q => C p.1 a q.1) (s, h) as ↔ AllSteps step C s as
  | [], _, _ => Iff.rfl
  | a :: as, s, h => by
    cases hst : step s a with
    | none => simp [AllSteps, recorded, hst]
    | some t =>
      have hrec : recorded step upd (s, h) a = some (t, upd s a h) := recorded_eq_some.mpr ⟨hst, rfl⟩
      rw [allSteps_cons hst, allSteps_cons hrec, allSteps_recorded]

end

/-! ## Potentials -/

section
variable {σ α : Type} {step : σ → α → Option σ}

end

/-! ## Simulations -/

section
variable {σ τ α : Type} {step : σ → α → Option σ} {step' : τ → α → Option τ}

/-- A run is followed label by label, but for steps without an effect: those with a label that
is `quiet` may be left out. What is reached on the way is followed as well. -/
theorem run_follows {G : σ → α → σ → Prop} {quiet : α → Bool} (R : σ → τ → Prop)
    (hs : ∀ s a s' c, R s c → G s a s' → step s a = some s' →
      (quiet a = true ∧ R s' c) ∨ ∃ c', step' c a = some c' ∧ R s' c') :
    ∀ {as : List α} {s s' : σ} {c : τ}, R s c → AllSteps step G s as → run step s as = some s' →
      ∃ bs, bs.Sublist as ∧ bs.filter (fun a => !quiet a) = as.filter (fun a => !quiet a) ∧
        ∀ as₁ u, as₁ <+: as → run step s as₁ = some u →
          ∃ bs₁ d, bs₁ <+: bs ∧ run step' c bs₁ = some d ∧ R u d
  | [], s, s', c, hr, _, _ => by
    refine ⟨[], .slnil, rfl, ?_⟩
    intro as₁ u hpre hrun
    obtain rfl := List.prefix_nil.mp hpre
    cases hrun
    exact ⟨[], c, List.prefix_refl [], rfl, hr⟩
  | a :: as, s, s', c, hr, hg, h => by
    cases hst : step s a with
    | none => simp [run, hst] at h
    | some v =>
      rw [allSteps_cons hst] at hg
      rw [run_cons hst] at h
      rcases hs s a v c hr hg.1 hst with ⟨hq, hr'⟩ | ⟨c₁, hc, hr'⟩
      · obtain ⟨bs, hsub, hfilter, hfollow⟩ := run_follows R hs hr' hg.2 h
        refine ⟨bs, hsub.cons a, ?_, ?_⟩
        · rw [hfilter, List.filter_cons_of_neg (by simp [hq])]
        · intro as₁ u hpre hrun
          cases as₁ with
          | nil => cases hrun; exact ⟨[], c, List.nil_prefix, rfl, hr⟩
          | cons b as₁ =>
            obtain ⟨rfl, hpre'⟩ := List.cons_prefix_cons.mp hpre
            rw [run_cons hst] at hrun
            exact hfollow as₁ u hpre' hrun
      · obtain ⟨bs, hsub, hfilter, hfollow⟩ := run_follows R hs hr' hg.2 h
        refine ⟨a :: bs, hsub.cons_cons a, ?_, ?_⟩
        · rw [List.filter_cons, List.filter_cons, hfilter]
        · intro as₁ u hpre hrun
          cases as₁ with
          | nil => cases hrun; exact ⟨[], c, List.nil_prefix, rfl, hr⟩
          | cons b as₁ =>
            obtain ⟨rfl, hpre'⟩ := List.cons_prefix_cons.mp hpre
            rw [run_cons hst] at hrun
            obtain ⟨bs₁, d, hbs, hd, hr₁⟩ := hfollow as₁ u hpre' hrun
            refine ⟨b :: bs₁, d, List.cons_prefix_cons.mpr ⟨rfl, hbs⟩, ?_, hr₁⟩
            rw [run_cons hc]
            exact hd

end

end Lts
