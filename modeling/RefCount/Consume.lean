import RefCount.Sequential

/-!
# Consuming a queue

`Drop` and `IntoIter`, which have the queue for themselves. A value that is moved out of
its slot, or dropped there, is gone: a second access to it is a fault, and so is one to a
slot that is not below `C`.
-/

namespace RefCount.ArrayQueue

section
variable {w : Nat} {V : Type} (C : Nat)

structure IntoIter (w : Nat) (V : Type) where
  value : State w V

def State.intoIter (s : State w V) : IntoIter w V := ⟨s⟩

def State.clear (s : State w V) (i : Nat) : State w V :=
  { s with buffer := Function.update s.buffer i { s.buffer i with value := none } }

/-- The value is moved out of slot `i`, or dropped there. -/
def State.take (s : State w V) (i : Nat) : Option (V × State w V) :=
  if i < C then (s.buffer i).value.map fun v => (v, s.clear i)
  else none

/-- `IntoIter::next`, which leaves the stamps alone. -/
def IntoIter.next (it : IntoIter w V) : Option (Option V × IntoIter w V) :=
  if it.value.head = it.value.tail then some (none, it)
  else
    (it.value.take C (index C it.value.head).toNat).bind fun p =>
      (newStamp C it.value.head).map fun new => (some p.1, ⟨{ p.2 with head := new, heads := p.2.heads + 1 }⟩)

def IntoIter.nexts : Nat → IntoIter w V → Option (List (Option V) × IntoIter w V)
  | 0, it => some ([], it)
  | n + 1, it => (it.next C).bind fun p => (IntoIter.nexts n p.2).map fun q => (p.1 :: q.1, q.2)

/-- The index of the next slot holding a message. -/
def dropIndex (headIdx i : BitVec w) : Option (BitVec w) :=
  (checkedAdd headIdx i).bind fun j => if j.toNat < C then some j else checkedSub j (BitVec.ofNat w C)

/-- The loop of `Drop`, with the slots whose values it drops. -/
def State.dropSlots (headIdx : BitVec w) : List Nat → State w V → Option (List (Nat × V) × State w V)
  | [], s => some ([], s)
  | i :: is, s =>
    (dropIndex C headIdx (BitVec.ofNat w i)).bind fun j =>
      (s.take C j.toNat).bind fun p => (State.dropSlots headIdx is p.2).map fun q => ((j.toNat, p.1) :: q.1, q.2)

/-- `Drop` of a queue whose values need to be dropped. -/
def State.drop (s : State w V) : Option (List (Nat × V) × State w V) :=
  (queueSize C s.head s.tail).bind fun len => s.dropSlots C (index C s.head) (List.range len.toNat)

/-- The operations among some calls, with what they returned. -/
def performed (calls : List (Call V)) (rs : List (Res V)) : List (Fifo.Op V × Fifo.Ret V) :=
  (calls.zip rs).filterMap fun
    | (.op op, .ret r) => some (op, r)
    | _ => none

/-- The values with the slots they are in, if the first of them is `k` places after position `p`. -/
def placed (p k : Nat) (l : List V) : List (Nat × V) := (l.zipIdx k).map fun x => ((p + x.2) % C, x.1)

structure Stored (s : State w V) (l : List V) (p : Nat) : Prop where
  head : s.head = Stamp.enc w (lapBits C) C p
  tail : s.tail = Stamp.enc w (lapBits C) C (p + l.length)
  room : l.length ≤ C
  values : ∀ i < C, (s.buffer ((p + i) % C)).value = l[i]?

end

section
variable {w C : Nat} {V : Type} {s s' : State w V} {g : Ghost V} {l : List V} {p : Nat}

theorem eq_of_place {n i : Nat} (hp : p ≤ n) (hn : n < p + C) (hi : i < C) (h : n % C = (p + i) % C) : n = p + i := by
  obtain ⟨j, rfl⟩ := Nat.exists_eq_add_of_le hp
  have hm : j % C = i % C := Nat.ModEq.add_left_cancel' p h
  rw [Nat.mod_eq_of_lt (by omega : j < C), Nat.mod_eq_of_lt hi] at hm
  rw [hm]

theorem Quiet.stored (hl : Layout w C) (hq : Quiet C s g l) : Stored C s l s.heads := by
  have hlen := hq.length hl
  have hroom := hq.inv.room
  have hle := hq.inv.le
  refine ⟨hq.inv.head, by rw [← hlen]; exact hq.inv.tail, by omega, ?_⟩
  intro i hi
  have hlt := Nat.mod_lt (s.heads + i) hl.pos
  have howner := hq.owner hlt
  have hok := hq.inv.cells _ hlt
  rw [hq.inv.slots _ hlt]
  show (g.cell ((s.heads + i) % C)).value C g.vals = l[i]?
  generalize g.cell ((s.heads + i) % C) = c at howner hok
  have hplace := hok.place'
  have hlow := hok.low
  have hhigh := hok.high
  have hturn := hok.turn
  cases c with
  | free n =>
    simp only [Cell.next, Cell.Turn] at hlow hturn
    have hn := eq_of_place (Nat.le_trans hle hlow) hturn hi hplace
    exact (List.getElem?_eq_none (by omega)).symm
  | full q =>
    simp only [Cell.next, Cell.Turn] at hhigh hturn
    have hn := eq_of_place hturn (by omega) hi hplace
    rw [← hq.list, held, List.getElem?_drop, ← hn]
    rfl
  | _ => cases howner

/-! ## `IntoIter` -/

theorem take_of {i : Nat} {v : V} (hi : i < C) (hv : (s.buffer i).value = some v) :
    s.take C i = some (v, s.clear i) := by
  unfold State.take
  rw [if_pos hi, hv]
  rfl

theorem Stored.next_nil (h : Stored C s [] p) : IntoIter.next C ⟨s⟩ = some (none, ⟨s⟩) := by
  have he : s.head = s.tail := by rw [h.head, h.tail]; rfl
  unfold IntoIter.next
  rw [if_pos he]

theorem Stored.next_cons (hl : Layout w C) {v : V} (h : Stored C s (v :: l) p) :
    ∃ s', IntoIter.next C ⟨s⟩ = some (some v, ⟨s'⟩) ∧ Stored C s' l (p + 1) := by
  have hpos := hl.pos
  have hlaps := hl.laps
  have hroom : l.length + 1 ≤ C := h.room
  have hne : s.head ≠ s.tail := by
    rw [h.head, h.tail]
    intro e
    have := Stamp.enc_near hl.stamp (Nat.le_add_right p _) (by unfold laps at hlaps; simp only [List.length_cons]; omega) e.symm
    simp only [List.length_cons] at this
    omega
  have hval : (s.buffer (p % C)).value = some v := h.values 0 hpos
  have hnext : IntoIter.next C ⟨s⟩ = some (some v, ⟨{ s.clear (p % C) with
      head := Stamp.enc w (lapBits C) C (p + 1), heads := s.heads + 1 }⟩) := by
    unfold IntoIter.next
    simp only [if_neg hne]
    rw [h.head, enc_index hl, take_of (Nat.mod_lt p hpos) hval, enc_succ hl]
    rfl
  refine ⟨_, hnext, rfl, ?_, by omega, ?_⟩
  · show s.tail = _
    rw [h.tail, List.length_cons, Nat.add_assoc, Nat.add_comm 1]
  · intro i hi
    show (Function.update s.buffer (p % C) _ _).value = l[i]?
    by_cases hlast : i + 1 < C
    · have hplace : (p + 1 + i) % C ≠ p % C := by
        intro e
        have := eq_of_place (n := p + 1 + i) (by omega) (by omega) hpos e
        omega
      rw [Function.update_of_ne hplace, Nat.add_assoc, Nat.add_comm 1 i]
      exact h.values (i + 1) hlast
    · -- the slot that has just been read
      have hplace : (p + 1 + i) % C = p % C := by
        have e : p + 1 + i = p + C := by omega
        rw [e, Nat.add_mod_right]
      rw [hplace, Function.update_self, List.getElem?_eq_none (by omega)]

theorem Stored.nexts (hl : Layout w C) (h : Stored C s l p) (n : Nat) :
    ∃ s' q, IntoIter.nexts C n ⟨s⟩ = some ((List.range n).map (l[·]?), ⟨s'⟩) ∧ Stored C s' (l.drop n) q := by
  induction n generalizing s l p with
  | zero => exact ⟨s, p, rfl, h⟩
  | succ n ih =>
    rw [List.range_succ_eq_map, List.map_cons, List.map_map]
    unfold IntoIter.nexts
    cases l with
    | nil =>
      obtain ⟨s', q, hn, hs⟩ := ih h
      rw [List.drop_nil] at hs
      rw [h.next_nil, List.drop_nil]
      refine ⟨s', q, ?_, hs⟩
      simp only [Option.bind_some, hn]
      rfl
    | cons v l =>
      obtain ⟨s₁, h₁, hs₁⟩ := h.next_cons hl
      obtain ⟨s', q, hn, hs⟩ := ih hs₁
      rw [h₁]
      refine ⟨s', q, ?_, hs⟩
      simp only [Option.bind_some, hn]
      rfl

/-! ## `Drop` -/

theorem dropIndex_enc (hl : Layout w C) {i : Nat} (hi : i < C) :
    ∃ j, dropIndex C (index C (Stamp.enc w (lapBits C) C p)) (BitVec.ofNat w i) = some j ∧ j.toNat = (p + i) % C := by
  have hpos := hl.pos
  have hlt := Nat.mod_lt p hpos
  have hfits : C + C ≤ 2 ^ w := by
    have h := Nat.pow_le_pow_right (n := 2) (by omega) (show lapBits C + 1 ≤ w from hl.fits)
    have hC := hl.stamp.index
    rw [Nat.pow_succ] at h
    omega
  have hCn : (BitVec.ofNat w C).toNat = C := by rw [BitVec.toNat_ofNat, Nat.mod_eq_of_lt (by omega)]
  have hin : (BitVec.ofNat w i).toNat = i := by rw [BitVec.toNat_ofNat, Nat.mod_eq_of_lt (by omega)]
  obtain ⟨j, hj, e⟩ := checkedAdd_of (x := index C (Stamp.enc w (lapBits C) C p)) (y := BitVec.ofNat w i)
    (by rw [enc_index hl, hin]; omega)
  rw [enc_index hl, hin] at e
  have hmod : (p + i) % C = (p % C + i) % C := (Nat.mod_add_mod p C i).symm
  unfold dropIndex
  rw [hj, Option.bind_some]
  split
  · rename_i hlt'
    refine ⟨j, rfl, ?_⟩
    rw [hmod, ← e, Nat.mod_eq_of_lt hlt']
  · rename_i hge
    obtain ⟨k, hk, e'⟩ := checkedSub_of (x := j) (y := BitVec.ofNat w C) (by rw [hCn]; omega)
    refine ⟨k, hk, ?_⟩
    rw [e', hCn, hmod, ← e, Nat.mod_eq_sub_mod (Nat.not_lt.mp hge), Nat.mod_eq_of_lt (by omega)]

theorem exists_place {i : Nat} (p : Nat) (hi : i < C) : ∃ j < C, (p + j) % C = i := by
  have hlt := Nat.mod_lt p (Nat.zero_lt_of_lt hi)
  refine ⟨(i + (C - p % C)) % C, Nat.mod_lt _ (Nat.zero_lt_of_lt hi), ?_⟩
  calc (p + (i + (C - p % C)) % C) % C = (p % C + (i + (C - p % C))) % C := by rw [Nat.add_mod_mod, Nat.mod_add_mod]
    _ = (i + C) % C := by
      congr 1
      omega
    _ = i := by rw [Nat.add_mod_right, Nat.mod_eq_of_lt hi]

theorem dropSlots_of (hl : Layout w C) {k : Nat} (hroom : k + l.length ≤ C)
    (hv : ∀ i < C, (s.buffer ((p + i) % C)).value = if i < k then none else l[i - k]?) :
    ∃ s', s.dropSlots C (index C (Stamp.enc w (lapBits C) C p)) (List.range' k l.length) =
        some (placed C p k l, s') ∧
      ∀ i < C, (s'.buffer i).value = none := by
  have hpos := hl.pos
  induction l generalizing s k with
  | nil =>
    refine ⟨s, rfl, ?_⟩
    intro i hi
    obtain ⟨j, hj, rfl⟩ := exists_place p hi
    rw [hv j hj]
    split
    · rfl
    · rfl
  | cons v l ih =>
    rw [List.length_cons] at hroom
    have hk : k < C := by omega
    obtain ⟨j, hj, e⟩ := dropIndex_enc (p := p) hl hk
    have hval : (s.buffer ((p + k) % C)).value = some v := by
      rw [hv k hk, if_neg (Nat.lt_irrefl k), Nat.sub_self]
      rfl
    have htake := take_of (Nat.mod_lt (p + k) hpos) hval
    have hv₁ : ∀ i < C, ((s.clear ((p + k) % C)).buffer ((p + i) % C)).value = if i < k + 1 then none else l[i - (k + 1)]? := by
      intro i hi
      show (Function.update s.buffer ((p + k) % C) _ _).value = _
      by_cases hik : i = k
      · subst hik
        rw [Function.update_self, if_pos (Nat.lt_succ_self i)]
      · have hplace : (p + i) % C ≠ (p + k) % C := by
          intro h
          have hm : i % C = k % C := Nat.ModEq.add_left_cancel' p h
          rw [Nat.mod_eq_of_lt hi, Nat.mod_eq_of_lt hk] at hm
          exact hik hm
        rw [Function.update_of_ne hplace, hv i hi]
        by_cases hlt : i < k
        · rw [if_pos hlt, if_pos (by omega)]
        · have hsub : i - k = i - (k + 1) + 1 := by omega
          rw [if_neg hlt, if_neg (by omega), hsub, List.getElem?_cons_succ]
    obtain ⟨s', hs', hnone⟩ := ih (by omega) hv₁
    refine ⟨s', ?_, hnone⟩
    rw [List.length_cons, List.range'_succ]
    unfold State.dropSlots
    rw [hj]
    simp only [Option.bind_some, e, htake, hs']
    rfl

theorem Stored.drop (hl : Layout w C) (h : Stored C s l p) :
    ∃ s', s.drop C = some (placed C p 0 l, s') ∧ ∀ i < C, (s'.buffer i).value = none := by
  obtain ⟨len, hlen, e⟩ := queueSize_enc hl p (p + l.length)
  have hroom := h.room
  have e := e (Nat.le_add_right _ _) (by omega)
  have hv : ∀ i < C, (s.buffer ((p + i) % C)).value = if i < 0 then none else l[i - 0]? := by
    intro i hi
    rw [if_neg (Nat.not_lt_zero i)]
    exact h.values i hi
  obtain ⟨s', hs', hnone⟩ := dropSlots_of hl (by omega) hv
  refine ⟨s', ?_, hnone⟩
  unfold State.drop
  rw [h.head, h.tail, hlen, Option.bind_some, e, Nat.add_sub_cancel_left, List.range_eq_range']
  exact hs'

theorem placed_fst : (placed C p 0 l).map Prod.fst = (List.range l.length).map fun k => (p + k) % C := by
  unfold placed
  rw [List.map_map, List.range_eq_range', ← List.zipIdx_map_snd 0 l, List.map_map]
  rfl

theorem placed_snd : (placed C p 0 l).map Prod.snd = l := by
  unfold placed
  rw [List.map_map]
  exact List.zipIdx_map_fst 0 l

theorem Stored.visited (h : Stored C s l p) :
    ((placed C p 0 l).map Prod.fst).Nodup ∧
    ∀ i < C, (i ∈ (placed C p 0 l).map Prod.fst ↔ (s.buffer i).value ≠ none) := by
  have hroom := h.room
  have hinj : ∀ i < C, ∀ j < C, (p + i) % C = (p + j) % C → i = j := by
    intro i hi j hj e
    have hm : i % C = j % C := Nat.ModEq.add_left_cancel' p e
    rwa [Nat.mod_eq_of_lt hi, Nat.mod_eq_of_lt hj] at hm
  rw [placed_fst]
  constructor
  · refine List.nodup_range.map_on ?_
    intro i hi j hj e
    rw [List.mem_range] at hi hj
    exact hinj i (by omega) j (by omega) e
  · intro i hi
    obtain ⟨j, hj, rfl⟩ := exists_place p hi
    rw [h.values j hj, List.mem_map]
    constructor
    · rintro ⟨k, hk, e⟩
      rw [List.mem_range] at hk
      obtain rfl := hinj k (by omega) j hj e
      rw [List.getElem?_eq_getElem hk]
      exact Option.some_ne_none _
    · intro hne
      refine ⟨j, ?_, rfl⟩
      rw [List.mem_range]
      by_contra hge
      exact hne (List.getElem?_eq_none (Nat.not_lt.mp hge))

/-! ## The whole life of a queue -/

theorem applyCalls_pops (n : Nat) :
    (applyCalls C l (List.replicate n (.op .pop))).1 = (List.range n).map fun i => .ret (.option l[i]?) := by
  induction n generalizing l with
  | zero => rfl
  | succ n ih =>
    rw [List.range_succ_eq_map, List.map_cons, List.map_map]
    show _ :: (applyCalls C l.tail _).1 = _
    rw [ih]
    cases l with
    | nil => rfl
    | cons v l => rfl

theorem applyCalls_legal (calls : List (Call V)) :
    (Fifo.object C).Legal l (performed calls (applyCalls C l calls).1) ∧
    (Fifo.object C).final l (performed calls (applyCalls C l calls).1) = (applyCalls C l calls).2 := by
  induction calls generalizing l with
  | nil => exact ⟨trivial, rfl⟩
  | cons c cs ih =>
    cases c with
    | op op =>
      obtain ⟨h₁, h₂⟩ := ih (l := (Fifo.apply C l op).2)
      exact ⟨⟨rfl, h₁⟩, h₂⟩
    | _ => exact ih

/-- A queue that is used, turned into an iterator, asked `n` times for its next value and
dropped: `next` gives the values in order, as `pop` would, and the others are dropped. -/
theorem consumed_once (hl : Layout w C) (calls : List (Served V)) :
    ∃ rs l N s, applyCalls C [] (calls.map (·.call)) = (rs, l) ∧
      (∀ m, N ≤ m → (State.new w V).serve C m calls = some (rs, s)) ∧
      ∀ n, ∃ s' dropped s'',
        s.intoIter.nexts C n = some ((List.range n).map (l[·]?), ⟨s'⟩) ∧
        (∀ t, ∃ M s₁, ∀ m, M ≤ m → s.serve C m (List.replicate n ⟨t, .op .pop, 0⟩) =
          some ((List.range n).map fun i => .ret (.option l[i]?), s₁)) ∧
        s'.drop C = some (dropped, s'') ∧ dropped.map Prod.snd = l.drop n ∧ (dropped.map Prod.fst).Nodup ∧
        (∀ i < C, (i ∈ dropped.map Prod.fst ↔ (s'.buffer i).value ≠ none) ∧ (s''.buffer i).value = none) ∧
        (performed (calls.map (·.call)) rs).filterMap Fifo.accepted =
          (performed (calls.map (·.call)) rs).filterMap Fifo.handedOut ++ l.take n ++ dropped.map Prod.snd := by
  obtain ⟨N, s, g, hN, hq⟩ := Quiet.new.serve hl calls
  refine ⟨_, _, N, s, rfl, hN, ?_⟩
  intro n
  obtain ⟨s', q, hnexts, hs'⟩ := (hq.stored hl).nexts hl n
  obtain ⟨s'', hdrop, hnone⟩ := hs'.drop hl
  refine ⟨s', _, s'', hnexts, ?_, hdrop, placed_snd, hs'.visited.1, fun i hi => ⟨hs'.visited.2 i hi, hnone i hi⟩, ?_⟩
  · intro t
    obtain ⟨M, s₁, _, hM, _⟩ := hq.serve hl (List.replicate n ⟨t, .op .pop, 0⟩)
    refine ⟨M, s₁, ?_⟩
    rw [List.map_replicate, applyCalls_pops] at hM
    exact hM
  · obtain ⟨hlegal, hfinal⟩ := applyCalls_legal (C := C) (l := []) (calls.map (·.call))
    have h := Fifo.legal_conserves hl.pos hlegal
    rw [hfinal, List.nil_append] at h
    rw [h, placed_snd, List.append_assoc, List.take_append_drop]

end

theorem consumed_once_two_laps : ∃ N s s' dropped s'',
    (∀ m, N ≤ m → ∃ rs, (State.new 3 Nat).serve 2 m twoLaps = some (rs, s)) ∧
    s.intoIter.nexts 2 1 = some ([some 50], ⟨s'⟩) ∧ s'.drop 2 = some (dropped, s'') ∧
    dropped.map Prod.snd = [60] := by
  obtain ⟨rs, l, N, s, he, hN, h⟩ := consumed_once (w := 3) (C := 2) ⟨by decide, by decide⟩ twoLaps
  have hl : l = [50, 60] := by
    have e := congrArg Prod.snd he
    exact e.symm.trans (by decide)
  obtain ⟨s', dropped, s'', hnexts, _, hdrop, hsnd, _⟩ := h 1
  rw [hl] at hnexts hsnd
  exact ⟨N, s, s', dropped, s'', fun m hm => ⟨rs, hN m hm⟩, hnexts, hdrop, hsnd⟩

end RefCount.ArrayQueue
