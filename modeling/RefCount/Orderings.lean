import RefCount.Polls
import RefCount.RelAcq

/-!
# The count word under its orderings

The machine with the orderings that the source gives to the accesses of the count word: a
load may return a stale value, and what happens in one thread is known to another only
where a message of the word brought it there. The queue and the flags stay as they are.

What a thread is handed brings the view of who handed it over: an `ExclusiveRef` that of the
thread it was granted to, a future that of its last poll. A section is the time a `Ref` or an
`ExclusiveRef` lives; `known` are the sections whose end happens before.
-/

namespace RefCount

open RelAcq

/-- What the next step does to the count word, with its ordering; a `compare_exchange_weak`
is `SeqCst` in both ways. -/
inductive Access where
  | plain
  | load (o : Order)
  | cas (expected : UInt32)
  | store (o : Order)

def Pc.access : Pc → Access
  | .incrLoad _ => .load .relaxed
  | .incrCas _ _ locals => .cas locals.refCount
  | .blockLoad _ => .load .relaxed
  | .blockCas _ _ locals => .cas locals.refCount
  | .noStandardRefs _ => .load .acquire
  | .refIsBlocked _ _ => .load .acquire
  | .blockedIsBlocked _ _ => .load .acquire
  | .releaseStore _ => .store .release
  | _ => .plain

structure Section where
  exclusive : Bool
  known : List Nat

/-- `sys` has the last value of the word. `refs` and `exclusives` are the sections of the
references that exist, forgotten ones included, `begun` all sections that ever began. -/
structure Weak where
  sys : Sys
  cell : List (Msg UInt32 Nat)
  views : ThreadId → View Nat
  futViews : FutId → View Nat
  exclusiveView : View Nat
  refs : List Nat
  exclusives : List Nat
  begun : List Section

def Weak.new : Weak where
  sys := Sys.new
  cell := [⟨0, []⟩]
  views := fun _ => ⟨0, []⟩
  futViews := fun _ => ⟨0, []⟩
  exclusiveView := ⟨0, []⟩
  refs := []
  exclusives := []
  begun := []

/-- The section that begins on the way to `s`, if one does. -/
def Weak.begins (σ : Weak) (s : Sys) : Option Bool :=
  if σ.sys.refs < s.refs then some false
  else if σ.sys.exclusiveRefs < s.exclusiveRefs then some true
  else none

def Weak.begin (σ : Weak) (v : View Nat) : Option Bool → Weak
  | none => σ
  | some false =>
    { σ with refs := σ.begun.length :: σ.refs, begun := σ.begun ++ [⟨false, v.known⟩] }
  | some true =>
    { σ with
      exclusives := σ.begun.length :: σ.exclusives
      exclusiveView := v
      begun := σ.begun ++ [⟨true, v.known⟩] }

/-- The future that the thread polls has its view from now on, and so has a future that it makes. -/
def Weak.handOn (σ : Weak) (t : ThreadId) (s : Sys) (v : View Nat) : FutId → View Nat :=
  let polled := match (σ.sys.pc t).polls with
    | some f => Function.update σ.futViews f v
    | none => σ.futViews
  if σ.sys.nextFut < s.nextFut then Function.update polled σ.sys.nextFut v else polled

def Weak.move (σ : Weak) (t : ThreadId) (s : Sys) (v : View Nat) : Weak :=
  Weak.begin { σ with sys := s, views := Function.update σ.views t v, futViews := σ.handOn t s v } v (σ.begins s)

section
variable (cfg : Config) (σ : Weak) (t : ThreadId) (spurious : Bool) (i : Nat)

/-- The thread reads message `i`, and goes on with what it read. -/
def Weak.load (o : Order) : Option Weak :=
  (readable σ.cell (σ.views t) i).bind fun m =>
    (Sys.stepThread cfg { σ.sys with count := m.value } t spurious).map fun s =>
      σ.move t { s with count := σ.sys.count } ((σ.views t).learn o i m)

/-- A `compare_exchange_weak` that finds what it expects in the last message writes the next. -/
def Weak.cas (expected : UInt32) : Option Weak :=
  if (σ.cell[i]?).map (·.value) = some expected ∧ spurious = false then
    if i + 1 = σ.cell.length then
      (σ.sys.stepThread cfg t spurious).bind fun s =>
        (rmw .seqCst (σ.views t) σ.cell s.count).map fun (v, cell) => Weak.move { σ with cell := cell } t s v
    else none
  else σ.load cfg t spurious i .seqCst

def Weak.store (o : Order) : Option Weak :=
  (σ.sys.stepThread cfg t spurious).map fun s =>
    let (v, cell) := RelAcq.store o (σ.views t) σ.cell s.count
    Weak.move { σ with cell := cell } t s v

def Weak.stepThread : Option Weak :=
  match (σ.sys.pc t).access with
  | .plain => (σ.sys.stepThread cfg t spurious).map fun s => σ.move t s (σ.views t)
  | .load o => σ.load cfg t spurious i o
  | .cas expected => σ.cas cfg t spurious i expected
  | .store o => σ.store cfg t spurious o

/-- `i` is the message that is read, or the section of the reference that is dropped. -/
def Weak.exec : Act × Nat → Option Weak
  | (.step t spurious, i) => σ.stepThread cfg t spurious i
  | (.call t .dropExclusiveRef, i) =>
    if i ∈ σ.exclusives then
      (RefCount.exec cfg σ.sys (.call t .dropExclusiveRef)).map fun s =>
        let v := (σ.views t).join σ.exclusiveView
        { σ with
          sys := s
          views := Function.update σ.views t ⟨v.seen, i :: v.known⟩
          exclusives := σ.exclusives.erase i }
    else none
  | (.call t (.poll f waker), _) =>
    (RefCount.exec cfg σ.sys (.call t (.poll f waker))).map fun s =>
      { σ with sys := s, views := Function.update σ.views t ((σ.views t).join (σ.futViews f)) }
  | (.dropRef, i) =>
    if i ∈ σ.refs then
      (RefCount.exec cfg σ.sys .dropRef).bind fun s =>
        (rmw .release ⟨0, [i]⟩ σ.cell s.count).map fun (_, cell) =>
          { σ with sys := s, cell := cell, refs := σ.refs.erase i }
    else none
  | (a, _) => (RefCount.exec cfg σ.sys a).map fun s => { σ with sys := s }

end

end RefCount
