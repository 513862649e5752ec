import Mathlib.Data.Prod.Lex
import Rift.Clock.Timeline
import Rift.Lib.Heap

/-!
# The event queue

`sim/event.go`: what is to happen in a simulated run waits in a binary heap, ordered by time and, at one
time, by the order of insertion.
-/

namespace Rift.Sim

open List

/-- What an event does. -/
inductive Kind
  | tick
  | deliver
  | durable
  | crash
  | restart
  | client
  | action
  deriving DecidableEq, Repr

/-- The payload is never looked at. -/
structure Event (π : Type*) where
  time : Instant
  kind : Kind
  node : ℕ
  /-- The insertion counter. -/
  seq : ℕ
  payload : π
  deriving DecidableEq, Repr

variable {π : Type*}

def Event.before (e f : Event π) : Bool :=
  if e.time ≠ f.time then e.time < f.time else e.seq < f.seq

structure Queue (π : Type*) where
  events : Array (Event π) := #[]
  deriving DecidableEq, Repr

namespace Queue

def push (q : Queue π) (e : Event π) : Queue π := ⟨Heap.push Event.before q.events e⟩

def pop (q : Queue π) : Option (Event π × Queue π) :=
  (Heap.pop Event.before q.events).map fun p => (p.1, ⟨p.2⟩)

inductive Op (π : Type*)
  | push (e : Event π)
  | pop

/-- One operation, on a queue and the events that it has returned. -/
def step (s : Queue π × List (Event π)) : Op π → Queue π × List (Event π)
  | .push e => (s.1.push e, s.2)
  | .pop =>
    match s.1.pop with
    | some (e, q) => (q, s.2 ++ [e])
    | none => s

def run (ops : List (Op π)) : Queue π × List (Event π) := ops.foldl step ({}, [])

/-- The events that were pushed. -/
def pushed (ops : List (Op π)) : List (Event π) :=
  ops.filterMap fun
    | .push e => some e
    | .pop => none

/-! ### The order of events -/

/-- The time, and then the order of insertion. -/
def key (e : Event π) : ℤ ×ₗ ℕ := toLex (e.time, e.seq)

theorem before_iff (e f : Event π) : e.before f ↔ key e < key f := by
  unfold Event.before key
  rw [Prod.Lex.toLex_lt_toLex]
  split_ifs with h
  · simp [h]
  · simp [not_not.mp h]

theorem pop_cases {q : Queue π} (h : Heap.Ordered key q.events) :
    (q.events = #[] ∧ q.pop = none) ∨
      ∃ e q', q.pop = some (e, q') ∧ Heap.Ordered key q'.events ∧
        (e :: q'.events.toList).Perm q.events.toList ∧ ∀ f ∈ q'.events.toList, key e ≤ key f := by
  unfold pop
  rcases Nat.eq_zero_or_pos q.events.size with h₀ | h₀
  · have hnone : Heap.pop Event.before q.events = none := dif_neg (by omega)
    exact .inl ⟨Array.eq_empty_of_size_eq_zero h₀, by rw [hnone]; rfl⟩
  · obtain ⟨e, rest, hpop, hrest⟩ := Heap.pop_spec before_iff h h₀
    exact .inr ⟨e, ⟨rest⟩, by rw [hpop]; rfl, hrest⟩

/-- A queue is a heap of the events that were pushed and not returned. -/
theorem run_spec (ops : List (Op π)) : Heap.Ordered key (run ops).1.events ∧
    ((run ops).2 ++ (run ops).1.events.toList).Perm (pushed ops) := by
  induction ops using reverseRecOn with
  | nil => exact ⟨fun j hj => absurd hj (Nat.not_lt_zero j), .refl _⟩
  | append_singleton ops op ih =>
    obtain ⟨hord, hperm⟩ := ih
    have hrun : run (ops ++ [op]) = step (run ops) op := foldl_append
    rw [hrun, pushed, filterMap_append]
    cases op with
    | push e =>
      refine ⟨Heap.ordered_push before_iff hord e, ?_⟩
      calc
        List.Perm _ ((run ops).2 ++ e :: (run ops).1.events.toList) := (Heap.perm_push e).append_left _
        List.Perm _ (e :: ((run ops).2 ++ (run ops).1.events.toList)) := perm_middle
        List.Perm _ (e :: pushed ops) := hperm.cons e
        List.Perm _ (pushed ops ++ [e]) := (perm_append_singleton e _).symm
    | pop =>
      rw [filterMap_cons_none rfl, filterMap_nil, append_nil]
      rcases pop_cases hord with ⟨-, hpop⟩ | ⟨e, q, hpop, hq, hrest, -⟩
      · rw [step, hpop]
        exact ⟨hord, hperm⟩
      · rw [step, hpop]
        refine ⟨hq, .trans ?_ hperm⟩
        rw [append_assoc]
        exact hrest.append_left _

/-- The event queue is a priority queue: it holds the events that were pushed and not returned, and a
pop returns the first of them and leaves the others. -/
theorem pop_first {ops : List (Op π)} (hseq : ((pushed ops).map Event.seq).Nodup) :
    ((run ops).2 ++ (run ops).1.events.toList).Perm (pushed ops) ∧
    (((run ops).1.events = #[] ∧ (run ops).1.pop = none) ∨
      ∃ e q, (run ops).1.pop = some (e, q) ∧
        (e :: q.events.toList).Perm (run ops).1.events.toList ∧
        ∀ f ∈ q.events.toList, e.before f) := by
  obtain ⟨hord, hperm⟩ := run_spec ops
  refine ⟨hperm, (pop_cases hord).imp_right ?_⟩
  rintro ⟨e, q, hpop, -, hrest, hle⟩
  refine ⟨e, q, hpop, hrest, fun f hf => (before_iff e f).mpr (lt_of_le_of_ne (hle f hf) ?_)⟩
  have hnodup : ((run ops).2 ++ e :: q.events.toList |>.map Event.seq).Nodup :=
    (((hrest.append_left _).trans hperm).map _).nodup_iff.mpr hseq
  rw [map_append, map_cons] at hnodup
  have hfresh := (nodup_cons.mp (nodup_append.mp hnodup).2.1).1
  exact fun heq => hfresh (mem_map.mpr ⟨f, hf, (congrArg (·.2) heq).symm⟩)

/-- Two events at one time, after an event at a later one. -/
def sampleOps : List (Op Unit) :=
  [.push ⟨5, .tick, 0, 0, ()⟩, .push ⟨3, .crash, 0, 1, ()⟩, .push ⟨3, .restart, 0, 2, ()⟩]

theorem pop_first_sample : ∃ q, (run sampleOps).1.pop = some (⟨3, .crash, 0, 1, ()⟩, q) ∧
    ∀ f ∈ q.events.toList, Event.before ⟨3, .crash, 0, 1, ()⟩ f := by
  have hpop : (run sampleOps).1.pop.map Prod.fst = some ⟨3, .crash, 0, 1, ()⟩ := by decide +kernel
  obtain ⟨-, ⟨-, hnone⟩ | ⟨e, q, hq, -, hfirst⟩⟩ := @pop_first Unit sampleOps (by decide)
  · rw [hnone] at hpop
    cases hpop
  · rw [hq] at hpop
    cases hpop
    exact ⟨q, hq, hfirst⟩

end Queue

end Rift.Sim
