import Rift.Engine.Memtable

/-!
# Write batches

A batch is a sequence of sets, deletions and range deletions that share one sequence. The collapse of
`engine-cpp/src/db.cc` resolves the order inside the batch: a range deletion removes what the batch
wrote earlier inside the range, and ranges with one start are merged.
-/

namespace Rift.Engine

open List

/-- One end of a range; `none` is unbounded. -/
abbrev Bound := Option Slice

def inRange (key : Slice) (start fin : Bound) : Bool :=
  if start.any (key < ·) then false else if fin.any (· ≤ key) then false else true

inductive OpKind | set | delete | deleteRange
  deriving DecidableEq, Repr

namespace WriteBatch

/-- One submitted operation. A range deletion keeps its start in `key`, and an empty `value` when the
start is unbounded. -/
structure Entry where
  kind : OpKind
  key : Slice
  value : Slice := []
  fin : Bound := none
  deriving DecidableEq, Repr

/-- The calls that build a batch. -/
inductive Call
  | set (key value : Slice)
  | delete (key : Slice)
  | deleteRange (start fin : Bound)
  deriving DecidableEq, Repr

/-- The operation a call submits. -/
def Call.entry : Call → Entry
  | .set key value => { kind := .set, key := key, value := value }
  | .delete key => { kind := .delete, key := key }
  | .deleteRange start fin =>
    { kind := .deleteRange, key := start.getD [], fin := fin,
      value := if start.isSome then [49] else [] }

end WriteBatch

/-- A batch, by the calls that build it. -/
abbrev WriteBatch := List WriteBatch.Call

/-- One operation of the log. The value of a range deletion is its end. -/
structure Op where
  kind : OpKind
  key : Slice
  value : Slice := []
  deriving DecidableEq, Repr

/-! ### The collapse -/

/-- The pending point operations by key, as a `std::map` iterates them. -/
abbrev Pending := List (Slice × OpKind × Slice)

/-- Assignment to a key of a sorted map. -/
def Pending.assign (k : Slice) (v : OpKind × Slice) : Pending → Pending
  | [] => [(k, v)]
  | p :: rest =>
    if k < p.1 then (k, v) :: p :: rest
    else if k = p.1 then (k, v) :: rest
    else p :: assign k v rest

/-- The start of a submitted range deletion. -/
def WriteBatch.Entry.start (e : WriteBatch.Entry) : Bound :=
  if e.value.isEmpty then none else some e.key

/-- The range of a submitted range deletion. An unbounded start is the empty key. -/
def WriteBatch.Entry.range (e : WriteBatch.Entry) : MemRange where
  start := e.start.getD []
  fin := e.fin.getD []
  endUnbounded := e.fin.isNone

/-- The wider of two ranges with one start. -/
def MemRange.widen (x r : MemRange) : MemRange :=
  if r.endUnbounded then { x with endUnbounded := true, fin := [] }
  else if !x.endUnbounded && x.fin < r.fin then { x with fin := r.fin }
  else x

/-- Merge a range into the first one that shares its start, or append it. -/
def mergeRange (r : MemRange) : List MemRange → List MemRange
  | [] => [r]
  | x :: xs => if x.start ≠ r.start then x :: mergeRange r xs else x.widen r :: xs

/-- What a batch collapses to. -/
structure CollapsedBatch where
  ops : List Op
  ranges : List MemRange
  deriving DecidableEq, Repr

/-- The two containers of the collapse. -/
structure Collapse where
  pending : Pending := []
  ranges : List MemRange := []
  deriving DecidableEq, Repr

/-- Everything written earlier in the batch that falls inside the range ceases to exist. -/
def Collapse.clear (c : Collapse) (start fin : Bound) : Collapse :=
  { c with pending := c.pending.filter fun p => !inRange p.1 start fin }

/-- Record a range. An empty or inverted one covers nothing and is dropped. -/
def Collapse.merge (c : Collapse) (r : MemRange) : Collapse :=
  if !r.endUnbounded && r.fin ≤ r.start then c else { c with ranges := mergeRange r c.ranges }

/-- One operation of the batch. -/
def Collapse.step (c : Collapse) (e : WriteBatch.Entry) : Collapse :=
  match e.kind with
  | .set => { c with pending := c.pending.assign e.key (.set, e.value) }
  | .delete => { c with pending := c.pending.assign e.key (.delete, []) }
  | .deleteRange => (c.clear e.start e.fin).merge e.range

/-- The whole batch, operation by operation. -/
def Collapse.of (b : WriteBatch) : Collapse := (b.map (·.entry)).foldl Collapse.step {}

/-- The point operation of a pending entry. -/
def Pending.op (p : Slice × OpKind × Slice) : Op where
  kind := p.2.1
  key := p.1
  value := if p.2.1 = .set then p.2.2 else []

/-- The range deletions go into the log, too: an empty end means unbounded. -/
def MemRange.op (r : MemRange) : Op where
  kind := .deleteRange
  key := r.start
  value := if r.endUnbounded then [] else r.fin

/-- Resolve a batch against itself. -/
def collapseBatch (b : WriteBatch) : CollapsedBatch where
  ops := (Collapse.of b).pending.map Pending.op ++ (Collapse.of b).ranges.map MemRange.op
  ranges := (Collapse.of b).ranges

/-! ### What a collapse leaves -/

variable {v : OpKind × Slice} {m : Pending}

theorem Pending.mem_assign {k : Slice} {p : Slice × OpKind × Slice} (h : p ∈ assign k v m) :
    p = (k, v) ∨ p ∈ m := by
  induction m with
  | nil => exact .inl (mem_singleton.mp h)
  | cons q m ih =>
    unfold assign at h
    split_ifs at h
    · exact mem_cons.mp h
    · exact (mem_cons.mp h).imp_right (mem_cons_of_mem _)
    · rcases mem_cons.mp h with rfl | h
      · exact .inr mem_cons_self
      · exact (ih h).imp_right (mem_cons_of_mem _)

theorem Pending.pairwise_assign (h : m.Pairwise (·.1 < ·.1)) (k : Slice) (v : OpKind × Slice) :
    (assign k v m).Pairwise (·.1 < ·.1) := by
  induction m with
  | nil => exact pairwise_singleton _ _
  | cons q m ih =>
    have h' := pairwise_cons.mp h
    unfold assign
    split_ifs with hlt heq
    · refine pairwise_cons.mpr ⟨fun p hp => ?_, h⟩
      rcases mem_cons.mp hp with rfl | hp
      · exact hlt
      · exact lt_trans hlt (h'.1 p hp)
    · exact pairwise_cons.mpr ⟨fun p hp => heq ▸ h'.1 p hp, h'.2⟩
    · refine pairwise_cons.mpr ⟨fun p hp => ?_, ih h'.2⟩
      rcases mem_assign hp with rfl | hp
      · exact lt_of_le_of_ne (not_lt.mp hlt) (Ne.symm heq)
      · exact h'.1 p hp

/-- A range ends above its start, or has no end at all. -/
def MemRange.Proper (r : MemRange) : Prop :=
  if r.endUnbounded then r.fin = [] else r.start < r.fin

instance (r : MemRange) : Decidable r.Proper :=
  inferInstanceAs (Decidable (if r.endUnbounded then r.fin = [] else r.start < r.fin))

theorem MemRange.widen_start (x r : MemRange) : (x.widen r).start = x.start := by
  unfold widen
  split_ifs <;> rfl

theorem MemRange.Proper.widen {x r : MemRange} (hx : x.Proper) (hs : x.start = r.start)
    (hr : r.Proper) : (x.widen r).Proper := by
  unfold MemRange.widen
  split_ifs with h₁ h₂
  · simp [Proper]
  · simp only [Bool.and_eq_true, Bool.not_eq_true', decide_eq_true_eq] at h₂
    simp only [Proper, h₁, Bool.false_eq_true, if_false] at hr
    simp only [Proper, h₂.1, Bool.false_eq_true, if_false, hs]
    exact hr
  · exact hx

theorem mem_mergeRange {r x : MemRange} {rs : List MemRange} (h : x ∈ mergeRange r rs) :
    x ∈ rs ∨ x = r ∨ ∃ y ∈ rs, y.start = r.start ∧ x = y.widen r := by
  induction rs with
  | nil => exact .inr (.inl (mem_singleton.mp h))
  | cons y rs ih =>
    unfold mergeRange at h
    split_ifs at h with hs
    · rcases mem_cons.mp h with rfl | h
      · exact .inl mem_cons_self
      · rcases ih h with h | h | ⟨z, hz, h⟩
        · exact .inl (mem_cons_of_mem _ h)
        · exact .inr (.inl h)
        · exact .inr (.inr ⟨z, mem_cons_of_mem _ hz, h⟩)
    · rcases mem_cons.mp h with rfl | h
      · exact .inr (.inr ⟨y, mem_cons_self, not_not.mp hs, rfl⟩)
      · exact .inl (mem_cons_of_mem _ h)

theorem mergeRange_starts (r : MemRange) (rs : List MemRange) :
    (mergeRange r rs).map (·.start) =
      if r.start ∈ rs.map (·.start) then rs.map (·.start) else rs.map (·.start) ++ [r.start] := by
  induction rs with
  | nil => simp [mergeRange]
  | cons y rs ih =>
    unfold mergeRange
    by_cases hs : y.start = r.start
    · simp [hs, MemRange.widen_start]
    · rw [if_pos hs, map_cons, ih]
      simp only [map_cons, mem_cons, Ne.symm hs, false_or]
      split_ifs <;> rfl

/-- What holds of the two containers after every operation. -/
structure Collapse.Inv (c : Collapse) : Prop where
  keys : c.pending.Pairwise (·.1 < ·.1)
  kinds : ∀ p ∈ c.pending, p.2.1 ≠ .deleteRange
  starts : (c.ranges.map (·.start)).Nodup
  proper : ∀ r ∈ c.ranges, r.Proper

variable {c : Collapse}

theorem Collapse.Inv.assign (hi : c.Inv) (k : Slice) (hv : v.1 ≠ .deleteRange) :
    Inv { c with pending := c.pending.assign k v } :=
  { hi with
    keys := Pending.pairwise_assign hi.keys k v
    kinds := fun p hp => (Pending.mem_assign hp).elim (fun h => h ▸ hv) (hi.kinds p) }

theorem Collapse.Inv.clear (hi : c.Inv) (start fin : Bound) : (c.clear start fin).Inv :=
  { hi with
    keys := hi.keys.sublist filter_sublist
    kinds := fun p hp => hi.kinds p (mem_of_mem_filter hp) }

theorem Collapse.Inv.merge (hi : c.Inv) {r : MemRange} (hr : r.endUnbounded → r.fin = []) :
    (c.merge r).Inv := by
  unfold Collapse.merge
  split_ifs with h
  · exact hi
  have hproper : r.Proper := by
    unfold MemRange.Proper
    split_ifs with hu
    · exact hr hu
    · simpa [hu] using h
  exact
    { hi with
      starts := by
        rw [mergeRange_starts]
        split_ifs with h
        · exact hi.starts
        · exact nodup_append.mpr ⟨hi.starts, nodup_singleton _, fun a ha b hb =>
            fun hab => h (mem_singleton.mp hb ▸ hab ▸ ha)⟩
      proper := by
        intro x hx
        rcases mem_mergeRange hx with h | rfl | ⟨y, hy, hs, rfl⟩
        · exact hi.proper x h
        · exact hproper
        · exact (hi.proper y hy).widen hs hproper }

theorem Collapse.Inv.step (hi : c.Inv) (e : WriteBatch.Entry) : (c.step e).Inv := by
  unfold Collapse.step
  split
  · exact hi.assign _ (by simp)
  · exact hi.assign _ (by simp)
  · refine (hi.clear _ _).merge fun h => ?_
    simp only [WriteBatch.Entry.range, Option.isNone_iff_eq_none] at h ⊢
    simp [h]

theorem Collapse.inv_of (b : WriteBatch) : (Collapse.of b).Inv := by
  unfold Collapse.of
  generalize b.map (·.entry) = es
  suffices h : ∀ c : Collapse, c.Inv → (es.foldl Collapse.step c).Inv from
    h {} { keys := .nil, kinds := by simp, starts := by simp, proper := by simp }
  induction es with
  | nil => exact fun _ h => h
  | cons e es ih => exact fun c h => ih _ (h.step e)

end Rift.Engine
