import Rift.Lib.Bytes
import Rift.Lib.OrderedMap

/-!
# The reference engine

`engine/model`: an ordered key space, batches of writes applied to it atomically, and the durability
watermark. Every version between the durable one and the visible one is kept, so that a crash goes
back to exactly the durable sequence.
-/

namespace Rift.Model

open List

/-- One entry of a batch. A nil start of a range is the empty key, which is the least; a nil end is
unbounded. -/
inductive Op
  | set (key value : Bytes)
  | delete (key : Bytes)
  | deleteRange (start : Bytes) (fin : Option Bytes)
  deriving DecidableEq, Repr

/-- Writes applied in order and atomically. -/
abbrev Batch := List Op

/-- One immutable state of the key space. -/
abbrev Version := OrderedMap Bytes Bytes

/-- A key falls in `[start, end)`. -/
def inRange (start : Bytes) (fin : Option Bytes) (key : Bytes) : Bool :=
  start ≤ key && fin.all (key < ·)

/-- What an iterator over `[lower, upper)` visits, in order. -/
def scan (v : Version) (lower : Bytes) (upper : Option Bytes) : List (Bytes × Bytes) :=
  v.entries.filter fun e => inRange lower upper e.1

def Op.apply (v : Version) : Op → Version
  | .set k x => v.set k x
  | .delete k => v.erase k
  | .deleteRange lo hi => v.eraseIf (inRange lo hi)

/-- A version with a batch applied to it. -/
def applyTo (v : Version) (b : Batch) : Version := b.foldl Op.apply v

@[simp] theorem applyTo_nil (v : Version) : applyTo v [] = v := rfl

@[simp] theorem applyTo_cons (v : Version) (op : Op) (b : Batch) :
    applyTo v (op :: b) = applyTo (op.apply v) b := rfl

theorem applyTo_append (v : Version) (b c : Batch) :
    applyTo v (b ++ c) = applyTo (applyTo v b) c := foldl_append

@[simp] theorem apply_set (v : Version) (k x : Bytes) : (Op.set k x).apply v = v.set k x := rfl

@[simp] theorem apply_delete (v : Version) (k : Bytes) : (Op.delete k).apply v = v.erase k := rfl

@[simp] theorem apply_deleteRange (v : Version) (lo : Bytes) (hi : Option Bytes) :
    (Op.deleteRange lo hi).apply v = v.eraseIf (inRange lo hi) := rfl

theorem inRange_iff {lo k : Bytes} {hi : Option Bytes} :
    inRange lo hi k ↔ lo ≤ k ∧ ∀ h ∈ hi, k < h := by
  cases hi <;> simp [inRange]

/-- An operation changes what a key holds, or may. -/
def Op.Touches (k : Bytes) : Op → Prop
  | .set k' _ => k' = k
  | .delete k' => k' = k
  | .deleteRange lo hi => inRange lo hi k

theorem get_applyTo_of_untouched {b : Batch} {k : Bytes} (h : ∀ op ∈ b, ¬ op.Touches k)
    (v : Version) : (applyTo v b).get k = v.get k := by
  induction b generalizing v with
  | nil => rfl
  | cons op b ih =>
    rw [applyTo_cons, ih fun op hop => h op (by simp [hop])]
    have hop := h op (by simp)
    cases op <;> simp_all [Op.Touches]

theorem get_applyTo_cases {b : Batch} {k x : Bytes} {v : Version}
    (h : (applyTo v b).get k = some x) : v.get k = some x ∨ .set k x ∈ b := by
  induction b generalizing v with
  | nil => exact .inl h
  | cons op b ih =>
    rcases ih h with hget | hmem
    · cases op with
      | set k' x' =>
        rw [apply_set, OrderedMap.get_set] at hget
        split_ifs at hget with hk
        · cases hget
          exact .inr (by simp [hk])
        · exact .inl hget
      | delete k' =>
        rw [apply_delete, OrderedMap.get_erase] at hget
        split_ifs at hget
        exact .inl hget
      | deleteRange lo hi =>
        rw [apply_deleteRange, OrderedMap.get_eraseIf] at hget
        split_ifs at hget
        exact .inl hget
    · exact .inr (mem_cons_of_mem _ hmem)

/-! ### Durability -/

/-- A version and the sequence that produced it. -/
structure Stamped where
  version : Version := .empty
  seq : ℕ := 0
  deriving DecidableEq

/-- The engine: the state a crash recovers, and every version applied since, oldest first. -/
structure DB where
  durable : Stamped := {}
  pending : List Stamped := []
  seq : ℕ := 0
  deriving DecidableEq

namespace DB

variable (d : DB)

/-- The version reads see. -/
def visible : Stamped := d.pending.getLast?.getD d.durable

/-- Make a batch visible. An empty batch still takes a sequence and produces a version. -/
def apply (b : Batch) : DB :=
  { d with
    seq := d.seq + 1
    pending := d.pending ++ [{ version := applyTo d.visible.version b, seq := d.seq + 1 }] }

/-- The highest sequence that survives a crash. -/
def durableSeq : ℕ := d.durable.seq

/-- Move the watermark to the highest applied sequence at or below `seq`. The source panics when the
sequence is past the last applied one. -/
def advanceDurable (seq : ℕ) : Option DB :=
  if d.seq < seq then none
  else some
    { d with
      durable := (d.pending.takeWhile (·.seq ≤ seq)).getLast?.getD d.durable
      pending := d.pending.dropWhile (·.seq ≤ seq) }

/-- Discard everything that is not durable. -/
def crash : DB := { durable := d.durable, pending := [], seq := d.durable.seq }

theorem visible_apply (b : Batch) :
    (d.apply b).visible = { version := applyTo d.visible.version b, seq := d.seq + 1 } := by
  simp [apply, visible]

variable {d} {d' : DB} {seq : ℕ}

theorem lt_of_mem_dropWhile {vs : List Stamped} (hv : vs.Pairwise (·.seq < ·.seq)) {v : Stamped}
    (h : v ∈ vs.dropWhile (·.seq ≤ seq)) : seq < v.seq := by
  induction vs with
  | nil => simp at h
  | cons v₀ vs ih =>
    obtain ⟨hlt, hvs⟩ := pairwise_cons.mp hv
    rw [dropWhile_cons] at h
    split_ifs at h with hle
    · exact ih hvs h
    · have hseq : seq < v₀.seq := by simpa using hle
      rcases mem_cons.mp h with rfl | h
      · exact hseq
      · exact hseq.trans (hlt v h)

/-- Moving the watermark changes nothing that is visible, and drops versions only. -/
theorem advanceDurable_spec (h : d.advanceDurable seq = some d') :
    d'.visible = d.visible ∧ d'.seq = d.seq ∧
      (d'.durable :: d'.pending).Sublist (d.durable :: d.pending) := by
  unfold advanceDurable at h
  split_ifs at h
  cases h
  have hsplit := takeWhile_append_dropWhile (p := fun v : Stamped => v.seq ≤ seq) (l := d.pending)
  refine ⟨?_, rfl, ?_⟩
  · unfold visible
    conv_rhs => rw [← hsplit, getLast?_append]
    cases (d.pending.dropWhile fun v => v.seq ≤ seq).getLast? <;> rfl
  · conv_rhs => rw [← hsplit, ← cons_append]
    refine List.Sublist.append (singleton_sublist.mpr ?_) (List.Sublist.refl _)
    cases hl : (d.pending.takeWhile fun v => v.seq ≤ seq).getLast? with
    | none => exact mem_cons_self
    | some v => exact mem_cons_of_mem _ (mem_of_getLast? hl)

end DB

end Rift.Model
