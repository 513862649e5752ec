import Rift.Model.Entries

/-!
# The durability contract

`engine/model/model.go` keeps the slice of every version between the durable one and the visible one.
What it is for is said by a history: the batches that survive, of which some first ones are durable. A
batch has its place in the history for its sequence, so a sequence is used again after a crash.
-/

namespace Rift.Model

open List

inductive Call
  | apply (b : Batch) (sync : Bool)
  | advanceDurable (seq : ℕ)
  | crash

/-! ### Slices -/

/-- A version, as the slice that holds its entries. -/
structure SliceVersion where
  entries : List (Bytes × Bytes) := []
  seq : ℕ := 0

structure SliceDB where
  durable : SliceVersion := {}
  pending : List SliceVersion := []
  seq : ℕ := 0

namespace SliceDB

variable (d : SliceDB)

def visible : SliceVersion := d.pending.getLast?.getD d.durable

/-- An empty batch shares the entries of the version before it. -/
def apply (b : Batch) : SliceDB :=
  let prev := d.visible.entries
  let entries := if b.isEmpty then prev else applyEntries prev b
  { d with seq := d.seq + 1, pending := d.pending ++ [{ entries := entries, seq := d.seq + 1 }] }

/-- The loop of `AdvanceDurable`. -/
def advance (seq : ℕ) : SliceVersion → List SliceVersion → SliceVersion × List SliceVersion
  | durable, [] => (durable, [])
  | durable, v :: vs => if v.seq ≤ seq then advance seq v vs else (durable, v :: vs)

def crash : SliceDB := { durable := d.durable, pending := [], seq := d.durable.seq }

/-- One call. A watermark past the last applied sequence panics. -/
def step : Call → Option SliceDB
  | .apply b _ => some (d.apply b)
  | .advanceDurable seq =>
    if d.seq < seq then none
    else
      let (durable, pending) := advance seq d.durable d.pending
      some { d with durable := durable, pending := pending }
  | .crash => some d.crash

end SliceDB

/-! ### Histories -/

/-- The batches that survive, and how many of them are durable. -/
structure History where
  batches : List Batch := []
  durable : ℕ := 0
  durable_le : durable ≤ batches.length := by simp

namespace History

variable (h : History)

def step : Call → Option History
  | .apply b _ => some
    { batches := h.batches ++ [b], durable := h.durable, durable_le := by grind [h.durable_le] }
  | .advanceDurable seq =>
    if hseq : h.batches.length < seq then none
    else some { h with durable := max h.durable seq, durable_le := by grind [h.durable_le] }
  | .crash => some
    { batches := h.batches.take h.durable, durable := h.durable, durable_le := by grind [h.durable_le] }

/-- The version of a sequence: the batches up to it, applied in order. -/
def versionAt (bs : List Batch) (n : ℕ) : SliceVersion :=
  { entries := ((bs.take n).foldl applyTo .empty).entries, seq := n }

/-- The engine of a history. -/
def engine : SliceDB where
  durable := versionAt h.batches h.durable
  pending := (range' (h.durable + 1) (h.batches.length - h.durable)).map (versionAt h.batches)
  seq := h.batches.length

theorem visible_engine : h.engine.visible = versionAt h.batches h.batches.length := by
  have hle := h.durable_le
  rw [SliceDB.visible, engine, getLast?_map, getLast?_range']
  split_ifs with hzero
  · simp [show h.durable = h.batches.length by omega]
  · simp [show h.durable + (h.batches.length - h.durable) = h.batches.length by omega]

theorem advance_range' (bs : List Batch) (seq k n : ℕ) (hseq : seq ≤ k + n) :
    SliceDB.advance seq (versionAt bs k) ((range' (k + 1) n).map (versionAt bs)) =
      (versionAt bs (max k seq),
        (range' (max k seq + 1) (k + n - max k seq)).map (versionAt bs)) := by
  induction n generalizing k with
  | zero => simp [SliceDB.advance, show max k seq = k by omega]
  | succ n ih =>
    rw [range'_succ, map_cons, SliceDB.advance]
    split_ifs with hle
    · change k + 1 ≤ seq at hle
      rw [ih (k + 1) (by omega), show max (k + 1) seq = max k seq by omega,
        show k + 1 + n = k + (n + 1) by omega]
    · change ¬ k + 1 ≤ seq at hle
      rw [show max k seq = k by omega, Nat.add_sub_cancel_left, range'_succ, map_cons]

theorem versionAt_congr {bs bs' : List Batch} {n m : ℕ} (h : bs.take m = bs'.take m) (hn : n ≤ m) :
    versionAt bs n = versionAt bs' n := by
  have htake := congrArg (take n) h
  rw [take_take, take_take, min_eq_left hn] at htake
  rw [versionAt, htake, versionAt]

theorem step_engine (c : Call) : h.engine.step c = (h.step c).map engine := by
  have hle := h.durable_le
  cases c with
  | apply b sync =>
    have hold : ∀ n ≤ h.batches.length, versionAt h.batches n = versionAt (h.batches ++ [b]) n :=
      fun n hn => versionAt_congr (by simp) hn
    have hnew : (if b.isEmpty then (versionAt h.batches h.batches.length).entries
        else applyEntries (versionAt h.batches h.batches.length).entries b) =
          (versionAt (h.batches ++ [b]) (h.batches.length + 1)).entries := by
      have htake : (h.batches ++ [b]).take (h.batches.length + 1) = h.batches ++ [b] :=
        take_of_length_le (by simp)
      cases b <;> simp [versionAt, applyEntries_eq, htake]
    refine congrArg some ?_
    rw [SliceDB.apply, visible_engine, hnew]
    unfold engine
    rw [hold _ hle, length_append, length_singleton, Nat.sub_add_comm hle, range'_concat,
      map_append,
      show h.durable + 1 + 1 * (h.batches.length - h.durable) = h.batches.length + 1 by omega]
    congr 2
    refine map_congr_left fun n hn => hold n ?_
    rw [mem_range'_1] at hn
    omega
  | advanceDurable seq =>
    change (if h.batches.length < seq then none else _) = _
    simp only [step]
    split_ifs with hseq
    · rfl
    · have hadv := advance_range' h.batches seq h.durable (h.batches.length - h.durable) (by omega)
      rw [show h.durable + (h.batches.length - h.durable) = h.batches.length by omega] at hadv
      simp only [engine, hadv]
      rfl
  | crash =>
    have hcut : versionAt h.batches h.durable = versionAt (h.batches.take h.durable) h.durable :=
      versionAt_congr (m := h.durable) (by simp) le_rfl
    have hlength : (h.batches.take h.durable).length = h.durable := by simp [hle]
    change some { durable := _, pending := [], seq := h.durable } = some (engine _)
    unfold engine
    rw [hcut, hlength, Nat.sub_self]
    rfl

theorem foldlM_engine (calls : List Call) :
    calls.foldlM SliceDB.step h.engine = (calls.foldlM step h).map engine := by
  induction calls generalizing h with
  | nil => rfl
  | cons c calls ih =>
    rw [foldlM_cons, foldlM_cons, step_engine]
    cases h.step c with
    | none => rfl
    | some h' => exact ih h'

variable {h} {h' : History}

theorem durable_le_of_step {c : Call} (hstep : h.step c = some h') : h.durable ≤ h'.durable := by
  unfold step at hstep
  split at hstep
  · cases hstep
    exact le_rfl
  · split_ifs at hstep
    cases hstep
    exact le_max_left _ _
  · cases hstep
    exact le_rfl

/-- The contract, over any calls whose watermarks do not pass the last applied sequence: what is visible
are the batches that survive, a crash keeps exactly those up to the durable sequence, that sequence
never goes back, and reads and iterators see the content as a map. -/
theorem durability_contract {calls : List Call} (hrun : calls.foldlM step {} = some h) :
    ∃ d, calls.foldlM SliceDB.step {} = some d ∧
      d.seq = h.batches.length ∧
      d.visible.entries = (h.batches.foldl applyTo {}).entries ∧
      d.crash.seq = d.durable.seq ∧
      d.crash.visible.entries = ((h.batches.take d.durable.seq).foldl applyTo {}).entries ∧
      d.durable.seq ≤ d.seq ∧
      (∀ c d', d.step c = some d' → d.durable.seq ≤ d'.durable.seq) ∧
      d.visible.entries.Pairwise (·.1 < ·.1) ∧
      (∀ k, lookup d.visible.entries k = (h.batches.foldl applyTo {}).get k) ∧
      ∀ it : Iter, it.v = h.batches.foldl applyTo {} →
        it.v.entries = d.visible.entries ∧
        IsFirst Prod.fst (it.Shows fun _ => True) it.first.position ∧
        (it.Ok → it.valid → ∃ p, it.position = some p ∧
          IsFirst Prod.fst (it.Shows (p.1 < ·)) it.next.position) := by
  have hvisible : h.engine.visible.entries = (h.batches.foldl applyTo {}).entries := by
    rw [visible_engine, versionAt, take_length]
  refine ⟨h.engine, (foldlM_engine {} calls).trans (by rw [hrun]; rfl), rfl, hvisible, rfl, rfl,
    h.durable_le, ?_, ?_, ?_, ?_⟩
  · intro c d' hstep
    rw [step_engine] at hstep
    obtain ⟨h', hh', rfl⟩ := Option.map_eq_some_iff.mp hstep
    exact durable_le_of_step hh'
  · rw [hvisible]
    exact OrderedMap.sorted _
  · intro k
    rw [hvisible]
    exact lookup_entries _ k
  · intro it hit
    exact ⟨hit ▸ hvisible.symm, Iter.isFirst_first, Iter.isFirst_next⟩

/-- A batch that was not durable is lost, and its sequence is used again. -/
theorem durability_contract_reused :
    ∃ d, [.apply [.set [1] [2]] true, .advanceDurable 1, .apply [.delete [1]] false, .crash,
      .apply [.set [3] [4]] false].foldlM SliceDB.step {} = some d ∧ d.seq = 2 := by
  obtain ⟨d, hd, hseq, -⟩ := durability_contract
    (h := { batches := [[.set [1] [2]], [.set [3] [4]]], durable := 1 })
    (show foldlM step {} [.apply [.set [1] [2]] true, .advanceDurable 1, .apply [.delete [1]] false,
      .crash, .apply [.set [3] [4]] false] = _ from rfl)
  exact ⟨d, hd, hseq⟩

end History

end Rift.Model
