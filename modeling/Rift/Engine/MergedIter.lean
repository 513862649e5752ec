import Rift.Engine.ConcatIter

/-!
# Merging cursors

The merge of `engine-cpp/src/merged_iter.cc` over memtables, tables and a run of tables. It only knows
the next version in the direction it walks: the other sources are positioned for that direction, and
a change of direction seeks every one of them again.
-/

namespace Rift.Engine

open List

/-! ### Sources of a merge -/

/-- A source of the merge. -/
inductive Source
  | list (it : EntryIter)
  | run (it : ConcatIter)

namespace Source

/-- Every version of a source. -/
def entries : Source → List Entry
  | list it => it.entries
  | run it => it.run.flatMap (·.entries)

/-- The version a source stands on. -/
def entry : Source → Option Entry
  | list it => it.entry
  | run it => it.entry

def seekToFirst : Source → Source
  | list it => list it.seekToFirst
  | run it => run it.seekToFirst

def seekToLast : Source → Source
  | list it => list it.seekToLast
  | run it => run it.seekToLast

def seek (target : InternalKey) : Source → Source
  | list it => list (it.seek target)
  | run it => run (it.seek target)

def next : Source → Source
  | list it => list it.next
  | run it => run it.next

def prev : Source → Source
  | list it => list it.prev
  | run it => run it.prev

/-- Step back from the first version at or after an internal key. -/
def seekBefore (target : InternalKey) (s : Source) : Source :=
  if (s.seek target).entry.isSome then (s.seek target).prev else (s.seek target).seekToLast

end Source

/-! ### The merge -/

inductive Direction | forward | reverse
  deriving DecidableEq, Repr

structure MergedIter where
  sources : List Source := []
  current : Option ℕ := none
  dir : Direction := .forward

namespace MergedIter

def addEntries (m : MergedIter) (entries : List Entry) : MergedIter :=
  { m with sources := m.sources ++ [.list { entries := entries, place := 0 }] }

def addMemTable (m : MergedIter) (t : MemTable) : MergedIter := m.addEntries t.entries

def addTable (m : MergedIter) (t : Table) : MergedIter := m.addEntries t.entries

/-- A run is one source; an empty run adds nothing. -/
def addRun (m : MergedIter) (run : List Table) : Option MergedIter :=
  if run.isEmpty then some m
  else return { m with sources := m.sources ++ [.run (← ConcatIter.new run)] }

variable (m : MergedIter)

/-- The version a source stands on. -/
def entryOf (i : ℕ) : Option Entry := m.sources[i]?.bind Source.entry

/-- The version the merge stands on. -/
def entry : Option Entry := m.current.bind m.entryOf

def pickSmallest : MergedIter :=
  { m with current := pickFirst Entry.ikey m.entryOf m.sources.length }

def pickLargest : MergedIter :=
  { m with
    current := pickFirst (fun e => OrderDual.toDual e.ikey) m.entryOf m.sources.length }

def seekToFirst : MergedIter :=
  { m with sources := m.sources.map Source.seekToFirst, dir := .forward }.pickSmallest

def seekToLast : MergedIter :=
  { m with sources := m.sources.map Source.seekToLast, dir := .reverse }.pickLargest

def seek (target : InternalKey) : MergedIter :=
  { m with sources := m.sources.map (Source.seek target), dir := .forward }.pickSmallest

/-- Place every source but the current one. -/
def reposition (i : ℕ) (place : Source → Source) (dir : Direction) : MergedIter :=
  { m with sources := m.sources.mapIdx fun j s => if j = i then s else place s, dir := dir }

/-- Move the current source. -/
def advance (i : ℕ) (move : Source → Source) : MergedIter :=
  { m with sources := m.sources.modify i move }

def next : Option MergedIter := do
  let i ← m.current
  let e ← m.entryOf i
  let m := if m.dir ≠ .forward then m.reposition i (Source.seek e.ikey) .forward else m
  return (m.advance i Source.next).pickSmallest

def prev : Option MergedIter := do
  let i ← m.current
  let e ← m.entryOf i
  let m := if m.dir ≠ .reverse then m.reposition i (Source.seekBefore e.ikey) .reverse else m
  return (m.advance i Source.prev).pickLargest

end MergedIter

/-! ### What a source stands on -/

theorem pairwise_flatMap_of_accepts {run : List Table} (h : ConcatIter.accepts run) :
    (run.flatMap (·.entries)).Pairwise (Entry.ikey · < Entry.ikey ·) := by
  refine pairwise_flatMap.mpr ⟨fun t _ => t.sorted_ikey, ?_⟩
  refine (ConcatIter.accepts_iff.mp h).imp fun {t u} htu x hx y hy => ?_
  exact ((t.bounds.upper x hx).trans_lt htu).trans_le (u.bounds.lower y hy)

namespace Source

/-- The versions of a source ascend. -/
def Ok : Source → Prop
  | list it => it.entries.Pairwise (Entry.ikey · < Entry.ikey ·)
  | run it => it.Ok

theorem Ok.pairwise {s : Source} (h : s.Ok) :
    s.entries.Pairwise (Entry.ikey · < Entry.ikey ·) := by
  cases s with
  | list it => exact h
  | run c => exact pairwise_flatMap_of_accepts h.1

/-- A source over the same versions, in good order. -/
def Keeps (s s' : Source) : Prop := s'.entries = s.entries ∧ s'.Ok

theorem keeps_of_run {c c' : ConcatIter} (hc : c.Keeps c') : (run c).Keeps (run c') :=
  ⟨congrArg (·.flatMap (·.entries)) hc.1, hc.2⟩

variable {s : Source} (h : s.Ok) {e : Entry}
include h

theorem keeps_seekToFirst : s.Keeps s.seekToFirst := by
  cases s with
  | list it => exact ⟨rfl, h⟩
  | run c => exact keeps_of_run (ConcatIter.keeps_openFile h _ fun _ => rfl)

theorem keeps_seekToLast : s.Keeps s.seekToLast := by
  cases s with
  | list it => exact ⟨rfl, h⟩
  | run c => exact keeps_of_run (ConcatIter.keeps_openFile h _ fun _ => rfl)

theorem keeps_seek (target : InternalKey) : s.Keeps (s.seek target) := by
  cases s with
  | list it => exact ⟨rfl, h⟩
  | run c => exact keeps_of_run (ConcatIter.keeps_seek h target)

theorem keeps_next : s.Keeps s.next := by
  cases s with
  | list it => exact ⟨rfl, h⟩
  | run c => exact keeps_of_run (ConcatIter.keeps_next h)

theorem keeps_prev : s.Keeps s.prev := by
  cases s with
  | list it => exact ⟨rfl, h⟩
  | run c => exact keeps_of_run (ConcatIter.keeps_prev h)

theorem isFirst_seekToFirst : IsFirst Entry.ikey (· ∈ s.entries) s.seekToFirst.entry := by
  cases s with
  | list it => exact isFirst_zero h
  | run c => exact ConcatIter.isFirst_seekToFirst h

theorem isLast_seekToLast : IsLast Entry.ikey (· ∈ s.entries) s.seekToLast.entry := by
  cases s with
  | list it => exact isLast_length h
  | run c => exact ConcatIter.isLast_seekToLast h

theorem isFirst_seek (target : InternalKey) :
    IsFirst Entry.ikey (fun x => x ∈ s.entries ∧ target ≤ x.ikey) (s.seek target).entry := by
  cases s with
  | list it => exact isFirst_findIdx h target
  | run c => exact ConcatIter.isFirst_seek h target

theorem isFirst_next (he : s.entry = some e) :
    IsFirst Entry.ikey (fun x => x ∈ s.entries ∧ e.ikey < x.ikey) s.next.entry := by
  cases s with
  | list it => exact isFirst_succ h he
  | run c => exact ConcatIter.isFirst_next h he

theorem isLast_prev (he : s.entry = some e) :
    IsLast Entry.ikey (fun x => x ∈ s.entries ∧ x.ikey < e.ikey) s.prev.entry := by
  cases s with
  | list it => exact isLast_pred h he
  | run c => exact ConcatIter.isLast_prev h he

theorem mem_of_entry (he : s.entry = some e) : e ∈ s.entries := by
  cases s with
  | list it => exact mem_of_getElem? he
  | run c =>
    obtain ⟨it, t, -, ht, hent, hite⟩ := ConcatIter.Ok.entry_eq_some h he
    exact ConcatIter.all_iff.mpr ⟨_, t, ht, hent ▸ mem_of_getElem? hite⟩

theorem keeps_seekBefore (target : InternalKey) : s.Keeps (s.seekBefore target) := by
  have hs := keeps_seek h target
  unfold seekBefore
  split_ifs
  · have hp := keeps_prev hs.2
    exact ⟨hp.1.trans hs.1, hp.2⟩
  · have hp := keeps_seekToLast hs.2
    exact ⟨hp.1.trans hs.1, hp.2⟩

/-- A step back from the first version at or after a key is the last version before it. -/
theorem isLast_seekBefore (target : InternalKey) :
    IsLast Entry.ikey (fun x => x ∈ s.entries ∧ x.ikey < target) (s.seekBefore target).entry := by
  have hs := keeps_seek h target
  have hseek := isFirst_seek h target
  unfold seekBefore
  cases he : (s.seek target).entry with
  | some e =>
    rw [he] at hseek
    rw [Option.isSome_some, if_pos rfl]
    refine (isLast_prev hs.2 he).congr fun x => ?_
    rw [hs.1]
    refine and_congr_right fun hx => ⟨fun hlt => ?_, fun hlt => hlt.trans_le hseek.1.2⟩
    exact not_le.mp fun hle => (hseek.2 x ⟨hx, hle⟩).not_gt hlt
  | none =>
    rw [he] at hseek
    rw [Option.isSome_none, if_neg Bool.false_ne_true]
    refine (isLast_seekToLast hs.2).congr fun x => ?_
    rw [hs.1]
    exact ⟨fun hx => ⟨hx, not_le.mp fun hle => hseek x ⟨hx, hle⟩⟩, And.left⟩

end Source

namespace MergedIter

/-- The sources hold these versions, in good order. -/
structure Over (contents : List (List Entry)) (m : MergedIter) : Prop where
  entries : m.sources.map Source.entries = contents
  ok : ∀ s ∈ m.sources, s.Ok

/-- No two sources hold the same internal key. -/
def Apart (contents : List (List Entry)) : Prop :=
  contents.Pairwise fun a b => ∀ x ∈ a, ∀ y ∈ b, x.ikey ≠ y.ikey

/-- The merge stands on a version, and every source on its first version from there on, or on its last
one up to there. -/
structure At (contents : List (List Entry)) (m : MergedIter) (e : Entry) : Prop where
  isOver : m.Over contents
  entry : m.entry = some e
  forward : m.dir = .forward → ∀ s ∈ m.sources,
    IsFirst Entry.ikey (fun x => x ∈ s.entries ∧ e.ikey ≤ x.ikey) s.entry
  reverse : m.dir = .reverse → ∀ s ∈ m.sources,
    IsLast Entry.ikey (fun x => x ∈ s.entries ∧ x.ikey ≤ e.ikey) s.entry

/-- What the merge stands on, if on anything. -/
def Stands (contents : List (List Entry)) (m : MergedIter) : Option Entry → Prop
  | none => m.Over contents ∧ m.entry = none
  | some e => m.At contents e

variable {contents : List (List Entry)} {m : MergedIter} {o : Option Entry} {e x : Entry}
  {P : Entry → Prop} {κ : Type*} {f : Source → Source} {key : Entry → κ}

theorem Stands.isOver (h : m.Stands contents o) : m.Over contents := by
  cases o with
  | none => exact h.1
  | some e => exact h.isOver

theorem Stands.entry (h : m.Stands contents o) : m.entry = o := by
  cases o with
  | none => exact h.2
  | some e => exact h.entry

theorem Over.mem_flatten (h : m.Over contents) :
    x ∈ contents.flatten ↔ ∃ s ∈ m.sources, x ∈ s.entries := by
  simp [← h.entries]

theorem Over.of_getElem (h : m.Over contents) {m' : MergedIter} {f : ℕ → Source → Source}
    (hm : ∀ j, m'.sources[j]? = (m.sources[j]?).map (f j))
    (hf : ∀ (j : ℕ) (s : Source), m.sources[j]? = some s → s.Keeps (f j s)) :
    m'.Over contents := by
  constructor
  · rw [← h.entries]
    refine ext_getElem? fun j => ?_
    rw [getElem?_map, getElem?_map, hm]
    cases hs : m.sources[j]? with
    | none => rfl
    | some s => simp [(hf j s hs).1]
  · intro s hs
    obtain ⟨j, hj⟩ := mem_iff_getElem?.mp hs
    rw [hm] at hj
    obtain ⟨s₀, h₀, rfl⟩ := Option.map_eq_some_iff.mp hj
    exact (hf j s₀ h₀).2

theorem Over.map (h : m.Over contents) (hf : ∀ s : Source, s.Ok → s.Keeps (f s)) (dir : Direction) :
    Over contents { m with sources := m.sources.map f, dir := dir } :=
  h.of_getElem (f := fun _ => f) (fun j => by simp) fun _ s hs =>
    hf s (h.ok s (mem_of_getElem? hs))

theorem Over.pick (h : m.Over contents) (i : Option ℕ) : Over contents { m with current := i } :=
  ⟨h.entries, h.ok⟩

theorem isFirst_merge [LinearOrder κ] (hover : m.Over contents)
    (h : ∀ s ∈ m.sources, IsFirst key (fun x => x ∈ s.entries ∧ P x) s.entry) :
    IsFirst key (fun x => x ∈ contents.flatten ∧ P x)
      ((pickFirst key m.entryOf m.sources.length).bind m.entryOf) := by
  refine (isFirst_pickFirst (P := fun i x => ∃ s, m.sources[i]? = some s ∧ x ∈ s.entries ∧ P x)
    fun i hi => ?_).congr fun x => ?_
  · have hs := getElem?_eq_getElem hi
    have hentry : m.entryOf i = m.sources[i].entry := by simp [entryOf, hs]
    rw [hentry]
    refine (h _ (getElem_mem hi)).congr fun x => ?_
    simp [hs]
  · rw [hover.mem_flatten]
    constructor
    · rintro ⟨i, -, s, hs, hx, hP⟩
      exact ⟨⟨s, mem_of_getElem? hs, hx⟩, hP⟩
    · rintro ⟨⟨s, hs, hx⟩, hP⟩
      obtain ⟨i, hi⟩ := mem_iff_getElem?.mp hs
      exact ⟨i, (List.getElem?_eq_some_iff.mp hi).1, s, hi, hx, hP⟩

/-- Sources that stand on their first version in an upper part do so from the first of all on. -/
theorem isFirst_from [LinearOrder κ] (hover : m.Over contents)
    (hup : ∀ x y, P x → key x ≤ key y → P y)
    (h : ∀ s ∈ m.sources, IsFirst key (fun x => x ∈ s.entries ∧ P x) s.entry)
    (he : IsFirst key (fun x => x ∈ contents.flatten ∧ P x) (some e)) :
    ∀ s ∈ m.sources, IsFirst key (fun x => x ∈ s.entries ∧ key e ≤ key x) s.entry :=
  fun s hs => (h s hs).congr fun x => and_congr_right fun hx =>
    ⟨fun hP => he.2 x ⟨hover.mem_flatten.mpr ⟨s, hs, hx⟩, hP⟩, hup e x he.1.2⟩

/-- Picking the smallest, when every source stands on its first version in an upper part. -/
theorem stands_pickSmallest (hover : m.Over contents) (hdir : m.dir = .forward)
    (hup : ∀ x y, P x → x.ikey ≤ y.ikey → P y)
    (h : ∀ s ∈ m.sources, IsFirst Entry.ikey (fun x => x ∈ s.entries ∧ P x) s.entry) :
    ∃ o, m.pickSmallest.Stands contents o ∧
      IsFirst Entry.ikey (fun x => x ∈ contents.flatten ∧ P x) o := by
  have hfirst := isFirst_merge hover h
  refine ⟨_, ?_, hfirst⟩
  cases hc : (pickFirst Entry.ikey m.entryOf m.sources.length).bind m.entryOf with
  | none => exact ⟨hover.pick _, hc⟩
  | some e =>
    exact ⟨hover.pick _, hc, fun _ => isFirst_from (hover.pick _) hup h (hc ▸ hfirst),
      fun hr => absurd (hdir.symm.trans hr) (by simp)⟩

/-- Picking the largest, when every source stands on its last version in a lower part. -/
theorem stands_pickLargest (hover : m.Over contents) (hdir : m.dir = .reverse)
    (hdown : ∀ x y, P x → y.ikey ≤ x.ikey → P y)
    (h : ∀ s ∈ m.sources, IsLast Entry.ikey (fun x => x ∈ s.entries ∧ P x) s.entry) :
    ∃ o, m.pickLargest.Stands contents o ∧
      IsLast Entry.ikey (fun x => x ∈ contents.flatten ∧ P x) o := by
  have hlast := isFirst_merge hover h
  refine ⟨_, ?_, hlast⟩
  cases hc : (pickFirst (fun e => OrderDual.toDual e.ikey) m.entryOf m.sources.length).bind
    m.entryOf with
  | none => exact ⟨hover.pick _, hc⟩
  | some e =>
    exact ⟨hover.pick _, hc, fun hf => absurd (hdir.symm.trans hf) (by simp),
      fun _ => isFirst_from (hover.pick _) hdown h (hc ▸ hlast)⟩

section

variable (h : m.Over contents)
include h

theorem isFirst_map [LinearOrder κ]
    (hf : ∀ s : Source, s.Ok → s.Keeps (f s) ∧ IsFirst key (fun x => x ∈ s.entries ∧ P x) (f s).entry) :
    ∀ s ∈ m.sources.map f, IsFirst key (fun x => x ∈ s.entries ∧ P x) s.entry := by
  intro s hs
  obtain ⟨s₀, h₀, rfl⟩ := mem_map.mp hs
  obtain ⟨hkeep, hfirst⟩ := hf s₀ (h.ok s₀ h₀)
  exact hkeep.1 ▸ hfirst

theorem stands_seek (target : InternalKey) :
    ∃ o, (m.seek target).Stands contents o ∧
      IsFirst Entry.ikey (fun x => x ∈ contents.flatten ∧ target ≤ x.ikey) o :=
  stands_pickSmallest (h.map (fun _ hs => Source.keeps_seek hs target) _) rfl
    (fun _ _ hx hxy => hx.trans hxy)
    (isFirst_map h fun _ hs => ⟨Source.keeps_seek hs target, Source.isFirst_seek hs target⟩)

theorem stands_seekToFirst :
    ∃ o, m.seekToFirst.Stands contents o ∧ IsFirst Entry.ikey (· ∈ contents.flatten) o := by
  obtain ⟨o, ho, hfirst⟩ := stands_pickSmallest (P := fun _ => True)
    (h.map (fun _ hs => Source.keeps_seekToFirst hs) .forward) rfl (by simp)
    (isFirst_map h fun s hs => ⟨Source.keeps_seekToFirst hs,
      (Source.isFirst_seekToFirst hs).congr fun _ => (and_iff_left trivial).symm⟩)
  exact ⟨o, ho, hfirst.congr fun _ => and_iff_left trivial⟩

theorem stands_seekToLast :
    ∃ o, m.seekToLast.Stands contents o ∧ IsLast Entry.ikey (· ∈ contents.flatten) o := by
  obtain ⟨o, ho, hlast⟩ := stands_pickLargest (P := fun _ => True)
    (h.map (fun _ hs => Source.keeps_seekToLast hs) .reverse) rfl (by simp)
    (isFirst_map h fun s hs => ⟨Source.keeps_seekToLast hs,
      (Source.isLast_seekToLast hs).congr fun _ => (and_iff_left trivial).symm⟩)
  exact ⟨o, ho, hlast.congr fun _ => and_iff_left trivial⟩

theorem Over.addTables (ts : List Table) :
    (ts.foldl addTable m).Over (contents ++ ts.map (·.entries)) := by
  induction ts generalizing m contents with
  | nil => simpa using h
  | cons t ts ih =>
    have ht : (m.addTable t).Over (contents ++ [t.entries]) := by
      refine ⟨by simp [addTable, addEntries, h.entries, Source.entries], fun s hs => ?_⟩
      rcases mem_append.mp hs with hs | hs
      · exact h.ok s hs
      · obtain rfl := mem_singleton.mp hs
        exact t.sorted_ikey
    simpa using ih ht

theorem Over.addRun {run : List Table} (haccepts : ConcatIter.accepts run) :
    ∃ m', m.addRun run = some m' ∧
      m'.Over (contents ++ if run.isEmpty then [] else [run.flatMap (·.entries)]) := by
  unfold MergedIter.addRun
  by_cases hempty : run.isEmpty
  · refine ⟨_, if_pos hempty, ?_⟩
    simpa [hempty] using h
  · refine ⟨_, by rw [if_neg hempty, ConcatIter.new, if_pos haccepts]; rfl, ?_, fun s hs => ?_⟩
    · simp [h.entries, hempty, Source.entries]
    · rcases mem_append.mp hs with hs | hs
      · exact h.ok s hs
      · obtain rfl := mem_singleton.mp hs
        exact ⟨haccepts, by simp⟩

end

theorem At.current (h : m.At contents e) :
    ∃ i s, m.current = some i ∧ m.sources[i]? = some s ∧ s.entry = some e := by
  obtain ⟨i, hi, he⟩ := Option.bind_eq_some_iff.mp h.entry
  obtain ⟨s, hs, he⟩ := Option.bind_eq_some_iff.mp he
  exact ⟨i, s, hi, hs, he⟩

theorem ne_ikey_of_ne (hapart : Apart contents) (hover : m.Over contents) {i j : ℕ} {s s' : Source}
    (hs : m.sources[i]? = some s) (hs' : m.sources[j]? = some s') (hij : j ≠ i) (he : e ∈ s.entries)
    (hx : x ∈ s'.entries) : e.ikey ≠ x.ikey := by
  have hci : contents[i]? = some s.entries := by rw [← hover.entries, getElem?_map, hs]; rfl
  have hcj : contents[j]? = some s'.entries := by rw [← hover.entries, getElem?_map, hs']; rfl
  obtain ⟨hi, hci⟩ := List.getElem?_eq_some_iff.mp hci
  obtain ⟨hj, hcj⟩ := List.getElem?_eq_some_iff.mp hcj
  have hpair := List.pairwise_iff_getElem.mp hapart
  rcases hij.lt_or_gt with hlt | hlt
  · exact (hpair j i hj hi hlt x (hcj ▸ hx) e (hci ▸ he)).symm
  · exact hpair i j hi hj hlt e (hci ▸ he) x (hcj ▸ hx)

/-- One step of the merge: the other sources are placed for the direction, and the current one
moves. -/
theorem getElem?_step (place move : Source → Source) (dir : Direction) (i j : ℕ) :
    ((m.reposition i place dir).advance i move).sources[j]? =
      (m.sources[j]?).map fun s => if j = i then move s else place s := by
  simp only [advance, reposition, getElem?_modify, getElem?_mapIdx]
  by_cases hij : i = j
  · subst hij
    cases m.sources[i]? <;> simp
  · cases m.sources[j]? <;> simp [hij, Ne.symm hij]

/-- In the direction the merge already walks, the other sources stay where they are. -/
theorem reposition_id (i : ℕ) : m.reposition i id m.dir = m := by
  obtain ⟨sources, current, dir⟩ := m
  simp only [reposition, id_eq, ite_self, mapIdx_eq_zipIdx_map]
  congr 1
  exact ext_getElem? fun j => by simp

/-- One step, in either direction: all sources stand beyond the version, if the current one moves there
and the others are placed there. -/
theorem isFirst_step [LinearOrder κ] (key : Entry → κ) {place move : Source → Source}
    (dir : Direction) {i : ℕ} {s : Source} (hover : m.Over contents) (hs : m.sources[i]? = some s)
    (hmove : s.Keeps (move s) ∧ IsFirst key (fun x => x ∈ s.entries ∧ key e < key x) (move s).entry)
    (hplace : ∀ j s', m.sources[j]? = some s' → j ≠ i → s'.Keeps (place s') ∧
      IsFirst key (fun x => x ∈ s'.entries ∧ key e < key x) (place s').entry) :
    ((m.reposition i place dir).advance i move).Over contents ∧
      ∀ s' ∈ ((m.reposition i place dir).advance i move).sources,
        IsFirst key (fun x => x ∈ s'.entries ∧ key e < key x) s'.entry := by
  have hget := getElem?_step (m := m) place move dir i
  have hstep : ∀ (j : ℕ) (s' : Source), m.sources[j]? = some s' →
      s'.Keeps (if j = i then move s' else place s') ∧
        IsFirst key (fun x => x ∈ s'.entries ∧ key e < key x)
          (if j = i then move s' else place s').entry := by
    intro j s' hs'
    split_ifs with hji
    · subst hji
      cases hs.symm.trans hs'
      exact hmove
    · exact hplace j s' hs' hji
  refine ⟨hover.of_getElem hget fun j s' hs' => (hstep j s' hs').1, fun s' hs' => ?_⟩
  obtain ⟨j, hj⟩ := mem_iff_getElem?.mp hs'
  rw [hget] at hj
  obtain ⟨s₀, h₀, rfl⟩ := Option.map_eq_some_iff.mp hj
  rw [(hstep j s₀ h₀).1.1]
  exact (hstep j s₀ h₀).2

variable (hapart : Apart contents) (h : m.At contents e)
include hapart h

theorem stands_next : ∃ m' o, m.next = some m' ∧ m'.Stands contents o ∧
    IsFirst Entry.ikey (fun x => x ∈ contents.flatten ∧ e.ikey < x.ikey) o := by
  obtain ⟨i, s, hi, hs, he⟩ := h.current
  have hok := h.isOver.ok s (mem_of_getElem? hs)
  -- After a change of direction the others are sought again; otherwise they already stand right.
  obtain ⟨place, hnext, hplace⟩ : ∃ place : Source → Source,
      m.next = some ((m.reposition i place .forward).advance i Source.next).pickSmallest ∧
      ∀ s' ∈ m.sources, s'.Keeps (place s') ∧
        IsFirst Entry.ikey (fun x => x ∈ s'.entries ∧ e.ikey ≤ x.ikey) (place s').entry := by
    have hei : m.entryOf i = some e := by simp [entryOf, hs, he]
    cases hdir : m.dir with
    | forward =>
      refine ⟨id, ?_, fun s' hs' => ⟨⟨rfl, h.isOver.ok s' hs'⟩, h.forward hdir s' hs'⟩⟩
      have hid := reposition_id (m := m) i
      rw [hdir] at hid
      simp [next, hi, hei, hdir, hid]
    | reverse =>
      refine ⟨Source.seek e.ikey, ?_, fun s' hs' =>
        ⟨Source.keeps_seek (h.isOver.ok s' hs') _, Source.isFirst_seek (h.isOver.ok s' hs') _⟩⟩
      simp [next, hi, hei, hdir]
  obtain ⟨hover, hfirst⟩ := isFirst_step _ .forward h.isOver hs
    ⟨Source.keeps_next hok, Source.isFirst_next hok he⟩ fun j s' hs' hji => by
      have hmem := mem_of_getElem? hs'
      refine ⟨(hplace s' hmem).1, (hplace s' hmem).2.congr fun x => and_congr_right fun hx => ?_⟩
      -- The other sources do not hold the version itself.
      have hne := ne_ikey_of_ne hapart h.isOver hs hs' hji (Source.mem_of_entry hok he) hx
      exact ⟨fun hle => lt_of_le_of_ne hle hne, le_of_lt⟩
  obtain ⟨o, ho, hmin⟩ := stands_pickSmallest hover rfl (fun _ _ hx hxy => hx.trans_le hxy) hfirst
  exact ⟨_, o, hnext, ho, hmin⟩

theorem stands_prev : ∃ m' o, m.prev = some m' ∧ m'.Stands contents o ∧
    IsLast Entry.ikey (fun x => x ∈ contents.flatten ∧ x.ikey < e.ikey) o := by
  obtain ⟨i, s, hi, hs, he⟩ := h.current
  have hok := h.isOver.ok s (mem_of_getElem? hs)
  obtain ⟨place, hprev, hplace⟩ : ∃ place : Source → Source,
      m.prev = some ((m.reposition i place .reverse).advance i Source.prev).pickLargest ∧
      ∀ j s', m.sources[j]? = some s' → j ≠ i → s'.Keeps (place s') ∧
        IsLast Entry.ikey (fun x => x ∈ s'.entries ∧ x.ikey < e.ikey) (place s').entry := by
    have hei : m.entryOf i = some e := by simp [entryOf, hs, he]
    cases hdir : m.dir with
    | forward =>
      refine ⟨Source.seekBefore e.ikey, ?_, fun j s' hs' _ => ?_⟩
      · simp [prev, hi, hei, hdir]
      · have hok := h.isOver.ok s' (mem_of_getElem? hs')
        exact ⟨Source.keeps_seekBefore hok _, Source.isLast_seekBefore hok _⟩
    | reverse =>
      refine ⟨id, ?_, fun j s' hs' hji => ?_⟩
      · have hid := reposition_id (m := m) i
        rw [hdir] at hid
        simp [prev, hi, hei, hdir, hid]
      · have hs'' := mem_of_getElem? hs'
        refine ⟨⟨rfl, h.isOver.ok s' hs''⟩, (h.reverse hdir s' hs'').congr fun x =>
          and_congr_right fun hx => ⟨fun hle => ?_, le_of_lt⟩⟩
        have hne := ne_ikey_of_ne hapart h.isOver hs hs' hji (Source.mem_of_entry hok he) hx
        exact lt_of_le_of_ne hle hne.symm
  obtain ⟨hover, hlast⟩ := isFirst_step (fun x => OrderDual.toDual x.ikey) .reverse
    h.isOver hs ⟨Source.keeps_prev hok, Source.isLast_prev hok he⟩ hplace
  obtain ⟨o, ho, hmax⟩ := stands_pickLargest hover rfl (fun _ _ hx hxy => hxy.trans_lt hx) hlast
  exact ⟨_, o, hprev, ho, hmax⟩

end MergedIter

end Rift.Engine
