import Rift.Engine.MergedIter
import Rift.Lib.Cursor

/-!
# Cursors over unions

The merge of `engine-cpp/src/merged_iter.cc` and the run of `engine-cpp/src/sst/concat_iter.cc`, seen
from outside: after any calls, with any changes of direction, each stands where a cursor over one
sorted list of all versions would stand.
-/

namespace Rift.Engine

open List

def mergedCursor : Cursor InternalKey Entry MergedIter where
  entry := MergedIter.entry
  seek target m := some (m.seek target)
  seekToFirst m := some m.seekToFirst
  seekToLast m := some m.seekToLast
  next := MergedIter.next
  prev := MergedIter.prev

def concatCursor : Cursor InternalKey Entry ConcatIter where
  entry := ConcatIter.entry
  seek target c := some (c.seek target)
  seekToFirst c := some c.seekToFirst
  seekToLast c := some c.seekToLast
  next c := some c.next
  prev c := some c.prev

/-- All versions, in the internal key order. -/
def sortedUnion (contents : List (List Entry)) : List Entry :=
  contents.flatten.insertionSort fun a b => a.ikey ≤ b.ikey

variable {contents : List (List Entry)}

theorem mem_sortedUnion {e : Entry} : e ∈ sortedUnion contents ↔ e ∈ contents.flatten :=
  (perm_insertionSort _ _).mem_iff

/-- Versions that ascend in every source and are apart across sources ascend in the union. -/
theorem pairwise_sortedUnion (hsorted : ∀ es ∈ contents, es.Pairwise (Entry.ikey · < Entry.ikey ·))
    (hapart : MergedIter.Apart contents) :
    (sortedUnion contents).Pairwise (Entry.ikey · < Entry.ikey ·) := by
  have hne : contents.flatten.Pairwise (Entry.ikey · ≠ Entry.ikey ·) :=
    pairwise_flatten.mpr ⟨fun es hes => (hsorted es hes).imp ne_of_lt, hapart⟩
  have hne' : (sortedUnion contents).Pairwise (Entry.ikey · ≠ Entry.ikey ·) :=
    (perm_insertionSort _ _).symm.pairwise hne fun h => h.symm
  have hle : (sortedUnion contents).Pairwise (Entry.ikey · ≤ Entry.ikey ·) :=
    pairwise_insertionSort (fun a b : Entry => a.ikey ≤ b.ikey) _
  exact (hle.and hne').imp fun h => lt_of_le_of_ne h.1 h.2

theorem follows_concatCursor (run : List Table) :
    concatCursor.Follows Entry.ikey (run.flatMap (·.entries)) fun c => c.Ok ∧ c.run = run where
  seek := by
    rintro c ⟨hok, rfl⟩ target
    obtain ⟨hrun, hok'⟩ := ConcatIter.keeps_seek hok target
    exact ⟨_, rfl, ⟨hok', hrun⟩, ConcatIter.isFirst_seek hok target⟩
  seekToFirst := by
    rintro c ⟨hok, rfl⟩
    obtain ⟨hrun, hok'⟩ := @ConcatIter.keeps_openFile c hok 0 EntryIter.seekToFirst fun _ => rfl
    exact ⟨_, rfl, ⟨hok', hrun⟩, ConcatIter.isFirst_seekToFirst hok⟩
  seekToLast := by
    rintro c ⟨hok, rfl⟩
    obtain ⟨hrun, hok'⟩ := @ConcatIter.keeps_openFile c hok (c.run.length - 1)
      EntryIter.seekToLast fun _ => rfl
    exact ⟨_, rfl, ⟨hok', hrun⟩, ConcatIter.isLast_seekToLast hok⟩
  next := by
    rintro c ⟨hok, rfl⟩ e he
    obtain ⟨hrun, hok'⟩ := ConcatIter.keeps_next hok
    exact ⟨_, rfl, ⟨hok', hrun⟩, ConcatIter.isFirst_next hok he⟩
  prev := by
    rintro c ⟨hok, rfl⟩ e he
    obtain ⟨hrun, hok'⟩ := ConcatIter.keeps_prev hok
    exact ⟨_, rfl, ⟨hok', hrun⟩, ConcatIter.isLast_prev hok he⟩

theorem follows_mergedCursor (hapart : MergedIter.Apart contents) :
    mergedCursor.Follows Entry.ikey (sortedUnion contents) fun m => m.Stands contents m.entry where
  seek := by
    intro m hm target
    obtain ⟨o, ho, hfirst⟩ := MergedIter.stands_seek hm.isOver target
    obtain rfl := ho.entry
    exact ⟨_, rfl, ho, hfirst.congr fun x => by rw [mem_sortedUnion]⟩
  seekToFirst := by
    intro m hm
    obtain ⟨o, ho, hfirst⟩ := MergedIter.stands_seekToFirst hm.isOver
    obtain rfl := ho.entry
    exact ⟨_, rfl, ho, hfirst.congr fun x => mem_sortedUnion.symm⟩
  seekToLast := by
    intro m hm
    obtain ⟨o, ho, hlast⟩ := MergedIter.stands_seekToLast hm.isOver
    obtain rfl := ho.entry
    exact ⟨_, rfl, ho, hlast.congr fun x => mem_sortedUnion.symm⟩
  next := by
    intro m hm e he
    have hat : m.Stands contents (some e) := by
      have he : m.entry = some e := he
      rwa [he] at hm
    obtain ⟨m', o, hnext, ho, hfirst⟩ := MergedIter.stands_next hapart hat
    obtain rfl := ho.entry
    exact ⟨m', hnext, ho, hfirst.congr fun x => by rw [mem_sortedUnion]⟩
  prev := by
    intro m hm e he
    have hat : m.Stands contents (some e) := by
      have he : m.entry = some e := he
      rwa [he] at hm
    obtain ⟨m', o, hprev, ho, hlast⟩ := MergedIter.stands_prev hapart hat
    obtain rfl := ho.entry
    exact ⟨m', hprev, ho, hlast.congr fun x => by rw [mem_sortedUnion]⟩

/-- After any calls, with steps only from where the cursor is valid, a merge of sources and a run of
tables stand where the cursor over the sorted union stands. -/
theorem cursors_visit_union :
    (∀ ss : List Source, (∀ s ∈ ss, s.Ok) → MergedIter.Apart (ss.map Source.entries) →
      ∀ cs : List (CursorCall InternalKey),
        (mergedCursor.calls { sources := ss } cs).map MergedIter.entry =
          ((listCursor Entry.ikey (sortedUnion (ss.map Source.entries))).calls
            (sortedUnion (ss.map Source.entries)).length cs).map
            fun i => (sortedUnion (ss.map Source.entries))[i]?) ∧
    ∀ run : List Table, ConcatIter.accepts run →
      ∃ c, ConcatIter.new run = some c ∧ ∀ cs : List (CursorCall InternalKey),
        (concatCursor.calls c cs).map ConcatIter.entry =
          ((listCursor Entry.ikey (run.flatMap (·.entries))).calls
            (run.flatMap (·.entries)).length cs).map fun i => (run.flatMap (·.entries))[i]? := by
  constructor
  · intro ss hok hapart cs
    have hsorted : ∀ es ∈ ss.map Source.entries, es.Pairwise (Entry.ikey · < Entry.ikey ·) := by
      intro es hes
      obtain ⟨s, hs, rfl⟩ := mem_map.mp hes
      exact (hok s hs).pairwise
    refine (follows_mergedCursor hapart).calls_eq (pairwise_sortedUnion hsorted hapart)
      (s := { sources := ss }) ⟨⟨rfl, hok⟩, rfl⟩ ?_ cs
    exact (getElem?_eq_none le_rfl).symm
  · intro run hrun
    refine ⟨_, if_pos hrun, fun cs => ?_⟩
    refine (follows_concatCursor run).calls_eq (pairwise_flatMap_of_accepts hrun)
      ⟨⟨hrun, by simp⟩, rfl⟩ ?_ cs
    exact (getElem?_eq_none le_rfl).symm

/-- A version of a key of one byte. -/
def sampleEntry (k : UInt8) (seq : ℕ) : Entry := { key := [k], seq := seq, type := .value }

/-- A table with one version. -/
def sampleTable (k : UInt8) : Table where
  entries := [sampleEntry k 1]
  nonempty := by simp
  sorted := pairwise_singleton _ _
  legal := by simp [sampleEntry, kMaxSeqNum]
  proper := MemRange.proper_nil
  admits := by simp

/-- Two versions of the key 1 in two sources, and a run of two tables: forward twice and back again. -/
theorem cursors_visit_sample :
    (mergedCursor.calls
        { sources := [.list ⟨[sampleEntry 1 3, sampleEntry 2 1], 0⟩, .list ⟨[sampleEntry 1 2], 0⟩] }
        [.seekToFirst, .next, .next, .prev]).map MergedIter.entry =
      some (some (sampleEntry 1 2)) ∧
    ∃ c, ConcatIter.new [sampleTable 1, sampleTable 2] = some c ∧
      (concatCursor.calls c [.seekToLast, .prev]).map ConcatIter.entry =
        some (some (sampleEntry 1 1)) := by
  obtain ⟨hmerge, hrun⟩ := cursors_visit_union
  constructor
  · rw [hmerge _ (by simp [Source.Ok]; decide) (by unfold MergedIter.Apart; decide)]
    decide +kernel
  · obtain ⟨c, hc, hcalls⟩ := hrun [sampleTable 1, sampleTable 2] (by decide +kernel)
    refine ⟨c, hc, ?_⟩
    rw [hcalls]
    decide +kernel

end Rift.Engine
