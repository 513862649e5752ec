import Rift.Engine.Log

/-!
# Groups of records

A log is a header and groups of records, each closed by a `GROUP_END`. Both logs of the engine have this
shape: the write-ahead log with groups of batches, and the manifest with groups of edits. What a scan
commits is whole groups.
-/

namespace Rift.Engine

open List

/-- The kind of a record. -/
def kindOf (p : Slice) : Option RecordKind := (peekKindAndSeq p).map Prod.fst

/-- Records of one kind, and the end of a group. -/
def IsGroup (kind : RecordKind) (g : List Slice) : Prop :=
  ∃ body x, g = body ++ [x] ∧ (∀ y ∈ body, kindOf y = some kind) ∧ kindOf x = some .groupEnd

theorem peek_isSome_of_kindOf {p : Slice} {kind : RecordKind} (h : kindOf p = some kind) :
    (peekKindAndSeq p).isSome := by
  obtain ⟨x, hx, -⟩ := Option.map_eq_some_iff.mp h
  exact Option.isSome_iff_exists.mpr ⟨x, hx⟩

section

variable {hd : Slice} {gs : List (List Slice)} {kind : RecordKind}

theorem cons_take_flatten (hd : Slice) (gs : List (List Slice)) (i : ℕ) :
    hd :: (gs.take i).flatten = (hd :: gs.flatten).take ((gs.take i).flatten.length + 1) := by
  have hsplit : gs.flatten = (gs.take i).flatten ++ (gs.drop i).flatten := by
    rw [← flatten_append, take_append_drop]
  rw [take_succ_cons, hsplit, take_left]

theorem peek_isSome_of_groups (hhd : kindOf hd = some .fileHeader)
    (hgs : ∀ g ∈ gs, IsGroup kind g) : ∀ p ∈ hd :: gs.flatten, (peekKindAndSeq p).isSome := by
  intro p hp
  rcases mem_cons.mp hp with rfl | hp
  · exact peek_isSome_of_kindOf hhd
  · obtain ⟨g, hg, hp⟩ := mem_flatten.mp hp
    obtain ⟨body, x, rfl, hbody, hx⟩ := hgs g hg
    rcases mem_append.mp hp with hp | hp
    · exact peek_isSome_of_kindOf (hbody p hp)
    · exact peek_isSome_of_kindOf (mem_singleton.mp hp ▸ hx)

theorem records_whole {ps : List Slice} (hps : ∀ p ∈ ps, (peekKindAndSeq p).isSome) :
    (scanLog (logBytes 0 ps)).records.map (·.payload) = ps := by
  obtain ⟨j, -, -, hholds, hiff⟩ := scanLog_spec hps (prefix_refl _)
  have hj : ps.length ≤ j := (hiff ps.length le_rfl).mpr (by rw [take_length])
  rw [hholds.payloads, take_of_length_le hj]

/-- However a log is cut, a scan commits a number of whole groups: those that lie before the cut. -/
theorem committed_cut (hhd : kindOf hd = some .fileHeader) (hkind : kind ≠ .groupEnd)
    (hgs : ∀ g ∈ gs, IsGroup kind g) {image : Slice}
    (hpre : image <+: logBytes 0 (hd :: gs.flatten)) :
    (scanLog image).outcome ≠ .interiorCorruption ∧
      (∀ x ∈ (scanLog image).records, kindOf x.payload = some x.kind) ∧
      ∃ m ≤ gs.length,
        ((scanLog image).records.take (scanLog image).committedCount).map (·.payload) =
          (if m = 0 then [] else hd :: (gs.take m).flatten) ∧
        ∀ i, 0 < i → i ≤ gs.length →
          (i ≤ m ↔ (logBytes 0 (hd :: (gs.take i).flatten)).length ≤ image.length) := by
  obtain ⟨j, hj, hout, hholds, hiff⟩ := scanLog_spec (peek_isSome_of_groups hhd hgs) hpre
  refine ⟨hout, hholds.kinds, ?_⟩
  -- what is committed is the part up to the last end of a group
  have hcommitted : ((scanLog image).records.take (scanLog image).committedCount).map (·.payload) =
      ((hd :: gs.flatten).take j).rdropWhile fun p => kindOf p ≠ some .groupEnd := by
    rw [map_take, hholds.payloads, hholds.committed]
    exact (prefix_iff_eq_take.mp (List.rdropWhile_prefix _ _)).symm
  rw [hcommitted]
  -- the first groups lie before the cut if their records are among those that are found
  have hlie : ∀ i, (logBytes 0 (hd :: (gs.take i).flatten)).length ≤ image.length ↔
      (gs.take i).flatten.length + 1 ≤ j := by
    intro i
    rw [cons_take_flatten, ← hiff]
    rw [length_cons]
    exact Nat.succ_le_succ ((List.take_prefix i _).flatten).length_le
  simp only [hlie]
  by_cases hj0 : j = 0
  · subst hj0
    exact ⟨0, Nat.zero_le _, by simp, fun i hi _ => by omega⟩
  have hgroups : ∀ g ∈ gs, ∃ body x, g = body ++ [x] ∧
      (∀ y ∈ body, decide (kindOf y ≠ some .groupEnd)) ∧
      ¬ decide (kindOf x ≠ some .groupEnd) := by
    intro g hg
    obtain ⟨body, x, rfl, hbody, hx⟩ := hgs g hg
    refine ⟨body, x, rfl, fun y hy => ?_, by simp [hx]⟩
    simpa [hbody y hy] using hkind
  obtain ⟨m, hm, heq, hmax⟩ := @rdropWhile_take_flatten _
    (fun p => decide (kindOf p ≠ some .groupEnd)) [hd] gs hgroups j (Nat.one_le_iff_ne_zero.mpr hj0)
  have hheader : [hd].rdropWhile (fun p => kindOf p ≠ some .groupEnd) = [] := by
    simp [rdropWhile, hhd]
  rw [singleton_append, hheader] at heq
  refine ⟨m, hm, heq, fun i hi hle => ⟨fun him => ?_, fun hlen => hmax i hle ?_⟩⟩
  · -- what is committed is a part of what is found
    have hpart := (List.rdropWhile_prefix (fun p => decide (kindOf p ≠ some .groupEnd))
      ((hd :: gs.flatten).take j)).length_le
    rw [heq, if_neg (by omega), singleton_append, length_cons] at hpart
    have hmono : (gs.take i).flatten.length ≤ (gs.take m).flatten.length :=
      ((take_prefix_take_left him).flatten).length_le
    exact (Nat.succ_le_succ hmono).trans (hpart.trans (length_take_le _ _))
  · rw [length_singleton]
    omega

end

/-! ### Batches -/

/-- A group of batches, closed by its end. -/
structure RecordGroup where
  batches : List Slice
  close : Slice
  batch : ∀ p ∈ batches, kindOf p = some .batch
  closes : kindOf close = some .groupEnd

def RecordGroup.records (g : RecordGroup) : List Slice := g.batches ++ [g.close]

/-- The file that a writer leaves when nothing fails and the file is synced. -/
def written (ps : List Slice) : Slice := (({} : LogWriter).addRecords ps).1.file.flushed.bytes

theorem written_eq (ps : List Slice) : written ps = logBytes 0 ps := by
  have hok := @LogWriter.addRecords_ok {} ps rfl
  have hspec := @LogWriter.addRecords_spec {} _ _ ps rfl
  rw [hok] at hspec
  exact hspec.1.appended_eq

theorem RecordGroup.isGroup (g : RecordGroup) : IsGroup .batch g.records :=
  ⟨g.batches, g.close, rfl, g.batch, g.closes⟩

/-- The records of a log: its header, and its groups. -/
def logRecords (header : Slice) (gs : List RecordGroup) : List Slice :=
  header :: (gs.map (·.records)).flatten

/-- Of a file that is cut anywhere, a scan commits the header and the groups whose end lies before the
cut, byte for byte; it never reports corruption; and of the whole file it returns all records. -/
theorem scanLog_written {header : Slice} (hheader : kindOf header = some .fileHeader)
    (gs : List RecordGroup) :
    (∀ image, image <+: written (logRecords header gs) →
      (scanLog image).outcome ≠ .interiorCorruption ∧
      (∀ x ∈ (scanLog image).records, kindOf x.payload = some x.kind) ∧
      ∃ m ≤ gs.length,
        ((scanLog image).records.take (scanLog image).committedCount).map (·.payload) =
          (if m = 0 then [] else logRecords header (gs.take m)) ∧
        ∀ i, 0 < i → i ≤ gs.length →
          (i ≤ m ↔ (written (logRecords header (gs.take i))).length ≤ image.length)) ∧
    (scanLog (written (logRecords header gs))).records.map (·.payload) = logRecords header gs := by
  have hgroups : ∀ g ∈ gs.map (·.records), IsGroup .batch g := by
    intro g hg
    obtain ⟨g, -, rfl⟩ := mem_map.mp hg
    exact g.isGroup
  refine ⟨fun image hpre => ?_, ?_⟩
  · rw [written_eq] at hpre
    obtain ⟨hout, hkinds, m, hm, heq, hiff⟩ := committed_cut hheader (by simp) hgroups hpre
    rw [length_map] at hm
    refine ⟨hout, hkinds, m, hm, ?_, fun i hi hle => ?_⟩
    · rw [heq, ← map_take]
      rfl
    · rw [hiff i hi (by simpa using hle), ← map_take, written_eq]
      rfl
  · rw [written_eq]
    exact records_whole (peek_isSome_of_groups hheader hgroups)

/-- A group of one batch. -/
def sampleGroup : RecordGroup where
  batches := [[1, 5, 0, 0, 0, 0, 0, 0, 0]]
  close := [2, 5, 0, 0, 0, 0, 0, 0, 0]
  batch := by decide
  closes := by decide

/-- The header and two groups, cut after fifty bytes. -/
def sampleImage : Slice := (written (logRecords [3] [sampleGroup, sampleGroup])).take 50

/-- The cut leaves the first group. -/
theorem scanLog_written_sample :
    (scanLog sampleImage).outcome ≠ .interiorCorruption ∧
      ((scanLog sampleImage).records.take (scanLog sampleImage).committedCount).map (·.payload) =
        logRecords [3] [sampleGroup] ∧
      (scanLog (written (logRecords [3] [sampleGroup, sampleGroup]))).records.map (·.payload) =
        logRecords [3] [sampleGroup, sampleGroup] := by
  obtain ⟨hcut, hwhole⟩ := @scanLog_written [3] (by decide) [sampleGroup, sampleGroup]
  obtain ⟨hout, -, m, -, heq, hiff⟩ := hcut _ (List.take_prefix 50 _)
  have hfirst : 1 ≤ m := (hiff 1 (by decide) (by decide)).mpr (by decide +kernel)
  have hsecond : ¬ 2 ≤ m := (hiff 2 (by decide) (by decide)).not.mpr (by decide +kernel)
  obtain rfl : m = 1 := by omega
  exact ⟨hout, heq, hwhole⟩

end Rift.Engine
