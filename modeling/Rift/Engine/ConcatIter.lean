import Rift.Engine.Table
import Rift.Lib.Cursor

/-!
# Cursors over tables

A cursor over the versions of one memtable or table, and the cursor of
`engine-cpp/src/sst/concat_iter.cc` over a run of tables. Each is described by the version it stands
on, as a first or a last of the versions there are. A failed assertion is `none`.
-/

namespace Rift.Engine

open List Option

/-! ### One list of versions -/

/-- A place in a sorted list of versions; past the end is invalid. `MemTable::Iter` and `Table::Iter`
are this, with a node or a block and an index for the place. -/
structure EntryIter where
  entries : List Entry
  place : ℕ
  deriving DecidableEq, Repr

namespace EntryIter

variable (it : EntryIter)

def entry : Option Entry := it.entries[it.place]?

def seekToFirst : EntryIter := { it with place := 0 }

def seekToLast : EntryIter := { it with place := it.entries.length - 1 }

/-- The first version at or after an internal key. -/
def seek (target : InternalKey) : EntryIter :=
  { it with place := it.entries.findIdx fun e => !(e.ikey < target) }

def next : EntryIter := { it with place := it.place + 1 }

/-- From the first version on to no version at all. -/
def prev : EntryIter :=
  { it with place := if it.place = 0 then it.entries.length else it.place - 1 }

end EntryIter

/-! ### A run of tables -/

/-- A place in a run of tables: a file, and a place in it. Past the last file is invalid. -/
structure ConcatIter where
  run : List Table
  file : ℕ
  it : Option EntryIter := none

namespace ConcatIter

/-- The check of the constructor: each table begins after the one before it ends, in the internal key
order. -/
def accepts : List Table → Bool
  | t :: t' :: ts => t.check.largestKey < t'.check.smallestKey && accepts (t' :: ts)
  | _ => true

def new (run : List Table) : Option ConcatIter :=
  if accepts run then some { run := run, file := run.length } else none

variable (c : ConcatIter)

def entry : Option Entry := c.it.bind (·.entry)

def invalidate : ConcatIter := { c with file := c.run.length, it := none }

/-- Open a file and place its cursor. -/
def openFile (i : ℕ) (place : EntryIter → EntryIter) : ConcatIter :=
  match c.run[i]? with
  | none => c.invalidate
  | some t => { c with file := i, it := some (place { entries := t.entries, place := 0 }) }

def seekToFirst : ConcatIter := c.openFile 0 EntryIter.seekToFirst

def seekToLast : ConcatIter := c.openFile (c.run.length - 1) EntryIter.seekToLast

/-- Walk on to the first file that has a version, counting the files that are left. -/
def nextFile : ℕ → ConcatIter → ConcatIter
  | 0, c => c.invalidate
  | left + 1, c =>
    let c := c.openFile (c.file + 1) EntryIter.seekToFirst
    if c.entry.isSome then c else nextFile left c

def next : ConcatIter :=
  let c := if c.entry.isSome then { c with it := c.it.map EntryIter.next } else c
  if c.entry.isSome then c else c.nextFile (c.run.length - (c.file + 1))

/-- Walk back to the last file that has a version. -/
def prevFile : ℕ → ConcatIter → ConcatIter
  | 0, c => c.invalidate
  | left + 1, c =>
    let c := c.openFile (c.file - 1) EntryIter.seekToLast
    if c.entry.isSome then c else prevFile left c

def prev : ConcatIter :=
  let c := if c.entry.isSome then { c with it := c.it.map EntryIter.prev } else c
  if c.entry.isSome then c else c.prevFile (if c.run.length < c.file then 0 else c.file)

/-- The first file whose largest key is at or above the target is the only one that can hold it; if
it does not, the next one begins after the target. -/
def seek (target : InternalKey) : ConcatIter :=
  let lo := bisect (fun i => c.run[i]?.any (·.check.largestKey < target)) c.run.length
  if c.run.length ≤ lo then c.invalidate
  else
    let c := c.openFile lo (EntryIter.seek · target)
    if c.entry.isSome then c else c.next

end ConcatIter

/-! ### What the cursors stand on -/

namespace ConcatIter

theorem accepts_iff {run : List Table} :
    accepts run ↔ run.Pairwise fun t u => t.check.largestKey < u.check.smallestKey :=
  check_iff_pairwise (fun {_ u _} h h' => (h.trans_le u.smallest_le_largest).trans h') rfl
    (fun _ => rfl) (fun _ _ _ => by simp [accepts]) run

/-- The run is accepted, and an open file's cursor is over that file. -/
structure Ok (c : ConcatIter) : Prop where
  accepts : accepts c.run
  file : ∀ it ∈ c.it, ∃ t, c.run[c.file]? = some t ∧ it.entries = t.entries

variable {c : ConcatIter} {P : Entry → Prop} {i : ℕ} {t : Table} {e x : Entry} {κ : Type*}

/-- Every version of the run. -/
abbrev All (c : ConcatIter) (x : Entry) : Prop := x ∈ c.run.flatMap (·.entries)

theorem all_iff : c.All x ↔ ∃ (i : ℕ) (t : Table), c.run[i]? = some t ∧ x ∈ t.entries := by
  rw [All, mem_flatMap]
  constructor
  · rintro ⟨t, ht, hx⟩
    obtain ⟨i, hi⟩ := mem_iff_getElem?.mp ht
    exact ⟨i, t, hi, hx⟩
  · rintro ⟨i, t, hi, hx⟩
    exact ⟨t, mem_of_getElem? hi, hx⟩

section

variable (h : accepts c.run) {t' : Table} {j : ℕ}
include h

/-- A version of an earlier file comes before the smallest key of a later one. -/
theorem lt_smallest (ht : c.run[i]? = some t) (ht' : c.run[j]? = some t') (hij : i < j)
    (hx : x ∈ t.entries) : x.ikey < t'.check.smallestKey := by
  obtain ⟨hi, rfl⟩ := List.getElem?_eq_some_iff.mp ht
  obtain ⟨hj, rfl⟩ := List.getElem?_eq_some_iff.mp ht'
  exact ((c.run[i].bounds.upper x hx).trans_lt
    (pairwise_iff_getElem.mp (accepts_iff.mp h) i j hi hj hij))

theorem lt_of_files {y : Entry} (ht : c.run[i]? = some t) (ht' : c.run[j]? = some t') (hij : i < j)
    (hx : x ∈ t.entries) (hy : y ∈ t'.entries) : x.ikey < y.ikey :=
  (lt_smallest h ht ht' hij hx).trans_le (t'.bounds.lower y hy)

omit h in
/-- The first of a file, in either order, is the first of the run if the other files hold none before
it. -/
theorem isFirst_of_others [LinearOrder κ] {key : Entry → κ} (ht : c.run[i]? = some t)
    (he : IsFirst key (fun x => x ∈ t.entries ∧ P x) (some e))
    (hne : ∀ j u x, j ≠ i → c.run[j]? = some u → x ∈ u.entries → P x → key e ≤ key x) :
    IsFirst key (fun x => c.All x ∧ P x) (some e) := by
  refine ⟨⟨all_iff.mpr ⟨i, t, ht, he.1.1⟩, he.1.2⟩, ?_⟩
  rintro x ⟨hx, hP⟩
  obtain ⟨j, u, hu, hxu⟩ := all_iff.mp hx
  rcases eq_or_ne j i with rfl | hj
  · cases ht.symm.trans hu
    exact he.2 x ⟨hxu, hP⟩
  · exact hne j u x hj hu hxu hP

/-- The first of a file is the first of the run if no earlier file has any. -/
theorem isFirst_of_file (ht : c.run[i]? = some t)
    (he : IsFirst Entry.ikey (fun x => x ∈ t.entries ∧ P x) (some e))
    (hlt : ∀ j u x, j < i → c.run[j]? = some u → x ∈ u.entries → ¬ P x) :
    IsFirst Entry.ikey (fun x => c.All x ∧ P x) (some e) :=
  isFirst_of_others ht he fun j u x hj hu hx hP => hj.lt_or_gt.elim
    (fun hj => absurd hP (hlt j u x hj hu hx)) fun hj => (lt_of_files h ht hu hj he.1.1 hx).le

theorem isLast_of_file (ht : c.run[i]? = some t)
    (he : IsLast Entry.ikey (fun x => x ∈ t.entries ∧ P x) (some e))
    (hlt : ∀ j u x, i < j → c.run[j]? = some u → x ∈ u.entries → ¬ P x) :
    IsLast Entry.ikey (fun x => c.All x ∧ P x) (some e) :=
  isFirst_of_others ht he fun j u x hj hu hx hP => hj.lt_or_gt.elim
    (fun hj => (lt_of_files h hu ht hj hx he.1.1).le) fun hj => absurd hP (hlt j u x hj hu hx)

end

theorem openFile_eq (ht : c.run[i]? = some t) (place : EntryIter → EntryIter) :
    c.openFile i place =
      { c with file := i, it := some (place { entries := t.entries, place := 0 }) } := by
  simp [openFile, ht]

/-- A cursor over the same run, in good order. -/
def Keeps (c c' : ConcatIter) : Prop := c'.run = c.run ∧ c'.Ok

theorem Keeps.trans {c c' c'' : ConcatIter} (h : c.Keeps c') (h' : c'.Keeps c'') : c.Keeps c'' :=
  ⟨h'.1.trans h.1, h'.2⟩

theorem keeps_invalidate (h : c.Ok) : c.Keeps c.invalidate :=
  ⟨rfl, h.accepts, by simp [invalidate]⟩

theorem keeps_openFile (h : c.Ok) (i : ℕ) {place : EntryIter → EntryIter}
    (hp : ∀ it, (place it).entries = it.entries) : c.Keeps (c.openFile i place) := by
  unfold openFile
  split
  · exact keeps_invalidate h
  · next t ht => exact ⟨rfl, h.accepts, by simpa using ⟨t, ht, hp _⟩⟩

theorem keeps_step (h : c.Ok) {place : EntryIter → EntryIter}
    (hp : ∀ it, (place it).entries = it.entries) :
    c.Keeps (if c.entry.isSome then { c with it := c.it.map place } else c) := by
  split_ifs
  · refine ⟨rfl, h.accepts, fun it hit => ?_⟩
    obtain ⟨it₀, h₀, rfl⟩ := map_eq_some_iff.mp hit
    obtain ⟨t, ht, he⟩ := h.file it₀ h₀
    exact ⟨t, ht, (hp it₀).trans he⟩
  · exact ⟨rfl, h⟩

theorem keeps_nextFile (h : c.Ok) (left : ℕ) : c.Keeps (c.nextFile left) := by
  induction left generalizing c with
  | zero => exact keeps_invalidate h
  | succ left ih =>
    have ho := @keeps_openFile c h (c.file + 1) EntryIter.seekToFirst fun _ => rfl
    simp only [nextFile]
    split_ifs
    · exact ho
    · exact ho.trans (ih ho.2)

theorem keeps_prevFile (h : c.Ok) (left : ℕ) : c.Keeps (c.prevFile left) := by
  induction left generalizing c with
  | zero => exact keeps_invalidate h
  | succ left ih =>
    have ho := @keeps_openFile c h (c.file - 1) EntryIter.seekToLast fun _ => rfl
    simp only [prevFile]
    split_ifs
    · exact ho
    · exact ho.trans (ih ho.2)

theorem keeps_next (h : c.Ok) : c.Keeps c.next := by
  have hs := @keeps_step c h EntryIter.next fun _ => rfl
  simp only [next]
  split_ifs at hs ⊢
  · exact hs
  · exact hs.trans (keeps_nextFile hs.2 _)
  · exact hs.trans (keeps_nextFile hs.2 _)

theorem keeps_prev (h : c.Ok) : c.Keeps c.prev := by
  have hs := @keeps_step c h EntryIter.prev fun _ => rfl
  simp only [prev]
  split_ifs at hs ⊢
  all_goals first | exact hs | exact hs.trans (keeps_prevFile hs.2 _)

theorem keeps_seek (h : c.Ok) (target : InternalKey) : c.Keeps (c.seek target) := by
  simp only [seek]
  have ho := @keeps_openFile c h (bisect (fun i => c.run[i]?.any (·.check.largestKey < target))
    c.run.length) (EntryIter.seek · target) fun _ => rfl
  split_ifs
  · exact keeps_invalidate h
  · exact ho
  · exact ho.trans (keeps_next ho.2)

theorem Ok.entry_eq_some (h : c.Ok) (he : c.entry = some e) :
    ∃ it t, c.it = some it ∧ c.run[c.file]? = some t ∧ it.entries = t.entries ∧
      it.entry = some e := by
  obtain ⟨it, hit, he⟩ := bind_eq_some_iff.mp he
  obtain ⟨t, ht, hent⟩ := h.file it hit
  exact ⟨it, t, hit, ht, hent, he⟩

theorem isFirst_openFile [LinearOrder κ] {key : Entry → κ} (place : EntryIter → EntryIter)
    (ht : c.run[i]? = some t)
    (hfirst : IsFirst key (· ∈ t.entries) (place { entries := t.entries, place := 0 }).entry) :
    ∃ e, (c.openFile i place).entry = some e ∧ IsFirst key (· ∈ t.entries) (some e) := by
  rw [openFile_eq ht]
  cases he : (place { entries := t.entries, place := 0 }).entry with
  | none => exact absurd (head_mem t.nonempty) ((he ▸ hfirst) _)
  | some e => exact ⟨e, he, he ▸ hfirst⟩

theorem isFirst_nextFile (h : accepts c.run)
    (hle : ∀ j u x, j ≤ c.file → c.run[j]? = some u → x ∈ u.entries → ¬ P x)
    (hgt : ∀ j u x, c.file < j → c.run[j]? = some u → x ∈ u.entries → P x) :
    IsFirst Entry.ikey (fun x => c.All x ∧ P x)
      (c.nextFile (c.run.length - (c.file + 1))).entry := by
  cases ht : c.run[c.file + 1]? with
  | none =>
    have hlen := getElem?_eq_none_iff.mp ht
    rw [Nat.sub_eq_zero_of_le hlen]
    rintro x ⟨hx, hP⟩
    obtain ⟨j, u, hu, hxu⟩ := all_iff.mp hx
    have := (List.getElem?_eq_some_iff.mp hu).1
    exact hle j u x (by omega) hu hxu hP
  | some t =>
    have hlen := (List.getElem?_eq_some_iff.mp ht).1
    obtain ⟨e, he, hfirst⟩ := isFirst_openFile .seekToFirst ht (isFirst_zero t.sorted_ikey)
    obtain ⟨left, hleft⟩ : ∃ left, c.run.length - (c.file + 1) = left + 1 :=
      Nat.exists_eq_add_one.mpr (by omega)
    rw [hleft]
    simp only [nextFile, he, isSome_some, if_true]
    refine isFirst_of_file h ht (hfirst.congr fun x => ⟨fun hx => ⟨hx, ?_⟩, And.left⟩) ?_
    · exact hgt _ t x (Nat.lt_succ_self _) ht hx
    · exact fun j u x hj hu hx => hle j u x (Nat.lt_succ_iff.mp hj) hu hx

/-- Walking back to the file before finds the last version before this one. -/
theorem isLast_prevFile (h : accepts c.run) (hfile : c.file ≤ c.run.length)
    (hge : ∀ j u x, c.file ≤ j → c.run[j]? = some u → x ∈ u.entries → ¬ P x)
    (hlt : ∀ j u x, j < c.file → c.run[j]? = some u → x ∈ u.entries → P x) :
    IsLast Entry.ikey (fun x => c.All x ∧ P x) (c.prevFile c.file).entry := by
  cases hf : c.file with
  | zero =>
    rw [hf] at hge
    rintro x ⟨hx, hP⟩
    obtain ⟨j, u, hu, hxu⟩ := all_iff.mp hx
    exact hge j u x (Nat.zero_le j) hu hxu hP
  | succ i =>
    have hlen : i < c.run.length := by omega
    have ht := getElem?_eq_getElem hlen
    obtain ⟨e, he, hlast⟩ := isFirst_openFile .seekToLast ht (isLast_length (c.run[i]).sorted_ikey)
    have hi : c.file - 1 = i := by omega
    simp only [prevFile, hi, he, isSome_some, if_true]
    refine isLast_of_file h ht (hlast.congr fun x => ⟨fun hx => ⟨hx, ?_⟩, And.left⟩) ?_
    · exact hlt i _ x (by omega) ht hx
    · exact fun j u x hj hu hx => hge j u x (by omega) hu hx

section

variable (h : c.Ok)
include h

theorem isFirst_seekToFirst : IsFirst Entry.ikey c.All c.seekToFirst.entry := by
  cases ht : c.run[0]? with
  | none =>
    have hnil : c.run = [] := length_eq_zero_iff.mp (by simpa using ht)
    simp [seekToFirst, openFile, invalidate, entry, hnil, IsFirst, All]
  | some t =>
    obtain ⟨e, he, hfirst⟩ := isFirst_openFile .seekToFirst ht (isFirst_zero t.sorted_ikey)
    unfold seekToFirst
    rw [he]
    refine (isFirst_of_file h.accepts (P := fun _ => True) ht ?_ (by simp)).congr
      fun _ => and_iff_left trivial
    exact hfirst.congr fun _ => (and_iff_left trivial).symm

theorem isLast_seekToLast : IsLast Entry.ikey c.All c.seekToLast.entry := by
  cases ht : c.run[c.run.length - 1]? with
  | none =>
    have hlen := getElem?_eq_none_iff.mp ht
    have hnil : c.run = [] := length_eq_zero_iff.mp (by omega)
    simp [seekToLast, openFile, invalidate, entry, hnil, isLast_none, All]
  | some t =>
    obtain ⟨e, he, hlast⟩ := isFirst_openFile .seekToLast ht (isLast_length t.sorted_ikey)
    unfold seekToLast
    rw [he]
    refine (isLast_of_file h.accepts (P := fun _ => True) ht ?_ ?_).congr
      fun _ => and_iff_left trivial
    · exact hlast.congr fun _ => (and_iff_left trivial).symm
    · intro j u x hj hu
      have := (List.getElem?_eq_some_iff.mp hu).1
      omega

theorem isFirst_next (he : c.entry = some e) :
    IsFirst Entry.ikey (fun x => c.All x ∧ e.ikey < x.ikey) c.next.entry := by
  obtain ⟨it, t, hit, ht, hent, hite⟩ := h.entry_eq_some he
  have hs : it.entries.Pairwise (Entry.ikey · < Entry.ikey ·) := hent ▸ t.sorted_ikey
  have hnext : IsFirst _ _ it.next.entry := isFirst_succ hs hite
  have hmem : e ∈ t.entries := hent ▸ mem_of_getElem? hite
  have hearlier : ∀ j u x, j < c.file → c.run[j]? = some u → x ∈ u.entries → ¬ e.ikey < x.ikey :=
    fun j u x hj hu hx => (lt_of_files h.accepts hu ht hj hx hmem).not_gt
  unfold next
  simp only [he, isSome_some, if_true, hit, map_some]
  cases hn : it.next.entry with
  | some e' =>
    have hsome : entry { c with it := some it.next } = some e' := hn
    rw [hsome, isSome_some, if_pos rfl, hsome]
    exact isFirst_of_file h.accepts ht (by rw [← hent, ← hn]; exact hnext) hearlier
  | none =>
    have hnone : entry { c with it := some it.next } = none := hn
    rw [hnone, isSome_none, if_neg Bool.false_ne_true]
    refine isFirst_nextFile (c := { c with it := some it.next }) h.accepts ?_ ?_
    · intro j u x hj hu hx hlt
      rcases hj.lt_or_eq with hj | rfl
      · exact hearlier j u x hj hu hx hlt
      · cases ht.symm.trans hu
        rw [hn] at hnext
        exact hnext x ⟨hent ▸ hx, hlt⟩
    · exact fun j u x hj hu hx => lt_of_files h.accepts ht hu hj hmem hx

theorem isLast_prev (he : c.entry = some e) :
    IsLast Entry.ikey (fun x => c.All x ∧ x.ikey < e.ikey) c.prev.entry := by
  obtain ⟨it, t, hit, ht, hent, hite⟩ := h.entry_eq_some he
  have hs : it.entries.Pairwise (Entry.ikey · < Entry.ikey ·) := hent ▸ t.sorted_ikey
  have hprev : IsLast _ _ it.prev.entry := isLast_pred hs hite
  have hmem : e ∈ t.entries := hent ▸ mem_of_getElem? hite
  have hlater : ∀ j u x, c.file < j → c.run[j]? = some u → x ∈ u.entries → ¬ x.ikey < e.ikey :=
    fun j u x hj hu hx => (lt_of_files h.accepts ht hu hj hmem hx).not_gt
  unfold prev
  simp only [he, isSome_some, if_true, hit, map_some]
  cases hn : it.prev.entry with
  | some e' =>
    have hsome : entry { c with it := some it.prev } = some e' := hn
    rw [hsome, isSome_some, if_pos rfl, hsome]
    exact isLast_of_file h.accepts ht (by rw [← hent, ← hn]; exact hprev) hlater
  | none =>
    have hnone : entry { c with it := some it.prev } = none := hn
    have hfile := (List.getElem?_eq_some_iff.mp ht).1.le
    rw [hnone, isSome_none, if_neg Bool.false_ne_true, if_neg hfile.not_gt]
    refine isLast_prevFile (c := { c with it := some it.prev }) h.accepts hfile ?_ ?_
    · intro j u x hj hu hx hlt
      rcases hj.lt_or_eq with hj | rfl
      · exact hlater j u x hj hu hx hlt
      · cases ht.symm.trans hu
        rw [hn] at hprev
        exact hprev x ⟨hent ▸ hx, hlt⟩
    · exact fun j u x hj hu hx => lt_of_files h.accepts hu ht hj hx hmem

theorem isFirst_seek (target : InternalKey) :
    IsFirst Entry.ikey (fun x => c.All x ∧ target ≤ x.ikey) (c.seek target).entry := by
  have hpair := accepts_iff.mp h.accepts
  -- The largest keys ascend with the files, so those below the target are a lower part.
  have hdown : ∀ i j, i ≤ j → j < c.run.length →
      c.run[j]?.any (·.check.largestKey < target) →
      c.run[i]?.any (·.check.largestKey < target) := by
    intro i j hij hj hlt
    rcases hij.lt_or_eq with hij | rfl
    · have hi := hij.trans hj
      simp only [getElem?_eq_getElem hi, getElem?_eq_getElem hj, any_some,
        decide_eq_true_eq] at hlt ⊢
      exact (pairwise_iff_getElem.mp hpair i j hi hj hij).trans_le
        (c.run[j].smallest_le_largest.trans hlt.le)
    · exact hlt
  obtain ⟨hle, hlo⟩ := bisect_spec hdown
  set lo := bisect (fun i => c.run[i]?.any (·.check.largestKey < target)) c.run.length with hlodef
  have hbelow : ∀ j u x, j < lo → c.run[j]? = some u → x ∈ u.entries → ¬ target ≤ x.ikey := by
    intro j u x hj hu hx hge
    have hlt := (hlo j (List.getElem?_eq_some_iff.mp hu).1).mpr hj
    rw [hu, any_some, decide_eq_true_eq] at hlt
    exact ((u.bounds.upper x hx).trans_lt hlt).not_ge hge
  unfold seek
  dsimp only
  rw [← hlodef]
  split_ifs with hend hsome
  · rintro x ⟨hx, hge⟩
    obtain ⟨j, u, hu, hxu⟩ := all_iff.mp hx
    exact hbelow j u x ((List.getElem?_eq_some_iff.mp hu).1.trans_le hend) hu hxu hge
  · have ht := getElem?_eq_getElem (not_le.mp hend)
    obtain ⟨e, he⟩ := isSome_iff_exists.mp hsome
    rw [he]
    refine isFirst_of_file h.accepts ht ?_ hbelow
    rw [← he, openFile_eq ht]
    exact isFirst_findIdx c.run[lo].sorted_ikey target
  · have hlen := not_le.mp hend
    have ht := getElem?_eq_getElem hlen
    -- The file the search chose ends below the target, so the next file begins above it.
    have hfile := isFirst_findIdx c.run[lo].sorted_ikey target
    have hnone : (c.openFile lo (EntryIter.seek · target)).entry = none := by simpa using hsome
    have hge : ¬ c.run[lo].check.largestKey < target := fun hlt =>
      lt_irrefl lo ((hlo lo hlen).mp (by simpa [ht] using hlt))
    unfold next
    simp only [hnone, isSome_none, Bool.false_eq_true, if_false]
    rw [openFile_eq ht] at hnone ⊢
    refine isFirst_nextFile (c := { c with file := lo, it := _ }) h.accepts ?_ ?_
    · intro j u x hj hu hx hle
      rcases hj.lt_or_eq with hj | rfl
      · exact hbelow j u x hj hu hx hle
      · cases ht.symm.trans hu
        have hnone' : c.run[lo].entries[c.run[lo].entries.findIdx fun e => !(e.ikey < target)]? = none :=
          hnone
        rw [hnone'] at hfile
        exact hfile x ⟨hx, hle⟩
    · intro j u x hj hu hx
      have hju := (List.getElem?_eq_some_iff.mp hu)
      have hlt := pairwise_iff_getElem.mp hpair lo j hlen hju.1 hj
      rw [hju.2] at hlt
      exact (not_lt.mp hge).trans (hlt.le.trans (u.bounds.lower x hx))

end

end ConcatIter

end Rift.Engine
