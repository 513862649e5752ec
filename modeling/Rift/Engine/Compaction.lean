import Rift.Engine.Builder
import Rift.Engine.MergedIter

/-!
# Compaction

`RunCompaction` of `engine-cpp/src/compaction.cc` reads the merged inputs and decides which versions and
which range tombstones are still needed; `TableRoller` of `db.cc` writes what is left into tables of a
bounded size. A file ends only at a new user key, and each tombstone is clipped to the files it spans.
Every assertion on the way is `none` when it fails.
-/

namespace Rift.Engine

open List
open Option (bind_eq_some_iff)

/-! ### The inputs -/

/-- Read a merge to its end, consuming at most so many versions. -/
def MergedIter.drain : ℕ → MergedIter → Option (List Entry)
  | 0, m => if m.entry.isSome then none else some []
  | left + 1, m =>
    match m.entry with
    | none => some []
    | some e => do
      let m ← m.next
      return e :: (← m.drain left)

section

variable {contents : List (List Entry)} {m : MergedIter} {o : Option Entry}

theorem MergedIter.Over.ikey_inj (hover : m.Over contents) (hapart : Apart contents) {x y : Entry}
    (hx : x ∈ contents.flatten) (hy : y ∈ contents.flatten) (h : x.ikey = y.ikey) : x = y := by
  obtain ⟨s, hs, hx⟩ := hover.mem_flatten.mp hx
  obtain ⟨s', hs', hy⟩ := hover.mem_flatten.mp hy
  obtain ⟨i, hi⟩ := mem_iff_getElem?.mp hs
  obtain ⟨j, hj⟩ := mem_iff_getElem?.mp hs'
  by_cases hij : j = i
  · subst hij
    cases hi.symm.trans hj
    have hnodup : (s.entries.map Entry.ikey).Nodup :=
      pairwise_map.mpr ((hover.ok s hs).pairwise.imp ne_of_lt)
    exact inj_on_of_nodup_map hnodup hx hy h
  · exact absurd h (ne_ikey_of_ne hapart hover hi hj hij hx hy)

theorem MergedIter.drain_from (hapart : Apart contents) {left : ℕ} {rest : Entry → Bool}
    (hup : ∀ x y : Entry, rest x → x.ikey ≤ y.ikey → rest y) (hm : m.Stands contents o)
    (hfirst : IsFirst Entry.ikey (fun x => x ∈ contents.flatten ∧ rest x) o)
    (hleft : (contents.flatten.filter rest).length ≤ left) :
    ∃ l, m.drain left = some l ∧ l.Pairwise Entry.Lt ∧
      ∀ x, x ∈ l ↔ x ∈ contents.flatten ∧ rest x := by
  induction left generalizing m o rest with
  | zero =>
    -- Nothing is left, so the merge stands on nothing.
    have hnone : ∀ x, ¬ (x ∈ contents.flatten ∧ rest x) := fun x hx =>
      not_mem_nil (eq_nil_of_length_eq_zero (Nat.le_zero.mp hleft) ▸
        mem_filter.mpr hx)
    cases o with
    | none =>
      refine ⟨[], by simp [drain, hm.entry], .nil, fun x => ?_⟩
      simpa using fun hx => (not_and.mp (hnone x)) hx
    | some e => exact absurd hfirst.1 (hnone e)
  | succ left ih =>
    cases o with
    | none =>
      refine ⟨[], by simp [drain, hm.entry], .nil, fun x => ?_⟩
      simpa using fun hx => (not_and.mp (hfirst x)) hx
    | some e =>
      obtain ⟨⟨hemem, herest⟩, hmin⟩ := hfirst
      obtain ⟨m', o', hnext, hm', hfirst'⟩ := stands_next hapart hm
      have hsub : contents.flatten.filter (fun x => e.ikey < x.ikey) =
          (contents.flatten.filter rest).filter fun x => e.ikey < x.ikey := by
        rw [filter_filter]
        refine filter_congr fun x _ => ?_
        by_cases hlt : e.ikey < x.ikey
        · simp [hlt, hup e x herest hlt.le]
        · simp [hlt]
      have hlt : (contents.flatten.filter fun x => e.ikey < x.ikey).length ≤ left := by
        have := @List.length_filter_lt_length_iff_exists Entry (fun x => e.ikey < x.ikey)
          (contents.flatten.filter rest) |>.mpr
          ⟨e, mem_filter.mpr ⟨hemem, herest⟩, by simp⟩
        rw [hsub]
        omega
      obtain ⟨l, hl, hsorted, hmem⟩ := @ih _ _ (fun x => e.ikey < x.ikey)
        (by simpa using fun x y hx hxy => lt_of_lt_of_le hx hxy) hm' (by simpa using hfirst') hlt
      simp only [decide_eq_true_eq] at hmem
      refine ⟨e :: l, by simp [drain, hm.entry, hnext, hl], ?_, fun x => ?_⟩
      · refine pairwise_cons.mpr ⟨fun x hx => ?_, hsorted⟩
        exact Entry.lt_iff_ikey.mpr ((hmem x).mp hx).2
      · rw [mem_cons, hmem]
        constructor
        · rintro (rfl | ⟨hx, hlt⟩)
          · exact ⟨hemem, herest⟩
          · exact ⟨hx, hup e x herest hlt.le⟩
        · rintro ⟨hx, hr⟩
          rcases (hmin x ⟨hx, hr⟩).lt_or_eq with hlt | heq
          · exact .inr ⟨hx, hlt⟩
          · exact .inl (hm.isOver.ikey_inj hapart hx hemem heq.symm)

/-- The versions of some sources in the internal key order. -/
def merged (contents : List (List Entry)) : List Entry :=
  contents.flatten.insertionSort fun a b => a.ikey ≤ b.ikey

theorem mem_merged {e : Entry} : e ∈ merged contents ↔ e ∈ contents.flatten :=
  (perm_insertionSort _ _).mem_iff

theorem MergedIter.Over.nodup (hover : m.Over contents) (hapart : Apart contents) :
    contents.flatten.Nodup := by
  refine nodup_flatten.mpr ⟨fun l hl => ?_, hapart.imp fun h x hx hy => h x hx x hy rfl⟩
  obtain ⟨s, hs, rfl⟩ := mem_map.mp (hover.entries ▸ hl)
  exact (hover.ok s hs).pairwise.imp fun h heq => (heq ▸ h).false

/-- The inputs come in the internal key order, each once, and the bound is not passed. -/
theorem MergedIter.drain_eq (hapart : Apart contents) (hover : m.Over contents) :
    m.seekToFirst.drain contents.flatten.length = some (merged contents) ∧
      (merged contents).Pairwise Entry.Lt := by
  obtain ⟨o, hm, hfirst⟩ := stands_seekToFirst hover
  obtain ⟨l, hl, hs, hmem⟩ := @drain_from _ _ o hapart contents.flatten.length (fun _ => true)
    (by simp) hm (hfirst.congr fun _ => (and_iff_left rfl).symm) (length_filter_le _ _)
  have hlt : l.Pairwise (Entry.ikey · < Entry.ikey ·) := hs.imp Entry.lt_iff_ikey.mp
  have hperm : l.Perm (merged contents) := by
    refine Perm.trans ?_ (perm_insertionSort _ _).symm
    refine (perm_ext_iff_of_nodup (hlt.imp fun h heq => (heq ▸ h).false) (hover.nodup hapart)).mpr ?_
    exact fun x => (hmem x).trans (and_iff_left rfl)
  have : Std.Total fun a b : Entry => a.ikey ≤ b.ikey := ⟨fun a b => le_total a.ikey b.ikey⟩
  have : IsTrans Entry fun a b => a.ikey ≤ b.ikey := ⟨fun _ _ _ => le_trans⟩
  obtain rfl : l = merged contents := hperm.eq_of_pairwise (fun x y hx hy hxy hyx =>
      hover.ikey_inj hapart ((hmem x).mp hx).1 (mem_merged.mp hy) (le_antisymm hxy hyx))
    (hlt.imp le_of_lt) (pairwise_insertionSort _ _)
  exact ⟨hl, hs⟩

end

/-! ### The drop rule -/

/-- What a compaction decides by: the observable sequences, whether anything lies below the outputs,
the sequence that has to survive, and the tombstones of the inputs. -/
structure Compaction where
  observable : List ℕ
  bottomMost : Bool
  pinSeq : ℕ
  tombstones : List MemRange

/-- The sequences ascend, so the first one decides. -/
def anyObservableBelow (s : List ℕ) (q : ℕ) : Bool := s.head?.any (· < q)

/-- The version before, for the one at hand. -/
structure DropState where
  currentKey : Option Slice := none
  newerSeq : ℕ := kMaxSeqNum + 1
  pinSatisfied : Bool := false

namespace Compaction

variable (c : Compaction)

/-- Whether a value is seen at some observable sequence: it is the newest version there, and no
tombstone hides it. -/
def seen (newerSeq : ℕ) (e : Entry) : List ℕ → Bool
  | [] => false
  | s :: ss =>
    if s < e.seq then seen newerSeq e ss
    else if newerSeq ≤ s then false
    else if e.seq < newestCovering c.tombstones e.key s then seen newerSeq e ss
    else true

/-- A deletion is kept while it may hide something below. -/
def keeps (newerSeq : ℕ) (e : Entry) : Bool :=
  match e.type with
  | .value => c.seen newerSeq e c.observable
  | .deletion => !c.bottomMost || anyObservableBelow c.observable e.seq

/-- Decide one version. One version at the largest sequence is kept in any case. What is kept goes out
with a mark that says whether it is the first of its user key. -/
def step (st : DropState) (e : Entry) : DropState × Option (Entry × Bool) :=
  let newerSeq := if st.currentKey = some e.key then st.newerSeq else kMaxSeqNum + 1
  let keep := c.keeps newerSeq e || e.seq = c.pinSeq && !st.pinSatisfied
  ({ currentKey := some e.key
     newerSeq := e.seq
     pinSatisfied := st.pinSatisfied || e.seq = c.pinSeq && keep },
    if keep then some (e, newerSeq = kMaxSeqNum + 1) else none)

/-- What goes out. -/
def emit (st : DropState) : List Entry → List (Entry × Bool)
  | [] => []
  | e :: es => (c.step st e).2.toList ++ emit (c.step st e).1 es

/-- A tombstone goes when nothing lies below it that anyone could see. -/
def survivors : List MemRange :=
  c.tombstones.filter fun t => !(c.bottomMost && !anyObservableBelow c.observable t.seq)

variable {c} {st : DropState} {es : List Entry} {p : Entry × Bool}

theorem step_snd {e : Entry} (h : p ∈ (c.step st e).2) :
    p.1 = e ∧ (p.2 → st.currentKey = some e.key → st.newerSeq = kMaxSeqNum + 1) := by
  simp only [step] at h
  split_ifs at h with hk hkey
  · cases h
    exact ⟨rfl, fun hb _ => by simpa using hb⟩
  · cases h
  · cases h
    exact ⟨rfl, fun _ hkey => absurd hkey ‹_›⟩
  · cases h

theorem emit_sublist : ((c.emit st es).map Prod.fst).Sublist es := by
  induction es generalizing st with
  | nil => exact .slnil
  | cons e es ih =>
    rw [emit, map_append]
    cases hs : (c.step st e).2 with
    | none => exact ih.cons e
    | some p =>
      have hp := (step_snd (Option.mem_def.mpr hs)).1
      simpa [hp] using ih

theorem currentKey_lt_of_mem_emit (hs : es.Pairwise Entry.Lt)
    (hlegal : ∀ e ∈ es, e.seq ≤ kMaxSeqNum) (hkey : ∀ k ∈ st.currentKey, ∀ e ∈ es, k ≤ e.key)
    (hnewer : st.currentKey ≠ none → st.newerSeq ≤ kMaxSeqNum) (hp : p ∈ c.emit st es) (hb : p.2) :
    ∀ k ∈ st.currentKey, k < p.1.key := by
  induction es generalizing st with
  | nil => cases hp
  | cons e es ih =>
    intro k hk
    have hke := hkey k hk e mem_cons_self
    rcases mem_append.mp hp with hp | hp
    · obtain ⟨rfl, hfirst⟩ := step_snd (Option.mem_toList.mp hp)
      refine hke.lt_of_ne fun heq => ?_
      have := hnewer (Option.ne_none_iff_exists'.mpr ⟨k, hk⟩)
      have := hfirst hb (heq ▸ hk)
      omega
    · refine hke.trans_lt (ih hs.of_cons (fun x hx => hlegal x (mem_cons_of_mem _ hx)) ?_ ?_ hp
        e.key rfl)
      · rintro _ ⟨rfl⟩ x hx
        exact (Entry.lt_iff.mp ((pairwise_cons.mp hs).1 x hx)).elim le_of_lt fun h => h.1.le
      · exact fun _ => hlegal e mem_cons_self

theorem pairwise_emit (hs : es.Pairwise Entry.Lt) (hlegal : ∀ e ∈ es, e.seq ≤ kMaxSeqNum) :
    (c.emit st es).Pairwise fun p q => Entry.Lt p.1 q.1 ∧ (q.2 → p.1.key < q.1.key) := by
  induction es generalizing st with
  | nil => exact .nil
  | cons e es ih =>
    obtain ⟨he, hs'⟩ := pairwise_cons.mp hs
    have hlegal' : ∀ x ∈ es, x.seq ≤ kMaxSeqNum := fun x hx => hlegal x (mem_cons_of_mem _ hx)
    have hrest := @ih (c.step st e).1 hs' hlegal'
    rw [emit]
    cases hp : (c.step st e).2 with
    | none => exact hrest
    | some p =>
      refine pairwise_cons.mpr ⟨fun q hq => ?_, hrest⟩
      obtain rfl : p.1 = e := (step_snd (Option.mem_def.mpr hp)).1
      refine ⟨he q.1 (emit_sublist.subset (mem_map_of_mem hq)), fun hb => ?_⟩
      refine currentKey_lt_of_mem_emit hs' hlegal' ?_ (fun _ => ?_) hq hb p.1.key rfl
      · rintro _ ⟨rfl⟩ x hx
        exact (Entry.lt_iff.mp (he x hx)).elim le_of_lt fun h => h.1.le
      · exact hlegal p.1 mem_cons_self

end Compaction

/-! ### The outputs -/

/-- Where a tombstone starts in a file. -/
def MemRange.clipStart (fileStart : Option Slice) (r : MemRange) : Slice :=
  match fileStart with
  | some s => if r.start < s then s else r.start
  | none => r.start

/-- The part of a tombstone that lies in one file: from the first key of the file on, and below the
first key of the next file. The last file has none after it, and there a tombstone without an end
stays without one. -/
def MemRange.clip (fileStart boundary : Option Slice) (r : MemRange) : Option MemRange :=
  let lo := r.clipStart fileStart
  match boundary with
  | none =>
    if r.endUnbounded then some { r with start := lo }
    else if lo < r.fin then some { r with start := lo } else none
  | some b =>
    let hi := if r.endUnbounded then b else if b < r.fin then b else r.fin
    if lo < hi then some { start := lo, fin := hi, seq := r.seq } else none

/-- The outputs of a compaction while they are written. -/
structure TableRoller where
  maxBytes : ℕ
  nextFileNumber : ℕ
  tombstones : List MemRange := []
  outputs : List Table := []
  builder : Option (ℕ × TableBuilder) := none
  /-- The first user key of the open file. -/
  fileStart : Option Slice := none

namespace TableRoller

variable (r : TableRoller)

def setTombstones (tombstones : List MemRange) : TableRoller :=
  { r with tombstones := sortRanges tombstones }

def openNext : TableRoller :=
  { r with
    builder := some (r.nextFileNumber, .new)
    nextFileNumber := r.nextFileNumber + 1 }

def closeCurrent (boundary : Option Slice) : Option TableRoller := do
  let (number, b) ← r.builder
  let b ← (r.tombstones.filterMap (MemRange.clip r.fileStart boundary)).foldlM
    TableBuilder.addRangeTombstone b
  let t ← b.finish number
  return { r with outputs := r.outputs ++ [t], builder := none, fileStart := none }

/-- A full file is closed before a new user key. -/
def roll (e : Entry) (boundary : Bool) : Option TableRoller :=
  if r.builder.any fun p => boundary && r.maxBytes ≤ p.2.offset then r.closeCurrent (some e.key)
  else some r

/-- A file is open for the version. -/
def opened (e : Entry) : TableRoller :=
  if r.builder.isNone then { r.openNext with fileStart := some e.key } else r

def add (e : Entry) (boundary : Bool) : Option TableRoller := do
  let r ← r.roll e boundary
  let r := r.opened e
  let (number, b) ← r.builder
  let b ← b.add e
  return { r with builder := some (number, b) }

/-- Close the last file. A file that was never opened is opened for the tombstones alone. -/
def finish : Option TableRoller :=
  if r.builder.isNone then
    if r.tombstones.isEmpty then some r
    else TableRoller.closeCurrent { r.openNext with fileStart := none } none
  else r.closeCurrent none

end TableRoller

/-- Read the inputs, drop what nobody needs, and write the rest. -/
def Compaction.run (c : Compaction) (bound : ℕ) (merge : MergedIter) (r : TableRoller) :
    Option TableRoller := do
  if c.observable.Pairwise (· < ·) then
    let es ← merge.seekToFirst.drain bound
    let r ← (c.emit {} es).foldlM (fun r p => r.add p.1 p.2) (r.setTombstones c.survivors)
    r.finish
  else none

/-! ### What the outputs hold -/

variable {next : Option Slice}

namespace Table

/-- The first user key among the versions. -/
def firstKey (t : Table) : Slice := (t.entries.head t.nonempty).key

/-- A table holds its part of the tombstones, and its versions lie below the next table. -/
structure Piece (tombstones : List MemRange) (next : Option Slice) (t : Table) : Prop where
  clipped : t.tombstones = tombstones.filterMap (MemRange.clip (some t.firstKey) next)
  below : ∀ k ∈ next, ∀ e ∈ t.entries, e.key < k

/-- Tables follow one another, and the last is followed by `next`. -/
def Links (tombstones : List MemRange) (next : Option Slice) : List Table → Prop
  | [] => True
  | t :: ts => t.Piece tombstones ((ts.head?.map firstKey).or next) ∧ Links tombstones next ts

theorem Links.concat {tombstones : List MemRange} {t : Table} {ts : List Table}
    (h : Links tombstones (some t.firstKey) ts) (ht : t.Piece tombstones next) :
    Links tombstones next (ts ++ [t]) := by
  induction ts with
  | nil => exact ⟨ht, trivial⟩
  | cons u us ih =>
    refine ⟨?_, ih h.2⟩
    have hnext : ((us ++ [t]).head?.map firstKey).or next =
        (us.head?.map firstKey).or (some t.firstKey) := by
      cases us <;> rfl
    exact hnext ▸ h.1

end Table

namespace TableRoller

/-- What has been written, and what stands in the open file. A file is opened only for a version. -/
def Inv (r : TableRoller) (done : List Entry) : Prop :=
  match r.builder with
  | none => r.outputs = [] ∧ done = []
  | some (_, b) => ∃ h : b.entries ≠ [],
      r.fileStart = some (b.entries.head h).key ∧ b.tombstones = [] ∧
      Table.Links r.tombstones (some (b.entries.head h).key) r.outputs ∧
      r.outputs.flatMap (·.entries) ++ b.entries = done

variable {r r' : TableRoller} {done : List Entry} {e : Entry} {boundary : Bool} {b : TableBuilder}
  {ps : List (Entry × Bool)} {number : ℕ}

theorem inv_some (hb : r.builder = some (number, b)) :
    r.Inv done ↔ ∃ h : b.entries ≠ [],
      r.fileStart = some (b.entries.head h).key ∧ b.tombstones = [] ∧
      Table.Links r.tombstones (some (b.entries.head h).key) r.outputs ∧
      r.outputs.flatMap (·.entries) ++ b.entries = done := by
  simp only [Inv, hb]

theorem inv_none (hb : r.builder = none) : r.Inv done ↔ r.outputs = [] ∧ done = [] := by
  simp only [Inv, hb]

theorem inv_setTombstones (hb : r.builder = none) (ho : r.outputs = []) (ts : List MemRange) :
    (r.setTombstones ts).Inv [] :=
  (@inv_none (r.setTombstones ts) [] hb).mpr ⟨ho, rfl⟩

theorem closeCurrent_spec (hb : r.builder = some (number, b)) (hi : r.Inv done)
    (hbelow : ∀ k ∈ next, ∀ x ∈ done, x.key < k) (h : r.closeCurrent next = some r') :
    r'.builder = none ∧ r'.tombstones = r.tombstones ∧ r'.outputs.flatMap (·.entries) = done ∧
      Table.Links r.tombstones next r'.outputs := by
  obtain ⟨hne, hstart, htombs, hlinks, rfl⟩ := (inv_some hb).mp hi
  simp only [closeCurrent, hb, Option.bind_eq_bind, Option.bind_some] at h
  obtain ⟨b', hb', h⟩ := bind_eq_some_iff.mp h
  obtain ⟨t, ht, h⟩ := bind_eq_some_iff.mp h
  cases h
  obtain ⟨he', ht'⟩ := TableBuilder.foldlM_addRangeTombstone_eq_some hb'
  obtain ⟨he, htt, -⟩ := TableBuilder.finish_eq_some ht
  have hentries : t.entries = b.entries := he.trans he'
  have hfirst : t.firstKey = (b.entries.head hne).key := by
    simp only [Table.firstKey, hentries]
  refine ⟨rfl, rfl, by simp [hentries], ?_⟩
  refine Table.Links.concat (hfirst ▸ hlinks) ⟨?_, fun k hk x hx => ?_⟩
  · rw [htt, ht', htombs, nil_append, hfirst, hstart]
  · exact hbelow k hk x (mem_append_right _ (hentries ▸ hx))

theorem add_spec (hi : r.Inv done) (hnew : boundary → ∀ x ∈ done, x.key < e.key)
    (h : r.add e boundary = some r') :
    r'.Inv (done ++ [e]) ∧ r'.tombstones = r.tombstones := by
  obtain ⟨r₁, h₁, h⟩ := bind_eq_some_iff.mp h
  obtain ⟨⟨number, b⟩, hb, h⟩ := bind_eq_some_iff.mp h
  obtain ⟨b', hb', h⟩ := bind_eq_some_iff.mp h
  cases h
  obtain ⟨he, ht⟩ := TableBuilder.add_eq_some hb'
  -- Either a file was open and stays open, or the version opens a new one.
  have hopen : (r₁.builder = some (number, b) ∧ r₁.Inv done ∧ r₁.tombstones = r.tombstones) ∨
      (r₁.builder = none ∧ r₁.tombstones = r.tombstones ∧
        r₁.outputs.flatMap (·.entries) = done ∧
        Table.Links r.tombstones (some e.key) r₁.outputs) := by
    unfold roll at h₁
    split_ifs at h₁ with hroll
    · obtain ⟨⟨number', b₀⟩, hb₀, hfull⟩ := (Option.any_eq_true _ _).mp hroll
      have hnew := hnew (Bool.and_eq_true _ _ |>.mp hfull).1
      exact .inr (closeCurrent_spec hb₀ hi (by rintro _ ⟨rfl⟩; exact hnew) h₁)
    · cases h₁
      cases hr : r.builder with
      | none =>
        obtain ⟨ho, rfl⟩ := (inv_none hr).mp hi
        exact .inr ⟨rfl, rfl, by simp [ho], by simp [ho, Table.Links]⟩
      | some p =>
        refine .inl ⟨?_, hi, rfl⟩
        simpa [opened, hr] using hb
  rcases hopen with ⟨hb₁, hi₁, ht₁⟩ | ⟨hb₁, ht₁, hout, hlinks⟩
  · have hr₁ : r₁.opened e = r₁ := by simp [opened, hb₁]
    obtain ⟨hne, hstart, htombs, hlinks, rfl⟩ := (inv_some hb₁).mp hi₁
    have hne' : b'.entries ≠ [] := by simp [he]
    have hhead : (b'.entries.head hne').key = (b.entries.head hne).key := by
      simp only [he, head_append_of_ne_nil hne]
    rw [hr₁]
    refine ⟨⟨hne', ?_, ht.trans htombs, ?_, ?_⟩, ht₁⟩
    · rw [hhead]; exact hstart
    · rw [hhead]; exact hlinks
    · simp [he]
  · have hr₁ : r₁.opened e = { r₁.openNext with fileStart := some e.key } := by simp [opened, hb₁]
    rw [hr₁] at hb ⊢
    cases hb
    have he' : b'.entries = [e] := by simpa using he
    refine ⟨⟨by simp [he'], by simp [he'], by simpa using ht, ?_, ?_⟩, ht₁⟩
    · simpa [he', openNext, ht₁] using hlinks
    · simp [openNext, hout, he']

theorem foldlM_add_spec (hi : r.Inv done) (hdone : ∀ p ∈ ps, p.2 → ∀ x ∈ done, x.key < p.1.key)
    (hnew : ps.Pairwise fun p q => q.2 → p.1.key < q.1.key)
    (h : ps.foldlM (fun r p => r.add p.1 p.2) r = some r') :
    r'.Inv (done ++ ps.map Prod.fst) ∧ r'.tombstones = r.tombstones := by
  induction ps generalizing r done with
  | nil =>
    cases h
    exact ⟨by simpa using hi, rfl⟩
  | cons p ps ih =>
    rw [foldlM_cons] at h
    obtain ⟨r₁, h₁, h⟩ := bind_eq_some_iff.mp h
    obtain ⟨hp, hnew⟩ := pairwise_cons.mp hnew
    obtain ⟨hi₁, ht₁⟩ := add_spec hi (hdone p mem_cons_self) h₁
    obtain ⟨hi', ht'⟩ := ih hi₁ (fun q hq hb x hx => (mem_append.mp hx).elim
      (hdone q (mem_cons_of_mem _ hq) hb x) fun hx => mem_singleton.mp hx ▸ hp q hq hb)
      hnew h
    exact ⟨by simpa using hi', ht'.trans ht₁⟩

/-- A file without a version is refused. -/
theorem closeCurrent_openNext
    (h : TableRoller.closeCurrent { r.openNext with fileStart := none } next = some r') : False := by
  simp only [closeCurrent, openNext, Option.bind_eq_bind, Option.bind_some] at h
  obtain ⟨b, hb, h⟩ := bind_eq_some_iff.mp h
  obtain ⟨t, ht, -⟩ := bind_eq_some_iff.mp h
  have := (TableBuilder.foldlM_addRangeTombstone_eq_some hb).1
  exact absurd ((TableBuilder.finish_eq_some ht).1.trans this) t.nonempty

theorem finish_spec (hi : r.Inv done) (h : r.finish = some r') :
    r'.outputs.flatMap (·.entries) = done ∧ Table.Links r.tombstones none r'.outputs := by
  unfold finish at h
  split_ifs at h with hb ht
  · cases h
    obtain ⟨ho, rfl⟩ := (inv_none (Option.isNone_iff_eq_none.mp hb)).mp hi
    exact ⟨by simp [ho], by simp [ho, Table.Links]⟩
  · exact (closeCurrent_openNext h).elim
  · obtain ⟨⟨number, b⟩, hb⟩ := Option.ne_none_iff_exists'.mp
      (mt Option.isNone_iff_eq_none.mpr hb)
    obtain ⟨-, -, ho, hlinks⟩ := closeCurrent_spec hb hi (by simp) h
    exact ⟨ho, hlinks⟩

/-! ### Nothing to clip -/

theorem exists_closeCurrent (ht : r.tombstones = []) (hb : r.builder = some (number, b))
    (hi : r.Inv done) (next : Option Slice) : ∃ r', r.closeCurrent next = some r' := by
  obtain ⟨hne, -⟩ := (inv_some hb).mp hi
  obtain ⟨t, hfin⟩ := TableBuilder.exists_finish hne number
  exact Option.isSome_iff_exists.mp (by simp [closeCurrent, hb, ht, hfin])

theorem exists_add (ht : r.tombstones = []) (hi : r.Inv done) (hs : ∀ x ∈ done, Entry.Lt x e)
    (hseq : e.seq ≤ kMaxSeqNum) : ∃ r', r.add e boundary = some r' := by
  obtain ⟨r₁, h₁⟩ : ∃ r₁, r.roll e boundary = some r₁ := by
    unfold roll
    split_ifs with hroll
    · obtain ⟨⟨number, b⟩, hb, -⟩ := (Option.any_eq_true _ _).mp hroll
      exact exists_closeCurrent ht hb hi _
    · exact ⟨r, rfl⟩
  have hopen : ∃ number b, (r₁.opened e).builder = some (number, b) ∧
      ∀ x ∈ b.entries, Entry.Lt x e := by
    unfold opened
    split_ifs with hb
    · exact ⟨_, _, rfl, by simp⟩
    · obtain ⟨⟨number, b⟩, hb⟩ := Option.ne_none_iff_exists'.mp (mt Option.isNone_iff_eq_none.mpr hb)
      refine ⟨number, b, hb, fun x hx => hs x ?_⟩
      unfold roll at h₁
      split_ifs at h₁
      · obtain ⟨p, hp, h₁⟩ := bind_eq_some_iff.mp h₁
        obtain ⟨b₁, -, h₁⟩ := bind_eq_some_iff.mp h₁
        obtain ⟨t, -, h₁⟩ := bind_eq_some_iff.mp h₁
        cases h₁
        cases hb
      · cases h₁
        obtain ⟨-, -, -, -, rfl⟩ := (inv_some hb).mp hi
        exact mem_append_right _ hx
  obtain ⟨number, b, hb, hlt⟩ := hopen
  obtain ⟨b', hb'⟩ := TableBuilder.exists_add hseq hlt
  exact Option.isSome_iff_exists.mp (by simp [add, h₁, hb, hb'])

theorem exists_foldlM_add (ht : r.tombstones = []) (hi : r.Inv done)
    (hdone : ∀ p ∈ ps, ∀ x ∈ done, Entry.Lt x p.1 ∧ (p.2 → x.key < p.1.key))
    (hs : ps.Pairwise fun p q => Entry.Lt p.1 q.1 ∧ (q.2 → p.1.key < q.1.key))
    (hseq : ∀ p ∈ ps, p.1.seq ≤ kMaxSeqNum) :
    ∃ r', ps.foldlM (fun r p => r.add p.1 p.2) r = some r' := by
  induction ps generalizing r done with
  | nil => exact ⟨r, rfl⟩
  | cons p ps ih =>
    obtain ⟨hp, hs⟩ := pairwise_cons.mp hs
    obtain ⟨r₁, h₁⟩ := @exists_add r done p.1 p.2 ht hi
      (fun x hx => (hdone p mem_cons_self x hx).1) (hseq p mem_cons_self)
    obtain ⟨hi₁, ht₁⟩ := add_spec hi (fun hb x hx => (hdone p mem_cons_self x hx).2 hb) h₁
    obtain ⟨r', h'⟩ := ih (ht₁.trans ht) hi₁ (fun q hq x hx => (mem_append.mp hx).elim
      (hdone q (mem_cons_of_mem _ hq) x) fun hx => mem_singleton.mp hx ▸ hp q hq)
      hs fun q hq => hseq q (mem_cons_of_mem _ hq)
    refine ⟨r', ?_⟩
    rw [foldlM_cons, h₁]
    exact h'

theorem exists_finish (ht : r.tombstones = []) (hi : r.Inv done) : ∃ r', r.finish = some r' := by
  unfold finish
  split_ifs with hb htb
  · exact ⟨r, rfl⟩
  · exact absurd (by simp [ht]) htb
  · obtain ⟨⟨number, b⟩, hb⟩ := Option.ne_none_iff_exists'.mp (mt Option.isNone_iff_eq_none.mpr hb)
    exact exists_closeCurrent ht hb hi none

/-! ### Where files begin -/

end TableRoller

/-- The versions at which a file begins after the first one: a version of a new user key, where those
before it fill the open file. -/
def rollPoints (maxBytes : ℕ) : Option TableBuilder → List (Entry × Bool) → List Entry
  | _, [] => []
  | b, (e, boundary) :: ps =>
    if b.any fun b => boundary && maxBytes ≤ b.offset then
      e :: rollPoints maxBytes (TableBuilder.new.add e) ps
    else rollPoints maxBytes ((b.getD .new).add e) ps

namespace TableRoller

variable {r r' : TableRoller} {e : Entry} {boundary : Bool} {ps : List (Entry × Bool)}

/-- The first versions of the files, the open one included. -/
def firsts (r : TableRoller) : List (Option Entry) :=
  r.outputs.map (·.entries.head?) ++ (r.builder.map (·.2.entries.head?)).toList

theorem firsts_closeCurrent (hc : r.closeCurrent next = some r') :
    r'.firsts = r.firsts ∧ r'.maxBytes = r.maxBytes ∧ r'.builder = none := by
  obtain ⟨⟨number, b⟩, hb, hc⟩ := bind_eq_some_iff.mp hc
  obtain ⟨b', hb', hc⟩ := bind_eq_some_iff.mp hc
  obtain ⟨t, ht, hc⟩ := bind_eq_some_iff.mp hc
  cases hc
  have hentries : t.entries = b.entries :=
    (TableBuilder.finish_eq_some ht).1.trans (TableBuilder.foldlM_addRangeTombstone_eq_some hb').1
  exact ⟨by simp [firsts, hb, hentries], rfl, rfl⟩

theorem firsts_add (hne : ∀ p ∈ r.builder, p.2.entries ≠ []) (ha : r.add e boundary = some r')
    (ps : List (Entry × Bool)) :
    r'.builder ≠ none ∧ (∀ p ∈ r'.builder, p.2.entries ≠ []) ∧
      r'.firsts ++ (rollPoints r'.maxBytes (r'.builder.map (·.2)) ps).map some =
        r.firsts ++ (if r.builder = none then [some e] else []) ++
          (rollPoints r.maxBytes (r.builder.map (·.2)) ((e, boundary) :: ps)).map some := by
  obtain ⟨r₁, h₁, ha⟩ := bind_eq_some_iff.mp ha
  obtain ⟨⟨number, b⟩, hb, ha⟩ := bind_eq_some_iff.mp ha
  obtain ⟨b', hb', ha⟩ := bind_eq_some_iff.mp ha
  cases ha
  have hentries := (TableBuilder.add_eq_some hb').1
  refine ⟨by simp, by simp [hentries], ?_⟩
  -- A version opens a file where none is open, be it that the roll has closed it.
  have hopen : r₁.builder = none → b = .new ∧ (r₁.opened e).outputs = r₁.outputs ∧
      (r₁.opened e).maxBytes = r₁.maxBytes := fun hnone => by
    simp only [opened, hnone, Option.isNone_none, if_pos, openNext, Option.some.injEq,
      Prod.mk.injEq, and_true] at hb ⊢
    exact hb.2.symm
  unfold roll at h₁
  split_ifs at h₁ with hroll
  · obtain ⟨hfirsts, hmax, hnone⟩ := firsts_closeCurrent h₁
    obtain ⟨rfl, hout, hmax'⟩ := hopen hnone
    have hsome : r.builder ≠ none := fun h => by simp [h] at hroll
    have hroll' : (r.builder.map (·.2)).any fun b => boundary && r.maxBytes ≤ b.offset := by
      simpa [Option.any_map, Function.comp_def] using hroll
    rw [if_neg hsome, rollPoints, if_pos hroll', hb', ← hfirsts]
    simp [firsts, hnone, hout, hentries, hmax', hmax]
  · cases h₁
    have hroll' : ¬ (r.builder.map (·.2)).any fun b => boundary && r.maxBytes ≤ b.offset := by
      simpa [Option.any_map, Function.comp_def] using hroll
    rw [rollPoints, if_neg hroll']
    cases hr : r.builder with
    | none =>
      obtain ⟨rfl, hout, hmax'⟩ := hopen hr
      simp [firsts, hr, hout, hentries, hmax', hb']
    | some p =>
      have hsame : r.opened e = r := by simp [opened, hr]
      rw [hsame] at hb ⊢
      cases hr.symm.trans hb
      have hhead : b'.entries.head? = b.entries.head? := by
        rw [hentries, head?_append_of_ne_nil _ (hne _ hb)]
      simp [firsts, hb, hb', hhead]

theorem firsts_foldlM_add (hne : ∀ p ∈ r.builder, p.2.entries ≠ [])
    (h : ps.foldlM (fun r p => r.add p.1 p.2) r = some r') :
    r'.firsts = r.firsts ++ (if r.builder = none then (ps.head?.map (some ·.1)).toList else []) ++
      (rollPoints r.maxBytes (r.builder.map (·.2)) ps).map some := by
  induction ps generalizing r with
  | nil =>
    cases h
    simp [rollPoints]
  | cons p ps ih =>
    rw [foldlM_cons] at h
    obtain ⟨r₁, h₁, h⟩ := bind_eq_some_iff.mp h
    obtain ⟨hsome, hne₁, hfirsts⟩ := firsts_add hne h₁ ps
    rw [ih hne₁ h, if_neg hsome, append_nil, hfirsts]
    rfl

theorem firsts_finish (h : r.finish = some r') : r'.outputs.map (·.entries.head?) = r.firsts ∧
    (r'.outputs = [] → r.tombstones = []) := by
  unfold finish at h
  split_ifs at h with hb ht
  · cases h
    simp [firsts, Option.isNone_iff_eq_none.mp hb, isEmpty_iff.mp ht]
  · exact (closeCurrent_openNext h).elim
  · obtain ⟨hfirsts, -, hnone⟩ := firsts_closeCurrent h
    obtain ⟨p, hp⟩ := Option.ne_none_iff_exists'.mp (mt Option.isNone_iff_eq_none.mpr hb)
    have hout : r'.outputs.map (·.entries.head?) = r.firsts := by
      rw [← hfirsts, firsts, hnone, Option.map_none, Option.toList_none, append_nil]
    refine ⟨hout, fun hnil => ?_⟩
    simp [hnil, firsts, hp] at hout

end TableRoller

/-! ### A whole compaction -/

namespace Compaction

variable {c : Compaction} {contents : List (List Entry)} {m : MergedIter} {r r' : TableRoller}

section

variable (hapart : MergedIter.Apart contents) (hover : m.Over contents)
  (hlegal : ∀ e ∈ contents.flatten, e.seq ≤ kMaxSeqNum) (hb : r.builder = none)
  (ho : r.outputs = [])
include hapart hover hlegal hb ho

theorem run_eq_some (h : c.run contents.flatten.length m r = some r') :
    (merged contents).Pairwise Entry.Lt ∧
      r'.outputs.flatMap (·.entries) = (c.emit {} (merged contents)).map Prod.fst ∧
      Table.Links (sortRanges c.survivors) none r'.outputs ∧
      r'.outputs.tail.map (·.entries.head?) =
        (rollPoints r.maxBytes none (c.emit {} (merged contents))).map some ∧
      (r'.outputs = [] → c.survivors = []) := by
  unfold run at h
  split_ifs at h
  obtain ⟨hdrain, hs⟩ := MergedIter.drain_eq hapart hover
  rw [hdrain, Option.bind_eq_bind, Option.bind_some] at h
  obtain ⟨r₁, h₁, h⟩ := bind_eq_some_iff.mp h
  have hinv := TableRoller.inv_setTombstones hb ho c.survivors
  have hpair := @pairwise_emit c {} _ hs fun e he => hlegal e (mem_merged.mp he)
  obtain ⟨hi₁, ht₁⟩ := TableRoller.foldlM_add_spec hinv (by simp) (hpair.imp And.right) h₁
  obtain ⟨hout, hlinks⟩ := TableRoller.finish_spec hi₁ h
  rw [nil_append] at hout
  rw [ht₁] at hlinks
  obtain ⟨hfirsts, hnil⟩ := TableRoller.firsts_finish h
  have hempty : (r.setTombstones c.survivors).builder = none := hb
  rw [TableRoller.firsts_foldlM_add (by simp [hempty]) h₁, if_pos hempty] at hfirsts
  refine ⟨hs, hout, hlinks, ?_, fun ho' => ?_⟩
  · rw [map_tail, hfirsts]
    cases c.emit {} (merged contents) with
    | nil => simp [TableRoller.firsts, TableRoller.setTombstones, hb, ho, rollPoints]
    | cons p ps => simp [TableRoller.firsts, TableRoller.setTombstones, hb, ho]
  · have hsort : sortRanges c.survivors = [] := ht₁.symm.trans (hnil ho')
    exact eq_nil_iff_forall_not_mem.mpr fun x hx => by
      simpa [hsort] using mem_sortRanges.mpr hx

theorem exists_run (hobs : c.observable.Pairwise (· < ·)) (hnone : c.survivors = []) :
    ∃ r', c.run contents.flatten.length m r = some r' := by
  obtain ⟨hes, hs⟩ := MergedIter.drain_eq hapart hover
  have hlegal' : ∀ e ∈ merged contents, e.seq ≤ kMaxSeqNum := fun e he =>
    hlegal e (mem_merged.mp he)
  have hinv := TableRoller.inv_setTombstones hb ho c.survivors
  have htombs : (r.setTombstones c.survivors).tombstones = [] := by
    simp [TableRoller.setTombstones, hnone, sortRanges]
  have hpair := @pairwise_emit c {} _ hs hlegal'
  obtain ⟨r₁, h₁⟩ := TableRoller.exists_foldlM_add htombs hinv (by simp) hpair fun p hp =>
    hlegal' p.1 (emit_sublist.subset (mem_map_of_mem hp))
  obtain ⟨hi₁, ht₁⟩ := TableRoller.foldlM_add_spec hinv (by simp) (hpair.imp And.right) h₁
  obtain ⟨r₂, h₂⟩ := TableRoller.exists_finish (ht₁.trans htombs) hi₁
  refine ⟨r₂, ?_⟩
  unfold run
  rw [if_pos hobs]
  simp only [hes, h₁, h₂, Option.bind_eq_bind, Option.bind_some]

end

end Compaction

/-! ### The numbers of the outputs -/

namespace TableRoller

variable {r r' : TableRoller} {n : ℕ}

/-- The files that have been opened are numbered from `n` on. -/
def Numbered (r : TableRoller) (n : ℕ) : Prop :=
  ∃ count, r.outputs.map (·.number) ++ (r.builder.map Prod.fst).toList = range' n count ∧
    r.nextFileNumber = n + count

theorem Numbered.openNext (h : r.Numbered n) (hb : r.builder = none) (fileStart : Option Slice) :
    Numbered { r.openNext with fileStart := fileStart } n := by
  obtain ⟨count, hlist, hnext⟩ := h
  refine ⟨count + 1, ?_, by simp [TableRoller.openNext, hnext, Nat.add_assoc]⟩
  rw [hb, Option.map_none, Option.toList_none, append_nil] at hlist
  rw [range'_1_concat, ← hlist]
  simp [TableRoller.openNext, hnext]

theorem Numbered.closeCurrent (h : r.Numbered n) {boundary : Option Slice}
    (hc : r.closeCurrent boundary = some r') : r'.Numbered n ∧ r'.builder = none := by
  obtain ⟨count, hlist, hnext⟩ := h
  obtain ⟨⟨number, b⟩, hb, hc⟩ := bind_eq_some_iff.mp hc
  obtain ⟨b', -, hc⟩ := bind_eq_some_iff.mp hc
  obtain ⟨t, ht, hc⟩ := bind_eq_some_iff.mp hc
  cases hc
  obtain ⟨-, -, rfl⟩ := TableBuilder.finish_eq_some ht
  exact ⟨⟨count, by simpa [hb] using hlist, hnext⟩, rfl⟩

theorem Numbered.add (h : r.Numbered n) {e : Entry} {boundary : Bool}
    (ha : r.add e boundary = some r') : r'.Numbered n := by
  obtain ⟨r₁, h₁, ha⟩ := bind_eq_some_iff.mp ha
  obtain ⟨⟨number, b⟩, hb, ha⟩ := bind_eq_some_iff.mp ha
  obtain ⟨b', -, ha⟩ := bind_eq_some_iff.mp ha
  cases ha
  have hroll : r₁.Numbered n := by
    unfold roll at h₁
    split_ifs at h₁
    · exact (h.closeCurrent h₁).1
    · exact Option.some.inj h₁ ▸ h
  have hopen : (r₁.opened e).Numbered n := by
    unfold opened
    split_ifs with hnone
    · exact hroll.openNext (Option.isNone_iff_eq_none.mp hnone) _
    · exact hroll
  obtain ⟨count, hlist, hnext⟩ := hopen
  exact ⟨count, by simpa [hb] using hlist, hnext⟩

theorem Numbered.foldlM_add (h : r.Numbered n) {es : List (Entry × Bool)}
    (ha : es.foldlM (fun r p => r.add p.1 p.2) r = some r') : r'.Numbered n := by
  induction es generalizing r with
  | nil => exact Option.some.inj ha ▸ h
  | cons p es ih =>
    rw [foldlM_cons] at ha
    obtain ⟨r₁, h₁, ha⟩ := bind_eq_some_iff.mp ha
    exact ih (h.add h₁) ha

theorem Numbered.finish (h : r.Numbered n) (hf : r.finish = some r') :
    r'.Numbered n ∧ r'.builder = none := by
  unfold TableRoller.finish at hf
  split_ifs at hf with hb
  · cases hf
    exact ⟨h, Option.isNone_iff_eq_none.mp hb⟩
  · exact (h.openNext (Option.isNone_iff_eq_none.mp hb) none).closeCurrent hf
  · exact h.closeCurrent hf

end TableRoller

/-- The outputs of a compaction are numbered from the counter on, and move it. -/
theorem Compaction.run_numbers {c : Compaction} {bound maxBytes n : ℕ} {m : MergedIter}
    {r : TableRoller} (h : c.run bound m { maxBytes := maxBytes, nextFileNumber := n } = some r) :
    r.outputs.map (·.number) = range' n r.outputs.length ∧
      r.nextFileNumber = n + r.outputs.length := by
  unfold Compaction.run at h
  split_ifs at h
  obtain ⟨es, -, h⟩ := bind_eq_some_iff.mp h
  obtain ⟨r₁, h₁, h⟩ := bind_eq_some_iff.mp h
  have hnew : TableRoller.Numbered (TableRoller.setTombstones
      { maxBytes := maxBytes, nextFileNumber := n } c.survivors) n := ⟨0, rfl, rfl⟩
  obtain ⟨⟨count, hlist, hnext⟩, hb⟩ := (TableRoller.Numbered.foldlM_add hnew h₁).finish h
  rw [hb, Option.map_none, Option.toList_none, append_nil] at hlist
  have hlen : r.outputs.length = count := by
    simpa using congrArg length hlist
  exact ⟨hlen ▸ hlist, hlen ▸ hnext⟩

end Rift.Engine
