import Mathlib.Data.List.Sort
import Mathlib.Data.Nat.Bitwise
import Rift.Engine.Table

/-!
# Building a table

The writer of table files, `engine-cpp/src/sst/table_builder.cc`, with the filter of `bloom.cc`. Every
precondition of the builder is an assertion that aborts the process; here it is `none`. What has been
added is kept with the proofs that a table needs, so `TableBuilder.finish` has nothing left to check
but that there is a version at all.

The bytes of the blocks are counted and not written: the count of the finished data blocks is what
decides when a compaction begins a new file.
-/

namespace Rift.Engine

open List Option

/-! ### The filter -/

/-- The hash of a user key. -/
def fnv1a64 (key : Slice) : UInt64 :=
  key.foldl (fun h b => (h ^^^ b.toUInt64) * 0x100000001b3) 0xcbf29ce484222325

def kBitsPerKey : ℕ := 10

def kProbes : ℕ := 7

def kMinFilterBytes : ℕ := 8

/-- The first positions of a walk. Both numbers are below `bits`, so one subtraction wraps. -/
def probeWalk (bits step : ℕ) : ℕ → ℕ → List ℕ
  | 0, _ => []
  | n + 1, pos =>
    pos :: probeWalk bits step n (if bits ≤ pos + step then pos + step - bits else pos + step)

/-- The positions of a key: the low half of its hash is the start, the high half the step. -/
def probes (key : Slice) (bits : ℕ) : List ℕ :=
  let hash := fnv1a64 key
  probeWalk bits (((hash >>> 32).toNat ||| 1) % bits) kProbes (hash.toUInt32.toNat % bits)

def setBit (data : Slice) (pos : ℕ) : Slice :=
  data.modify (pos / 8) fun b => b ||| UInt8.ofNat (2 ^ (pos % 8))

def hasBit (data : Slice) (pos : ℕ) : Bool :=
  data[pos / 8]?.any fun b => b.toNat.testBit (pos % 8)

/-- The bytes of a filter over some keys, without the trailer. -/
def filterOf (keys : List Slice) : Slice :=
  let nbytes := max ((keys.length * kBitsPerKey + 7) / 8) kMinFilterBytes
  keys.foldl (fun data key => (probes key (nbytes * 8)).foldl setBit data)
    (replicate nbytes 0)

def mayContain (data : Slice) (key : Slice) : Bool :=
  data.length * 8 = 0 || (probes key (data.length * 8)).all (hasBit data)

variable {p bits : ℕ} {key : Slice}

theorem probeWalk_lt {step n pos : ℕ} (hpos : pos < bits) (hstep : step < bits)
    (h : p ∈ probeWalk bits step n pos) : p < bits := by
  induction n generalizing pos with
  | zero => cases h
  | succ n ih =>
    rcases mem_cons.mp h with rfl | h
    · exact hpos
    · refine ih ?_ h
      split_ifs <;> omega

theorem lt_of_mem_probes (hb : 0 < bits) (h : p ∈ probes key bits) : p < bits :=
  probeWalk_lt (Nat.mod_lt _ hb) (Nat.mod_lt _ hb) h

@[simp] theorem length_setBit (data : Slice) (pos : ℕ) : (setBit data pos).length = data.length :=
  length_modify _ _ _

@[simp] theorem length_foldl_setBit (data : Slice) (ps : List ℕ) :
    (ps.foldl setBit data).length = data.length := by
  induction ps generalizing data with
  | nil => rfl
  | cons p ps ih => rw [foldl_cons, ih, length_setBit]

theorem toNat_twoPow {k : ℕ} (h : k < 8) : (UInt8.ofNat (2 ^ k)).toNat = 2 ^ k := by
  have : 2 ^ k < 2 ^ 8 := Nat.pow_lt_pow_right (by decide) h
  rw [UInt8.toNat_ofNat', Nat.mod_eq_of_lt this]

variable {data : Slice} {r : MemRange} {m : MemTable} {number : ℕ} {t : Table} {rs : List MemRange}

theorem hasBit_setBit_of_hasBit (q : ℕ) (h : hasBit data p) : hasBit (setBit data q) p := by
  unfold hasBit setBit at *
  rw [getElem?_modify]
  cases hb : data[p / 8]? with
  | none => rw [hb] at h; cases h
  | some b =>
    rw [hb] at h
    simp only [Option.map_eq_map, Option.map_some, Option.any_some] at h ⊢
    split_ifs with heq
    · simp [UInt8.toNat_or, Nat.testBit_or, h]
    · exact h

theorem hasBit_setBit (h : p < data.length * 8) : hasBit (setBit data p) p := by
  have hlen : p / 8 < data.length := by omega
  unfold hasBit setBit
  rw [getElem?_modify, getElem?_eq_getElem hlen]
  have hk : p % 8 < 8 := Nat.mod_lt _ (by decide)
  simp [UInt8.toNat_or, Nat.testBit_or, toNat_twoPow hk, Nat.testBit_two_pow_self]

theorem hasBit_foldl_of_hasBit (qs : List ℕ) (h : hasBit data p) :
    hasBit (qs.foldl setBit data) p := by
  induction qs generalizing data with
  | nil => exact h
  | cons q qs ih => exact ih (hasBit_setBit_of_hasBit q h)

theorem hasBit_foldl {qs : List ℕ} (hp : p ∈ qs) (h : p < data.length * 8) :
    hasBit (qs.foldl setBit data) p := by
  induction qs generalizing data with
  | nil => cases hp
  | cons q qs ih =>
    rw [foldl_cons]
    rcases mem_cons.mp hp with rfl | hp
    · exact hasBit_foldl_of_hasBit qs (hasBit_setBit h)
    · exact ih hp (by simpa using h)

theorem foldl_probes (keys : List Slice) (bits : ℕ) (data : Slice) :
    keys.foldl (fun data key => (probes key bits).foldl setBit data) data =
      (keys.flatMap (probes · bits)).foldl setBit data := by
  rw [foldl_flatMap]

theorem mayContain_filterOf {keys : List Slice} (h : key ∈ keys) :
    mayContain (filterOf keys) key := by
  unfold mayContain filterOf
  rw [foldl_probes, length_foldl_setBit, length_replicate]
  set nbytes := max ((keys.length * kBitsPerKey + 7) / 8) kMinFilterBytes with hn
  have hpos : 0 < nbytes * 8 := by
    have : kMinFilterBytes ≤ nbytes := le_max_right _ _
    unfold kMinFilterBytes at this
    omega
  refine (Bool.or_eq_true _ _).mpr (.inr (all_eq_true.mpr fun p hp => ?_))
  refine hasBit_foldl (mem_flatMap.mpr ⟨key, h, hp⟩) ?_
  rw [length_replicate]
  exact lt_of_mem_probes hpos hp

/-! ### The builder -/

def kDataBlockBytes : ℕ := 4096

/-- One restart for every sixteen entries of a block. -/
def kRestartInterval : ℕ := 16

/-- The bytes of one version in a data block: two lengths, the internal key and the value. -/
def Entry.blockBytes (e : Entry) : ℕ := 4 + (e.key.length + 8) + 4 + e.value.length

/-- The bytes of a finished block: the entries, the restarts and their number, the checksum. -/
def finishedBytes (bytes entries : ℕ) : ℕ :=
  bytes + 4 * ((entries + (kRestartInterval - 1)) / kRestartInterval) + 4 + 4

/-- A table that is being written. -/
structure TableBuilder where
  entries : List Entry
  tombstones : List MemRange
  /-- The bytes of the data blocks that are finished. -/
  offset : ℕ
  /-- The bytes and the entries of the data block that is open. -/
  blockBytes : ℕ
  blockEntries : ℕ
  sorted : entries.Pairwise Entry.Lt
  legal : ∀ e ∈ entries, e.seq ≤ kMaxSeqNum
  proper : ∀ r ∈ tombstones, r.Proper

namespace TableBuilder

def new : TableBuilder where
  entries := []
  tombstones := []
  offset := 0
  blockBytes := 0
  blockEntries := 0
  sorted := .nil
  legal := by simp
  proper := MemRange.proper_nil

@[simp] theorem entries_new : new.entries = [] := rfl

@[simp] theorem tombstones_new : new.tombstones = [] := rfl

variable {e : Entry}

theorem pairwise_concat {es : List Entry} (hs : es.Pairwise Entry.Lt)
    (h : es.getLast?.all fun l => Entry.Lt l e) : (es ++ [e]).Pairwise Entry.Lt := by
  refine pairwise_append.mpr ⟨hs, pairwise_singleton _ _, fun x hx y hy => ?_⟩
  obtain rfl := mem_singleton.mp hy
  obtain ⟨l, a, rfl⟩ := eq_nil_or_concat es |>.resolve_left (ne_nil_of_mem hx)
  rw [concat_eq_append] at *
  simp only [getLast?_append_of_ne_nil _ (cons_ne_nil _ _), getLast?_singleton,
    all_some, decide_eq_true_eq] at h
  rcases mem_append.mp hx with hx | hx
  · exact ((pairwise_append.mp hs).2.2 x hx a (by simp)).trans h
  · exact mem_singleton.mp hx ▸ h

variable (b : TableBuilder)

/-- Close the open data block. -/
def flushDataBlock : TableBuilder :=
  { b with
    offset := b.offset + finishedBytes b.blockBytes b.blockEntries
    blockBytes := 0
    blockEntries := 0 }

/-- Add a version. Its internal key is above the last one. -/
def add (e : Entry) : Option TableBuilder :=
  if h : e.seq ≤ kMaxSeqNum ∧ b.entries.getLast?.all fun l => Entry.Lt l e then
    let b : TableBuilder :=
      { b with
        entries := b.entries ++ [e]
        blockBytes := b.blockBytes + e.blockBytes
        blockEntries := b.blockEntries + 1
        sorted := pairwise_concat b.sorted h.2
        legal := fun x hx => (mem_append.mp hx).elim (b.legal x)
          fun hx => mem_singleton.mp hx ▸ h.1 }
    some (if kDataBlockBytes ≤ b.blockBytes then b.flushDataBlock else b)
  else none

/-- Tombstones are added by their starts, and no two of one start have one tag. -/
def checkOrder (last : Option MemRange) (r : MemRange) : Bool :=
  last.all fun l => !(r.start < l.start) && !(r.start = l.start && r.seq = l.seq)

/-- Add a tombstone. One with an end ends above its start. -/
def addRangeTombstone (r : MemRange) : Option TableBuilder :=
  if h : r.seq ≤ kMaxSeqNum ∧ r.Proper ∧ checkOrder b.tombstones.getLast? r then
    some
      { b with
        tombstones := b.tombstones ++ [r]
        proper := fun x hx => (mem_append.mp hx).elim (b.proper x)
          fun hx => mem_singleton.mp hx ▸ h.2.1 }
  else none

/-- A table without a version is refused. -/
def finish (number : ℕ) : Option Table :=
  if h : b.entries ≠ [] then
    some
      { number := number
        entries := b.entries
        tombstones := b.tombstones
        mayContain := mayContain (filterOf (b.entries.map (·.key)))
        nonempty := h
        sorted := b.sorted
        legal := b.legal
        proper := b.proper
        admits := fun _ he => mayContain_filterOf (mem_map_of_mem he) }
  else none

/-! ### What has been added -/

/-- Two tombstones in the order of `checkOrder`. -/
def Before (l r : MemRange) : Prop := l.start ≤ r.start ∧ ¬ (r.start = l.start ∧ r.seq = l.seq)

variable {b} {b' : TableBuilder} {rs : List MemRange}

theorem add_eq_some (h : b.add e = some b') :
    b'.entries = b.entries ++ [e] ∧ b'.tombstones = b.tombstones := by
  unfold add at h
  split_ifs at h
  cases h
  dsimp only
  split_ifs <;> exact ⟨rfl, rfl⟩

theorem addRangeTombstone_eq_some (h : b.addRangeTombstone r = some b') :
    b'.entries = b.entries ∧ b'.tombstones = b.tombstones ++ [r] := by
  unfold addRangeTombstone at h
  split_ifs at h
  cases h
  exact ⟨rfl, rfl⟩

theorem finish_eq_some (h : b.finish number = some t) :
    t.entries = b.entries ∧ t.tombstones = b.tombstones ∧ t.number = number := by
  unfold finish at h
  split_ifs at h
  cases h
  exact ⟨rfl, rfl, rfl⟩

theorem exists_add (hseq : e.seq ≤ kMaxSeqNum) (hlt : ∀ x ∈ b.entries, Entry.Lt x e) :
    ∃ b', b.add e = some b' := by
  have hlast : b.entries.getLast?.all fun l => Entry.Lt l e :=
    (all_eq_true _ _).mpr fun l hl => decide_eq_true (hlt l (mem_of_getLast? hl))
  exact ⟨_, dif_pos ⟨hseq, hlast⟩⟩

theorem exists_addRangeTombstone (hseq : r.seq ≤ kMaxSeqNum) (hp : r.Proper)
    (hlt : ∀ x ∈ b.tombstones, Before x r) : ∃ b', b.addRangeTombstone r = some b' := by
  have horder : checkOrder b.tombstones.getLast? r := by
    refine (all_eq_true _ _).mpr fun l hl => ?_
    obtain ⟨hle, hne⟩ := hlt l (mem_of_getLast? hl)
    simpa [not_lt.mpr hle] using not_and_or.mp hne
  exact ⟨_, dif_pos ⟨hseq, hp, horder⟩⟩

theorem foldlM_add {es : List Entry} (hs : (b.entries ++ es).Pairwise Entry.Lt)
    (hseq : ∀ e ∈ es, e.seq ≤ kMaxSeqNum) :
    ∃ b', es.foldlM add b = some b' ∧ b'.entries = b.entries ++ es ∧
      b'.tombstones = b.tombstones := by
  induction es generalizing b with
  | nil => exact ⟨b, rfl, by simp, rfl⟩
  | cons e es ih =>
    obtain ⟨b₁, h₁⟩ := exists_add (hseq e mem_cons_self)
      fun x hx => (pairwise_append.mp hs).2.2 x hx e mem_cons_self
    obtain ⟨he, ht⟩ := add_eq_some h₁
    obtain ⟨b₂, h₂, he₂, ht₂⟩ := @ih b₁ (by simpa [he] using hs)
      fun x hx => hseq x (mem_cons_of_mem _ hx)
    refine ⟨b₂, ?_, by simp [he₂, he], ht₂.trans ht⟩
    rw [foldlM_cons, h₁]
    exact h₂

theorem foldlM_addRangeTombstone (hs : (b.tombstones ++ rs).Pairwise Before)
    (hseq : ∀ r ∈ rs, r.seq ≤ kMaxSeqNum) (hp : ∀ r ∈ rs, r.Proper) :
    ∃ b', rs.foldlM addRangeTombstone b = some b' ∧ b'.entries = b.entries ∧
      b'.tombstones = b.tombstones ++ rs := by
  induction rs generalizing b with
  | nil => exact ⟨b, rfl, rfl, by simp⟩
  | cons r rs ih =>
    obtain ⟨b₁, h₁⟩ := exists_addRangeTombstone (hseq r mem_cons_self)
      (hp r mem_cons_self)
      fun x hx => (pairwise_append.mp hs).2.2 x hx r mem_cons_self
    obtain ⟨he, ht⟩ := addRangeTombstone_eq_some h₁
    obtain ⟨b₂, h₂, he₂, ht₂⟩ := @ih b₁ (by simpa [ht] using hs)
      (fun x hx => hseq x (mem_cons_of_mem _ hx)) fun x hx => hp x (mem_cons_of_mem _ hx)
    refine ⟨b₂, ?_, he₂.trans he, by simp [ht₂, ht]⟩
    rw [foldlM_cons, h₁]
    exact h₂

theorem foldlM_addRangeTombstone_eq_some (h : rs.foldlM addRangeTombstone b = some b') :
    b'.entries = b.entries ∧ b'.tombstones = b.tombstones ++ rs := by
  induction rs generalizing b with
  | nil =>
    cases h
    exact ⟨rfl, by simp⟩
  | cons r rs ih =>
    rw [foldlM_cons] at h
    obtain ⟨b₁, h₁, h⟩ := bind_eq_some_iff.mp h
    obtain ⟨he, ht⟩ := addRangeTombstone_eq_some h₁
    obtain ⟨he', ht'⟩ := ih h
    exact ⟨he'.trans he, by simp [ht', ht]⟩

theorem foldlM_add_eq_some {es : List Entry} (h : es.foldlM add b = some b') :
    b'.entries = b.entries ++ es ∧ b'.tombstones = b.tombstones := by
  induction es generalizing b with
  | nil =>
    cases h
    exact ⟨by simp, rfl⟩
  | cons e es ih =>
    rw [foldlM_cons] at h
    obtain ⟨b₁, h₁, h⟩ := bind_eq_some_iff.mp h
    obtain ⟨he, ht⟩ := add_eq_some h₁
    obtain ⟨he', ht'⟩ := ih h
    exact ⟨by simp [he', he], ht'.trans ht⟩

theorem exists_finish (hne : b.entries ≠ []) (number : ℕ) : ∃ t, b.finish number = some t :=
  ⟨_, dif_pos hne⟩

end TableBuilder

/-! ### The table of a flush -/

/-- By start, and then by sequence. -/
def MemRange.le (a b : MemRange) : Prop := a.start < b.start ∨ a.start = b.start ∧ a.seq ≤ b.seq

instance : DecidableRel MemRange.le := fun a b =>
  inferInstanceAs (Decidable (a.start < b.start ∨ a.start = b.start ∧ a.seq ≤ b.seq))

instance : Std.Total MemRange.le where
  total a b := by
    unfold MemRange.le
    rcases lt_trichotomy a.start b.start with h | h | h
    · exact .inl (.inl h)
    · exact (Nat.le_total a.seq b.seq).imp (fun hs => .inr ⟨h, hs⟩) fun hs => .inr ⟨h.symm, hs⟩
    · exact .inr (.inl h)

instance : IsTrans MemRange MemRange.le where
  trans a b c := by
    rintro (h₁ | ⟨h₁, h₁'⟩) (h₂ | ⟨h₂, h₂'⟩)
    · exact .inl (h₁.trans h₂)
    · exact .inl (h₂ ▸ h₁)
    · exact .inl (h₁ ▸ h₂)
    · exact .inr ⟨h₁.trans h₂, h₁'.trans h₂'⟩

/-- Tombstones in the order a table stores them. -/
def sortRanges (rs : List MemRange) : List MemRange := rs.insertionSort MemRange.le

theorem mem_sortRanges : r ∈ sortRanges rs ↔ r ∈ rs :=
  (perm_insertionSort _ rs).mem_iff

/-- Sorted tombstones of distinct starts or sequences pass the check of the order. -/
theorem pairwise_sortRanges (h : (rs.map fun r => (r.start, r.seq)).Nodup) :
    (sortRanges rs).Pairwise TableBuilder.Before := by
  have hsort := pairwise_insertionSort MemRange.le rs
  have hnodup : ((sortRanges rs).map fun r => (r.start, r.seq)).Nodup :=
    ((perm_insertionSort MemRange.le rs).map _).nodup_iff.mpr h
  refine (hsort.and (pairwise_map.mp hnodup)).imp ?_
  rintro a b ⟨hle, hne⟩
  exact ⟨hle.elim le_of_lt fun h => h.1.le, fun heq => hne (Prod.ext heq.1.symm heq.2.symm)⟩

/-- Write the versions of a memtable and then its tombstones. -/
def MemTable.build (m : MemTable) (number : ℕ) : Option Table := do
  let b ← m.entries.foldlM TableBuilder.add .new
  let b ← (sortRanges m.ranges).foldlM TableBuilder.addRangeTombstone b
  b.finish number

theorem MemTable.build_eq_some (h : m.build number = some t) :
    t.entries = m.entries ∧ t.tombstones = sortRanges m.ranges ∧ t.number = number := by
  obtain ⟨b₁, h₁, h⟩ := bind_eq_some_iff.mp h
  obtain ⟨b₂, h₂, h⟩ := bind_eq_some_iff.mp h
  obtain ⟨he₁, ht₁⟩ := TableBuilder.foldlM_add_eq_some h₁
  obtain ⟨he₂, ht₂⟩ := TableBuilder.foldlM_addRangeTombstone_eq_some h₂
  obtain ⟨he, ht, hn⟩ := TableBuilder.finish_eq_some h
  exact ⟨by simp [he, he₂, he₁], by simp [ht, ht₂, ht₁], hn⟩

/-- A memtable as writes leave it. -/
structure MemTable.Ok (m : MemTable) : Prop where
  sorted : m.entries.Pairwise Entry.Lt
  legal : ∀ e ∈ m.entries, e.seq ≤ kMaxSeqNum
  proper : ∀ r ∈ m.ranges, r.Proper
  distinct : (m.ranges.map fun r => (r.start, r.seq)).Nodup

theorem MemTable.Ok.build (h : m.Ok) (hne : m.entries ≠ [])
    (hseq : ∀ r ∈ m.ranges, r.seq ≤ kMaxSeqNum) (number : ℕ) : ∃ t, m.build number = some t := by
  obtain ⟨b₁, h₁, he₁, ht₁⟩ := @TableBuilder.foldlM_add .new m.entries (by simpa using h.sorted)
    h.legal
  have hne₁ : b₁.entries ≠ [] := by simpa [he₁] using hne
  obtain ⟨b₂, h₂, he₂, -⟩ := @TableBuilder.foldlM_addRangeTombstone b₁ (sortRanges m.ranges)
    (by simpa [ht₁] using pairwise_sortRanges h.distinct)
    (fun r hr => hseq r (mem_sortRanges.mp hr)) fun r hr => h.proper r (mem_sortRanges.mp hr)
  obtain ⟨t, ht⟩ := TableBuilder.exists_finish (he₂ ▸ hne₁) number
  refine ⟨t, ?_⟩
  simp only [MemTable.build, bind_eq_bind, h₁, bind_some, h₂, ht]

end Rift.Engine
