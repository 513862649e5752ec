import Rift.Driver.Persist
import Rift.Driver.Replication
import Rift.Raft.Calls

/-!
# Raft's state in the engine

A replica knows what it made durable in two ways. It folds the writes the engine reports complete into a
record, and after a crash it reads the engine back. The fold works on positions of a list, the engine on
keys, ranges of keys and overwrites. The two agree write by write.
-/

namespace Rift.Driver

open Kv Model List

/-! ### Logs without gaps -/

/-- The entries follow an index without a gap. -/
def Gapless (base : ℕ) (l : List Entry) : Prop := ∀ j e, l[j]? = some e → e.index = base + j + 1

variable {i : ℕ}

namespace Gapless

variable {base p : ℕ} {l l' : List Entry} {e : Entry}

theorem nil (base : ℕ) : Gapless base [] := fun _ _ h => absurd h (by simp)

section

variable (h : Gapless base l)
include h

theorem take (p : ℕ) : Gapless base (l.take p) := by
  intro j e hj
  rw [getElem?_take] at hj
  split_ifs at hj
  exact h j e hj

theorem drop (p : ℕ) : Gapless (base + p) (l.drop p) := by
  intro j e hj
  rw [getElem?_drop] at hj
  have := h _ e hj
  omega

theorem mem_iff : e ∈ l ↔ base < e.index ∧ l[e.index - base - 1]? = some e := by
  refine ⟨fun he => ?_, fun he => mem_of_getElem? he.2⟩
  obtain ⟨j, hj⟩ := mem_iff_getElem?.mp he
  have := h j e hj
  rw [show e.index - base - 1 = j by omega]
  exact ⟨by omega, hj⟩

theorem mem_take : e ∈ l.take p ↔ e ∈ l ∧ e.index ≤ base + p := by
  rw [(h.take p).mem_iff, h.mem_iff, getElem?_take]
  split_ifs
  · exact ⟨fun he => ⟨he, by omega⟩, And.left⟩
  · simp
    omega

theorem mem_drop : e ∈ l.drop p ↔ e ∈ l ∧ base + p < e.index := by
  rw [(h.drop p).mem_iff, h.mem_iff, getElem?_drop]
  rcases Nat.lt_or_ge (base + p) e.index with hlt | hge
  · rw [show p + (e.index - (base + p) - 1) = e.index - base - 1 by omega]
    simp [hlt, show base < e.index by omega]
  · simp [hge.not_gt]

theorem append (h' : Gapless (base + l.length) l') : Gapless base (l ++ l') := by
  intro j e hj
  rcases Nat.lt_or_ge j l.length with hlt | hge
  · rw [getElem?_append_left hlt] at hj
    exact h j e hj
  · rw [getElem?_append_right hge] at hj
    have := h' _ e hj
    omega

end

theorem tail (h : Gapless base (e :: l)) : e.index = base + 1 ∧ Gapless (base + 1) l := by
  refine ⟨h 0 e rfl, fun j e' hj => ?_⟩
  have := h (j + 1) e' hj
  omega

theorem filter_eq (h : Gapless base l) (hp : base ≤ p) :
    l.filter (fun e => p < e.index) = l.drop (p - base) := by
  conv_lhs => rw [← take_append_drop (p - base) l]
  rw [filter_append, filter_eq_nil_iff.mpr fun e he => ?_,
    filter_eq_self.mpr fun e he => ?_, nil_append]
  · have := (h.mem_drop.mp he).2
    simp only [decide_eq_true_eq]
    omega
  · have := (h.mem_take.mp he).2
    simp only [decide_eq_true_eq]
    omega

theorem exists_mem (h : Gapless base l) (hlo : base < i) (hhi : i ≤ base + l.length) :
    ∃ e ∈ l, e.index = i := by
  have hlt : i - base - 1 < l.length := by omega
  have hget := getElem?_eq_getElem hlt
  refine ⟨_, getElem_mem hlt, ?_⟩
  rw [h _ _ hget]
  omega

theorem mem_index (h : Gapless base l) (he : e ∈ l) :
    base < e.index ∧ e.index ≤ base + l.length := by
  obtain ⟨hlo, hget⟩ := h.mem_iff.mp he
  have := (List.getElem?_eq_some_iff.mp hget).1
  omega

theorem pairwise (h : Gapless base l) : l.Pairwise fun a b => a.index < b.index := by
  refine pairwise_iff_getElem.mpr fun i j hi hj hij => ?_
  have := h i _ (getElem?_eq_getElem hi)
  have := h j _ (getElem?_eq_getElem hj)
  omega

theorem getLast?_index (h : Gapless base l) : ∀ e ∈ l.getLast?, e.index = base + l.length := by
  intro e he
  rw [getLast?_eq_getElem?] at he
  have hne : l ≠ [] := by
    rintro rfl
    simp at he
  have := h _ e he
  have := length_pos_iff.mpr hne
  omega

end Gapless

theorem firstGap_eq_none {base : ℕ} {l : List Entry} :
    Raft.firstGap base i l = none ↔ Gapless (base + i) l := by
  induction l generalizing i with
  | nil => simp [Raft.firstGap, Gapless.nil]
  | cons e l ih =>
    rw [Raft.firstGap]
    split_ifs with h
    · refine iff_of_false (by simp) fun hg => h ?_
      rw [hg.tail.1]
    · push Not at h
      rw [ih]
      refine ⟨fun hl => ?_, fun hg => hg.tail.2⟩
      intro j e' hj
      match j with
      | 0 =>
        cases hj
        exact h
      | j + 1 =>
        have := hl j e' hj
        omega

/-! ### The record -/

/-- A hard state, the snapshot and the log above it. -/
structure Record where
  hs : HardState := {}
  snap : SnapshotMeta := {}
  log : List Entry := []
  deriving DecidableEq

/-- A write handed to the engine whose completion is not known yet. Zero stands for no mark and for no
clear. -/
structure PendingWrite where
  seq : ℕ := 0
  mark : ℕ := 0
  snapMark : ℕ := 0
  hs : Option HardState := none
  snap : Option SnapshotMeta := none
  entries : List Entry := []
  clearAllLog : Bool := false
  clearBelow : ℕ := 0
  clearAbove : ℕ := 0
  deriving DecidableEq

namespace Record

variable (r : Record)

/-- Enter one entry at its position. The source indexes the log with a negative number when the entry
is not above the snapshot. -/
def put (e : Entry) : Option Record :=
  if e.index ≤ r.snap.index then none
  else
    let p := e.index - r.snap.index - 1
    some { r with log := if p < r.log.length then r.log.set p e else r.log ++ [e] }

/-- Cut the log above an index. -/
def cutAbove (i : ℕ) : Record :=
  if 0 < i ∧ r.snap.index ≤ i ∧ i - r.snap.index < r.log.length then
    { r with log := r.log.take (i - r.snap.index) }
  else r

/-- Fold a completed write in. `none` is a panic. -/
def fold (w : PendingWrite) : Option Record := do
  let r := { r with hs := w.hs.getD r.hs, snap := w.snap.getD r.snap }
  let r := if w.clearAllLog then { r with log := [] } else r
  let r := if 0 < w.clearBelow then { r with log := r.log.filter (w.clearBelow < ·.index) } else r
  let r ← w.entries.foldlM put r
  return r.cutAbove w.clearAbove

/-- The last index of the log, zero of an empty one. -/
def lastLogIndex (es : List Entry) : ℕ := (es.getLast?.map (·.index)).getD 0

/-- Where what was written ends. -/
def last : ℕ := if r.snap.index < lastLogIndex r.log then lastLogIndex r.log else r.snap.index

variable {r} {base : ℕ}

theorem last_eq (h : Gapless r.snap.index r.log) : r.last = r.snap.index + r.log.length := by
  have hlast := h.getLast?_index
  unfold last lastLogIndex
  cases hl : r.log.getLast? with
  | none => simp [getLast?_eq_none_iff.mp hl]
  | some e =>
    have he := hlast e hl
    have hne : r.log ≠ [] := by
      intro hnil
      simp [hnil] at hl
    have := length_pos_iff.mpr hne
    rw [Option.map_some, Option.getD_some, if_pos (by omega), he]

/-- The log that entries after an index leave: they replace whatever was above it. -/
def overwrite (r : Record) (a : ℕ) (es : List Entry) : List Entry :=
  if es = [] then r.log else r.log.take (a - r.snap.index) ++ es

theorem foldlM_put {p : ℕ} {es : List Entry} (hp : p ≤ r.log.length)
    (hes : Gapless (r.snap.index + p) es) :
    es.foldlM put r =
      some { r with log := r.log.take p ++ es ++ r.log.drop (p + es.length) } := by
  induction es generalizing r p with
  | nil => simp
  | cons e es ih =>
    obtain ⟨he, hes⟩ := hes.tail
    have hput : r.put e = some { r with log := r.log.take p ++ e :: r.log.drop (p + 1) } := by
      unfold put
      rw [if_neg (by omega), show e.index - r.snap.index - 1 = p by omega]
      dsimp only
      congr 2
      split_ifs with hlt
      · rw [set_eq_take_append_cons_drop, if_pos hlt]
      · obtain rfl : p = r.log.length := by omega
        rw [take_length, drop_eq_nil_of_le (Nat.le_succ _)]
    have hlen : (r.log.take p ++ [e]).length = p + 1 := by
      rw [length_append, length_take_of_le hp]
      rfl
    rw [append_cons] at hput
    rw [foldlM_cons, hput]
    refine (ih (p := p + 1) ?_ ?_).trans ?_
    · rw [length_append, hlen]
      exact Nat.le_add_right _ _
    · rwa [← Nat.add_assoc]
    · congr 2
      dsimp only
      rw [take_left' hlen, ← drop_drop, drop_left' hlen, drop_drop,
        append_assoc _ [e], length_cons, Nat.add_assoc, Nat.add_comm 1]
      rfl

end Record

/-! ### Keys of the log -/

theorem prefixEnd_append {p q e : Bytes} (h : prefixEnd q = some e) :
    prefixEnd (p ++ q) = some (p ++ e) := by
  induction p with
  | nil => exact h
  | cons b p ih => simp [prefixEnd, ih]

variable {k : Bytes} {j : ℕ} {id : RangeID}

theorem inRange_log : inRange (logPrefixOf id) (some (logUpperOf id)) k ↔ logPrefixOf id <+: k := by
  have hend : prefixEnd (logPrefixOf id) = some (logUpperOf id) :=
    prefixEnd_append (show prefixEnd [47, 101, 47] = some [47, 101, 48] by decide)
  rw [← hend]
  exact inRange_prefixEnd

theorem logPrefixOf_isPrefix (id : RangeID) (i : ℕ) : logPrefixOf id <+: logKeyOf id i :=
  prefix_append _ _

section

variable (hi : i < 256 ^ 8) (hj : j < 256 ^ 8)
include hi hj

theorem logKeyOf_lt : logKeyOf id i < logKeyOf id j ↔ i < j := by
  rw [logKeyOf, logKeyOf, append_lt_append_iff, putBE_lt_putBE hi hj]

theorem logKeyOf_inj : logKeyOf id i = logKeyOf id j ↔ i = j := by
  rw [logKeyOf, logKeyOf, append_cancel_left_eq, putBE_inj hi hj]

theorem inRange_above : inRange (logKeyOf id i) (some (logUpperOf id)) (logKeyOf id j) ↔ i ≤ j := by
  have hupper := (inRange_iff.mp (inRange_log.mpr (logPrefixOf_isPrefix id j))).2
  rw [inRange_iff, ← not_lt, logKeyOf_lt hj hi, not_lt]
  exact and_iff_left hupper

theorem inRange_below :
    inRange (logPrefixOf id) (some (logKeyOf id i)) (logKeyOf id j) ↔ j < i := by
  have hlower := (inRange_iff.mp (inRange_log.mpr (logPrefixOf_isPrefix id j))).1
  rw [inRange_iff]
  simp [logKeyOf_lt hj hi, hlower]

end

/-- A cleared range that starts or ends at a key of the log holds keys of the log only. -/
theorem isPrefix_of_inRange (h : inRange (logKeyOf id i) (some (logUpperOf id)) k ∨
      inRange (logPrefixOf id) (some (logKeyOf id i)) k) : logPrefixOf id <+: k := by
  obtain ⟨hlow, hup⟩ := inRange_iff.mp (inRange_log.mpr (logPrefixOf_isPrefix id i))
  refine inRange_log.mp (inRange_iff.mpr ?_)
  rcases h with h | h
  · obtain ⟨hlow', hup'⟩ := inRange_iff.mp h
    exact ⟨hlow.trans hlow', hup'⟩
  · obtain ⟨hlow', hup'⟩ := inRange_iff.mp h
    exact ⟨hlow', fun u hu => (hup' _ rfl).trans (hup u hu)⟩

/-- The keys that raft's state of a range is kept under, and the one that says that the range exists. -/
def IsRaftKey (id : RangeID) (k : Bytes) : Prop :=
  k = keyHardStateOf id ∨ k = keySnapshotOf id ∨ k = keyDescOf id ∨ logPrefixOf id <+: k

theorem raftKeys_ne (id : RangeID) :
    keySnapshotOf id ≠ keyHardStateOf id ∧ keySnapshotOf id ≠ keyDescOf id ∧
      keyHardStateOf id ≠ keyDescOf id ∧ ¬ logPrefixOf id <+: keyHardStateOf id ∧
      ¬ logPrefixOf id <+: keySnapshotOf id ∧ ¬ logPrefixOf id <+: keyDescOf id := by
  simp only [keySnapshotOf, keyHardStateOf, keyDescOf, logPrefixOf, ne_eq,
    append_cancel_left_eq, prefix_append_right_inj]
  decide

/-! ### Reading back -/

/-- What recovery reads: the hard state, the snapshot, the log, and the state machine that the snapshot
decodes to. -/
structure Recovered where
  hs : HardState := {}
  snap : SnapshotMeta := {}
  entries : List Entry := []
  machine : Option (RangeDescriptor × Timestamp × List (Bytes × Bytes)) := none
  deriving DecidableEq

def storedSnapshot (id : RangeID) (v : Version) : Option (SnapshotMeta × Bytes) :=
  (v.get (keySnapshotOf id)).bind decodeSnapshot

/-- Read the engine back. What does not decode is passed over. -/
def readBack (id : RangeID) (v : Version) : Recovered where
  hs := ((v.get (keyHardStateOf id)).map decodeHardState).getD {}
  snap := ((storedSnapshot id v).map (·.1)).getD {}
  entries := (scan v (logPrefixOf id) (some (logUpperOf id))).filterMap fun p => decodeEntry p.2
  machine := (storedSnapshot id v).bind fun p => decodeMachine p.2

/-- An entry fits its encoding, and its index has a successor. -/
def Storable (e : Entry) : Prop := Entry.Fits e ∧ e.index + 1 < 256 ^ 8

instance (e : Entry) : Decidable (Storable e) := inferInstanceAs (Decidable (_ ∧ _))

theorem Storable.lt {e : Entry} (h : Storable e) : e.index < 256 ^ 8 := h.1.index

/-- The engine holds a record of a range. -/
structure Stores (id : RangeID) (v : Version) (r : Record) : Prop where
  hs : (readBack id v).hs = r.hs
  snap : (readBack id v).snap = r.snap
  /-- Every range but the first has its extent from its snapshot. -/
  extent : id = firstRange ∨ (readBack id v).machine.isSome
  log : ∀ k x, logPrefixOf id <+: k →
    (v.get k = some x ↔ ∃ e ∈ r.log, k = logKeyOf id e.index ∧ x = encodeEntry e)
  storable : ∀ e ∈ r.log, Storable e
  gapless : Gapless r.snap.index r.log

namespace Stores

variable {id : RangeID} {v v' : Version} {r : Record}

theorem scan_eq (h : Stores id v r) :
    scan v (logPrefixOf id) (some (logUpperOf id)) =
      r.log.map fun e => (logKeyOf id e.index, encodeEntry e) := by
  refine v.filter_eq_of_mem ?_ fun k x => ?_
  · rw [pairwise_map]
    refine h.gapless.pairwise.imp_of_mem fun ha hb hlt => ?_
    exact (logKeyOf_lt (h.storable _ ha).lt (h.storable _ hb).lt).mpr hlt
  · rw [inRange_log, mem_map]
    constructor
    · rintro ⟨e, he, heq⟩
      cases heq
      exact ⟨(h.log _ _ (logPrefixOf_isPrefix id _)).mpr ⟨e, he, rfl, rfl⟩, logPrefixOf_isPrefix id _⟩
    · rintro ⟨hget, hpre⟩
      obtain ⟨e, he, rfl, rfl⟩ := (h.log k x hpre).mp hget
      exact ⟨e, he, rfl⟩

theorem read (h : Stores id v r) :
    (readBack id v).hs = r.hs ∧ (readBack id v).snap = r.snap ∧
      (readBack id v).entries = r.log := by
  refine ⟨h.hs, h.snap, ?_⟩
  show (scan v _ _).filterMap _ = _
  rw [h.scan_eq, filterMap_map]
  refine (filterMap_congr fun e he => ?_).trans filterMap_some
  exact decodeEntry_encodeEntry (h.storable e he).1

theorem of_get (h : Stores id v r) (heq : ∀ k, IsRaftKey id k → v'.get k = v.get k) :
    Stores id v' r := by
  have hsnap : storedSnapshot id v' = storedSnapshot id v := by
    unfold storedSnapshot
    rw [heq _ (.inr (.inl rfl))]
  refine ⟨?_, ?_, ?_, fun k x hk => ?_, h.storable, h.gapless⟩
  · rw [← h.hs]
    unfold readBack
    rw [heq _ (.inl rfl)]
  · rw [← h.snap]
    unfold readBack
    rw [hsnap]
  · have := h.extent
    unfold readBack at this ⊢
    rwa [hsnap]
  · rw [heq k (.inr (.inr (.inr hk)))]
    exact h.log k x hk

/-- A record whose snapshot the engine has, and whose log is what the log's keys hold. -/
theorem of_snapshot {snap : SnapshotMeta} {data : Bytes} {l : List Entry}
    (hhs : (readBack id v').hs = r.hs)
    (hsnap : v'.get (keySnapshotOf id) = some (encodeSnapshot snap data))
    (hfits : SnapshotMeta.Fits snap data) (hdata : (decodeMachine data).isSome)
    (hlog : ∀ k x, logPrefixOf id <+: k →
      (v'.get k = some x ↔ ∃ e ∈ l, k = logKeyOf id e.index ∧ x = encodeEntry e))
    (hl : ∀ e ∈ l, Storable e) (hg : Gapless snap.index l) :
    Stores id v' { r with snap := snap, log := l } := by
  have hstored : storedSnapshot id v' = some (snap, data) := by
    rw [storedSnapshot, hsnap, Option.bind_some, decodeSnapshot_encodeSnapshot hfits]
  refine ⟨hhs, ?_, .inr ?_, hlog, hl, hg⟩
  · unfold readBack
    rw [hstored]
    rfl
  · unfold readBack
    rw [hstored]
    simpa using hdata

end Stores

/-! ### Writes -/

/-- An installed snapshot, in place of every entry. -/
def installBatch (id : RangeID) (snap : SnapshotMeta) (data : Bytes) : Batch :=
  [.set (keySnapshotOf id) (encodeSnapshot snap data),
    .deleteRange (logPrefixOf id) (some (logUpperOf id))]

/-- A snapshot taken here, in place of the entries it covers. -/
def compactBatch (id : RangeID) (snap : SnapshotMeta) (data : Bytes) : Batch :=
  [.set (keySnapshotOf id) (encodeSnapshot snap data),
    .deleteRange (logPrefixOf id) (some (logKeyOf id (snap.index + 1)))]

/-- Entries that start at or below what was written replace a discarded suffix. The index is the last
one of the entries then, and zero otherwise. -/
def clearAbove (writtenLast : ℕ) (es : List Entry) : ℕ :=
  if es.head?.any (·.index ≤ writtenLast) then Record.lastLogIndex es else 0

/-- The hard state and the entries of a Ready. -/
def logBatch (id : RangeID) (writtenLast : ℕ) (hs : Option HardState) (es : List Entry) : Batch :=
  (hs.toList.map fun hs => .set (keyHardStateOf id) (encodeHardState hs)) ++
    ((if clearAbove writtenLast es = 0 then []
      else [.deleteRange (logKeyOf id (clearAbove writtenLast es + 1)) (some (logUpperOf id))]) ++
    es.map fun e => .set (logKeyOf id e.index) (encodeEntry e))

/-- What the driver notes of each of the three. -/
def installWrite (snapMark : ℕ) (snap : SnapshotMeta) : PendingWrite :=
  { snapMark := snapMark, snap := some snap, clearAllLog := true }

@[inherit_doc installWrite]
def compactWrite (snap : SnapshotMeta) : PendingWrite :=
  { snap := some snap, clearBelow := snap.index }

@[inherit_doc installWrite]
def logWrite (writtenLast mark : ℕ) (hs : Option HardState) (es : List Entry) : PendingWrite :=
  { mark := mark, hs := hs, entries := es, clearAbove := clearAbove writtenLast es }

namespace Stores

variable {id : RangeID} {v v' : Version} {r : Record} {snap : SnapshotMeta} {data : Bytes}
  {es : List Entry} {writtenLast : ℕ} {hs : Option HardState}

section

variable (h : Stores id v r) (hfits : SnapshotMeta.Fits snap data)
  (hdata : (decodeMachine data).isSome)
include h hfits hdata

theorem snapshotted {fin : Bytes} {l : List Entry}
    (hrange : ∀ k, inRange (logPrefixOf id) (some fin) k → logPrefixOf id <+: k)
    (hmem : ∀ e, e ∈ l ↔ e ∈ r.log ∧ ¬ inRange (logPrefixOf id) (some fin) (logKeyOf id e.index))
    (hg : Gapless snap.index l) {b : Batch} (hb : b = [.set (keySnapshotOf id)
      (encodeSnapshot snap data), .deleteRange (logPrefixOf id) (some fin)]) :
    Stores id (applyTo v b) { r with snap := snap, log := l } ∧
      (applyTo v b).get (keyDescOf id) = v.get (keyDescOf id) := by
  subst hb
  obtain ⟨hne₁, hne₂, -, hnot₁, hnot₂, hnot₃⟩ := raftKeys_ne id
  have hout : ∀ k, ¬ logPrefixOf id <+: k → inRange (logPrefixOf id) (some fin) k = false :=
    fun k hk => Bool.eq_false_iff.mpr (mt (hrange k) hk)
  refine ⟨of_snapshot ?_ ?_ hfits hdata (fun k x hk => ?_)
    (fun e he => h.storable e ((hmem e).mp he).1) hg, ?_⟩
  · rw [← h.hs]
    simp [readBack, hout _ hnot₁, hne₁]
  · simp [hout _ hnot₂]
  · have hne : keySnapshotOf id ≠ k := fun heq => hnot₂ (heq ▸ hk)
    have hget : (applyTo v [.set (keySnapshotOf id) (encodeSnapshot snap data),
        .deleteRange (logPrefixOf id) (some fin)]).get k = some x ↔
        ¬ inRange (logPrefixOf id) (some fin) k ∧ v.get k = some x := by
      simp [hne]
    rw [hget, h.log k x hk]
    constructor
    · rintro ⟨hr, e, he, rfl, rfl⟩
      exact ⟨e, (hmem e).mpr ⟨he, hr⟩, rfl, rfl⟩
    · rintro ⟨e, he, rfl, rfl⟩
      exact ⟨((hmem e).mp he).2, e, ((hmem e).mp he).1, rfl, rfl⟩
  · simp [hout _ hnot₃, hne₂]

theorem install :
    Stores id (applyTo v (installBatch id snap data)) { r with snap := snap, log := [] } ∧
      (applyTo v (installBatch id snap data)).get (keyDescOf id) = v.get (keyDescOf id) :=
  h.snapshotted hfits hdata (fun _ => inRange_log.mp)
    (fun e => by simp [inRange_log.mpr (logPrefixOf_isPrefix id e.index)]) (.nil _) rfl

theorem compact (hlo : r.snap.index ≤ snap.index) (hnext : snap.index + 1 < 256 ^ 8) :
    Stores id (applyTo v (compactBatch id snap data))
        { r with snap := snap, log := r.log.drop (snap.index - r.snap.index) } ∧
      (applyTo v (compactBatch id snap data)).get (keyDescOf id) = v.get (keyDescOf id) := by
  refine h.snapshotted hfits hdata (fun _ hr => isPrefix_of_inRange (.inr hr)) (fun e => ?_) ?_ rfl
  · rw [h.gapless.mem_drop, Nat.add_sub_cancel' hlo]
    refine and_congr_right fun he => ?_
    rw [inRange_below hnext (h.storable e he).lt]
    omega
  · have := h.gapless.drop (snap.index - r.snap.index)
    rwa [Nat.add_sub_cancel' hlo] at this

end

theorem fold_install (r : Record) (snapMark seq : ℕ) (snap : SnapshotMeta) :
    r.fold { installWrite snapMark snap with seq := seq } =
      some { r with snap := snap, log := [] } := by
  simp [Record.fold, installWrite, Record.cutAbove]

theorem fold_compact (hg : Gapless r.snap.index r.log) (hlo : r.snap.index < snap.index) (seq : ℕ) :
    r.fold { compactWrite snap with seq := seq } =
      some { r with snap := snap, log := r.log.drop (snap.index - r.snap.index) } := by
  have hpos : 0 < snap.index := by omega
  have hfold : r.fold { compactWrite snap with seq := seq } =
      some { r with snap := snap, log := r.log.filter fun e => snap.index < e.index } := by
    simp [Record.fold, compactWrite, Record.cutAbove, hpos]
    rfl
  rw [hfold, hg.filter_eq hlo.le]

theorem get_logBatch {a : ℕ} (hes : Gapless a es) (hst : ∀ e ∈ es, Storable e) {x : Bytes}
    (hk : logPrefixOf id <+: k) :
    (applyTo v (logBatch id writtenLast hs es)).get k = some x ↔
      (∃ e ∈ es, k = logKeyOf id e.index ∧ x = encodeEntry e) ∨
        (∀ e ∈ es, logKeyOf id e.index ≠ k) ∧ v.get k = some x ∧
          (clearAbove writtenLast es = 0 ∨
            ¬ inRange (logKeyOf id (clearAbove writtenLast es + 1)) (some (logUpperOf id)) k) := by
  obtain ⟨-, -, -, hnot, -, -⟩ := raftKeys_ne id
  have hhs : ∀ w : Version, (applyTo w (hs.toList.map fun hs =>
      Op.set (keyHardStateOf id) (encodeHardState hs))).get k = w.get k := by
    intro w
    cases hs with
    | none => rfl
    | some hs =>
      have hne : keyHardStateOf id ≠ k := fun heq => hnot (heq ▸ hk)
      simp [hne]
  rw [logBatch, applyTo_append, applyTo_append]
  set w := applyTo (applyTo v (hs.toList.map fun hs =>
    Op.set (keyHardStateOf id) (encodeHardState hs))) (if clearAbove writtenLast es = 0 then []
      else [.deleteRange (logKeyOf id (clearAbove writtenLast es + 1)) (some (logUpperOf id))])
    with hw
  have hcleared : w.get k = some x ↔ v.get k = some x ∧ (clearAbove writtenLast es = 0 ∨
      ¬ inRange (logKeyOf id (clearAbove writtenLast es + 1)) (some (logUpperOf id)) k) := by
    rw [hw]
    split_ifs with hz
    · rw [applyTo_nil, hhs]
      simp [hz]
    · rw [applyTo_cons, applyTo_nil, apply_deleteRange, OrderedMap.get_eraseIf, hhs]
      simp [hz, and_comm]
  rw [← hcleared]
  -- The entries have different keys, so each one is found under its own.
  have hnodup : ((es.map fun e => (logKeyOf id e.index, encodeEntry e)).map (·.1)).Nodup := by
    rw [map_map, List.Nodup, pairwise_map]
    refine hes.pairwise.imp_of_mem fun ha hb hlt heq => ?_
    exact hlt.ne ((logKeyOf_inj (hst _ ha).lt (hst _ hb).lt).mp heq)
  have hsets := get_applyTo_sets_iff (v := w) hnodup (k := k) (x := x)
  rw [map_map] at hsets
  refine hsets.trans ?_
  simp [eq_comm, and_comm]

theorem get_logBatch_of_not (hk : ¬ logPrefixOf id <+: k) :
    (applyTo v (logBatch id writtenLast hs es)).get k =
      (applyTo v (hs.toList.map fun hs => .set (keyHardStateOf id) (encodeHardState hs))).get k := by
  rw [logBatch, applyTo_append, applyTo_append, get_applyTo_of_untouched]
  · split_ifs
    · rfl
    · have hr : inRange (logKeyOf id (clearAbove writtenLast es + 1)) (some (logUpperOf id)) k =
          false := Bool.eq_false_iff.mpr fun hr => hk (isPrefix_of_inRange (.inl hr))
      simp [hr]
  · intro op hop
    obtain ⟨e, -, rfl⟩ := mem_map.mp hop
    exact fun heq => hk (heq ▸ logPrefixOf_isPrefix id _)

section Persist

variable {hs : Option HardState} {es : List Entry} {a writtenLast : ℕ}

/-- Entries are cleared above exactly when they do not follow what was written. -/
theorem clearAbove_eq (hes : Gapless a es) (hne : es ≠ []) :
    clearAbove writtenLast es = if a < writtenLast then a + es.length else 0 := by
  obtain ⟨e, es', rfl⟩ := exists_cons_of_ne_nil hne
  have hlast : Record.lastLogIndex (e :: es') = a + (e :: es').length := by
    unfold Record.lastLogIndex
    rw [getLast?_eq_some_getLast hne]
    exact hes.getLast?_index _ (getLast?_eq_some_getLast hne)
  have hhead : e.index = a + 1 := hes.tail.1
  unfold clearAbove
  rw [hlast]
  simp [hhead]

theorem clearAbove_nil (writtenLast : ℕ) : clearAbove writtenLast [] = 0 := rfl

theorem fold_persist (hes : Gapless a es) (hlo : r.snap.index ≤ a) (hhi : a ≤ writtenLast)
    (hw : writtenLast = r.snap.index + r.log.length) (seq mark : ℕ) :
    r.fold { logWrite writtenLast mark hs es with seq := seq } =
      some { r with hs := hs.getD r.hs, log := r.overwrite a es } := by
  set r₀ : Record := { r with hs := hs.getD r.hs } with hr₀
  have hstart : Gapless (r₀.snap.index + (a - r.snap.index)) es := by
    show Gapless (r.snap.index + (a - r.snap.index)) es
    rwa [Nat.add_sub_cancel' hlo]
  have hput := Record.foldlM_put (show a - r.snap.index ≤ r₀.log.length by show _ ≤ r.log.length; omega)
    hstart
  have hfold : r.fold { logWrite writtenLast mark hs es with seq := seq } =
      (es.foldlM Record.put r₀).map (·.cutAbove (clearAbove writtenLast es)) := by
    simp [Record.fold, logWrite, hr₀, Option.map_eq_bind]
  rw [hfold, hput, Option.map_some]
  congr 1
  by_cases hnil : es = []
  · subst hnil
    simp [clearAbove_nil, Record.cutAbove, Record.overwrite, r₀]
  · have hlen := length_pos_iff.mpr hnil
    rw [Record.overwrite, if_neg hnil, clearAbove_eq hes hnil]
    unfold Record.cutAbove
    have htake : (r.log.take (a - r.snap.index)).length = a - r.snap.index :=
      length_take_of_le (by omega)
    split_ifs with hlt hcut hcut
    · -- The suffix above the entries is cut.
      simp only [r₀, Record.mk.injEq, true_and]
      rw [take_left']
      rw [length_append, htake]
      omega
    · -- There is nothing above the entries.
      have hdrop : r.log.drop (a - r.snap.index + es.length) = [] := by
        refine drop_eq_nil_of_le ?_
        simp only [r₀, length_append, htake, length_drop] at hcut
        omega
      simp only [r₀, hdrop, append_nil]
    · exact absurd hcut.1 (lt_irrefl _)
    · have hdrop : r.log.drop (a - r.snap.index + es.length) = [] :=
        drop_eq_nil_of_le (by omega)
      simp only [r₀, hdrop, append_nil]

theorem persist (h : Stores id v r) (hhs : ∀ s ∈ hs, HardState.Fits s) (hes : Gapless a es)
    (hst : ∀ e ∈ es, Storable e) (hlo : r.snap.index ≤ a) (hhi : a ≤ writtenLast)
    (hw : writtenLast = r.snap.index + r.log.length) :
    Stores id (applyTo v (logBatch id writtenLast hs es))
        { r with hs := hs.getD r.hs, log := r.overwrite a es } ∧
      (applyTo v (logBatch id writtenLast hs es)).get (keyDescOf id) = v.get (keyDescOf id) := by
  obtain ⟨hne₁, -, hne₃, hnot₁, hnot₂, hnot₃⟩ := raftKeys_ne id
  have hstored : storedSnapshot id (applyTo v (logBatch id writtenLast hs es)) =
      storedSnapshot id v := by
    unfold storedSnapshot
    rw [get_logBatch_of_not hnot₂]
    cases hs <;> simp [hne₁.symm]
  have hmem : ∀ e, e ∈ r.overwrite a es ↔ e ∈ es ∨ e ∈ r.log ∧ (e.index ≤ a ∨ es = []) := by
    intro e
    unfold Record.overwrite
    split_ifs with hnil
    · simp [hnil]
    · rw [mem_append, h.gapless.mem_take, Nat.add_sub_cancel' hlo, or_comm]
      simp [hnil]
  have hdesc : (applyTo v (logBatch id writtenLast hs es)).get (keyDescOf id) =
      v.get (keyDescOf id) := by
    rw [get_logBatch_of_not hnot₃]
    cases hs <;> simp [hne₃]
  refine ⟨⟨?_, ?_, ?_, fun k x hk => ?_, fun e he => ?_, ?_⟩, hdesc⟩
  · unfold readBack
    rw [get_logBatch_of_not hnot₁]
    cases hs with
    | none => exact h.hs
    | some s => simp [decodeHardState_encodeHardState (hhs s rfl)]
  · rw [← h.snap]
    unfold readBack
    rw [hstored]
  · have := h.extent
    unfold readBack at this ⊢
    rwa [hstored]
  · rw [get_logBatch hes hst hk, h.log k x hk]
    constructor
    · rintro (⟨e, he, rfl, rfl⟩ | ⟨hnew, ⟨e, he, rfl, rfl⟩, hkept⟩)
      · exact ⟨e, (hmem e).mpr (.inl he), rfl, rfl⟩
      · refine ⟨e, (hmem e).mpr (.inr ⟨he, ?_⟩), rfl, rfl⟩
        by_contra! hgt
        obtain ⟨hgt, hne⟩ := hgt
        -- An entry above `a` is either one of the new ones or above them all.
        have hlen := h.gapless.mem_index he
        rw [clearAbove_eq hes hne, if_pos (by omega)] at hkept
        have hpos := length_pos_iff.mpr hne
        rcases Nat.lt_or_ge (a + es.length) e.index with habove | hin
        · refine hkept.resolve_left (by omega) ((inRange_above ?_ (h.storable e he).lt).mpr habove)
          have := (h.storable e he).lt
          omega
        · obtain ⟨e', he', hidx⟩ := hes.exists_mem hgt hin
          exact hnew e' he' (by rw [hidx])
    · rintro ⟨e, he, rfl, rfl⟩
      rcases (hmem e).mp he with he | ⟨he, hcase⟩
      · exact .inl ⟨e, he, rfl, rfl⟩
      · refine .inr ⟨fun e' he' heq => ?_, ⟨e, he, rfl, rfl⟩, ?_⟩
        · have hidx := (logKeyOf_inj (hst e' he').lt (h.storable e he).lt).mp heq
          have := (hes.mem_index he').1
          rcases hcase with hle | rfl
          · omega
          · simp at he'
        · by_cases hne : es = []
          · exact .inl (hne ▸ clearAbove_nil _)
          · rw [clearAbove_eq hes hne]
            split_ifs with hlt
            · refine .inr fun hr => ?_
              have hle := hcase.resolve_right hne
              have hlast := hst _ (getLast_mem hne)
              have hidx := hes.getLast?_index _ (getLast?_eq_some_getLast hne)
              rw [inRange_above (by have := hlast.2; omega) (h.storable e he).lt] at hr
              omega
            · exact .inl rfl
  · rcases (hmem e).mp he with he | ⟨he, -⟩
    · exact hst e he
    · exact h.storable e he
  · unfold Record.overwrite
    split_ifs with hnil
    · exact h.gapless
    · refine (h.gapless.take _).append ?_
      rwa [length_take_of_le (by omega), Nat.add_sub_cancel' hlo]

end Persist

end Stores

end Rift.Driver
