import Rift.Driver.Replication
import Rift.Kv.Listing

/-!
# One state for one log

A range starts from a birth payload and applies its log. However the log is cut into Readies, whoever
applies it, and from whatever snapshot of a prefix it goes on, the state it reaches is the same, as
long as every entry is shorter than `2 ^ 32` bytes. Longer ones can carry a key whose record no longer
fits the length field of a snapshot.
-/

namespace Rift.Driver

open Kv Model List

/-! ### How long the parts of an entry can be -/

variable {spec : SplitSpec}

section Lengths

variable {b r : Bytes}

theorem takeU64_length {n : UInt64} (h : takeU64 b = some (n, r)) : b.length = 8 + r.length := by
  simp only [takeU64, Option.bind_eq_bind, Option.bind_eq_some_iff, Prod.exists, Option.pure_def,
    Option.some.injEq, Prod.mk.injEq] at h
  obtain ⟨n', r', h, -, rfl⟩ := h
  rw [(takeBE_eq_some h).1]
  simp

theorem takeStamp_length {t : Timestamp} (h : takeStamp b = some (t, r)) :
    b.length = 16 + r.length := by
  simp only [takeStamp, Option.bind_eq_bind, Option.bind_eq_some_iff, Prod.exists, Option.pure_def,
    Option.some.injEq, Prod.mk.injEq] at h
  obtain ⟨w, r₁, h₁, l, r₂, h₂, -, rfl⟩ := h
  rw [takeU64_length h₁, takeU64_length h₂]
  omega

theorem takeBytes_length {s : Str} (h : takeBytes b = some (s, r)) :
    b.length = 4 + s.1.length + r.length := by
  rw [takeBytes_eq_some h, length_append, length_putBytes]

theorem decodeDescFrom_length {d : RangeDescriptor} (h : decodeDescFrom b = some (d, r)) :
    b.length = (encodeDesc d).length + r.length := by
  simp only [decodeDescFrom, Option.bind_eq_bind, Option.bind_eq_some_iff, Prod.exists] at h
  obtain ⟨id, b₁, h₁, epoch, b₂, h₂, start, b₃, h₃, h⟩ := h
  rw [takeU64_length h₁, takeU64_length h₂, takeBytes_length h₃]
  cases b₃ with
  | nil => simp at h
  | cons flag b₄ =>
    simp only at h
    split at h
    · simp only [Option.bind_eq_some_iff, Prod.exists, Option.pure_def, Option.some.injEq,
        Prod.mk.injEq] at h
      obtain ⟨fin, b₅, h₅, rfl, rfl⟩ := h
      simp only [encodeDesc, length_append, length_cons, length_putU64, length_putBytes,
        takeBytes_length h₅]
      omega
    · simp only [Option.pure_def, Option.some.injEq, Prod.mk.injEq] at h
      obtain ⟨rfl, rfl⟩ := h
      simp only [encodeDesc, length_append, length_cons, length_nil, length_putU64,
        length_putBytes]
      omega

theorem decodeTxnCommand_length {c : TxnCommand} (h : decodeTxnCommand b = some c) :
    119 + c.key.1.length + c.value.1.length + c.primary.1.length ≤ b.length := by
  unfold decodeTxnCommand at h
  split at h
  · split at h
    · simp only [Option.bind_eq_bind, Option.bind_eq_some_iff, Prod.exists, Option.pure_def,
        Option.some.injEq] at h
      obtain ⟨_, b₁, h₁, _, b₂, h₂, _, b₃, h₃, _, b₄, h₄, _, b₅, h₅, _, b₆, h₆, _, b₇, h₇, _, b₈,
        h₈, _, b₉, h₉, _, b₁₀, h₁₀, rfl⟩ := h
      have := takeU64_length h₁
      have := takeBytes_length h₂
      have := takeBytes_length h₃
      have := takeBytes_length h₄
      have := takeStamp_length h₅
      have := takeStamp_length h₆
      have := takeStamp_length h₇
      have := takeStamp_length h₈
      have := takeStamp_length h₉
      have := takeStamp_length h₁₀
      simp only [length_cons]
      omega
    · simp at h
  · simp at h

theorem decodeSplitCommand_length (h : decodeSplitCommand b = some spec) :
    (encodeDesc spec.left).length ≤ b.length := by
  unfold decodeSplitCommand at h
  split at h
  · simp only [decodeSplit, Option.bind_eq_bind, Option.bind_eq_some_iff, Prod.exists,
      Option.pure_def, Option.some.injEq] at h
    obtain ⟨key, b₁, h₁, left, b₂, h₂, right, b₃, h₃, rfl⟩ := h
    have := takeBytes_length h₁
    have := decodeDescFrom_length h₂
    have := length_drop (i := 1) (l := b)
    simp only
    omega
  · simp at h

theorem decodeCmd_length (h : (decodeCmd b).op = opPut) :
    31 + (decodeCmd b).key.1.length + (decodeCmd b).value.1.length ≤ b.length := by
  have hsome : ∀ o : Option Cmd, (o.getD {}).op = opPut → o = some (o.getD {}) := by
    rintro (_ | c) hc
    · cases hc
    · rfl
  have hr := hsome _ h
  simp only [Option.bind_eq_bind, Option.bind_eq_some_iff, Prod.exists, Option.pure_def,
    Option.some.injEq] at hr
  obtain ⟨op, b₁, h₁, key, b₂, h₂, value, b₃, h₃, ts, b₄, h₄, hc⟩ := hr
  change _ = decodeCmd b at hc
  rw [← hc] at h ⊢
  have hop := takeBytes_length h₁
  have := takeBytes_length h₂
  have := takeBytes_length h₃
  have := takeStamp_length h₄
  have hput : opPut.1.length = 3 := rfl
  rw [show op = opPut from h, hput] at hop
  dsimp only
  omega

end Lengths

/-! ### States whose snapshot can be read back -/

/-- What a command writes is shorter than `2 ^ 32` bytes. -/
def Command.Small : Command → Prop
  | .txn c => 27 + c.key.1.length < 256 ^ 4 ∧
      28 + c.primary.1.length + c.value.1.length < 256 ^ 4
  | .split spec => (encodeDesc spec.left).length < 256 ^ 4
  | .put key _ x => 27 + key.1.length < 256 ^ 4 ∧ x.length < 256 ^ 4
  | .collect _ | .none => True

theorem commandOf_small {data : Bytes} (h : data.length < 256 ^ 4) : (commandOf data).Small := by
  fun_cases commandOf data with
  | case1 _ c hd =>
    have := decodeTxnCommand_length hd
    constructor <;> omega
  | case3 _ _ spec hd => exact (decodeSplitCommand_length hd).trans_lt h
  | case7 _ _ _ _ ho =>
    have := decodeCmd_length ho
    constructor <;> omega
  | _ => trivial

/-- The parts of a range's state fit the fields of its snapshot. -/
structure Range.Sized (r : Range) : Prop where
  desc : (encodeDesc r.desc).length < 256 ^ 4
  key : ∀ k x, (k, x) ∈ r.store.records → k.length < 256 ^ 4
  value : ∀ k x, (k, x) ∈ r.store.records → x.length < 256 ^ 4

theorem length_rangePrefix (id : RangeID) : (rangePrefix id).length = 10 := by simp [rangePrefix]

variable {id rid : RangeID} {m : Machine} {r : Range}

theorem Range.Sized.apply (hr : r.Sized) (hns : r.store.ns = rangePrefix id) {c : Command}
    (hc : c.Small) : (r.apply c).Sized := by
  have hdesc : (encodeDesc (r.apply c).desc).length < 256 ^ 4 := by
    cases c with
    | split spec =>
      simp only [Range.apply]
      split
      · exact hc
      · exact hr.desc
    | _ =>
      rw [desc_apply (by simp)]
      exact hr.desc
  have hnew : ∀ k x, (k, x) ∈ (r.apply c).store.records →
      k.length < 256 ^ 4 ∧ x.length < 256 ^ 4 := by
    intro k x hin
    rcases mem_records_apply hin with hin | ⟨key, n, hw, -, hset⟩
    · exact ⟨hr.key k x hin, hr.value k x hin⟩
    · obtain ⟨hk, hx⟩ := length_staged hset
      rw [hns, length_rangePrefix] at hk
      cases c with
      | txn c | put key' ts y =>
        obtain ⟨rfl, rfl⟩ := hw
        exact ⟨hk.trans_lt (by have := hc.1; omega), hx.trans_lt hc.2⟩
      | _ => exact hw.elim
  exact ⟨hdesc, fun k x hin => (hnew k x hin).1, fun k x hin => (hnew k x hin).2⟩

/-! ### Splits as leaders propose them -/

/-- The cut is the key in the middle of those that are held, and it is not empty. -/
theorem splitKeyFor_eq_some {s : Store} {key : Key} (h : splitKeyFor s.keys = some key) :
    s.keys[s.keys.length / 2]? = some key ∧ s.Holds key ∧ key.1 ≠ [] := by
  unfold splitKeyFor at h
  split_ifs at h with hlen
  have hpos : 0 < s.keys.length / 2 := by omega
  exact ⟨h, Store.mem_keys.mp (mem_of_getElem? h), Store.keys_ne_nil hpos h⟩

/-- The split a leader proposes is a cut of its range at a key of it. -/
theorem Machine.splitSpec_eq_some (hm : m.range.Contained) (hstaged : m.staged = [])
    (h : m.splitSpec rid = some spec) :
    ∃ key, m.desc.contains key ∧ key.1 ≠ [] ∧ spec = SplitSpec.cut m.desc key rid := by
  obtain ⟨key, hkey, rfl⟩ := Option.map_eq_some_iff.mp h
  obtain ⟨-, ⟨ts, x, hget⟩, hne⟩ := splitKeyFor_eq_some hkey
  refine ⟨key, ?_, hne, rfl⟩
  have hin : (encodeKey m.store.ns key ts, x) ∈ m.store.records :=
    Store.mem_records.mpr ⟨Store.owns_metaKey (by simp [Store.kinds]) key _, hget⟩
  rw [Machine.range, hstaged, Store.flush_nil] at hm
  obtain ⟨key', huser, hkey'⟩ := hm _ x hin
  rw [userKeyOf_metaKey m.store (by simp [Store.kinds])] at huser
  exact Option.some.inj huser ▸ hkey'

theorem Machine.cuts_of_splitSpec {ranges : List RangeID} (hm : m.Hosted id ranges)
    (hstaged : m.staged = []) (h : m.splitSpec rid = some spec) : spec.Cuts id := by
  obtain ⟨key, hin, hne, rfl⟩ := splitSpec_eq_some hm.contained hstaged h
  exact ⟨m.desc, key, rid, hm.desc, hin, hne, rfl⟩

/-! ### Births -/

/-- Every record belongs to a key of the range. -/
def Belongs (desc : RangeDescriptor) (rs : List (Bytes × Bytes)) : Prop :=
  ∀ r ∈ rs, ∃ key, ({ ns := rangePrefix desc.id } : Store).userKeyOf r.1 = some key ∧
    desc.contains key

/-- A payload a range can start from: it can be read back, and its records belong to the range. -/
structure Birth (desc : RangeDescriptor) (rs : List (Bytes × Bytes)) : Prop where
  fits : Fits desc rs
  belongs : Belongs desc rs

theorem birth_firstRange : Birth firstRangeDescriptor [] where
  fits := ⟨by decide, by decide, by simp, by simp⟩
  belongs := by simp [Belongs]

theorem userKeyOf_reNamespace {s t : Store} {r : Bytes × Bytes} {key : Key}
    (h : s.userKeyOf r.1 = some key) : t.userKeyOf (reNamespace r s.ns t.ns).1 = some key := by
  unfold Store.userKeyOf at h
  split at h
  · next howns =>
    obtain ⟨kind, hkind, rest, hrest⟩ := Store.owns_iff.mp howns
    have hlen : ¬ r.1.length < s.ns.length := by
      rw [← hrest]
      simp only [length_append, length_cons]
      omega
    have hdrop : r.1.drop s.ns.length = kind :: rest := by
      rw [← hrest, append_assoc, drop_left, singleton_append]
    have howns' : t.owns (t.ns ++ kind :: rest) :=
      Store.owns_iff.mpr ⟨kind, hkind, rest, by simp⟩
    have hpre : s.ns.isPrefixOf r.1 := by
      rw [List.isPrefixOf_iff_prefix, ← hrest, append_assoc]
      exact prefix_append _ _
    rw [reNamespace, if_neg hlen, hdrop]
    simp only [Store.userKeyOf, if_pos howns', drop_left]
    simpa [takeMetaKey, hdrop, hpre] using h
  · simp at h

theorem Machine.belongs_movedRecords (m : Machine) (spec : SplitSpec) :
    Belongs spec.right (m.movedRecords spec) := by
  intro r hr
  obtain ⟨kr, hkr, rfl⟩ := mem_map.mp hr
  obtain ⟨hkeyed, hright⟩ := mem_filter.mp hkr
  obtain ⟨r, -, hkey⟩ := mem_filterMap.mp hkeyed
  obtain ⟨key, huser, rfl⟩ := Option.map_eq_some_iff.mp hkey
  exact ⟨key, userKeyOf_reNamespace (t := { ns := rangePrefix spec.right.id }) huser, hright⟩

variable {desc : RangeDescriptor} {rs : List (Bytes × Bytes)} {es : List Entry} {n : ℕ}

namespace Machine

/-- A replica that takes its state from a payload: on a birth, an install and a restart. -/
def adopt (db : Version) (payload : Bytes) : Option Machine := do
  let (desc, mark, rs) ← decodeMachine payload
  return born db desc rs mark

theorem adopt_encodeMachine (h : Fits desc rs) (db : Version) (mark : Timestamp) :
    adopt db (encodeMachine desc mark rs) = some (born db desc rs mark) := by
  simp [adopt, decodeMachine_encodeMachine h]

theorem newReplay_eq_adopt (payload : Bytes) : newReplay payload = adopt {} payload := rfl

theorem range_born_agree (db db' : Version) (desc : RangeDescriptor) (rs : List (Bytes × Bytes))
    (mark : Timestamp) : (born db desc rs mark).range.Agree (born db' desc rs mark).range := by
  -- Once the range's own keys are cleared, the engines agree on them.
  let s (v : Version) : Store :=
    { ns := rangePrefix desc.id, gcMark := mark,
      db := applyTo v (Store.kinds.map fun kind =>
        .deleteRange (rangePrefix desc.id ++ [kind]) (prefixEnd (rangePrefix desc.id ++ [kind]))) }
  have hclear : (s db).Agree (s db') := by
    refine ⟨rfl, rfl, fun k hk => ?_⟩
    simp only [s, get_applyTo_clear]
    rw [if_pos (Store.owns_iff.mp hk), if_pos (Store.owns_iff.mp hk)]
  have hborn : ∀ v, (born v desc rs mark).store = (s v).flush (rs.map fun r => .set r.1 r.2) := by
    intro v
    simp only [born, ingest, Store.ingestRecordsInto, flush, Store.flush, applyTo_append, s,
      nil_append]
  refine ⟨rfl, ?_⟩
  have hflush := hclear.flush (rs.map fun r => .set r.1 r.2)
  rw [← hborn, ← hborn] at hflush
  exact hflush

theorem hosted_born (h : Belongs desc rs) {ranges : List RangeID} (hmem : desc.id ∈ ranges)
    (db : Version) (mark : Timestamp) : (born db desc rs mark).Hosted desc.id ranges where
  ns := rfl
  desc := rfl
  mem := hmem
  contained := by
    intro k x hin
    exact h _ (mem_records_replaceRecords (s := { ns := rangePrefix desc.id, db := db }) hin)

theorem contained_born (desc : RangeDescriptor) (db : Version) (mark : Timestamp) :
    (born db desc [] mark).range.Contained :=
  (@hosted_born desc [] (by simp [Belongs]) [desc.id] (mem_singleton_self _) db mark).contained

theorem sized_born (h : Fits desc rs) (db : Version) (mark : Timestamp) :
    (born db desc rs mark).range.Sized := by
  have hin : ∀ k x, (k, x) ∈ (born db desc rs mark).range.store.records → (k, x) ∈ rs :=
    fun k x hin => mem_records_replaceRecords (s := { ns := rangePrefix desc.id, db := db }) hin
  exact ⟨h.desc, fun k x hk => h.keys _ (hin k x hk), fun k x hk => h.values _ (hin k x hk)⟩

theorem range_foldl_replayOne (m : Machine) (es : List Entry) :
    (es.foldl replayOne m).range = (commands es).foldl Range.apply m.range := by
  induction es generalizing m with
  | nil => rfl
  | cons e es ih =>
    rw [foldl_cons, ih, range_replayOne]
    rfl

end Machine

/-- The state a range can be asked for. -/
abbrev RangeState := RangeDescriptor × Timestamp × List (Bytes × Bytes)

def Range.state (r : Range) : RangeState := (r.desc, r.store.gcMark, r.store.records)

theorem Range.Agree.state {r' : Range} (h : r.Agree r') : r.state = r'.state := by
  simp only [Range.state, h.desc, h.store.gcMark, h.store.records]

/-- Whoever starts from a payload and applies a log ends in this state: the driver, on any engine,
for any cut of the log into Readies with any writes of others in between, and the replay. -/
structure Settles (id : RangeID) (payload : Bytes) (es : List Entry) (st : RangeState) : Prop where
  driver : ∀ (db : Version) (conf : Entry → Configuration) (ranges : List RangeID)
    (cuts : List (Batch × List Entry)), id ∈ ranges → (∀ p ∈ cuts, Machine.Foreign id p.1) →
    cuts.flatMap (·.2) = es → ∃ m m' ranges', Machine.adopt db payload = some m ∧
      m.applyBatches conf ranges cuts = some (m', ranges') ∧ m'.state = st
  replay : ∃ m, newReplay payload = some m ∧
    (({ machine := m } : Replay).apply es).machine.state = st

/-- Every way of applying a log to a birth payload does what the log's commands do. -/
theorem settles_of_birth (h : Birth desc rs) (mark : Timestamp) (es : List Entry)
    (hsplit : ∀ e ∈ es, ∀ spec, decodeSplitCommand e.data = some spec → spec.Cuts desc.id) :
    Settles desc.id (encodeMachine desc mark rs) es
      ((Machine.commands es).foldl Range.apply (Machine.born {} desc rs mark).range).state where
  driver := by
    rintro db conf ranges cuts hmem hforeign rfl
    obtain ⟨m, ranges', hrun, -, -, hagree⟩ := Machine.range_applyBatches
      (Machine.hosted_born h.belongs hmem db mark) rfl hforeign
      (fun p hp e he => hsplit e (mem_flatMap.mpr ⟨p, hp, he⟩)) conf
    refine ⟨_, m, ranges', Machine.adopt_encodeMachine h.fits db mark, hrun, ?_⟩
    exact (hagree.trans ((Machine.range_born_agree db {} desc rs mark).foldl _)).state
  replay := by
    refine ⟨_, Machine.adopt_encodeMachine h.fits {} mark, ?_⟩
    rw [← Machine.range_foldl_replayOne]
    rfl

/-- What a range keeps along its log. -/
structure Range.Proper (r : Range) (id : RangeID) : Prop where
  ns : r.store.ns = rangePrefix id
  desc : r.desc.id = id
  contained : r.Contained
  sized : r.Sized

theorem Range.Proper.foldl (hr : r.Proper id) (hes : ∀ e ∈ es, e.data.length < 256 ^ 4 ∧
      ∀ spec, decodeSplitCommand e.data = some spec → spec.Cuts id) :
    ((Machine.commands es).foldl Range.apply r).Proper id := by
  induction es generalizing r with
  | nil => exact hr
  | cons e es ih =>
    obtain ⟨hlen, hcuts⟩ := hes e (by simp)
    refine ih ?_ fun e' he' => hes e' (by simp [he'])
    exact
      { ns := (ns_apply r _).trans hr.ns
        desc := Machine.desc_apply_id hr.desc fun spec h =>
          hcuts spec (commandOf_eq_split.mp h)
        contained := hr.contained.apply
        sized := hr.sized.apply hr.ns (commandOf_small hlen) }

theorem Range.Proper.birth (hr : r.Proper id) (hcount : r.store.records.length < 256 ^ 8) :
    Birth r.desc r.store.records where
  fits := ⟨hr.sized.desc, hcount, fun q hq => hr.sized.key q.1 q.2 hq,
    fun q hq => hr.sized.value q.1 q.2 hq⟩
  belongs := by
    intro q hq
    obtain ⟨key, huser, hkey⟩ := hr.contained q.1 q.2 hq
    have hns : ({ ns := rangePrefix r.desc.id } : Store).ns = r.store.ns := by
      rw [hr.ns, ← hr.desc]
    refine ⟨key, ?_, hkey⟩
    rw [Store.userKeyOf] at huser ⊢
    rwa [Store.owns_congr hns, hns]

theorem Range.Proper.born_agree (hr : r.Proper id) (db : Version) :
    (Machine.born db r.desc r.store.records r.store.gcMark).range.Agree r :=
  have hns : rangePrefix r.desc.id = r.store.ns := by rw [hr.ns, hr.desc]
  ⟨rfl, replaceRecords_agree (s := { ns := rangePrefix r.desc.id, db := db }) (t := r.store) hns⟩

/-- Going on from the snapshot of a state is going on from the state. -/
theorem Range.Proper.settles (hr : r.Proper id) (hcount : r.store.records.length < 256 ^ 8)
    (hsplit : ∀ e ∈ es, ∀ spec, decodeSplitCommand e.data = some spec → spec.Cuts id) :
    Settles id (encodeMachine r.desc r.store.gcMark r.store.records) es
      ((Machine.commands es).foldl Range.apply r).state := by
  rw [← hr.desc] at hsplit ⊢
  rw [← ((hr.born_agree {}).foldl _).state]
  exact settles_of_birth (hr.birth hcount) r.store.gcMark es hsplit

/-- **The state of a range is a function of its birth payload and its log.** Every entry is shorter
than `2 ^ 32` bytes, and the splits among them cut some descriptor of the range. Then the driver, for
every cut of the log into Readies, and the replay reach one state, and both reach it again from the
snapshot of the state after any prefix. -/
theorem state_function_of_log (h : Birth desc rs) (mark : Timestamp) (es : List Entry)
    (hes : ∀ e ∈ es, e.data.length < 256 ^ 4 ∧
      ∀ spec, decodeSplitCommand e.data = some spec → spec.Cuts desc.id) :
    ∃ st, Settles desc.id (encodeMachine desc mark rs) es st ∧
      ∀ pre suf, es = pre ++ suf → ∃ d mark' rs',
        Settles desc.id (encodeMachine desc mark rs) pre (d, mark', rs') ∧
        (rs'.length < 256 ^ 8 → Settles desc.id (encodeMachine d mark' rs') suf st) := by
  refine ⟨_, settles_of_birth h mark _ fun e he => (hes e he).2, ?_⟩
  rintro pre suf rfl
  have hpre : ∀ e ∈ pre, e.data.length < 256 ^ 4 ∧
      ∀ spec, decodeSplitCommand e.data = some spec → spec.Cuts desc.id :=
    fun e he => hes e (mem_append_left _ he)
  have hborn : (Machine.born {} desc rs mark).range.Proper desc.id :=
    ⟨rfl, rfl, (Machine.hosted_born h.belongs (mem_singleton.mpr rfl) {} mark).contained,
      Machine.sized_born h.fits {} mark⟩
  have hr := hborn.foldl hpre
  refine ⟨_, _, _, settles_of_birth h mark _ fun e he => (hpre e he).2, fun hcount => ?_⟩
  rw [Machine.commands_append, foldl_append]
  exact hr.settles hcount fun e he => (hes e (mem_append_right _ he)).2

/-- A put and a split on the first range. -/
def putThenSplit : List Entry :=
  [{ term := 1, index := 1,
     data := encodeCmd { op := opPut, key := someKey, value := someKey, ts := { wall := 1 } } },
   { term := 1, index := 2,
     data := encodeSplitCommand (SplitSpec.cut firstRangeDescriptor someKey 2) }]

/-- The hypotheses hold of a log that writes a key and splits the range at it. -/
theorem state_function_of_put_then_split :
    ∃ st, Settles firstRange (encodeMachine firstRangeDescriptor {} []) putThenSplit st ∧
      ∀ pre suf, putThenSplit = pre ++ suf → ∃ d mark' rs',
        Settles firstRange (encodeMachine firstRangeDescriptor {} []) pre (d, mark', rs') ∧
        (rs'.length < 256 ^ 8 → Settles firstRange (encodeMachine d mark' rs') suf st) := by
  refine state_function_of_log birth_firstRange {} putThenSplit fun e he => ?_
  have hdata : e.data.length < 256 ^ 4 ∧ (decodeSplitCommand e.data = none ∨
      decodeSplitCommand e.data = some (SplitSpec.cut firstRangeDescriptor someKey 2)) := by
    revert e
    decide
  refine ⟨hdata.1, fun spec hspec => ?_⟩
  rcases hdata.2 with hnone | hsome
  · simp [hnone] at hspec
  · rw [hsome] at hspec
    exact ⟨_, _, _, rfl, by decide, by decide, (Option.some.inj hspec).symm⟩

/-! ### A key that does not fit -/

/-- A byte string longer than its length field can say is read back as its beginning, and the rest of
it as what follows. -/
theorem takeBytes_putBytes_of_wrap {b r : Bytes} (hb : b.length = 256 ^ 4 + n) (hn : n < 256 ^ 4) :
    takeBytes (putBytes b ++ r) = some (⟨b.take n, by simp only [length_take]; omega⟩,
      b.drop n ++ r) := by
  have hmod : b.length % 256 ^ 4 = n := by rw [hb, Nat.add_mod_left, Nat.mod_eq_of_lt hn]
  rw [putBytes_wrap, hmod, append_assoc]
  exact takeBytes_putBytes ⟨b.take n, by simp only [length_take]; omega⟩ _

theorem records_put_firstRange (key : Key) (x : Bytes) :
    ((Machine.born {} firstRangeDescriptor [] {}).range.apply (.put key { wall := 1 } x)).state =
      (firstRangeDescriptor, {}, [(encodeKey (rangePrefix firstRange) key { wall := 1 }, x)]) := by
  have hborn : (Machine.born {} firstRangeDescriptor [] {}).range =
      ⟨firstRangeDescriptor, { ns := rangePrefix firstRange }⟩ := rfl
  have hkey : firstRangeDescriptor.contains key = true := by
    have hnil : ([] : Bytes) ≤ key.1 := not_lt.mp (not_lt_nil _)
    simp [RangeDescriptor.contains, firstRangeDescriptor, hnil]
  let k := encodeKey (rangePrefix firstRange) key { wall := 1 }
  have hput : ({ ns := rangePrefix firstRange } : Store).putInto [] key { wall := 1 } x =
      .ok [.set k x] := rfl
  have hrecords : (({ ns := rangePrefix firstRange } : Store).flush [.set k x]).records = [(k, x)] := by
    have hentries : (({ ns := rangePrefix firstRange } : Store).flush [.set k x]).db.entries =
      [(k, x)] := rfl
    have howns : (({ ns := rangePrefix firstRange } : Store).flush [.set k x]).owns k :=
      Store.owns_metaKey (s := { ns := rangePrefix firstRange }) (by simp [Store.kinds]) key _
    rw [Store.records_eq, hentries]
    simp [howns]
  rw [hborn, Range.apply, if_pos hkey, Store.step, hput, Store.perform, Range.state, hrecords]
  rfl

/-- A record whose key wraps around its length field is read back as a record of another key. -/
theorem decodeMachine_of_wrap (hdesc : (encodeDesc desc).length < 256 ^ 4) (mark : Timestamp)
    {k x r : Bytes} (hk : k.length = 256 ^ 4 + n) (hn : n < 256 ^ 4)
    (hr : k.drop n = putBytes [] ++ r) :
    decodeMachine (encodeMachine desc mark [(k, x)]) = some (desc, mark, [(k.take n, [])]) := by
  have hempty := takeBytes_putBytes ⟨[], by decide⟩ (r ++ putBytes x)
  have hrecords : takeRecords 1 (putBytes k ++ putBytes x) = some [(k.take n, [])] := by
    simp [takeRecords, takeBytes_putBytes_of_wrap hk hn, hr, hempty]
  have hone : takeBE 8 (putBE 8 1 ++ (putBytes k ++ putBytes x)) = some (1, putBytes k ++ putBytes x) :=
    takeBE_putBE (by decide) _
  simp [decodeMachine, encodeMachine, takeBytes_putBytes_of_lt hdesc, hone, hrecords]

theorem drop_encodeKey_replicate {key : Key} (hkey : key.1 = replicate (15 + n) 0)
    (id : RangeID) (ts : Timestamp) :
    ∃ r, (encodeKey (rangePrefix id) key ts).drop 26 = putBytes [] ++ r := by
  let hd := rangePrefix id ++ dataPrefix :: (putBE 4 key.1.length ++ replicate 11 0)
  have hhd : hd.length = 26 := by simp [hd, length_rangePrefix]
  have hrecord : encodeKey (rangePrefix id) key ts =
      hd ++ (replicate 4 0 ++ (replicate n 0 ++ invertedTS ts)) := by
    have hzeros : key.1 = replicate 11 0 ++ (replicate 4 0 ++ replicate n 0) := by
      rw [replicate_append_replicate, replicate_append_replicate, hkey]
      congr 1
      omega
    simp only [encodeKey, metaKey, putBytes, hd, append_assoc, cons_append]
    nth_rewrite 2 [hzeros]
    simp only [append_assoc]
  refine ⟨replicate n 0 ++ invertedTS ts, ?_⟩
  rw [hrecord, ← hhd, drop_left]
  rfl

theorem encodeCmd_put (c : Cmd) (h : c.op = opPut) :
    ∃ r, encodeCmd c = 0 :: r ∧ commandOf (encodeCmd c) = .put c.key c.ts c.value.1 := by
  obtain ⟨r, hr⟩ : ∃ r, encodeCmd c = 0 :: r := ⟨_, by rw [encodeCmd, h]; rfl⟩
  refine ⟨r, hr, ?_⟩
  have htxn : isTxnCommand (encodeCmd c) = false := by rw [hr]; rfl
  have hsplit : isSplitCommand (encodeCmd c) = false := by rw [hr]; rfl
  have hnil : encodeCmd c ≠ [] := by simp [hr]
  have hgc : opPut ≠ opGC := by decide
  simp [commandOf, htxn, hsplit, hnil, h, hgc]

/-- The put of a value under a key of the first range. -/
def putEntry (key : Key) : Entry where
  term := 1
  index := 1
  data := encodeCmd { op := opPut, key := key, value := someKey, ts := { wall := 1 } }

theorem settles_putEntry (key : Key) :
    Settles firstRange (encodeMachine firstRangeDescriptor {} []) [putEntry key]
      (firstRangeDescriptor, {},
        [(encodeKey (rangePrefix firstRange) key { wall := 1 }, someKey.1)]) := by
  obtain ⟨r, hr, hcmd⟩ := encodeCmd_put
    { op := opPut, key := key, value := someKey, ts := { wall := 1 } } rfl
  have hsettles := settles_of_birth birth_firstRange {} [putEntry key] (by
    intro e he spec hspec
    obtain rfl := mem_singleton.mp he
    rw [putEntry, hr] at hspec
    simp [decodeSplitCommand, isSplitCommand, splitMarker] at hspec)
  rwa [show Machine.commands [putEntry key] = [.put key { wall := 1 } someKey.1] from
    congrArg (fun c => [c]) hcmd, foldl_cons, foldl_nil, records_put_firstRange] at hsettles

/-- Whoever starts from the snapshot of a state whose one record wraps around is in another state. -/
theorem not_settles_of_wrap (hdesc : (encodeDesc desc).length < 256 ^ 4) (mark : Timestamp)
    {k x r : Bytes} (hk : k.length = 256 ^ 4 + n) (hn : n < 256 ^ 4)
    (hr : k.drop n = putBytes [] ++ r) (hx : x ≠ []) (id : RangeID) :
    ¬ Settles id (encodeMachine desc mark [(k, x)]) [] (desc, mark, [(k, x)]) := by
  rintro ⟨-, m, hm, hstate⟩
  have hdec := decodeMachine_of_wrap hdesc mark (x := x) hk hn hr
  obtain rfl : Machine.born {} desc [(k.take n, [])] mark = m := by
    simpa [Machine.newReplay_eq_adopt, Machine.adopt, hdec] using hm
  -- What is adopted holds at most the record that is read back, and its value is empty.
  have hrecords : (Machine.born {} desc [(k.take n, [])] mark).range.store.records = [(k, x)] :=
    congrArg (fun st : RangeState => st.2.2) hstate
  have hin : (k, x) ∈ [(k.take n, ([] : Bytes))] := by
    have hborn : (k, x) ∈ (replaceRecords { ns := rangePrefix desc.id } [(k.take n, [])] mark).records :=
      hrecords ▸ mem_singleton_self _
    exact mem_records_replaceRecords hborn
  simp only [mem_singleton, Prod.mk.injEq] at hin
  exact hx hin.2

/-- A key as long as a command can carry. -/
def longKey : Key := ⟨replicate (256 ^ 4 - 1) 0, by rw [length_replicate]; omega⟩

/-- **The snapshot of a state can lose a record.** After a put under a key of `2 ^ 32 - 1` bytes, the
length of the record's key does not fit the snapshot: who starts from the snapshot is in another
state than the one it was made of. -/
theorem long_key_lost : ∃ st : RangeState,
    Settles firstRange (encodeMachine firstRangeDescriptor {} []) [putEntry longKey] st ∧
    ¬ Settles firstRange (encodeMachine st.1 st.2.1 st.2.2) [] st := by
  obtain ⟨key, hkey⟩ : ∃ key, longKey = key := ⟨_, rfl⟩
  have hzeros : key.1 = replicate (256 ^ 4 - 1) 0 := by rw [← hkey, longKey]
  obtain ⟨n, hn⟩ : ∃ n, 256 ^ 4 - 1 = 15 + n := ⟨256 ^ 4 - 16, by norm_num⟩
  rw [hn] at hzeros
  have hlen : (encodeKey (rangePrefix firstRange) key { wall := 1 }).length = 256 ^ 4 + 26 := by
    have hlength : key.1.length = 15 + n := by rw [hzeros, length_replicate]
    have hts : (invertedTS { wall := 1 }).length = 12 := rfl
    simp only [encodeKey, metaKey, length_append, length_cons, length_putBytes,
      length_rangePrefix, hlength, hts]
    omega
  obtain ⟨r, hr⟩ := drop_encodeKey_replicate hzeros firstRange { wall := 1 }
  rw [hkey]
  exact ⟨_, settles_putEntry key,
    not_settles_of_wrap birth_firstRange.fits.desc {} hlen (by norm_num) hr (by decide) firstRange⟩

end Rift.Driver
