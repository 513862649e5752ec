import Rift.Engine.Session

/-!
# The durable watermark

`DurableSeq` and the watermark of `Sync` in `engine-cpp/src/db.cc`. The value is the larger one of the
log's own watermark, which begins at zero in every log, and of the floor that flushes raise. It goes
back in three places: between the roll of a log and the installation of the table, when a sync with
nothing to write reports the log alone, and when a database is opened again without a flush.
-/

namespace Rift.Engine

open List Option

open Steps (Along)

/-! ### Runs -/

/-- Between two calls, or in a sync: the state it began in, and the steps still to do. -/
inductive Phase
  | idle
  | syncing (start : Session) (todo : List Micro)

structure Machine where
  session : Session
  phase : Phase := .idle

inductive Event
  | write (b : WriteBatch)
  | beginSync
  | step
  | endSync
  | durableSeq
  | reopen

/-- What happens, and what is reported. To close a database does not touch its files. -/
def Machine.next (m : Machine) (e : Event) : Option (Machine × Option ℕ) :=
  match e, m.phase with
  | .write b, .idle => (m.session.db.write b).map fun r => ({ m with session.db := r.1 }, none)
  | .beginSync, .idle => some ({ m with phase := .syncing m.session m.session.sync }, none)
  | .step, .syncing start (micro :: todo) =>
    (m.session.step micro).map fun s => (⟨s, .syncing start todo⟩, none)
  | .endSync, .syncing start [] => some (⟨m.session, .idle⟩, start.watermark m.session)
  | .durableSeq, _ => some (m, some m.session.db.durableSeq)
  | .reopen, .idle =>
    (openDB m.session.cfg m.session.dir).toOption.map fun s => (⟨s, .idle⟩, none)
  | _, _ => none

/-- Runs whose events all meet a condition, and the values that were reported. -/
inductive Machine.Runs (ok : Event → Machine → Prop) (m₀ : Machine) : Machine → List ℕ → Prop
  | refl : Runs ok m₀ m₀ []
  | next {m m' : Machine} {e : Event} {reported : List ℕ} {value : Option ℕ}
      (h : Runs ok m₀ m reported) (hok : ok e m) (hn : m.next e = some (m', value)) :
      Runs ok m₀ m' (reported ++ value.toList)

/-- A sync that has something to write, or that flushes, or that finds a log ahead of the floor. -/
def Session.Advances (s : Session) : Prop :=
  s.db.wal.buffered ≠ [] ∨ s.db.walSync.1.flushNeeded ∨ s.db.flushedThrough ≤ s.db.durable

/-- The largest sequence of the tables that the manifest of a directory names. -/
def Dir.covered (cfg : Config) (dir : Dir) : ℕ :=
  match readManifest cfg dir with
  | .ok (state, _) => state.covered
  | .error _ => 0

/-- A value is not asked for between the roll of a log and the installation of the table, a sync does
not report a log that is behind the floor, and a database is opened again only if the tables that its
manifest names hold a sequence as high as all that was durable. -/
def Careful : Event → Machine → Prop
  | .durableSeq, m => m.session.db.imm = none
  | .beginSync, m => m.session.Advances
  | .reopen, m => m.session.db.durableSeq ≤ m.session.dir.covered m.session.cfg
  | _, _ => True

instance (s : Session) : Decidable s.Advances :=
  inferInstanceAs (Decidable (_ ∨ _ ∨ _))

instance : ∀ e m, Decidable (Careful e m)
  | .durableSeq, m => decidable_of_iff (m.session.db.imm.isNone = true) isNone_iff_eq_none
  | .beginSync, m => inferInstanceAs (Decidable m.session.Advances)
  | .reopen, _ => inferInstanceAs (Decidable (_ ≤ _))
  | .write _, _ | .step, _ | .endSync, _ => .isTrue trivial

/-- Do events one after the other, as long as they meet the condition. -/
def Machine.play (ok : Event → Machine → Prop) [∀ e m, Decidable (ok e m)] (m : Machine) :
    List Event → Option (Machine × List ℕ)
  | [] => some (m, [])
  | e :: es =>
    if ok e m then do
      let (m, value) ← m.next e
      let (m, values) ← m.play ok es
      return (m, value.toList ++ values)
    else none

/-! ### The floor -/

/-- What is reported next is no less than this. While a table is being written the sequence of the roll
takes the place of the durable one. -/
def Session.floor (s : Session) : ℕ := if s.db.imm.isSome then s.db.seq else s.db.durableSeq

/-- How the numbers of a database are ordered between two calls. -/
structure DBImpl.Ordered (d : DBImpl) : Prop where
  idle : d.imm = none
  durable : d.durable ≤ d.seq
  flushed : d.flushedThrough ≤ d.seq
  high : d.wal.highSeq ≤ d.seq
  buffered : d.wal.buffered ≠ [] → d.durable ≤ d.wal.highSeq ∧ d.flushedThrough ≤ d.wal.highSeq
  openLog : d.wal.closed = false

namespace DBImpl.Ordered

variable {d d' : DBImpl} {w : Option ℕ}

section

variable (h : d.Ordered)
include h

theorem durableSeq_le : d.durableSeq ≤ d.seq := max_le h.durable h.flushed

theorem write {b : WriteBatch} {status : WriteStatus} (hw : d.write b = some (d', status)) :
    d'.Ordered ∧ d'.durableSeq = d.durableSeq := by
  obtain ⟨f, rfl, hclosed, hcases⟩ := write_eq_some hw
  have hopen : f.wal.closed = false := hclosed.trans h.openLog
  refine ⟨?_, rfl⟩
  rcases hcases with ⟨-, hwal, hle⟩ | ⟨hseq, hhigh, -⟩
  · exact ⟨h.idle, h.durable.trans hle, h.flushed.trans hle, hwal ▸ h.high.trans hle,
      hwal ▸ h.buffered, hopen⟩
  · have hle : d.seq ≤ f.seq := hseq ▸ Nat.le_succ _
    have hdur := h.durable.trans hle
    have hflu := h.flushed.trans hle
    exact ⟨h.idle, hdur, hflu, hhigh.le, fun _ => hhigh ▸ ⟨hdur, hflu⟩, hopen⟩

theorem walSync : d.walSync.1.Ordered := by
  unfold DBImpl.walSync
  split_ifs with hb
  · exact h
  · have hne : d.wal.buffered ≠ [] := by simpa using hb
    exact ⟨h.idle, h.high, h.flushed, h.high, fun hb => absurd rfl hb, h.openLog⟩

theorem flush (hf : d.flush = some d') : d'.Ordered := by
  rcases flush_eq_some hf with rfl | ⟨t, -, rfl⟩
  · exact h
  · exact ⟨rfl, Nat.zero_le _, max_le h.flushed le_rfl, Nat.zero_le _, fun hb => absurd rfl hb, rfl⟩

theorem maybeCompact (hc : d.maybeCompact = some d') :
    d'.Ordered ∧ d'.durableSeq = d.durableSeq := by
  rcases maybeCompact_eq_some hc with rfl | ⟨p, hp, hc⟩
  · exact ⟨h, rfl⟩
  · obtain ⟨r, -, rfl⟩ := doCompact_eq_some hp hc
    exact ⟨{ h with }, rfl⟩

theorem sync (hs : d.sync = some (d', w)) : d'.Ordered := by
  have hs : d.perform .sync = some d' := by rw [DBImpl.perform, hs]; rfl
  rcases perform_sync hs with rfl | ⟨d₁, hf, hc⟩
  · exact h
  · refine (DBImpl.Ordered.maybeCompact ?_ hc).1
    unfold syncFlush at hf
    split_ifs at hf
    · exact h.walSync.flush hf
    · exact Option.some.inj hf ▸ h.walSync

theorem durableSeq_of_sync (hn : ¬ d.walSync.1.flushNeeded) (hs : d.sync = some (d', w)) :
    d'.durableSeq = d.walSync.1.durableSeq := by
  unfold DBImpl.sync syncFlush at hs
  rw [if_neg (by simp [h.openLog]), if_neg hn] at hs
  obtain ⟨d₁, hd₁, hs⟩ := bind_eq_some_iff.mp hs
  obtain ⟨d₂, hc, hd'⟩ := bind_eq_some_iff.mp hs
  cases hd₁
  cases hd'
  exact (h.walSync.maybeCompact hc).2

/-- What the log reports is the larger of the two numbers, if it had something to write or is ahead. -/
theorem durableSeq_walSync (hadv : d.wal.buffered ≠ [] ∨ d.flushedThrough ≤ d.durable) :
    d.walSync.1.durableSeq = d.walSync.2 := by
  unfold DBImpl.walSync
  split_ifs with hb
  · rcases hadv with hne | hle
    · exact absurd (by simpa using hb) hne
    · exact max_eq_left hle
  · exact max_eq_left (h.buffered (by simpa using hb)).2

end

end DBImpl.Ordered

namespace Session

variable {s s' : Session}

theorem Quiet.floor_le (h : Quiet s s') : s.floor ≤ s'.floor := by
  rw [h]
  exact le_rfl

/-- No step lowers the floor. -/
def Climbs (s : Session) (ms : List Micro) : Prop :=
  Along step (fun s s' => s.floor ≤ s'.floor) s ms

theorem climbs_of_silent {ms : List Micro} (h : ∀ m ∈ ms, Silent m) : s.Climbs ms :=
  Steps.along_of_forall fun m hm s s' hs => (h m hm s s' hs).floor_le

theorem climbs_walSync (h : s.db.Ordered) : s.Climbs s.walSync := by
  unfold walSync
  split_ifs with hb
  · trivial
  · have hne : s.db.wal.buffered ≠ [] := by simpa using hb
    rintro _ ⟨rfl⟩
    refine ⟨le_rfl, Along.append (climbs_of_silent (silent_appendWal _)) fun s₁ h₁ => ?_⟩
    have hq := quiet_run (silent_appendWal _) h₁
    rintro _ ⟨rfl⟩
    refine ⟨le_rfl, ?_⟩
    rintro _ ⟨rfl⟩
    refine ⟨?_, trivial⟩
    have hidle : s₁.db.imm = none := hq.db ▸ h.idle
    have hdur : s₁.db.durable = s.db.durable := by rw [hq.db]
    unfold floor
    simp only [hidle, isSome_none, Bool.false_eq_true, if_false]
    exact max_le_max (hdur ▸ (h.buffered hne).1) le_rfl

/-- After the roll the floor is the current sequence, and the table brings it back. -/
theorem climbs_writeTable {t w rollSeq : ℕ} (himm : s.db.imm.isSome) (hseq : s.db.seq ≤ rollSeq) :
    s.Climbs (writeTable t w rollSeq s) := by
  unfold writeTable
  split
  · rintro _ ⟨⟩
  · next table ht =>
    refine Along.andThen (climbs_of_silent (by simp [silent_op])) fun s₁ h₁ => ?_
    refine Along.andThen (climbs_of_silent (silent_appendGroup _)) fun s₂ h₂ => ?_
    have hq : Quiet s s₂ := (quiet_run (by simp [silent_op]) h₁).trans (quiet_appendGroup h₂)
    rintro _ ⟨rfl⟩
    refine ⟨le_rfl, ?_⟩
    rintro _ ⟨rfl⟩
    refine ⟨?_, climbs_of_silent (silent_ops _ _ (by simp [silent_op]))⟩
    have himm' : s₂.db.imm.isSome := hq.db ▸ himm
    have hseq' : s₂.db.seq ≤ rollSeq := hq.db ▸ hseq
    unfold floor
    simp only [himm', if_true]
    exact hseq'.trans ((le_max_right _ _).trans (le_max_right _ _))

theorem climbs_openWal {t w : ℕ} : s.Climbs (openWal t w s) := by
  rintro _ ⟨rfl⟩
  exact ⟨le_rfl, climbs_of_silent (forall_mem_cons.mpr
    ⟨silent_op _, silent_ops _ _ (by simp [silent_op])⟩)⟩

theorem climbs_flush (h : s.db.Ordered) : s.Climbs s.flush := by
  unfold flush
  split_ifs
  · trivial
  refine Along.andThen climbs_openWal fun s₁ h₁ => ?_
  refine Along.andThen (climbs_of_silent (silent_appendGroup _)) fun s₂ h₂ => ?_
  have hq : Quiet _ s₂ := (run_openWal h₁).trans (quiet_appendGroup h₂)
  have hle : s₂.db.durableSeq ≤ s₂.db.seq := hq.db ▸ h.durableSeq_le
  have hidle : s₂.db.imm = none := hq.db ▸ h.idle
  have hseq : s₂.db.seq = s.db.seq := by rw [hq.db]
  refine Along.andThen ?_ fun s₃ h₃ => ?_
  · rintro _ ⟨rfl⟩
    refine ⟨?_, climbs_of_silent (by simp [silent_op])⟩
    unfold floor
    simp only [hidle, isSome_none, Bool.false_eq_true, if_false]
    exact hle
  · cases h₃
    exact climbs_writeTable rfl hseq.le

theorem climbs_dropObsolete (held : List ℕ) : s.Climbs (dropObsolete held s) := by
  unfold dropObsolete
  dsimp only
  split_ifs
  · trivial
  · rintro _ ⟨rfl⟩
    exact ⟨le_rfl, climbs_of_silent (silent_ops _ _ (by simp [silent_op]))⟩

theorem climbs_compact : s.Climbs s.compact := by
  unfold compact
  split
  · trivial
  next p _ =>
  split
  · rintro _ ⟨⟩
  next r _ =>
  refine Along.andThen ?_ fun s₁ _ => ?_
  · refine Steps.along_of_forall fun m hm s s' hs => ?_
    rcases mem_append.mp hm with hm | hm
    · obtain ⟨t, -, hm⟩ := mem_flatMap.mp hm
      rcases mem_cons.mp hm with rfl | hm
      · cases hs
        exact le_rfl
      · have : Silent m := by
          simp only [mem_cons, not_mem_nil, or_false] at hm
          rcases hm with rfl | rfl | rfl <;> exact silent_op _
        exact (this s s' hs).floor_le
    · rw [mem_singleton.mp hm] at hs
      exact (silent_op _ s s' hs).floor_le
  refine Along.andThen (climbs_of_silent (silent_appendGroup _)) fun s₂ _ => ?_
  refine Along.andThen ?_ fun s₃ _ => ?_
  · rintro _ ⟨rfl⟩
    refine ⟨le_rfl, fun s₃ h₃ => ⟨?_, trivial⟩⟩
    split_ifs at h₃
    · cases h₃
      exact le_rfl
    · cases h₃
  exact Along.andThen (climbs_dropObsolete _) fun _ _ => climbs_dropObsolete _

theorem climbs_sync (h : s.db.Ordered) : s.Climbs s.sync := by
  unfold sync
  split_ifs
  · trivial
  refine Along.andThen (climbs_walSync h) fun s₁ h₁ => ?_
  have hord : s₁.db.Ordered := (run_walSync h₁).db ▸ h.walSync
  refine Along.andThen ?_ fun _ _ => Along.andThen climbs_compact fun _ _ => climbs_dropObsolete _
  split_ifs
  · exact climbs_flush hord
  · trivial

end Session

/-! ### What is reported -/

variable {cfg : Config} {dir : Dir}

/-- An open database begins at what its tables cover. -/
theorem ordered_opened {s : Session} (h : openDB cfg dir = .ok s) :
    s.db.Ordered ∧ s.db.durableSeq = dir.covered cfg := by
  obtain ⟨state, tables, mem, seq, hread, hrec, rfl⟩ := openDB_eq_ok h
  refine ⟨⟨rfl, Nat.zero_le _, covered_le_of_recoverLocked hrec, Nat.zero_le _,
    fun hb => absurd rfl hb, rfl⟩, ?_⟩
  rw [Dir.covered, hread]
  exact Nat.max_eq_right (Nat.zero_le _)

namespace Session

variable {s s' : Session}

theorem floor_of_ordered (h : s.db.Ordered) : s.floor = s.db.durableSeq := by
  simp [floor, h.idle]

theorem watermark_eq_floor (h : s.db.Ordered) (hadv : s.Advances)
    (hs : Steps.run step s s.sync = some s') : s.watermark s' = some s'.floor := by
  have hsync := run_sync hs
  rw [floor_of_ordered (h.sync hsync), watermark, if_neg (by simp [h.openLog])]
  split_ifs with hn
  · rfl
  · -- without a flush the numbers are those that the log left
    have hadv : s.db.wal.buffered ≠ [] ∨ s.db.flushedThrough ≤ s.db.durable := by
      rcases hadv with hb | hf | hle
      · exact .inl hb
      · exact absurd hf hn
      · exact .inr hle
    rw [h.durableSeq_of_sync hn hsync, h.durableSeq_walSync hadv]

end Session

/-- During a sync, the steps that are left do not lower the floor. -/
def Phase.Holds (s : Session) : Phase → Prop
  | .idle => s.db.Ordered
  | .syncing start todo => start.db.Ordered ∧ start.Advances ∧ s.Climbs todo ∧
      ∃ before, start.sync = before ++ todo ∧ Steps.run Session.step start before = some s

namespace Machine

/-- What was reported ascends, and is not above the floor. -/
structure Holds (m : Machine) (reported : List ℕ) : Prop where
  phase : m.phase.Holds m.session
  ascending : reported.Pairwise (· ≤ ·)
  le_floor : ∀ r ∈ reported, r ≤ m.session.floor

namespace Holds

variable {m m' : Machine} {reported : List ℕ}

theorem quiet (h : m.Holds reported) (hphase : m'.phase.Holds m'.session)
    (hle : m.session.floor ≤ m'.session.floor) : m'.Holds (reported ++ []) := by
  rw [append_nil]
  exact ⟨hphase, h.ascending, fun r hr => (h.le_floor r hr).trans hle⟩

theorem report (h : m.Holds reported) (hphase : m'.phase.Holds m'.session)
    (hsession : m'.session = m.session) : m'.Holds (reported ++ [m.session.floor]) := by
  refine ⟨hphase, pairwise_append.mpr ⟨h.ascending, pairwise_singleton _ _, ?_⟩, ?_⟩
  · rintro r hr _ (_ | ⟨_, ⟨⟩⟩)
    exact h.le_floor r hr
  · rw [hsession]
    intro r hr
    rcases mem_append.mp hr with hr | hr
    · exact h.le_floor r hr
    · exact (mem_singleton.mp hr).le

theorem next (h : m.Holds reported) {e : Event} {value : Option ℕ} (hok : Careful e m)
    (hn : m.next e = some (m', value)) : m'.Holds (reported ++ value.toList) := by
  obtain ⟨s, phase⟩ := m
  cases e with
  | write b =>
    cases phase with
    | syncing => cases hn
    | idle =>
      obtain ⟨⟨d, status⟩, hw, hn⟩ := map_eq_some_iff.mp hn
      cases hn
      have hord : s.db.Ordered := h.phase
      obtain ⟨hord', hseq⟩ := hord.write hw
      refine h.quiet hord' ?_
      rw [Session.floor_of_ordered hord, Session.floor_of_ordered hord', hseq]
  | beginSync =>
    cases phase with
    | syncing => cases hn
    | idle =>
      cases hn
      have hord : s.db.Ordered := h.phase
      exact h.quiet ⟨hord, hok, Session.climbs_sync hord, [], rfl, rfl⟩ le_rfl
  | step =>
    rcases phase with _ | ⟨start, _ | ⟨micro, todo⟩⟩
    · cases hn
    · cases hn
    · obtain ⟨s', hs', hn⟩ := map_eq_some_iff.mp hn
      cases hn
      obtain ⟨hord, hadv, hclimb, before, hsync, hrun⟩ := h.phase
      obtain ⟨hle, hrest⟩ := hclimb s' hs'
      refine h.quiet ⟨hord, hadv, hrest, before ++ [micro], by simpa using hsync, ?_⟩ hle
      rw [Steps.run_append, hrun]
      simpa [Steps.run_cons] using hs'
  | endSync =>
    rcases phase with _ | ⟨start, _ | ⟨micro, todo⟩⟩
    · cases hn
    · cases hn
      obtain ⟨hord, hadv, -, before, hsync, hrun⟩ := h.phase
      rw [append_nil] at hsync
      rw [← hsync] at hrun
      rw [Session.watermark_eq_floor hord hadv hrun]
      exact h.report (hord.sync (Session.run_sync hrun)) rfl
    · cases hn
  | durableSeq =>
    cases hn
    have hidle : s.db.imm = none := hok
    have hfloor : s.floor = s.db.durableSeq := by simp [Session.floor, hidle]
    rw [← hfloor]
    exact h.report h.phase rfl
  | reopen =>
    cases phase with
    | syncing => cases hn
    | idle =>
      obtain ⟨s', hopen, hn⟩ := map_eq_some_iff.mp hn
      cases hn
      obtain ⟨hord', hseq⟩ := ordered_opened (Manifest.eq_ok_of_toOption hopen)
      refine h.quiet hord' ?_
      rw [Session.floor_of_ordered h.phase, Session.floor_of_ordered hord', hseq]
      exact hok

end Holds

variable {reported : List ℕ}

theorem Runs.holds {m₀ m : Machine} (h₀ : m₀.Holds []) (h : Runs Careful m₀ m reported) :
    m.Holds reported := by
  induction h with
  | refl => exact h₀
  | next _ hok hn ih => exact ih.next hok hn

variable {ok : Event → Machine → Prop} {es : List Event}

theorem Runs.append {m₀ m m' : Machine} {xs ys : List ℕ} (h : Runs ok m₀ m xs)
    (h' : Runs ok m m' ys) : Runs ok m₀ m' (xs ++ ys) := by
  induction h' with
  | refl => simpa using h
  | next _ hok hn ih =>
    rw [← append_assoc]
    exact ih.next hok hn

theorem runs_of_play [∀ e m, Decidable (ok e m)] {m m' : Machine}
    (h : m.play ok es = some (m', reported)) : Runs ok m m' reported := by
  induction es generalizing m reported with
  | nil =>
    cases h
    exact .refl
  | cons e es ih =>
    unfold play at h
    split_ifs at h with hok
    obtain ⟨⟨m₁, value⟩, hn, h⟩ := bind_eq_some_iff.mp h
    obtain ⟨⟨m₂, values⟩, hp, h⟩ := bind_eq_some_iff.mp h
    cases h
    exact Runs.append (Runs.refl.next hok hn) (ih hp)

/-- What an empty directory and some events report. -/
def reports (ok : Event → Machine → Prop) [∀ e m, Decidable (ok e m)] (cfg : Config)
    (es : List Event) : Option (List ℕ) :=
  (openDB cfg {}).toOption.bind fun s => (play ok ⟨s, .idle⟩ es).map (·.2)

theorem exists_runs_of_reports [∀ e m, Decidable (ok e m)] (h : reports ok cfg es = some reported) :
    ∃ s m, openDB cfg {} = .ok s ∧ Runs ok ⟨s, .idle⟩ m reported := by
  obtain ⟨s, hopen, h⟩ := bind_eq_some_iff.mp h
  obtain ⟨⟨m, _⟩, hplay, rfl⟩ := map_eq_some_iff.mp h
  exact ⟨s, m, Manifest.eq_ok_of_toOption hopen, runs_of_play hplay⟩

/-- A memtable of so many entries is flushed. -/
def flushingAt (entries : ℕ) : Config :=
  { dir := "db", caps := ⟨100, 200, 0⟩, flushBytes := entries,
    memoryUsage := fun m => m.entries.length, fileBytes := fun t => t.entries.length }

/-- A sync of so many steps. -/
def syncOf (steps : ℕ) : List Event := .beginSync :: replicate steps .step ++ [.endSync]

/-- In careful runs what is reported never goes back. -/
theorem Runs.ascending {s : Session} {m : Machine} (hopen : openDB cfg dir = .ok s)
    (h : Runs Careful ⟨s, .idle⟩ m reported) : reported.Pairwise (· ≤ ·) := by
  have h₀ : Holds ⟨s, .idle⟩ [] :=
    ⟨(ordered_opened hopen).1, .nil, fun _ hr => absurd hr not_mem_nil⟩
  exact (h.holds h₀).ascending

/-- Two syncs that flush, and a database that is opened again. -/
theorem exists_runs_ascending : ∃ s m, openDB (flushingAt 1) {} = .ok s ∧
    Runs Careful ⟨s, .idle⟩ m [1, 1, 2, 2, 2] ∧ [1, 1, 2, 2, 2].Pairwise (· ≤ ·) := by
  have h : reports Careful (flushingAt 1) (.write [.set [1] [7]] :: syncOf 52 ++
      [.durableSeq, .write [.set [1] [8]]] ++ syncOf 52 ++ [.durableSeq, .reopen, .durableSeq]) =
      some [1, 1, 2, 2, 2] := by
    decide +kernel
  obtain ⟨s, m, hopen, hruns⟩ := exists_runs_of_reports h
  exact ⟨s, m, hopen, hruns, hruns.ascending hopen⟩

/-- A sync that finds nothing to write after a flush reports zero. -/
theorem exists_runs_descending : ∃ s m, openDB (flushingAt 1) {} = .ok s ∧
    Runs (fun _ _ => True) ⟨s, .idle⟩ m [1, 0] ∧ ¬ [1, 0].Pairwise (· ≤ ·) := by
  have h : reports (fun _ _ => True) (flushingAt 1)
      (.write [.set [1] [7]] :: syncOf 52 ++ syncOf 0) = some [1, 0] := by
    decide +kernel
  obtain ⟨s, m, hopen, hruns⟩ := exists_runs_of_reports h
  exact ⟨s, m, hopen, hruns, by decide⟩

/-- Before the roll, and after it. -/
example : reports (fun _ _ => True) (flushingAt 1)
    (.write [.set [1] [7]] :: .beginSync :: replicate 30 .step ++
      [.durableSeq, .step, .durableSeq]) = some [1, 0] := by
  decide +kernel

/-- Opened again without a flush, a database has only what its tables cover. -/
example : reports (fun _ _ => True) (flushingAt 2)
    (.write [.set [1] [7]] :: syncOf 11 ++ [.reopen, .durableSeq]) = some [1, 0] := by
  decide +kernel

/-- An empty batch takes a sequence that no table holds. -/
example : reports (fun _ _ => True) (flushingAt 1)
    (.write [.set [1] [7]] :: .write [] :: syncOf 56 ++ [.reopen, .durableSeq]) = some [2, 1] := by
  decide +kernel

end Machine

end Rift.Engine
