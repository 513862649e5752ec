import Rift.Engine.Recovery

/-!
# The names of files

A number is written into a name with six digits or more, and is read back from a name with six digits
only: by `ParseLogNumber` when the logs are recovered, by `ParseWalNumber` when old logs are deleted, and
by `ReadCurrent` when the manifest is found. So names and numbers correspond below a million.
-/

namespace Rift.Engine

open List

/-- The loop over the digits of a name. -/
def parseDigits : List Char → ℕ → Option ℕ
  | [], n => some n
  | c :: cs, n => if c.isDigit then parseDigits cs (10 * n + (c.toNat - '0'.toNat)) else none

/-- Six digits between a fixed beginning and a fixed end. -/
def parseSix (before after name : String) : Option ℕ :=
  let cs := name.toList
  if cs.length ≠ before.length + 6 + after.length ∨ cs.take before.length ≠ before.toList ∨
      cs.drop (before.length + 6) ≠ after.toList then none
  else parseDigits ((cs.drop before.length).take 6) 0

/-- The name of a log in its directory. -/
def logName (n : ℕ) : String := padded n ++ ".log"

/-- Of `engine-cpp/src/wal/recovery.cc`. -/
def parseLogNumber (name : String) : Option ℕ := parseSix "" ".log" name

/-- Of `engine-cpp/src/db.cc`. -/
def parseWalNumber (name : String) : Option ℕ := parseSix "" ".log" name

/-- What `InstallCurrent` writes. -/
def currentBody (n : ℕ) : String := "MANIFEST-" ++ padded n ++ "\n"

def readCurrent (dir body : String) : Except OpenError ℕ :=
  match parseSix "MANIFEST-" "\n" body with
  | some n => .ok n
  | none => .error (.corruption (currentPath dir ++ ": not a manifest name"))

theorem parseDigits_eq {cs : List Char} (h : ∀ c ∈ cs, c.isDigit) (n : ℕ) :
    parseDigits cs n = some (Nat.ofDigitChars 10 cs n) := by
  induction cs generalizing n with
  | nil => simp [parseDigits]
  | cons c cs ih =>
    rw [parseDigits, if_pos (h c (by simp)), ih fun c hc => h c (by simp [hc]),
      Nat.ofDigitChars_cons]

theorem parseDigits_padded (n : ℕ) : parseDigits (padded n).toList 0 = some n := by
  rw [padded, String.toList_ofList, parseDigits_eq]
  · rw [Nat.ofDigitChars_append, Nat.ofDigitChars_replicate_zero, mul_zero,
      Nat.ofDigitChars_ten_toDigits]
  · intro c hc
    rcases mem_append.mp hc with hc | hc
    · rw [eq_of_mem_replicate hc]
      rfl
    · exact Nat.isDigit_of_mem_toDigits (by decide) (by decide) hc

theorem length_padded (n : ℕ) : (padded n).length = 6 ↔ readsBack n := by
  have h := Nat.length_toDigits_le_iff (b := 10) (n := n) (k := 6) (by decide) (by decide)
  have hlength : (padded n).length = 6 ↔ (Nat.toDigits 10 n).length ≤ 6 := by
    rw [padded, String.length_ofList, length_append, length_replicate]
    omega
  rw [hlength, h]
  simp [readsBack]

theorem parseSix_append (before after : String) (n : ℕ) :
    parseSix before after (before ++ padded n ++ after) = if readsBack n then some n else none := by
  have hlist : (before ++ padded n ++ after).toList =
      before.toList ++ ((padded n).toList ++ after.toList) := by simp
  rw [parseSix, hlist, drop_left' String.length_toList]
  by_cases h : readsBack n
  · have hsix : (padded n).toList.length = 6 := String.length_toList.trans ((length_padded n).mpr h)
    have hlength : (before.toList ++ (padded n).toList).length = before.length + 6 := by
      rw [length_append, hsix, String.length_toList]
    rw [if_neg, if_pos h, take_left' hsix, parseDigits_padded]
    rintro (hne | hne | hne)
    · exact hne (by rw [← append_assoc, length_append, hlength, String.length_toList])
    · exact hne (take_left' String.length_toList)
    · exact hne (by rw [← append_assoc, drop_left' hlength])
  · have hsix := mt (length_padded n).mp h
    rw [if_pos (Or.inl ?_), if_neg h]
    simp only [length_append, String.length_toList]
    omega

theorem parseLogNumber_logName (n : ℕ) :
    parseLogNumber (logName n) = if readsBack n then some n else none := by
  have h := parseSix_append "" ".log" n
  rwa [String.empty_append] at h

/-- The logs that recovery and deletion see are those whose numbers read back. -/
theorem filterMap_parseLogNumber (ns : List ℕ) :
    (ns.map logName).filterMap parseLogNumber = ns.filter readsBack := by
  rw [filterMap_map, ← filterMap_eq_filter]
  refine filterMap_congr fun n _ => ?_
  simp [parseLogNumber_logName, Option.guard]

theorem readCurrent_currentBody (dir : String) (n : ℕ) :
    readCurrent dir (currentBody n) = if readsBack n then .ok n
      else .error (.corruption (currentPath dir ++ ": not a manifest name")) := by
  rw [readCurrent, currentBody, parseSix_append]
  split_ifs <;> rfl

theorem openDB_of_readCurrent {cfg : Config} {dir : Dir} {n : ℕ} {e : OpenError}
    (hcurrent : dir.current = some n) (h : readCurrent cfg.dir (currentBody n) = .error e) :
    openDB cfg dir = .error e := by
  rw [readCurrent_currentBody] at h
  split_ifs at h with hn
  cases h
  have hread : readManifest cfg dir =
      .error (.corruption (currentPath cfg.dir ++ ": not a manifest name")) := by
    rw [readManifest, hcurrent]
    exact if_pos hn
  rw [openDB, hread]
  rfl

/-- From a million on no name is read back. A database that was opened with such a number for its
manifest does not open again. -/
theorem names_do_not_read_back : parseLogNumber (logName 1000000) = none ∧
    parseWalNumber (logName 1000000) = none ∧
    ∀ cfg dir state tables mem seq, state.nextFileNumber = 1000000 →
      readCurrent cfg.dir (currentBody state.nextFileNumber) =
        .error (.corruption (currentPath cfg.dir ++ ": not a manifest name")) ∧
      openDB cfg (opened cfg dir state tables mem seq).dir =
        .error (.corruption (currentPath cfg.dir ++ ": not a manifest name")) := by
  refine ⟨parseLogNumber_logName 1000000, parseLogNumber_logName 1000000, ?_⟩
  intro cfg dir state tables mem seq h
  have hread : readCurrent cfg.dir (currentBody state.nextFileNumber) =
      .error (.corruption (currentPath cfg.dir ++ ": not a manifest name")) := by
    rw [h]
    exact readCurrent_currentBody cfg.dir 1000000
  exact ⟨hread, openDB_of_readCurrent rfl hread⟩

/-- Below a million, and only there, every name is read back: a log that is there and named is found
when the database is opened, and `CURRENT` is accepted. A database whose manifest has another number is
not opened again. -/
theorem names_read_back (n : ℕ) (dir : String) :
    (n < 10 ^ 6 ↔ parseLogNumber (logName n) = some n ∧ parseWalNumber (logName n) = some n ∧
      readCurrent dir (currentBody n) = .ok n ∧
      ∀ logs : Volume UInt8, n ∈ logs.numbers →
        checkNamed dir ((logs.numbers.map logName).filterMap parseLogNumber) n = .ok ()) ∧
    (¬ n < 10 ^ 6 → ∀ cfg dir state tables mem seq, state.nextFileNumber = n →
      openDB cfg (opened cfg dir state tables mem seq).dir =
        .error (.corruption (currentPath cfg.dir ++ ": not a manifest name"))) := by
  have hback : readsBack n ↔ n < 10 ^ 6 := decide_eq_true_iff
  have hparse : parseLogNumber (logName n) = some n ↔ n < 10 ^ 6 := by
    rw [parseLogNumber_logName]
    simp [hback]
  refine ⟨⟨fun h => ⟨hparse.mpr h, hparse.mpr h, ?_, fun logs hn => ?_⟩, fun h => hparse.mp h.1⟩, ?_⟩
  · rw [readCurrent_currentBody, if_pos (hback.mpr h)]
  · rw [filterMap_parseLogNumber, checkNamed, if_pos (mem_filter.mpr ⟨hn, hback.mpr h⟩)]
  · rintro h cfg dir state tables mem seq rfl
    refine openDB_of_readCurrent rfl ?_
    rw [readCurrent_currentBody, if_neg (hback.not.mpr h)]

theorem names_read_back_last : readCurrent "db" (currentBody 999999) = .ok 999999 :=
  ((names_read_back 999999 "db").1.mp (by decide)).2.2.1

end Rift.Engine
