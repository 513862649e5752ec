import Rift.Engine.DB
import Rift.Engine.Manifest
import Rift.Lib.Volume

/-!
# The files of a database

A directory holds logs, tables and manifests, each by number, and the file `CURRENT` that names the
manifest in use. Operations of the environment change one file or sync the directory. A table is written
in many calls and is of no use before the last one: here it is one cell of its file.
-/

namespace Rift.Engine

/-! ### Operations -/

/-- The files of a database. `CURRENT` names a manifest by its number. -/
structure Dir where
  current : Option ℕ := none
  manifests : Volume UInt8 := .empty
  logs : Volume UInt8 := .empty
  tables : Volume Table := .empty

inductive EnvOp
  | createLog (n : ℕ)
  | appendLog (n : ℕ) (bytes : Slice)
  | syncLog (n : ℕ)
  | deleteLog (n : ℕ)
  | createTable (n : ℕ)
  | writeTable (n : ℕ) (t : Table)
  | syncTable (n : ℕ)
  | deleteTable (n : ℕ)
  | appendManifest (n : ℕ) (bytes : Slice)
  | syncManifest (n : ℕ)
  | syncDir

namespace Dir

def perform (d : Dir) : EnvOp → Dir
  | .createLog n => { d with logs := d.logs.create n }
  | .appendLog n bytes => { d with logs := d.logs.append n bytes }
  | .syncLog n => { d with logs := d.logs.sync n }
  | .deleteLog n => { d with logs := d.logs.remove n }
  | .createTable n => { d with tables := d.tables.create n }
  | .writeTable n t => { d with tables := d.tables.append n [t] }
  | .syncTable n => { d with tables := d.tables.sync n }
  | .deleteTable n => { d with tables := d.tables.remove n }
  | .appendManifest n bytes => { d with manifests := d.manifests.append n bytes }
  | .syncManifest n => { d with manifests := d.manifests.sync n }
  | .syncDir =>
    { d with
      manifests := d.manifests.syncDir
      logs := d.logs.syncDir
      tables := d.tables.syncDir }

end Dir

/-! ### Names -/

/-- A number as a file name shows it, with six digits or more. -/
def padded (n : ℕ) : String :=
  String.ofList (List.replicate (6 - (Nat.toDigits 10 n).length) '0' ++ Nat.toDigits 10 n)

def logPath (dir : String) (n : ℕ) : String := dir ++ "/" ++ padded n ++ ".log"

def tablePath (dir : String) (n : ℕ) : String := dir ++ "/" ++ padded n ++ ".sst"

def manifestPath (dir : String) (n : ℕ) : String := dir ++ "/MANIFEST-" ++ padded n

def currentPath (dir : String) : String := dir ++ "/CURRENT"

/-- A name is read back only if it has six digits. -/
def readsBack (n : ℕ) : Bool := n < 10 ^ 6

/-! ### Appending records -/

/-- The calls that append a record from an offset on: what each appends, and the offset that the writer
has after it. The offset moves when a fragment is whole. -/
def calls : ℕ → Bool → ℕ → Slice → List (Slice × ℕ)
  | 0, _, _, _ => []
  | fuel + 1, first, o, p =>
    let left := leftInBlock o
    if left < kMinFragmentBytes then
      (List.replicate left 0, o + left) :: calls fuel first (o + left) p
    else
      let n := min (left - kHeaderBytes) p.length
      let last := n = p.length
      (fragmentHeader (LogWriter.typeOf first last) (p.take n), o) ::
        (p.take n, o + (kHeaderBytes + n)) ::
          if last then [] else calls fuel false (o + (kHeaderBytes + n)) (p.drop n)

def recordCalls (o : ℕ) (p : Slice) : List (Slice × ℕ) := calls (2 * p.length) true o p

/-- The calls that append records one after the other. -/
def logCalls : ℕ → List Slice → List (Slice × ℕ)
  | _, [] => []
  | o, p :: ps => recordCalls o p ++ logCalls (o + (recordBytes o p).length) ps

/-! ### What the manifest records -/

/-- The bytes of an internal key. -/
def InternalKey.encode (k : InternalKey) : Slice := k.userKey ++ putLE 8 k.tag

/-- The record of a table. The builder derives the bounds by the rule that `ValidateTable` checks them
with. -/
def Table.toMeta (t : Table) (fileBytes level : ℕ) : TableMeta where
  number := t.number
  fileBytes := fileBytes
  smallest := t.check.smallestKey.encode
  largest := t.check.largestKey.encode
  largestSeq := t.check.largestSeq
  level := level

/-- The elements of a set, ascending. -/
def ascending (s : Finset ℕ) : List ℕ :=
  Quot.liftOn s.1 (fun l => l.insertionSort (· ≤ ·)) fun a b h =>
    (((List.perm_insertionSort _ a).trans h).trans (List.perm_insertionSort _ b).symm).eq_of_pairwise
      (fun _ _ _ _ => le_antisymm) (List.pairwise_insertionSort _ a) (List.pairwise_insertionSort _ b)

end Rift.Engine
