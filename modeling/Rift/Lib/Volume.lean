import Rift.Lib.OrderedMap

/-!
# Files in a directory

Numbered files in a directory. A file is appended to and synced; its name is made durable by a sync of
the directory, and so is the removal of its name.

## Main definitions

* `VolumeFile`, `Volume` — files, with `create`, `append`, `sync`, `remove` and `syncDir`
-/

namespace Rift

variable {α : Type*}

/-- A file. -/
structure VolumeFile (α : Type*) where
  data : List α := []
  /-- How much of the data was there at the last sync. -/
  synced : ℕ := 0
  /-- The directory holds the name. -/
  linked : Bool := true
  /-- The directory held the name when it was last synced. -/
  durable : Bool := false
  deriving DecidableEq

/-- The files of one kind, by their numbers. -/
abbrev Volume (α : Type*) := OrderedMap ℕ (VolumeFile α)

namespace Volume

variable (d : Volume α) (n : ℕ)

/-- Change one file, if there is one of this number. -/
def modify (g : VolumeFile α → VolumeFile α) : Volume α :=
  match d.get n with
  | none => d
  | some f => d.set n (g f)

/-- A new and empty file. A file that has the name is truncated. -/
def create : Volume α := d.set n { durable := (d.get n).any (·.durable) }

def append (xs : List α) : Volume α := d.modify n fun f => { f with data := f.data ++ xs }

def sync : Volume α := d.modify n fun f => { f with synced := f.data.length }

def remove : Volume α := d.modify n fun f => { f with linked := false }

/-- Sync the directory. -/
def syncDir : Volume α :=
  d.filterMap fun f => if f.linked then some { f with durable := true } else none

/-- The numbers of the files that the directory holds, ascending. -/
def numbers : List ℕ := (d.entries.filter (·.2.linked)).map (·.1)

/-- Read a file. -/
def read : Option (List α) := ((d.get n).filter (·.linked)).map (·.data)

end Volume

end Rift
