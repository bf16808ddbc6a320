import OpSys.Search.Utils

/-!
# Directory trees

A directory is what `readdir` delivers of it, in its order: the entries with their
`d_type`, and for each directory its own listing.  The names of an entry, from the start
directory down, are its place; it tells the files of a tree apart.

## Main definitions

* `Kind`, `Listing` — the entries of a directory.
* `Place`, `FileEntry`, `Listing.files` — the files of a tree, at any depth.
* `Wanted` — the regular files that satisfy the comparison.
* `Setting` — what the searches depend on besides the tree.
-/

namespace OpSys
namespace Search

/-- What an entry is that is not a directory. -/
inductive Kind
  | regular
  | symlink
  | fifo
  | socket
  | charDevice
  | blockDevice
  deriving DecidableEq, Repr

/-- What `readdir` still delivers. -/
inductive Listing
  | done
  | file (name : List UInt8) (kind : Kind) (stat : Stat) (rest : Listing)
  | dir (name : List UInt8) (entries rest : Listing)
  deriving DecidableEq, Repr

/-- The names that lead to an entry from the start directory. -/
abbrev Place := List (List UInt8)

/-- A file of a tree. -/
structure FileEntry where
  place : Place
  kind : Kind
  stat : Stat
  deriving DecidableEq, Repr

/-- The names `"."` and `".."`. -/
def isDots (name : List UInt8) : Prop := name = [46] ∨ name = [46, 46]

instance (name : List UInt8) : Decidable (isDots name) := inferInstanceAs (Decidable (_ ∨ _))

/-- The files below the directory `place`.  The names `"."` and `".."` are of directories
that are not below it. -/
def Listing.files (place : Place) : Listing → List FileEntry
  | .done => []
  | .file name kind stat rest => ⟨place ++ [name], kind, stat⟩ :: rest.files place
  | .dir name entries rest =>
    (if isDots name then [] else entries.files (place ++ [name])) ++ rest.files place

@[simp] theorem Listing.files_done (place : Place) : Listing.done.files place = [] := rfl

@[simp] theorem Listing.files_file (place : Place) (name : List UInt8) (kind : Kind) (stat : Stat)
    (rest : Listing) : (Listing.file name kind stat rest).files place =
      ⟨place ++ [name], kind, stat⟩ :: rest.files place := rfl

@[simp] theorem Listing.files_dots {name : List UInt8} (h : isDots name) (place : Place)
    (entries rest : Listing) : (Listing.dir name entries rest).files place = rest.files place := by
  rw [Listing.files, if_pos h, List.nil_append]

@[simp] theorem Listing.files_dir {name : List UInt8} (h : ¬isDots name) (place : Place)
    (entries rest : Listing) : (Listing.dir name entries rest).files place =
      entries.files (place ++ [name]) ++ rest.files place := by
  rw [Listing.files, if_neg h]

/-- What a search finds outside its arguments: the local time, what `getcwd` delivers and
the directories that can be opened. -/
structure Setting where
  zone : Zone
  cwd : List UInt8
  opens : Place → Bool

/-- A setting for examples: the time 1546300800 in UTC, and directories that all open. -/
def newYear : Setting where
  zone := ⟨fun _ => ⟨119, 0, 1, 0, 0, 0⟩, fun _ => []⟩
  cwd := ascii "/home"
  opens := fun _ => true

/-- The modification time of a file satisfies the comparison. -/
def Satisfies (zone : Zone) (request : Request) (stat : Stat) : Prop :=
  request.compareFunc (formatTime zone stat.mtime) request.date = 0

instance (zone : Zone) (request : Request) (stat : Stat) :
    Decidable (Satisfies zone request stat) := inferInstanceAs (Decidable (_ = _))

/-- The file is regular and satisfies the comparison. -/
def Wanted (zone : Zone) (request : Request) (kind : Kind) (stat : Stat) : Prop :=
  kind = .regular ∧ Satisfies zone request stat

instance (zone : Zone) (request : Request) (kind : Kind) (stat : Stat) :
    Decidable (Wanted zone request kind stat) := inferInstanceAs (Decidable (_ ∧ _))

end Search
end OpSys
