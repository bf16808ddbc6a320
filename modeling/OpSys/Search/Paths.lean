import OpSys.Search.Status
import OpSys.Search.Walks

/-!
# Paths in their buffers

The paths that the searches build, now with the size of each buffer checked.  The path of an
entry always fits, as its buffer is made for it.  The absolute path goes through two buffers
of fixed sizes, which deep trees and long working directories overrun.

## Main definitions

* `strcpy`, `strcat`, `getcwd` — copies into a buffer; `none` when it is left, or not filled.
* `copyNewPath`, `copyAbsPath` — how the searches build their paths.
* `ownPath`, `expectedPath` — the path of an entry, and what it is made into.
* `copyEntries`, `copySearchFiles` — the search by hand with these paths.
* `CopiesOk` — the same for the next step of the processes.
* `Fits` — the path of a wanted file fits into the buffers.

## Main results

* `copyNewPath_eq`, `copyAbsPath_eq` — what fits is right.
* `copySearchFiles_some`, `CopiesOk.record_eq` — the searches of before, with these paths.
* `copyEntries_iff`, `Moves.pending_iff` — the files of a listing, and of the processes.
* `paths_iff` — when all paths are right.

## References

`lab2_file_system/search_dir/utils.c`, `lab2_file_system/search_dir/search_stat.c`,
`lab3_processes/search_dir_mult_ps/search_proc.c`.
-/

namespace OpSys
namespace Search

open Buffered (Discipline fullyBuffered)

/-! ### Copies into buffers -/

/-- `strcpy` into a buffer of `size` bytes. -/
def strcpy (size : ℕ) (src : List UInt8) : Option (List UInt8) :=
  if src.length < size then some src else none

/-- `strcat` to the string `dst` in a buffer of `size` bytes. -/
def strcat (size : ℕ) (dst src : List UInt8) : Option (List UInt8) :=
  if dst.length + src.length < size then some (dst ++ src) else none

/-- `getcwd`: a working directory that does not fit leaves the buffer without a string. -/
def getcwd (size : ℕ) (cwd : List UInt8) : Option (List UInt8) :=
  if cwd.length < size then some cwd else none

/-- A slash behind the string in the buffer, unless `text[strlen(text)-1]` is one.  The empty
string has no such byte. -/
def addSlash (size : ℕ) (buf text : List UInt8) : Option (List UInt8) :=
  text.getLast?.bind fun last => if last ≠ 47 then strcat size buf [47] else some buf

/-- The path of an entry, in memory from `malloc(strlen(dirname) + sizeof("/") + …)`. -/
def copyNewPath (dirname name : List UInt8) : Option (List UInt8) :=
  let size := dirname.length + 2 + name.length
  (strcpy size dirname).bind fun path =>
    (addSlash size path dirname).bind fun path => strcat size path name

/-- `to_absolute`, with `cwd[500]` and `abs_path[600]`. -/
def copyAbsolute (cwd fpath : List UInt8) : Option (List UInt8) :=
  (getcwd 500 cwd).bind fun cwd =>
    (strcpy 600 cwd).bind fun path =>
      (addSlash 600 path fpath).bind fun path => strcat 600 path fpath

/-- The path that is handed to `print_file_details`. -/
def copyAbsPath (cwd path : List UInt8) : Option (List UInt8) :=
  if path.head? ≠ some 47 then copyAbsolute cwd path else some path

theorem strcpy_some {size : ℕ} {src out : List UInt8} (h : strcpy size src = some out) :
    out = src := by
  rw [strcpy] at h
  split at h
  · exact (Option.some.inj h).symm
  · cases h

theorem getcwd_some {size : ℕ} {cwd out : List UInt8} (h : getcwd size cwd = some out) :
    out = cwd := strcpy_some h

theorem strcat_some {size : ℕ} {dst src out : List UInt8} (h : strcat size dst src = some out) :
    out = dst ++ src := by
  rw [strcat] at h
  split at h
  · exact (Option.some.inj h).symm
  · cases h

theorem addSlash_some {size : ℕ} {buf text out : List UInt8}
    (h : addSlash size buf text = some out) :
    out = buf ++ if text.getLast? ≠ some 47 then [47] else [] := by
  rw [addSlash] at h
  obtain ⟨last, hlast, h⟩ := Option.bind_eq_some_iff.mp h
  rw [hlast]
  by_cases hslash : last = 47
  · rw [if_neg (not_not.mpr hslash)] at h
    rw [hslash, if_neg (not_not.mpr rfl), List.append_nil]
    exact (Option.some.inj h).symm
  · rw [if_pos hslash] at h
    rw [if_pos fun heq => hslash (Option.some.inj heq)]
    exact strcat_some h

theorem copyNewPath_some {dirname name path : List UInt8}
    (h : copyNewPath dirname name = some path) : path = newPath dirname name := by
  rw [copyNewPath] at h
  obtain ⟨start, hstart, h⟩ := Option.bind_eq_some_iff.mp h
  obtain ⟨slashed, hslashed, h⟩ := Option.bind_eq_some_iff.mp h
  rw [strcat_some h, addSlash_some hslashed, strcpy_some hstart]
  rfl

theorem copyAbsPath_some {cwd path out : List UInt8} (h : copyAbsPath cwd path = some out) :
    out = absPath cwd path := by
  rw [copyAbsPath] at h
  rw [absPath]
  by_cases hhead : path.head? ≠ some 47
  · rw [if_pos hhead] at h ⊢
    rw [copyAbsolute] at h
    obtain ⟨dir, hdir, h⟩ := Option.bind_eq_some_iff.mp h
    obtain ⟨start, hstart, h⟩ := Option.bind_eq_some_iff.mp h
    obtain ⟨slashed, hslashed, h⟩ := Option.bind_eq_some_iff.mp h
    rw [strcat_some h, addSlash_some hslashed, strcpy_some hstart, getcwd_some hdir]
    rfl
  · rw [if_neg hhead] at h ⊢
    exact (Option.some.inj h).symm

/-! ### What the paths should be -/

/-- What `readdir` promises of a name. -/
def GoodName (name : List UInt8) : Prop := name ≠ [] ∧ (47 : UInt8) ∉ name

/-- The path of an entry: the start directory and the names below it, with one slash before
each. -/
def ownPath (dirname : List UInt8) : Place → List UInt8
  | [] => dirname
  | name :: names =>
    dirname ++ (if dirname.getLast? = some 47 then [] else [47]) ++ name ++
      names.flatMap fun name => 47 :: name

/-- The same, made absolute. -/
def expectedPath (cwd dirname : List UInt8) (place : Place) : List UInt8 :=
  if dirname.head? = some 47 then ownPath dirname place else cwd ++ 47 :: ownPath dirname place

/-- The path of the file, if it is wanted and has to be made absolute, fits into the buffers. -/
def Fits (s : Setting) (request : Request) (f : FileEntry) : Prop :=
  Wanted s.zone request f.kind f.stat → request.dirname.head? ≠ some 47 →
    s.cwd.length < 500 ∧ s.cwd.length + 1 + (ownPath request.dirname f.place).length < 600

/-- The names of a tree. -/
def Listing.Named : Listing → Prop
  | .done => True
  | .file name _ _ rest => GoodName name ∧ rest.Named
  | .dir name entries rest => GoodName name ∧ entries.Named ∧ rest.Named

/-- The files below the directory `place` that are reached through directories that open. -/
def Listing.reached (opens : Place → Bool) (place : Place) : Listing → List FileEntry
  | .done => []
  | .file name kind stat rest => ⟨place ++ [name], kind, stat⟩ :: rest.reached opens place
  | .dir name entries rest =>
    (if ¬isDots name ∧ opens (place ++ [name]) then entries.reached opens (place ++ [name])
    else []) ++ rest.reached opens place

/-! ### The path of an entry -/

section Paths

variable {cwd dirname name : List UInt8} {place : Place}

theorem addSlash_eq {size : ℕ} {buf text : List UInt8} (hne : text ≠ [])
    (hfits : buf.length + 1 < size) :
    addSlash size buf text = some (buf ++ if text.getLast? ≠ some 47 then [47] else []) := by
  rw [addSlash]
  cases hlast : text.getLast? with
  | none => exact absurd (List.getLast?_eq_none_iff.mp hlast) hne
  | some last =>
    rw [Option.bind_some]
    by_cases hslash : last = 47
    · rw [hslash, if_neg (not_not.mpr rfl), if_neg (not_not.mpr rfl), List.append_nil]
    · have hne' : some last ≠ some 47 := fun h => hslash (Option.some.inj h)
      rw [if_pos hslash, if_pos hne']
      exact if_pos hfits

/-- The buffer for the path of an entry is large enough. -/
theorem copyNewPath_eq (hdirname : dirname ≠ []) (name : List UInt8) :
    copyNewPath dirname name = some (newPath dirname name) := by
  have hcopy : strcpy (dirname.length + 2 + name.length) dirname = some dirname :=
    if_pos (by omega)
  have hfits : dirname.length + 1 < dirname.length + 2 + name.length := by omega
  have hslash := addSlash_eq hdirname hfits
  have hlength : (dirname ++ if dirname.getLast? ≠ some 47 then [47] else []).length ≤
      dirname.length + 1 := by
    rw [List.length_append]
    split
    · exact Nat.le_refl _
    · exact Nat.le_succ _
  rw [copyNewPath, hcopy, Option.bind_some, hslash, Option.bind_some, strcat, if_pos (by omega)]
  rfl

/-- A list of good names does not end with a slash. -/
theorem getLast?_names_ne (before name : List UInt8) (hname : GoodName name) (names : Place)
    (hnames : ∀ n ∈ names, GoodName n) :
    (before ++ name ++ names.flatMap fun name => 47 :: name).getLast? ≠ some 47 := by
  induction names generalizing before name with
  | nil =>
    rw [List.flatMap_nil, List.append_nil, List.getLast?_append_of_ne_nil _ hname.1]
    intro hlast
    exact hname.2 (List.mem_of_getLast? hlast)
  | cons n names ih =>
    obtain ⟨hn, hnames⟩ := List.forall_mem_cons.mp hnames
    have hsame : before ++ name ++ ((47 :: n) ++ names.flatMap fun name => 47 :: name) =
        before ++ name ++ [47] ++ n ++ names.flatMap fun name => 47 :: name := by
      simp only [List.append_assoc, List.cons_append, List.nil_append]
    rw [List.flatMap_cons, hsame]
    exact ih _ n hn hnames

/-- Nor does the path of an entry. -/
theorem getLast?_ownPath_ne {names : Place} (hplace : ∀ n ∈ name :: names, GoodName n) :
    (ownPath dirname (name :: names)).getLast? ≠ some 47 := by
  obtain ⟨hname, hnames⟩ := List.forall_mem_cons.mp hplace
  exact getLast?_names_ne _ name hname names hnames

/-- **The path that a search builds** is that of the entry. -/
theorem newPath_ownPath (dirname name : List UInt8) (hplace : ∀ n ∈ place, GoodName n) :
    newPath (ownPath dirname place) name = ownPath dirname (place ++ [name]) := by
  cases place with
  | nil =>
    rw [newPath, ownPath, List.nil_append, ownPath, List.flatMap_nil, List.append_nil]
    by_cases hslash : dirname.getLast? = some 47
    · rw [if_neg (not_not.mpr hslash), if_pos hslash]
    · rw [if_pos hslash, if_neg hslash]
  | cons n names =>
    rw [newPath, if_pos (getLast?_ownPath_ne hplace), List.cons_append, ownPath, ownPath,
      List.flatMap_append]
    simp only [List.append_assoc, List.flatMap_cons, List.flatMap_nil, List.cons_append,
      List.nil_append, List.append_nil]

theorem head?_ownPath (hdirname : dirname ≠ []) (place : Place) :
    (ownPath dirname place).head? = dirname.head? := by
  obtain ⟨b, bs, rfl⟩ := List.exists_cons_of_ne_nil hdirname
  cases place <;> rfl

theorem ownPath_ne_nil (hdirname : dirname ≠ []) (place : Place) : ownPath dirname place ≠ [] := by
  intro hnil
  have hhead := head?_ownPath hdirname place
  rw [hnil] at hhead
  exact hdirname (List.head?_eq_none_iff.mp hhead.symm)

/-- **The absolute path** is right if it fits, and otherwise overruns its buffers. -/
theorem copyAbsPath_eq (hdirname : dirname ≠ []) {names : Place}
    (hplace : ∀ n ∈ name :: names, GoodName n) :
    copyAbsPath cwd (ownPath dirname (name :: names)) =
      if dirname.head? ≠ some 47 → cwd.length < 500 ∧
          cwd.length + 1 + (ownPath dirname (name :: names)).length < 600 then
        some (expectedPath cwd dirname (name :: names))
      else none := by
  rw [copyAbsPath, head?_ownPath hdirname, expectedPath]
  by_cases hhead : dirname.head? = some 47
  · rw [if_neg (not_not.mpr hhead), if_pos fun h => absurd hhead h, if_pos hhead]
  -- a relative path: the working directory goes before it, when both fit
  rw [if_pos hhead, if_neg hhead, copyAbsolute]
  simp only [hhead, ne_eq, not_false_eq_true, forall_const]
  have hlast : (ownPath dirname (name :: names)).getLast? ≠ some 47 := getLast?_ownPath_ne hplace
  have hne := ownPath_ne_nil hdirname (name :: names)
  by_cases hcwd : cwd.length < 500
  · have hget : getcwd 500 cwd = some cwd := if_pos hcwd
    have hcopy : strcpy 600 cwd = some cwd := if_pos (by omega)
    rw [hget, Option.bind_some, hcopy, Option.bind_some, addSlash_eq hne (by omega), if_pos hlast,
      Option.bind_some, strcat, List.length_append, List.length_singleton]
    by_cases hfits : cwd.length + 1 + (ownPath dirname (name :: names)).length < 600
    · rw [if_pos hfits, if_pos ⟨hcwd, hfits⟩, List.append_assoc]
      rfl
    · rw [if_neg hfits, if_neg fun h => hfits h.2]
  · have hget : getcwd 500 cwd = none := if_neg hcwd
    rw [hget, if_neg fun h => hcwd h.1]
    rfl

end Paths

/-! ### The search by hand -/

section Stat

variable (s : Setting) (request : Request)

/-- The loop of `deep_search_files`, with the copies of the paths. -/
def copyEntries (dirname : List UInt8) (place : Place) : Listing → Option (List Report)
  | .done => some []
  | .file name kind stat rest =>
    (copyNewPath dirname name).bind fun path =>
      (if Wanted s.zone request kind stat then
        (copyAbsPath s.cwd path).map fun absPath =>
          [⟨⟨place ++ [name], kind, stat⟩, absPath, formatTime s.zone stat.mtime⟩]
      else some []).bind fun reports =>
        (copyEntries dirname place rest).map fun more => reports ++ more
  | .dir name entries rest =>
    (copyNewPath dirname name).bind fun path =>
      (if ¬isDots name ∧ s.opens (place ++ [name]) then
        -- the call of `deep_search_files` for the subdirectory
        copyEntries path (place ++ [name]) entries
      else some []).bind fun reports =>
        (copyEntries dirname place rest).map fun more => reports ++ more

/-- `deep_search_files` of `search_stat`, for the start directory. -/
def copySearchFiles (entries : Listing) : Option (ℤ × List Report) :=
  if s.opens [] then
    (copyEntries s request request.dirname [] entries).map fun reports => (0, reports)
  else some (1, [])

/-- Every path that is handed to `print_file_details` is that of its file. -/
def PathsRight (reports : List Report) : Prop :=
  ∀ report ∈ reports, report.absPath = expectedPath s.cwd request.dirname report.file.place

variable {s request}

theorem pathsRight_append {reports more : List Report} :
    PathsRight s request (reports ++ more) ↔
      PathsRight s request reports ∧ PathsRight s request more := List.forall_mem_append

theorem fits_of_not_wanted {f : FileEntry} (h : ¬Wanted s.zone request f.kind f.stat) :
    Fits s request f := fun hwanted => absurd hwanted h

/-- The absolute path of a wanted file, by whether it fits. -/
theorem copyAbsPath_own (hdirname : request.dirname ≠ []) {place : Place} {name : List UInt8}
    (hplace : ∀ n ∈ place ++ [name], GoodName n) {kind : Kind} {stat : Stat}
    (hwanted : Wanted s.zone request kind stat) :
    (Fits s request ⟨place ++ [name], kind, stat⟩ ∧
      copyAbsPath s.cwd (ownPath request.dirname (place ++ [name])) =
        some (expectedPath s.cwd request.dirname (place ++ [name]))) ∨
    (¬Fits s request ⟨place ++ [name], kind, stat⟩ ∧
      copyAbsPath s.cwd (ownPath request.dirname (place ++ [name])) = none) := by
  obtain ⟨first, names, hcons⟩ := List.exists_cons_of_ne_nil (List.concat_ne_nil name place)
  rw [hcons] at hplace
  have heq : copyAbsPath s.cwd _ = _ := copyAbsPath_eq hdirname hplace
  rw [← hcons] at heq
  by_cases hfits : Fits s request ⟨place ++ [name], kind, stat⟩
  · exact Or.inl ⟨hfits, heq.trans (if_pos (hfits hwanted))⟩
  · exact Or.inr ⟨hfits, heq.trans (if_neg fun h => hfits fun _ => h)⟩

/-- Two parts of a search come out right iff both do. -/
theorem right_append {first rest : Option (List Report)} :
    (∃ reports, (first.bind fun reports => rest.map fun more => reports ++ more) = some reports ∧
        PathsRight s request reports) ↔
      (∃ reports, first = some reports ∧ PathsRight s request reports) ∧
        ∃ reports, rest = some reports ∧ PathsRight s request reports := by
  cases first with
  | none => simp
  | some reports =>
    cases rest with
    | none => simp
    | some more =>
      rw [Option.bind_some, Option.map_some]
      constructor
      · rintro ⟨all, hall, hright⟩
        rw [← Option.some.inj hall, pathsRight_append] at hright
        exact ⟨⟨reports, rfl, hright.1⟩, more, rfl, hright.2⟩
      · rintro ⟨⟨_, hreports, hfirst⟩, _, hmore, hrest⟩
        obtain rfl := Option.some.inj hreports
        obtain rfl := Option.some.inj hmore
        exact ⟨_, rfl, pathsRight_append.mpr ⟨hfirst, hrest⟩⟩

/-- **The paths of a listing are right** iff those of its wanted files fit. -/
theorem copyEntries_iff (hdirname : request.dirname ≠ []) {place : Place} {entries : Listing}
    (hnamed : entries.Named) (hplace : ∀ n ∈ place, GoodName n) :
    (∃ reports, copyEntries s request (ownPath request.dirname place) place entries = some reports ∧
        PathsRight s request reports) ↔
      ∀ f ∈ entries.reached s.opens place, Fits s request f := by
  induction entries generalizing place with
  | done => exact iff_of_true ⟨[], rfl, nofun⟩ nofun
  | file name kind stat rest ih =>
    obtain ⟨hname, hrest⟩ := hnamed
    have hplace' : ∀ n ∈ place ++ [name], GoodName n := by
      rw [List.forall_mem_append]
      exact ⟨hplace, fun n hn => List.mem_singleton.mp hn ▸ hname⟩
    rw [copyEntries, copyNewPath_eq (ownPath_ne_nil hdirname place), Option.bind_some,
      newPath_ownPath _ _ hplace, right_append, ih hrest hplace, Listing.reached,
      List.forall_mem_cons]
    refine and_congr_left' ?_
    -- only a file that is wanted has its path copied
    by_cases hwanted : Wanted s.zone request kind stat
    · rw [if_pos hwanted]
      rcases copyAbsPath_own hdirname hplace' hwanted with ⟨hfits, hcopy⟩ | ⟨hfits, hcopy⟩
      · rw [hcopy, Option.map_some]
        refine iff_of_true ⟨_, rfl, fun report hreport => ?_⟩ hfits
        rw [List.mem_singleton.mp hreport]
      · rw [hcopy, Option.map_none]
        refine iff_of_false ?_ hfits
        rintro ⟨reports, hnone, _⟩
        cases hnone
    · rw [if_neg hwanted]
      exact iff_of_true ⟨[], rfl, nofun⟩ (fits_of_not_wanted hwanted)
  | dir name entries rest ihEntries ihRest =>
    obtain ⟨hname, hentries, hrest⟩ := hnamed
    have hplace' : ∀ n ∈ place ++ [name], GoodName n := by
      rw [List.forall_mem_append]
      exact ⟨hplace, fun n hn => List.mem_singleton.mp hn ▸ hname⟩
    rw [copyEntries, copyNewPath_eq (ownPath_ne_nil hdirname place), Option.bind_some,
      newPath_ownPath _ _ hplace, right_append, ihRest hrest hplace, Listing.reached,
      -- `.` and `..` and a directory that is not opened are passed over
      List.forall_mem_append]
    refine and_congr_left' ?_
    by_cases hopens : ¬isDots name ∧ s.opens (place ++ [name])
    · rw [if_pos hopens, if_pos hopens]
      exact ihEntries hentries hplace'
    · rw [if_neg hopens, if_neg hopens]
      exact iff_of_true ⟨[], rfl, nofun⟩ nofun

/-- The files of a tree that are reached. -/
def reachedFiles (s : Setting) (entries : Listing) : List FileEntry :=
  if s.opens [] then entries.reached s.opens [] else []

/-- **The search by hand** comes to its end with the right paths iff those of the wanted files
fit. -/
theorem copySearchFiles_iff (hdirname : request.dirname = [] → s.opens [] = false)
    {entries : Listing} (hnamed : entries.Named) :
    (∃ result, copySearchFiles s request entries = some result ∧
        PathsRight s request result.2) ↔
      ∀ f ∈ reachedFiles s entries, Fits s request f := by
  rw [copySearchFiles, reachedFiles]
  by_cases hopens : s.opens [] = true
  · have hne : request.dirname ≠ [] := by
      -- the name given on the command line is not empty, or it would not be opened
      intro hnil
      rw [hdirname hnil] at hopens
      cases hopens
    have hiff := copyEntries_iff (s := s) hne hnamed (List.forall_mem_nil _)
    rw [if_pos hopens, if_pos hopens, ← hiff, ownPath]
    cases copyEntries s request request.dirname [] entries with
    | none => simp
    | some reports =>
      rw [Option.map_some]
      constructor
      · rintro ⟨_, hresult, hright⟩
        rw [← Option.some.inj hresult] at hright
        exact ⟨reports, rfl, hright⟩
      · rintro ⟨_, hreports, hright⟩
        rw [← Option.some.inj hreports] at hright
        exact ⟨(0, reports), rfl, hright⟩
  · rw [if_neg hopens, if_neg hopens]
    exact iff_of_true ⟨(1, []), rfl, nofun⟩ nofun

/-- Without the sizes of the buffers the search is the one of before. -/
theorem copyEntries_some {dirname : List UInt8} {place : Place} {entries : Listing}
    {reports : List Report} (h : copyEntries s request dirname place entries = some reports) :
    reports = readEntries s request dirname place entries := by
  induction entries generalizing dirname place reports with
  | done => exact (Option.some.inj h).symm
  | file name kind stat rest ih =>
    rw [copyEntries] at h
    obtain ⟨path, hpath, h⟩ := Option.bind_eq_some_iff.mp h
    obtain ⟨first, hfirst, h⟩ := Option.bind_eq_some_iff.mp h
    obtain ⟨more, hmore, rfl⟩ := Option.map_eq_some_iff.mp h
    rw [readEntries, ih hmore, ← copyNewPath_some hpath]
    congr 1
    by_cases hwanted : Wanted s.zone request kind stat
    · rw [if_pos hwanted] at hfirst
      obtain ⟨p, hp, rfl⟩ := Option.map_eq_some_iff.mp hfirst
      rw [copyAbsPath_some hp, if_pos hwanted.1]
      exact (if_pos hwanted.2).symm
    · rw [if_neg hwanted] at hfirst
      obtain rfl := Option.some.inj hfirst
      split
      · rename_i hkind
        exact (if_neg fun h => hwanted ⟨hkind, h⟩).symm
      · rfl
  | dir name entries rest ihEntries ihRest =>
    rw [copyEntries] at h
    obtain ⟨path, hpath, h⟩ := Option.bind_eq_some_iff.mp h
    obtain ⟨first, hfirst, h⟩ := Option.bind_eq_some_iff.mp h
    obtain ⟨more, hmore, rfl⟩ := Option.map_eq_some_iff.mp h
    rw [readEntries, ihRest hmore, ← copyNewPath_some hpath]
    congr 1
    by_cases hopens : ¬isDots name ∧ s.opens (place ++ [name])
    · rw [if_pos hopens] at hfirst
      rw [if_pos hopens.1, if_pos hopens.2]
      exact ihEntries hfirst
    · rw [if_neg hopens] at hfirst
      obtain rfl := Option.some.inj hfirst
      split
      · rename_i hdots
        exact (if_neg fun h => hopens ⟨hdots, h⟩).symm
      · rfl

theorem copySearchFiles_some {entries : Listing} {result : ℤ × List Report}
    (h : copySearchFiles s request entries = some result) :
    result = deepSearchFiles s request entries := by
  rw [copySearchFiles] at h
  rw [deepSearchFiles]
  by_cases hopens : s.opens [] = true
  · rw [if_pos hopens] at h ⊢
    obtain ⟨reports, hreports, rfl⟩ := Option.map_eq_some_iff.mp h
    rw [copyEntries_some hreports]
  · rw [if_neg hopens] at h ⊢
    exact (Option.some.inj h).symm

end Stat

/-! ### The processes -/

section Processes

/-- The files that a process still reaches. -/
def Process.pending (opens : Place → Bool) (p : Process) : List FileEntry :=
  match p.result with
  | none => p.top.rest.reached opens p.top.place
  | some _ => []

/-- The files that the processes still reach. -/
def Family.pending (opens : Place → Bool) (s : Family) : List FileEntry :=
  s.current.pending opens ++ s.waiting.flatMap (Process.pending opens)

/-- The next step builds its paths within their buffers, and right. -/
def CopiesOk (r : Run) (s : Family) : Prop :=
  s.status = none → s.current.result = none →
    match s.current.top.rest with
    | .done => True
    | .file name kind stat _ =>
      ∃ path, copyNewPath s.current.top.dirname name = some path ∧
        path = ownPath r.dirname (s.current.top.place ++ [name]) ∧
        (Wanted r.zone r.toRequest kind stat →
          copyAbsPath r.cwd path =
            some (expectedPath r.cwd r.dirname (s.current.top.place ++ [name])))
    | .dir name _ _ =>
      copyNewPath s.current.top.dirname name =
        some (ownPath r.dirname (s.current.top.place ++ [name]))

/-- An activation that reads its directory has the path of it. -/
structure FrameOk (r : Run) (frame : Frame) : Prop where
  start : r.dirname ≠ []
  path : frame.dirname = ownPath r.dirname frame.place
  place : ∀ n ∈ frame.place, GoodName n
  named : frame.rest.Named

/-- What holds of the processes all along. -/
structure PathInv (r : Run) (s : Family) : Prop where
  status : StatusInv r s
  reading : ∀ p ∈ s.current :: s.waiting, p.result = none → FrameOk r p.top
  ended : s.status ≠ none → s.waiting = [] ∧ s.current.result ≠ none

variable {r : Run} {d : Discipline UInt8} {s s' : Family} {p : Process}
  {opens : Place → Bool}

theorem pending_reading (h : p.result = none) :
    p.pending opens = p.top.rest.reached opens p.top.place := by
  rw [Process.pending, h]

theorem pending_returning {result : ℤ} (h : p.result = some result) : p.pending opens = [] := by
  rw [Process.pending, h]

theorem forall_pending {P : FileEntry → Prop} (opens : Place → Bool) (s : Family) :
    (∀ f ∈ s.pending opens, P f) ↔
      (∀ f ∈ s.current.pending opens, P f) ∧
        ∀ f ∈ s.waiting.flatMap (Process.pending opens), P f := List.forall_mem_append

theorem copiesOk_done (hrest : s.current.top.rest = .done) : CopiesOk r s := by
  intro _ _
  rw [hrest]
  trivial

theorem copiesOk_returning {result : ℤ} (hresult : s.current.result = some result) :
    CopiesOk r s := by
  intro _ hnone
  rw [hresult] at hnone
  cases hnone

theorem FrameOk.newPath_eq {frame : Frame} (h : FrameOk r frame) (name : List UInt8) :
    copyNewPath frame.dirname name = some (ownPath r.dirname (frame.place ++ [name])) := by
  rw [h.path, copyNewPath_eq (ownPath_ne_nil h.start _), newPath_ownPath _ _ h.place]

theorem copiesOk_dir {name : List UInt8} {entries rest : Listing}
    (hframe : FrameOk r s.current.top) (hrest : s.current.top.rest = .dir name entries rest) :
    CopiesOk r s := by
  intro _ _
  rw [hrest]
  exact hframe.newPath_eq name

theorem copiesOk_file {name : List UInt8} {kind : Kind} {stat : Stat} {rest : Listing}
    (hstatus : s.status = none) (hresult : s.current.result = none)
    (hframe : FrameOk r s.current.top) (hrest : s.current.top.rest = .file name kind stat rest) :
    CopiesOk r s ↔
      Fits r.toSetting r.toRequest ⟨s.current.top.place ++ [name], kind, stat⟩ := by
  have hname : GoodName name := by
    have hnamed := hframe.named
    rw [hrest] at hnamed
    exact hnamed.1
  have hplace : ∀ n ∈ s.current.top.place ++ [name], GoodName n := by
    rw [List.forall_mem_append]
    exact ⟨hframe.place, fun n hn => List.mem_singleton.mp hn ▸ hname⟩
  have hnew := hframe.newPath_eq name
  rw [CopiesOk]
  simp only [hstatus, hresult, hrest, forall_const]
  by_cases hwanted : Wanted r.zone r.toRequest kind stat
  · rcases copyAbsPath_own (s := r.toSetting) hframe.start hplace hwanted with
      ⟨hfits, hcopy⟩ | ⟨hfits, hcopy⟩
    · exact iff_of_true ⟨_, hnew, rfl, fun _ => hcopy⟩ hfits
    · refine iff_of_false ?_ hfits
      rintro ⟨_, _, rfl, habs⟩
      rw [hcopy] at habs
      cases habs hwanted
  · refine iff_of_true ⟨_, hnew, rfl, fun h => absurd h hwanted⟩ ?_
    exact fits_of_not_wanted hwanted

/-- The record that the step prints has the expected path. -/
theorem CopiesOk.record_eq {name : List UInt8} {kind : Kind} {stat : Stat} {rest : Listing}
    (h : CopiesOk r s) (hstatus : s.status = none) (hresult : s.current.result = none)
    (hrest : s.current.top.rest = .file name kind stat rest)
    (hwanted : Wanted r.zone r.toRequest kind stat) :
    s.current.record r name stat = printFileDetailsOf s.current.ppid s.current.pid
      (expectedPath r.cwd r.dirname (s.current.top.place ++ [name]))
      (formatTime r.zone stat.mtime) stat := by
  have hcopies := h hstatus hresult
  rw [hrest] at hcopies
  obtain ⟨path, hpath, -, habs⟩ := hcopies
  rw [Process.record, copyAbsPath_some (habs hwanted), copyNewPath_some hpath]

/-- A child reaches the files of its directory, if this opens. -/
theorem pending_call (p : Process) (name : List UInt8) (entries : Listing) :
    (p.call r name entries).pending r.opens =
      if r.opens (p.top.place ++ [name]) then
        entries.reached r.opens (p.top.place ++ [name])
      else [] := by
  by_cases hopens : r.opens (p.top.place ++ [name]) = true
  · rw [if_pos hopens]
    exact pending_reading (p := p.call r name entries) (if_pos hopens)
  · rw [if_neg hopens]
    exact pending_returning (p := p.call r name entries) (if_neg hopens)

/-- **A step** is right iff the file that it passes fits; the others stay to be reached. -/
theorem Moves.pending_iff (h : Moves r d s s') (hinv : PathInv r s) (hstatus : s.status = none) :
    (∀ f ∈ s.pending r.opens, Fits r.toSetting r.toRequest f) ↔
      CopiesOk r s ∧ ∀ f ∈ s'.pending r.opens, Fits r.toSetting r.toRequest f := by
  rw [forall_pending, forall_pending, ← and_assoc]
  have hchain := hinv.status.chain hstatus
  cases h with
  | listed hresult hrest =>
    refine and_congr_left' (iff_of_true ?_ ⟨copiesOk_done hrest, nofun⟩)
    rw [pending_reading hresult, hrest]
    exact nofun
  | @unwanted name kind stat rest hresult hrest hnot =>
    have hframe := hinv.reading _ List.mem_cons_self hresult
    have hnext : (s.current.readOn rest).pending r.opens = rest.reached r.opens _ :=
      pending_reading (p := s.current.readOn rest) hresult
    refine and_congr_left' ?_
    rw [hnext, pending_reading hresult, hrest, Listing.reached, List.forall_mem_cons,
      copiesOk_file hstatus hresult hframe hrest]
    rfl
  | @printed name kind stat rest hresult hrest hwanted =>
    have hframe := hinv.reading _ List.mem_cons_self hresult
    have hnext : (s.current.report r d name stat rest).2.pending r.opens = rest.reached r.opens _ :=
      pending_reading (p := (s.current.report r d name stat rest).2) hresult
    refine and_congr_left' ?_
    rw [hnext, pending_reading hresult, hrest, Listing.reached, List.forall_mem_cons,
      copiesOk_file hstatus hresult hframe hrest]
    rfl
  | @dots name entries rest hresult hrest hdots =>
    have hframe := hinv.reading _ List.mem_cons_self hresult
    have hnext : (s.current.readOn rest).pending r.opens = rest.reached r.opens _ :=
      pending_reading (p := s.current.readOn rest) hresult
    refine and_congr_left' ?_
    rw [hnext, pending_reading hresult, hrest, Listing.reached, if_neg fun h => h.1 hdots,
      List.nil_append]
    exact (and_iff_right (copiesOk_dir hframe hrest)).symm
  | @forked name entries rest hresult hrest hdots =>
    have hframe := hinv.reading _ List.mem_cons_self hresult
    have hparent : (s.current.readOn rest).pending r.opens = rest.reached r.opens _ :=
      pending_reading (p := s.current.readOn rest) hresult
    rw [pending_call, List.flatMap_cons, List.forall_mem_append, hparent, pending_reading hresult,
      hrest, Listing.reached, List.forall_mem_append]
    simp only [hdots, not_false_eq_true, true_and]
    rw [and_iff_right (copiesOk_dir hframe hrest), and_assoc]
    rfl
  | @returned result frame frames hresult hbelow =>
    refine and_congr_left' (iff_of_true ?_ ⟨copiesOk_returning hresult, nofun⟩)
    rw [pending_returning hresult]
    exact nofun
  | @resumed result parent waiting hresult hbelow hwaiting =>
    rw [hwaiting] at hchain
    have hzero : result = 0 := Option.some.inj (hresult.symm.trans (hchain.1 hbelow))
    rw [pending_returning hresult, hwaiting, List.flatMap_cons, List.forall_mem_append]
    simp only [hzero, ne_eq, not_true_eq_false, if_false]
    rw [and_iff_right (copiesOk_returning hresult)]
    exact and_iff_right nofun
  | @finished result hresult hbelow hwaiting =>
    have hnext : s.current.flush.pending r.opens = [] :=
      pending_returning (p := s.current.flush) hresult
    rw [hnext, pending_returning hresult, hwaiting]
    exact and_congr_left' (iff_of_true nofun ⟨copiesOk_returning hresult, nofun⟩)

/-! ### The invariant -/

theorem FrameOk.readOn {frame : Frame} (h : FrameOk r frame) {rest : Listing}
    (hrest : rest.Named) : FrameOk r { frame with rest := rest } :=
  ⟨h.start, h.path, h.place, hrest⟩

theorem pathInv_start (hdirname : r.dirname = [] → r.opens [] = false) {entries : Listing}
    (hnamed : entries.Named) : PathInv r (start r entries) := by
  refine ⟨statusInv_start r entries, fun p hp hresult => ?_, fun hne => absurd rfl hne⟩
  obtain rfl := List.mem_singleton.mp hp
  refine ⟨fun hnil => ?_, rfl, nofun, hnamed⟩
  have hclosed : (start r entries).current.result = some 1 := by
    have hopens := hdirname hnil
    exact if_neg (by rw [hopens]; exact Bool.false_ne_true)
  rw [hclosed] at hresult
  cases hresult

theorem pathInv_step (h : PathInv r s) (hstep : step r d s = some s') : PathInv r s' := by
  have hstatusInv := statusInv_step h.status hstep
  obtain ⟨hstatus, hmoves⟩ := step_cases hstep
  have hwaits : ∀ p ∈ s.waiting, p.result = none → FrameOk r p.top :=
    fun p hp => h.reading p (List.mem_cons_of_mem _ hp)
  have hrunning : ∀ {s' : Family}, s'.status = s.status → s'.status ≠ none →
      s'.waiting = [] ∧ s'.current.result ≠ none :=
    fun hsame hne => absurd (hsame.trans hstatus) hne
  cases hmoves with
  | listed hresult hrest =>
    refine ⟨hstatusInv, List.forall_mem_cons.mpr ⟨nofun, hwaits⟩, hrunning rfl⟩
  | @unwanted name kind stat rest hresult hrest hnot =>
    have hframe := h.reading _ List.mem_cons_self hresult
    have hnamed := hframe.named
    rw [hrest] at hnamed
    exact ⟨hstatusInv, List.forall_mem_cons.mpr ⟨fun _ => hframe.readOn hnamed.2, hwaits⟩,
      hrunning rfl⟩
  | @printed name kind stat rest hresult hrest hwanted =>
    have hframe := h.reading _ List.mem_cons_self hresult
    have hnamed := hframe.named
    rw [hrest] at hnamed
    exact ⟨hstatusInv, List.forall_mem_cons.mpr ⟨fun _ => hframe.readOn hnamed.2, hwaits⟩,
      hrunning rfl⟩
  | @dots name entries rest hresult hrest hdots =>
    have hframe := h.reading _ List.mem_cons_self hresult
    have hnamed := hframe.named
    rw [hrest] at hnamed
    exact ⟨hstatusInv, List.forall_mem_cons.mpr ⟨fun _ => hframe.readOn hnamed.2.2, hwaits⟩,
      hrunning rfl⟩
  | @forked name entries rest hresult hrest hdots =>
    have hframe := h.reading _ List.mem_cons_self hresult
    have hnamed := hframe.named
    rw [hrest] at hnamed
    refine ⟨hstatusInv, List.forall_mem_cons.mpr ⟨fun _ => ?_, ?_⟩, hrunning rfl⟩
    · have hplace : ∀ n ∈ s.current.top.place ++ [name], GoodName n := by
        rw [List.forall_mem_append]
        exact ⟨hframe.place, fun n hn => List.mem_singleton.mp hn ▸ hnamed.1⟩
      refine ⟨hframe.start, ?_, hplace, hnamed.2.1⟩
      exact (congrArg (newPath · name) hframe.path).trans (newPath_ownPath _ _ hframe.place)
    · exact List.forall_mem_cons.mpr ⟨fun _ => hframe.readOn hnamed.2.2, hwaits⟩
  | returned hresult hbelow =>
    exact ⟨hstatusInv, List.forall_mem_cons.mpr ⟨nofun, hwaits⟩, hrunning rfl⟩
  | @resumed result parent waiting hresult hbelow hwaiting =>
    rw [hwaiting] at hwaits
    obtain ⟨hparent, hwaits⟩ := List.forall_mem_cons.mp hwaits
    refine ⟨hstatusInv, List.forall_mem_cons.mpr ⟨?_, hwaits⟩, hrunning rfl⟩
    by_cases hne : result ≠ 0
    · rw [if_pos hne]
      exact nofun
    · rw [if_neg hne]
      exact hparent
  | @finished result hresult hbelow hwaiting =>
    have hended : s.current.flush.result ≠ none := by
      intro hnone
      exact Option.some_ne_none result (hresult.symm.trans hnone)
    refine ⟨hstatusInv, List.forall_mem_cons.mpr ⟨fun hnone => absurd hnone hended, nofun⟩,
      fun _ => ⟨rfl, hended⟩⟩

/-! ### Whole searches -/

theorem pending_start (r : Run) (entries : Listing) :
    (start r entries).pending r.opens = reachedFiles r.toSetting entries := by
  rw [Family.pending, reachedFiles]
  by_cases hopens : r.opens [] = true
  · have hreading : (start r entries).current.pending r.opens = entries.reached r.opens [] :=
      pending_reading (p := (start r entries).current) (if_pos hopens)
    rw [if_pos hopens, hreading]
    exact List.append_nil _
  · have hreturning : (start r entries).current.pending r.opens = [] :=
      pending_returning (p := (start r entries).current) (if_neg hopens)
    rw [if_neg hopens, hreturning]
    rfl

theorem PathInv.pending_ended (h : PathInv r s) (hended : s.status ≠ none) :
    s.pending r.opens = [] := by
  obtain ⟨hwaiting, hresult⟩ := h.ended hended
  obtain ⟨result, hresult⟩ := Option.ne_none_iff_exists'.mp hresult
  rw [Family.pending, hwaiting, pending_returning hresult]
  rfl

/-- **The processes** build the right paths iff those of the wanted files fit. -/
theorem copiesOk_iff (d : Discipline UInt8) (hdirname : r.dirname = [] → r.opens [] = false)
    {entries : Listing} (hnamed : entries.Named) :
    (∀ s, (search r d).Reach (start r entries) s → CopiesOk r s) ↔
      ∀ f ∈ reachedFiles r.toSetting entries, Fits r.toSetting r.toRequest f := by
  have hinv : ∀ {s}, (search r d).Reach (start r entries) s → PathInv r s := by
    intro s hs
    refine Machine.Reach.invariant ?_ hs (pathInv_start hdirname hnamed)
    intro _ t t' ht hstep
    exact pathInv_step ht hstep
  rw [← pending_start]
  constructor
  · intro hcopies
    obtain ⟨final, hreach, hended⟩ := exists_ends r d entries
    -- nothing is left at the end, and every step passes a file that fits
    have hback : ∀ s, (search r d).Reach (start r entries) s →
        (∀ f ∈ s.pending r.opens, Fits r.toSetting r.toRequest f) →
          ∀ f ∈ (start r entries).pending r.opens, Fits r.toSetting r.toRequest f := by
      intro s hs
      induction hs with
      | refl => exact id
      | @tail t t' hreach hlast ih =>
        obtain ⟨_, hstep⟩ := hlast
        obtain ⟨hstatus, hmoves⟩ := step_cases hstep
        intro hnext
        exact ih ((hmoves.pending_iff (hinv hreach) hstatus).mpr ⟨hcopies t hreach, hnext⟩)
    apply hback final hreach
    rw [(hinv hreach).pending_ended hended]
    exact nofun
  · intro hstart s hs
    have hpending : ∀ f ∈ s.pending r.opens, Fits r.toSetting r.toRequest f := by
      induction hs with
      | refl => exact hstart
      | @tail t t' hreach hlast ih =>
        obtain ⟨_, hstep⟩ := hlast
        obtain ⟨hstatus, hmoves⟩ := step_cases hstep
        exact ((hmoves.pending_iff (hinv hreach) hstatus).mp ih).2
    by_cases hstatus : s.status = none
    · exact ((moves_advance r d s).pending_iff (hinv hs) hstatus).mp hpending |>.1
    · exact fun hnone => absurd hnone hstatus

/-- A wanted file in a working directory of 500 bytes. -/
def longDirectory : Run where
  zone := newYear.zone
  cwd := 47 :: List.replicate 499 97
  opens := fun _ => true
  toRequest := ⟨ascii "dir", lessThan, ascii "2020-01-01 00:00:00"⟩
  shell := 100
  pid := fun _ => 101

def oneFile : Listing := .file (ascii "notes") .regular ⟨0o644, 1546300800, 12⟩ .done

/-- The working directory does not fit into `cwd[500]`. -/
theorem not_right_long :
    (longDirectory.cwd.length = 500 ∧ oneFile.Named) ∧
    (¬∃ result, copySearchFiles longDirectory.toSetting longDirectory.toRequest oneFile =
        some result ∧ PathsRight longDirectory.toSetting longDirectory.toRequest result.2) ∧
    ¬∀ s, (search longDirectory (fullyBuffered 4096)).Reach (start longDirectory oneFile) s →
      CopiesOk longDirectory s := by
  have hnamed : oneFile.Named := ⟨⟨by decide, by decide⟩, trivial⟩
  have hdirname : longDirectory.dirname = [] → longDirectory.opens [] = false :=
    fun hnil => absurd hnil (by decide)
  have hlength : longDirectory.cwd.length = 500 := congrArg (· + 1) List.length_replicate
  have hwanted : Wanted longDirectory.zone longDirectory.toRequest .regular
      ⟨0o644, 1546300800, 12⟩ := by decide
  have hnot : ¬∀ f ∈ reachedFiles longDirectory.toSetting oneFile,
      Fits longDirectory.toSetting longDirectory.toRequest f := by
    intro hfits
    have hlt := (hfits _ List.mem_cons_self hwanted (by decide)).1
    rw [hlength] at hlt
    exact Nat.lt_irrefl _ hlt
  refine ⟨⟨hlength, hnamed⟩, ?_, ?_⟩
  · rw [copySearchFiles_iff hdirname hnamed]
    exact hnot
  · rw [copiesOk_iff _ hdirname hnamed]
    exact hnot

/-- **When the paths are right.**  Both searches hand on the right paths, with every copy
within its buffer, iff the path of each wanted file they reach fits: the start directory is
absolute, or the working directory is shorter than 500 bytes, and together with a slash and
the relative path than 600. -/
theorem paths_iff (r : Run) (d : Discipline UInt8) (entries : Listing)
    (hdirname : r.dirname = [] → r.opens [] = false) (hnamed : entries.Named) :
    ((∃ result, copySearchFiles r.toSetting r.toRequest entries = some result ∧
        PathsRight r.toSetting r.toRequest result.2) ↔
      ∀ f ∈ reachedFiles r.toSetting entries, Fits r.toSetting r.toRequest f) ∧
    ((∀ s, (search r d).Reach (start r entries) s → CopiesOk r s) ↔
      ∀ f ∈ reachedFiles r.toSetting entries, Fits r.toSetting r.toRequest f) :=
  ⟨copySearchFiles_iff hdirname hnamed, copiesOk_iff d hdirname hnamed⟩

/-- A wanted file in the root directory. -/
def rootDirectory : Run := { longDirectory with cwd := [47] }

theorem paths_iff_root :
    ((∃ result, copySearchFiles rootDirectory.toSetting rootDirectory.toRequest oneFile =
        some result ∧ PathsRight rootDirectory.toSetting rootDirectory.toRequest result.2) ↔
      ∀ f ∈ reachedFiles rootDirectory.toSetting oneFile,
        Fits rootDirectory.toSetting rootDirectory.toRequest f) :=
  (paths_iff rootDirectory (fullyBuffered 4096) oneFile (fun hnil => absurd hnil (by decide))
    ⟨⟨by decide, by decide⟩, trivial⟩).1

end Processes

end Search
end OpSys
