import OpSys.Search.Listing

/-!
# One search, two walks

`search_stat` recurses by hand and goes by `d_type`; `search_nftw` has `nftw` visit every
entry and goes by its type flag.  `FTW_F` is said of every entry that is neither a
directory nor a symbolic link, so `search_nftw` reports the FIFOs, sockets and devices
too, although its comment speaks of regular files.

## Main definitions

* `Report` — a call of `print_file_details`.
* `deepSearchFiles`, `SearchStat.main` — the search by hand.
* `Visit`, `printEntry`, `nftw`, `SearchNftw.main` — the search by `nftw`.

## Main results

* `mem_deepSearchFiles_iff`, `mem_nftw_iff` — the files the two report.
* `same_files_iff` — when these are the same.

## References

`lab2_file_system/search_dir/search_stat.c`, `lab2_file_system/search_dir/search_nftw.c`.
-/

namespace OpSys
namespace Search

open Stdio

/-- A call of `print_file_details`, with the file it is about. -/
structure Report where
  file : FileEntry
  absPath : List UInt8
  modTime : List UInt8
  deriving DecidableEq, Repr

/-- What the call prints. -/
def Report.text (r : Report) : List UInt8 := printFileDetails r.absPath r.modTime r.file.stat

/-! ### The search by hand -/

section Stat

variable (s : Setting) (request : Request)

/-- The loop of `deep_search_files`: the result of a call for a subdirectory is not
looked at. -/
def readEntries (dirname : List UInt8) (place : Place) : Listing → List Report
  | .done => []
  | .file name kind stat rest =>
    let path := newPath dirname name
    (if kind = .regular then
      if request.compareFunc (formatTime s.zone stat.mtime) request.date = 0 then
        [⟨⟨place ++ [name], kind, stat⟩, absPath s.cwd path, formatTime s.zone stat.mtime⟩]
      else []
    else []) ++ readEntries dirname place rest
  | .dir name entries rest =>
    (if ¬isDots name then
      -- the call of `deep_search_files` for the subdirectory
      if s.opens (place ++ [name]) then
        readEntries (newPath dirname name) (place ++ [name]) entries
      else []
    else []) ++ readEntries dirname place rest

/-- `deep_search_files`, for the start directory: its status and what it reports. -/
def deepSearchFiles (entries : Listing) : ℤ × List Report :=
  if s.opens [] then (0, readEntries s request request.dirname [] entries) else (1, [])

end Stat

namespace SearchStat

/-- `main` of `search_stat`. -/
def main (s : Setting) (entries : Listing) (argv : List (List UInt8)) : ℤ × List Report :=
  match arguments argv with
  | .error status => (status, [])
  | .ok request => deepSearchFiles s request entries

end SearchStat

/-! ### The search by `nftw` -/

/-- The type flags of `nftw` with `FTW_PHYS`. -/
inductive Typeflag
  | ftwD
  | ftwF
  | ftwSL
  deriving DecidableEq, Repr

/-- An entry as `nftw` hands it to its callback, under the path it has built. -/
inductive Visit
  | directory (place : Place) (fpath : List UInt8)
  | other (file : FileEntry) (fpath : List UInt8)
  deriving DecidableEq, Repr

/-- The flag of an entry. -/
def Visit.typeflag : Visit → Typeflag
  | .directory _ _ => .ftwD
  | .other file _ => if file.kind = .symlink then .ftwSL else .ftwF

/-- The visits of what is below a directory, by the paths that `nftw` builds. -/
def Listing.visits (fpath : Place → List UInt8) (place : Place) : Listing → List Visit
  | .done => []
  | .file name kind stat rest =>
    .other ⟨place ++ [name], kind, stat⟩ (fpath (place ++ [name])) :: rest.visits fpath place
  | .dir name entries rest =>
    (if isDots name then []
      else .directory (place ++ [name]) (fpath (place ++ [name])) ::
        entries.visits fpath (place ++ [name])) ++ rest.visits fpath place

section Nftw

variable (s : Setting) (request : Request)

/-- `print_entry`: its result and what it reports. -/
def printEntry : Visit → ℤ × List Report
  | .directory _ _ => (0, [])
  | .other file fpath =>
    -- the flag does not tell a FIFO from a regular file
    if (Visit.other file fpath).typeflag = .ftwF ∧
        request.compareFunc (formatTime s.zone file.stat.mtime) request.date = 0 then
      (0, [⟨file, absPath s.cwd fpath, formatTime s.zone file.stat.mtime⟩])
    else (0, [])

/-- `nftw`: it stops at the first result that is not 0, and returns it. -/
def nftw (fn : Visit → ℤ × List Report) : List Visit → ℤ × List Report
  | [] => (0, [])
  | v :: visits =>
    if (fn v).1 ≠ 0 then fn v
    else ((nftw fn visits).1, (fn v).2 ++ (nftw fn visits).2)

end Nftw

namespace SearchNftw

/-- `main` of `search_nftw`, when `nftw` makes these visits. -/
def main (s : Setting) (visits : List Visit) (argv : List (List UInt8)) : ℤ × List Report :=
  match argv with
  | _ :: dir :: sign :: date :: _ =>
    match sign with
    | [c] =>
      match comparison c with
      | some compare => nftw (printEntry s ⟨dir, compare, date⟩) visits
      | none => (3, [])
    | _ => (2, [])
  | _ => (1, [])

end SearchNftw

variable {s : Setting} {request : Request}

/-! ### What the search by hand reports -/

/-- The regular files that satisfy the comparison, in the order of the tree. -/
theorem map_file_readEntries (hopens : ∀ place, s.opens place = true) (entries : Listing)
    (dirname : List UInt8) (place : Place) :
    (readEntries s request dirname place entries).map Report.file =
      (entries.files place).filter fun f => Wanted s.zone request f.kind f.stat := by
  induction entries generalizing dirname place with
  | done => rfl
  | file name kind stat rest ih =>
    rw [readEntries, Listing.files_file, List.map_append, ih, List.filter_cons]
    by_cases hkind : kind = .regular
    · by_cases hsat : request.compareFunc (formatTime s.zone stat.mtime) request.date = 0
      · have hwanted : Wanted s.zone request kind stat := ⟨hkind, hsat⟩
        simp [hkind, hsat, hkind ▸ hwanted]
      · have hnot : ¬Wanted s.zone request kind stat := fun h => hsat h.2
        simp [hsat, hnot]
    · have hnot : ¬Wanted s.zone request kind stat := fun h => hkind h.1
      simp [hkind, hnot]
  | dir name entries rest ihEntries ihRest =>
    rw [readEntries, List.map_append, ihRest]
    by_cases hdots : isDots name
    · simp [hdots]
    · simp [hdots, hopens, ihEntries]

/-- **The files that `search_stat` reports.** -/
theorem mem_deepSearchFiles_iff (hopens : ∀ place, s.opens place = true) (entries : Listing)
    (f : FileEntry) :
    f ∈ (deepSearchFiles s request entries).2.map Report.file ↔
      f ∈ entries.files [] ∧ Wanted s.zone request f.kind f.stat := by
  rw [deepSearchFiles, if_pos (hopens []), map_file_readEntries hopens, List.mem_filter,
    decide_eq_true_iff]

/-! ### What the search by `nftw` reports -/

@[simp] theorem typeflag_other_iff (file : FileEntry) (fpath : List UInt8) :
    (Visit.other file fpath).typeflag = .ftwF ↔ file.kind ≠ .symlink := by
  unfold Visit.typeflag
  split <;> simp_all

theorem printEntry_fst (v : Visit) : (printEntry s request v).1 = 0 := by
  cases v with
  | directory place fpath => rfl
  | other file fpath =>
    rw [printEntry]
    split <;> rfl

/-- The callback never stops the walk. -/
theorem nftw_snd (visits : List Visit) :
    (nftw (printEntry s request) visits).2 =
      visits.flatMap fun v => (printEntry s request v).2 := by
  induction visits with
  | nil => rfl
  | cons v visits ih =>
    rw [nftw, if_neg (not_not_intro (printEntry_fst v)), List.flatMap_cons, ih]

theorem mem_printEntry_iff (v : Visit) (f : FileEntry) :
    f ∈ (printEntry s request v).2.map Report.file ↔
      ∃ fpath, v = .other f fpath ∧ f.kind ≠ .symlink ∧ Satisfies s.zone request f.stat := by
  cases v with
  | directory place fpath => simp [printEntry]
  | other file fpath =>
    rw [printEntry]
    constructor
    · intro hmem
      split at hmem
      · rename_i hreported
        obtain rfl : f = file := by simpa using hmem
        exact ⟨fpath, rfl, (typeflag_other_iff f fpath).mp hreported.1, hreported.2⟩
      · simp at hmem
    · rintro ⟨fpath', heq, hkind, hsat⟩
      obtain ⟨rfl, rfl⟩ := Visit.other.inj heq
      rw [if_pos ⟨(typeflag_other_iff file fpath).mpr hkind, hsat⟩]
      exact List.mem_singleton_self _

/-- Every file below a directory is visited, and nothing else but directories. -/
theorem mem_visits_iff (entries : Listing) (fpath : Place → List UInt8) (place : Place)
    (f : FileEntry) :
    (∃ path, .other f path ∈ entries.visits fpath place) ↔ f ∈ entries.files place := by
  induction entries generalizing place with
  | done => simp [Listing.visits]
  | file name kind stat rest ih =>
    rw [Listing.files_file, List.mem_cons, ← ih]
    simp only [Listing.visits, List.mem_cons, Visit.other.injEq, exists_or,
      exists_and_left, exists_eq, and_true]
  | dir name entries rest ihEntries ihRest =>
    simp only [Listing.visits, List.mem_append, exists_or]
    by_cases hdots : isDots name
    · simp [hdots, ihRest]
    · simp [hdots, ihEntries, ihRest]

/-- **The files that `search_nftw` reports**, whatever the order of the visits. -/
theorem mem_nftw_iff {entries : Listing} {fpath : Place → List UInt8} {visits : List Visit}
    (hvisits : visits.Perm (.directory [] (fpath []) :: entries.visits fpath []))
    (f : FileEntry) :
    f ∈ (nftw (printEntry s request) visits).2.map Report.file ↔
      f ∈ entries.files [] ∧ f.kind ≠ .symlink ∧ Satisfies s.zone request f.stat := by
  rw [nftw_snd, List.map_flatMap, List.mem_flatMap]
  simp only [mem_printEntry_iff, hvisits.mem_iff, List.mem_cons]
  rw [← mem_visits_iff entries fpath []]
  constructor
  · rintro ⟨v, hv, path, rfl, hreported⟩
    exact ⟨⟨path, hv.resolve_left Visit.noConfusion⟩, hreported⟩
  · rintro ⟨⟨path, hpath⟩, hreported⟩
    exact ⟨_, .inr hpath, path, rfl, hreported⟩

/-! ### The two searches -/

/-- A FIFO, a socket or a device. -/
def Kind.Special (kind : Kind) : Prop := kind ≠ .regular ∧ kind ≠ .symlink

/-- **The two searches report the same files** exactly when no FIFO, socket or device in
the tree satisfies the comparison. -/
theorem same_files_iff (hopens : ∀ place, s.opens place = true) {entries : Listing}
    {fpath : Place → List UInt8} {visits : List Visit}
    (hvisits : visits.Perm (.directory [] (fpath []) :: entries.visits fpath []))
    (prog dir : List UInt8) {date : List UInt8} {sign : UInt8}
    {compare : List UInt8 → List UInt8 → ℤ} (hsign : comparison sign = some compare)
    (hdate : validateDate date = 0) :
    (∀ f, f ∈ (SearchStat.main s entries [prog, dir, [sign], date]).2.map Report.file ↔
        f ∈ (SearchNftw.main s visits [prog, dir, [sign], date]).2.map Report.file) ↔
      ∀ f ∈ entries.files [], f.kind.Special → ¬Satisfies s.zone ⟨dir, compare, date⟩ f.stat := by
  have hstat : SearchStat.main s entries [prog, dir, [sign], date] =
      deepSearchFiles s ⟨dir, compare, date⟩ entries := by
    simp [SearchStat.main, arguments, hdate, hsign]
  have hnftw : SearchNftw.main s visits [prog, dir, [sign], date] =
      nftw (printEntry s ⟨dir, compare, date⟩) visits := by
    simp [SearchNftw.main, hsign]
  rw [hstat, hnftw]
  constructor
  · intro hsame f hf hspecial hsat
    have hmem := (hsame f).mpr ((mem_nftw_iff hvisits f).mpr ⟨hf, hspecial.2, hsat⟩)
    exact hspecial.1 ((mem_deepSearchFiles_iff hopens entries f).mp hmem).2.1
  · intro hnone f
    rw [mem_deepSearchFiles_iff hopens, mem_nftw_iff hvisits]
    constructor
    · rintro ⟨hf, hkind, hsat⟩
      exact ⟨hf, hkind ▸ Kind.noConfusion, hsat⟩
    · rintro ⟨hf, hkind, hsat⟩
      -- what is no symbolic link is regular, or special and then not wanted
      by_cases hregular : f.kind = .regular
      · exact ⟨hf, hregular, hsat⟩
      · exact absurd hsat (hnone f hf ⟨hregular, hkind⟩)

/-! ### An example -/

/-- A regular file, and a directory with an entry of this kind. -/
def smallTree (kind : Kind) : Listing :=
  .dir (ascii "run") (.file (ascii "log") kind ⟨0o644, 1546300800, 0⟩ .done)
    (.file (ascii "notes") .regular ⟨0o644, 1546300800, 12⟩ .done)

/-- `nftw` as it walks through a tree from the front. -/
def inOrder (entries : Listing) : List Visit :=
  let fpath := fun place => List.foldl newPath (ascii "dir") place
  .directory [] (fpath []) :: entries.visits fpath []

/-- The command line that asks for the files before 2020. -/
def command2020 (prog : String) : List (List UInt8) :=
  [ascii prog, ascii "dir", ascii "<", ascii "2020-01-01 00:00:00"]

theorem same_files_small :
    (∀ f, f ∈ (SearchStat.main newYear (smallTree .symlink) (command2020 "search")).2.map
          Report.file ↔
        f ∈ (SearchNftw.main newYear (inOrder (smallTree .symlink)) (command2020 "search")).2.map
          Report.file) ↔
      ∀ f ∈ (smallTree .symlink).files [], f.kind.Special →
        ¬Satisfies newYear.zone ⟨ascii "dir", lessThan, ascii "2020-01-01 00:00:00"⟩ f.stat :=
  same_files_iff (fun _ => rfl) (List.Perm.refl _) (ascii "search") (ascii "dir") rfl
    (by decide)

/-- With a FIFO in the subdirectory, `search_nftw` reports one file more. -/
theorem fifo_reported :
    validateDate (ascii "2020-01-01 00:00:00") = 0 ∧
      ((SearchStat.main newYear (smallTree .fifo) (command2020 "search")).2.map Report.file).length
        = 1 ∧
      ((SearchNftw.main newYear (inOrder (smallTree .fifo)) (command2020 "search")).2.map
        Report.file).length = 2 ∧
      ¬∀ f, f ∈ (SearchStat.main newYear (smallTree .fifo) (command2020 "search")).2.map
            Report.file ↔
          f ∈ (SearchNftw.main newYear (inOrder (smallTree .fifo)) (command2020 "search")).2.map
            Report.file := by
  refine ⟨by decide, by decide, by decide, fun hsame => ?_⟩
  have hmem := (hsame ⟨[ascii "run", ascii "log"], .fifo, ⟨0o644, 1546300800, 0⟩⟩).mpr (by decide)
  exact absurd hmem (by decide)

end Search
end OpSys
