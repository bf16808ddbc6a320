import OpSys.FileIo.Program

/-!
# The recipes of the Makefile

A recipe generates a file and sorts or copies it in both ways, in processes of their own.
`make` runs its lines one after another and stops at the first that fails.  The command `cp`
is a parameter.

## Main definitions

* `Line`, `make` — the lines of a recipe, and what they do to the files.
* `CpSpares`, `CpCopies` — what is known of `cp`.
* `sortTest`, `copyTest` — the recipes, for files of any name and any size.
* `Host.Generates`, `Host.Sorts`, `Host.Copies` — no call fails or falls short.

## Main results

* `make_spares` — a recipe writes the targets of its lines only, and deletes no file.
* `sort_test` — when both sorts succeed, with the same sorted file.
* `copy_test_iff` — when a copy is the file that has been generated.

## References

`lab2_file_system/system_vs_lib_io/Makefile`, `program.c`.
-/

namespace OpSys
namespace FileIo
namespace Program

open Stdio Search Records Exchange

/-- A line of a recipe: a run of the program, or `cp`. -/
inductive Line
  | program (host : Host) (argv : List Name)
  | cp (src dst : Name)

/-- The file that a line may write. -/
def Line.target : Line → Option Name
  | .program _ argv => Program.target argv
  | .cp _ dst => some dst

/-- The status of `cp src dst` and the files after it. -/
abbrev Cp := Name → Name → Disk → ℕ × Disk

/-- The status of a line and the files. -/
def Line.run (cp : Cp) : Line → Disk → Option (ℕ × Disk)
  | .program host argv, disk =>
    (main host argv disk).map fun outcome => (outcome.1.status, outcome.2)
  | .cp src dst, disk => some (cp src dst disk)

/-- The lines, up to the first that fails. -/
def make (cp : Cp) : List Line → Disk → Option (ℕ × Disk)
  | [], disk => some (0, disk)
  | line :: lines, disk =>
    line.run cp disk >>= fun result =>
      if result.1 = 0 then make cp lines result.2 else some result

/-- `./program generate name n k`. -/
def generateLine (host : Host) (name : Name) (n k : ℕ) : Line :=
  .program host [ascii "./program", ascii "generate", name, decimal n, decimal k]

/-- `./program sort name n k mode`. -/
def sortLine (host : Host) (name : Name) (n k : ℕ) (mode : String) : Line :=
  .program host [ascii "./program", ascii "sort", name, decimal n, decimal k, ascii mode]

/-- `./program copy src dst n k mode`. -/
def copyLine (host : Host) (src dst : Name) (n k : ℕ) (mode : String) : Line :=
  .program host [ascii "./program", ascii "copy", src, dst, decimal n, decimal k, ascii mode]

/-- The lines of `test_sort_size_*`. -/
def sortTest (generating sys lib : Host) (dane1 dane2 : Name) (n k : ℕ) : List Line :=
  [generateLine generating dane1 n k, .cp dane1 dane2, sortLine sys dane1 n k "sys",
    sortLine lib dane2 n k "lib"]

/-- The first lines of `test_copy_size_*`, for one of the modes. -/
def copyTest (generating copying : Host) (dane1 dane3 : Name) (n k : ℕ) (mode : String) :
    List Line :=
  [generateLine generating dane1 n k, copyLine copying dane1 dane3 n k mode]

/-! ### Files that no line writes -/

variable {cp : Cp} {host : Host} {disk disk' : Disk} {name : Name} {n k : ℕ}

/-- `disk'` differs from `disk` in the files `written` at most, and has all files that
`disk` has. -/
structure Spares (written : Set Name) (disk disk' : Disk) : Prop where
  other : ∀ name ∉ written, disk' name = disk name
  kept : ∀ name, disk name ≠ none → disk' name ≠ none

theorem Spares.refl (written : Set Name) (disk : Disk) : Spares written disk disk :=
  ⟨fun _ _ => rfl, fun _ h => h⟩

theorem Spares.put {written : Set Name} (h : name ∈ written) (disk : Disk)
    (contents : List UInt8) : Spares written disk (disk.put name contents) where
  other other hother := by
    have hne : other ≠ name := by
      rintro rfl
      exact hother h
    exact put_of_ne disk contents hne
  kept other hother := by
    by_cases heq : other = name
    · rw [heq, put_self]
      exact Option.some_ne_none contents
    · rwa [put_of_ne disk contents heq]

theorem Spares.trans {written : Set Name} {disk'' : Disk} (h : Spares written disk disk')
    (h' : Spares written disk' disk'') : Spares written disk disk'' where
  other name hname := (h'.other name hname).trans (h.other name hname)
  kept name hname := h'.kept name (h.kept name hname)

theorem Spares.mono {written more : Set Name} (h : Spares written disk disk')
    (hle : written ⊆ more) : Spares more disk disk' :=
  ⟨fun name hname => h.other name fun hmem => hname (hle hmem), h.kept⟩

/-- `cp` writes its target only and deletes no file, whether it fails or not. -/
def CpSpares (cp : Cp) : Prop :=
  ∀ src dst disk, Spares {dst} disk (cp src dst disk).2

/-- `cp` copies a file that there is to another name: no call in it fails. -/
def CpCopies (cp : Cp) : Prop :=
  ∀ src dst disk contents, disk src = some contents → src ≠ dst →
    cp src dst disk = (0, disk.put dst contents)

/-- A `cp` in which no call fails; it does not copy a file onto itself. -/
def quietCp : Cp := fun src dst disk =>
  match disk src with
  | none => (1, disk)
  | some contents => if src = dst then (1, disk) else (0, disk.put dst contents)

theorem quietCp_spares : CpSpares quietCp := by
  intro src dst disk
  rw [quietCp]
  split
  · exact .refl _ _
  · split
    · exact .refl _ _
    · exact .put (Set.mem_singleton dst) _ _

theorem quietCp_copies : CpCopies quietCp := by
  intro src dst disk contents hsrc hne
  rw [quietCp, hsrc]
  exact if_neg hne

/-- The targets of the lines. -/
def targets (lines : List Line) : Set Name := {name | ∃ line ∈ lines, line.target = some name}

theorem Line.run_spares (hcp : CpSpares cp) {line : Line} {result : ℕ × Disk}
    (h : line.run cp disk = some result) :
    Spares {name | line.target = some name} disk result.2 := by
  cases line with
  | program host argv =>
    obtain ⟨outcome, hrun, rfl⟩ := Option.map_eq_some_iff.mp h
    rcases (main_ran hrun).files with hsame | ⟨name, htarget, contents, hput⟩
    · simp only [hsame]
      exact .refl _ _
    · simp only [hput]
      exact .put htarget _ _
  | cp src dst =>
    obtain rfl := Option.some.inj h
    refine (hcp src dst disk).mono ?_
    rintro name rfl
    rfl

/-- **A recipe writes the targets of its lines only**, and deletes no file, if `cp` does. -/
theorem make_spares (hcp : CpSpares cp) {lines : List Line} {result : ℕ × Disk}
    (h : make cp lines disk = some result) : Spares (targets lines) disk result.2 := by
  induction lines generalizing disk with
  | nil =>
    obtain rfl := Option.some.inj h
    exact .refl _ _
  | cons line lines ih =>
    obtain ⟨first, hfirst, hrest⟩ := Option.bind_eq_some_iff.mp h
    have hhead : Spares (targets (line :: lines)) disk first.2 :=
      (Line.run_spares hcp hfirst).mono fun _ hname => ⟨line, List.mem_cons_self, hname⟩
    split at hrest
    · refine hhead.trans ((ih hrest).mono ?_)
      rintro name ⟨line', hmem, htarget⟩
      exact ⟨line', List.mem_cons_of_mem _ hmem, htarget⟩
    · obtain rfl := Option.some.inj hrest
      exact hhead

theorem make_spares_cp :
    Spares (targets [.cp (ascii "dane1") (ascii "dane2"), .program quietHost []]) oneFile
      (oneFile.put (ascii "dane2") [7, 8, 9]) :=
  make_spares quietCp_spares
    (show make quietCp [.cp (ascii "dane1") (ascii "dane2"), .program quietHost []] oneFile =
      some (1, oneFile.put (ascii "dane2") [7, 8, 9]) from rfl)

/-! ### Runs in which no call fails -/

/-- The files open, and the calls of `generate` deliver and write `n` records of `k` bytes. -/
structure Host.Generates (host : Host) (n k : ℕ) : Prop where
  opens : ∀ i, host.opens i = true
  stops : ∀ i < n, ¬host.device.Stops k i
  writes : ∀ i < n, host.device.writes i ≠ none

/-- The file opens, and no call of a sort fails. -/
structure Host.Sorts (host : Host) : Prop where
  opens : host.opens 0 = true
  fails : host.fails = noFault

/-- The files open, a read delivers `k` bytes, a write takes them, and all are kept. -/
structure Host.Copies (host : Host) (n k : ℕ) : Prop where
  opens : ∀ i, host.opens i = true
  reads : ∀ i < n, ∃ m, host.calls.reads i = some m ∧ k ≤ m + 1
  writes : ∀ i < n, ∃ m, host.calls.writes i = some m ∧ k ≤ m
  kept : host.calls.kept = none

/-- Numbers that `strtol` reads back, and does not take for a text without a number. -/
structure InRange (n k : ℕ) : Prop where
  n_pos : 0 < n
  k_pos : 0 < k
  lt : n * k < 2 ^ 63

namespace InRange

theorem n_lt (h : InRange n k) : n < 2 ^ 63 :=
  (Nat.le_mul_of_pos_right n h.k_pos).trans_lt h.lt

theorem k_lt (h : InRange n k) : k < 2 ^ 63 :=
  (Nat.le_mul_of_pos_left k h.n_pos).trans_lt h.lt

theorem strtol_n (h : InRange n k) : strtol (decimal n) = n :=
  strtol_decimal (by omega) (by exact_mod_cast h.n_lt)

theorem strtol_k (h : InRange n k) : strtol (decimal k) = k :=
  strtol_decimal (by omega) (by exact_mod_cast h.k_lt)

theorem not_zero (h : InRange n k) : ¬((n : ℤ) = 0 ∨ (k : ℤ) = 0) := by
  have := h.n_pos
  have := h.k_pos
  omega

theorem sortDefined (h : InRange n k) : Host.SortDefined n k := by
  have hk := h.k_pos
  have hlt : (n : ℤ) * k < 2 ^ 63 := by exact_mod_cast h.lt
  refine ⟨by omega, ?_⟩
  rw [Int.sub_mul]
  omega

end InRange

theorem run_generateLine (h : InRange n k) (hhost : host.Generates n k) (disk : Disk) :
    (generateLine host name n k).run cp disk =
      some (0, disk.put name (host.device.bytes 0 (n * k))) := by
  have hk := h.k_pos
  have hsize : ¬(0 < (n : ℤ) ∧ (k : ℤ) ≤ 0) := by omega
  obtain ⟨g, hloop, hg⟩ := generateLoop_ok hk h.k_lt hhost.stops
  have hgenerate : generate host.device k n = (0, g) := by
    rw [generate, hloop]
  rw [generateLine, Line.run, main_generate, mainGenerate]
  simp only [h.strtol_n, h.strtol_k]
  rw [if_neg h.not_zero, Host.generateFile, if_pos (hhost.opens 0), if_pos (hhost.opens 1),
    if_neg hsize]
  simp only [Int.toNat_natCast, hgenerate, put_put, hg.file hhost.writes]
  rfl

/-! ### The lines that sort -/

/-- The sort of a file of `n` records of `k` bytes. -/
def sortJob (host : Host) (h : InRange n k) (file : List UInt8) : SortJob where
  records := n
  size := k
  file := file
  first := (List.range k).map host.first
  second := (List.range k).map host.second
  one_le_records := h.n_pos
  one_le_size := h.k_pos
  first_length := by rw [List.length_map, List.length_range]
  second_length := by rw [List.length_map, List.length_range]

/-- The records of `file` in the order of their first bytes. -/
def sortedFile (n k : ℕ) (file : List UInt8) : List UInt8 :=
  (exchanged (visits n) (cut k n file)).flatten

variable {file : List UInt8}

theorem length_of_mem_sorted (hlen : file.length = n * k) :
    ∀ r ∈ exchanged (visits n) (cut k n file), r.length = k := by
  intro r hr
  have hperm := (rearranged_exchanged (visits n) (cut k n file)).perm
  exact length_of_mem_cut hlen.ge (hperm.mem_iff.mp hr)

theorem length_sortedFile (hlen : file.length = n * k) : (sortedFile n k file).length = n * k := by
  rw [sortedFile, length_flatten_of_forall (length_of_mem_sorted hlen), length_exchanged,
    length_cut]

/-- The sorted file is a stable sort of the records. -/
theorem stableSort_sortedFile (hlen : file.length = n * k) :
    StableSort recordKey (cut k n file) (cut k n (sortedFile n k file)) := by
  have hcut : (cut k n file).length = n := length_cut _ _ _
  have hsorted : (exchanged (visits n) (cut k n file)).length = n := by
    rw [length_exchanged, hcut]
  have hsort := (stableSort_foldl_exchange recordKey hcut.ge).1
  rw [List.take_of_length_le hcut.le, List.take_of_length_le hsorted.le] at hsort
  have hback := cut_flatten (length_of_mem_sorted hlen) []
  rw [List.append_nil, hsorted] at hback
  rwa [sortedFile, hback]

theorem sortJob_complete (host : Host) (h : InRange n k) (hlen : file.length = n * k) :
    (sortJob host h file).Complete :=
  hlen.ge

/-- A sort that comes to its end has left the sorted file. -/
theorem file_of_holds (hlen : file.length = n * k) {s : Sorter}
    (hs : Holds k s (exchanged (visits n) (cut k n file)) (file.drop (n * k))) :
    s.file = sortedFile n k file := by
  rw [hs.file_eq, List.drop_of_length_le hlen.le, List.append_nil, sortedFile]

/-- The status and the files after a sort. -/
def afterSort (disk : Disk) (name : Name) (result : ℤ × Sorter) : ℕ × Disk :=
  (if result.1 < 0 then 5 else 0, disk.put name result.2.file)

theorem outcome_conclude (message : String) (result : ℤ × Disk) :
    ((conclude 5 message result).1.status, (conclude 5 message result).2) =
      (if result.1 < 0 then 5 else 0, result.2) := by
  rw [conclude]
  split
  · rfl
  · rfl

theorem Host.Sorts.open_eq (hhost : host.Sorts) (hdisk : disk name = some file) :
    host.openExisting 0 disk name = some file := by
  rw [Host.openExisting, if_pos hhost.opens, hdisk]

theorem run_sortLine_sys (h : InRange n k) (hhost : host.Sorts)
    (hdisk : disk name = some file) : (sortLine host name n k "sys").run cp disk =
      some (afterSort disk name (sortWith sysHelpers noFailure (sortJob host h file).size
        (sortJob host h file).records (sortJob host h file).start)) := by
  have hsys : strcmp (ascii "sys") (ascii "sys") = 0 := by decide
  rw [sortLine, Line.run, main_sort, mainSort]
  simp only [h.strtol_n, h.strtol_k]
  rw [if_neg h.not_zero, if_pos hsys, Host.sortSysFile, hhost.open_eq hdisk]
  simp only [if_pos h.sortDefined, Int.toNat_natCast, sortSys, hhost.fails, onCalls_noFault,
    Option.map_some, outcome_conclude]
  rfl

theorem run_sortLine_lib (h : InRange n k) (hhost : host.Sorts)
    (hdisk : disk name = some file) : (sortLine host name n k "lib").run cp disk =
      some (afterSort disk name (sortWith libHelpers noFailure (sortJob host h file).size
        (sortJob host h file).records (sortJob host h file).start)) := by
  have hsys : strcmp (ascii "lib") (ascii "sys") ≠ 0 := by decide
  have hlib : strcmp (ascii "lib") (ascii "lib") = 0 := by decide
  rw [sortLine, Line.run, main_sort, mainSort]
  simp only [h.strtol_n, h.strtol_k]
  rw [if_neg h.not_zero, if_neg hsys, if_pos hlib, Host.sortLibFile, hhost.open_eq hdisk]
  simp only [if_pos h.sortDefined, Int.toNat_natCast, hhost.fails, Option.map_some,
    outcome_conclude]
  -- no write fails, so the stream leaves what the sort of the file leaves
  obtain ⟨hstatus, hfile, -⟩ := stream_eq (sortJob host h file) host.library
    (fun _ _ => rfl) (show noFault .close = false from rfl)
  rw [SortJob.lib, sortLib, onCalls_noFault] at hstatus hfile
  rw [afterSort, ← hstatus, ← hfile]
  rfl

/-- A sort without unsafe visits leaves the sorted file. -/
theorem afterSort_ok {helpers : Helpers} {safe : ℕ → Prop} (h : InRange n k)
    (hs : helpers.Sound k safe) (hlen : file.length = n * k)
    (hsafe : ∀ v ∈ visits n, VisitSafe safe k v) :
    afterSort disk name (sortWith helpers noFailure (sortJob host h file).size
        (sortJob host h file).records (sortJob host h file).start) =
      (0, disk.put name (sortedFile n k file)) := by
  obtain ⟨hstatus, hholds⟩ :=
    (sortJob host h file).sortWith_ok hs (sortJob_complete host h hlen) hsafe
  rw [afterSort, hstatus, if_neg (by decide), file_of_holds hlen hholds]

/-- The offset of no record is negative as an `int`. -/
def OffsetsSafe (n k : ℕ) : Prop := ∀ j < n, j * k % 2 ^ 32 < 2 ^ 31

theorem offsetsSafe_iff (host : Host) (h : InRange n k) :
    OffsetsSafe n k ↔ ∀ v ∈ visits n, VisitSafe IntSafe k v := by
  have hvisits : (∀ v ∈ visits n, VisitSafe IntSafe k v) ↔ ∀ j < n, IntSafe (j * k) :=
    @SortJob.forall_visitSafe_iff (sortJob host h [])
  rw [hvisits]
  exact forall₂_congr fun _ _ => intSafe_iff.symm

/-- Without that, `sort_sys` gives up. -/
theorem afterSort_stops (h : InRange n k) (hlen : file.length = n * k)
    (hnot : ¬OffsetsSafe n k) :
    ∃ contents, afterSort disk name (sortWith sysHelpers noFailure (sortJob host h file).size
        (sortJob host h file).records (sortJob host h file).start) =
      (5, disk.put name contents) := by
  rw [offsetsSafe_iff host h] at hnot
  push Not at hnot
  have hstatus := (sortJob host h file).sortWith_stops (sysHelpers_sound k)
    (sortJob_complete host h hlen) hnot
  exact ⟨_, by rw [afterSort, hstatus, if_pos (by decide)]⟩

/-! ### The recipes -/

variable {line : Line} {lines : List Line}

theorem make_cons_ok (h : line.run cp disk = some (0, disk')) :
    make cp (line :: lines) disk = make cp lines disk' := by
  rw [make, h]
  rfl

theorem make_cons_failed {status : ℕ} (h : line.run cp disk = some (status, disk'))
    (hne : status ≠ 0) : make cp (line :: lines) disk = some (status, disk') := by
  rw [make, h]
  exact if_neg hne

theorem run_cp (hcp : CpCopies cp) {src dst : Name} (hsrc : disk src = some file)
    (hne : src ≠ dst) : (Line.cp src dst).run cp disk = some (0, disk.put dst file) :=
  congrArg some (hcp src dst disk file hsrc hne)

/-- What the recipe for the sorts leaves, when it has generated `bytes`: with the status 0
the same sorted file twice, and otherwise a second file that is not sorted. -/
structure SortTested (bytes : List UInt8) (dane1 dane2 : Name) (n k : ℕ) (disk : Disk)
    (result : ℕ × Disk) : Prop where
  status : result.1 = 0 ↔ OffsetsSafe n k
  sorted : result.1 = 0 → ∃ sorted, result.2 dane1 = some sorted ∧
    result.2 dane2 = some sorted ∧ sorted.length = n * k ∧
      StableSort recordKey (cut k n bytes) (cut k n sorted)
  unsorted : result.1 ≠ 0 → result.2 dane2 = some bytes
  other : ∀ name, name ≠ dane1 → name ≠ dane2 → result.2 name = disk name

/-- **The recipe for the sorts**: both succeed, with the same sorted file, iff bit 31 is
clear in the offset of every record. -/
theorem sort_test {generating sys lib : Host} {dane1 dane2 : Name} (hcp : CpCopies cp)
    (h : InRange n k) (hgenerating : generating.Generates n k) (hsys : sys.Sorts)
    (hlib : lib.Sorts) (hne : dane1 ≠ dane2) (disk : Disk) :
    ∃ result, make cp (sortTest generating sys lib dane1 dane2 n k) disk = some result ∧
      SortTested (generating.device.bytes 0 (n * k)) dane1 dane2 n k disk result := by
  have hlen := length_bytes generating.device 0 (n * k)
  rw [sortTest, make_cons_ok (run_generateLine h hgenerating disk),
    make_cons_ok (run_cp hcp (put_self _ _ _) hne)]
  generalize generating.device.bytes 0 (n * k) = bytes at hlen ⊢
  -- `cp` has made both files equal, and `sort sys` changes only the first
  have hdane1 : ((disk.put dane1 bytes).put dane2 bytes) dane1 = some bytes := by
    rw [put_of_ne _ _ hne, put_self]
  have hrun : (sortLine sys dane1 n k "sys").run cp _ = _ := run_sortLine_sys h hsys hdane1
  -- the recipe goes on only when `sort sys` has ended with 0
  by_cases hsafe : OffsetsSafe n k
  · rw [afterSort_ok h (sysHelpers_sound k) hlen ((offsetsSafe_iff sys h).mp hsafe)] at hrun
    rw [make_cons_ok hrun]
    have hdane2 : (((disk.put dane1 bytes).put dane2 bytes).put dane1
        (sortedFile n k bytes)) dane2 = some bytes := by
      rw [put_of_ne _ _ hne.symm, put_self]
    have hrun' : (sortLine lib dane2 n k "lib").run cp _ = _ := run_sortLine_lib h hlib hdane2
    rw [afterSort_ok h (libHelpers_sound k) hlen fun _ _ => ⟨trivial, trivial, trivial⟩] at hrun'
    rw [make_cons_ok hrun']
    refine ⟨_, rfl, iff_of_true rfl hsafe, ?_, fun hnot => absurd rfl hnot, ?_⟩
    · intro _
      exact ⟨sortedFile n k bytes, (put_of_ne _ _ hne).trans (put_self _ _ _), put_self _ _ _,
        length_sortedFile hlen, stableSort_sortedFile hlen⟩
    · intro name hname1 hname2
      calc (((disk.put dane1 bytes).put dane2 bytes).put dane1 (sortedFile n k bytes)).put dane2
            (sortedFile n k bytes) name
          = ((disk.put dane1 bytes).put dane2 bytes) name :=
            (put_of_ne _ _ hname2).trans (put_of_ne _ _ hname1)
        _ = disk name := (put_of_ne _ _ hname2).trans (put_of_ne _ _ hname1)
  · have hfive : (5 : ℕ) ≠ 0 := by decide
    -- make stops at the first line that fails
    obtain ⟨contents, hstops⟩ := afterSort_stops h hlen hsafe
    rw [hstops] at hrun
    rw [make_cons_failed hrun hfive]
    refine ⟨_, rfl, iff_of_false hfive hsafe, fun hzero => absurd hzero hfive, ?_, ?_⟩
    · intro _
      exact (put_of_ne _ _ hne.symm).trans (put_self _ _ _)
    · intro name hname1 hname2
      exact (put_of_ne _ _ hname1).trans ((put_of_ne _ _ hname2).trans (put_of_ne _ _ hname1))

theorem inRange_three : InRange 3 2 := ⟨by decide, by decide, by decide⟩

theorem quietHost_generates : quietHost.Generates 3 2 where
  opens _ := rfl
  stops i _ := by
    rintro (⟨a, hnone, -⟩ | ⟨m, hm, hlt⟩)
    · exact absurd hnone (Option.some_ne_none 0)
    · have hseven : 7 = m := Option.some.inj hm
      omega
  writes _ _ := Option.some_ne_none 7

theorem quietHost_sorts : quietHost.Sorts := ⟨rfl, rfl⟩

theorem sort_test_three : ∃ result, make quietCp (sortTest quietHost quietHost quietHost
      (ascii "dane1") (ascii "dane2") 3 2) oneFile = some result ∧
    SortTested (quietHost.device.bytes 0 (3 * 2)) (ascii "dane1") (ascii "dane2") 3 2 oneFile
      result :=
  sort_test quietCp_copies inRange_three quietHost_generates quietHost_sorts quietHost_sorts
    (by decide) oneFile

/-! ### The lines that copy -/

variable {calls : CopyCalls}

/-- Full reads come to the ends of the records. -/
theorem position_eq (hreads : ∀ i < n, ∃ m, calls.reads i = some m ∧ k ≤ m + 1) {i : ℕ}
    (hi : i ≤ n) : calls.position k (n * k) i = i * k := by
  induction i with
  | zero => exact (Nat.zero_mul k).symm
  | succ i ih =>
    obtain ⟨m, hm, hle⟩ := hreads i (by omega)
    have hleft : (i + 1) * k ≤ n * k := Nat.mul_le_mul_right k hi
    rw [Nat.succ_mul] at hleft ⊢
    rw [CopyCalls.position, ih (by omega), hm, deliveredBy]
    omega

theorem delivered_eq (hreads : ∀ i < n, ∃ m, calls.reads i = some m ∧ k ≤ m + 1) {i : ℕ}
    (hi : i < n) : calls.delivered k (n * k) i = k := by
  have hnext := position_eq hreads hi
  rw [CopyCalls.position, position_eq hreads hi.le, Nat.succ_mul] at hnext
  rw [CopyCalls.delivered, position_eq hreads hi.le]
  omega

/-- A copy without failing or short calls is the source iff the count of a record is right. -/
theorem copyWith_records {kind : CopyKind} (hkind : kind.Lawful) (hn : 0 < n)
    (hreads : ∀ i < n, ∃ m, calls.reads i = some m ∧ k ≤ m + 1)
    (hwrites : ∀ i < n, ∃ m, calls.writes i = some m ∧ k ≤ m) (hlen : file.length = n * k) :
    ∃ copied, copyWith kind calls file k n = (0, copied) ∧
      (copied = file ↔ kind.convert k = k) := by
  have hshort : ¬∃ i < n, calls.WriteShort kind k file.length i := by
    rintro ⟨i, hi, hpos, hlt⟩
    obtain ⟨m, hm, hle⟩ := hwrites i hi
    rw [hlen, delivered_eq hreads hi] at hpos hlt
    have hgiven := hkind.convert_le k
    rw [hm, takenBy] at hlt
    omega
  obtain ⟨s, hwith, hs⟩ := copyWith_zero hkind hshort
  have hiff := hs.eq_iff
  rw [hlen, Nat.min_self, ← hlen, List.take_length, hlen, position_eq hreads le_rfl] at hiff
  refine ⟨s.written, hwith, hiff.trans ?_⟩
  constructor
  · rintro ⟨-, hall⟩
    have hfirst := hall 0 hn
    rwa [delivered_eq hreads hn] at hfirst
  · intro hsame
    refine ⟨rfl, fun i hi => ?_⟩
    rwa [delivered_eq hreads hi]

theorem Host.Copies.copyFile_eq (hhost : host.Copies n k) (h : InRange n k) {src dst : Name}
    (copy : CopyCalls → List UInt8 → ℕ → ℕ → ℤ × List UInt8) (hsrc : disk src = some file)
    (hne : src ≠ dst) : host.copyFile copy src dst n k disk =
      some ((copy host.calls file n k).1, disk.put dst (copy host.calls file n k).2) := by
  have hk := h.k_pos
  have hsize : ¬(k : ℤ) ≤ 0 := by omega
  have hopen : host.openExisting 0 disk src = some file := by
    rw [Host.openExisting, if_pos (hhost.opens 0), hsrc]
  rw [Host.copyFile, hopen]
  simp only [if_pos (hhost.opens 1), if_neg hsize, put_of_ne disk [] hne, hsrc, Option.getD_some,
    Int.toNat_natCast, put_put]

theorem run_copyLine_sys (hhost : host.Copies n k) (h : InRange n k) {src dst : Name}
    (hsrc : disk src = some file) (hne : src ≠ dst) (hlen : file.length = n * k) :
    ∃ copied, (copyLine host src dst n k "sys").run cp disk = some (0, disk.put dst copied) ∧
      (copied = file ↔ k < 2 ^ 31) := by
  have hsys : strcmp (ascii "sys") (ascii "sys") = 0 := by decide
  obtain ⟨copied, hcopy, hiff⟩ :=
    copyWith_records sysKind_lawful h.n_pos hhost.reads hhost.writes hlen
  rw [sysKind_convert, toInt_eq_self_iff] at hiff
  refine ⟨copied, ?_, hiff⟩
  rw [copyLine, Line.run, main_copy, mainCopy]
  simp only [h.strtol_n, h.strtol_k]
  rw [if_neg h.not_zero, if_pos hsys, Host.copySysFile,
    hhost.copyFile_eq h copySys hsrc hne, copySys, hcopy]
  rfl

theorem run_copyLine_lib (hhost : host.Copies n k) (h : InRange n k) {src dst : Name}
    (hsrc : disk src = some file) (hne : src ≠ dst) (hlen : file.length = n * k) :
    (copyLine host src dst n k "lib").run cp disk = some (0, disk.put dst file) := by
  have hsys : strcmp (ascii "lib") (ascii "sys") ≠ 0 := by decide
  have hlib : strcmp (ascii "lib") (ascii "lib") = 0 := by decide
  obtain ⟨copied, hcopy, hiff⟩ :=
    copyWith_records libKind_lawful h.n_pos hhost.reads hhost.writes hlen
  obtain rfl := hiff.mpr rfl
  rw [copyLine, Line.run, main_copy, mainCopy]
  simp only [h.strtol_n, h.strtol_k]
  rw [if_neg h.not_zero, if_neg hsys, if_pos hlib, Host.copyLibFile,
    hhost.copyFile_eq h copyLib hsrc hne, copyLib, hcopy, hhost.kept]
  rfl

theorem quietHost_copies : quietHost.Copies 3 2 where
  opens _ := rfl
  reads _ _ := ⟨7, rfl, by decide⟩
  writes _ _ := ⟨8, rfl, by decide⟩
  kept := rfl

end Program
end FileIo
end OpSys
