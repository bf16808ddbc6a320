import Mathlib.Logic.Function.Basic
import OpSys.Lib.Decimal
import OpSys.FileIo.Copy
import OpSys.FileIo.Generate
import OpSys.FileIo.Stream
import OpSys.Search.Times

/-!
# The program that generates, sorts and copies files

`main`, with the `open` calls in front of the loops, on the regular files of a directory.
A `long` argument is what `strtol` makes of its text, so a text without a number is refused
like a zero, and a negative number is not.  The messages on success, which are times, and
those that the functions print are left out.

## Main definitions

* `Disk` — the files by their names.
* `Host` — what the system does during one run.
* `generateFile`, `sortSysFile`, `sortLibFile`, `copyFile` — the functions, with `open`.
* `main` — the program: its exit and the files, or nothing where that is undefined.

## Main results

* `main_exit` — the exits of the program.
* `main_target` — a run changes one file at most, and deletes none.
* `copy_self` — a copy of a file onto itself empties it, and succeeds.

## References

`lab2_file_system/system_vs_lib_io/program.c`.
-/

namespace OpSys
namespace FileIo
namespace Program

open Stdio Search

/-- A path, and every other argument, is the list of its bytes. -/
abbrev Name := List UInt8

/-- The regular files that there are, by their names. -/
abbrev Disk := Name → Option (List UInt8)

/-- The file `name` is written. -/
def Disk.put (disk : Disk) (name : Name) (contents : List UInt8) : Disk :=
  Function.update disk name (some contents)

/-- What the system does during a run: which `open` succeeds, by its number, the outcomes
of the calls on the open files, what the C library does with a stream, and what the stack
holds where the records of a sort come to lie. -/
structure Host where
  opens : ℕ → Bool
  device : Device
  library : CLibrary
  fails : Point → Bool
  calls : CopyCalls
  first : ℕ → UInt8
  second : ℕ → UInt8

/-- The status of the program, and the message before an exit by an error. -/
structure Exit where
  status : ℕ
  message : Option String
  deriving DecidableEq, Repr

namespace Host

variable (host : Host)

/-- An `open` without `O_CREAT` and `O_TRUNC`. -/
def openExisting (i : ℕ) (disk : Disk) (name : Name) : Option (List UInt8) :=
  if host.opens i then disk name else none

/-- `generate`. -/
def generateFile (name : Name) (records size : ℤ) (disk : Disk) : Option (ℤ × Disk) :=
  if host.opens 0 then
    let disk := disk.put name []
    if host.opens 1 then
      -- the array in the loop has to have a positive length
      if 0 < records ∧ size ≤ 0 then none
      else
        let result := generate host.device size.toNat records.toNat
        some (result.1, disk.put name result.2.file)
    else some (-1, disk)
  else some (-1, disk)

/-- The variables of `sort_sys` for records of `size` bytes. -/
def sorter (file : List UInt8) (size : ℕ) : Sorter :=
  .start file ((List.range size).map host.first) ((List.range size).map host.second)

/-- Those of `sort_lib`, with a stream. -/
def libSorter (file : List UInt8) (size : ℕ) : LibSorter :=
  ⟨.of file, (List.range size).map host.first, (List.range size).map host.second, []⟩

/-- The offsets of the records fit a `long`, and the arrays have a positive length. -/
def SortDefined (records size : ℤ) : Prop := 0 < size ∧ (records - 1) * size < 2 ^ 63

instance (records size : ℤ) : Decidable (SortDefined records size) :=
  inferInstanceAs (Decidable (_ ∧ _))

/-- `sort_sys`. -/
def sortSysFile (name : Name) (records size : ℤ) (disk : Disk) : Option (ℤ × Disk) :=
  match host.openExisting 0 disk name with
  | none => some (-1, disk)
  | some file =>
    if SortDefined records size then
      let result :=
        sortSys (onCalls host.fails) records.toNat size.toNat (host.sorter file size.toNat)
      some (result.1, disk.put name result.2.file)
    else none

/-- `sort_lib`: its test for `file < 0` does not find a stream that is `NULL`. -/
def sortLibFile (name : Name) (records size : ℤ) (disk : Disk) : Option (ℤ × Disk) :=
  match host.openExisting 0 disk name with
  | none => none
  | some file =>
    if SortDefined records size then
      let result :=
        host.library.sortLib host.fails size.toNat records.toNat (host.libSorter file size.toNat)
      some (result.status, disk.put name result.file)
    else none

/-- `copy_sys` and `copy_lib`, with `copy` for the loop. -/
def copyFile (copy : CopyCalls → List UInt8 → ℕ → ℕ → ℤ × List UInt8) (src dst : Name)
    (records size : ℤ) (disk : Disk) : Option (ℤ × Disk) :=
  match host.openExisting 0 disk src with
  | none => some (-1, disk)
  | some _ =>
    if host.opens 1 then
      let disk := disk.put dst []
      if size ≤ 0 then none
      else
        -- the source is read when the destination, maybe the same file, has been emptied
        let result := copy host.calls ((disk src).getD []) records.toNat size.toNat
        some (result.1, disk.put dst result.2)
    else some (-1, disk)

/-- `copy_sys`. -/
def copySysFile (src dst : Name) (records size : ℤ) (disk : Disk) : Option (ℤ × Disk) :=
  host.copyFile copySys src dst records size disk

/-- `copy_lib`. -/
def copyLibFile (src dst : Name) (records size : ℤ) (disk : Disk) : Option (ℤ × Disk) :=
  host.copyFile copyLib src dst records size disk

end Host

/-- `errno = EINVAL; perror(message); return status;`. -/
def refuse (status : ℕ) (message : String) (disk : Disk) : Option (Exit × Disk) :=
  some (⟨status, some message⟩, disk)

/-- The test behind a call of one of the functions, and the exit of `main`. -/
def conclude (status : ℕ) (message : String) (result : ℤ × Disk) : Exit × Disk :=
  (if result.1 < 0 then ⟨status, some message⟩ else ⟨0, none⟩, result.2)

section Main

variable (host : Host)

/-- `main`, with `generate` for its first argument. -/
def mainGenerate (args : List Name) (disk : Disk) : Option (Exit × Disk) :=
  match args with
  | [name, records, size] =>
    let numOfRecords := strtol records
    let recordSize := strtol size
    if numOfRecords = 0 ∨ recordSize = 0 then
      refuse 3 "Number of records and record size must be integers" disk
    else
      (host.generateFile name numOfRecords recordSize disk).map
        (conclude 4 "Generation of random data failed")
  | _ => refuse 2 "Usage: ./program generate filename num_of_records record_size" disk

/-- `main`, with `sort` for its first argument. -/
def mainSort (args : List Name) (disk : Disk) : Option (Exit × Disk) :=
  match args with
  | [name, records, size, functionType] =>
    let numOfRecords := strtol records
    let recordSize := strtol size
    if numOfRecords = 0 ∨ recordSize = 0 then
      refuse 5 "Number of records and record size must be integers" disk
    else if strcmp functionType (ascii "sys") = 0 then
      (host.sortSysFile name numOfRecords recordSize disk).map
        (conclude 5 "Sorting using system functions failed")
    else if strcmp functionType (ascii "lib") = 0 then
      (host.sortLibFile name numOfRecords recordSize disk).map
        (conclude 5 "Sorting using C library functions failed")
    else refuse 6 "Last argument must be either sys or lib" disk
  | _ => refuse 4 "Usage: ./program sort filename num_of_records record_size sys_or_lib" disk

/-- `main`, with `copy` for its first argument. -/
def mainCopy (args : List Name) (disk : Disk) : Option (Exit × Disk) :=
  match args with
  | [src, dst, records, size, functionType] =>
    let numOfRecords := strtol records
    let bufferSize := strtol size
    if numOfRecords = 0 ∨ bufferSize = 0 then
      refuse 8 "Number of records and buffer size must be integers" disk
    else if strcmp functionType (ascii "sys") = 0 then
      (host.copySysFile src dst numOfRecords bufferSize disk).map
        (conclude 8 "Copying using system functions failed")
    else if strcmp functionType (ascii "lib") = 0 then
      (host.copyLibFile src dst numOfRecords bufferSize disk).map
        (conclude 8 "Copying using C library functions failed")
    else refuse 9 "Last argument must be either sys or lib" disk
  | _ =>
    refuse 7 "Usage: ./program copy src_file dst_file num_of_records buffer_size sys_or_lib" disk

/-- `main`: its exit and the files, or nothing where the behaviour is undefined. -/
def main (argv : List Name) (disk : Disk) : Option (Exit × Disk) :=
  match argv with
  | _ :: function :: args =>
    if strcmp function (ascii "generate") = 0 then mainGenerate host args disk
    else if strcmp function (ascii "sort") = 0 then mainSort host args disk
    else if strcmp function (ascii "copy") = 0 then mainCopy host args disk
    else
      refuse 10 ("Only generate, sort and copy functions are supported. " ++
        "Usage: ./program function_name other_arguments") disk
  | _ =>
    refuse 1 "Program needs more arguments. Functions supported are: generate, sort and copy" disk

/-- The file that a run may write. -/
def target : List Name → Option Name
  | _ :: function :: args => if strcmp function (ascii "copy") = 0 then args[1]? else args[0]?
  | _ => none

end Main

/-! ### Files -/

variable {host : Host} {disk disk' : Disk} {name other : Name} {contents : List UInt8}

@[simp] theorem put_self (disk : Disk) (name : Name) (contents : List UInt8) :
    disk.put name contents name = some contents :=
  Function.update_self ..

theorem put_of_ne (disk : Disk) (contents : List UInt8) (h : other ≠ name) :
    disk.put name contents other = disk other :=
  Function.update_of_ne h ..

@[simp] theorem put_put (disk : Disk) (name : Name) (old contents : List UInt8) :
    (disk.put name old).put name contents = disk.put name contents :=
  Function.update_idem ..

/-! ### What a function does to the files -/

/-- A result of 0 or -1, and the file `name` written, if any. -/
structure Wrote (disk : Disk) (name : Name) (result : ℤ × Disk) : Prop where
  status : result.1 = 0 ∨ result.1 = -1
  files : result.2 = disk ∨ ∃ contents, result.2 = disk.put name contents

theorem Wrote.refl (disk : Disk) (name : Name) : Wrote disk name (-1, disk) :=
  ⟨Or.inr rfl, Or.inl rfl⟩

theorem Wrote.put {status : ℤ} (h : status = 0 ∨ status = -1) (disk : Disk) (name : Name)
    (contents : List UInt8) : Wrote disk name (status, disk.put name contents) :=
  ⟨h, Or.inr ⟨contents, rfl⟩⟩

theorem generate_status (d : Device) (size records : ℕ) :
    (generate d size records).1 = 0 ∨ (generate d size records).1 = -1 := by
  rw [generate]
  split
  · exact Or.inl rfl
  · exact Or.inr rfl

theorem sortWith_status (helpers : Helpers) (fails : Call → Bool) (size records : ℕ)
    (s : Sorter) : (sortWith helpers fails size records s).1 = 0 ∨
      (sortWith helpers fails size records s).1 = -1 := by
  rw [sortWith]
  split
  · exact Or.inl rfl
  · exact Or.inr rfl

theorem copyWith_status (kind : CopyKind) (calls : CopyCalls) (source : List UInt8)
    (size records : ℕ) : (copyWith kind calls source size records).1 = 0 ∨
      (copyWith kind calls source size records).1 = -1 := by
  rw [copyWith]
  split
  · exact Or.inl rfl
  · exact Or.inr rfl

theorem copySys_status (calls : CopyCalls) (source : List UInt8) (records size : ℕ) :
    (copySys calls source records size).1 = 0 ∨ (copySys calls source records size).1 = -1 :=
  copyWith_status sysKind calls source size records

theorem copyLib_status (calls : CopyCalls) (source : List UInt8) (records size : ℕ) :
    (copyLib calls source records size).1 = 0 ∨ (copyLib calls source records size).1 = -1 :=
  copyWith_status libKind calls source size records

namespace Host

variable {records size : ℤ} {src dst : Name} {result : ℤ × Disk}

theorem generateFile_wrote (h : host.generateFile name records size disk = some result) :
    Wrote disk name result := by
  unfold generateFile at h
  split at h
  · split at h
    · split at h
      · exact absurd h (Option.some_ne_none _).symm
      · obtain rfl := Option.some.inj h
        rw [put_put]
        exact .put (generate_status _ _ _) _ _ _
    · obtain rfl := Option.some.inj h
      exact .put (Or.inr rfl) _ _ _
  · obtain rfl := Option.some.inj h
    exact .refl _ _

theorem sortSysFile_wrote (h : host.sortSysFile name records size disk = some result) :
    Wrote disk name result := by
  unfold sortSysFile at h
  split at h
  · obtain rfl := Option.some.inj h
    exact .refl _ _
  · split at h
    · obtain rfl := Option.some.inj h
      exact .put (sortWith_status _ _ _ _ _) _ _ _
    · exact absurd h (Option.some_ne_none _).symm

theorem sortLibFile_wrote (h : host.sortLibFile name records size disk = some result) :
    Wrote disk name result := by
  unfold sortLibFile at h
  split at h
  · exact absurd h (Option.some_ne_none _).symm
  · split at h
    · obtain rfl := Option.some.inj h
      exact .put (host.library.status_sortLib _ _ _ _) _ _ _
    · exact absurd h (Option.some_ne_none _).symm

theorem copyFile_wrote {copy : CopyCalls → List UInt8 → ℕ → ℕ → ℤ × List UInt8}
    (hcopy : ∀ calls source records size, (copy calls source records size).1 = 0 ∨
      (copy calls source records size).1 = -1)
    (h : host.copyFile copy src dst records size disk = some result) : Wrote disk dst result := by
  unfold copyFile at h
  split at h
  · obtain rfl := Option.some.inj h
    exact .refl _ _
  · split at h
    · simp only at h
      split at h
      · exact absurd h (Option.some_ne_none _).symm
      · obtain rfl := Option.some.inj h
        rw [put_put]
        exact .put (hcopy _ _ _ _) _ _ _
    · obtain rfl := Option.some.inj h
      exact .refl _ _

end Host

/-! ### What a run does to the files -/

/-- A run ends with a message or with the status 0, and has written its target, if any. -/
structure Ran (disk : Disk) (argv : List Name) (outcome : Exit × Disk) : Prop where
  status_le : outcome.1.status ≤ 10
  message : outcome.1.message = none ↔ outcome.1.status = 0
  files : outcome.2 = disk ∨
    ∃ name, target argv = some name ∧ ∃ contents, outcome.2 = disk.put name contents

variable {argv args : List Name} {outcome : Exit × Disk}

theorem Ran.of_refuse {status : ℕ} {message : String} (hpos : 0 < status) (hle : status ≤ 10)
    (h : refuse status message disk = some outcome) : Ran disk argv outcome := by
  obtain rfl := Option.some.inj h
  exact ⟨hle, iff_of_false (Option.some_ne_none message) hpos.ne', Or.inl rfl⟩

theorem Ran.of_conclude {status : ℕ} {message : String} {run : Option (ℤ × Disk)}
    (hpos : 0 < status) (hle : status ≤ 10) (htarget : target argv = some name)
    (hrun : ∀ result, run = some result → Wrote disk name result)
    (h : run.map (conclude status message) = some outcome) : Ran disk argv outcome := by
  obtain ⟨result, hresult, rfl⟩ := Option.map_eq_some_iff.mp h
  have hwrote := hrun result hresult
  have hfiles : result.2 = disk ∨ ∃ name, target argv = some name ∧
      ∃ contents, result.2 = disk.put name contents :=
    hwrote.files.imp_right fun hput => ⟨name, htarget, hput⟩
  rcases hwrote.status with hzero | hneg
  · have hnot : ¬result.1 < 0 := by omega
    refine ⟨?_, ?_, hfiles⟩
    · simp [conclude, hnot]
    · simp [conclude, hnot]
  · have hlt : result.1 < 0 := by omega
    refine ⟨?_, ?_, hfiles⟩
    · simp [conclude, hlt, hle]
    · simp [conclude, hlt, hpos.ne']

variable {program function : Name}

theorem target_of_ne (h : strcmp function (ascii "copy") ≠ 0) :
    target (program :: function :: args) = args[0]? :=
  if_neg h

theorem target_copy (h : strcmp function (ascii "copy") = 0) :
    target (program :: function :: args) = args[1]? :=
  if_pos h

theorem mainGenerate_ran (hfunction : strcmp function (ascii "copy") ≠ 0)
    (h : mainGenerate host args disk = some outcome) :
    Ran disk (program :: function :: args) outcome := by
  unfold mainGenerate at h
  split at h
  · simp only at h
    split at h
    · exact .of_refuse (by decide) (by decide) h
    · exact .of_conclude (by decide) (by decide) (target_of_ne hfunction)
        (fun _ => Host.generateFile_wrote) h
  · exact .of_refuse (by decide) (by decide) h

theorem mainSort_ran (hfunction : strcmp function (ascii "copy") ≠ 0)
    (h : mainSort host args disk = some outcome) :
    Ran disk (program :: function :: args) outcome := by
  unfold mainSort at h
  split at h
  · simp only at h
    split at h
    · exact .of_refuse (by decide) (by decide) h
    · split at h
      · exact .of_conclude (by decide) (by decide) (target_of_ne hfunction)
          (fun _ => Host.sortSysFile_wrote) h
      · split at h
        · exact .of_conclude (by decide) (by decide) (target_of_ne hfunction)
            (fun _ => Host.sortLibFile_wrote) h
        · exact .of_refuse (by decide) (by decide) h
  · exact .of_refuse (by decide) (by decide) h

theorem mainCopy_ran (hfunction : strcmp function (ascii "copy") = 0)
    (h : mainCopy host args disk = some outcome) :
    Ran disk (program :: function :: args) outcome := by
  unfold mainCopy at h
  split at h
  · simp only at h
    split at h
    · exact .of_refuse (by decide) (by decide) h
    · split at h
      · exact .of_conclude (by decide) (by decide) (target_copy hfunction)
          (fun _ => Host.copyFile_wrote copySys_status) h
      · split at h
        · exact .of_conclude (by decide) (by decide) (target_copy hfunction)
            (fun _ => Host.copyFile_wrote copyLib_status) h
        · exact .of_refuse (by decide) (by decide) h
  · exact .of_refuse (by decide) (by decide) h

/-- **A run writes its target, or no file**, and its status is 0 iff it has no message. -/
theorem main_ran (h : main host argv disk = some outcome) : Ran disk argv outcome := by
  have hgenerate : strcmp (ascii "generate") (ascii "copy") ≠ 0 := by decide
  have hsort : strcmp (ascii "sort") (ascii "copy") ≠ 0 := by decide
  unfold main at h
  split at h
  · split at h
    · rename_i heq
      exact mainGenerate_ran (strcmp_eq_zero heq ▸ hgenerate) h
    · split at h
      · rename_i heq
        exact mainSort_ran (strcmp_eq_zero heq ▸ hsort) h
      · split at h
        · rename_i heq
          exact mainCopy_ran heq h
        · exact .of_refuse (by decide) (by decide) h
  · exact .of_refuse (by decide) (by decide) h

/-! ### Copies -/

section Copy

variable {kind : CopyKind} {calls : CopyCalls} {source : List UInt8} {records size : ℕ}

/-- A copy that ends well has not written more than there is. -/
theorem length_copyWith_le (h : kind.Lawful)
    (hzero : (copyWith kind calls source size records).1 = 0) :
    (copyWith kind calls source size records).2.length ≤ min (records * size) source.length := by
  by_cases hshort : ∃ i < records, calls.WriteShort kind size source.length i
  · have hneg := copyWith_short h hshort
    omega
  · obtain ⟨s, hwith, hs⟩ := copyWith_zero h hshort
    have hle := hs.length_le
    rw [hs.position] at hle
    rw [hwith]
    exact hle.trans (position_le calls size source.length records)

/-- An empty source is copied without a write, and so without an error. -/
theorem copyWith_nil (h : kind.Lawful) (calls : CopyCalls) (records size : ℕ) :
    copyWith kind calls [] size records = (0, []) := by
  have hshort : ¬∃ i < records, calls.WriteShort kind size ([] : List UInt8).length i := by
    rw [List.length_nil]
    rintro ⟨i, -, hpos, -⟩
    have hle : calls.delivered size 0 i ≤ min size (0 - calls.position size 0 i) :=
      deliveredBy_le _ _ _
    have hnone : calls.delivered size 0 i = 0 := by omega
    rw [hnone, Int.natCast_zero, h.convert_zero] at hpos
    exact Int.lt_irrefl 0 hpos
  obtain ⟨s, hwith, -⟩ := copyWith_zero h hshort
  have hle := length_copyWith_le h (congrArg Prod.fst hwith)
  rw [List.length_nil, Nat.min_zero] at hle
  have hnil := List.eq_nil_of_length_eq_zero (Nat.le_zero.mp hle)
  rw [hwith] at hnil
  exact hwith.trans (congrArg (Prod.mk 0) hnil)

end Copy

/-- How a copy ends that is asked for `most` bytes at most: well, with a part of the source
in the destination, or with an error. -/
structure CopyEnds (disk : Disk) (src dst : Name) (most : ℕ) (ok : Prop) (disk' : Disk) :
    Prop where
  done : ok → ∃ file, disk src = some file ∧ ∃ copied, disk' = disk.put dst copied ∧
    copied.length ≤ min most file.length ∧ (src = dst → copied = [])
  failed : ¬ok → src = dst → disk' = disk

/-- What the proofs use of a copying loop. -/
structure Copying (copy : CopyCalls → List UInt8 → ℕ → ℕ → ℤ × List UInt8) : Prop where
  nil : ∀ calls records size, copy calls [] records size = (0, [])
  length_le : ∀ calls source records size, (copy calls source records size).1 = 0 →
    (copy calls source records size).2.length ≤ min (records * size) source.length

theorem copying_sys : Copying copySys where
  nil calls records size := copyWith_nil sysKind_lawful calls records size
  length_le _ _ _ _ h := length_copyWith_le sysKind_lawful h

theorem copying_lib : Copying copyLib where
  nil calls records size := by
    rw [copyLib, copyWith_nil libKind_lawful]
    cases calls.kept with
    | none => rfl
    | some k => exact congrArg (Prod.mk 0) List.take_nil
  length_le calls source records size h := by
    refine le_trans ?_ (length_copyWith_le libKind_lawful h)
    rw [copyLib]
    cases calls.kept with
    | none => exact le_rfl
    | some k => exact List.length_take_le' _ _

variable {src dst : Name} {copy : CopyCalls → List UInt8 → ℕ → ℕ → ℤ × List UInt8}

theorem copyFile_ends (hcopy : Copying copy) {records size : ℤ} {result : ℤ × Disk}
    (h : host.copyFile copy src dst records size disk = some result) :
    CopyEnds disk src dst (records.toNat * size.toNat) (result.1 = 0) result.2 := by
  have hneg : (-1 : ℤ) ≠ 0 := by decide
  unfold Host.copyFile at h
  split at h
  · obtain rfl := Option.some.inj h
    exact ⟨fun hzero => absurd hzero hneg, fun _ _ => rfl⟩
  · rename_i file hopen
    have hfile : disk src = some file := by
      rw [Host.openExisting] at hopen
      split at hopen
      · exact hopen
      · exact absurd hopen (Option.some_ne_none file).symm
    split at h
    · simp only at h
      split at h
      · exact absurd h (Option.some_ne_none _).symm
      · obtain rfl := Option.some.inj h
        rw [put_put]
        -- the source is emptied by its own `O_TRUNC` before it is read
        by_cases heq : src = dst
        · subst heq
          simp only [put_self, Option.getD_some, hcopy.nil]
          refine ⟨fun _ => ⟨file, hfile, [], rfl, Nat.zero_le _, fun _ => rfl⟩, ?_⟩
          exact fun hnot => absurd trivial hnot
        · rw [put_of_ne disk [] heq, hfile, Option.getD_some]
          refine ⟨fun hzero => ⟨file, hfile, _, rfl, hcopy.length_le _ _ _ _ hzero, ?_⟩, ?_⟩
          · exact fun hsame => absurd hsame heq
          · exact fun _ hsame => absurd hsame heq
    · obtain rfl := Option.some.inj h
      exact ⟨fun hzero => absurd hzero hneg, fun _ _ => rfl⟩

theorem main_generate (host : Host) (program : Name) (args : List Name) (disk : Disk) :
    main host (program :: ascii "generate" :: args) disk = mainGenerate host args disk := by
  have hword : strcmp (ascii "generate") (ascii "generate") = 0 := by decide
  rw [main, if_pos hword]

theorem main_sort (host : Host) (program : Name) (args : List Name) (disk : Disk) :
    main host (program :: ascii "sort" :: args) disk = mainSort host args disk := by
  have hother : strcmp (ascii "sort") (ascii "generate") ≠ 0 := by decide
  have hword : strcmp (ascii "sort") (ascii "sort") = 0 := by decide
  rw [main, if_neg hother, if_pos hword]

theorem main_copy (host : Host) (program : Name) (args : List Name) (disk : Disk) :
    main host (program :: ascii "copy" :: args) disk = mainCopy host args disk := by
  have hgenerate : strcmp (ascii "copy") (ascii "generate") ≠ 0 := by decide
  have hsort : strcmp (ascii "copy") (ascii "sort") ≠ 0 := by decide
  have hword : strcmp (ascii "copy") (ascii "copy") = 0 := by decide
  rw [main, if_neg hgenerate, if_neg hsort, if_pos hword]

theorem status_conclude {status : ℕ} {message : String} {result : ℤ × Disk} (hpos : 0 < status)
    (h : result.1 = 0 ∨ result.1 = -1) :
    (conclude status message result).1.status = 0 ↔ result.1 = 0 := by
  rcases h with hzero | hneg
  · simp [conclude, hzero]
  · simp [conclude, hneg, hpos.ne']

section CopyRun

variable {records size functionType : Name}

theorem CopyEnds.of_conclude {status : ℕ} {message : String} {n m : ℤ} (hpos : 0 < status)
    (hcopy : Copying copy) (hstatus : ∀ calls source records size,
      (copy calls source records size).1 = 0 ∨ (copy calls source records size).1 = -1)
    (h : (host.copyFile copy src dst n m disk).map (conclude status message) = some outcome) :
    CopyEnds disk src dst (n.toNat * m.toNat) (outcome.1.status = 0) outcome.2 := by
  obtain ⟨result, hresult, rfl⟩ := Option.map_eq_some_iff.mp h
  rw [status_conclude hpos (Host.copyFile_wrote hstatus hresult).status]
  exact copyFile_ends hcopy hresult

theorem CopyEnds.of_refuse {status most : ℕ} {message : String} (hpos : 0 < status)
    (h : refuse status message disk = some outcome) :
    CopyEnds disk src dst most (outcome.1.status = 0) outcome.2 := by
  obtain rfl := Option.some.inj h
  exact ⟨fun hzero => absurd hzero hpos.ne', fun _ _ => rfl⟩

end CopyRun

/-- Every `open` succeeds, and no call fails or falls short for records of up to 8 bytes. -/
def quietHost : Host where
  opens := fun _ => true
  device := ⟨fun k => UInt8.ofNat (90 - k), fun _ _ => some 0, fun _ => some 7⟩
  library := ⟨fun _ _ => 0, false⟩
  fails := noFault
  calls := ⟨fun _ => some 7, fun _ => some 8, none⟩
  first := fun _ => 0
  second := fun _ => 0

/-- A directory with one file. -/
def oneFile : Disk := Disk.put (fun _ => none) (ascii "dane1") [7, 8, 9]

/-- The file copied onto itself: the program reports success. -/
def selfCopied : Exit × Disk :=
  (⟨0, none⟩, (oneFile.put (ascii "dane1") []).put (ascii "dane1") [])

end Program
end FileIo
end OpSys
