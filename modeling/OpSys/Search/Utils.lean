import OpSys.Lib.Decimal
import OpSys.Lib.Stdio

/-!
# The tools of the directory searches

`utils.c` is the same text in the two labs, but for the end of the line that
`print_file_details` writes.  A string is the list of its bytes before the NUL.  The
comparisons return 0 for true.

## Main definitions

* `strcmp`, `lessThan`, `greaterThan`, `equal`, `comparison` — the comparisons, and the one
  a sign stands for.
* `Zone`, `formatTime` — the local time, and a time as text.
* `sscanf`, `validateDate` — the directives of the format, and the check of a date.
* `printFileDetails`, `toAbsolute`, `newPath` — the record of a file, and its path.
* `arguments` — how `search_stat` and `search_proc` read their command line.

## References

`lab2_file_system/search_dir/utils.c`, `lab3_processes/search_dir_mult_ps/utils.c`.
-/

namespace OpSys
namespace Search

open Stdio

/-- The bytes of an ASCII text. -/
def ascii (s : String) : List UInt8 := s.toList.map fun c => UInt8.ofNat c.toNat

/-! ### Comparisons -/

/-- `strcmp`: the bytes are compared as `unsigned char`, the end of a string is least. -/
def strcmp : List UInt8 → List UInt8 → ℤ
  | [], [] => 0
  | [], _ :: _ => -1
  | _ :: _, [] => 1
  | a :: as, b :: bs => if a = b then strcmp as bs else if a < b then -1 else 1

/-- `less_than`. -/
def lessThan (a b : List UInt8) : ℤ := if strcmp a b < 0 then 0 else 1

/-- `greater_than`. -/
def greaterThan (a b : List UInt8) : ℤ := if 0 < strcmp a b then 0 else 1

/-- `equal`. -/
def equal (a b : List UInt8) : ℤ := if strcmp a b = 0 then 0 else 1

/-- The comparison that `'<'`, `'>'` or `'='` stands for. -/
def comparison (sign : UInt8) : Option (List UInt8 → List UInt8 → ℤ) :=
  if sign = 60 then some lessThan
  else if sign = 62 then some greaterThan
  else if sign = 61 then some equal
  else none

/-! ### Times -/

/-- The fields of `struct tm` that the format uses. -/
structure Tm where
  year : ℤ
  mon : ℕ
  mday : ℕ
  hour : ℕ
  min : ℕ
  sec : ℕ
  deriving DecidableEq, Repr

/-- The local time.  `leftover` is what the buffer holds when a text does not fit, which C
leaves open. -/
structure Zone where
  localtime : ℤ → Tm
  leftover : Tm → List UInt8

/-- Two digits at least. -/
def twoDigits (n : ℕ) : List UInt8 := if n < 10 then digitByte 0 :: digitBytes n else digitBytes n

/-- The text of `"%Y-%m-%d %H:%M:%S"`. -/
def strftime (tm : Tm) : List UInt8 :=
  decimal (tm.year + 1900) ++ ascii "-" ++ twoDigits (tm.mon + 1) ++ ascii "-" ++
    twoDigits tm.mday ++ ascii " " ++ twoDigits tm.hour ++ ascii ":" ++ twoDigits tm.min ++
    ascii ":" ++ twoDigits tm.sec

/-- `format_time` and `format_timespec`: the buffer takes 20 bytes with the NUL. -/
def formatTime (zone : Zone) (time : ℤ) : List UInt8 :=
  let text := strftime (zone.localtime time)
  if text.length < 20 then text else zone.leftover (zone.localtime time)

/-! ### Dates -/

/-- The directives of the format of `validate_date`. -/
inductive Directive
  /-- `%*[0-9]` -/
  | digits
  /-- `%n` -/
  | store
  | byte (b : UInt8)
  | blank
  deriving DecidableEq, Repr

/-- What `%n` stores, from the place `n` of the text on. -/
def sscanf : List Directive → List UInt8 → ℕ → List ℕ
  | [], _, _ => []
  | .digits :: format, text, n =>
    let run := text.takeWhile isdigit
    -- a conversion that matches nothing ends the scan
    if run = [] then [] else sscanf format (text.dropWhile isdigit) (n + run.length)
  | .store :: format, text, n => n :: sscanf format text n
  | .byte _ :: _, [], _ => []
  | .byte b :: format, c :: text, n => if c = b then sscanf format text (n + 1) else []
  -- a blank matches any white space, also none
  | .blank :: format, text, n =>
    sscanf format (text.dropWhile isspace) (n + (text.takeWhile isspace).length)

/-- `"%*[0-9]%n-%*[0-9]%n-%*[0-9]%n %*[0-9]%n:%*[0-9]%n:%*[0-9]%n"` -/
def dateFormat : List Directive :=
  [.digits, .store, .byte 45, .digits, .store, .byte 45, .digits, .store, .blank,
    .digits, .store, .byte 58, .digits, .store, .byte 58, .digits, .store]

/-- `validate_date`: what is not stored stays 0. -/
def validateDate (date : List UInt8) : ℤ :=
  let n := fun i => (sscanf dateFormat date 0).getD i 0
  if n 0 ≠ 4 ∨ n 1 ≠ 7 ∨ n 2 ≠ 10 ∨ n 3 ≠ 13 ∨ n 4 ≠ 16 ∨ n 5 ≠ 19 then 5 else 0

example : validateDate (ascii "2019-05-01 12:00:00") = 0 := by decide

/-! ### Records and paths -/

/-- What `stat` tells of a file. -/
structure Stat where
  mode : ℕ
  mtime : ℤ
  size : ℤ
  deriving DecidableEq, Repr

/-- A permission bit as a letter. -/
def permission (mode bit : ℕ) (letter : String) : List UInt8 :=
  if mode &&& bit ≠ 0 then ascii letter else ascii "-"

/-- `print_file_details`, up to the size of the file; `tail` is the rest of the line. -/
def fileDetails (tail fileAbsPath modTime : List UInt8) (stat : Stat) : List UInt8 :=
  ascii "Permissions: " ++
    permission stat.mode 0o400 "r" ++ permission stat.mode 0o200 "w" ++
    permission stat.mode 0o100 "x" ++ permission stat.mode 0o040 "r" ++
    permission stat.mode 0o020 "w" ++ permission stat.mode 0o010 "x" ++
    permission stat.mode 0o004 "r" ++ permission stat.mode 0o002 "w" ++
    permission stat.mode 0o001 "x" ++
    ascii ", last modified: " ++ modTime ++ ascii ", path: " ++ fileAbsPath ++
    ascii ", size: " ++ decimal stat.size ++ tail

/-- `print_file_details` of `lab2`. -/
def printFileDetails (fileAbsPath modTime : List UInt8) (stat : Stat) : List UInt8 :=
  fileDetails [newline] fileAbsPath modTime stat

/-- `print_file_details` of `lab3`, in a process `pid` with the parent `ppid`. -/
def printFileDetailsOf (ppid pid : ℤ) (fileAbsPath modTime : List UInt8) (stat : Stat) :
    List UInt8 :=
  fileDetails (ascii ", PPID: " ++ decimal ppid ++ ascii ", PID:" ++ decimal pid ++ [newline])
    fileAbsPath modTime stat

/-- `to_absolute`; `cwd` is what `getcwd` leaves in its buffer. -/
def toAbsolute (cwd fpath : List UInt8) : List UInt8 :=
  cwd ++ (if fpath.getLast? ≠ some 47 then [47] else []) ++ fpath

/-- The path of an entry of the directory `dirname`. -/
def newPath (dirname name : List UInt8) : List UInt8 :=
  dirname ++ (if dirname.getLast? ≠ some 47 then [47] else []) ++ name

/-- The path that is handed to `print_file_details`. -/
def absPath (cwd path : List UInt8) : List UInt8 :=
  if path.head? ≠ some 47 then toAbsolute cwd path else path

/-! ### The command line -/

/-- What a search is asked for. -/
structure Request where
  dirname : List UInt8
  compareFunc : List UInt8 → List UInt8 → ℤ
  date : List UInt8

/-- How `search_stat` and `search_proc` read the words of their command line; an error is
the status they return. -/
def arguments : List (List UInt8) → Except ℤ Request
  | [_, dirname, sign, date] =>
    match sign with
    | [c] =>
      if validateDate date ≠ 0 then .error 3
      else
        match comparison c with
        | some compareFunc => .ok ⟨dirname, compareFunc, date⟩
        | none => .error 4
    | _ => .error 2
  | _ => .error 1

end Search
end OpSys
