import OpSys.Lib.Exchange
import OpSys.Lib.Records

/-!
# Sorting the records of a file in place

`sort_sys` and `sort_lib`, from the point where the file is open.  Their loops have the
same text and differ only in the helpers that read and write a record.  A call may fail;
it then transfers nothing.  The buffers of the two records are not initialised, and a
short read leaves their old bytes behind the new ones.  What `sort_lib` writes is seen at
once by what it reads; when it is in the file is the subject of `Stream`.

## Main definitions

* `readStartingFrom`, `writeStartingFrom`, `freadStartingFrom`, `fwriteStartingFrom` —
  the helpers of `utils.c`.
* `Sorter`, `sortBody`, `innerLoop`, `outerLoop` — the variables and the loops, which
  also note the calls they make.
* `sortSys`, `sortLib` — the status and the variables at the end.

## Main results

* `outerLoop_eq` — the loops visit the places of an insertion sort.

## References

`lab2_file_system/system_vs_lib_io/program.c` and `utils.c`.
-/

namespace OpSys
namespace FileIo

open Records Exchange

/-- The four helper calls of the loop body. -/
inductive Place
  | readFirst
  | readSecond
  | writeSecond
  | writeFirst
  deriving DecidableEq, Repr

/-- A call of the body at the indices `visit`: the seek of a helper, or its transfer. -/
structure Call where
  visit : ℕ × ℕ
  place : Place
  seeks : Bool
  deriving DecidableEq, Repr

/-- What a helper returns, the buffer or the file after it, and whether it came to its
transfer. -/
structure Helped where
  status : ℤ
  data : List UInt8
  transferred : Bool
  deriving DecidableEq, Repr

/-- `read_starting_from`. -/
def readStartingFrom (seekFails readFails : Bool) (file buffer : List UInt8)
    (bufferSize start : ℕ) : Helped :=
  let seeked := toInt (if seekFails then -1 else start)
  if seeked < 0 then ⟨-1, buffer, false⟩
  else
    let got := if readFails then [] else readAt file start bufferSize
    let dataRead := toInt (if readFails then -1 else got.length)
    ⟨if dataRead < 0 then -1 else 0, got ++ buffer.drop got.length, true⟩

/-- `write_starting_from`. -/
def writeStartingFrom (seekFails writeFails : Bool) (file buffer : List UInt8)
    (bufferSize start : ℕ) : Helped :=
  let seeked := toInt (if seekFails then -1 else start)
  if seeked < 0 then ⟨-1, file, false⟩
  else
    let dataWritten := toInt (if writeFails then -1 else bufferSize)
    ⟨if dataWritten < 0 then -1 else 0,
      if writeFails then file else writeAt file start (buffer.take bufferSize), true⟩

/-- `fread_starting_from`. -/
def freadStartingFrom (seekFails readFails : Bool) (file buffer : List UInt8)
    (bufferSize start : ℕ) : Helped :=
  let seeked : ℤ := if seekFails then -1 else 0
  if seeked < 0 then ⟨-1, buffer, false⟩
  else
    let got := if readFails then [] else readAt file start bufferSize
    ⟨if got.length < bufferSize then -1 else 0, got ++ buffer.drop got.length, true⟩

/-- `fwrite_starting_from`. -/
def fwriteStartingFrom (seekFails writeFails : Bool) (file buffer : List UInt8)
    (bufferSize start : ℕ) : Helped :=
  let seeked : ℤ := if seekFails then -1 else 0
  if seeked < 0 then ⟨-1, file, false⟩
  else
    let dataWritten := if writeFails then 0 else bufferSize
    ⟨if dataWritten < bufferSize then -1 else 0,
      if writeFails then file else writeAt file start (buffer.take bufferSize), true⟩

/-- The helpers that a sort uses. -/
structure Helpers where
  read : Bool → Bool → List UInt8 → List UInt8 → ℕ → ℕ → Helped
  write : Bool → Bool → List UInt8 → List UInt8 → ℕ → ℕ → Helped

/-- The helpers of `sort_sys`. -/
def sysHelpers : Helpers := ⟨readStartingFrom, writeStartingFrom⟩

/-- The helpers of `sort_lib`. -/
def libHelpers : Helpers := ⟨freadStartingFrom, fwriteStartingFrom⟩

/-- The file, `first_record`, `second_record` and the calls made so far. -/
structure Sorter where
  file : List UInt8
  first : List UInt8
  second : List UInt8
  calls : List Call
  deriving DecidableEq, Repr

/-- The first byte of a record, an unsigned char, as the comparison reads it. -/
def recordKey (record : List UInt8) : ℕ := (record.headD 0).toNat

/-- The calls of a helper. -/
def helperCalls (visit : ℕ × ℕ) (place : Place) (transferred : Bool) : List Call :=
  if transferred then [⟨visit, place, true⟩, ⟨visit, place, false⟩] else [⟨visit, place, true⟩]

/-- The sort goes on, or returns -1 and leaves its variables as they are. -/
def check (helped : Helped) (s : Sorter) : Except Sorter Sorter :=
  if helped.status < 0 then .error s else .ok s

section Body

variable (helpers : Helpers) (fails : Call → Bool) (recordSize : ℕ)

/-- A record is read into `first_record`. -/
def readFirst (v : ℕ × ℕ) (s : Sorter) : Except Sorter Sorter :=
  let helped := helpers.read (fails ⟨v, .readFirst, true⟩) (fails ⟨v, .readFirst, false⟩)
    s.file s.first recordSize ((v.2 - 1) * recordSize)
  check helped { s with
    first := helped.data
    calls := s.calls ++ helperCalls v .readFirst helped.transferred }

/-- A record is read into `second_record`. -/
def readSecond (v : ℕ × ℕ) (s : Sorter) : Except Sorter Sorter :=
  let helped := helpers.read (fails ⟨v, .readSecond, true⟩) (fails ⟨v, .readSecond, false⟩)
    s.file s.second recordSize (v.2 * recordSize)
  check helped { s with
    second := helped.data
    calls := s.calls ++ helperCalls v .readSecond helped.transferred }

/-- `second_record` is written to the left place. -/
def writeSecond (v : ℕ × ℕ) (s : Sorter) : Except Sorter Sorter :=
  let helped := helpers.write (fails ⟨v, .writeSecond, true⟩) (fails ⟨v, .writeSecond, false⟩)
    s.file s.second recordSize ((v.2 - 1) * recordSize)
  check helped { s with
    file := helped.data
    calls := s.calls ++ helperCalls v .writeSecond helped.transferred }

/-- `first_record` is written to the right place. -/
def writeFirst (v : ℕ × ℕ) (s : Sorter) : Except Sorter Sorter :=
  let helped := helpers.write (fails ⟨v, .writeFirst, true⟩) (fails ⟨v, .writeFirst, false⟩)
    s.file s.first recordSize (v.2 * recordSize)
  check helped { s with
    file := helped.data
    calls := s.calls ++ helperCalls v .writeFirst helped.transferred }

/-- The body of the loops, at the indices `v`. -/
def sortBody (s : Sorter) (v : ℕ × ℕ) : Except Sorter Sorter :=
  readFirst helpers fails recordSize v s >>= fun s =>
  readSecond helpers fails recordSize v s >>= fun s =>
  if recordKey s.second < recordKey s.first then
    writeSecond helpers fails recordSize v s >>= writeFirst helpers fails recordSize v
  else .ok s

end Body

section Loops

variable {σ : Type} (body : σ → ℕ × ℕ → Except σ σ)

/-- `for (long j = i; j > 0; j--)`, from `j` down. -/
def innerLoop (i : ℕ) : ℕ → σ → Except σ σ
  | 0, s => .ok s
  | j + 1, s => body s (i, j + 1) >>= innerLoop i j

/-- `for (long i = 1; i < records; i++)`; a pass with `i = 0` would do nothing. -/
def outerLoop : ℕ → σ → Except σ σ
  | 0, s => .ok s
  | i + 1, s => outerLoop i s >>= innerLoop body i i

end Loops

/-- The loops, and the status that is returned. -/
def sortWith (helpers : Helpers) (fails : Call → Bool) (recordSize records : ℕ) (s : Sorter) :
    ℤ × Sorter :=
  match outerLoop (sortBody helpers fails recordSize) records s with
  | .ok s => (0, s)
  | .error s => (-1, s)

/-- `sort_sys`, from the point where the file is open. -/
def sortSys (fails : Call → Bool) (records recordSize : ℕ) (s : Sorter) : ℤ × Sorter :=
  sortWith sysHelpers fails recordSize records s

/-- `sort_lib`, from the point where the file is open. -/
def sortLib (fails : Call → Bool) (records recordSize : ℕ) (s : Sorter) : ℤ × Sorter :=
  sortWith libHelpers fails recordSize records s

/-- The variables at the start: what the buffers hold is arbitrary. -/
def Sorter.start (file first second : List UInt8) : Sorter := ⟨file, first, second, []⟩

/-- No call fails. -/
def noFailure (_ : Call) : Bool := false

/-- What a sort is asked to do: `record_size` bytes to each of the `records`, in a file
that holds `file`, with two buffers of one record each. -/
structure SortJob where
  records : ℕ
  size : ℕ
  file : List UInt8
  first : List UInt8
  second : List UInt8
  one_le_records : 1 ≤ records
  one_le_size : 1 ≤ size
  first_length : first.length = size
  second_length : second.length = size

namespace SortJob

/-- The variables at the start. -/
def start (job : SortJob) : Sorter := .start job.file job.first job.second

/-- `sort_sys` on the job. -/
def sys (job : SortJob) (fails : Call → Bool) : ℤ × Sorter :=
  sortSys fails job.records job.size job.start

/-- `sort_lib` on the job. -/
def lib (job : SortJob) (fails : Call → Bool) : ℤ × Sorter :=
  sortLib fails job.records job.size job.start

/-- The file holds as many bytes as the sort is asked to sort. -/
def Complete (job : SortJob) : Prop := job.records * job.size ≤ job.file.length

instance (job : SortJob) : Decidable job.Complete := inferInstanceAs (Decidable (_ ≤ _))

/-- The records of `file` that the sort is asked to sort. -/
def recordsOf (job : SortJob) (file : List UInt8) : List (List UInt8) :=
  cut job.size job.records file

end SortJob

example : (sortLib noFailure 3 2 (.start [9, 1, 200, 2, 9, 3] [0, 0] [0, 0])).2.file =
    [9, 1, 9, 3, 200, 2] := by decide

/-! ### The loops as a list of visits -/

variable {σ : Type} {body : σ → ℕ × ℕ → Except σ σ}

theorem innerLoop_eq (i j : ℕ) (s : σ) :
    innerLoop body i j s = ((downFrom j).map fun j => (i, j)).foldlM body s := by
  induction j generalizing s with
  | zero => rfl
  | succ j ih =>
    rw [innerLoop, downFrom, List.map_cons, List.foldlM_cons]
    exact congrArg _ (funext ih)

/-- The loops visit the places of an insertion sort, in its order. -/
theorem outerLoop_eq (n : ℕ) (s : σ) : outerLoop body n s = (visits n).foldlM body s := by
  induction n generalizing s with
  | zero => rfl
  | succ n ih =>
    rw [outerLoop, visits, List.foldlM_append, ih]
    exact congrArg _ (funext (innerLoop_eq n n))

end FileIo
end OpSys
