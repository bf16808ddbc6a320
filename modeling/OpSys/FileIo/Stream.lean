import OpSys.FileIo.Sorted
import OpSys.Lib.StreamFile

/-!
# `sort_lib` over a stream

`fwrite` may hold back a part of what it is given.  The next `fseek` writes it, or
`fclose`, whose result `sort_lib` does not look at; so a write can fail later than where
it was asked for.  As long as nothing that is held fails to be written, the stream cannot
be told from the file.

## Main definitions

* `Point` — where something can fail; `CLibrary` — what the C library is free to do.
* `CLibrary.fseek`, `freadStartingFrom`, `fwriteStartingFrom`, `fclose` — the calls.
* `CLibrary.sortBody`, `CLibrary.sortLib` — the loop body and the function.
* `LibSorter.seen` — the variables, with the file as the stream shows it.

## Main results

* `sortBody_seen`, `foldlM_seen` — seen through the stream, the visits are those over a
  file.
* `stream_eq` — so is the sort, when all that is held gets written.
* `stream_reported` — a failure in the loops is reported.

## References

`lab2_file_system/system_vs_lib_io/program.c` and `utils.c`.
-/

namespace OpSys
namespace FileIo

open Records Exchange

/-- A point of `sort_lib` at which something can fail: a call, or the write of what the
stream holds, in the `fseek` of a helper or in `fclose`. -/
inductive Point
  | call (c : Call)
  | flush (visit : ℕ × ℕ) (place : Place)
  | close
  deriving DecidableEq, Repr

/-- The call of a point. -/
def Point.call? : Point → Option Call
  | .call c => some c
  | .flush _ _ => none
  | .close => none

/-- What the C library is free to do: how many bytes of an `fwrite` reach the file at once,
and whether bytes that could not be written are kept for another attempt. -/
structure CLibrary where
  passes : ℕ × ℕ → Place → ℕ
  retries : Bool

/-- What a call or a helper returns, the stream and the buffer after it, and the points it
came to. -/
structure Streamed where
  status : ℤ
  stream : StreamFile
  buffer : List UInt8
  points : List Point
  deriving DecidableEq, Repr

/-- The stream, `first_record`, `second_record` and the points so far. -/
structure LibSorter where
  stream : StreamFile
  first : List UInt8
  second : List UInt8
  points : List Point
  deriving DecidableEq, Repr

/-- The status of the sort, the file that it leaves, and the points it came to. -/
structure LibResult where
  status : ℤ
  file : List UInt8
  points : List Point
  deriving DecidableEq, Repr

/-- The sort goes on, or returns -1. -/
def checkStatus {σ : Type} (status : ℤ) (s : σ) : Except σ σ :=
  if status < 0 then .error s else .ok s

namespace CLibrary

variable (lib : CLibrary) (fails : Point → Bool) (recordSize : ℕ)

/-- `fseek`, which writes what the stream holds before it moves. -/
def fseek (v : ℕ × ℕ) (place : Place) (f : StreamFile) (buffer : List UInt8) : Streamed :=
  let flushes : List Point := if f.held = [] then [] else [.flush v place]
  if f.held ≠ [] ∧ fails (.flush v place) then ⟨-1, f.stuck lib.retries, buffer, flushes⟩
  else
    ⟨if fails (.call ⟨v, place, true⟩) then -1 else 0, f.flushed, buffer,
      flushes ++ [.call ⟨v, place, true⟩]⟩

/-- `fread_starting_from`. -/
def freadStartingFrom (v : ℕ × ℕ) (place : Place) (f : StreamFile) (buffer : List UInt8)
    (bufferSize start : ℕ) : Streamed :=
  let seeked := lib.fseek fails v place f buffer
  if seeked.status < 0 then { seeked with status := -1 }
  else
    let got := if fails (.call ⟨v, place, false⟩) then []
      else readAt seeked.stream.file start bufferSize
    ⟨if got.length < bufferSize then -1 else 0, seeked.stream,
      got ++ buffer.drop got.length, seeked.points ++ [.call ⟨v, place, false⟩]⟩

/-- `fwrite_starting_from`. -/
def fwriteStartingFrom (v : ℕ × ℕ) (place : Place) (f : StreamFile) (buffer : List UInt8)
    (bufferSize start : ℕ) : Streamed :=
  let seeked := lib.fseek fails v place f buffer
  if seeked.status < 0 then { seeked with status := -1 }
  else
    let dataWritten := if fails (.call ⟨v, place, false⟩) then 0 else bufferSize
    ⟨if dataWritten < bufferSize then -1 else 0,
      if fails (.call ⟨v, place, false⟩) then seeked.stream
      else seeked.stream.fwrite (lib.passes v place) start (buffer.take bufferSize),
      buffer, seeked.points ++ [.call ⟨v, place, false⟩]⟩

/-- A record is read into `first_record`. -/
def readFirst (v : ℕ × ℕ) (s : LibSorter) : Except LibSorter LibSorter :=
  let r := lib.freadStartingFrom fails v .readFirst s.stream s.first recordSize
    ((v.2 - 1) * recordSize)
  checkStatus r.status
    { s with stream := r.stream, first := r.buffer, points := s.points ++ r.points }

/-- A record is read into `second_record`. -/
def readSecond (v : ℕ × ℕ) (s : LibSorter) : Except LibSorter LibSorter :=
  let r := lib.freadStartingFrom fails v .readSecond s.stream s.second recordSize
    (v.2 * recordSize)
  checkStatus r.status
    { s with stream := r.stream, second := r.buffer, points := s.points ++ r.points }

/-- `second_record` is written to the left place. -/
def writeSecond (v : ℕ × ℕ) (s : LibSorter) : Except LibSorter LibSorter :=
  let r := lib.fwriteStartingFrom fails v .writeSecond s.stream s.second recordSize
    ((v.2 - 1) * recordSize)
  checkStatus r.status { s with stream := r.stream, points := s.points ++ r.points }

/-- `first_record` is written to the right place. -/
def writeFirst (v : ℕ × ℕ) (s : LibSorter) : Except LibSorter LibSorter :=
  let r := lib.fwriteStartingFrom fails v .writeFirst s.stream s.first recordSize
    (v.2 * recordSize)
  checkStatus r.status { s with stream := r.stream, points := s.points ++ r.points }

/-- The body of the loops, at the indices `v`. -/
def sortBody (s : LibSorter) (v : ℕ × ℕ) : Except LibSorter LibSorter :=
  lib.readFirst fails recordSize v s >>= fun s =>
  lib.readSecond fails recordSize v s >>= fun s =>
  if recordKey s.second < recordKey s.first then
    lib.writeSecond fails recordSize v s >>= lib.writeFirst fails recordSize v
  else .ok s

/-- `fclose`, whose result is not looked at, and the status that is returned. -/
def fclose (status : ℤ) (s : LibSorter) : LibResult :=
  if s.stream.held = [] then ⟨status, s.stream.file, s.points⟩
  else ⟨status, if fails .close then s.stream.file else s.stream.seen, s.points ++ [.close]⟩

/-- `sort_lib`, from the point where the file is open. -/
def sortLib (records : ℕ) (s : LibSorter) : LibResult :=
  match outerLoop (lib.sortBody fails recordSize) records s with
  | .ok s => fclose fails 0 s
  | .error s => fclose fails (-1) s

end CLibrary

/-- The variables of `sort_lib` at the start. -/
def SortJob.streamStart (job : SortJob) : LibSorter := ⟨.of job.file, job.first, job.second, []⟩

/-- `sort_lib` on the job, over a stream. -/
def SortJob.stream (job : SortJob) (lib : CLibrary) (fails : Point → Bool) : LibResult :=
  lib.sortLib fails job.size job.records job.streamStart

example : (CLibrary.sortLib ⟨fun _ _ => 1, false⟩ (fun _ => false) 2 3
    ⟨.of [9, 1, 200, 2, 9, 3], [0, 0], [0, 0], []⟩).file = [9, 1, 9, 3, 200, 2] := by decide

/-! ### What a reader of the stream sees -/

/-- The variables as the program sees them. -/
def LibSorter.seen (s : LibSorter) : Sorter :=
  ⟨s.stream.seen, s.first, s.second, s.points.filterMap Point.call?⟩

/-- How a run over the stream has ended, as the program sees it. -/
def seeing : Except LibSorter LibSorter → Except Sorter Sorter
  | .ok s => .ok s.seen
  | .error s => .error s.seen

/-- The calls that fail. -/
def onCalls (fails : Point → Bool) (c : Call) : Bool := fails (.call c)

/-- Nothing fails at any point. -/
def noFault (_ : Point) : Bool := false

@[simp] theorem onCalls_noFault : onCalls noFault = noFailure := rfl

@[simp] theorem seeing_ok (s : LibSorter) : seeing (.ok s) = .ok s.seen := rfl

@[simp] theorem seeing_error (s : LibSorter) : seeing (.error s) = .error s.seen := rfl

@[simp] theorem seeing_checkStatus (status : ℤ) (s : LibSorter) :
    seeing (checkStatus status s) = checkStatus status s.seen := by
  rw [checkStatus, checkStatus]
  split <;> rfl

theorem check_eq (helped : Helped) (s : Sorter) : check helped s = checkStatus helped.status s :=
  rfl

theorem seeing_bind {x : Except LibSorter LibSorter} {f : LibSorter → Except LibSorter LibSorter}
    {g : Sorter → Except Sorter Sorter} (h : ∀ s, x = .ok s → seeing (f s) = g s.seen) :
    seeing (x >>= f) = seeing x >>= g := by
  cases x with
  | ok s => exact h s rfl
  | error s => rfl

section Seen

variable {lib : CLibrary} {fails : Point → Bool} {size : ℕ} {v : ℕ × ℕ} {place : Place}
  {s s' : LibSorter}

/-- A call of `fseek` that has nothing to write, or gets it written. -/
theorem fseek_eq {f : StreamFile} (h : f.held = [] ∨ fails (.flush v place) = false)
    (buffer : List UInt8) :
    lib.fseek fails v place f buffer =
      ⟨if fails (.call ⟨v, place, true⟩) then -1 else 0, f.flushed, buffer,
        (if f.held = [] then [] else [.flush v place]) ++ [.call ⟨v, place, true⟩]⟩ := by
  refine if_neg fun hfails => ?_
  rcases h with hheld | hflush
  · exact hfails.1 hheld
  · exact Bool.false_ne_true (hflush.symm.trans hfails.2)

theorem call?_flushes (f : StreamFile) (v : ℕ × ℕ) (place : Place) (points : List Point) :
    ((if f.held = [] then [] else [Point.flush v place]) ++ points).filterMap Point.call? =
      points.filterMap Point.call? := by
  split <;> rfl

/-- `fread_starting_from` reads what is seen. -/
theorem fread_seen {f : StreamFile} (h : f.held = [] ∨ fails (.flush v place) = false)
    (buffer : List UInt8) (start : ℕ) :
    let r := lib.freadStartingFrom fails v place f buffer size start
    let helped := freadStartingFrom (onCalls fails ⟨v, place, true⟩)
      (onCalls fails ⟨v, place, false⟩) f.seen buffer size start
    r.status = helped.status ∧ r.stream = f.flushed ∧ r.buffer = helped.data ∧
      r.points.filterMap Point.call? = helperCalls v place helped.transferred := by
  intro r helped
  simp only [r, helped, CLibrary.freadStartingFrom, freadStartingFrom, fseek_eq h, onCalls]
  by_cases hseek : fails (.call ⟨v, place, true⟩) = true
  · simp only [hseek, if_true, Int.reduceNeg, Int.neg_lt_zero_iff, Int.zero_lt_one]
    refine ⟨trivial, trivial, trivial, ?_⟩
    rw [call?_flushes]
    rfl
  · simp only [hseek, Bool.false_eq_true, if_false, Int.lt_irrefl]
    refine ⟨rfl, trivial, rfl, ?_⟩
    rw [List.append_assoc, call?_flushes]
    rfl

/-- `fwrite_starting_from` writes what will be seen. -/
theorem fwrite_seen {f : StreamFile} (h : f.held = [] ∨ fails (.flush v place) = false)
    {buffer : List UInt8} (start : ℕ) (hbuffer : buffer.take size ≠ []) :
    let r := lib.fwriteStartingFrom fails v place f buffer size start
    let helped := fwriteStartingFrom (onCalls fails ⟨v, place, true⟩)
      (onCalls fails ⟨v, place, false⟩) f.seen buffer size start
    r.status = helped.status ∧ r.stream.seen = helped.data ∧
      r.points.filterMap Point.call? = helperCalls v place helped.transferred := by
  intro r helped
  simp only [r, helped, CLibrary.fwriteStartingFrom, fwriteStartingFrom, fseek_eq h, onCalls]
  -- a seek that fails has flushed what was held all the same
  by_cases hseek : fails (.call ⟨v, place, true⟩) = true
  · simp only [hseek, if_true, Int.reduceNeg, Int.neg_lt_zero_iff, Int.zero_lt_one]
    refine ⟨trivial, StreamFile.seen_flushed f, ?_⟩
    rw [call?_flushes]
    rfl
  · -- both calls are made, after the flush
    have hpoints : (((if f.held = [] then [] else [Point.flush v place]) ++
        [Point.call ⟨v, place, true⟩]) ++ [Point.call ⟨v, place, false⟩]).filterMap
          Point.call? = helperCalls v place true := by
      rw [List.append_assoc, call?_flushes]
      rfl
    by_cases hwrite : fails (.call ⟨v, place, false⟩) = true
    · simp only [hseek, hwrite, Bool.false_eq_true, if_false, if_true, Int.lt_irrefl]
      exact ⟨trivial, StreamFile.seen_flushed f, hpoints⟩
    · simp only [hseek, hwrite, Bool.false_eq_true, if_false, Int.lt_irrefl]
      refine ⟨trivial, ?_, hpoints⟩
      rw [StreamFile.seen_fwrite, StreamFile.file_flushed, put_of_ne_nil hbuffer]

theorem readFirst_seen (h : s.stream.held = [] ∨ fails (.flush v .readFirst) = false) :
    seeing (lib.readFirst fails size v s) =
      readFirst libHelpers (onCalls fails) size v s.seen := by
  obtain ⟨hstatus, hstream, hbuffer, hpoints⟩ :=
    fread_seen (v := v) h s.first ((v.2 - 1) * size)
  rw [CLibrary.readFirst, seeing_checkStatus, readFirst, check_eq, hstatus]
  simp only [LibSorter.seen, hstream, hbuffer, List.filterMap_append, hpoints]
  rfl

theorem readSecond_seen (h : s.stream.held = [] ∨ fails (.flush v .readSecond) = false) :
    seeing (lib.readSecond fails size v s) =
      readSecond libHelpers (onCalls fails) size v s.seen := by
  obtain ⟨hstatus, hstream, hbuffer, hpoints⟩ :=
    fread_seen (v := v) h s.second (v.2 * size)
  rw [CLibrary.readSecond, seeing_checkStatus, readSecond, check_eq, hstatus]
  simp only [LibSorter.seen, hstream, hbuffer, List.filterMap_append, hpoints]
  rfl

theorem writeSecond_seen (h : s.stream.held = [] ∨ fails (.flush v .writeSecond) = false)
    (hsecond : s.second.take size ≠ []) :
    seeing (lib.writeSecond fails size v s) =
      writeSecond libHelpers (onCalls fails) size v s.seen := by
  obtain ⟨hstatus, hstream, hpoints⟩ :=
    fwrite_seen h ((v.2 - 1) * size) hsecond
  rw [CLibrary.writeSecond, seeing_checkStatus, writeSecond, check_eq, hstatus]
  simp only [LibSorter.seen, hstream, List.filterMap_append, hpoints]
  rfl

theorem writeFirst_seen (h : s.stream.held = [] ∨ fails (.flush v .writeFirst) = false)
    (hfirst : s.first.take size ≠ []) :
    seeing (lib.writeFirst fails size v s) =
      writeFirst libHelpers (onCalls fails) size v s.seen := by
  obtain ⟨hstatus, hstream, hpoints⟩ := fwrite_seen h (v.2 * size) hfirst
  rw [CLibrary.writeFirst, seeing_checkStatus, writeFirst, check_eq, hstatus]
  simp only [LibSorter.seen, hstream, List.filterMap_append, hpoints]
  rfl

theorem bind_eq_ok {σ : Type} {x : Except σ σ} {f : σ → Except σ σ} {s' : σ} :
    x >>= f = .ok s' ↔ ∃ s, x = .ok s ∧ f s = .ok s' := by
  cases x with
  | ok s => exact ⟨fun h => ⟨s, rfl, h⟩, fun ⟨_, hs, h⟩ => Except.ok.inj hs ▸ h⟩
  | error s => exact ⟨fun h => (by cases h), fun ⟨_, hs, _⟩ => (by cases hs)⟩

theorem checkStatus_eq_ok {σ : Type} {status : ℤ} {s s' : σ} (h : checkStatus status s = .ok s') :
    0 ≤ status ∧ s' = s := by
  unfold checkStatus at h
  split at h
  · cases h
  · exact ⟨by omega, (Except.ok.inj h).symm⟩

/-- A record that could be read is whole. -/
theorem le_length_fread {f : StreamFile} {buffer : List UInt8} {start : ℕ}
    (h : 0 ≤ (lib.freadStartingFrom fails v place f buffer size start).status) :
    size ≤ (lib.freadStartingFrom fails v place f buffer size start).buffer.length := by
  rw [CLibrary.freadStartingFrom] at h ⊢
  by_cases hseek : (lib.fseek fails v place f buffer).status < 0
  · simp only [if_pos hseek, Int.reduceNeg, Int.reduceLE] at h
  · simp only [if_neg hseek] at h ⊢
    have hwhole : ∀ got : List UInt8, 0 ≤ (if got.length < size then (-1 : ℤ) else 0) →
        size ≤ (got ++ buffer.drop got.length).length := by
      intro got hgot
      rw [List.length_append]
      split at hgot
      · exact absurd hgot (by decide)
      · omega
    exact hwhole _ h

theorem take_ne_nil {l : List UInt8} (hpos : 0 < size) (h : size ≤ l.length) :
    l.take size ≠ [] := by
  intro hnil
  have hlen := congrArg List.length hnil
  rw [List.length_take_of_le h, List.length_nil] at hlen
  omega

/-- **Seen through the stream, a visit is one over a file.** -/
theorem sortBody_seen (hpos : 0 < size) (h : ∀ place, fails (.flush v place) = false)
    (s : LibSorter) :
    seeing (lib.sortBody fails size s v) =
      sortBody libHelpers (onCalls fails) size s.seen v := by
  rw [CLibrary.sortBody, sortBody, ← readFirst_seen (Or.inr (h _))]
  apply seeing_bind
  intro s₁ hs₁
  obtain ⟨hstatus₁, rfl⟩ := checkStatus_eq_ok hs₁
  have hfirst := take_ne_nil hpos (le_length_fread hstatus₁)
  rw [← readSecond_seen (Or.inr (h _))]
  apply seeing_bind
  intro s₂ hs₂
  obtain ⟨hstatus₂, rfl⟩ := checkStatus_eq_ok hs₂
  have hsecond := take_ne_nil hpos (le_length_fread hstatus₂)
  -- both buffers hold a whole record, so a write has something to write
  split
  · rename_i hlt
    refine (seeing_bind fun s₃ hs₃ => ?_).trans
      (congrArg (· >>= _) (writeSecond_seen (Or.inr (h _)) hsecond)) |>.trans (if_pos hlt).symm
    obtain ⟨-, rfl⟩ := checkStatus_eq_ok hs₃
    exact writeFirst_seen (Or.inr (h _)) hfirst
  · rename_i hlt
    exact (if_neg hlt).symm

theorem foldlM_seen (hpos : 0 < size) {vs : List (ℕ × ℕ)}
    (h : ∀ v ∈ vs, ∀ place, fails (.flush v place) = false) (s : LibSorter) :
    seeing (vs.foldlM (lib.sortBody fails size) s) =
      vs.foldlM (sortBody libHelpers (onCalls fails) size) s.seen := by
  induction vs generalizing s with
  | nil => rfl
  | cons v vs ih =>
    obtain ⟨hv, hvs⟩ := List.forall_mem_cons.mp h
    rw [List.foldlM_cons, List.foldlM_cons, ← sortBody_seen hpos hv]
    apply seeing_bind
    intro s₁ _
    exact ih hvs s₁

end Seen

/-! ### What is reported -/

section Reported

variable {lib : CLibrary} {fails : Point → Bool} {size : ℕ} {v : ℕ × ℕ} {place : Place}
  {s s' : LibSorter} {q : Point}

/-- Nothing fails at the points. -/
def Clean (fails : Point → Bool) (points : List Point) : Prop := ∀ q ∈ points, fails q = false

theorem Clean.append {points points' : List Point} (h : Clean fails points)
    (h' : Clean fails points') : Clean fails (points ++ points') := by
  intro q hq
  rcases List.mem_append.mp hq with hq | hq
  · exact h q hq
  · exact h' q hq

theorem clean_singleton (h : fails q = false) : Clean fails [q] := by
  intro q' hq'
  rw [List.mem_singleton.mp hq']
  exact h

/-- A position that is reached has cost no failure. -/
theorem clean_fseek {f : StreamFile} {buffer : List UInt8}
    (h : ¬(lib.fseek fails v place f buffer).status < 0) :
    Clean fails (lib.fseek fails v place f buffer).points := by
  rw [CLibrary.fseek] at h ⊢
  by_cases hflush : f.held ≠ [] ∧ fails (.flush v place) = true
  · rw [if_pos hflush] at h
    exact absurd (Int.negSucc_lt_zero 0) h
  rw [if_neg hflush] at h ⊢
  have hcall : fails (.call ⟨v, place, true⟩) = false := by
    by_contra hcall
    rw [Bool.not_eq_false] at hcall
    simp only [hcall, if_true] at h
    exact h (Int.negSucc_lt_zero 0)
  refine Clean.append ?_ (clean_singleton hcall)
  split
  · exact fun _ hq => absurd hq List.not_mem_nil
  · rename_i hheld
    refine clean_singleton ?_
    by_contra hfails
    rw [Bool.not_eq_false] at hfails
    exact hflush ⟨hheld, hfails⟩

theorem clean_fread (hpos : 0 < size) {f : StreamFile} {buffer : List UInt8} {start : ℕ}
    (h : 0 ≤ (lib.freadStartingFrom fails v place f buffer size start).status) :
    Clean fails (lib.freadStartingFrom fails v place f buffer size start).points := by
  rw [CLibrary.freadStartingFrom] at h ⊢
  by_cases hseek : (lib.fseek fails v place f buffer).status < 0
  · simp only [if_pos hseek, Int.reduceNeg, Int.reduceLE] at h
  simp only [if_neg hseek] at h ⊢
  refine (clean_fseek hseek).append (clean_singleton ?_)
  by_contra hcall
  rw [Bool.not_eq_false] at hcall
  simp only [hcall, if_true, List.length_nil, if_pos hpos] at h
  exact absurd h (by decide)

theorem clean_fwrite (hpos : 0 < size) {f : StreamFile} {buffer : List UInt8} {start : ℕ}
    (h : 0 ≤ (lib.fwriteStartingFrom fails v place f buffer size start).status) :
    Clean fails (lib.fwriteStartingFrom fails v place f buffer size start).points := by
  rw [CLibrary.fwriteStartingFrom] at h ⊢
  by_cases hseek : (lib.fseek fails v place f buffer).status < 0
  · simp only [if_pos hseek, Int.reduceNeg, Int.reduceLE] at h
  simp only [if_neg hseek] at h ⊢
  refine (clean_fseek hseek).append (clean_singleton ?_)
  by_contra hcall
  rw [Bool.not_eq_false] at hcall
  simp only [hcall, if_true, if_pos hpos] at h
  exact absurd h (by decide)

/-- A visit that goes on has met no failure. -/
theorem clean_sortBody (hpos : 0 < size) (hs : Clean fails s.points)
    (h : lib.sortBody fails size s v = .ok s') : Clean fails s'.points := by
  rw [CLibrary.sortBody] at h
  obtain ⟨s₁, h₁, h⟩ := bind_eq_ok.mp h
  obtain ⟨hstatus₁, rfl⟩ := checkStatus_eq_ok h₁
  have hclean₁ := hs.append (clean_fread hpos hstatus₁)
  obtain ⟨s₂, h₂, h⟩ := bind_eq_ok.mp h
  obtain ⟨hstatus₂, rfl⟩ := checkStatus_eq_ok h₂
  have hclean₂ := hclean₁.append (clean_fread hpos hstatus₂)
  split at h
  · obtain ⟨s₃, h₃, h₄⟩ := bind_eq_ok.mp h
    obtain ⟨hstatus₃, rfl⟩ := checkStatus_eq_ok h₃
    obtain ⟨hstatus₄, rfl⟩ := checkStatus_eq_ok h₄
    exact (hclean₂.append (clean_fwrite hpos hstatus₃)).append (clean_fwrite hpos hstatus₄)
  · cases h
    exact hclean₂

theorem clean_foldlM (hpos : 0 < size) {vs : List (ℕ × ℕ)} (hs : Clean fails s.points)
    (h : vs.foldlM (lib.sortBody fails size) s = .ok s') : Clean fails s'.points := by
  induction vs generalizing s with
  | nil =>
    cases h
    exact hs
  | cons v vs ih =>
    rw [List.foldlM_cons] at h
    obtain ⟨s₁, h₁, h⟩ := bind_eq_ok.mp h
    exact ih (clean_sortBody hpos hs h₁) h

end Reported

/-! ### The sort -/

namespace SortJob

variable {job : SortJob} {lib : CLibrary} {fails : Point → Bool} {s : LibSorter}

theorem stream_of_ok (h : (visits job.records).foldlM (lib.sortBody fails job.size)
    job.streamStart = .ok s) : job.stream lib fails = CLibrary.fclose fails 0 s := by
  rw [stream, CLibrary.sortLib, outerLoop_eq, h]

theorem stream_of_error (h : (visits job.records).foldlM (lib.sortBody fails job.size)
    job.streamStart = .error s) : job.stream lib fails = CLibrary.fclose fails (-1) s := by
  rw [stream, CLibrary.sortLib, outerLoop_eq, h]

end SortJob

/-- What `fclose` leaves, if it fails in nothing. -/
theorem file_fclose {fails : Point → Bool} (h : fails .close = false) (status : ℤ)
    (s : LibSorter) : (CLibrary.fclose fails status s).file = s.stream.seen := by
  rw [CLibrary.fclose, h]
  split
  · rename_i hheld
    exact (StreamFile.seen_of_held_eq_nil hheld).symm
  · rfl

@[simp] theorem status_fclose (fails : Point → Bool) (status : ℤ) (s : LibSorter) :
    (CLibrary.fclose fails status s).status = status := by
  rw [CLibrary.fclose]
  split <;> rfl

theorem CLibrary.status_sortLib (lib : CLibrary) (fails : Point → Bool) (size records : ℕ)
    (s : LibSorter) : (lib.sortLib fails size records s).status = 0 ∨
      (lib.sortLib fails size records s).status = -1 := by
  rw [CLibrary.sortLib]
  split
  · exact Or.inl (status_fclose _ _ _)
  · exact Or.inr (status_fclose _ _ _)

theorem mem_points_fclose {fails : Point → Bool} {status : ℤ} {s : LibSorter} {q : Point}
    (h : q ≠ .close) : q ∈ (CLibrary.fclose fails status s).points ↔ q ∈ s.points := by
  rw [CLibrary.fclose]
  split
  · rfl
  · simp [h]

/-- **Over a stream whose writes reach the file**, `sort_lib` is the sort over the file. -/
theorem stream_eq (job : SortJob) (lib : CLibrary) {fails : Point → Bool}
    (hflush : ∀ v place, fails (.flush v place) = false) (hclose : fails .close = false) :
    (job.stream lib fails).status = (job.lib (onCalls fails)).1 ∧
      (job.stream lib fails).file = (job.lib (onCalls fails)).2.file ∧
      ∀ c, .call c ∈ (job.stream lib fails).points ↔ c ∈ (job.lib (onCalls fails)).2.calls := by
  have hseen : seeing ((visits job.records).foldlM (lib.sortBody fails job.size)
      job.streamStart) = (visits job.records).foldlM
        (sortBody libHelpers (onCalls fails) job.size) job.start :=
    foldlM_seen job.one_le_size (fun v _ place => hflush v place) job.streamStart
  have hcall : ∀ (s : LibSorter) (c : Call), .call c ∈ s.points ↔ c ∈ s.seen.calls := by
    intro s c
    rw [LibSorter.seen, List.mem_filterMap]
    constructor
    · exact fun hc => ⟨_, hc, rfl⟩
    · rintro ⟨q, hq, hqc⟩
      cases q with
      | call c' =>
        cases hqc
        exact hq
      | flush v place => cases hqc
      | close => cases hqc
  -- over the visits the two runs differ in what is still in the buffer
  rw [SortJob.lib, FileIo.sortLib, sortWith, outerLoop_eq]
  rw [← hseen]
  cases hrun : (visits job.records).foldlM (lib.sortBody fails job.size) job.streamStart with
  | ok s =>
    rw [SortJob.stream_of_ok hrun]
    exact ⟨status_fclose _ _ _, file_fclose hclose _ _, fun c =>
      (mem_points_fclose Point.noConfusion).trans (hcall s c)⟩
  | error s =>
    rw [SortJob.stream_of_error hrun]
    exact ⟨status_fclose _ _ _, file_fclose hclose _ _, fun c =>
      (mem_points_fclose Point.noConfusion).trans (hcall s c)⟩

/-- **A failure that the sort comes to is reported**, unless `fclose` has it. -/
theorem stream_reported (job : SortJob) (lib : CLibrary) {fails : Point → Bool} {q : Point}
    (hq : q ∈ (job.stream lib fails).points) (hfails : fails q = true) (hclose : q ≠ .close) :
    (job.stream lib fails).status = -1 := by
  cases hrun : (visits job.records).foldlM (lib.sortBody fails job.size) job.streamStart with
  | ok s =>
    rw [SortJob.stream_of_ok hrun] at hq
    have hclean : Clean fails s.points :=
      clean_foldlM job.one_le_size (fun _ hmem => absurd hmem List.not_mem_nil) hrun
    have hok := hclean q ((mem_points_fclose hclose).mp hq)
    exact absurd (hok.symm.trans hfails) Bool.false_ne_true
  | error s =>
    rw [SortJob.stream_of_error hrun]
    exact status_fclose _ _ _

end FileIo
end OpSys
