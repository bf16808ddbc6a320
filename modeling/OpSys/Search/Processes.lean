import OpSys.Lib.Buffered
import OpSys.Lib.Machine
import OpSys.Search.Listing

/-!
# A process for each directory

`search_proc` forks at each subdirectory.  The child has a copy of all that its parent has:
the activations of `deep_search_files` on the stack, and the output that `stdout` still
holds.  It searches the subdirectory, and then returns through the copied activations, each
of which is in its branch for the child and returns 0, to `main`; its exit flushes what it
holds.  The parent waits for it, so only one process runs at a time.

An octet of the output knows the file whose record it is of, if it is of one.

## Main definitions

* `Octet`, `Frame`, `Process`, `Family` — the output, the activations, the processes, and
  the state of them all.
* `step`, `search` — a step, and the machine.
* `AtFork` — the next step forks.
* `Ends` — the first process has come to its end.

## Main results

* `step_cases` — what a step can do.
* `exists_ends` — a search comes to its end.

## References

`lab3_processes/search_dir_mult_ps/search_proc.c`.
-/

namespace OpSys
namespace Search

open Stdio
open Buffered (Discipline write)

/-- A byte of the output, and the file whose record it is of. -/
structure Octet where
  byte : UInt8
  source : Option Place
  deriving DecidableEq, Repr

/-- The bytes of a text, as output about `source`. -/
def octets (source : Option Place) (text : List UInt8) : List Octet :=
  text.map fun b => ⟨b, source⟩

/-- An activation of `deep_search_files`: its argument, the place this is of, and what
`readdir` still delivers. -/
structure Frame where
  dirname : List UInt8
  place : Place
  rest : Listing
  deriving DecidableEq, Repr

/-- A process: its activations, the innermost one first, what `stdout` holds, and the
result with which the innermost activation is returning, if it is. -/
structure Process where
  ppid : ℤ
  pid : ℤ
  top : Frame
  below : List Frame
  held : List Octet
  result : Option ℤ
  deriving DecidableEq, Repr

/-- The processes: the one that runs, those that wait for a child, the innermost first, the
output so far, and the status of the first process when it has exited. -/
structure Family where
  current : Process
  waiting : List Process
  output : List Octet
  status : Option ℤ
  deriving DecidableEq, Repr

/-- A search with the process ids that the kernel gives: `pid place` to the process of the
directory `place`, and `shell` to the parent of the first one. -/
structure Run extends Setting, Request where
  shell : ℤ
  pid : Place → ℤ

section Step

variable (r : Run) (d : Discipline UInt8)

/-- `printf` of a text about `source`. -/
def Process.print (p : Process) (source : Option Place) (text : List UInt8) :
    List Octet × Process :=
  let parts := write (d.comap Octet.byte) p.held (octets source text)
  (parts.sent, { p with held := parts.held })

/-- The record that a process prints of a file. -/
def Process.record (p : Process) (name : List UInt8) (stat : Stat) : List UInt8 :=
  printFileDetailsOf p.ppid p.pid (absPath r.cwd (newPath p.top.dirname name))
    (formatTime r.zone stat.mtime) stat

/-- The loop goes on with `rest`. -/
def Process.readOn (p : Process) (rest : Listing) : Process :=
  { p with top := { p.top with rest := rest } }

/-- The loop has printed the record of the file `name`, and goes on. -/
def Process.report (p : Process) (name : List UInt8) (stat : Stat) (rest : Listing) :
    List Octet × Process :=
  (p.readOn rest).print d (some (p.top.place ++ [name])) (p.record r name stat)

/-- The innermost activation returns. -/
def Process.finish (p : Process) (result : ℤ) : Process := { p with result := some result }

/-- The activation `frame`, which is in its branch for the child, returns in its turn. -/
def Process.leave (p : Process) (frame : Frame) (frames : List Frame) : Process :=
  { p with top := frame, below := frames, result := some 0 }

/-- `exit` has written what was held. -/
def Process.flush (p : Process) : Process := { p with held := [] }

/-- The line that a child prints. -/
def childLine (name : List UInt8) (ppid pid : ℤ) : List UInt8 :=
  ascii "Child process. Dir: " ++ name ++ ascii ", PPID: " ++ decimal ppid ++ ascii ", PID: " ++
    decimal pid ++ [newline]

/-- The child for a subdirectory: a copy of its parent with ids of its own. -/
def Process.fork (p : Process) (name : List UInt8) : Process :=
  { p with ppid := p.pid, pid := r.pid (p.top.place ++ [name]) }

/-- The first thing a child does is to print its line. -/
def Process.spawn (p : Process) (name : List UInt8) : List Octet × Process :=
  let child := p.fork r name
  child.print d none (childLine name child.ppid child.pid)

/-- The call of `deep_search_files` in the child. -/
def Process.call (p : Process) (name : List UInt8) (entries : Listing) : Process :=
  { p with
    top := ⟨newPath p.top.dirname name, p.top.place ++ [name], entries⟩
    below := p.top :: p.below
    result := if r.opens (p.top.place ++ [name]) then none else some 1 }

/-- A step: an entry of a listing, with the way of a child into its own listing, or a
return.  The result of the call in a child is not looked at. -/
def advance (s : Family) : Family :=
  let p := s.current
  match p.result with
  | none =>
    match p.top.rest with
    | .done => { s with current := p.finish 0 }
    | .file name kind stat rest =>
      -- the branch for `DT_REG`; the other kinds are passed over
      if kind = .regular ∧ r.compareFunc (formatTime r.zone stat.mtime) r.date = 0 then
        let printed := p.report r d name stat rest
        { s with current := printed.2, output := s.output ++ printed.1 }
      else { s with current := p.readOn rest }
    | .dir name entries rest =>
      if ¬isDots name then
        -- `fork`: the child runs, the parent is in `waitpid`
        let parent := p.readOn rest
        let printed := parent.spawn r d name
        { s with
          current := printed.2.call r name entries
          waiting := parent :: s.waiting
          output := s.output ++ printed.1 }
      else { s with current := p.readOn rest }
  | some result =>
    match p.below with
    | frame :: frames =>
      -- what the caller does next is to return 0, as the child it is
      { s with current := p.leave frame frames }
    | [] =>
      -- `main` returns the result, and the exit flushes `stdout`
      match s.waiting with
      | parent :: waiting =>
        -- `waitpid`: the exit status of the child decides how its parent goes on
        { s with
          current := if result ≠ 0 then parent.finish 2 else parent
          waiting := waiting
          output := s.output ++ p.held }
      | [] =>
        { s with
          current := p.flush
          output := s.output ++ p.held
          status := some result }

/-- A step, until the first process has exited. -/
def step (s : Family) : Option Family := if s.status = none then some (advance r d s) else none

/-- The processes as a machine, which nothing outside it drives. -/
def search : Machine Unit Family where
  step _ := step r d

/-- The first process, in its call of `deep_search_files`. -/
def start (entries : Listing) : Family where
  current :=
    { ppid := r.shell
      pid := r.pid []
      top := ⟨r.dirname, [], entries⟩
      below := []
      held := []
      result := if r.opens [] then none else some 1 }
  waiting := []
  output := []
  status := none

/-- The search comes to its end in the state `final`. -/
def Ends (entries : Listing) (final : Family) : Prop :=
  (search r d).Reach (start r entries) final ∧ final.status ≠ none

end Step

/-- The next step forks. -/
def AtFork (s : Family) : Prop :=
  s.status = none ∧ s.current.result = none ∧
    ∃ name entries rest, s.current.top.rest = .dir name entries rest ∧ ¬isDots name

variable {r : Run} {d : Discipline UInt8} {s s' : Family}

/-! ### What an operation leaves of a process -/

@[simp] theorem held_readOn (p : Process) (rest : Listing) : (p.readOn rest).held = p.held := rfl

@[simp] theorem held_finish (p : Process) (result : ℤ) : (p.finish result).held = p.held := rfl

@[simp] theorem held_leave (p : Process) (frame : Frame) (frames : List Frame) :
    (p.leave frame frames).held = p.held := rfl

@[simp] theorem held_flush (p : Process) : p.flush.held = [] := rfl

@[simp] theorem held_call (p : Process) (name : List UInt8) (entries : Listing) :
    (p.call r name entries).held = p.held := rfl

@[simp] theorem ppid_call (p : Process) (name : List UInt8) (entries : Listing) :
    (p.call r name entries).ppid = p.ppid := rfl

@[simp] theorem dirname_call (p : Process) (name : List UInt8) (entries : Listing) :
    (p.call r name entries).top.dirname = newPath p.top.dirname name := rfl

@[simp] theorem ppid_spawn (p : Process) (name : List UInt8) :
    (p.spawn r d name).2.ppid = p.pid := rfl

@[simp] theorem top_spawn (p : Process) (name : List UInt8) :
    (p.spawn r d name).2.top = p.top := rfl

@[simp] theorem rest_report (p : Process) (name : List UInt8) (stat : Stat) (rest : Listing) :
    (p.report r d name stat rest).2.top.rest = rest := rfl

/-! ### What a step can do -/

/-- The steps, each with what it is of. -/
inductive Moves (r : Run) (d : Discipline UInt8) (s : Family) : Family → Prop
  | listed (hresult : s.current.result = none) (hrest : s.current.top.rest = .done) :
    Moves r d s { s with current := s.current.finish 0 }
  | unwanted {name kind stat rest} (hresult : s.current.result = none)
    (hrest : s.current.top.rest = .file name kind stat rest)
    (hnot : ¬Wanted r.zone r.toRequest kind stat) :
    Moves r d s { s with current := s.current.readOn rest }
  | printed {name kind stat rest} (hresult : s.current.result = none)
    (hrest : s.current.top.rest = .file name kind stat rest)
    (hwanted : Wanted r.zone r.toRequest kind stat) :
    Moves r d s
      { s with
        current := (s.current.report r d name stat rest).2
        output := s.output ++ (s.current.report r d name stat rest).1 }
  | dots {name entries rest} (hresult : s.current.result = none)
    (hrest : s.current.top.rest = .dir name entries rest) (hdots : isDots name) :
    Moves r d s { s with current := s.current.readOn rest }
  | forked {name entries rest} (hresult : s.current.result = none)
    (hrest : s.current.top.rest = .dir name entries rest) (hdots : ¬isDots name) :
    Moves r d s
      { s with
        current := ((s.current.readOn rest).spawn r d name).2.call r name entries
        waiting := s.current.readOn rest :: s.waiting
        output := s.output ++ ((s.current.readOn rest).spawn r d name).1 }
  | returned {result frame frames} (hresult : s.current.result = some result)
    (hbelow : s.current.below = frame :: frames) :
    Moves r d s { s with current := s.current.leave frame frames }
  | resumed {result parent waiting} (hresult : s.current.result = some result)
    (hbelow : s.current.below = []) (hwaiting : s.waiting = parent :: waiting) :
    Moves r d s
      { s with
        current := if result ≠ 0 then parent.finish 2 else parent
        waiting := waiting
        output := s.output ++ s.current.held }
  | finished {result} (hresult : s.current.result = some result)
    (hbelow : s.current.below = []) (hwaiting : s.waiting = []) :
    Moves r d s
      { s with
        current := s.current.flush
        waiting := []
        output := s.output ++ s.current.held
        status := some result }

theorem moves_advance (r : Run) (d : Discipline UInt8) (s : Family) :
    Moves r d s (advance r d s) := by
  cases hresult : s.current.result with
  | none =>
    cases hrest : s.current.top.rest with
    | done =>
      simp only [advance, hresult, hrest]
      exact .listed hresult hrest
    | file name kind stat rest =>
      simp only [advance, hresult, hrest]
      split
      · rename_i hwanted
        exact .printed hresult hrest hwanted
      · rename_i hnot
        exact .unwanted hresult hrest hnot
    | dir name entries rest =>
      simp only [advance, hresult, hrest]
      split
      · rename_i hdots
        exact .forked hresult hrest hdots
      · rename_i hdots
        exact .dots hresult hrest (not_not.mp hdots)
  | some result =>
    cases hbelow : s.current.below with
    | cons frame frames =>
      simp only [advance, hresult, hbelow]
      exact .returned hresult hbelow
    | nil =>
      cases hwaiting : s.waiting with
      | cons parent waiting =>
        simp only [advance, hresult, hbelow, hwaiting]
        exact .resumed hresult hbelow hwaiting
      | nil =>
        simp only [advance, hresult, hbelow, hwaiting]
        exact .finished hresult hbelow hwaiting

theorem step_cases (h : step r d s = some s') : s.status = none ∧ Moves r d s s' := by
  unfold step at h
  split at h
  · rename_i hstatus
    exact ⟨hstatus, Option.some.inj h ▸ moves_advance r d s⟩
  · cases h

/-- A fork, by what the loop has just read. -/
theorem step_fork {name : List UInt8} {entries rest : Listing} (hstatus : s.status = none)
    (hresult : s.current.result = none) (hrest : s.current.top.rest = .dir name entries rest)
    (hdots : ¬isDots name) :
    step r d s = some
      { s with
        current := ((s.current.readOn rest).spawn r d name).2.call r name entries
        waiting := s.current.readOn rest :: s.waiting
        output := s.output ++ ((s.current.readOn rest).spawn r d name).1 } := by
  rw [step, if_pos hstatus]
  simp only [advance, hresult, hrest]
  rw [if_pos hdots]

/-- Only a search that has come to its end has no step. -/
theorem status_ne_none_of_stuck (h : step r d s = none) : s.status ≠ none := by
  intro hstatus
  rw [step, if_pos hstatus] at h
  cases h

/-! ### Every search ends -/

/-- The steps that a listing takes, with the returns through `depth` activations. -/
def Listing.weight : ℕ → Listing → ℕ
  | depth, .done => depth + 1
  | depth, .file _ _ _ rest => rest.weight depth + 1
  | depth, .dir _ entries rest => entries.weight (depth + 1) + rest.weight depth + 1

/-- The steps that a process still takes, without those of its parents. -/
def Process.rank (p : Process) : ℕ :=
  match p.result with
  | none => p.top.rest.weight (p.below.length + 1)
  | some _ => p.below.length + 1

/-- The steps that the processes still take. -/
def Family.work (s : Family) : ℕ := s.current.rank + (s.waiting.map Process.rank).sum

theorem Family.work_mk (current : Process) (waiting : List Process) (output : List Octet)
    (status : Option ℤ) :
    Family.work ⟨current, waiting, output, status⟩ =
      current.rank + (waiting.map Process.rank).sum := rfl

theorem lt_weight (depth : ℕ) (l : Listing) : depth < l.weight depth := by
  induction l generalizing depth with
  | done => exact Nat.lt_succ_self depth
  | file name kind stat rest ih => exact Nat.lt_succ_of_lt (ih depth)
  | dir name entries rest _ ih =>
    have := ih depth
    rw [Listing.weight]
    omega

theorem rank_reading {p : Process} (h : p.result = none) :
    p.rank = p.top.rest.weight (p.below.length + 1) := by
  rw [Process.rank, h]

theorem rank_returning {p : Process} {result : ℤ} (h : p.result = some result) :
    p.rank = p.below.length + 1 := by
  rw [Process.rank, h]

theorem length_below_lt_rank (p : Process) : p.below.length < p.rank := by
  cases h : p.result with
  | none =>
    rw [rank_reading h]
    exact Nat.lt_of_succ_lt (lt_weight _ _)
  | some result =>
    rw [rank_returning h]
    exact Nat.lt_succ_self _

@[simp] theorem rank_finish (p : Process) (result : ℤ) :
    (p.finish result).rank = p.below.length + 1 := rfl

@[simp] theorem rank_leave (p : Process) (frame : Frame) (frames : List Frame) :
    (p.leave frame frames).rank = frames.length + 1 := rfl

theorem rank_readOn {p : Process} (h : p.result = none) (rest : Listing) :
    (p.readOn rest).rank = rest.weight (p.below.length + 1) :=
  rank_reading (p := p.readOn rest) h

theorem rank_report {p : Process} (h : p.result = none) (name : List UInt8) (stat : Stat)
    (rest : Listing) :
    (p.report r d name stat rest).2.rank = rest.weight (p.below.length + 1) :=
  rank_reading (p := (p.report r d name stat rest).2) h

theorem rank_call_le (p : Process) (name : List UInt8) (entries : Listing) :
    (p.call r name entries).rank ≤ entries.weight (p.below.length + 1 + 1) := by
  cases h : (p.call r name entries).result with
  | none => exact Nat.le_of_eq (rank_reading h)
  | some result =>
    rw [rank_returning h]
    exact Nat.le_of_lt (lt_weight _ _)

/-- A step leaves less to do, as long as the first process runs. -/
theorem Moves.work_lt (h : Moves r d s s') (hrunning : s'.status = none) : s'.work < s.work := by
  cases h with
  | listed hresult hrest =>
    have hrank := rank_reading hresult
    rw [hrest, Listing.weight] at hrank
    rw [Family.work_mk, Family.work, rank_finish]
    omega
  | unwanted hresult hrest hnot =>
    have hrank := rank_reading hresult
    rw [hrest, Listing.weight] at hrank
    rw [Family.work_mk, Family.work, rank_readOn hresult]
    omega
  | printed hresult hrest hwanted =>
    have hrank := rank_reading hresult
    rw [hrest, Listing.weight] at hrank
    rw [Family.work_mk, Family.work, rank_report hresult]
    omega
  | dots hresult hrest hdots =>
    have hrank := rank_reading hresult
    rw [hrest, Listing.weight] at hrank
    rw [Family.work_mk, Family.work, rank_readOn hresult]
    omega
  | @forked name entries rest hresult hrest hdots =>
    have hrank := rank_reading hresult
    rw [hrest, Listing.weight] at hrank
    -- the child has one activation more than its parent
    have hchild : (((s.current.readOn rest).spawn r d name).2.call r name entries).rank ≤
        entries.weight (s.current.below.length + 1 + 1) := rank_call_le _ name entries
    rw [Family.work_mk, Family.work, List.map_cons, List.sum_cons, rank_readOn hresult]
    omega
  | returned hresult hbelow =>
    have hrank := rank_returning hresult
    rw [hbelow, List.length_cons] at hrank
    rw [Family.work_mk, Family.work, rank_leave]
    omega
  | @resumed result parent waiting hresult hbelow hwaiting =>
    have hrank := rank_returning hresult
    have hparent := length_below_lt_rank parent
    rw [Family.work_mk, Family.work, hwaiting, List.map_cons, List.sum_cons]
    split
    · rw [rank_finish]
      omega
    · omega
  | finished hresult hbelow hwaiting => cases hrunning

/-- What a search has to do before it comes to its end. -/
def Family.rank (s : Family) : ℕ := if s.status = none then s.work + 1 else 0

theorem rank_lt (h : step r d s = some s') : s'.rank < s.rank := by
  obtain ⟨hstatus, hmoves⟩ := step_cases h
  rw [Family.rank, Family.rank, if_pos hstatus]
  split
  · rename_i hrunning
    exact Nat.succ_lt_succ (hmoves.work_lt hrunning)
  · exact Nat.succ_pos _

/-- **A search comes to its end.** -/
theorem exists_ends (r : Run) (d : Discipline UInt8) (entries : Listing) :
    ∃ final, Ends r d entries final := by
  obtain ⟨final, hreach, hstuck⟩ := Machine.exists_reach_stuck (M := search r d) Family.rank
    (fun _ _ _ h => rank_lt h) (start r entries)
  exact ⟨final, hreach, status_ne_none_of_stuck (hstuck ())⟩

end Search
end OpSys
