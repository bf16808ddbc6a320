import Mathlib.Logic.Function.Basic
import OpSys.Batch.Pipeline

/-!
# The descriptors of a line with pipes

What `main` does with a line once `pargs` is filled: it opens a pipe for each program,
forks the programs, closes its own ends and waits.  A process is its descriptor table.
A child has a copy of the parent's table, moves the ends that it needs to its standard
output and input and closes all descriptors of the pipes.

## Main definitions

* `OpenFile`, `Table` — what a descriptor may refer to, and the tables.
* `openPipes`, `closeAll`, `childSetup`, `forkChildren`, `runLine` — the statements of
  `main` from the first `pipe` to the last `wait`.
* `PipedLine` — a line of non-empty programs, and descriptors that `pipe` may return.
* `Wired` — the tables of all processes fit together.

## Main results

* `childSetup_openPipes` — no `dup2` fails, and the table right before `execvp`.
* `forkChildren_eq_map` — the children of the fork loop.
* `wired` — the programs of every line are wired up, and every pipe between neighbours
  has one writer and one reader.

## References

`lab4_signals_and_pipes/batch_job_interpreter_pipes/cmd_interpreter_extd.c`.
-/

namespace OpSys
namespace Batch

/-- What a descriptor refers to: an end of the line's pipe number `pipe`, or a file that
was open before. -/
inductive OpenFile (ω : Type*)
  | readEnd (pipe : ℕ)
  | writeEnd (pipe : ℕ)
  | old (file : ω)
  deriving DecidableEq

/-- The descriptor table of a process. -/
abbrev Table (ω : Type*) := ℕ → Option (OpenFile ω)

/-- `STDIN_FILENO`. -/
def stdinFileno : ℕ := 0

/-- `STDOUT_FILENO`. -/
def stdoutFileno : ℕ := 1

variable {ω α : Type*}

/-- `close(fd)`. -/
def Table.close (table : Table ω) (fd : ℕ) : Table ω := Function.update table fd none

/-- `dup2(oldfd, newfd)`; `none` when it fails because `oldfd` is not open. -/
def Table.dup2 (table : Table ω) (oldfd newfd : ℕ) : Option (Table ω) :=
  (table oldfd).map fun file => Function.update table newfd (some file)

/-- The loop that opens the pipes. -/
def openPipes (fds : ℕ → ℕ) : ℕ → Table ω → Table ω
  | 0, table => table
  | i + 1, table =>
    Function.update
      (Function.update (openPipes fds i table) (fds (2 * i)) (some (.readEnd i)))
      (fds (2 * i + 1)) (some (.writeEnd i))

/-- The loop that closes `fds[0]` to `fds[n - 1]`. -/
def closeAll (fds : ℕ → ℕ) : ℕ → Table ω → Table ω
  | 0, table => table
  | i + 1, table => (closeAll fds i table).close (fds i)

/-- The statements of the child number `currp` up to `execvp`: its table there, or the
status it returns when a `dup2` fails.  `hasNext` tells whether `*pargs[currp + 1]` is
not NULL. -/
def childSetup (fds : ℕ → ℕ) (totalProgs currp : ℕ) (hasNext : Bool) (table : Table ω) :
    Except ℕ (Table ω) := do
  let table ←
    if hasNext then
      match table.dup2 (fds (currp * 2 + 1)) stdoutFileno with
      | none => .error 5
      | some table => .ok table
    else .ok table
  let table ←
    if 0 < currp then
      match table.dup2 (fds ((currp - 1) * 2)) stdinFileno with
      | none => .error 6
      | some table => .ok table
    else .ok table
  return closeAll fds (2 * totalProgs) table

/-- The fork loop from `pargs[currp]` on: what becomes of each child. -/
def forkChildren (fds : ℕ → ℕ) (totalProgs : ℕ) (table : Table ω) :
    ℕ → List (List α) → List (Except ℕ (Table ω))
  | _, [] => []
  | _, [] :: _ => []
  | currp, (_ :: _) :: pargs =>
    childSetup fds totalProgs currp (!(pargs.headD []).isEmpty) table ::
      forkChildren fds totalProgs table (currp + 1) pargs

/-- What becomes of the children of a line, and the parent's table at each `wait`. -/
structure LineRun (ω : Type*) where
  children : List (Except ℕ (Table ω))
  waits : List (Table ω)

/-- The statements of `main` from the first `pipe` to the last `wait`. -/
def runLine (fds : ℕ → ℕ) (totalProgs : ℕ) (pargs : List (List α)) (table : Table ω) :
    LineRun ω where
  children := forkChildren fds totalProgs (openPipes fds totalProgs table) 0 pargs
  waits := List.replicate totalProgs
    (closeAll fds (2 * totalProgs) (openPipes fds totalProgs table))

theorem Table.dup2_of_some {table : Table ω} {oldfd newfd : ℕ} {file : OpenFile ω}
    (h : table oldfd = some file) :
    table.dup2 oldfd newfd = some (Function.update table newfd (some file)) := by
  rw [dup2, h, Option.map_some]

/-- A line of non-empty programs, what `pargs` holds behind them, and the descriptors that
the calls of `pipe` return while the standard ones are open. -/
structure PipedLine (α : Type*) where
  progs : List (List α)
  unused : List (List α)
  fds : ℕ → ℕ
  one_le_progs : 1 ≤ progs.length
  ne_nil : ∀ prog ∈ progs, prog ≠ []
  fds_inj : ∀ i < 2 * progs.length, ∀ j < 2 * progs.length, fds i = fds j → i = j
  three_le : ∀ i < 2 * progs.length, 3 ≤ fds i

/-- The line `echo h | cat`. -/
def PipedLine.echoCat : PipedLine String where
  progs := [["echo", "h"], ["cat"]]
  unused := []
  fds i := i + 3
  one_le_progs := by simp
  ne_nil := by simp
  fds_inj _ _ _ _ h := Nat.add_right_cancel h
  three_le i _ := Nat.le_add_left 3 i

/-- `totalProgs`. -/
def PipedLine.totalProgs (line : PipedLine α) : ℕ := line.progs.length

/-- `pargs`, with a NULL after the programs. -/
def PipedLine.pargs (line : PipedLine α) : List (List α) := line.progs ++ [] :: line.unused

/-- `runLine` from a table of files that were open before. -/
def PipedLine.run (line : PipedLine α) (before : ℕ → Option ω) : LineRun ω :=
  runLine line.fds line.totalProgs line.pargs fun fd => (before fd).map .old

/-- The tables of the `m` children, right before `execvp`, and of the parent, while it
waits. -/
structure Wired (m : ℕ) (fds : ℕ → ℕ) (before : ℕ → Option ω) (tables : ℕ → Table ω)
    (run : LineRun ω) : Prop where
  children : run.children = (List.range m).map fun i => .ok (tables i)
  stdout : ∀ i < m, tables i stdoutFileno =
    if i + 1 < m then some (.writeEnd i) else (before stdoutFileno).map .old
  stdin : ∀ i < m, tables i stdinFileno =
    if 0 < i then some (.readEnd (i - 1)) else (before stdinFileno).map .old
  no_read : ∀ i < m, ∀ fd k, tables i fd = some (.readEnd k) → fd = stdinFileno ∧ i = k + 1
  no_write : ∀ i < m, ∀ fd k, tables i fd = some (.writeEnd k) → fd = stdoutFileno ∧ i = k
  waits : run.waits.length = m
  closed : ∀ table ∈ run.waits, ∀ i < 2 * m, table (fds i) = none
  no_pipe : ∀ table ∈ run.waits, ∀ fd k,
    table fd ≠ some (.readEnd k) ∧ table fd ≠ some (.writeEnd k)
  one_writer : ∀ k, k + 1 < m → ∀ i < m, (∃ fd, tables i fd = some (.writeEnd k)) ↔ i = k
  one_reader : ∀ k, k + 1 < m → ∀ i < m, (∃ fd, tables i fd = some (.readEnd k)) ↔ i = k + 1

/-! ### Opening and closing -/

section Loops

variable {fds : ℕ → ℕ} {n : ℕ} {table : Table ω} {fd : ℕ}

theorem openPipes_of_ne (h : ∀ i < 2 * n, fds i ≠ fd) : openPipes fds n table fd = table fd := by
  induction n with
  | zero => rfl
  | succ n ih =>
    rw [openPipes, Function.update_of_ne (h _ (by omega)).symm,
      Function.update_of_ne (h _ (by omega)).symm]
    exact ih fun i hi => h i (by omega)

/-- The pipe number `k` is at the descriptors `fds[2 * k]` and `fds[2 * k + 1]`. -/
theorem openPipes_apply (hinj : ∀ i < 2 * n, ∀ j < 2 * n, fds i = fds j → i = j) {k : ℕ}
    (hk : k < n) :
    openPipes fds n table (fds (2 * k)) = some (.readEnd k) ∧
      openPipes fds n table (fds (2 * k + 1)) = some (.writeEnd k) := by
  induction n with
  | zero => exact absurd hk (Nat.not_lt_zero _)
  | succ n ih =>
    have hne : ∀ i < 2 * (n + 1), ∀ j < 2 * (n + 1), i ≠ j → fds i ≠ fds j :=
      fun i hi j hj hij heq => hij (hinj i hi j hj heq)
    rw [openPipes]
    rcases Nat.lt_succ_iff_lt_or_eq.mp hk with hlt | rfl
    · have hbefore := ih (fun i hi j hj => hinj i (by omega) j (by omega)) hlt
      rw [Function.update_of_ne (hne _ (by omega) _ (by omega) (by omega)),
        Function.update_of_ne (hne _ (by omega) _ (by omega) (by omega)),
        Function.update_of_ne (hne _ (by omega) _ (by omega) (by omega)),
        Function.update_of_ne (hne _ (by omega) _ (by omega) (by omega))]
      exact hbefore
    · rw [Function.update_of_ne (hne _ (by omega) _ (by omega) (by omega)),
        Function.update_self, Function.update_self]
      exact ⟨rfl, rfl⟩

theorem closeAll_of_ne (h : ∀ i < n, fds i ≠ fd) : closeAll fds n table fd = table fd := by
  induction n with
  | zero => rfl
  | succ n ih =>
    rw [closeAll, Table.close, Function.update_of_ne (h n (Nat.lt_succ_self n)).symm]
    exact ih fun i hi => h i (Nat.lt_succ_of_lt hi)

theorem closeAll_apply {i : ℕ} (hi : i < n) : closeAll fds n table (fds i) = none := by
  induction n with
  | zero => exact absurd hi (Nat.not_lt_zero _)
  | succ n ih =>
    rw [closeAll, Table.close]
    by_cases heq : fds i = fds n
    · rw [heq, Function.update_self]
    · rw [Function.update_of_ne heq]
      refine ih (Nat.lt_of_le_of_ne (Nat.lt_succ_iff.mp hi) ?_)
      rintro rfl
      exact heq rfl

end Loops

/-! ### A child -/

/-- The table of the child number `currp` right before `execvp`. -/
def childTable (fds : ℕ → ℕ) (totalProgs currp : ℕ) (hasNext : Bool) (table : Table ω) :
    Table ω :=
  closeAll fds (2 * totalProgs)
    (let table := if hasNext then Function.update table stdoutFileno (some (.writeEnd currp))
      else table
    if 0 < currp then Function.update table stdinFileno (some (.readEnd (currp - 1))) else table)

section Child

variable {fds : ℕ → ℕ} {n currp : ℕ} {hasNext : Bool} {table : Table ω}

/-- The standard descriptors are not among those of the pipes. -/
theorem fds_ne (hthree : ∀ i < 2 * n, 3 ≤ fds i) {i : ℕ} (hi : i < 2 * n) {fd : ℕ} (hfd : fd ≤ 2) :
    fds i ≠ fd := by
  have := hthree i hi
  omega

/-- No `dup2` fails, since the parent has all pipes open when it forks. -/
theorem childSetup_openPipes (hinj : ∀ i < 2 * n, ∀ j < 2 * n, fds i = fds j → i = j)
    (hthree : ∀ i < 2 * n, 3 ≤ fds i) (hcurrp : currp < n) :
    childSetup fds n currp hasNext (openPipes fds n table) =
      .ok (childTable fds n currp hasNext (openPipes fds n table)) := by
  -- the two `dup2`, and the second finds what the first one has left
  have hout : (openPipes fds n table).dup2 (fds (currp * 2 + 1)) stdoutFileno =
      some (Function.update (openPipes fds n table) stdoutFileno (some (.writeEnd currp))) := by
    rw [Nat.mul_comm]
    exact Table.dup2_of_some (openPipes_apply hinj hcurrp).2
  have hin : ∀ table' : Table ω,
      table' (fds ((currp - 1) * 2)) = openPipes fds n table (fds ((currp - 1) * 2)) →
      table'.dup2 (fds ((currp - 1) * 2)) stdinFileno =
        some (Function.update table' stdinFileno (some (.readEnd (currp - 1)))) := by
    intro table' hsame
    rw [Nat.mul_comm] at hsame ⊢
    exact Table.dup2_of_some (hsame.trans (openPipes_apply hinj (by omega)).1)
  have hkeep : Function.update (openPipes fds n table) stdoutFileno (some (.writeEnd currp))
      (fds ((currp - 1) * 2)) = openPipes fds n table (fds ((currp - 1) * 2)) :=
    Function.update_of_ne (fds_ne hthree (by omega) (by decide)) _ _
  rw [childSetup, childTable]
  -- first, last or in the middle
  cases hasNext <;> by_cases hpos : 0 < currp
  · simp [hpos, hin _ rfl, bind, Except.bind, pure, Except.pure]
  · simp [hpos, bind, Except.bind, pure, Except.pure]
  · simp [hpos, hout, hin _ hkeep, bind, Except.bind, pure, Except.pure]
  · simp [hpos, hout, bind, Except.bind, pure, Except.pure]

theorem childTable_stdout (hthree : ∀ i < 2 * n, 3 ≤ fds i) :
    childTable fds n currp hasNext table stdoutFileno =
      if hasNext then some (.writeEnd currp) else table stdoutFileno := by
  have hne : stdoutFileno ≠ stdinFileno := by decide
  rw [childTable, closeAll_of_ne fun _ hi => fds_ne hthree hi (by decide)]
  by_cases hpos : 0 < currp <;> cases hasNext <;> simp [hpos, hne]

theorem childTable_stdin (hthree : ∀ i < 2 * n, 3 ≤ fds i) :
    childTable fds n currp hasNext table stdinFileno =
      if 0 < currp then some (.readEnd (currp - 1)) else table stdinFileno := by
  have hne : stdinFileno ≠ stdoutFileno := by decide
  rw [childTable, closeAll_of_ne fun _ hi => fds_ne hthree hi (by decide)]
  by_cases hpos : 0 < currp <;> cases hasNext <;> simp [hpos, hne]

end Child

/-- The children of the fork loop: one for each program before the first empty one, and all
of them but the last have a next one. -/
theorem forkChildren_eq_map (fds : ℕ → ℕ) (totalProgs : ℕ) (table : Table ω)
    (pargs : List (List α)) : ∀ currp, forkChildren fds totalProgs table currp pargs =
      (List.range' currp (pargs.takeWhile (!·.isEmpty)).length).map fun i =>
        childSetup fds totalProgs i
          (decide (i + 1 < currp + (pargs.takeWhile (!·.isEmpty)).length)) table := by
  induction pargs with
  | nil =>
    intro currp
    rfl
  | cons prog pargs ih =>
    intro currp
    cases prog with
    | nil => rfl
    | cons arg args =>
      have htake : ((arg :: args) :: pargs).takeWhile (!·.isEmpty) =
          (arg :: args) :: pargs.takeWhile (!·.isEmpty) := rfl
      -- `*pargs[currp + 1]` is not NULL iff another program follows
      have hnext : (!(pargs.headD []).isEmpty) =
          decide (currp + 1 < currp + ((pargs.takeWhile (!·.isEmpty)).length + 1)) := by
        cases pargs with
        | nil => simp
        | cons next pargs =>
          cases next with
          | nil => simp
          | cons _ _ => simp
      rw [forkChildren, htake, List.length_cons, List.range'_succ, List.map_cons, ← hnext,
        ih (currp + 1)]
      simp only [Nat.add_assoc, Nat.add_comm 1]

namespace PipedLine

variable (line : PipedLine α) (before : ℕ → Option ω)

/-- The parent's table when it forks. -/
def opened : Table ω :=
  openPipes line.fds line.totalProgs fun fd => (before fd).map .old

theorem opened_of_le {fd : ℕ} (hfd : fd ≤ 2) :
    line.opened before fd = (before fd).map .old :=
  openPipes_of_ne fun _ hi => fds_ne line.three_le hi hfd

/-- The table of the child number `i`. -/
def tables (i : ℕ) : Table ω :=
  childTable line.fds line.totalProgs i (decide (i + 1 < line.totalProgs)) (line.opened before)

theorem tables_stdout (i : ℕ) : line.tables before i stdoutFileno =
    if i + 1 < line.totalProgs then some (.writeEnd i) else (before stdoutFileno).map .old := by
  have hthree : ∀ i < 2 * line.totalProgs, 3 ≤ line.fds i := line.three_le
  rw [tables, childTable_stdout hthree, line.opened_of_le before (by decide)]
  simp only [decide_eq_true_eq]

theorem tables_stdin (i : ℕ) : line.tables before i stdinFileno =
    if 0 < i then some (.readEnd (i - 1)) else (before stdinFileno).map .old := by
  have hthree : ∀ i < 2 * line.totalProgs, 3 ≤ line.fds i := line.three_le
  rw [tables, childTable_stdin hthree, line.opened_of_le before (by decide)]

/-- After `closeAll` no descriptor refers to a pipe, the standard ones apart. -/
theorem closeAll_opened (fd : ℕ) :
    closeAll line.fds (2 * line.totalProgs) (line.opened before) fd = none ∨
      closeAll line.fds (2 * line.totalProgs) (line.opened before) fd = (before fd).map .old := by
  by_cases h : ∃ i < 2 * line.totalProgs, line.fds i = fd
  · obtain ⟨i, hi, rfl⟩ := h
    exact Or.inl (closeAll_apply hi)
  · have hne : ∀ i < 2 * line.totalProgs, line.fds i ≠ fd := fun i hi heq => h ⟨i, hi, heq⟩
    rw [closeAll_of_ne hne]
    exact Or.inr (openPipes_of_ne hne)

theorem tables_of_ne (i : ℕ) {fd : ℕ} (hout : fd ≠ stdoutFileno) (hin : fd ≠ stdinFileno) :
    line.tables before i fd =
      closeAll line.fds (2 * line.totalProgs) (line.opened before) fd := by
  rw [tables, childTable]
  by_cases h : ∃ j < 2 * line.totalProgs, line.fds j = fd
  · obtain ⟨j, hj, rfl⟩ := h
    rw [closeAll_apply hj, closeAll_apply hj]
  · have hne : ∀ j < 2 * line.totalProgs, line.fds j ≠ fd := fun j hj heq => h ⟨j, hj, heq⟩
    rw [closeAll_of_ne hne, closeAll_of_ne hne]
    by_cases hpos : 0 < i <;> by_cases hnext : i + 1 < line.totalProgs <;>
      simp [hpos, hnext, hout, hin]

theorem takeWhile_pargs : line.pargs.takeWhile (!·.isEmpty) = line.progs := by
  rw [pargs, List.takeWhile_append_of_pos]
  · simp
  · intro prog hprog
    simpa using line.ne_nil prog hprog

theorem forkChildren_eq :
    forkChildren line.fds line.totalProgs (line.opened before) 0 line.pargs =
      (List.range line.totalProgs).map fun i => .ok (line.tables before i) := by
  rw [forkChildren_eq_map, takeWhile_pargs, List.range_eq_range']
  refine List.map_congr_left fun i hi => ?_
  have hlt : i < line.totalProgs := by
    have := (List.mem_range'_1.mp hi).2
    rwa [Nat.zero_add] at this
  rw [Nat.zero_add]
  exact childSetup_openPipes line.fds_inj line.three_le hlt

/-- A file that was open before is no end of a pipe. -/
theorem old_ne (file : Option ω) (k : ℕ) :
    file.map OpenFile.old ≠ some (.readEnd k) ∧ file.map OpenFile.old ≠ some (.writeEnd k) := by
  cases file <;> simp

theorem closeAll_ne (fd k : ℕ) :
    closeAll line.fds (2 * line.totalProgs) (line.opened before) fd ≠ some (.readEnd k) ∧
      closeAll line.fds (2 * line.totalProgs) (line.opened before) fd ≠ some (.writeEnd k) := by
  rcases line.closeAll_opened before fd with heq | heq
  · rw [heq]
    exact ⟨(Option.some_ne_none _).symm, (Option.some_ne_none _).symm⟩
  · rw [heq]
    exact old_ne _ k

theorem eq_of_readEnd {i fd k : ℕ} (h : line.tables before i fd = some (.readEnd k)) :
    fd = stdinFileno ∧ i = k + 1 := by
  by_cases hout : fd = stdoutFileno
  · rw [hout, tables_stdout] at h
    split at h
    · simp at h
    · exact absurd h (old_ne _ k).1
  · by_cases hin : fd = stdinFileno
    · rw [hin, tables_stdin] at h
      split at h
      · rw [Option.some.injEq, OpenFile.readEnd.injEq] at h
        exact ⟨hin, by omega⟩
      · exact absurd h (old_ne _ k).1
    · rw [tables_of_ne line before i hout hin] at h
      exact absurd h (line.closeAll_ne before fd k).1

theorem eq_of_writeEnd {i fd k : ℕ} (h : line.tables before i fd = some (.writeEnd k)) :
    fd = stdoutFileno ∧ i = k := by
  by_cases hout : fd = stdoutFileno
  · rw [hout, tables_stdout] at h
    split at h
    · rw [Option.some.injEq, OpenFile.writeEnd.injEq] at h
      exact ⟨hout, h⟩
    · exact absurd h (old_ne _ k).2
  · by_cases hin : fd = stdinFileno
    · rw [hin, tables_stdin] at h
      split at h
      · simp at h
      · exact absurd h (old_ne _ k).2
    · rw [tables_of_ne line before i hout hin] at h
      exact absurd h (line.closeAll_ne before fd k).2

end PipedLine

/-- **The programs of a line are wired up**: each child has the ends of its neighbours'
pipes as standard output and input and no other end of a pipe, the parent has none when
it waits, and every pipe between neighbours has one writer and one reader. -/
theorem wired (line : PipedLine α) (before : ℕ → Option ω) :
    Wired line.totalProgs line.fds before (line.tables before) (line.run before) := by
  -- the parent has closed both ends of every pipe before it waits
  have hclosed : ∀ table ∈ (line.run before).waits,
      table = closeAll line.fds (2 * line.totalProgs) (line.opened before) :=
    fun _ htable => List.eq_of_mem_replicate htable
  refine
    { children := ?_
      stdout := fun i _ => line.tables_stdout before i
      stdin := fun i _ => line.tables_stdin before i
      no_read := fun i _ fd k h => line.eq_of_readEnd before h
      no_write := fun i _ fd k h => line.eq_of_writeEnd before h
      waits := List.length_replicate
      closed := fun table htable i hi => ?_
      no_pipe := fun table htable fd k => ?_
      one_writer := fun k hk i _ => ?_
      one_reader := fun k hk i _ => ?_ }
  · exact line.forkChildren_eq before
  · rw [hclosed table htable, closeAll_apply hi]
  · rw [hclosed table htable]
    exact line.closeAll_ne before fd k
  · refine ⟨fun ⟨fd, h⟩ => (line.eq_of_writeEnd before h).2, ?_⟩
    rintro rfl
    exact ⟨stdoutFileno, by rw [line.tables_stdout before i, if_pos hk]⟩
  · refine ⟨fun ⟨fd, h⟩ => (line.eq_of_readEnd before h).2, ?_⟩
    rintro rfl
    exact ⟨stdinFileno, by rw [line.tables_stdin before, if_pos (Nat.succ_pos k)]; rfl⟩

/-- `echo` writes to the pipe that `cat` reads from. -/
theorem wired_echoCat :
    PipedLine.echoCat.tables (fun _ => some ()) 0 stdoutFileno = some (.writeEnd 0) ∧
      PipedLine.echoCat.tables (fun _ => some ()) 1 stdinFileno = some (.readEnd 0) :=
  ⟨(wired PipedLine.echoCat fun _ => some ()).stdout 0 Nat.two_pos,
    (wired PipedLine.echoCat fun _ => some ()).stdin 1 Nat.one_lt_two⟩

end Batch
end OpSys
