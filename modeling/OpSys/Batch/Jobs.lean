import OpSys.Batch.Pipeline
import OpSys.Lib.Buffered
import OpSys.Lib.Getline
import OpSys.Search.Utils

/-!
# Running a batch file

The interpreter without pipes: it reads a line, forks a child that announces the program
and executes it, and waits.  A wait status other than zero ends the interpreter.  A child
whose `execvp` fails closes its copy of the stream and so moves the offset that it shares
with the parent; the parent does not read again after that.

## Main definitions

* `pargsOf` — what `main` makes of a line.
* `Jobs` — a batch file within the limits, and what the outside decides.
* `Jobs.child`, `Jobs.mainLoop` — a child, and the loop over the lines.
* `Jobs.all`, `Jobs.expected` — the jobs of the file, and what running them in order up to
  the first that fails comes to.

## Main results

* `Jobs.runs_up_to_failure` — the loop ends, and has run them so.
* `Jobs.stdout_of_emptiesAt`, `Jobs.stdout_of_fullyBuffered` — what is announced.

## References

`lab3_processes/batch_job_interpreter/cmd_interpreter.c`.
-/

namespace OpSys
namespace Batch

open Stdio
open Search (ascii)

/-- What `main` makes of a line: the arguments of the program it will start. -/
def pargsOf (line : List UInt8) (after : ℕ → UInt8) : Option (List (List UInt8)) :=
  (trimWhitespace (.holding line after)).bind fun line =>
    (tokenize (maxArgs + 2) line.text).bind readArgs

/-- What becomes of a child. -/
inductive Outcome
  /-- `execvp` fails, and `strerror` says this. -/
  | cannot (error : List UInt8)
  /-- The program writes this to its standard output, and `waitpid` stores the status. -/
  | ran (output : List UInt8) (status : ℕ)

/-- A batch file whose lines are within the limits.  `after n` is what stands in memory
behind the line with the number `n`, `outcome n pargs` is what becomes of its child, and
`buffering` is the discipline of the child's `stdout`.  No program reads from the
descriptor of the batch file. -/
structure Jobs where
  text : List UInt8
  block : ℕ
  after : ℕ → ℕ → UInt8
  outcome : ℕ → List (List UInt8) → Outcome
  ppid : ℤ
  pid : ℕ → ℤ
  buffering : Buffered.Discipline UInt8
  block_pos : 0 < block
  within : ∀ line ∈ lines text, ∀ n, ∃ prog args, pargsOf line (after n) = some (prog :: args)

/-- The arguments of a program, and the line that they come from. -/
structure Job where
  linenum : ℕ
  pargs : List (List UInt8)
  deriving DecidableEq, Repr

/-- `pargs[0]`. -/
def Job.prog (job : Job) : List UInt8 := job.pargs.headD []

/-- What `main` does: the children that it has forked, what was written, and the status that
it returns. -/
structure Run where
  executed : List Job
  stdout : List UInt8
  stderr : List UInt8
  status : ℕ
  deriving DecidableEq, Repr

/-- A child: what is written, the status that the parent gets, and the shared offset. -/
structure Child where
  stdout : List UInt8
  stderr : List UInt8
  cstat : ℕ
  off : ℕ

/-- What `perror` writes: an empty string is left out, and the colon with it. -/
def perror (string error : List UInt8) : List UInt8 :=
  (if string = [] then [] else string ++ ascii ": ") ++ error ++ [newline]

/-- What the parent writes when a child has failed. -/
def failure (job : Job) : List UInt8 :=
  ascii "Execution of program " ++ job.prog ++ ascii " from line " ++ decimal job.linenum ++
    ascii " failed"

namespace Jobs

variable (jobs : Jobs)

/-- What a child writes before it calls `execvp`. -/
def announcement (job : Job) : List UInt8 :=
  decimal job.linenum ++ ascii ". Executing " ++ job.prog ++ ascii " command, PPID: " ++
    decimal jobs.ppid ++ ascii ", PID: " ++ decimal (jobs.pid job.linenum) ++ [newline]

/-- The announcement through the buffer of `stdout`.  The buffer is a copy of the parent's,
and the parent writes to `stderr` only. -/
def announce (job : Job) : Buffered.Parts UInt8 :=
  Buffered.write jobs.buffering [] (jobs.announcement job)

/-- The branch of the child.  `execvp` drops what the buffer holds; if it fails, the child
closes its stream and returns 4, and the buffer is written out. -/
def child (file : File) (off : ℕ) (job : Job) : Child :=
  match jobs.outcome job.linenum job.pargs with
  | .cannot error =>
    ⟨(jobs.announce job).sent ++ (jobs.announce job).held, perror job.prog error, 4 * 256,
      file.tell⟩
  | .ran output status => ⟨(jobs.announce job).sent ++ output, [], status, off⟩

/-- What has been done for a child with status zero, and then `rest`. -/
def goOn (child : Child) (job : Job) (rest : Run) : Run :=
  { rest with
    executed := job :: rest.executed
    stdout := child.stdout ++ rest.stdout
    stderr := child.stderr ++ rest.stderr }

/-- What has been done for a child with another status. -/
def giveUp (child : Child) (job : Job) : Run where
  executed := [job]
  stdout := child.stdout
  stderr := child.stderr ++ failure job
  status := 3

/-- The loop of `main` from the line with the number `linenum` on.  It is `none` when the
fuel runs out, or when a line makes a store or a scan leave its array. -/
def mainLoop : ℕ → ℕ → File → ℕ → Option Run
  | 0, _, _, _ => none
  | fuel + 1, linenum, file, off =>
    let got := getline jobs.text jobs.block file off
    match got.line with
    | none => some ⟨[], [], [], 0⟩
    | some line =>
      (pargsOf line (jobs.after linenum)).bind fun pargs =>
        let child := jobs.child got.file got.off ⟨linenum, pargs⟩
        if child.cstat = 0 then
          (mainLoop fuel (linenum + 1) got.file child.off).map (goOn child ⟨linenum, pargs⟩)
        else some (giveUp child ⟨linenum, pargs⟩)

/-! ### What should be done -/

/-- The jobs of these lines, from the number `linenum` on. -/
def jobsFrom (linenum : ℕ) (ls : List (List UInt8)) : List Job :=
  (ls.zipIdx linenum).map fun x => ⟨x.2, (pargsOf x.1 (jobs.after x.2)).getD []⟩

/-- The jobs of the file. -/
def all : List Job := jobs.jobsFrom 1 (lines jobs.text)

/-- The program can be executed, and exits with status zero. -/
def succeeds (job : Job) : Bool :=
  match jobs.outcome job.linenum job.pargs with
  | .cannot _ => false
  | .ran _ status => status = 0

/-- What comes out on the standard output for a job: all of the announcement if there is
nothing to execute, else what the buffer lets through of it, and the program's own output. -/
def stdoutOf (job : Job) : List UInt8 :=
  match jobs.outcome job.linenum job.pargs with
  | .cannot _ => jobs.announcement job
  | .ran output _ => (jobs.announce job).sent ++ output

/-- What comes out on the standard error for a job that fails. -/
def stderrOf (job : Job) : List UInt8 :=
  match jobs.outcome job.linenum job.pargs with
  | .cannot error => perror job.prog error ++ failure job
  | .ran _ _ => failure job

/-- The jobs in order up to the first that fails, that one included. -/
def upToFailure (todo : List Job) : List Job :=
  todo.takeWhile jobs.succeeds ++ (todo.find? (!jobs.succeeds ·)).toList

/-- What running jobs in order, up to the first that fails, comes to. -/
def expectedOf (todo : List Job) : Run where
  executed := jobs.upToFailure todo
  stdout := (jobs.upToFailure todo).flatMap jobs.stdoutOf
  stderr := ((todo.find? (!jobs.succeeds ·)).map jobs.stderrOf).getD []
  status := if todo.all jobs.succeeds then 0 else 3

/-- What running the file comes to. -/
def expected : Run := jobs.expectedOf jobs.all

/-! ### A child -/

variable {jobs} {job : Job} {file : File} {off : ℕ} {todo : List Job}

theorem child_cstat_iff : (jobs.child file off job).cstat = 0 ↔ jobs.succeeds job = true := by
  unfold child succeeds
  cases jobs.outcome job.linenum job.pargs with
  | cannot error => simp
  | ran output status => simp

theorem child_stdout : (jobs.child file off job).stdout = jobs.stdoutOf job := by
  unfold child stdoutOf
  cases jobs.outcome job.linenum job.pargs with
  | cannot error => exact Buffered.sent_append_held _ _ _
  | ran output status => rfl

/-- A child with status zero writes nothing to `stderr` and leaves the offset. -/
theorem child_of_succeeds (h : jobs.succeeds job = true) :
    (jobs.child file off job).stderr = [] ∧ (jobs.child file off job).off = off := by
  unfold succeeds at h
  unfold child
  cases houtcome : jobs.outcome job.linenum job.pargs with
  | cannot error =>
    rw [houtcome] at h
    exact absurd h Bool.false_ne_true
  | ran output status => exact ⟨rfl, rfl⟩

theorem child_stderr : (jobs.child file off job).stderr ++ failure job = jobs.stderrOf job := by
  unfold child stderrOf
  cases jobs.outcome job.linenum job.pargs with
  | cannot error => simp
  | ran output status => rfl

/-! ### One job more -/

theorem upToFailure_of_succeeds (h : jobs.succeeds job = true) :
    jobs.upToFailure (job :: todo) = job :: jobs.upToFailure todo := by
  simp [upToFailure, h]

theorem upToFailure_of_fails (h : jobs.succeeds job = false) :
    jobs.upToFailure (job :: todo) = [job] := by
  simp [upToFailure, h]

theorem expectedOf_of_succeeds (h : jobs.succeeds job = true) :
    jobs.expectedOf (job :: todo) =
      goOn (jobs.child file off job) job (jobs.expectedOf todo) := by
  unfold goOn expectedOf
  rw [child_stdout, (child_of_succeeds h).1, upToFailure_of_succeeds h]
  simp [h]

theorem expectedOf_of_fails (h : jobs.succeeds job = false) :
    jobs.expectedOf (job :: todo) = giveUp (jobs.child file off job) job := by
  unfold giveUp expectedOf
  rw [child_stdout, child_stderr, upToFailure_of_fails h]
  simp [h]

/-! ### The loop -/

/-- The parent has read up to the end of its block, and these lines are to come. -/
structure AtLines (jobs : Jobs) (file : File) (off : ℕ) (ls : List (List UInt8)) : Prop where
  behind : file.Behind jobs.text off
  off_eq : off = file.behind
  lines_eq : lines (file.rest jobs.text) = ls

variable {line : List UInt8} {ls : List (List UInt8)}

theorem atLines_opened : AtLines jobs File.opened 0 (lines jobs.text) :=
  ⟨File.behind_opened, rfl, rfl⟩

theorem AtLines.line_none (h : AtLines jobs file off []) :
    (getline jobs.text jobs.block file off).line = none := by
  have hrest : file.rest jobs.text = [] := lines_eq_nil_iff.mp h.lines_eq
  rw [(getline_of_ready jobs.block_pos h.behind (Or.inr (Or.inr h.off_eq))).1, if_pos hrest]

theorem AtLines.next (h : AtLines jobs file off (line :: ls)) :
    (getline jobs.text jobs.block file off).line = some line ∧
      AtLines jobs (getline jobs.text jobs.block file off).file
        (getline jobs.text jobs.block file off).off ls := by
  have hne : file.rest jobs.text ≠ [] := by
    intro hnil
    have hlines := h.lines_eq
    rw [hnil] at hlines
    exact absurd hlines (List.cons_ne_nil _ _).symm
  have hcons := h.lines_eq
  rw [lines_eq_cons hne] at hcons
  obtain ⟨hfirst, hls⟩ := List.cons.inj hcons
  obtain ⟨hline, hrest⟩ := getline_of_ready jobs.block_pos h.behind (Or.inr (Or.inr h.off_eq))
  rw [if_neg hne, hfirst] at hline
  refine ⟨hline, (getline_length jobs.block_pos h.behind).1, ?_, ?_⟩
  · exact getline_off_of_eq jobs.block_pos h.behind h.off_eq
  · rw [hrest]
    exact hls

/-- One pass of the loop. -/
theorem mainLoop_next (h : AtLines jobs file off (line :: ls)) (linenum fuel : ℕ)
    {pargs : List (List UInt8)} (hpargs : pargsOf line (jobs.after linenum) = some pargs) :
    ∃ file' off', AtLines jobs file' off' ls ∧
      jobs.mainLoop (fuel + 1) linenum file off =
        if jobs.succeeds ⟨linenum, pargs⟩ then
          (jobs.mainLoop fuel (linenum + 1) file' off').map
            (goOn (jobs.child file' off' ⟨linenum, pargs⟩) ⟨linenum, pargs⟩)
        else some (giveUp (jobs.child file' off' ⟨linenum, pargs⟩) ⟨linenum, pargs⟩) := by
  obtain ⟨hline, hat⟩ := h.next
  refine ⟨_, _, hat, ?_⟩
  rw [mainLoop]
  simp only [hline, hpargs, Option.bind_some, child_cstat_iff]
  by_cases hok : jobs.succeeds ⟨linenum, pargs⟩ = true
  · rw [if_pos hok, if_pos hok, (child_of_succeeds hok).2]
  · rw [if_neg hok, if_neg hok]

theorem jobsFrom_cons (jobs : Jobs) (linenum : ℕ) (line : List UInt8) (ls : List (List UInt8)) :
    jobs.jobsFrom linenum (line :: ls) =
      ⟨linenum, (pargsOf line (jobs.after linenum)).getD []⟩ :: jobs.jobsFrom (linenum + 1) ls := by
  rw [jobsFrom, List.zipIdx_cons, List.map_cons, jobsFrom]

/-- From the lines `ls` on the loop does what is expected, if there is fuel for all. -/
theorem AtLines.mainLoop_eq (h : AtLines jobs file off ls) (linenum : ℕ)
    (hwithin : ∀ line ∈ ls, ∀ n, (pargsOf line (jobs.after n)).isSome = true) :
    jobs.mainLoop (ls.length + 1) linenum file off =
        some (jobs.expectedOf (jobs.jobsFrom linenum ls)) ∧
      ∀ fuel run, jobs.mainLoop fuel linenum file off = some run →
        run = jobs.expectedOf (jobs.jobsFrom linenum ls) := by
  induction ls generalizing linenum file off with
  | nil =>
    -- `getline` gives -1 at the end of the lines, and the loop ends
    have hsome : ∀ fuel, jobs.mainLoop (fuel + 1) linenum file off =
        some (jobs.expectedOf (jobs.jobsFrom linenum [])) := by
      intro fuel
      rw [mainLoop]
      simp only [h.line_none]
      rfl
    refine ⟨hsome 0, fun fuel run hrun => ?_⟩
    cases fuel with
    | zero => exact absurd hrun (Option.some_ne_none _).symm
    | succ fuel => exact (Option.some.inj ((hsome fuel).symm.trans hrun)).symm
  | cons line ls ih =>
    obtain ⟨hfirst, hrest⟩ := List.forall_mem_cons.mp hwithin
    obtain ⟨pargs, hpargs⟩ := Option.isSome_iff_exists.mp (hfirst linenum)
    have hget : (pargsOf line (jobs.after linenum)).getD [] = pargs := by rw [hpargs]; rfl
    rw [jobsFrom_cons, hget]
    constructor
    · -- enough fuel gives the run
      obtain ⟨file', off', hat, hstep⟩ := mainLoop_next h linenum (line :: ls).length hpargs
      rw [hstep]
      by_cases hok : jobs.succeeds ⟨linenum, pargs⟩ = true
      · rw [if_pos hok, List.length_cons, (ih hat _ hrest).1, Option.map_some,
          expectedOf_of_succeeds hok]
      · rw [if_neg hok, expectedOf_of_fails (Bool.eq_false_iff.mpr hok)]
    · -- and no fuel gives another one
      intro fuel run hrun
      cases fuel with
      | zero => exact absurd hrun (Option.some_ne_none _).symm
      | succ fuel =>
        obtain ⟨file', off', hat, hstep⟩ := mainLoop_next h linenum fuel hpargs
        rw [hstep] at hrun
        by_cases hok : jobs.succeeds ⟨linenum, pargs⟩ = true
        · rw [if_pos hok] at hrun
          obtain ⟨rest, hloop, rfl⟩ := Option.map_eq_some_iff.mp hrun
          rw [(ih hat _ hrest).2 fuel rest hloop, expectedOf_of_succeeds hok]
        · -- a child that fails ends the interpreter with its status
          rw [if_neg hok] at hrun
          rw [← Option.some.inj hrun, expectedOf_of_fails (Bool.eq_false_iff.mpr hok)]

theorem isSome_pargsOf (jobs : Jobs) :
    ∀ line ∈ lines jobs.text, ∀ n, (pargsOf line (jobs.after n)).isSome = true := by
  intro line hline n
  obtain ⟨prog, args, heq⟩ := jobs.within line hline n
  rw [heq]
  rfl

theorem mainLoop_opened (jobs : Jobs) :
    jobs.mainLoop ((lines jobs.text).length + 1) 1 File.opened 0 = some jobs.expected ∧
      ∀ fuel run, jobs.mainLoop fuel 1 File.opened 0 = some run → run = jobs.expected :=
  atLines_opened.mainLoop_eq 1 jobs.isSome_pargsOf

/-- A line with a program and an argument. -/
def lsLine : List UInt8 := ascii "ls -l" ++ [newline]

/-- A line with a program alone. -/
def noneLine : List UInt8 := ascii "none" ++ [newline]

theorem pargsOf_lsLine : pargsOf lsLine (fun _ => 0) = some [ascii "ls", ascii "-l"] := by
  decide +kernel

theorem pargsOf_noneLine : pargsOf noneLine (fun _ => 0) = some [ascii "none"] := by
  decide +kernel

theorem lines_lsLine_noneLine : lines (lsLine ++ noneLine) = [lsLine, noneLine] := by
  decide +kernel

/-- A file with these two lines, of which the first succeeds. -/
def twoLines (last : Outcome) : Jobs where
  text := lsLine ++ noneLine
  block := 512
  after _ _ := 0
  outcome n _ := if n = 1 then .ran (ascii "total 0") 0 else last
  ppid := 1
  pid n := n + 1
  buffering := Buffered.fullyBuffered 1024
  block_pos := Nat.succ_pos 511
  within := by
    intro line hline _
    rw [lines_lsLine_noneLine] at hline
    rcases List.mem_cons.mp hline with rfl | hline
    · exact ⟨_, _, pargsOf_lsLine⟩
    · obtain rfl := List.mem_singleton.mp hline
      exact ⟨_, _, pargsOf_noneLine⟩

/-- The output of the program itself. -/
def outputOf (jobs : Jobs) (job : Job) : List UInt8 :=
  match jobs.outcome job.linenum job.pargs with
  | .cannot _ => []
  | .ran output _ => output

/-- A terminal shows every announcement, and before the output of its program. -/
theorem stdout_of_emptiesAt (h : Buffered.EmptiesAt (fun b => b = newline) jobs.buffering) :
    jobs.expected.stdout =
      jobs.expected.executed.flatMap fun job => jobs.announcement job ++ jobs.outputOf job := by
  have hsent : ∀ job, (jobs.announce job).sent = jobs.announcement job := by
    intro job
    have hsplit := Buffered.sent_append_held jobs.buffering [] (jobs.announcement job)
    have hheld := h.held_write [] (jobs.announcement job).dropLast (decide_eq_true rfl)
    have hlast : (jobs.announcement job).dropLast ++ [newline] = jobs.announcement job := by
      rw [announcement, List.dropLast_concat]
    rw [hlast] at hheld
    rwa [hheld, List.append_nil, List.nil_append] at hsplit
  apply List.flatMap_congr
  intro job _
  unfold stdoutOf outputOf
  cases jobs.outcome job.linenum job.pargs with
  | cannot error => exact (List.append_nil _).symm
  | ran output status => rw [hsent]

/-- A file or a pipe gets the announcement of no program that could be executed, if the
buffer has room for it. -/
theorem stdout_of_fullyBuffered {size : ℕ} (h : jobs.buffering = Buffered.fullyBuffered size)
    (hroom : ∀ job ∈ jobs.expected.executed, (jobs.announcement job).length ≤ size) :
    jobs.expected.stdout =
      jobs.expected.executed.flatMap fun job =>
        match jobs.outcome job.linenum job.pargs with
        | .cannot _ => jobs.announcement job
        | .ran output _ => output := by
  apply List.flatMap_congr
  intro job hjob
  unfold stdoutOf
  cases jobs.outcome job.linenum job.pargs with
  | cannot error => rfl
  | ran output status =>
    have hsent : (jobs.announce job).sent = [] := by
      rw [announce, h]
      exact Buffered.sent_fullyBuffered (by simpa using hroom job hjob)
    rw [hsent]
    rfl

end Jobs
end Batch
end OpSys
