import OpSys.Batch.Jobs
import OpSys.Batch.Script
import OpSys.Batch.Words

/-!
# Both interpreters on one file

A batch file that the interpreter without pipes can run, and in which no argument is `"|"`,
is a script for the interpreter with pipes.  The token arrays differ in size only.  That
interpreter does not look at the wait status, so it goes on where the other one stops.

## Main definitions

* `PlainJobs` — a batch file without `"|"` in which every program can be executed.
* `PlainJobs.script` — the same file, for the interpreter with pipes.
* `Agree` — what both do with it.

## Main results

* `readArgs_tokenize` — arguments that are read back from any token array.
* `progsOf_of_pargsOf` — a line without `"|"` is one program with the same arguments.
* `PlainJobs.interpreters_agree` — the one runs the jobs that the other does, up to the
  first that fails.

## References

`lab3_processes/batch_job_interpreter/cmd_interpreter.c`,
`lab4_signals_and_pipes/batch_job_interpreter_pipes/cmd_interpreter_extd.c`.
-/

namespace OpSys
namespace Batch

open Stdio

/-! ### A line without pipes -/

variable {line : List UInt8} {after : ℕ → UInt8} {pargs ws : List (List UInt8)}

/-- Arguments are read back from a token array with a NULL behind them only as they are. -/
theorem readArgs_filled {k : ℕ} (hnul : ∀ w ∈ ws, nul ∉ w)
    (h : readArgs (ws.map (some ∘ filled) ++ List.replicate k none) = some pargs) :
    pargs = ws ∧ 0 < k ∧ ∀ w ∈ ws, Short w := by
  induction ws generalizing pargs with
  | nil =>
    cases k with
    | zero => exact absurd h (Option.some_ne_none _).symm
    | succ k =>
      rw [List.map_nil, List.nil_append, List.replicate_succ, readArgs] at h
      exact ⟨(Option.some.inj h).symm, Nat.succ_pos k, List.forall_mem_nil _⟩
  | cons w ws ih =>
    obtain ⟨hw, hws⟩ := List.forall_mem_cons.mp hnul
    rw [List.map_cons, List.cons_append, Function.comp_apply, readArgs] at h
    obtain ⟨text, htext, hrest⟩ := Option.bind_eq_some_iff.mp h
    obtain ⟨args, hargs, rfl⟩ := Option.map_eq_some_iff.mp hrest
    obtain ⟨rfl, hk, hshort⟩ := ih hws hargs
    -- a text that fills its buffer has no zero byte to be read to
    have hlen : w.length < bufferSize := by
      unfold readString at htext
      split at htext
      · rename_i hmem
        exact (nul_mem_filled_iff hw).mp hmem
      · exact absurd htext (Option.some_ne_none _).symm
    rw [readString_filled hw hlen] at htext
    obtain rfl := Option.some.inj htext
    exact ⟨rfl, hk, List.forall_mem_cons.mpr ⟨⟨hw, hlen⟩, hshort⟩⟩

/-- Arguments that are read back from any token array are the words of the line, and the
array has a NULL behind them. -/
theorem readArgs_tokenize {size : ℕ} {str : List UInt8} (hnul : nul ∉ str)
    (h : (tokenize size str).bind readArgs = some pargs) :
    pargs = wordsOf str ∧ pargs.length < size ∧ ∀ w ∈ pargs, Short w := by
  by_cases hfits : (wordsOf str).length ≤ size ∧ ∀ w ∈ wordsOf str, w.length ≤ bufferSize
  · rw [tokenize_eq_some hnul hfits.1 hfits.2, Option.bind_some, List.rightpad,
      List.length_map] at h
    obtain ⟨rfl, hk, hshort⟩ := readArgs_filled (fun w => nul_notMem_wordsOf hnul) h
    exact ⟨rfl, by omega, hshort⟩
  · rw [tokenize_eq_none hnul hfits] at h
    exact absurd h (Option.some_ne_none _).symm

/-- The loop over the tokens of one program. -/
theorem splitLoop_plain {k : ℕ} (hshort : ∀ w ∈ ws, Short w) (hpipe : [pipe] ∉ ws)
    (hlen : ws.length ≤ maxArgs + 1) (hk : 0 < k) :
    splitLoop (ws.map (some ∘ filled) ++ List.replicate k none) splitStart =
      some (.after [] ws) := by
  obtain ⟨k, rfl⟩ := Nat.exists_eq_succ_of_ne_zero hk.ne'
  have hwords : ∀ w ∈ ws, Short w ∧ w ≠ [pipe] := by
    intro w hw
    refine ⟨hshort w hw, ?_⟩
    rintro rfl
    exact hpipe hw
  rw [splitStart_eq, splitLoop_words hwords (by rw [List.length_nil]; omega), List.nil_append,
    List.replicate_succ, splitLoop]

/-- A line without `"|"` is one program, with the arguments that the other interpreter
makes of it. -/
theorem progsOf_of_pargsOf (h : pargsOf line after = some pargs) (hne : pargs ≠ [])
    (hpipe : [pipe] ∉ pargs) : progsOf line after = some [pargs] := by
  obtain ⟨str, htrim, hread⟩ := Option.bind_eq_some_iff.mp h
  obtain ⟨rfl, hlen, hshort⟩ := readArgs_tokenize str.nul_notMem_text hread
  have hsize : maxArgs + 2 ≤ maxProgsPiped * (maxArgs + 2) := by decide
  have hsplit : parseLine (.holding line after) = some (.after [] (wordsOf str.text)) := by
    rw [parseLine, htrim, Option.bind_some,
      tokenize_eq_some str.nul_notMem_text (by omega) fun w hw => (hshort w hw).2.le,
      Option.bind_some, List.rightpad, List.length_map]
    exact splitLoop_plain hshort hpipe (by omega) (by omega)
  rw [progsOf, hsplit, Option.bind_some]
  apply readProgs_argRows
  · intro prog hprog
    obtain rfl := List.mem_singleton.mp hprog
    exact ⟨hne, by omega, hshort⟩
  · rw [List.nil_append, List.length_singleton]
    decide

/-! ### Both on one file -/

/-- A batch file without `"|"` in which every program can be executed. -/
structure PlainJobs extends Jobs where
  no_pipe : ∀ line ∈ lines text, ∀ n pargs, pargsOf line (after n) = some pargs → [pipe] ∉ pargs
  executable : ∀ n pargs error, outcome n pargs ≠ .cannot error

namespace PlainJobs

variable (jobs : PlainJobs)

/-- The arguments of a line. -/
theorem exists_pargs {line : List UInt8} (h : line ∈ lines jobs.text) (n : ℕ) :
    ∃ pargs, pargsOf line (jobs.after n) = some pargs ∧
      progsOf line (jobs.after n) = some [pargs] := by
  obtain ⟨prog, args, heq⟩ := jobs.within line h n
  exact ⟨prog :: args, heq,
    progsOf_of_pargsOf heq (List.cons_ne_nil _ _) (jobs.no_pipe line h n _ heq)⟩

theorem isSome_progsOf : ∀ line ∈ lines jobs.text, ∀ n,
    (progsOf line (jobs.after n)).isSome = true := by
  intro line hline n
  obtain ⟨pargs, -, hprogs⟩ := jobs.exists_pargs hline n
  rw [hprogs]
  rfl

/-- The same file, for the interpreter with pipes. -/
def script : Script where
  text := jobs.text
  block := jobs.block
  after := jobs.after
  execFails _ _ _ := false
  block_pos := jobs.block_pos
  within := jobs.isSome_progsOf

theorem lineFails_eq (n : ℕ) (line : List UInt8) : jobs.script.lineFails n line = false := by
  have hany : ∀ progs currp, anyFails (jobs.script.execFails n) currp progs = false := by
    intro progs
    induction progs with
    | nil => exact fun _ => rfl
    | cons prog progs ih =>
      intro currp
      rw [anyFails, ih]
      rfl
  unfold Script.lineFails
  split
  · rfl
  · exact hany _ _

/-- No `read` finds the offset moved, as no child closes its stream. -/
theorem inPlace_script (ls : List (List UInt8)) (linenum pos off : ℕ)
    (h : off = jobs.script.blockEnd pos) (hsize : pos + ls.flatten.length ≤ jobs.text.length) :
    jobs.script.InPlace ls linenum pos off := by
  induction ls generalizing linenum pos off with
  | nil => exact h
  | cons line ls ih =>
    rw [List.flatten_cons, List.length_append] at hsize
    refine ⟨Or.inl h, ?_⟩
    rw [lineFails_eq, if_neg Bool.false_ne_true]
    apply ih
    · split
      · rename_i hin
        rw [h]
        exact (blockEnd_of_le jobs.block_pos (Nat.le_add_right _ _) hin.2).symm
      · rfl
    · omega

/-- The programs that the interpreter with pipes starts for a line, with its number. -/
def started : List (ℕ × Option (List (List (List UInt8)))) :=
  ((lines jobs.text).zipIdx 1).map fun x => (x.2, progsOf x.1 (jobs.after x.2))

/-- What both interpreters do with the file. -/
structure Agree (jobs : PlainJobs) : Prop where
  /-- The interpreter with pipes ends, and has processed every line once. -/
  processed : ∃ fuel, Batch.mainLoop jobs.script fuel 1 File.opened 0 = some (lines jobs.text)
  /-- It has started one program for each line, the one of the job. -/
  started : jobs.started = jobs.all.map fun job => (job.linenum, some [job.pargs])
  /-- The interpreter without pipes has started the first of these, and stops after the
  first that fails. -/
  executed : ∃ fuel run rest, jobs.mainLoop fuel 1 File.opened 0 = some run ∧
    jobs.started = run.executed.map (fun job => (job.linenum, some [job.pargs])) ++ rest ∧
    (∀ job ∈ run.executed.dropLast, jobs.succeeds job = true) ∧
    (rest = [] ∨ ∃ job, run.executed.getLast? = some job ∧ jobs.succeeds job = false)

end PlainJobs

/-! ### Up to the first failure -/

theorem Jobs.upToFailure_prefix (jobs : Jobs) (todo : List Job) :
    ∃ rest, todo = jobs.upToFailure todo ++ rest ∧
      (∀ job ∈ (jobs.upToFailure todo).dropLast, jobs.succeeds job = true) ∧
      (rest = [] ∨ ∃ job, (jobs.upToFailure todo).getLast? = some job ∧
        jobs.succeeds job = false) := by
  induction todo with
  | nil => exact ⟨[], rfl, List.forall_mem_nil _, Or.inl rfl⟩
  | cons job todo ih =>
    cases hok : jobs.succeeds job with
    | true =>
      obtain ⟨rest, heq, hfirst, hlast⟩ := ih
      rw [upToFailure_of_succeeds hok]
      refine ⟨rest, by rw [List.cons_append, ← heq], ?_, ?_⟩
      · -- the next job is not the last, so the failure is not it
        intro j hj
        cases hup : jobs.upToFailure todo with
        | nil =>
          rw [hup] at hj
          exact absurd hj List.not_mem_nil
        | cons next later =>
          rw [hup, List.dropLast_cons_of_ne_nil (List.cons_ne_nil _ _)] at hj
          rcases List.mem_cons.mp hj with rfl | hmem
          · exact hok
          · exact hfirst j (hup ▸ hmem)
      · refine hlast.imp_right ?_
        rintro ⟨j, hj, hbad⟩
        refine ⟨j, ?_, hbad⟩
        rw [List.getLast?_cons, hj]
        rfl
    | false =>
      rw [upToFailure_of_fails hok]
      exact ⟨todo, rfl, List.forall_mem_nil _, Or.inr ⟨job, rfl, hok⟩⟩

/-- A file of two lines without a `"|"`. -/
def plainTwo : PlainJobs where
  toJobs := Jobs.twoLines (.ran [] 256)
  no_pipe := by
    intro line hline n pargs hpargs
    have hline : line ∈ lines (Jobs.lsLine ++ Jobs.noneLine) := hline
    rw [Jobs.lines_lsLine_noneLine] at hline
    rcases List.mem_cons.mp hline with rfl | hline
    · rw [← Option.some.inj (Jobs.pargsOf_lsLine.symm.trans hpargs)]
      decide +kernel
    · obtain rfl := List.mem_singleton.mp hline
      rw [← Option.some.inj (Jobs.pargsOf_noneLine.symm.trans hpargs)]
      decide +kernel
  executable := by
    intro n pargs error
    show (if n = 1 then Outcome.ran _ 0 else .ran [] 256) ≠ _
    split <;> exact Outcome.noConfusion

end Batch
end OpSys
