import OpSys.Batch.Render
import OpSys.Lib.Getline

/-!
# Reading a script with pipes line by line

The parent reads its script through a stream; every child inherits a copy of that
stream and shares the offset behind it.  A child whose `execvp` fails closes its copy,
which takes the shared offset back to where the parent was when it forked.  The
parent's buffer still holds the rest of the block then, so the parent finds the offset
moved when it reads the next one.

## Main definitions

* `Script` — a script within the limits, and what the outside decides.
* `forkLoop`, `mainLoop` — the loops over the programs of a line and over the lines.
* `ProcessesOnce` — the parent ends, and has processed the lines of the file.
* `Placed`, `placed` — the lines with their numbers and the places where they stop.
* `BlocksRestored` — every block in which a failing line stops has a failing line
  that stops at its end.

## Main results

* `processesOnce_iff_inPlace` — the lines are processed once iff every `read` of the
  parent finds the offset where the one before it left it.
* `processesOnce_iff` — that is so iff the blocks are restored.

## References

`lab4_signals_and_pipes/batch_job_interpreter_pipes/cmd_interpreter_extd.c`.
-/

namespace OpSys
namespace Batch

open Stdio

/-- What `main` makes of a line: the argument lists of the programs it will start. -/
def progsOf (line : List UInt8) (after : ℕ → UInt8) : Option (List (List (List UInt8))) :=
  (parseLine (.holding line after)).bind fun st => readProgs st.pargs

/-- A script whose lines are within the limits.  `after n` is what stands in memory
behind the line with the number `n`, and `execFails n currp args` tells whether `execvp`
fails for the program number `currp` of that line. -/
structure Script where
  text : List UInt8
  block : ℕ
  after : ℕ → ℕ → UInt8
  execFails : ℕ → ℕ → List (List UInt8) → Bool
  block_pos : 0 < block
  within : ∀ line ∈ lines text, ∀ n, (progsOf line (after n)).isSome = true

/-- The loop that forks the programs of a line, and the shared offset after it.  A
child whose `execvp` fails calls `fclose`.  No child reads, so each has the parent's
position, and the order in which they end does not matter; the parent waits for all of
them before it reads again. -/
def forkLoop (execFails : ℕ → List (List UInt8) → Bool) (file : File) :
    ℕ → List (List (List UInt8)) → ℕ → ℕ
  | _, [], off => off
  | currp, prog :: progs, off =>
    forkLoop execFails file (currp + 1) progs (if execFails currp prog then file.tell else off)

/-- The loop of `main` from the line with the number `linenum` on: the lines that it
processes.  It is `none` when the fuel runs out, or when a line makes a store or a scan
leave its array. -/
def mainLoop (script : Script) : ℕ → ℕ → File → ℕ → Option (List (List UInt8))
  | 0, _, _, _ => none
  | fuel + 1, linenum, file, off =>
    let got := getline script.text script.block file off
    match got.line with
    | none => some []
    | some line =>
      (progsOf line (script.after linenum)).bind fun progs =>
        (mainLoop script fuel (linenum + 1) got.file
          (forkLoop (script.execFails linenum) got.file 0 progs got.off)).map (line :: ·)

/-- The parent ends, and the lines it has processed are those of the file, in order. -/
def ProcessesOnce (script : Script) : Prop :=
  ∃ fuel, mainLoop script fuel 1 File.opened 0 = some (lines script.text)

/-- Some program from number `currp` on cannot be executed. -/
def anyFails (execFails : ℕ → List (List UInt8) → Bool) : ℕ → List (List (List UInt8)) → Bool
  | _, [] => false
  | currp, prog :: progs => execFails currp prog || anyFails execFails (currp + 1) progs

/-- Some program of the line cannot be executed. -/
def Script.lineFails (script : Script) (linenum : ℕ) (line : List UInt8) : Bool :=
  match progsOf line (script.after linenum) with
  | none => false
  | some progs => anyFails (script.execFails linenum) 0 progs

/-- A line with its number and the position where it stops. -/
structure Placed where
  linenum : ℕ
  line : List UInt8
  stop : ℕ

/-- The lines from number `linenum` and position `pos` on. -/
def placed : ℕ → ℕ → List (List UInt8) → List Placed
  | _, _, [] => []
  | linenum, pos, line :: rest =>
    ⟨linenum, line, pos + line.length⟩ :: placed (linenum + 1) (pos + line.length) rest

namespace Script

variable (script : Script)

/-- `Placed.line` has a program that cannot be executed. -/
def Fails (p : Placed) : Prop := script.lineFails p.linenum p.line = true

/-- Where the block ends that holds the byte before `pos`. -/
def blockEnd (pos : ℕ) : ℕ := Stdio.blockEnd script.text.length script.block pos

/-- A failing line among `ps`, with its newline, stops at `pos`. -/
def RestoredAt (ps : List Placed) (pos : ℕ) : Prop :=
  ∃ q ∈ ps, script.Fails q ∧ newline ∈ q.line ∧ q.stop = pos

/-- Whenever a line of `ps` fails inside a block, a failing line stops at its end. -/
def RestoredIn (ps : List Placed) : Prop :=
  ∀ p ∈ ps, script.Fails p →
    p.stop = script.blockEnd p.stop ∨ script.RestoredAt ps (script.blockEnd p.stop)

/-- Every block in which a failing line stops has a failing line that stops at its end. -/
def BlocksRestored : Prop := script.RestoredIn (placed 1 0 (lines script.text))

/-- Each `read` of the parent finds the offset in place, from the line number `linenum`
at `pos` on, with the offset at `off`. -/
def InPlace : List (List UInt8) → ℕ → ℕ → ℕ → Prop
  | [], _, pos, off => off = script.blockEnd pos
  | line :: rest, linenum, pos, off =>
    (off = script.blockEnd pos ∨ newline ∈ line ∧ pos + line.length ≤ script.blockEnd pos) ∧
      InPlace rest (linenum + 1) (pos + line.length)
        (if script.lineFails linenum line then pos + line.length
        else if newline ∈ line ∧ pos + line.length ≤ script.blockEnd pos then off
        else script.blockEnd (pos + line.length))

end Script

/-! ### The children of a line -/

theorem forkLoop_eq (execFails : ℕ → List (List UInt8) → Bool) (file : File) (currp : ℕ)
    (progs : List (List (List UInt8))) (off : ℕ) :
    forkLoop execFails file currp progs off =
      if anyFails execFails currp progs then file.tell else off := by
  induction progs generalizing currp off with
  | nil => rfl
  | cons prog progs ih =>
    rw [forkLoop, ih, anyFails]
    cases execFails currp prog <;> simp

theorem forkLoop_of_progsOf {script : Script} {line : List UInt8} {linenum : ℕ}
    {progs : List (List (List UInt8))} (h : progsOf line (script.after linenum) = some progs)
    (file : File) (off : ℕ) :
    forkLoop (script.execFails linenum) file 0 progs off =
      if script.lineFails linenum line then file.tell else off := by
  rw [forkLoop_eq, Script.lineFails, h]

/-! ### What the parent takes is never less than what was to come -/

variable {script : Script} {file : File} {off linenum fuel : ℕ}

/-- The stream and the offset after the children of a line. -/
theorem behind_forkLoop (h : file.Behind script.text off)
    (execFails : ℕ → List (List UInt8) → Bool) (progs : List (List (List UInt8))) :
    file.Behind script.text (forkLoop execFails file 0 progs off) := by
  rw [forkLoop_eq]
  split
  · exact h.of_tell
  · exact h

theorem mainLoop_succ {line : List UInt8} {progs : List (List (List UInt8))}
    (hline : (getline script.text script.block file off).line = some line)
    (hprogs : progsOf line (script.after linenum) = some progs) :
    mainLoop script (fuel + 1) linenum file off =
      (mainLoop script fuel (linenum + 1) (getline script.text script.block file off).file
        (forkLoop (script.execFails linenum) (getline script.text script.block file off).file 0
          progs (getline script.text script.block file off).off)).map (line :: ·) := by
  rw [mainLoop]
  simp only [hline, hprogs, Option.bind_some]

theorem mainLoop_none
    (hline : (getline script.text script.block file off).line = none) :
    mainLoop script (fuel + 1) linenum file off = some [] := by
  rw [mainLoop]
  simp only [hline]

/-- A run that ends has taken at least the bytes that were to come, and more if it found
the offset moved at its first line. -/
theorem mainLoop_length {ls : List (List UInt8)} (h : file.Behind script.text off)
    (hrun : mainLoop script fuel linenum file off = some ls) :
    (file.rest script.text).length ≤ ls.flatten.length ∧
      (¬file.Ready off → (file.rest script.text).length < ls.flatten.length) := by
  induction fuel generalizing linenum file off ls with
  | zero => exact absurd hrun (Option.some_ne_none _).symm
  | succ fuel ih =>
    -- what is lost to a child leaves less for the lines to come from
    obtain ⟨hbehind, hle⟩ := getline_length script.block_pos h
    have hlt := getline_length_lt script.block_pos h
    cases hline : (getline script.text script.block file off).line with
    | none =>
      have hrest := getline_rest_of_none script.block_pos h hline
      rw [mainLoop_none hline] at hrun
      obtain rfl := Option.some.inj hrun
      rw [hline, hrest] at hle hlt
      exact ⟨hle, hlt⟩
    | some line =>
      cases hprogs : progsOf line (script.after linenum) with
      | none =>
        rw [mainLoop] at hrun
        simp only [hline, hprogs, Option.bind_none] at hrun
        exact absurd hrun (Option.some_ne_none _).symm
      | some progs =>
        rw [mainLoop_succ hline hprogs] at hrun
        obtain ⟨rest, hrest, rfl⟩ := Option.map_eq_some_iff.mp hrun
        -- the children read the same file on, and never give anything back
        have hmore := (ih (behind_forkLoop hbehind _ progs) hrest).1
        rw [hline, Option.getD_some] at hle hlt
        rw [List.flatten_cons, List.length_append]
        exact ⟨by omega, fun hready => by have := hlt hready; omega⟩

/-! ### In step with the file -/

/-- The parent is at `pos`, with the lines `ls` to come, and its buffer reaches to the
end of the block. -/
structure InStep (script : Script) (file : File) (off pos : ℕ) (ls : List (List UInt8)) :
    Prop where
  behind : file.Behind script.text off
  tell_eq : file.tell = pos
  block_eq : script.blockEnd pos = file.behind
  lines_eq : lines (file.rest script.text) = ls
  of_eof : file.eof = true → off = file.behind

variable {pos : ℕ} {line : List UInt8} {ls : List (List UInt8)}

theorem inStep_opened : InStep script File.opened 0 0 (lines script.text) where
  behind := File.behind_opened
  tell_eq := rfl
  block_eq := blockEnd_zero script.block_pos
  lines_eq := rfl
  of_eof _ := rfl

namespace InStep

theorem ready_iff (h : InStep script file off pos ls) :
    file.Ready off ↔ newline ∈ file.buf ∨ off = script.blockEnd pos := by
  rw [h.block_eq]
  constructor
  · rintro (hmem | heof | hoff)
    · exact Or.inl hmem
    · exact Or.inr (h.of_eof heof)
    · exact Or.inr hoff
  · rintro (hmem | hoff)
    · exact Or.inl hmem
    · exact Or.inr (Or.inr hoff)

theorem rest_eq_nil (h : InStep script file off pos []) : file.rest script.text = [] :=
  lines_eq_nil_iff.mp h.lines_eq

theorem rest_ne_nil (h : InStep script file off pos (line :: ls)) :
    file.rest script.text ≠ [] := by
  intro hnil
  have hlines := h.lines_eq
  rw [hnil] at hlines
  exact absurd hlines (List.cons_ne_nil _ _).symm

theorem firstLine_eq (h : InStep script file off pos (line :: ls)) :
    (firstLine (file.rest script.text)).1 = line ∧
      lines (firstLine (file.rest script.text)).2 = ls := by
  have hlines := h.lines_eq
  rw [lines_eq_cons h.rest_ne_nil] at hlines
  exact List.cons.inj hlines

theorem mem_buf_iff (h : InStep script file off pos (line :: ls)) :
    newline ∈ file.buf ↔ newline ∈ line ∧ pos + line.length ≤ script.blockEnd pos := by
  rw [newline_mem_buf_iff h.behind, h.firstLine_eq.1, h.tell_eq, h.block_eq]

/-- The bytes to come are those of the lines to come. -/
theorem length_rest (h : InStep script file off pos ls) :
    (file.rest script.text).length = ls.flatten.length := by
  rw [← h.lines_eq, flatten_lines]

/-- The line that `getline` returns, and the stream and the offset after its children. -/
theorem next (h : InStep script file off pos (line :: ls)) (hready : file.Ready off)
    {progs : List (List (List UInt8))} (hprogs : progsOf line (script.after linenum) = some progs) :
    (getline script.text script.block file off).line = some line ∧
      InStep script (getline script.text script.block file off).file
        (forkLoop (script.execFails linenum) (getline script.text script.block file off).file 0
          progs (getline script.text script.block file off).off) (pos + line.length) ls ∧
      forkLoop (script.execFails linenum) (getline script.text script.block file off).file 0
          progs (getline script.text script.block file off).off =
        if script.lineFails linenum line then pos + line.length
        else if newline ∈ line ∧ pos + line.length ≤ script.blockEnd pos then off
        else script.blockEnd (pos + line.length) := by
  obtain ⟨hline, hrest⟩ := getline_of_ready script.block_pos h.behind hready
  obtain ⟨hfirst, hls⟩ := h.firstLine_eq
  rw [if_neg h.rest_ne_nil, hfirst] at hline
  have hbehind := (getline_length script.block_pos h.behind).1
  have hblock := getline_tell script.block_pos h.behind hready
    (by rw [h.tell_eq]; exact h.block_eq)
  -- the position is what the rest of the file leaves
  have htell : (getline script.text script.block file off).file.tell = pos + line.length := by
    have hsplit := firstLine_length (file.rest script.text)
    have hle : (file.rest script.text).length ≤ script.text.length := by
      have := h.behind.length_le
      have := h.behind.behind_le
      rw [File.length_rest]
      omega
    rw [hbehind.tell_eq, hrest, ← h.tell_eq, h.behind.tell_eq]
    rw [hfirst] at hsplit
    omega
  have hoff : (getline script.text script.block file off).off =
      if newline ∈ line ∧ pos + line.length ≤ script.blockEnd pos then off
      else script.blockEnd (pos + line.length) := by
    split
    · rename_i hmem
      exact (getline_off_of_mem (h.mem_buf_iff.mpr hmem)).1
    · rename_i hmem
      have heq := (h.ready_iff.mp hready).resolve_left fun hbuf => hmem (h.mem_buf_iff.mp hbuf)
      rw [getline_off_of_eq script.block_pos h.behind (heq.trans h.block_eq), ← hblock, htell]
      rfl
  rw [← hoff, ← htell]
  refine ⟨hline, ⟨behind_forkLoop hbehind _ progs, rfl, hblock, hrest ▸ hls, fun heof => ?_⟩,
    forkLoop_of_progsOf hprogs _ _⟩
  have htell' : (getline script.text script.block file off).file.tell =
      (getline script.text script.block file off).file.behind := by
    rw [File.tell, (hbehind.of_eof heof).1, List.length_nil, Nat.sub_zero]
  rw [forkLoop_of_progsOf hprogs]
  split
  · exact htell'
  · rcases h.ready_iff.mp hready with hmem | heq
    · obtain ⟨hsame, hbehind', heof'⟩ := getline_off_of_mem hmem
      rw [hsame, hbehind']
      exact h.of_eof (heof' ▸ heof)
    · exact getline_off_of_eq script.block_pos h.behind (heq.trans h.block_eq)

end InStep

/-! ### Once means in place -/

/-- From a stream in step the lines to come are processed once iff every `read` finds the
offset in place. -/
theorem InStep.mainLoop_iff (h : InStep script file off pos ls)
    (hwithin : ∀ line ∈ ls, ∀ n, (progsOf line (script.after n)).isSome = true) :
    (∃ fuel, mainLoop script fuel linenum file off = some ls) ↔
      script.InPlace ls linenum pos off := by
  induction ls generalizing linenum file off pos with
  | nil =>
    rw [Script.InPlace]
    constructor
    · rintro ⟨fuel, hrun⟩
      by_contra hne
      -- an offset before the end would have given another line
      have hready : ¬file.Ready off := by
        rw [h.ready_iff]
        rintro (hmem | hoff)
        · exact absurd (List.append_eq_nil_iff.mp h.rest_eq_nil).1 (List.ne_nil_of_mem hmem)
        · exact hne hoff
      exact absurd ((mainLoop_length h.behind hrun).2 hready) (Nat.not_lt_zero _)
    · intro hoff
      have hline := (getline_of_ready script.block_pos h.behind (h.ready_iff.mpr (Or.inr hoff))).1
      rw [if_pos h.rest_eq_nil] at hline
      exact ⟨1, mainLoop_none hline⟩
  | cons line ls ih =>
    have hready_iff : file.Ready off ↔ off = script.blockEnd pos ∨
        newline ∈ line ∧ pos + line.length ≤ script.blockEnd pos := by
      rw [h.ready_iff, h.mem_buf_iff, or_comm]
    obtain ⟨hfirst, hrest⟩ := List.forall_mem_cons.mp hwithin
    obtain ⟨progs, hprogs⟩ := Option.isSome_iff_exists.mp (hfirst linenum)
    rw [Script.InPlace, ← hready_iff]
    constructor
    · rintro ⟨fuel, hrun⟩
      have hready : file.Ready off := by
        -- out of step the lines are fewer bytes than the rest of the file
        by_contra hready
        exact absurd ((mainLoop_length h.behind hrun).2 hready) (h.length_rest ▸ lt_irrefl _)
      obtain ⟨hline, hnext, hoff⟩ := h.next hready hprogs
      refine ⟨hready, ?_⟩
      rw [← hoff]
      cases fuel with
      | zero => exact absurd hrun (Option.some_ne_none _).symm
      | succ fuel =>
        rw [mainLoop_succ hline hprogs] at hrun
        obtain ⟨ls', hrun, heq⟩ := Option.map_eq_some_iff.mp hrun
        exact (ih hnext hrest).mp ⟨fuel, hrun.trans (congrArg some (List.cons.inj heq).2)⟩
    · rintro ⟨hready, hplace⟩
      obtain ⟨hline, hnext, hoff⟩ := h.next hready hprogs
      rw [← hoff] at hplace
      obtain ⟨fuel, hrun⟩ := (ih hnext hrest).mpr hplace
      refine ⟨fuel + 1, ?_⟩
      rw [mainLoop_succ hline hprogs, hrun, Option.map_some]

theorem processesOnce_iff_inPlace (script : Script) :
    ProcessesOnce script ↔ script.InPlace (lines script.text) 1 0 0 :=
  inStep_opened.mainLoop_iff script.within

/-! ### In place means restored -/

theorem stop_of_mem_placed {ps : Placed} (hne : ∀ line ∈ ls, line ≠ [])
    (h : ps ∈ placed linenum pos ls) : pos < ps.stop ∧ ps.stop ≤ pos + ls.flatten.length := by
  induction ls generalizing linenum pos with
  | nil => exact absurd h List.not_mem_nil
  | cons line ls ih =>
    obtain ⟨hline, hrest⟩ := List.forall_mem_cons.mp hne
    have hpos := List.length_pos_iff.mpr hline
    rw [List.flatten_cons, List.length_append]
    rcases List.mem_cons.mp h with rfl | hmem
    · exact ⟨Nat.lt_add_of_pos_right hpos, by simp only; omega⟩
    · have := ih hrest hmem
      omega

namespace Script

theorem restoredAt_cons {p : Placed} {ps : List Placed} :
    script.RestoredAt (p :: ps) pos ↔
      (script.Fails p ∧ newline ∈ p.line ∧ p.stop = pos) ∨ script.RestoredAt ps pos := by
  simp only [RestoredAt, List.mem_cons, or_and_right, exists_or, exists_eq_left]

/-- A line does not restore the blocks of the lines after it. -/
theorem restoredIn_cons {p : Placed} {ps : List Placed}
    (hlt : ∀ q ∈ ps, p.stop < q.stop ∧ q.stop ≤ script.text.length) :
    script.RestoredIn (p :: ps) ↔
      (script.Fails p → p.stop = script.blockEnd p.stop ∨
        script.RestoredAt ps (script.blockEnd p.stop)) ∧ script.RestoredIn ps := by
  rw [RestoredIn, List.forall_mem_cons]
  refine and_congr (forall_congr' fun _ => ?_) (forall₂_congr fun q hq => forall_congr' fun _ => ?_)
  · rw [restoredAt_cons]
    constructor
    · rintro (heq | ⟨-, -, heq⟩ | hat)
      · exact Or.inl heq
      · exact Or.inl heq
      · exact Or.inr hat
    · exact Or.imp_right Or.inr
  · rw [restoredAt_cons]
    have hne : p.stop ≠ script.blockEnd q.stop :=
      ((hlt q hq).1.trans_le (le_blockEnd script.block_pos (hlt q hq).2)).ne
    simp [hne]

/-- Each `read` finds the offset in place iff the blocks are restored, the present one
included. -/
theorem inPlace_iff (hne : ∀ line ∈ ls, line ≠ []) (hterm : ∀ line ∈ ls.dropLast, newline ∈ line)
    (hsize : pos + ls.flatten.length ≤ script.text.length) :
    script.InPlace ls linenum pos off ↔
      (off = script.blockEnd pos ∨
        script.RestoredAt (placed linenum pos ls) (script.blockEnd pos)) ∧
      script.RestoredIn (placed linenum pos ls) := by
  induction ls generalizing linenum pos off with
  | nil => simp [InPlace, placed, RestoredAt, RestoredIn]
  | cons line ls ih =>
    obtain ⟨hline, hrest⟩ := List.forall_mem_cons.mp hne
    rw [List.flatten_cons, List.length_append] at hsize
    have hstop : ∀ q ∈ placed (linenum + 1) (pos + line.length) ls,
        pos + line.length < q.stop ∧ q.stop ≤ script.text.length := by
      intro q hq
      have := stop_of_mem_placed hrest hq
      omega
    have hterm' : ∀ l ∈ ls.dropLast, newline ∈ l := by
      intro l hl
      cases ls with
      | nil => exact absurd hl List.not_mem_nil
      | cons next ls => exact hterm l (List.mem_cons_of_mem _ hl)
    -- a line that restores a block comes after `line`, which then has its newline
    have hafter : ∀ {p}, script.RestoredAt (placed (linenum + 1) (pos + line.length) ls) p →
        pos + line.length < p ∧ newline ∈ line := by
      rintro p ⟨q, hq, -, -, rfl⟩
      refine ⟨(hstop q hq).1, ?_⟩
      cases ls with
      | nil => exact absurd hq List.not_mem_nil
      | cons next ls => exact hterm line List.mem_cons_self
    have hsame : pos + line.length ≤ script.blockEnd pos →
        script.blockEnd (pos + line.length) = script.blockEnd pos :=
      blockEnd_of_le script.block_pos (Nat.le_add_right _ _)
    rw [InPlace, ih hrest hterm' (by omega), placed, restoredIn_cons hstop, restoredAt_cons]
    simp only [Fails]
    by_cases hfail : script.lineFails linenum line = true
    · rw [if_pos hfail]
      simp only [hfail, true_and, forall_const]
      refine ⟨fun ⟨hready, hat, hin⟩ => ⟨?_, hat, hin⟩, fun ⟨hready, hat, hin⟩ => ⟨?_, hat, hin⟩⟩
      · rcases hready with hoff | ⟨hnl, hle⟩
        · exact Or.inl hoff
        · rw [hsame hle] at hat
          exact Or.inr (hat.imp (fun heq => ⟨hnl, heq⟩) id)
      · rcases hready with hoff | ⟨hnl, heq⟩ | hat
        · exact Or.inl hoff
        · exact Or.inr ⟨hnl, heq.le⟩
        · exact Or.inr ⟨(hafter hat).2, (hafter hat).1.le⟩
    · rw [if_neg hfail]
      simp only [hfail, Bool.false_eq_true, false_and, false_or, false_imp_iff, true_and]
      by_cases hbuf : newline ∈ line ∧ pos + line.length ≤ script.blockEnd pos
      · rw [if_pos hbuf, hsame hbuf.2]
        simp only [hbuf, and_self, or_true, true_and]
      · rw [if_neg hbuf]
        simp only [hbuf, or_false, true_or, true_and]
        refine and_congr_left fun _ => ⟨Or.inl, fun hready => hready.resolve_right fun hat => ?_⟩
        exact hbuf ⟨(hafter hat).2, (hafter hat).1.le⟩

end Script

/-- A pipeline within the limits is a line within the limits. -/
theorem progsOf_render (pl : Pipeline) (lead trail : Blank) (after : ℕ → UInt8)
    (h : ∀ prog ∈ pl.progs, ∀ word ∈ prog, word.piece ≠ .quoted [pipe])
    (hint : lead.1.length < 2 ^ 31) :
    progsOf (lead.1 ++ (pl.render ++ trail.1)) after = some pl.texts := by
  have hback : ParsesBack pl (pl.line lead trail after) := parsesBack_of_no_pipe h hint
  obtain ⟨st, hst, -, hread⟩ := hback
  rw [Pipeline.line] at hst
  rw [progsOf, hst, Option.bind_some, hread]

/-- The line of one bare letter. -/
def letter (b : UInt8) (hword : (Piece.bare [b]).IsWord) : Pipeline where
  progs := [[⟨.bare [b], hword⟩]]
  one_le_progs := Nat.zero_lt_one
  progs_le := (by decide : 1 ≤ maxProgsPiped)
  one_le_args := List.forall_mem_singleton.mpr le_rfl
  args_le := List.forall_mem_singleton.mpr (by decide : 1 ≤ maxArgs + 1)

theorem progsOf_letter {b : UInt8} (hword : (Piece.bare [b]).IsWord) (after : ℕ → UInt8) :
    progsOf [b, newline] after = some [[[b]]] :=
  progsOf_render (letter b hword) ⟨[], List.forall_mem_nil _⟩
    ⟨[newline], List.forall_mem_singleton.mpr (by decide)⟩ after
    (List.forall_mem_singleton.mpr (List.forall_mem_singleton.mpr Piece.noConfusion))
    (by decide)

theorem isWord_b : (Piece.bare [98]).IsWord :=
  ⟨by decide, List.forall_mem_singleton.mpr (by decide), by decide, by decide⟩

/-- The lines `a` and `b`, where no program `a` exists. -/
def noProgramA : Script where
  text := [97, newline, 98, newline]
  block := 4096
  after _ _ := nul
  execFails _ _ args := args = [[97]]
  block_pos := by decide
  within := by
    have hlines : lines [97, newline, 98, newline] = [[97, newline], [98, newline]] := by decide
    rw [hlines]
    refine List.forall_mem_cons.mpr ⟨fun n => ?_, List.forall_mem_singleton.mpr fun n => ?_⟩
    · rw [progsOf_letter wordA.isWord]
      rfl
    · rw [progsOf_letter isWord_b]
      rfl

end Batch
end OpSys
