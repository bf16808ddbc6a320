import OpSys.Batch.Live.Reach
import OpSys.Lib.Chain

/-!
# What a line with pipes delivers

Every program of a line reads what the one before it has written, in any interleaving with
the parent and with the children that are still being set up, and the line never blocks by
itself: if no process can go on, all programs have ended and the parent has waited for them,
or a program waits for a file that was open before the line.

## Main definitions

* `Delivered` — what holds of the pipes, the programs and the parent.
* `Finished` — the parent goes on to the next line.
* `WaitsToRead`, `WaitsToWrite`, `WaitsOutside` — why a program cannot go on.

## Main results

* `LiveLine.delivered` — it holds in every run.
* `callStep_eq_none` — a program that cannot go on waits.
* `LiveLine.never_blocks` — some process can go on until the line is finished, or waits for
  somebody outside.

## References

`lab4_signals_and_pipes/batch_job_interpreter_pipes/cmd_interpreter_extd.c`.
-/

namespace OpSys
namespace Batch
namespace LiveLine

variable {α ω : Type*} (L : LiveLine α ω)

/-- The answers that the program number `i` has got. -/
def logAt (s : Global (Kernel L.totalProgs ω) (Local L.totalProgs)) (i : Fin L.totalProgs) :
    List Answer :=
  (s.loc (.child i)).log

/-- What holds of the pipes, the programs and the parent. -/
structure Delivered (s : Global (Kernel L.totalProgs ω) (Local L.totalProgs)) : Prop where
  /-- What a program has read, and what is still in the pipe, is what the one before it has
  written. -/
  flow : ∀ i j : Fin L.totalProgs, j.val = i.val + 1 →
    L.sentOf i (L.logAt s i) = L.receivedOf j (L.logAt s j) ++ s.mem.pipe i
  room : ∀ k, (s.mem.pipe k).length ≤ L.capacity
  /-- A program that has read the end of its pipe has read all that the one before it has
  written, and that one will not write to it any more. -/
  eof : ∀ i j : Fin L.totalProgs, j.val = i.val + 1 → L.eofOf j (L.logAt s j) = true →
    L.receivedOf j (L.logAt s j) = L.sentOf i (L.logAt s i) ∧ L.Shut i (s.loc (.child i))
  /-- A program is killed only when the one behind it will not read any more. -/
  killed : ∀ i log, s.loc (.child i) = .killed log →
    ∃ j : Fin L.totalProgs, j.val = i.val + 1 ∧ L.Deaf j (s.loc (.child j))
  /-- A program has the descriptors that `execvp` left it, but for its own calls. -/
  table : ∀ i log, s.loc (.child i) = .run log → s.mem.table i = L.tableOf i log
  /-- The parent goes on only when all programs have ended. -/
  waited : s.loc .main = .nextLine → ∀ i, hasEnded (s.loc (.child i)) = true

/-- The parent goes on to the next line, and all programs have ended. -/
def Finished (s : Global (Kernel L.totalProgs ω) (Local L.totalProgs)) : Prop :=
  s.loc .main = .nextLine ∧ ∀ i, hasEnded (s.loc (.child i)) = true

variable {L} {s : Global (Kernel L.totalProgs ω) (Local L.totalProgs)}

theorem LiveInv.table_run (h : L.LiveInv s) {i : Fin L.totalProgs} {log : List Answer}
    (hpc : s.loc (.child i) = .run log) : s.mem.table i = L.tableOf i log := by
  have hchild := h.child i
  rw [hpc] at hchild
  have hforked : i < s.mem.forked := by
    by_contra hge
    exact absurd (hchild.unforked (Nat.not_lt.mp hge)) ChildPc.noConfusion
  have htable := hchild.table
  rwa [if_pos hforked] at htable

theorem LiveInv.table_over (h : L.LiveInv s) {i : Fin L.totalProgs}
    (hended : hasEnded (s.loc (.child i)) = true) : s.mem.table i = .empty := by
  have htable := (h.child i).table
  cases hpc : s.loc (.child i) with
  | dupOut | dupIn | close j | run log =>
    rw [hpc] at hended
    exact absurd hended Bool.false_ne_true
  | exited log status | killed log =>
    rw [hpc] at htable
    rw [htable]
    exact ite_self _

/-- All children have ended iff as many have as there are. -/
theorem LiveInv.endedCount_iff (h : L.LiveInv s) :
    s.mem.endedCount = L.totalProgs ↔ ∀ i, hasEnded (s.loc (.child i)) = true := by
  have hall : s.mem.endedCount = (List.finRange L.totalProgs).length ↔ _ :=
    List.countP_eq_length
  rw [List.length_finRange] at hall
  rw [hall]
  refine ⟨fun hended i => ?_, fun hended i _ => ?_⟩
  · rw [← (h.child i).ended]
    exact hended i (List.mem_finRange i)
  · rw [(h.child i).ended]
    exact hended i

theorem endedCount_le (mem : Kernel L.totalProgs ω) : mem.endedCount ≤ L.totalProgs := by
  have hle := List.countP_le_length (p := mem.ended) (l := List.finRange L.totalProgs)
  rwa [List.length_finRange] at hle

theorem delivered_of_reach (h : L.program.Reach L.start s) : L.Delivered s := by
  have hinv := liveInv_of_reach h
  refine
    { flow := fun i j hj => ?_
      room := hinv.room
      eof := fun i j hj heof => ?_
      killed := fun i log hpc => ?_
      table := fun i log hpc => hinv.table_run hpc
      waited := fun hended => ?_ }
  · have hflow := (hinv.between i j hj).flow
    rwa [← hj] at hflow
  · have hbetween := hinv.between i j hj
    rw [hj] at heof ⊢
    -- at the end of the file the pipe is empty, so what was read is all that was written
    obtain ⟨hempty, hshut⟩ := hbetween.eof heof
    have hflow := hbetween.flow
    rw [hempty, List.append_nil] at hflow
    exact ⟨hflow.symm, hshut⟩
  · have hlt : i.val + 1 < L.totalProgs := (hinv.child i).killed log hpc
    refine ⟨⟨i + 1, hlt⟩, rfl, ?_⟩
    exact (hinv.between i ⟨i + 1, hlt⟩ rfl).killed log hpc
  · have hparent := hinv.parent
    rw [hended] at hparent
    have hle := hinv.reaped
    rw [hparent.2] at hle
    exact hinv.endedCount_iff.mp (le_antisymm (endedCount_le _) hle)

/-- **Each program reads what the one before it has written**, in every run of the processes
of a line: nothing is lost, doubled, reordered or mixed in, the end is read only behind the
last byte, and the parent goes on only when all programs have ended. -/
theorem delivered (L : LiveLine α ω) (sched : List (Who L.totalProgs)) :
    L.Delivered (L.program.run sched L.start) :=
  delivered_of_reach (L.program.reach_run sched _)

/-- A run of `echo h | cat`: both are forked and set up, the byte is written and read. -/
def echoCatRun : List (Who echoCat.totalProgs) :=
  .replicate 3 .main ++ .replicate 8 (.child ⟨0, Nat.two_pos⟩) ++
    .replicate 8 (.child ⟨1, Nat.one_lt_two⟩)

theorem delivered_echoCat :
    echoCat.Delivered (echoCat.program.run echoCatRun echoCat.start) ∧
      echoCat.receivedOf 1 (echoCat.logAt (echoCat.program.run echoCatRun echoCat.start)
        ⟨1, Nat.one_lt_two⟩) = [104] :=
  ⟨delivered echoCat echoCatRun, by decide +kernel⟩

/-! ### Somebody can go on -/

/-- The program `i` reads from an empty pipe that somebody may still write to. -/
def WaitsToRead (mem : Kernel L.totalProgs ω) (i : Fin L.totalProgs) : Prop :=
  ∃ fd k, mem.table i fd = some (.readEnd k) ∧ mem.pipe k = [] ∧ mem.has (isWriteEnd k) = true

/-- The program `i` writes to a full pipe that somebody may still read from. -/
def WaitsToWrite (mem : Kernel L.totalProgs ω) (i : Fin L.totalProgs) : Prop :=
  ∃ fd k, mem.table i fd = some (.writeEnd k) ∧ mem.pipe k ≠ [] ∧ mem.has (isReadEnd k) = true

/-- The program `i` waits for a file that was open before. -/
def WaitsOutside (s : Global (Kernel L.totalProgs ω) (Local L.totalProgs))
    (i : Fin L.totalProgs) : Prop :=
  ∃ log fd file, s.loc (.child i) = .run log ∧ s.mem.table i fd = some (.old file) ∧
    ((∃ n, L.call i log = .read fd n) ∨ ∃ b, L.call i log = .write fd b) ∧
    L.outside i log = none

/-- A program that cannot go on waits for a neighbour, or for a file that was open before. -/
theorem callStep_eq_none {i : Fin L.totalProgs} {log : List Answer}
    (hpc : s.loc (.child i) = .run log) (h : L.callStep i s.mem log = none) :
    WaitsToRead s.mem i ∨ WaitsToWrite s.mem i ∨ WaitsOutside s i := by
  unfold callStep at h
  -- a call waits at an empty pipe that has a writer, at a full one, or outside
  cases hcall : L.call i log with
  | read fd n =>
    simp only [hcall] at h
    split at h
    · rename_i k hfd
      split at h
      · rename_i hempty
        split at h
        · rename_i hhas
          exact Or.inl ⟨fd, k, hfd, hempty, hhas⟩
        · exact absurd h (Option.some_ne_none _)
      · exact absurd h (Option.some_ne_none _)
    · rename_i file hfd
      have houtside := Option.map_eq_none_iff.mp h
      exact Or.inr (Or.inr ⟨log, fd, file, hpc, hfd, Or.inl ⟨n, hcall⟩, houtside⟩)
    · exact absurd h (Option.some_ne_none _)
  | write fd b =>
    simp only [hcall] at h
    split at h
    · rename_i k hfd
      split at h
      · rename_i hhas
        split at h
        · exact absurd h (Option.some_ne_none _)
        · rename_i hfull
          refine Or.inr (Or.inl ⟨fd, k, hfd, fun hnil => hfull ?_, hhas⟩)
          rw [hnil]
          exact L.capacity_pos
      · exact absurd h (Option.some_ne_none _)
    · rename_i file hfd
      have houtside := Option.map_eq_none_iff.mp h
      exact Or.inr (Or.inr ⟨log, fd, file, hpc, hfd, Or.inr ⟨b, hcall⟩, houtside⟩)
    · exact absurd h (Option.some_ne_none _)
  | close fd =>
    simp only [hcall] at h
    split at h <;> exact absurd h (Option.some_ne_none _)
  | dup2 oldfd newfd =>
    simp only [hcall] at h
    split at h
    · split at h <;> exact absurd h (Option.some_ne_none _)
    · exact absurd h (Option.some_ne_none _)
  | exit status =>
    simp only [hcall] at h
    exact absurd h (Option.some_ne_none _)

/-- A child that has been forked can go on to `execvp`. -/
theorem childStep_setup_ne_none {mem : Kernel L.totalProgs ω} {i : Fin L.totalProgs}
    {pc : ChildPc} (hforked : i < mem.forked) (hpc : launched pc = false) :
    L.childStep i mem pc ≠ none := by
  cases pc with
  | dupOut =>
    simp only [childStep, if_pos hforked]
    split
    · split <;> exact Option.some_ne_none _
    · exact Option.some_ne_none _
  | dupIn =>
    simp only [childStep]
    split
    · split <;> exact Option.some_ne_none _
    · exact Option.some_ne_none _
  | close j =>
    simp only [childStep]
    split <;> exact Option.some_ne_none _
  | run log => exact absurd hpc Bool.noConfusion
  | exited log status => exact absurd hpc Bool.noConfusion
  | killed log => exact absurd hpc Bool.noConfusion

/-- The parent cannot go on only at the end, or while it waits; it has closed its ends then. -/
theorem LiveInv.parent_stuck (h : L.LiveInv s) (hstuck : L.mainStep s.mem (s.loc .main) = none) :
    s.loc .main = .nextLine ∨ s.mem.forked = L.totalProgs ∧ s.mem.endedCount < L.totalProgs ∧
      ∀ fd k, s.mem.main fd ≠ some (.readEnd k) ∧ s.mem.main fd ≠ some (.writeEnd k) := by
  have hparent := h.parent
  cases hpc : s.loc .main with
  | fork currp =>
    rw [hpc] at hstuck
    simp only [mainStep] at hstuck
    split at hstuck <;> exact absurd hstuck (Option.some_ne_none _)
  | close i =>
    rw [hpc] at hstuck
    simp only [mainStep] at hstuck
    split at hstuck <;> exact absurd hstuck (Option.some_ne_none _)
  | wait i =>
    rw [hpc] at hstuck hparent
    obtain ⟨hmain, hforked, hreaped, -⟩ := hparent
    simp only [mainStep] at hstuck
    -- the parent waits only after it has closed both ends of every pipe
    split at hstuck
    · rename_i hlt
      split at hstuck
      · exact absurd hstuck (Option.some_ne_none _)
      · rename_i hnone
        refine Or.inr ⟨hforked, by omega, fun fd k => ?_⟩
        rw [hmain]
        exact L.closeAll_ne L.before fd k
    · exact absurd hstuck (Option.some_ne_none _)
  | nextLine => exact Or.inl rfl

/-- A child that cannot go on waits in its program, or has ended. -/
theorem waits_or_over (hforked : s.mem.forked = L.totalProgs) {i : Fin L.totalProgs}
    (hstuck : L.childStep i s.mem (s.loc (.child i)) = none) :
    (∃ log, s.loc (.child i) = .run log ∧
        (WaitsToRead s.mem i ∨ WaitsToWrite s.mem i ∨ WaitsOutside s i)) ∨
      hasEnded (s.loc (.child i)) = true := by
  cases hpc : s.loc (.child i) with
  | dupOut | dupIn | close j =>
    rw [hpc] at hstuck
    exact absurd hstuck (childStep_setup_ne_none (by rw [hforked]; exact i.2) rfl)
  | run log =>
    rw [hpc] at hstuck
    exact Or.inl ⟨log, rfl, callStep_eq_none hpc hstuck⟩
  | exited log status => exact Or.inr rfl
  | killed log => exact Or.inr rfl

/-- The program `i` runs. -/
def Runs (s : Global (Kernel L.totalProgs ω) (Local L.totalProgs)) (i : Fin L.totalProgs) : Prop :=
  ∃ log, s.loc (.child i) = .run log

/-- Only running programs have an end of a pipe. -/
structure OnlyPrograms (s : Global (Kernel L.totalProgs ω) (Local L.totalProgs)) : Prop where
  main : ∀ fd k, s.mem.main fd ≠ some (.readEnd k) ∧ s.mem.main fd ≠ some (.writeEnd k)
  child : ∀ i, Runs s i ∨ hasEnded (s.loc (.child i)) = true

section Neighbours

variable {i : Fin L.totalProgs}

/-- Whoever may write to the pipe that a program reads from is the program before it. -/
theorem OnlyPrograms.left (ho : OnlyPrograms s) (h : L.LiveInv s) (hruns : Runs s i)
    (hwaits : WaitsToRead s.mem i) : ∃ j : Fin L.totalProgs, i.val = j.val + 1 ∧ Runs s j := by
  obtain ⟨log, hpc⟩ := hruns
  obtain ⟨fd, k, hfd, -, hhas⟩ := hwaits
  rw [h.table_run hpc] at hfd
  have hk := ((L.ownEnds_tableOf i log).read fd k hfd).2
  rcases Kernel.exists_of_has hhas with ⟨fd', file, hfd', hp⟩ | ⟨j, fd', file, hfd', hp⟩
  · rw [isWriteEnd_iff.mp hp] at hfd'
    exact absurd hfd' (ho.main fd' k).2
  · rw [isWriteEnd_iff.mp hp] at hfd'
    rcases ho.child j with ⟨log', hpc'⟩ | hended
    · rw [h.table_run hpc'] at hfd'
      obtain ⟨-, rfl, -⟩ := (L.ownEnds_tableOf j log').write fd' k hfd'
      exact ⟨j, hk, log', hpc'⟩
    · rw [h.table_over hended] at hfd'
      exact absurd hfd' (Option.some_ne_none _).symm

/-- Whoever may read from the pipe that a program writes to is the program behind it, and that
one does not wait for it. -/
theorem OnlyPrograms.right (ho : OnlyPrograms s) (h : L.LiveInv s) (hruns : Runs s i)
    (hwaits : WaitsToWrite s.mem i) :
    ∃ j : Fin L.totalProgs, j.val = i.val + 1 ∧ Runs s j ∧ ¬WaitsToRead s.mem j := by
  obtain ⟨log, hpc⟩ := hruns
  obtain ⟨fd, k, hfd, hne, hhas⟩ := hwaits
  rw [h.table_run hpc] at hfd
  obtain ⟨-, rfl, -⟩ := (L.ownEnds_tableOf i log).write fd k hfd
  rcases Kernel.exists_of_has hhas with ⟨fd', file, hfd', hp⟩ | ⟨j, fd', file, hfd', hp⟩
  · rw [isReadEnd_iff.mp hp] at hfd'
    exact absurd hfd' (ho.main fd' i).1
  · rw [isReadEnd_iff.mp hp] at hfd'
    rcases ho.child j with ⟨log', hpc'⟩ | hended
    · rw [h.table_run hpc'] at hfd'
      have hj := ((L.ownEnds_tableOf j log').read fd' i hfd').2
      refine ⟨j, hj, ⟨log', hpc'⟩, ?_⟩
      rintro ⟨fd'', k, hfd'', hempty, -⟩
      rw [h.table_run hpc'] at hfd''
      obtain rfl : k = i.val := by
        have := ((L.ownEnds_tableOf j log').read fd'' k hfd'').2
        omega
      exact hne hempty
    · rw [h.table_over hended] at hfd'
      exact absurd hfd' (Option.some_ne_none _).symm

end Neighbours

/-- If every running program waits, none is running. -/
theorem OnlyPrograms.not_runs (ho : OnlyPrograms s) (h : L.LiveInv s)
    (hwaits : ∀ i, Runs s i → WaitsToRead s.mem i ∨ WaitsToWrite s.mem i) (i : Fin L.totalProgs) :
    ¬Runs s i := by
  have hrow := Chain.forall_not_live L.totalProgs (fun n => ∃ i, i.val = n ∧ Runs s i)
    (fun n => ∃ i, i.val = n ∧ Runs s i ∧ WaitsToRead s.mem i)
    (fun n => ∃ i, i.val = n ∧ Runs s i ∧ WaitsToWrite s.mem i) ?_ ?_ ?_ i i.2
  · exact fun hruns => hrow ⟨i, rfl, hruns⟩
  · rintro n - ⟨i, hi, hruns⟩
    exact (hwaits i hruns).imp (fun hw => ⟨i, hi, hruns, hw⟩) fun hw => ⟨i, hi, hruns, hw⟩
  · rintro n - ⟨i, rfl, hruns, hw⟩
    obtain ⟨j, hj, hruns'⟩ := ho.left h hruns hw
    exact ⟨by omega, j, by omega, hruns'⟩
  · rintro n - ⟨i, rfl, hruns, hw⟩
    obtain ⟨j, hj, hruns', hnot⟩ := ho.right h hruns hw
    refine ⟨hj ▸ j.2, ⟨j, hj, hruns'⟩, ?_⟩
    rintro ⟨j', hj', -, hw'⟩
    obtain rfl : j' = j := Fin.ext (hj'.trans hj.symm)
    exact hnot hw'

/-- If nobody can go on the line is finished, or a program waits for a file that was open
before. -/
theorem LiveInv.finished_of_stuck (h : L.LiveInv s) (hstuck : ∀ t, L.program.next t s = none) :
    L.Finished s ∨ ∃ i, WaitsOutside s i := by
  have hparent : L.mainStep s.mem (s.loc .main) = none := Option.map_eq_none_iff.mp (hstuck .main)
  have hchild : ∀ i, L.childStep i s.mem (s.loc (.child i)) = none := fun i =>
    Option.map_eq_none_iff.mp (hstuck (.child i))
  by_cases houtside : ∃ i, WaitsOutside s i
  · exact Or.inr houtside
  rcases h.parent_stuck hparent with hended | ⟨hforked, hlt, hmain⟩
  · have hp := h.parent
    rw [hended] at hp
    have hle := h.reaped
    rw [hp.2] at hle
    exact Or.inl ⟨hended, h.endedCount_iff.mp (le_antisymm (endedCount_le _) hle)⟩
  · -- the parent waits for a program that runs, but a row of programs does not block
    have hall := fun i => waits_or_over hforked (hchild i)
    have ho : OnlyPrograms s :=
      ⟨hmain, fun i => (hall i).imp_left fun ⟨log, hpc, _⟩ => ⟨log, hpc⟩⟩
    have hnone := ho.not_runs h fun i hruns => by
      rcases hall i with ⟨log, -, hread | hwrite | hout⟩ | hended
      · exact Or.inl hread
      · exact Or.inr hwrite
      · exact absurd ⟨i, hout⟩ houtside
      · obtain ⟨log, hpc⟩ := hruns
        rw [hpc] at hended
        exact absurd hended Bool.false_ne_true
    have hended := h.endedCount_iff.mpr fun i => (ho.child i).resolve_left (hnone i)
    exact absurd hended hlt.ne

/-- **A line never blocks by itself**: in every run some process can go on, or all programs
have ended and the parent goes on to the next line, or a program waits for a file that was open
before. -/
theorem never_blocks (L : LiveLine α ω) (sched : List (Who L.totalProgs)) :
    (∃ t, L.program.next t (L.program.run sched L.start) ≠ none) ∨
      L.Finished (L.program.run sched L.start) ∨
      ∃ i, WaitsOutside (L.program.run sched L.start) i := by
  by_cases hmove : ∃ t, L.program.next t (L.program.run sched L.start) ≠ none
  · exact Or.inl hmove
  · refine Or.inr ((liveInv_of_reach (L.program.reach_run sched _)).finished_of_stuck fun t => ?_)
    by_contra hne
    exact hmove ⟨t, hne⟩

/-- The files of the interpreter do not keep `echo h | cat` waiting. -/
theorem never_blocks_echoCat :
    (∃ t, echoCat.program.next t (echoCat.program.run echoCatRun echoCat.start) ≠ none) ∨
      echoCat.Finished (echoCat.program.run echoCatRun echoCat.start) := by
  refine (never_blocks echoCat echoCatRun).imp_right fun hrest => hrest.resolve_right ?_
  rintro ⟨i, log, fd, file, -, -, -, houtside⟩
  exact absurd houtside (Option.some_ne_none _)

end LiveLine
end Batch
end OpSys
