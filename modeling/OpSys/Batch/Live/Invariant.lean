import OpSys.Batch.Live.Effects

/-!
# The invariant of a running line

Where a process is tells its table: the parent's as long as it forks, what `childSetup`
has made of it up to `execvp`, and what the program has made of it since.  Between two
neighbours the bytes that were sent are those received and those in the pipe, and a
program reads the end of its pipe, or is killed, only when its neighbour has no end left.

## Main definitions

* `setupTable` — the table of a child that has been forked.
* `ParentKnows`, `ChildKnows` — what holds where the parent or a child is.
* `Shut`, `Deaf` — a program that cannot write to, or read from, its pipe any more.
* `Between` — what holds between two neighbours.
* `LiveInv` — all of it.

## Main results

* `Between.writer`, `Between.reader` — a call of one of two neighbours.
* `LiveInv.shut`, `LiveInv.deaf` — what an end that nobody has says of a neighbour.

## References

`lab4_signals_and_pipes/batch_job_interpreter_pipes/cmd_interpreter_extd.c`.
-/

namespace OpSys
namespace Batch
namespace LiveLine

variable {α ω : Type*} (L : LiveLine α ω)

/-! ### Where a child is -/

/-- The table after the first `dup2` of the child number `i`. -/
def outTable (i : ℕ) : Table ω :=
  if i + 1 < L.totalProgs then
    Function.update (L.opened L.before) stdoutFileno (some (.writeEnd i))
  else L.opened L.before

/-- The table after both. -/
def inTable (i : ℕ) : Table ω :=
  if 0 < i then Function.update (L.outTable i) stdinFileno (some (.readEnd (i - 1)))
  else L.outTable i

/-- The table of the child number `i` once it has been forked. -/
def setupTable (i : ℕ) : ChildPc → Table ω
  | .dupOut => L.opened L.before
  | .dupIn => L.outTable i
  | .close j => closeAll L.fds j (L.inTable i)
  | .run log => L.tableOf i log
  | _ => .empty

/-- The child has reached `execvp`. -/
def launched : ChildPc → Bool
  | .run _ => true
  | .exited _ _ => true
  | .killed _ => true
  | _ => false

/-- The child has ended. -/
def hasEnded : ChildPc → Bool
  | .exited _ _ => true
  | .killed _ => true
  | _ => false

/-- What holds where the parent is. -/
def ParentKnows (mem : Kernel L.totalProgs ω) : MainPc → Prop
  | .fork currp => mem.main = L.opened L.before ∧ mem.forked = currp ∧ currp ≤ L.totalProgs ∧
      mem.reaped = 0
  | .close i => mem.main = closeAll L.fds i (L.opened L.before) ∧ mem.forked = L.totalProgs ∧
      mem.reaped = 0 ∧ i ≤ 2 * L.totalProgs
  | .wait i => mem.main = closeAll L.fds (2 * L.totalProgs) (L.opened L.before) ∧
      mem.forked = L.totalProgs ∧ mem.reaped = i ∧ i ≤ L.totalProgs
  | .nextLine => mem.forked = L.totalProgs ∧ mem.reaped = L.totalProgs

/-- What holds where the child number `i` is. -/
structure ChildKnows (i : Fin L.totalProgs) (mem : Kernel L.totalProgs ω) (pc : ChildPc) :
    Prop where
  table : mem.table i = if i < mem.forked then L.setupTable i pc else .empty
  unforked : mem.forked ≤ i → pc = .dupOut
  ended : mem.ended i = hasEnded pc
  close : ∀ j, pc = .close j → j ≤ 2 * L.totalProgs
  exited : ∀ log status, pc = .exited log status → L.call i log = .exit status
  killed : ∀ log, pc = .killed log → i + 1 < L.totalProgs

/-! ### Two neighbours -/

/-- The program number `i` will not write to its pipe any more, and was not killed. -/
def Shut (i : ℕ) (pc : ChildPc) : Prop :=
  (∃ log, pc = .run log ∧ ∀ fd k, L.tableOf i log fd ≠ some (.writeEnd k)) ∨
    ∃ log status, pc = .exited log status

/-- The program number `i` will not read from its pipe any more. -/
def Deaf (i : ℕ) (pc : ChildPc) : Prop :=
  (∃ log, pc = .run log ∧ ∀ fd k, L.tableOf i log fd ≠ some (.readEnd k)) ∨ hasEnded pc = true

/-- What holds between the program number `i` at `pc`, the pipe with the contents `bs` and
the next program at `next`. -/
structure Between (i : ℕ) (bs : List UInt8) (pc next : ChildPc) : Prop where
  flow : L.sentOf i pc.log = L.receivedOf (i + 1) next.log ++ bs
  eof : L.eofOf (i + 1) next.log = true → bs = [] ∧ L.Shut i pc
  killed : ∀ log, pc = .killed log → L.Deaf (i + 1) next

/-- The invariant. -/
structure LiveInv (s : Global (Kernel L.totalProgs ω) (Local L.totalProgs)) : Prop where
  parent : L.ParentKnows s.mem (s.loc .main)
  child : ∀ i, L.ChildKnows i s.mem (s.loc (.child i))
  reaped : s.mem.reaped ≤ s.mem.endedCount
  between : ∀ i j : Fin L.totalProgs, j.val = i.val + 1 →
    L.Between i (s.mem.pipe i) (s.loc (.child i)) (s.loc (.child j))
  room : ∀ k, (s.mem.pipe k).length ≤ L.capacity

/-! ### Calls and logs -/

variable {L} {i : ℕ} {log : List Answer} {table : Table ω} {pc pc' next : ChildPc}
  {bs : List UInt8}

@[simp] theorem tableOf_cons (L : LiveLine α ω) (i : ℕ) (a : Answer) (log : List Answer) :
    L.tableOf i (a :: log) = tableBy (L.call i log) a (L.tableOf i log) := rfl

@[simp] theorem sentOf_cons (L : LiveLine α ω) (i : ℕ) (a : Answer) (log : List Answer) :
    L.sentOf i (a :: log) = L.sentOf i log ++ sentBy (L.call i log) a (L.tableOf i log) := rfl

@[simp] theorem receivedOf_cons (L : LiveLine α ω) (i : ℕ) (a : Answer) (log : List Answer) :
    L.receivedOf i (a :: log) =
      L.receivedOf i log ++ receivedBy (L.call i log) a (L.tableOf i log) := rfl

@[simp] theorem eofOf_cons (L : LiveLine α ω) (i : ℕ) (a : Answer) (log : List Answer) :
    L.eofOf i (a :: log) = (L.eofOf i log || eofBy (L.call i log) a (L.tableOf i log)) := rfl

/-- A program that has lost an end does not get it back. -/
theorem tableBy_ne {c : Call} {a : Answer} {file : OpenFile ω}
    (h : ∀ fd, table fd ≠ some file) (fd : ℕ) : tableBy c a table fd ≠ some file := by
  intro hfd
  rcases tableBy_eq_some hfd with hold | ⟨-, fd', hold⟩
  · exact h fd hold
  · exact h fd' hold

theorem Shut.run_cons (h : L.Shut i (.run log)) (a : Answer) : L.Shut i (.run (a :: log)) := by
  rcases h with ⟨log', heq, hno⟩ | ⟨log', status, heq⟩
  · obtain rfl := ChildPc.run.inj heq
    exact Or.inl ⟨_, rfl, fun fd k => tableBy_ne (fun fd => hno fd k) fd⟩
  · exact absurd heq ChildPc.noConfusion

theorem Deaf.run_cons (h : L.Deaf i (.run log)) (a : Answer) : L.Deaf i (.run (a :: log)) := by
  rcases h with ⟨log', heq, hno⟩ | hended
  · obtain rfl := ChildPc.run.inj heq
    exact Or.inl ⟨_, rfl, fun fd k => tableBy_ne (fun fd => hno fd k) fd⟩
  · exact absurd hended Bool.false_ne_true

theorem Shut.not_has (h : L.Shut i (.run log)) {fd k : ℕ} :
    L.tableOf i log fd ≠ some (.writeEnd k) := by
  rcases h with ⟨log', heq, hno⟩ | ⟨log', status, heq⟩
  · obtain rfl := ChildPc.run.inj heq
    exact hno fd k
  · exact absurd heq ChildPc.noConfusion

theorem Deaf.not_has (h : L.Deaf i (.run log)) {fd k : ℕ} :
    L.tableOf i log fd ≠ some (.readEnd k) := by
  rcases h with ⟨log', heq, hno⟩ | hended
  · obtain rfl := ChildPc.run.inj heq
    exact hno fd k
  · exact absurd hended Bool.false_ne_true

/-! ### A call of a neighbour -/

section Neighbours

variable {t : Fin L.totalProgs} {mem mem' : Kernel L.totalProgs ω}

/-- A call of the program that writes to the pipe.  If it is killed, the next one is deaf. -/
theorem Between.writer (h : L.Between t (mem.pipe t) (.run log) next)
    (htable : mem.table t = L.tableOf t log) (heffect : L.Effect t mem log mem' pc')
    (hdeaf : mem.has (isReadEnd t) = false → L.Deaf (t + 1) next) :
    L.Between t (mem'.pipe t) pc' next := by
  have hown := L.ownEnds_tableOf t log
  -- a program with a write end is not shut, so no end has been read
  have hopen : ∀ {fd k}, mem.table t fd = some (.writeEnd k) → L.eofOf (t + 1) next.log ≠ true := by
    intro fd k hfd heof
    exact (h.eof heof).2.not_has (htable ▸ hfd)
  cases heffect with
  | take hcall hfd hne =>
    rw [htable] at hfd
    have hk := (hown.read _ _ hfd).2
    refine ⟨?_, fun heof => ?_, fun _ heq => absurd heq ChildPc.noConfusion⟩
    · rw [Kernel.setPipe_pipe_of_ne _ _ _ (by omega), ← h.flow]
      simp [ChildPc.log, sentOf_cons, hcall, sentBy]
    · rw [Kernel.setPipe_pipe_of_ne _ _ _ (by omega)]
      exact (h.eof heof).imp_right fun hshut => hshut.run_cons _
  | eof hcall hfd hempty hno =>
    refine ⟨?_, fun heof => (h.eof heof).imp_right fun hshut => hshut.run_cons _,
      fun _ heq => absurd heq ChildPc.noConfusion⟩
    rw [← h.flow]
    simp [ChildPc.log, sentOf_cons, hcall, sentBy]
  | put hcall hfd hroom =>
    refine ⟨?_, fun heof => absurd heof (hopen hfd), fun _ heq => absurd heq ChildPc.noConfusion⟩
    rw [htable] at hfd
    obtain rfl := (hown.write _ _ hfd).2.1
    have hflow := h.flow
    simp only [ChildPc.log] at hflow
    simp [ChildPc.log, sentOf_cons, hcall, sentBy, hfd, hflow]
  | kill hcall hfd hno =>
    refine ⟨h.flow, fun heof => absurd heof (hopen hfd), fun _ _ => ?_⟩
    rw [htable] at hfd
    obtain rfl := (hown.write _ _ hfd).2.1
    exact hdeaf hno
  | plain hanswer =>
    rw [htable] at hanswer
    refine ⟨?_, fun heof => (h.eof heof).imp_right fun hshut => hshut.run_cons _,
      fun _ heq => absurd heq ChildPc.noConfusion⟩
    simp only [ChildPc.log, sentOf_cons, (plainAnswer_quiet hanswer).1, List.append_nil]
    exact h.flow
  | exit hcall =>
    exact ⟨h.flow, fun heof => ⟨(h.eof heof).1, Or.inr ⟨_, _, rfl⟩⟩,
      fun _ heq => absurd heq ChildPc.noConfusion⟩

/-- A call of the program that reads from the pipe.  If it reads the end, the one before it is
shut. -/
theorem Between.reader {i : ℕ} (hi : t.val = i + 1)
    (h : L.Between i (mem.pipe i) pc (.run log)) (htable : mem.table t = L.tableOf t log)
    (heffect : L.Effect t mem log mem' pc')
    (hshut : mem.has (isWriteEnd i) = false → (∀ log, pc ≠ .killed log) → L.Shut i pc) :
    L.Between i (mem'.pipe i) pc pc' := by
  have hown := L.ownEnds_tableOf t log
  -- a program with a read end is not deaf, so the one before it has not been killed
  have hopen : ∀ {fd k}, mem.table t fd = some (.readEnd k) → ∀ log, pc ≠ .killed log := by
    intro fd k hfd log' heq
    rw [htable] at hfd
    exact (h.killed log' heq).not_has (hi ▸ hfd)
  rw [hi] at hown
  cases heffect with
  | take hcall hfd hne =>
    have hkilled := hopen hfd
    rw [htable, hi] at hfd
    rw [hi] at hcall
    obtain rfl := Nat.succ.inj (hown.read _ _ hfd).2
    refine ⟨?_, fun heof => ?_, fun _ heq => absurd heq (hkilled _)⟩
    · have hflow := h.flow
      simp only [ChildPc.log] at hflow
      simp [ChildPc.log, receivedOf_cons, hcall, receivedBy, hfd, hflow, List.take_append_drop]
    · -- bytes are not the end of the pipe
      obtain ⟨b, bs, hbs⟩ := List.exists_cons_of_ne_nil hne
      simp only [ChildPc.log, eofOf_cons, hcall, eofBy, hbs, List.take_succ_cons,
        Bool.or_false] at heof
      exact absurd (h.eof heof).1 hne
  | eof hcall hfd hempty hno =>
    have hkilled := hopen hfd
    rw [htable, hi] at hfd
    rw [hi] at hcall
    obtain rfl := Nat.succ.inj (hown.read _ _ hfd).2
    refine ⟨?_, fun _ => ⟨hempty, hshut hno hkilled⟩, fun _ heq => absurd heq (hkilled _)⟩
    rw [h.flow]
    simp [ChildPc.log, receivedOf_cons, hcall, receivedBy, hfd]
  | put hcall hfd hroom =>
    rw [htable, hi] at hfd
    rw [hi] at hcall
    obtain rfl := (hown.write _ _ hfd).2.1
    rw [Kernel.setPipe_pipe_of_ne _ _ _ (by omega)]
    refine ⟨?_, fun heof => ?_, fun _ heq => (h.killed _ heq).run_cons _⟩
    · rw [h.flow]
      simp [ChildPc.log, receivedOf_cons, hcall, receivedBy]
    · simp only [ChildPc.log, eofOf_cons, hcall, eofBy, Bool.or_false] at heof
      exact h.eof heof
  | kill hcall hfd hno => exact ⟨h.flow, h.eof, fun _ _ => Or.inr rfl⟩
  | plain hanswer =>
    rw [htable, hi] at hanswer
    obtain ⟨-, hreceived, heofBy⟩ := plainAnswer_quiet hanswer
    refine ⟨?_, fun heof => ?_, fun _ heq => (h.killed _ heq).run_cons _⟩
    · simp only [ChildPc.log, receivedOf_cons, hreceived, List.append_nil]
      exact h.flow
    · simp only [ChildPc.log, eofOf_cons, heofBy, Bool.or_false] at heof
      exact h.eof heof
  | exit hcall => exact ⟨h.flow, h.eof, fun _ _ => Or.inr rfl⟩

end Neighbours

/-! ### A child before `execvp` -/

section Setup

variable {i j : ℕ}

theorem setup_fds_inj (L : LiveLine α ω) : ∀ i < 2 * L.totalProgs, ∀ j < 2 * L.totalProgs,
    L.fds i = L.fds j → i = j := L.fds_inj

theorem setup_fds_ne (L : LiveLine α ω) (hi : i < 2 * L.totalProgs) {fd : ℕ} (hfd : fd ≤ 2) :
    L.fds i ≠ fd := fds_ne L.three_le hi hfd

/-- The parent has both ends of every pipe open when it forks. -/
theorem opened_apply (L : LiveLine α ω) (hi : i < L.totalProgs) :
    L.opened L.before (L.fds (2 * i)) = some (.readEnd i) ∧
      L.opened L.before (L.fds (2 * i + 1)) = some (.writeEnd i) :=
  openPipes_apply L.setup_fds_inj hi

theorem outTable_eq (L : LiveLine α ω) (hi : i < L.totalProgs) (hlt : i + 1 < L.totalProgs) :
    (L.opened L.before).dup2 (L.fds (i * 2 + 1)) stdoutFileno = some (L.outTable i) := by
  rw [Nat.mul_comm, Table.dup2_of_some (L.opened_apply hi).2, outTable, if_pos hlt]

theorem outTable_of_ne (L : LiveLine α ω) (i : ℕ) {fd : ℕ} (h : fd ≠ stdoutFileno) :
    L.outTable i fd = L.opened L.before fd := by
  unfold outTable
  split
  · exact Function.update_of_ne h _ _
  · rfl

theorem inTable_eq (L : LiveLine α ω) (hi : i < L.totalProgs) (hpos : 0 < i) :
    (L.outTable i).dup2 (L.fds ((i - 1) * 2)) stdinFileno = some (L.inTable i) := by
  have hend : L.outTable i (L.fds ((i - 1) * 2)) = some (.readEnd (i - 1)) := by
    rw [L.outTable_of_ne i (L.setup_fds_ne (by omega) (by decide)), Nat.mul_comm]
    exact (L.opened_apply (by omega)).1
  rw [Table.dup2_of_some hend, inTable, if_pos hpos]

/-- The table right before `execvp`. -/
theorem closeAll_inTable (L : LiveLine α ω) (i : ℕ) :
    closeAll L.fds (2 * L.totalProgs) (L.inTable i) = L.tables L.before i := by
  unfold PipedLine.tables childTable inTable outTable
  by_cases hlt : i + 1 < L.totalProgs <;> simp [hlt]

/-- A child that has not reached `execvp` holds the end it will write to. -/
theorem exists_writeEnd (L : LiveLine α ω) (hi : i + 1 < L.totalProgs)
    (hpc : launched pc = false) (hclose : ∀ j, pc = .close j → j ≤ 2 * L.totalProgs) :
    ∃ fd, fd < openMax ∧ L.setupTable i pc fd = some (.writeEnd i) := by
  have hstdout : L.outTable i stdoutFileno = some (.writeEnd i) := by
    rw [outTable, if_pos hi, Function.update_self]
  cases pc with
  | dupOut =>
    exact ⟨_, L.fds_lt _ (by change _ < 2 * L.totalProgs; omega), (L.opened_apply (by omega)).2⟩
  | dupIn => exact ⟨stdoutFileno, by decide, hstdout⟩
  | close j =>
    refine ⟨stdoutFileno, by decide, ?_⟩
    have hj := hclose j rfl
    rw [setupTable, closeAll_of_ne fun k hk => L.setup_fds_ne (by omega) (by decide), inTable]
    split
    · rw [Function.update_of_ne (by decide), hstdout]
    · exact hstdout
  | run log => exact absurd hpc Bool.noConfusion
  | exited log status => exact absurd hpc Bool.noConfusion
  | killed log => exact absurd hpc Bool.noConfusion

/-- A child that has not reached `execvp` holds the end it will read from. -/
theorem exists_readEnd (L : LiveLine α ω) (hi : i + 1 < L.totalProgs)
    (hpc : launched pc = false) (hclose : ∀ j, pc = .close j → j ≤ 2 * L.totalProgs) :
    ∃ fd, fd < openMax ∧ L.setupTable (i + 1) pc fd = some (.readEnd i) := by
  have hlt : 2 * i < 2 * L.totalProgs := by omega
  have hopened := (L.opened_apply (i := i) (by omega)).1
  cases pc with
  | dupOut => exact ⟨_, L.fds_lt _ hlt, hopened⟩
  | dupIn =>
    refine ⟨_, L.fds_lt _ hlt, ?_⟩
    rw [setupTable, L.outTable_of_ne _ (L.setup_fds_ne hlt (by decide)), hopened]
  | close j =>
    refine ⟨stdinFileno, by decide, ?_⟩
    have hj := hclose j rfl
    rw [setupTable, closeAll_of_ne fun k hk => L.setup_fds_ne (by omega) (by decide), inTable,
      if_pos (Nat.succ_pos i), Function.update_self, Nat.add_sub_cancel]
  | run log => exact absurd hpc Bool.noConfusion
  | exited log status => exact absurd hpc Bool.noConfusion
  | killed log => exact absurd hpc Bool.noConfusion

end Setup

/-! ### What nobody else has -/

section Nobody

variable {s : Global (Kernel L.totalProgs ω) (Local L.totalProgs)}

/-- Before all children have been forked the parent has all ends. -/
theorem ParentKnows.opened {mem : Kernel L.totalProgs ω} {pc : MainPc}
    (h : L.ParentKnows mem pc) (hlt : mem.forked < L.totalProgs) :
    mem.main = L.opened L.before := by
  cases pc with
  | fork currp => exact h.1
  | close i => exact absurd h.2.1 hlt.ne
  | wait i => exact absurd h.2.1 hlt.ne
  | nextLine => exact absurd h.1 hlt.ne

/-- If nobody can write to the pipe, the program that did is shut or was killed. -/
theorem LiveInv.shut (h : L.LiveInv s) {i : Fin L.totalProgs} (hi : i.val + 1 < L.totalProgs)
    (hno : s.mem.has (isWriteEnd i) = false)
    (hkilled : ∀ log, s.loc (.child i) ≠ .killed log) : L.Shut i (s.loc (.child i)) := by
  have hnot : s.mem.has (isWriteEnd i) ≠ true := by rw [hno]; exact Bool.false_ne_true
  have hchild := h.child i
  have hforked : i < s.mem.forked := by
    by_contra hge
    refine hnot (Kernel.has_of_main ?_ (L.fds_lt (2 * i + 1) ?_) (isWriteEnd_iff.mpr rfl))
    · rw [h.parent.opened (by omega)]
      exact (L.opened_apply i.2).2
    · change _ < 2 * L.totalProgs
      omega
  have htable := hchild.table
  rw [if_pos hforked] at htable
  cases hpc : s.loc (.child i) with
  | run log =>
    rw [hpc] at htable
    refine Or.inl ⟨log, rfl, fun fd k hfd => hnot ?_⟩
    obtain ⟨hlt, rfl, -⟩ := (L.ownEnds_tableOf i log).write fd k hfd
    exact Kernel.has_of_table ((congrFun htable fd).trans hfd) hlt (isWriteEnd_iff.mpr rfl)
  | exited log status => exact Or.inr ⟨log, status, rfl⟩
  | killed log => exact absurd hpc (hkilled log)
  | dupOut | dupIn | close j =>
    obtain ⟨fd, hlt, hfd⟩ := L.exists_writeEnd hi (hpc ▸ rfl) hchild.close
    exact absurd (Kernel.has_of_table ((congrFun htable fd).trans hfd) hlt
      (isWriteEnd_iff.mpr rfl)) hnot

/-- If nobody can read from the pipe, the program that did is deaf. -/
theorem LiveInv.deaf (h : L.LiveInv s) {i j : Fin L.totalProgs} (hj : j.val = i.val + 1)
    (hno : s.mem.has (isReadEnd i) = false) : L.Deaf (i + 1) (s.loc (.child j)) := by
  have hnot : s.mem.has (isReadEnd i) ≠ true := by rw [hno]; exact Bool.false_ne_true
  have hchild := h.child j
  have hforked : j < s.mem.forked := by
    by_contra hge
    refine hnot (Kernel.has_of_main ?_ (L.fds_lt (2 * i) ?_) (isReadEnd_iff.mpr rfl))
    · rw [h.parent.opened (by omega)]
      exact (L.opened_apply i.2).1
    · change _ < 2 * L.totalProgs
      omega
  have htable := hchild.table
  rw [if_pos hforked, hj] at htable
  cases hpc : s.loc (.child j) with
  | run log =>
    rw [hpc] at htable
    refine Or.inl ⟨log, rfl, fun fd k hfd => hnot ?_⟩
    obtain ⟨hlt, hk⟩ := (L.ownEnds_tableOf (i + 1) log).read fd k hfd
    obtain rfl := Nat.succ.inj hk
    exact Kernel.has_of_table ((congrFun htable fd).trans hfd) hlt (isReadEnd_iff.mpr rfl)
  | exited log status => exact Or.inr rfl
  | killed log => exact Or.inr rfl
  | dupOut | dupIn | close j' =>
    obtain ⟨fd, hlt, hfd⟩ := L.exists_readEnd (i := i) (by omega) (hpc ▸ rfl) hchild.close
    exact absurd (Kernel.has_of_table ((congrFun htable fd).trans hfd) hlt
      (isReadEnd_iff.mpr rfl)) hnot

end Nobody

end LiveLine
end Batch
end OpSys
