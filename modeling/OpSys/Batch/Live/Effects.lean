import OpSys.Batch.Live.Program

/-!
# What a system call does

The calls of a running program, by what becomes of them.  Most are answered from the
table of the process alone; the others read from its one pipe or write to its other one.

## Main definitions

* `OwnEnds` — no end of a pipe but those of the program.
* `plainAnswer` — the answers that the table decides.
* `Effect` — what comes of a call.

## Main results

* `ownEnds_tableOf` — the program number `i` reads from the pipe `i - 1` and writes to `i`.
* `callStep_effect` — every step of a running program is one of the effects.

## References

`lab4_signals_and_pipes/batch_job_interpreter_pipes/cmd_interpreter_extd.c`.
-/

namespace OpSys
namespace Batch

variable {α ω : Type*}

/-! ### Who has an end -/

@[simp] theorem isWriteEnd_iff {k : ℕ} {file : OpenFile ω} :
    isWriteEnd k file = true ↔ file = .writeEnd k := by
  cases file <;> simp [isWriteEnd]

@[simp] theorem isReadEnd_iff {k : ℕ} {file : OpenFile ω} :
    isReadEnd k file = true ↔ file = .readEnd k := by
  cases file <;> simp [isReadEnd]

theorem Table.has_of {table : Table ω} {p : OpenFile ω → Bool} {fd : ℕ} {file : OpenFile ω}
    (hfd : table fd = some file) (hlt : fd < openMax) (hp : p file = true) :
    table.has p = true := by
  apply List.any_eq_true.mpr
  refine ⟨fd, List.mem_range.mpr hlt, ?_⟩
  rw [hfd]
  exact hp

theorem Table.exists_of_has {table : Table ω} {p : OpenFile ω → Bool} (h : table.has p = true) :
    ∃ fd file, table fd = some file ∧ p file = true := by
  obtain ⟨fd, -, hany⟩ := List.any_eq_true.mp h
  obtain ⟨file, hfd, hp⟩ := (Option.any_eq_true _ _).mp hany
  exact ⟨fd, file, hfd, hp⟩

namespace Kernel

variable {m : ℕ} {mem : Kernel m ω} {p : OpenFile ω → Bool} {fd : ℕ} {file : OpenFile ω}

theorem has_of_main (hfd : mem.main fd = some file) (hlt : fd < openMax) (hp : p file = true) :
    mem.has p = true := by
  rw [has, Table.has_of hfd hlt hp, Bool.true_or]

theorem has_of_table {i : Fin m} (hfd : mem.table i fd = some file) (hlt : fd < openMax)
    (hp : p file = true) : mem.has p = true := by
  rw [has, Bool.or_eq_true]
  exact Or.inr (List.any_eq_true.mpr ⟨i, List.mem_finRange i, Table.has_of hfd hlt hp⟩)

theorem exists_of_has (h : mem.has p = true) :
    (∃ fd file, mem.main fd = some file ∧ p file = true) ∨
      ∃ i fd file, mem.table i fd = some file ∧ p file = true := by
  rw [has, Bool.or_eq_true] at h
  refine h.imp Table.exists_of_has fun hany => ?_
  obtain ⟨i, -, hi⟩ := List.any_eq_true.mp hany
  exact ⟨i, Table.exists_of_has hi⟩

/-! ### Changes of the kernel -/

variable (mem) (i : Fin m) (table : Table ω) (k : ℕ) (bs : List UInt8)

@[simp] theorem setTable_pipe : (mem.setTable i table).pipe = mem.pipe := rfl
@[simp] theorem setTable_main : (mem.setTable i table).main = mem.main := rfl
@[simp] theorem setTable_forked : (mem.setTable i table).forked = mem.forked := rfl
@[simp] theorem setTable_ended : (mem.setTable i table).ended = mem.ended := rfl
@[simp] theorem setTable_reaped : (mem.setTable i table).reaped = mem.reaped := rfl
@[simp] theorem setTable_table_self : (mem.setTable i table).table i = table :=
  Function.update_self _ _ _
theorem setTable_table_of_ne {j : Fin m} (h : j ≠ i) :
    (mem.setTable i table).table j = mem.table j := Function.update_of_ne h _ _
theorem setTable_self : mem.setTable i (mem.table i) = mem := by
  rw [setTable, Function.update_eq_self]

@[simp] theorem setPipe_table : (mem.setPipe k bs).table = mem.table := rfl
@[simp] theorem setPipe_main : (mem.setPipe k bs).main = mem.main := rfl
@[simp] theorem setPipe_forked : (mem.setPipe k bs).forked = mem.forked := rfl
@[simp] theorem setPipe_ended : (mem.setPipe k bs).ended = mem.ended := rfl
@[simp] theorem setPipe_reaped : (mem.setPipe k bs).reaped = mem.reaped := rfl
@[simp] theorem setPipe_pipe_self : (mem.setPipe k bs).pipe k = bs := Function.update_self _ _ _
theorem setPipe_pipe_of_ne {j : ℕ} (h : j ≠ k) : (mem.setPipe k bs).pipe j = mem.pipe j :=
  Function.update_of_ne h _ _

@[simp] theorem exit_pipe : (mem.exit i).pipe = mem.pipe := rfl
@[simp] theorem exit_main : (mem.exit i).main = mem.main := rfl
@[simp] theorem exit_forked : (mem.exit i).forked = mem.forked := rfl
@[simp] theorem exit_reaped : (mem.exit i).reaped = mem.reaped := rfl
@[simp] theorem exit_table_self : (mem.exit i).table i = .empty := Function.update_self _ _ _
theorem exit_table_of_ne {j : Fin m} (h : j ≠ i) : (mem.exit i).table j = mem.table j :=
  Function.update_of_ne h _ _
@[simp] theorem exit_ended_self : (mem.exit i).ended i = true := Function.update_self _ _ _
theorem exit_ended_of_ne {j : Fin m} (h : j ≠ i) : (mem.exit i).ended j = mem.ended j :=
  Function.update_of_ne h _ _

end Kernel

namespace LiveLine

variable (L : LiveLine α ω)

/-! ### The program's own ends -/

/-- The table of the program number `i` has no end of a pipe but the one it reads from and
the one it writes to. -/
structure OwnEnds (i : ℕ) (table : Table ω) : Prop where
  read : ∀ fd k, table fd = some (.readEnd k) → fd < openMax ∧ i = k + 1
  write : ∀ fd k, table fd = some (.writeEnd k) → fd < openMax ∧ i = k ∧ i + 1 < L.totalProgs

variable {L} {i : ℕ} {table : Table ω} {log log' : List Answer}

theorem ownEnds_tables (i : ℕ) : L.OwnEnds i (L.tables L.before i) where
  read fd k hfd := by
    obtain ⟨rfl, hi⟩ := L.eq_of_readEnd L.before hfd
    exact ⟨by decide, hi⟩
  write fd k hfd := by
    obtain ⟨rfl, rfl⟩ := L.eq_of_writeEnd L.before hfd
    refine ⟨by decide, rfl, ?_⟩
    by_contra hlast
    rw [L.tables_stdout, if_neg hlast] at hfd
    exact (PipedLine.old_ne _ _).2 hfd

/-- No call makes an end of a pipe out of nothing. -/
theorem tableBy_eq_some {c : Call} {a : Answer} {fd : ℕ} {file : OpenFile ω}
    (h : tableBy c a table fd = some file) :
    table fd = some file ∨ fd < openMax ∧ ∃ fd', table fd' = some file := by
  unfold tableBy at h
  split at h
  · rename_i fd'
    rw [Table.close] at h
    by_cases heq : fd = fd'
    · rw [heq, Function.update_self] at h
      exact absurd h (Option.some_ne_none _).symm
    · rw [Function.update_of_ne heq] at h
      exact Or.inl h
  · rename_i oldfd newfd
    split at h
    · rename_i hlt
      by_cases heq : fd = newfd
      · rw [heq, Function.update_self] at h
        exact Or.inr ⟨heq ▸ hlt, oldfd, h⟩
      · rw [Function.update_of_ne heq] at h
        exact Or.inl h
    · exact Or.inl h
  · exact Or.inl h

theorem OwnEnds.tableBy (h : L.OwnEnds i table) (c : Call) (a : Answer) :
    L.OwnEnds i (tableBy c a table) where
  read fd k hfd := by
    rcases tableBy_eq_some hfd with hold | ⟨hlt, fd', hold⟩
    · exact h.read fd k hold
    · exact ⟨hlt, (h.read fd' k hold).2⟩
  write fd k hfd := by
    rcases tableBy_eq_some hfd with hold | ⟨hlt, fd', hold⟩
    · exact h.write fd k hold
    · exact ⟨hlt, (h.write fd' k hold).2⟩

theorem ownEnds_tableOf (i : ℕ) (log : List Answer) : L.OwnEnds i (L.tableOf i log) := by
  induction log with
  | nil => exact ownEnds_tables i
  | cons a log ih => exact ih.tableBy _ _

/-! ### What comes of a call -/

/-- The answer to a call that has nothing to do with a pipe. -/
def plainAnswer (L : LiveLine α ω) (i : ℕ) (table : Table ω) (log : List Answer) :
    Option Answer :=
  match L.call i log with
  | .read fd _ =>
    match table fd with
    | some (.readEnd _) => none
    | some (.old _) => L.outside i log
    | _ => some .failed
  | .write fd _ =>
    match table fd with
    | some (.writeEnd _) => none
    | some (.old _) => L.outside i log
    | _ => some .failed
  | .close fd => some (if (table fd).isSome then .done else .failed)
  | .dup2 oldfd newfd =>
    some (if newfd < openMax ∧ (table oldfd).isSome then .done else .failed)
  | .exit _ => none

/-- What comes of the call of the running program number `i`. -/
inductive Effect (L : LiveLine α ω) (i : Fin L.totalProgs) (mem : Kernel L.totalProgs ω)
    (log : List Answer) : Kernel L.totalProgs ω → ChildPc → Prop
  /-- It takes bytes out of a pipe. -/
  | take {fd n k : ℕ} (hcall : L.call i log = .read fd n)
      (hfd : mem.table i fd = some (.readEnd k)) (hne : mem.pipe k ≠ []) :
      Effect L i mem log (mem.setPipe k ((mem.pipe k).drop (n + 1)))
        (.run (.bytes ((mem.pipe k).take (n + 1)) :: log))
  /-- It reads the end of a pipe. -/
  | eof {fd n k : ℕ} (hcall : L.call i log = .read fd n)
      (hfd : mem.table i fd = some (.readEnd k)) (hempty : mem.pipe k = [])
      (hno : mem.has (isWriteEnd k) = false) : Effect L i mem log mem (.run (.bytes [] :: log))
  /-- It puts a byte into a pipe. -/
  | put {fd k : ℕ} {b : UInt8} (hcall : L.call i log = .write fd b)
      (hfd : mem.table i fd = some (.writeEnd k)) (hroom : (mem.pipe k).length < L.capacity) :
      Effect L i mem log (mem.setPipe k (mem.pipe k ++ [b])) (.run (.done :: log))
  /-- It writes to a pipe that nobody can read from. -/
  | kill {fd k : ℕ} {b : UInt8} (hcall : L.call i log = .write fd b)
      (hfd : mem.table i fd = some (.writeEnd k)) (hno : mem.has (isReadEnd k) = false) :
      Effect L i mem log (mem.exit i) (.killed log)
  | plain {a : Answer} (hanswer : L.plainAnswer i (mem.table i) log = some a) :
      Effect L i mem log (mem.setTable i (tableBy (L.call i log) a (mem.table i)))
        (.run (a :: log))
  | exit {status : ℕ} (hcall : L.call i log = .exit status) :
      Effect L i mem log (mem.exit i) (.exited log status)

/-- A plain answer has nothing to do with a pipe. -/
theorem plainAnswer_quiet {a : Answer} (h : L.plainAnswer i table log = some a) :
    sentBy (L.call i log) a table = [] ∧ receivedBy (L.call i log) a table = [] ∧
      eofBy (L.call i log) a table = false := by
  unfold plainAnswer at h
  cases hcall : L.call i log with
  | read fd n =>
    simp only [hcall] at h
    split at h
    · exact absurd h (Option.some_ne_none _).symm
    · -- what was read is from a file that was open before, not from the pipe
      rename_i hfd
      refine ⟨rfl, ?_, ?_⟩
      · cases a <;> simp only [receivedBy, hfd]
      · rcases a with (_ | ⟨b, bs⟩) | _ | _ <;> simp only [eofBy, hfd]
    · obtain rfl := Option.some.inj h
      exact ⟨rfl, rfl, rfl⟩
  | write fd b =>
    simp only [hcall] at h
    split at h
    · exact absurd h (Option.some_ne_none _).symm
    · rename_i hfd
      refine ⟨?_, rfl, rfl⟩
      cases a <;> simp only [sentBy, hfd]
    · obtain rfl := Option.some.inj h
      exact ⟨rfl, rfl, rfl⟩
  | close fd => exact ⟨rfl, rfl, rfl⟩
  | dup2 oldfd newfd => exact ⟨rfl, rfl, rfl⟩
  | exit status => exact ⟨rfl, rfl, rfl⟩

/-- An answer that leaves the table as it is. -/
theorem Effect.same {a : Answer} {i : Fin L.totalProgs} {mem : Kernel L.totalProgs ω}
    (ha : L.plainAnswer i (mem.table i) log = some a)
    (htable : tableBy (L.call i log) a (mem.table i) = mem.table i) :
    L.Effect i mem log mem (.run (a :: log)) := by
  have hplain : L.Effect i mem log _ _ := .plain ha
  rwa [htable, Kernel.setTable_self] at hplain

section CallStep

variable {i : Fin L.totalProgs} {mem mem' : Kernel L.totalProgs ω} {pc' : ChildPc}

theorem read_effect {fd n : ℕ} (hcall : L.call i log = .read fd n)
    (h : L.callStep i mem log = some (mem', pc')) : L.Effect i mem log mem' pc' := by
  unfold callStep at h
  simp only [hcall] at h
  cases hfd : mem.table i fd with
  | none =>
    simp only [hfd, Option.some.injEq, Prod.mk.injEq] at h
    obtain ⟨rfl, rfl⟩ := h
    exact Effect.same (by simp [plainAnswer, hcall, hfd]) (by rw [hcall]; rfl)
  | some file =>
    cases file with
    | readEnd k =>
      simp only [hfd] at h
      split at h
      · rename_i hempty
        split at h
        · exact absurd h (Option.some_ne_none _).symm
        · rename_i hno
          obtain ⟨rfl, rfl⟩ := Prod.mk.inj (Option.some.inj h)
          exact .eof hcall hfd hempty (Bool.eq_false_iff.mpr hno)
      · rename_i hne
        obtain ⟨rfl, rfl⟩ := Prod.mk.inj (Option.some.inj h)
        exact .take hcall hfd hne
    | writeEnd k =>
      simp only [hfd, Option.some.injEq, Prod.mk.injEq] at h
      obtain ⟨rfl, rfl⟩ := h
      exact Effect.same (by simp [plainAnswer, hcall, hfd]) (by rw [hcall]; rfl)
    | old file =>
      simp only [hfd] at h
      obtain ⟨a, houtside, heq⟩ := Option.map_eq_some_iff.mp h
      obtain ⟨rfl, rfl⟩ := Prod.mk.inj heq
      exact Effect.same (by simp only [plainAnswer, hcall, hfd, houtside]) (by rw [hcall]; rfl)

theorem write_effect {fd : ℕ} {b : UInt8} (hcall : L.call i log = .write fd b)
    (h : L.callStep i mem log = some (mem', pc')) : L.Effect i mem log mem' pc' := by
  unfold callStep at h
  simp only [hcall] at h
  cases hfd : mem.table i fd with
  | none =>
    simp only [hfd, Option.some.injEq, Prod.mk.injEq] at h
    obtain ⟨rfl, rfl⟩ := h
    exact Effect.same (by simp [plainAnswer, hcall, hfd]) (by rw [hcall]; rfl)
  | some file =>
    cases file with
    | writeEnd k =>
      simp only [hfd] at h
      split at h
      · split at h
        · rename_i hroom
          obtain ⟨rfl, rfl⟩ := Prod.mk.inj (Option.some.inj h)
          exact .put hcall hfd hroom
        · exact absurd h (Option.some_ne_none _).symm
      · rename_i hno
        obtain ⟨rfl, rfl⟩ := Prod.mk.inj (Option.some.inj h)
        exact .kill hcall hfd (Bool.eq_false_iff.mpr hno)
    | readEnd k =>
      simp only [hfd, Option.some.injEq, Prod.mk.injEq] at h
      obtain ⟨rfl, rfl⟩ := h
      exact Effect.same (by simp [plainAnswer, hcall, hfd]) (by rw [hcall]; rfl)
    | old file =>
      simp only [hfd] at h
      obtain ⟨a, houtside, heq⟩ := Option.map_eq_some_iff.mp h
      obtain ⟨rfl, rfl⟩ := Prod.mk.inj heq
      exact Effect.same (by simp only [plainAnswer, hcall, hfd, houtside]) (by rw [hcall]; rfl)

/-- Every step of a running program is one of the effects. -/
theorem callStep_effect (h : L.callStep i mem log = some (mem', pc')) :
    L.Effect i mem log mem' pc' := by
  cases hcall : L.call i log with
  | read fd n => exact read_effect hcall h
  | write fd b => exact write_effect hcall h
  | close fd =>
    simp only [callStep, hcall] at h
    cases hfd : mem.table i fd with
    | none =>
      simp only [hfd, Option.some.injEq, Prod.mk.injEq] at h
      obtain ⟨rfl, rfl⟩ := h
      exact Effect.same (by simp [plainAnswer, hcall, hfd]) (by rw [hcall]; rfl)
    | some file =>
      simp only [hfd, Option.some.injEq, Prod.mk.injEq] at h
      obtain ⟨rfl, rfl⟩ := h
      have hplain : L.Effect i mem log _ _ :=
        .plain (a := .done) (by simp [plainAnswer, hcall, hfd])
      rwa [hcall] at hplain
  | dup2 oldfd newfd =>
    simp only [callStep, hcall] at h
    split at h
    · rename_i hlt
      cases hfd : mem.table i oldfd with
      | none =>
        simp only [Table.dup2, hfd, Option.map_none, Option.some.injEq, Prod.mk.injEq] at h
        obtain ⟨rfl, rfl⟩ := h
        exact Effect.same (by simp [plainAnswer, hcall, hfd]) (by rw [hcall]; rfl)
      | some file =>
        simp only [Table.dup2, hfd, Option.map_some, Option.some.injEq, Prod.mk.injEq] at h
        obtain ⟨rfl, rfl⟩ := h
        have hplain : L.Effect i mem log _ _ :=
          .plain (a := .done) (by simp [plainAnswer, hcall, hfd, hlt])
        rw [hcall, tableBy, if_pos hlt, hfd] at hplain
        exact hplain
    · rename_i hlt
      obtain ⟨rfl, rfl⟩ := Prod.mk.inj (Option.some.inj h)
      exact Effect.same (by simp [plainAnswer, hcall, hlt]) (by rw [hcall]; rfl)
  | exit status =>
    simp only [callStep, hcall, Option.some.injEq, Prod.mk.injEq] at h
    obtain ⟨rfl, rfl⟩ := h
    exact .exit hcall

end CallStep

end LiveLine

end Batch
end OpSys
