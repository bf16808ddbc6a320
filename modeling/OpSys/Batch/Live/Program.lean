import Mathlib.Data.Fin.Basic
import Mathlib.Data.List.FinRange
import OpSys.Batch.Wiring
import OpSys.Lib.Interleave

/-!
# A line with pipes while it runs

The interpreter and the children of one line, interleaved: the fork loop, the calls of
`dup2` and `close` in every child, the programs after `execvp`, the `close` loop of the
parent and its calls of `wait`.  A program is any deterministic one that uses the
descriptors it was given: its next system call is a function of the answers it has got.
A child whose `execvp` fails is such a program too, since it writes out its buffer and
exits.  A call that has to do with a file that was open before may wait for ever, as a
read from a terminal does.

## Main definitions

* `Call`, `Answer` — the system calls of a program.
* `LiveLine` — a line with pipes, its programs and the files they were started with.
* `Kernel` — the tables of all processes, and what is in the pipes.
* `mainStep`, `childStep`, `callStep` — the steps of the parent and of a child.
* `LiveLine.program`, `LiveLine.start` — the system, with all pipes open.
* `tableOf`, `sentOf`, `receivedOf`, `eofOf`, `printedOf` — what the answers tell.

## References

`lab4_signals_and_pipes/batch_job_interpreter_pipes/cmd_interpreter_extd.c`.
-/

namespace OpSys
namespace Batch

/-- The number of descriptors that a process may have. -/
def openMax : ℕ := 1024

/-- A system call. -/
inductive Call
  /-- `read` of at most `n + 1` bytes. -/
  | read (fd n : ℕ)
  /-- `write` of one byte; a longer one is several of these. -/
  | write (fd : ℕ) (b : UInt8)
  | close (fd : ℕ)
  | dup2 (oldfd newfd : ℕ)
  | exit (status : ℕ)

/-- What a system call answers. -/
inductive Answer
  /-- What was read, nothing at the end of the file. -/
  | bytes (bs : List UInt8)
  | done
  | failed

/-- A line whose programs are running.  `call i log` is the next call of the program number
`i` after the answers `log`, the newest one first, and `outside i log` is what it gets when
that call reads from or writes to a file that was open before: a terminal or a pipe from
elsewhere may keep it waiting for ever, which is `none`. -/
structure LiveLine (α ω : Type*) extends PipedLine α where
  before : ℕ → Option ω
  call : ℕ → List Answer → Call
  outside : ℕ → List Answer → Option Answer
  capacity : ℕ
  capacity_pos : 0 < capacity
  fds_lt : ∀ i < 2 * progs.length, fds i < openMax

/-- The line `echo h | cat` while it runs: the first program writes one byte, the other copies
byte by byte, and both have the files of the interpreter besides. -/
def LiveLine.echoCat : LiveLine String Unit where
  toPipedLine := PipedLine.echoCat
  before fd := if fd ≤ 2 then some () else none
  call
    | 0, [] => .write stdoutFileno 104
    | 0, _ => .exit 0
    | _, [] => .read stdinFileno 0
    | _, .done :: _ => .read stdinFileno 0
    | _, .bytes (b :: _) :: _ => .write stdoutFileno b
    | _, .bytes [] :: _ => .exit 0
    | _, .failed :: _ => .exit 1
  outside _ _ := some .done
  capacity := 65536
  capacity_pos := by decide
  fds_lt i hi := by
    change i < 4 at hi
    change i + 3 < 1024
    omega

variable {α ω : Type*}

/-! ### Descriptors -/

/-- A write end of the pipe `k`. -/
def isWriteEnd (k : ℕ) : OpenFile ω → Bool
  | .writeEnd j => j = k
  | _ => false

/-- A read end of the pipe `k`. -/
def isReadEnd (k : ℕ) : OpenFile ω → Bool
  | .readEnd j => j = k
  | _ => false

/-- Some descriptor refers to such a file. -/
def Table.has (table : Table ω) (p : OpenFile ω → Bool) : Bool :=
  (List.range openMax).any fun fd => (table fd).any p

/-- The table of a process that has ended, or has not been started. -/
def Table.empty : Table ω := fun _ => none

/-- The tables of the parent and of the `m` children, the children that have been forked,
that have ended and that have been waited for, and the bytes in the pipes. -/
structure Kernel (m : ℕ) (ω : Type*) where
  main : Table ω
  table : Fin m → Table ω
  forked : ℕ
  ended : Fin m → Bool
  reaped : ℕ
  pipe : ℕ → List UInt8

namespace Kernel

variable {m : ℕ} (mem : Kernel m ω)

/-- Some process has such a file open. -/
def has (p : OpenFile ω → Bool) : Bool :=
  mem.main.has p || (List.finRange m).any fun i => (mem.table i).has p

/-- The number of children that have ended. -/
def endedCount : ℕ := (List.finRange m).countP mem.ended

/-- A new table for the child `i`. -/
def setTable (i : Fin m) (table : Table ω) : Kernel m ω :=
  { mem with table := Function.update mem.table i table }

/-- New contents for the pipe `k`. -/
def setPipe (k : ℕ) (bs : List UInt8) : Kernel m ω :=
  { mem with pipe := Function.update mem.pipe k bs }

/-- The child `i` ends, and its descriptors are closed. -/
def exit (i : Fin m) : Kernel m ω :=
  { mem.setTable i .empty with ended := Function.update mem.ended i true }

end Kernel

/-! ### The parent -/

/-- Where the parent is. -/
inductive MainPc
  /-- In the fork loop. -/
  | fork (currp : ℕ)
  /-- In the loop that closes the pipes. -/
  | close (i : ℕ)
  /-- In the loop that waits. -/
  | wait (i : ℕ)
  | nextLine
  deriving DecidableEq, Repr

/-- Where a child is.  From `execvp` on it is known by the answers it has got. -/
inductive ChildPc
  /-- Before its first `dup2`. -/
  | dupOut
  /-- Before its second `dup2`. -/
  | dupIn
  /-- In the loop that closes the pipes. -/
  | close (i : ℕ)
  /-- In its program, after these answers. -/
  | run (log : List Answer)
  | exited (log : List Answer) (status : ℕ)
  /-- Killed by `SIGPIPE`. -/
  | killed (log : List Answer)

/-- The answers that the program has got. -/
def ChildPc.log : ChildPc → List Answer
  | .run log => log
  | .exited log _ => log
  | .killed log => log
  | _ => []

namespace LiveLine

variable (L : LiveLine α ω)

/-- A step of the parent.  In the fork loop `*pargs[currp]` is not NULL for the programs of
the line.  `wait` blocks until a child has ended, and fails when there is none. -/
def mainStep (mem : Kernel L.totalProgs ω) : MainPc → Option (Kernel L.totalProgs ω × MainPc)
  | .fork currp =>
    if h : currp < L.totalProgs then
      some ({ mem.setTable ⟨currp, h⟩ mem.main with forked := currp + 1 }, .fork (currp + 1))
    else some (mem, .close 0)
  | .close i =>
    if i < 2 * L.totalProgs then
      some ({ mem with main := mem.main.close (L.fds i) }, .close (i + 1))
    else some (mem, .wait 0)
  | .wait i =>
    if i < L.totalProgs then
      if mem.reaped < mem.endedCount then
        some ({ mem with reaped := mem.reaped + 1 }, .wait (i + 1))
      else if mem.reaped = mem.forked then some (mem, .wait (i + 1))
      else none
    else some (mem, .nextLine)
  | .nextLine => none

/-- What comes of the call of the program number `i` after the answers `log`.  A `read` from
an empty pipe waits while somebody could write to it, a `write` to a full one while somebody
could read; nobody can read any more is what `SIGPIPE` says. -/
def callStep (i : Fin L.totalProgs) (mem : Kernel L.totalProgs ω) (log : List Answer) :
    Option (Kernel L.totalProgs ω × ChildPc) :=
  match L.call i log with
  | .read fd n =>
    match mem.table i fd with
    | some (.readEnd k) =>
      if mem.pipe k = [] then
        if mem.has (isWriteEnd k) then none else some (mem, .run (.bytes [] :: log))
      else
        some (mem.setPipe k ((mem.pipe k).drop (n + 1)),
          .run (.bytes ((mem.pipe k).take (n + 1)) :: log))
    | some (.old _) => (L.outside i log).map fun a => (mem, .run (a :: log))
    | _ => some (mem, .run (.failed :: log))
  | .write fd b =>
    match mem.table i fd with
    | some (.writeEnd k) =>
      if mem.has (isReadEnd k) then
        if (mem.pipe k).length < L.capacity then
          some (mem.setPipe k (mem.pipe k ++ [b]), .run (.done :: log))
        else none
      else some (mem.exit i, .killed log)
    | some (.old _) => (L.outside i log).map fun a => (mem, .run (a :: log))
    | _ => some (mem, .run (.failed :: log))
  | .close fd =>
    match mem.table i fd with
    | some _ => some (mem.setTable i ((mem.table i).close fd), .run (.done :: log))
    | none => some (mem, .run (.failed :: log))
  | .dup2 oldfd newfd =>
    if newfd < openMax then
      match (mem.table i).dup2 oldfd newfd with
      | some table => some (mem.setTable i table, .run (.done :: log))
      | none => some (mem, .run (.failed :: log))
    else some (mem, .run (.failed :: log))
  | .exit status => some (mem.exit i, .exited log status)

/-- A step of the child number `i`. -/
def childStep (i : Fin L.totalProgs) (mem : Kernel L.totalProgs ω) :
    ChildPc → Option (Kernel L.totalProgs ω × ChildPc)
  | .dupOut =>
    if i < mem.forked then
      if i + 1 < L.totalProgs then
        match (mem.table i).dup2 (L.fds (i * 2 + 1)) stdoutFileno with
        | some table => some (mem.setTable i table, .dupIn)
        | none => some (mem.exit i, .exited [] 5)
      else some (mem, .dupIn)
    else none
  | .dupIn =>
    if 0 < i.val then
      match (mem.table i).dup2 (L.fds ((i - 1) * 2)) stdinFileno with
      | some table => some (mem.setTable i table, .close 0)
      | none => some (mem.exit i, .exited [] 6)
    else some (mem, .close 0)
  | .close j =>
    if j < 2 * L.totalProgs then
      some (mem.setTable i ((mem.table i).close (L.fds j)), .close (j + 1))
    else some (mem, .run [])
  | .run log => L.callStep i mem log
  | _ => none

/-- The processes. -/
inductive Who (m : ℕ)
  | main
  | child (i : Fin m)
  deriving DecidableEq

/-- The local state of a process. -/
@[reducible] def Local (m : ℕ) : Who m → Type
  | .main => MainPc
  | .child _ => ChildPc

/-- The parent and the children. -/
def program : Program (Who L.totalProgs) (Kernel L.totalProgs ω) (Local L.totalProgs) where
  step
    | .main, mem, pc => L.mainStep mem pc
    | .child i, mem, pc => L.childStep i mem pc

/-- All pipes have been opened, and no child has been forked. -/
def start : Global (Kernel L.totalProgs ω) (Local L.totalProgs) where
  mem := ⟨L.opened L.before, fun _ => .empty, 0, fun _ => false, 0, fun _ => []⟩
  loc
    | .main => .fork 0
    | .child _ => .dupOut

/-! ### What the answers tell -/

/-- The table after an answer. -/
def tableBy : Call → Answer → Table ω → Table ω
  | .close fd, .done, table => table.close fd
  | .dup2 oldfd newfd, .done, table =>
    if newfd < openMax then Function.update table newfd (table oldfd) else table
  | _, _, table => table

/-- What has been written to a pipe. -/
def sentBy : Call → Answer → Table ω → List UInt8
  | .write fd b, .done, table =>
    match table fd with
    | some (.writeEnd _) => [b]
    | _ => []
  | _, _, _ => []

/-- What has been read from a pipe. -/
def receivedBy : Call → Answer → Table ω → List UInt8
  | .read fd _, .bytes bs, table =>
    match table fd with
    | some (.readEnd _) => bs
    | _ => []
  | _, _, _ => []

/-- What has been written to a file that was open before. -/
def printedBy : Call → Answer → Table ω → List (ω × UInt8)
  | .write fd b, .done, table =>
    match table fd with
    | some (.old file) => [(file, b)]
    | _ => []
  | _, _, _ => []

/-- The end of a pipe has been read. -/
def eofBy : Call → Answer → Table ω → Bool
  | .read fd _, .bytes [], table =>
    match table fd with
    | some (.readEnd _) => true
    | _ => false
  | _, _, _ => false

/-- The table of the program number `i` after these answers. -/
def tableOf (i : ℕ) : List Answer → Table ω
  | [] => L.tables L.before i
  | a :: log => tableBy (L.call i log) a (tableOf i log)

/-- What it has written to its pipe. -/
def sentOf (i : ℕ) : List Answer → List UInt8
  | [] => []
  | a :: log => sentOf i log ++ sentBy (L.call i log) a (L.tableOf i log)

/-- What it has read from its pipe. -/
def receivedOf (i : ℕ) : List Answer → List UInt8
  | [] => []
  | a :: log => receivedOf i log ++ receivedBy (L.call i log) a (L.tableOf i log)

/-- What it has written to files that were open before. -/
def printedOf (i : ℕ) : List Answer → List (ω × UInt8)
  | [] => []
  | a :: log => printedOf i log ++ printedBy (L.call i log) a (L.tableOf i log)

/-- It has read the end of its pipe. -/
def eofOf (i : ℕ) : List Answer → Bool
  | [] => false
  | a :: log => eofOf i log || eofBy (L.call i log) a (L.tableOf i log)

end LiveLine

end Batch
end OpSys
