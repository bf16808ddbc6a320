import OpSys.Lib.Interleave
import OpSys.ProdCons.Books

/-!
# Producers and consumers with semaphores

The threads of `unnamed_semaphore/main.c`.  Every `sem_wait` and `sem_post` and
every read or write of `shared_resource`, `curr_prod`, `curr_cons` and
`done_producing` is a step of its own, `fgets` is one step, and `strcpy` writes
one byte a step.  A thread's local state is its program counter with the values
it has read.  What is only printed is left to `Sem.FullInfo`.

## Main definitions

* `SemId`, `Mem` — the semaphores, and the shared memory.
* `produce`, `consume`, `waitThreads` — the steps of the threads.
* `program`, `start` — the system after `create_threads`.
* `Books`, `booked`, `bookStart` — the system with history variables.

## Main results

* `erase_booked_run` — the history variables change no run.

## References

`lab7_synch_threads/unnamed_semaphore/main.c`.
-/

namespace OpSys
namespace ProdCons
namespace Sem

/-- The semaphores `sems[0]`, …, `sems[N+2]`. -/
inductive SemId (cfg : Config)
  /-- `sems[i]` for `i < N`. -/
  | slot (i : Fin cfg.N)
  /-- `sems[N]`. -/
  | prod
  /-- `sems[N+1]`. -/
  | cons
  /-- `sems[N+2]`. -/
  | free
  deriving DecidableEq

/-- The shared memory. -/
structure Mem (cfg : Config) extends Store cfg where
  sems : SemId cfg → ℕ

variable {cfg : Config}

/-- A change of the variables that are not semaphores. -/
def Mem.withStore (m : Mem cfg) (s : Store cfg) : Mem cfg := { m with toStore := s }

/-- `sem_wait`. -/
def semWait (s : SemId cfg) (m : Mem cfg) : Option (Mem cfg) :=
  if 0 < m.sems s then some { m with sems := Function.update m.sems s (m.sems s - 1) } else none

/-- `sem_post`. -/
def semPost (s : SemId cfg) (m : Mem cfg) : Mem cfg :=
  { m with sems := Function.update m.sems s (m.sems s + 1) }

/-- The shared memory after `set_up`. -/
def setUp (cfg : Config) (text : List UInt8) : Mem cfg where
  toStore := cfg.setUp text
  sems
    | .free => cfg.N
    | _ => 1

/-! ### The producers -/

/-- Where a producer is in `produce`. -/
inductive Produce (cfg : Config)
  /-- At the condition of the loop. -/
  | fgets
  /-- At `sem_wait(&sems[N])`. -/
  | waitProd (line : List UInt8)
  /-- At `sem_wait(&sems[N+2])`. -/
  | waitFree (line : List UInt8)
  /-- At `curr_index = curr_prod`. -/
  | readIndex (line : List UInt8)
  /-- At the read of `curr_prod` in `curr_prod = (curr_prod+1) % N`. -/
  | readCursor (line : List UInt8) (idx : Fin cfg.N)
  /-- At the write, having read `cur`. -/
  | writeCursor (line : List UInt8) (idx cur : Fin cfg.N)
  /-- At `sem_wait(&sems[curr_index])`. -/
  | waitSlot (line : List UInt8) (idx : Fin cfg.N)
  /-- At `sem_post(&sems[N])`. -/
  | postProd (line : List UInt8) (idx : Fin cfg.N)
  /-- At `shared_resource[curr_index] = malloc(…)`. -/
  | store (line : List UInt8) (idx : Fin cfg.N)
  /-- At the read of `shared_resource[curr_index]` for `strcpy`. -/
  | readDst (line : List UInt8) (idx : Fin cfg.N)
  /-- In `strcpy`, with the bytes still to be written. -/
  | copy (idx : Fin cfg.N) (dst : Ptr) (rest : List UInt8)
  /-- At `sem_post(&sems[curr_index])`. -/
  | postSlot (idx : Fin cfg.N)
  | returned
  deriving DecidableEq

/-- The next step of a producer. -/
def produce (p : Fin cfg.P) (m : Mem cfg) : Produce cfg → Option (Mem cfg × Produce cfg)
  | .fgets =>
    match Stdio.fgets lineMax m.file with
    | some (line, rest) => some ({ m with file := rest }, .waitProd line)
    | none => some (m.withStore (m.exit (.prod p)), .returned)
  | .waitProd line => (semWait .prod m).map (·, .waitFree line)
  | .waitFree line => (semWait .free m).map (·, .readIndex line)
  | .readIndex line => some (m, .readCursor line m.currProd)
  | .readCursor line idx => some (m, .writeCursor line idx m.currProd)
  | .writeCursor line idx cur => some ({ m with currProd := cfg.next cur }, .waitSlot line idx)
  | .waitSlot line idx => (semWait (.slot idx) m).map (·, .postProd line idx)
  | .postProd line idx => some (semPost .prod m, .store line idx)
  | .store line idx => some (m.withStore (m.malloc idx), .readDst line idx)
  | .readDst line idx =>
    -- `strcpy` to a null pointer has no meaning
    (m.sharedResource idx).map fun dst => (m, .copy idx dst (Stdio.strcpyBytes line))
  | .copy idx _ [] => some (m, .postSlot idx)
  | .copy idx dst (b :: rest) => some (m.withStore (m.putByte dst b), .copy idx dst rest)
  | .postSlot idx => some (semPost (.slot idx) m, .fgets)
  | .returned => none

/-! ### The consumers -/

/-- Where a consumer is in `consume`. -/
inductive Consume (cfg : Config)
  /-- At `sem_wait(&sems[N+1])`, before the inner loop or at its end. -/
  | waitCons
  /-- At the read of `curr_cons` in the condition of the inner loop. -/
  | readCursor
  /-- At the read of `shared_resource[curr_cons]` in the same place. -/
  | testSlot (cur : Fin cfg.N)
  /-- At `sem_post(&sems[N+1])` in the inner loop. -/
  | postIdle
  /-- At `if (done_producing)`. -/
  | testDone
  /-- At `curr_index = curr_cons`. -/
  | readIndex
  /-- At the read of `curr_cons` in `curr_cons = (curr_cons+1) % N`. -/
  | readNext (idx : Fin cfg.N)
  /-- At the write, having read `cur`. -/
  | writeCursor (idx cur : Fin cfg.N)
  /-- At `sem_wait(&sems[curr_index])`. -/
  | waitSlot (idx : Fin cfg.N)
  /-- At `line = shared_resource[curr_index]`. -/
  | readLine (idx : Fin cfg.N)
  /-- At `shared_resource[curr_index] = NULL`. -/
  | clear (idx : Fin cfg.N) (line : Option Ptr)
  /-- At `sem_post(&sems[N+2])`. -/
  | postFree (idx : Fin cfg.N) (line : Option Ptr)
  /-- At `sem_post(&sems[N+1])`. -/
  | postCons (idx : Fin cfg.N) (line : Option Ptr)
  /-- At `sem_post(&sems[curr_index])`. -/
  | postSlot (idx : Fin cfg.N) (line : Option Ptr)
  /-- At `if (line != NULL && found_len(…))`. -/
  | examine (line : Option Ptr)
  /-- At `free(line)`. -/
  | free (line : Option Ptr)
  | returned
  deriving DecidableEq

/-- The next step of a consumer. -/
def consume (k : Fin cfg.K) (m : Mem cfg) : Consume cfg → Option (Mem cfg × Consume cfg)
  | .waitCons => (semWait .cons m).map (·, .readCursor)
  | .readCursor => some (m, .testSlot m.currCons)
  | .testSlot cur =>
    if m.sharedResource cur = none then some (m, .postIdle) else some (m, .readIndex)
  | .postIdle => some (semPost .cons m, .testDone)
  | .testDone =>
    if m.doneProducing && cfg.fullInfo != 0 then
      some (m.withStore (m.exit (.cons k)), .returned)
    else some (m, .waitCons)
  | .readIndex => some (m, .readNext m.currCons)
  | .readNext idx => some (m, .writeCursor idx m.currCons)
  | .writeCursor idx cur => some ({ m with currCons := cfg.next cur }, .waitSlot idx)
  | .waitSlot idx => (semWait (.slot idx) m).map (·, .readLine idx)
  | .readLine idx => some (m, .clear idx (m.sharedResource idx))
  | .clear idx line => some (m.withStore (m.clear idx), .postFree idx line)
  | .postFree idx line => some (semPost .free m, .postCons idx line)
  | .postCons idx line => some (semPost .cons m, .postSlot idx line)
  | .postSlot idx line => some (semPost (.slot idx) m, .examine line)
  | .examine line => some (m.withStore (m.examine k line), .free line)
  | .free line => some (m.withStore (m.free line), .waitCons)
  | .returned => none

/-! ### The main thread -/

/-- Where the main thread is in `wait_threads`. -/
inductive WaitThreads
  /-- At the join of producer `p`. -/
  | joinProd (p : ℕ)
  /-- At `done_producing = true`. -/
  | setDone
  /-- At the join of consumer `k`. -/
  | joinCons (k : ℕ)
  /-- After `wait_threads`. -/
  | cleanUp
  deriving DecidableEq

/-- The next step of the main thread. -/
def waitThreads (m : Mem cfg) : WaitThreads → Option (Mem cfg × WaitThreads)
  | .joinProd p =>
    if hp : p < cfg.P then
      if m.exited (.prod ⟨p, hp⟩) then some (m, .joinProd (p + 1)) else none
    else some (m, .setDone)
  | .setDone => some ({ m with doneProducing := true }, .joinCons 0)
  | .joinCons k =>
    if hk : k < cfg.K then
      if m.exited (.cons ⟨k, hk⟩) then some (m, .joinCons (k + 1)) else none
    else some (m, .cleanUp)
  | .cleanUp => none

/-! ### The system -/

/-- The local state of a thread. -/
@[reducible] def Local (cfg : Config) : Thread cfg → Type
  | .main => WaitThreads
  | .prod _ => Produce cfg
  | .cons _ => Consume cfg

/-- The system of the main thread, the producers and the consumers. -/
def program (cfg : Config) : Program (Thread cfg) (Mem cfg) (Local cfg) where
  step
    | .main, m, l => waitThreads m l
    | .prod p, m, l => produce p m l
    | .cons k, m, l => consume k m l

/-- The system after `create_threads`, no thread having taken a step. -/
def start (cfg : Config) (text : List UInt8) : Global (Mem cfg) (Local cfg) where
  mem := setUp cfg text
  loc
    | .main => .joinProd 0
    | .prod _ => .fgets
    | .cons _ => .waitCons

/-! ### History variables -/

/-- The books, with what the semaphores are used for. -/
structure Books (cfg : Config) extends History cfg where
  /-- The thread that has passed `sem_wait` of a semaphore and not yet posted it. -/
  holder : SemId cfg → Option (Thread cfg)
  /-- The number of passes of `sem_wait(&sems[N+2])`. -/
  granted : ℕ
  /-- The number of calls of `sem_post(&sems[N+2])`. -/
  freed : ℕ
  /-- The block filled for each claim. -/
  block : ℕ → Option Ptr

namespace Books

variable (b : Books cfg)

/-- New entries in the books. -/
def withHistory (h : History cfg) : Books cfg := { b with toHistory := h }

/-- Thread `t` has passed `sem_wait` of `s`. -/
def acquire (s : SemId cfg) (t : Thread cfg) : Books cfg :=
  { b with holder := Function.update b.holder s (some t) }

/-- The holder of `s` has posted it. -/
def release (s : SemId cfg) : Books cfg :=
  { b with holder := Function.update b.holder s none }

@[simp] theorem acquire_holder_self (s : SemId cfg) (t : Thread cfg) :
    (b.acquire s t).holder s = some t := Function.update_self _ _ _

@[simp] theorem release_holder_self (s : SemId cfg) : (b.release s).holder s = none :=
  Function.update_self _ _ _

theorem acquire_holder_of_ne {s s' : SemId cfg} (h : s' ≠ s) (t : Thread cfg) :
    (b.acquire s t).holder s' = b.holder s' := Function.update_of_ne h _ _

theorem release_holder_of_ne {s s' : SemId cfg} (h : s' ≠ s) :
    (b.release s).holder s' = b.holder s' := Function.update_of_ne h _ _

/-- Producer `p` has stored the block `q` for its claim. -/
def fillBlock (p : Fin cfg.P) (q : Ptr) : Books cfg :=
  { b.withHistory (b.fill p) with
    block := Function.update b.block (b.ticket p) (some q) }

end Books

/-- The entries for a step of a producer. -/
def produceBooks (p : Fin cfg.P) (m : Mem cfg) (l : Produce cfg) (b : Books cfg) : Books cfg :=
  match l with
  | .fgets =>
    match Stdio.fgets lineMax m.file with
    | some (line, _) => b.withHistory (b.read p line)
    | none => b
  | .waitProd _ => b.acquire .prod (.prod p)
  | .waitFree _ => { b with granted := b.granted + 1 }
  | .writeCursor _ _ _ => b.withHistory (b.claim p)
  | .waitSlot _ idx => b.acquire (.slot idx) (.prod p)
  | .postProd _ _ => b.release .prod
  | .store _ _ => b.fillBlock p m.fresh
  | .postSlot idx => b.release (.slot idx)
  | _ => b

/-- The entries for a step of a consumer. -/
def consumeBooks (k : Fin cfg.K) (m : Mem cfg) (l : Consume cfg) (b : Books cfg) : Books cfg :=
  match l with
  | .waitCons => b.acquire .cons (.cons k)
  | .postIdle => b.release .cons
  | .writeCursor _ _ => b.withHistory (b.advance k)
  | .waitSlot idx => b.acquire (.slot idx) (.cons k)
  | .clear _ line => b.withHistory (b.take k line (line.bind m.heap))
  | .postFree _ _ => { b with freed := b.freed + 1 }
  | .postCons _ _ => b.release .cons
  | .postSlot idx _ => b.release (.slot idx)
  | _ => b

/-- The system with its books. -/
def booked (cfg : Config) : Program (Thread cfg) (Mem cfg × Books cfg) (Local cfg) :=
  (program cfg).withHistory fun
    | .main, _, _, b => b
    | .prod p, m, l, b => produceBooks p m l b
    | .cons k, m, l, b => consumeBooks k m l b

/-- The start with empty books. -/
def bookStart (cfg : Config) (text : List UInt8) : Global (Mem cfg × Books cfg) (Local cfg) :=
  ⟨(setUp cfg text, ⟨.empty cfg, fun _ => none, 0, 0, fun _ => none⟩), (start cfg text).loc⟩

/-- **The history variables change no run**: without them, a run of the program with the books
is one of the program that the threads execute. -/
theorem erase_booked_run (cfg : Config) (text : List UInt8) (sched : List (Thread cfg)) :
    ((booked cfg).run sched (bookStart cfg text)).erase
      = (program cfg).run sched (start cfg text) :=
  (program cfg).erase_run_withHistory _ sched (bookStart cfg text)

end Sem
end ProdCons
end OpSys
