import OpSys.Lib.Interleave
import OpSys.ProdCons.Books

/-!
# Producers and consumers with mutexes and condition variables

The threads of `mutex/main.c`.  Every call on a mutex or a condition variable and
every read or write of `shared_resource`, `curr_prod`, `curr_cons` and
`done_producing` is a step of its own, `fgets` is one step, and `strcpy` writes
one byte a step.  `pthread_cond_wait` releases its mutex and falls asleep in one
step, and is over when the thread has been woken and has the mutex again; a
broadcast wakes the threads that are asleep.  With `spurious` set a thread may
also wake without a broadcast.

## Main definitions

* `MutexId`, `Cond`, `Mem` — the mutexes, the condition variables and the shared
  memory.
* `produce`, `consume`, `waitThreads` — the steps of the threads.
* `program`, `start` — the system after `create_threads`.
* `booked`, `bookStart` — the system with history variables.

## References

`lab7_synch_threads/mutex/main.c`.
-/

namespace OpSys
namespace ProdCons
namespace Mutex

/-- The mutexes. -/
inductive MutexId (cfg : Config)
  /-- `resource_mutexes[i]`. -/
  | slot (i : Fin cfg.N)
  /-- `prod_mutex`. -/
  | prod
  /-- `cons_mutex`. -/
  | cons
  deriving DecidableEq

/-- The condition variables. -/
inductive Cond
  /-- `read_cond`. -/
  | read
  /-- `write_cond`. -/
  | write
  deriving DecidableEq

/-- The shared memory. -/
structure Mem (cfg : Config) extends Store cfg where
  /-- The thread that holds a mutex. -/
  owner : MutexId cfg → Option (Thread cfg)
  /-- The condition variable a thread is asleep on. -/
  asleep : Thread cfg → Option Cond

variable {cfg : Config}

namespace Mem

variable (m : Mem cfg)

/-- A change of the variables that are neither mutexes nor condition variables. -/
def withStore (s : Store cfg) : Mem cfg := { m with toStore := s }

/-- Mutex `s` is handed to `t`, or to nobody. -/
def withOwner (s : MutexId cfg) (t : Option (Thread cfg)) : Mem cfg :=
  { m with owner := Function.update m.owner s t }

/-- `t` falls asleep, or wakes. -/
def withSleep (t : Thread cfg) (c : Option Cond) : Mem cfg :=
  { m with asleep := Function.update m.asleep t c }

/-- `pthread_mutex_lock`. -/
def lock (s : MutexId cfg) (t : Thread cfg) : Option (Mem cfg) :=
  if m.owner s = none then some (m.withOwner s (some t)) else none

/-- `pthread_mutex_unlock`. -/
def unlock (s : MutexId cfg) : Mem cfg := m.withOwner s none

/-- `pthread_cond_wait`, up to the sleep. -/
def condWait (c : Cond) (s : MutexId cfg) (t : Thread cfg) : Mem cfg :=
  (m.withOwner s none).withSleep t (some c)

/-- The end of `pthread_cond_wait`. -/
def reacquire (spurious : Bool) (s : MutexId cfg) (t : Thread cfg) : Option (Mem cfg) :=
  if (m.asleep t).isSome && !spurious then none else (m.withSleep t none).lock s t

/-- `pthread_cond_broadcast`. -/
def broadcast (c : Cond) : Mem cfg :=
  { m with asleep := fun t => if m.asleep t = some c then none else m.asleep t }

end Mem

/-- The shared memory after `set_up`. -/
def setUp (cfg : Config) (text : List UInt8) : Mem cfg where
  toStore := cfg.setUp text
  owner := fun _ => none
  asleep := fun _ => none

/-! ### The producers -/

/-- Where a producer is in `produce`. -/
inductive Produce (cfg : Config)
  /-- At the condition of the loop. -/
  | fgets
  /-- At `pthread_mutex_lock(&prod_mutex)`. -/
  | lockProd (line : List UInt8)
  /-- At the read of `curr_prod` in the condition of the inner loop. -/
  | readCursor (line : List UInt8)
  /-- At the read of `shared_resource[curr_prod]` in the same place. -/
  | testSlot (line : List UInt8) (cur : Fin cfg.N)
  /-- At `pthread_cond_wait(&write_cond, &prod_mutex)`. -/
  | condWait (line : List UInt8)
  /-- In `pthread_cond_wait`. -/
  | asleep (line : List UInt8)
  /-- At `curr_index = curr_prod`. -/
  | readIndex (line : List UInt8)
  /-- At the read of `curr_prod` in `curr_prod = (curr_prod+1) % N`. -/
  | readNext (line : List UInt8) (idx : Fin cfg.N)
  /-- At the write, having read `cur`. -/
  | writeCursor (line : List UInt8) (idx cur : Fin cfg.N)
  /-- At `pthread_mutex_lock(&resource_mutexes[curr_index])`. -/
  | lockSlot (line : List UInt8) (idx : Fin cfg.N)
  /-- At `shared_resource[curr_index] = malloc(…)`. -/
  | store (line : List UInt8) (idx : Fin cfg.N)
  /-- At the read of `shared_resource[curr_index]` for `strcpy`. -/
  | readDst (line : List UInt8) (idx : Fin cfg.N)
  /-- In `strcpy`, with the bytes still to be written. -/
  | copy (idx : Fin cfg.N) (dst : Ptr) (rest : List UInt8)
  /-- At `pthread_cond_broadcast(&read_cond)`. -/
  | broadcast (idx : Fin cfg.N)
  /-- At `pthread_mutex_unlock(&resource_mutexes[curr_index])`. -/
  | unlockSlot (idx : Fin cfg.N)
  /-- At `pthread_mutex_unlock(&prod_mutex)`. -/
  | unlockProd
  | returned
  deriving DecidableEq

/-- The next step of a producer. -/
def produce (spurious : Bool) (p : Fin cfg.P) (m : Mem cfg) :
    Produce cfg → Option (Mem cfg × Produce cfg)
  | .fgets =>
    match Stdio.fgets lineMax m.file with
    | some (line, rest) => some ({ m with file := rest }, .lockProd line)
    | none => some (m.withStore (m.exit (.prod p)), .returned)
  | .lockProd line => (m.lock .prod (.prod p)).map (·, .readCursor line)
  | .readCursor line => some (m, .testSlot line m.currProd)
  | .testSlot line cur =>
    if m.sharedResource cur ≠ none then some (m, .condWait line) else some (m, .readIndex line)
  | .condWait line => some (m.condWait .write .prod (.prod p), .asleep line)
  | .asleep line => (m.reacquire spurious .prod (.prod p)).map (·, .readCursor line)
  | .readIndex line => some (m, .readNext line m.currProd)
  | .readNext line idx => some (m, .writeCursor line idx m.currProd)
  | .writeCursor line idx cur => some ({ m with currProd := cfg.next cur }, .lockSlot line idx)
  | .lockSlot line idx => (m.lock (.slot idx) (.prod p)).map (·, .store line idx)
  | .store line idx => some (m.withStore (m.malloc idx), .readDst line idx)
  | .readDst line idx =>
    -- `strcpy` to a null pointer has no meaning
    (m.sharedResource idx).map fun dst => (m, .copy idx dst (Stdio.strcpyBytes line))
  | .copy idx _ [] => some (m, .broadcast idx)
  | .copy idx dst (b :: rest) => some (m.withStore (m.putByte dst b), .copy idx dst rest)
  | .broadcast idx => some (m.broadcast .read, .unlockSlot idx)
  | .unlockSlot idx => some (m.unlock (.slot idx), .unlockProd)
  | .unlockProd => some (m.unlock .prod, .fgets)
  | .returned => none

/-! ### The consumers -/

/-- Where a consumer is in `consume`. -/
inductive Consume (cfg : Config)
  /-- At `pthread_mutex_lock(&cons_mutex)`. -/
  | lockCons
  /-- At the read of `curr_cons` in the condition of the inner loop. -/
  | readCursor
  /-- At the read of `shared_resource[curr_cons]` in the same place. -/
  | testSlot (cur : Fin cfg.N)
  /-- At `if (done_producing)`. -/
  | testDone
  /-- At `pthread_mutex_unlock(&cons_mutex)` before the return. -/
  | unlockDone
  /-- At `return NULL`. -/
  | leave
  /-- At `pthread_cond_wait(&read_cond, &cons_mutex)`. -/
  | condWait
  /-- In `pthread_cond_wait`. -/
  | asleep
  /-- At `curr_index = curr_cons`. -/
  | readIndex
  /-- At the read of `curr_cons` in `curr_cons = (curr_cons+1) % N`. -/
  | readNext (idx : Fin cfg.N)
  /-- At the write, having read `cur`. -/
  | writeCursor (idx cur : Fin cfg.N)
  /-- At `pthread_mutex_lock(&resource_mutexes[curr_index])`. -/
  | lockSlot (idx : Fin cfg.N)
  /-- At `pthread_mutex_unlock(&cons_mutex)` before the slot is emptied. -/
  | unlockCons (idx : Fin cfg.N)
  /-- At `line = shared_resource[curr_index]`. -/
  | readLine (idx : Fin cfg.N)
  /-- At `shared_resource[curr_index] = NULL`. -/
  | clear (idx : Fin cfg.N) (line : Option Ptr)
  /-- At `pthread_cond_broadcast(&write_cond)`. -/
  | broadcast (idx : Fin cfg.N) (line : Option Ptr)
  /-- At `pthread_mutex_unlock(&resource_mutexes[curr_index])`. -/
  | unlockSlot (idx : Fin cfg.N) (line : Option Ptr)
  /-- At `if (line != NULL && found_len(…))`. -/
  | examine (line : Option Ptr)
  /-- At `free(line)`. -/
  | free (line : Option Ptr)
  | returned
  deriving DecidableEq

/-- The next step of a consumer. -/
def consume (spurious : Bool) (k : Fin cfg.K) (m : Mem cfg) :
    Consume cfg → Option (Mem cfg × Consume cfg)
  | .lockCons => (m.lock .cons (.cons k)).map (·, .readCursor)
  | .readCursor => some (m, .testSlot m.currCons)
  | .testSlot cur =>
    if m.sharedResource cur = none then some (m, .testDone) else some (m, .readIndex)
  | .testDone => if m.doneProducing then some (m, .unlockDone) else some (m, .condWait)
  | .unlockDone => some (m.unlock .cons, .leave)
  | .leave => some (m.withStore (m.exit (.cons k)), .returned)
  | .condWait => some (m.condWait .read .cons (.cons k), .asleep)
  | .asleep => (m.reacquire spurious .cons (.cons k)).map (·, .readCursor)
  | .readIndex => some (m, .readNext m.currCons)
  | .readNext idx => some (m, .writeCursor idx m.currCons)
  | .writeCursor idx cur => some ({ m with currCons := cfg.next cur }, .lockSlot idx)
  | .lockSlot idx => (m.lock (.slot idx) (.cons k)).map (·, .unlockCons idx)
  | .unlockCons idx => some (m.unlock .cons, .readLine idx)
  | .readLine idx => some (m, .clear idx (m.sharedResource idx))
  | .clear idx line => some (m.withStore (m.clear idx), .broadcast idx line)
  | .broadcast idx line => some (m.broadcast .write, .unlockSlot idx line)
  | .unlockSlot idx line => some (m.unlock (.slot idx), .examine line)
  | .examine line => some (m.withStore (m.examine k line), .free line)
  | .free line => some (m.withStore (m.free line), .lockCons)
  | .returned => none

/-! ### The main thread -/

/-- Where the main thread is in `wait_threads`. -/
inductive WaitThreads
  /-- At the join of producer `p`. -/
  | joinProd (p : ℕ)
  /-- At `done_producing = true`. -/
  | setDone
  /-- At `pthread_cond_broadcast(&read_cond)`. -/
  | broadcast
  /-- At the join of consumer `k`. -/
  | joinCons (k : ℕ)
  /-- After `wait_threads`. -/
  | cleanUp
  deriving DecidableEq

/-- The next step of the main thread. -/
def waitThreads (m : Mem cfg) : WaitThreads → Option (Mem cfg × WaitThreads)
  | .joinProd p =>
    if hp : p < cfg.P then
      if m.exited (.prod ⟨p, hp⟩) then some (m, .joinProd (p + 1)) else none
    else some (m, .setDone)
  | .setDone => some ({ m with doneProducing := true }, .broadcast)
  | .broadcast => some (m.broadcast .read, .joinCons 0)
  | .joinCons k =>
    if hk : k < cfg.K then
      if m.exited (.cons ⟨k, hk⟩) then some (m, .joinCons (k + 1)) else none
    else some (m, .cleanUp)
  | .cleanUp => none

/-! ### The system -/

/-- The local state of a thread. -/
@[reducible] def Local (cfg : Config) : Thread cfg → Type
  | .main => WaitThreads
  | .prod _ => Produce cfg
  | .cons _ => Consume cfg

/-- The system of the main thread, the producers and the consumers. -/
def program (cfg : Config) (spurious : Bool) : Program (Thread cfg) (Mem cfg) (Local cfg) where
  step
    | .main, m, l => waitThreads m l
    | .prod p, m, l => produce spurious p m l
    | .cons k, m, l => consume spurious k m l

/-- The system after `create_threads`, no thread having taken a step. -/
def start (cfg : Config) (text : List UInt8) : Global (Mem cfg) (Local cfg) where
  mem := setUp cfg text
  loc
    | .main => .joinProd 0
    | .prod _ => .fgets
    | .cons _ => .lockCons

/-! ### History variables -/

/-- The entries for a step of a producer. -/
def produceBooks (p : Fin cfg.P) (m : Mem cfg) (l : Produce cfg) (h : History cfg) :
    History cfg :=
  match l with
  | .fgets =>
    match Stdio.fgets lineMax m.file with
    | some (line, _) => h.read p line
    | none => h
  | .writeCursor _ _ _ => h.claim p
  | .store _ _ => h.fill p
  | _ => h

/-- The entries for a step of a consumer. -/
def consumeBooks (k : Fin cfg.K) (m : Mem cfg) (l : Consume cfg) (h : History cfg) :
    History cfg :=
  match l with
  | .writeCursor _ _ => h.advance k
  | .clear _ line => h.take k line (line.bind m.heap)
  | _ => h

/-- The system with its books. -/
def booked (cfg : Config) (spurious : Bool) :
    Program (Thread cfg) (Mem cfg × History cfg) (Local cfg) :=
  (program cfg spurious).withHistory fun
    | .main, _, _, h => h
    | .prod p, m, l, h => produceBooks p m l h
    | .cons k, m, l, h => consumeBooks k m l h

/-- The start with empty books. -/
def bookStart (cfg : Config) (text : List UInt8) :
    Global (Mem cfg × History cfg) (Local cfg) :=
  ⟨(setUp cfg text, .empty cfg), (start cfg text).loc⟩

/-- **The history variables change no run**: without them, a run of the program with the books
is one of the program that the threads execute. -/
theorem erase_booked_run (cfg : Config) (spurious : Bool) (text : List UInt8)
    (sched : List (Thread cfg)) :
    ((booked cfg spurious).run sched (bookStart cfg text)).erase
      = (program cfg spurious).run sched (start cfg text) :=
  (program cfg spurious).erase_run_withHistory _ sched (bookStart cfg text)

/-! ### Mutexes -/

section Owner

variable {m m' : Mem cfg} {s s' : MutexId cfg} {t : Thread cfg}

@[simp] theorem withOwner_self (u : Option (Thread cfg)) : (m.withOwner s u).owner s = u :=
  Function.update_self _ _ _

theorem withOwner_of_ne (h : s' ≠ s) (u : Option (Thread cfg)) :
    (m.withOwner s u).owner s' = m.owner s' := Function.update_of_ne h _ _

/-- A mutex that nobody holds can be locked. -/
theorem lock_of_none (h : m.owner s = none) : m.lock s t = some (m.withOwner s (some t)) :=
  if_pos h

/-- Locking and unlocking a free mutex changes nothing. -/
theorem unlock_withOwner (h : m.owner s = none) (u : Option (Thread cfg)) :
    (m.withOwner s u).unlock s = m := by
  show { m with owner := Function.update (Function.update m.owner s u) s none } = m
  rw [Function.update_idem, ← h, Function.update_eq_self]

theorem lock_eq_some (h : m.lock s t = some m') :
    m.owner s = none ∧ m' = m.withOwner s (some t) := by
  unfold Mem.lock at h
  split at h
  case isTrue hnone => exact ⟨hnone, (Option.some.inj h).symm⟩
  case isFalse => exact absurd h (Option.some_ne_none _).symm

theorem reacquire_eq_some {spurious : Bool} (h : m.reacquire spurious s t = some m') :
    m.owner s = none ∧ m' = (m.withSleep t none).withOwner s (some t) := by
  unfold Mem.reacquire at h
  split at h
  case isTrue => exact absurd h (Option.some_ne_none _).symm
  case isFalse => exact lock_eq_some h

end Owner

end Mutex
end ProdCons
end OpSys
