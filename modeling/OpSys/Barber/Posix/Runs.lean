import Mathlib.Data.Int.Notation
import OpSys.Lib.Machine

/-!
# Runs of the POSIX barber

A named semaphore outlives the process that created it.  A barber opens it, or creates
it with the value 1, runs its loop until a signal ends it, and in `clean_up` closes the
semaphore and unlinks the shared memory, but not the semaphore.  The next barber
finds it with the value the last one left.

A run is modelled up to its calls; what a section does to the shared record is the
business of `OpSys.Barber.Program`.  Clients of any run take and return the semaphore.

## Main definitions

* `Pc`, `Process`, `State` — a barber, and what the kernel keeps between runs.
* `initStep`, `cleanUp`, `Event`, `machine` — the statements of a run, and the histories.
* `Whole` — the semaphore's one token is with the semaphore or with a process.

## Main results

* `step_spec` — the token is lost exactly when a signal ends a run in its section.
* `exclusive` — at most one process is in its section, in any state of any history.
* `value_one_iff` — when the next barber finds the semaphore usable.

## References

`lab6_semaphores_shared_mem/POSIX/barber.c`, `common.h`.
-/

namespace OpSys
namespace Barber
namespace Posix

/-- Where a barber is: before a call of `init_barbershop`, before its last assignments,
before `sem_take`, or between `sem_take` and `sem_return`. -/
inductive Pc
  | shmOpen
  | ftruncate
  | mmap
  | semOpen
  | fill
  | semTake
  | inSection
  deriving DecidableEq, Repr

/-- The process of a barber: `mem_id`, and whether `sem_id` is not NULL. -/
structure Process where
  pc : Pc
  memId : ℤ
  semId : Bool
  deriving DecidableEq, Repr

/-- A process with its handlers installed: global variables start at zero. -/
def Process.new : Process := ⟨.shmOpen, 0, false⟩

/-- What the names refer to, the barber that runs, if one does, and the number of clients
between `sem_take` and `sem_return`. -/
structure State where
  shm : Bool
  sem : Option ℕ
  barber : Option Process
  inside : ℕ
  deriving DecidableEq, Repr

/-- Before the first run. -/
def boot : State := ⟨false, none, none, 0⟩

/-- `exit` with `clean_up`: `sem_close` leaves the named semaphore as it is. -/
def cleanUp (p : Process) (s : State) : State :=
  { s with
    shm := if p.memId ≠ 0 then false else s.shm
    barber := none }

/-- The next statement of a barber, `fd` being what `shm_open` returns. -/
def proceed (fd : ℕ) (p : Process) (s : State) : Option State :=
  match p.pc with
  | .shmOpen => some { s with shm := true, barber := some { p with pc := .ftruncate, memId := fd } }
  | .ftruncate => some { s with barber := some { p with pc := .mmap } }
  | .mmap => some { s with barber := some { p with pc := .semOpen } }
  | .semOpen =>
    -- the initial value 1 counts only if there is no semaphore of this name
    some { s with sem := some (s.sem.getD 1), barber := some { p with pc := .fill, semId := true } }
  | .fill => some { s with barber := some { p with pc := .semTake } }
  | .semTake =>
    match s.sem with
    | some (v + 1) => some { s with sem := some v, barber := some { p with pc := .inSection } }
    | _ => none
  | .inSection =>
    s.sem.map fun v => { s with sem := some (v + 1), barber := some { p with pc := .semTake } }

/-- A call of `init_barbershop` fails, and `EXIT_MSG` exits. -/
def failCall (p : Process) (s : State) : Option State :=
  match p.pc with
  | .shmOpen => some (cleanUp { p with memId := -1 } s)
  | .ftruncate => some (cleanUp p s)
  | .mmap => some (cleanUp p s)
  | .semOpen => some (cleanUp { p with semId := true } s)
  | _ => none

/-- What happens next: a barber is started, goes on or meets a failing call, SIGINT or
SIGTERM is delivered to it, or a client takes or returns the semaphore. -/
inductive Event
  | start
  | proceed (fd : ℕ)
  | failCall
  | signal
  | clientTake
  | clientReturn
  deriving DecidableEq, Repr

/-- The runs of barbers, one after the other. -/
def machine : Machine Event State where
  step
    | .start, s => if s.barber = none then some { s with barber := some .new } else none
    | .proceed fd, s => s.barber.bind fun p => proceed fd p s
    | .failCall, s => s.barber.bind fun p => failCall p s
    | .signal, s => s.barber.map fun p => cleanUp p s
    | .clientTake, s =>
      match s.sem with
      | some (v + 1) => some { s with sem := some v, inside := s.inside + 1 }
      | _ => none
    | .clientReturn, s =>
      if 0 < s.inside then s.sem.map fun v => { s with sem := some (v + 1), inside := s.inside - 1 }
      else none

/-! ### The token -/

/-- 1 if the barber is between `sem_take` and `sem_return`. -/
def barberInside : Option Process → ℕ
  | some ⟨.inSection, _, _⟩ => 1
  | _ => 0

/-- `sem_open` is over. -/
def Pc.Opened (pc : Pc) : Prop := pc = .fill ∨ pc = .semTake ∨ pc = .inSection

/-- The value of the semaphore, and the processes that are to return it. -/
def tokens (s : State) : ℕ := s.sem.getD 0 + s.inside + barberInside s.barber

/-- The token has not been lost. -/
def Whole (s : State) : Prop := s.sem = none ∨ tokens s = 1

/-- What holds in every state of every history. -/
structure Sound (s : State) : Prop where
  tokens_le : tokens s ≤ 1
  inside_of_none : s.sem = none → s.inside = 0
  isSome_of_opened : ∀ p, s.barber = some p → p.pc.Opened → s.sem.isSome

/-- The signal is not delivered between `sem_take` and `sem_return`. -/
def NotInside (e : Event) (s : State) : Prop :=
  e = .signal → barberInside s.barber = 0

theorem sound_boot : Sound boot := by
  refine ⟨by decide, fun _ => rfl, fun p hp _ => ?_⟩
  exact absurd hp (Option.some_ne_none _).symm

theorem whole_boot : Whole boot := Or.inl rfl

@[simp] theorem barberInside_none : barberInside none = 0 := rfl

theorem barberInside_some (p : Process) :
    barberInside (some p) = if p.pc = .inSection then 1 else 0 := by
  obtain ⟨pc, memId, semId⟩ := p
  cases pc <;> rfl

/-- Without a semaphore the barber is not inside. -/
theorem Sound.barberInside_of_none {s : State} (hs : Sound s) (hnone : s.sem = none) :
    barberInside s.barber = 0 := by
  cases hb : s.barber with
  | none => rfl
  | some p =>
    rw [barberInside_some, if_neg]
    intro hpc
    have hsem := hs.isSome_of_opened p hb (Or.inr (Or.inr hpc))
    rw [hnone] at hsem
    exact Bool.noConfusion hsem

/-- A statement of the barber creates the semaphore with its token, or moves the token. -/
theorem spec_proceed {fd : ℕ} {p : Process} {s s' : State} (hs : Sound s)
    (hp : s.barber = some p) (h : proceed fd p s = some s') : Sound s' ∧ (Whole s' ↔ Whole s) := by
  obtain ⟨shm, sem, barber, inside⟩ := s
  obtain ⟨pc, memId, semId⟩ := p
  obtain rfl : barber = some ⟨pc, memId, semId⟩ := hp
  obtain ⟨hle, hnone, hsome⟩ := hs
  cases pc with
  | semTake =>
    cases sem with
    | none => cases h
    | some v =>
      cases v with
      | zero => cases h
      | succ v =>
        -- from the semaphore to the barber
        obtain rfl := Option.some.inj h
        refine ⟨⟨?_, ?_, ?_⟩, ?_⟩ <;> simp_all [tokens, barberInside, Whole] <;> omega
  | inSection =>
    cases sem with
    | none => cases h
    | some v =>
      -- and back
      obtain rfl := Option.some.inj h
      refine ⟨⟨?_, ?_, ?_⟩, ?_⟩ <;> simp_all [tokens, barberInside, Whole]
  | semOpen =>
    obtain rfl := Option.some.inj h
    cases sem with
    | none => refine ⟨⟨?_, ?_, ?_⟩, ?_⟩ <;> simp_all [tokens, barberInside, Whole]
    | some v => refine ⟨⟨?_, ?_, ?_⟩, ?_⟩ <;> simp_all [tokens, barberInside, Whole]
  | _ =>
    obtain rfl := Option.some.inj h
    refine ⟨⟨?_, ?_, ?_⟩, ?_⟩ <;> simp_all [tokens, barberInside, Whole, Pc.Opened]

theorem tokens_cleanUp (p : Process) (s : State) :
    tokens (cleanUp p s) + barberInside s.barber = tokens s := rfl

theorem sound_cleanUp {s : State} (hs : Sound s) (p : Process) : Sound (cleanUp p s) := by
  have htok := tokens_cleanUp p s
  have hle := hs.tokens_le
  refine ⟨by omega, hs.inside_of_none, fun p hp _ => ?_⟩
  exact absurd hp (Option.some_ne_none _).symm

/-- `clean_up` keeps the token, unless the barber has it. -/
theorem whole_cleanUp {s : State} (hs : Sound s) (p : Process) (hw : Whole s) :
    Whole (cleanUp p s) ↔ barberInside s.barber = 0 := by
  have htok := tokens_cleanUp p s
  by_cases hnone : s.sem = none
  · exact iff_of_true (Or.inl hnone) (hs.barberInside_of_none hnone)
  · have hone := hw.resolve_left hnone
    have hnone' : (cleanUp p s).sem ≠ none := hnone
    rw [Whole, or_iff_right hnone']
    omega

/-- A lost token does not come back. -/
theorem not_whole_cleanUp {s : State} (hs : Sound s) (p : Process) (hw : ¬Whole s) :
    ¬Whole (cleanUp p s) := by
  have htok := tokens_cleanUp p s
  have hle := hs.tokens_le
  rintro (hnone | hone)
  · exact hw (Or.inl hnone)
  · exact hw (Or.inr (by omega))

theorem cleanUp_of_failCall {p : Process} {s s' : State} (h : failCall p s = some s') :
    ∃ q, s' = cleanUp q s ∧ p.pc ≠ .inSection := by
  obtain ⟨pc, memId, semId⟩ := p
  cases pc
  case shmOpen => exact ⟨_, (Option.some.inj h).symm, by simp⟩
  case ftruncate => exact ⟨_, (Option.some.inj h).symm, by simp⟩
  case mmap => exact ⟨_, (Option.some.inj h).symm, by simp⟩
  case semOpen => exact ⟨_, (Option.some.inj h).symm, by simp⟩
  all_goals cases h

/-- The steps of a client move the token. -/
theorem spec_client {e : Event} {s s' : State} (hs : Sound s) (h : machine.step e s = some s')
    (he : e = .clientTake ∨ e = .clientReturn) : Sound s' ∧ (Whole s' ↔ Whole s) := by
  obtain ⟨shm, sem, barber, inside⟩ := s
  obtain ⟨hle, hnone, hsome⟩ := hs
  cases sem with
  -- a token that is taken or returned stays one token
  | none =>
    rcases he with rfl | rfl
    · cases h
    · obtain rfl : inside = 0 := hnone rfl
      cases h
  | some v =>
    rcases he with rfl | rfl
    · cases v with
      | zero => cases h
      | succ v =>
        obtain rfl := Option.some.inj h
        have htok : v + (inside + 1) + barberInside barber =
            v + 1 + inside + barberInside barber := by omega
        refine ⟨⟨?_, fun hn => absurd hn (Option.some_ne_none _), fun _ _ _ => rfl⟩, ?_⟩
        · exact Nat.le_trans (Nat.le_of_eq htok) hle
        · simp [Whole, tokens, htok]
    · cases inside with
      | zero => cases h
      | succ inside =>
        obtain rfl := Option.some.inj h
        have htok : v + 1 + inside + barberInside barber =
            v + (inside + 1) + barberInside barber := by omega
        refine ⟨⟨?_, fun hn => absurd hn (Option.some_ne_none _), fun _ _ _ => rfl⟩, ?_⟩
        · exact Nat.le_trans (Nat.le_of_eq htok) hle
        · simp [Whole, tokens, htok]

/-- A new barber does not have the token. -/
theorem spec_start {s : State} (hs : Sound s) (hb : s.barber = none) :
    Sound { s with barber := some .new } ∧ (Whole { s with barber := some .new } ↔ Whole s) := by
  have htok : tokens { s with barber := some .new } = tokens s := by
    rw [tokens, tokens, hb]
    rfl
  refine ⟨⟨?_, hs.inside_of_none, fun p hp hopened => ?_⟩, ?_⟩
  · exact Nat.le_trans (Nat.le_of_eq htok) hs.tokens_le
  · obtain rfl := Option.some.inj hp
    simp [Pc.Opened, Process.new] at hopened
  · rw [Whole, Whole, htok]

/-- **What one step does to the token**: a signal in the section loses it, and nothing
brings it back. -/
theorem step_spec {e : Event} {s s' : State} (hs : Sound s) (h : machine.step e s = some s') :
    Sound s' ∧ (Whole s → (Whole s' ↔ NotInside e s)) ∧ (¬Whole s → ¬Whole s') := by
  -- only a signal can lose one
  have hmoved : Sound s' ∧ (Whole s' ↔ Whole s) → e ≠ .signal →
      Sound s' ∧ (Whole s → (Whole s' ↔ NotInside e s)) ∧ (¬Whole s → ¬Whole s') :=
    fun hspec he => ⟨hspec.1, fun hw => iff_of_true (hspec.2.mpr hw) fun h => absurd h he,
      fun hw hw' => hw (hspec.2.mp hw')⟩
  cases e with
  | start =>
    by_cases hb : s.barber = none
    · obtain rfl := Option.some.inj ((if_pos hb).symm.trans h)
      exact hmoved (spec_start hs hb) (by decide)
    · exact absurd ((if_neg hb).symm.trans h) (Option.some_ne_none _).symm
  | proceed fd =>
    obtain ⟨p, hp, h⟩ := Option.bind_eq_some_iff.mp h
    exact hmoved (spec_proceed hs hp h) (by simp)
  | failCall =>
    obtain ⟨p, hp, h⟩ := Option.bind_eq_some_iff.mp h
    obtain ⟨q, rfl, hpc⟩ := cleanUp_of_failCall h
    have hzero : barberInside s.barber = 0 := by rw [hp, barberInside_some, if_neg hpc]
    refine ⟨sound_cleanUp hs q, fun hw => ?_, not_whole_cleanUp hs q⟩
    exact iff_of_true ((whole_cleanUp hs q hw).mpr hzero) fun _ => hzero
  | signal =>
    obtain ⟨p, hp, rfl⟩ := Option.map_eq_some_iff.mp h
    refine ⟨sound_cleanUp hs p, fun hw => ?_, not_whole_cleanUp hs p⟩
    rw [whole_cleanUp hs p hw]
    -- the signal ends the barber with the token it may hold
    exact ⟨fun hzero _ => hzero, fun hok => hok rfl⟩
  | clientTake => exact hmoved (spec_client hs h (Or.inl rfl)) (by decide)
  | clientReturn => exact hmoved (spec_client hs h (Or.inr rfl)) (by decide)

/-! ### Histories -/

theorem sound_run (es : List Event) : Sound (machine.run es boot) :=
  machine.run_invariant (fun _ _ _ hs h => (step_spec hs h).1) es sound_boot

/-- At most one process is between `sem_take` and `sem_return`, whatever the signals do. -/
theorem exclusive (es : List Event) :
    (machine.run es boot).inside + barberInside (machine.run es boot).barber ≤ 1 := by
  have := (sound_run es).tokens_le
  rw [tokens] at this
  omega

theorem whole_run_iff (es : List Event) :
    Whole (machine.run es boot) ↔ machine.Meets NotInside es boot :=
  Machine.good_run_iff_meets (fun _ _ _ hs h => (step_spec hs h).1)
    (fun _ _ _ hs hw h => (step_spec hs h).2.1 hw) (fun _ _ _ hs hw h => (step_spec hs h).2.2 hw)
    es sound_boot whole_boot

/-- **When the next barber finds the semaphore usable.**  After `init_barbershop`, and at every
later turn of the loop, with no client inside, the value is 1 if and only if no earlier run
was ended between `sem_take` and `sem_return`. -/
theorem value_one_iff (es : List Event) {p : Process} (hp : (machine.run es boot).barber = some p)
    (hpc : p.pc = .semTake) (hinside : (machine.run es boot).inside = 0) :
    (machine.run es boot).sem = some 1 ↔ machine.Meets NotInside es boot := by
  have hsem := (sound_run es).isSome_of_opened p hp (Or.inr (Or.inl hpc))
  obtain ⟨v, hv⟩ := Option.isSome_iff_exists.mp hsem
  have hzero : barberInside (some p) = 0 := by
    rw [barberInside_some, hpc]
    rfl
  rw [← whole_run_iff, Whole, tokens, hv, hp, hinside, hzero]
  simp

/-- A first run that is ended after `n` of its statements, and a second one up to its loop. -/
def twoRuns (n : ℕ) : List Event :=
  .start :: (List.replicate n (.proceed 3) ++ .signal :: .start :: List.replicate 5 (.proceed 3))

/-- With the first run ended in its loop outside the section, the second one can work. -/
theorem value_one_iff_twoRuns : (machine.run (twoRuns 5) boot).sem = some 1 ↔
    machine.Meets NotInside (twoRuns 5) boot :=
  value_one_iff (twoRuns 5) (p := ⟨.semTake, 3, true⟩) (by decide) rfl (by decide)

/-- With the first run ended inside it, the second one waits for ever. -/
theorem second_run_blocked : ¬ (machine.run (twoRuns 6) boot).sem = some 1 := by decide

end Posix
end Barber
end OpSys
