import OpSys.Lib.Machine
import OpSys.Lib.Records

/-!
# The statistics of the exchange

The exchange of signals for all three values of `TYPE`, with the variables that `print_stats`
is about.  `sent_to_child` counts the signals of the loop, and SIGRTMAX before it is sent, but
not SIGUSR2.  The child's count comes to the parent as the argument of its `exit`, of which
`waitpid` reports the low 8 bits, and not at all when an answer interrupts `waitpid`.

SIGINT can be delivered to the child at any time.  The handlers of both are installed at the
start, and a SIGINT to the parent, which ends it before its end, is not followed.

## Main definitions

* `Args` — the arguments that `main` accepts.
* `Parent`, `Frame`, `Child`, `State` — the two processes.
* `Event`, `machine` — the statements and the deliveries.
* `Stats` — what the statistics mean.
* `Reported` — the condition of a step.
* `Sound` — what holds in every state.

## Main results

* `Sound.step` — the invariant.
* `good_step` — what one step does to the child's report.
* `statistics_iff` — the runs whose statistics are right.

## References

`lab4_signals_and_pipes/sigusr/user_sigs.c`.
-/

namespace OpSys
namespace Signals
namespace Statistics

open Records (toInt toInt_of_lt)

/-- The arguments with which `main` forks. -/
structure Args where
  L : ℤ
  type : ℤ
  one_le_L : 1 ≤ L
  L_lt : L < 2 ^ 31
  one_le_type : 1 ≤ type
  type_le : type ≤ 3

/-- How often a signal is pending after it has been sent once more: the real-time signals are
queued. -/
def Args.post (a : Args) (n : ℕ) : ℕ := if a.type = 3 then n + 1 else 1

/-- The status of a process that has called `exit`. -/
def exitStatus (n : ℕ) : ℕ := n % 256 * 256

def wifexited (status : ℕ) : Bool := status % 128 = 0

def wexitstatus (status : ℕ) : ℕ := status / 256 % 256

/-- Where the parent is in `parent_process`: before a statement, in `sigsuspend`, in `waitpid`,
at the end, past the return of `main`, or past the `exit` that reports a failure.  The last
signal is SIGUSR2 or SIGRTMAX. -/
inductive ParentPc
  | test
  | kill
  | sigsuspend
  | suspended
  | increment
  | incrementLast
  | killLast
  | waitpid
  | waiting
  | testStatus
  | finished
  | returned
  | failed
  deriving DecidableEq, Repr

/-- `waitpid` has returned. -/
def ParentPc.isPast : ParentPc → Bool
  | testStatus => true
  | finished => true
  | returned => true
  | failed => true
  | _ => false

/-- The process has ended. -/
def ParentPc.isGone : ParentPc → Bool
  | returned => true
  | failed => true
  | _ => false

/-- The parent: `handling` while `parent_handler` runs, `reaped` once `waitpid` has returned
the child's pid, `pending` answers; `kills` counts the calls of `kill`. -/
structure Parent where
  pc : ParentPc
  handling : Bool
  sentToChild : ℤ
  receivedByParent : ℕ
  receivedByChild : ℕ
  status : ℕ
  reaped : Bool
  pending : ℕ
  kills : ℕ
  deriving DecidableEq, Repr

/-- A call of `child_handler`: for SIGUSR1 or SIGRTMIN before it tests `si_pid`, before `kill`,
or before its return; for the last signal before the test or before `exit`; for SIGINT before
it blocks all signals, or after. -/
inductive Frame
  | enter
  | answer
  | leave
  | lastEnter
  | lastExit
  | intEnter
  | intExit
  deriving DecidableEq, Repr

/-- The call is for SIGUSR1 or SIGRTMIN, which is blocked while it lasts. -/
def Frame.isFirst : Frame → Bool
  | enter => true
  | answer => true
  | leave => true
  | _ => false

def Frame.isLast : Frame → Bool
  | lastEnter => true
  | lastExit => true
  | _ => false

def Frame.isInt : Frame → Bool
  | intEnter => true
  | intExit => true
  | _ => false

/-- The child: the pending signals, the calls of its handler, the inner ones first, and its
`received_by_child`. -/
structure Child where
  pending : ℕ
  lastPending : ℕ
  frames : List Frame
  exited : Bool
  receivedByChild : ℕ
  deriving DecidableEq, Repr

structure State where
  parent : Parent
  child : Child
  deriving DecidableEq, Repr

/-- The parent after its `sleep`, the child in its loop. -/
def start : State := ⟨⟨.test, false, 0, 0, 0, 0, false, 0, 0⟩, ⟨0, 0, [], false, 0⟩⟩

/-- The next statement of the parent, or of its handler. -/
def parentStep (a : Args) (s : State) : Option State :=
  let p := s.parent
  if p.handling then
    let p := { p with handling := false, receivedByParent := p.receivedByParent + 1 }
    match p.pc with
    | .suspended => some { s with parent := { p with pc := .increment } }
    -- without SA_RESTART the handler interrupts `waitpid`, and `status` stays 0
    | .waiting => some { s with parent := { p with pc := .testStatus } }
    | _ => some { s with parent := p }
  else
    match p.pc with
    | .test =>
      if p.sentToChild < a.L then some { s with parent := { p with pc := .kill } }
      else if a.type = 3 then some { s with parent := { p with pc := .incrementLast } }
      else some { s with parent := { p with pc := .killLast } }
    | .kill =>
      some ⟨{ p with pc := if a.type = 2 then .sigsuspend else .increment, kills := p.kills + 1 },
        { s.child with pending := a.post s.child.pending }⟩
    | .sigsuspend => some { s with parent := { p with pc := .suspended } }
    | .suspended => none
    | .increment =>
      some { s with parent := { p with pc := .test, sentToChild := toInt (p.sentToChild + 1) } }
    | .incrementLast =>
      some { s with parent := { p with pc := .killLast, sentToChild := toInt (p.sentToChild + 1) } }
    | .killLast =>
      some ⟨{ p with pc := .waitpid, kills := p.kills + 1 },
        { s.child with lastPending := a.post s.child.lastPending }⟩
    | .waitpid => some { s with parent := { p with pc := .waiting } }
    | .waiting =>
      if s.child.exited then
        some { s with
          parent := { p with
            pc := .testStatus
            status := exitStatus s.child.receivedByChild
            reaped := true } }
      else none
    | .testStatus =>
      if wifexited p.status then
        some { s with
          parent := { p with pc := .finished, receivedByChild := wexitstatus p.status } }
      else some { s with parent := { p with pc := .failed } }
    | .finished => some { s with parent := { p with pc := .returned } }
    | .returned => none
    | .failed => none

/-- The child calls `exit`. -/
def Child.exit (c : Child) : Child :=
  { c with pending := 0, lastPending := 0, frames := [], exited := true }

/-- The next statement of the child's innermost handler. -/
def childStep (a : Args) (s : State) : Option State :=
  let c := s.child
  match c.frames with
  | [] => none
  | .enter :: frames =>
    -- `info->si_pid != getppid()` once the parent is gone
    if s.parent.pc.isGone then some { s with child := { c with frames := frames } }
    else
      some { s with
        child := { c with
          frames := .answer :: frames
          receivedByChild := c.receivedByChild + 1 } }
  | .answer :: frames =>
    if s.parent.pc.isGone then
      some { s with child := { c with frames := .leave :: frames } }
    else
      some ⟨{ s.parent with pending := a.post s.parent.pending },
        { c with frames := .leave :: frames }⟩
  | .leave :: frames => some { s with child := { c with frames := frames } }
  | .lastEnter :: frames =>
    if s.parent.pc.isGone then some { s with child := { c with frames := frames } }
    else
      some { s with
        child := { c with
          frames := .lastExit :: frames
          receivedByChild := c.receivedByChild + 1 } }
  | .lastExit :: _ => some { s with child := c.exit }
  | .intEnter :: frames => some { s with child := { c with frames := .intExit :: frames } }
  | .intExit :: _ => some { s with child := c.exit }

/-- What happens next: a statement of a process, or the delivery of a signal. -/
inductive Event
  | parent
  | child
  | toParent
  | toChild
  | lastToChild
  | intToChild
  deriving DecidableEq, Repr

/-- The exchange. -/
def machine (a : Args) : Machine Event State where
  step
    | .parent, s => parentStep a s
    | .child, s => if s.child.exited then none else childStep a s
    | .toParent, s =>
      if 0 < s.parent.pending ∧ s.parent.handling = false ∧ s.parent.pc.isGone = false then
        some { s with
          parent := { s.parent with pending := s.parent.pending - 1, handling := true } }
      else none
    | .toChild, s =>
      if 0 < s.child.pending ∧ s.child.exited = false ∧
          s.child.frames.all (fun f => !f.isFirst && f ≠ .intExit) then
        some { s with
          child := { s.child with
            pending := s.child.pending - 1
            frames := .enter :: s.child.frames } }
      else none
    | .lastToChild, s =>
      -- of the real-time signals the lowest first: SIGRTMIN is not there, or blocked
      if 0 < s.child.lastPending ∧ s.child.exited = false ∧
          s.child.frames.all (fun f => !f.isLast && f ≠ .intExit) ∧
          (a.type = 3 → s.child.pending = 0 ∨ s.child.frames.any (·.isFirst)) then
        some { s with
          child := { s.child with
            lastPending := s.child.lastPending - 1
            frames := .lastEnter :: s.child.frames } }
      else none
    | .intToChild, s =>
      if s.child.exited = false ∧ s.child.frames.all (!·.isInt) then
        some { s with child := { s.child with frames := .intEnter :: s.child.frames } }
      else none

/-- The end of `parent_process` has been reached. -/
def AtEnd (s : State) : Prop := s.parent.pc = .finished ∨ s.parent.pc = .returned

/-- What the statistics mean. -/
structure Stats (s : State) : Prop where
  received : s.parent.receivedByChild = s.child.receivedByChild
  sent : s.parent.sentToChild = s.parent.kills
  parent_le : s.parent.receivedByParent ≤ s.parent.receivedByChild
  child_le : (s.parent.receivedByChild : ℤ) ≤ s.parent.sentToChild

/-- The next statement of the child counts a signal. -/
def counts (s : State) : Bool :=
  !s.parent.pc.isGone &&
    (s.child.frames.head? = some .enter || s.child.frames.head? = some .lastEnter)

/-- No answer is delivered in `waitpid`, and the child does not count a signal after 255. -/
def Reported (e : Event) (s : State) : Prop :=
  match e with
  | .toParent => s.parent.pc ≠ .waiting
  | .child => counts s = true → s.child.receivedByChild < 255
  | _ => True

instance (s : State) : Decidable (AtEnd s) :=
  inferInstanceAs (Decidable (s.parent.pc = .finished ∨ s.parent.pc = .returned))

/-! ### The invariant -/

/-- `sent_to_child` behind the loop and the statement that follows it for TYPE 3. -/
def lastSent (a : Args) : ℤ := if a.type = 3 then toInt (a.L + 1) else a.L

/-- The calls of `kill` and their count, by the place of the parent. -/
def Sends (a : Args) (p : Parent) : Prop :=
  match p.pc with
  | .test => p.sentToChild = p.kills ∧ p.sentToChild ≤ a.L
  | .kill => p.sentToChild = p.kills ∧ p.sentToChild < a.L
  | .sigsuspend => p.sentToChild + 1 = p.kills ∧ p.sentToChild < a.L
  | .suspended => p.sentToChild + 1 = p.kills ∧ p.sentToChild < a.L
  | .increment => p.sentToChild + 1 = p.kills ∧ p.sentToChild < a.L
  | .incrementLast => a.type = 3 ∧ p.sentToChild = a.L ∧ p.kills = a.L
  | .killLast => p.sentToChild = lastSent a ∧ p.kills = a.L
  | _ => p.sentToChild = lastSent a ∧ p.kills = a.L + 1

/-- What holds in every state. -/
structure Sound (a : Args) (s : State) : Prop where
  sends : Sends a s.parent
  answers : s.parent.receivedByParent + (if s.parent.handling then 1 else 0) + s.parent.pending +
    s.child.frames.count .answer ≤ s.child.receivedByChild
  counted : s.child.receivedByChild + s.child.pending + s.child.lastPending +
    s.child.frames.count .enter + s.child.frames.count .lastEnter ≤ s.parent.kills
  reaped : s.parent.reaped = true →
    s.child.exited = true ∧ s.parent.status = exitStatus s.child.receivedByChild
  unreaped : s.parent.reaped = false → s.parent.status = 0
  early : s.parent.pc.isPast = false → s.parent.reaped = false
  interrupted : s.parent.pc.isPast = true → s.parent.reaped = false → 0 < s.parent.receivedByParent
  received : AtEnd s → s.parent.receivedByChild = wexitstatus s.parent.status

theorem sound_start (a : Args) : Sound a start where
  sends := ⟨rfl, by have := a.one_le_L; simp [start]; omega⟩
  answers := Nat.le_refl 0
  counted := Nat.le_refl 0
  reaped := nofun
  unreaped := fun _ => rfl
  early := fun _ => rfl
  interrupted := nofun
  received := by simp [AtEnd, start]

theorem Args.post_le (a : Args) (n : ℕ) : a.post n ≤ n + 1 := by
  rw [Args.post]
  split <;> omega

/-- The child goes on, and the answers to the parent may change. -/
theorem Sound.child {a : Args} {s : State} {c : Child} {pending : ℕ} (hs : Sound a s)
    (hlive : s.child.exited = false)
    (hanswers : s.parent.receivedByParent + (if s.parent.handling then 1 else 0) + pending +
      c.frames.count .answer ≤ c.receivedByChild)
    (hcounted : c.receivedByChild + c.pending + c.lastPending + c.frames.count .enter +
      c.frames.count .lastEnter ≤ s.parent.kills) :
    Sound a ⟨{ s.parent with pending := pending }, c⟩ where
  sends := hs.sends
  answers := hanswers
  counted := hcounted
  reaped := by
    intro hreaped
    have hexited := (hs.reaped hreaped).1
    rw [hlive] at hexited
    cases hexited
  unreaped := hs.unreaped
  early := hs.early
  interrupted := hs.interrupted
  received := hs.received

/-- What is pending goes with the child. -/
theorem Sound.exit {a : Args} {s : State} (hs : Sound a s) (hlive : s.child.exited = false) :
    Sound a { s with child := s.child.exit } := by
  obtain ⟨p, c⟩ := s
  have hanswers := hs.answers
  have hcounted := hs.counted
  dsimp only at hanswers hcounted
  apply hs.child hlive
  · simp only [Child.exit, List.count_nil]
    omega
  · simp only [Child.exit, List.count_nil]
    omega

/-- A call of the child's handler returns. -/
theorem Sound.returns {a : Args} {s : State} {f : Frame} {fs : List Frame} (hs : Sound a s)
    (hlive : s.child.exited = false) (hframes : s.child.frames = f :: fs) :
    Sound a { s with child := { s.child with frames := fs } } := by
  obtain ⟨p, c⟩ := s
  have hanswers := hs.answers
  have hcounted := hs.counted
  have hless : ∀ g, fs.count g ≤ c.frames.count g := by
    intro g
    rw [show c.frames = f :: fs from hframes]
    exact List.count_le_count_cons
  have h₁ := hless .answer
  have h₂ := hless .enter
  have h₃ := hless .lastEnter
  dsimp only at hanswers hcounted
  apply hs.child hlive
  · dsimp only
    omega
  · dsimp only
    omega

/-- A call of the child's handler counts its signal. -/
theorem Sound.counts {a : Args} {s : State} {f g : Frame} {fs : List Frame} (hs : Sound a s)
    (hlive : s.child.exited = false) (hframes : s.child.frames = f :: fs)
    (hf : f = .enter ∧ g = .answer ∨ f = .lastEnter ∧ g = .lastExit) :
    Sound a { s with
      child := { s.child with
        frames := g :: fs
        receivedByChild := s.child.receivedByChild + 1 } } := by
  obtain ⟨p, c⟩ := s
  have hanswers := hs.answers
  have hcounted := hs.counted
  dsimp only at hframes hanswers hcounted
  rw [hframes] at hanswers hcounted
  rcases hf with ⟨rfl, rfl⟩ | ⟨rfl, rfl⟩
  · simp only [List.count_cons, beq_iff_eq, reduceCtorEq, if_true, if_false] at hanswers hcounted
    exact hs.child hlive (by simp; omega) (by simp; omega)
  · simp only [List.count_cons, beq_iff_eq, reduceCtorEq, if_true, if_false] at hanswers hcounted
    exact hs.child hlive (by simp; omega) (by simp; omega)

/-- A statement of the child's handler. -/
theorem Sound.childStep {a : Args} {s s' : State} (hs : Sound a s) (hlive : s.child.exited = false)
    (h : childStep a s = some s') : Sound a s' := by
  obtain ⟨p, ⟨pending, lastPending, frames, exited, count⟩⟩ := s
  have hanswers := hs.answers
  have hcounted := hs.counted
  cases frames with
  | nil => cases h
  | cons f fs =>
    cases f with
    -- a child whose parent is gone returns at once
    | enter =>
      simp only [Statistics.childStep] at h
      split at h
      · obtain rfl := Option.some.inj h
        exact hs.returns hlive rfl
      · obtain rfl := Option.some.inj h
        exact hs.counts hlive rfl (Or.inl ⟨rfl, rfl⟩)
    -- `post` sets the pending answer, or adds one to the queue
    | answer =>
      have hpost := a.post_le p.pending
      simp only [List.count_cons, beq_iff_eq, reduceCtorEq, if_true, if_false] at hanswers hcounted
      simp only [Statistics.childStep] at h
      split at h
      · obtain rfl := Option.some.inj h
        exact hs.child hlive (by simp; omega) (by simp; omega)
      · obtain rfl := Option.some.inj h
        exact hs.child hlive (by simp; omega) (by simp; omega)
    | leave =>
      obtain rfl := Option.some.inj h
      exact hs.returns hlive rfl
    | lastEnter =>
      simp only [Statistics.childStep] at h
      split at h
      · obtain rfl := Option.some.inj h
        exact hs.returns hlive rfl
      · obtain rfl := Option.some.inj h
        exact hs.counts hlive rfl (Or.inr ⟨rfl, rfl⟩)
    | lastExit =>
      obtain rfl := Option.some.inj h
      exact hs.exit hlive
    | intEnter =>
      -- `SIGINT` comes on top of the other handlers
      simp only [List.count_cons, beq_iff_eq, reduceCtorEq, if_false] at hanswers hcounted
      obtain rfl := Option.some.inj h
      exact hs.child hlive (by simp; omega) (by simp; omega)
    | intExit =>
      obtain rfl := Option.some.inj h
      exact hs.exit hlive

/-- The parent goes on without a call of `kill`, and before `waitpid` returns. -/
theorem Sound.parent {a : Args} {s : State} {pc : ParentPc} {sent : ℤ} (hs : Sound a s)
    (hold : s.parent.pc.isPast = false) (hpc : pc.isPast = false)
    (hsends : Sends a { s.parent with pc := pc, sentToChild := sent }) :
    Sound a { s with parent := { s.parent with pc := pc, sentToChild := sent } } where
  sends := hsends
  answers := hs.answers
  counted := hs.counted
  reaped := hs.reaped
  unreaped := hs.unreaped
  early := fun _ => hs.early hold
  interrupted := by
    intro hpast
    rw [hpc] at hpast
    cases hpast
  received := by
    rintro (rfl | rfl)
    · cases hpc
    · cases hpc

/-- The parent calls `kill`. -/
theorem Sound.kill {a : Args} {s : State} {pc : ParentPc} {pending lastPending : ℕ} (hs : Sound a s)
    (hold : s.parent.pc.isPast = false) (hpc : pc.isPast = false)
    (hpending : pending + lastPending ≤ s.child.pending + s.child.lastPending + 1)
    (hsends : Sends a { s.parent with pc := pc, kills := s.parent.kills + 1 }) :
    Sound a ⟨{ s.parent with pc := pc, kills := s.parent.kills + 1 },
      { s.child with pending := pending, lastPending := lastPending }⟩ where
  sends := hsends
  answers := hs.answers
  counted := by
    have hcounted := hs.counted
    dsimp only
    omega
  reaped := hs.reaped
  unreaped := hs.unreaped
  early := fun _ => hs.early hold
  interrupted := by
    intro hpast
    rw [hpc] at hpast
    cases hpast
  received := by
    rintro (rfl | rfl)
    · cases hpc
    · cases hpc

/-- Behind its last `kill` the parent has counted what it counts. -/
theorem sends_iff {a : Args} {p : Parent} (hpc : p.pc = .waiting ∨ p.pc.isPast = true) :
    Sends a p ↔ p.sentToChild = lastSent a ∧ p.kills = a.L + 1 := by
  obtain ⟨pc, handling, sent, byParent, byChild, status, reaped, pending, kills⟩ := p
  cases pc with
  | waiting | testStatus | finished | returned | failed => exact Iff.rfl
  | _ => rcases hpc with hpc | hpc <;> cases hpc

/-- `waitpid` returns, or has returned. -/
theorem Sound.past {a : Args} {s : State} {p : Parent} (hs : Sound a s)
    (hover : s.parent.pc = .waiting ∨ s.parent.pc.isPast = true) (hpast : p.pc.isPast = true)
    (hsame : p.sentToChild = s.parent.sentToChild ∧ p.kills = s.parent.kills ∧
      p.pending = s.parent.pending)
    (hanswers : p.receivedByParent + (if p.handling then 1 else 0) =
      s.parent.receivedByParent + (if s.parent.handling then 1 else 0))
    (hreaped : p.reaped = true →
      s.child.exited = true ∧ p.status = exitStatus s.child.receivedByChild)
    (hunreaped : p.reaped = false → p.status = 0 ∧ 0 < p.receivedByParent)
    (hreceived : p.pc = .finished ∨ p.pc = .returned →
      p.receivedByChild = wexitstatus p.status) :
    Sound a { s with parent := p } := by
  obtain ⟨hsent, hkills, hpending⟩ := hsame
  refine ⟨?_, ?_, ?_, hreaped, fun h => (hunreaped h).1,
    -- from `waitpid` on nothing is sent
    fun hpc => ?_, fun _ h => (hunreaped h).2, hreceived⟩
  · have hsends := (sends_iff hover).mp hs.sends
    rw [← hsent, ← hkills] at hsends
    exact (sends_iff (Or.inr hpast)).mpr hsends
  · have holds := hs.answers
    dsimp only
    omega
  · have holds := hs.counted
    dsimp only
    omega
  · rw [hpast] at hpc
    cases hpc

/-- The parent's handler counts an answer and returns. -/
theorem Sound.handled {a : Args} {s : State} {pc : ParentPc} (hs : Sound a s)
    (hhandling : s.parent.handling = true) (hsends : Sends a { s.parent with pc := pc })
    (hpc : s.parent.pc = pc ∨ s.parent.pc.isPast = false ∧ pc.isPast = false) :
    Sound a { s with
      parent := { s.parent with
        pc := pc
        handling := false
        receivedByParent := s.parent.receivedByParent + 1 } } where
  sends := hsends
  answers := by
    have hanswers := hs.answers
    rw [hhandling, if_pos rfl] at hanswers
    exact hanswers
  counted := hs.counted
  reaped := hs.reaped
  unreaped := hs.unreaped
  early := by
    intro hearly
    rcases hpc with rfl | hpc
    · exact hs.early hearly
    · exact hs.early hpc.1
  interrupted := fun _ _ => Nat.succ_pos _
  received := by
    rcases hpc with rfl | ⟨-, hpc⟩
    · exact hs.received
    · rintro (rfl | rfl)
      · cases hpc
      · cases hpc

theorem Sound.handlerStep {a : Args} {s s' : State} (hs : Sound a s)
    (hhandling : s.parent.handling = true) (h : Statistics.parentStep a s = some s') :
    Sound a s' := by
  obtain ⟨⟨pc, handling, sent, byParent, byChild, status, reaped, pending, kills⟩, c⟩ := s
  obtain rfl : handling = true := hhandling
  cases pc with
  | suspended =>
    obtain rfl := Option.some.inj h
    exact hs.handled rfl hs.sends (Or.inr ⟨rfl, rfl⟩)
  | waiting =>
    obtain rfl := Option.some.inj h
    exact hs.past (Or.inl rfl) rfl ⟨rfl, rfl, rfl⟩ rfl hs.reaped
      (fun hunreaped => ⟨hs.unreaped hunreaped, Nat.succ_pos _⟩) nofun
  | _ =>
    obtain rfl := Option.some.inj h
    exact hs.handled rfl hs.sends (Or.inl rfl)

/-- In the loop `sent_to_child` does not overflow. -/
theorem toInt_kills {a : Args} {sent : ℤ} {kills : ℕ} (hsent : sent + 1 = kills)
    (hlt : sent < a.L) : toInt (sent + 1) = kills := by
  have hL := a.L_lt
  rw [hsent]
  exact toInt_of_lt (by omega)

/-- **What a statement of the parent keeps.** -/
theorem Sound.parentStep {a : Args} {s s' : State} (hs : Sound a s)
    (h : parentStep a s = some s') : Sound a s' := by
  obtain ⟨⟨pc, handling, sent, byParent, byChild, status, reaped, pending, kills⟩, c⟩ := s
  have hsends := hs.sends
  cases handling with
  | true => exact hs.handlerStep rfl h
  | false =>
    cases pc with
    | test =>
      simp only [Statistics.parentStep, Bool.false_eq_true, if_false] at h
      split at h
      · obtain rfl := Option.some.inj h
        next hlt => exact hs.parent rfl rfl ⟨hsends.1, hlt⟩
      · -- `sent_to_child` has come up to `L`
        next hge =>
        have hL : sent = a.L := Int.le_antisymm hsends.2 (Int.not_lt.mp hge)
        split at h
        · next htype =>
          obtain rfl := Option.some.inj h
          exact hs.parent rfl rfl ⟨htype, hL, hsends.1.symm.trans hL⟩
        · next htype =>
          obtain rfl := Option.some.inj h
          refine hs.parent rfl rfl ⟨?_, hsends.1.symm.trans hL⟩
          rw [lastSent, if_neg htype]
          exact hL
    | kill =>
      obtain rfl := Option.some.inj h
      have hpost := a.post_le c.pending
      apply hs.kill rfl
      · split <;> rfl
      · dsimp only
        omega
      · obtain ⟨hkills, hlt⟩ := hsends
        split
        · exact ⟨congrArg (· + 1) hkills, hlt⟩
        · exact ⟨congrArg (· + 1) hkills, hlt⟩
    | sigsuspend =>
      obtain rfl := Option.some.inj h
      exact hs.parent rfl rfl hsends
    | suspended => cases h
    | increment =>
      obtain rfl := Option.some.inj h
      -- `sent_to_child` wraps as an `int`, the kills do not
      obtain ⟨hkills, hlt⟩ := hsends
      have htoInt : toInt (sent + 1) = kills := toInt_kills hkills hlt
      refine hs.parent rfl rfl ⟨htoInt, ?_⟩
      dsimp only at hkills hlt ⊢
      omega
    | incrementLast =>
      obtain rfl := Option.some.inj h
      obtain ⟨htype, hsent, hkills⟩ := hsends
      refine hs.parent rfl rfl ⟨?_, hkills⟩
      dsimp only at hsent ⊢
      rw [lastSent, if_pos htype, hsent]
    | killLast =>
      obtain rfl := Option.some.inj h
      have hpost := a.post_le c.lastPending
      obtain ⟨hsent, hkills⟩ := hsends
      apply hs.kill rfl rfl
      · dsimp only
        omega
      · exact ⟨hsent, congrArg (· + 1) hkills⟩
    | waitpid =>
      obtain rfl := Option.some.inj h
      exact hs.parent rfl rfl hsends
    | waiting =>
      simp only [Statistics.parentStep, Bool.false_eq_true, if_false] at h
      split at h
      · next hexited =>
        obtain rfl := Option.some.inj h
        exact hs.past (Or.inl rfl) rfl ⟨rfl, rfl, rfl⟩ rfl (fun _ => ⟨hexited, rfl⟩) nofun nofun
      · cases h
    -- `waitpid` was interrupted: a status of 0 that is not the child's
    | testStatus =>
      have hunreaped : reaped = false → status = 0 ∧ 0 < byParent :=
        fun hunreaped => ⟨hs.unreaped hunreaped, hs.interrupted rfl hunreaped⟩
      simp only [Statistics.parentStep, Bool.false_eq_true, if_false] at h
      split at h
      · obtain rfl := Option.some.inj h
        exact hs.past (Or.inr rfl) rfl ⟨rfl, rfl, rfl⟩ rfl hs.reaped hunreaped fun _ => rfl
      · obtain rfl := Option.some.inj h
        exact hs.past (Or.inr rfl) rfl ⟨rfl, rfl, rfl⟩ rfl hs.reaped hunreaped nofun
    | finished =>
      obtain rfl := Option.some.inj h
      exact hs.past (Or.inr rfl) rfl ⟨rfl, rfl, rfl⟩ rfl hs.reaped
        (fun hunreaped => ⟨hs.unreaped hunreaped, hs.interrupted rfl hunreaped⟩)
        fun _ => hs.received (Or.inl rfl)
    | returned => cases h
    | failed => cases h

/-- **What one step keeps.** -/
theorem Sound.step {a : Args} {e : Event} {s s' : State} (hs : Sound a s)
    (h : (machine a).step e s = some s') : Sound a s' := by
  have hanswers := hs.answers
  have hcounted := hs.counted
  cases e with
  | parent => exact hs.parentStep h
  | child =>
    by_cases hexited : s.child.exited = true
    · cases (if_pos hexited).symm.trans h
    · exact hs.childStep (Bool.eq_false_iff.mpr hexited) ((if_neg hexited).symm.trans h)
  | toParent =>
    simp only [machine, Option.ite_none_right_eq_some, Option.some.injEq] at h
    obtain ⟨⟨hpending, hhandling, -⟩, rfl⟩ := h
    refine ⟨hs.sends, ?_, hs.counted, hs.reaped, hs.unreaped, hs.early, hs.interrupted,
      hs.received⟩
    simp only [hhandling, Bool.false_eq_true, if_false, if_true] at hanswers ⊢
    omega
  | toChild =>
    simp only [machine, Option.ite_none_right_eq_some, Option.some.injEq] at h
    obtain ⟨⟨hpending, hlive, -⟩, rfl⟩ := h
    obtain ⟨p, c⟩ := s
    dsimp only at hanswers hcounted hpending
    exact hs.child hlive (by simp; omega) (by simp; omega)
  | lastToChild =>
    simp only [machine, Option.ite_none_right_eq_some, Option.some.injEq] at h
    obtain ⟨⟨hpending, hlive, -⟩, rfl⟩ := h
    obtain ⟨p, c⟩ := s
    dsimp only at hanswers hcounted hpending
    exact hs.child hlive (by simp; omega) (by simp; omega)
  | intToChild =>
    simp only [machine, Option.ite_none_right_eq_some, Option.some.injEq] at h
    obtain ⟨⟨hlive, -⟩, rfl⟩ := h
    obtain ⟨p, c⟩ := s
    dsimp only at hanswers hcounted
    exact hs.child hlive (by simp; omega) (by simp; omega)

/-! ### The child's report -/

/-- No answer interrupts `waitpid`, or has interrupted it. -/
def Uninterrupted (p : Parent) : Prop :=
  ¬(p.pc = .waiting ∧ p.handling = true) ∧ (p.pc.isPast = true → p.reaped = true)

/-- The child's count comes to the parent as it is. -/
def Good (s : State) : Prop := s.child.receivedByChild < 256 ∧ Uninterrupted s.parent

/-- A statement of the parent does not change whether `waitpid` is or was interrupted. -/
theorem uninterrupted_parentStep {a : Args} {s s' : State} (hs : Sound a s)
    (h : parentStep a s = some s') :
    s'.child.receivedByChild = s.child.receivedByChild ∧
      (Uninterrupted s'.parent ↔ Uninterrupted s.parent) := by
  obtain ⟨⟨pc, handling, sent, byParent, byChild, status, reaped, pending, kills⟩, c⟩ := s
  cases handling with
  | true =>
    cases pc with
    | suspended =>
      obtain rfl := Option.some.inj h
      exact ⟨rfl, by simp [Uninterrupted, ParentPc.isPast]⟩
    | waiting =>
      -- the handler of the parent interrupts it
      obtain rfl := Option.some.inj h
      obtain rfl : reaped = false := hs.early rfl
      exact ⟨rfl, by simp [Uninterrupted, ParentPc.isPast]⟩
    | _ =>
      obtain rfl := Option.some.inj h
      exact ⟨rfl, by simp [Uninterrupted, ParentPc.isPast]⟩
  | false =>
    cases pc with
    | test =>
      simp only [parentStep, Bool.false_eq_true, if_false] at h
      split at h
      · obtain rfl := Option.some.inj h
        exact ⟨rfl, by simp [Uninterrupted, ParentPc.isPast]⟩
      · split at h
        · obtain rfl := Option.some.inj h
          exact ⟨rfl, by simp [Uninterrupted, ParentPc.isPast]⟩
        · obtain rfl := Option.some.inj h
          exact ⟨rfl, by simp [Uninterrupted, ParentPc.isPast]⟩
    | kill =>
      obtain rfl := Option.some.inj h
      refine ⟨rfl, ?_⟩
      by_cases htype : a.type = 2
      · simp [Uninterrupted, ParentPc.isPast, htype]
      · simp [Uninterrupted, ParentPc.isPast, htype]
    | waiting =>
      simp only [parentStep, Bool.false_eq_true, if_false] at h
      split at h
      · obtain rfl := Option.some.inj h
        exact ⟨rfl, by simp [Uninterrupted, ParentPc.isPast]⟩
      · cases h
    | testStatus =>
      simp only [parentStep, Bool.false_eq_true, if_false] at h
      split at h
      · obtain rfl := Option.some.inj h
        exact ⟨rfl, by simp [Uninterrupted, ParentPc.isPast]⟩
      · obtain rfl := Option.some.inj h
        exact ⟨rfl, by simp [Uninterrupted, ParentPc.isPast]⟩
    | suspended | returned | failed => cases h
    | _ =>
      obtain rfl := Option.some.inj h
      exact ⟨rfl, by simp [Uninterrupted, ParentPc.isPast]⟩

/-- A statement of the child's handler counts a signal or not. -/
theorem childStep_same {a : Args} {s s' : State} (h : childStep a s = some s') :
    (∃ pending, s'.parent = { s.parent with pending := pending }) ∧
      s'.child.receivedByChild = s.child.receivedByChild + if counts s then 1 else 0 := by
  obtain ⟨p, ⟨pending, lastPending, frames, exited, count⟩⟩ := s
  cases frames with
  | nil => cases h
  | cons f fs =>
    cases f with
    | enter | lastEnter =>
      by_cases hgone : p.pc.isGone = true
      · simp only [childStep, hgone, if_true] at h
        obtain rfl := Option.some.inj h
        exact ⟨⟨p.pending, rfl⟩, by simp [counts, hgone]⟩
      · simp only [childStep, hgone] at h
        obtain rfl := Option.some.inj h
        exact ⟨⟨p.pending, rfl⟩, by simp [counts, hgone]⟩
    | answer =>
      simp only [childStep] at h
      split at h
      · obtain rfl := Option.some.inj h
        exact ⟨⟨p.pending, rfl⟩, by simp [counts]⟩
      · obtain rfl := Option.some.inj h
        exact ⟨⟨a.post p.pending, rfl⟩, by simp [counts]⟩
    | _ =>
      obtain rfl := Option.some.inj h
      exact ⟨⟨p.pending, rfl⟩, by simp [counts, Child.exit]⟩

/-- **What one step does to the child's report.** -/
theorem good_step {a : Args} {e : Event} {s s' : State} (hs : Sound a s)
    (h : (machine a).step e s = some s') : Good s' ↔ Good s ∧ Reported e s := by
  cases e with
  | parent =>
    -- only the end of `waitpid` and the steps of the handlers count
    obtain ⟨hcount, hiff⟩ := uninterrupted_parentStep hs h
    simp only [Good, Reported, and_true]
    rw [hcount, hiff]
  | child =>
    by_cases hexited : s.child.exited = true
    · cases (if_pos hexited).symm.trans h
    · obtain ⟨⟨pending, hparent⟩, hcount⟩ := childStep_same ((if_neg hexited).symm.trans h)
      have hiff : Uninterrupted s'.parent ↔ Uninterrupted s.parent := by rw [hparent]; exact Iff.rfl
      simp only [Good, Reported, hiff, hcount]
      -- the child counts a signal that the parent will not hear of
      cases counts s with
      | true =>
        simp only [if_true, forall_const]
        constructor
        · exact fun hgood => ⟨⟨by omega, hgood.2⟩, by omega⟩
        · exact fun hgood => ⟨by omega, hgood.1.2⟩
      | false => simp
  | toParent =>
    simp only [machine, Option.ite_none_right_eq_some, Option.some.injEq] at h
    obtain ⟨⟨-, hhandling, -⟩, rfl⟩ := h
    simp only [Good, Uninterrupted, Reported, hhandling, Bool.false_eq_true, and_false,
      not_false_eq_true, and_true, true_and]
    constructor
    · exact fun hgood => ⟨⟨hgood.1, hgood.2.2⟩, hgood.2.1⟩
    · exact fun hgood => ⟨hgood.1.1, hgood.2, hgood.1.2⟩
  | toChild =>
    simp only [machine, Option.ite_none_right_eq_some, Option.some.injEq] at h
    obtain ⟨-, rfl⟩ := h
    exact (and_iff_left trivial).symm
  | lastToChild =>
    simp only [machine, Option.ite_none_right_eq_some, Option.some.injEq] at h
    obtain ⟨-, rfl⟩ := h
    exact (and_iff_left trivial).symm
  | intToChild =>
    simp only [machine, Option.ite_none_right_eq_some, Option.some.injEq] at h
    obtain ⟨-, rfl⟩ := h
    exact (and_iff_left trivial).symm

/-! ### The statistics -/

@[simp] theorem wexitstatus_exitStatus (n : ℕ) : wexitstatus (exitStatus n) = n % 256 := by
  rw [wexitstatus, exitStatus]
  omega

/-- Only `sent_to_child` of TYPE 3 counts every call of `kill`, unless it overflows. -/
theorem lastSent_iff (a : Args) : lastSent a = a.L + 1 ↔ a.type = 3 ∧ a.L < 2 ^ 31 - 1 := by
  have hL := a.one_le_L
  have hlt := a.L_lt
  rw [lastSent]
  split
  · next htype =>
    rw [toInt, Int.bmod_def]
    simp only [htype, true_and]
    omega
  · next htype => exact iff_of_false (by omega) fun h => htype h.1

/-- At its end the parent knows the child's count if the report has come whole. -/
theorem received_iff {a : Args} {s : State} (hs : Sound a s) (hend : AtEnd s) :
    s.parent.receivedByChild = s.child.receivedByChild ↔ Good s := by
  have hpast : s.parent.pc.isPast = true := by
    rcases hend with hpc | hpc
    · rw [hpc]; rfl
    · rw [hpc]; rfl
  have hwaiting : s.parent.pc ≠ .waiting := by
    rcases hend with hpc | hpc
    · simp [hpc]
    · simp [hpc]
  rw [hs.received hend]
  cases hreaped : s.parent.reaped with
  | true =>
    rw [(hs.reaped hreaped).2, wexitstatus_exitStatus]
    constructor
    · exact fun heq => ⟨by omega, fun h => hwaiting h.1, fun _ => hreaped⟩
    · exact fun hgood => Nat.mod_eq_of_lt hgood.1
  | false =>
    -- the answer that has interrupted `waitpid` is one of a signal that was counted
    have hpos := hs.interrupted hpast hreaped
    have hanswers := hs.answers
    rw [hs.unreaped hreaped]
    refine iff_of_false (fun heq => ?_) fun hgood => ?_
    · have hzero : wexitstatus 0 = 0 := rfl
      omega
    · rw [hgood.2.2 hpast] at hreaped
      cases hreaped

theorem stats_iff {a : Args} {s : State} (hs : Sound a s) (hend : AtEnd s) :
    Stats s ↔ a.type = 3 ∧ a.L < 2 ^ 31 - 1 ∧ Good s := by
  have hpast : s.parent.pc.isPast = true := by
    rcases hend with hpc | hpc
    · rw [hpc]; rfl
    · rw [hpc]; rfl
  obtain ⟨hsent, hkills⟩ := (sends_iff (Or.inr hpast)).mp hs.sends
  rw [← and_assoc, ← lastSent_iff, ← hsent, ← hkills]
  constructor
  · exact fun hstats => ⟨hstats.sent, (received_iff hs hend).mp hstats.received⟩
  · rintro ⟨heq, hgood⟩
    have hreceived := (received_iff hs hend).mpr hgood
    have hanswers := hs.answers
    have hcounted := hs.counted
    exact ⟨hreceived, heq, by omega, by omega⟩

/-- **When the statistics are right.**  At the end of `parent_process` they are if and only if
TYPE is 3, `sent_to_child` does not overflow, no answer interrupts `waitpid`, and the child does
not count more than 255 signals. -/
theorem statistics_iff (a : Args) (es : List Event) (hend : AtEnd ((machine a).run es start)) :
    Stats ((machine a).run es start) ↔
      a.type = 3 ∧ a.L < 2 ^ 31 - 1 ∧ (machine a).Meets Reported es start := by
  have hstep : ∀ e s s', Sound a s → (machine a).step e s = some s' → Sound a s' :=
    fun e s s' hs h => hs.step h
  have hgood : Good start := ⟨by decide, by simp [start], nofun⟩
  have hmeets : Good ((machine a).run es start) ↔ (machine a).Meets Reported es start := by
    apply Machine.good_run_iff_meets (I := Sound a) hstep _ _ es (sound_start a) hgood
    · intro e s s' hs hold h
      rw [good_step hs h, and_iff_right hold]
    · intro e s s' hs hold h hnew
      exact hold ((good_step hs h).mp hnew).1
  rw [stats_iff (Machine.run_invariant hstep es (sound_start a)) hend, hmeets]

/-- One signal is sent, answered and counted before the last one is delivered. -/
def inTurn : List Event :=
  [.parent, .parent, .toChild, .child, .child, .child, .toParent, .parent, .parent, .parent,
    .parent, .parent, .lastToChild, .child, .child, .parent, .parent, .parent]

/-- The same with the answer delivered in `waitpid`. -/
def inWaitpid : List Event :=
  [.parent, .parent, .parent, .parent, .parent, .parent, .parent, .toChild, .child, .child,
    .toParent, .parent, .child, .lastToChild, .child, .child, .parent]

def standard : Args := ⟨1, 1, by decide, by decide, by decide, by decide⟩

def realTime : Args := ⟨1, 3, by decide, by decide, by decide, by decide⟩

/-- The statistics of SIGRTMIN and SIGRTMAX in turn are right. -/
theorem statistics_in_turn :
    Stats ((machine realTime).run inTurn start) ↔
      realTime.type = 3 ∧ realTime.L < 2 ^ 31 - 1 ∧
        (machine realTime).Meets Reported inTurn start :=
  statistics_iff realTime inTurn (by decide)

/-- SIGUSR2 is not counted in `sent_to_child`. -/
theorem last_not_counted :
    ¬∀ (a : Args) (es : List Event), ((machine a).run es start).child.exited = true →
      AtEnd ((machine a).run es start) → Stats ((machine a).run es start) := by
  intro h
  exact absurd (h standard inTurn (by decide) (by decide)).sent (by decide)

/-- An answer in `waitpid` loses the child's count. -/
example : ((machine realTime).run inWaitpid start).parent.receivedByChild = 0 ∧
    ((machine realTime).run inWaitpid start).child.receivedByChild = 2 := by decide

end Statistics
end Signals
end OpSys
