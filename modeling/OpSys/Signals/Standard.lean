import Mathlib.Algebra.GroupWithZero.Nat
import OpSys.Lib.Machine

/-!
# The exchange of standard signals

The parent sends SIGUSR1 to its child and waits in `sigsuspend` for the answer, `L` times,
then sends SIGUSR2 and waits for the child's end (TYPE 2).  A standard signal is pending
at most once for a process.  SIGUSR1 is not blocked in the parent between `kill` and
`sigsuspend`: an answer that is delivered there is handled before the parent suspends,
and nothing wakes it up again.

The handlers of the child are installed at the start.  `info->si_pid` is the pid of
the other process for every signal of the exchange.

## Main definitions

* `Parent`, `Frame`, `Child`, `State` — the two processes, with the child's handlers as
  a stack.
* `Event`, `machine` — the statements and the deliveries.
* `Asleep` — the parent is suspended and nothing will wake it.
* `InStep`, `Missed` — the stages of a round, and the states after a missed answer.

## Main results

* `InStep.step`, `Missed.step` — what the events do to the stages.
* `occurring_le` — every run ends.
* `exchange_iff` — a run does what it is for unless an answer is missed.

## References

`lab4_signals_and_pipes/sigusr/user_sigs.c`.
-/

namespace OpSys
namespace Signals
namespace Standard

/-- Where the parent is in `parent_process`: before the test of the loop, before a call,
in `sigsuspend`, in `waitpid`, or after it. -/
inductive ParentPc
  | test
  | killUsr1
  | sigsuspend
  | suspended
  | killUsr2
  | waitpid
  | waiting
  | finished
  deriving DecidableEq, Repr

/-- The parent: `handling` while `parent_handler` runs, `pending` while a SIGUSR1 is. -/
structure Parent where
  pc : ParentPc
  handling : Bool
  sentToChild : ℕ
  receivedByParent : ℕ
  pending : Bool
  deriving DecidableEq, Repr

/-- A call of `child_handler`: before it tests `si_pid`, before `kill` or `exit`, or before
its return. -/
inductive Frame
  | usr1Enter
  | usr1Answer
  | usr1Return
  | usr2Enter
  | usr2Exit
  deriving DecidableEq, Repr

/-- The call is for SIGUSR1, which is blocked while it lasts. -/
def Frame.isUsr1 : Frame → Bool
  | usr1Enter => true
  | usr1Answer => true
  | usr1Return => true
  | usr2Enter => false
  | usr2Exit => false

/-- The child: the pending signals, the calls of its handler, the inner ones first,
`received_by_child`, and how many of either signal it has counted there. -/
structure Child where
  usr1 : Bool
  usr2 : Bool
  frames : List Frame
  exited : Bool
  receivedByChild : ℕ
  usr1Handled : ℕ
  usr2Handled : ℕ
  deriving DecidableEq, Repr

structure State where
  parent : Parent
  child : Child
  deriving DecidableEq, Repr

/-- The parent after its `sleep`, the child in its loop. -/
def start : State := ⟨⟨.test, false, 0, 0, false⟩, ⟨false, false, [], false, 0, 0, 0⟩⟩

/-- The next statement of the parent, or of its handler. -/
def parentStep (L : ℕ) (s : State) : Option State :=
  let p := s.parent
  if p.handling then
    let p := { p with handling := false, receivedByParent := p.receivedByParent + 1 }
    match p.pc with
    | .suspended =>
      some { s with parent := { p with pc := .test, sentToChild := p.sentToChild + 1 } }
    -- without SA_RESTART the handler interrupts `waitpid`, and `status` stays 0
    | .waiting => some { s with parent := { p with pc := .finished } }
    | _ => some { s with parent := p }
  else
    match p.pc with
    | .test =>
      if p.sentToChild < L then some { s with parent := { p with pc := .killUsr1 } }
      else some { s with parent := { p with pc := .killUsr2 } }
    | .killUsr1 =>
      some ⟨{ p with pc := .sigsuspend }, { s.child with usr1 := true }⟩
    | .sigsuspend => some { s with parent := { p with pc := .suspended } }
    | .suspended => none
    | .killUsr2 => some ⟨{ p with pc := .waitpid }, { s.child with usr2 := true }⟩
    | .waitpid => some { s with parent := { p with pc := .waiting } }
    | .waiting =>
      if s.child.exited then some { s with parent := { p with pc := .finished } } else none
    | .finished => none

/-- The next statement of the child's innermost handler. -/
def childStep (s : State) : Option State :=
  let c := s.child
  match c.frames with
  | [] => none
  | .usr1Enter :: frames =>
    -- `info->si_pid != getppid()` once the parent is gone
    if s.parent.pc = .finished then some { s with child := { c with frames := frames } }
    else
      some { s with
        child := { c with
          frames := .usr1Answer :: frames
          receivedByChild := c.receivedByChild + 1
          usr1Handled := c.usr1Handled + 1 } }
  | .usr1Answer :: frames =>
    some ⟨if s.parent.pc = .finished then s.parent else { s.parent with pending := true },
      { c with frames := .usr1Return :: frames }⟩
  | .usr1Return :: frames => some { s with child := { c with frames := frames } }
  | .usr2Enter :: frames =>
    if s.parent.pc = .finished then some { s with child := { c with frames := frames } }
    else
      some { s with
        child := { c with
          frames := .usr2Exit :: frames
          receivedByChild := c.receivedByChild + 1
          usr2Handled := c.usr2Handled + 1 } }
  | .usr2Exit :: _ => some { s with child := { c with frames := [], exited := true } }

/-- What happens next: a statement of a process, or the delivery of a pending signal. -/
inductive Event
  | parent
  | child
  | toParent
  | usr1ToChild
  | usr2ToChild
  deriving DecidableEq, Repr

/-- The exchange of `L` signals. -/
def machine (L : ℕ) : Machine Event State where
  step
    | .parent, s => parentStep L s
    | .child, s => if s.child.exited then none else childStep s
    | .toParent, s =>
      if s.parent.pending ∧ s.parent.handling = false ∧ s.parent.pc ≠ .finished then
        some { s with parent := { s.parent with pending := false, handling := true } }
      else none
    | .usr1ToChild, s =>
      if s.child.usr1 ∧ s.child.exited = false ∧ s.child.frames.all (!·.isUsr1) then
        some { s with
          child := { s.child with usr1 := false, frames := .usr1Enter :: s.child.frames } }
      else none
    | .usr2ToChild, s =>
      if s.child.usr2 ∧ s.child.exited = false ∧ s.child.frames.all (·.isUsr1) then
        some { s with
          child := { s.child with usr2 := false, frames := .usr2Enter :: s.child.frames } }
      else none

/-- The parent is suspended, no SIGUSR1 is pending and the child's handler is not running. -/
def Asleep (s : State) : Prop :=
  s.parent.pc = .suspended ∧ s.parent.handling = false ∧ s.parent.pending = false ∧
    s.child.usr1 = false ∧ s.child.frames = []

/-- The exchange is over, and every signal has been handled. -/
def Done (L : ℕ) (s : State) : Prop :=
  s.parent.pc = .finished ∧ s.child.usr1Handled = L ∧ s.child.usr2Handled = 1 ∧
    s.parent.receivedByParent = L

/-- No answer is delivered between `kill` and `sigsuspend`. -/
def NotInGap (e : Event) (s : State) : Prop := e = .toParent → s.parent.pc ≠ .sigsuspend

/-! ### The stages -/

/-- The child's handler has nothing left to do but return. -/
def Quiet (frames : List Frame) : Prop := frames = [] ∨ frames = [.usr1Return]

/-- The parent has sent a signal in this round and has no answer yet. -/
def Sent (pc : ParentPc) : Prop := pc = .sigsuspend ∨ pc = .suspended

/-- The parent has sent its last signal. -/
def Over (pc : ParentPc) : Prop := pc = .waitpid ∨ pc = .waiting

/-- The stages of a run in which no answer is missed. -/
inductive InStep (L : ℕ) : State → Prop
  | test {k frames} (hk : k ≤ L) (hq : Quiet frames) :
    InStep L ⟨⟨.test, false, k, k, false⟩, ⟨false, false, frames, false, k, k, 0⟩⟩
  | killUsr1 {k frames} (hk : k < L) (hq : Quiet frames) :
    InStep L ⟨⟨.killUsr1, false, k, k, false⟩, ⟨false, false, frames, false, k, k, 0⟩⟩
  | sent {k pc frames} (hk : k < L) (hpc : Sent pc) (hq : Quiet frames) :
    InStep L ⟨⟨pc, false, k, k, false⟩, ⟨true, false, frames, false, k, k, 0⟩⟩
  | caught {k pc} (hk : k < L) (hpc : Sent pc) :
    InStep L ⟨⟨pc, false, k, k, false⟩, ⟨false, false, [.usr1Enter], false, k, k, 0⟩⟩
  | counted {k pc} (hk : k < L) (hpc : Sent pc) :
    InStep L ⟨⟨pc, false, k, k, false⟩, ⟨false, false, [.usr1Answer], false, k + 1, k + 1, 0⟩⟩
  | answered {k pc frames} (hk : k < L) (hpc : Sent pc) (hq : Quiet frames) :
    InStep L ⟨⟨pc, false, k, k, true⟩, ⟨false, false, frames, false, k + 1, k + 1, 0⟩⟩
  | woken {k frames} (hk : k < L) (hq : Quiet frames) :
    InStep L ⟨⟨.suspended, true, k, k, false⟩, ⟨false, false, frames, false, k + 1, k + 1, 0⟩⟩
  | killUsr2 {frames} (hq : Quiet frames) :
    InStep L ⟨⟨.killUsr2, false, L, L, false⟩, ⟨false, false, frames, false, L, L, 0⟩⟩
  | ending {pc frames} (hpc : Over pc) (hq : Quiet frames) :
    InStep L ⟨⟨pc, false, L, L, false⟩, ⟨false, true, frames, false, L, L, 0⟩⟩
  | lastCaught {pc frames} (hpc : Over pc) (hq : Quiet frames) :
    InStep L ⟨⟨pc, false, L, L, false⟩, ⟨false, false, .usr2Enter :: frames, false, L, L, 0⟩⟩
  | lastCounted {pc frames} (hpc : Over pc) (hq : Quiet frames) :
    InStep L ⟨⟨pc, false, L, L, false⟩, ⟨false, false, .usr2Exit :: frames, false, L + 1, L, 1⟩⟩
  | exited {pc} (hpc : Over pc) :
    InStep L ⟨⟨pc, false, L, L, false⟩, ⟨false, false, [], true, L + 1, L, 1⟩⟩
  | finished :
    InStep L ⟨⟨.finished, false, L, L, false⟩, ⟨false, false, [], true, L + 1, L, 1⟩⟩

/-- The stages after an answer that has been missed. -/
inductive Missed (L : ℕ) : State → Prop
  | handling {k frames} (hk : k < L) (hq : Quiet frames) :
    Missed L ⟨⟨.sigsuspend, true, k, k, false⟩, ⟨false, false, frames, false, k + 1, k + 1, 0⟩⟩
  | missed {k pc frames} (hk : k < L) (hpc : Sent pc) (hq : Quiet frames) :
    Missed L ⟨⟨pc, false, k, k + 1, false⟩, ⟨false, false, frames, false, k + 1, k + 1, 0⟩⟩

theorem inStep_start (L : ℕ) : InStep L start := InStep.test (Nat.zero_le L) (Or.inl rfl)

/-- In a round the parent only goes on to suspend. -/
theorem parentStep_sent {L k r : ℕ} {pc : ParentPc} {pending : Bool} {c : Child} {s' : State}
    (hpc : Sent pc) (h : parentStep L ⟨⟨pc, false, k, r, pending⟩, c⟩ = some s') :
    s' = ⟨⟨.suspended, false, k, r, pending⟩, c⟩ := by
  rcases hpc with rfl | rfl
  · exact (Option.some.inj h).symm
  · cases h

/-- Before the child has exited the parent only goes on to wait for that. -/
theorem parentStep_over {L k r : ℕ} {pc : ParentPc} {pending : Bool} {c : Child} {s' : State}
    (hpc : Over pc) (hlive : c.exited = false)
    (h : parentStep L ⟨⟨pc, false, k, r, pending⟩, c⟩ = some s') :
    s' = ⟨⟨.waiting, false, k, r, pending⟩, c⟩ := by
  rcases hpc with rfl | rfl
  · exact (Option.some.inj h).symm
  · have hnot : ¬c.exited = true := by simp [hlive]
    cases (if_neg hnot).symm.trans h

/-- The child's handler returns. -/
theorem childStep_quiet {p : Parent} {usr1 usr2 exited : Bool} {frames : List Frame}
    {n m l : ℕ} {s' : State} (hq : Quiet frames)
    (h : childStep ⟨p, ⟨usr1, usr2, frames, exited, n, m, l⟩⟩ = some s') :
    s' = ⟨p, ⟨usr1, usr2, [], exited, n, m, l⟩⟩ := by
  rcases hq with rfl | rfl
  · cases h
  · exact (Option.some.inj h).symm

theorem Sent.ne_finished {pc : ParentPc} (hpc : Sent pc) : pc ≠ .finished := by
  rcases hpc with rfl | rfl <;> decide

theorem Over.ne_finished {pc : ParentPc} (hpc : Over pc) : pc ≠ .finished := by
  rcases hpc with rfl | rfl <;> decide

theorem Over.ne_suspended {pc : ParentPc} (hpc : Over pc) : pc ≠ .suspended := by
  rcases hpc with rfl | rfl <;> decide

/-- SIGUSR1 is not delivered over a call for SIGUSR1. -/
theorem Quiet.eq_nil {frames : List Frame} (hq : Quiet frames)
    (h : frames.all (!·.isUsr1) = true) : frames = [] := by
  rcases hq with rfl | rfl
  · rfl
  · cases h

theorem quiet_nil : Quiet [] := Or.inl rfl

theorem InStep.parentStep {L : ℕ} {s s' : State} (h : InStep L s)
    (hstep : parentStep L s = some s') : InStep L s' := by
  cases h with
  | @test k frames hk hq =>
    -- another round, or the last signal
    by_cases hlt : k < L
    · obtain rfl := Option.some.inj ((if_pos hlt).symm.trans hstep)
      exact InStep.killUsr1 hlt hq
    · obtain rfl := Option.some.inj ((if_neg hlt).symm.trans hstep)
      obtain rfl : k = L := by omega
      exact InStep.killUsr2 hq
  | killUsr1 hk hq =>
    obtain rfl := Option.some.inj hstep
    exact InStep.sent hk (Or.inl rfl) hq
  | sent hk hpc hq =>
    obtain rfl := parentStep_sent hpc hstep
    exact InStep.sent hk (Or.inr rfl) hq
  | caught hk hpc =>
    obtain rfl := parentStep_sent hpc hstep
    exact InStep.caught hk (Or.inr rfl)
  | counted hk hpc =>
    obtain rfl := parentStep_sent hpc hstep
    exact InStep.counted hk (Or.inr rfl)
  | answered hk hpc hq =>
    obtain rfl := parentStep_sent hpc hstep
    exact InStep.answered hk (Or.inr rfl) hq
  | woken hk hq =>
    -- the answer that was caught starts the next round
    obtain rfl := Option.some.inj hstep
    exact InStep.test hk hq
  | killUsr2 hq =>
    obtain rfl := Option.some.inj hstep
    exact InStep.ending (Or.inl rfl) hq
  | ending hpc hq =>
    obtain rfl := parentStep_over hpc rfl hstep
    exact InStep.ending (Or.inr rfl) hq
  | lastCaught hpc hq =>
    obtain rfl := parentStep_over hpc rfl hstep
    exact InStep.lastCaught (Or.inr rfl) hq
  | lastCounted hpc hq =>
    obtain rfl := parentStep_over hpc rfl hstep
    exact InStep.lastCounted (Or.inr rfl) hq
  | exited hpc =>
    rcases hpc with rfl | rfl
    · obtain rfl := Option.some.inj hstep
      exact InStep.exited (Or.inr rfl)
    · obtain rfl := Option.some.inj hstep
      exact InStep.finished
  | finished => cases hstep

theorem InStep.childStep {L : ℕ} {s s' : State} (h : InStep L s) (hlive : s.child.exited = false)
    (hstep : childStep s = some s') : InStep L s' := by
  cases h with
  | test hk hq =>
    obtain rfl := childStep_quiet hq hstep
    exact InStep.test hk quiet_nil
  | killUsr1 hk hq =>
    obtain rfl := childStep_quiet hq hstep
    exact InStep.killUsr1 hk quiet_nil
  | sent hk hpc hq =>
    obtain rfl := childStep_quiet hq hstep
    exact InStep.sent hk hpc quiet_nil
  | caught hk hpc =>
    -- the parent is waiting, so it still is the child's parent
    obtain rfl := Option.some.inj ((if_neg hpc.ne_finished).symm.trans hstep)
    exact InStep.counted hk hpc
  | counted hk hpc =>
    have hanswer := Option.some.inj hstep
    rw [if_neg hpc.ne_finished] at hanswer
    rw [← hanswer]
    exact InStep.answered hk hpc (Or.inr rfl)
  | answered hk hpc hq =>
    obtain rfl := childStep_quiet hq hstep
    exact InStep.answered hk hpc quiet_nil
  | woken hk hq =>
    obtain rfl := childStep_quiet hq hstep
    exact InStep.woken hk quiet_nil
  | killUsr2 hq =>
    obtain rfl := childStep_quiet hq hstep
    exact InStep.killUsr2 quiet_nil
  | ending hpc hq =>
    obtain rfl := childStep_quiet hq hstep
    exact InStep.ending hpc quiet_nil
  | lastCaught hpc hq =>
    obtain rfl := Option.some.inj ((if_neg hpc.ne_finished).symm.trans hstep)
    exact InStep.lastCounted hpc hq
  | lastCounted hpc hq =>
    obtain rfl := Option.some.inj hstep
    exact InStep.exited hpc
  | exited => cases hlive
  | finished => cases hlive

/-- **What an event does to the stages**: the run stays in step, unless the answer is
delivered in the gap. -/
theorem InStep.step {L : ℕ} {e : Event} {s s' : State} (h : InStep L s)
    (hstep : (machine L).step e s = some s') :
    (NotInGap e s ∧ InStep L s') ∨ (¬NotInGap e s ∧ Missed L s') := by
  cases e with
  | parent => exact Or.inl ⟨nofun, h.parentStep hstep⟩
  | child =>
    by_cases hlive : s.child.exited = true
    · cases (if_pos hlive).symm.trans hstep
    · have hchild := (if_neg hlive).symm.trans hstep
      exact Or.inl ⟨nofun, h.childStep (Bool.eq_false_iff.mpr hlive) hchild⟩
  -- before `sigsuspend` the answer is handled in the gap, and the parent waits for ever
  | toParent =>
    by_cases hpending : s.parent.pending = true
    · cases h with
      | answered hk hpc hq =>
        rcases hpc with rfl | rfl
        · obtain rfl := Option.some.inj hstep
          exact Or.inr ⟨fun hgap => hgap rfl rfl, Missed.handling hk hq⟩
        · obtain rfl := Option.some.inj hstep
          exact Or.inl ⟨fun _ hpc => ParentPc.noConfusion hpc, InStep.woken hk hq⟩
      | _ => cases hpending
    · cases (if_neg fun hif => hpending hif.1).symm.trans hstep
  | usr1ToChild =>
    -- the signal is delivered only when it is pending and not blocked
    by_cases hif : s.child.usr1 ∧ s.child.exited = false ∧ s.child.frames.all (!·.isUsr1)
    · have hs' := Option.some.inj ((if_pos hif).symm.trans hstep)
      obtain ⟨husr1, -, hfree⟩ := hif
      cases h with
      | sent hk hpc hq =>
        obtain rfl := hq.eq_nil hfree
        subst hs'
        exact Or.inl ⟨nofun, InStep.caught hk hpc⟩
      | _ => cases husr1
    · cases (if_neg hif).symm.trans hstep
  | usr2ToChild =>
    by_cases hif : s.child.usr2 ∧ s.child.exited = false ∧ s.child.frames.all (·.isUsr1)
    · have hs' := Option.some.inj ((if_pos hif).symm.trans hstep)
      obtain ⟨husr2, -, -⟩ := hif
      cases h with
      | ending hpc hq =>
        subst hs'
        exact Or.inl ⟨nofun, InStep.lastCaught hpc hq⟩
      | _ => cases husr2
    · cases (if_neg hif).symm.trans hstep

/-- After a missed answer the parent can only suspend, and the child return. -/
theorem Missed.step {L : ℕ} {e : Event} {s s' : State} (h : Missed L s)
    (hstep : (machine L).step e s = some s') : Missed L s' := by
  cases h with
  -- after the missed answer nobody sends anything any more
  | @handling k frames hk hq =>
    cases e with
    | parent =>
      obtain rfl := Option.some.inj hstep
      exact Missed.missed hk (Or.inl rfl) hq
    | child =>
      obtain rfl := childStep_quiet hq hstep
      exact Missed.handling hk quiet_nil
    | toParent => cases hstep
    | usr1ToChild => cases hstep
    | usr2ToChild => cases hstep
  | @missed k pc frames hk hpc hq =>
    cases e with
    | parent =>
      obtain rfl := parentStep_sent hpc hstep
      exact Missed.missed hk (Or.inr rfl) hq
    | child =>
      obtain rfl := childStep_quiet hq hstep
      exact Missed.missed hk hpc quiet_nil
    | toParent => cases hstep
    | usr1ToChild => cases hstep
    | usr2ToChild => cases hstep

theorem Missed.not_inStep {L : ℕ} {s : State} (h : Missed L s) : ¬InStep L s := by
  intro hin
  cases h with
  | handling => cases hin
  | missed => cases hin

/-- In step, nobody waits for a signal that will not come. -/
theorem InStep.not_asleep {L : ℕ} {s : State} (h : InStep L s) : ¬Asleep s := by
  rintro ⟨hpc, hhandling, hpending, husr1, hframes⟩
  cases h with
  | sent => cases husr1
  | caught => cases hframes
  | counted => cases hframes
  | answered => cases hpending
  | woken => cases hhandling
  | ending hover => exact hover.ne_suspended hpc
  | lastCaught => cases hframes
  | lastCounted => cases hframes
  | exited hover => exact hover.ne_suspended hpc
  | _ => cases hpc

/-- In step, a run that is over has done what it is for. -/
theorem InStep.done_of_stuck {L : ℕ} {s : State} (h : InStep L s)
    (hstuck : ∀ e, (machine L).step e s = none) : Done L s := by
  cases h with
  | @test k frames hk hq =>
    by_cases hlt : k < L
    · cases (if_pos hlt).symm.trans (hstuck .parent)
    · cases (if_neg hlt).symm.trans (hstuck .parent)
  | killUsr1 => cases hstuck .parent
  | sent hk hpc hq =>
    -- the child's handler returns, or is called
    rcases hq with rfl | rfl
    · cases hstuck .usr1ToChild
    · cases hstuck .child
  | caught hk hpc => cases (if_neg hpc.ne_finished).symm.trans (hstuck .child)
  | counted => cases hstuck .child
  | answered hk hpc => cases (if_pos ⟨rfl, rfl, hpc.ne_finished⟩).symm.trans (hstuck .toParent)
  | woken => cases hstuck .parent
  | killUsr2 => cases hstuck .parent
  | ending _ hq => rcases hq with rfl | rfl <;> cases hstuck .usr2ToChild
  | lastCaught hpc => cases (if_neg hpc.ne_finished).symm.trans (hstuck .child)
  | lastCounted => cases hstuck .child
  | exited hpc => rcases hpc with rfl | rfl <;> cases hstuck .parent
  | finished => exact ⟨rfl, rfl, rfl, rfl⟩

theorem Missed.not_done {L : ℕ} {s : State} (h : Missed L s) : ¬Done L s := by
  rintro ⟨hpc, -⟩
  cases h with
  | handling => cases hpc
  | missed _ hsent => exact hsent.ne_finished hpc

/-- After a missed answer, a run that is over has left the parent asleep. -/
theorem Missed.asleep_of_stuck {L : ℕ} {s : State} (h : Missed L s)
    (hstuck : ∀ e, (machine L).step e s = none) : Asleep s := by
  cases h with
  | handling => cases hstuck .parent
  | missed _ hpc hq =>
    rcases hpc with rfl | rfl
    · cases hstuck .parent
    · rcases hq with rfl | rfl
      · exact ⟨rfl, rfl, rfl, rfl, rfl⟩
      · cases hstuck .child

/-! ### The number of steps -/

/-- What the parent has left to do, and what that will cause. -/
def ParentPc.rank (rounds : ℕ) : ParentPc → ℕ
  | test => 9 * rounds + 7
  | killUsr1 => 9 * (rounds - 1) + 15
  | sigsuspend => 9 * (rounds - 1) + 8
  | suspended => 9 * (rounds - 1) + 7
  | killUsr2 => 6
  | waitpid => 2
  | waiting => 1
  | finished => 0

def Frame.rank : Frame → ℕ
  | usr1Enter => 5
  | usr1Answer => 4
  | usr1Return => 1
  | usr2Enter => 2
  | usr2Exit => 1

/-- A bound for the number of steps that are left. -/
def rank (L : ℕ) (s : State) : ℕ :=
  s.parent.pc.rank (L - s.parent.sentToChild) + s.parent.handling.toNat +
    2 * s.parent.pending.toNat + 6 * s.child.usr1.toNat + 3 * s.child.usr2.toNat +
    (s.child.frames.map Frame.rank).sum

@[simp] theorem rank_start (L : ℕ) : rank L start = 9 * L + 7 := rfl

theorem rank_parentStep {L : ℕ} {s s' : State} (h : parentStep L s = some s') :
    rank L s' < rank L s := by
  obtain ⟨⟨pc, handling, sent, received, pending⟩, c⟩ := s
  have husr1 := Bool.toNat_le c.usr1
  have husr2 := Bool.toNat_le c.usr2
  cases handling with
  | true =>
    -- the next round has one less to go
    have hround : L - (sent + 1) = L - sent - 1 := by omega
    cases pc <;> obtain rfl := Option.some.inj h <;> simp [rank, ParentPc.rank, hround]
  | false =>
    cases pc with
    | test =>
      by_cases hlt : sent < L
      · obtain rfl := Option.some.inj ((if_pos hlt).symm.trans h)
        simp only [rank, ParentPc.rank]
        omega
      · obtain rfl := Option.some.inj ((if_neg hlt).symm.trans h)
        simp only [rank, ParentPc.rank]
        omega
    | killUsr1 =>
      obtain rfl := Option.some.inj h
      simp only [rank, ParentPc.rank, Bool.toNat_true]
      omega
    | sigsuspend =>
      obtain rfl := Option.some.inj h
      simp only [rank, ParentPc.rank]
      omega
    | killUsr2 =>
      obtain rfl := Option.some.inj h
      simp only [rank, ParentPc.rank, Bool.toNat_true]
      omega
    | waitpid =>
      obtain rfl := Option.some.inj h
      simp only [rank, ParentPc.rank]
      omega
    | waiting =>
      by_cases hexited : c.exited = true
      · obtain rfl := Option.some.inj ((if_pos hexited).symm.trans h)
        simp only [rank, ParentPc.rank]
        omega
      · cases (if_neg hexited).symm.trans h
    | suspended => cases h
    | finished => cases h

theorem rank_childStep {L : ℕ} {s s' : State} (h : childStep s = some s') :
    rank L s' < rank L s := by
  obtain ⟨p, usr1, usr2, frames, exited, received, handled1, handled2⟩ := s
  have hpending := Bool.toNat_le p.pending
  cases frames with
  | nil => cases h
  | cons frame frames =>
    cases frame with
    -- the parent may be gone, and then there is nobody to answer
    | usr1Enter | usr2Enter =>
      by_cases hgone : p.pc = .finished
      · obtain rfl := Option.some.inj ((if_pos hgone).symm.trans h)
        simp only [rank, Frame.rank, List.map_cons, List.sum_cons]
        omega
      · obtain rfl := Option.some.inj ((if_neg hgone).symm.trans h)
        simp only [rank, Frame.rank, List.map_cons, List.sum_cons]
        omega
    | usr1Answer =>
      obtain rfl := Option.some.inj h
      by_cases hgone : p.pc = .finished
      · simp only [rank, Frame.rank, List.map_cons, List.sum_cons, if_pos hgone]
        omega
      · simp only [rank, Frame.rank, List.map_cons, List.sum_cons, if_neg hgone, Bool.toNat_true]
        omega
    | usr1Return =>
      obtain rfl := Option.some.inj h
      simp only [rank, Frame.rank, List.map_cons, List.sum_cons]
      omega
    | usr2Exit =>
      obtain rfl := Option.some.inj h
      simp only [rank, Frame.rank, List.map_cons, List.sum_cons, List.map_nil, List.sum_nil]
      omega

theorem rank_step {L : ℕ} {e : Event} {s s' : State} (h : (machine L).step e s = some s') :
    rank L s' < rank L s := by
  cases e with
  | parent => exact rank_parentStep h
  | child =>
    by_cases hexited : s.child.exited = true
    · cases (if_pos hexited).symm.trans h
    · exact rank_childStep ((if_neg hexited).symm.trans h)
  | toParent =>
    simp only [machine, Option.ite_none_right_eq_some, Option.some.injEq] at h
    obtain ⟨⟨hpending, hhandling, -⟩, rfl⟩ := h
    simp only [rank, hpending, hhandling, Bool.toNat_true, Bool.toNat_false]
    omega
  | usr1ToChild =>
    simp only [machine, Option.ite_none_right_eq_some, Option.some.injEq] at h
    obtain ⟨⟨husr1, -⟩, rfl⟩ := h
    simp only [rank, Frame.rank, husr1, List.map_cons, List.sum_cons, Bool.toNat_true,
      Bool.toNat_false]
    omega
  | usr2ToChild =>
    simp only [machine, Option.ite_none_right_eq_some, Option.some.injEq] at h
    obtain ⟨⟨husr2, -⟩, rfl⟩ := h
    simp only [rank, Frame.rank, husr2, List.map_cons, List.sum_cons, Bool.toNat_true,
      Bool.toNat_false]
    omega

/-! ### Runs -/

/-- Every run ends. -/
theorem occurring_le (L : ℕ) (es : List Event) : (machine L).occurring es start ≤ 9 * L + 7 := by
  have hrank := Machine.occurring_add_rank_le (M := machine L) (I := fun _ => True) (rank L)
    (fun _ _ _ _ _ => trivial) (fun _ _ _ _ h => rank_step h) es (s := start) trivial
  rw [rank_start] at hrank
  omega

/-- The stages of any run. -/
theorem run_stages (L : ℕ) (es : List Event) :
    InStep L ((machine L).run es start) ∨ Missed L ((machine L).run es start) := by
  refine Machine.run_invariant (I := fun s => InStep L s ∨ Missed L s) ?_ es
    (Or.inl (inStep_start L))
  rintro e s s' (h | h) hstep
  · exact (h.step hstep).imp And.right And.right
  · exact Or.inr (h.step hstep)

/-- A run is in step at its end if and only if no answer was delivered in the gap. -/
theorem inStep_run_iff (L : ℕ) (es : List Event) :
    InStep L ((machine L).run es start) ↔ (machine L).Meets NotInGap es start := by
  refine Machine.good_run_iff_meets (I := fun s => InStep L s ∨ Missed L s) ?_ ?_ ?_ es
    (Or.inl (inStep_start L)) (inStep_start L)
  · rintro e s s' (h | h) hstep
    · exact (h.step hstep).imp And.right And.right
    · exact Or.inr (h.step hstep)
  · intro e s s' _ h hstep
    rcases h.step hstep with ⟨hok, hin⟩ | ⟨hnot, hmissed⟩
    · exact iff_of_true hin hok
    · exact iff_of_false hmissed.not_inStep hnot
  · intro e s s' hI hnot hstep
    exact ((hI.resolve_left hnot).step hstep).not_inStep

/-- **When the exchange is in step.**  Every run ends.  The parent is never left asleep in a
run in which no answer is delivered between `kill` and `sigsuspend`.  A run that is over has
done what it is for if it is such a run, and has left the parent asleep otherwise. -/
theorem exchange_iff (L : ℕ) (es : List Event) :
    (machine L).occurring es start ≤ 9 * L + 7 ∧
    ((machine L).Meets NotInGap es start →
      ∀ n, ¬Asleep ((machine L).run (es.take n) start)) ∧
    ((∀ e, (machine L).step e ((machine L).run es start) = none) →
      (Done L ((machine L).run es start) ↔ (machine L).Meets NotInGap es start) ∧
      (Asleep ((machine L).run es start) ↔ ¬(machine L).Meets NotInGap es start)) := by
  refine ⟨occurring_le L es, fun hmeets n => ?_, fun hstuck => ?_⟩
  · exact ((inStep_run_iff L _).mpr (hmeets.take n)).not_asleep
  · rw [← inStep_run_iff]
    rcases run_stages L es with hin | hmissed
    · exact ⟨iff_of_true (hin.done_of_stuck hstuck) hin,
        iff_of_false hin.not_asleep fun hnot => hnot hin⟩
    · exact ⟨iff_of_false hmissed.not_done hmissed.not_inStep,
        iff_of_true (hmissed.asleep_of_stuck hstuck) hmissed.not_inStep⟩

/-- The answer comes before `sigsuspend`, and the parent sleeps for ever. -/
theorem answer_missed :
    ¬∀ (L : ℕ) (es : List Event), 1 ≤ L → ¬Asleep ((machine L).run es start) := by
  intro h
  refine h 1 [.parent, .parent, .usr1ToChild, .child, .child, .child, .toParent, .parent, .parent]
    (Nat.le_refl 1) ?_
  exact ⟨rfl, rfl, rfl, rfl, rfl⟩

end Standard
end Signals
end OpSys
