import Mathlib.Algebra.GroupWithZero.Nat
import OpSys.Lib.Machine

/-!
# The exchange of real-time signals

The parent sends `L` signals SIGRTMIN to its child and then SIGRTMAX, and waits for the
child's end (TYPE 3).  The child answers each SIGRTMIN and exits at SIGRTMAX.  Real-time
signals are queued, and the lowest one that is not blocked is delivered first.  While the
handler runs for SIGRTMIN, SIGRTMIN is blocked and SIGRTMAX is not.

A signal that is outstanding, in the queue or in a handler that has not answered it, is
lost when SIGRTMAX ends the child, and when the parent ends: the child then ignores it,
since `info->si_pid` is not `getppid()` any more.  The parent ends early when an answer
interrupts its `waitpid`.

The handlers of both are installed at the start.

## Main definitions

* `Parent`, `Frame`, `Child`, `State` — the two processes, with the child's handlers as
  a stack.
* `Event`, `machine` — the statements and the deliveries.
* `outstanding` — the signals that have been sent and not answered.
* `due` — the answers that have been sent, and those that can still come.
* `Sound` — what holds in every state.

## Main results

* `step_spec` — what one step does to the answers.
* `occurring_le` — every run ends.
* `handled_iff` — the runs in which all signals are handled and answered.

## References

`lab4_signals_and_pipes/sigusr/user_sigs.c`.
-/

namespace OpSys
namespace Signals
namespace RealTime

/-- Where the parent is in `parent_process`: before the test of the loop, before a call,
in `waitpid`, after it, or past its exit. -/
inductive ParentPc
  | test
  | killRtmin
  | killRtmax
  | waitpid
  | waiting
  | leaving
  | gone
  deriving DecidableEq, Repr

/-- The parent: `handling` while `parent_handler` runs, `pending` signals SIGRTMIN queued. -/
structure Parent where
  pc : ParentPc
  handling : Bool
  sentToChild : ℕ
  receivedByParent : ℕ
  pending : ℕ
  deriving DecidableEq, Repr

/-- A call of `child_handler`: before it tests `si_pid`, before `kill` or `exit`, or before
its return. -/
inductive Frame
  | rtminEnter
  | rtminAnswer
  | rtminReturn
  | rtmaxEnter
  | rtmaxExit
  deriving DecidableEq, Repr

/-- The call is for SIGRTMIN, which is blocked while it lasts. -/
def Frame.isRtmin : Frame → Bool
  | rtminEnter => true
  | rtminAnswer => true
  | rtminReturn => true
  | rtmaxEnter => false
  | rtmaxExit => false

/-- The child: the signals SIGRTMIN in its queue, whether SIGRTMAX is pending, the calls of
its handler, the inner ones first, `received_by_child`, and how many SIGRTMIN it has counted
there and how many it has answered. -/
structure Child where
  queue : ℕ
  rtmax : Bool
  frames : List Frame
  exited : Bool
  receivedByChild : ℕ
  handled : ℕ
  answered : ℕ
  deriving DecidableEq, Repr

structure State where
  parent : Parent
  child : Child
  deriving DecidableEq, Repr

/-- The parent after its `sleep`, the child in its loop. -/
def start : State := ⟨⟨.test, false, 0, 0, 0⟩, ⟨0, false, [], false, 0, 0, 0⟩⟩

/-- The next statement of the parent, or of its handler. -/
def parentStep (L : ℕ) (s : State) : Option State :=
  let p := s.parent
  if p.handling then
    let p := { p with handling := false, receivedByParent := p.receivedByParent + 1 }
    match p.pc with
    -- without SA_RESTART the handler interrupts `waitpid`, and `WIFEXITED(0)` is true
    | .waiting => some { s with parent := { p with pc := .leaving } }
    | _ => some { s with parent := p }
  else
    match p.pc with
    | .test =>
      if p.sentToChild < L then some { s with parent := { p with pc := .killRtmin } }
      else some { s with parent := { p with pc := .killRtmax } }
    | .killRtmin =>
      some ⟨{ p with pc := .test, sentToChild := p.sentToChild + 1 },
        { s.child with queue := s.child.queue + 1 }⟩
    | .killRtmax =>
      some ⟨{ p with pc := .waitpid, sentToChild := p.sentToChild + 1 },
        { s.child with rtmax := true }⟩
    | .waitpid => some { s with parent := { p with pc := .waiting } }
    | .waiting =>
      if s.child.exited then some { s with parent := { p with pc := .leaving } } else none
    | .leaving => some { s with parent := { p with pc := .gone } }
    | .gone => none

/-- The next statement of the child's innermost handler. -/
def childStep (s : State) : Option State :=
  let c := s.child
  match c.frames with
  | [] => none
  | .rtminEnter :: frames =>
    -- `info->si_pid != getppid()` once the parent is gone
    if s.parent.pc = .gone then some { s with child := { c with frames := frames } }
    else
      some { s with
        child := { c with
          frames := .rtminAnswer :: frames
          receivedByChild := c.receivedByChild + 1
          handled := c.handled + 1 } }
  | .rtminAnswer :: frames =>
    if s.parent.pc = .gone then
      some { s with child := { c with frames := .rtminReturn :: frames } }
    else
      some ⟨{ s.parent with pending := s.parent.pending + 1 },
        { c with frames := .rtminReturn :: frames, answered := c.answered + 1 }⟩
  | .rtminReturn :: frames => some { s with child := { c with frames := frames } }
  | .rtmaxEnter :: frames =>
    if s.parent.pc = .gone then some { s with child := { c with frames := frames } }
    else
      some { s with
        child := { c with
          frames := .rtmaxExit :: frames
          receivedByChild := c.receivedByChild + 1 } }
  | .rtmaxExit :: _ =>
    -- what is still in the queue goes with the process
    some { s with child := { c with queue := 0, frames := [], exited := true } }

/-- What happens next: a statement of a process, or the delivery of a pending signal. -/
inductive Event
  | parent
  | child
  | toParent
  | rtminToChild
  | rtmaxToChild
  deriving DecidableEq, Repr

/-- The exchange of `L` signals. -/
def machine (L : ℕ) : Machine Event State where
  step
    | .parent, s => parentStep L s
    | .child, s => if s.child.exited then none else childStep s
    | .toParent, s =>
      if 0 < s.parent.pending ∧ s.parent.handling = false ∧ s.parent.pc ≠ .gone then
        some { s with
          parent := { s.parent with pending := s.parent.pending - 1, handling := true } }
      else none
    | .rtminToChild, s =>
      if 0 < s.child.queue ∧ s.child.exited = false ∧ s.child.frames.all (!·.isRtmin) then
        some { s with
          child := { s.child with
            queue := s.child.queue - 1
            frames := .rtminEnter :: s.child.frames } }
      else none
    | .rtmaxToChild, s =>
      -- the lowest first: SIGRTMIN is not there, or blocked
      if s.child.rtmax ∧ s.child.exited = false ∧ s.child.frames.all (·.isRtmin) ∧
          (s.child.queue = 0 ∨ s.child.frames.any (·.isRtmin)) then
        some { s with
          child := { s.child with rtmax := false, frames := .rtmaxEnter :: s.child.frames } }
      else none

/-- The signals SIGRTMIN in the queue, and those whose handler has not sent its answer. -/
def outstanding (c : Child) : ℕ :=
  c.queue + c.frames.count .rtminEnter + c.frames.count .rtminAnswer

/-- When SIGRTMAX is delivered, and when the parent ends, no SIGRTMIN is outstanding. -/
def NoneOutstanding (e : Event) (s : State) : Prop :=
  e = .rtmaxToChild ∨ (e = .parent ∧ s.parent.handling = false ∧ s.parent.pc = .leaving) →
    outstanding s.child = 0

/-! ### The answers that can still come -/

/-- No outstanding signal will be answered: the parent is gone, or the child exits. -/
def cut (s : State) : Bool :=
  s.parent.pc = .gone || s.child.exited || s.child.frames.any (!·.isRtmin)

/-- The answers that have been sent, and those that can still come. -/
def due (L : ℕ) (s : State) : ℕ :=
  s.child.answered + if cut s then 0 else outstanding s.child + (L - s.parent.sentToChild)

/-- The calls of the handler: SIGRTMAX over SIGRTMIN, and alone when the queue is empty. -/
inductive Stack (queue : ℕ) : List Frame → Prop
  | nil : Stack queue []
  | rtmin {f : Frame} (hf : f.isRtmin = true) : Stack queue [f]
  | rtmax {g : Frame} (hg : g.isRtmin = false) (hqueue : queue = 0) : Stack queue [g]
  | both {g f : Frame} (hg : g.isRtmin = false) (hf : f.isRtmin = true) : Stack queue [g, f]

/-- The parent has still to send a SIGRTMIN or SIGRTMAX. -/
def ParentPc.Sending (pc : ParentPc) : Prop := pc = .test ∨ pc = .killRtmin ∨ pc = .killRtmax

/-- What holds in every state. -/
structure Sound (L : ℕ) (s : State) : Prop where
  sent_lt : s.parent.pc = .killRtmin → s.parent.sentToChild < L
  sent_ge : s.parent.pc ≠ .test → s.parent.pc ≠ .killRtmin → L ≤ s.parent.sentToChild
  live : s.parent.pc.Sending → s.child.rtmax = false ∧ cut s = false
  stack : Stack s.child.queue s.child.frames
  answered_le : s.child.answered + s.child.frames.count .rtminAnswer ≤ s.child.handled
  handled_le : s.child.handled + s.child.queue + s.child.frames.count .rtminEnter +
    (L - s.parent.sentToChild) ≤ L

theorem sound_start (L : ℕ) : Sound L start where
  sent_lt := nofun
  sent_ge := fun h => absurd rfl h
  live := fun _ => ⟨rfl, rfl⟩
  stack := Stack.nil
  answered_le := Nat.le_refl 0
  handled_le := Nat.le_of_eq (Nat.zero_add L)

@[simp] theorem due_start (L : ℕ) : due L start = L := by simp [due, cut, outstanding, start]

theorem cut_eq_false {s : State} : cut s = false ↔ s.parent.pc ≠ .gone ∧ s.child.exited = false ∧
    s.child.frames.any (!·.isRtmin) = false := by
  simp [cut, and_assoc]

/-- Without a call for SIGRTMAX the queue does not matter. -/
theorem Stack.of_live {queue : ℕ} {frames : List Frame} (h : Stack queue frames)
    (hany : frames.any (!·.isRtmin) = false) (queue' : ℕ) : Stack queue' frames := by
  cases h with
  | nil => exact Stack.nil
  | rtmin hf => exact Stack.rtmin hf
  | rtmax hg => simp [hg] at hany
  | both hg => simp [hg] at hany

/-! ### The parent -/

/-- The parent goes on without a call of `kill`, and does not end. -/
theorem Sound.parent {L : ℕ} {s : State} {p : Parent} (hs : Sound L s)
    (hsent : p.sentToChild = s.parent.sentToChild) (hgone : p.pc = .gone ↔ s.parent.pc = .gone)
    (hlt : p.pc = .killRtmin → s.parent.sentToChild < L)
    (hge : p.pc ≠ .test → p.pc ≠ .killRtmin → L ≤ s.parent.sentToChild)
    (hsending : p.pc.Sending → s.parent.pc.Sending) :
    Sound L { s with parent := p } ∧ due L { s with parent := p } = due L s := by
  have hcut : cut { s with parent := p } = cut s := by simp [cut, hgone]
  refine ⟨⟨fun hpc => ?_, fun h₁ h₂ => ?_, fun hpc => ?_, hs.stack, hs.answered_le, ?_⟩, ?_⟩
  · exact hsent ▸ hlt hpc
  · exact hsent ▸ hge h₁ h₂
  · exact ⟨(hs.live (hsending hpc)).1, hcut.trans (hs.live (hsending hpc)).2⟩
  · exact hsent ▸ hs.handled_le
  · rw [due, due, hcut, hsent]

/-- The same with the parent at the same place. -/
theorem Sound.parent_same {L : ℕ} {s : State} {p : Parent} (hs : Sound L s)
    (hsent : p.sentToChild = s.parent.sentToChild) (hpc : p.pc = s.parent.pc) :
    Sound L { s with parent := p } ∧ due L { s with parent := p } = due L s := by
  apply hs.parent hsent
  · rw [hpc]
  · exact fun h => hs.sent_lt (hpc ▸ h)
  · exact fun h₁ h₂ => hs.sent_ge (hpc ▸ h₁) (hpc ▸ h₂)
  · exact fun h => hpc ▸ h

/-- The parent is past its calls of `kill`, and goes on without ending. -/
theorem Sound.parent_past {L : ℕ} {s : State} {p : Parent} (hs : Sound L s)
    (hsent : p.sentToChild = s.parent.sentToChild) (hpc : ¬p.pc.Sending) (hpc' : p.pc ≠ .gone)
    (hold : ¬s.parent.pc.Sending) (hold' : s.parent.pc ≠ .gone) :
    Sound L { s with parent := p } ∧ due L { s with parent := p } = due L s := by
  apply hs.parent hsent
  · exact iff_of_false hpc' hold'
  · exact fun h => absurd (Or.inr (Or.inl h)) hpc
  · intro _ _
    exact hs.sent_ge (fun h => hold (Or.inl h)) fun h => hold (Or.inr (Or.inl h))
  · exact fun h => absurd h hpc

/-- The parent sends a signal while the child is there. -/
theorem Sound.sends {L : ℕ} {s : State} {p : Parent} {c : Child} (hs : Sound L s)
    (hcut : cut s = false)
    -- the child has the frames that it had, so the answers it owes are the same
    (hsame : c.exited = s.child.exited ∧ c.frames = s.child.frames ∧
      c.handled = s.child.handled ∧ c.answered = s.child.answered)
    (hsum : c.queue + (L - p.sentToChild) = s.child.queue + (L - s.parent.sentToChild))
    (hlt : p.pc ≠ .killRtmin ∧ p.pc ≠ .gone)
    (hge : p.pc ≠ .test → p.pc ≠ .killRtmin → L ≤ p.sentToChild)
    (hlive : p.pc.Sending → c.rtmax = false) :
    Sound L ⟨p, c⟩ ∧ due L ⟨p, c⟩ = due L s := by
  obtain ⟨hexited, hframes, hhandled, hanswered⟩ := hsame
  obtain ⟨-, hexited', hany⟩ := cut_eq_false.mp hcut
  have hcut' : cut ⟨p, c⟩ = false :=
    cut_eq_false.mpr ⟨hlt.2, hexited.trans hexited', hframes ▸ hany⟩
  have hle := hs.handled_le
  refine ⟨⟨fun h => absurd h hlt.1, hge, fun h => ⟨hlive h, hcut'⟩, ?_, ?_, ?_⟩, ?_⟩
  · exact hframes ▸ hs.stack.of_live hany _
  · dsimp only
    rw [hframes, hhandled, hanswered]
    exact hs.answered_le
  · dsimp only
    rw [hframes, hhandled]
    omega
  · rw [due, due, hcut, hcut', if_neg Bool.false_ne_true, if_neg Bool.false_ne_true, outstanding,
      outstanding]
    dsimp only
    rw [hframes, hanswered]
    omega

/-- **What a statement of the parent does to the answers**: its end cuts them off. -/
theorem spec_parentStep {L : ℕ} {s s' : State} (hs : Sound L s) (h : parentStep L s = some s') :
    Sound L s' ∧
      (if s.parent.handling = false ∧ s.parent.pc = .leaving then due L s' = s.child.answered
        else due L s' = due L s) := by
  obtain ⟨⟨pc, handling, sent, received, pending⟩, c⟩ := s
  cases handling with
  | true =>
    rw [if_neg fun hif => Bool.noConfusion hif.1]
    cases pc with
    | waiting =>
      obtain rfl := Option.some.inj h
      exact hs.parent_past rfl (by simp [ParentPc.Sending]) (by simp) (by simp [ParentPc.Sending])
        (by simp)
    | _ =>
      obtain rfl := Option.some.inj h
      exact hs.parent_same rfl rfl
  | false =>
    cases pc with
    | test =>
      rw [if_neg (by simp)]
      by_cases hlt : sent < L
      · obtain rfl := Option.some.inj ((if_pos hlt).symm.trans h)
        exact hs.parent rfl (by simp) (fun _ => hlt) (by simp) fun _ => Or.inl rfl
      · obtain rfl := Option.some.inj ((if_neg hlt).symm.trans h)
        refine hs.parent rfl (by simp) (by simp) (fun _ _ => ?_) fun _ => Or.inl rfl
        exact Nat.le_of_not_lt hlt
    | killRtmin =>
      rw [if_neg (by simp)]
      obtain rfl := Option.some.inj h
      have hlt : sent < L := hs.sent_lt rfl
      have hlive := hs.live (Or.inr (Or.inl rfl))
      refine hs.sends hlive.2 ⟨rfl, rfl, rfl, rfl⟩ ?_ ⟨by simp, by simp⟩ (fun h => absurd rfl h)
        fun _ => hlive.1
      dsimp only
      omega
    | killRtmax =>
      rw [if_neg (by simp)]
      obtain rfl := Option.some.inj h
      have hge : L ≤ sent := hs.sent_ge (by simp) (by simp)
      have hlive := hs.live (Or.inr (Or.inr rfl))
      refine hs.sends hlive.2 ⟨rfl, rfl, rfl, rfl⟩ ?_ ⟨by simp, by simp⟩
        (fun _ _ => Nat.le_succ_of_le hge)
        (by simp [ParentPc.Sending])
      dsimp only
      omega
    | waitpid =>
      rw [if_neg (by simp)]
      obtain rfl := Option.some.inj h
      exact hs.parent_past rfl (by simp [ParentPc.Sending]) (by simp) (by simp [ParentPc.Sending])
        (by simp)
    | waiting =>
      rw [if_neg (by simp)]
      by_cases hexited : c.exited = true
      · obtain rfl := Option.some.inj ((if_pos hexited).symm.trans h)
        exact hs.parent_past rfl (by simp [ParentPc.Sending]) (by simp)
          (by simp [ParentPc.Sending]) (by simp)
      · cases (if_neg hexited).symm.trans h
    | leaving =>
      -- no answer can come after the parent's end
      rw [if_pos ⟨rfl, rfl⟩]
      obtain rfl := Option.some.inj h
      refine ⟨⟨by simp, fun _ _ => hs.sent_ge (by simp) (by simp), by simp [ParentPc.Sending],
        hs.stack, hs.answered_le, hs.handled_le⟩, ?_⟩
      simp [due, cut]
    | gone => cases h

/-! ### The child -/

/-- The child goes on, and no outstanding signal is lost by that. -/
theorem Sound.child {L : ℕ} {s s' : State} (hs : Sound L s)
    (hsame : s'.parent.pc = s.parent.pc ∧ s'.parent.sentToChild = s.parent.sentToChild ∧
      s'.child.rtmax = s.child.rtmax) (hcut : cut s' = cut s)
    (hstack : Stack s'.child.queue s'.child.frames)
    (hans : s'.child.answered + s'.child.frames.count .rtminAnswer ≤ s'.child.handled)
    (hhan : s'.child.handled + s'.child.queue + s'.child.frames.count .rtminEnter ≤
      s.child.handled + s.child.queue + s.child.frames.count .rtminEnter)
    -- what the handlers have answered or will, as long as the child is not cut off
    (hlost : cut s = true → s'.child.answered = s.child.answered)
    (hkept : cut s = false → s'.child.answered + outstanding s'.child =
      s.child.answered + outstanding s.child) :
    Sound L s' ∧ due L s' = due L s := by
  obtain ⟨hpc, hsent, hrtmax⟩ := hsame
  have hhandled := hs.handled_le
  refine ⟨⟨?_, ?_, ?_, hstack, hans, ?_⟩, ?_⟩
  · rw [hpc, hsent]
    exact hs.sent_lt
  · rw [hpc, hsent]
    exact hs.sent_ge
  · rw [hpc, hrtmax, hcut]
    exact hs.live
  · rw [hsent]
    omega
  · rw [due, due, hcut, hsent]
    cases hc : cut s with
    | true => rw [if_pos rfl, if_pos rfl, hlost hc]
    -- an answer moves from the handlers to the answers
    | false =>
      have := hkept hc
      rw [if_neg Bool.false_ne_true, if_neg Bool.false_ne_true]
      omega

/-- Without the parent the child only gives up signals. -/
theorem Sound.child_orphan {L : ℕ} {s : State} {c : Child} (hs : Sound L s)
    (hgone : s.parent.pc = .gone) (hrtmax : c.rtmax = s.child.rtmax)
    (hstack : Stack c.queue c.frames)
    (hans : c.answered + c.frames.count .rtminAnswer ≤ c.handled)
    (hhan : c.handled + c.queue + c.frames.count .rtminEnter ≤
      s.child.handled + s.child.queue + s.child.frames.count .rtminEnter)
    (hlost : c.answered = s.child.answered) :
    Sound L { s with child := c } ∧ due L { s with child := c } = due L s := by
  apply hs.child
  · exact ⟨rfl, rfl, hrtmax⟩
  · simp [cut, hgone]
  · exact hstack
  · exact hans
  · exact hhan
  · exact fun _ => hlost
  · simp [cut, hgone]

/-- A handler for SIGRTMAX returns, or goes on to its `exit`, or exits. -/
theorem spec_rtmax {L : ℕ} {s s' : State} {g : Frame} {below : List Frame} (hs : Sound L s)
    (hframes : s.child.frames = g :: below) (hg : g.isRtmin = false)
    (hreturn : Stack s.child.queue below) (hgo : Stack s.child.queue (.rtmaxExit :: below))
    (h : childStep s = some s') : Sound L s' ∧ due L s' = due L s := by
  obtain ⟨⟨pc, handling, sent, received, pending⟩, ⟨queue, rtmax, frames, exited, received',
    handled, answered⟩⟩ := s
  obtain rfl : frames = g :: below := hframes
  have hans := hs.answered_le
  cases g with
  | rtmaxEnter =>
    by_cases hgone : pc = .gone
    · obtain rfl := Option.some.inj ((if_pos hgone).symm.trans h)
      exact hs.child_orphan hgone rfl hreturn (by simpa using hans) (by simp) rfl
    · obtain rfl := Option.some.inj ((if_neg hgone).symm.trans h)
      apply hs.child
      · exact ⟨rfl, rfl, rfl⟩
      · simp [cut, Frame.isRtmin]
      · exact hgo
      · simpa using hans
      · simp
      · exact fun _ => rfl
      · simp [cut, Frame.isRtmin]
  | rtmaxExit =>
    -- the answers are cut off already
    obtain rfl := Option.some.inj h
    apply hs.child
    · exact ⟨rfl, rfl, rfl⟩
    · simp [cut, Frame.isRtmin]
    · exact Stack.nil
    · exact Nat.le_trans (Nat.le_add_right _ _) hans
    · simp
      omega
    · exact fun _ => rfl
    · simp [cut, Frame.isRtmin]
  | rtminEnter => cases hg
  | rtminAnswer => cases hg
  | rtminReturn => cases hg

/-- The handler for SIGRTMIN goes on, alone. -/
theorem spec_rtmin {L : ℕ} {s s' : State} {f : Frame} (hs : Sound L s)
    (hlive : s.child.exited = false) (hframes : s.child.frames = [f]) (hf : f.isRtmin = true)
    (h : childStep s = some s') : Sound L s' ∧ due L s' = due L s := by
  obtain ⟨⟨pc, handling, sent, received, pending⟩, ⟨queue, rtmax, frames, exited, received',
    handled, answered⟩⟩ := s
  obtain rfl : frames = [f] := hframes
  obtain rfl : exited = false := hlive
  have hans := hs.answered_le
  cases f with
  | rtminEnter =>
    by_cases hgone : pc = .gone
    · obtain rfl := Option.some.inj ((if_pos hgone).symm.trans h)
      exact hs.child_orphan hgone rfl Stack.nil (by simpa using hans) (by simp) rfl
    · obtain rfl := Option.some.inj ((if_neg hgone).symm.trans h)
      apply hs.child
      · exact ⟨rfl, rfl, rfl⟩
      · simp [cut, Frame.isRtmin]
      · exact Stack.rtmin rfl
      · simpa using hans
      · simp
        omega
      · exact fun _ => rfl
      · simp [outstanding]
  | rtminAnswer =>
    by_cases hgone : pc = .gone
    · obtain rfl := Option.some.inj ((if_pos hgone).symm.trans h)
      -- the answer goes to whoever has taken the child over
      exact hs.child_orphan hgone rfl (Stack.rtmin rfl) (Nat.le_trans (Nat.le_add_right _ _) hans)
        (by simp) rfl
    · obtain rfl := Option.some.inj ((if_neg hgone).symm.trans h)
      apply hs.child
      · exact ⟨rfl, rfl, rfl⟩
      · simp [cut, Frame.isRtmin]
      · exact Stack.rtmin rfl
      · simpa using hans
      · simp
      · intro hcut
        simp [cut, hgone, Frame.isRtmin] at hcut
      · simp [outstanding]
        omega
  | rtminReturn =>
    obtain rfl := Option.some.inj h
    apply hs.child
    · exact ⟨rfl, rfl, rfl⟩
    · simp [cut, Frame.isRtmin]
    · exact Stack.nil
    · simpa using hans
    · simp
    · exact fun _ => rfl
    · simp [outstanding]
  | rtmaxEnter => cases hf
  | rtmaxExit => cases hf

/-- **What a statement of the child does to the answers**: it sends those that are due, as
long as the parent is there. -/
theorem spec_childStep {L : ℕ} {s s' : State} (hs : Sound L s) (hlive : s.child.exited = false)
    (h : childStep s = some s') : Sound L s' ∧ due L s' = due L s := by
  have hstack := hs.stack
  generalize hframes : s.child.frames = frames at hstack
  cases hstack with
  | nil =>
    rw [childStep, hframes] at h
    cases h
  | rtmin hf => exact spec_rtmin hs hlive hframes hf h
  | rtmax hg hqueue => exact spec_rtmax hs hframes hg Stack.nil (Stack.rtmax rfl hqueue) h
  | both hg hf => exact spec_rtmax hs hframes hg (Stack.rtmin hf) (Stack.both rfl hf) h

/-! ### The deliveries -/

theorem spec_rtminToChild {L : ℕ} {s : State} (hs : Sound L s) (hqueue : 0 < s.child.queue)
    (hfree : s.child.frames.all (!·.isRtmin) = true) :
    let s' := { s with
      child := { s.child with
        queue := s.child.queue - 1
        frames := .rtminEnter :: s.child.frames } }
    Sound L s' ∧ due L s' = due L s := by
  have hans := hs.answered_le
  apply hs.child
  · exact ⟨rfl, rfl, rfl⟩
  · simp [cut, Frame.isRtmin]
  · have hstack := hs.stack
    -- a handler of the other signal may be interrupted, not one of `SIGRTMIN`
    generalize s.child.frames = frames at hstack hfree
    cases hstack with
    | nil => exact Stack.rtmin rfl
    | rtmin hf => simp [hf] at hfree
    | rtmax _ hempty => omega
    | both _ hf => simp [hf] at hfree
  · simpa using hans
  · simp
    omega
  · exact fun _ => rfl
  · simp [outstanding]
    omega

/-- SIGRTMAX cuts the answers off. -/
theorem spec_rtmaxToChild {L : ℕ} {s : State} (hs : Sound L s) (hrtmax : s.child.rtmax = true)
    (hfree : s.child.frames.all (·.isRtmin) = true)
    (hlowest : s.child.queue = 0 ∨ s.child.frames.any (·.isRtmin) = true) :
    let s' := { s with
      child := { s.child with rtmax := false, frames := .rtmaxEnter :: s.child.frames } }
    Sound L s' ∧ due L s' = s.child.answered ∧ L ≤ s.parent.sentToChild := by
  -- `SIGRTMAX` is sent when every `SIGRTMIN` has been
  have hnot : ¬s.parent.pc.Sending := by
    intro hsending
    exact Bool.false_ne_true ((hs.live hsending).1.symm.trans hrtmax)
  have hstack : Stack s.child.queue (.rtmaxEnter :: s.child.frames) := by
    have hstack := hs.stack
    generalize s.child.frames = frames at hstack hfree hlowest
    cases hstack with
    | nil => exact Stack.rtmax rfl (hlowest.resolve_right Bool.false_ne_true)
    | rtmin hf => exact Stack.both rfl hf
    | rtmax hg => simp [hg] at hfree
    | both hg => simp [hg] at hfree
  have hans := hs.answered_le
  have hhan := hs.handled_le
  refine ⟨⟨hs.sent_lt, hs.sent_ge, fun hsending => absurd hsending hnot, hstack, ?_, ?_⟩, ?_, ?_⟩
  · simpa using hans
  · simpa using hhan
  · simp [due, cut, Frame.isRtmin]
  · exact hs.sent_ge (fun h => hnot (Or.inl h)) fun h => hnot (Or.inr (Or.inl h))

/-! ### Steps -/

/-- No signal is answered twice. -/
theorem Sound.total_le {L : ℕ} {s : State} (hs : Sound L s) :
    s.child.answered + outstanding s.child + (L - s.parent.sentToChild) ≤ L := by
  have hans := hs.answered_le
  have hhan := hs.handled_le
  rw [outstanding]
  omega

theorem Sound.due_le {L : ℕ} {s : State} (hs : Sound L s) : due L s ≤ L := by
  have htotal := hs.total_le
  rw [due]
  cases cut s with
  | true =>
    rw [if_pos rfl]
    omega
  | false =>
    rw [if_neg Bool.false_ne_true]
    omega

/-- As long as all answers are due, no signal is lost. -/
theorem Sound.total_eq {L : ℕ} {s : State} (hs : Sound L s) (hdue : due L s = L) :
    s.child.answered + outstanding s.child + (L - s.parent.sentToChild) = L := by
  have htotal := hs.total_le
  rw [due] at hdue
  cases hcut : cut s with
  | true =>
    rw [hcut, if_pos rfl] at hdue
    omega
  | false =>
    rw [hcut, if_neg Bool.false_ne_true] at hdue
    omega

/-- **What one step does to the answers that are due**: all still are if none is outstanding
when they are cut off, and they do not come back. -/
theorem step_spec {L : ℕ} {e : Event} {s s' : State} (hs : Sound L s)
    (h : (machine L).step e s = some s') :
    Sound L s' ∧ (due L s = L → (due L s' = L ↔ NoneOutstanding e s)) ∧
      (due L s ≠ L → due L s' ≠ L) := by
  -- a step that cuts nobody off leaves what is due
  have hsame : Sound L s' ∧ due L s' = due L s → NoneOutstanding e s →
      Sound L s' ∧ (due L s = L → (due L s' = L ↔ NoneOutstanding e s)) ∧
        (due L s ≠ L → due L s' ≠ L) := by
    rintro ⟨hs', hdue⟩ hok
    rw [hdue]
    exact ⟨hs', fun heq => iff_of_true heq hok, id⟩
  -- a step that cuts the child off leaves what it has answered
  have hoff : Sound L s' → due L s' = s.child.answered → L ≤ s.parent.sentToChild →
      (NoneOutstanding e s ↔ outstanding s.child = 0) →
      Sound L s' ∧ (due L s = L → (due L s' = L ↔ NoneOutstanding e s)) ∧
        (due L s ≠ L → due L s' ≠ L) := by
    intro hs' hdue hsent hok
    have hle := hs.due_le
    rw [hdue, hok]
    refine ⟨hs', fun heq => ?_, fun hne heq => hne ?_⟩
    · have htotal := hs.total_eq heq
      omega
    · rw [due] at hle ⊢
      omega
  cases e with
  | parent =>
    obtain ⟨hs', hspec⟩ := spec_parentStep hs h
    by_cases hend : s.parent.handling = false ∧ s.parent.pc = .leaving
    · rw [if_pos hend] at hspec
      refine hoff hs' hspec (hs.sent_ge ?_ ?_) ?_
      · simp [hend.2]
      · simp [hend.2]
      · simp [NoneOutstanding, hend]
    · rw [if_neg hend] at hspec
      refine hsame ⟨hs', hspec⟩ fun hcase => ?_
      exact absurd (hcase.resolve_left (by simp)).2 hend
  | child =>
    by_cases hexited : s.child.exited = true
    · cases (if_pos hexited).symm.trans h
    · have hchild := (if_neg hexited).symm.trans h
      refine hsame (spec_childStep hs (Bool.eq_false_iff.mpr hexited) hchild) ?_
      simp [NoneOutstanding]
  | toParent =>
    simp only [machine, Option.ite_none_right_eq_some, Option.some.injEq] at h
    obtain ⟨-, rfl⟩ := h
    exact hsame (hs.parent_same rfl rfl) (by simp [NoneOutstanding])
  | rtminToChild =>
    simp only [machine, Option.ite_none_right_eq_some, Option.some.injEq] at h
    obtain ⟨⟨hqueue, -, hfree⟩, rfl⟩ := h
    exact hsame (spec_rtminToChild hs hqueue hfree) (by simp [NoneOutstanding])
  | rtmaxToChild =>
    simp only [machine, Option.ite_none_right_eq_some, Option.some.injEq] at h
    obtain ⟨⟨hrtmax, -, hfree, hlowest⟩, rfl⟩ := h
    obtain ⟨hs', hdue, hsent⟩ := spec_rtmaxToChild hs hrtmax hfree hlowest
    exact hoff hs' hdue hsent (by simp [NoneOutstanding])

/-! ### The number of steps -/

/-- What the parent has left to do, and what that will cause. -/
def ParentPc.rank (rounds : ℕ) : ParentPc → ℕ
  | test => 8 * rounds + 8
  | killRtmin => 8 * (rounds - 1) + 15
  | killRtmax => 7
  | waitpid => 3
  | waiting => 2
  | leaving => 1
  | gone => 0

def Frame.rank : Frame → ℕ
  | rtminEnter => 5
  | rtminAnswer => 4
  | rtminReturn => 1
  | rtmaxEnter => 2
  | rtmaxExit => 1

/-- A bound for the number of steps that are left. -/
def rank (L : ℕ) (s : State) : ℕ :=
  s.parent.pc.rank (L - s.parent.sentToChild) + s.parent.handling.toNat + 2 * s.parent.pending +
    6 * s.child.queue + 3 * s.child.rtmax.toNat + (s.child.frames.map Frame.rank).sum

@[simp] theorem rank_start (L : ℕ) : rank L start = 8 * L + 8 := rfl

theorem rank_parentStep {L : ℕ} {s s' : State} (h : parentStep L s = some s') :
    rank L s' < rank L s := by
  obtain ⟨⟨pc, handling, sent, received, pending⟩, c⟩ := s
  have hrtmax := Bool.toNat_le c.rtmax
  -- a round of the loop is what the rank counts first
  have hround : L - (sent + 1) = L - sent - 1 := by omega
  cases handling with
  | true =>
    cases pc <;> obtain rfl := Option.some.inj h <;> simp [rank, ParentPc.rank]
  | false =>
    cases pc with
    | test =>
      by_cases hlt : sent < L
      · obtain rfl := Option.some.inj ((if_pos hlt).symm.trans h)
        simp only [rank, ParentPc.rank]
        omega
      · obtain rfl := Option.some.inj ((if_neg hlt).symm.trans h)
        simp only [rank, ParentPc.rank]
        omega
    | waiting =>
      by_cases hexited : c.exited = true
      · obtain rfl := Option.some.inj ((if_pos hexited).symm.trans h)
        simp only [rank, ParentPc.rank]
        omega
      · cases (if_neg hexited).symm.trans h
    | gone => cases h
    | _ =>
      obtain rfl := Option.some.inj h
      simp only [rank, ParentPc.rank, Bool.toNat_true, hround]
      omega

theorem rank_childStep {L : ℕ} {s s' : State} (h : childStep s = some s') :
    rank L s' < rank L s := by
  obtain ⟨p, ⟨queue, rtmax, frames, exited, received, handled, answered⟩⟩ := s
  cases frames with
  | nil => cases h
  | cons frame frames =>
    cases frame with
    | rtminEnter | rtminAnswer | rtmaxEnter =>
      by_cases hgone : p.pc = .gone
      · obtain rfl := Option.some.inj ((if_pos hgone).symm.trans h)
        simp only [rank, Frame.rank, List.map_cons, List.sum_cons]
        omega
      · obtain rfl := Option.some.inj ((if_neg hgone).symm.trans h)
        simp only [rank, Frame.rank, List.map_cons, List.sum_cons]
        omega
    | rtminReturn =>
      obtain rfl := Option.some.inj h
      simp only [rank, Frame.rank, List.map_cons, List.sum_cons]
      omega
    | rtmaxExit =>
      obtain rfl := Option.some.inj h
      simp only [rank, Frame.rank, List.map_cons, List.sum_cons, List.map_nil, List.sum_nil]
      omega

theorem rank_step {L : ℕ} {e : Event} {s s' : State} (h : (machine L).step e s = some s') :
    rank L s' < rank L s := by
  cases e with
  | parent => exact rank_parentStep h
  | child =>
    by_cases hexited : s.child.exited = true
    · cases (if_pos hexited).symm.trans h
    · exact rank_childStep ((if_neg hexited).symm.trans h)
  | toParent =>
    simp only [machine, Option.ite_none_right_eq_some, Option.some.injEq] at h
    obtain ⟨⟨hpending, hhandling, -⟩, rfl⟩ := h
    simp only [rank, hhandling, Bool.toNat_true, Bool.toNat_false]
    omega
  | rtminToChild =>
    simp only [machine, Option.ite_none_right_eq_some, Option.some.injEq] at h
    obtain ⟨⟨hqueue, -⟩, rfl⟩ := h
    simp only [rank, Frame.rank, List.map_cons, List.sum_cons]
    omega
  | rtmaxToChild =>
    simp only [machine, Option.ite_none_right_eq_some, Option.some.injEq] at h
    obtain ⟨⟨hrtmax, -⟩, rfl⟩ := h
    simp only [rank, Frame.rank, hrtmax, List.map_cons, List.sum_cons, Bool.toNat_true,
      Bool.toNat_false]
    omega

/-! ### Runs -/

/-- Every run ends. -/
theorem occurring_le (L : ℕ) (es : List Event) : (machine L).occurring es start ≤ 8 * L + 8 := by
  have hrank := Machine.occurring_add_rank_le (M := machine L) (I := fun _ => True) (rank L)
    (fun _ _ _ _ _ => trivial) (fun _ _ _ _ h => rank_step h) es (s := start) trivial
  rw [rank_start] at hrank
  omega

theorem sound_run (L : ℕ) (es : List Event) : Sound L ((machine L).run es start) :=
  Machine.run_invariant (fun _ _ _ hs h => (step_spec hs h).1) es (sound_start L)

theorem due_run_iff (L : ℕ) (es : List Event) :
    due L ((machine L).run es start) = L ↔ (machine L).Meets NoneOutstanding es start :=
  @Machine.good_run_iff_meets _ _ (machine L) NoneOutstanding (Sound L) (fun s => due L s = L)
    (fun _ _ _ hs h => (step_spec hs h).1) (fun _ _ _ hs hdue h => (step_spec hs h).2.1 hdue)
    (fun _ _ _ hs hdue h => (step_spec hs h).2.2 hdue) es start (sound_start L) (due_start L)

/-- Before its calls of `kill` for SIGRTMIN are over, the parent has a step. -/
theorem not_kill_of_stuck {L : ℕ} {s : State} (h : parentStep L s = none) :
    s.parent.pc ≠ .test ∧ s.parent.pc ≠ .killRtmin := by
  obtain ⟨⟨pc, handling, sent, received, pending⟩, c⟩ := s
  cases handling with
  | true => cases pc <;> cases h
  | false =>
    cases pc with
    | test =>
      by_cases hlt : sent < L
      · cases (if_pos hlt).symm.trans h
      · cases (if_neg hlt).symm.trans h
    | killRtmin => cases h
    | _ => exact ⟨by simp, by simp⟩

/-- A call of the child's handler has a step. -/
theorem frames_of_stuck {s : State} (h : childStep s = none) : s.child.frames = [] := by
  obtain ⟨p, ⟨queue, rtmax, frames, exited, received, handled, answered⟩⟩ := s
  cases frames with
  | nil => rfl
  | cons frame frames =>
    by_cases hgone : p.pc = .gone <;> cases frame <;> simp [childStep, hgone] at h

/-- In a run that is over, no answer can still come. -/
theorem due_of_stuck {L : ℕ} {s : State} (hs : Sound L s)
    (hstuck : ∀ e, (machine L).step e s = none) : due L s = s.child.answered := by
  rw [due]
  cases hcut : cut s with
  | true => rw [if_pos rfl, Nat.add_zero]
  | false =>
    obtain ⟨-, hexited, -⟩ := cut_eq_false.mp hcut
    have hlive : ¬s.child.exited = true := by simp [hexited]
    have hframes := frames_of_stuck ((if_neg hlive).symm.trans (hstuck .child))
    have hqueue : s.child.queue = 0 := by
      have h := hstuck .rtminToChild
      simp only [machine, hexited, hframes] at h
      simpa using h
    obtain ⟨htest, hkill⟩ := not_kill_of_stuck (hstuck .parent)
    have hsent := hs.sent_ge htest hkill
    rw [if_neg Bool.false_ne_true, outstanding, hqueue, hframes, List.count_nil, List.count_nil]
    omega

/-- The child has handled and answered all signals. -/
def AllHandled (L : ℕ) (c : Child) : Prop := c.handled = L ∧ c.answered = L

/-- No SIGRTMIN has been lost, and an exit has come after all of them. -/
def NoneLost (L : ℕ) (s : State) : Prop :=
  s.child.answered + outstanding s.child + (L - s.parent.sentToChild) = L ∧
    (s.child.exited = true → AllHandled L s.child)

theorem allHandled_of_answered {L : ℕ} {s : State} (hs : Sound L s) (h : s.child.answered = L) :
    AllHandled L s.child := by
  have hans := hs.answered_le
  have hhan := hs.handled_le
  exact ⟨by omega, h⟩

/-- **When no signal is lost.**  Every run ends.  In a run in which no SIGRTMIN is outstanding
when SIGRTMAX is delivered or the parent ends, none is lost, and the child exits after it has
handled and answered all of them.  A run that is over has handled and answered all of them
if and only if it is such a run. -/
theorem handled_iff (L : ℕ) (es : List Event) :
    (machine L).occurring es start ≤ 8 * L + 8 ∧
    ((machine L).Meets NoneOutstanding es start →
      ∀ n, NoneLost L ((machine L).run (es.take n) start)) ∧
    ((∀ e, (machine L).step e ((machine L).run es start) = none) →
      (AllHandled L ((machine L).run es start).child ↔
        (machine L).Meets NoneOutstanding es start)) := by
  refine ⟨occurring_le L es, fun hmeets n => ?_, fun hstuck => ?_⟩
  · have hs := sound_run L (es.take n)
    have hdue := (due_run_iff L (es.take n)).mpr (hmeets.take n)
    refine ⟨hs.total_eq hdue, fun hexited => allHandled_of_answered hs ?_⟩
    have hcut : cut ((machine L).run (es.take n) start) = true := by simp [cut, hexited]
    rwa [due, hcut, if_pos rfl, Nat.add_zero] at hdue
  · have hs := sound_run L es
    rw [← due_run_iff, due_of_stuck hs hstuck]
    exact ⟨And.right, allHandled_of_answered hs⟩

/-- SIGRTMAX is delivered over the handler for the only SIGRTMIN. -/
def interrupted : List Event :=
  [.parent, .parent, .parent, .parent, .rtminToChild, .rtmaxToChild, .child, .child]

/-- The first answer ends `waitpid`, and the parent is gone before the second SIGRTMIN. -/
def orphaned : List Event :=
  List.replicate 7 .parent ++ [.rtminToChild, .child, .child, .toParent, .parent, .parent, .child,
    .rtminToChild, .child, .rtmaxToChild, .child]

/-- The child exits without an answer, and a run is over with a signal ignored. -/
theorem exit_before_answer :
    (¬∀ (L : ℕ) (es : List Event), 1 ≤ L → ((machine L).run es start).child.exited = true →
      AllHandled L ((machine L).run es start).child) ∧
    (¬∀ (L : ℕ) (es : List Event), 1 ≤ L →
      (∀ e, (machine L).step e ((machine L).run es start) = none) →
      AllHandled L ((machine L).run es start).child) := by
  constructor
  · intro h
    have hall := h 1 interrupted (Nat.le_refl 1) rfl
    exact absurd hall.2 (by decide)
  · intro h
    have hall := h 2 orphaned (by decide) fun e => by cases e <;> rfl
    exact absurd hall.2 (by decide)

end RealTime
end Signals
end OpSys
