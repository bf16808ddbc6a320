import Mathlib.Data.Int.Notation
import OpSys.Lib.Machine

/-!
# The controller of SIGTSTP and SIGINT

A parent runs `date.sh` in a child.  SIGTSTP kills the child, or forks a new one if the last
was killed; SIGINT kills it and ends the parent.  The handlers share the variable
`child_pid` with `main`, which waits for the first child only.  A forked copy of the
parent runs in the handler until its `exec`, where SIGINT can still be delivered to it.

Every `kill` is recorded with its target and the children that have not been reaped at the
time.  What a `kill` of a process group does is not followed, only that it is one.

## Main definitions

* `MainProcess`, `Copy`, `State` — the parent with its handlers as a stack, the copies of it
  before their `exec`, and what the kernel knows of its children.
* `Event`, `machine` — the statements, the deliveries, and the ends of children.
* `killTarget` — what the next `kill` is given.
* `Named` — the condition of a `kill`.
* `Sound` — what holds as long as every `kill` has had a child.

## Main results

* `Sound.step` — the invariant.
* `valid_iff_named` — one `kill` has a child exactly under the condition.
* `kills_valid_iff` — the runs in which every `kill` has a child.

## References

`lab4_signals_and_pipes/sigint_sigtstp/sigs.c`.
-/

namespace OpSys
namespace Signals
namespace StopResume

/-- Where the parent is in `main`: before a call or an assignment, in `waitpid`, or before
the test of `cstat`. -/
inductive MainPc
  | fork
  | assign
  | sigaction
  | signal
  | waitpid
  | waiting
  | test
  deriving DecidableEq, Repr

/-- `stop_resume` is installed for SIGTSTP. -/
def MainPc.catchesTstp : MainPc → Bool
  | fork => false
  | assign => false
  | sigaction => false
  | _ => true

/-- `pkill` is installed for SIGINT. -/
def MainPc.catchesInt : MainPc → Bool
  | fork => false
  | assign => false
  | sigaction => false
  | signal => false
  | _ => true

/-- A call of `stop_resume`, before the test of `is_stopped`, the call of `fork`, the
assignments to `child_pid` and `is_stopped`, or `kill`; or a call of `pkill`, before `kill`
or `exit`. -/
inductive Frame
  | testStopped
  | fork
  | assign (pid : ℤ)
  | clear
  | kill
  | set
  | pkill
  | exit
  deriving DecidableEq, Repr

/-- The call is for SIGINT, which is blocked while it lasts. -/
def Frame.isPkill : Frame → Bool
  | pkill => true
  | exit => true
  | _ => false

/-- The parent: the local variables of `main`, the global ones, and the calls of its
handlers, the inner ones first. -/
structure MainProcess where
  pc : MainPc
  cpid : ℤ
  cstat : ℤ
  childPid : ℤ
  isStopped : Bool
  frames : List Frame
  running : Bool
  deriving DecidableEq, Repr

/-- Where a forked copy is: before the assignment to `child_pid`, before `execl`, or in
`pkill` before `kill` or `exit`. -/
inductive CopyPc
  | assign
  | exec
  | kill
  | exit
  deriving DecidableEq, Repr

/-- A forked copy: its `child_pid`, and whether it has inherited a blocked SIGINT. -/
structure Copy where
  pid : ℤ
  childPid : ℤ
  pc : CopyPc
  blocked : Bool
  deriving DecidableEq, Repr

/-- A call of `kill` with SIGKILL, and the children that have not been reaped then. -/
structure Kill where
  target : ℤ
  unreaped : List ℤ
  deriving DecidableEq, Repr

/-- The parent, its copies before their `exec`, its children that it has not reaped, those
that have ended, and the calls of `kill`, the last one first. -/
structure State where
  main : MainProcess
  copies : List Copy
  unreaped : List ℤ
  ended : List ℤ
  kills : List Kill
  deriving DecidableEq, Repr

/-- The start of `main`: `cstat` is not initialized. -/
def start (cstat : ℤ) : State := ⟨⟨.fork, 0, cstat, 0, false, [], true⟩, [], [], [], []⟩

/-- A handler returns to `frames`.  Without SA_RESTART this interrupts `waitpid`. -/
def MainProcess.back (m : MainProcess) (frames : List Frame) : MainProcess :=
  { m with
    frames := frames
    pc := if frames = [] ∧ m.pc = .waiting then .test else m.pc }

/-- A call of `kill` by a process whose `child_pid` is `target`. -/
def State.kill (s : State) (target : ℤ) : State :=
  { s with kills := ⟨target, s.unreaped⟩ :: s.kills }

/-- The next statement of the parent's innermost handler, `r` being what `fork` returns. -/
def handlerStep (r : ℤ) (frame : Frame) (frames : List Frame) (s : State) : Option State :=
  let m := s.main
  match frame with
  | .testStopped =>
    some { s with
      main := { m with frames := (if m.isStopped then .fork else .kill) :: frames } }
  | .fork =>
    if r = -1 then some { s with main := { m with frames := .assign r :: frames } }
    else if 0 < r ∧ r ∉ s.unreaped then
      some { s with
        main := { m with frames := .assign r :: frames }
        copies := ⟨r, m.childPid, .assign, frames.any (·.isPkill)⟩ :: s.copies
        unreaped := r :: s.unreaped }
    else none
  | .assign pid => some { s with main := { m with childPid := pid, frames := .clear :: frames } }
  | .clear => some { s with main := { m with isStopped := false }.back frames }
  | .kill => some { s.kill m.childPid with main := { m with frames := .set :: frames } }
  | .set => some { s with main := { m with isStopped := true }.back frames }
  | .pkill => some { s.kill m.childPid with main := { m with frames := .exit :: frames } }
  | .exit => some { s with main := { m with frames := [], running := false } }

/-- The next statement of `main`, `r` being what `fork` or `waitpid` returns, and `status` what
`waitpid` stores. -/
def bodyStep (r status : ℤ) (s : State) : Option State :=
  let m := s.main
  match m.pc with
  | .fork =>
    -- the child of the first `fork` has no handlers
    if r = -1 then some { s with main := { m with pc := .assign, cpid := r } }
    else if 0 < r ∧ r ∉ s.unreaped then
      some { s with
        main := { m with pc := .assign, cpid := r }
        unreaped := r :: s.unreaped }
    else none
  | .assign => some { s with main := { m with pc := .sigaction, childPid := m.cpid } }
  | .sigaction => some { s with main := { m with pc := .signal } }
  | .signal => some { s with main := { m with pc := .waitpid } }
  | .waitpid => some { s with main := { m with pc := .waiting } }
  | .waiting =>
    if r ∈ s.unreaped ∧ r ∈ s.ended ∧ (m.cpid = r ∨ m.cpid = -1) then
      some { s with
        main := { m with pc := .test, cstat := status }
        unreaped := s.unreaped.filter (· ≠ r)
        ended := s.ended.filter (· ≠ r) }
    else if m.cpid ∉ s.unreaped ∧ (m.cpid = -1 → s.unreaped = []) then
      -- ECHILD
      some { s with main := { m with pc := .test } }
    else none
  | .test =>
    if m.cstat = -1 then some { s with main := { m with running := false } }
    else some { s with main := { m with pc := .waitpid } }

/-- The copy goes on as `c`. -/
def State.put (s : State) (c : Copy) : State :=
  { s with copies := c :: s.copies.filter (·.pid ≠ c.pid) }

/-- The child has ended, and has not been reaped. -/
def State.finish (s : State) (pid : ℤ) : State :=
  { s with copies := s.copies.filter (·.pid ≠ pid), ended := pid :: s.ended }

/-- The next statement of a copy; `execs` tells whether `execl` succeeds. -/
def copyStep (execs : Bool) (c : Copy) (s : State) : State :=
  match c.pc with
  | .assign => s.put { c with childPid := 0, pc := .exec }
  | .exec =>
    -- after its `exec` it is another program
    if execs then { s with copies := s.copies.filter (·.pid ≠ c.pid) } else s.finish c.pid
  | .kill => (s.kill c.childPid).put { c with pc := .exit }
  | .exit => s.finish c.pid

/-- What happens next: a statement of the parent or of a copy, SIGTSTP or SIGINT is delivered
to the parent or SIGINT to a copy, or a child ends. -/
inductive Event
  | main (r status : ℤ)
  | copy (pid : ℤ) (execs : Bool)
  | tstp
  | int
  | intCopy (pid : ℤ)
  | ends (pid : ℤ)
  deriving DecidableEq, Repr

/-- The copy with this pid. -/
def State.copy (s : State) (pid : ℤ) : Option Copy := s.copies.find? (·.pid = pid)

/-- The controller. -/
def machine : Machine Event State where
  step
    | .main r status, s =>
      if s.main.running then
        match s.main.frames with
        | frame :: frames => handlerStep r frame frames s
        | [] => bodyStep r status s
      else none
    | .copy pid execs, s => (s.copy pid).map fun c => copyStep execs c s
    | .tstp, s =>
      if s.main.running ∧ s.main.pc.catchesTstp ∧ s.main.frames.all (·.isPkill) then
        some { s with main := { s.main with frames := .testStopped :: s.main.frames } }
      else none
    | .int, s =>
      if s.main.running ∧ s.main.frames.all (!·.isPkill) then
        if s.main.pc.catchesInt then
          some { s with main := { s.main with frames := .pkill :: s.main.frames } }
        else some { s with main := { s.main with frames := [], running := false } }
      else none
    | .intCopy pid, s =>
      (s.copy pid).bind fun c =>
        if c.blocked = false ∧ (c.pc = .assign ∨ c.pc = .exec) then
          some (s.put { c with pc := .kill })
        else none
    | .ends pid, s => if pid ∈ s.unreaped ∧ pid ∉ s.ended then some (s.finish pid) else none

/-- The call had the pid of a child that was forked and not yet reaped. -/
def Kill.Valid (k : Kill) : Prop := 0 < k.target ∧ k.target ∈ k.unreaped

/-- Every `kill` so far has had a child. -/
def AllValid (s : State) : Prop := ∀ k ∈ s.kills, k.Valid

/-- What the event's call of `kill` is given, if it is one: `child_pid` of the process. -/
def killTarget (e : Event) (s : State) : Option ℤ :=
  match e with
  | .main _ _ =>
    match s.main.frames with
    | .kill :: _ => some s.main.childPid
    | .pkill :: _ => some s.main.childPid
    | _ => none
  | .copy pid _ =>
    (s.copy pid).bind fun c => if c.pc = .kill then some c.childPid else none
  | _ => none

/-- At a call of `kill`, the last `fork` has not failed, the process is no copy that has stored
0, and the first child, if it is meant, has not been reaped. -/
def Named (e : Event) (s : State) : Prop :=
  ∀ t, killTarget e s = some t →
    t ≠ -1 ∧ t ≠ 0 ∧ (t = s.main.cpid → s.main.cpid ∈ s.unreaped)

/-! ### The invariant -/

/-- What a variable for a pid can hold: an unreaped child, the first child, the result of a
`fork` that has failed, or 0. -/
def Known (s : State) (t : ℤ) : Prop :=
  t ∈ s.unreaped ∨ t = s.main.cpid ∨ t = -1 ∨ t = 0

/-- The first `fork` has failed, and no `kill` has been called. -/
structure NoChild (s : State) : Prop where
  childPid : s.main.childPid = -1 ∨ (s.main.pc = .assign ∧ s.main.frames = [])
  isStopped : s.main.isStopped = false
  frames : ∀ f ∈ s.main.frames, f = .testStopped ∨ f = .kill ∨ f = .pkill
  copies : s.copies = []
  unreaped : s.unreaped = []

/-- What holds before the first `fork`. -/
structure Begun (s : State) : Prop where
  cpid : s.main.cpid = 0
  childPid : s.main.childPid = 0
  isStopped : s.main.isStopped = false
  frames : s.main.frames = []
  copies : s.copies = []
  unreaped : s.unreaped = []

/-- What holds as long as every `kill` has had a child. -/
structure Sound (s : State) : Prop where
  pos : ∀ p ∈ s.unreaped, 0 < p
  childPid : Known s s.main.childPid
  assigned : ∀ r, Frame.assign r ∈ s.main.frames → Known s r
  copied : ∀ c ∈ s.copies, Known s c.childPid
  begun : s.main.pc = .fork → Begun s
  failed : s.main.cpid = -1 → NoChild s

theorem known_zero (s : State) : Known s 0 := Or.inr (Or.inr (Or.inr rfl))

theorem known_failed (s : State) : Known s (-1) := Or.inr (Or.inr (Or.inl rfl))

/-- A pid stays known while only the first child is reaped. -/
theorem Known.mono {s s' : State} {t : ℤ} (h : Known s t) (hcpid : s'.main.cpid = s.main.cpid)
    (hunreaped : ∀ p ∈ s.unreaped, p ∈ s'.unreaped ∨ p = s.main.cpid) : Known s' t := by
  rcases h with hmem | rfl | hrest
  · rcases hunreaped t hmem with hmem' | rfl
    · exact Or.inl hmem'
    · exact Or.inr (Or.inl hcpid.symm)
  · exact Or.inr (Or.inl hcpid.symm)
  · exact Or.inr (Or.inr hrest)

theorem sound_start (cstat : ℤ) : Sound (start cstat) where
  pos := fun _ hp => absurd hp List.not_mem_nil
  childPid := known_zero _
  assigned := fun _ hr => absurd hr List.not_mem_nil
  copied := fun _ hc => absurd hc List.not_mem_nil
  begun := fun _ => ⟨rfl, rfl, rfl, rfl, rfl, rfl⟩
  failed := nofun

/-- **When one `kill` has a child.** -/
theorem valid_iff_named {s : State} {t : ℤ} (hs : Sound s) (ht : Known s t) :
    0 < t ∧ t ∈ s.unreaped ↔
      t ≠ -1 ∧ t ≠ 0 ∧ (t = s.main.cpid → s.main.cpid ∈ s.unreaped) := by
  constructor
  · rintro ⟨hpos, hmem⟩
    exact ⟨by omega, by omega, fun heq => heq ▸ hmem⟩
  · rintro ⟨hfailed, hzero, hfirst⟩
    have hmem : t ∈ s.unreaped := by
      rcases ht with hmem | heq | heq | heq
      · exact hmem
      · exact heq ▸ hfirst heq
      · exact absurd heq hfailed
      · exact absurd heq hzero
    exact ⟨hs.pos t hmem, hmem⟩

/-- Past the first `fork`, the parent goes on with the children it has. -/
theorem Sound.main {s : State} {m : MainProcess} {kills : List Kill} (hs : Sound s)
    (hpc : m.pc ≠ .fork) (hcpid : m.cpid = s.main.cpid) (hchild : Known s m.childPid)
    (hassigned : ∀ r, Frame.assign r ∈ m.frames → Known s r)
    (hfailed : s.main.cpid = -1 → NoChild { s with main := m }) :
    Sound { s with main := m, kills := kills } := by
  have hknown : ∀ t, Known s t → Known { s with main := m, kills := kills } t :=
    fun t ht => ht.mono hcpid fun p hp => Or.inl hp
  refine ⟨hs.pos, hknown _ hchild, fun r hr => hknown r (hassigned r hr),
    fun c hc => hknown _ (hs.copied c hc), fun h => absurd h hpc, fun h => ?_⟩
  obtain ⟨h₁, h₂, h₃, h₄, h₅⟩ := hfailed (hcpid.symm.trans h)
  exact ⟨h₁, h₂, h₃, h₄, h₅⟩

/-- The copies go on, or end. -/
theorem Sound.copies {s : State} {copies : List Copy} {ended : List ℤ} {kills : List Kill}
    (hs : Sound s) (hpc : s.main.pc ≠ .fork) (hcpid : s.main.cpid ≠ -1)
    (hcopies : ∀ c ∈ copies, Known s c.childPid) :
    Sound { s with copies := copies, ended := ended, kills := kills } :=
  ⟨hs.pos, hs.childPid, hs.assigned, hcopies, fun h => absurd h hpc, fun h => absurd h hcpid⟩

/-- A handler of the parent is only called past the first `fork`. -/
theorem Sound.pc_ne {s : State} {frame : Frame} {frames : List Frame} (hs : Sound s)
    (hframes : s.main.frames = frame :: frames) : s.main.pc ≠ .fork := by
  intro hpc
  have hnil := (hs.begun hpc).frames
  rw [hframes] at hnil
  cases hnil

/-- Without a first child no handler comes past its `kill`. -/
theorem Sound.cpid_ne {s : State} {frame : Frame} {frames : List Frame} (hs : Sound s)
    (hframes : s.main.frames = frame :: frames)
    (hframe : ¬(frame = .testStopped ∨ frame = .kill ∨ frame = .pkill)) : s.main.cpid ≠ -1 := by
  intro hcpid
  refine hframe ((hs.failed hcpid).frames frame ?_)
  rw [hframes]
  exact List.mem_cons_self

/-- A `kill` that has a child is not called without a first child. -/
theorem Sound.cpid_ne_of_pos {s : State} {frame : Frame} {frames : List Frame} (hs : Sound s)
    (hframes : s.main.frames = frame :: frames) (hpos : 0 < s.main.childPid) :
    s.main.cpid ≠ -1 := by
  intro hcpid
  rcases (hs.failed hcpid).childPid with hchild | ⟨-, hnil⟩
  · omega
  · rw [hframes] at hnil
    cases hnil

theorem MainProcess.back_pc_ne {m : MainProcess} (h : m.pc ≠ .fork) (frames : List Frame) :
    (m.back frames).pc ≠ .fork := by
  rw [MainProcess.back]
  dsimp only
  split
  · decide
  · exact h

/-- Without a first child `stop_resume` goes on to `kill`. -/
theorem NoChild.testStopped {s : State} {frame : Frame} {frames : List Frame} (hno : NoChild s)
    (hframes : s.main.frames = frame :: frames) :
    NoChild { s with
      main := { s.main with
        frames := (if s.main.isStopped then .fork else .kill) :: frames } } := by
  refine ⟨Or.inl ?_, hno.isStopped, fun f hf => ?_, hno.copies, hno.unreaped⟩
  · refine hno.childPid.resolve_right fun hnil => ?_
    rw [hframes] at hnil
    cases hnil.2
  · rw [hno.isStopped] at hf
    rcases List.mem_cons.mp hf with rfl | hf
    · exact Or.inr (Or.inl rfl)
    · exact hno.frames f (hframes ▸ List.mem_cons_of_mem _ hf)

/-- The handler has forked, and is to store the pid. -/
theorem Sound.forked {s : State} {m : MainProcess} {c : Copy} {r : ℤ} (hs : Sound s)
    (hpos : 0 < r) (hpc : m.pc ≠ .fork) (hne : s.main.cpid ≠ -1)
    (hsame : m.cpid = s.main.cpid ∧ m.childPid = s.main.childPid ∧ c.childPid = s.main.childPid)
    (hassigned : ∀ t, Frame.assign t ∈ m.frames → t = r ∨ Known s t) :
    Sound { s with main := m, copies := c :: s.copies, unreaped := r :: s.unreaped } := by
  obtain ⟨hcpid, hchild, hcopy⟩ := hsame
  have hknown : ∀ t, Known s t →
      Known { s with main := m, copies := c :: s.copies, unreaped := r :: s.unreaped } t :=
    fun t ht => ht.mono hcpid fun p hp => Or.inl (List.mem_cons_of_mem _ hp)
  refine ⟨fun p hp => ?_, ?_, fun t ht => ?_, fun c' hc' => ?_, fun h => absurd h hpc,
    fun h => absurd (hcpid.symm.trans h) hne⟩
  · rcases List.mem_cons.mp hp with rfl | hp
    · exact hpos
    · exact hs.pos p hp
  · exact hknown _ (hchild ▸ hs.childPid)
  · rcases hassigned t ht with rfl | ht
    · exact Or.inl List.mem_cons_self
    · exact hknown t ht
  · rcases List.mem_cons.mp hc' with rfl | hc'
    · exact hknown _ (hcopy ▸ hs.childPid)
    · exact hknown _ (hs.copied c' hc')

/-- **What a statement of a handler keeps**, if it is no `kill` without a child. -/
theorem Sound.handlerStep {s s' : State} {r : ℤ} {frame : Frame} {frames : List Frame}
    (hs : Sound s) (hframes : s.main.frames = frame :: frames)
    (hkill : frame = .kill ∨ frame = .pkill → 0 < s.main.childPid)
    (h : handlerStep r frame frames s = some s') : Sound s' := by
  have hpc := hs.pc_ne hframes
  have hrest : ∀ r, Frame.assign r ∈ frames → Known s r := by
    intro r hr
    refine hs.assigned r ?_
    rw [hframes]
    exact List.mem_cons_of_mem _ hr
  -- a handler with `frame` on top in place of the old one
  have hassigned : ∀ new : Frame, (∀ r, new ≠ .assign r) →
      ∀ r, Frame.assign r ∈ new :: frames → Known s r := by
    intro new hnew r hr
    rcases List.mem_cons.mp hr with heq | hr
    · exact absurd heq.symm (hnew r)
    · exact hrest r hr
  cases frame with
  | testStopped =>
    obtain rfl := Option.some.inj h
    refine hs.main hpc rfl hs.childPid ?_ fun hcpid => (hs.failed hcpid).testStopped hframes
    refine hassigned _ fun r => ?_
    split <;> simp
  | fork =>
    have hcpid := hs.cpid_ne hframes (by simp)
    by_cases hr : r = -1
    · obtain rfl := Option.some.inj ((if_pos hr).symm.trans h)
      refine hs.main hpc rfl hs.childPid (fun t ht => ?_) fun hfailed => absurd hfailed hcpid
      rcases List.mem_cons.mp ht with heq | ht
      · obtain rfl := Frame.assign.inj heq
        exact hr ▸ known_failed s
      · exact hrest t ht
    · by_cases hfresh : 0 < r ∧ r ∉ s.unreaped
      · have h := (if_neg hr).symm.trans h
        rw [if_pos hfresh] at h
        obtain rfl := Option.some.inj h
        refine hs.forked hfresh.1 hpc hcpid ⟨rfl, rfl, rfl⟩ fun t ht => ?_
        rcases List.mem_cons.mp ht with heq | ht
        · exact Or.inl (Frame.assign.inj heq)
        · exact Or.inr (hrest t ht)
      · have h := (if_neg hr).symm.trans h
        rw [if_neg hfresh] at h
        cases h
  | assign pid =>
    have hcpid := hs.cpid_ne hframes (by simp)
    obtain rfl := Option.some.inj h
    refine hs.main hpc rfl ?_ (hassigned _ (by simp)) fun hfailed => absurd hfailed hcpid
    refine hs.assigned pid ?_
    rw [hframes]
    exact List.mem_cons_self
  | clear =>
    have hcpid := hs.cpid_ne hframes (by simp)
    obtain rfl := Option.some.inj h
    exact hs.main (MainProcess.back_pc_ne hpc _) rfl hs.childPid hrest
      fun hfailed => absurd hfailed hcpid
  | kill =>
    have hcpid := hs.cpid_ne_of_pos hframes (hkill (Or.inl rfl))
    obtain rfl := Option.some.inj h
    exact hs.main hpc rfl hs.childPid (hassigned _ (by simp)) fun hfailed => absurd hfailed hcpid
  | set =>
    have hcpid := hs.cpid_ne hframes (by simp)
    obtain rfl := Option.some.inj h
    exact hs.main (MainProcess.back_pc_ne hpc _) rfl hs.childPid hrest
      fun hfailed => absurd hfailed hcpid
  | pkill =>
    have hcpid := hs.cpid_ne_of_pos hframes (hkill (Or.inr rfl))
    obtain rfl := Option.some.inj h
    exact hs.main hpc rfl hs.childPid (hassigned _ (by simp)) fun hfailed => absurd hfailed hcpid
  | exit =>
    have hcpid := hs.cpid_ne hframes (by simp)
    obtain rfl := Option.some.inj h
    exact hs.main hpc rfl hs.childPid (fun _ hr => absurd hr List.not_mem_nil)
      fun hfailed => absurd hfailed hcpid

/-- The first `fork` has failed. -/
theorem Begun.forkFailed {s : State} (h : Begun s) (r : ℤ) :
    Sound { s with main := { s.main with pc := .assign, cpid := r } } := by
  obtain ⟨⟨pc, cpid, cstat, childPid, isStopped, frames, running⟩, copies, unreaped, ended,
    kills⟩ := s
  obtain ⟨hcpid, hchild, hstopped, hframes, hcopies, hunreaped⟩ := h
  dsimp only at hcpid hchild hstopped hframes hcopies hunreaped
  subst hcpid hchild hstopped hframes hcopies hunreaped
  refine ⟨fun _ hp => absurd hp List.not_mem_nil, known_zero _,
    fun _ ht => absurd ht List.not_mem_nil, fun _ hc => absurd hc List.not_mem_nil, nofun,
    fun _ => ?_⟩
  exact ⟨Or.inr ⟨rfl, rfl⟩, rfl, fun _ hf => absurd hf List.not_mem_nil, rfl, rfl⟩

/-- The first `fork` has a child. -/
theorem Begun.forked {s : State} {r : ℤ} (h : Begun s) (hpos : 0 < r) :
    Sound { s with
      main := { s.main with pc := .assign, cpid := r }
      unreaped := r :: s.unreaped } := by
  obtain ⟨⟨pc, cpid, cstat, childPid, isStopped, frames, running⟩, copies, unreaped, ended,
    kills⟩ := s
  obtain ⟨hcpid, hchild, hstopped, hframes, hcopies, hunreaped⟩ := h
  dsimp only at hcpid hchild hstopped hframes hcopies hunreaped
  subst hcpid hchild hstopped hframes hcopies hunreaped
  refine ⟨fun p hp => ?_, known_zero _, fun _ ht => absurd ht List.not_mem_nil,
    fun _ hc => absurd hc List.not_mem_nil, nofun, fun hfailed => ?_⟩
  · obtain rfl := List.mem_singleton.mp hp
    exact hpos
  · dsimp only at hfailed
    omega

/-- `waitpid` has reaped the first child. -/
theorem Sound.reaped {s : State} {m : MainProcess} {ended : List ℤ} (hs : Sound s)
    (hpc : m.pc ≠ .fork) (hne : s.main.cpid ≠ -1)
    (hsame : m.cpid = s.main.cpid ∧ m.childPid = s.main.childPid ∧ m.frames = s.main.frames) :
    Sound { s with
      main := m
      unreaped := s.unreaped.filter (· ≠ s.main.cpid)
      ended := ended } := by
  obtain ⟨hcpid, hchild, hframes⟩ := hsame
  have hknown : ∀ t, Known s t → Known { s with
      main := m
      unreaped := s.unreaped.filter (· ≠ s.main.cpid)
      ended := ended } t := by
    intro t ht
    apply ht.mono hcpid
    intro p hp
    by_cases hfirst : p = s.main.cpid
    · exact Or.inr hfirst
    · exact Or.inl (List.mem_filter.mpr ⟨hp, decide_eq_true hfirst⟩)
  refine ⟨fun p hp => hs.pos p (List.mem_filter.mp hp).1, ?_, fun t ht => ?_,
    fun c hc => hknown _ (hs.copied c hc), fun h => absurd h hpc,
    fun h => absurd (hcpid.symm.trans h) hne⟩
  · exact hknown _ (hchild ▸ hs.childPid)
  · exact hknown t (hs.assigned t (hframes ▸ ht))

/-- **What a statement of `main` keeps**: it reaps the first child at most. -/
theorem Sound.bodyStep {s s' : State} {r status : ℤ} (hs : Sound s) (hframes : s.main.frames = [])
    (h : bodyStep r status s = some s') : Sound s' := by
  obtain ⟨⟨pc, cpid, cstat, childPid, isStopped, frames, running⟩, copies, unreaped, ended,
    kills⟩ := s
  obtain rfl : frames = [] := hframes
  have hnoframes : ∀ t, Frame.assign t ∈ [] → Known ⟨⟨pc, cpid, cstat, childPid, isStopped, [],
      running⟩, copies, unreaped, ended, kills⟩ t := fun _ ht => absurd ht List.not_mem_nil
  -- past the assignment the parent goes on with its variables
  have hmove : ∀ (pc' : MainPc) (cstat' : ℤ) (running' : Bool), pc ≠ .assign → pc' ≠ .fork →
      Sound ⟨⟨pc', cpid, cstat', childPid, isStopped, [], running'⟩, copies, unreaped, ended,
        kills⟩ := by
    intro pc' cstat' running' hpc hpc'
    refine hs.main hpc' rfl hs.childPid hnoframes fun hcpid => ?_
    obtain ⟨h₁, h₂, h₃, h₄, h₅⟩ := hs.failed hcpid
    exact ⟨Or.inl (h₁.resolve_right fun hassign => hpc hassign.1), h₂, h₃, h₄, h₅⟩
  cases pc with
  | fork =>
    by_cases hr : r = -1
    · obtain rfl := Option.some.inj ((if_pos hr).symm.trans h)
      exact (hs.begun rfl).forkFailed r
    · have h := (if_neg hr).symm.trans h
      by_cases hfresh : 0 < r ∧ r ∉ unreaped
      · rw [if_pos hfresh] at h
        obtain rfl := Option.some.inj h
        exact (hs.begun rfl).forked hfresh.1
      · rw [if_neg hfresh] at h
        cases h
  | assign =>
    obtain rfl := Option.some.inj h
    refine hs.main (by simp) rfl (Or.inr (Or.inl rfl)) hnoframes fun hcpid => ?_
    obtain ⟨-, h₂, h₃, h₄, h₅⟩ := hs.failed hcpid
    exact ⟨Or.inl hcpid, h₂, h₃, h₄, h₅⟩
  | sigaction | signal | waitpid =>
    obtain rfl := Option.some.inj h
    exact hmove _ _ _ (by simp) (by simp)
  | waiting =>
    by_cases hreap : r ∈ unreaped ∧ r ∈ ended ∧ (cpid = r ∨ cpid = -1)
    · obtain rfl := Option.some.inj ((if_pos hreap).symm.trans h)
      have hne : cpid ≠ -1 := by
        intro hcpid
        obtain rfl : unreaped = [] := (hs.failed hcpid).unreaped
        exact absurd hreap.1 List.not_mem_nil
      obtain rfl : cpid = r := hreap.2.2.resolve_right hne
      exact hs.reaped (by simp) hne ⟨rfl, rfl, rfl⟩
    · have h := (if_neg hreap).symm.trans h
      by_cases hnone : cpid ∉ unreaped ∧ (cpid = -1 → unreaped = [])
      · rw [if_pos hnone] at h
        obtain rfl := Option.some.inj h
        exact hmove _ _ _ (by simp) (by simp)
      · rw [if_neg hnone] at h
        cases h
  | test =>
    by_cases hcstat : cstat = -1
    · obtain rfl := Option.some.inj ((if_pos hcstat).symm.trans h)
      exact hmove _ _ _ (by simp) (by simp)
    · obtain rfl := Option.some.inj ((if_neg hcstat).symm.trans h)
      exact hmove _ _ _ (by simp) (by simp)

theorem Sound.of_copy {s : State} {pid : ℤ} {c : Copy} (hs : Sound s)
    (hc : s.copy pid = some c) :
    s.main.pc ≠ .fork ∧ s.main.cpid ≠ -1 ∧ Known s c.childPid := by
  have hmem : c ∈ s.copies := List.mem_of_find?_eq_some hc
  refine ⟨fun hpc => ?_, fun hcpid => ?_, hs.copied c hmem⟩
  · rw [(hs.begun hpc).copies] at hmem
    exact absurd hmem List.not_mem_nil
  · rw [(hs.failed hcpid).copies] at hmem
    exact absurd hmem List.not_mem_nil

/-- The copies that are left hold what they held. -/
theorem Sound.filter_copies {s : State} (hs : Sound s) (p : Copy → Bool) :
    ∀ c ∈ s.copies.filter p, Known s c.childPid :=
  fun c hc => hs.copied c (List.mem_filter.mp hc).1

theorem Sound.put_copies {s : State} {c : Copy} (hs : Sound s) (hc : Known s c.childPid)
    (p : Copy → Bool) : ∀ c' ∈ c :: s.copies.filter p, Known s c'.childPid := by
  intro c' hc'
  rcases List.mem_cons.mp hc' with rfl | hc'
  · exact hc
  · exact hs.filter_copies p c' hc'

theorem Sound.copyStep {s : State} {pid : ℤ} {c : Copy} {execs : Bool} (hs : Sound s)
    (hc : s.copy pid = some c) : Sound (copyStep execs c s) := by
  obtain ⟨hpc, hcpid, hknown⟩ := hs.of_copy hc
  obtain ⟨pid', childPid, cpc, blocked⟩ := c
  cases cpc with
  | assign => exact hs.copies hpc hcpid (hs.put_copies (known_zero s) _)
  | exec =>
    cases execs with
    | true => exact hs.copies hpc hcpid (hs.filter_copies _)
    | false => exact hs.copies hpc hcpid (hs.filter_copies _)
  | kill =>
    exact hs.copies hpc hcpid (hs.put_copies (c := ⟨pid', childPid, .exit, blocked⟩) hknown _)
  | exit => exact hs.copies hpc hcpid (hs.filter_copies _)

/-- A handler is called when its signal is delivered. -/
theorem Sound.deliver {s : State} {frame : Frame} (hs : Sound s)
    (hpc : s.main.pc ≠ .fork ∧ s.main.pc ≠ .assign)
    (hframe : frame = .testStopped ∨ frame = .pkill) :
    Sound { s with main := { s.main with frames := frame :: s.main.frames } } := by
  refine hs.main hpc.1 rfl hs.childPid (fun t ht => ?_) fun hcpid => ?_
  · rcases List.mem_cons.mp ht with heq | ht
    · rcases hframe with rfl | rfl <;> cases heq
    · exact hs.assigned t ht
  · have hno := hs.failed hcpid
    refine ⟨Or.inl (hno.childPid.resolve_right fun hassign => hpc.2 hassign.1), hno.isStopped,
      fun f hf => ?_, hno.copies, hno.unreaped⟩
    rcases List.mem_cons.mp hf with rfl | hf
    · exact hframe.imp id Or.inr
    · exact hno.frames f hf

/-- SIGINT ends the parent before `pkill` is installed. -/
theorem Sound.default {s : State} (hs : Sound s) :
    Sound { s with main := { s.main with frames := [], running := false } } := by
  refine ⟨hs.pos, hs.childPid, fun _ ht => absurd ht List.not_mem_nil, hs.copied, fun hpc => ?_,
    fun hcpid => ?_⟩
  · obtain ⟨h₁, h₂, h₃, -, h₅, h₆⟩ := hs.begun hpc
    exact ⟨h₁, h₂, h₃, rfl, h₅, h₆⟩
  · obtain ⟨h₁, h₂, -, h₄, h₅⟩ := hs.failed hcpid
    exact ⟨h₁.imp id fun hassign => ⟨hassign.1, rfl⟩, h₂, fun _ hf => absurd hf List.not_mem_nil,
      h₄, h₅⟩

theorem catchesTstp_spec {pc : MainPc} (h : pc.catchesTstp = true) : pc ≠ .fork ∧ pc ≠ .assign := by
  cases pc with
  | fork => cases h
  | assign => cases h
  | _ => exact ⟨by simp, by simp⟩

theorem catchesInt_spec {pc : MainPc} (h : pc.catchesInt = true) : pc ≠ .fork ∧ pc ≠ .assign := by
  cases pc with
  | fork => cases h
  | assign => cases h
  | _ => exact ⟨by simp, by simp⟩

/-- **What one step keeps**, if it is no `kill` without a child. -/
theorem Sound.step {e : Event} {s s' : State} (hs : Sound s) (h : machine.step e s = some s')
    (hkill : ∀ t, killTarget e s = some t → 0 < t ∧ t ∈ s.unreaped) : Sound s' := by
  cases e with
  | main r status =>
    by_cases hrunning : s.main.running = true
    · have h := (if_pos hrunning).symm.trans h
      cases hframes : s.main.frames with
      | nil =>
        rw [hframes] at h
        exact hs.bodyStep hframes h
      | cons frame frames =>
        rw [hframes] at h
        -- the pid that the handler kills with is the one in `child_pid`
        refine hs.handlerStep hframes (fun hframe => ?_) h
        refine (hkill s.main.childPid ?_).1
        rcases hframe with rfl | rfl <;> simp [killTarget, hframes]
    · cases (if_neg hrunning).symm.trans h
  | copy pid execs =>
    obtain ⟨c, hc, rfl⟩ := Option.map_eq_some_iff.mp h
    exact hs.copyStep hc
  | tstp =>
    simp only [machine, Option.ite_none_right_eq_some, Option.some.injEq] at h
    obtain ⟨⟨-, hcatches, -⟩, rfl⟩ := h
    exact hs.deliver (catchesTstp_spec hcatches) (Or.inl rfl)
  | int =>
    simp only [machine, Option.ite_none_right_eq_some] at h
    obtain ⟨-, h⟩ := h
    -- before the handler is set `SIGINT` has its default action
    by_cases hcatches : s.main.pc.catchesInt = true
    · rw [if_pos hcatches] at h
      obtain rfl := Option.some.inj h
      exact hs.deliver (catchesInt_spec hcatches) (Or.inr rfl)
    · rw [if_neg hcatches] at h
      obtain rfl := Option.some.inj h
      exact hs.default
  | intCopy pid =>
    obtain ⟨c, hc, h⟩ := Option.bind_eq_some_iff.mp h
    simp only [Option.ite_none_right_eq_some, Option.some.injEq] at h
    obtain ⟨-, rfl⟩ := h
    obtain ⟨hpc, hcpid, hknown⟩ := hs.of_copy hc
    exact hs.copies hpc hcpid (hs.put_copies (c := { c with pc := .kill }) hknown _)
  | ends pid =>
    simp only [machine, Option.ite_none_right_eq_some, Option.some.injEq] at h
    obtain ⟨⟨hmem, -⟩, rfl⟩ := h
    refine hs.copies (fun hpc => ?_) (fun hcpid => ?_) (hs.filter_copies _)
    · rw [(hs.begun hpc).unreaped] at hmem
      exact absurd hmem List.not_mem_nil
    · rw [(hs.failed hcpid).unreaped] at hmem
      exact absurd hmem List.not_mem_nil

/-! ### The calls of `kill` -/

/-- What the next call of `kill` is given is known. -/
theorem Sound.known_target {e : Event} {s : State} {t : ℤ} (hs : Sound s)
    (h : killTarget e s = some t) : Known s t := by
  cases e with
  | main r status =>
    rw [killTarget] at h
    split at h
    · exact Option.some.inj h ▸ hs.childPid
    · exact Option.some.inj h ▸ hs.childPid
    · cases h
  | copy pid execs =>
    obtain ⟨c, hc, h⟩ := Option.bind_eq_some_iff.mp h
    simp only [Option.ite_none_right_eq_some, Option.some.injEq] at h
    obtain ⟨-, rfl⟩ := h
    exact (hs.of_copy hc).2.2
  | tstp => cases h
  | int => cases h
  | intCopy pid => cases h
  | ends pid => cases h

/-- `main` itself does not call `kill`, and its copies do not depend on it. -/
theorem bodyStep_same {s s' : State} {r status : ℤ} (h : bodyStep r status s = some s') :
    s'.kills = s.kills ∧ s'.copies = s.copies := by
  obtain ⟨⟨pc, cpid, cstat, childPid, isStopped, frames, running⟩, copies, unreaped, ended,
    kills⟩ := s
  cases pc with
  | fork =>
    -- a `fork` that fails gives -1, and the process goes on with it
    simp only [bodyStep] at h
    split at h
    · obtain rfl := Option.some.inj h
      exact ⟨rfl, rfl⟩
    · split at h
      · obtain rfl := Option.some.inj h
        exact ⟨rfl, rfl⟩
      · cases h
  | waiting =>
    simp only [bodyStep] at h
    split at h
    · obtain rfl := Option.some.inj h
      exact ⟨rfl, rfl⟩
    · split at h
      · obtain rfl := Option.some.inj h
        exact ⟨rfl, rfl⟩
      · cases h
  | test =>
    simp only [bodyStep] at h
    split at h
    · obtain rfl := Option.some.inj h
      exact ⟨rfl, rfl⟩
    · obtain rfl := Option.some.inj h
      exact ⟨rfl, rfl⟩
  | _ =>
    obtain rfl := Option.some.inj h
    exact ⟨rfl, rfl⟩

/-- A step calls `kill` once at most. -/
theorem kills_step {e : Event} {s s' : State} (h : machine.step e s = some s') :
    s'.kills = ((killTarget e s).map fun t => ⟨t, s.unreaped⟩).toList ++ s.kills := by
  cases e with
  | main r status =>
    -- only the handlers of the main process and the copies kill
    by_cases hrunning : s.main.running = true
    · have h := (if_pos hrunning).symm.trans h
      rw [killTarget]
      cases hframes : s.main.frames with
      | nil =>
        rw [hframes] at h
        exact (bodyStep_same h).1
      | cons frame frames =>
        rw [hframes] at h
        cases frame with
        | fork =>
          simp only [handlerStep] at h
          split at h
          · obtain rfl := Option.some.inj h
            rfl
          · split at h
            · obtain rfl := Option.some.inj h
              rfl
            · cases h
        | _ =>
          obtain rfl := Option.some.inj h
          rfl
    · cases (if_neg hrunning).symm.trans h
  | copy pid execs =>
    obtain ⟨c, hc, rfl⟩ := Option.map_eq_some_iff.mp h
    rw [killTarget, hc]
    obtain ⟨pid', childPid, cpc, blocked⟩ := c
    cases cpc with
    | exec => cases execs <;> rfl
    | _ => rfl
  | tstp =>
    simp only [machine, Option.ite_none_right_eq_some, Option.some.injEq] at h
    obtain ⟨-, rfl⟩ := h
    rfl
  | int =>
    simp only [machine, Option.ite_none_right_eq_some] at h
    obtain ⟨-, h⟩ := h
    split at h <;> obtain rfl := Option.some.inj h <;> rfl
  | intCopy pid =>
    obtain ⟨c, hc, h⟩ := Option.bind_eq_some_iff.mp h
    simp only [Option.ite_none_right_eq_some, Option.some.injEq] at h
    obtain ⟨-, rfl⟩ := h
    rfl
  | ends pid =>
    simp only [machine, Option.ite_none_right_eq_some, Option.some.injEq] at h
    obtain ⟨-, rfl⟩ := h
    rfl

/-- A step keeps every `kill` valid if and only if its own is. -/
theorem allValid_step {e : Event} {s s' : State} (h : machine.step e s = some s') :
    AllValid s' ↔ AllValid s ∧ ∀ t, killTarget e s = some t → 0 < t ∧ t ∈ s.unreaped := by
  rw [AllValid, kills_step h]
  cases killTarget e s with
  | none => simp [AllValid]
  | some t => simp [AllValid, Kill.Valid, and_comm]

/-! ### Runs -/

/-- The invariant, as long as every `kill` has had a child. -/
theorem sound_step {e : Event} {s s' : State} (hs : AllValid s → Sound s)
    (h : machine.step e s = some s') (hvalid : AllValid s') : Sound s' := by
  obtain ⟨hold, hnew⟩ := (allValid_step h).mp hvalid
  exact (hs hold).step h hnew

/-- **When every `kill` has a child.**  In all states of a run, every `kill` so far has been
given the pid of a child that was forked and not yet reaped, if and only if every step that
calls `kill` meets the condition. -/
theorem kills_valid_iff (cstat : ℤ) (es : List Event) :
    (∀ n, AllValid (machine.run (es.take n) (start cstat))) ↔
      machine.Meets Named es (start cstat) := by
  refine Machine.forall_run_take_iff_meets (I := fun s => AllValid s → Sound s)
    (fun e s s' hs h => sound_step hs h) ?_ es (fun _ => sound_start cstat)
    fun _ hk => absurd hk List.not_mem_nil
  intro e s s' hs hvalid h
  rw [allValid_step h, and_iff_right hvalid]
  refine forall_congr' fun t => forall_congr' fun ht => ?_
  exact valid_iff_named (hs hvalid) ((hs hvalid).known_target ht)

/-- The first child, killed by SIGTSTP, is reaped; then SIGINT is delivered. -/
def reapedFirst : List Event :=
  [.main 100 0, .main 0 0, .main 0 0, .main 0 0, .main 0 0, .tstp, .main 0 0, .main 0 0,
    .main 0 0, .ends 100, .main 0 0, .main 0 0, .main 100 9, .int, .main 0 0]

/-- The first `fork` fails, and SIGTSTP is delivered. -/
def forkFailed : List Event :=
  [.main (-1) 0, .main 0 0, .main 0 0, .main 0 0, .tstp, .main 0 0, .main 0 0]

/-- `kill` is given the pid of a child that has been reaped, and -1. -/
theorem kill_without_child :
    (¬∀ (cstat : ℤ) (es : List Event), ∀ k ∈ (machine.run es (start cstat)).kills,
      k.target ∈ k.unreaped) ∧
    (¬∀ (cstat : ℤ) (es : List Event), ∀ k ∈ (machine.run es (start cstat)).kills,
      0 < k.target) := by
  constructor
  · intro h
    exact absurd (h 0 reapedFirst ⟨100, []⟩ (by decide)) (by decide)
  · intro h
    exact absurd (h 0 forkFailed ⟨-1, []⟩ (by decide)) (by decide)

end StopResume
end Signals
end OpSys
