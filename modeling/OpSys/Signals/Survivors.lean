import OpSys.Signals.StopResume

/-!
# The children that are left

The controller of SIGTSTP and SIGINT, under an observer who keeps the `date.sh` processes that
have been forked and not killed.  Every `fork` succeeds, the signals are delivered to the
parent, and `date.sh` runs until it is killed.

At most one child is ever alive, and outside `stop_resume` none is exactly while
`is_stopped`, as long as `pkill` has not called `kill`.  A child is left in two ways: `pkill`
kills the old `child_pid` while `stop_resume` is about to store the new one, or SIGTSTP,
which `pkill` does not block, has a new child forked behind its `kill`.

## Main definitions

* `Record`, `see`, `allowed`, `controller` — the observer, and the controller under it.
* `Move` — what an event does to the parent and to the record.
* `Tracks`, `Watched` — the children at each place of the handlers, and the invariant.
* `Gone` — from the `kill` of `pkill` on, no child is alive.
* `Meant` — what the controller is for, within `pkill` too.
* `KillsLast`, `LeavesStopped` — the conditions of the two.

## Main results

* `move_of_step` — every step is a move.
* `Watched.move` — the invariant.
* `killTarget_pos`, `reach_machine` — the runs under the observer are runs of the controller.
* `survivors_iff` — what holds in every run, and the runs that leave no child.

## References

`lab4_signals_and_pipes/sigint_sigtstp/sigs.c`.
-/

namespace OpSys
namespace Signals
namespace Survivors

open StopResume

/-- What the observer keeps: the children that have been forked and not killed, and whether
the parent has ended in `pkill`. -/
structure Record where
  alive : List ℤ
  exited : Bool
  deriving DecidableEq, Repr

/-- The next statement of the parent is `fork`. -/
def forks (m : MainProcess) : Bool :=
  match m.frames with
  | [] => m.pc = .fork
  | frame :: _ => frame = .fork

/-- Every `fork` and every `execl` succeeds, SIGINT goes to the parent, and no child ends
before it is killed. -/
def allowed (e : Event) (s : State) (o : Record) : Bool :=
  match e with
  | .main r _ => !(forks s.main && r = -1)
  | .copy _ execs => execs
  | .tstp => true
  | .int => true
  | .intCopy _ => false
  | .ends pid => pid ∉ o.alive

/-- The child that the event forks. -/
def forked (e : Event) (s : State) : List ℤ :=
  match e with
  | .main r _ => if forks s.main then [r] else []
  | _ => []

/-- The event is the `exit` of `pkill`. -/
def leaves (e : Event) (s : State) : Bool :=
  match e with
  | .main _ _ => s.main.frames.head? = some .exit
  | _ => false

/-- The record after the event. -/
def see (e : Event) (s : State) (o : Record) : Record where
  alive := forked e s ++ o.alive.filter (killTarget e s ≠ some ·)
  exited := o.exited || leaves e s

/-- The controller under the observer. -/
def controller : Machine Event (State × Record) := machine.watch allowed see

def start (cstat : ℤ) : State × Record := (StopResume.start cstat, ⟨[], false⟩)

/-- The program runs, and no call of `stop_resume` is under way. -/
def Outside (m : MainProcess) : Prop :=
  m.running = true ∧ m.frames.all (·.isPkill) = true

/-- `pkill` has called `kill`. -/
def Over (m : MainProcess) (o : Record) : Prop := Frame.exit ∈ m.frames ∨ o.exited = true

/-- Outside `stop_resume` no child is alive exactly while `is_stopped`, from the first
`fork` on. -/
def Agrees (m : MainProcess) (o : Record) : Prop :=
  Outside m → m.pc ≠ .fork → (m.isStopped = true ↔ o.alive = [])

/-- From the `kill` of `pkill` on, no child is alive. -/
def Gone (m : MainProcess) (o : Record) : Prop := Over m o → o.alive = []

/-- What the controller is for: outside `stop_resume` one child is alive at most, and none
exactly while `is_stopped`; after the `exit` of `pkill` none is. -/
structure Meant (m : MainProcess) (o : Record) : Prop where
  single : Outside m → o.alive.length ≤ 1
  agrees : Agrees m o
  clean : o.exited = true → o.alive = []

/-- `pkill` does not call `kill` while `stop_resume` is about to store the pid of a new child,
and `stop_resume` does not call `fork` within `pkill` after its `kill`. -/
def KillsLast (e : Event) (m : MainProcess) : Prop :=
  match e, m.frames with
  | .main _ _, .pkill :: .assign pid :: _ => pid = m.childPid
  | .main _ _, .fork :: .exit :: _ => False
  | _, _ => True

/-- `pkill` only calls `kill` and `exit` while `is_stopped`, unless it interrupts
`stop_resume`, and there it does not exit while the pid of a new child is to be stored. -/
def LeavesStopped (e : Event) (m : MainProcess) : Prop :=
  match e, m.frames with
  | .main _ _, [.pkill] => m.isStopped = true
  | .main _ _, [.exit] => m.isStopped = true
  | .main _ _, .exit :: .assign pid :: _ => pid = m.childPid
  | _, _ => True

/-! ### The moves -/

/-- What an event does to the parent and to the record. -/
inductive Move (m : MainProcess) (o : Record) : Event → MainProcess → Record → Prop
  | other {e} (he : ∀ r status, e ≠ .main r status) : Move m o e m o
  | tstp (hall : m.frames.all (·.isPkill) = true) (hpc : m.pc ≠ .fork ∧ m.pc ≠ .assign) :
    Move m o .tstp { m with frames := .testStopped :: m.frames } o
  | int (hall : m.frames.all (!·.isPkill) = true) (hpc : m.pc ≠ .fork ∧ m.pc ≠ .assign) :
    Move m o .int { m with frames := .pkill :: m.frames } o
  | default : Move m o .int { m with frames := [], running := false } o
  | firstFork {r status} (hframes : m.frames = []) (hpc : m.pc = .fork) (hr : 0 < r) :
    -- the child begins to live with the `fork` of its parent
    Move m o (.main r status) { m with pc := .assign, cpid := r } { o with alive := r :: o.alive }
  | firstAssign {r status} (hframes : m.frames = []) (hpc : m.pc = .assign) :
    Move m o (.main r status) { m with pc := .sigaction, childPid := m.cpid } o
  | body {r status pc cstat running} (hframes : m.frames = [])
      (hpc : m.pc ≠ .fork ∧ m.pc ≠ .assign) (hpc' : pc ≠ .fork ∧ pc ≠ .assign) :
    Move m o (.main r status) { m with pc := pc, cstat := cstat, running := running } o
  | test {r status fs} (hframes : m.frames = .testStopped :: fs) :
    Move m o (.main r status)
      { m with frames := (if m.isStopped then .fork else .kill) :: fs } o
  | fork {r status fs} (hframes : m.frames = .fork :: fs) (hr : 0 < r) :
    Move m o (.main r status) { m with frames := .assign r :: fs } { o with alive := r :: o.alive }
  | assign {r status pid fs} (hframes : m.frames = .assign pid :: fs) :
    Move m o (.main r status) { m with childPid := pid, frames := .clear :: fs } o
  | clear {r status fs} (hframes : m.frames = .clear :: fs) :
    Move m o (.main r status) ({ m with isStopped := false }.back fs) o
  | kill {r status fs} (hframes : m.frames = .kill :: fs) :
    Move m o (.main r status) { m with frames := .set :: fs }
      { o with alive := o.alive.filter (· ≠ m.childPid) }
  | set {r status fs} (hframes : m.frames = .set :: fs) :
    Move m o (.main r status) ({ m with isStopped := true }.back fs) o
  | pkill {r status fs} (hframes : m.frames = .pkill :: fs) :
    Move m o (.main r status) { m with frames := .exit :: fs }
      { o with alive := o.alive.filter (· ≠ m.childPid) }
  | exit {r status fs} (hframes : m.frames = .exit :: fs) :
    Move m o (.main r status) { m with frames := [], running := false } { o with exited := true }

/-- An event that is neither `fork` nor `kill` nor `exit` leaves the record as it is. -/
theorem see_eq_self {e : Event} {s : State} {o : Record} (hforked : forked e s = [])
    (hkill : killTarget e s = none) (hleaves : leaves e s = false) : see e s o = o := by
  have hfilter : o.alive.filter (killTarget e s ≠ some ·) = o.alive :=
    List.filter_eq_self.mpr (by simp [hkill])
  rw [see, hforked, hleaves, hfilter, List.nil_append, Bool.or_false]

/-- So does a statement of a handler that is none of these. -/
theorem see_handler {s : State} {o : Record} {r status : ℤ} {frame : Frame} {frames : List Frame}
    (hframes : s.main.frames = frame :: frames)
    (hframe : frame ≠ .fork ∧ frame ≠ .kill ∧ frame ≠ .pkill ∧ frame ≠ .exit) :
    see (.main r status) s o = o := by
  obtain ⟨hfork, hkill, hpkill, hexit⟩ := hframe
  apply see_eq_self
  · simp [forked, forks, hframes, hfork]
  · cases frame with
    | kill => exact absurd rfl hkill
    | pkill => exact absurd rfl hpkill
    | _ => simp [killTarget, hframes]
  · simp [leaves, hframes, hexit]

theorem see_kill {s : State} {o : Record} {r status : ℤ} {frame : Frame} {frames : List Frame}
    (hframes : s.main.frames = frame :: frames) (hframe : frame = .kill ∨ frame = .pkill) :
    see (.main r status) s o = { o with alive := o.alive.filter (· ≠ s.main.childPid) } := by
  rcases hframe with rfl | rfl <;>
    simp [see, forked, forks, leaves, killTarget, hframes, eq_comm]

theorem move_of_bodyStep {s s' : State} {o : Record} {r status : ℤ} (hframes : s.main.frames = [])
    (hr : ¬(s.main.pc = .fork ∧ r = -1)) (h : bodyStep r status s = some s') :
    -- apart from the first `fork` the body changes nothing that lives
    Move s.main o (.main r status) s'.main (see (.main r status) s o) := by
  have hkill : killTarget (.main r status) s = none := by simp [killTarget, hframes]
  have hleaves : leaves (.main r status) s = false := by simp [leaves, hframes]
  by_cases hpc : s.main.pc = .fork
  · have hne : r ≠ -1 := fun heq => hr ⟨hpc, heq⟩
    simp only [bodyStep, hpc, if_neg hne, Option.ite_none_right_eq_some, Option.some.injEq] at h
    obtain ⟨⟨hpos, -⟩, rfl⟩ := h
    have hsee : see (.main r status) s o = { o with alive := r :: o.alive } := by
      simp [see, forked, forks, hframes, hpc, hkill, hleaves]
    rw [hsee]
    exact Move.firstFork hframes hpc hpos
  · have hsee : see (.main r status) s o = o := by
      apply see_eq_self _ hkill hleaves
      simp [forked, forks, hframes, hpc]
    rw [hsee]
    cases hpc' : s.main.pc with
    | fork => exact absurd hpc' hpc
    | assign =>
      simp only [bodyStep, hpc'] at h
      obtain rfl := Option.some.inj h
      exact Move.firstAssign hframes hpc'
    | sigaction | signal | waitpid =>
      simp only [bodyStep, hpc'] at h
      obtain rfl := Option.some.inj h
      exact Move.body hframes (by simp [hpc']) (by simp)
    | waiting =>
      simp only [bodyStep, hpc'] at h
      split at h
      · obtain rfl := Option.some.inj h
        exact Move.body hframes (by simp [hpc']) (by simp)
      · simp only [Option.ite_none_right_eq_some, Option.some.injEq] at h
        obtain ⟨-, rfl⟩ := h
        exact Move.body hframes (by simp [hpc']) (by simp)
    | test =>
      simp only [bodyStep, hpc'] at h
      split at h
      · obtain rfl := Option.some.inj h
        exact Move.body hframes (by simp [hpc']) (by simp)
      · obtain rfl := Option.some.inj h
        exact Move.body hframes (by simp [hpc']) (by simp)

theorem move_of_handlerStep {s s' : State} {o : Record} {r status : ℤ} {frame : Frame}
    {frames : List Frame} (hframes : s.main.frames = frame :: frames)
    (hr : ¬(frame = .fork ∧ r = -1)) (h : handlerStep r frame frames s = some s') :
    Move s.main o (.main r status) s'.main (see (.main r status) s o) := by
  cases frame with
  | testStopped =>
    obtain rfl := Option.some.inj h
    rw [see_handler hframes (by simp)]
    exact Move.test hframes
  | fork =>
    have hne : r ≠ -1 := fun heq => hr ⟨rfl, heq⟩
    simp only [handlerStep, if_neg hne, Option.ite_none_right_eq_some, Option.some.injEq] at h
    obtain ⟨⟨hpos, -⟩, rfl⟩ := h
    have hsee : see (.main r status) s o = { o with alive := r :: o.alive } := by
      simp [see, forked, forks, leaves, killTarget, hframes]
    rw [hsee]
    exact Move.fork hframes hpos
  | assign pid =>
    obtain rfl := Option.some.inj h
    rw [see_handler hframes (by simp)]
    exact Move.assign hframes
  | clear =>
    obtain rfl := Option.some.inj h
    rw [see_handler hframes (by simp)]
    exact Move.clear hframes
  | kill =>
    obtain rfl := Option.some.inj h
    rw [see_kill hframes (Or.inl rfl)]
    exact Move.kill hframes
  | set =>
    obtain rfl := Option.some.inj h
    rw [see_handler hframes (by simp)]
    exact Move.set hframes
  | pkill =>
    obtain rfl := Option.some.inj h
    rw [see_kill hframes (Or.inr rfl)]
    exact Move.pkill hframes
  | exit =>
    obtain rfl := Option.some.inj h
    have hsee : see (.main r status) s o = { o with exited := true } := by
      simp [see, forked, forks, leaves, killTarget, hframes]
    rw [hsee]
    exact Move.exit hframes

/-- **What a step does**, as no copy is in `pkill`. -/
theorem move_of_step {e : Event} {w w' : State × Record}
    (hcopies : ∀ c ∈ w.1.copies, c.pc ≠ .kill) (h : controller.step e w = some w') :
    -- a copy that never kills leaves the record as it is
    Move w.1.main w.2 e w'.1.main w'.2 := by
  obtain ⟨hallowed, h, hsee⟩ := Machine.watch_step_eq_some.mp h
  rw [hsee]
  cases e with
  | main r status =>
    have hr : ¬(forks w.1.main = true ∧ r = -1) := by
      rintro ⟨hforks, rfl⟩
      simp [allowed, hforks] at hallowed
    simp only [machine, Option.ite_none_right_eq_some] at h
    obtain ⟨-, h⟩ := h
    cases hframes : w.1.main.frames with
    | nil =>
      rw [hframes] at h
      exact move_of_bodyStep hframes (by simpa [forks, hframes] using hr) h
    | cons frame frames =>
      rw [hframes] at h
      exact move_of_handlerStep hframes (by simpa [forks, hframes] using hr) h
  | copy pid execs =>
    obtain ⟨c, hc, hstep⟩ := Option.map_eq_some_iff.mp h
    have hkill : killTarget (.copy pid execs) w.1 = none := by
      simp [killTarget, hc, hcopies c (List.mem_of_find?_eq_some hc)]
    rw [see_eq_self rfl hkill rfl, ← hstep]
    have hmain : (copyStep execs c w.1).main = w.1.main := by
      obtain ⟨pid', childPid, cpc, blocked⟩ := c
      cases cpc with
      | exec => cases execs <;> rfl
      | _ => rfl
    rw [hmain]
    exact Move.other (by simp)
  | tstp =>
    simp only [machine, Option.ite_none_right_eq_some, Option.some.injEq] at h
    obtain ⟨⟨-, hcatches, hall⟩, hnext⟩ := h
    rw [see_eq_self rfl rfl rfl, ← hnext]
    exact Move.tstp hall (catchesTstp_spec hcatches)
  | int =>
    simp only [machine, Option.ite_none_right_eq_some] at h
    obtain ⟨⟨-, hall⟩, h⟩ := h
    rw [see_eq_self rfl rfl rfl]
    by_cases hcatches : w.1.main.pc.catchesInt = true
    · rw [if_pos hcatches] at h
      rw [← Option.some.inj h]
      exact Move.int hall (catchesInt_spec hcatches)
    · rw [if_neg hcatches] at h
      rw [← Option.some.inj h]
      exact Move.default
  | intCopy pid => cases hallowed
  | ends pid =>
    simp only [machine, Option.ite_none_right_eq_some, Option.some.injEq] at h
    obtain ⟨-, hnext⟩ := h
    rw [see_eq_self rfl rfl rfl, ← hnext]
    exact Move.other (by simp)

/-! ### The invariant -/

/-- The children alive while `stop_resume` is at the frame; outside it, as at its start. -/
def childrenAt (childPid : ℤ) (isStopped : Bool) : Frame → List ℤ
  | .fork => []
  | .assign pid => [pid]
  | .clear => [childPid]
  | .kill => [childPid]
  | .set => []
  | _ => if isStopped then [] else [childPid]

/-- The calls around a call of `stop_resume`: none, or one of `pkill`. -/
def Outer (frames : List Frame) : Prop := frames = [] ∨ frames = [.pkill] ∨ frames = [.exit]

/-- The calls of the handlers, and the children alive. -/
inductive Tracks (childPid : ℤ) (isStopped : Bool) : List Frame → List ℤ → Prop
  | idle {outer} (ho : Outer outer) :
    Tracks childPid isStopped outer (childrenAt childPid isStopped .testStopped)
  | stop {f outer} (hf : f.isPkill = false) (ho : Outer outer) :
    Tracks childPid isStopped (f :: outer) (childrenAt childPid isStopped f)
  | killed : Tracks childPid isStopped [.exit] []
  | stopKilled {f} (hf : f = .testStopped ∨ f = .kill) : Tracks childPid isStopped [f, .exit] []
  | pkillStop {f} (hf : f.isPkill = false) :
    Tracks childPid isStopped [.pkill, f] (childrenAt childPid isStopped f)
  | exitStop {f} (hf : f.isPkill = false) :
    Tracks childPid isStopped [.exit, f]
      ((childrenAt childPid isStopped f).filter (· ≠ childPid))

section Tracks

variable {p pid r : ℤ} {b : Bool} {f : Frame} {fs : List Frame} {alive : List ℤ}

theorem Outer.all (ho : Outer fs) : fs.all (·.isPkill) = true := by
  rcases ho with rfl | rfl | rfl <;> rfl

/-- A call of `stop_resume` is the outermost or within one of `pkill`. -/
theorem Tracks.stop_cases (h : Tracks p b (f :: fs) alive) (hf : f.isPkill = false) :
    Outer fs ∧ (alive = childrenAt p b f ∨
      (f = .testStopped ∨ f = .kill) ∧ fs = [.exit] ∧ alive = []) := by
  cases h with
  | idle ho =>
    have hall := ho.all
    simp [hf] at hall
  | stop _ ho => exact ⟨ho, Or.inl rfl⟩
  | killed => cases hf
  | stopKilled hkilled => exact ⟨Or.inr (Or.inr rfl), Or.inr ⟨hkilled, rfl, rfl⟩⟩
  | pkillStop _ => cases hf
  | exitStop _ => cases hf

theorem Tracks.test (h : Tracks p b (.testStopped :: fs) alive) :
    Tracks p b ((if b then .fork else .kill) :: fs) alive := by
  obtain ⟨ho, rfl | ⟨-, rfl, rfl⟩⟩ := h.stop_cases rfl
  · cases b with
    | true => exact Tracks.stop (f := .fork) rfl ho
    | false => exact Tracks.stop (f := .kill) rfl ho
  · cases b with
    | true => exact Tracks.stop (f := .fork) rfl ho
    | false => exact Tracks.stopKilled (Or.inr rfl)

/-- Past the test of `is_stopped` and the `kill`, the call knows the children. -/
theorem Tracks.alive_eq (h : Tracks p b (f :: fs) alive) (hf : f.isPkill = false)
    (hne : f ≠ .testStopped ∧ f ≠ .kill) : Outer fs ∧ alive = childrenAt p b f := by
  obtain ⟨ho, rfl | ⟨hf, -, -⟩⟩ := h.stop_cases hf
  · exact ⟨ho, rfl⟩
  · rcases hf with hf | hf
    · exact absurd hf hne.1
    · exact absurd hf hne.2

theorem Tracks.fork (h : Tracks p b (.fork :: fs) alive) :
    Tracks p b (.assign r :: fs) (r :: alive) := by
  obtain ⟨ho, rfl⟩ := h.alive_eq rfl (by simp)
  exact Tracks.stop (f := .assign r) rfl ho

theorem Tracks.assign (h : Tracks p b (.assign pid :: fs) alive) :
    Tracks pid b (.clear :: fs) alive := by
  obtain ⟨ho, rfl⟩ := h.alive_eq rfl (by simp)
  exact Tracks.stop (f := .clear) rfl ho

theorem Tracks.clear (h : Tracks p b (.clear :: fs) alive) : Tracks p false fs alive := by
  obtain ⟨ho, rfl⟩ := h.alive_eq rfl (by simp)
  exact Tracks.idle ho

/-- The `kill` of `stop_resume` leaves no child. -/
theorem Tracks.alive_of_kill (h : Tracks p b (.kill :: fs) alive) :
    Outer fs ∧ alive.filter (· ≠ p) = [] := by
  obtain ⟨ho, rfl | ⟨-, -, rfl⟩⟩ := h.stop_cases rfl
  · exact ⟨ho, by simp [childrenAt]⟩
  · exact ⟨ho, rfl⟩

theorem Tracks.kill (h : Tracks p b (.kill :: fs) alive) :
    Tracks p b (.set :: fs) (alive.filter (· ≠ p)) := by
  obtain ⟨ho, hnone⟩ := h.alive_of_kill
  rw [hnone]
  exact Tracks.stop (f := .set) rfl ho

theorem Tracks.set (h : Tracks p b (.set :: fs) alive) : Tracks p true fs alive := by
  obtain ⟨ho, rfl⟩ := h.alive_eq rfl (by simp)
  exact Tracks.idle ho

/-- `pkill` is called outside `stop_resume` or within it. -/
theorem Tracks.pkill_cases (h : Tracks p b (.pkill :: fs) alive) :
    (fs = [] ∧ alive = childrenAt p b .testStopped) ∨
      ∃ f, f.isPkill = false ∧ fs = [f] ∧ alive = childrenAt p b f := by
  cases h with
  | idle ho =>
    rcases ho with ho | ho | ho
    · cases ho
    · exact Or.inl ⟨(List.cons.inj ho).2, rfl⟩
    · cases ho
  | stop hf ho => cases hf
  | stopKilled hf => rcases hf with hf | hf <;> cases hf
  | pkillStop hf => exact Or.inr ⟨_, hf, rfl, rfl⟩

/-- The pid that is about to be stored is the only one that the `kill` of `pkill` can miss. -/
theorem filter_childrenAt_eq_nil :
    (childrenAt p b f).filter (· ≠ p) = [] ↔ ∀ pid, f = .assign pid → pid = p := by
  cases f with
  | testStopped | pkill | exit => cases b <;> simp [childrenAt]
  | _ => simp [childrenAt]

theorem Tracks.pkill (h : Tracks p b (.pkill :: fs) alive) :
    Tracks p b (.exit :: fs) (alive.filter (· ≠ p)) := by
  rcases h.pkill_cases with ⟨rfl, rfl⟩ | ⟨f, hf, rfl, rfl⟩
  · rw [filter_childrenAt_eq_nil.mpr (by simp)]
    exact Tracks.killed
  · exact Tracks.exitStop hf

theorem Tracks.exit_cases (h : Tracks p b (.exit :: fs) alive) :
    fs = [] ∨ ∃ f, f.isPkill = false ∧ fs = [f] ∧ alive = (childrenAt p b f).filter (· ≠ p) := by
  cases h with
  | idle ho =>
    rcases ho with ho | ho | ho
    · cases ho
    · cases ho
    · exact Or.inl (List.cons.inj ho).2
  | stop hf ho => cases hf
  | killed => exact Or.inl rfl
  | stopKilled hf => rcases hf with hf | hf <;> cases hf
  | exitStop hf => exact Or.inr ⟨_, hf, rfl, rfl⟩

theorem Tracks.tstp (h : Tracks p b fs alive) (hall : fs.all (·.isPkill) = true) :
    Tracks p b (.testStopped :: fs) alive := by
  cases h with
  | idle ho => exact Tracks.stop rfl ho
  | stop hf ho => simp [hf] at hall
  | killed => exact Tracks.stopKilled (Or.inl rfl)
  | stopKilled hf => rcases hf with rfl | rfl <;> cases hall
  | pkillStop hf => simp [hf] at hall
  | exitStop hf => simp [hf] at hall

theorem Tracks.int (h : Tracks p b fs alive) (hall : fs.all (!·.isPkill) = true) :
    Tracks p b (.pkill :: fs) alive := by
  cases h with
  | idle ho =>
    rcases ho with rfl | rfl | rfl
    · exact Tracks.idle (Or.inr (Or.inl rfl))
    · cases hall
    · cases hall
  | stop hf ho =>
    rcases ho with rfl | rfl | rfl
    · exact Tracks.pkillStop hf
    · simp [Frame.isPkill] at hall
    · simp [Frame.isPkill] at hall
  | killed => cases hall
  | stopKilled hf => simp [Frame.isPkill] at hall
  | pkillStop hf => cases hall
  | exitStop hf => cases hall

end Tracks

/-- The parent's place in `main`, and the children alive. -/
structure Follows (m : MainProcess) (alive : List ℤ) : Prop where
  fork : m.pc = .fork → m.frames = [] ∧ m.isStopped = false ∧ alive = []
  assign : m.pc = .assign → m.frames = [] ∧ m.isStopped = false ∧ alive = [m.cpid]
  later : m.pc ≠ .fork → m.pc ≠ .assign →
    0 < m.childPid ∧ Tracks m.childPid m.isStopped m.frames alive

/-- What holds in every state. -/
structure Watched (m : MainProcess) (o : Record) : Prop where
  single : o.alive.length ≤ 1
  pos : ∀ p ∈ o.alive, 0 < p
  exited : o.exited = true → m.running = false
  follows : m.running = true → Follows m o.alive

theorem follows_of_later {m : MainProcess} {alive : List ℤ} (hpc : m.pc ≠ .fork ∧ m.pc ≠ .assign)
    (hpos : 0 < m.childPid) (htracks : Tracks m.childPid m.isStopped m.frames alive) :
    Follows m alive :=
  ⟨fun h => absurd h hpc.1, fun h => absurd h hpc.2, fun _ _ => ⟨hpos, htracks⟩⟩

/-- A handler is called past the first assignment to `child_pid`. -/
theorem Follows.of_frames {m : MainProcess} {alive : List ℤ} {f : Frame} {fs : List Frame}
    (h : Follows m alive) (hframes : m.frames = f :: fs) :
    (m.pc ≠ .fork ∧ m.pc ≠ .assign) ∧ 0 < m.childPid ∧
      Tracks m.childPid m.isStopped (f :: fs) alive := by
  have hfork : m.pc ≠ .fork := by
    intro hpc
    have hnil := (h.fork hpc).1
    rw [hframes] at hnil
    cases hnil
  have hassign : m.pc ≠ .assign := by
    intro hpc
    have hnil := (h.assign hpc).1
    rw [hframes] at hnil
    cases hnil
  exact ⟨⟨hfork, hassign⟩, hframes ▸ h.later hfork hassign⟩

theorem watched_start (cstat : ℤ) : Watched (start cstat).1.main (start cstat).2 where
  single := Nat.zero_le 1
  pos := nofun
  exited := nofun
  follows := fun _ => ⟨fun _ => ⟨rfl, rfl, rfl⟩, nofun, fun h => absurd rfl h⟩

/-- The return of a handler does not bring `main` back before its assignment. -/
theorem back_pc {m : MainProcess} {fs : List Frame} (hpc : m.pc ≠ .fork ∧ m.pc ≠ .assign) :
    (m.back fs).pc ≠ .fork ∧ (m.back fs).pc ≠ .assign := by
  simp only [MainProcess.back]
  split
  · exact ⟨by simp, by simp⟩
  · exact hpc

theorem Watched.not_exited {m : MainProcess} {o : Record} (h : Watched m o)
    (hrun : m.running = true) : ¬o.exited = true := by
  intro hexited
  rw [h.exited hexited] at hrun
  cases hrun

theorem Watched.tracks {m : MainProcess} {o : Record} {f : Frame} {fs : List Frame}
    (h : Watched m o) (hrun : m.running = true) (hframes : m.frames = f :: fs) :
    Tracks m.childPid m.isStopped (f :: fs) o.alive :=
  ((h.follows hrun).of_frames hframes).2.2

/-- A statement of a handler keeps the invariant, if it keeps the children and their places. -/
theorem Watched.handler {m m' : MainProcess} {o : Record} {f : Frame} {fs : List Frame}
    {alive : List ℤ} (h : Watched m o) (hframes : m.frames = f :: fs)
    (hrunning : m'.running = m.running) (hsingle : alive.length ≤ 1)
    (hpos : ∀ p ∈ alive, 0 < p)
    (hnext : (m.pc ≠ .fork ∧ m.pc ≠ .assign) → 0 < m.childPid →
      Tracks m.childPid m.isStopped (f :: fs) o.alive → Follows m' alive) :
    Watched m' { o with alive := alive } := by
  refine ⟨hsingle, hpos, fun hexited => hrunning.trans (h.exited hexited), fun hrun => ?_⟩
  obtain ⟨hpc, hchild, htracks⟩ := (h.follows (hrunning.symm.trans hrun)).of_frames hframes
  exact hnext hpc hchild htracks

/-- **What every step keeps.** -/
theorem Watched.move {e : Event} {m m' : MainProcess} {o o' : Record} (h : Watched m o)
    (hrunning : ∀ r status, e = .main r status → m.running = true) (hmove : Move m o e m' o') :
    Watched m' o' := by
  -- a kill takes the child in `child_pid` out, if it is there
  have hless : (o.alive.filter (· ≠ m.childPid)).length ≤ 1 :=
    Nat.le_trans (List.length_filter_le _ _) h.single
  have hfilter : ∀ p ∈ o.alive.filter (· ≠ m.childPid), 0 < p :=
    fun p hp => h.pos p (List.mem_filter.mp hp).1
  cases hmove with
  | other he => exact h
  | tstp hall hpc =>
    -- the handlers track the one child, through every interruption
    refine ⟨h.single, h.pos, h.exited, fun hrun => ?_⟩
    obtain ⟨hchild, htracks⟩ := (h.follows hrun).later hpc.1 hpc.2
    exact follows_of_later hpc hchild (htracks.tstp hall)
  | int hall hpc =>
    refine ⟨h.single, h.pos, h.exited, fun hrun => ?_⟩
    obtain ⟨hchild, htracks⟩ := (h.follows hrun).later hpc.1 hpc.2
    exact follows_of_later hpc hchild (htracks.int hall)
  | default => exact ⟨h.single, h.pos, fun _ => rfl, nofun⟩
  | firstFork hframes hpc hr =>
    have hnone := ((h.follows (hrunning _ _ rfl)).fork hpc).2.2
    refine ⟨by simp [hnone], fun p hp => ?_, h.exited, fun hrun => ?_⟩
    · rcases List.mem_cons.mp hp with rfl | hp
      · exact hr
      · exact h.pos p hp
    · obtain ⟨-, hstopped, -⟩ := (h.follows hrun).fork hpc
      exact ⟨nofun, fun _ => ⟨hframes, hstopped, by rw [hnone]⟩, fun _ hne => absurd rfl hne⟩
  | firstAssign hframes hpc =>
    refine ⟨h.single, h.pos, h.exited, fun hrun => ?_⟩
    obtain ⟨-, hstopped, hone⟩ := (h.follows hrun).assign hpc
    apply follows_of_later (by simp)
    · exact h.pos _ (hone ▸ List.mem_singleton_self _)
    · dsimp only
      rw [hframes, hstopped, hone]
      exact Tracks.idle (Or.inl rfl)
  | body hframes hpc hpc' =>
    have hrun : m.running = true := hrunning _ _ rfl
    refine ⟨h.single, h.pos, fun hexited => absurd hexited (h.not_exited hrun), fun _ => ?_⟩
    · obtain ⟨hchild, htracks⟩ := (h.follows hrun).later hpc.1 hpc.2
      exact follows_of_later hpc' hchild htracks
  | test hframes =>
    refine h.handler hframes rfl h.single h.pos fun hpc hchild htracks => ?_
    exact follows_of_later hpc hchild htracks.test
  | fork hframes hr =>
    have htracks := h.tracks (hrunning _ _ rfl) hframes
    -- the stopped child has been killed before, so the new one is alone
    have hnone : o.alive = [] := (htracks.alive_eq rfl (by simp)).2
    refine h.handler hframes rfl (by simp [hnone]) (fun p hp => ?_) fun hpc hchild htracks => ?_
    · rcases List.mem_cons.mp hp with rfl | hp
      · exact hr
      · exact h.pos p hp
    · exact follows_of_later hpc hchild htracks.fork
  | assign hframes =>
    refine h.handler hframes rfl h.single h.pos fun hpc hchild htracks => ?_
    refine follows_of_later hpc ?_ ?_
    · exact h.pos _ ((htracks.alive_eq rfl (by simp)).2 ▸ List.mem_singleton_self _)
    · exact htracks.assign
  | clear hframes =>
    refine h.handler hframes rfl h.single h.pos fun hpc hchild htracks => ?_
    exact follows_of_later (back_pc hpc) hchild htracks.clear
  | kill hframes =>
    refine h.handler hframes rfl hless hfilter fun hpc hchild htracks => ?_
    exact follows_of_later hpc hchild htracks.kill
  | set hframes =>
    refine h.handler hframes rfl h.single h.pos fun hpc hchild htracks => ?_
    exact follows_of_later (back_pc hpc) hchild htracks.set
  | pkill hframes =>
    refine h.handler hframes rfl hless hfilter fun hpc hchild htracks => ?_
    exact follows_of_later hpc hchild htracks.pkill
  | exit hframes => exact ⟨h.single, h.pos, fun _ => rfl, nofun⟩

/-! ### The children that are left -/

section Left

variable {e : Event} {m m' : MainProcess} {o o' : Record}

theorem killsLast_of_ne (he : ∀ r status, e ≠ .main r status) : KillsLast e m := by
  cases e with
  | main r status => exact absurd rfl (he r status)
  | _ => exact trivial

theorem leavesStopped_of_ne (he : ∀ r status, e ≠ .main r status) : LeavesStopped e m := by
  cases e with
  | main r status => exact absurd rfl (he r status)
  | _ => exact trivial

/-- No child is alive still, if none is born. -/
theorem Gone.keep (hgone : Gone m o) (hover : Over m' o' → Over m o)
    (halive : o.alive = [] → o'.alive = []) : Gone m' o' :=
  fun h => halive (hgone (hover h))

theorem gone_of_frames_nil (hframes : m.frames = []) (hexited : ¬o.exited = true) : Gone m o := by
  rintro (hmem | hexit)
  · rw [hframes] at hmem
    cases hmem
  · exact absurd hexit hexited

/-- **When one step leaves a child** that is alive behind the `kill` of `pkill`. -/
theorem gone_move (h : Watched m o) (hgone : Gone m o)
    (hrunning : ∀ r status, e = .main r status → m.running = true) (hmove : Move m o e m' o') :
    Gone m' o' ↔ KillsLast e m := by
  have hexited : ∀ r status, e = .main r status → ¬o.exited = true :=
    -- before the end the record is not over
    fun r status he => h.not_exited (hrunning r status he)
  cases hmove with
  | other he => exact iff_of_true hgone (killsLast_of_ne he)
  | tstp hall hpc =>
    exact iff_of_true (hgone.keep (by simp [Over]) id) trivial
  | int hall hpc =>
    exact iff_of_true (hgone.keep (by simp [Over]) id) trivial
  | default =>
    refine iff_of_true (hgone.keep ?_ id) trivial
    rintro (hmem | hexit)
    · cases hmem
    · exact Or.inr hexit
  | firstFork hfs hpc hr =>
    exact iff_of_true (gone_of_frames_nil hfs (hexited _ _ rfl)) (by simp [KillsLast, hfs])
  | firstAssign hfs hpc =>
    exact iff_of_true (gone_of_frames_nil hfs (hexited _ _ rfl)) (by simp [KillsLast, hfs])
  | body hfs hpc hpc' =>
    exact iff_of_true (gone_of_frames_nil hfs (hexited _ _ rfl)) (by simp [KillsLast, hfs])
  | test hfs =>
    refine iff_of_true (hgone.keep ?_ id) (by simp [KillsLast, hfs])
    cases hb : m.isStopped <;> simp [Over, hfs]
  | @fork r status fs hfs hr =>
    have ho := ((h.tracks (hrunning _ _ rfl) hfs).alive_eq rfl (by simp)).1
    rcases ho with rfl | rfl | rfl
    · refine iff_of_true (fun hover => ?_) (by simp [KillsLast, hfs])
      simp [Over, hexited _ _ rfl] at hover
    · refine iff_of_true (fun hover => ?_) (by simp [KillsLast, hfs])
      simp [Over, hexited _ _ rfl] at hover
    · -- a second `fork` over a `pkill`: the new child is not the one killed
      refine iff_of_false (fun hnew => ?_) (by simp [KillsLast, hfs])
      have hnil := hnew (Or.inl (by simp))
      cases hnil
  | assign hfs =>
    refine iff_of_true (hgone.keep ?_ id) (by simp [KillsLast, hfs])
    simp [Over, hfs]
  | clear hfs =>
    refine iff_of_true (hgone.keep ?_ id) (by simp [KillsLast, hfs])
    simp [Over, hfs, MainProcess.back]
  | kill hfs =>
    refine iff_of_true (hgone.keep ?_ fun hnil => ?_) (by simp [KillsLast, hfs])
    · simp [Over, hfs]
    · simp [hnil]
  | set hfs =>
    refine iff_of_true (hgone.keep ?_ id) (by simp [KillsLast, hfs])
    simp [Over, hfs, MainProcess.back]
  | @pkill r status fs hfs =>
    have hiff : Gone { m with frames := .exit :: fs }
        { o with alive := o.alive.filter (· ≠ m.childPid) } ↔
          o.alive.filter (· ≠ m.childPid) = [] :=
      ⟨fun hnew => hnew (Or.inl List.mem_cons_self), fun hnil _ => hnil⟩
    rw [hiff]
    rcases (h.tracks (hrunning _ _ rfl) hfs).pkill_cases with ⟨rfl, halive⟩ | ⟨f, -, rfl, halive⟩
    · -- `child_pid` is the child that lives, unless the handler was about to assign it
      rw [halive]
      exact iff_of_true (filter_childrenAt_eq_nil.mpr (by simp)) (by simp [KillsLast, hfs])
    · rw [halive, filter_childrenAt_eq_nil]
      cases f with
      | assign pid => simp [KillsLast, hfs]
      | _ => simp [KillsLast, hfs]
  | exit hfs =>
    refine iff_of_true (hgone.keep (fun _ => ?_) id) (by simp [KillsLast, hfs])
    exact Or.inl (hfs ▸ List.mem_cons_self)

/-- Outside `stop_resume` `is_stopped` agrees with the children, unless `pkill` has killed the
one that was not stopped. -/
theorem agrees_iff (h : Watched m o) :
    Agrees m o ↔ (m.running = true → m.frames = [.exit] → o.alive = [] → m.isStopped = true) := by
  constructor
  · intro hagrees hrun hfs hnone
    have hpc := ((h.follows hrun).of_frames hfs).1.1
    exact (hagrees ⟨hrun, by simp [hfs, Frame.isPkill]⟩ hpc).mpr hnone
  · rintro hkilled ⟨hrun, hall⟩ hfork
    by_cases hassign : m.pc = .assign
    · obtain ⟨-, hstopped, halive⟩ := (h.follows hrun).assign hassign
      simp [hstopped, halive]
    · have htracks := ((h.follows hrun).later hfork hassign).2
      have hkilled := hkilled hrun
      generalize m.frames = fs, o.alive = alive at *
      cases htracks with
      | idle ho => cases m.isStopped <;> simp [childrenAt]
      | stop hf ho => simp [hf] at hall
      | killed => simp [hkilled rfl rfl]
      | stopKilled hf => rcases hf with rfl | rfl <;> cases hall
      | pkillStop hf => simp [hf] at hall
      | exitStop hf => simp [hf] at hall

/-- The number of the children is never in question. -/
theorem meant_iff (h : Watched m o) : Meant m o ↔ Agrees m o ∧ (o.exited = true → o.alive = []) :=
  ⟨fun hm => ⟨hm.agrees, hm.clean⟩,
    fun hm => ⟨fun _ => h.single, hm.1, hm.2⟩⟩

/-- **When one step keeps what the controller is for.** -/
theorem meant_move (h : Watched m o) (hmeant : Meant m o)
    (hrunning : ∀ r status, e = .main r status → m.running = true) (hmove : Move m o e m' o') :
    Meant m' o' ↔ LeavesStopped e m := by
  have h' : Watched m' o' := h.move hrunning hmove
  rw [meant_iff h', agrees_iff h']
  have hexited : ∀ r status, e = .main r status → ¬o.exited = true :=
    fun r status he => h.not_exited (hrunning r status he)
  cases hmove with
  | other he =>
    exact iff_of_true ⟨(agrees_iff h).mp hmeant.agrees, hmeant.clean⟩ (leavesStopped_of_ne he)
  | tstp hall hpc => exact iff_of_true ⟨by simp, hmeant.clean⟩ trivial
  | int hall hpc => exact iff_of_true ⟨by simp, hmeant.clean⟩ trivial
  | default => exact iff_of_true ⟨by simp, hmeant.clean⟩ trivial
  | firstFork hfs hpc hr =>
    exact iff_of_true ⟨by simp [hfs], fun hexit => absurd hexit (hexited _ _ rfl)⟩
      (by simp [LeavesStopped, hfs])
  | firstAssign hfs hpc =>
    exact iff_of_true ⟨by simp [hfs], hmeant.clean⟩ (by simp [LeavesStopped, hfs])
  | body hfs hpc hpc' =>
    exact iff_of_true ⟨by simp [hfs], hmeant.clean⟩ (by simp [LeavesStopped, hfs])
  | test hfs =>
    refine iff_of_true ⟨?_, hmeant.clean⟩ (by simp [LeavesStopped, hfs])
    cases hb : m.isStopped <;> simp
  | fork hfs hr =>
    exact iff_of_true ⟨by simp, fun hexit => absurd hexit (hexited _ _ rfl)⟩
      (by simp [LeavesStopped, hfs])
  | assign hfs => exact iff_of_true ⟨by simp, hmeant.clean⟩ (by simp [LeavesStopped, hfs])
  | clear hfs =>
    -- the child that has been stored is alive
    have halive := ((h.tracks (hrunning _ _ rfl) hfs).alive_eq rfl (by simp)).2
    refine iff_of_true ⟨fun _ _ hnone => ?_, hmeant.clean⟩ (by simp [LeavesStopped, hfs])
    rw [halive] at hnone
    cases hnone
  | kill hfs =>
    refine iff_of_true ⟨by simp, fun hexit => ?_⟩ (by simp [LeavesStopped, hfs])
    exact absurd hexit (hexited _ _ rfl)
  | set hfs =>
    exact iff_of_true ⟨fun _ _ _ => rfl, hmeant.clean⟩ (by simp [LeavesStopped, hfs])
  | @pkill r status fs hfs =>
    have hrun : m.running = true := hrunning _ _ rfl
    have hclean : o.exited = true → o.alive.filter (· ≠ m.childPid) = [] :=
      fun hexit => absurd hexit (hexited _ _ rfl)
    rcases (h.tracks hrun hfs).pkill_cases with ⟨rfl, halive⟩ | ⟨f, -, rfl, -⟩
    · have hnone : o.alive.filter (· ≠ m.childPid) = [] :=
        halive ▸ filter_childrenAt_eq_nil.mpr (by simp)
      have hiff : LeavesStopped (.main r status) m ↔ m.isStopped = true := by
        simp [LeavesStopped, hfs]
      rw [hiff]
      exact ⟨fun hnew => hnew.1 hrun rfl hnone, fun hstopped => ⟨fun _ _ _ => hstopped, hclean⟩⟩
    · refine iff_of_true ⟨by simp, hclean⟩ (by simp [LeavesStopped, hfs])
  | exit hfs =>
    have hrun : m.running = true := hrunning _ _ rfl
    have hleft : ((false = true → ([] : List Frame) = [.exit] → o.alive = [] → m.isStopped = true) ∧
        (true = true → o.alive = [])) ↔ o.alive = [] := by simp
    refine hleft.trans ?_
    rcases (h.tracks hrun hfs).exit_cases with rfl | ⟨f, -, rfl, halive⟩
    · -- `is_stopped` agrees with the children, or the step before has broken it
      have hpc := ((h.follows hrun).of_frames hfs).1.1
      simp only [LeavesStopped, hfs]
      exact (hmeant.agrees ⟨hrun, by simp [hfs, Frame.isPkill]⟩ hpc).symm
    · rw [halive, filter_childrenAt_eq_nil]
      cases f with
      | assign pid => simp [LeavesStopped, hfs]
      | _ => simp [LeavesStopped, hfs]

end Left

/-! ### Runs -/

/-- What holds in every state: no copy is in `pkill`, and the invariant. -/
structure Sound (w : State × Record) : Prop where
  copies : ∀ c ∈ w.1.copies, c.pc ≠ .kill
  watched : Watched w.1.main w.2

theorem sound_start (cstat : ℤ) : Sound (start cstat) := ⟨nofun, watched_start cstat⟩

theorem running_of_step {e : Event} {w w' : State × Record} (h : controller.step e w = some w') :
    ∀ r status, e = .main r status → w.1.main.running = true := by
  rintro r status rfl
  obtain ⟨-, h, -⟩ := Machine.watch_step_eq_some.mp h
  simp only [machine, Option.ite_none_right_eq_some] at h
  exact h.1

/-- A handler makes a copy before its assignment, if any. -/
theorem copies_handlerStep {s s' : State} {r : ℤ} {frame : Frame} {frames : List Frame} {c : Copy}
    (h : handlerStep r frame frames s = some s') (hc : c ∈ s'.copies) :
    c ∈ s.copies ∨ c.pc = .assign := by
  cases frame with
  | fork =>
    simp only [handlerStep] at h
    split at h
    · obtain rfl := Option.some.inj h
      exact Or.inl hc
    · simp only [Option.ite_none_right_eq_some, Option.some.injEq] at h
      obtain ⟨-, rfl⟩ := h
      rcases List.mem_cons.mp hc with rfl | hc
      · exact Or.inr rfl
      · exact Or.inl hc
  | _ =>
    obtain rfl := Option.some.inj h
    exact Or.inl hc

/-- A copy that is not in `pkill` goes on to its `exec`, if it does not end. -/
theorem copies_copyStep {s : State} {execs : Bool} {c c' : Copy} (hpc : c.pc ≠ .kill)
    (hc' : c' ∈ (copyStep execs c s).copies) : c' ∈ s.copies ∨ c'.pc = .exec := by
  obtain ⟨pid, childPid, pc, blocked⟩ := c
  cases pc with
  | assign =>
    rcases List.mem_cons.mp hc' with rfl | hc'
    · exact Or.inr rfl
    · exact Or.inl (List.mem_filter.mp hc').1
  | exec =>
    cases execs with
    | true => exact Or.inl (List.mem_filter.mp hc').1
    | false => exact Or.inl (List.mem_filter.mp hc').1
  | kill => exact absurd rfl hpc
  | exit => exact Or.inl (List.mem_filter.mp hc').1

/-- No copy comes into `pkill`, to which no SIGINT is delivered. -/
theorem copies_step {e : Event} {w w' : State × Record} (hw : ∀ c ∈ w.1.copies, c.pc ≠ .kill)
    (h : controller.step e w = some w') : ∀ c ∈ w'.1.copies, c.pc ≠ .kill := by
  obtain ⟨hallowed, h, -⟩ := Machine.watch_step_eq_some.mp h
  cases e with
  | main r status =>
    simp only [machine, Option.ite_none_right_eq_some] at h
    obtain ⟨-, h⟩ := h
    cases hframes : w.1.main.frames with
    | nil =>
      rw [hframes] at h
      rw [(bodyStep_same h).2]
      exact hw
    | cons frame frames =>
      rw [hframes] at h
      intro c hc
      rcases copies_handlerStep h hc with hc | hpc
      · exact hw c hc
      · simp [hpc]
  | copy pid execs =>
    obtain ⟨c, hc, hnext⟩ := Option.map_eq_some_iff.mp h
    intro c' hc'
    rw [← hnext] at hc'
    rcases copies_copyStep (hw c (List.mem_of_find?_eq_some hc)) hc' with hc' | hpc
    · exact hw c' hc'
    · simp [hpc]
  | tstp =>
    simp only [machine, Option.ite_none_right_eq_some, Option.some.injEq] at h
    rw [← h.2]
    exact hw
  | int =>
    simp only [machine, Option.ite_none_right_eq_some] at h
    obtain ⟨-, h⟩ := h
    split at h <;> (rw [← Option.some.inj h]; exact hw)
  | intCopy pid => cases hallowed
  | ends pid =>
    simp only [machine, Option.ite_none_right_eq_some, Option.some.injEq] at h
    rw [← h.2]
    exact fun c hc => hw c (List.mem_filter.mp hc).1

/-- **What one step keeps.** -/
theorem Sound.step {e : Event} {w w' : State × Record} (hw : Sound w)
    (h : controller.step e w = some w') : Sound w' :=
  ⟨copies_step hw.copies h, hw.watched.move (running_of_step h) (move_of_step hw.copies h)⟩

/-- No `kill` is one of a process group. -/
theorem killTarget_pos {e : Event} {w w' : State × Record} (hw : Sound w)
    (h : controller.step e w = some w') {t : ℤ} (ht : killTarget e w.1 = some t) : 0 < t := by
  cases e with
  | main r status =>
    have hfollows := hw.watched.follows (running_of_step h r status rfl)
    rw [killTarget] at ht
    split at ht
    · next hframes => exact Option.some.inj ht ▸ (hfollows.of_frames hframes).2.1
    · next hframes => exact Option.some.inj ht ▸ (hfollows.of_frames hframes).2.1
    · cases ht
  | copy pid execs =>
    obtain ⟨c, hc, ht⟩ := Option.bind_eq_some_iff.mp ht
    simp only [Option.ite_none_right_eq_some] at ht
    exact absurd ht.1 (hw.copies c (List.mem_of_find?_eq_some hc))
  | _ => cases ht

/-- What the observer sees are states of the controller. -/
theorem reach_machine (cstat : ℤ) (es : List Event) :
    machine.Reach (StopResume.start cstat) (controller.run es (start cstat)).1 :=
  Machine.reach_of_watch (Machine.reach_run es (start cstat))

/-- **When a child is left.**  In every run at most one child is alive, and outside
`stop_resume` none exactly while `is_stopped`, before `pkill` has called `kill`.  None is alive
from that `kill` on if and only if every step meets the one condition, and the controller does
what it is for, within `pkill` too, if and only if every step meets the other. -/
theorem survivors_iff (cstat : ℤ) (es : List Event) :
    (∀ n, (controller.run (es.take n) (start cstat)).2.alive.length ≤ 1 ∧
      (¬Over (controller.run (es.take n) (start cstat)).1.main
          (controller.run (es.take n) (start cstat)).2 →
        Agrees (controller.run (es.take n) (start cstat)).1.main
          (controller.run (es.take n) (start cstat)).2)) ∧
    ((∀ n, Gone (controller.run (es.take n) (start cstat)).1.main
        (controller.run (es.take n) (start cstat)).2) ↔
      controller.Meets (fun e w => KillsLast e w.1.main) es (start cstat)) ∧
    ((∀ n, Meant (controller.run (es.take n) (start cstat)).1.main
        (controller.run (es.take n) (start cstat)).2) ↔
      controller.Meets (fun e w => LeavesStopped e w.1.main) es (start cstat)) := by
  have hstep : ∀ e w w', Sound w → controller.step e w = some w' → Sound w' :=
    fun e w w' hw h => hw.step h
  have hstart := sound_start cstat
  refine ⟨fun n => ?_, ?_, ?_⟩
  · have hw : Sound (controller.run (es.take n) (start cstat)) :=
      Machine.run_invariant hstep (es.take n) hstart
    refine ⟨hw.watched.single, fun hover => (agrees_iff hw.watched).mpr fun _ hframes => ?_⟩
    exact absurd (Or.inl (hframes ▸ List.mem_singleton_self _)) hover
  · have hkeep : ∀ e w w', Sound w → Gone w.1.main w.2 → controller.step e w = some w' →
        (Gone w'.1.main w'.2 ↔ KillsLast e w.1.main) := by
      intro e w w' hw hgone h
      exact gone_move hw.watched hgone (running_of_step h) (move_of_step hw.copies h)
    exact @Machine.forall_run_take_iff_meets _ _ controller _ Sound (fun w => Gone w.1.main w.2)
      hstep hkeep es _ hstart fun _ => rfl
  · have hkeep : ∀ e w w', Sound w → Meant w.1.main w.2 → controller.step e w = some w' →
        (Meant w'.1.main w'.2 ↔ LeavesStopped e w.1.main) := by
      intro e w w' hw hmeant h
      exact meant_move hw.watched hmeant (running_of_step h) (move_of_step hw.copies h)
    exact @Machine.forall_run_take_iff_meets _ _ controller _ Sound (fun w => Meant w.1.main w.2)
      hstep hkeep es _ hstart ⟨fun _ => Nat.zero_le 1, fun _ hpc => absurd rfl hpc, nofun⟩

/-- SIGTSTP is delivered twice, and SIGINT when the second `fork` has returned. -/
def betweenForkAndAssign : List Event :=
  [.main 100 0, .main 0 0, .main 0 0, .main 0 0, .main 0 0, .tstp, .main 0 0, .main 0 0,
    .main 0 0, .tstp, .main 0 0, .main 200 0, .int, .main 0 0, .main 0 0]

/-- SIGTSTP is delivered, then SIGINT, and SIGTSTP again behind the `kill` of `pkill`. -/
def behindKill : List Event :=
  [.main 100 0, .main 0 0, .main 0 0, .main 0 0, .main 0 0, .tstp, .main 0 0, .main 0 0,
    .main 0 0, .int, .main 0 0, .tstp, .main 0 0, .main 200 0, .main 0 0, .main 0 0, .main 0 0]

/-- `pkill` exits, and a child is left alive. -/
theorem child_left :
    ¬∀ (cstat : ℤ) (es : List Event), (controller.run es (start cstat)).2.exited = true →
      (controller.run es (start cstat)).2.alive = [] := by
  intro h
  exact absurd (h 0 betweenForkAndAssign (by decide)) (by decide)

example : (controller.run behindKill (start 0)).2 = ⟨[200], true⟩ := by decide

end Survivors
end Signals
end OpSys
