import OpSys.Search.Account

/-!
# The records of a search

The output of all processes together has the record of each wanted file exactly once as
long as no process forks while it holds a part of a record: what is held at a fork is
flushed by the child and by the parent.  A terminal empties `stdout` at each newline, so
nothing is held there.  A full buffer always keeps what was written last: there the records
come out right only if no directory lists a wanted file before a subdirectory.

## Main definitions

* `Unbroken` — an output with the records one after the other, each in one piece.
* `Family.InOrder` — the records up to now are so.
* `Listing.dirsFirst` — no directory lists a wanted file before a subdirectory.

## Main results

* `exactlyOnce_iff_forksClean` — each record comes once if and only if the forks are clean.
* `unbroken_of_forksClean` — clean forks leave each record in one piece.
* `records_once_iff` — when each record is printed exactly once.

## References

`lab3_processes/search_dir_mult_ps/search_proc.c`.
-/

namespace OpSys
namespace Search

open Stdio
open Buffered (Discipline lineBuffered fullyBuffered EmptiesAt Retains)

section Step

variable {r : Run} {d : Discipline UInt8} {s s' : Family} {p : Process}

/-! ### Each record once -/

/-- **Each record is printed exactly once** if and only if no process forks while it holds a
part of one. -/
theorem exactlyOnce_iff_forksClean (hopens : ∀ place, r.opens place = true) {entries : Listing}
    {final : Family} (hends : Ends r d entries final) :
    ExactlyOnce r entries final.output ↔ ForksClean r d entries := by
  obtain ⟨hreach, hended⟩ := hends
  have hstart := fine_start (r := r) hopens entries
  have hfinal := account_of_ended (r := r) (fine_of_reach hopens hreach hstart) hended
  rw [exactlyOnce_iff r hopens]
  constructor
  · rintro honce s hs hfork ⟨o, ho, hsource⟩
    obtain ⟨place, hplace⟩ := Option.ne_none_iff_exists'.mp hsource
    obtain ⟨s', hstep⟩ : ∃ s', step r d s = some s' := ⟨_, if_pos hfork.1⟩
    obtain ⟨before, after, hbefore, hafter⟩ := account_forked hopens hstep hfork
    -- the search goes on from the fork to the same end
    have hreach' : (search r d).Reach s' final := by
      apply Machine.Reach.of_stuck (hs.tail ⟨(), hstep⟩) hreach
      intro _
      exact if_neg hended
    have hbefore_le : (about place ((start r entries).account r)).length ≤
        (about place (marked (s.account r))).length := by
      rw [← about_marked]
      exact ((marked_account_sublist hopens hs hstart).filter _).length_le
    have hafter_le : (about place (marked (s'.account r))).length ≤
        (about place final.output).length := by
      rw [← hfinal, ← about_marked place (final.account r)]
      have hfine' := fine_of_reach hopens (.single ⟨(), hstep⟩) (fine_of_reach hopens hs hstart)
      exact ((marked_account_sublist hopens hreach' hfine').filter _).length_le
    have hpos : 0 < (about place (marked s.current.held)).length := by
      rw [about_marked]
      exact List.length_pos_of_mem (List.mem_filter.mpr ⟨ho, decide_eq_true hplace⟩)
    have hcount := congrArg List.length (honce place)
    rw [List.length_map, List.length_map] at hcount
    rw [hbefore, about_append, List.length_append] at hbefore_le
    rw [hafter, about_append, about_append, List.length_append, List.length_append] at hafter_le
    omega
  · intro hclean place
    rw [← about_marked, ← about_marked place ((start r entries).account r),
      ← marked_account_eq hopens hclean hreach, hfinal]

/-! ### Records in one piece -/

/-- The output is the records of `files`, each in one piece, with octets of no record before,
between and after them. -/
inductive Unbroken (r : Run) : List FileEntry → List Octet → Prop
  | nil : Unbroken r [] []
  | other {files output o} (h : Unbroken r files output) (hnone : o.source = none) :
    Unbroken r files (output ++ [o])
  | record {files output} (h : Unbroken r files output) (f : FileEntry) :
    Unbroken r (files ++ [f]) (output ++ octets (some f.place) (r.record f))

theorem Unbroken.append_others {files : List FileEntry} {output l : List Octet}
    (h : Unbroken r files output) (hl : ∀ o ∈ l, o.source = none) :
    Unbroken r files (output ++ l) := by
  induction l generalizing output with
  | nil => rwa [List.append_nil]
  | cons o l ih =>
    rw [List.append_cons]
    apply ih (.other h (hl o List.mem_cons_self))
    intro o' ho'
    exact hl o' (List.mem_cons_of_mem _ ho')

theorem source_eq_none_of_not_holdsRecord (h : ¬p.HoldsRecord) :
    ∀ o ∈ p.held, o.source = none := by
  intro o ho
  by_contra hsource
  exact h ⟨o, ho, hsource⟩

theorem source_of_mem_octets {source : Option Place} {text : List UInt8} {o : Octet}
    (h : o ∈ octets source text) : o.source = source := by
  obtain ⟨b, -, rfl⟩ := List.mem_map.mp h
  rfl

/-- The files whose records a process still has to print. -/
def Process.due (r : Run) (p : Process) : List FileEntry :=
  match p.result with
  | none => r.wanted p.top.place p.top.rest
  | some _ => []

theorem due_reading (h : p.result = none) : p.due r = r.wanted p.top.place p.top.rest := by
  rw [Process.due, h]

theorem due_returning {result : ℤ} (h : p.result = some result) : p.due r = [] := by
  rw [Process.due, h]

theorem due_readOn (h : p.result = none) (rest : Listing) :
    (p.readOn rest).due r = r.wanted p.top.place rest :=
  due_reading (p := p.readOn rest) h

/-- A process in its loop has the ids and the path of its directory. -/
def Process.Placed (r : Run) (p : Process) : Prop :=
  p.result = none →
    p.ppid = r.ppid p.top.place ∧ p.pid = r.pid p.top.place ∧ p.top.dirname = r.path p.top.place

/-- A process in its place prints the record of the file that it has read. -/
theorem Process.Placed.record_eq (hp : p.Placed r) (h : p.result = none) (name : List UInt8)
    (kind : Kind) (stat : Stat) :
    p.record r name stat = r.record ⟨p.top.place ++ [name], kind, stat⟩ := by
  obtain ⟨hppid, hpid, hdirname⟩ := hp h
  rw [Process.record, Run.record, List.dropLast_concat, path_concat, hppid, hpid, hdirname]

/-- The child for a subdirectory is in its place. -/
theorem Process.Placed.call (hp : p.Placed r) (h : p.result = none) (name : List UInt8)
    (entries : Listing) : ((p.spawn r d name).2.call r name entries).Placed r := by
  obtain ⟨-, hpid, hdirname⟩ := hp h
  intro _
  refine ⟨?_, rfl, ?_⟩
  · rw [ppid_call, ppid_spawn, hpid]
    exact (ppid_concat r p.top.place name).symm
  · rw [dirname_call, top_spawn, hdirname]
    exact (path_concat r p.top.place name).symm

/-- The records up to now are in one piece: what the running process holds follows on the
output, and no waiting process holds a part of a record. -/
structure Family.InOrder (r : Run) (entries : Listing) (s : Family) : Prop where
  unbroken : ∃ files, Unbroken r files (s.output ++ s.current.held) ∧
    files ++ (s.current.due r ++ s.waiting.flatMap (Process.due r)) = r.wanted [] entries
  current_placed : s.current.Placed r
  waiting_placed : ∀ p ∈ s.waiting, p.Placed r
  waiting_clean : ∀ p ∈ s.waiting, ¬p.HoldsRecord

theorem inOrder_start (hopens : ∀ place, r.opens place = true) (entries : Listing) :
    (start r entries).InOrder r entries where
  unbroken := by
    have hdue : (start r entries).current.due r = r.wanted [] entries := by
      apply due_reading (p := (start r entries).current)
      exact if_pos (hopens [])
    refine ⟨[], .nil, ?_⟩
    rw [hdue]
    exact List.append_nil _
  current_placed _ := ⟨rfl, rfl, rfl⟩
  waiting_placed p hp := absurd hp List.not_mem_nil
  waiting_clean p hp := absurd hp List.not_mem_nil

/-- Where the ids, the place and what is held stay as they are, a process goes on with the
files that it has to print. -/
theorem Family.InOrder.goOn {entries : Listing} (h : s.InOrder r entries) {p : Process}
    (hheld : p.held = s.current.held) (hdue : p.due r = s.current.due r) (hplaced : p.Placed r) :
    Family.InOrder r entries { s with current := p } where
  unbroken := by
    obtain ⟨files, hoctets, hfiles⟩ := h.unbroken
    refine ⟨files, ?_, ?_⟩
    · rwa [hheld]
    · rwa [hdue]
  current_placed := hplaced
  waiting_placed := h.waiting_placed
  waiting_clean := h.waiting_clean

/-- A process prints a whole record after what it holds. -/
theorem Family.InOrder.report {entries : Listing} (h : s.InOrder r entries) {name : List UInt8}
    {kind : Kind} {stat : Stat} {rest : Listing} (hresult : s.current.result = none)
    (hrest : s.current.top.rest = .file name kind stat rest)
    (hwanted : Wanted r.zone r.toRequest kind stat) :
    Family.InOrder r entries { s with
      current := (s.current.report r d name stat rest).2
      output := s.output ++ (s.current.report r d name stat rest).1 } := by
  obtain ⟨files, hoctets, hfiles⟩ := h.unbroken
  have hprint : (s.current.report r d name stat rest).1 ++
      (s.current.report r d name stat rest).2.held = s.current.held ++
        octets (some (s.current.top.place ++ [name])) (s.current.record r name stat) :=
    print_append_held _ _
  have hdue : (s.current.report r d name stat rest).2.due r = r.wanted s.current.top.place rest :=
    due_reading (p := (s.current.report r d name stat rest).2) hresult
  refine ⟨⟨files ++ [⟨s.current.top.place ++ [name], kind, stat⟩], ?_, ?_⟩,
    h.current_placed, h.waiting_placed, h.waiting_clean⟩
  · rw [List.append_assoc, hprint, ← List.append_assoc,
      h.current_placed.record_eq hresult name kind stat]
    exact hoctets.record _
  · rw [due_reading hresult, hrest, wanted_file_of_wanted hwanted] at hfiles
    rw [hdue, ← hfiles]
    simp

/-- A child goes on with its own directory, and its line is of no record. -/
theorem Family.InOrder.fork (hopens : ∀ place, r.opens place = true) {entries : Listing}
    (h : s.InOrder r entries) {name : List UInt8} {entries' rest : Listing}
    (hresult : s.current.result = none) (hrest : s.current.top.rest = .dir name entries' rest)
    (hdots : ¬isDots name) (hnone : ¬s.current.HoldsRecord) :
    Family.InOrder r entries { s with
      current := ((s.current.readOn rest).spawn r d name).2.call r name entries'
      waiting := s.current.readOn rest :: s.waiting
      output := s.output ++ ((s.current.readOn rest).spawn r d name).1 } := by
  obtain ⟨files, hoctets, hfiles⟩ := h.unbroken
  have hprint : ((s.current.readOn rest).spawn r d name).1 ++
      ((s.current.readOn rest).spawn r d name).2.held = s.current.held ++
        octets none (childLine name s.current.pid (r.pid (s.current.top.place ++ [name]))) :=
    print_append_held _ _
  have hdue : (((s.current.readOn rest).spawn r d name).2.call r name entries').due r =
      r.wanted (s.current.top.place ++ [name]) entries' := by
    apply due_reading (p := ((s.current.readOn rest).spawn r d name).2.call r name entries')
    exact if_pos (hopens _)
  refine ⟨⟨files, ?_, ?_⟩, ?_, ?_, ?_⟩
  · rw [held_call, List.append_assoc, hprint, ← List.append_assoc]
    apply hoctets.append_others
    intro o ho
    exact source_of_mem_octets ho
  · rw [due_reading hresult, hrest, wanted_dir hdots, List.append_assoc] at hfiles
    rw [hdue, List.flatMap_cons, due_readOn hresult]
    exact hfiles
  · exact Process.Placed.call (p := s.current.readOn rest) h.current_placed hresult _ _
  · intro p hp
    rcases List.mem_cons.mp hp with rfl | hp
    · exact h.current_placed
    · exact h.waiting_placed p hp
  · intro p hp
    rcases List.mem_cons.mp hp with rfl | hp
    · exact hnone
    · exact h.waiting_clean p hp

/-- A child has flushed what it held, and its parent holds nothing of a record. -/
theorem Family.InOrder.resume {entries : Listing} (h : s.InOrder r entries) {result : ℤ}
    {parent : Process} {waiting : List Process} (hresult : s.current.result = some result)
    (hwaiting : s.waiting = parent :: waiting) :
    Family.InOrder r entries { s with
      current := parent
      waiting := waiting
      output := s.output ++ s.current.held } := by
  obtain ⟨files, hoctets, hfiles⟩ := h.unbroken
  have hparent : parent ∈ s.waiting := hwaiting ▸ List.mem_cons_self
  have hothers : ∀ p ∈ waiting, p ∈ s.waiting := by
    intro p hp
    rw [hwaiting]
    exact List.mem_cons_of_mem _ hp
  refine ⟨⟨files, ?_, ?_⟩, h.waiting_placed parent hparent, ?_, ?_⟩
  · apply hoctets.append_others
    exact source_eq_none_of_not_holdsRecord (h.waiting_clean parent hparent)
  · rw [due_returning hresult, hwaiting, List.flatMap_cons, List.nil_append] at hfiles
    exact hfiles
  · intro p hp
    exact h.waiting_placed p (hothers p hp)
  · intro p hp
    exact h.waiting_clean p (hothers p hp)

/-- The first process has flushed what it held. -/
theorem Family.InOrder.flush {entries : Listing} (h : s.InOrder r entries) {result : ℤ}
    (hresult : s.current.result = some result) (hwaiting : s.waiting = []) :
    Family.InOrder r entries { s with
      current := s.current.flush
      waiting := []
      output := s.output ++ s.current.held
      status := some result } := by
  obtain ⟨files, hoctets, hfiles⟩ := h.unbroken
  refine ⟨⟨files, ?_, ?_⟩, ?_, ?_, ?_⟩
  · rwa [held_flush, List.append_nil]
  · rw [due_returning (p := s.current.flush) hresult]
    rwa [due_returning hresult, hwaiting] at hfiles
  · intro hnone
    exact absurd (hresult.symm.trans hnone) (Option.some_ne_none _)
  · intro p hp
    exact absurd hp List.not_mem_nil
  · intro p hp
    exact absurd hp List.not_mem_nil

/-- **A step keeps the records in one piece**, if nothing of a record is held at a fork. -/
theorem Moves.inOrder (hopens : ∀ place, r.opens place = true) {entries : Listing}
    (h : Moves r d s s') (hs : s.Fine) (hstatus : s.status = none)
    (hclean : AtFork s → ¬s.current.HoldsRecord) (hin : s.InOrder r entries) :
    s'.InOrder r entries := by
  cases h with
  | listed hresult hrest =>
    apply hin.goOn (held_finish s.current 0)
    · rw [due_reading hresult, hrest, due_returning (p := s.current.finish 0) rfl, wanted_done]
    · intro hnone
      cases hnone
  | @unwanted name kind stat rest hresult hrest hnot =>
    apply hin.goOn (held_readOn s.current rest)
    · rw [due_readOn hresult, due_reading hresult, hrest, wanted_file_of_not hnot]
    · exact hin.current_placed
  | printed hresult hrest hwanted => exact hin.report hresult hrest hwanted
  | @dots name entries' rest hresult hrest hdots =>
    apply hin.goOn (held_readOn s.current rest)
    · rw [due_readOn hresult, due_reading hresult, hrest, wanted_dots hdots]
    · exact hin.current_placed
  | @forked name entries' rest hresult hrest hdots =>
    apply hin.fork hopens hresult hrest hdots
    exact hclean ⟨hstatus, hresult, name, entries', rest, hrest, hdots⟩
  | @returned result frame frames hresult hbelow =>
    apply hin.goOn (held_leave s.current frame frames)
    · rw [due_returning hresult, due_returning (p := s.current.leave frame frames) rfl]
    · intro hnone
      cases hnone
  | @resumed result parent waiting hresult hbelow hwaiting =>
    rw [hs.resumes hresult]
    exact hin.resume hresult hwaiting
  | finished hresult hbelow hwaiting => exact hin.flush hresult hwaiting

/-- **Clean forks leave each record in one piece**, in the order of the tree. -/
theorem unbroken_of_forksClean (hopens : ∀ place, r.opens place = true) {entries : Listing}
    (hclean : ForksClean r d entries) {final : Family} (hends : Ends r d entries final) :
    Unbroken r (r.wanted [] entries) final.output := by
  obtain ⟨hreach, hended⟩ := hends
  have hin : ∀ s, (search r d).Reach (start r entries) s → s.InOrder r entries := by
    intro s hs
    induction hs with
    | refl => exact inOrder_start hopens entries
    | @tail t t' hreach hlast ih =>
      obtain ⟨_, hstep⟩ := hlast
      obtain ⟨hstatus, hmoves⟩ := step_cases hstep
      exact hmoves.inOrder hopens (fine_of_reach hopens hreach (fine_start hopens entries))
        hstatus (hclean t hreach) ih
  obtain ⟨files, hoctets, hfiles⟩ := (hin final hreach).unbroken
  -- at the end nothing is held and nothing is left to print
  obtain ⟨hheld, hresult, hwaiting⟩ :=
    (fine_of_reach hopens hreach (fine_start hopens entries)).settled hended
  obtain ⟨result, hresult⟩ := Option.ne_none_iff_exists'.mp hresult
  rw [hheld, List.append_nil] at hoctets
  rw [due_returning hresult, hwaiting] at hfiles
  rw [← hfiles]
  simpa using hoctets

/-! ### A line buffer -/

/-- Nothing is held by any process. -/
def Family.Flushed (s : Family) : Prop :=
  s.current.held = [] ∧ ∀ p ∈ s.waiting, p.held = []

theorem exists_record_eq (r : Run) (p : Process) (name : List UInt8) (stat : Stat) :
    ∃ init, p.record r name stat = init ++ [newline] :=
  ⟨_, (List.append_assoc _ _ _).symm⟩

theorem held_report (hd : EmptiesAt (· == newline) d) (p : Process) (name : List UInt8)
    (stat : Stat) (rest : Listing) : (p.report r d name stat rest).2.held = [] := by
  obtain ⟨init, hinit⟩ := exists_record_eq r p name stat
  rw [Process.report, Process.print, hinit, octets, List.map_append]
  exact (hd.comap Octet.byte).held_write _ _ (beq_self_eq_true newline)

theorem held_spawn (hd : EmptiesAt (· == newline) d) (p : Process) (name : List UInt8) :
    (p.spawn r d name).2.held = [] := by
  rw [Process.spawn, Process.print, childLine, octets, List.map_append]
  exact (hd.comap Octet.byte).held_write _ _ (beq_self_eq_true newline)

theorem Moves.flushed (hd : EmptiesAt (· == newline) d) (h : Moves r d s s') (hs : s.Flushed) :
    s'.Flushed := by
  cases h with
  | listed hresult hrest => exact ⟨hs.1, hs.2⟩
  | unwanted hresult hrest hnot => exact ⟨hs.1, hs.2⟩
  | printed hresult hrest hwanted => exact ⟨held_report hd _ _ _ _, hs.2⟩
  | dots hresult hrest hdots => exact ⟨hs.1, hs.2⟩
  | forked hresult hrest hdots =>
    refine ⟨(held_call _ _ _).trans (held_spawn hd _ _), fun p hp => ?_⟩
    rcases List.mem_cons.mp hp with rfl | hp
    · exact hs.1
    · exact hs.2 p hp
  | returned hresult hbelow => exact ⟨hs.1, hs.2⟩
  | @resumed result parent waiting hresult hbelow hwaiting =>
    have hparent : parent.held = [] := hs.2 parent (hwaiting ▸ List.mem_cons_self)
    refine ⟨?_, fun p hp => hs.2 p (hwaiting ▸ List.mem_cons_of_mem _ hp)⟩
    split
    · exact hparent
    · exact hparent
  | finished hresult hbelow hwaiting => exact ⟨rfl, fun p hp => absurd hp List.not_mem_nil⟩

/-- **A stream that empties at each newline** holds nothing when its process forks. -/
theorem forksClean_of_emptiesAt (hd : EmptiesAt (· == newline) d) (entries : Listing) :
    ForksClean r d entries := by
  rintro s hs _ ⟨o, ho, _⟩
  have hflushed : s.Flushed := by
    refine Machine.Reach.invariant ?_ hs ⟨rfl, fun p hp => absurd hp List.not_mem_nil⟩
    intro _ t t' ht hstep
    exact (step_cases hstep).2.flushed hd ht
  rw [hflushed.1] at ho
  exact absurd ho List.not_mem_nil

/-! ### A full buffer -/

/-- No subdirectory is listed any more. -/
def Listing.noDirs : Listing → Bool
  | .done => true
  | .file _ _ _ rest => rest.noDirs
  | .dir name _ rest => isDots name && rest.noDirs

/-- No directory of the tree lists a wanted file before a subdirectory. -/
def Listing.dirsFirst (r : Run) : Listing → Bool
  | .done => true
  | .file _ kind stat rest =>
    (!decide (Wanted r.zone r.toRequest kind stat) || rest.noDirs) && rest.dirsFirst r
  | .dir name entries rest => (isDots name || entries.dirsFirst r) && rest.dirsFirst r

/-- What is still listed has no wanted file before a subdirectory, and no subdirectory if a
record is held. -/
def Process.Tidy (r : Run) (p : Process) : Prop :=
  p.result = none → p.top.rest.dirsFirst r = true ∧ (p.HoldsRecord → p.top.rest.noDirs = true)

/-- All processes are tidy. -/
def Family.Tidy (r : Run) (s : Family) : Prop := s.current.Tidy r ∧ ∀ p ∈ s.waiting, p.Tidy r

theorem tidy_reading (h : p.result = none) :
    p.Tidy r ↔
      p.top.rest.dirsFirst r = true ∧ (p.HoldsRecord → p.top.rest.noDirs = true) := by
  rw [Process.Tidy, h]
  simp

theorem tidy_returning {result : ℤ} (h : p.result = some result) : p.Tidy r :=
  fun hnone => absurd (h.symm.trans hnone) (Option.some_ne_none result)

/-- The last octet of a record is held by a stream that retains it. -/
theorem holdsRecord_report (hd : Retains d) (p : Process) (name : List UInt8) (stat : Stat)
    (rest : Listing) : (p.report r d name stat rest).2.HoldsRecord := by
  obtain ⟨init, hinit⟩ := exists_record_eq r p name stat
  refine ⟨⟨newline, some (p.top.place ++ [name])⟩, ?_, Option.some_ne_none _⟩
  rw [Process.report, Process.print, hinit, octets, List.map_append]
  exact (hd.comap Octet.byte).mem_held_write _ _ _

/-- The line of a child is of no record. -/
theorem HoldsRecord.of_spawn {name : List UInt8} (h : (p.spawn r d name).2.HoldsRecord) :
    p.HoldsRecord := by
  obtain ⟨o, ho, hsource⟩ := h
  rcases Buffered.mem_held_write ho with hheld | hline
  · exact ⟨o, hheld, hsource⟩
  · obtain ⟨b, -, rfl⟩ := List.mem_map.mp hline
    exact absurd rfl hsource

theorem tidy_readOn {rest : Listing} (h : p.result = none) :
    (p.readOn rest).Tidy r ↔ rest.dirsFirst r = true ∧ (p.HoldsRecord → rest.noDirs = true) :=
  tidy_reading (p := p.readOn rest) h

theorem tidy_unwanted {name : List UInt8} {kind : Kind} {stat : Stat} {rest : Listing}
    (h : p.result = none) (hrest : p.top.rest = .file name kind stat rest)
    (hnot : ¬Wanted r.zone r.toRequest kind stat) : (p.readOn rest).Tidy r ↔ p.Tidy r := by
  rw [tidy_readOn h, tidy_reading h, hrest, Listing.dirsFirst, Listing.noDirs]
  simp [hnot]

theorem tidy_dots {name : List UInt8} {entries rest : Listing} (h : p.result = none)
    (hrest : p.top.rest = .dir name entries rest) (hdots : isDots name) :
    (p.readOn rest).Tidy r ↔ p.Tidy r := by
  rw [tidy_readOn h, tidy_reading h, hrest, Listing.dirsFirst, Listing.noDirs]
  simp [hdots]

theorem tidy_report (hd : Retains d) {name : List UInt8} {kind : Kind} {stat : Stat}
    {rest : Listing} (h : p.result = none) (hrest : p.top.rest = .file name kind stat rest)
    (hwanted : Wanted r.zone r.toRequest kind stat) :
    (p.report r d name stat rest).2.Tidy r ↔ p.Tidy r := by
  have hreading : (p.report r d name stat rest).2.result = none := h
  rw [tidy_reading hreading, rest_report, tidy_reading h, hrest, Listing.dirsFirst,
    Listing.noDirs]
  -- the record is held, so no subdirectory may follow it
  simp only [holdsRecord_report hd, hwanted, decide_true, Bool.not_true, Bool.false_or,
    Bool.and_eq_true, forall_const]
  tauto

/-- A fork is tidy if nothing of a record is held, and the child and its parent are. -/
theorem tidy_forked {name : List UInt8} {entries rest : Listing} (h : p.result = none)
    (hrest : p.top.rest = .dir name entries rest) (hdots : ¬isDots name) :
    p.Tidy r ↔ ¬p.HoldsRecord ∧ entries.dirsFirst r = true ∧ (p.readOn rest).Tidy r := by
  rw [tidy_readOn h, tidy_reading h, hrest, Listing.dirsFirst, Listing.noDirs]
  simp only [hdots, decide_false, Bool.false_or, Bool.false_and, Bool.and_eq_true,
    Bool.false_eq_true, imp_false]
  tauto

theorem tidy_child (hopens : ∀ place, r.opens place = true) (hclean : ¬p.HoldsRecord)
    (name : List UInt8) (entries : Listing) :
    ((p.spawn r d name).2.call r name entries).Tidy r ↔ entries.dirsFirst r = true := by
  have hchild : ((p.spawn r d name).2.call r name entries).Tidy r ↔
      entries.dirsFirst r = true ∧ ((p.spawn r d name).2.HoldsRecord → entries.noDirs = true) :=
    tidy_reading (p := (p.spawn r d name).2.call r name entries) (if_pos (hopens _))
  rw [hchild]
  exact and_iff_left fun hholds => absurd (HoldsRecord.of_spawn hholds) hclean

/-- As long as the forks are clean, a step keeps the processes tidy or untidy. -/
theorem Moves.tidy_iff (hopens : ∀ place, r.opens place = true) (hd : Retains d)
    (h : Moves r d s s') (hs : s.Fine) (hstatus : s.status = none)
    (hclean : AtFork s → ¬s.current.HoldsRecord) : s'.Tidy r ↔ s.Tidy r := by
  cases h with
  | listed hresult hrest =>
    have hbefore : s.current.Tidy r := by
      rw [tidy_reading hresult, hrest]
      exact ⟨rfl, fun _ => rfl⟩
    exact and_congr_left' (iff_of_true (tidy_returning (p := s.current.finish 0) rfl) hbefore)
  | unwanted hresult hrest hnot => exact and_congr_left' (tidy_unwanted hresult hrest hnot)
  | printed hresult hrest hwanted =>
    exact and_congr_left' (tidy_report hd hresult hrest hwanted)
  | dots hresult hrest hdots => exact and_congr_left' (tidy_dots hresult hrest hdots)
  | @forked name entries rest hresult hrest hdots =>
    have hnone : ¬s.current.HoldsRecord :=
      hclean ⟨hstatus, hresult, name, entries, rest, hrest, hdots⟩
    have hchild := tidy_child (d := d) (p := s.current.readOn rest) hopens hnone name entries
    rw [Family.Tidy, Family.Tidy, tidy_forked hresult hrest hdots]
    simp only [List.forall_mem_cons]
    rw [hchild]
    tauto
  | @returned result frame frames hresult hbelow =>
    exact and_congr_left' (iff_of_true (tidy_returning (p := s.current.leave frame frames) rfl)
      (tidy_returning hresult))
  | @resumed result parent waiting hresult hbelow hwaiting =>
    rw [Family.Tidy, Family.Tidy, hwaiting, hs.resumes hresult]
    simp only [List.forall_mem_cons]
    exact (and_iff_right (tidy_returning hresult)).symm
  | finished hresult hbelow hwaiting =>
    rw [Family.Tidy, Family.Tidy, hwaiting]
    exact and_congr_left' (iff_of_true (tidy_returning (p := s.current.flush) hresult)
      (tidy_returning hresult))

/-- Tidy processes fork cleanly. -/
theorem Family.Tidy.clean (h : s.Tidy r) (hfork : AtFork s) : ¬s.current.HoldsRecord := by
  obtain ⟨_, hresult, name, entries, rest, hrest, hdots⟩ := hfork
  exact ((tidy_forked hresult hrest hdots).mp h.1).1

theorem tidy_start_iff (hopens : ∀ place, r.opens place = true) (entries : Listing) :
    (start r entries).Tidy r ↔ entries.dirsFirst r = true := by
  have hcurrent : (start r entries).current.Tidy r ↔ entries.dirsFirst r = true ∧
      ((start r entries).current.HoldsRecord → entries.noDirs = true) :=
    tidy_reading (p := (start r entries).current) (if_pos (hopens []))
  have hnone : ¬(start r entries).current.HoldsRecord := by
    rintro ⟨o, ho, _⟩
    exact absurd ho List.not_mem_nil
  rw [Family.Tidy, hcurrent]
  constructor
  · exact fun h => h.1.1
  · exact fun h => ⟨⟨h, fun hholds => absurd hholds hnone⟩, fun p hp => absurd hp List.not_mem_nil⟩

/-- **A stream that always retains what was written last** is clean at the forks if and
only if no directory lists a wanted file before a subdirectory. -/
theorem forksClean_iff_dirsFirst (hopens : ∀ place, r.opens place = true) (hd : Retains d)
    (entries : Listing) : ForksClean r d entries ↔ entries.dirsFirst r = true := by
  have hstart := fine_start (r := r) hopens entries
  rw [← tidy_start_iff hopens]
  constructor
  · intro hclean
    obtain ⟨final, hreach, hended⟩ := exists_ends r d entries
    -- nothing is listed at the end, and the way there changes nothing
    have hback : ∀ s, (search r d).Reach (start r entries) s →
        (s.Tidy r ↔ (start r entries).Tidy r) := by
      intro s hs
      induction hs with
      | refl => exact Iff.rfl
      | @tail t t' hreach hlast ih =>
        obtain ⟨_, hstep⟩ := hlast
        obtain ⟨hstatus, hmoves⟩ := step_cases hstep
        rw [← ih]
        exact hmoves.tidy_iff hopens hd (fine_of_reach hopens hreach hstart) hstatus
          (hclean t hreach)
    obtain ⟨_, hresult, hwaiting⟩ := (fine_of_reach hopens hreach hstart).settled hended
    obtain ⟨result, hresult⟩ := Option.ne_none_iff_exists'.mp hresult
    apply (hback final hreach).mp
    exact ⟨tidy_returning hresult, fun p hp => absurd (hwaiting ▸ hp) List.not_mem_nil⟩
  · intro htidy s hs hfork
    have hinv : s.Fine ∧ s.Tidy r := by
      refine Machine.Reach.invariant (I := fun t => t.Fine ∧ t.Tidy r) ?_ hs ⟨hstart, htidy⟩
      rintro _ t t' ⟨hfine, ht⟩ hstep
      obtain ⟨hstatus, hmoves⟩ := step_cases hstep
      exact ⟨hmoves.fine hopens hfine hstatus,
        (hmoves.tidy_iff hopens hd hfine hstatus ht.clean).mpr ht⟩
    exact hinv.2.clean hfork

/-! ### The search -/

/-- **Every search ends, and its output has each record exactly once** if and only if no
process forks while it holds a part of a record, and then each record is in one piece.  A
line buffer never holds one there; a full buffer does, unless every directory lists its
subdirectories before its wanted files. -/
theorem records_once_iff (r : Run) (hopens : ∀ place, r.opens place = true) (entries : Listing) :
    (∀ d, ∃ final, Ends r d entries final) ∧
      (∀ d final, Ends r d entries final →
        (ExactlyOnce r entries final.output ↔ ForksClean r d entries)) ∧
      (∀ d final, Ends r d entries final → ForksClean r d entries →
        Unbroken r (r.wanted [] entries) final.output) ∧
      (∀ size final, Ends r (lineBuffered (· == newline) size) entries final →
        ExactlyOnce r entries final.output) ∧
      ∀ size final, Ends r (fullyBuffered size) entries final →
        (ExactlyOnce r entries final.output ↔ entries.dirsFirst r = true) := by
  refine ⟨fun d => exists_ends r d entries,
    fun d final hends => exactlyOnce_iff_forksClean hopens hends,
    fun d final hends hclean => unbroken_of_forksClean hopens hclean hends, ?_, ?_⟩
  · intro size final hends
    rw [exactlyOnce_iff_forksClean hopens hends]
    exact forksClean_of_emptiesAt (Buffered.emptiesAt_lineBuffered _ size) entries
  · intro size final hends
    rw [exactlyOnce_iff_forksClean hopens hends]
    exact forksClean_iff_dirsFirst hopens (Buffered.retains_fullyBuffered size) entries

end Step

/-! ### An example -/

/-- A search for the files before 2020, with processes 101 and, for the subdirectory, 102. -/
def before2020 : Run where
  toSetting := newYear
  toRequest := ⟨ascii "dir", lessThan, ascii "2020-01-01 00:00:00"⟩
  shell := 100
  pid := fun place => if place = [] then 101 else 102

/-- A wanted file, and an empty subdirectory that is listed after it. -/
def lateDirectory : Listing :=
  .file (ascii "notes") .regular ⟨0o644, 1546300800, 12⟩ (.dir (ascii "run") .done .done)

theorem records_once_late :
    (∀ d, ∃ final, Ends before2020 d lateDirectory final) ∧
      (∀ d final, Ends before2020 d lateDirectory final →
        (ExactlyOnce before2020 lateDirectory final.output ↔
          ForksClean before2020 d lateDirectory)) ∧
      (∀ d final, Ends before2020 d lateDirectory final → ForksClean before2020 d lateDirectory →
        Unbroken before2020 (before2020.wanted [] lateDirectory) final.output) ∧
      (∀ size final, Ends before2020 (lineBuffered (· == newline) size) lateDirectory final →
        ExactlyOnce before2020 lateDirectory final.output) ∧
      ∀ size final, Ends before2020 (fullyBuffered size) lateDirectory final →
        (ExactlyOnce before2020 lateDirectory final.output ↔
          lateDirectory.dirsFirst before2020 = true) :=
  records_once_iff before2020 (fun _ => rfl) lateDirectory

/-- Into a file, the record comes twice: the child for the subdirectory flushes it too. -/
theorem record_twice :
    ∃ final, Ends before2020 (fullyBuffered 4096) lateDirectory final ∧
      (about [ascii "notes"] final.output).map Octet.byte =
        before2020.record ⟨[ascii "notes"], .regular, ⟨0o644, 1546300800, 12⟩⟩ ++
          before2020.record ⟨[ascii "notes"], .regular, ⟨0o644, 1546300800, 12⟩⟩ ∧
      ¬ExactlyOnce before2020 lateDirectory final.output := by
  have htwice : (about [ascii "notes"] ((search before2020 (fullyBuffered 4096)).run
      (List.replicate 7 ()) (start before2020 lateDirectory)).output).map Octet.byte =
      before2020.record ⟨[ascii "notes"], .regular, ⟨0o644, 1546300800, 12⟩⟩ ++
        before2020.record ⟨[ascii "notes"], .regular, ⟨0o644, 1546300800, 12⟩⟩ := by
    decide +kernel
  refine ⟨_, ⟨Machine.reach_run (List.replicate 7 ()) _, by decide⟩, htwice, ?_⟩
  intro honce
  have hplace := honce [ascii "notes"]
  rw [htwice] at hplace
  exact absurd hplace (by decide)

end Search
end OpSys
