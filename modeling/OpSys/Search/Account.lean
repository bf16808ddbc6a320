import OpSys.Search.Processes

/-!
# The account of a search

What has been written, what is held and what is still to be printed make an account that
every step keeps, but for a fork, which enters what is held a second time.

## Main definitions

* `Run.record`, `Run.wanted`, `ExactlyOnce` — the record of a file, the files that are wanted,
  and the output with the record of each once.
* `ForksClean` — no part of a record is held at a fork.
* `Family.account` — the records that are written, held or still to come.

## Main results

* `Moves.account_eq`, `account_forked` — what a step does to the account.
* `exactlyOnce_iff` — the output comes right if it has what the account starts with.

## References

`lab3_processes/search_dir_mult_ps/search_proc.c`.
-/

namespace OpSys
namespace Search

open Stdio
open Buffered (Discipline)

/-! ### The records -/

namespace Run

variable (r : Run)

/-- The parent of the process of the directory `place`. -/
def ppid (place : Place) : ℤ := if place = [] then r.shell else r.pid place.dropLast

/-- The path that the search builds for `place`. -/
def path (place : Place) : List UInt8 := place.foldl newPath r.dirname

/-- The record of a file, as the process of its directory prints it. -/
def record (f : FileEntry) : List UInt8 :=
  printFileDetailsOf (r.ppid f.place.dropLast) (r.pid f.place.dropLast)
    (absPath r.cwd (r.path f.place)) (formatTime r.zone f.stat.mtime) f.stat

/-- The wanted files of a listing, in its order. -/
def wanted (place : Place) (entries : Listing) : List FileEntry :=
  (entries.files place).filter fun f => Wanted r.zone r.toRequest f.kind f.stat

end Run

section Wanted

variable {r : Run} {place : Place} {name : List UInt8} {kind : Kind} {stat : Stat}
  {entries rest : Listing}

@[simp] theorem wanted_done (r : Run) (place : Place) : r.wanted place .done = [] := rfl

@[simp] theorem wanted_file_of_wanted (h : Wanted r.zone r.toRequest kind stat) :
    r.wanted place (.file name kind stat rest) =
      ⟨place ++ [name], kind, stat⟩ :: r.wanted place rest := by
  simp [Run.wanted, h]

@[simp] theorem wanted_file_of_not (h : ¬Wanted r.zone r.toRequest kind stat) :
    r.wanted place (.file name kind stat rest) = r.wanted place rest := by
  simp [Run.wanted, h]

@[simp] theorem wanted_dots (h : isDots name) :
    r.wanted place (.dir name entries rest) = r.wanted place rest := by
  simp [Run.wanted, h]

@[simp] theorem wanted_dir (h : ¬isDots name) :
    r.wanted place (.dir name entries rest) =
      r.wanted (place ++ [name]) entries ++ r.wanted place rest := by
  simp [Run.wanted, h]

end Wanted

/-- The octets of the output about `place`. -/
def about (place : Place) (output : List Octet) : List Octet :=
  output.filter fun o => o.source = some place

/-- The output has the record of every wanted file exactly once, and of no other file. -/
def ExactlyOnce (r : Run) (entries : Listing) (output : List Octet) : Prop :=
  ∀ place, (about place output).map Octet.byte =
    ((entries.files []).filter fun f =>
      f.place = place ∧ Wanted r.zone r.toRequest f.kind f.stat).flatMap r.record

/-- A process holds a part of a record. -/
def Process.HoldsRecord (p : Process) : Prop := ∃ o ∈ p.held, o.source ≠ none

/-- No process holds a part of a record when it forks. -/
def ForksClean (r : Run) (d : Discipline UInt8) (entries : Listing) : Prop :=
  ∀ s, (search r d).Reach (start r entries) s → AtFork s → ¬s.current.HoldsRecord

/-! ### The account -/

/-- The records that a process has to print for a listing, with those of its children. -/
def Listing.records (r : Run) (ppid pid : ℤ) (dirname : List UInt8) (place : Place) :
    Listing → List Octet
  | .done => []
  | .file name kind stat rest =>
    (if Wanted r.zone r.toRequest kind stat then
      octets (some (place ++ [name])) (printFileDetailsOf ppid pid
        (absPath r.cwd (newPath dirname name)) (formatTime r.zone stat.mtime) stat)
    else []) ++ rest.records r ppid pid dirname place
  | .dir name entries rest =>
    (if isDots name then []
    else entries.records r pid (r.pid (place ++ [name])) (newPath dirname name)
      (place ++ [name])) ++ rest.records r ppid pid dirname place

/-- What a process still has to print. -/
def Process.left (r : Run) (p : Process) : List Octet :=
  match p.result with
  | none => p.top.rest.records r p.ppid p.pid p.top.dirname p.top.place
  | some _ => []

/-- What a process holds, and what it still has to print. -/
def Process.share (r : Run) (p : Process) : List Octet := p.held ++ p.left r

/-- What is written, held or still to be printed. -/
def Family.account (r : Run) (s : Family) : List Octet :=
  s.output ++ s.current.share r ++ s.waiting.flatMap (Process.share r)

/-- The octets that are of a record. -/
def marked (l : List Octet) : List Octet := l.filter (·.source.isSome)

section Step

variable {r : Run} {d : Discipline UInt8} {s s' : Family} {p : Process}

theorem share_reading (h : p.result = none) :
    p.share r = p.held ++ p.top.rest.records r p.ppid p.pid p.top.dirname p.top.place := by
  rw [Process.share, Process.left, h]

theorem share_returning {result : ℤ} (h : p.result = some result) : p.share r = p.held := by
  rw [Process.share, Process.left, h, List.append_nil]

theorem share_readOn (h : p.result = none) (rest : Listing) :
    (p.readOn rest).share r =
      p.held ++ rest.records r p.ppid p.pid p.top.dirname p.top.place :=
  share_reading (p := p.readOn rest) h

/-- Printing moves octets from what is held to what is written. -/
theorem print_append_held (source : Option Place) (text : List UInt8) :
    (p.print d source text).1 ++ (p.print d source text).2.held = p.held ++ octets source text :=
  Buffered.sent_append_held _ _ _

theorem report_append_share (h : p.result = none) {name : List UInt8} {kind : Kind} {stat : Stat}
    {rest : Listing} (hrest : p.top.rest = .file name kind stat rest)
    (hwanted : Wanted r.zone r.toRequest kind stat) :
    (p.report r d name stat rest).1 ++ (p.report r d name stat rest).2.share r = p.share r := by
  have hprint : (p.report r d name stat rest).1 ++ (p.report r d name stat rest).2.held =
      p.held ++ octets (some (p.top.place ++ [name])) (p.record r name stat) :=
    print_append_held _ _
  have hleft : (p.report r d name stat rest).2.share r =
      (p.report r d name stat rest).2.held ++
        rest.records r p.ppid p.pid p.top.dirname p.top.place :=
    share_reading (p := (p.report r d name stat rest).2) h
  rw [hleft, ← List.append_assoc, hprint, share_reading h, hrest, Listing.records, if_pos hwanted,
    List.append_assoc]
  rfl

@[simp] theorem marked_append (l l' : List Octet) : marked (l ++ l') = marked l ++ marked l' :=
  List.filter_append ..

@[simp] theorem marked_octets_none (text : List UInt8) : marked (octets none text) = [] := by
  simp [marked, octets, List.filter_map]

/-- The child's share: what its parent held, and the records of its directory. -/
theorem marked_spawn_append_share (hopens : ∀ place, r.opens place = true) (name : List UInt8)
    (entries : Listing) :
    marked ((p.spawn r d name).1 ++ ((p.spawn r d name).2.call r name entries).share r) =
      marked p.held ++ marked (entries.records r p.pid (r.pid (p.top.place ++ [name]))
        (newPath p.top.dirname name) (p.top.place ++ [name])) := by
  have hprint : (p.spawn r d name).1 ++ (p.spawn r d name).2.held =
      p.held ++ octets none (childLine name p.pid (r.pid (p.top.place ++ [name]))) :=
    print_append_held _ _
  have hshare : ((p.spawn r d name).2.call r name entries).share r =
      (p.spawn r d name).2.held ++ entries.records r p.pid (r.pid (p.top.place ++ [name]))
        (newPath p.top.dirname name) (p.top.place ++ [name]) := by
    apply share_reading (p := (p.spawn r d name).2.call r name entries)
    exact if_pos (hopens _)
  rw [hshare, ← List.append_assoc, hprint, marked_append, marked_append, marked_octets_none,
    List.append_nil]

/-! ### A step and the account -/

/-- What holds all along a search in which every directory can be opened. -/
structure Family.Fine (s : Family) : Prop where
  result_zero : ∀ result, s.current.result = some result → result = 0
  waiting_reading : ∀ p ∈ s.waiting, p.result = none
  settled : s.status ≠ none → s.current.held = [] ∧ s.current.result ≠ none ∧ s.waiting = []

/-- A child returns 0, so its parent goes on in its loop. -/
theorem Family.Fine.resumes (hs : s.Fine) {result : ℤ} (hresult : s.current.result = some result)
    (parent : Process) : (if result ≠ 0 then parent.finish 2 else parent) = parent :=
  if_neg (not_not_intro (hs.result_zero result hresult))

theorem fine_start (hopens : ∀ place, r.opens place = true) (entries : Listing) :
    (start r entries).Fine where
  result_zero result h := by
    rw [start, if_pos (hopens [])] at h
    cases h
  waiting_reading p hp := absurd hp List.not_mem_nil
  settled h := absurd rfl h

theorem Moves.fine (hopens : ∀ place, r.opens place = true) (h : Moves r d s s') (hs : s.Fine)
    (hstatus : s.status = none) : s'.Fine := by
  cases h with
  | listed hresult hrest =>
    exact ⟨fun _ h => (Option.some.inj h).symm, hs.waiting_reading, fun h => absurd hstatus h⟩
  | unwanted hresult hrest hnot =>
    exact ⟨hs.result_zero, hs.waiting_reading, fun h => absurd hstatus h⟩
  | printed hresult hrest hwanted =>
    exact ⟨hs.result_zero, hs.waiting_reading, fun h => absurd hstatus h⟩
  | dots hresult hrest hdots =>
    exact ⟨hs.result_zero, hs.waiting_reading, fun h => absurd hstatus h⟩
  | forked hresult hrest hdots =>
    refine ⟨fun result h => ?_, ?_, fun h => absurd hstatus h⟩
    · rw [Process.call, if_pos (hopens _)] at h
      cases h
    · intro p hp
      rcases List.mem_cons.mp hp with rfl | hp
      · exact hresult
      · exact hs.waiting_reading p hp
  | returned hresult hbelow =>
    exact ⟨fun _ h => (Option.some.inj h).symm, hs.waiting_reading, fun h => absurd hstatus h⟩
  | @resumed result parent waiting hresult hbelow hwaiting =>
    have hparent : parent.result = none :=
      hs.waiting_reading parent (hwaiting ▸ List.mem_cons_self)
    rw [hs.resumes hresult]
    refine ⟨fun result h => ?_, fun p hp => ?_, fun h => absurd hstatus h⟩
    · rw [hparent] at h
      cases h
    · exact hs.waiting_reading p (hwaiting ▸ List.mem_cons_of_mem _ hp)
  | finished hresult hbelow hwaiting =>
    refine ⟨hs.result_zero, fun p hp => absurd hp List.not_mem_nil, fun _ => ⟨rfl, ?_, rfl⟩⟩
    exact fun hnone => Option.some_ne_none _ (hresult.symm.trans hnone)

theorem account_mk (current : Process) (waiting : List Process) (output : List Octet)
    (status : Option ℤ) :
    Family.account r ⟨current, waiting, output, status⟩ =
      output ++ current.share r ++ waiting.flatMap (Process.share r) := rfl

/-- **A step keeps the account**, unless it is a fork. -/
theorem Moves.account_eq (h : Moves r d s s') (hs : s.Fine) (hfork : ¬AtFork s)
    (hstatus : s.status = none) : s'.account r = s.account r := by
  cases h with
  | listed hresult hrest =>
    have hshare : (s.current.finish 0).share r = s.current.share r := by
      rw [share_reading hresult, hrest, share_returning (p := s.current.finish 0) rfl]
      exact (List.append_nil _).symm
    rw [account_mk, hshare, Family.account]
  | @unwanted name kind stat rest hresult hrest hnot =>
    have hshare : (s.current.readOn rest).share r = s.current.share r := by
      rw [share_readOn hresult, share_reading hresult, hrest, Listing.records, if_neg hnot]
      rfl
    rw [account_mk, hshare, Family.account]
  | printed hresult hrest hwanted =>
    rw [account_mk, Family.account, List.append_assoc s.output,
      report_append_share hresult hrest hwanted]
  | @dots name entries rest hresult hrest hdots =>
    have hshare : (s.current.readOn rest).share r = s.current.share r := by
      rw [share_readOn hresult, share_reading hresult, hrest, Listing.records, if_pos hdots]
      rfl
    rw [account_mk, hshare, Family.account]
  | forked hresult hrest hdots =>
    exact absurd ⟨hstatus, hresult, _, _, _, hrest, hdots⟩ hfork
  | @returned result frame frames hresult hbelow =>
    have hshare : (s.current.leave frame frames).share r = s.current.share r := by
      rw [share_returning hresult, share_returning (p := s.current.leave frame frames) rfl]
      rfl
    rw [account_mk, hshare, Family.account]
  | @resumed result parent waiting hresult hbelow hwaiting =>
    rw [account_mk, hs.resumes hresult, Family.account, share_returning hresult, hwaiting,
      List.flatMap_cons, List.append_assoc]
  | finished hresult hbelow hwaiting =>
    have hshare : s.current.flush.share r = [] := share_returning (p := s.current.flush) hresult
    rw [account_mk, hshare, Family.account, share_returning hresult, hwaiting, List.append_nil]

/-- **A fork enters what is held a second time.** -/
theorem account_forked (hopens : ∀ place, r.opens place = true) (h : step r d s = some s')
    (hfork : AtFork s) :
    ∃ before after, marked (s.account r) = before ++ after ∧
      marked (s'.account r) = before ++ marked s.current.held ++ after := by
  obtain ⟨hstatus, hresult, name, entries, rest, hrest, hdots⟩ := hfork
  rw [step_fork hstatus hresult hrest hdots] at h
  obtain rfl := Option.some.inj h
  -- the child's records come next, then what the parent still holds
  refine ⟨marked s.output ++ marked s.current.held ++ marked (entries.records r s.current.pid
    (r.pid (s.current.top.place ++ [name])) (newPath s.current.top.dirname name)
    (s.current.top.place ++ [name])), marked (rest.records r s.current.ppid s.current.pid
    s.current.top.dirname s.current.top.place ++ s.waiting.flatMap (Process.share r)), ?_, ?_⟩
  · rw [Family.account, share_reading hresult, hrest, Listing.records, if_neg hdots]
    simp only [marked_append, List.append_assoc]
  · rw [account_mk, List.append_assoc s.output, marked_append, marked_append,
      marked_spawn_append_share hopens, List.flatMap_cons, share_readOn hresult]
    simp only [marked_append, List.append_assoc]
    rfl

/-! ### A whole search and the account -/

theorem fine_of_reach (hopens : ∀ place, r.opens place = true) (h : (search r d).Reach s s')
    (hs : s.Fine) : s'.Fine := by
  refine Machine.Reach.invariant ?_ h hs
  intro _ t t' ht hstep
  obtain ⟨hstatus, hmoves⟩ := step_cases hstep
  exact hmoves.fine hopens ht hstatus

/-- Forks without a part of a record keep the account of the records. -/
theorem marked_account_eq (hopens : ∀ place, r.opens place = true) {entries : Listing}
    (hclean : ForksClean r d entries) (h : (search r d).Reach (start r entries) s) :
    marked (s.account r) = marked ((start r entries).account r) := by
  induction h with
  | refl => rfl
  | @tail t t' hreach hlast ih =>
    obtain ⟨_, hstep⟩ := hlast
    rw [← ih]
    by_cases hfork : AtFork t
    · obtain ⟨before, after, hbefore, hafter⟩ := account_forked hopens hstep hfork
      have hnone : marked t.current.held = [] := by
        apply List.filter_eq_nil_iff.mpr
        intro o ho hsome
        exact hclean t hreach hfork ⟨o, ho, Option.isSome_iff_ne_none.mp hsome⟩
      rw [hbefore, hafter, hnone, List.append_nil]
    · obtain ⟨hstatus, hmoves⟩ := step_cases hstep
      rw [hmoves.account_eq (fine_of_reach hopens hreach (fine_start hopens entries)) hfork hstatus]

/-- A search loses nothing of a record. -/
theorem marked_account_sublist (hopens : ∀ place, r.opens place = true)
    (h : (search r d).Reach s s') (hs : s.Fine) :
    (marked (s.account r)).Sublist (marked (s'.account r)) := by
  induction h with
  | refl => exact List.Sublist.refl _
  | @tail t t' hreach hlast ih =>
    obtain ⟨_, hstep⟩ := hlast
    apply ih.trans
    by_cases hfork : AtFork t
    · obtain ⟨before, after, hbefore, hafter⟩ := account_forked hopens hstep hfork
      rw [hbefore, hafter]
      exact List.Sublist.append_right (List.sublist_append_left _ _) _
    · obtain ⟨hstatus, hmoves⟩ := step_cases hstep
      rw [hmoves.account_eq (fine_of_reach hopens hreach hs) hfork hstatus]

theorem account_of_ended (hs : s.Fine) (hended : s.status ≠ none) : s.account r = s.output := by
  obtain ⟨hheld, hresult, hwaiting⟩ := hs.settled hended
  obtain ⟨result, hresult⟩ := Option.ne_none_iff_exists'.mp hresult
  rw [Family.account, share_returning hresult, hheld, hwaiting]
  simp

/-! ### The records of a tree -/

@[simp] theorem path_concat (r : Run) (place : Place) (name : List UInt8) :
    r.path (place ++ [name]) = newPath (r.path place) name := by
  rw [Run.path, List.foldl_append]
  rfl

theorem ppid_concat (r : Run) (place : Place) (name : List UInt8) :
    r.ppid (place ++ [name]) = r.pid place := by
  rw [Run.ppid, if_neg (List.concat_ne_nil _ _), List.dropLast_concat]

/-- The records that the processes have to print are those of the wanted files. -/
theorem records_eq (r : Run) (entries : Listing) (place : Place) :
    entries.records r (r.ppid place) (r.pid place) (r.path place) place =
      (r.wanted place entries).flatMap fun f => octets (some f.place) (r.record f) := by
  induction entries generalizing place with
  | done => rfl
  | file name kind stat rest ih =>
    have hrecord : r.record ⟨place ++ [name], kind, stat⟩ =
        printFileDetailsOf (r.ppid place) (r.pid place)
          (absPath r.cwd (newPath (r.path place) name)) (formatTime r.zone stat.mtime) stat := by
      rw [Run.record, List.dropLast_concat, path_concat]
    rw [Listing.records, ih, ← hrecord]
    by_cases hwanted : Wanted r.zone r.toRequest kind stat
    · simp [hwanted]
    · simp [hwanted]
  | dir name entries rest ihEntries ihRest =>
    rw [Listing.records, ihRest]
    by_cases hdots : isDots name
    · simp [hdots]
    · rw [if_neg hdots, wanted_dir hdots, List.flatMap_append, ← ihEntries, path_concat,
        ppid_concat]

@[simp] theorem about_append (place : Place) (l l' : List Octet) :
    about place (l ++ l') = about place l ++ about place l' :=
  List.filter_append ..

theorem map_about_octets (place place' : Place) (text : List UInt8) :
    (about place (octets (some place') text)).map Octet.byte =
      if place' = place then text else [] := by
  rw [about, octets, List.filter_map, List.map_map]
  by_cases hplace : place' = place
  · simp [hplace, Function.comp_def]
  · simp [hplace, Function.comp_def]

theorem map_about_flatMap (place : Place) (files : List FileEntry)
    (record : FileEntry → List UInt8) :
    (about place (files.flatMap fun f => octets (some f.place) (record f))).map Octet.byte =
      (files.filter fun f => f.place = place).flatMap record := by
  induction files with
  | nil => rfl
  | cons f files ih =>
    rw [List.flatMap_cons, about_append, List.map_append, map_about_octets, ih, List.filter_cons]
    by_cases hplace : f.place = place
    · simp [hplace]
    · simp [hplace]

theorem about_marked (place : Place) (l : List Octet) : about place (marked l) = about place l := by
  rw [about, about, marked, List.filter_filter]
  congr 1
  funext o
  cases o.source <;> simp

/-- The output comes right if each file has the octets that the account starts with. -/
theorem exactlyOnce_iff (r : Run) (hopens : ∀ place, r.opens place = true) (entries : Listing)
    (output : List Octet) :
    ExactlyOnce r entries output ↔ ∀ place, (about place output).map Octet.byte =
      (about place ((start r entries).account r)).map Octet.byte := by
  have hstart : (start r entries).account r =
      (r.wanted [] entries).flatMap fun f => octets (some f.place) (r.record f) := by
    rw [← records_eq, Family.account, share_reading]
    · simp [start, Run.ppid, Run.path]
    · exact if_pos (hopens [])
  rw [hstart]
  simp only [ExactlyOnce, Run.wanted, map_about_flatMap, List.filter_filter, Bool.decide_and]

end Step

end Search
end OpSys
