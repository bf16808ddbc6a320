import OpSys.Search.Processes

/-!
# What becomes of a failure

A process that cannot open its directory has 1 as the result of its search, and its parent
looks at its exit status.  But the child returns 0 whatever the result was, so that the
status of a search tells only whether the start directory could be opened.

## Main definitions

* `Listing.dirs` — the directories of a tree.
* `Process.Deaf`, `RootOk`, `Chain` — what holds of the child processes, of the first one,
  and of all that there are.
* `StatusInv` — the invariant.

## Main results

* `statusInv_step` — no failure comes through.
* `status_eq` — the status of a search.
* `status_iff` — when the status tells of a failure.

## References

`lab3_processes/search_dir_mult_ps/search_proc.c`.
-/

namespace OpSys
namespace Search

open Stdio
open Buffered (Discipline fullyBuffered)

/-- The directories below the directory `place`, at any depth. -/
def Listing.dirs (place : Place) : Listing → List Place
  | .done => []
  | .file _ _ _ rest => rest.dirs place
  | .dir name entries rest =>
    (if isDots name then [] else (place ++ [name]) :: entries.dirs (place ++ [name])) ++
      rest.dirs place

/-- A child process that is back in `main` has the result 0. -/
def Process.Deaf (p : Process) : Prop := p.below = [] → p.result = some 0

/-- The first process has the result that the opening of its own directory has given. -/
def RootOk (r : Run) (p : Process) : Prop :=
  p.below = [] ∧
    if r.opens [] then p.result = none ∨ p.result = some 0 else p.result = some 1

/-- The running process and those that wait, down to the first one. -/
def Chain (r : Run) : Process → List Process → Prop
  | p, [] => RootOk r p
  | p, q :: qs => p.Deaf ∧ Chain r q qs

/-- The processes and, at the end, the status. -/
structure StatusInv (r : Run) (s : Family) : Prop where
  chain : s.status = none → Chain r s.current s.waiting
  status : ∀ n, s.status = some n → n = if r.opens [] then 0 else 1

variable {r : Run} {d : Discipline UInt8} {s s' : Family} {p q : Process} {ps : List Process}

/-- The loop goes on without touching the activations below. -/
theorem Chain.of_same (h : Chain r p ps) (hbelow : q.below = p.below)
    (hresult : q.result = p.result) : Chain r q ps := by
  cases ps with
  | nil =>
    rw [Chain, RootOk, hbelow, hresult]
    exact h
  | cons parent ps =>
    refine ⟨fun hq => ?_, h.2⟩
    rw [hresult]
    exact h.1 (hbelow ▸ hq)

/-- At the end of its listing an activation returns 0. -/
theorem Chain.finish (h : Chain r p ps) (hresult : p.result = none) : Chain r (p.finish 0) ps := by
  cases ps with
  | nil =>
    obtain ⟨hbelow, hroot⟩ := h
    refine ⟨hbelow, ?_⟩
    by_cases hopens : r.opens [] = true
    · rw [if_pos hopens]
      exact Or.inr rfl
    · rw [if_neg hopens, hresult] at hroot
      cases hroot
  | cons parent ps => exact ⟨fun _ => rfl, h.2⟩

/-- The result of the call in a child is not looked at. -/
theorem Chain.leave {frame : Frame} {frames : List Frame} (h : Chain r p ps)
    (hbelow : p.below = frame :: frames) : Chain r (p.leave frame frames) ps := by
  cases ps with
  | nil =>
    rw [h.1] at hbelow
    cases hbelow
  | cons parent ps => exact ⟨fun _ => rfl, h.2⟩

theorem statusInv_of_chain (hstatus : s'.status = none) (h : Chain r s'.current s'.waiting) :
    StatusInv r s' := by
  refine ⟨fun _ => h, fun n hn => ?_⟩
  rw [hstatus] at hn
  cases hn

theorem statusInv_step (h : StatusInv r s) (hstep : step r d s = some s') : StatusInv r s' := by
  obtain ⟨hstatus, hmoves⟩ := step_cases hstep
  have hchain := h.chain hstatus
  cases hmoves with
  | listed hresult hrest => exact statusInv_of_chain hstatus (hchain.finish hresult)
  | unwanted hresult hrest hnot => exact statusInv_of_chain hstatus (hchain.of_same rfl rfl)
  | printed hresult hrest hwanted => exact statusInv_of_chain hstatus (hchain.of_same rfl rfl)
  | dots hresult hrest hdots => exact statusInv_of_chain hstatus (hchain.of_same rfl rfl)
  | forked hresult hrest hdots =>
    -- below the call in the child are the activations of its parent
    refine statusInv_of_chain hstatus ⟨fun hbelow => ?_, hchain.of_same rfl rfl⟩
    cases hbelow
  | returned hresult hbelow => exact statusInv_of_chain hstatus (hchain.leave hbelow)
  | @resumed result parent waiting hresult hbelow hwaiting =>
    rw [hwaiting] at hchain
    have hzero : result = 0 := Option.some.inj (hresult.symm.trans (hchain.1 hbelow))
    refine statusInv_of_chain hstatus ?_
    simp only [hzero, ne_eq, not_true_eq_false, if_false]
    exact hchain.2
  | @finished result hresult hbelow hwaiting =>
    rw [hwaiting] at hchain
    refine StatusInv.mk (fun hnone => ?_) fun n hn => ?_
    · cases hnone
    · obtain rfl : result = n := Option.some.inj hn
      have hroot := hchain.2
      rw [hresult] at hroot
      split at hroot
      · next hopens =>
        rw [if_pos hopens]
        exact Option.some.inj (hroot.resolve_left (Option.some_ne_none _))
      · next hopens =>
        rw [if_neg hopens]
        exact Option.some.inj hroot

theorem statusInv_start (r : Run) (entries : Listing) : StatusInv r (start r entries) := by
  refine statusInv_of_chain rfl ⟨rfl, ?_⟩
  by_cases hopens : r.opens [] = true
  · rw [if_pos hopens]
    exact Or.inl (if_pos hopens)
  · rw [if_neg hopens]
    exact if_neg hopens

/-- **The status of a search** is that of the start directory. -/
theorem status_eq {entries : Listing} {final : Family} (hends : Ends r d entries final) :
    final.status = some (if r.opens [] then 0 else 1) := by
  have hinv : StatusInv r final := by
    refine Machine.Reach.invariant ?_ hends.1 (statusInv_start r entries)
    intro _ s s' h hstep
    exact statusInv_step h hstep
  obtain ⟨n, hn⟩ := Option.ne_none_iff_exists'.mp hends.2
  rw [hn, hinv.status n hn]

/-- A search in a directory with a subdirectory that does not open. -/
def locked : Run where
  zone := newYear.zone
  cwd := newYear.cwd
  opens := fun place => place = []
  toRequest := ⟨ascii "dir", lessThan, ascii "2020-01-01 00:00:00"⟩
  shell := 100
  pid := fun place => if place = [] then 101 else 102

/-- The failure of the child is lost. -/
theorem status_locked :
    ∃ final, Ends locked (fullyBuffered 4096) (.dir (ascii "a") .done .done) final ∧
      final.status = some 0 ∧
      [ascii "a"] ∈ Listing.dirs [] (.dir (ascii "a") .done .done) ∧
      locked.opens [ascii "a"] = false := by
  obtain ⟨final, hends⟩ := exists_ends locked (fullyBuffered 4096) (.dir (ascii "a") .done .done)
  exact ⟨final, hends, status_eq hends, by decide, rfl⟩

/-- **When the status tells of a failure**: a search ends with another status than 0 iff some
directory of the tree cannot be opened, exactly if that is the start directory or if there is
no other. -/
theorem status_iff (r : Run) (d : Discipline UInt8) (entries : Listing) :
    (∃ final, Ends r d entries final) ∧
    ∀ final, Ends r d entries final →
      (((∃ n, final.status = some n ∧ n ≠ 0) ↔
          ∃ place ∈ [] :: entries.dirs [], r.opens place = false) ↔
        r.opens [] = false ∨ ∀ place ∈ entries.dirs [], r.opens place = true) := by
  refine ⟨exists_ends r d entries, fun final hends => ?_⟩
  have hstatus : (∃ n, final.status = some n ∧ n ≠ 0) ↔ r.opens [] = false := by
    rw [status_eq hends]
    cases hopens : r.opens [] with
    | false => exact iff_of_true ⟨1, rfl, one_ne_zero⟩ rfl
    | true =>
      refine iff_of_false ?_ (by decide)
      rintro ⟨n, hn, hne⟩
      exact hne (Option.some.inj hn).symm
  rw [hstatus]
  constructor
  · intro hiff
    by_cases hroot : r.opens [] = false
    · exact Or.inl hroot
    · refine Or.inr fun place hplace => ?_
      by_contra hclosed
      have hfalse : r.opens place = false := Bool.eq_false_iff.mpr hclosed
      exact hroot (hiff.mpr ⟨place, List.mem_cons_of_mem _ hplace, hfalse⟩)
  · intro hcond
    constructor
    · intro hroot
      exact ⟨[], List.mem_cons_self, hroot⟩
    · rintro ⟨place, hplace, hclosed⟩
      rcases List.mem_cons.mp hplace with rfl | hplace
      · exact hclosed
      · rcases hcond with hroot | hall
        · exact hroot
        · rw [hall place hplace] at hclosed
          cases hclosed

end Search
end OpSys
