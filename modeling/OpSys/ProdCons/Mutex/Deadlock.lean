import OpSys.ProdCons.Mutex.Stages

/-!
# Deadlock

The main thread sets `done_producing` and broadcasts `read_cond` without locking
`cons_mutex`.  A consumer that holds `cons_mutex` and has tested `done_producing`
before that falls asleep after the broadcast, and nobody will wake it.  This can
happen for every number of threads and slots and for every file.

## Main definitions

* `Stuck` — a thread that is asleep, blocked on a mutex, or joining a thread that has
  not finished.
* `Deadlock` — some thread has not finished, and all that have not are stuck.

## Main results

* `Deadlock.next_eq_none` — no thread can step in a deadlock.
* `not_deadlockFree` — for every input there is a run to a deadlock.
* `wakeup_lost` — such a run with one producer, one consumer and one slot.
-/

namespace OpSys
namespace ProdCons
namespace Mutex

variable {cfg : Config} {text : List UInt8}

/-- Thread `t` is asleep, blocked on a mutex, or joining a thread that has not finished. -/
def Stuck (m : Mem cfg) : (t : Thread cfg) → Local cfg t → Prop
  | .main, l =>
    match l with
    | .joinProd p => ∃ hp : p < cfg.P, m.exited (.prod ⟨p, hp⟩) = false
    | .joinCons k => ∃ hk : k < cfg.K, m.exited (.cons ⟨k, hk⟩) = false
    | _ => False
  | .prod p, l =>
    match l with
    | .lockProd _ => m.owner .prod ≠ none
    | .lockSlot _ idx => m.owner (.slot idx) ≠ none
    | .asleep _ => m.asleep (.prod p) ≠ none ∨ m.owner .prod ≠ none
    | _ => False
  | .cons k, l =>
    match l with
    | .lockCons => m.owner .cons ≠ none
    | .lockSlot idx => m.owner (.slot idx) ≠ none
    | .asleep => m.asleep (.cons k) ≠ none ∨ m.owner .cons ≠ none
    | _ => False

/-- Some thread has not finished, and every thread that has not finished is stuck. -/
structure Deadlock (s : Global (Mem cfg) (Local cfg)) : Prop where
  unfinished : ∃ t, s.loc t ≠ finished t
  stuck : ∀ t, s.loc t = finished t ∨ Stuck s.mem t (s.loc t)

/-- No run on this input comes to a deadlock. -/
def DeadlockFree (cfg : Config) (text : List UInt8) : Prop :=
  ∀ sched, ¬ Deadlock ((program cfg false).run sched (start cfg text))

section Stuck

variable {m : Mem cfg}

theorem lock_eq_none {s : MutexId cfg} {t : Thread cfg} (h : m.owner s ≠ none) :
    m.lock s t = none :=
  if_neg h

theorem reacquire_eq_none {s : MutexId cfg} {t : Thread cfg}
    (h : m.asleep t ≠ none ∨ m.owner s ≠ none) : m.reacquire false s t = none := by
  unfold Mem.reacquire
  split
  case isTrue => rfl
  case isFalse hawake =>
    have hnone : m.asleep t = none := by simpa using hawake
    exact lock_eq_none (h.resolve_left (not_not.mpr hnone))

/-- A finished thread does not step. -/
@[simp] theorem finished_step (t : Thread cfg) :
    (program cfg false).step t m (finished t) = none := by
  cases t with
  | main | prod p | cons k => rfl

/-- A stuck thread does not step. -/
theorem Stuck.step_eq_none {t : Thread cfg} {l : Local cfg t} (h : Stuck m t l) :
    (program cfg false).step t m l = none := by
  cases t with
  | main =>
    cases l with
    | joinProd p =>
      obtain ⟨hp, hexited⟩ := h
      simp only [program, waitThreads, dif_pos hp, hexited]
      rfl
    | joinCons k =>
      obtain ⟨hk, hexited⟩ := h
      simp only [program, waitThreads, dif_pos hk, hexited]
      rfl
    | _ => exact h.elim
  | prod p =>
    cases l with
    | lockProd line =>
      exact congrArg (Option.map (·, Produce.readCursor line)) (lock_eq_none h)
    | lockSlot line idx =>
      exact congrArg (Option.map (·, Produce.store line idx)) (lock_eq_none h)
    | asleep line =>
      exact congrArg (Option.map (·, Produce.readCursor line)) (reacquire_eq_none h)
    | _ => exact h.elim
  | cons k =>
    cases l with
    | lockCons => exact congrArg (Option.map (·, Consume.readCursor)) (lock_eq_none h)
    | lockSlot idx => exact congrArg (Option.map (·, Consume.unlockCons idx)) (lock_eq_none h)
    | asleep => exact congrArg (Option.map (·, Consume.readCursor)) (reacquire_eq_none h)
    | _ => exact h.elim

/-- No thread can step in a deadlock. -/
theorem Deadlock.next_eq_none {s : Global (Mem cfg) (Local cfg)} (h : Deadlock s)
    (t : Thread cfg) : (program cfg false).next t s = none := by
  have hstep : (program cfg false).step t s.mem (s.loc t) = none := by
    rcases h.stuck t with hfin | hstuck
    · rw [hfin]
      exact finished_step t
    · exact hstuck.step_eq_none
  rw [Program.next, hstep, Option.map_none]

/-- A deadlock is for ever. -/
theorem Deadlock.run_eq {s : Global (Mem cfg) (Local cfg)} (h : Deadlock s)
    (sched : List (Thread cfg)) : (program cfg false).run sched s = s := by
  induction sched with
  | nil => rfl
  | cons t sched ih =>
    rw [Program.run_cons, h.next_eq_none t]
    exact ih

end Stuck

/-! ### A wake-up lost -/

section LostWakeup

variable {k : Fin cfg.K} {s : Global (Mem cfg) (Local cfg)}

/-- Production is over, and consumer `k`, which tested `done_producing` before, is about to
wait; the others have not begun to look at the slot, which is empty. -/
structure AboutToWait (k : Fin cfg.K) (s : Global (Mem cfg) (Local cfg)) : Prop
    extends Over s where
  waiter : s.loc (.cons k) = .condWait
  others : ∀ k', k' ≠ k → s.loc (.cons k') = .lockCons
  empty : s.mem.sharedResource s.mem.currCons = none

/-- When all lines have been taken a consumer finds its slot empty and `done_producing` not
set; then the producers return and the main thread broadcasts. -/
theorem exists_aboutToWait (k : Fin cfg.K) (text : List UInt8) :
    ∃ s, (program cfg false).Reach (start cfg text) s ∧ AboutToWait k s := by
  obtain ⟨c, left, hleft, s₁, hs₁, h₁⟩ : ∃ c left, (0 < cfg.P → left = 0) ∧
      ∃ s, (program cfg false).Reach (start cfg text) s ∧ Filled c 0 left s := by
    by_cases hP : 0 < cfg.P
    · exact ⟨_, 0, fun _ => rfl, exists_passed false ⟨0, hP⟩ rfl⟩
    · exact ⟨0, _, fun h => absurd h hP, _, .refl _, filled_start cfg text⟩
  have hempty₁ : s₁.mem.sharedResource s₁.mem.currCons = none := by
    rw [h₁.currCons]
    exact h₁.rest 0 le_rfl cfg.N_pos
  -- the consumer makes its two tests
  have hdone : ¬ (holding k s₁.mem).doneProducing = true := by
    rw [Bool.not_eq_true]
    exact h₁.done
  have htest : consume false k (holding k s₁.mem) .testDone
      = some (holding k s₁.mem, .condWait) := if_neg hdone
  obtain ⟨s₂, hs₂, hmem₂, hloc₂, hothers₂⟩ :=
    ((solo_look false k (h₁.owner _) hempty₁).trans (.head htest (.refl _))).exists_reach
      (h₁.consumers k)
  have hbusy₂ : Busy left s₂ := by
    apply h₁.toBusy.frame hothers₂
    rw [hmem₂]
    exact undisturbed_holding k s₁.mem
  -- the producers return and the main thread broadcasts
  obtain ⟨s₃, hs₃, hover, hsame⟩ := hbusy₂.over false hleft
  refine ⟨s₃, hs₁.trans (hs₂.trans hs₃), hover, (hsame.loc k).trans hloc₂, ?_, ?_⟩
  · intro k' hk
    rw [hsame.loc, hothers₂ _ (by simpa using hk)]
    exact h₁.consumers k'
  · rw [hsame.slots, hsame.currCons, hmem₂]
    exact hempty₁

/-- The first consumer falls asleep after the broadcast, and the other consumers leave. -/
theorem AboutToWait.deadlock (h : AboutToWait k s) (hk : k = ⟨0, cfg.K_pos⟩) :
    ∃ s', (program cfg false).Reach s s' ∧ Deadlock s' := by
  have hsleep : (program cfg false).Solo (.cons k) (s.mem, .condWait)
      (s.mem.condWait .read .cons (.cons k), .asleep) := .head rfl (.refl _)
  obtain ⟨s₁, hs₁, hmem₁, hloc₁, hothers₁⟩ := hsleep.exists_reach h.waiter
  have hdone₁ : s₁.mem.doneProducing = true := by
    rw [hmem₁]
    exact h.done
  have hfree₁ : s₁.mem.owner .cons = none := by
    rw [hmem₁]
    show (s.mem.withOwner .cons none).owner .cons = none
    exact withOwner_self none
  have hempty₁ : s₁.mem.sharedResource s₁.mem.currCons = none := by
    rw [hmem₁]
    exact h.empty
  have hasleep₁ : s₁.mem.asleep (.cons k) ≠ none := by
    rw [hmem₁]
    show Function.update s.mem.asleep (.cons k) (some .read) (.cons k) ≠ none
    rw [Function.update_self]
    exact Option.some_ne_none _
  -- the others find the slot empty and leave
  have hks : ∀ k', k' ∈ (List.finRange cfg.K).filter (· ≠ k) ↔ k' ≠ k := by simp
  obtain ⟨s₂, e, hs₂, hmem₂, hin, hout⟩ := leave_all false hdone₁ hfree₁ hempty₁
    ((List.nodup_finRange cfg.K).filter (· ≠ k)) fun k' hk => by
      rw [hothers₁ _ (by simpa using hk)]
      exact h.others k' ((hks k').mp hk)
  have hself := hout (.cons k) fun k' hk heq => (hks k').mp hk (Thread.cons.inj heq).symm
  have hmain := hout .main (by simp)
  refine ⟨s₂, hs₁.trans hs₂, ⟨.cons k, ?_⟩, ?_⟩
  · rw [hself.1, hloc₁]
    simp [finished]
  · intro t
    -- only the sleeper and the main thread have not finished
    cases t with
    | main =>
      -- joining the consumer that sleeps
      right
      rw [hmain.1, hothers₁ _ (by simp), h.main]
      refine ⟨cfg.K_pos, ?_⟩
      rw [← hk, hmem₂]
      show e (.cons k) = false
      rw [hself.2, hmem₁]
      exact h.exited k
    | prod p =>
      left
      rw [(hout (.prod p) (by simp)).1, hothers₁ _ (by simp)]
      exact h.prods p
    | cons k' =>
      by_cases hk : k' = k
      · right
        rw [hk, hself.1, hloc₁]
        left
        rw [hmem₂]
        exact hasleep₁
      · left
        exact (hin k' ((hks k').mpr hk)).1

end LostWakeup

/-- **For every input there is a run to a deadlock.** -/
theorem not_deadlockFree (cfg : Config) (text : List UInt8) : ¬ DeadlockFree cfg text := by
  intro hfree
  obtain ⟨s₁, hs₁, hwait⟩ := exists_aboutToWait ⟨0, cfg.K_pos⟩ text
  obtain ⟨s₂, hs₂, hdead⟩ := hwait.deadlock rfl
  obtain ⟨sched, rfl⟩ := (program cfg false).exists_run_of_reach (hs₁.trans hs₂)
  exact hfree sched hdead

/-! ### A run to a deadlock -/

/-- One producer, one consumer and one slot. -/
def single : Config := .counts 1 1 1 Nat.zero_lt_one Nat.zero_lt_one

/-- A run in which the consumer, having taken the only line, tests its slot and
`done_producing` before the producer returns and falls asleep after the broadcast. -/
def sleepLate : List (Thread single) :=
  List.replicate 16 (.prod ⟨0, by decide⟩) ++ List.replicate 18 (.cons ⟨0, by decide⟩) ++
    [.prod ⟨0, by decide⟩] ++ List.replicate 4 .main ++ [.cons ⟨0, by decide⟩]

set_option maxRecDepth 4000 in
/-- **The wake-up may be lost**: the consumer sleeps and the main thread waits for it. -/
theorem wakeup_lost : ¬ DeadlockFree single [10] := by
  intro hfree
  apply hfree sleepLate
  refine ⟨⟨.cons ⟨0, by decide⟩, by decide⟩, ?_⟩
  intro t
  cases t with
  | main => exact Or.inr ⟨by decide, by decide⟩
  | prod p =>
    obtain rfl : p = ⟨0, by decide⟩ := Fin.ext (Nat.lt_one_iff.mp p.isLt)
    exact Or.inl (by decide)
  | cons k =>
    obtain rfl : k = ⟨0, by decide⟩ := Fin.ext (Nat.lt_one_iff.mp k.isLt)
    exact Or.inr (Or.inl (by decide))

end Mutex
end ProdCons
end OpSys
