import Mathlib.Data.Nat.Notation
import Mathlib.Logic.Relation

/-!
# Machines driven by events

A machine answers each event with its next state, or not at all when the event
cannot occur.  Whatever the outside world decides (which process runs, a signal, a
number the kernel chooses) is part of the event.  A history is a list of events;
an event that cannot occur is passed over.

## Main definitions

* `Machine`, `Machine.run` — the machines, and the run of a history.
* `Machine.occurring` — how many events of a history occur.
* `Machine.Reach` — the states some history leads to.
* `Machine.Meets ok` — every event of a history meets `ok` where it occurs.
* `Machine.Simulates` — every step of one machine is one of another.
* `Machine.watch` — a machine under an observer, with the events that are allowed.

## Main results

* `Reach.invariant`, `run_invariant` — the invariant rule.
* `forall_seen_take_iff_meets`, `forall_run_take_iff_meets` — a property holds all along a
  history iff the steps meet a condition, if that is so for one step.
* `good_run_iff_meets` — the same for the end of a history, of a property never regained.
* `Meets.run` — what the steps that meet a condition keep.
* `meets_congr` — conditions that agree along a run.
* `occurring_add_rank_le` — a rank that every step lowers bounds their number.
* `exists_reach_stuck` — a machine whose steps lower a rank comes to rest.
* `Reach.of_stuck` — a machine without a choice of events comes to rest in one way.
* `Simulates.run_eq` — the runs of a simulated machine.
* `run_watch`, `reach_of_watch` — an observer sees the states of the machine.
-/

namespace OpSys

/-- What a machine does at an event; `none` when the event cannot occur. -/
structure Machine (ε : Type*) (σ : Type*) where
  step : ε → σ → Option σ

namespace Machine

variable {ε σ τ : Type*} (M : Machine ε σ)

/-- The state after a history. -/
def run : List ε → σ → σ
  | [], s => s
  | e :: es, s => run es ((M.step e s).getD s)

/-- Some history leads from `s` to `s'`. -/
def Reach : σ → σ → Prop := Relation.ReflTransGen fun s s' => ∃ e, M.step e s = some s'

/-- Every event of the history that occurs meets `ok` in the state before it. -/
def Meets (ok : ε → σ → Prop) : List ε → σ → Prop
  | [], _ => True
  | e :: es, s => ((M.step e s).isSome → ok e s) ∧ Meets ok es ((M.step e s).getD s)

/-- The number of events of a history that occur. -/
def occurring : List ε → σ → ℕ
  | [], _ => 0
  | e :: es, s =>
    (if (M.step e s).isSome then 1 else 0) + occurring es ((M.step e s).getD s)

@[simp] theorem run_nil (s : σ) : M.run [] s = s := rfl

@[simp] theorem run_cons (e : ε) (es : List ε) (s : σ) :
    M.run (e :: es) s = M.run es ((M.step e s).getD s) := rfl

@[simp] theorem run_append (es es' : List ε) (s : σ) :
    M.run (es ++ es') s = M.run es' (M.run es s) := by
  induction es generalizing s with
  | nil => rfl
  | cons e es ih => exact ih _

variable {M}

theorem reach_run (es : List ε) (s : σ) : M.Reach s (M.run es s) := by
  induction es generalizing s with
  | nil => exact Relation.ReflTransGen.refl
  | cons e es ih =>
    rw [run_cons]
    cases h : M.step e s with
    | none => exact ih s
    | some s' => exact Relation.ReflTransGen.head ⟨e, h⟩ (ih s')

theorem exists_run_of_reach {s s' : σ} (h : M.Reach s s') : ∃ es, M.run es s = s' := by
  induction h with
  | refl => exact ⟨[], rfl⟩
  | tail _ hlast ih =>
    obtain ⟨e, he⟩ := hlast
    obtain ⟨es, hes⟩ := ih
    refine ⟨es ++ [e], ?_⟩
    rw [run_append, hes, run_cons, he]
    rfl

/-! ### Invariants -/

/-- The invariant rule. -/
theorem Reach.invariant {I : σ → Prop} (hstep : ∀ e s s', I s → M.step e s = some s' → I s')
    {s s' : σ} (h : M.Reach s s') (hs : I s) : I s' := by
  induction h with
  | refl => exact hs
  | tail _ hlast ih =>
    obtain ⟨e, he⟩ := hlast
    exact hstep e _ _ ih he

theorem run_invariant {I : σ → Prop} (hstep : ∀ e s s', I s → M.step e s = some s' → I s')
    (es : List ε) {s : σ} (hs : I s) : I (M.run es s) :=
  Reach.invariant hstep (reach_run es s) hs

/-- What the steps that meet a condition keep holds at the end of a history that meets it. -/
theorem Meets.run {ok : ε → σ → Prop} {I : σ → Prop}
    (hstep : ∀ e s s', I s → ok e s → M.step e s = some s' → I s') {es : List ε} {s : σ}
    (h : M.Meets ok es s) (hs : I s) : I (M.run es s) := by
  induction es generalizing s with
  | nil => exact hs
  | cons e es ih =>
    obtain ⟨hok, hrest⟩ := h
    rw [run_cons]
    cases hnext : M.step e s with
    | none =>
      rw [hnext] at hrest
      exact ih hrest hs
    | some s' =>
      rw [hnext] at hok hrest
      exact ih hrest (hstep e s s' hs (hok rfl) hnext)

theorem Meets.take {ok : ε → σ → Prop} {es : List ε} {s : σ} (h : M.Meets ok es s) (n : ℕ) :
    M.Meets ok (es.take n) s := by
  induction es generalizing s n with
  | nil => rwa [List.take_nil]
  | cons e es ih =>
    cases n with
    | zero => exact trivial
    | succ n => exact ⟨h.1, ih h.2 n⟩

theorem Meets.mono {ok ok' : ε → σ → Prop} (hok : ∀ e s, ok e s → ok' e s) {es : List ε} {s : σ}
    (h : M.Meets ok es s) : M.Meets ok' es s := by
  induction es generalizing s with
  | nil => exact trivial
  | cons e es ih => exact ⟨fun hsome => hok e s (h.1 hsome), ih h.2⟩

/-- What all states of a history have may be used in a condition on its steps. -/
theorem Meets.of_take {ok ok' : ε → σ → Prop} {good : σ → Prop}
    (hok : ∀ e s, good s → ok e s → ok' e s) {es : List ε} {s : σ} (h : M.Meets ok es s)
    (hgood : ∀ n, good (M.run (es.take n) s)) : M.Meets ok' es s := by
  induction es generalizing s with
  | nil => exact trivial
  | cons e es ih =>
    exact ⟨fun hsome => hok e s (hgood 0) (h.1 hsome), ih h.2 fun n => hgood (n + 1)⟩

/-- Conditions that agree in the states of a run. -/
theorem meets_congr {ok ok' : ε → σ → Prop} {I : σ → Prop}
    (hinv : ∀ e s s', I s → M.step e s = some s' → I s')
    (hok : ∀ e s s', I s → M.step e s = some s' → (ok e s ↔ ok' e s)) (es : List ε) {s : σ}
    (hs : I s) : M.Meets ok es s ↔ M.Meets ok' es s := by
  induction es generalizing s with
  | nil => exact Iff.rfl
  | cons e es ih =>
    cases hnext : M.step e s with
    | none => simp [Meets, hnext, ih hs]
    | some s' => simp [Meets, hnext, hok e s s' hs hnext, ih (hinv e s s' hs hnext)]

/-- The last event of a history that meets a condition meets it. -/
theorem Meets.last {ok : ε → σ → Prop} {es : List ε} {e : ε} {s : σ}
    (h : M.Meets ok (es ++ [e]) s) (hsome : (M.step e (M.run es s)).isSome) :
    ok e (M.run es s) := by
  induction es generalizing s with
  | nil => exact h.1 hsome
  | cons e' es ih => exact ih h.2 hsome

/-- **What shows the first step that does not meet a condition** is seen all along a history
if and only if all its steps meet the condition. -/
theorem forall_seen_take_iff_meets {ok : ε → σ → Prop} {good seen : σ → Prop}
    (hseen : ∀ s, good s → seen s)
    (hkeep : ∀ e s s', good s → ok e s → M.step e s = some s' → good s')
    (hlost : ∀ e s s', good s → ¬ok e s → M.step e s = some s' → ¬seen s')
    (es : List ε) {s : σ} (hs : good s) :
    (∀ n, seen (M.run (es.take n) s)) ↔ M.Meets ok es s := by
  constructor
  · intro h
    induction es generalizing s with
    | nil => exact trivial
    | cons e es ih =>
      have hrest : ∀ n, seen (M.run (es.take n) ((M.step e s).getD s)) := fun n => h (n + 1)
      rw [Meets]
      cases hnext : M.step e s with
      | none =>
        rw [hnext] at hrest
        exact ⟨fun hsome => absurd hsome Bool.false_ne_true, ih hs hrest⟩
      | some s' =>
        rw [hnext] at hrest
        -- the state after the step shows that the step met the condition
        have hok : ok e s :=
          Classical.byContradiction fun hno => hlost e s s' hs hno hnext (hrest 0)
        exact ⟨fun _ => hok, ih (hkeep e s s' hs hok hnext) hrest⟩
  · intro h n
    exact hseen _ ((h.take n).run hkeep hs)

/-- **A property that one step keeps exactly under a condition** holds all along a
history if and only if all its steps meet the condition. -/
theorem forall_run_take_iff_meets {ok : ε → σ → Prop} {I good : σ → Prop}
    (hinv : ∀ e s s', I s → M.step e s = some s' → I s')
    (hstep : ∀ e s s', I s → good s → M.step e s = some s' → (good s' ↔ ok e s))
    (es : List ε) {s : σ} (hs : I s) (hgood : good s) :
    (∀ n, good (M.run (es.take n) s)) ↔ M.Meets ok es s := by
  have hseen : ∀ s, I s ∧ good s → good s := fun s h => h.2
  refine forall_seen_take_iff_meets hseen (fun e s s' h hok hnext => ?_)
    (fun e s s' h hno hnext => ?_) es ⟨hs, hgood⟩
  · exact ⟨hinv e s s' h.1 hnext, (hstep e s s' h.1 h.2 hnext).mpr hok⟩
  · exact fun hgood' => hno ((hstep e s s' h.1 h.2 hnext).mp hgood')

/-- **A property that is never regained** holds at the end of a history if and only if all
its steps meet the condition under which one step keeps it. -/
theorem good_run_iff_meets {ok : ε → σ → Prop} {I good : σ → Prop}
    (hinv : ∀ e s s', I s → M.step e s = some s' → I s')
    (hstep : ∀ e s s', I s → good s → M.step e s = some s' → (good s' ↔ ok e s))
    (hlost : ∀ e s s', I s → ¬good s → M.step e s = some s' → ¬good s')
    (es : List ε) {s : σ} (hs : I s) (hgood : good s) :
    good (M.run es s) ↔ M.Meets ok es s := by
  have hbad : ∀ (es : List ε) {s : σ}, I s ∧ ¬good s → ¬good (M.run es s) := by
    intro es s h
    exact (run_invariant (I := fun s => I s ∧ ¬good s)
      (fun e s s' h hnext => ⟨hinv e s s' h.1 hnext, hlost e s s' h.1 h.2 hnext⟩) es h).2
  induction es generalizing s with
  | nil => simp [Meets, hgood]
  | cons e es ih =>
    cases hnext : M.step e s with
    | none => simp [Meets, hnext, ih hs hgood]
    | some s' =>
      have hs' : I s' := hinv e s s' hs hnext
      have hiff := hstep e s s' hs hgood hnext
      rw [run_cons, Meets, hnext, Option.getD_some]
      by_cases hgood' : good s'
      · exact (ih hs' hgood').trans (and_iff_right fun _ => hiff.mp hgood').symm
      · -- the condition fails at this step, and the property is gone for good
        refine iff_of_false (hbad es ⟨hs', hgood'⟩) fun h => hgood' (hiff.mpr (h.1 rfl))

/-- **A rank that every step lowers** bounds the number of steps. -/
theorem occurring_add_rank_le {I : σ → Prop} (rank : σ → ℕ)
    (hinv : ∀ e s s', I s → M.step e s = some s' → I s')
    (hrank : ∀ e s s', I s → M.step e s = some s' → rank s' < rank s) (es : List ε) {s : σ}
    (hs : I s) : M.occurring es s + rank (M.run es s) ≤ rank s := by
  induction es generalizing s with
  | nil => simp [occurring]
  | cons e es ih =>
    cases hnext : M.step e s with
    | none => simpa [occurring, hnext] using ih hs
    | some s' =>
      have hrest := ih (hinv e s s' hs hnext)
      have hlt := hrank e s s' hs hnext
      simp only [occurring, run_cons, hnext, Option.isSome_some, if_true, Option.getD_some]
      omega

/-- A machine whose steps all lower a rank comes to a state without a step. -/
theorem exists_reach_stuck (rank : σ → ℕ)
    (hrank : ∀ e s s', M.step e s = some s' → rank s' < rank s) (s : σ) :
    ∃ s', M.Reach s s' ∧ ∀ e, M.step e s' = none := by
  induction hn : rank s using Nat.strongRecOn generalizing s with
  | ind n ih =>
    by_cases hstuck : ∀ e, M.step e s = none
    · exact ⟨s, .refl, hstuck⟩
    · obtain ⟨e, he⟩ := Classical.not_forall.mp hstuck
      obtain ⟨s', hs'⟩ := Option.ne_none_iff_exists'.mp he
      obtain ⟨final, hreach, hfinal⟩ := ih _ (hn ▸ hrank e s s' hs') s' rfl
      exact ⟨final, .head ⟨e, hs'⟩ hreach, hfinal⟩

/-- Without a choice of events, every state of a run that ends leads to its end. -/
theorem Reach.of_stuck [Subsingleton ε] {s s' final : σ} (h : M.Reach s s')
    (hfinal : M.Reach s final) (hstuck : ∀ e, M.step e final = none) : M.Reach s' final := by
  induction h with
  | refl => exact hfinal
  | @tail t t' _ hlast ih =>
    obtain ⟨e, he⟩ := hlast
    rcases Relation.ReflTransGen.cases_head ih with rfl | ⟨u, ⟨e', he'⟩, hrest⟩
    · rw [hstuck e] at he
      cases he
    · rw [Subsingleton.elim e' e, he] at he'
      cases he'
      exact hrest

/-! ### Simulation -/

/-- The steps of `M`, seen through `f`, are the steps of `N`, as long as `I` holds. -/
def Simulates (N : Machine ε τ) (M : Machine ε σ) (f : σ → τ) (I : σ → Prop) : Prop :=
  ∀ e s, I s → N.step e (f s) = (M.step e s).map f

theorem Simulates.run_eq {N : Machine ε τ} {f : σ → τ} {I : σ → Prop} (h : Simulates N M f I)
    (hinv : ∀ e s s', I s → M.step e s = some s' → I s') (es : List ε) {s : σ} (hs : I s) :
    f (M.run es s) = N.run es (f s) := by
  induction es generalizing s with
  | nil => rfl
  | cons e es ih =>
    rw [run_cons, run_cons, h e s hs]
    cases hnext : M.step e s with
    | none => exact ih hs
    | some s' => exact ih (hinv e s s' hs hnext)

/-! ### Observers -/

/-- The machine under an observer, whose record `see` updates at each event from the state
before it.  Only the events that are `allowed` occur. -/
def watch {ω : Type*} (M : Machine ε σ) (allowed : ε → σ → ω → Bool) (see : ε → σ → ω → ω) :
    Machine ε (σ × ω) where
  step e w :=
    if allowed e w.1 w.2 then (M.step e w.1).map fun s' => (s', see e w.1 w.2) else none

section Observers

variable {ω : Type*} {allowed : ε → σ → ω → Bool} {see : ε → σ → ω → ω}

theorem watch_step_eq_some {e : ε} {w w' : σ × ω} :
    (M.watch allowed see).step e w = some w' ↔
      allowed e w.1 w.2 = true ∧ M.step e w.1 = some w'.1 ∧ w'.2 = see e w.1 w.2 := by
  obtain ⟨s', o'⟩ := w'
  simp only [watch, Option.ite_none_right_eq_some, Option.map_eq_some_iff, Prod.mk.injEq]
  constructor
  · rintro ⟨hallowed, t, ht, rfl, rfl⟩
    exact ⟨hallowed, ht, rfl⟩
  · rintro ⟨hallowed, hstep, rfl⟩
    exact ⟨hallowed, s', hstep, rfl, rfl⟩

/-- An observer that forbids nothing sees the next state of the machine. -/
theorem watch_next (hall : ∀ e s o, allowed e s o = true) (e : ε) (w : σ × ω) :
    (((M.watch allowed see).step e w).getD w).1 = (M.step e w.1).getD w.1 := by
  simp only [watch, hall, if_true]
  cases M.step e w.1 with
  | none => rfl
  | some s' => rfl

theorem run_watch (hall : ∀ e s o, allowed e s o = true) (es : List ε) (w : σ × ω) :
    ((M.watch allowed see).run es w).1 = M.run es w.1 := by
  induction es generalizing w with
  | nil => rfl
  | cons e es ih => rw [run_cons, run_cons, ih, watch_next hall]

theorem reach_of_watch {w w' : σ × ω} (h : (M.watch allowed see).Reach w w') :
    M.Reach w.1 w'.1 := by
  induction h with
  | refl => exact Relation.ReflTransGen.refl
  | tail _ hlast ih =>
    obtain ⟨e, he⟩ := hlast
    exact ih.tail ⟨e, (watch_step_eq_some.mp he).2.1⟩

end Observers

end Machine

end OpSys
