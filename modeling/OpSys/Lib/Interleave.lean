import Mathlib.Logic.Relation
import Mathlib.Logic.Function.Basic

/-!
# Interleaved programs

A program is a family of threads over one shared store.  Each thread has a local
state of its own type (program counter and private variables) and a step
function saying what it does next; the step is `none` when the thread is blocked
or has finished.  A schedule is a list of thread names, and an interleaving is
the run of a schedule, in which a thread that cannot step is passed over.

History variables are added to a program by `withHistory`: they are written at
each step and read by none, so erasing them gives back the run of the program.

## Main definitions

* `Program`, `Global` — the threads, and a state of the whole system.
* `Program.run sched s` — the interleaving of `sched` from `s`.
* `Program.Reach s s'` — `s'` is reached from `s` by some steps.
* `Program.Meets ok sched s` — every step of the interleaving meets `ok`.
* `Program.Solo t` — a run of thread `t` alone, on the store and its own state.
* `Program.withHistory` — the program with history variables.

## Main results

* `reach_run`, `exists_run_of_reach` — the runs of the schedules are the
  reachable states.
* `agree_iff_meets` — when two programs go through the same states.
* `Reach.invariant` — the invariant rule.
* `ReachIf.relyGuarantee`, `Reach.relyGuarantee` — the rely-guarantee rule: a
  global invariant and one assertion per thread, each stable under what the other
  threads guarantee.
* `erase_run_withHistory` — history variables do not change the runs.
-/

namespace OpSys

/-- A program of threads named by `ι`, over a shared store `σ`, thread `t` having
local states `L t`. -/
structure Program (ι : Type*) (σ : Type*) (L : ι → Type*) where
  /-- What thread `t` does next, `none` when it is blocked or has finished. -/
  step : (t : ι) → σ → L t → Option (σ × L t)

/-- A state of the whole system: the shared store and every thread's local state. -/
@[ext]
structure Global (σ : Type*) {ι : Type*} (L : ι → Type*) where
  /-- The shared store. -/
  mem : σ
  /-- The local states. -/
  loc : (t : ι) → L t

namespace Program

variable {ι σ γ : Type*} {L : ι → Type*}

section Run

variable [DecidableEq ι] (P : Program ι σ L)

/-- The system after a step of thread `t`. -/
def next (t : ι) (s : Global σ L) : Option (Global σ L) :=
  (P.step t s.mem (s.loc t)).map fun r => ⟨r.1, Function.update s.loc t r.2⟩

/-- Some thread steps from `s` to `s'`. -/
def Step (s s' : Global σ L) : Prop := ∃ t, P.next t s = some s'

/-- `s'` is reached from `s` by some steps. -/
def Reach : Global σ L → Global σ L → Prop := Relation.ReflTransGen P.Step

/-- The run of a schedule.  A thread that cannot step is passed over. -/
def run : List ι → Global σ L → Global σ L
  | [], s => s
  | t :: sched, s => run sched ((P.next t s).getD s)

@[simp] theorem run_nil (s : Global σ L) : P.run [] s = s := rfl

@[simp] theorem run_cons (t : ι) (sched : List ι) (s : Global σ L) :
    P.run (t :: sched) s = P.run sched ((P.next t s).getD s) := rfl

theorem next_eq_some {t : ι} {s s' : Global σ L} (h : P.next t s = some s') :
    ∃ m l, P.step t s.mem (s.loc t) = some (m, l) ∧ s' = ⟨m, Function.update s.loc t l⟩ := by
  obtain ⟨⟨m, l⟩, hstep, rfl⟩ := Option.map_eq_some_iff.mp h
  exact ⟨m, l, hstep, rfl⟩

/-- Every schedule runs to a reachable state. -/
theorem reach_run (sched : List ι) (s : Global σ L) : P.Reach s (P.run sched s) := by
  induction sched generalizing s with
  | nil => exact Relation.ReflTransGen.refl
  | cons t sched ih =>
    rw [run_cons]
    cases h : P.next t s with
    | none => exact ih s
    | some s' => exact Relation.ReflTransGen.head ⟨t, h⟩ (ih s')

/-- Every reachable state is the end of some schedule's run. -/
theorem exists_run_of_reach {s s' : Global σ L} (h : P.Reach s s') :
    ∃ sched, P.run sched s = s' := by
  induction h using Relation.ReflTransGen.head_induction_on with
  | refl => exact ⟨[], rfl⟩
  | head hstep _ ih =>
    obtain ⟨t, ht⟩ := hstep
    obtain ⟨sched, hsched⟩ := ih
    exact ⟨t :: sched, by rw [run_cons, ht]; exact hsched⟩

end Run

/-! ### Runs whose steps meet a condition -/

section Condition

variable [DecidableEq ι] (P : Program ι σ L) (ok : (t : ι) → σ → L t → Prop)

/-- `s'` is reached from `s` by steps that meet `ok`, a condition on the store and
the stepping thread's local state before the step. -/
def ReachIf : Global σ L → Global σ L → Prop :=
  Relation.ReflTransGen fun s s' => ∃ t, ok t s.mem (s.loc t) ∧ P.next t s = some s'

/-- Every step of the run of a schedule meets `ok`. -/
def Meets : List ι → Global σ L → Prop
  | [], _ => True
  | t :: sched, s =>
    ((P.next t s).isSome → ok t s.mem (s.loc t)) ∧ Meets sched ((P.next t s).getD s)

instance decidableMeets [∀ t m l, Decidable (ok t m l)] :
    ∀ sched s, Decidable (P.Meets ok sched s)
  | [], _ => isTrue trivial
  | t :: sched, s =>
    have := decidableMeets sched ((P.next t s).getD s)
    inferInstanceAs (Decidable (((P.next t s).isSome → ok t s.mem (s.loc t)) ∧
      P.Meets ok sched ((P.next t s).getD s)))

variable {P ok}

theorem Reach.reachIf {s s' : Global σ L} (h : P.Reach s s') :
    P.ReachIf (fun _ _ _ => True) s s' := by
  refine Relation.ReflTransGen.mono ?_ s s' h
  intro a b hstep
  obtain ⟨t, ht⟩ := hstep
  exact ⟨t, trivial, ht⟩

theorem Meets.reachIf {sched : List ι} {s : Global σ L} (h : P.Meets ok sched s) :
    P.ReachIf ok s (P.run sched s) := by
  induction sched generalizing s with
  | nil => exact Relation.ReflTransGen.refl
  | cons t sched ih =>
    obtain ⟨hok, hrest⟩ := h
    rw [run_cons]
    cases hnext : P.next t s with
    | none =>
      rw [hnext] at hrest
      exact ih hrest
    | some s' =>
      rw [hnext] at hok hrest
      exact Relation.ReflTransGen.head ⟨t, hok rfl, hnext⟩ (ih hrest)

end Condition

/-! ### Two programs under one schedule -/

section Compare

variable [DecidableEq ι] {P Q : Program ι σ L} {ok : (t : ι) → σ → L t → Prop}

/-- If the steps of two programs are the same where `ok` holds and lead apart where it does
not, then the programs go through the same states along a schedule if and only if every step
meets `ok`. -/
theorem agree_iff_meets
    (hsame : ∀ t m l, ((P.step t m l).isSome → ok t m l) → P.step t m l = Q.step t m l)
    (hapart : ∀ t s, (P.next t s).isSome → ¬ ok t s.mem (s.loc t) →
      (P.next t s).getD s ≠ (Q.next t s).getD s)
    (sched : List ι) (s : Global σ L) :
    (∀ n, P.run (sched.take n) s = Q.run (sched.take n) s) ↔ P.Meets ok sched s := by
  induction sched generalizing s with
  | nil => simp [Meets]
  | cons t sched ih =>
    -- the first step and the rest are told apart by the runs of one step
    constructor
    · intro h
      have hone : (P.next t s).getD s = (Q.next t s).getD s := h 1
      refine ⟨fun hsome => ?_, (ih _).mp fun n => ?_⟩
      · by_contra hok
        exact hapart t s hsome hok hone
      · have hrest := h (n + 1)
        rw [List.take_succ_cons, run_cons, run_cons, ← hone] at hrest
        exact hrest
    · rintro ⟨hok, hrest⟩ n
      cases n with
      | zero => rfl
      | succ n =>
        have hnext : P.next t s = Q.next t s := by
          unfold next
          rw [hsame t s.mem (s.loc t) fun hsome => hok (by simpa [next] using hsome)]
        rw [List.take_succ_cons, run_cons, run_cons, ← hnext]
        exact (ih _).mpr hrest n

end Compare

section Reach

variable [DecidableEq ι] {P : Program ι σ L}

theorem Reach.refl (s : Global σ L) : P.Reach s s := Relation.ReflTransGen.refl

theorem Reach.trans {s₁ s₂ s₃ : Global σ L} (h₁₂ : P.Reach s₁ s₂) (h₂₃ : P.Reach s₂ s₃) :
    P.Reach s₁ s₃ :=
  Relation.ReflTransGen.trans h₁₂ h₂₃

end Reach

/-! ### Running one thread alone -/

section Solo

variable (P : Program ι σ L)

/-- A run of thread `t` alone, on the store and its own local state. -/
def Solo (t : ι) : σ × L t → σ × L t → Prop :=
  Relation.ReflTransGen fun a b => P.step t a.1 a.2 = some b

variable {P}

theorem Solo.refl {t : ι} (a : σ × L t) : P.Solo t a a := Relation.ReflTransGen.refl

theorem Solo.trans {t : ι} {a b c : σ × L t} (hab : P.Solo t a b) (hbc : P.Solo t b c) :
    P.Solo t a c :=
  Relation.ReflTransGen.trans hab hbc

theorem Solo.head {t : ι} {a b c : σ × L t} (hab : P.step t a.1 a.2 = some b)
    (hbc : P.Solo t b c) : P.Solo t a c :=
  Relation.ReflTransGen.head hab hbc

/-- A thread running alone is one way for the system to run. -/
theorem Solo.exists_reach [DecidableEq ι] {t : ι} {s : Global σ L} {m : σ} {l l' : L t}
    (h : P.Solo t (s.mem, l) (m, l')) (hl : s.loc t = l) :
    ∃ s', P.Reach s s' ∧ s'.mem = m ∧ s'.loc t = l' ∧ ∀ u, u ≠ t → s'.loc u = s.loc u := by
  generalize hb : (m, l') = b at h
  induction h generalizing m l' with
  | refl =>
    obtain ⟨rfl, rfl⟩ := Prod.mk.inj hb
    exact ⟨s, Relation.ReflTransGen.refl, rfl, hl, fun _ _ => rfl⟩
  | @tail b _ _ hstep ih =>
    obtain ⟨s₁, hreach, hm₁, hl₁, hothers⟩ := ih rfl
    have hnext : P.next t s₁ = some ⟨m, Function.update s₁.loc t l'⟩ := by
      rw [next, hm₁, hl₁, hstep, ← hb, Option.map_some]
    refine ⟨_, Relation.ReflTransGen.tail hreach ⟨t, hnext⟩, rfl, Function.update_self _ _ _, ?_⟩
    intro u hu
    rw [← hothers u hu]
    exact Function.update_of_ne hu _ _

end Solo

/-! ### Proving invariants -/

section Invariant

variable [DecidableEq ι] {P : Program ι σ L}

/-- The invariant rule. -/
theorem Reach.invariant {s₀ s : Global σ L} {I : Global σ L → Prop} (h : P.Reach s₀ s)
    (hstart : I s₀)
    (hstep : ∀ t s s', P.Reach s₀ s → I s → P.next t s = some s' → I s') : I s := by
  induction h with
  | refl => exact hstart
  | tail hprev hlast ih =>
    obtain ⟨t, ht⟩ := hlast
    exact hstep t _ _ hprev ih ht

/-- **The rely-guarantee rule.**  `I` is an invariant of the store, `A t` what
thread `t` knows at each of its local states, `G t` what a step of `t` may do to
the store.  A step of `t` that meets `ok` keeps `I`, establishes `A t` at its new
local state and obeys `G t`; what any other thread knows survives whatever obeys
`G t`. -/
theorem ReachIf.relyGuarantee {ok : (t : ι) → σ → L t → Prop} {I : σ → Prop}
    {A : (t : ι) → σ → L t → Prop} {G : ι → σ → σ → Prop}
    (hstep : ∀ t m l m' l', ok t m l → I m → A t m l → P.step t m l = some (m', l') →
      I m' ∧ A t m' l' ∧ G t m m')
    (hstable : ∀ t u m m' l, u ≠ t → I m → I m' → G t m m' → A u m l → A u m' l)
    {s s' : Global σ L} (h : P.ReachIf ok s s') (hI : I s.mem)
    (hA : ∀ t, A t s.mem (s.loc t)) : I s'.mem ∧ ∀ t, A t s'.mem (s'.loc t) := by
  induction h with
  | refl => exact ⟨hI, hA⟩
  | tail _ hlast ih =>
    obtain ⟨hI, hA⟩ := ih
    obtain ⟨t, hok, hnext⟩ := hlast
    obtain ⟨m, l, hml, rfl⟩ := P.next_eq_some hnext
    obtain ⟨hI', hA', hG⟩ := hstep t _ _ _ _ hok hI (hA t) hml
    refine ⟨hI', fun u => ?_⟩
    by_cases hu : u = t
    · subst hu
      simpa using hA'
    · simpa [Function.update_of_ne hu] using hstable t u _ _ _ hu hI hI' hG (hA u)

/-- The rely-guarantee rule without a condition on the steps. -/
theorem Reach.relyGuarantee {I : σ → Prop} {A : (t : ι) → σ → L t → Prop}
    {G : ι → σ → σ → Prop}
    (hstep : ∀ t m l m' l', I m → A t m l → P.step t m l = some (m', l') →
      I m' ∧ A t m' l' ∧ G t m m')
    (hstable : ∀ t u m m' l, u ≠ t → I m → I m' → G t m m' → A u m l → A u m' l)
    {s s' : Global σ L} (h : P.Reach s s') (hI : I s.mem) (hA : ∀ t, A t s.mem (s.loc t)) :
    I s'.mem ∧ ∀ t, A t s'.mem (s'.loc t) :=
  ReachIf.relyGuarantee (fun t m l m' l' _ => hstep t m l m' l') hstable h.reachIf hI hA

end Invariant

/-! ### History variables -/

section History

variable (P : Program ι σ L) (record : (t : ι) → σ → L t → γ → γ)

/-- The program with history variables `γ`: whenever thread `t` steps at store `m`
and local state `l`, `record t m l` updates them.  No step reads them. -/
def withHistory : Program ι (σ × γ) L where
  step t m l := (P.step t m.1 l).map fun r => ((r.1, record t m.1 l m.2), r.2)

end History

end Program

/-- Forget the history variables. -/
def Global.erase {σ γ ι : Type*} {L : ι → Type*} (s : Global (σ × γ) L) : Global σ L :=
  ⟨s.mem.1, s.loc⟩

namespace Program

variable {ι σ γ : Type*} {L : ι → Type*}
  (P : Program ι σ L) (record : (t : ι) → σ → L t → γ → γ)

theorem withHistory_step_eq_some {t : ι} {m m' : σ × γ} {l l' : L t} :
    (P.withHistory record).step t m l = some (m', l') ↔
      P.step t m.1 l = some (m'.1, l') ∧ m'.2 = record t m.1 l m.2 := by
  obtain ⟨m', g'⟩ := m'
  simp only [withHistory, Option.map_eq_some_iff, Prod.mk.injEq, Prod.exists]
  constructor
  · rintro ⟨m₁, l₁, hstep, ⟨rfl, rfl⟩, rfl⟩
    exact ⟨hstep, rfl⟩
  · rintro ⟨hstep, rfl⟩
    exact ⟨m', l', hstep, ⟨rfl, rfl⟩, rfl⟩

theorem map_erase_next_withHistory [DecidableEq ι] (t : ι) (s : Global (σ × γ) L) :
    ((P.withHistory record).next t s).map Global.erase = P.next t s.erase := by
  simp only [next, withHistory, Option.map_map, Global.erase]
  rfl

/-- **History variables do not change the runs.** -/
theorem erase_run_withHistory [DecidableEq ι] (sched : List ι) (s : Global (σ × γ) L) :
    ((P.withHistory record).run sched s).erase = P.run sched s.erase := by
  induction sched generalizing s with
  | nil => rfl
  | cons t sched ih =>
    rw [run_cons, run_cons, ih, ← P.map_erase_next_withHistory record]
    cases (P.withHistory record).next t s <;> rfl

end Program

end OpSys
