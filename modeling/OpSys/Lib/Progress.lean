import OpSys.Lib.Interleave
import Mathlib.Algebra.BigOperators.Fin
import Mathlib.Algebra.BigOperators.Group.Finset.Basic
import Mathlib.Data.Countable.Defs
import Mathlib.Data.Nat.Pairing
import Mathlib.Order.WellFounded

/-!
# Progress of interleaved programs

Threads that poll take steps which change nothing.  Progress is therefore about
the *moves* of a program, the steps that change the state of the system: a rank
that every move lowers bounds every run of moves, and when every state without a
move is a good one, every maximal run of moves ends well.  Where only some runs
lower the rank they can still be followed to a good state, and where every step
does, every fair schedule leads there.  Where other threads go on for ever, the steps that
bring one thread to its goal may be those of different threads in different states.

## Main definitions

* `Program.Move s s'` — a step from `s` to a different state `s'`.
* `Program.total w loc` — the weights of the local states added up.
* `Program.trace sched s` — the run of an infinite schedule, state by state.
* `Program.Fair sched` — every thread is scheduled again and again.

## Main results

* `not_infinite_moves` — a rank lowered by every move of a reachable state
  excludes infinite runs of moves.
* `Reach.exists_of_rank` — a rank that can always be lowered leads to a good state.
* `Fair.exists_trace` — under a fair schedule every run comes to a good state, if
  every step lowers a rank and only good states have no step.
* `Fair.leads_to` — the response rule.
-/

namespace OpSys
namespace Program

variable {ι σ : Type*} {L : ι → Type*} [DecidableEq ι] (P : Program ι σ L)

/-- A step that changes the state of the system. -/
def Move (s s' : Global σ L) : Prop := P.Step s s' ∧ s' ≠ s

variable {P}

theorem Reach.tail_move {s₀ s s' : Global σ L} (h : P.Reach s₀ s) (hm : P.Move s s') :
    P.Reach s₀ s' :=
  Relation.ReflTransGen.tail h hm.1

theorem Reach.of_moves {s₀ s s' : Global σ L} (h : P.Reach s₀ s)
    (hm : Relation.ReflTransGen P.Move s s') : P.Reach s₀ s' := by
  induction hm with
  | refl => exact h
  | tail _ hlast ih => exact ih.tail_move hlast

section Rank

variable {s₀ : Global σ L} (rank : Global σ L → ℕ)
  (hrank : ∀ s s', P.Reach s₀ s → P.Move s s' → rank s' < rank s)

include hrank

/-- **No run of moves is infinite** when every move lowers a rank. -/
theorem not_infinite_moves :
    ¬ ∃ r : ℕ → Global σ L, P.Reach s₀ (r 0) ∧ ∀ n, P.Move (r n) (r (n + 1)) := by
  rintro ⟨r, hr₀, hr⟩
  have hreach : ∀ n, P.Reach s₀ (r n) := by
    intro n
    induction n with
    | zero => exact hr₀
    | succ n ih => exact ih.tail_move (hr n)
  -- the ranks along the run would descend for ever
  have hlt : ∀ n, rank (r (n + 1)) < rank (r n) := fun n => hrank _ _ (hreach n) (hr n)
  have hsum : ∀ n, rank (r n) + n ≤ rank (r 0) := by
    intro n
    induction n with
    | zero => simp
    | succ n ih =>
      have := hlt n
      omega
  have := hsum (rank (r 0) + 1)
  omega

end Rank

/-! ### Ranks that can be lowered -/

/-- If from every state that is not good some run lowers a rank, then some run leads to a
good state. -/
theorem Reach.exists_of_rank {s₀ s : Global σ L} {good : Global σ L → Prop}
    (rank : Global σ L → ℕ)
    (hrank : ∀ s, P.Reach s₀ s → ¬ good s → ∃ s', P.Reach s s' ∧ rank s' < rank s)
    (h : P.Reach s₀ s) : ∃ s', P.Reach s s' ∧ good s' := by
  induction hn : rank s using Nat.strong_induction_on generalizing s with
  | _ n ih =>
    by_cases hgood : good s
    · exact ⟨s, .refl s, hgood⟩
    · obtain ⟨s', hreach, hlt⟩ := hrank s h hgood
      obtain ⟨s'', hreach', hgood'⟩ := ih (rank s') (hn ▸ hlt) (h.trans hreach) rfl
      exact ⟨s'', hreach.trans hreach', hgood'⟩

section Total

variable [Fintype ι] (w : (t : ι) → L t → ℕ)

/-- The weights of the local states, added up. -/
def total (loc : (t : ι) → L t) : ℕ := ∑ t, w t (loc t)

/-- Only the weight of thread `t` changes. -/
theorem total_of_eq_off {t : ι} {loc loc' : (t : ι) → L t} (h : ∀ u, u ≠ t → loc' u = loc u) :
    total w loc' + w t (loc t) = total w loc + w t (loc' t) := by
  have hsum := Finset.add_sum_erase _ (fun u => w u (loc u)) (Finset.mem_univ t)
  have hsum' := Finset.add_sum_erase _ (fun u => w u (loc' u)) (Finset.mem_univ t)
  have hrest : ∑ u ∈ Finset.univ.erase t, w u (loc' u) =
      ∑ u ∈ Finset.univ.erase t, w u (loc u) := by
    apply Finset.sum_congr rfl
    intro u hu
    rw [h u (Finset.ne_of_mem_erase hu)]
  unfold total
  omega

end Total

/-! ### Fair schedules -/

section Fair

variable (P)

/-- The states of the run of an infinite schedule. -/
def trace (sched : ℕ → ι) (s : Global σ L) : ℕ → Global σ L
  | 0 => s
  | n + 1 => (P.next (sched n) (trace sched s n)).getD (trace sched s n)

/-- Every thread is scheduled again and again. -/
def Fair (sched : ℕ → ι) : Prop := ∀ t n, ∃ m, n ≤ m ∧ sched m = t

omit [DecidableEq ι] in
theorem exists_fair [Countable ι] [Nonempty ι] : ∃ sched : ℕ → ι, Fair sched := by
  obtain ⟨f, hf⟩ := exists_surjective_nat ι
  refine ⟨fun n => f n.unpair.1, fun t n => ?_⟩
  obtain ⟨a, rfl⟩ := hf t
  exact ⟨Nat.pair a n, Nat.right_le_pair a n, by simp [Nat.unpair_pair]⟩

variable {P}

theorem reach_trace (sched : ℕ → ι) (s : Global σ L) (n : ℕ) :
    P.Reach s (P.trace sched s n) := by
  induction n with
  | zero => exact .refl s
  | succ n ih =>
    unfold trace
    cases hnext : P.next (sched n) (P.trace sched s n) with
    | none => exact ih
    | some s' => exact ih.trans (Relation.ReflTransGen.single ⟨sched n, hnext⟩)

variable {sched : ℕ → ι} {s : Global σ L} {keep good : Global σ L → Prop}

/-- As long as nothing happens the state is the same; a thread that can step will be
scheduled. -/
theorem Fair.exists_step (hfair : Fair sched) {t : ι} {n : ℕ}
    (hcan : P.next t (P.trace sched s n) ≠ none) :
    ∃ m, n ≤ m ∧ P.Step (P.trace sched s n) (P.trace sched s (m + 1)) := by
  obtain ⟨m, hm, ht⟩ := hfair t n
  by_contra hno
  push Not at hno
  have hsame : ∀ j, n ≤ j → j ≤ m → P.trace sched s j = P.trace sched s n := by
    intro j hj hjm
    induction j, hj using Nat.le_induction with
    | base => rfl
    | succ j hj ih =>
      have hj' := ih (by omega)
      show (P.next (sched j) (P.trace sched s j)).getD (P.trace sched s j) = _
      cases hnext : P.next (sched j) (P.trace sched s j) with
      | none => exact hj'
      | some s' =>
        refine absurd ⟨sched j, ?_⟩ (hno j hj)
        rw [← hj', hnext]
        simp only [trace, hnext, Option.getD_some]
  obtain ⟨s', hs'⟩ := Option.ne_none_iff_exists'.mp hcan
  refine hno m hm ⟨t, ?_⟩
  rw [hs']
  simp only [trace, ht, hsame m hm le_rfl, hs', Option.getD_some]

/-- **Fair schedules lead to a good state**, if every step lowers a rank and every state that
is not good has a step. -/
theorem Fair.exists_trace (hfair : Fair sched) (rank : Global σ L → ℕ)
    (hkeep : ∀ s s', keep s → P.Step s s' → keep s' ∧ rank s' < rank s)
    (hcan : ∀ s, keep s → ¬ good s → ∃ t, P.next t s ≠ none) (hs : keep s) :
    ∃ n, good (P.trace sched s n) := by
  have key : ∀ r n, keep (P.trace sched s n) → rank (P.trace sched s n) = r →
      ∃ n, good (P.trace sched s n) := by
    intro r
    induction r using Nat.strong_induction_on with
    | _ r ih =>
      intro n hn hr
      by_cases hgood : good (P.trace sched s n)
      · exact ⟨n, hgood⟩
      · obtain ⟨t, ht⟩ := hcan _ hn hgood
        obtain ⟨m, -, hstep⟩ := hfair.exists_step ht
        obtain ⟨hm, hlt⟩ := hkeep _ _ hn hstep
        exact ih _ (hr ▸ hlt) (m + 1) hm rfl
  exact key _ 0 hs rfl

/-- **The response rule** where threads poll: short of the goal some thread helps, whose step
lowers a rank, and the others lower it as well or leave it and the helpers alone. -/
theorem Fair.leads_to (hfair : Fair sched) (rank : Global σ L → ℕ)
    (helps : Global σ L → ι → Prop)
    (hcan : ∀ s, keep s → ¬good s → ∃ t, helps s t)
    (hnext : ∀ t s, keep s → ¬good s → helps s t → ∃ s', P.next t s = some s')
    (hstep : ∀ t s s', keep s → ¬good s → P.next t s = some s' →
      good s' ∨ keep s' ∧ (rank s' < rank s ∨
        rank s' = rank s ∧ ¬helps s t ∧ ∀ u, helps s u → helps s' u))
    {n : ℕ} (hn : keep (P.trace sched s n)) : ∃ m, n ≤ m ∧ good (P.trace sched s m) := by
  induction hr : rank (P.trace sched s n) using Nat.strong_induction_on generalizing n with
  | _ r ih =>
    by_contra hnever
    push Not at hnever
    -- a step that lowers the rank would bring the program to the goal
    have hsteps : ∀ j, n ≤ j → keep (P.trace sched s j) → rank (P.trace sched s j) = r →
        ∀ s', P.next (sched j) (P.trace sched s j) = some s' →
          P.trace sched s (j + 1) = s' ∧ keep s' ∧ rank s' = r ∧
            ¬helps (P.trace sched s j) (sched j) ∧
            ∀ u, helps (P.trace sched s j) u → helps s' u := by
      intro j hj hkeep hrank s' hs'
      have htrace : P.trace sched s (j + 1) = s' := by
        rw [Program.trace, hs']
        rfl
      rcases hstep _ _ _ hkeep (hnever j hj) hs' with hgood | ⟨hkeep', hlt | ⟨hsame, hno, hstill⟩⟩
      · exact absurd (htrace ▸ hgood) (hnever (j + 1) (by omega))
      · rw [← htrace] at hkeep' hlt
        obtain ⟨m, hm, hgood⟩ := ih _ (hrank ▸ hlt) hkeep' rfl
        exact absurd hgood (hnever m (by omega))
      · exact ⟨htrace, hkeep', hsame.trans hrank, hno, hstill⟩
    obtain ⟨t, ht⟩ := hcan _ hn (hnever n le_rfl)
    obtain ⟨m, hm, hturn⟩ := hfair t n
    have hwait : ∀ j, n ≤ j → keep (P.trace sched s j) ∧ rank (P.trace sched s j) = r ∧
        helps (P.trace sched s j) t := by
      intro j hj
      induction j, hj using Nat.le_induction with
      | base => exact ⟨hn, hr, ht⟩
      | succ j hj ihj =>
        obtain ⟨hkeep, hrank, hhelps⟩ := ihj
        cases hs' : P.next (sched j) (P.trace sched s j) with
        | none =>
          rw [Program.trace, hs']
          exact ⟨hkeep, hrank, hhelps⟩
        | some s' =>
          obtain ⟨htrace, hkeep', hrank', -, hstill⟩ := hsteps j hj hkeep hrank s' hs'
          rw [htrace]
          exact ⟨hkeep', hrank', hstill t hhelps⟩
    obtain ⟨hkeep, hrank, hhelps⟩ := hwait m hm
    obtain ⟨s', hs'⟩ := hnext t _ hkeep (hnever m hm) hhelps
    obtain ⟨-, -, -, hno, -⟩ := hsteps m hm hkeep hrank s' (hturn ▸ hs')
    exact hno (hturn ▸ hhelps)

end Fair

end Program
end OpSys
