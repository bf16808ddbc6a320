import Mathlib.Data.Nat.Pairing
import OpSys.Lib.Machine

/-!
# Just histories

An infinite history of a machine is just to a kind of events if these are not passed over
for ever: again and again one of them occurs, or none of them can.  Such a history brings
the machine to its goal if, short of it, an event of the kind can always occur and lowers a
rank, and no other event raises the rank.

## Main definitions

* `Machine.trace es s` — the run of an infinite history, state by state.
* `Machine.Enabled kind s`, `Machine.Just kind es s` — an event of the kind can occur; the
  history is just to the kind.
* `upTo p xs` — how far a list goes up to the last element with a property.

## Main results

* `trace_watch` — an observer sees the same history.
* `Just.leads_to` — the response rule.
* `exists_just` — some history is just to all of countably many kinds.
-/

namespace OpSys
namespace Machine

variable {ε σ : Type*} (M : Machine ε σ)

/-- The states of the run of an infinite history. -/
def trace (es : ℕ → ε) (s : σ) : ℕ → σ
  | 0 => s
  | n + 1 => (M.step (es n) (trace es s n)).getD (trace es s n)

/-- An event of the kind can occur. -/
def Enabled (kind : ε → Prop) (s : σ) : Prop := ∃ e s', kind e ∧ M.step e s = some s'

/-- Again and again an event of the kind occurs, or none can. -/
def Just (kind : ε → Prop) (es : ℕ → ε) (s : σ) : Prop :=
  ∀ n, ∃ m, n ≤ m ∧
    (kind (es m) ∧ (M.step (es m) (M.trace es s m)).isSome ∨ ¬M.Enabled kind (M.trace es s m))

variable {M} {kind : ε → Prop} {es : ℕ → ε} {s : σ}

theorem trace_invariant {I : σ → Prop} (hstep : ∀ e s s', I s → M.step e s = some s' → I s')
    (es : ℕ → ε) (hs : I s) (n : ℕ) : I (M.trace es s n) := by
  induction n with
  | zero => exact hs
  | succ n ih =>
    rw [trace]
    cases hnext : M.step (es n) (M.trace es s n) with
    | none => exact ih
    | some s' => exact hstep _ _ _ ih hnext

/-- An observer that forbids nothing leaves the history as it is. -/
theorem trace_watch {ω : Type*} {allowed : ε → σ → ω → Bool} {see : ε → σ → ω → ω}
    (hall : ∀ e s o, allowed e s o = true) (es : ℕ → ε) (w : σ × ω) (n : ℕ) :
    ((M.watch allowed see).trace es w n).1 = M.trace es w.1 n := by
  induction n with
  | zero => rfl
  | succ n ih =>
    rw [trace, trace, watch_next hall, ih]

/-- **The response rule.** -/
theorem Just.leads_to (hjust : M.Just kind es s) (keep good : σ → Prop) (rank : σ → ℕ)
    (hcan : ∀ s, keep s → ¬good s → M.Enabled kind s)
    (hstep : ∀ e s s', keep s → ¬good s → M.step e s = some s' →
      good s' ∨ keep s' ∧ rank s' ≤ rank s ∧ (kind e → rank s' < rank s))
    {n : ℕ} (hn : keep (M.trace es s n)) : ∃ m, n ≤ m ∧ good (M.trace es s m) := by
  induction hr : rank (M.trace es s n) using Nat.strong_induction_on generalizing n with
  | _ r ih =>
    by_contra hnever
    push Not at hnever
    -- until the next event of the kind the machine goes on without a rise of the rank
    have hnext : ∀ j, n ≤ j → keep (M.trace es s j) → ∀ s',
        M.step (es j) (M.trace es s j) = some s' → M.trace es s (j + 1) = s' ∧
          keep s' ∧ rank s' ≤ rank (M.trace es s j) ∧
            (kind (es j) → rank s' < rank (M.trace es s j)) := by
      intro j hj hkeep s' hs'
      have htrace : M.trace es s (j + 1) = s' := by
        rw [trace, hs']
        rfl
      refine ⟨htrace, (hstep _ _ _ hkeep (hnever j hj) hs').resolve_left fun hgood => ?_⟩
      exact hnever (j + 1) (by omega) (htrace ▸ hgood)
    have hkeep : ∀ j, n ≤ j → keep (M.trace es s j) ∧ rank (M.trace es s j) ≤ r := by
      intro j hj
      induction j, hj using Nat.le_induction with
      | base => exact ⟨hn, hr.le⟩
      | succ j hj ihj =>
        cases hs' : M.step (es j) (M.trace es s j) with
        | none =>
          rw [trace, hs']
          exact ihj
        | some s' =>
          obtain ⟨htrace, hkeep', hle, -⟩ := hnext j hj ihj.1 s' hs'
          rw [htrace]
          exact ⟨hkeep', hle.trans ihj.2⟩
    obtain ⟨m, hm, ⟨hkind, hoccurs⟩ | hnone⟩ := hjust n
    · obtain ⟨s', hs'⟩ := Option.isSome_iff_exists.mp hoccurs
      obtain ⟨htrace, hkeep', -, hlt⟩ := hnext m hm (hkeep m hm).1 s' hs'
      have hrank : rank (M.trace es s (m + 1)) < r := by
        rw [htrace]
        exact (hlt hkind).trans_le (hkeep m hm).2
      obtain ⟨k, hk, hgood⟩ := ih _ hrank (htrace ▸ hkeep') rfl
      exact hnever k (by omega) hgood
    · exact hnone (hcan _ (hkeep m hm).1 (hnever m hm))

/-! ### Just histories exist -/

section Exists

variable (M) [Nonempty ε] (kinds : ℕ → ε → Prop)

open Classical in
/-- An event of the kind, if one can occur. -/
noncomputable def pick (kind : ε → Prop) (s : σ) : ε :=
  if h : M.Enabled kind s then h.choose else Classical.arbitrary ε

/-- The states of a run in which every kind has its turn again and again. -/
noncomputable def turns (s : σ) : ℕ → σ
  | 0 => s
  | n + 1 => (M.step (M.pick (kinds n.unpair.1) (turns s n)) (turns s n)).getD (turns s n)

variable {M} {kinds}

theorem pick_spec (h : M.Enabled kind s) :
    kind (M.pick kind s) ∧ (M.step (M.pick kind s) s).isSome := by
  obtain ⟨s', hkind, hs'⟩ := h.choose_spec
  rw [pick, dif_pos h]
  exact ⟨hkind, Option.isSome_iff_exists.mpr ⟨s', hs'⟩⟩

/-- **Some history is just** to each of the kinds. -/
theorem exists_just (kinds : ℕ → ε → Prop) (s : σ) : ∃ es, ∀ k, M.Just (kinds k) es s := by
  have htrace : ∀ n, M.trace (fun n => M.pick (kinds n.unpair.1) (M.turns kinds s n)) s n =
      M.turns kinds s n := by
    intro n
    induction n with
    | zero => rfl
    | succ n ih => rw [trace, turns, ih]
  refine ⟨fun n => M.pick (kinds n.unpair.1) (M.turns kinds s n), fun k n => ?_⟩
  refine ⟨Nat.pair k n, Nat.right_le_pair k n, ?_⟩
  rw [htrace]
  by_cases hcan : M.Enabled (kinds k) (M.turns kinds s (Nat.pair k n))
  · left
    dsimp only
    rw [Nat.unpair_pair]
    exact pick_spec hcan
  · exact .inr hcan

end Exists

end Machine

/-! ### Waiting in a queue -/

section UpTo

variable {α : Type*} (p : α → Bool)

/-- How far the list goes up to the last element with the property. -/
def upTo : List α → ℕ
  | [] => 0
  | x :: xs => if p x ∨ 0 < upTo xs then upTo xs + 1 else 0

variable {p}

theorem upTo_pos {x : α} {xs : List α} (hx : x ∈ xs) (hp : p x = true) : 0 < upTo p xs := by
  induction xs with
  | nil => exact absurd hx List.not_mem_nil
  | cons y ys ih =>
    rw [upTo]
    rcases List.mem_cons.mp hx with rfl | hx
    · rw [if_pos (.inl hp)]
      omega
    · rw [if_pos (.inr (ih hx))]
      omega

/-- The first element is taken. -/
theorem upTo_cons {x : α} {xs : List α} (h : 0 < upTo p (x :: xs)) :
    upTo p (x :: xs) = upTo p xs + 1 := by
  rw [upTo] at h ⊢
  split at h
  · rename_i hx
    rw [if_pos hx]
  · omega

/-- Another element joins the queue. -/
theorem upTo_concat {x : α} (hp : p x = false) (xs : List α) :
    upTo p (xs ++ [x]) = upTo p xs := by
  induction xs with
  | nil => simp [upTo, hp]
  | cons y ys ih => rw [List.cons_append, upTo, upTo, ih]

end UpTo

end OpSys
