import Mathlib.Logic.Function.Basic
import Mathlib.Data.Nat.ModEq

/-!
# Cyclic arrays

Users of a cyclic array of `N` places number their turns `0, 1, 2, …`; turn `j`
goes to place `j % N`.  As long as the turns in progress lie in a window of `N`
consecutive numbers, no two of them share a place.

## Main definitions

* `Ring.place hN j` — the place of turn `j`.
* `Ring.next hN i` — the place after `i`, as a cursor computes it.
* `Ring.Shows` — the array shows what belongs to the turns of a window.

## Main results

* `Ring.next_place` — the cursor moves on to the place of the next turn.
* `Ring.place_inj` — turns of one window have different places.
* `Ring.Shows.put`, `Ring.Shows.take` — the window under writes to the array.
-/

namespace OpSys
namespace Ring

variable {N : ℕ}

/-- The place of turn `j`. -/
def place (hN : 0 < N) (j : ℕ) : Fin N := ⟨j % N, Nat.mod_lt j hN⟩

/-- The place after `i`: `(i + 1) % N`. -/
def next (hN : 0 < N) (i : Fin N) : Fin N := ⟨(i + 1) % N, Nat.mod_lt _ hN⟩

theorem next_place (hN : 0 < N) (j : ℕ) : next hN (place hN j) = place hN (j + 1) := by
  apply Fin.ext
  simp only [next, place]
  rw [Nat.mod_add_mod]

theorem place_eq_iff (hN : 0 < N) {j j' : ℕ} :
    place hN j = place hN j' ↔ j ≡ j' [MOD N] := by
  simp [place, Fin.ext_iff, Nat.ModEq]

@[simp] theorem place_add_size (hN : 0 < N) (j : ℕ) : place hN (j + N) = place hN j := by
  simp [place]

/-- Turns of one window have different places. -/
theorem place_inj (hN : 0 < N) {lo j j' : ℕ} (hj : lo ≤ j) (hjN : j < lo + N) (hj' : lo ≤ j')
    (hjN' : j' < lo + N) (h : place hN j = place hN j') : j = j' := by
  rw [place_eq_iff] at h
  rcases le_total j j' with hle | hle
  · exact (h.symm.eq_of_abs_lt (by grind)).symm
  · exact h.eq_of_abs_lt (by grind)

/-- Every place has a turn in every window. -/
theorem exists_place (hN : 0 < N) (lo : ℕ) (i : Fin N) :
    ∃ j, lo ≤ j ∧ j < lo + N ∧ place hN j = i := by
  have hlt : (i + N - lo % N) % N < N := Nat.mod_lt _ hN
  refine ⟨lo + (i + N - lo % N) % N, by omega, by omega, Fin.ext ?_⟩
  have hi := i.isLt
  have hmod := Nat.mod_lt lo hN
  have hdiv := Nat.div_add_mod lo N
  -- the distance from `lo` brings the remainder of `lo` up to `i`
  have hsum : lo + (i + N - lo % N) = i + N * (lo / N + 1) := by
    rw [Nat.mul_add]
    omega
  show (lo + (i + N - lo % N) % N) % N = i
  rw [Nat.add_mod_mod, hsum, Nat.add_mul_mod_self_left, Nat.mod_eq_of_lt hi]

/-! ### What the array shows -/

section Shows

variable {α : Type*} (hN : 0 < N)

/-- The array `slots` shows what belongs to the turns from `lo` on, `N` of them. -/
def Shows (slots : Fin N → Option α) (lo : ℕ) (belongs : ℕ → Option α) : Prop :=
  ∀ j, lo ≤ j → j < lo + N → slots (place hN j) = belongs j

variable {hN} {slots : Fin N → Option α} {lo : ℕ} {belongs : ℕ → Option α}

/-- Something is put at the place of a turn of the window. -/
theorem Shows.put (h : Shows hN slots lo belongs) {j : ℕ} (hj : lo ≤ j) (hjN : j < lo + N)
    (a : Option α) :
    Shows hN (Function.update slots (place hN j) a) lo (Function.update belongs j a) := by
  intro i hi hiN
  by_cases hij : i = j
  · subst hij
    simp
  · have hne : place hN i ≠ place hN j := fun h => hij (place_inj hN hi hiN hj hjN h)
    rw [Function.update_of_ne hne, Function.update_of_ne hij]
    exact h i hi hiN

/-- The place of the first turn is emptied, and the window moves on by one. -/
theorem Shows.take (h : Shows hN slots lo belongs) (hnone : belongs (lo + N) = none) :
    Shows hN (Function.update slots (place hN lo) none) (lo + 1) belongs := by
  intro i hi hiN
  by_cases hlast : i = lo + N
  · subst hlast
    rw [place_add_size, Function.update_self, hnone]
  · have hne : place hN i ≠ place hN lo := by
      intro heq
      have := place_inj hN (by omega) (by omega) le_rfl (by omega) heq
      omega
    rw [Function.update_of_ne hne]
    exact h i (by omega) (by omega)

end Shows

end Ring
end OpSys
