import Mathlib.Data.List.Basic

/-!
# Ledgers

A ledger is a list to which the threads of a program append entries of their own.
What one thread has entered does not change when another appends.

## Main definitions

* `Ledger.Grows mine xs ys` — `ys` is `xs` with some entries that are `mine`.

## Main results

* `Ledger.Grows.getElem?_eq_some`, `Ledger.Grows.of_not_mine` — old entries stay,
  and an entry of somebody else is an old one.
-/

namespace OpSys
namespace Ledger

variable {α : Type*} {mine : α → Prop} {xs ys : List α}

/-- `ys` is `xs` with some more entries, all of them `mine`. -/
def Grows (mine : α → Prop) (xs ys : List α) : Prop :=
  ∃ zs, ys = xs ++ zs ∧ ∀ z ∈ zs, mine z

theorem Grows.refl (mine : α → Prop) (xs : List α) : Grows mine xs xs :=
  ⟨[], by simp, by simp⟩

theorem Grows.append_singleton {a : α} (xs : List α) (ha : mine a) :
    Grows mine xs (xs ++ [a]) :=
  ⟨[a], rfl, by simpa using ha⟩

/-- Old entries stay where they are. -/
theorem Grows.getElem?_eq_some (h : Grows mine xs ys) {i : ℕ} {a : α} (hi : xs[i]? = some a) :
    ys[i]? = some a := by
  obtain ⟨zs, rfl, -⟩ := h
  obtain ⟨hlt, -⟩ := List.getElem?_eq_some_iff.mp hi
  rw [List.getElem?_append_left hlt]
  exact hi

/-- An entry that is not mine was there before. -/
theorem Grows.of_not_mine (h : Grows mine xs ys) {i : ℕ} {a : α} (hi : ys[i]? = some a)
    (ha : ¬ mine a) : xs[i]? = some a := by
  obtain ⟨zs, rfl, hmine⟩ := h
  by_cases hlt : i < xs.length
  · rwa [List.getElem?_append_left hlt] at hi
  · rw [List.getElem?_append_right (Nat.not_lt.mp hlt)] at hi
    exact absurd (hmine a (List.mem_of_getElem? hi)) ha

theorem Grows.length_le (h : Grows mine xs ys) : xs.length ≤ ys.length := by
  obtain ⟨zs, rfl, -⟩ := h
  simp

theorem Grows.mem (h : Grows mine xs ys) {a : α} (ha : a ∈ xs) : a ∈ ys := by
  obtain ⟨zs, rfl, -⟩ := h
  exact List.mem_append_left zs ha

/-- An entry of a ledger that has just got `a` is an old one, or `a` at the end. -/
theorem getElem?_append_singleton {a b : α} {i : ℕ} (h : (xs ++ [a])[i]? = some b) :
    xs[i]? = some b ∨ (i = xs.length ∧ b = a) := by
  by_cases hlt : i < xs.length
  · rw [List.getElem?_append_left hlt] at h
    exact Or.inl h
  · rw [List.getElem?_append_right (Nat.not_lt.mp hlt)] at h
    have hi : i - xs.length = 0 := by
      by_contra hne
      simp [hne] at h
    rw [hi] at h
    exact Or.inr ⟨by omega, (Option.some.inj h).symm⟩

end Ledger
end OpSys
