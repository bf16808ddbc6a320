import Mathlib.Data.List.Infix
import Mathlib.Data.Nat.Notation

/-!
# Processes in a row

Processes that stand in a row, each waiting only for its neighbours, and what is known of
one that was told the same things as another.  A log has its newest entry first, so an
older log is a suffix of a newer one.

## Main results

* `Chain.forall_not_live` — if nobody waits for a neighbour that waits for him, somebody
  in the row can go on.
* `Logs.suffix_or_suffix` — two logs that agree wherever both go on are comparable.
-/

namespace OpSys

namespace Chain

/-- **A row does not block.**  If every live process waits for a live neighbour on its left
or its right, and no two wait for each other, then there is no live process. -/
theorem forall_not_live (m : ℕ) (live left right : ℕ → Prop)
    (hwaits : ∀ i, i < m → live i → left i ∨ right i)
    (hleft : ∀ i, i < m → left i → 0 < i ∧ live (i - 1))
    (hright : ∀ i, i < m → right i → i + 1 < m ∧ live (i + 1) ∧ ¬left (i + 1)) :
    ∀ i, i < m → ¬live i := by
  -- a process that waits to the right makes all behind it do so, and there is a last one
  have hlast : ∀ d i, m - i = d → i < m → ¬right i := by
    intro d
    induction d with
    | zero =>
      intro i hd hi
      omega
    | succ d ih =>
      intro i hd hi hr
      obtain ⟨hlt, hlive, hnot⟩ := hright i hi hr
      have hnext : right (i + 1) := (hwaits _ hlt hlive).resolve_left hnot
      exact ih (i + 1) (by omega) hlt hnext
  -- so all wait to the left, and there is a first one
  intro i
  induction i with
  | zero =>
    intro hi hlive
    rcases hwaits 0 hi hlive with hl | hr
    · exact absurd (hleft 0 hi hl).1 (lt_irrefl _)
    · exact hlast _ 0 rfl hi hr
  | succ i ih =>
    intro hi hlive
    rcases hwaits _ hi hlive with hl | hr
    · exact ih (by omega) (hleft _ hi hl).2
    · exact hlast _ _ rfl hi hr

end Chain

namespace Logs

variable {α : Type*} {log log' : List α}

/-- **Two logs that agree wherever both go on are comparable.** -/
theorem suffix_or_suffix (h : ∀ a b p, (a :: p) <:+ log → (b :: p) <:+ log' → a = b) :
    log <:+ log' ∨ log' <:+ log := by
  induction log with
  | nil => exact Or.inl (List.nil_suffix)
  | cons a p ih =>
    have hp : ∀ a' b q, (a' :: q) <:+ p → (b :: q) <:+ log' → a' = b := by
      intro a' b q hq
      exact h a' b q (hq.trans (List.suffix_cons a p))
    rcases ih hp with hle | hge
    · obtain ⟨l, rfl⟩ := hle
      rcases List.eq_nil_or_concat' l with rfl | ⟨l, b, rfl⟩
      · exact Or.inr (List.suffix_cons a p)
      · have hb : (b :: p) <:+ l ++ [b] ++ p := ⟨l, by simp⟩
        obtain rfl := h a b p List.suffix_rfl hb
        exact Or.inl hb
    · exact Or.inr (hge.trans (List.suffix_cons a p))

end Logs

end OpSys
