import OpSys.ProdCons.Sem.Reach

/-!
# The lines are taken in the order of the claims

## Main definitions

* `Orderly` — no slot is overwritten or read too early, and the takes match the claims
  one to one and in order.

## Main results

* `linesInOrder_run` — every state of every run is orderly.
-/

namespace OpSys
namespace ProdCons
namespace Sem

variable {cfg : Config}

/-- The slot to which a producer is copying its line. -/
def copyingTo : Produce cfg → Option (Fin cfg.N)
  | .readDst _ idx => some idx
  | .copy idx _ _ => some idx
  | _ => none

/-- What holds of the slots and of the takes. -/
structure Orderly (s : Global (Mem cfg × Books cfg) (Local cfg)) : Prop where
  /-- No producer stores into a slot that is not `NULL`. -/
  store : ∀ p line idx, s.loc (.prod p) = .store line idx →
    s.mem.1.sharedResource idx = none
  /-- No consumer takes a slot that is `NULL` or whose line is still being copied. -/
  take : ∀ k idx, s.loc (.cons k) = .readLine idx →
    s.mem.1.sharedResource idx ≠ none ∧ ∀ p, copyingTo (s.loc (.prod p)) ≠ some idx
  /-- The `n`-th take is that of the `n`-th advance of `curr_cons` and returns exactly the
  line for which `curr_prod` was advanced the `n`-th time. -/
  order : ∀ (n : ℕ) x, s.mem.2.takes[n]? = some x →
    x.turn = n ∧ s.mem.2.advances[n]? = some x.taker ∧
    ∃ p i line, s.mem.2.claims[n]? = some (p, i) ∧ s.mem.2.lines[i]? = some (p, line) ∧
      x.text = some (Stdio.strcpyBytes line)
  /-- No line has two claims. -/
  once : ∀ (n n' : ℕ) p p' i, s.mem.2.claims[n]? = some (p, i) →
    s.mem.2.claims[n']? = some (p', i) → n = n'
  /-- At most `N` claimed lines are outstanding. -/
  outstanding : s.mem.2.claims.length ≤ s.mem.2.takes.length + cfg.N

theorem orderly_of_reach {text : List UInt8} {s : Global (Mem cfg × Books cfg) (Local cfg)}
    (h : (booked cfg).Reach (bookStart cfg text) s) : Orderly s := by
  obtain ⟨hinv, hknows⟩ := knows_of_reach h
  refine ⟨?_, ?_, ?_, fun n n' p p' i => hinv.accounts.claim_once, hinv.claims_lt_window⟩
  · intro p line idx hloc
    have hstage : ProdKnows p s.mem.1 s.mem.2 (s.loc (.prod p)) := hknows (.prod p)
    rw [hloc] at hstage
    obtain ⟨-, hp, -⟩ := hstage
    -- the claim has no block, and its slot shows that
    have hle := hinv.takes_le hp.block
    have hlt := (List.getElem?_eq_some_iff.mp hp.claimed.claimed).1
    have hwindow := hinv.claims_lt_window
    have hshows := hinv.shows _ hle (lt_of_lt_of_le hlt hwindow)
    rw [hp.idx_eq]
    exact hshows.trans hp.block
  · intro k idx hloc
    have hstage : ConsKnows k s.mem.1 s.mem.2 (s.loc (.cons k)) := hknows (.cons k)
    rw [hloc] at hstage
    obtain ⟨-, hturn, hslot⟩ := hstage
    constructor
    · rw [hturn.idx_eq, hinv.current_slot]
      exact hturn.block
    · intro p hcopy
      have hprod : ProdKnows p s.mem.1 s.mem.2 (s.loc (.prod p)) := hknows (.prod p)
      -- whoever copies to the slot holds its semaphore
      have hheld : s.mem.2.holder (.slot idx) = some (.prod p) := by
        obtain ⟨-, hprod⟩ := hprod
        cases hl : s.loc (.prod p) with
        | readDst line idx' =>
          rw [hl] at hprod hcopy
          obtain ⟨q, hf, -⟩ := hprod
          rw [← Option.some.inj hcopy]
          exact hf.holds
        | copy idx' dst rest =>
          rw [hl] at hprod hcopy
          obtain ⟨line, hf, -⟩ := hprod
          rw [← Option.some.inj hcopy]
          exact hf.holds
        | _ =>
          rw [hl] at hcopy
          exact absurd hcopy (Option.some_ne_none idx).symm
      rw [hslot] at hheld
      exact absurd (Option.some.inj hheld) (by simp)
  · intro n x hx
    obtain ⟨hn, hmine, p, i, line, q, hclaim, hline, -, -, htext⟩ := hinv.takes n x hx
    exact ⟨hn, hmine, p, i, line, hclaim, hline, htext⟩

/-- **The lines are taken in the order of the claims**, in every state of every run:
no slot is overwritten, none is read before its line is complete, the `n`-th take
returns the line of the `n`-th claim, and at most `N` claims are outstanding. -/
theorem linesInOrder_run (cfg : Config) (text : List UInt8) (sched : List (Thread cfg)) :
    Orderly ((booked cfg).run sched (bookStart cfg text)) :=
  orderly_of_reach ((booked cfg).reach_run sched _)

end Sem
end ProdCons
end OpSys
