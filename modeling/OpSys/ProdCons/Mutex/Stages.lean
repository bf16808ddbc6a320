import OpSys.ProdCons.Mutex.Runs

/-!
# Runs of the system

Runs that lead to the states in question are put together from stages: lines are
stored and taken one after another, the slots are filled, and after the end of the
file the producers and the consumers return.

## Main definitions

* `Busy left` — the producers are between two lines, and `left` lines are still in
  the file.
* `Filled c n left` — moreover `c` lines have been taken and `n` are in the slots.
* `Over` — the producers have returned and the main thread waits for the consumers.

## Main results

* `exists_filled` — every number of lines can be taken and then stored.
* `Busy.over` — the producers return.
* `leave_all` — consumers return that find an empty slot.
-/

namespace OpSys
namespace ProdCons
namespace Mutex

variable {cfg : Config} (spurious : Bool) {text : List UInt8} {left c n : ℕ}
  {s s' : Global (Mem cfg) (Local cfg)}

/-! ### Storing and taking -/

/-- The producers are between two lines, `left` lines are still in the file, and no thread
is asleep or has returned. -/
structure Busy (left : ℕ) (s : Global (Mem cfg) (Local cfg)) : Prop where
  main : s.loc .main = .joinProd 0
  prods : ∀ p, s.loc (.prod p) = .fgets
  lines : (Stdio.fileLines lineMax s.mem.file).length = left
  awake : ∀ t, s.mem.asleep t = none
  done : s.mem.doneProducing = false
  exited : ∀ t, s.mem.exited t = false

/-- A consumer does not disturb the producers. -/
theorem Busy.frame (h : Busy left s) {k : Fin cfg.K}
    (hothers : ∀ u, u ≠ .cons k → s'.loc u = s.loc u) (hmem : Undisturbed s.mem s'.mem) :
    Busy left s' := by
  refine ⟨?_, ?_, ?_, ?_, ?_, ?_⟩
  · rw [hothers _ (by simp)]
    exact h.main
  · intro p
    rw [hothers _ (by simp)]
    exact h.prods p
  · rw [hmem.file]
    exact h.lines
  · exact fun t => hmem.asleep t (h.awake t)
  · rw [hmem.done]
    exact h.done
  · rw [hmem.exited]
    exact h.exited

/-- A producer stores the next line. -/
theorem Busy.store (h : Busy (left + 1) s) (p : Fin cfg.P) (hprod : s.mem.owner .prod = none)
    (hslot : s.mem.owner (.slot s.mem.currProd) = none)
    (hempty : s.mem.sharedResource s.mem.currProd = none) :
    ∃ s', (program cfg spurious).Reach s s' ∧ Busy left s' ∧
      (∃ rest, Produced rest s.mem s'.mem) ∧ ∀ k, s'.loc (.cons k) = s.loc (.cons k) := by
  have hlines := h.lines
  cases hline : Stdio.fgets lineMax s.mem.file with
  | none =>
    rw [Stdio.fgets_eq_none_iff.mp hline, Stdio.fileLines_nil, List.length_nil] at hlines
    omega
  | some r =>
    obtain ⟨line, rest⟩ := r
    rw [Stdio.fileLines_of_fgets (by decide) hline, List.length_cons] at hlines
    obtain ⟨m', hrun, hm'⟩ := solo_produce spurious p hline hprod hslot hempty
    obtain ⟨s', hreach, rfl, hloc, hothers⟩ := hrun.exists_reach (h.prods p)
    refine ⟨s', hreach, ⟨?_, ?_, ?_, ?_, ?_, ?_⟩, ⟨rest, hm'⟩, fun k => hothers _ (by simp)⟩
    · rw [hothers _ (by simp)]
      exact h.main
    · intro p'
      by_cases hp : p' = p
      · rw [hp]
        exact hloc
      · rw [hothers _ (by simpa using hp)]
        exact h.prods p'
    · rw [hm'.file]
      omega
    · exact fun t => hm'.asleep t (h.awake t)
    · rw [hm'.done]
      exact h.done
    · rw [hm'.exited]
      exact h.exited

/-- Of the lines read so far `c` have been taken and `n` are in the slots; no consumer has a
turn. -/
structure Filled (c n left : ℕ) (s : Global (Mem cfg) (Local cfg)) : Prop
    extends Busy left s where
  consumers : ∀ k, s.loc (.cons k) = .lockCons
  owner : ∀ x, s.mem.owner x = none
  currProd : s.mem.currProd = cfg.slot (c + n)
  currCons : s.mem.currCons = cfg.slot c
  full : ∀ j, j < n → s.mem.sharedResource (cfg.slot (c + j)) ≠ none
  rest : ∀ j, n ≤ j → j < cfg.N → s.mem.sharedResource (cfg.slot (c + j)) = none

/-- Different turns of one window have different slots. -/
theorem slot_inj {j j' : ℕ} (hj : j < cfg.N) (hj' : j' < cfg.N)
    (h : cfg.slot (c + j) = cfg.slot (c + j')) : j = j' := by
  have := Ring.place_inj cfg.N_pos (Nat.le_add_right c j) (by omega) (Nat.le_add_right c j')
    (by omega) h
  omega

@[simp] theorem slot_add_size (c : ℕ) : cfg.slot (c + cfg.N) = cfg.slot c :=
  Ring.place_add_size cfg.N_pos c

/-- The next line goes into the next slot. -/
theorem Filled.store (h : Filled c n (left + 1) s) (hn : n < cfg.N) (p : Fin cfg.P) :
    ∃ s', (program cfg spurious).Reach s s' ∧ Filled c (n + 1) left s' := by
  have hempty : s.mem.sharedResource s.mem.currProd = none := by
    rw [h.currProd]
    exact h.rest n le_rfl hn
  obtain ⟨s', hreach, hbusy, ⟨rest, hm'⟩, hcons⟩ :=
    h.toBusy.store spurious p (h.owner _) (h.owner _) hempty
  have hslots := hm'.slots
  rw [h.currProd] at hslots
  refine ⟨s', hreach, hbusy, ?_, ?_, ?_, ?_, ?_, ?_⟩
  · intro k
    rw [hcons]
    exact h.consumers k
  · rw [hm'.owner]
    exact h.owner
  · rw [hm'.currProd, h.currProd, cfg.next_slot, Nat.add_assoc]
  · rw [hm'.currCons, h.currCons]
  · intro j hj
    rw [hslots]
    by_cases hjn : j = n
    · rw [hjn, Function.update_self]
      exact Option.some_ne_none _
    · rw [Function.update_of_ne fun heq => hjn (slot_inj (by omega) hn heq)]
      exact h.full j (by omega)
  · intro j hj hjN
    have hne : cfg.slot (c + j) ≠ cfg.slot (c + n) := by
      intro heq
      have := slot_inj hjN hn heq
      omega
    rw [hslots, Function.update_of_ne hne]
    exact h.rest j (by omega) hjN

/-- The only line in the slots is taken. -/
theorem Filled.pass (h : Filled c 1 left s) (k : Fin cfg.K) :
    ∃ s', (program cfg spurious).Reach s s' ∧ Filled (c + 1) 0 left s' := by
  have hfull : s.mem.sharedResource s.mem.currCons ≠ none := by
    rw [h.currCons]
    exact h.full 0 Nat.one_pos
  obtain ⟨m', hrun, hm'⟩ := solo_consume spurious k (h.owner _) (h.owner _) hfull
  obtain ⟨s', hreach, rfl, hloc, hothers⟩ := hrun.exists_reach (h.consumers k)
  have hslots := hm'.slots
  rw [h.currCons] at hslots
  refine ⟨s', hreach, h.toBusy.frame hothers hm'.toUndisturbed, ?_, ?_, ?_, ?_, ?_, ?_⟩
  · intro k'
    by_cases hk : k' = k
    · rw [hk]
      exact hloc
    · rw [hothers _ (by simpa using hk)]
      exact h.consumers k'
  · intro x
    by_cases hx : x = .slot s.mem.currCons
    · rw [hx]
      exact hm'.unlocked
    · rw [hm'.owner x hx]
      exact h.owner x
  · rw [hm'.currProd, h.currProd, Nat.add_zero]
  · rw [hm'.currCons, h.currCons, cfg.next_slot]
  · exact fun j hj => absurd hj (Nat.not_lt_zero j)
  · intro j _ hj
    rw [hslots]
    -- the last slot of the new window is the one just emptied
    by_cases hlast : j + 1 = cfg.N
    · rw [show c + 1 + j = c + cfg.N by omega, slot_add_size, Function.update_self]
    · have hne : cfg.slot (c + (j + 1)) ≠ cfg.slot c := by
        intro heq
        have hzero : cfg.slot (c + (j + 1)) = cfg.slot (c + 0) := heq
        have := slot_inj (by omega) cfg.N_pos hzero
        omega
      rw [show c + 1 + j = c + (j + 1) by omega, Function.update_of_ne hne]
      exact h.rest (j + 1) (by omega) (by omega)

theorem filled_start (cfg : Config) (text : List UInt8) :
    Filled 0 0 (Stdio.fileLines lineMax text).length (start cfg text) where
  main := rfl
  prods _ := rfl
  lines := rfl
  awake _ := rfl
  done := rfl
  exited _ := rfl
  consumers _ := rfl
  owner _ := rfl
  currProd := rfl
  currCons := rfl
  full j hj := absurd hj (Nat.not_lt_zero j)
  rest _ _ _ := rfl

/-- Lines are stored and taken one after another. -/
theorem exists_passed (p : Fin cfg.P)
    (hlines : (Stdio.fileLines lineMax text).length = c + left) :
    ∃ s, (program cfg spurious).Reach (start cfg text) s ∧ Filled c 0 left s := by
  induction c generalizing left with
  | zero =>
    have hfilled := filled_start cfg text
    rw [hlines, Nat.zero_add] at hfilled
    exact ⟨_, Program.Reach.refl _, hfilled⟩
  | succ c ih =>
    have hmore : (Stdio.fileLines lineMax text).length = c + (left + 1) := by omega
    obtain ⟨s₁, hs₁, h₁⟩ := ih hmore
    obtain ⟨s₂, hs₂, h₂⟩ := h₁.store spurious cfg.N_pos p
    obtain ⟨s₃, hs₃, h₃⟩ := h₂.pass spurious ⟨0, cfg.K_pos⟩
    exact ⟨s₃, hs₁.trans (hs₂.trans hs₃), h₃⟩

/-- The next lines fill slots. -/
theorem exists_filled (p : Fin cfg.P) (hn : n ≤ cfg.N)
    (hlines : (Stdio.fileLines lineMax text).length = c + n + left) :
    ∃ s, (program cfg spurious).Reach (start cfg text) s ∧ Filled c n left s := by
  induction n generalizing left with
  | zero => exact exists_passed spurious p hlines
  | succ n ih =>
    have hmore : (Stdio.fileLines lineMax text).length = c + n + (left + 1) := by omega
    obtain ⟨s₁, hs₁, h₁⟩ := ih (by omega) hmore
    obtain ⟨s₂, hs₂, h₂⟩ := h₁.store spurious (by omega) p
    exact ⟨s₂, hs₁.trans hs₂, h₂⟩

/-! ### Returning -/

/-- Where a thread is when it has finished. -/
def finished : (t : Thread cfg) → Local cfg t
  | .main => .cleanUp
  | .prod _ => .returned
  | .cons _ => .returned

/-- The memory with another record of the threads that have returned. -/
def Mem.ends (m : Mem cfg) (e : Thread cfg → Bool) : Mem cfg :=
  m.withStore { m.toStore with exited := e }

/-- Threads return one after another. -/
theorem return_all {ts : List (Thread cfg)} (hnodup : ts.Nodup)
    (hsolo : ∀ t ∈ ts, ∀ e, (program cfg spurious).Solo t (s.mem.ends e, s.loc t)
      (s.mem.ends (Function.update e t true), finished t)) :
    ∃ s' e, (program cfg spurious).Reach s s' ∧ s'.mem = s.mem.ends e ∧
      (∀ t ∈ ts, s'.loc t = finished t ∧ e t = true) ∧
      ∀ t, t ∉ ts → s'.loc t = s.loc t ∧ e t = s.mem.exited t := by
  induction ts generalizing s with
  | nil => exact ⟨s, s.mem.exited, Program.Reach.refl _, rfl, by simp, fun _ _ => ⟨rfl, rfl⟩⟩
  | cons t ts ih =>
    obtain ⟨hnotin, hnodup⟩ := List.nodup_cons.mp hnodup
    obtain ⟨s₁, hs₁, hmem₁, hloc₁, hothers₁⟩ :=
      (hsolo t List.mem_cons_self s.mem.exited).exists_reach rfl
    have hsolo₁ : ∀ u ∈ ts, ∀ e, (program cfg spurious).Solo u (s₁.mem.ends e, s₁.loc u)
        (s₁.mem.ends (Function.update e u true), finished u) := by
      intro u hu e
      have hne : u ≠ t := fun heq => hnotin (heq ▸ hu)
      rw [hmem₁, hothers₁ u hne]
      exact hsolo u (List.mem_cons_of_mem _ hu) e
    obtain ⟨s₂, e, hs₂, hmem₂, hin, hout⟩ := ih hnodup hsolo₁
    refine ⟨s₂, e, hs₁.trans hs₂, ?_, ?_, ?_⟩
    · rw [hmem₂, hmem₁]
      rfl
    · intro u hu
      rcases List.mem_cons.mp hu with rfl | hu
      · obtain ⟨hloc₂, he⟩ := hout u hnotin
        refine ⟨hloc₂.trans hloc₁, he.trans ?_⟩
        rw [hmem₁]
        exact Function.update_self _ _ _
      · exact hin u hu
    · intro u hu
      obtain ⟨hne, hu⟩ := not_or.mp (List.mem_cons.not.mp hu)
      obtain ⟨hloc₂, he⟩ := hout u hu
      refine ⟨hloc₂.trans (hothers₁ u hne), he.trans ?_⟩
      rw [hmem₁]
      exact Function.update_of_ne hne _ _

/-- The producers have returned and the main thread waits for the consumers. -/
structure Over (s : Global (Mem cfg) (Local cfg)) : Prop where
  main : s.loc .main = .joinCons 0
  prods : ∀ p, s.loc (.prod p) = .returned
  awake : ∀ t, s.mem.asleep t = none
  done : s.mem.doneProducing = true
  exited : ∀ k, s.mem.exited (.cons k) = false

/-- The slots, the mutexes and the consumers are as they were. -/
structure SameConsumers (s s' : Global (Mem cfg) (Local cfg)) : Prop where
  loc : ∀ k, s'.loc (.cons k) = s.loc (.cons k)
  slots : s'.mem.sharedResource = s.mem.sharedResource
  currCons : s'.mem.currCons = s.mem.currCons
  owner : s'.mem.owner = s.mem.owner

/-- The producers return and the main thread sets `done_producing`. -/
theorem Busy.over (h : Busy left s) (hleft : 0 < cfg.P → left = 0) :
    ∃ s', (program cfg spurious).Reach s s' ∧ Over s' ∧ SameConsumers s s' := by
  have hnodup : ((List.finRange cfg.P).map Thread.prod : List (Thread cfg)).Nodup :=
    (List.nodup_finRange cfg.P).map fun _ _ heq => Thread.prod.inj heq
  have hsolo : ∀ t ∈ ((List.finRange cfg.P).map Thread.prod : List (Thread cfg)), ∀ e,
      (program cfg spurious).Solo t (s.mem.ends e, s.loc t)
        (s.mem.ends (Function.update e t true), finished t) := by
    intro t ht e
    obtain ⟨p, -, rfl⟩ := List.mem_map.mp ht
    have hlines := h.lines
    rw [hleft p.pos, List.length_eq_zero_iff, Stdio.fileLines_eq_nil_iff (by decide)] at hlines
    rw [h.prods p]
    exact solo_return spurious p hlines
  obtain ⟨s₁, e, hs₁, hmem₁, hin, hout⟩ := return_all spurious hnodup hsolo
  have hprods : ∀ p, s₁.loc (.prod p) = .returned ∧ e (.prod p) = true :=
    fun p => hin _ (List.mem_map_of_mem (List.mem_finRange p))
  have hexited : ∀ p, s₁.mem.exited (.prod p) = true := by
    intro p
    rw [hmem₁]
    exact (hprods p).2
  -- the main thread joins them, sets the flag and broadcasts
  have hmain := (solo_joinProds spurious hexited).trans (.head rfl (.head rfl (.refl _)))
  obtain ⟨s₂, hs₂, hmem₂, hloc₂, hothers₂⟩ := hmain.exists_reach
    ((hout _ (by simp)).1.trans h.main)
  refine ⟨s₂, hs₁.trans hs₂, ⟨hloc₂, ?_, ?_, ?_, ?_⟩, ?_, ?_, ?_, ?_⟩
  · intro p
    rw [hothers₂ _ (by simp)]
    exact (hprods p).1
  · intro t
    rw [hmem₂]
    show (if s₁.mem.asleep t = some .read then none else s₁.mem.asleep t) = none
    rw [hmem₁]
    show (if s.mem.asleep t = some .read then none else s.mem.asleep t) = none
    rw [h.awake t]
    rfl
  · rw [hmem₂]
    rfl
  · intro k
    rw [hmem₂]
    show s₁.mem.exited _ = false
    rw [hmem₁]
    exact (hout _ (by simp)).2.trans (h.exited _)
  · intro k
    rw [hothers₂ _ (by simp)]
    exact (hout _ (by simp)).1
  · rw [hmem₂]
    show s₁.mem.sharedResource = _
    rw [hmem₁]
    rfl
  · rw [hmem₂]
    show s₁.mem.currCons = _
    rw [hmem₁]
    rfl
  · rw [hmem₂]
    show s₁.mem.owner = _
    rw [hmem₁]
    rfl

/-- Consumers that find the slot at `curr_cons` empty return. -/
theorem leave_all (hdone : s.mem.doneProducing = true) (hfree : s.mem.owner .cons = none)
    (hempty : s.mem.sharedResource s.mem.currCons = none) {ks : List (Fin cfg.K)}
    (hnodup : ks.Nodup) (hks : ∀ k ∈ ks, s.loc (.cons k) = .lockCons) :
    ∃ s' e, (program cfg spurious).Reach s s' ∧ s'.mem = s.mem.ends e ∧
      (∀ k ∈ ks, s'.loc (.cons k) = .returned ∧ e (.cons k) = true) ∧
      ∀ t, (∀ k ∈ ks, t ≠ .cons k) → s'.loc t = s.loc t ∧ e t = s.mem.exited t := by
  have hnodup' : (ks.map Thread.cons : List (Thread cfg)).Nodup :=
    hnodup.map fun _ _ heq => Thread.cons.inj heq
  have hsolo : ∀ t ∈ (ks.map Thread.cons : List (Thread cfg)), ∀ e,
      (program cfg spurious).Solo t (s.mem.ends e, s.loc t)
        (s.mem.ends (Function.update e t true), finished t) := by
    intro t ht e
    obtain ⟨k, hk, rfl⟩ := List.mem_map.mp ht
    rw [hks k hk]
    have hlook := solo_look spurious (m := s.mem.ends e) k hfree hempty
    have hleave := solo_leave spurious (m := holding k (s.mem.ends e)) k hdone
    have hback : (holding k (s.mem.ends e)).unlock .cons = s.mem.ends e :=
      unlock_withOwner (m := s.mem.ends e) hfree _
    rw [hback] at hleave
    exact hlook.trans hleave
  obtain ⟨s', e, hreach, hmem, hin, hout⟩ := return_all spurious hnodup' hsolo
  refine ⟨s', e, hreach, hmem, fun k hk => hin _ (List.mem_map_of_mem hk), ?_⟩
  intro t ht
  apply hout t
  intro hmem'
  obtain ⟨k, hk, rfl⟩ := List.mem_map.mp hmem'
  exact ht k hk rfl

end Mutex
end ProdCons
end OpSys
