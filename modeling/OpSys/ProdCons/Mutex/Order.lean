import OpSys.ProdCons.Mutex.Slots

/-!
# When the turns match the fills

A consumer gives up `cons_mutex` before it empties the slot of its turn, and the
slot is not `NULL` until then.  So `curr_cons` may come back to the slot and
another consumer may claim it as well.  With one consumer this cannot happen, nor
with fewer lines than slots.  Then the turns and the fills match one to one: the
slots hold exactly the fills that no consumer has claimed and those that are
claimed and not yet emptied.

## Main definitions

* `OrderInv` — the turns and the fills match.
* `NoWrap` — the inputs on which `curr_cons` does not come back to a claimed slot.

## Main results

* `NoWrap.orderInv` — on these inputs `OrderInv` is an invariant.
-/

namespace OpSys
namespace ProdCons
namespace Mutex

variable {cfg : Config} {text : List UInt8}

/-- The turns of the consumers match the fills. -/
structure OrderInv (m : Mem cfg) (h : History cfg) : Prop where
  /-- No more turns than fills. -/
  le : h.advances.length ≤ h.fills.length
  /-- A fill whose turn has not come is in its slot. -/
  waiting : ∀ q, h.advances.length ≤ q → q < h.fills.length →
    m.sharedResource (cfg.slot q) = some q
  /-- So is a fill whose turn is in progress. -/
  claimed : ∀ k j, h.turn k = some j → h.advances[j]? = some k ∧
    m.sharedResource (cfg.slot j) = some j
  /-- Nothing else is in a slot. -/
  rest : ∀ i q, m.sharedResource i = some q → q < h.advances.length →
    ∃ k, h.turn k = some q
  /-- A turn is in progress, or the fill has been taken. -/
  turns : ∀ j, j < h.advances.length →
    (∃ k, h.turn k = some j) ∨ ∃ x ∈ h.takes, x.turn = j
  /-- Every take is of the fill of its turn. -/
  takes : ∀ x ∈ h.takes, h.advances[x.turn]? = some x.taker ∧ x.ptr = some x.turn

section Steps

variable {m m' : Mem cfg} {h h' : History cfg}

theorem OrderInv.same (hO : OrderInv m h) (hs : SameSlots m h m' h') : OrderInv m' h' := by
  obtain ⟨hslots, hfills, hadv, hturn, htakes⟩ := hs
  refine ⟨?_, ?_, ?_, ?_, ?_, ?_⟩
  · rw [hadv, hfills]
    exact hO.le
  · rw [hadv, hfills, hslots]
    exact hO.waiting
  · rw [hadv, hturn, hslots]
    exact hO.claimed
  · rw [hadv, hturn, hslots]
    exact hO.rest
  · rw [hadv, hturn, htakes]
    exact hO.turns
  · rw [hadv, htakes]
    exact hO.takes

/-- A fill of an empty slot. -/
theorem OrderInv.fill (hO : OrderInv m h) {p : Fin cfg.P} (hs : FillStep p m h m' h') :
    OrderInv m' h' := by
  refine ⟨?_, ?_, ?_, ?_, ?_, ?_⟩
  · rw [hs.advances, hs.length]
    exact hO.le.trans (Nat.le_succ _)
  · intro q hle hlt
    rw [hs.advances] at hle
    rw [hs.length] at hlt
    rcases Nat.lt_succ_iff_lt_or_eq.mp hlt with hlt | rfl
    · exact hs.stay (hO.waiting q hle hlt)
    · rw [hs.slots, Function.update_self]
  · intro k j hj
    rw [hs.turn] at hj
    obtain ⟨hmine, hslot⟩ := hO.claimed k j hj
    rw [hs.advances]
    exact ⟨hmine, hs.stay hslot⟩
  · intro i q hq hlt
    rw [hs.advances] at hlt
    rw [hs.turn]
    rcases hs.old_or_new hq with hold | ⟨-, rfl⟩
    · exact hO.rest i q hold hlt
    · exact absurd hO.le (not_le.mpr hlt)
  · rw [hs.advances, hs.turn, hs.takes]
    exact hO.turns
  · rw [hs.advances, hs.takes]
    exact hO.takes

/-- A consumer gets the turn of a fill. -/
theorem OrderInv.advance (hO : OrderInv m h) {k : Fin cfg.K} (hs : AdvanceStep k m h m' h')
    (hlt : h.advances.length < h.fills.length) : OrderInv m' h' := by
  have hself : h'.turn k = some h.advances.length := by
    rw [hs.turn, Function.update_self]
  have hgrow : Ledger.Grows (fun _ => True) h.advances h'.advances := by
    rw [hs.advances]
    exact .append_singleton _ trivial
  refine ⟨?_, ?_, ?_, ?_, ?_, ?_⟩
  · rw [hs.length, hs.fills]
    exact hlt
  · intro q hle hq
    rw [hs.length] at hle
    rw [hs.fills] at hq
    rw [hs.slots]
    exact hO.waiting q (by omega) hq
  · intro k' j hj
    rw [hs.slots]
    rcases hs.turn_eq_some hj with ⟨rfl, rfl⟩ | ⟨-, hold⟩
    · rw [hs.advances]
      exact ⟨List.getElem?_concat_length, hO.waiting _ le_rfl hlt⟩
    · obtain ⟨hmine, hslot⟩ := hO.claimed k' j hold
      exact ⟨hgrow.getElem?_eq_some hmine, hslot⟩
  · intro i q hq hle
    rw [hs.slots] at hq
    rw [hs.length] at hle
    rcases Nat.lt_succ_iff_lt_or_eq.mp hle with hle | rfl
    · obtain ⟨k', hk'⟩ := hO.rest i q hq hle
      exact ⟨k', hs.keep hk'⟩
    · exact ⟨k, hself⟩
  · intro j hj
    rw [hs.length] at hj
    rw [hs.takes]
    rcases Nat.lt_succ_iff_lt_or_eq.mp hj with hj | rfl
    · exact (hO.turns j hj).imp_left fun ⟨k', hk'⟩ => ⟨k', hs.keep hk'⟩
    · exact Or.inl ⟨k, hself⟩
  · intro x hx
    rw [hs.takes] at hx
    obtain ⟨hmine, hptr⟩ := hO.takes x hx
    exact ⟨hgrow.getElem?_eq_some hmine, hptr⟩

/-- A consumer takes the fill of its turn. -/
theorem OrderInv.take (hO : OrderInv m h) (hI : MutexInv text m h) {k : Fin cfg.K} {j : ℕ}
    (hs : TakeStep k j m h m' h') : OrderInv m' h' := by
  obtain ⟨hmine, hslot⟩ := hO.claimed k j hs.before
  obtain ⟨content, htakes⟩ := hs.takes
  rw [hslot] at htakes
  have hj : j < h.advances.length := (List.getElem?_eq_some_iff.mp hmine).1
  -- the other fills are in other slots
  have hstay : ∀ q, q ≠ j → m.sharedResource (cfg.slot q) = some q →
      m'.sharedResource (cfg.slot q) = some q := by
    intro q hq hin
    refine hs.slots_eq_some.mpr ⟨?_, hin⟩
    intro heq
    rw [heq, hslot] at hin
    exact hq (Option.some.inj hin).symm
  refine ⟨?_, ?_, ?_, ?_, ?_, ?_⟩
  · rw [hs.advances, hs.fills]
    exact hO.le
  · intro q hle hlt
    rw [hs.advances] at hle
    rw [hs.fills] at hlt
    exact hstay q (by omega) (hO.waiting q hle hlt)
  · intro k' j' hj'
    obtain ⟨hk', hold⟩ := hs.turn_eq_some.mp hj'
    obtain ⟨hmine', hslot'⟩ := hO.claimed k' j' hold
    rw [hs.advances]
    refine ⟨hmine', hstay j' ?_ hslot'⟩
    rintro rfl
    exact hk' (Option.some.inj (hmine'.symm.trans hmine))
  · intro i q hq hlt
    rw [hs.advances] at hlt
    obtain ⟨hi, hold⟩ := hs.slots_eq_some.mp hq
    obtain ⟨k', hk'⟩ := hO.rest i q hold hlt
    refine ⟨k', hs.turn_eq_some.mpr ⟨?_, hk'⟩⟩
    rintro rfl
    obtain rfl := Option.some.inj (hk'.symm.trans hs.before)
    exact hi (hI.slots i q hold).2.1.symm
  · intro j' hj'
    rw [hs.advances] at hj'
    rw [htakes]
    rcases hO.turns j' hj' with ⟨k', hk'⟩ | ⟨x, hx, hxj⟩
    · by_cases hother : k' = k
      · rw [hother] at hk'
        obtain rfl := Option.some.inj (hk'.symm.trans hs.before)
        exact Or.inr ⟨_, List.mem_append_right _ (List.mem_singleton_self _), rfl⟩
      · exact Or.inl ⟨k', hs.turn_eq_some.mpr ⟨hother, hk'⟩⟩
    · exact Or.inr ⟨x, List.mem_append_left _ hx, hxj⟩
  · intro x hx
    rw [htakes] at hx
    rw [hs.advances]
    rcases List.mem_append.mp hx with hx | hx
    · exact hO.takes x hx
    · obtain rfl := List.mem_singleton.mp hx
      exact ⟨hmine, rfl⟩

end Steps

/-! ### Inputs without wrapping -/

/-- The inputs on which `curr_cons` cannot come back to a claimed slot. -/
def NoWrap (cfg : Config) (text : List UInt8) : Prop :=
  cfg.P = 0 ∨ cfg.K = 1 ∨ (Stdio.fileLines lineMax text).length < cfg.N

/-- On these inputs a consumer passes the test of a slot for a fill of its own only. -/
theorem NoWrap.pass (hwrap : NoWrap cfg text) {m : Mem cfg} {h : History cfg} {k : Fin cfg.K}
    (hI : MutexInv text m h) (hO : OrderInv m h) (hl : Looking m h k)
    (hfull : m.sharedResource (cfg.slot h.advances.length) ≠ none) :
    h.advances.length < h.fills.length := by
  obtain ⟨q, hq⟩ := Option.ne_none_iff_exists'.mp hfull
  obtain ⟨hlt, hslot, -⟩ := hI.slots _ q hq
  rw [hI.fresh] at hlt
  by_contra hle
  have hq_lt : q < h.advances.length := lt_of_lt_of_le hlt (not_lt.mp hle)
  rcases hwrap with hP | hK | hN
  · -- without producers there are no fills
    obtain ⟨⟨p, i⟩, -⟩ : ∃ x, h.fills[q]? = some x := ⟨_, List.getElem?_eq_getElem hlt⟩
    rw [hP] at p
    exact p.elim0
  · -- the only consumer has no turn
    obtain ⟨k', hk'⟩ := hO.rest _ q hq hq_lt
    have hone : k' = k := by
      apply Fin.ext
      have := k.isLt
      have := k'.isLt
      omega
    rw [hone, hl.turn] at hk'
    exact Option.some_ne_none q hk'.symm
  · -- two fills of one window share the slot
    have hadv : h.advances.length < 0 + cfg.N := by
      have hfills := hI.fills_length_le
      have hle := hO.le
      omega
    exact hq_lt.ne (Ring.place_inj cfg.N_pos (Nat.zero_le q) (hq_lt.trans hadv)
      (Nat.zero_le h.advances.length) hadv hslot)

/-- **The turns match the fills** on inputs without wrapping. -/
theorem NoWrap.orderInv (hwrap : NoWrap cfg text) :
    SlotInvariant text (@OrderInv cfg) (· < ·) where
  start :=
    { le := le_rfl
      waiting := fun q _ hq => absurd hq (Nat.not_lt_zero q)
      claimed := fun _ j hj => absurd hj (Option.some_ne_none j).symm
      rest := fun _ q hq => absurd hq (Option.some_ne_none q).symm
      turns := fun j hj => absurd hj (Nat.not_lt_zero j)
      takes := fun _ hx => absurd hx List.not_mem_nil }
  mono hle hlt := lt_of_lt_of_le hlt hle
  same := OrderInv.same
  pass := hwrap.pass
  fill _ _ hO hs := hO.fill hs
  advance _ hO hlt hs := hO.advance hs hlt
  take hI hO hs := hO.take hI hs

end Mutex
end ProdCons
end OpSys
