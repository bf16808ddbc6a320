import OpSys.ProdCons.Mutex.Reach

/-!
# What a step does to the slots

A producer fills the slot of its claim, and a consumer advances `curr_cons` or
empties the slot of its turn; all other steps leave the slots and the turns as
they are.  A property of the slots and of the turns is therefore an invariant if
these three steps keep it.

## Main definitions

* `SameSlots`, `FillStep`, `AdvanceStep`, `TakeStep` — what a step may do.
* `FoundKnows ok` — what a consumer knows that has passed the test of its slot.
* `SlotInvariant text J ok` — the three steps keep `J`.

## Main results

* `produce_slots`, `consume_slots`, `waitThreads_slots` — every step is one of
  these.
* `SlotInvariant.of_reach` — `J` holds in every reachable state.
-/

namespace OpSys
namespace ProdCons
namespace Mutex

variable {cfg : Config} {spurious : Bool} {text : List UInt8} {m m' : Mem cfg}
  {h h' : History cfg}

/-! ### The steps -/

/-- The slots and the turns are as they were. -/
structure SameSlots (m : Mem cfg) (h : History cfg) (m' : Mem cfg) (h' : History cfg) :
    Prop where
  slots : m'.sharedResource = m.sharedResource
  fills : h'.fills = h.fills
  advances : h'.advances = h.advances
  turn : h'.turn = h.turn
  takes : h'.takes = h.takes

/-- Producer `p`, which has not returned, has put a new block into the slot of its claim,
which was empty. -/
structure FillStep (p : Fin cfg.P) (m : Mem cfg) (h : History cfg) (m' : Mem cfg)
    (h' : History cfg) : Prop where
  running : m.exited (.prod p) ≠ true
  empty : m.sharedResource (cfg.slot h.fills.length) = none
  slots : m'.sharedResource =
    Function.update m.sharedResource (cfg.slot h.fills.length) (some h.fills.length)
  fills : h'.fills = h.fills ++ [(p, h.serial p)]
  advances : h'.advances = h.advances
  turn : h'.turn = h.turn
  takes : h'.takes = h.takes

/-- Consumer `k`, which has found a line and holds `cons_mutex`, has advanced `curr_cons`. -/
structure AdvanceStep (k : Fin cfg.K) (m : Mem cfg) (h : History cfg) (m' : Mem cfg)
    (h' : History cfg) : Prop where
  looking : Looking m h k
  slots : m'.sharedResource = m.sharedResource
  fills : h'.fills = h.fills
  advances : h'.advances = h.advances ++ [k]
  turn : h'.turn = Function.update h.turn k (some h.advances.length)
  takes : h'.takes = h.takes

/-- Consumer `k` has emptied the slot of its turn `j`. -/
structure TakeStep (k : Fin cfg.K) (j : ℕ) (m : Mem cfg) (h : History cfg) (m' : Mem cfg)
    (h' : History cfg) : Prop where
  slots : m'.sharedResource = Function.update m.sharedResource (cfg.slot j) none
  fills : h'.fills = h.fills
  advances : h'.advances = h.advances
  before : h.turn k = some j
  turn : h'.turn = Function.update h.turn k none
  takes : ∃ content, h'.takes = h.takes ++ [⟨k, j, m.sharedResource (cfg.slot j), content⟩]

theorem SameSlots.refl (m : Mem cfg) (h : History cfg) : SameSlots m h m h :=
  ⟨rfl, rfl, rfl, rfl, rfl⟩

/-! ### What the steps say -/

/-- What is in a slot stays there when another slot is filled. -/
theorem FillStep.stay {p : Fin cfg.P} (hs : FillStep p m h m' h') {i : Fin cfg.N} {q : Ptr}
    (hq : m.sharedResource i = some q) : m'.sharedResource i = some q := by
  have hi : i ≠ cfg.slot h.fills.length := by
    rintro rfl
    rw [hs.empty] at hq
    exact Option.some_ne_none q hq.symm
  rw [hs.slots, Function.update_of_ne hi]
  exact hq

/-- What is in a slot after one has been filled. -/
theorem FillStep.old_or_new {p : Fin cfg.P} (hs : FillStep p m h m' h') {i : Fin cfg.N} {q : Ptr}
    (hq : m'.sharedResource i = some q) :
    m.sharedResource i = some q ∨ (i = cfg.slot h.fills.length ∧ q = h.fills.length) := by
  rw [hs.slots] at hq
  by_cases hi : i = cfg.slot h.fills.length
  · rw [hi, Function.update_self] at hq
    exact Or.inr ⟨hi, (Option.some.inj hq).symm⟩
  · rw [Function.update_of_ne hi] at hq
    exact Or.inl hq

theorem FillStep.length {p : Fin cfg.P} (hs : FillStep p m h m' h') :
    h'.fills.length = h.fills.length + 1 := by
  rw [hs.fills, List.length_append, List.length_singleton]

theorem AdvanceStep.length {k : Fin cfg.K} (hs : AdvanceStep k m h m' h') :
    h'.advances.length = h.advances.length + 1 := by
  rw [hs.advances, List.length_append, List.length_singleton]

/-- The turn of an advance is that of the consumer; the others keep theirs. -/
theorem AdvanceStep.turn_eq_some {k k' : Fin cfg.K} (hs : AdvanceStep k m h m' h') {j : ℕ}
    (hj : h'.turn k' = some j) :
    (k' = k ∧ j = h.advances.length) ∨ (k' ≠ k ∧ h.turn k' = some j) := by
  rw [hs.turn] at hj
  by_cases hk : k' = k
  · rw [hk, Function.update_self] at hj
    exact Or.inl ⟨hk, (Option.some.inj hj).symm⟩
  · rw [Function.update_of_ne hk] at hj
    exact Or.inr ⟨hk, hj⟩

/-- A turn in progress stays so. -/
theorem AdvanceStep.keep {k k' : Fin cfg.K} (hs : AdvanceStep k m h m' h') {j : ℕ}
    (hj : h.turn k' = some j) : h'.turn k' = some j := by
  have hk : k' ≠ k := by
    rintro rfl
    rw [hs.looking.turn] at hj
    exact Option.some_ne_none j hj.symm
  rw [hs.turn, Function.update_of_ne hk]
  exact hj

/-- After a take the others still have their turns. -/
theorem TakeStep.turn_eq_some {k k' : Fin cfg.K} {j i : ℕ} (hs : TakeStep k j m h m' h') :
    h'.turn k' = some i ↔ k' ≠ k ∧ h.turn k' = some i := by
  rw [hs.turn]
  by_cases hk : k' = k
  · simp [hk]
  · simp [hk]

/-- What is in another slot stays there. -/
theorem TakeStep.slots_eq_some {k : Fin cfg.K} {j : ℕ} (hs : TakeStep k j m h m' h')
    {i : Fin cfg.N} {q : Ptr} :
    m'.sharedResource i = some q ↔ i ≠ cfg.slot j ∧ m.sharedResource i = some q := by
  rw [hs.slots]
  by_cases hi : i = cfg.slot j
  · simp [hi]
  · simp [hi]

/-- There are no more fills than lines in the file. -/
theorem MutexInv.fills_length_le (hI : MutexInv text m h) :
    h.fills.length ≤ (Stdio.fileLines lineMax text).length := by
  apply hI.accounts.fills_length_le.trans
  rw [← hI.reads]
  simp

/-! ### Every step is one of these -/

/-- What a producer does to the slots. -/
theorem produce_slots (hI : MutexInv text m h) {p : Fin cfg.P} {l l' : Produce cfg}
    (hk : ProdKnows p m h l) (hstep : produce spurious p m l = some (m', l')) :
    SameSlots m h m' (produceBooks p m l h) ∨ FillStep p m h m' (produceBooks p m l h) := by
  obtain ⟨hexit, hstage⟩ := hk
  cases l with
  | fgets =>
    left
    simp only [produce] at hstep
    simp only [produceBooks]
    cases hline : Stdio.fgets lineMax m.file with
    | none =>
      rw [hline] at hstep
      obtain ⟨rfl, rfl⟩ := Prod.mk.inj (Option.some.inj hstep)
      exact ⟨rfl, rfl, rfl, rfl, rfl⟩
    | some r =>
      rw [hline] at hstep
      obtain ⟨rfl, rfl⟩ := Prod.mk.inj (Option.some.inj hstep)
      exact ⟨rfl, rfl, rfl, rfl, rfl⟩
  | lockProd line | lockSlot line idx =>
    obtain ⟨m₁, hlock, heq⟩ := Option.map_eq_some_iff.mp hstep
    obtain ⟨rfl, rfl⟩ := Prod.mk.inj heq
    obtain ⟨-, rfl⟩ := lock_eq_some hlock
    exact Or.inl ⟨rfl, rfl, rfl, rfl, rfl⟩
  | asleep line =>
    obtain ⟨m₁, hlock, heq⟩ := Option.map_eq_some_iff.mp hstep
    obtain ⟨rfl, rfl⟩ := Prod.mk.inj heq
    obtain ⟨-, rfl⟩ := reacquire_eq_some hlock
    exact Or.inl ⟨rfl, rfl, rfl, rfl, rfl⟩
  | testSlot line cur =>
    simp only [produce] at hstep
    split at hstep <;> obtain ⟨rfl, rfl⟩ := Prod.mk.inj (Option.some.inj hstep)
    · exact Or.inl (.refl m h)
    · exact Or.inl (.refl m h)
  | readDst line idx =>
    obtain ⟨dst, -, heq⟩ := Option.map_eq_some_iff.mp hstep
    obtain ⟨rfl, rfl⟩ := Prod.mk.inj heq
    exact Or.inl (.refl m h)
  | copy idx dst rest =>
    cases rest <;> obtain ⟨rfl, rfl⟩ := Prod.mk.inj (Option.some.inj hstep)
    · exact Or.inl (.refl m h)
    · exact Or.inl ⟨rfl, rfl, rfl, rfl, rfl⟩
  | store line idx =>
    right
    obtain ⟨rfl, rfl⟩ := Prod.mk.inj (Option.some.inj hstep)
    obtain ⟨⟨-, -, -, -, hidx, hempty⟩, -⟩ := hstage
    refine ⟨?_, ?_, ?_, rfl, rfl, rfl, rfl⟩
    · intro hreturned
      exact absurd (hexit.mp hreturned) (by simp)
    · rw [← hidx]
      exact hempty
    · rw [← hidx, ← hI.fresh]
      rfl
  | readCursor | condWait | readIndex | readNext | writeCursor | broadcast | unlockSlot
  | unlockProd =>
    obtain ⟨rfl, rfl⟩ := Prod.mk.inj (Option.some.inj hstep)
    exact Or.inl ⟨rfl, rfl, rfl, rfl, rfl⟩
  | returned => exact absurd hstep (Option.some_ne_none _).symm

/-- What a consumer does to the slots. -/
theorem consume_slots {k : Fin cfg.K} {l l' : Consume cfg} (hk : ConsKnows k m h l)
    (hstep : consume spurious k m l = some (m', l')) :
    SameSlots m h m' (consumeBooks k m l h) ∨
      ((∃ idx cur, l = .writeCursor idx cur) ∧ AdvanceStep k m h m' (consumeBooks k m l h)) ∨
      ∃ j, TakeStep k j m h m' (consumeBooks k m l h) := by
  cases l with
  | lockCons | lockSlot idx =>
    obtain ⟨m₁, hlock, heq⟩ := Option.map_eq_some_iff.mp hstep
    obtain ⟨rfl, rfl⟩ := Prod.mk.inj heq
    obtain ⟨-, rfl⟩ := lock_eq_some hlock
    exact Or.inl ⟨rfl, rfl, rfl, rfl, rfl⟩
  | asleep =>
    obtain ⟨m₁, hlock, heq⟩ := Option.map_eq_some_iff.mp hstep
    obtain ⟨rfl, rfl⟩ := Prod.mk.inj heq
    obtain ⟨-, rfl⟩ := reacquire_eq_some hlock
    exact Or.inl ⟨rfl, rfl, rfl, rfl, rfl⟩
  | testSlot cur | testDone =>
    simp only [consume] at hstep
    split at hstep <;> obtain ⟨rfl, rfl⟩ := Prod.mk.inj (Option.some.inj hstep)
    · exact Or.inl (.refl m h)
    · exact Or.inl (.refl m h)
  | writeCursor idx cur =>
    obtain ⟨rfl, rfl⟩ := Prod.mk.inj (Option.some.inj hstep)
    exact Or.inr (Or.inl ⟨⟨idx, cur, rfl⟩, hk.2.1, rfl, rfl, rfl, rfl, rfl⟩)
  | clear idx line =>
    obtain ⟨rfl, rfl⟩ := Prod.mk.inj (Option.some.inj hstep)
    obtain ⟨-, ⟨j, hj, rfl⟩, -, rfl⟩ := hk
    refine Or.inr (Or.inr ⟨j, rfl, ?_, ?_, hj, ?_, ?_⟩) <;> simp only [consumeBooks]
    · rw [take_eq hj]
    · rw [take_eq hj]
    · rw [take_eq hj]
    · exact ⟨_, by rw [take_eq hj]⟩
  | examine line =>
    obtain ⟨rfl, rfl⟩ := Prod.mk.inj (Option.some.inj hstep)
    obtain ⟨out, hout⟩ := Store.examine_eq k line m.toStore
    rw [hout]
    exact Or.inl ⟨rfl, rfl, rfl, rfl, rfl⟩
  | free line =>
    obtain ⟨rfl, rfl⟩ := Prod.mk.inj (Option.some.inj hstep)
    obtain ⟨heap, hheap, -⟩ := Store.free_eq line m.toStore
    rw [hheap]
    exact Or.inl ⟨rfl, rfl, rfl, rfl, rfl⟩
  | readCursor | unlockDone | leave | condWait | readIndex | readNext | unlockCons | readLine
  | broadcast | unlockSlot =>
    obtain ⟨rfl, rfl⟩ := Prod.mk.inj (Option.some.inj hstep)
    exact Or.inl ⟨rfl, rfl, rfl, rfl, rfl⟩
  | returned => exact absurd hstep (Option.some_ne_none _).symm

/-- The main thread leaves the slots alone. -/
theorem waitThreads_slots {l l' : WaitThreads} (hstep : waitThreads m l = some (m', l')) :
    SameSlots m h m' h := by
  cases l with
  | joinProd | joinCons =>
    simp only [waitThreads] at hstep
    split at hstep
    · split at hstep
      · obtain ⟨rfl, -⟩ := Prod.mk.inj (Option.some.inj hstep)
        exact .refl m h
      · exact absurd hstep (Option.some_ne_none _).symm
    · obtain ⟨rfl, -⟩ := Prod.mk.inj (Option.some.inj hstep)
      exact .refl m h
  | setDone | broadcast =>
    obtain ⟨rfl, -⟩ := Prod.mk.inj (Option.some.inj hstep)
    exact ⟨rfl, rfl, rfl, rfl, rfl⟩
  | cleanUp => exact absurd hstep (Option.some_ne_none _).symm

/-! ### Invariants of the slots -/

/-- A consumer that has passed the test of the slot at `curr_cons` and not advanced
`curr_cons` yet. -/
def HasFound : Consume cfg → Prop
  | .readIndex | .readNext _ | .writeCursor _ _ => True
  | _ => False

/-- What a consumer that has found a line knows of the numbers of advances and fills. -/
def FoundKnows (ok : ℕ → ℕ → Prop) (h : History cfg) : (t : Thread cfg) → Local cfg t → Prop
  | .cons _, (l : Consume cfg) => HasFound l → ok h.advances.length h.fills.length
  | _, _ => True

/-- `J` is an invariant of the slots and the turns, given that a consumer passes the test
of its slot only at numbers of advances and fills that are `ok`. -/
structure SlotInvariant (text : List UInt8) (J : Mem cfg → History cfg → Prop)
    (ok : ℕ → ℕ → Prop) : Prop where
  start : J (setUp cfg text) (.empty cfg)
  mono : ∀ {a f f'}, f ≤ f' → ok a f → ok a f'
  same : ∀ {m h m' h'}, J m h → SameSlots m h m' h' → J m' h'
  pass : ∀ {m h k}, MutexInv text m h → J m h → Looking m h k →
    m.sharedResource (cfg.slot h.advances.length) ≠ none → ok h.advances.length h.fills.length
  fill : ∀ {p m h m' h'}, MutexInv text m h → MutexInv text m' h' → J m h →
    FillStep p m h m' h' → J m' h'
  advance : ∀ {k m h m' h'}, MutexInv text m h → J m h →
    ok h.advances.length h.fills.length → AdvanceStep k m h m' h' → J m' h'
  take : ∀ {k j m h m' h'}, MutexInv text m h → J m h → TakeStep k j m h m' h' → J m' h'

/-- The test of the slot is where a consumer learns that it has found a line. -/
theorem consume_found {k : Fin cfg.K} {l l' : Consume cfg}
    (hstep : consume spurious k m l = some (m', l')) (hfound : HasFound l') :
    m' = m ∧ (HasFound l ∨ ∃ cur, l = .testSlot cur ∧ m.sharedResource cur ≠ none) := by
  cases l with
  | testSlot cur =>
    simp only [consume] at hstep
    split at hstep
    case isTrue =>
      obtain ⟨-, rfl⟩ := Prod.mk.inj (Option.some.inj hstep)
      exact hfound.elim
    case isFalse hline =>
      obtain ⟨rfl, -⟩ := Prod.mk.inj (Option.some.inj hstep)
      exact ⟨rfl, Or.inr ⟨cur, rfl, hline⟩⟩
  | testDone =>
    simp only [consume] at hstep
    split at hstep <;> obtain ⟨-, rfl⟩ := Prod.mk.inj (Option.some.inj hstep)
    · exact hfound.elim
    · exact hfound.elim
  | lockCons | lockSlot | asleep =>
    obtain ⟨m₁, -, heq⟩ := Option.map_eq_some_iff.mp hstep
    obtain ⟨-, rfl⟩ := Prod.mk.inj heq
    exact hfound.elim
  | readIndex | readNext =>
    obtain ⟨rfl, -⟩ := Prod.mk.inj (Option.some.inj hstep)
    exact ⟨rfl, Or.inl trivial⟩
  | returned => exact absurd hstep (Option.some_ne_none _).symm
  | _ =>
    obtain ⟨-, rfl⟩ := Prod.mk.inj (Option.some.inj hstep)
    exact hfound.elim

/-- A consumer that has found a line holds `cons_mutex`. -/
theorem ConsKnows.looking {k : Fin cfg.K} {l : Consume cfg} (hk : ConsKnows k m h l)
    (hfound : HasFound l) : Looking m h k := by
  obtain ⟨-, hstage⟩ := hk
  cases l with
  | readIndex => exact hstage
  | readNext idx => exact hstage.1
  | writeCursor idx cur => exact hstage.1
  | _ => exact hfound.elim

namespace SlotInvariant

variable {J : Mem cfg → History cfg → Prop} {ok : ℕ → ℕ → Prop}

/-- A step keeps an invariant of the slots. -/
theorem keeps (hJ : SlotInvariant text J ok) {t : Thread cfg} {s s' : Mem cfg × History cfg}
    {l l' : Local cfg t} (hI : MutexInv text s.1 s.2) (hs : J s.1 s.2)
    (hA : Knowledge cfg t s l) (hok : FoundKnows ok s.2 t l)
    (hstep : (booked cfg spurious).step t s l = some (s', l')) :
    J s'.1 s'.2 ∧ FoundKnows ok s'.2 t l' := by
  have hI' : MutexInv text s'.1 s'.2 := (booked_keeps hI hA hstep).1
  obtain ⟨m, h⟩ := s
  obtain ⟨m', h'⟩ := s'
  obtain ⟨hmem, rfl⟩ := (Program.withHistory_step_eq_some _ _).mp hstep
  cases t with
  | main => exact ⟨hJ.same hs (waitThreads_slots hmem), trivial⟩
  | prod p =>
    refine ⟨?_, trivial⟩
    rcases produce_slots hI hA hmem with hsame | hfill
    · exact hJ.same hs hsame
    · exact hJ.fill hI hI' hs hfill
  | cons k =>
    rcases consume_slots hA hmem with hsame | ⟨⟨idx, cur, rfl⟩, hadv⟩ | ⟨j, htake⟩
    · refine ⟨hJ.same hs hsame, ?_⟩
      intro hfound
      show ok (consumeBooks k m l h).advances.length (consumeBooks k m l h).fills.length
      rw [hsame.advances, hsame.fills]
      obtain ⟨-, hbefore | ⟨cur, rfl, hline⟩⟩ := consume_found hmem hfound
      · exact hok hbefore
      · obtain ⟨-, hl, rfl⟩ := hA
        exact hJ.pass hI hs hl hline
    · refine ⟨hJ.advance hI hs (hok trivial) hadv, ?_⟩
      obtain ⟨-, rfl⟩ := Prod.mk.inj (Option.some.inj hmem)
      exact False.elim
    · refine ⟨hJ.take hI hs htake, ?_⟩
      intro hfound
      -- a consumer that has a turn is not looking for one
      obtain ⟨-, hbefore | ⟨cur, rfl, -⟩⟩ := consume_found hmem hfound
      · have hnone := (ConsKnows.looking hA hbefore).turn
        rw [htake.before] at hnone
        exact absurd hnone (Option.some_ne_none j)
      · have hnone := hA.2.1.turn
        rw [htake.before] at hnone
        exact absurd hnone (Option.some_ne_none j)

/-- What a consumer that has found a line knows survives the steps of the others. -/
theorem found_frame (hJ : SlotInvariant text J ok) {t u : Thread cfg}
    {s s' : Mem cfg × History cfg} {l : Local cfg u} (hne : u ≠ t) (hA : Knowledge cfg u s l)
    (hG : Guar t s.1 s.2 s'.1 s'.2) (hok : FoundKnows ok s.2 u l) : FoundKnows ok s'.2 u l := by
  cases u with
  | main | prod p => trivial
  | cons k =>
    intro hfound
    have hl : Looking s.1 s.2 k := ConsKnows.looking hA hfound
    show ok s'.2.advances.length s'.2.fills.length
    -- only the owner of `cons_mutex` advances `curr_cons`
    rw [hG.cons _ hne hl.holds]
    exact hJ.mono hG.books.fills.length_le (hok hfound)

/-- **An invariant of the slots** holds in every reachable state. -/
theorem of_reach (hJ : SlotInvariant text J ok)
    {s : Global (Mem cfg × History cfg) (Local cfg)}
    (h : (booked cfg spurious).Reach (bookStart cfg text) s) :
    J s.mem.1 s.mem.2 ∧ ∀ t, FoundKnows ok s.mem.2 t (s.loc t) := by
  have key := h.relyGuarantee (I := fun s => MutexInv text s.1 s.2 ∧ J s.1 s.2)
    (A := fun t s l => Knowledge cfg t s l ∧ FoundKnows ok s.2 t l)
    (G := fun t s s' => Guar t s.1 s.2 s'.1 s'.2) ?_ ?_
    ⟨mutexInv_start cfg text, hJ.start⟩ ?_
  · exact ⟨key.1.2, fun t => (key.2 t).2⟩
  · rintro t s l s' l' ⟨hI, hs⟩ ⟨hA, hok⟩ hstep
    obtain ⟨hI', hA', hG⟩ := booked_keeps hI hA hstep
    obtain ⟨hs', hok'⟩ := hJ.keeps hI hs hA hok hstep
    exact ⟨⟨hI', hs'⟩, ⟨hA', hok'⟩, hG⟩
  · rintro t u s s' l hne - - hG ⟨hA, hok⟩
    exact ⟨hA.frame hne hG, hJ.found_frame hne hA hG hok⟩
  · intro t
    refine ⟨knowledge_start cfg text t, ?_⟩
    cases t with
    | main | prod p => trivial
    | cons k => exact False.elim

end SlotInvariant

end Mutex
end ProdCons
end OpSys
