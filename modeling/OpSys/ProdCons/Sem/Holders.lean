import OpSys.ProdCons.Sem.Reach

/-!
# Who holds a semaphore

The books say who has passed `sem_wait` of a semaphore and not posted it.  A thread
that holds a semaphore is between the two calls, and there it waits for semaphores
of a higher rank only: a producer for a free slot and the semaphore of its slot, a
consumer for the semaphore of its slot.

## Main definitions

* `Section t l s` — at `l` thread `t` is between `sem_wait` and `sem_post` of `s`.

## Main results

* `section_of_reach` — the holder of a semaphore is in its section.
* `produce_blocked`, `consume_blocked` — where a thread is that cannot go on.
* `canStep_of_slot_held` — the holder of the semaphore of a slot can go on.
-/

namespace OpSys
namespace ProdCons
namespace Sem

variable {cfg : Config} {text : List UInt8}

/-- The semaphores a producer is in a section of. -/
def Produce.Section : Produce cfg → SemId cfg → Prop
  | .waitFree _, s | .readIndex _, s | .readCursor _ _, s | .writeCursor _ _ _, s
  | .waitSlot _ _, s => s = .prod
  | .postProd _ idx, s => s = .prod ∨ s = .slot idx
  | .store _ idx, s | .readDst _ idx, s | .copy idx _ _, s | .postSlot idx, s => s = .slot idx
  | _, _ => False

/-- The semaphores a consumer is in a section of. -/
def Consume.Section : Consume cfg → SemId cfg → Prop
  | .readCursor, s | .testSlot _, s | .postIdle, s | .readIndex, s | .readNext _, s
  | .writeCursor _ _, s | .waitSlot _, s => s = .cons
  | .readLine idx, s | .clear idx _, s | .postFree idx _, s | .postCons idx _, s =>
      s = .cons ∨ s = .slot idx
  | .postSlot idx _, s => s = .slot idx
  | _, _ => False

/-- At `l` thread `t` is between `sem_wait` and `sem_post` of `s`. -/
def Section : (t : Thread cfg) → Local cfg t → SemId cfg → Prop
  | .main, _, _ => False
  | .prod _, l, s => Produce.Section l s
  | .cons _, l, s => Consume.Section l s

/-- What thread `t` holds, it is in the section of. -/
def HoldsInSection (t : Thread cfg) (b : Books cfg) (l : Local cfg t) : Prop :=
  ∀ s, b.holder s = some t → Section t l s

section Moves

variable {t : Thread cfg} {b : Books cfg} {l l' : Local cfg t} {s₀ : SemId cfg}

/-- Passing `sem_wait` leads into the section. -/
theorem HoldsInSection.acquire (h : HoldsInSection t b l) (hself : Section t l' s₀)
    (hkeep : ∀ s, Section t l s → Section t l' s) :
    HoldsInSection t (b.acquire s₀ t) l' := by
  intro s hs
  by_cases heq : s = s₀
  · rw [heq]
    exact hself
  · rw [b.acquire_holder_of_ne heq] at hs
    exact hkeep s (h s hs)

/-- `sem_post` leads out of it. -/
theorem HoldsInSection.release (h : HoldsInSection t b l)
    (hkeep : ∀ s, s ≠ s₀ → Section t l s → Section t l' s) :
    HoldsInSection t (b.release s₀) l' := by
  intro s hs
  by_cases heq : s = s₀
  · rw [heq, b.release_holder_self] at hs
    exact absurd hs (Option.some_ne_none t).symm
  · rw [b.release_holder_of_ne heq] at hs
    exact hkeep s heq (h s hs)

/-- A step within a section. -/
theorem HoldsInSection.stay {b' : Books cfg} (h : HoldsInSection t b l)
    (hholder : b'.holder = b.holder) (hkeep : ∀ s, Section t l s → Section t l' s) :
    HoldsInSection t b' l' := by
  intro s hs
  rw [hholder] at hs
  exact hkeep s (h s hs)

end Moves

variable {m m' : Mem cfg} {b : Books cfg}

theorem holdsInSection_produce {p : Fin cfg.P} {l l' : Produce cfg}
    (h : HoldsInSection (.prod p) b l) (hstep : produce p m l = some (m', l')) :
    HoldsInSection (.prod p) (produceBooks p m l b) l' := by
  cases l with
  | fgets =>
    cases hline : Stdio.fgets lineMax m.file with
    | none =>
      simp only [produce, hline] at hstep
      obtain ⟨-, rfl⟩ := Prod.mk.inj (Option.some.inj hstep)
      simp only [produceBooks, hline]
      exact h.stay rfl (by simp [Section, Produce.Section])
    | some r =>
      obtain ⟨line, rest⟩ := r
      simp only [produce, hline] at hstep
      obtain ⟨-, rfl⟩ := Prod.mk.inj (Option.some.inj hstep)
      simp only [produceBooks, hline]
      exact h.stay rfl (by simp [Section, Produce.Section])
  | waitProd line =>
    obtain ⟨m₁, -, heq⟩ := Option.map_eq_some_iff.mp hstep
    obtain ⟨-, rfl⟩ := Prod.mk.inj heq
    exact h.acquire (by simp [Section, Produce.Section]) (by simp [Section, Produce.Section])
  | waitFree line =>
    obtain ⟨m₁, -, heq⟩ := Option.map_eq_some_iff.mp hstep
    obtain ⟨-, rfl⟩ := Prod.mk.inj heq
    exact h.stay rfl (by simp [Section, Produce.Section])
  | waitSlot line idx =>
    obtain ⟨m₁, -, heq⟩ := Option.map_eq_some_iff.mp hstep
    obtain ⟨-, rfl⟩ := Prod.mk.inj heq
    exact h.acquire (by simp [Section, Produce.Section]) (by simp [Section, Produce.Section])
  | postProd line idx =>
    obtain ⟨-, rfl⟩ := Prod.mk.inj (Option.some.inj hstep)
    apply h.release
    intro s hne hs
    exact hs.resolve_left hne
  | readDst line idx =>
    obtain ⟨q, -, heq⟩ := Option.map_eq_some_iff.mp hstep
    obtain ⟨-, rfl⟩ := Prod.mk.inj heq
    exact h.stay rfl (by simp [Section, Produce.Section])
  | copy idx dst rest =>
    cases rest with
    | nil =>
      obtain ⟨-, rfl⟩ := Prod.mk.inj (Option.some.inj hstep)
      exact h.stay rfl (by simp [Section, Produce.Section])
    | cons c rest =>
      obtain ⟨-, rfl⟩ := Prod.mk.inj (Option.some.inj hstep)
      exact h.stay rfl (by simp [Section, Produce.Section])
  | postSlot idx =>
    obtain ⟨-, rfl⟩ := Prod.mk.inj (Option.some.inj hstep)
    apply h.release
    simp [Section, Produce.Section]
  | readIndex | readCursor | writeCursor | store =>
    obtain ⟨-, rfl⟩ := Prod.mk.inj (Option.some.inj hstep)
    exact h.stay rfl (by simp [Section, Produce.Section])
  | returned => exact absurd hstep (Option.some_ne_none _).symm

theorem holdsInSection_consume {k : Fin cfg.K} {l l' : Consume cfg}
    (h : HoldsInSection (.cons k) b l) (hstep : consume k m l = some (m', l')) :
    HoldsInSection (.cons k) (consumeBooks k m l b) l' := by
  cases l with
  | waitCons =>
    obtain ⟨m₁, -, heq⟩ := Option.map_eq_some_iff.mp hstep
    obtain ⟨-, rfl⟩ := Prod.mk.inj heq
    exact h.acquire (by simp [Section, Consume.Section]) (by simp [Section, Consume.Section])
  | testSlot cur =>
    simp only [consume] at hstep
    split at hstep
    · obtain ⟨-, rfl⟩ := Prod.mk.inj (Option.some.inj hstep)
      exact h.stay rfl (by simp [Section, Consume.Section])
    · obtain ⟨-, rfl⟩ := Prod.mk.inj (Option.some.inj hstep)
      exact h.stay rfl (by simp [Section, Consume.Section])
  | postIdle =>
    obtain ⟨-, rfl⟩ := Prod.mk.inj (Option.some.inj hstep)
    apply h.release
    simp [Section, Consume.Section]
  | testDone =>
    simp only [consume] at hstep
    split at hstep
    · obtain ⟨-, rfl⟩ := Prod.mk.inj (Option.some.inj hstep)
      exact h.stay rfl (by simp [Section, Consume.Section])
    · obtain ⟨-, rfl⟩ := Prod.mk.inj (Option.some.inj hstep)
      exact h.stay rfl (by simp [Section, Consume.Section])
  | waitSlot idx =>
    obtain ⟨m₁, -, heq⟩ := Option.map_eq_some_iff.mp hstep
    obtain ⟨-, rfl⟩ := Prod.mk.inj heq
    apply h.acquire
    · simp [Section, Consume.Section]
    · simp only [Section, Consume.Section]
      exact fun s hs => Or.inl hs
  | postCons idx line =>
    obtain ⟨-, rfl⟩ := Prod.mk.inj (Option.some.inj hstep)
    apply h.release
    intro s hne hs
    exact hs.resolve_left hne
  | postSlot idx line =>
    obtain ⟨-, rfl⟩ := Prod.mk.inj (Option.some.inj hstep)
    apply h.release
    simp [Section, Consume.Section]
  | readCursor | readIndex | readNext | writeCursor | readLine | clear | postFree | examine
  | free =>
    obtain ⟨-, rfl⟩ := Prod.mk.inj (Option.some.inj hstep)
    exact h.stay rfl (by simp [Section, Consume.Section])
  | returned => exact absurd hstep (Option.some_ne_none _).symm

/-- What a thread knows, with the sections it is in. -/
def Placed (cfg : Config) (t : Thread cfg) (s : Mem cfg × Books cfg) (l : Local cfg t) : Prop :=
  Knowledge cfg t s l ∧ HoldsInSection t s.2 l

theorem placed_start (cfg : Config) (text : List UInt8) (t : Thread cfg) :
    Placed cfg t (bookStart cfg text).mem ((bookStart cfg text).loc t) :=
  ⟨knowledge_start cfg text t, fun _ hs => absurd hs (Option.some_ne_none t).symm⟩

theorem holdsInSection_step {t : Thread cfg} {s s' : Mem cfg × Books cfg} {l l' : Local cfg t}
    (hI : SemInv s.1 s.2) (h : HoldsInSection t s.2 l)
    (hstep : (booked cfg).step t s l = some (s', l')) : HoldsInSection t s'.2 l' := by
  obtain ⟨m, b⟩ := s
  obtain ⟨m', b'⟩ := s'
  obtain ⟨hmem, rfl⟩ := (Program.withHistory_step_eq_some _ _).mp hstep
  cases t with
  | main =>
    -- the main thread holds no semaphore
    exact fun s hs => (h s hs).elim
  | prod p => exact holdsInSection_produce h hmem
  | cons k => exact holdsInSection_consume h hmem

/-- **The holder of a semaphore is in its section**, in every reachable state. -/
theorem section_of_reach {s : Global (Mem cfg × Books cfg) (Local cfg)}
    (h : (booked cfg).Reach (bookStart cfg text) s) :
    ∀ t, HoldsInSection t s.mem.2 (s.loc t) := by
  have key := h.relyGuarantee (I := fun s => SemInv s.1 s.2) (A := Placed cfg)
    (G := fun t s s' => Guar t s.1 s.2 s'.1 s'.2) ?_ ?_ (semInv_start cfg text)
    (placed_start cfg text)
  · exact fun t => (key.2 t).2
  · intro t s l s' l' hI hA hstep
    obtain ⟨hI', hK', hG⟩ := booked_keeps hI hA.1 hstep
    exact ⟨hI', ⟨hK', holdsInSection_step hI hA.2 hstep⟩, hG⟩
  · intro t u s s' l hne _ _ hG hA
    exact ⟨hA.1.frame hne hG, fun x hx => hA.2 x ((hG.holder x u hne).mp hx)⟩

/-! ### Threads that cannot go on -/

theorem semWait_eq_none {s : SemId cfg} (h : semWait s m = none) : m.sems s = 0 := by
  unfold semWait at h
  split at h
  · exact absurd h (Option.some_ne_none _)
  · omega

/-- A semaphore that lets nobody pass is held. -/
theorem SemInv.exists_holder (h : SemInv m b) {s : SemId cfg} (hs : s ≠ .free)
    (hwait : semWait s m = none) : ∃ t, b.holder s = some t := by
  have hval := h.value s hs
  rw [semWait_eq_none hwait] at hval
  by_contra hne
  rw [if_pos (by simpa [Option.eq_none_iff_forall_ne_some] using hne)] at hval
  exact absurd hval (by decide)

/-- Where a producer is that cannot go on. -/
theorem produce_blocked (h : SemInv m b) {p : Fin cfg.P} {l : Produce cfg}
    (hk : ProdKnows p m b l) (hnone : produce p m l = none) :
    l = .returned ∨ (∃ line t, l = .waitProd line ∧ b.holder .prod = some t) ∨
      (∃ line, l = .waitFree line ∧ m.sems .free = 0) ∨
      ∃ line idx t, l = .waitSlot line idx ∧ b.holder (.slot idx) = some t := by
  cases l with
  | fgets =>
    simp only [produce] at hnone
    split at hnone <;> exact absurd hnone (Option.some_ne_none _)
  | waitProd line =>
    obtain ⟨t, ht⟩ := h.exists_holder (by simp) (Option.map_eq_none_iff.mp hnone)
    exact Or.inr (Or.inl ⟨line, t, rfl, ht⟩)
  | waitFree line =>
    have hzero := semWait_eq_none (Option.map_eq_none_iff.mp hnone)
    exact Or.inr (Or.inr (Or.inl ⟨line, rfl, hzero⟩))
  | waitSlot line idx =>
    obtain ⟨t, ht⟩ := h.exists_holder (by simp) (Option.map_eq_none_iff.mp hnone)
    exact Or.inr (Or.inr (Or.inr ⟨line, idx, t, rfl, ht⟩))
  | readDst line idx =>
    -- the slot shows the block just stored
    obtain ⟨-, q, hf, -⟩ := hk
    have hlt := h.lt_claims hf.block
    have hshows := h.shows _ hf.late (lt_of_lt_of_le hlt h.claims_lt_window)
    have hnull : m.sharedResource idx = none := Option.map_eq_none_iff.mp hnone
    rw [hf.idx_eq] at hnull
    exact absurd ((hf.block.symm.trans hshows.symm).trans hnull) (Option.some_ne_none q)
  | copy idx dst rest => cases rest <;> exact absurd hnone (Option.some_ne_none _)
  | returned => exact Or.inl rfl
  | readIndex | readCursor | writeCursor | postProd | store | postSlot =>
    exact absurd hnone (Option.some_ne_none _)

/-- Where a consumer is that cannot go on. -/
theorem consume_blocked (h : SemInv m b) {k : Fin cfg.K} {l : Consume cfg}
    (hnone : consume k m l = none) :
    l = .returned ∨ (∃ t, l = .waitCons ∧ b.holder .cons = some t) ∨
      ∃ idx t, l = .waitSlot idx ∧ b.holder (.slot idx) = some t := by
  cases l with
  | waitCons =>
    obtain ⟨t, ht⟩ := h.exists_holder (by simp) (Option.map_eq_none_iff.mp hnone)
    exact Or.inr (Or.inl ⟨t, rfl, ht⟩)
  | waitSlot idx =>
    obtain ⟨t, ht⟩ := h.exists_holder (by simp) (Option.map_eq_none_iff.mp hnone)
    exact Or.inr (Or.inr ⟨idx, t, rfl, ht⟩)
  | testSlot cur =>
    simp only [consume] at hnone
    split at hnone <;> exact absurd hnone (Option.some_ne_none _)
  | testDone =>
    simp only [consume] at hnone
    split at hnone <;> exact absurd hnone (Option.some_ne_none _)
  | returned => exact Or.inl rfl
  | _ => exact absurd hnone (Option.some_ne_none _)

section Blocked

variable {s : Global (Mem cfg × Books cfg) (Local cfg)}

/-- The threads that can take a step. -/
def CanStep (s : Global (Mem cfg × Books cfg) (Local cfg)) (t : Thread cfg) : Prop :=
  (booked cfg).step t s.mem (s.loc t) ≠ none

theorem canStep_prod_iff {p : Fin cfg.P} :
    CanStep s (.prod p) ↔ produce p s.mem.1 (s.loc (.prod p)) ≠ none := by
  unfold CanStep booked Program.withHistory
  exact not_congr Option.map_eq_none_iff

theorem canStep_cons_iff {k : Fin cfg.K} :
    CanStep s (.cons k) ↔ consume k s.mem.1 (s.loc (.cons k)) ≠ none := by
  unfold CanStep booked Program.withHistory
  exact not_congr Option.map_eq_none_iff

/-- The holder of the semaphore of a slot can go on. -/
theorem canStep_of_slot_held (h : (booked cfg).Reach (bookStart cfg text) s) {idx : Fin cfg.N}
    {t : Thread cfg} (hheld : s.mem.2.holder (.slot idx) = some t) :
    CanStep s t ∧ Section t (s.loc t) (.slot idx) := by
  obtain ⟨hI, hA⟩ := knows_of_reach h
  have hsec := section_of_reach h t _ hheld
  refine ⟨?_, hsec⟩
  cases t with
  | main => exact hsec.elim
  | prod p =>
    rw [canStep_prod_iff]
    intro hnone
    rcases produce_blocked hI (hA (.prod p)) hnone with hl | ⟨_, _, hl, -⟩ | ⟨_, hl, -⟩ |
      ⟨_, _, _, hl, -⟩
    all_goals
      rw [hl] at hsec
      simp [Section, Produce.Section] at hsec
  | cons k =>
    rw [canStep_cons_iff]
    intro hnone
    rcases consume_blocked hI hnone with hl | ⟨_, hl, -⟩ | ⟨_, _, hl, -⟩
    all_goals
      rw [hl] at hsec
      simp [Section, Consume.Section] at hsec

end Blocked

end Sem
end ProdCons
end OpSys
