import OpSys.Lib.Interleave
import Mathlib.Data.Nat.Notation

/-!
# Sections under one semaphore

Threads that touch their shared store only between the `wait` and the `post` of one
semaphore.  In the program of the statements a section is many steps, and the other
threads may step between any two of them.  In the program of the sections each is one
step.  The states of the first in which the semaphore is free are those of the second.

## Main definitions

* `Sections` — the statements of the threads, between and inside their sections.
* `Sections.program` — the statements as steps, with the semaphore.
* `Sections.Inside` — the statements of a section that is not interrupted.
* `Sections.Performs` — a program whose steps are whole sections.
* `Sections.Serial` — the store is that of a program of sections, and of at most one
  section more, which is under way.

## Main results

* `Sections.Performs.serial` — every reachable state is serial.
* `Sections.Performs.reach_free_iff` — the states with a free semaphore.
* `Sections.Performs.exists_free` — a section that has begun can always be finished.
-/

namespace OpSys

/-- A shared store, and the value of the semaphore that guards it. -/
@[ext]
structure Guarded (σ : Type*) where
  mem : σ
  sem : ℕ

/-- Where a thread is. -/
inductive Point (A B : Type*)
  /-- Between two sections. -/
  | between (a : A)
  /-- Inside a section. -/
  | inside (b : B)
  deriving DecidableEq

/-- What a thread does between two sections. -/
inductive Between (A B : Type*)
  /-- A step that does not touch the store. -/
  | goOn (a : A)
  /-- The `wait` of the semaphore, and the first statement behind it. -/
  | wait (b : B)
  | done

/-- What a thread does inside a section. -/
inductive Stmt (σ A B : Type*)
  /-- A statement. -/
  | goOn (m : σ) (b : B)
  /-- The `post` of the semaphore. -/
  | post (a : A)

/-- The statements of threads named by `ι` over a store `σ`. -/
structure Sections (ι σ : Type*) (A B : ι → Type*) where
  between : (t : ι) → A t → Between (A t) (B t)
  stmt : (t : ι) → σ → B t → Stmt σ (A t) (B t)

namespace Sections

variable {ι σ : Type*} {A B : ι → Type*} (S : Sections ι σ A B)

/-- The local states of the program of the statements. -/
@[reducible] def Local (A B : ι → Type*) (t : ι) : Type _ := Point (A t) (B t)

/-- The step of a thread between two sections. -/
def betweenStep (g : Guarded σ) {t : ι} :
    Between (A t) (B t) → Option (Guarded σ × Point (A t) (B t))
  | .goOn a => some (g, .between a)
  | .wait b => if 0 < g.sem then some ({ g with sem := g.sem - 1 }, .inside b) else none
  | .done => none

/-- The step of a thread inside a section. -/
def insideStep (g : Guarded σ) {t : ι} :
    Stmt σ (A t) (B t) → Option (Guarded σ × Point (A t) (B t))
  | .goOn m b => some ({ g with mem := m }, .inside b)
  | .post a => some ({ g with sem := g.sem + 1 }, .between a)

/-- The program of the statements. -/
def program : Program ι (Guarded σ) (Local A B) where
  step t g
    | .between a => betweenStep g (S.between t a)
    | .inside b => insideStep g (S.stmt t g.mem b)

/-- Statements of thread `t` from one state of the store and the thread to another. -/
def Inside (t : ι) : σ × B t → σ × B t → Prop :=
  Relation.ReflTransGen fun x y => S.stmt t x.1 x.2 = .goOn y.1 y.2

/-- The section of thread `t` from `b` on in the store `m` ends in `m'`, and the thread
goes on from `a`. -/
def Ends (t : ι) (m : σ) (b : B t) (m' : σ) (a : A t) : Prop :=
  ∃ b', S.Inside t (m, b) (m', b') ∧ S.stmt t m' b' = .post a

/-- The steps of `Q` are the sections. -/
structure Performs (Q : Program ι σ A) : Prop where
  done : ∀ t a, S.between t a = .done → ∀ m, Q.step t m a = none
  goOn : ∀ t a a', S.between t a = .goOn a' → ∀ m, Q.step t m a = some (m, a')
  wait : ∀ t a b, S.between t a = .wait b → ∀ m,
    ∃ m' a', S.Ends t m b m' a' ∧ Q.step t m a = some (m', a')

/-- A state of the program of the sections, as one of the program of the statements. -/
def embed (B : ι → Type*) (s : Global σ A) : Global (Guarded σ) (Local A B) :=
  ⟨⟨s.mem, 1⟩, fun t => .between (s.loc t)⟩

/-- The state `r` is `s` with the semaphore free. -/
structure Free (s : Global σ A) (r : Global (Guarded σ) (Local A B)) : Prop where
  mem : r.mem = ⟨s.mem, 1⟩
  loc : ∀ t, r.loc t = .between (s.loc t)

/-- The state `r` is `s` with a section of thread `t` under way. -/
structure Held (s : Global σ A) (r : Global (Guarded σ) (Local A B)) (t : ι) (b₀ b : B t) :
    Prop where
  sem : r.mem.sem = 0
  waited : S.between t (s.loc t) = .wait b₀
  inside : S.Inside t (s.mem, b₀) (r.mem.mem, b)
  self : r.loc t = .inside b
  others : ∀ u, u ≠ t → r.loc u = .between (s.loc u)

/-- The state `r` is a state `s` that `P` describes, or `s` with one section under way. -/
def Serial (P : Global σ A → Prop) (r : Global (Guarded σ) (Local A B)) : Prop :=
  ∃ s, P s ∧ (Free s r ∨ ∃ t b₀ b, S.Held s r t b₀ b)

/-! ### What a section does -/

variable {S}

theorem Inside.refl {t : ι} (x : σ × B t) : S.Inside t x x := Relation.ReflTransGen.refl

theorem Inside.trans {t : ι} {x y z : σ × B t} (hxy : S.Inside t x y) (hyz : S.Inside t y z) :
    S.Inside t x z :=
  Relation.ReflTransGen.trans hxy hyz

/-- A statement, and what comes after it. -/
theorem Inside.head {t : ι} {m m' : σ} {b b' : B t} {z : σ × B t}
    (h : S.stmt t m b = .goOn m' b') (hz : S.Inside t (m', b') z) : S.Inside t (m, b) z :=
  Relation.ReflTransGen.head (b := (m', b')) h hz

/-- A section that has got to its `post` does not go on. -/
theorem Inside.eq_of_post {t : ι} {m : σ} {b : B t} {a : A t} {y : σ × B t}
    (h : S.Inside t (m, b) y) (hpost : S.stmt t m b = .post a) : y = (m, b) := by
  rcases Relation.ReflTransGen.cases_head h with heq | ⟨z, hz, -⟩
  · exact heq.symm
  · rw [hpost] at hz
    exact absurd hz (by simp)

/-- What is left of a section. -/
theorem Ends.rest {t : ι} {m m₁ m' : σ} {b b₁ : B t} {a : A t} (h : S.Ends t m b m' a)
    (hin : S.Inside t (m, b) (m₁, b₁)) : S.Ends t m₁ b₁ m' a := by
  obtain ⟨b', hin', hpost⟩ := h
  -- the statements of a section follow each other in one way only
  have hright : Relator.RightUnique fun x y : σ × B t => S.stmt t x.1 x.2 = .goOn y.1 y.2 := by
    rintro x ⟨m, b⟩ ⟨m', b'⟩ hy hz
    obtain ⟨rfl, rfl⟩ := Stmt.goOn.inj (hy.symm.trans hz)
    rfl
  rcases Relation.ReflTransGen.total_of_right_unique hright hin hin' with hle | hle
  · exact ⟨b', hle, hpost⟩
  · obtain ⟨rfl, rfl⟩ := Prod.mk.inj (Inside.eq_of_post hle hpost)
    exact ⟨_, Inside.refl _, hpost⟩

/-- A section has one end. -/
theorem Ends.unique {t : ι} {m m₁ m' : σ} {b b₁ : B t} {a a₁ : A t} (h : S.Ends t m b m' a)
    (hin : S.Inside t (m, b) (m₁, b₁)) (hpost₁ : S.stmt t m₁ b₁ = .post a₁) :
    m₁ = m' ∧ a₁ = a := by
  obtain ⟨b', hin', hpost⟩ := h.rest hin
  obtain ⟨rfl, rfl⟩ := Prod.mk.inj (hin'.eq_of_post hpost₁)
  exact ⟨rfl, Stmt.post.inj (hpost₁.symm.trans hpost)⟩

theorem free_embed (s : Global σ A) : Free s (embed B s) := ⟨rfl, fun _ => rfl⟩

theorem Free.eq_embed {s : Global σ A} {r : Global (Guarded σ) (Local A B)} (h : Free s r) :
    r = embed B s :=
  Global.ext h.mem (funext h.loc)

/-- The semaphore is taken just when a thread is inside a section, and no two are. -/
theorem Serial.exclusive {P : Global σ A → Prop} {r : Global (Guarded σ) (Local A B)}
    (h : S.Serial P r) :
    (r.mem.sem = 1 ∧ ∀ t b, r.loc t ≠ .inside b) ∨
      (r.mem.sem = 0 ∧ ∃ t, (∃ b, r.loc t = .inside b) ∧ ∀ u b, r.loc u = .inside b → u = t) := by
  obtain ⟨s, -, hfree | ⟨t, b₀, b, hheld⟩⟩ := h
  · left
    refine ⟨by rw [hfree.mem], fun t b hin => ?_⟩
    rw [hfree.loc t] at hin
    exact absurd hin (by simp)
  · right
    refine ⟨hheld.sem, t, ⟨b, hheld.self⟩, fun u b' hin => ?_⟩
    by_contra hu
    rw [hheld.others u hu] at hin
    exact absurd hin (by simp)

/-- A run of one thread inside its section. -/
theorem Inside.solo {t : ι} {b : B t} {y : σ × B t} {m : σ} {n : ℕ}
    (h : S.Inside t (m, b) y) :
    S.program.Solo t (⟨m, n⟩, .inside b) (⟨y.1, n⟩, .inside y.2) := by
  induction h with
  | refl => exact Program.Solo.refl _
  | tail _ hlast ih =>
    apply ih.trans
    refine Program.Solo.head ?_ (Program.Solo.refl _)
    simp only [program, hlast, insideStep]

/-- A whole section is a run of its thread alone. -/
theorem Ends.solo {t : ι} {m m' : σ} {b : B t} {a : A t} {n : ℕ} (h : S.Ends t m b m' a) :
    S.program.Solo t (⟨m, n⟩, .inside b) (⟨m', n + 1⟩, .between a) := by
  obtain ⟨b', hin, hpost⟩ := h
  apply hin.solo.trans
  refine Program.Solo.head ?_ (Program.Solo.refl _)
  simp only [program, hpost, insideStep]

/-- What a thread does alone with the rest of its section. -/
theorem Held.rest {s : Global σ A} {r : Global (Guarded σ) (Local A B)} {t : ι} {b₀ b : B t}
    (h : S.Held s r t b₀ b) {m : σ} {a : A t} (hends : S.Ends t s.mem b₀ m a) :
    S.program.Solo t (r.mem, .inside b) (⟨m, 1⟩, .between a) := by
  have hmem : r.mem = ⟨r.mem.mem, 0⟩ := Guarded.ext rfl h.sem
  rw [hmem]
  exact (hends.rest h.inside).solo

/-- A step of the sections is a run of the statements. -/
theorem Performs.solo {Q : Program ι σ A} (hQ : S.Performs Q) {t : ι} {m m' : σ} {a a' : A t}
    (hstep : Q.step t m a = some (m', a')) :
    S.program.Solo t (⟨m, 1⟩, .between a) (⟨m', 1⟩, .between a') := by
  cases hb : S.between t a with
  | done =>
    rw [hQ.done t a hb] at hstep
    exact absurd hstep (Option.some_ne_none _).symm
  | goOn a₁ =>
    rw [hQ.goOn t a a₁ hb] at hstep
    obtain ⟨rfl, rfl⟩ := Prod.mk.inj (Option.some.inj hstep)
    refine Program.Solo.head ?_ (Program.Solo.refl _)
    simp only [program, hb, betweenStep]
  | wait b =>
    obtain ⟨m₁, a₁, hends, hsec⟩ := hQ.wait t a b hb m
    rw [hsec] at hstep
    obtain ⟨rfl, rfl⟩ := Prod.mk.inj (Option.some.inj hstep)
    have hwait : S.program.step t ⟨m, 1⟩ (.between a) = some (⟨m, 0⟩, .inside b) := by
      simp only [program, hb, betweenStep, Nat.zero_lt_one, if_true, Nat.sub_self]
    exact Program.Solo.head hwait hends.solo

/-! ### Every state is serial -/

section Serial

variable [DecidableEq ι] {Q : Program ι σ A} {P : Global σ A → Prop} {s : Global σ A}
  {r r' : Global (Guarded σ) (Local A B)} {t : ι}

/-- The thread `t` steps while the semaphore is free. -/
theorem Free.next (hQ : S.Performs Q) (hP : ∀ s s', P s → Q.Step s s' → P s') (hs : P s)
    (h : Free s r) (hstep : S.program.next t r = some r') : S.Serial P r' := by
  obtain ⟨g, l, hprog, rfl⟩ := S.program.next_eq_some hstep
  rw [h.mem, h.loc t] at hprog
  cases hb : S.between t (s.loc t) with
  | done =>
    simp only [program, hb, betweenStep] at hprog
    exact absurd hprog (Option.some_ne_none _).symm
  | goOn a =>
    simp only [program, hb, betweenStep, Option.some.injEq, Prod.mk.injEq] at hprog
    obtain ⟨rfl, rfl⟩ := hprog
    -- the other program takes the same step
    have hnext : Q.next t s = some ⟨s.mem, Function.update s.loc t a⟩ := by
      rw [Program.next, hQ.goOn t _ _ hb, Option.map_some]
    refine ⟨_, hP _ _ hs ⟨t, hnext⟩, Or.inl ⟨rfl, fun u => ?_⟩⟩
    by_cases hu : u = t
    · subst hu
      simp
    · simp [Function.update_of_ne hu, h.loc u]
  | wait b =>
    simp only [program, hb, betweenStep, Nat.zero_lt_one, if_true, Option.some.injEq,
      Prod.mk.injEq] at hprog
    obtain ⟨rfl, rfl⟩ := hprog
    refine ⟨s, hs, Or.inr ⟨t, b, b, rfl, hb, Inside.refl _, Function.update_self _ _ _, ?_⟩⟩
    intro u hu
    exact (Function.update_of_ne hu _ _).trans (h.loc u)

/-- The thread `t` steps while a section of thread `u` is under way. -/
theorem Held.next (hQ : S.Performs Q) (hP : ∀ s s', P s → Q.Step s s' → P s') (hs : P s) {u : ι}
    {b₀ b : B u} (h : S.Held s r u b₀ b) (hstep : S.program.next t r = some r') :
    S.Serial P r' := by
  obtain ⟨g, l, hprog, rfl⟩ := S.program.next_eq_some hstep
  by_cases hut : t = u
  · subst hut
    rw [h.self] at hprog
    cases hst : S.stmt t r.mem.mem b with
    | goOn m b' =>
      simp only [program, hst, insideStep, Option.some.injEq, Prod.mk.injEq] at hprog
      obtain ⟨rfl, rfl⟩ := hprog
      refine ⟨s, hs, Or.inr ⟨t, b₀, b', h.sem, h.waited, ?_, Function.update_self _ _ _, ?_⟩⟩
      · exact h.inside.trans (Inside.head hst (Inside.refl _))
      · intro v hv
        exact (Function.update_of_ne hv _ _).trans (h.others v hv)
    | post a =>
      simp only [program, hst, insideStep, Option.some.injEq, Prod.mk.injEq] at hprog
      obtain ⟨rfl, rfl⟩ := hprog
      -- the other program takes the whole section in one step
      obtain ⟨m', a', hends, hsec⟩ := hQ.wait t _ _ h.waited s.mem
      obtain ⟨hmem, rfl⟩ := hends.unique h.inside hst
      have hnext : Q.next t s = some ⟨m', Function.update s.loc t a⟩ := by
        rw [Program.next, hsec, Option.map_some]
      refine ⟨_, hP _ _ hs ⟨t, hnext⟩, Or.inl ⟨?_, fun v => ?_⟩⟩
      · rw [hmem, h.sem]
      · by_cases hv : v = t
        · subst hv
          simp
        · simp [Function.update_of_ne hv, h.others v hv]
  · -- the others are between sections and cannot get the semaphore
    rw [h.others t hut] at hprog
    cases hb : S.between t (s.loc t) with
    | done =>
      simp only [program, hb, betweenStep] at hprog
      exact absurd hprog (Option.some_ne_none _).symm
    | wait b' =>
      simp only [program, hb, betweenStep, h.sem, Nat.lt_irrefl, if_false] at hprog
      exact absurd hprog (Option.some_ne_none _).symm
    | goOn a =>
      simp only [program, hb, betweenStep, Option.some.injEq, Prod.mk.injEq] at hprog
      obtain ⟨rfl, rfl⟩ := hprog
      have hnext : Q.next t s = some ⟨s.mem, Function.update s.loc t a⟩ := by
        rw [Program.next, hQ.goOn t _ _ hb, Option.map_some]
      refine ⟨_, hP _ _ hs ⟨t, hnext⟩, Or.inr ⟨u, b₀, b, h.sem, ?_, h.inside, ?_, ?_⟩⟩
      · show S.between u (Function.update s.loc t a u) = .wait b₀
        rw [Function.update_of_ne (Ne.symm hut)]
        exact h.waited
      · exact (Function.update_of_ne (Ne.symm hut) _ _).trans h.self
      · intro v hv
        by_cases hvt : v = t
        · subst hvt
          simp
        · simp [Function.update_of_ne hvt, h.others v hv]

/-- Every state that is reached from one with a free semaphore is serial. -/
theorem Performs.serial (hQ : S.Performs Q) (h : S.program.Reach (embed B s) r) :
    S.Serial (Q.Reach s) r := by
  have hP : ∀ s₁ s₂, Q.Reach s s₁ → Q.Step s₁ s₂ → Q.Reach s s₂ :=
    fun _ _ hreach hstep => Relation.ReflTransGen.tail hreach hstep
  apply h.invariant
  · exact ⟨s, Program.Reach.refl s, Or.inl (free_embed s)⟩
  · rintro t r₁ r₂ - ⟨s₁, hs₁, hfree | ⟨u, b₀, b, hheld⟩⟩ hstep
    · exact hfree.next hQ hP hs₁ hstep
    · exact hheld.next hQ hP hs₁ hstep

/-! ### The sections as runs of the statements -/

/-- The program of the statements reaches what the program of the sections reaches. -/
theorem Performs.reach_embed (hQ : S.Performs Q) {s' : Global σ A} (h : Q.Reach s s') :
    S.program.Reach (embed B s) (embed B s') := by
  induction h with
  | refl => exact Program.Reach.refl _
  | @tail s₁ s₂ _ hlast ih =>
    obtain ⟨t, hnext⟩ := hlast
    obtain ⟨m, a, hstep, rfl⟩ := Q.next_eq_some hnext
    obtain ⟨r, hreach, hmem, hself, hothers⟩ :=
      (hQ.solo hstep).exists_reach (s := embed B s₁) rfl
    suffices heq : r = embed B ⟨m, Function.update s₁.loc t a⟩ by
      rw [← heq]
      exact ih.trans hreach
    refine Global.ext hmem (funext fun u => ?_)
    by_cases hu : u = t
    · subst hu
      rw [hself]
      simp [embed]
    · rw [hothers u hu]
      simp [embed, Function.update_of_ne hu]

/-- **The states with a free semaphore are those of the program of the sections.** -/
theorem Performs.reach_free_iff (hQ : S.Performs Q) (hfree : r.mem.sem ≠ 0) :
    S.program.Reach (embed B s) r ↔ ∃ s', Q.Reach s s' ∧ r = embed B s' := by
  constructor
  · intro h
    obtain ⟨s', hreach, hf | ⟨t, b₀, b, hheld⟩⟩ := hQ.serial h
    · exact ⟨s', hreach, hf.eq_embed⟩
    · exact absurd hheld.sem hfree
  · rintro ⟨s', hreach, rfl⟩
    exact hQ.reach_embed hreach

/-- A section that is under way can be finished by its thread. -/
theorem Performs.exists_free (hQ : S.Performs Q) (h : S.program.Reach (embed B s) r) :
    ∃ s', Q.Reach s s' ∧ S.program.Reach r (embed B s') := by
  obtain ⟨s₁, hreach, hf | ⟨t, b₀, b, hheld⟩⟩ := hQ.serial h
  · refine ⟨s₁, hreach, ?_⟩
    rw [hf.eq_embed]
    exact Program.Reach.refl _
  · obtain ⟨m, a, ⟨b', hin, hpost⟩, hsec⟩ := hQ.wait t _ _ hheld.waited s₁.mem
    have hnext : Q.next t s₁ = some ⟨m, Function.update s₁.loc t a⟩ := by
      rw [Program.next, hsec, Option.map_some]
    refine ⟨_, Relation.ReflTransGen.tail hreach ⟨t, hnext⟩, ?_⟩
    obtain ⟨r', hreach', hmem, hself, hothers⟩ :=
      (hheld.rest ⟨b', hin, hpost⟩).exists_reach hheld.self
    suffices heq : r' = embed B ⟨m, Function.update s₁.loc t a⟩ by
      rw [← heq]
      exact hreach'
    refine Global.ext hmem (funext fun u => ?_)
    by_cases hu : u = t
    · subst hu
      rw [hself]
      simp [embed]
    · rw [hothers u hu, hheld.others u hu]
      simp [embed, Function.update_of_ne hu]

end Serial

end Sections

end OpSys
