import OpSys.ProdCons.Sem.Drain

/-!
# What `full_info` decides

`full_info` is read at seven places of `produce` and `consume`.  At six of them it
decides whether a message is printed and nothing else.  At the seventh, after
`done_producing` has been found set, `return NULL` stands in the block of the
message: a consumer returns if `full_info` is not zero, and otherwise it looks for
lines for ever.

So the runs of the two settings go through the same states as long as no consumer
finds `done_producing` set.  Once it is set and the slots are empty, the system ends
under every fair schedule if `full_info` is not zero, and under none if it is.

## Main definitions

* `Notice`, `notices` — the messages, and where they are printed.
* `programWith info` — the system with another value of `full_info`.
* `talking info` — the system with the messages printed so far.
* `Unnoticed` — a step that does not find `done_producing` set.
* `ShutsDown` — every fair schedule leads to the end of `wait_threads`.

## Main results

* `programWith_fullInfo` — with its own value it is the system itself.
* `sameStates_iff` — when the two settings go through the same states.
* `shutsDown_iff` — when the system ends.
* `full_info_decides` — both together, for every configuration and file.
-/

namespace OpSys
namespace ProdCons
namespace Sem

variable {cfg : Config} {text : List UInt8} {m m' : Mem cfg} {b : Books cfg}

/-! ### The messages -/

/-- The messages that are printed if `full_info` is set. -/
inductive Notice (cfg : Config)
  /-- "Producer: reading line from file" -/
  | readingLine (p : Fin cfg.P)
  /-- "Producer: obtaining shared resource access on index" -/
  | prodAccess (p : Fin cfg.P) (idx : Fin cfg.N)
  /-- "Producer: line copied to shared resource at index" -/
  | lineCopied (p : Fin cfg.P) (idx : Fin cfg.N)
  /-- "Producer: finished producing" -/
  | finishedProducing (p : Fin cfg.P)
  /-- "Consumer: finished consuming" -/
  | finishedConsuming (k : Fin cfg.K)
  /-- "Consumer: obtaining shared resource access on index" -/
  | consAccess (k : Fin cfg.K) (idx : Fin cfg.N)
  /-- "Consumer: reading from shared resource at index" -/
  | reading (k : Fin cfg.K) (idx : Fin cfg.N)
  deriving DecidableEq

/-- The message printed with a step. -/
def notices : (t : Thread cfg) → Mem cfg → Local cfg t → List (Notice cfg)
  | .prod p, m, .fgets =>
    if (Stdio.fgets lineMax m.file).isSome then [.readingLine p] else [.finishedProducing p]
  | .prod p, m, .readIndex _ => [.prodAccess p m.currProd]
  | .prod p, _, .copy idx _ [] => [.lineCopied p idx]
  | .cons k, m, .testDone => if m.doneProducing then [.finishedConsuming k] else []
  | .cons k, m, .readIndex => [.consAccess k m.currCons]
  | .cons k, _, .clear idx _ => [.reading k idx]
  | _, _, _ => []

/-- `consume` with the value `info` of `full_info`. -/
def consumeWith (info : ℤ) (k : Fin cfg.K) (m : Mem cfg) :
    Consume cfg → Option (Mem cfg × Consume cfg)
  | .testDone =>
    if m.doneProducing && info != 0 then some (m.withStore (m.exit (.cons k)), .returned)
    else some (m, .waitCons)
  | l => consume k m l

/-- The system with the value `info` of `full_info`. -/
def programWith (cfg : Config) (info : ℤ) : Program (Thread cfg) (Mem cfg) (Local cfg) where
  step
    | .cons k, m, l => consumeWith info k m l
    | t, m, l => (program cfg).step t m l

/-- The system and what it has printed. -/
def talking (cfg : Config) (info : ℤ) :
    Program (Thread cfg) (Mem cfg × List (Notice cfg)) (Local cfg) :=
  (programWith cfg info).withHistory fun t m l out =>
    if info != 0 then out ++ notices t m l else out

/-- The start, with nothing printed. -/
def talkStart (cfg : Config) (text : List UInt8) :
    Global (Mem cfg × List (Notice cfg)) (Local cfg) :=
  ⟨(setUp cfg text, []), (start cfg text).loc⟩

/-- **With its own value of `full_info` the system is the one modelled.** -/
theorem programWith_fullInfo (cfg : Config) : programWith cfg cfg.fullInfo = program cfg := by
  have hstep : ∀ t m l, (programWith cfg cfg.fullInfo).step t m l = (program cfg).step t m l := by
    intro t m l
    cases t with
    | main => rfl
    | prod p => rfl
    | cons k => cases l <;> rfl
  exact congrArg Program.mk (funext fun t => funext fun m => funext fun l => hstep t m l)

/-! ### The same states -/

/-- With `full_info` zero and with the value `info` the schedule leads through the same
shared memories and the same program counters. -/
def SameStates (cfg : Config) (text : List UInt8) (info : ℤ) (sched : List (Thread cfg)) : Prop :=
  ∀ n, ((talking cfg 0).run (sched.take n) (talkStart cfg text)).erase =
    ((talking cfg info).run (sched.take n) (talkStart cfg text)).erase

/-- The step is not the test of `done_producing` after it has been set. -/
def Unnoticed (cfg : Config) : (t : Thread cfg) → Mem cfg → Local cfg t → Prop
  | .cons _, m, l => ¬ (l = .testDone ∧ m.doneProducing = true)
  | _, _, _ => True

instance (t : Thread cfg) (m : Mem cfg) (l : Local cfg t) : Decidable (Unnoticed cfg t m l) :=
  match t with
  | .main | .prod _ => isTrue trivial
  | .cons _ => inferInstanceAs (Decidable (¬ (_ ∧ _)))

theorem consumeWith_eq {info : ℤ} {k : Fin cfg.K} {l : Consume cfg}
    (h : ¬ (l = .testDone ∧ m.doneProducing = true)) :
    consumeWith 0 k m l = consumeWith info k m l := by
  cases l with
  | testDone =>
    have hdone : m.doneProducing = false := by simpa using h
    simp only [consumeWith, hdone, Bool.false_and]
  | _ => rfl

/-- **The two settings go through the same states along a schedule if and only if no consumer
finds `done_producing` set.** -/
theorem sameStates_iff {info : ℤ} (hinfo : info ≠ 0) (text : List UInt8)
    (sched : List (Thread cfg)) :
    SameStates cfg text info sched ↔
      (programWith cfg 0).Meets (Unnoticed cfg) sched (start cfg text) := by
  have herase : ∀ i n, ((talking cfg i).run (sched.take n) (talkStart cfg text)).erase =
      (programWith cfg i).run (sched.take n) (start cfg text) :=
    fun i n => (programWith cfg i).erase_run_withHistory _ _ (talkStart cfg text)
  unfold SameStates
  simp only [herase]
  refine Program.agree_iff_meets ?_ ?_ sched (start cfg text)
  · intro t m l hok
    cases t with
    | main => rfl
    | prod p => rfl
    | cons k =>
      by_cases htest : l = .testDone
      · subst htest
        refine consumeWith_eq (hok ?_)
        simp only [programWith, consumeWith]
        split <;> rfl
      · exact consumeWith_eq fun h => htest h.1
  · intro t s _ hnot
    cases t with
    | main => exact absurd trivial hnot
    | prod p => exact absurd trivial hnot
    | cons k =>
      obtain ⟨hloc, hdone⟩ := not_not.mp hnot
      have hstay : (programWith cfg 0).next (.cons k) s =
          some ⟨s.mem, Function.update s.loc (.cons k) .waitCons⟩ := by
        simp [Program.next, programWith, consumeWith, hloc]
      have hleave : (programWith cfg info).next (.cons k) s =
          some ⟨s.mem.withStore (s.mem.exit (.cons k)),
            Function.update s.loc (.cons k) .returned⟩ := by
        simp [Program.next, programWith, consumeWith, hloc, hdone, hinfo]
      rw [hstay, hleave]
      intro heq
      have hpc := congrArg (fun g => Global.loc g (.cons k)) heq
      simp at hpc

/-! ### The end of the system -/

/-- `done_producing` is set and all slots are `NULL`. -/
structure Over (m : Mem cfg) : Prop where
  done : m.doneProducing = true
  empty : ∀ i, m.sharedResource i = none

/-- Once `done_producing` is set and all slots are `NULL`, every fair schedule makes every
consumer return and leads to the end of `wait_threads`. -/
def ShutsDown (cfg : Config) (text : List UInt8) : Prop :=
  ∀ s, (booked cfg).Reach (bookStart cfg text) s → Over s.mem.1 →
    ∀ sched : ℕ → Thread cfg, Program.Fair sched →
      ∃ n, (∀ k, ((booked cfg).trace sched s n).loc (.cons k) = .returned) ∧
        ((booked cfg).trace sched s n).loc .main = .cleanUp

/-- The steps a consumer has still to take before it returns, when there is no line. -/
def leaveRank : Consume cfg → ℕ
  | .postFree _ _ => 10
  | .postCons _ _ => 9
  | .postSlot _ _ => 8
  | .examine _ => 7
  | .free _ => 6
  | .waitCons => 5
  | .readCursor => 4
  | .testSlot _ => 3
  | .postIdle => 2
  | .testDone => 1
  | _ => 0

/-- The steps the main thread has still to take. -/
def joinRank (cfg : Config) : WaitThreads → ℕ
  | .joinProd p => (cfg.P - p) + cfg.K + 4
  | .setDone => cfg.K + 3
  | .joinCons k => (cfg.K - k) + 1
  | .cleanUp => 0

/-- The steps a thread has still to take. -/
def endRank : (t : Thread cfg) → Local cfg t → ℕ
  | .main, l => joinRank cfg l
  | .prod _, _ => 0
  | .cons _, l => leaveRank l

/-- The steps of the main thread lower its rank. -/
theorem joinRank_lt {l l' : WaitThreads} (hstep : waitThreads m l = some (m', l')) :
    joinRank cfg l' < joinRank cfg l := by
  cases l with
  | joinProd p =>
    simp only [waitThreads] at hstep
    split at hstep
    case isTrue hp =>
      split at hstep
      · obtain ⟨-, rfl⟩ := Prod.mk.inj (Option.some.inj hstep)
        simp only [joinRank]
        omega
      · exact absurd hstep (Option.some_ne_none _).symm
    case isFalse hp =>
      obtain ⟨-, rfl⟩ := Prod.mk.inj (Option.some.inj hstep)
      simp only [joinRank]
      omega
  | setDone =>
    obtain ⟨-, rfl⟩ := Prod.mk.inj (Option.some.inj hstep)
    simp only [joinRank]
    omega
  | joinCons k =>
    simp only [waitThreads] at hstep
    split at hstep
    case isTrue hk =>
      split at hstep
      · obtain ⟨-, rfl⟩ := Prod.mk.inj (Option.some.inj hstep)
        simp only [joinRank]
        omega
      · exact absurd hstep (Option.some_ne_none _).symm
    case isFalse hk =>
      obtain ⟨-, rfl⟩ := Prod.mk.inj (Option.some.inj hstep)
      simp only [joinRank]
      omega
  | cleanUp => exact absurd hstep (Option.some_ne_none _).symm

/-- When all slots are `NULL` no consumer has a line in front of it. -/
theorem Over.no_block (ho : Over m) (hI : SemInv m b) : b.block b.takes.length = none := by
  rw [← hI.current_slot]
  exact ho.empty _

/-- The steps of the consumers lower their rank, when there is no line. -/
theorem leaveRank_lt (hinfo : cfg.fullInfo ≠ 0) (hI : SemInv m b) (ho : Over m) {k : Fin cfg.K}
    {l l' : Consume cfg} (hk : ConsKnows k m b l) (hstep : consume k m l = some (m', l')) :
    m'.sharedResource = m.sharedResource ∧ leaveRank l' < leaveRank l := by
  have hnone := ho.no_block hI
  obtain ⟨-, hstage⟩ := hk
  cases l with
  | waitCons =>
    obtain ⟨m₁, hwait, heq⟩ := Option.map_eq_some_iff.mp hstep
    obtain ⟨rfl, rfl⟩ := Prod.mk.inj heq
    obtain ⟨-, rfl⟩ := semWait_eq_some hwait
    exact ⟨rfl, Nat.lt_succ_self _⟩
  | testSlot cur =>
    simp only [consume, if_pos (ho.empty cur)] at hstep
    obtain ⟨rfl, rfl⟩ := Prod.mk.inj (Option.some.inj hstep)
    exact ⟨rfl, Nat.lt_succ_self _⟩
  | testDone =>
    have hleave : (m.doneProducing && cfg.fullInfo != 0) = true := by simp [ho.done, hinfo]
    simp only [consume, if_pos hleave] at hstep
    obtain ⟨rfl, rfl⟩ := Prod.mk.inj (Option.some.inj hstep)
    exact ⟨rfl, Nat.lt_succ_self _⟩
  | readIndex => exact absurd hnone hstage.2
  | readNext idx => exact absurd hnone hstage.2.1
  | writeCursor idx cur => exact absurd hnone hstage.2.1
  | waitSlot idx => exact absurd hnone (Turn.block hstage)
  | readLine idx => exact absurd hnone (Turn.block hstage.1)
  | clear idx line => exact absurd hnone (Turn.block hstage.1)
  | examine line =>
    obtain ⟨rfl, rfl⟩ := Prod.mk.inj (Option.some.inj hstep)
    obtain ⟨out, hout⟩ := Store.examine_eq k line m.toStore
    rw [hout]
    exact ⟨rfl, Nat.lt_succ_self _⟩
  | free line =>
    obtain ⟨rfl, rfl⟩ := Prod.mk.inj (Option.some.inj hstep)
    obtain ⟨heap, hheap, -⟩ := Store.free_eq line m.toStore
    rw [hheap]
    exact ⟨rfl, Nat.lt_succ_self _⟩
  | readCursor | postIdle | postFree | postCons | postSlot =>
    obtain ⟨rfl, rfl⟩ := Prod.mk.inj (Option.some.inj hstep)
    exact ⟨rfl, Nat.lt_succ_self _⟩
  | returned => exact absurd hstep (Option.some_ne_none _).symm

section Shutdown

variable {s s' : Global (Mem cfg × Books cfg) (Local cfg)}

/-- The producers have returned. -/
theorem Over.prod_returned (h : (booked cfg).Reach (bookStart cfg text) s) (ho : Over s.mem.1)
    (p : Fin cfg.P) : s.loc (.prod p) = .returned := by
  obtain ⟨hI, hA⟩ := knows_of_reach h
  have hp : ProdKnows p s.mem.1 s.mem.2 (s.loc (.prod p)) := hA (.prod p)
  exact hp.1.mp (hI.done ho.done p)

/-- Every step brings the end nearer. -/
theorem Over.step (hinfo : cfg.fullInfo ≠ 0) (h : (booked cfg).Reach (bookStart cfg text) s)
    (ho : Over s.mem.1) (hstep : (booked cfg).Step s s') :
    Over s'.mem.1 ∧ Program.total endRank s'.loc < Program.total endRank s.loc := by
  obtain ⟨hI, hA⟩ := knows_of_reach h
  obtain ⟨t, hnext⟩ := hstep
  obtain ⟨⟨m', b'⟩, l', hstep, rfl⟩ := Program.next_eq_some _ hnext
  obtain ⟨hmem, -⟩ := (Program.withHistory_step_eq_some _ _).mp hstep
  have hoff : ∀ u, u ≠ t → Function.update s.loc t l' u = s.loc u :=
    fun u hu => Function.update_of_ne hu _ _
  have htotal := Program.total_of_eq_off endRank hoff
  rw [Function.update_self] at htotal
  cases t with
  | main =>
    obtain ⟨hslots, -, hdone⟩ := waitThreads_slots hmem
    have hlt : joinRank cfg l' < joinRank cfg (s.loc .main) := joinRank_lt hmem
    simp only [endRank] at htotal
    refine ⟨⟨hdone ho.done, fun i => (congrFun hslots i).trans (ho.empty i)⟩, ?_⟩
    show Program.total endRank (Function.update s.loc .main l') < _
    omega
  | prod p =>
    rw [ho.prod_returned h p] at hmem
    exact absurd hmem (Option.some_ne_none _).symm
  | cons k =>
    obtain ⟨hslots, hlt⟩ := leaveRank_lt hinfo hI ho (hA (.cons k)) hmem
    have hsame : ReadsNothing s.mem.1 s.mem.2 m'
        (consumeBooks k s.mem.1 (s.loc (.cons k)) s.mem.2) := consume_readsNothing hmem
    simp only [endRank] at htotal
    refine ⟨⟨hsame.done.trans ho.done, fun i => (congrFun hslots i).trans (ho.empty i)⟩, ?_⟩
    show Program.total endRank (Function.update s.loc (.cons k) l') < _
    omega

/-- A consumer that has not returned can go on, or the holder of the consumer semaphore can. -/
theorem Over.exists_canStep (h : (booked cfg).Reach (bookStart cfg text) s) (ho : Over s.mem.1)
    {k : Fin cfg.K} (hk : s.loc (.cons k) ≠ .returned) : ∃ t, CanStep s t := by
  obtain ⟨hI, hA⟩ := knows_of_reach h
  -- nobody waits for the semaphore of a slot, since there is no line
  have hslot : ∀ k' idx, s.loc (.cons k') ≠ .waitSlot idx := by
    intro k' idx hl
    have hk' : ConsKnows k' s.mem.1 s.mem.2 (s.loc (.cons k')) := hA (.cons k')
    rw [hl] at hk'
    exact Turn.block hk'.2 (ho.no_block hI)
  by_contra hno
  push Not at hno
  have hblocked := consume_blocked hI (not_not.mp (mt canStep_cons_iff.mpr (hno (.cons k))))
  rcases hblocked with hl | ⟨t, -, hheld⟩ | ⟨idx, _, hl, -⟩
  · exact hk hl
  · obtain ⟨k', rfl⟩ := hI.consHolder t hheld
    have hsec := section_of_reach h _ _ hheld
    have hblocked := consume_blocked hI (not_not.mp (mt canStep_cons_iff.mpr (hno (.cons k'))))
    rcases hblocked with hl | ⟨_, hl, -⟩ | ⟨idx, _, hl, -⟩
    · rw [hl] at hsec
      simp [Section, Consume.Section] at hsec
    · rw [hl] at hsec
      simp [Section, Consume.Section] at hsec
    · exact hslot k' idx hl
  · exact hslot k idx hl

/-- Until the end of `wait_threads` some thread can go on. -/
theorem Over.exists_next (h : (booked cfg).Reach (bookStart cfg text) s) (ho : Over s.mem.1)
    (hmain : s.loc .main ≠ .cleanUp) : ∃ t, CanStep s t := by
  obtain ⟨hI, hA⟩ := knows_of_reach h
  by_cases hall : ∀ k, s.loc (.cons k) = .returned
  · -- the main thread has nobody to wait for
    refine ⟨.main, ?_⟩
    have hexited : ∀ k, s.mem.1.exited (.cons k) = true := by
      intro k
      have hk : ConsKnows k s.mem.1 s.mem.2 (s.loc (.cons k)) := hA (.cons k)
      exact hk.1.mpr (hall k)
    unfold CanStep booked Program.withHistory
    refine mt Option.map_eq_none_iff.mp ?_
    show waitThreads s.mem.1 (s.loc .main) ≠ none
    cases hl : s.loc .main with
    | joinProd p =>
      simp only [waitThreads]
      split
      case isTrue hp => rw [if_pos (hI.done ho.done _)]; simp
      case isFalse => simp
    | setDone => simp [waitThreads]
    | joinCons k =>
      simp only [waitThreads]
      split
      case isTrue hk => rw [if_pos (hexited _)]; simp
      case isFalse => simp
    | cleanUp => exact absurd hl hmain
  · push Not at hall
    obtain ⟨k, hk⟩ := hall
    exact ho.exists_canStep h hk

theorem shutsDown_of_info (hinfo : cfg.fullInfo ≠ 0) (text : List UInt8) : ShutsDown cfg text := by
  intro s hs ho sched hfair
  have hkeep : ∀ s₁ s₂, (booked cfg).Reach (bookStart cfg text) s₁ ∧ Over s₁.mem.1 →
      (booked cfg).Step s₁ s₂ →
      ((booked cfg).Reach (bookStart cfg text) s₂ ∧ Over s₂.mem.1) ∧
        Program.total endRank s₂.loc < Program.total endRank s₁.loc := by
    rintro s₁ s₂ ⟨h₁, ho₁⟩ hstep
    obtain ⟨ho₂, hlt⟩ := ho₁.step hinfo h₁ hstep
    exact ⟨⟨h₁.trans (Relation.ReflTransGen.single hstep), ho₂⟩, hlt⟩
  have hcan : ∀ s₁, (booked cfg).Reach (bookStart cfg text) s₁ ∧ Over s₁.mem.1 →
      ¬ s₁.loc .main = .cleanUp → ∃ t, (booked cfg).next t s₁ ≠ none := by
    rintro s₁ ⟨h₁, ho₁⟩ hmain
    obtain ⟨t, ht⟩ := ho₁.exists_next h₁ hmain
    exact ⟨t, mt Option.map_eq_none_iff.mp ht⟩
  obtain ⟨n, hn⟩ := hfair.exists_trace (fun s => Program.total endRank s.loc) hkeep hcan ⟨hs, ho⟩
  refine ⟨n, fun k => ?_, hn⟩
  -- the main thread has joined every consumer
  obtain ⟨-, hA⟩ := knows_of_reach (hs.trans (Program.reach_trace sched s n))
  have hmain : MainKnows _ _ := hA .main
  rw [hn] at hmain
  have hk : ConsKnows k _ _ _ := hA (.cons k)
  exact hk.1.mp (hmain.2 k)

/-! ### With `full_info` zero -/

/-- `done_producing` is never reset. -/
theorem done_step {t : Thread cfg} {r r' : Mem cfg × Books cfg} {l l' : Local cfg t}
    (hstep : (booked cfg).step t r l = some (r', l')) (hdone : r.1.doneProducing = true) :
    r'.1.doneProducing = true := by
  obtain ⟨m, b⟩ := r
  obtain ⟨m', b'⟩ := r'
  obtain ⟨hmem, -⟩ := (Program.withHistory_step_eq_some _ _).mp hstep
  cases t with
  | main => exact (waitThreads_slots hmem).2.2 hdone
  | prod p =>
    by_cases hl : l = .fgets
    · subst hl
      simp only [program, produce] at hmem
      split at hmem
      · obtain ⟨rfl, -⟩ := Prod.mk.inj (Option.some.inj hmem)
        exact hdone
      · obtain ⟨rfl, -⟩ := Prod.mk.inj (Option.some.inj hmem)
        exact hdone
    · obtain ⟨hsame, -, -⟩ := produce_goes_on (b := b) hl hmem
      exact hsame.done.trans hdone
  | cons k =>
    have hsame : ReadsNothing m b m' (consumeBooks k m l b) := consume_readsNothing hmem
    exact hsame.done.trans hdone

/-- The main thread has not yet set `done_producing`. -/
def Joining : WaitThreads → Prop
  | .joinProd _ | .setDone => True
  | _ => False

/-- The main thread sets `done_producing` before it joins the consumers. -/
theorem joining_or_done (h : (booked cfg).Reach (bookStart cfg text) s) :
    Joining (s.loc .main) ∨ s.mem.1.doneProducing = true := by
  have hstart : Joining ((bookStart cfg text).loc .main) := trivial
  refine h.invariant (I := fun s => Joining (s.loc .main) ∨ s.mem.1.doneProducing = true)
    (Or.inl hstart) ?_
  intro t s s' _ hs hnext
  obtain ⟨r', l', hstep, rfl⟩ := Program.next_eq_some _ hnext
  rcases hs with hjoin | hdone
  · cases t with
    | main =>
      obtain ⟨hmem, -⟩ := (Program.withHistory_step_eq_some _ _).mp hstep
      have hmem : waitThreads s.mem.1 (s.loc .main) = some (r'.1, l') := hmem
      show Joining (Function.update s.loc .main l' .main) ∨ r'.1.doneProducing = true
      rw [Function.update_self]
      cases hl : s.loc .main with
      | joinProd p =>
        rw [hl] at hmem
        simp only [waitThreads] at hmem
        split at hmem
        · split at hmem
          · obtain ⟨-, rfl⟩ := Prod.mk.inj (Option.some.inj hmem)
            exact Or.inl trivial
          · exact absurd hmem (Option.some_ne_none _).symm
        · obtain ⟨-, rfl⟩ := Prod.mk.inj (Option.some.inj hmem)
          exact Or.inl trivial
      | setDone =>
        rw [hl] at hmem
        obtain ⟨hr, -⟩ := Prod.mk.inj (Option.some.inj hmem)
        rw [← hr]
        exact Or.inr rfl
      | joinCons | cleanUp =>
        rw [hl] at hjoin
        exact hjoin.elim
    | prod p | cons k =>
      left
      show Joining (Function.update s.loc _ l' .main)
      rw [Function.update_of_ne (by simp)]
      exact hjoin
  · exact Or.inr (done_step hstep hdone)

/-- The main thread alone joins the producers that have returned. -/
theorem solo_joinProds (hexited : ∀ p, m.exited (.prod p) = true) (n p : ℕ)
    (hn : cfg.P - p = n) :
    (booked cfg).Solo .main ((m, b), .joinProd p)
      (({ m with doneProducing := true }, b), .joinCons 0) := by
  have hbooked : ∀ {l l' : WaitThreads} {m' : Mem cfg}, waitThreads m l = some (m', l') →
      (booked cfg).step .main (m, b) l = some ((m', b), l') :=
    fun h => (Program.withHistory_step_eq_some _ _).mpr ⟨h, rfl⟩
  induction n generalizing p with
  | zero =>
    have hstep : waitThreads m (.joinProd p) = some (m, .setDone) := dif_neg (by omega)
    exact .head (hbooked hstep) (.head (hbooked rfl) (.refl _))
  | succ n ih =>
    have hp : p < cfg.P := by omega
    have hstep : waitThreads m (.joinProd p) = some (m, .joinProd (p + 1)) := by
      simp only [waitThreads, dif_pos hp, if_pos (hexited ⟨p, hp⟩)]
    exact .head (hbooked hstep) (ih (p + 1) (by omega))

/-- Some run leads to the end of the producers and of the lines. -/
theorem exists_over (hinfo : cfg.fullInfo = 0) (text : List UInt8) :
    ∃ s, (booked cfg).Reach (bookStart cfg text) s ∧ Over s.mem.1 := by
  obtain ⟨s, hs, hret, -, hempty⟩ := exists_end hinfo (.refl (bookStart cfg text))
  rcases joining_or_done hs with hjoin | hdone
  · have hexited : ∀ p, s.mem.1.exited (.prod p) = true := by
      intro p
      have hp : ProdKnows p s.mem.1 s.mem.2 (s.loc (.prod p)) := (knows_of_reach hs).2 (.prod p)
      exact hp.1.mpr (hret p)
    have hrun : (booked cfg).Solo .main (s.mem, s.loc .main)
        (({ s.mem.1 with doneProducing := true }, s.mem.2), .joinCons 0) := by
      cases hl : s.loc .main with
      | joinProd p => exact solo_joinProds hexited _ p rfl
      | setDone =>
        have hstep : (booked cfg).step .main s.mem .setDone =
            some (({ s.mem.1 with doneProducing := true }, s.mem.2), .joinCons 0) :=
          (Program.withHistory_step_eq_some _ _).mpr ⟨rfl, rfl⟩
        exact .head hstep (.refl _)
      | joinCons | cleanUp =>
        rw [hl] at hjoin
        exact hjoin.elim
    obtain ⟨s', hs', hmem, -, -⟩ := hrun.exists_reach rfl
    refine ⟨s', hs.trans hs', ?_, ?_⟩
    · rw [hmem]
    · rw [hmem]
      exact hempty
  · exact ⟨s, hs, hdone, hempty⟩

/-- With `full_info` zero no consumer returns, so no schedule ends the system. -/
theorem not_shutsDown (hinfo : cfg.fullInfo = 0) (text : List UInt8) : ¬ ShutsDown cfg text := by
  intro hall
  obtain ⟨s, hs, ho⟩ := exists_over hinfo text
  have : Nonempty (Thread cfg) := ⟨.main⟩
  obtain ⟨sched, hfair⟩ := Program.exists_fair (ι := Thread cfg)
  obtain ⟨n, hret, -⟩ := hall s hs ho sched hfair
  have hreach := hs.trans (Program.reach_trace sched s n)
  exact never_returned hinfo hreach ⟨0, cfg.K_pos⟩ (hret _)

end Shutdown

/-- **The system ends if and only if `full_info` is not zero.** -/
theorem shutsDown_iff (cfg : Config) (text : List UInt8) :
    ShutsDown cfg text ↔ cfg.fullInfo ≠ 0 :=
  ⟨fun h hinfo => not_shutsDown hinfo text h, fun hinfo => shutsDown_of_info hinfo text⟩

/-- **What `full_info` decides.**  Along a schedule the setting zero and any other go through
the same states if and only if no consumer finds `done_producing` set; and the system ends
under every fair schedule if and only if the setting is not zero. -/
theorem full_info_decides (cfg : Config) (text : List UInt8) :
    (∀ info : ℤ, info ≠ 0 → ∀ sched, SameStates cfg text info sched ↔
      (programWith cfg 0).Meets (Unnoticed cfg) sched (start cfg text)) ∧
    (ShutsDown cfg text ↔ cfg.fullInfo ≠ 0) :=
  ⟨fun _ hinfo sched => sameStates_iff hinfo text sched, shutsDown_iff cfg text⟩

/-- A run on an empty file: the consumer finds no line, and tests `done_producing` after the
main thread has set it. -/
def noLine : List (Thread couple) :=
  .prod ⟨0, by decide⟩ :: List.replicate 3 .main ++ List.replicate 5 (.cons ⟨0, by decide⟩)

/-- **The two settings part**: the consumer returns with the one and goes on with the other. -/
theorem settings_part : ¬ ∀ info : ℤ, info ≠ 0 → ∀ sched, SameStates couple [] info sched := by
  intro h
  have hmeets := (sameStates_iff one_ne_zero [] noLine).mp (h 1 one_ne_zero noLine)
  have hnot : ¬ (programWith couple 0).Meets (Unnoticed couple) noLine (start couple []) := by
    decide
  exact hnot hmeets

end Sem
end ProdCons
end OpSys
