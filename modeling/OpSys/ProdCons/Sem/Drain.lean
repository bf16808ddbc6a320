import OpSys.Lib.Progress
import OpSys.ProdCons.Sem.Completion
import OpSys.ProdCons.Sem.Holders

/-!
# No thread is in the way of the others

With `full_info` zero the consumers never return, and from every state the system
can go on until every line has been taken.  Every step of a producer, and every
step of a consumer between finding a line and freeing it, is paid for by a rank: the
bytes still in the file, the lines that have not been taken, and the way each thread
has still to go with its line.  If no such step is possible nobody holds the
semaphore of a slot, so the producers that have not returned wait for a free slot;
then a line is stored, and a consumer that looks for one alone finds and takes it.

## Main definitions

* `work` — the rank.
* `Quiet` — no producer can go on, and the consumers only look for lines.
* `EndsWell text s`, `Finished text s` — the producers have returned and every line
  they have read, or that is in the file, has been taken.

## Main results

* `work_lt` — every step of a busy thread lowers the rank.
* `Quiet.exists_take` — when all is quiet and a line has not been taken, a consumer
  running alone takes one.
* `finishes_run` — from every state of every run the system can finish.
* `nobody_reads` — without producers no line of the file is taken.
-/

namespace OpSys
namespace ProdCons

instance (cfg : Config) : Fintype (Thread cfg) :=
  Fintype.ofEquiv (Option (Fin cfg.P ⊕ Fin cfg.K))
    { toFun := fun x => match x with
        | none => .main
        | some (.inl p) => .prod p
        | some (.inr k) => .cons k
      invFun := fun t => match t with
        | .main => none
        | .prod p => some (.inl p)
        | .cons k => some (.inr k)
      left_inv := by rintro (_ | _ | _) <;> rfl
      right_inv := by rintro (_ | _ | _) <;> rfl }

namespace Sem

variable {cfg : Config} {text : List UInt8} {m m' : Mem cfg} {b : Books cfg}

/-! ### The rank -/

/-- The steps a producer has still to take with its line. -/
def produceRank : Produce cfg → ℕ
  | .fgets => 1
  | .waitProd line => (Stdio.strcpyBytes line).length + 12
  | .waitFree line => (Stdio.strcpyBytes line).length + 11
  | .readIndex line => (Stdio.strcpyBytes line).length + 10
  | .readCursor line _ => (Stdio.strcpyBytes line).length + 9
  | .writeCursor line _ _ => (Stdio.strcpyBytes line).length + 8
  | .waitSlot line _ => (Stdio.strcpyBytes line).length + 7
  | .postProd line _ => (Stdio.strcpyBytes line).length + 6
  | .store line _ => (Stdio.strcpyBytes line).length + 5
  | .readDst line _ => (Stdio.strcpyBytes line).length + 4
  | .copy _ _ rest => rest.length + 3
  | .postSlot _ => 2
  | .returned => 0

/-- A consumer that has found no line. -/
def Consume.Polls : Consume cfg → Prop
  | .waitCons | .readCursor | .testSlot _ | .postIdle | .testDone | .returned => True
  | _ => False

/-- The steps a consumer has still to take with a line it has found, up to the take and
from there. -/
def consumeRank : Consume cfg → ℕ
  | .readIndex => 6
  | .readNext _ => 5
  | .writeCursor _ _ => 4
  | .waitSlot _ => 3
  | .readLine _ => 2
  | .clear _ _ => 1
  | .postFree _ _ => 5
  | .postCons _ _ => 4
  | .postSlot _ _ => 3
  | .examine _ => 2
  | .free _ => 1
  | _ => 0

/-- What is still to be done with the file and the lines read from it. -/
def toDo (m : Mem cfg) (b : Books cfg) : ℕ :=
  24 * m.file.length + 10 * (b.lines.length - b.takes.length)

/-- The steps a thread has still to take with its line. -/
def threadRank : (t : Thread cfg) → Local cfg t → ℕ
  | .main, _ => 0
  | .prod _, l => produceRank l
  | .cons _, l => consumeRank l

/-- The rank of a state. -/
def work (s : Global (Mem cfg × Books cfg) (Local cfg)) : ℕ :=
  toDo s.mem.1 s.mem.2 + Program.total threadRank s.loc

/-- A thread that has a line to go on with. -/
def Busy : (t : Thread cfg) → Local cfg t → Prop
  | .main, _ => False
  | .prod _, _ => True
  | .cons _, l => ¬ Consume.Polls l

theorem strcpyBytes_length_le (line : List UInt8) :
    (Stdio.strcpyBytes line).length ≤ line.length + 1 := by
  have := List.takeWhile_prefix (p := (· ≠ Stdio.nul)) (l := line)
  simpa [Stdio.strcpyBytes, Stdio.cString] using this.length_le

/-- Nothing is read from the file, no producer returns, and `done_producing` is left alone. -/
structure ReadsNothing (m : Mem cfg) (b : Books cfg) (m' : Mem cfg) (b' : Books cfg) : Prop where
  file : m'.file = m.file
  exited : ∀ p, m'.exited (.prod p) = m.exited (.prod p)
  done : m'.doneProducing = m.doneProducing
  lines : b'.lines = b.lines

/-- Away from `fgets` a producer only goes on with its line. -/
theorem produce_goes_on {p : Fin cfg.P} {l l' : Produce cfg} (hl : l ≠ .fgets)
    (hstep : produce p m l = some (m', l')) :
    ReadsNothing m b m' (produceBooks p m l b) ∧ (produceBooks p m l b).takes = b.takes ∧
      produceRank l' < produceRank l := by
  cases l with
  | fgets => exact absurd rfl hl
  | waitProd line | waitFree line | waitSlot line idx =>
    obtain ⟨m₁, hwait, heq⟩ := Option.map_eq_some_iff.mp hstep
    obtain ⟨rfl, rfl⟩ := Prod.mk.inj heq
    obtain ⟨-, rfl⟩ := semWait_eq_some hwait
    exact ⟨⟨rfl, fun _ => rfl, rfl, rfl⟩, rfl, Nat.lt_succ_self _⟩
  | readDst line idx =>
    obtain ⟨q, -, heq⟩ := Option.map_eq_some_iff.mp hstep
    obtain ⟨rfl, rfl⟩ := Prod.mk.inj heq
    exact ⟨⟨rfl, fun _ => rfl, rfl, rfl⟩, rfl, Nat.lt_succ_self _⟩
  | copy idx dst rest =>
    cases rest with
    | nil =>
      obtain ⟨rfl, rfl⟩ := Prod.mk.inj (Option.some.inj hstep)
      exact ⟨⟨rfl, fun _ => rfl, rfl, rfl⟩, rfl, Nat.lt_succ_self _⟩
    | cons c rest =>
      obtain ⟨rfl, rfl⟩ := Prod.mk.inj (Option.some.inj hstep)
      refine ⟨⟨rfl, fun _ => rfl, rfl, rfl⟩, rfl, ?_⟩
      simp [produceRank]
  | readIndex | readCursor | writeCursor | postProd | store | postSlot =>
    obtain ⟨rfl, rfl⟩ := Prod.mk.inj (Option.some.inj hstep)
    exact ⟨⟨rfl, fun _ => rfl, rfl, rfl⟩, rfl, Nat.lt_succ_self _⟩
  | returned => exact absurd hstep (Option.some_ne_none _).symm

/-- Every step of a producer lowers its part of the rank. -/
theorem produce_rank_lt {p : Fin cfg.P} {l l' : Produce cfg}
    (hstep : produce p m l = some (m', l')) :
    toDo m' (produceBooks p m l b) + produceRank l' < toDo m b + produceRank l := by
  by_cases hl : l = .fgets
  · subst hl
    cases hline : Stdio.fgets lineMax m.file with
    | none =>
      simp only [produce, hline] at hstep
      obtain ⟨rfl, rfl⟩ := Prod.mk.inj (Option.some.inj hstep)
      simp [toDo, produceBooks, hline, produceRank, Mem.withStore, Store.exit]
    | some r =>
      obtain ⟨line, rest⟩ := r
      simp only [produce, hline] at hstep
      obtain ⟨rfl, rfl⟩ := Prod.mk.inj (Option.some.inj hstep)
      -- the bytes read pay for the line
      have hlen := Stdio.fgets_length hline
      have hlt := Stdio.fgets_length_lt (by decide) hline
      have hcopy := strcpyBytes_length_le line
      simp only [toDo, produceBooks, hline, produceRank, Books.withHistory, History.read,
        List.length_append, List.length_singleton]
      omega
  · obtain ⟨hsame, htakes, hlt⟩ := produce_goes_on (b := b) hl hstep
    simp only [toDo, hsame.file, hsame.lines, htakes]
    omega

/-- A consumer reads nothing from the file. -/
theorem consume_readsNothing {k : Fin cfg.K} {l l' : Consume cfg}
    (hstep : consume k m l = some (m', l')) :
    ReadsNothing m b m' (consumeBooks k m l b) := by
  cases l with
  | waitCons | waitSlot =>
    obtain ⟨m₁, hwait, heq⟩ := Option.map_eq_some_iff.mp hstep
    obtain ⟨rfl, rfl⟩ := Prod.mk.inj heq
    obtain ⟨-, rfl⟩ := semWait_eq_some hwait
    exact ⟨rfl, fun _ => rfl, rfl, rfl⟩
  | testSlot =>
    simp only [consume] at hstep
    split at hstep
    · obtain ⟨rfl, rfl⟩ := Prod.mk.inj (Option.some.inj hstep)
      exact ⟨rfl, fun _ => rfl, rfl, rfl⟩
    · obtain ⟨rfl, rfl⟩ := Prod.mk.inj (Option.some.inj hstep)
      exact ⟨rfl, fun _ => rfl, rfl, rfl⟩
  | testDone =>
    simp only [consume] at hstep
    split at hstep
    · obtain ⟨rfl, rfl⟩ := Prod.mk.inj (Option.some.inj hstep)
      exact ⟨rfl, fun p => by simp [Mem.withStore, Store.exit], rfl, rfl⟩
    · obtain ⟨rfl, rfl⟩ := Prod.mk.inj (Option.some.inj hstep)
      exact ⟨rfl, fun _ => rfl, rfl, rfl⟩
  | clear idx line =>
    obtain ⟨rfl, rfl⟩ := Prod.mk.inj (Option.some.inj hstep)
    refine ⟨rfl, fun _ => rfl, rfl, ?_⟩
    show (b.take k line (line.bind m.heap)).lines = b.lines
    unfold History.take
    split <;> rfl
  | examine line =>
    obtain ⟨rfl, rfl⟩ := Prod.mk.inj (Option.some.inj hstep)
    obtain ⟨out, hout⟩ := Store.examine_eq k line m.toStore
    rw [hout]
    exact ⟨rfl, fun _ => rfl, rfl, rfl⟩
  | free line =>
    obtain ⟨rfl, rfl⟩ := Prod.mk.inj (Option.some.inj hstep)
    obtain ⟨heap, hheap, -⟩ := Store.free_eq line m.toStore
    rw [hheap]
    exact ⟨rfl, fun _ => rfl, rfl, rfl⟩
  | readCursor | postIdle | readIndex | readNext | writeCursor | readLine | postFree | postCons
  | postSlot =>
    obtain ⟨rfl, rfl⟩ := Prod.mk.inj (Option.some.inj hstep)
    exact ⟨rfl, fun _ => rfl, rfl, rfl⟩
  | returned => exact absurd hstep (Option.some_ne_none _).symm

/-- Nor does the main thread. -/
theorem waitThreads_file {l l' : WaitThreads} (hstep : waitThreads m l = some (m', l')) :
    m'.file = m.file ∧ m'.exited = m.exited := by
  cases l with
  | joinProd | joinCons =>
    simp only [waitThreads] at hstep
    split at hstep
    · split at hstep
      · obtain ⟨rfl, -⟩ := Prod.mk.inj (Option.some.inj hstep)
        exact ⟨rfl, rfl⟩
      · exact absurd hstep (Option.some_ne_none _).symm
    · obtain ⟨rfl, -⟩ := Prod.mk.inj (Option.some.inj hstep)
      exact ⟨rfl, rfl⟩
  | setDone =>
    obtain ⟨rfl, -⟩ := Prod.mk.inj (Option.some.inj hstep)
    exact ⟨rfl, rfl⟩
  | cleanUp => exact absurd hstep (Option.some_ne_none _).symm

/-- Every step of a consumer with a line lowers its part of the rank; the take is paid by the
line taken. -/
theorem consume_rank_lt {k : Fin cfg.K} {l l' : Consume cfg} (hI : SemInv m b)
    (hk : ConsKnows k m b l) (hbusy : ¬ l.Polls) (hstep : consume k m l = some (m', l')) :
    toDo m' (consumeBooks k m l b) + consumeRank l' < toDo m b + consumeRank l := by
  have hsame : ReadsNothing m b m' (consumeBooks k m l b) := consume_readsNothing hstep
  simp only [toDo, hsame.file, hsame.lines]
  cases l with
  | waitCons | readCursor | testSlot | postIdle | testDone | returned =>
    exact absurd trivial hbusy
  | waitSlot idx =>
    obtain ⟨m₁, -, heq⟩ := Option.map_eq_some_iff.mp hstep
    obtain ⟨-, rfl⟩ := Prod.mk.inj heq
    exact Nat.lt_succ_self _
  | clear idx line =>
    obtain ⟨-, rfl⟩ := Prod.mk.inj (Option.some.inj hstep)
    obtain ⟨hturn, -, -⟩ := hk.2
    obtain ⟨q, hq⟩ := Option.ne_none_iff_exists'.mp hturn.block
    have hlt := hI.lt_claims hq
    have hle := hI.accounts.claims_length_le
    simp only [consumeBooks, consumeRank, Books.withHistory, take_eq hturn.turn,
      List.length_append, List.length_singleton]
    omega
  | readIndex | readNext | writeCursor | readLine | postFree | postCons | postSlot | examine
  | free =>
    obtain ⟨-, rfl⟩ := Prod.mk.inj (Option.some.inj hstep)
    exact Nat.lt_succ_self _

section Work

variable {s s' : Global (Mem cfg × Books cfg) (Local cfg)}

/-- **Every step of a busy thread lowers the rank.** -/
theorem work_lt (h : (booked cfg).Reach (bookStart cfg text) s) {t : Thread cfg}
    (hbusy : Busy t (s.loc t)) (hnext : (booked cfg).next t s = some s') : work s' < work s := by
  obtain ⟨hI, hA⟩ := knows_of_reach h
  obtain ⟨⟨m', b'⟩, l', hstep, rfl⟩ := Program.next_eq_some _ hnext
  obtain ⟨hmem, rfl⟩ := (Program.withHistory_step_eq_some _ _).mp hstep
  have hoff : ∀ u, u ≠ t → Function.update s.loc t l' u = s.loc u :=
    fun u hu => Function.update_of_ne hu _ _
  have htotal := Program.total_of_eq_off threadRank hoff
  rw [Function.update_self] at htotal
  cases t with
  | main => exact hbusy.elim
  | prod p =>
    have hlt : toDo m' (produceBooks p s.mem.1 (s.loc (.prod p)) s.mem.2) + produceRank l' <
        toDo s.mem.1 s.mem.2 + produceRank (s.loc (.prod p)) := produce_rank_lt hmem
    simp only [threadRank] at htotal
    show toDo m' (produceBooks p s.mem.1 (s.loc (.prod p)) s.mem.2) +
      Program.total threadRank (Function.update s.loc (.prod p) l') < work s
    unfold work
    omega
  | cons k =>
    have hlt : toDo m' (consumeBooks k s.mem.1 (s.loc (.cons k)) s.mem.2) + consumeRank l' <
        toDo s.mem.1 s.mem.2 + consumeRank (s.loc (.cons k)) :=
      consume_rank_lt hI (hA (.cons k)) hbusy hmem
    simp only [threadRank] at htotal
    show toDo m' (consumeBooks k s.mem.1 (s.loc (.cons k)) s.mem.2) +
      Program.total threadRank (Function.update s.loc (.cons k) l') < work s
    unfold work
    omega

/-! ### When no busy thread can go on -/

/-- No producer can go on, no consumer has found a line, and no slot is held. -/
structure Quiet (s : Global (Mem cfg × Books cfg) (Local cfg)) : Prop where
  slots : ∀ idx, s.mem.2.holder (.slot idx) = none
  prods : ∀ p, s.loc (.prod p) = .returned ∨
    (∃ line t, s.loc (.prod p) = .waitProd line ∧ s.mem.2.holder .prod = some t) ∨
    ∃ line, s.loc (.prod p) = .waitFree line ∧ s.mem.1.sems .free = 0
  consumers : ∀ k, (s.loc (.cons k)).Polls

/-- Either a busy thread can go on or all is quiet. -/
theorem quiet_of_stuck (h : (booked cfg).Reach (bookStart cfg text) s)
    (hstuck : ∀ t, Busy t (s.loc t) → ¬ CanStep s t) : Quiet s := by
  obtain ⟨hI, hA⟩ := knows_of_reach h
  -- the holder of a slot would be busy and could go on
  have hslots : ∀ idx, s.mem.2.holder (.slot idx) = none := by
    intro idx
    cases hheld : s.mem.2.holder (.slot idx) with
    | none => rfl
    | some t =>
      obtain ⟨hcan, hsec⟩ := canStep_of_slot_held h hheld
      refine absurd hcan (hstuck t ?_)
      cases t with
      | main => exact hsec
      | prod p => trivial
      | cons k =>
        intro hpolls
        cases hl : s.loc (.cons k) <;> rw [hl] at hsec hpolls <;>
          simp [Section, Consume.Section, Consume.Polls] at hsec hpolls
  refine ⟨hslots, fun p => ?_, fun k => ?_⟩
  · have hnone := not_not.mp (mt canStep_prod_iff.mpr (hstuck (.prod p) trivial))
    rcases produce_blocked hI (hA (.prod p)) hnone with hl | hl | hl | ⟨_, idx, t, -, hheld⟩
    · exact Or.inl hl
    · exact Or.inr (Or.inl hl)
    · exact Or.inr (Or.inr hl)
    · rw [hslots idx] at hheld
      exact absurd hheld (Option.some_ne_none t).symm
  · by_contra hbusy
    have hnone := not_not.mp (mt canStep_cons_iff.mpr (hstuck (.cons k) hbusy))
    rcases consume_blocked hI hnone with hl | ⟨_, hl, -⟩ | ⟨idx, t, -, hheld⟩
    · exact hbusy (by rw [hl]; trivial)
    · exact hbusy (by rw [hl]; trivial)
    · rw [hslots idx] at hheld
      exact absurd hheld (Option.some_ne_none t).symm

/-- Whoever holds the consumer semaphore when all is quiet is looking at the slot of the
next take. -/
theorem Quiet.looking (h : (booked cfg).Reach (bookStart cfg text) s) (hq : Quiet s)
    {t : Thread cfg} (hheld : s.mem.2.holder .cons = some t) :
    ∃ k, t = .cons k ∧ Looking s.mem.2 k := by
  obtain ⟨hI, hA⟩ := knows_of_reach h
  obtain ⟨k, rfl⟩ := hI.consHolder t hheld
  have hsec := section_of_reach h _ _ hheld
  have hpolls := hq.consumers k
  have hk : ConsKnows k s.mem.1 s.mem.2 (s.loc (.cons k)) := hA (.cons k)
  refine ⟨k, rfl, ?_⟩
  cases hl : s.loc (.cons k) with
  | readCursor =>
    rw [hl] at hk
    exact hk.2
  | testSlot cur =>
    rw [hl] at hk
    exact hk.2.1
  | postIdle =>
    rw [hl] at hk
    exact hk.2
  | _ =>
    rw [hl] at hsec hpolls
    simp [Section, Consume.Section, Consume.Polls] at hsec hpolls

/-- When all is quiet every take has been accounted for. -/
theorem Quiet.freed (h : (booked cfg).Reach (bookStart cfg text) s) (hq : Quiet s) :
    s.mem.2.freed = s.mem.2.takes.length ∧ s.mem.2.advances.length = s.mem.2.takes.length := by
  obtain ⟨hI, -⟩ := knows_of_reach h
  cases hheld : s.mem.2.holder .cons with
  | none => exact hI.idleCons hheld
  | some t =>
    obtain ⟨k, -, hlook⟩ := hq.looking h hheld
    exact ⟨hlook.freed, hlook.advances⟩

/-- When all is quiet and every claim has been taken, the producers have returned: one that
waits for a free slot would have found it. -/
theorem Quiet.prods_returned (h : (booked cfg).Reach (bookStart cfg text) s) (hq : Quiet s)
    (hall : s.mem.2.claims.length ≤ s.mem.2.takes.length) (p : Fin cfg.P) :
    s.loc (.prod p) = .returned := by
  obtain ⟨hI, hA⟩ := knows_of_reach h
  have hfree := hI.free
  have hfreed := (hq.freed h).1
  have hN := cfg.N_pos
  have hwaits : ∀ p' line, s.loc (.prod p') = .waitFree line → s.mem.1.sems .free ≠ 0 := by
    intro p' line hl hzero
    have hp : ProdKnows p' s.mem.1 s.mem.2 (s.loc (.prod p')) := hA (.prod p')
    rw [hl] at hp
    obtain ⟨-, -, -, hgranted⟩ := hp
    omega
  rcases hq.prods p with hl | ⟨line, t, -, hheld⟩ | ⟨line, hl, hzero⟩
  · exact hl
  · -- the holder of the producer semaphore is one of those
    have hsec := section_of_reach h _ _ hheld
    cases t with
    | main => exact hsec.elim
    | cons k =>
      cases hl : s.loc (.cons k) <;> rw [hl] at hsec <;>
        simp [Section, Consume.Section] at hsec
    | prod p' =>
      rcases hq.prods p' with hl | ⟨_, _, hl, -⟩ | ⟨_, hl, hzero⟩
      · rw [hl] at hsec
        simp [Section, Produce.Section] at hsec
      · rw [hl] at hsec
        simp [Section, Produce.Section] at hsec
      · exact absurd hzero (hwaits p' _ hl)
  · exact absurd hzero (hwaits p line hl)

/-- When all is quiet every claim has its line in a slot. -/
theorem Quiet.block_ne_none (h : (booked cfg).Reach (bookStart cfg text) s) (hq : Quiet s)
    {j : ℕ} (hj : j < s.mem.2.claims.length) : s.mem.2.block j ≠ none := by
  obtain ⟨hI, hA⟩ := knows_of_reach h
  obtain ⟨⟨p, i⟩, hclaim⟩ : ∃ c, s.mem.2.claims[j]? = some c := ⟨_, List.getElem?_eq_getElem hj⟩
  obtain ⟨line, hline⟩ := hI.accounts.claim_line j p i hclaim
  have hp : ProdKnows p s.mem.1 s.mem.2 (s.loc (.prod p)) := hA (.prod p)
  -- a producer that has not claimed its line has filled the slots of all others
  have hfill : ∃ q : ℕ, s.mem.2.fills[q]? = some (p, i) := by
    have hunclaimed : ∀ line', Unclaimed s.mem.2.toHistory p line' →
        ∃ q : ℕ, s.mem.2.fills[q]? = some (p, i) := by
      intro line' hu
      refine hu.others i line hline fun hserial => ?_
      rw [hserial] at hclaim
      exact hu.unclaimed j hclaim
    rcases hq.prods p with hl | ⟨line', _, hl, -⟩ | ⟨line', hl, -⟩
    · rw [hl] at hp
      exact hp.2 i line hline
    · rw [hl] at hp
      exact hunclaimed line' hp.2
    · rw [hl] at hp
      exact hunclaimed line' hp.2.1
  obtain ⟨q, hfill⟩ := hfill
  obtain ⟨j', hj'⟩ := hI.owned q (hI.fresh ▸ (List.getElem?_eq_some_iff.mp hfill).1)
  have hclaim' : s.mem.2.claims[j']? = some (p, i) := (hI.block j' q hj').2 ▸ hfill
  rw [hI.accounts.claim_once hclaim hclaim', hj']
  exact Option.some_ne_none q

end Work

/-! ### A consumer that runs alone -/

section Alone

variable {k : Fin cfg.K}

/-- A step of a consumer that runs alone. -/
theorem solo_consume {l l' : Consume cfg} {c : (Mem cfg × Books cfg) × Consume cfg}
    (hstep : consume k m l = some (m', l'))
    (hrest : (booked cfg).Solo (.cons k) ((m', consumeBooks k m l b), l') c) :
    (booked cfg).Solo (.cons k) ((m, b), l) c := by
  have hbooked : (booked cfg).step (.cons k) (m, b) l = some ((m', consumeBooks k m l b), l') :=
    (Program.withHistory_step_eq_some _ _).mpr ⟨hstep, rfl⟩
  exact .head hbooked hrest

/-- After a consumer has taken a line. -/
structure TookOne (m : Mem cfg) (b : Books cfg) (m' : Mem cfg) (b' : Books cfg) : Prop where
  file : m'.file = m.file
  lines : b'.lines = b.lines
  takes : b'.takes.length = b.takes.length + 1

/-- What a consumer finds that takes a line alone. -/
structure Offered (m : Mem cfg) : Prop where
  full : m.sharedResource m.currCons ≠ none
  slot : 0 < m.sems (.slot m.currCons)

/-- From the test of a full slot to the take. -/
theorem solo_take (ho : Offered m) :
    ∃ m' b' idx line, (booked cfg).Solo (.cons k) ((m, b), .testSlot m.currCons)
      ((m', b'), .postFree idx line) ∧ TookOne m b m' b' := by
  -- the memory after the cursor has been advanced and after the semaphore has been passed
  let m₁ : Mem cfg := { m with currCons := cfg.next m.currCons }
  let m₂ : Mem cfg := { m₁ with
    sems := Function.update m.sems (.slot m.currCons) (m.sems (.slot m.currCons) - 1) }
  let b₁ : Books cfg := b.withHistory (b.advance k)
  let b₂ : Books cfg := b₁.acquire (.slot m.currCons) (.cons k)
  let line := m.sharedResource m.currCons
  have hturn : b₂.turn k = some b.advances.length := Function.update_self _ _ _
  refine ⟨m₂.withStore (m₂.clear m.currCons),
    b₂.withHistory (b₂.take k line (line.bind m₂.heap)), m.currCons, line, ?_, rfl, ?_, ?_⟩
  · have hwait : consume k m₁ (.waitSlot m.currCons) = some (m₂, .readLine m.currCons) := by
      show (semWait (.slot m.currCons) m₁).map (·, Consume.readLine m.currCons) = _
      rw [semWait, if_pos ho.slot]
      rfl
    exact solo_consume (if_neg ho.full) (solo_consume rfl (solo_consume rfl (solo_consume rfl
      (solo_consume hwait (solo_consume rfl (solo_consume rfl (.refl _)))))))
  · show (b₂.take k line (line.bind m₂.heap)).lines = b.lines
    rw [take_eq hturn]
    rfl
  · show (b₂.take k line (line.bind m₂.heap)).takes.length = b.takes.length + 1
    rw [take_eq hturn, List.length_append]
    rfl

/-- From `sem_wait(&sems[N+1])` to the take. -/
theorem solo_wait_take (hcons : 0 < m.sems .cons) (ho : Offered m) :
    ∃ m' b' idx line, (booked cfg).Solo (.cons k) ((m, b), .waitCons)
      ((m', b'), .postFree idx line) ∧ TookOne m b m' b' := by
  let m₁ : Mem cfg := { m with sems := Function.update m.sems .cons (m.sems .cons - 1) }
  have ho₁ : Offered m₁ := by
    refine ⟨ho.full, ?_⟩
    show 0 < Function.update m.sems .cons (m.sems .cons - 1) (.slot m.currCons)
    rw [Function.update_of_ne (by simp)]
    exact ho.slot
  obtain ⟨m', b', idx, line, hrun, hm', hb', htakes⟩ := solo_take (k := k)
    (b := b.acquire .cons (.cons k)) ho₁
  refine ⟨m', b', idx, line, ?_, hm', hb', htakes⟩
  have hwait : consume k m .waitCons = some (m₁, .readCursor) := by
    show (semWait .cons m).map (·, Consume.readCursor) = _
    rw [semWait, if_pos hcons]
    rfl
  exact solo_consume hwait (solo_consume rfl hrun)

end Alone

section Finish

variable {s s' : Global (Mem cfg × Books cfg) (Local cfg)}

/-- With `full_info` zero no consumer returns. -/
theorem never_returned (hinfo : cfg.fullInfo = 0)
    (h : (booked cfg).Reach (bookStart cfg text) s) (k : Fin cfg.K) :
    s.loc (.cons k) ≠ .returned := by
  refine h.invariant (I := fun s => s.loc (.cons k) ≠ .returned) (by rintro ⟨⟩) ?_
  intro t s s' _ hs hnext
  obtain ⟨⟨m', b'⟩, l', hstep, rfl⟩ := Program.next_eq_some _ hnext
  obtain ⟨hmem, -⟩ := (Program.withHistory_step_eq_some _ _).mp hstep
  by_cases ht : t = .cons k
  · subst ht
    intro hret
    have hl' : l' = .returned := by simpa using hret
    subst hl'
    exact (consume_returned hmem).2.2.1 hinfo
  · show Function.update s.loc t l' (.cons k) ≠ .returned
    rw [Function.update_of_ne (Ne.symm ht)]
    exact hs

/-- **When all is quiet and a line has not been taken, a consumer running alone takes one.** -/
theorem Quiet.exists_take (hinfo : cfg.fullInfo = 0)
    (h : (booked cfg).Reach (bookStart cfg text) s) (hq : Quiet s)
    (hleft : s.mem.2.takes.length < s.mem.2.claims.length) :
    ∃ k m' b' idx line, (booked cfg).Solo (.cons k) (s.mem, s.loc (.cons k))
      ((m', b'), .postFree idx line) ∧ TookOne s.mem.1 s.mem.2 m' b' := by
  obtain ⟨hI, hA⟩ := knows_of_reach h
  have hcur : s.mem.1.currCons = cfg.slot s.mem.2.takes.length := by
    rw [hI.currCons, (hq.freed h).2]
  have ho : Offered s.mem.1 := by
    constructor
    · rw [hcur, hI.current_slot]
      exact hq.block_ne_none h hleft
    · rw [hI.value _ (by simp), if_pos (hq.slots _)]
      exact Nat.one_pos
  have hquiet : ∀ m : Mem cfg, (m.doneProducing && cfg.fullInfo != 0) ≠ true := by simp [hinfo]
  cases hheld : s.mem.2.holder .cons with
  | some t =>
    -- its holder looks at the slot of the next take
    obtain ⟨k, rfl, hlook⟩ := hq.looking h hheld
    have hsec := section_of_reach h _ _ hheld
    have hpolls := hq.consumers k
    refine ⟨k, ?_⟩
    cases hl : s.loc (.cons k) with
    | readCursor =>
      obtain ⟨m', b', idx, line, hrun, htook⟩ := solo_take (k := k) (b := s.mem.2) ho
      exact ⟨m', b', idx, line, solo_consume rfl hrun, htook⟩
    | testSlot cur =>
      have hk : ConsKnows k s.mem.1 s.mem.2 (s.loc (.cons k)) := hA (.cons k)
      rw [hl] at hk
      obtain ⟨-, -, rfl⟩ := hk
      obtain ⟨m', b', idx, line, hrun, htook⟩ := solo_take (k := k) (b := s.mem.2) ho
      rw [hcur] at hrun
      exact ⟨m', b', idx, line, hrun, htook⟩
    | postIdle =>
      let m₁ := semPost .cons s.mem.1
      have ho₁ : Offered m₁ := by
        refine ⟨ho.full, ?_⟩
        show 0 < Function.update s.mem.1.sems .cons (s.mem.1.sems .cons + 1) (.slot _)
        rw [Function.update_of_ne (by simp)]
        exact ho.slot
      have hcons : 0 < m₁.sems .cons := by
        show 0 < Function.update s.mem.1.sems .cons (s.mem.1.sems .cons + 1) .cons
        rw [Function.update_self]
        exact Nat.succ_pos _
      obtain ⟨m', b', idx, line, hrun, hm', hb', htakes⟩ := solo_wait_take (k := k)
        (b := s.mem.2.release .cons) hcons ho₁
      refine ⟨m', b', idx, line, ?_, hm', hb', htakes⟩
      exact solo_consume rfl (solo_consume (if_neg (hquiet m₁)) hrun)
    | _ =>
      rw [hl] at hsec hpolls
      simp [Section, Consume.Section, Consume.Polls] at hsec hpolls
  | none =>
    -- any consumer can pass the semaphore
    let k : Fin cfg.K := ⟨0, cfg.K_pos⟩
    have hcons : 0 < s.mem.1.sems .cons := by
      rw [hI.value _ (by simp), if_pos hheld]
      exact Nat.one_pos
    obtain ⟨m', b', idx, line, hrun, htook⟩ := solo_wait_take (k := k) (b := s.mem.2) hcons ho
    refine ⟨k, m', b', idx, line, ?_, htook⟩
    have hk : ConsKnows k s.mem.1 s.mem.2 (s.loc (.cons k)) := hA (.cons k)
    have hpolls := hq.consumers k
    cases hl : s.loc (.cons k) with
    | waitCons => exact hrun
    | testDone => exact solo_consume (if_neg (hquiet s.mem.1)) hrun
    | returned => exact absurd hl (never_returned hinfo h k)
    | readCursor | postIdle =>
      rw [hl] at hk
      exact absurd (hheld.symm.trans (Looking.holds hk.2)) (Option.some_ne_none _).symm
    | testSlot cur =>
      rw [hl] at hk
      exact absurd (hheld.symm.trans (Looking.holds hk.2.1)) (Option.some_ne_none _).symm
    | _ =>
      rw [hl] at hpolls
      exact hpolls.elim

/-- The rank can be lowered unless the producers have returned and every claim has been
taken. -/
theorem exists_work_lt (hinfo : cfg.fullInfo = 0)
    (h : (booked cfg).Reach (bookStart cfg text) s)
    (hnot : ¬ ((∀ p, s.loc (.prod p) = .returned) ∧
      s.mem.2.claims.length ≤ s.mem.2.takes.length)) :
    ∃ s', (booked cfg).Reach s s' ∧ work s' < work s := by
  by_cases hstuck : ∀ t, Busy t (s.loc t) → ¬ CanStep s t
  · have hq := quiet_of_stuck h hstuck
    have hleft : s.mem.2.takes.length < s.mem.2.claims.length := by
      by_contra hall
      exact hnot ⟨hq.prods_returned h (not_lt.mp hall), not_lt.mp hall⟩
    obtain ⟨k, m', b', idx, line, hrun, htook⟩ := hq.exists_take hinfo h hleft
    obtain ⟨s', hreach, hmem, hloc, hothers⟩ := hrun.exists_reach rfl
    refine ⟨s', hreach, ?_⟩
    have htotal := Program.total_of_eq_off threadRank hothers
    have hlines := (knows_of_reach h).1.accounts.claims_length_le
    have hfile := htook.file
    have htakes := htook.takes
    have hmore := htook.lines
    rw [hloc] at htotal
    simp only [threadRank, consumeRank] at htotal
    simp only [work, toDo, hmem, hfile, hmore, htakes]
    omega
  · push Not at hstuck
    obtain ⟨t, hbusy, hcan⟩ := hstuck
    obtain ⟨⟨r, l'⟩, hstep⟩ := Option.ne_none_iff_exists'.mp hcan
    have hnext : (booked cfg).next t s = some ⟨r, Function.update s.loc t l'⟩ := by
      rw [Program.next, hstep, Option.map_some]
    exact ⟨_, Relation.ReflTransGen.single ⟨t, hnext⟩, work_lt h hbusy hnext⟩

end Finish

/-! ### The lines of the file -/

/-- The lines read so far and those still in the file are the lines of the file; a producer
returns at its end. -/
structure ReadsLines (text : List UInt8) (m : Mem cfg) (b : Books cfg) : Prop where
  lines : b.lines.map Prod.snd ++ Stdio.fileLines lineMax m.file = Stdio.fileLines lineMax text
  ended : ∀ p, m.exited (.prod p) = true → m.file = []

theorem ReadsLines.of_eq (h : ReadsLines text m b) {b' : Books cfg} (hfile : m'.file = m.file)
    (hexited : ∀ p, m'.exited (.prod p) = m.exited (.prod p)) (hlines : b'.lines = b.lines) :
    ReadsLines text m' b' := by
  refine ⟨?_, fun p hp => ?_⟩
  · rw [hlines, hfile]
    exact h.lines
  · rw [hexited] at hp
    rw [hfile]
    exact h.ended p hp

theorem ReadsLines.produce (h : ReadsLines text m b) {p : Fin cfg.P} {l l' : Produce cfg}
    (hstep : produce p m l = some (m', l')) : ReadsLines text m' (produceBooks p m l b) := by
  by_cases hl : l = .fgets
  · subst hl
    cases hline : Stdio.fgets lineMax m.file with
    | none =>
      simp only [Sem.produce, hline] at hstep
      obtain ⟨rfl, rfl⟩ := Prod.mk.inj (Option.some.inj hstep)
      simp only [produceBooks, hline]
      exact ⟨h.lines, fun _ _ => Stdio.fgets_eq_none_iff.mp hline⟩
    | some r =>
      obtain ⟨line, rest⟩ := r
      simp only [Sem.produce, hline] at hstep
      obtain ⟨rfl, rfl⟩ := Prod.mk.inj (Option.some.inj hstep)
      simp only [produceBooks, hline]
      have hlines := h.lines
      rw [Stdio.fileLines_of_fgets (by decide) hline] at hlines
      refine ⟨?_, fun p' hp' => ?_⟩
      · show (b.lines ++ [(p, line)]).map Prod.snd ++ Stdio.fileLines lineMax rest = _
        rw [List.map_append, List.append_assoc]
        exact hlines
      · -- whoever returns has found the file at its end
        have hend := h.ended p' hp'
        rw [Stdio.fgets_eq_none_iff.mpr hend] at hline
        exact absurd hline (Option.some_ne_none _).symm
  · obtain ⟨hsame, -, -⟩ := produce_goes_on (b := b) hl hstep
    exact h.of_eq hsame.file hsame.exited hsame.lines

theorem readsLines_of_reach {s : Global (Mem cfg × Books cfg) (Local cfg)}
    (h : (booked cfg).Reach (bookStart cfg text) s) : ReadsLines text s.mem.1 s.mem.2 := by
  refine h.invariant (I := fun s => ReadsLines text s.mem.1 s.mem.2)
    ⟨rfl, fun p hp => absurd hp Bool.false_ne_true⟩ ?_
  intro t s s' _ hs hnext
  obtain ⟨⟨m', b'⟩, l', hstep, rfl⟩ := Program.next_eq_some _ hnext
  obtain ⟨hmem, hb⟩ := (Program.withHistory_step_eq_some _ _).mp hstep
  cases t with
  | main =>
    obtain rfl : b' = s.mem.2 := hb
    obtain ⟨hfile, hexited⟩ := waitThreads_file hmem
    exact hs.of_eq hfile (fun p => congrFun hexited _) rfl
  | prod p =>
    obtain rfl : b' = produceBooks p s.mem.1 (s.loc (.prod p)) s.mem.2 := hb
    exact hs.produce hmem
  | cons k =>
    obtain rfl : b' = consumeBooks k s.mem.1 (s.loc (.cons k)) s.mem.2 := hb
    have hsame : ReadsNothing s.mem.1 s.mem.2 m'
        (consumeBooks k s.mem.1 (s.loc (.cons k)) s.mem.2) := consume_readsNothing hmem
    exact hs.of_eq hsame.file hsame.exited hsame.lines

/-- Every line of the file has been read. -/
def AllRead (text : List UInt8) (b : Books cfg) : Prop :=
  b.lines.map Prod.snd = Stdio.fileLines lineMax text

theorem allRead_of_returned {s : Global (Mem cfg × Books cfg) (Local cfg)}
    (h : (booked cfg).Reach (bookStart cfg text) s) (hret : ∀ p, s.loc (.prod p) = .returned)
    (hreads : 0 < cfg.P ∨ text = []) : AllRead text s.mem.2 := by
  have hlines := readsLines_of_reach h
  have hall := hlines.lines
  rcases hreads with hP | rfl
  · have hp : ProdKnows ⟨0, hP⟩ s.mem.1 s.mem.2 (s.loc (.prod ⟨0, hP⟩)) :=
      (knows_of_reach h).2 (.prod ⟨0, hP⟩)
    rw [hlines.ended ⟨0, hP⟩ (hp.1.mpr (hret _)), Stdio.fileLines_nil, List.append_nil] at hall
    exact hall
  · rw [Stdio.fileLines_nil] at hall
    exact (List.append_eq_nil_iff.mp hall).1

/-! ### The system can finish -/

/-- The producers have returned, and every line of the file has been read and taken. -/
def Finished (text : List UInt8) (s : Global (Mem cfg × Books cfg) (Local cfg)) : Prop :=
  (∀ p, s.loc (.prod p) = .returned) ∧ AllRead text s.mem.2 ∧
    AllTaken s.mem.1.toStore s.mem.2.toHistory

/-- From every reachable state some run leads to the end of the producers and of the lines
they have read. -/
theorem exists_end (hinfo : cfg.fullInfo = 0) {s : Global (Mem cfg × Books cfg) (Local cfg)}
    (h : (booked cfg).Reach (bookStart cfg text) s) :
    ∃ s', (booked cfg).Reach s s' ∧ (∀ p, s'.loc (.prod p) = .returned) ∧
      AllTaken s'.mem.1.toStore s'.mem.2.toHistory := by
  obtain ⟨s', hreach, hret, hall⟩ := h.exists_of_rank work fun s hs => exists_work_lt hinfo hs
  obtain ⟨hI, hA⟩ := knows_of_reach (h.trans hreach)
  exact ⟨s', hreach, hret, allTaken_of_claims hI hA hret hall⟩

/-- Not all threads are blocked: some producer or consumer can take a step. -/
theorem exists_canStep (hinfo : cfg.fullInfo = 0) {s : Global (Mem cfg × Books cfg) (Local cfg)}
    (h : (booked cfg).Reach (bookStart cfg text) s) : ∃ t, t ≠ .main ∧ CanStep s t := by
  by_cases hstuck : ∀ t, Busy t (s.loc t) → ¬ CanStep s t
  · obtain ⟨hI, -⟩ := knows_of_reach h
    have hq := quiet_of_stuck h hstuck
    -- a consumer that does not wait for the consumer semaphore, or may pass it
    have hcan : ∀ k, (s.loc (.cons k) = .waitCons → s.mem.2.holder .cons = none) →
        CanStep s (.cons k) := by
      intro k hwait
      rw [canStep_cons_iff]
      intro hnone
      rcases consume_blocked hI hnone with hl | ⟨t, hl, hheld⟩ | ⟨idx, t, -, hheld⟩
      · exact never_returned hinfo h k hl
      · exact absurd (hheld.symm.trans (hwait hl)) (Option.some_ne_none t)
      · exact absurd (hheld.symm.trans (hq.slots idx)) (Option.some_ne_none t)
    cases hheld : s.mem.2.holder .cons with
    | none => exact ⟨.cons ⟨0, cfg.K_pos⟩, by simp, hcan _ fun _ => hheld⟩
    | some t =>
      obtain ⟨k, rfl, -⟩ := hq.looking h hheld
      have hsec := section_of_reach h _ _ hheld
      refine ⟨.cons k, by simp, hcan k fun hl => ?_⟩
      rw [hl] at hsec
      simp [Section, Consume.Section] at hsec
  · push Not at hstuck
    obtain ⟨t, hbusy, hcan⟩ := hstuck
    refine ⟨t, ?_, hcan⟩
    rintro rfl
    exact hbusy

/-- The producers have returned, and every line they have read has been taken; if there is a
producer or nothing to read, that is every line of the file. -/
def EndsWell (text : List UInt8) (s : Global (Mem cfg × Books cfg) (Local cfg)) : Prop :=
  (∀ p, s.loc (.prod p) = .returned) ∧ AllTaken s.mem.1.toStore s.mem.2.toHistory ∧
    (0 < cfg.P ∨ text = [] → AllRead text s.mem.2)

/-- **From every state of every run the system can finish** when `full_info` is zero, and in
no state are all producers and consumers blocked. -/
theorem finishes_run (cfg : Config) (hinfo : cfg.fullInfo = 0) (text : List UInt8)
    (sched : List (Thread cfg)) :
    (∃ sched', EndsWell text
      ((booked cfg).run sched' ((booked cfg).run sched (bookStart cfg text)))) ∧
    ∃ t, t ≠ .main ∧ CanStep ((booked cfg).run sched (bookStart cfg text)) t := by
  have h := (booked cfg).reach_run sched (bookStart cfg text)
  refine ⟨?_, exists_canStep hinfo h⟩
  obtain ⟨s', hreach, hret, htaken⟩ := exists_end hinfo h
  obtain ⟨sched', rfl⟩ := (booked cfg).exists_run_of_reach hreach
  exact ⟨sched', hret, htaken, allRead_of_returned (h.trans hreach) hret⟩

/-- One producer, one consumer and one slot, and `full_info` zero. -/
def couple : Config := { Config.counts 1 1 1 Nat.zero_lt_one Nat.zero_lt_one with fullInfo := 0 }

theorem finishes_run_couple :
    (∃ sched', EndsWell [10]
      ((booked couple).run sched' ((booked couple).run [] (bookStart couple [10])))) ∧
    ∃ t, t ≠ .main ∧ CanStep ((booked couple).run [] (bookStart couple [10])) t :=
  finishes_run couple rfl [10] []

/-- One consumer and one slot, no producer, and `full_info` zero. -/
def lone : Config := { Config.counts 0 1 1 Nat.zero_lt_one Nat.zero_lt_one with fullInfo := 0 }

/-- **Without a producer no line of the file is taken.** -/
theorem nobody_reads : ¬ ∀ sched, ∃ sched',
    Finished [10] ((booked lone).run sched' ((booked lone).run sched (bookStart lone [10]))) := by
  intro h
  obtain ⟨sched', -, hread, -⟩ := h []
  generalize (booked lone).run sched' ((booked lone).run [] (bookStart lone [10])) = s at hread
  have hlines : s.mem.2.lines = [] := by
    cases hs : s.mem.2.lines with
    | nil => rfl
    | cons x rest => exact x.1.elim0
  rw [AllRead, hlines] at hread
  exact absurd hread (by decide)

end Sem
end ProdCons
end OpSys
