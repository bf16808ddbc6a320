import OpSys.ProdCons.Reports
import OpSys.ProdCons.Mutex.Reach

/-!
# The blocks and the reports of the mutex version

Two consumers may have a turn for one slot, and one of them then takes `NULL`.  Such a
take is no report and frees nothing.

## Main definitions

* `Consume.hand` — the block that a consumer has taken and not yet freed.
* `NothingLost` — what holds of the heap in every state of a run.
* `ReportsRight` — what holds of the printed reports.

## Main results

* `nothingLost_mutex` — no block is lost, none is used after it has been freed, and
  `clean_up` frees what is left.
* `reportsRight_mutex` — every consumer reports on just the lines that it has taken, and
  once all lines have been taken, on every line of the file that meets the search once.

## References

`lab7_synch_threads/mutex/main.c`.
-/

namespace OpSys
namespace ProdCons
namespace Mutex

variable {cfg : Config} {spurious : Bool} {text : List UInt8} {m m' : Mem cfg}
  {h : History cfg} {s : Global (Mem cfg × History cfg) (Local cfg)}

/-- What a consumer has in its variable `line`: from the slot until `found_len` has seen it a
line to examine, then one to free. -/
def Consume.hand : Consume cfg → Hand
  | .broadcast _ line | .unlockSlot _ line | .examine line => .taken line
  | .free line => .examined line
  | _ => .empty

/-- What the consumers have in hand. -/
def hands (loc : (t : Thread cfg) → Local cfg t) : Fin cfg.K → Hand :=
  handsOf (fun _ => Consume.hand) loc

/-- The blocks and the reports are accounted for. -/
def AccountedFor (s : Global (Mem cfg × History cfg) (Local cfg)) : Prop :=
  Accounted s.mem.1.toStore s.mem.2 (hands s.loc)

/-- What holds of the heap. -/
structure NothingLost (s : Global (Mem cfg × History cfg) (Local cfg)) : Prop where
  /-- A block that is allocated is in one slot or in one consumer's hand. -/
  kept : ∀ q, s.mem.1.heap q ≠ none →
    ∃! place : Place cfg, place.Has s.mem.1.toStore (hands s.loc) q
  /-- A block that has been freed is nowhere. -/
  gone : ∀ q, s.mem.1.heap q = none →
    ∀ place : Place cfg, ¬ place.Has s.mem.1.toStore (hands s.loc) q
  /-- Whoever writes to a block or examines it finds it allocated. -/
  copy : ∀ p idx dst rest, s.loc (.prod p) = .copy idx dst rest → s.mem.1.heap dst ≠ none
  examine : ∀ k q, s.loc (.cons k) = .examine (some q) → s.mem.1.heap q ≠ none
  /-- `clean_up` frees the blocks that are left, and none twice. -/
  cleanUp : s.loc .main = .cleanUp →
    ∃ heap, s.mem.1.toStore.cleanUp = some { s.mem.1.toStore with heap := heap } ∧
      ∀ q, heap q = none

/-- What holds of the reports in a run on a file with the bytes `text`. -/
structure ReportsRight (text : List UInt8) (s : Global (Mem cfg × History cfg) (Local cfg)) :
    Prop where
  /-- A consumer has reported on its takes in their order, the one in hand left out. -/
  each : ∀ k, Reported s.mem.1.toStore s.mem.2 k (hands s.loc k)
  /-- A take that has found `NULL` is not reported, any other as the line that the block was
  filled with: a whole piece of the file, as `fgets` delivers it and `strcpy` copies it. -/
  lines : ∀ x ∈ s.mem.2.takes, (x.ptr = none ∧ x.report = none) ∨
    ∃ q p i line, x.ptr = some q ∧ s.mem.2.fills[q]? = some (p, i) ∧
      s.mem.2.lines[i]? = some (p, line) ∧ (Stdio.fileLines lineMax text)[i]? = some line ∧
      x.text = some (Stdio.strcpyBytes line) ∧ x.report = cfg.lineReport line
  /-- When the file has been read, and all lines taken and examined, the reports are those on
  the pieces of the file. -/
  all : (∀ k line, hands s.loc k ≠ .taken line) → s.mem.1.file = [] →
    AllTaken s.mem.1.toStore s.mem.2 →
    (s.mem.1.found.map Prod.snd).Perm ((Stdio.fileLines lineMax text).filterMap cfg.lineReport)

/-! ### The steps -/

theorem waitThreads_store {l l' : WaitThreads} (hstep : waitThreads m l = some (m', l')) :
    m'.heap = m.heap ∧ m'.sharedResource = m.sharedResource ∧ m'.fresh = m.fresh ∧
      m'.found = m.found := by
  cases l with
  | joinProd | joinCons =>
    simp only [waitThreads] at hstep
    split at hstep
    · split at hstep
      · obtain ⟨rfl, -⟩ := Prod.mk.inj (Option.some.inj hstep)
        exact ⟨rfl, rfl, rfl, rfl⟩
      · exact absurd hstep (Option.some_ne_none _).symm
    · obtain ⟨rfl, -⟩ := Prod.mk.inj (Option.some.inj hstep)
      exact ⟨rfl, rfl, rfl, rfl⟩
  | setDone | broadcast =>
    obtain ⟨rfl, -⟩ := Prod.mk.inj (Option.some.inj hstep)
    exact ⟨rfl, rfl, rfl, rfl⟩
  | cleanUp => exact absurd hstep (Option.some_ne_none _).symm

theorem lock_store {α : Type*} {mutex : MutexId cfg} {t : Thread cfg} {l l' : α}
    (hlock : (m.lock mutex t).map (·, l) = some (m', l')) :
    m'.toStore = m.toStore ∧ l' = l := by
  obtain ⟨m₁, hm₁, heq⟩ := Option.map_eq_some_iff.mp hlock
  obtain ⟨rfl, rfl⟩ := Prod.mk.inj heq
  obtain ⟨-, rfl⟩ := lock_eq_some hm₁
  exact ⟨rfl, rfl⟩

theorem reacquire_store {α : Type*} {mutex : MutexId cfg} {t : Thread cfg} {l l' : α}
    (hlock : (m.reacquire spurious mutex t).map (·, l) = some (m', l')) :
    m'.toStore = m.toStore ∧ l' = l := by
  obtain ⟨m₁, hm₁, heq⟩ := Option.map_eq_some_iff.mp hlock
  obtain ⟨rfl, rfl⟩ := Prod.mk.inj heq
  obtain ⟨-, rfl⟩ := reacquire_eq_some hm₁
  exact ⟨rfl, rfl⟩

/-- A step of a producer keeps the accounts. -/
theorem produce_accounts {hand : Fin cfg.K → Hand} {p : Fin cfg.P} {l l' : Produce cfg}
    (hk : ProdKnows p m h l) (ha : Accounted m.toStore h hand)
    (hstep : produce spurious p m l = some (m', l')) :
    Accounted m'.toStore (produceBooks p m l h) hand := by
  obtain ⟨-, hstage⟩ := hk
  cases l with
  | fgets =>
    cases hline : Stdio.fgets lineMax m.file with
    | none =>
      simp only [produce, hline] at hstep
      obtain ⟨rfl, -⟩ := Prod.mk.inj (Option.some.inj hstep)
      simp only [produceBooks, hline]
      exact ha.of_eq rfl rfl rfl rfl rfl
    | some r =>
      obtain ⟨line, rest⟩ := r
      simp only [produce, hline] at hstep
      obtain ⟨rfl, -⟩ := Prod.mk.inj (Option.some.inj hstep)
      simp only [produceBooks, hline]
      exact ha.of_eq rfl rfl rfl rfl rfl
  | lockProd line | lockSlot line idx =>
    obtain ⟨hsame, -⟩ := lock_store hstep
    rw [hsame]
    exact ha
  | asleep line =>
    obtain ⟨hsame, -⟩ := reacquire_store hstep
    rw [hsame]
    exact ha
  | testSlot line cur =>
    simp only [produce] at hstep
    split at hstep
    all_goals
      obtain ⟨rfl, -⟩ := Prod.mk.inj (Option.some.inj hstep)
      exact ha
  | store line idx =>
    obtain ⟨rfl, -⟩ := Prod.mk.inj (Option.some.inj hstep)
    exact ha.malloc hstage.1.empty rfl
  | readDst line idx =>
    simp only [produce, Option.map_eq_some_iff] at hstep
    obtain ⟨dst, -, heq⟩ := hstep
    obtain ⟨rfl, -⟩ := Prod.mk.inj heq
    exact ha
  | copy idx dst rest =>
    cases rest with
    | nil =>
      obtain ⟨rfl, -⟩ := Prod.mk.inj (Option.some.inj hstep)
      exact ha
    | cons c rest =>
      obtain ⟨rfl, -⟩ := Prod.mk.inj (Option.some.inj hstep)
      obtain ⟨line, hf, -⟩ := hstage
      exact ha.putByte hf.stored c
  | returned => exact absurd hstep (Option.some_ne_none _).symm
  | _ =>
    obtain ⟨rfl, -⟩ := Prod.mk.inj (Option.some.inj hstep)
    exact ha.of_eq rfl rfl rfl rfl rfl

/-- A step of a consumer keeps the accounts, with what is then in its hand. -/
theorem consume_accounts {hand : Fin cfg.K → Hand} {k : Fin cfg.K} {l l' : Consume cfg}
    (hk : ConsKnows k m h l) (hhand : hand k = l.hand) (ha : Accounted m.toStore h hand)
    (hstep : consume spurious k m l = some (m', l')) :
    Accounted m'.toStore (consumeBooks k m l h) (Function.update hand k l'.hand) := by
  obtain ⟨-, hstage⟩ := hk
  -- the hand changes in three places only
  have hstay : l'.hand = l.hand → Function.update hand k l'.hand = hand := fun heq => by
    rw [heq, ← hhand, Function.update_eq_self]
  cases l with
  | lockCons | lockSlot idx =>
    obtain ⟨hsame, rfl⟩ := lock_store hstep
    rw [hstay rfl, hsame]
    exact ha.of_eq rfl rfl rfl rfl rfl
  | asleep =>
    obtain ⟨hsame, rfl⟩ := reacquire_store hstep
    rw [hstay rfl, hsame]
    exact ha
  | testSlot cur | testDone =>
    simp only [consume] at hstep
    split at hstep
    all_goals
      obtain ⟨rfl, rfl⟩ := Prod.mk.inj (Option.some.inj hstep)
      rw [hstay rfl]
      exact ha
  | clear idx line =>
    obtain ⟨rfl, rfl⟩ := Prod.mk.inj (Option.some.inj hstep)
    obtain ⟨⟨j, hturn, -⟩, -, hline⟩ := hstage
    exact ha.take hhand hturn hline
  | examine line =>
    obtain ⟨rfl, rfl⟩ := Prod.mk.inj (Option.some.inj hstep)
    exact ha.examine hhand
  | free line =>
    obtain ⟨rfl, rfl⟩ := Prod.mk.inj (Option.some.inj hstep)
    exact ha.free hhand
  | returned => exact absurd hstep (Option.some_ne_none _).symm
  | _ =>
    obtain ⟨rfl, rfl⟩ := Prod.mk.inj (Option.some.inj hstep)
    rw [hstay rfl]
    exact ha.of_eq rfl rfl rfl rfl rfl

/-- The accounts are kept in every reachable state. -/
theorem accountedFor_of_reach (hs : (booked cfg spurious).Reach (bookStart cfg text) s) :
    AccountedFor s := by
  refine hs.invariant (I := AccountedFor) (accounted_start text) ?_
  intro t s s' hs ha hnext
  obtain ⟨-, hA⟩ := knows_of_reach hs
  obtain ⟨⟨m', h'⟩, l', hstep, rfl⟩ := Program.next_eq_some _ hnext
  obtain ⟨hmem, hb⟩ := (Program.withHistory_step_eq_some _ _).mp hstep
  show Accounted m'.toStore h' (hands (Function.update s.loc t l'))
  cases t with
  | main =>
    obtain rfl : h' = s.mem.2 := hb
    obtain ⟨hheap, hslots, hfresh, hfound⟩ := waitThreads_store hmem
    rw [hands, handsOf_of_ne (by simp)]
    exact Accounted.of_eq ha hheap hslots hfresh hfound rfl
  | prod p =>
    obtain rfl : h' = produceBooks p s.mem.1 (s.loc (.prod p)) s.mem.2 := hb
    rw [hands, handsOf_of_ne (by simp)]
    exact produce_accounts (hA (.prod p)) ha hmem
  | cons k =>
    obtain rfl : h' = consumeBooks k s.mem.1 (s.loc (.cons k)) s.mem.2 := hb
    rw [hands, handsOf_cons]
    exact consume_accounts (hA (.cons k)) rfl ha hmem

/-! ### The runs -/

theorem nothingLost_of_reach (hs : (booked cfg spurious).Reach (bookStart cfg text) s) :
    NothingLost s := by
  obtain ⟨-, hA⟩ := knows_of_reach hs
  have ha : Accounted s.mem.1.toStore s.mem.2 (hands s.loc) := accountedFor_of_reach hs
  refine ⟨fun q hq => ha.exists_place hq, fun q hq => ha.not_has hq, ?_, ?_, ?_⟩
  · intro p idx dst rest hloc
    have hp : ProdKnows p s.mem.1 s.mem.2 (s.loc (.prod p)) := hA (.prod p)
    rw [hloc] at hp
    obtain ⟨-, line, -, written, hwritten, -⟩ := hp
    rw [hwritten]
    exact Option.some_ne_none written
  · intro k q hloc
    -- the block is in the hand of the consumer
    apply (ha.live q).mpr
    refine Or.inr ⟨k, ?_⟩
    rw [hands, handsOf, hloc]
    rfl
  · intro hmain
    have hm : MainKnows s.mem.1 (s.loc .main) := hA .main
    rw [hmain] at hm
    apply ha.cleanUp
    intro k
    have hk : ConsKnows k s.mem.1 s.mem.2 (s.loc (.cons k)) := hA (.cons k)
    rw [hands, handsOf, hk.1.mp (hm.2 k)]
    rfl

theorem reportsRight_of_reach (hs : (booked cfg spurious).Reach (bookStart cfg text) s) :
    ReportsRight text s := by
  obtain ⟨hI, -⟩ := knows_of_reach hs
  have ha : Accounted s.mem.1.toStore s.mem.2 (hands s.loc) := accountedFor_of_reach hs
  refine ⟨ha.reported, ?_, ?_⟩
  · intro x hx
    cases hptr : x.ptr with
    | none => exact Or.inl ⟨rfl, by simp [Take.report, hptr]⟩
    | some q =>
      obtain ⟨p, i, line, hfill, hline, htext⟩ := hI.takes x hx q hptr
      refine Or.inr ⟨q, p, i, line, rfl, hfill, hline, getElem?_fileLines hI.reads hline,
        htext, ?_⟩
      simp [Take.report, Config.lineReport, hptr, htext, strlen_strcpyBytes]
  · intro hexam hfile hall
    have hread := hI.reads
    rw [hfile, Stdio.fileLines_nil, List.append_nil] at hread
    rw [← hread, List.filterMap_map]
    exact (ha.found_lengths hexam).trans (hall.reports_perm hI.takes)

/-- **Every consumer reports on just the lines that it has taken**, in every state of every
run of the mutex version, also with spurious wake-ups, and once all lines have been taken
the reports are those on the file. -/
theorem reportsRight_mutex (cfg : Config) (spurious : Bool) (text : List UInt8)
    (sched : List (Thread cfg)) :
    ReportsRight text ((booked cfg spurious).run sched (bookStart cfg text)) :=
  reportsRight_of_reach ((booked cfg spurious).reach_run sched _)

end Mutex
end ProdCons
end OpSys
