import OpSys.ProdCons.Reports
import OpSys.ProdCons.Sem.Drain

/-!
# The blocks and the reports of the semaphore version

## Main definitions

* `Consume.hand` — the block that a consumer has taken and not yet freed.
* `MemorySafe` — what holds of the heap in every state of a run.
* `ReportsMatch` — what holds of the printed reports.

## Main results

* `memorySafe_sem` — no block is lost, none is used after it has been freed, and
  `clean_up` frees what is left.
* `reportsMatch_sem` — every consumer reports on just the lines that it has taken, and at
  the end on every line of the file that meets the search once.

## References

`lab7_synch_threads/unnamed_semaphore/main.c`.
-/

namespace OpSys
namespace ProdCons
namespace Sem

variable {cfg : Config} {text : List UInt8} {m m' : Mem cfg} {b : Books cfg}
  {s : Global (Mem cfg × Books cfg) (Local cfg)}

/-- What a consumer has in its variable `line`: from the slot until `found_len` has seen it a
line to examine, then one to free. -/
def Consume.hand : Consume cfg → Hand
  | .postFree _ line | .postCons _ line | .postSlot _ line | .examine line => .taken line
  | .free line => .examined line
  | _ => .empty

/-- What the consumers have in hand. -/
def hands (loc : (t : Thread cfg) → Local cfg t) : Fin cfg.K → Hand :=
  handsOf (fun _ => Consume.hand) loc

/-- The blocks and the reports are accounted for. -/
def AccountedFor (s : Global (Mem cfg × Books cfg) (Local cfg)) : Prop :=
  Accounted s.mem.1.toStore s.mem.2.toHistory (hands s.loc)

/-- What holds of the heap. -/
structure MemorySafe (s : Global (Mem cfg × Books cfg) (Local cfg)) : Prop where
  /-- A block that is allocated is in one slot or in one consumer's hand. -/
  kept : ∀ q, s.mem.1.heap q ≠ none →
    ∃! place : Place cfg, place.Has s.mem.1.toStore (hands s.loc) q
  /-- A block that has been freed is nowhere. -/
  gone : ∀ q, s.mem.1.heap q = none →
    ∀ place : Place cfg, ¬ place.Has s.mem.1.toStore (hands s.loc) q
  /-- Whoever writes to a block, examines or frees it finds it allocated. -/
  copy : ∀ p idx dst rest, s.loc (.prod p) = .copy idx dst rest → s.mem.1.heap dst ≠ none
  examine : ∀ k q, s.loc (.cons k) = .examine (some q) → s.mem.1.heap q ≠ none
  free : ∀ k q, s.loc (.cons k) = .free (some q) → s.mem.1.heap q ≠ none
  /-- `clean_up` frees the blocks that are left, and none twice. -/
  cleanUp : s.loc .main = .cleanUp →
    ∃ heap, s.mem.1.toStore.cleanUp = some { s.mem.1.toStore with heap := heap } ∧
      ∀ q, heap q = none

/-- Nobody has a line that it has still to examine. -/
def Examined (s : Global (Mem cfg × Books cfg) (Local cfg)) : Prop :=
  ∀ k line, hands s.loc k ≠ .taken line

/-- What holds of the reports in a run on a file with the bytes `text`. -/
structure ReportsMatch (text : List UInt8) (s : Global (Mem cfg × Books cfg) (Local cfg)) :
    Prop where
  /-- A consumer has reported on its takes in their order, the one in hand left out. -/
  each : ∀ k, Reported s.mem.1.toStore s.mem.2.toHistory k (hands s.loc k)
  /-- The `n`-th take is of the line that `curr_prod` was advanced for the `n`-th time: a whole
  piece of the file, as `fgets` delivers it and `strcpy` copies it. -/
  lines : ∀ (n : ℕ) x, s.mem.2.takes[n]? = some x → ∃ p i line,
    s.mem.2.claims[n]? = some (p, i) ∧ s.mem.2.lines[i]? = some (p, line) ∧
      (Stdio.fileLines lineMax text)[i]? = some line ∧
      x.text = some (Stdio.strcpyBytes line) ∧ x.report = cfg.lineReport line
  /-- When all lines have been taken and examined the reports are those on the pieces of the
  file. -/
  all : Examined s → Finished text s →
    (s.mem.1.found.map Prod.snd).Perm ((Stdio.fileLines lineMax text).filterMap cfg.lineReport)

/-! ### The steps -/

/-- A claim that has not been taken shows its block in its slot. -/
theorem SemInv.slot_of_late (hI : SemInv m b) {p : Fin cfg.P} {line : List UInt8}
    {idx : Fin cfg.N} {q : Ptr} (hf : Filling b p line idx q) :
    m.sharedResource idx = some q := by
  have hlt := (List.getElem?_eq_some_iff.mp hf.claimed).1
  have hshows := hI.shows _ hf.late (lt_of_lt_of_le hlt hI.claims_lt_window)
  rw [hf.idx_eq]
  exact hshows.trans hf.block

theorem waitThreads_store {l l' : WaitThreads} (hstep : waitThreads m l = some (m', l')) :
    m'.heap = m.heap ∧ m'.sharedResource = m.sharedResource ∧ m'.fresh = m.fresh ∧
      m'.found = m.found := by
  cases l with
  | joinProd | joinCons =>
    simp only [waitThreads] at hstep
    split at hstep
    · split at hstep
      · obtain ⟨rfl, -⟩ := Prod.mk.inj (Option.some.inj hstep)
        exact ⟨rfl, rfl, rfl, rfl⟩
      · exact absurd hstep (Option.some_ne_none _).symm
    · obtain ⟨rfl, -⟩ := Prod.mk.inj (Option.some.inj hstep)
      exact ⟨rfl, rfl, rfl, rfl⟩
  | setDone =>
    obtain ⟨rfl, -⟩ := Prod.mk.inj (Option.some.inj hstep)
    exact ⟨rfl, rfl, rfl, rfl⟩
  | cleanUp => exact absurd hstep (Option.some_ne_none _).symm

theorem semWait_store {α : Type*} {sem : SemId cfg} {l l' : α}
    (h : (semWait sem m).map (·, l) = some (m', l')) :
    m'.toStore = m.toStore ∧ l' = l := by
  obtain ⟨m₁, hwait, heq⟩ := Option.map_eq_some_iff.mp h
  obtain ⟨rfl, rfl⟩ := Prod.mk.inj heq
  obtain ⟨-, rfl⟩ := semWait_eq_some hwait
  exact ⟨rfl, rfl⟩

/-- A step of a producer keeps the accounts. -/
theorem produce_accounts {hand : Fin cfg.K → Hand} (hI : SemInv m b) {p : Fin cfg.P}
    {l l' : Produce cfg} (hk : ProdKnows p m b l)
    (hempty : ∀ line idx, l = .store line idx → m.sharedResource idx = none)
    (ha : Accounted m.toStore b.toHistory hand) (hstep : produce p m l = some (m', l')) :
    Accounted m'.toStore (produceBooks p m l b).toHistory hand := by
  obtain ⟨-, hstage⟩ := hk
  cases l with
  | fgets =>
    cases hline : Stdio.fgets lineMax m.file with
    | none =>
      simp only [Sem.produce, hline] at hstep
      obtain ⟨rfl, -⟩ := Prod.mk.inj (Option.some.inj hstep)
      simp only [produceBooks, hline]
      exact ha.of_eq rfl rfl rfl rfl rfl
    | some r =>
      obtain ⟨line, rest⟩ := r
      simp only [Sem.produce, hline] at hstep
      obtain ⟨rfl, -⟩ := Prod.mk.inj (Option.some.inj hstep)
      simp only [produceBooks, hline]
      exact ha.of_eq rfl rfl rfl rfl rfl
  | waitProd line | waitFree line | waitSlot line idx =>
    obtain ⟨hsame, -⟩ := semWait_store hstep
    rw [hsame]
    exact ha.of_eq rfl rfl rfl rfl rfl
  | store line idx =>
    obtain ⟨rfl, -⟩ := Prod.mk.inj (Option.some.inj hstep)
    exact ha.malloc (hempty line idx rfl) rfl
  | readDst line idx =>
    simp only [Sem.produce, Option.map_eq_some_iff] at hstep
    obtain ⟨dst, -, heq⟩ := hstep
    obtain ⟨rfl, -⟩ := Prod.mk.inj heq
    exact ha
  | copy idx dst rest =>
    cases rest with
    | nil =>
      obtain ⟨rfl, -⟩ := Prod.mk.inj (Option.some.inj hstep)
      exact ha
    | cons c rest =>
      obtain ⟨rfl, -⟩ := Prod.mk.inj (Option.some.inj hstep)
      obtain ⟨line, hf, -⟩ := hstage
      exact ha.putByte (hI.slot_of_late hf) c
  | returned => exact absurd hstep (Option.some_ne_none _).symm
  | _ =>
    obtain ⟨rfl, -⟩ := Prod.mk.inj (Option.some.inj hstep)
    exact ha.of_eq rfl rfl rfl rfl rfl

/-- A step of a consumer keeps the accounts, with what is then in its hand. -/
theorem consume_accounts {hand : Fin cfg.K → Hand} (hI : SemInv m b) {k : Fin cfg.K}
    {l l' : Consume cfg} (hk : ConsKnows k m b l) (hhand : hand k = l.hand)
    (ha : Accounted m.toStore b.toHistory hand) (hstep : consume k m l = some (m', l')) :
    Accounted m'.toStore (consumeBooks k m l b).toHistory (Function.update hand k l'.hand) := by
  obtain ⟨-, hstage⟩ := hk
  -- the hand changes in three places only
  have hstay : l'.hand = l.hand → Function.update hand k l'.hand = hand := fun heq => by
    rw [heq, ← hhand, Function.update_eq_self]
  cases l with
  | waitCons | waitSlot idx =>
    obtain ⟨hsame, rfl⟩ := semWait_store hstep
    rw [hstay rfl, hsame]
    exact ha.of_eq rfl rfl rfl rfl rfl
  | testSlot cur =>
    simp only [Sem.consume] at hstep
    split at hstep
    all_goals
      obtain ⟨rfl, rfl⟩ := Prod.mk.inj (Option.some.inj hstep)
      rw [hstay rfl]
      exact ha
  | testDone =>
    simp only [Sem.consume] at hstep
    split at hstep
    all_goals
      obtain ⟨rfl, rfl⟩ := Prod.mk.inj (Option.some.inj hstep)
      rw [hstay rfl]
      exact ha.of_eq rfl rfl rfl rfl rfl
  | clear idx line =>
    obtain ⟨rfl, rfl⟩ := Prod.mk.inj (Option.some.inj hstep)
    obtain ⟨hturn, -, hline⟩ := hstage
    refine ha.take hhand hturn.turn ?_
    rw [hline, hturn.idx_eq, hI.current_slot]
  | examine line =>
    obtain ⟨rfl, rfl⟩ := Prod.mk.inj (Option.some.inj hstep)
    exact ha.examine hhand
  | free line =>
    obtain ⟨rfl, rfl⟩ := Prod.mk.inj (Option.some.inj hstep)
    exact ha.free hhand
  | returned => exact absurd hstep (Option.some_ne_none _).symm
  | _ =>
    obtain ⟨rfl, rfl⟩ := Prod.mk.inj (Option.some.inj hstep)
    rw [hstay rfl]
    exact ha.of_eq rfl rfl rfl rfl rfl

/-- The accounts are kept in every reachable state. -/
theorem accountedFor_of_reach (h : (booked cfg).Reach (bookStart cfg text) s) :
    AccountedFor s := by
  refine h.invariant (I := AccountedFor) (accounted_start text) ?_
  intro t s s' hs ha hnext
  obtain ⟨hI, hA⟩ := knows_of_reach hs
  obtain ⟨⟨m', b'⟩, l', hstep, rfl⟩ := Program.next_eq_some _ hnext
  obtain ⟨hmem, hb⟩ := (Program.withHistory_step_eq_some _ _).mp hstep
  show Accounted m'.toStore b'.toHistory (hands (Function.update s.loc t l'))
  cases t with
  | main =>
    obtain rfl : b' = s.mem.2 := hb
    obtain ⟨hheap, hslots, hfresh, hfound⟩ := waitThreads_store hmem
    rw [hands, handsOf_of_ne (by simp)]
    exact Accounted.of_eq ha hheap hslots hfresh hfound rfl
  | prod p =>
    obtain rfl : b' = produceBooks p s.mem.1 (s.loc (.prod p)) s.mem.2 := hb
    rw [hands, handsOf_of_ne (by simp)]
    exact produce_accounts hI (hA (.prod p)) ((orderly_of_reach hs).store p) ha hmem
  | cons k =>
    obtain rfl : b' = consumeBooks k s.mem.1 (s.loc (.cons k)) s.mem.2 := hb
    rw [hands, handsOf_cons]
    exact consume_accounts hI (hA (.cons k)) rfl ha hmem

/-! ### The runs -/

theorem memorySafe_of_reach (h : (booked cfg).Reach (bookStart cfg text) s) : MemorySafe s := by
  obtain ⟨hI, hA⟩ := knows_of_reach h
  have ha : Accounted s.mem.1.toStore s.mem.2.toHistory (hands s.loc) := accountedFor_of_reach h
  -- what is in a hand is allocated
  have hhand : ∀ k q, (hands s.loc k).ptr = some q → s.mem.1.heap q ≠ none :=
    fun k q hk => (ha.live q).mpr (Or.inr ⟨k, hk⟩)
  refine ⟨fun q hq => ha.exists_place hq, fun q hq => ha.not_has hq, ?_, ?_, ?_, ?_⟩
  · intro p idx dst rest hloc
    have hp : ProdKnows p s.mem.1 s.mem.2 (s.loc (.prod p)) := hA (.prod p)
    rw [hloc] at hp
    obtain ⟨-, line, -, written, hwritten, -⟩ := hp
    rw [hwritten]
    exact Option.some_ne_none written
  · intro k q hloc
    apply hhand k q
    rw [hands, handsOf, hloc]
    rfl
  · intro k q hloc
    apply hhand k q
    rw [hands, handsOf, hloc]
    rfl
  · intro hmain
    have hm : MainKnows s.mem.1 (s.loc .main) := hA .main
    rw [hmain] at hm
    apply ha.cleanUp
    intro k
    have hk : ConsKnows k s.mem.1 s.mem.2 (s.loc (.cons k)) := hA (.cons k)
    rw [hands, handsOf, hk.1.mp (hm.2 k)]
    rfl

/-- The takes are of whole lines. -/
theorem SemInv.takesLines (hI : SemInv m b) : TakesLines b.toHistory := by
  intro x hx q hq
  obtain ⟨n, hn⟩ := List.getElem?_of_mem hx
  obtain ⟨-, -, p, i, line, q', hclaim, hline, hblock, hptr, htext⟩ := hI.takes n x hn
  obtain rfl := Option.some.inj (hq.symm.trans hptr)
  exact ⟨p, i, line, (hI.block n q hblock).2.trans hclaim, hline, htext⟩

theorem reportsMatch_of_reach (h : (booked cfg).Reach (bookStart cfg text) s) :
    ReportsMatch text s := by
  obtain ⟨hI, hA⟩ := knows_of_reach h
  have ha : Accounted s.mem.1.toStore s.mem.2.toHistory (hands s.loc) := accountedFor_of_reach h
  refine ⟨ha.reported, ?_, ?_⟩
  · intro n x hx
    obtain ⟨-, -, p, i, line, q, hclaim, hline, hblock, hptr, htext⟩ := hI.takes n x hx
    refine ⟨p, i, line, hclaim, hline,
      getElem?_fileLines (readsLines_of_reach h).lines hline, htext, ?_⟩
    simp [Take.report, Config.lineReport, hptr, htext, strlen_strcpyBytes]
  · rintro hexam ⟨-, hread, hall⟩
    have hread : s.mem.2.lines.map Prod.snd = Stdio.fileLines lineMax text := hread
    rw [← hread, List.filterMap_map]
    exact (ha.found_lengths hexam).trans (hall.reports_perm hI.takesLines)

/-- **Every consumer reports on just the lines that it has taken**, in every state of every
run of the semaphore version, and at the end the reports are those on the file. -/
theorem reportsMatch_sem (cfg : Config) (text : List UInt8) (sched : List (Thread cfg)) :
    ReportsMatch text ((booked cfg).run sched (bookStart cfg text)) :=
  reportsMatch_of_reach ((booked cfg).reach_run sched _)

end Sem
end ProdCons
end OpSys
