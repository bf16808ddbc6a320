import OpSys.Batch.Live.Determinate
import OpSys.Lib.Progress

/-!
# A line with pipes comes to its end

If every program halts on every finite input, and nothing outside the line keeps one waiting
for ever, the line does.  The programs need not be bounded by themselves: `cat` makes as many
calls as there are bytes to read.  But what a program reads is what the one before it has
written, so the number of calls of the first bounds the input of the second, and so on along
the line.

## Main definitions

* `Possible` — an answer that a call may get.
* `HaltingLine` — a line whose programs halt on every finite input.
* `bound` — how many calls the program number `i` makes at most.
* `rank` — the steps that are left.
* `Completes` — no run goes on for ever, and every fair one finishes the line.

## Main results

* `length_log_le` — the bound on the calls.
* `rank_lt` — every step lowers the rank.
* `HaltingLine.completes` — the line comes to its end.

## References

`lab4_signals_and_pipes/batch_job_interpreter_pipes/cmd_interpreter_extd.c`.
-/

namespace OpSys
namespace Batch
namespace LiveLine

variable {α ω : Type*} (L : LiveLine α ω)

instance (m : ℕ) : Fintype (Who m) :=
  Fintype.ofEquiv (Option (Fin m))
    { toFun := fun x => match x with
        | none => .main
        | some i => .child i
      invFun := fun t => match t with
        | .main => none
        | .child i => some i
      left_inv := by rintro (_ | _) <;> rfl
      right_inv := by rintro (_ | _) <;> rfl }

/-- The answer `a` to the call after `p` may occur. -/
inductive Possible (i : ℕ) (p : List Answer) : Answer → Prop
  | plain {a : Answer} (h : L.plainAnswer i (L.tableOf i p) p = some a) : Possible i p a
  | put {fd k : ℕ} {b : UInt8} (hcall : L.call i p = .write fd b)
      (hfd : L.tableOf i p fd = some (.writeEnd k)) : Possible i p .done
  | get {fd n k : ℕ} {bs : List UInt8} (hcall : L.call i p = .read fd n)
      (hfd : L.tableOf i p fd = some (.readEnd k)) (hlen : bs.length ≤ n + 1) :
      Possible i p (.bytes bs)

/-- All answers of the log may occur. -/
def Sensible (i : ℕ) (log : List Answer) : Prop := ∀ a p, (a :: p) <:+ log → L.Possible i p a

end LiveLine

/-- A line whose programs halt: the program number `i` makes at most `steps i n` calls while it
reads `n` bytes from its pipe, and no file that was open before keeps it waiting for ever. -/
structure HaltingLine (α ω : Type*) extends LiveLine α ω where
  answered : ∀ i log, outside i log ≠ none
  steps : ℕ → ℕ → ℕ
  steps_mono : ∀ i a b, a ≤ b → steps i a ≤ steps i b
  halts : ∀ i log, toLiveLine.Sensible i log →
    log.length ≤ steps i (toLiveLine.receivedOf i log).length

/-! ### `echo h | cat` halts -/

namespace LiveLine

/-- Neither `echo` nor `cat` changes its descriptors. -/
theorem echoCat_tableOf (i : ℕ) (log : List Answer) :
    echoCat.tableOf i log = echoCat.tables echoCat.before i := by
  induction log with
  | nil => rfl
  | cons a log ih =>
    have hsame : ∀ table : Table Unit, tableBy (echoCat.call i log) a table = table := by
      intro table
      simp only [echoCat]
      split <;> rfl
    rw [tableOf_cons, ih, hsame]

/-- How many calls `cat` has made when it has read `n` bytes, by its last answer. -/
def CatCalls (n : ℕ) : List Answer → Prop
  | [] => True
  | .done :: log => log.length + 1 ≤ 2 * n
  | .bytes (_ :: _) :: log => log.length + 2 ≤ 2 * n
  | .bytes [] :: log => log.length ≤ 2 * n
  | .failed :: log => log.length ≤ 2 * n

theorem CatCalls.length_le {n : ℕ} {log : List Answer} (h : CatCalls n log) :
    log.length ≤ 2 * n + 1 := by
  unfold CatCalls at h
  split at h <;> simp only [List.length_cons, List.length_nil] <;> omega

/-- The programs behind the first one are copies of `cat`. -/
theorem echoCat_catCalls (i : ℕ) (log : List Answer) (h : echoCat.Sensible (i + 1) log) :
    CatCalls (echoCat.receivedOf (i + 1) log).length log := by
  have hstdin : ∀ p, echoCat.tableOf (i + 1) p stdinFileno = some (.readEnd i) := by
    intro p
    rw [echoCat_tableOf, echoCat.tables_stdin, if_pos (Nat.succ_pos i), Nat.add_sub_cancel]
  have hstdout : ∀ p, echoCat.tableOf (i + 1) p stdoutFileno = some (.old ()) := by
    intro p
    have hlast : ¬i + 1 + 1 < echoCat.totalProgs := by
      change ¬i + 1 + 1 < 2
      omega
    rw [echoCat_tableOf, echoCat.tables_stdout, if_neg hlast]
    rfl
  induction log with
  | nil => trivial
  | cons a p ih =>
    have hcalls := ih fun b q hq => h b q (hq.trans (List.suffix_cons a p))
    -- a byte more, or the end
    have hread : echoCat.call (i + 1) p = .read stdinFileno 0 →
        p.length ≤ 2 * (echoCat.receivedOf (i + 1) p).length →
        CatCalls (echoCat.receivedOf (i + 1) (a :: p)).length (a :: p) := by
      intro hcall hlen
      rw [receivedOf_cons, hcall, List.length_append]
      cases h a p List.suffix_rfl with
      | plain hplain => simp [plainAnswer, hcall, hstdin] at hplain
      | put hput hfd => exact absurd (hcall.symm.trans hput) Call.noConfusion
      | @get fd n k bs hget hfd hle =>
        cases bs with
        | nil => simpa [CatCalls, receivedBy, hstdin] using hlen
        | cons b bs =>
          simp only [CatCalls, receivedBy, hstdin, List.length_cons]
          omega
    have hexit : ∀ status, echoCat.call (i + 1) p ≠ .exit status := by
      intro status hcall
      cases h a p List.suffix_rfl with
      | plain hplain => simp [plainAnswer, hcall] at hplain
      | put hput hfd => exact absurd (hcall.symm.trans hput) Call.noConfusion
      | get hget hfd hle => exact absurd (hcall.symm.trans hget) Call.noConfusion
    cases p with
    | nil => exact hread rfl (Nat.zero_le _)
    | cons b q =>
      cases b with
      | done => exact hread rfl hcalls
      | failed => exact absurd rfl (hexit 1)
      | bytes bs =>
        cases bs with
        | nil => exact absurd rfl (hexit 0)
        | cons b bs =>
          have hcall : echoCat.call (i + 1) (.bytes (b :: bs) :: q) = .write stdoutFileno b := rfl
          rw [receivedOf_cons, hcall, List.length_append]
          cases h a _ List.suffix_rfl with
          | plain hplain =>
            simp only [plainAnswer, hcall, hstdout] at hplain
            obtain rfl := Option.some.inj hplain
            exact hcalls.trans (Nat.mul_le_mul_left 2 (Nat.le_add_right _ _))
          | put hput hfd =>
            obtain ⟨rfl, -⟩ := Call.write.inj (hcall.symm.trans hput)
            exact absurd ((hstdout _).symm.trans hfd) (by simp)
          | get hget hfd hle => exact absurd (hcall.symm.trans hget) Call.noConfusion

/-- `echo` makes one call before it exits. -/
theorem echoCat_echo (log : List Answer) (h : echoCat.Sensible 0 log) : log.length ≤ 1 := by
  match log with
  | [] => exact Nat.zero_le _
  | [_] => exact le_rfl
  | a :: b :: p =>
    have hcall : echoCat.call 0 (b :: p) = .exit 0 := rfl
    cases h a (b :: p) List.suffix_rfl with
    | plain hplain => simp [plainAnswer, hcall] at hplain
    | put hput hfd => exact absurd (hcall.symm.trans hput) Call.noConfusion
    | get hget hfd hle => exact absurd (hcall.symm.trans hget) Call.noConfusion

end LiveLine

/-- The line `echo h | cat`. -/
def HaltingLine.echoCat : HaltingLine String Unit where
  toLiveLine := LiveLine.echoCat
  answered _ _ := Option.some_ne_none _
  steps
    | 0, _ => 1
    | _ + 1, n => 2 * n + 1
  steps_mono
    | 0, _, _, _ => le_rfl
    | _ + 1, _, _, h => by simp only; omega
  halts
    | 0, log, h => LiveLine.echoCat_echo log h
    | i + 1, log, h => (LiveLine.echoCat_catCalls i log h).length_le

namespace HaltingLine

open LiveLine

variable {α ω : Type*} (L : HaltingLine α ω)
  {s s' : Global (Kernel L.totalProgs ω) (Local L.totalProgs)}

/-- How many calls the program number `i` makes at most. -/
def bound : ℕ → ℕ
  | 0 => L.steps 0 0
  | i + 1 => L.steps (i + 1) (bound i)

/-- The steps that the parent has left. -/
def mainRank : MainPc → ℕ
  | .fork currp => L.totalProgs - currp + 3 * L.totalProgs + 3
  | .close i => 2 * L.totalProgs - i + L.totalProgs + 2
  | .wait i => L.totalProgs - i + 1
  | .nextLine => 0

/-- The steps that the child number `i` has left, at most. -/
def childRank (i : ℕ) : ChildPc → ℕ
  | .dupOut => 2 * L.totalProgs + L.bound i + 4
  | .dupIn => 2 * L.totalProgs + L.bound i + 3
  | .close j => 2 * L.totalProgs - j + L.bound i + 2
  | .run log => L.bound i + 1 - log.length
  | _ => 0

/-- The steps that a process has left, at most. -/
def procRank : (t : Who L.totalProgs) → Local L.totalProgs t → ℕ
  | .main, pc => L.mainRank pc
  | .child i, pc => L.childRank i pc

/-- The steps that are left, at most. -/
def rank (s : Global (Kernel L.totalProgs ω) (Local L.totalProgs)) : ℕ :=
  Program.total L.procRank s.loc

/-- No run goes on for ever, and every fair one finishes the line. -/
structure Completes : Prop where
  ends : ¬∃ r : ℕ → Global (Kernel L.totalProgs ω) (Local L.totalProgs),
    r 0 = L.start ∧ ∀ n, L.program.Step (r n) (r (n + 1))
  finishes : ∀ sched : ℕ → Who L.totalProgs, Program.Fair sched →
    ∃ n, L.Finished (L.program.trace sched L.start n)

/-! ### The bound on the calls -/

theorem length_sentOf_le (L : LiveLine α ω) (i : ℕ) (log : List Answer) :
    (L.sentOf i log).length ≤ log.length := by
  induction log with
  | nil => exact le_rfl
  | cons a log ih =>
    have hone : (sentBy (L.call i log) a (L.tableOf i log)).length ≤ 1 := by
      unfold sentBy
      split
      · split <;> simp
      · exact Nat.zero_le _
    rw [sentOf_cons, List.length_append, List.length_cons]
    omega

/-- The first program reads from no pipe. -/
@[simp] theorem receivedOf_zero (L : LiveLine α ω) (log : List Answer) :
    L.receivedOf 0 log = [] := by
  induction log with
  | nil => rfl
  | cons a log ih =>
    rw [receivedOf_cons, ih, List.nil_append]
    unfold receivedBy
    split
    · split
      · rename_i k hfd
        have hk := ((L.ownEnds_tableOf 0 log).read _ k hfd).2
        exact absurd hk.symm (Nat.succ_ne_zero k)
      · rfl
    · rfl

theorem possible_of_fits {L : LiveLine α ω}
    {s : Global (Kernel L.totalProgs ω) (Local L.totalProgs)} {i : Fin L.totalProgs}
    {p : List Answer} {a : Answer} (h : L.Fits s i p a) : L.Possible i p a := by
  cases h with
  | plain h => exact .plain h
  | put hcall hfd => exact .put hcall hfd
  | eof hcall hfd hall hshut => exact .get hcall hfd (Nat.zero_le _)
  | take hcall hfd hne hlen hpart => exact .get hcall hfd hlen

/-- No program makes more calls than its bound. -/
theorem length_log_le (h : L.program.Reach L.start s) (i : Fin L.totalProgs) :
    (L.logAt s i).length ≤ L.bound i := by
  have hinv := liveInv_of_reach h
  have hsensible : ∀ i : Fin L.totalProgs, L.Sensible i (L.logAt s i) := fun i a p hp =>
    possible_of_fits (told_of_reach h i a p hp)
  have key : ∀ n, ∀ i : Fin L.totalProgs, i.val = n → (L.logAt s i).length ≤ L.bound n := by
    intro n
    induction n with
    | zero =>
      intro i hi
      have hhalts := L.halts i _ (hsensible i)
      rw [hi, receivedOf_zero] at hhalts
      exact hhalts
    | succ n ih =>
      intro i hi
      have hj : n < L.totalProgs := by omega
      have hflow : L.sentOf n (L.logAt s ⟨n, hj⟩) =
          L.receivedOf (n + 1) (L.logAt s i) ++ s.mem.pipe n := (hinv.between ⟨n, hj⟩ i hi).flow
      -- what it has read was written by the program before, one byte a call
      have hread : (L.receivedOf (n + 1) (L.logAt s i)).length ≤ L.bound n := by
        calc (L.receivedOf (n + 1) (L.logAt s i)).length
            ≤ (L.sentOf n (L.logAt s ⟨n, hj⟩)).length := by
              rw [hflow, List.length_append]
              exact Nat.le_add_right _ _
          _ ≤ (L.logAt s ⟨n, hj⟩).length := length_sentOf_le _ _ _
          _ ≤ L.bound n := ih ⟨n, hj⟩ rfl
      have hhalts := L.halts i _ (hsensible i)
      rw [hi] at hhalts
      exact hhalts.trans (L.steps_mono _ _ _ hread)
  exact key i i rfl

/-! ### Every step lowers the rank -/

theorem mainRank_lt {mem' : Kernel L.totalProgs ω} {pc' : MainPc}
    (hstep : L.mainStep s.mem (s.loc .main) = some (mem', pc')) :
    L.mainRank pc' < L.mainRank (s.loc .main) := by
  cases hpc : s.loc .main with
  | fork currp =>
    rw [hpc] at hstep
    simp only [mainStep] at hstep
    split at hstep
    · obtain ⟨-, rfl⟩ := Prod.mk.inj (Option.some.inj hstep)
      simp only [mainRank]
      omega
    · obtain ⟨-, rfl⟩ := Prod.mk.inj (Option.some.inj hstep)
      simp only [mainRank]
      omega
  | close i =>
    rw [hpc] at hstep
    simp only [mainStep] at hstep
    split at hstep
    · obtain ⟨-, rfl⟩ := Prod.mk.inj (Option.some.inj hstep)
      simp only [mainRank]
      omega
    · obtain ⟨-, rfl⟩ := Prod.mk.inj (Option.some.inj hstep)
      simp only [mainRank]
      omega
  | wait i =>
    rw [hpc] at hstep
    simp only [mainStep] at hstep
    split at hstep
    · have hnext : pc' = .wait (i + 1) := by
        split at hstep
        · exact (Prod.mk.inj (Option.some.inj hstep)).2.symm
        · split at hstep
          · exact (Prod.mk.inj (Option.some.inj hstep)).2.symm
          · exact absurd hstep (Option.some_ne_none _).symm
      rw [hnext]
      simp only [mainRank]
      omega
    · obtain ⟨-, rfl⟩ := Prod.mk.inj (Option.some.inj hstep)
      exact Nat.succ_pos _
  | nextLine =>
    rw [hpc] at hstep
    exact absurd hstep (Option.some_ne_none _).symm

theorem childRank_lt (hle : ∀ i : Fin L.totalProgs, (L.logAt s i).length ≤ L.bound i)
    {t : Fin L.totalProgs} {mem' : Kernel L.totalProgs ω} {pc' : ChildPc}
    (hstep : L.childStep t s.mem (s.loc (.child t)) = some (mem', pc')) :
    L.childRank t pc' < L.childRank t (s.loc (.child t)) := by
  have hlog := hle t
  rw [logAt] at hlog
  cases hpc : s.loc (.child t) with
  | dupOut =>
    rw [hpc] at hstep
    simp only [childStep] at hstep
    split at hstep
    · split at hstep
      · split at hstep <;> obtain ⟨-, rfl⟩ := Prod.mk.inj (Option.some.inj hstep) <;>
          simp [childRank]
      · obtain ⟨-, rfl⟩ := Prod.mk.inj (Option.some.inj hstep)
        simp [childRank]
    · exact absurd hstep (Option.some_ne_none _).symm
  | dupIn =>
    rw [hpc] at hstep
    simp only [childStep] at hstep
    split at hstep
    · split at hstep <;> obtain ⟨-, rfl⟩ := Prod.mk.inj (Option.some.inj hstep) <;>
        simp [childRank]
    · obtain ⟨-, rfl⟩ := Prod.mk.inj (Option.some.inj hstep)
      simp [childRank]
  | close j =>
    rw [hpc] at hstep
    simp only [childStep] at hstep
    split at hstep
    · obtain ⟨-, rfl⟩ := Prod.mk.inj (Option.some.inj hstep)
      simp only [childRank]
      omega
    · obtain ⟨-, rfl⟩ := Prod.mk.inj (Option.some.inj hstep)
      simp only [childRank, List.length_nil]
      omega
  | run log =>
    rw [hpc] at hstep hlog
    have hlen : log.length ≤ L.bound t := hlog
    -- one answer more, or none any more
    have hnext : (∃ a, pc' = .run (a :: log)) ∨ hasEnded pc' = true := by
      cases callStep_effect hstep with
      | take | eof | put | plain => exact Or.inl ⟨_, rfl⟩
      | kill | exit => exact Or.inr rfl
    rcases hnext with ⟨a, rfl⟩ | hended
    · simp only [childRank, List.length_cons]
      omega
    · have hzero : L.childRank t pc' = 0 := by
        cases pc' with
        | dupOut | dupIn | close j | run log => exact absurd hended Bool.false_ne_true
        | exited log status | killed log => rfl
      rw [hzero]
      simp only [childRank]
      omega
  | exited log status | killed log =>
    rw [hpc] at hstep
    exact absurd hstep (Option.some_ne_none _).symm

theorem rank_lt (h : L.program.Reach L.start s) (hstep : L.program.Step s s') :
    L.rank s' < L.rank s := by
  obtain ⟨t, hnext⟩ := hstep
  obtain ⟨mem', pc', hstep, rfl⟩ := L.program.next_eq_some hnext
  have hoff : ∀ u, u ≠ t → Function.update s.loc t pc' u = s.loc u :=
    fun u hu => Function.update_of_ne hu _ _
  have htotal := Program.total_of_eq_off L.procRank hoff
  rw [Function.update_self] at htotal
  have hlt : L.procRank t pc' < L.procRank t (s.loc t) := by
    cases t with
    | main => exact L.mainRank_lt hstep
    | child i => exact L.childRank_lt (L.length_log_le h) hstep
  change Program.total L.procRank (Function.update s.loc t pc') < Program.total L.procRank s.loc
  omega

/-- **A line of programs that halt comes to its end**, if what they ask of files that were open
before is answered: no run goes on for ever, and under every fair schedule all programs end and
the parent goes on to the next line. -/
theorem completes (L : HaltingLine α ω) : L.Completes where
  ends := by
    rintro ⟨r, hstart, hsteps⟩
    have hreach : ∀ n, L.program.Reach L.start (r n) := by
      intro n
      induction n with
      | zero =>
        rw [hstart]
        exact .refl _
      | succ n ih => exact Relation.ReflTransGen.tail ih (hsteps n)
    have hmoves : ∀ n, L.program.Move (r n) (r (n + 1)) := by
      intro n
      refine ⟨hsteps n, fun heq => ?_⟩
      have hlt := L.rank_lt (hreach n) (hsteps n)
      rw [heq] at hlt
      exact lt_irrefl _ hlt
    exact Program.not_infinite_moves L.rank (fun s s' hs hmove => L.rank_lt hs hmove.1)
      ⟨r, hreach 0, hmoves⟩
  finishes sched hfair := by
    have hkeep : ∀ s s', L.program.Reach L.start s → L.program.Step s s' →
        L.program.Reach L.start s' ∧ L.rank s' < L.rank s := by
      intro s s' hs hstep
      exact ⟨Relation.ReflTransGen.tail hs hstep, L.rank_lt hs hstep⟩
    have hcan : ∀ s, L.program.Reach L.start s → ¬L.Finished s →
        ∃ t, L.program.next t s ≠ none := by
      intro s hs hnot
      by_contra hnone
      have hstuck : ∀ t, L.program.next t s = none := by
        intro t
        by_contra hne
        exact hnone ⟨t, hne⟩
      rcases (liveInv_of_reach hs).finished_of_stuck hstuck with hfinished | ⟨i, hwaits⟩
      · exact hnot hfinished
      · obtain ⟨log, fd, file, -, -, -, houtside⟩ := hwaits
        exact L.answered i log houtside
    exact hfair.exists_trace L.rank hkeep hcan (.refl _)

theorem completes_echoCat : echoCat.Completes := completes echoCat

end HaltingLine

end Batch
end OpSys
