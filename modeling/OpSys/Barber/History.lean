import OpSys.Barber.Invariant
import Mathlib.Data.List.Count

/-!
# The log of the barbershop

What the log of a run has to do with the state the run is in: the ids invited so
far and those in the queue are the ids enqueued, in order; every invitation has
led to one shave and every shave to one client getting up, but for the client the
barber is busy with; and every client has completed as many shaves as its loop
counter says.

## Main definitions

* `LogInv` — the invariant of the shared record and the log.
* `Tally` — what the log has to do with one client.

## Main results

* `history_of_run` — both hold after every run.
-/

namespace OpSys
namespace Barber

open Records

/-! ### The invariant of the log -/

/-- The invariant of the shared record and the log. -/
structure LogInv (b : Barbershop) (log : Log) : Prop where
  /-- First come, first served. -/
  order : log.invited ++ queue b = log.enqueued
  /-- The client that woke the barber was enqueued first after the invitations given. -/
  wake : ∀ p n, (p, n) ∈ log.wakes → log.enqueued[n]? = some p
  /-- An invited client is shaved once. -/
  invited : ∀ p, log.invited.count p = log.shaved.count p +
    if (b.status = .inviting ∨ b.status = .startShaving) ∧ b.currClient = p then 1 else 0
  /-- A shaved client gets up once. -/
  shaved : ∀ p, log.shaved.count p = log.gotUp.count p +
    if b.status = .endShaving ∧ b.currClient = p then 1 else 0

/-- What the log has to do with a client that has the process id `me`. -/
def Tally (me : Pid) (shaves : ℤ) (log : Log) (c : Client) : Prop :=
  match c.pc with
  | .outside => me ∉ log.enqueued ∧ log.gotUp.count me = 0
  | .arriving => (c.firstShave = true → me ∉ log.enqueued ∧ log.gotUp.count me = 0) ∧
      (log.gotUp.count me : ℤ) + 1 = c.currShave
  | .waiting => (log.gotUp.count me : ℤ) + 1 = c.currShave
  | .inChair => (log.gotUp.count me : ℤ) + 1 = c.currShave
  | .left .endedShave => c.clientStatus ≠ .invited ∧ (log.gotUp.count me : ℤ) = max shaves 0
  | .left .noFreeChair =>
      (c.clientStatus = .waiting ∧ log.gotUp.count me = 0) ∨
        (c.clientStatus = .shaven ∧ (log.gotUp.count me : ℤ) = c.currShave)

/-- Nothing is logged about anybody but `mine`. -/
def KeepsTally (mine : Option Pid) (log log' : Log) : Prop :=
  ∀ p, mine ≠ some p →
    log'.gotUp.count p = log.gotUp.count p ∧ (p ∈ log'.enqueued ↔ p ∈ log.enqueued)

theorem KeepsTally.refl (mine : Option Pid) (log : Log) : KeepsTally mine log log :=
  fun _ _ => ⟨rfl, Iff.rfl⟩

theorem Tally.frame {mine : Option Pid} {log log' : Log} (h : KeepsTally mine log log')
    {me : Pid} (hme : mine ≠ some me) {shaves : ℤ} {c : Client} (ht : Tally me shaves log c) :
    Tally me shaves log' c := by
  obtain ⟨hcount, hmem⟩ := h me hme
  unfold Tally at ht ⊢
  rw [hcount]
  simp only [hmem]
  exact ht

section Steps

variable {ι : Type*} {S : Setup ι} {b : Barbershop} {log : Log}

/-- The barber's section keeps the invariant of the log, and logs nothing that a
client counts. -/
theorem barber_logs (h : ShopInv S b) (hl : LogInv b log) :
    LogInv (barberSection b) (barberLog b log) ∧ KeepsTally none log (barberLog b log) := by
  have hcases := barberDoes h
  generalize hb' : barberSection b = b' at hcases ⊢
  cases hcases with
  | invite hst hne =>
    -- the two statuses in which the barber calls `dequeue`
    have hcall : dequeueCall b = some { b with status := .inviting } := by
      rcases hst with hst | hst
      · simp [dequeueCall, hst]
      · have hq : qEmpty b = false :=
          (qEmpty_eq_false_iff b).mpr fun h0 => hne (h.queue_eq_nil_iff.mpr h0)
        simp [dequeueCall, hst, hq]
    obtain ⟨p, rest, hq, hq', hcurr, hst', -⟩ := h.toSound.inviteClient hne
    have hlog : barberLog b log = { log with invited := log.invited ++ [p] } := by
      rw [← hcurr, barberLog, hcall]
      rfl
    rw [hlog]
    refine ⟨⟨?_, hl.wake, fun p' => ?_, fun p' => ?_⟩, fun _ _ => ⟨rfl, Iff.rfl⟩⟩
    · show (log.invited ++ [p]) ++ queue (inviteClient b) = log.enqueued
      rw [hq', List.append_assoc, List.singleton_append, ← hq, hl.order]
    · -- the one just invited is called and not yet shaved
      have hold := hl.invited p'
      have hno : ¬ (b.status = .inviting ∨ b.status = .startShaving) := by
        rcases hst with hst | hst <;> simp [hst]
      simp only [hno, false_and, if_false, Nat.add_zero] at hold
      simp [hst', hcurr, hold, List.count_singleton]
    · have hold := hl.shaved p'
      have hno : b.status ≠ .endShaving := by rcases hst with hst | hst <;> simp [hst]
      simpa [hno, hst'] using hold
  | shave hst =>
    have hlog : barberLog b log = { log with shaved := log.shaved ++ [b.currClient] } := by
      simp [barberLog, dequeueCall, hst]
    rw [hlog]
    refine ⟨⟨hl.order, hl.wake, fun p => ?_, fun p => ?_⟩, fun _ _ => ⟨rfl, Iff.rfl⟩⟩
    · have hold := hl.invited p
      simp only [hst, reduceCtorEq, or_true, true_and] at hold
      -- the shave is counted when the barber ends it
      simp [shave, hold, List.count_singleton]
    · have hold := hl.shaved p
      simp only [hst, reduceCtorEq, false_and, if_false, Nat.add_zero] at hold
      simp [shave, hold, List.count_singleton]
  | sleep hst hnil =>
    have hq : qEmpty b = true := (qEmpty_iff b).mpr (h.queue_eq_nil_iff.mp hnil)
    have hlog : barberLog b log = log := by simp [barberLog, dequeueCall, hst, hq]
    rw [hlog]
    refine ⟨⟨hl.order, hl.wake, fun p => ?_, fun p => ?_⟩, .refl _ _⟩
    · simpa [hst, fallAsleep] using hl.invited p
    · simpa [hst, fallAsleep] using hl.shaved p
  | idle hst =>
    have hlog : barberLog b log = log := by
      rcases hst with hst | hst | hst <;> simp [barberLog, dequeueCall, hst]
    rw [hlog]
    exact ⟨hl, .refl _ _⟩

/-- A status change that neither starts nor ends an invitation or a shave. -/
theorem LogInv.withStatus (hl : LogInv b log) {st : BarberStatus}
    (hinv : st = .inviting ∨ st = .startShaving ↔ b.status = .inviting ∨ b.status = .startShaving)
    (hend : st = .endShaving ↔ b.status = .endShaving) : LogInv { b with status := st } log := by
  refine ⟨hl.order, hl.wake, fun p => ?_, fun p => ?_⟩
  · simpa only [hinv] using hl.invited p
  · simpa only [hend] using hl.shaved p

/-- The client in the chair gets up. -/
theorem LogInv.getUp (hl : LogInv b log) (hst : b.status = .endShaving) {p : Pid}
    (hp : p = b.currClient) :
    LogInv { b with status := .free } { log with gotUp := log.gotUp ++ [p] } := by
  subst hp
  refine ⟨hl.order, hl.wake, fun p => ?_, fun p => ?_⟩
  · simpa [hst] using hl.invited p
  · simpa [hst, List.count_singleton] using hl.shaved p

/-- A client joins a queue that is not full. -/
theorem LogInv.enqueue (hl : LogInv b log) (h : Sound S b) (hfull : qFull b = false) (p : Pid) :
    LogInv (enqueue p b) { log with enqueued := log.enqueued ++ [p] } := by
  refine ⟨?_, fun p' n hn => ?_, fun p' => ?_, fun p' => ?_⟩
  · show log.invited ++ queue (Barber.enqueue p b) = log.enqueued ++ [p]
    rw [h.queue_enqueue hfull, ← List.append_assoc, hl.order]
  · have hold := hl.wake p' n hn
    rw [← hold]
    exact List.getElem?_append_left (List.getElem?_eq_some_iff.mp hold).1
  · simpa using hl.invited p'
  · simpa using hl.shaved p'

/-- A client wakes the barber: the queue was empty, so it is the next to be invited. -/
theorem LogInv.wakeUp (hl : LogInv b log) (h : Sound S b) (hfull : qFull b = false)
    (hst : b.status = .sleeping) (hnil : queue b = []) (p : Pid) :
    LogInv (Barber.enqueue p { b with status := .wokenUp })
      { log with
        enqueued := log.enqueued ++ [p]
        wakes := log.wakes ++ [(p, log.invited.length)] } := by
  have hall : log.invited = log.enqueued := by simpa [hnil] using hl.order
  have hwoken : LogInv { b with status := .wokenUp } log :=
    hl.withStatus (by simp [hst]) (by simp [hst])
  have hnew := hwoken.enqueue (h.withStatus .wokenUp) hfull p
  refine ⟨hnew.order, fun p' n hn => ?_, hnew.invited, hnew.shaved⟩
  rw [List.mem_append, List.mem_singleton] at hn
  rcases hn with hn | hn
  · exact hnew.wake p' n hn
  · obtain ⟨rfl, rfl⟩ := Prod.mk.inj hn
    simp [hall]

/-- Only the client `p` is logged. -/
theorem keepsTally_of_append {p : Pid} {log' : Log}
    (henq : log'.enqueued = log.enqueued ∨ log'.enqueued = log.enqueued ++ [p])
    (hup : log'.gotUp = log.gotUp ∨ log'.gotUp = log.gotUp ++ [p]) :
    KeepsTally (some p) log log' := by
  intro p' hp'
  have hne : p ≠ p' := fun h => hp' (by rw [h])
  constructor
  · rcases hup with hup | hup <;> simp [hup, hne]
  · rcases henq with henq | henq <;> simp [henq, hne.symm]

/-- A client's step keeps the invariant of the log and its own tally, and logs
nothing about anybody else. -/
theorem client_logs (h : ShopInv S b) (hl : LogInv b log) {i : ι} {c : Client}
    (hk : Knows (S.pid i) (S.shaves i) b c) (ht : Tally (S.pid i) (S.shaves i) log c)
    {b' : Barbershop} {c' : Client}
    (hstep : clientStep (S.pid i) (S.shaves i) b c = some (b', c')) :
    LogInv b' (clientLog (S.pid i) (S.shaves i) b c log) ∧
      Tally (S.pid i) (S.shaves i) (clientLog (S.pid i) (S.shaves i) b c log) c' ∧
      KeepsTally (some (S.pid i)) log (clientLog (S.pid i) (S.shaves i) b c log) := by
  have hdoes := clientDoes h (S.shaves_le i) hk hstep
  unfold Tally at ht ⊢
  cases hdoes with
  | enter hpc hle =>
    have hlog : clientLog (S.pid i) (S.shaves i) b c log = log := by
      simp [clientLog, enqueueCall, hpc]
    rw [hlog]
    simp only [hpc] at ht ⊢
    exact ⟨hl, ⟨fun _ => ht, by simp [ht.2]⟩, .refl _ _⟩
  | decline hpc hlt =>
    have hlog : clientLog (S.pid i) (S.shaves i) b c log = log := by
      simp [clientLog, enqueueCall, hpc]
    rw [hlog]
    simp only [hpc] at ht ⊢
    exact ⟨hl, ⟨by simp, by omega⟩, .refl _ _⟩
  | turnAway hpc hfirst hcs hfull =>
    have hlog : clientLog (S.pid i) (S.shaves i) b c log = log := by
      simp [clientLog, enqueueCall, hpc, hcs, hfull]
    rw [hlog]
    simp only [hpc] at ht ⊢
    exact ⟨hl, Or.inl ⟨hcs, (ht.1 hfirst).2⟩, .refl _ _⟩
  | wake hpc hfirst hcs hfull hst =>
    have hlog : clientLog (S.pid i) (S.shaves i) b c log = { log with
        enqueued := log.enqueued ++ [S.pid i]
        wakes := log.wakes ++ [(S.pid i, log.invited.length)] } := by
      simp [clientLog, enqueueCall, hpc, hcs, hfull, hst]
    rw [hlog]
    simp only [hpc] at ht ⊢
    -- the client that wakes the barber is the only one in line
    exact ⟨hl.wakeUp h.toSound hfull hst (h.sleeping hst) _, ht.2,
      keepsTally_of_append (Or.inr rfl) (Or.inl rfl)⟩
  | join hpc hfirst hcs hfull hst =>
    have hlog : clientLog (S.pid i) (S.shaves i) b c log
        = { log with enqueued := log.enqueued ++ [S.pid i] } := by
      simp [clientLog, enqueueCall, hpc, hfirst, hfull, hst]
    rw [hlog]
    simp only [hpc] at ht ⊢
    exact ⟨hl.enqueue h.toSound hfull _, ht.2, keepsTally_of_append (Or.inr rfl) (Or.inl rfl)⟩
  | goOn hpc hfirst hcs hst =>
    have hlog : clientLog (S.pid i) (S.shaves i) b c log = log := by
      simp [clientLog, enqueueCall, hpc, hcs, hfirst, hst]
    rw [hlog]
    simp only [hpc] at ht ⊢
    exact ⟨hl, ht.2, .refl _ _⟩
  | poll hpc =>
    have hlog : clientLog (S.pid i) (S.shaves i) b c log = log := by
      rcases hpc with ⟨hpc, -⟩ | ⟨hpc, hno⟩
      · simp [clientLog, enqueueCall, hpc]
      · simp [clientLog, enqueueCall, hpc, hno]
    rw [hlog]
    exact ⟨hl, ht, .refl _ _⟩
  | sit hpc hst hme =>
    have hlog : clientLog (S.pid i) (S.shaves i) b c log = log := by
      simp [clientLog, enqueueCall, hpc]
    rw [hlog]
    simp only [hpc] at ht ⊢
    exact ⟨hl.withStatus (by simp [hst]) (by simp [hst]), ht, .refl _ _⟩
  | rewake hpc hfirst hcs hfull hst hastray =>
    have hlog : clientLog (S.pid i) (S.shaves i) b c log = { log with
        enqueued := log.enqueued ++ [S.pid i]
        wakes := log.wakes ++ [(S.pid i, log.invited.length)] } := by
      simp [clientLog, enqueueCall, hpc, hcs, hst]
    rw [hlog]
    simp only [hpc] at ht ⊢
    exact ⟨hl.wakeUp h.toSound hfull hst (h.sleeping hst) _, ht.2,
      keepsTally_of_append (Or.inr rfl) (Or.inl rfl)⟩
  | rejoin hpc hst hme hlt hmore hfull =>
    have hlog : clientLog (S.pid i) (S.shaves i) b c log = { log with
        enqueued := log.enqueued ++ [S.pid i]
        gotUp := log.gotUp ++ [S.pid i] } := by
      simp [clientLog, enqueueCall, hpc, hst, ← hme, hlt, hfull]
    rw [hlog]
    simp only [hpc] at ht ⊢
    have hfree : Sound S { b with status := .free } := h.toSound.withStatus _
    exact ⟨(hl.getUp hst hme).enqueue hfree hfull (S.pid i), ⟨by simp, by simp [ht]⟩,
      keepsTally_of_append (Or.inr rfl) (Or.inr rfl)⟩
  | turnOut hpc hst hme hlt hfull =>
    have hlog : clientLog (S.pid i) (S.shaves i) b c log
        = { log with gotUp := log.gotUp ++ [S.pid i] } := by
      simp [clientLog, enqueueCall, hpc, hst, ← hme, hfull]
    rw [hlog]
    simp only [hpc] at ht ⊢
    exact ⟨hl.getUp hst hme, Or.inr ⟨trivial, by simp [ht]⟩,
      keepsTally_of_append (Or.inl rfl) (Or.inr rfl)⟩
  | finish hpc hst hme heq hlast =>
    have hlog : clientLog (S.pid i) (S.shaves i) b c log
        = { log with gotUp := log.gotUp ++ [S.pid i] } := by
      simp [clientLog, enqueueCall, hpc, hst, ← hme, heq]
    rw [hlog]
    simp only [hpc] at ht ⊢
    refine ⟨hl.getUp hst hme, ⟨by simp, ?_⟩,
      keepsTally_of_append (Or.inl rfl) (Or.inr rfl)⟩
    -- this was the last shave of the client
    simp only [List.count_append, List.count_singleton_self]
    omega
  | restart hpc hst hme heq hmax =>
    have hlog : clientLog (S.pid i) (S.shaves i) b c log
        = { log with gotUp := log.gotUp ++ [S.pid i] } := by
      simp [clientLog, enqueueCall, hpc, hst, ← hme, heq]
    rw [hlog]
    simp only [hpc] at ht ⊢
    exact ⟨hl.getUp hst hme, ⟨by simp, by simp [ht]⟩,
      keepsTally_of_append (Or.inl rfl) (Or.inr rfl)⟩

end Steps

/-! ### Every run -/

namespace Setup

variable {ι : Type*} [DecidableEq ι] (S : Setup ι)

/-- What the log has to do with a process. -/
def Account : (t : Who ι) → Log → Local ι t → Prop
  | .barber, _, _ => True
  | .client i, log, c => Tally (S.pid i) (S.shaves i) log c

/-- **The log after every run.**  The invariants hold, and every client knows its
place and has its tally. -/
theorem history_of_run (sched : List (Who ι)) :
    let s := S.logged.run sched S.logStart
    (ShopInv S s.mem.1 ∧ LogInv s.mem.1 s.mem.2) ∧
      ∀ i, Knows (S.pid i) (S.shaves i) s.mem.1 (s.loc (.client i)) ∧
        Tally (S.pid i) (S.shaves i) s.mem.2 (s.loc (.client i)) := by
  have hreach := S.logged.reach_run sched S.logStart
  have key := hreach.relyGuarantee (I := fun m => ShopInv S m.1 ∧ LogInv m.1 m.2)
    (A := fun t m l => S.Knowledge t m.1 l ∧ S.Account t m.2 l)
    (G := fun t m m' => KeepsPlaces (S.pid? t) m.1 m'.1 ∧ KeepsTally (S.pid? t) m.2 m'.2)
    ?_ ?_ ⟨S.shopInv_start, ?_⟩ ?_
  · exact ⟨key.1, fun i => key.2 (.client i)⟩
  · rintro t m l m' l' ⟨hI, hL⟩ ⟨hA, hT⟩ hstep
    obtain ⟨hstep, hlog⟩ := (S.program.withHistory_step_eq_some _).mp hstep
    cases t with
    | barber =>
      obtain ⟨hb, -⟩ := Prod.mk.inj (Option.some.inj hstep)
      obtain ⟨hI', hG⟩ := barber_keeps hI
      obtain ⟨hL', hG'⟩ := barber_logs hI hL
      rw [hlog, ← hb]
      exact ⟨⟨hI', hL'⟩, ⟨trivial, trivial⟩, hG, hG'⟩
    | client i =>
      obtain ⟨hI', hA', hG⟩ := client_keeps hI hA hstep
      obtain ⟨hL', hT', hG'⟩ := client_logs hI hL hA hT hstep
      rw [hlog]
      exact ⟨⟨hI', hL'⟩, ⟨hA', hT'⟩, hG, hG'⟩
  · rintro t u m m' l hne - - ⟨hG, hG'⟩ ⟨hA, hT⟩
    cases u with
    | barber => exact ⟨trivial, trivial⟩
    | client j =>
      have hother := S.pid?_ne hne
      exact ⟨hA.frame hG hother, hT.frame hG' hother⟩
  · exact ⟨rfl, by simp [logStart], by simp [logStart, start, initBarbershop],
      by simp [logStart, start, initBarbershop]⟩
  · intro t
    refine ⟨S.knowledge_start t, ?_⟩
    cases t with
    | barber => trivial
    | client i => exact ⟨by simp [logStart], rfl⟩

end Setup

end Barber
end OpSys
