import OpSys.Barber.History

/-!
# The service of the barbershop

Three properties of the runs of the barber with any clients: the queue and the chair
are in order, unless a counter wraps around; every shave is one that a client in the
chair was invited to; and clients are served in the order in which they joined the
queue.

## Main definitions

* `Orderly`, `ShavesMatch`, `Served` — the three properties of a state and its log.

## Main results

* `orderly_of_counts` — the first holds after every run of a shop in which no counter
  wraps around.
* `shavesMatch_run`, `served_run` — the others hold after every run.
-/

namespace OpSys
namespace Barber

variable {ι : Type*}

/-- A state of the system with its log. -/
abbrev Logged (ι : Type*) := Global (Barbershop × Log) (Local ι)

/-- The state of a client. -/
abbrev clientOf (s : Logged ι) (i : ι) : Client := s.loc (.client i)

/-- The client has been enqueued and has not left. -/
def InShop (S : Setup ι) (s : Logged ι) (i : ι) : Prop :=
  S.pid i ∈ s.mem.2.enqueued ∧ ∀ how, (clientOf s i).pc ≠ .left how

/-- The client has set `client_status` to `INVITED` and not yet to `SHAVEN`. -/
def Sits (c : Client) : Prop := c.pc ≠ .outside ∧ c.clientStatus = .invited

/-- The queue and the chair are in order. -/
structure Orderly (S : Setup ι) (s : Logged ι) : Prop where
  total_nonneg : 0 ≤ s.mem.1.totalClients
  total_le : s.mem.1.totalClients ≤ max S.seats 0
  /-- The queue holds `total_clients` ids, no two of them the same. -/
  length : (queue s.mem.1).length = s.mem.1.totalClients.toNat
  nodup : (queue s.mem.1).Nodup
  /-- A client in the shop is in exactly one place. -/
  place : ∀ i, InShop S s i →
    ((queue s.mem.1).count (S.pid i) = 1 ∧ ¬ Called s.mem.1 (S.pid i)) ∨
      (S.pid i ∉ queue s.mem.1 ∧ Called s.mem.1 (S.pid i))
  sleeping : s.mem.1.status = .sleeping → queue s.mem.1 = [] ∧ ∀ i, ¬ InShop S s i
  wokenUp : s.mem.1.status = .wokenUp → queue s.mem.1 ≠ []
  /-- No call of `dequeue` in the next step returns `-1`. -/
  dequeue : ∀ b, dequeueCall s.mem.1 = some b → (Barber.dequeue b).1 ≠ -1
  /-- No call of `enqueue` in the next step drops the client. -/
  enqueue : ∀ i b, enqueueCall (S.pid i) (S.shaves i) s.mem.1 (clientOf s i) = some b →
    qFull b = false ∧ queue (Barber.enqueue (S.pid i) b) = queue b ++ [S.pid i]
  /-- A client that finds the barber asleep is not queued for its next shave. -/
  wake : ∀ i, (clientOf s i).pc = .arriving → s.mem.1.status = .sleeping →
    S.pid i ∉ queue s.mem.1 ∧ (clientOf s i).firstShave = true

/-- A client in the shop is in the queue or called, or has gone astray. -/
theorem place_of_inShop {b : Barbershop} {log : Log} {me : Pid} {shaves : ℤ}
    {c : Client} (hk : Knows me shaves b c) (ht : Tally me shaves log c)
    (hin : me ∈ log.enqueued) (hleft : ∀ how, c.pc ≠ .left how) :
    (Awaits b me ∨ Astray shaves b me) ∨ Seated b me := by
  unfold Knows at hk
  unfold Tally at ht
  cases hpc : c.pc <;> simp only [hpc] at hk ht
  case outside => exact absurd hin ht.1
  case arriving =>
    obtain ⟨-, ⟨hfirst, -, -⟩ | ⟨-, -, haw⟩⟩ := hk
    · exact absurd hin (ht.1 hfirst).1
    · exact Or.inl haw
  case waiting => exact Or.inl hk.2.2
  case inChair => exact Or.inr hk.2.2
  case left how => exact absurd hpc (hleft how)

/-- Every call of `enqueue` is made in a waiting room that is not full. -/
theorem not_full_of_enqueueCall {me : Pid} {shaves : ℤ} {b b₁ : Barbershop} {c : Client}
    (hk : Knows me shaves b c)
    (hawake : c.pc = .arriving → c.firstShave = false → b.status ≠ .sleeping)
    (h : enqueueCall me shaves b c = some b₁) :
    qFull b₁ = false ∧ ∃ st, b₁ = { b with status := st } := by
  unfold enqueueCall at h
  unfold Knows at hk
  cases hpc : c.pc <;> simp only [hpc, reduceCtorEq] at h hk
  case arriving =>
    obtain ⟨-, ⟨hfirst, hst, -⟩ | ⟨hfirst, hst, -⟩⟩ := hk
    · cases hfull : qFull b with
      | true => simp [hst, hfull] at h
      | false =>
        by_cases hsl : b.status = .sleeping
        · simp only [hfull, Bool.and_false, Bool.false_eq_true, if_false, hsl, if_true,
            Option.some.injEq] at h
          subst h
          exact ⟨hfull, _, rfl⟩
        · simp only [hfull, Bool.and_false, Bool.false_eq_true, if_false, hsl, hfirst, if_true,
            Option.some.injEq] at h
          subst h
          exact ⟨hfull, _, rfl⟩
    · -- a later round does not enqueue, the barber being awake
      simp [hst, hfirst, hawake hpc hfirst] at h
  case inChair =>
    split at h
    · rename_i hcond
      simp only [Bool.and_eq_true, Bool.not_eq_true'] at hcond
      obtain rfl := Option.some.inj h
      exact ⟨hcond.2, _, rfl⟩
    · simp at h

variable [DecidableEq ι]

/-- **The queue and the chair are in order after every run** of a shop in which no counter
wraps around. -/
theorem orderly_of_counts {S : Setup ι} (hS : ∀ i, S.Counts i) (sched : List (Who ι)) :
    Orderly S (S.logged.run sched S.logStart) := by
  obtain ⟨⟨hI, hL⟩, hA⟩ := S.history_of_run sched
  generalize S.logged.run sched S.logStart = s at hI hL hA ⊢
  -- no client within the bound has gone astray
  have hastray : ∀ i, ¬ Astray (S.shaves i) s.mem.1 (S.pid i) :=
    fun i => (hS i).not_astray hI.toSound
  have hplace : ∀ i, InShop S s i → Awaits s.mem.1 (S.pid i) ∨ Seated s.mem.1 (S.pid i) :=
    fun i hi => (place_of_inShop (hA i).1 (hA i).2 hi.1 hi.2).imp_left fun h =>
      h.resolve_right (hastray i)
  have hawake : ∀ i, (clientOf s i).pc = .arriving → s.mem.1.status = .sleeping →
      (clientOf s i).firstShave = true ∧ Away s.mem.1 (S.pid i) := by
    intro i hpc hst
    have hk := (hA i).1
    unfold Knows at hk
    simp only [hpc] at hk
    obtain ⟨-, ⟨hfirst, -, haway⟩ | ⟨-, -, haw⟩⟩ := hk
    · exact ⟨hfirst, haway⟩
    · exact absurd hst ((haw.resolve_right (hastray i)).not_sleeping hI)
  refine ⟨hI.nonneg, hI.le, length_queue hI.le_maxClients, hI.nodup, fun i hi => ?_,
    fun hst => ⟨hI.sleeping hst, fun i hi => ?_⟩, hI.wokenUp, fun b hb => ?_, fun i b hb => ?_,
    fun i hpc hst => ⟨(hawake i hpc hst).2.1, (hawake i hpc hst).1⟩⟩
  · rcases hplace i hi with (⟨hin, hno⟩ | ⟨hout, hst, hcurr⟩) | hseat
    · exact Or.inl ⟨List.count_eq_one_of_mem hI.nodup hin, hno⟩
    · exact Or.inr ⟨hout, Or.inl hst, hcurr⟩
    · exact Or.inr ⟨hseat.1, hseat.called⟩
  · rcases hplace i hi with haw | hseat
    · exact haw.not_sleeping hI hst
    · simp [Seated, hst] at hseat
  · -- the id returned is the head of the queue, the id of a client
    obtain ⟨rfl, hne⟩ : b = { s.mem.1 with status := .inviting } ∧ queue s.mem.1 ≠ [] := by
      unfold dequeueCall at hb
      split at hb
      · rename_i hst
        exact ⟨(Option.some.inj hb).symm, hI.wokenUp hst⟩
      · split at hb
        · rename_i hq
          refine ⟨(Option.some.inj hb).symm, fun hnil => ?_⟩
          rw [Bool.not_eq_true', qEmpty_eq_false_iff] at hq
          exact hq (hI.queue_eq_nil_iff.mp hnil)
        · simp at hb
      · simp at hb
    obtain ⟨p, rest, hq, -, hcurr, -⟩ := hI.toSound.inviteClient hne
    have hp : (Barber.dequeue { s.mem.1 with status := .inviting }).1 = p := hcurr
    obtain ⟨i, rfl⟩ := hI.known p (by rw [hq]; exact List.mem_cons_self)
    have hpos := S.pid_pos i
    rw [hp]
    intro hneg
    rw [hneg] at hpos
    exact absurd hpos (by decide)
  · have hfirst : (clientOf s i).pc = .arriving → (clientOf s i).firstShave = false →
        s.mem.1.status ≠ .sleeping := by
      intro hpc hf hst
      simp [(hawake i hpc hst).1] at hf
    obtain ⟨hfull, st, rfl⟩ := not_full_of_enqueueCall (hA i).1 hfirst hb
    exact ⟨hfull, (hI.toSound.withStatus st).queue_enqueue hfull _⟩

/-- Every shave is one that a client in the chair was invited to, and a client that
has left has had the shaves it completed. -/
structure ShavesMatch (S : Setup ι) (s : Logged ι) : Prop where
  /-- At most one client is in the chair. -/
  chair : ∀ i j, Sits (clientOf s i) → Sits (clientOf s j) → i = j
  /-- The shaves of a client are those it has completed, and the one under way. -/
  shaved : ∀ i, s.mem.2.shaved.count (S.pid i) = s.mem.2.gotUp.count (S.pid i) +
    if s.mem.1.status = .endShaving ∧ s.mem.1.currClient = S.pid i then 1 else 0
  /-- The invitations of a client are its shaves, and the one not yet answered. -/
  invited : ∀ i, s.mem.2.invited.count (S.pid i) = s.mem.2.shaved.count (S.pid i) +
    if (s.mem.1.status = .inviting ∨ s.mem.1.status = .startShaving) ∧
      s.mem.1.currClient = S.pid i then 1 else 0
  /-- The client the barber is about to shave is in the chair. -/
  seated : s.mem.1.status = .startShaving →
    ∃ i, s.mem.1.currClient = S.pid i ∧ Sits (clientOf s i)
  /-- A client that leaves through "ended shave" has had the shaves it asked for. -/
  ended : ∀ i, (clientOf s i).pc = .left .endedShave →
    (s.mem.2.shaved.count (S.pid i) : ℤ) = max (S.shaves i) 0
  /-- A client turned away has had the shaves it completed: none in its first round,
  else one in every round. -/
  turnedAway : ∀ i, (clientOf s i).pc = .left .noFreeChair →
    s.mem.2.shaved.count (S.pid i) = s.mem.2.gotUp.count (S.pid i) ∧
      (s.mem.2.gotUp.count (S.pid i) : ℤ) =
        if (clientOf s i).clientStatus = .waiting then 0 else (clientOf s i).currShave

/-- A client that sits is in the chair. -/
theorem seated_of_sits {b : Barbershop} {log : Log} {me : Pid} {shaves : ℤ} {c : Client}
    (hk : Knows me shaves b c) (ht : Tally me shaves log c) (hs : Sits c) : Seated b me := by
  obtain ⟨hout, hst⟩ := hs
  unfold Knows at hk
  unfold Tally at ht
  cases hpc : c.pc <;> simp only [hpc] at hk ht
  case outside => exact absurd hpc hout
  case arriving =>
    obtain ⟨-, ⟨-, h, -⟩ | ⟨-, h, -⟩⟩ := hk <;> simp [hst] at h
  case waiting => exact absurd hst hk.2.1
  case inChair => exact hk.2.2
  case left how =>
    cases how with
    | noFreeChair => rcases ht with ⟨h, -⟩ | ⟨h, -⟩ <;> simp [hst] at h
    | endedShave => exact absurd hst ht.1

/-- The client called to the chair sits in it. -/
theorem sits_of_called {b : Barbershop} {me : Pid} {shaves : ℤ} {c : Client}
    (hk : Knows me shaves b c) (hcall : Called b me) (hst : b.status ≠ .inviting) : Sits c := by
  unfold Knows at hk
  have hno : ¬ Awaits b me := by
    rintro (⟨-, h⟩ | ⟨-, h, -⟩)
    · exact h hcall
    · exact hst h
  cases hpc : c.pc <;> simp only [hpc] at hk
  case outside => exact absurd hcall hk.2
  case arriving =>
    obtain ⟨-, ⟨-, -, haway⟩ | ⟨-, -, haw | hastray⟩⟩ := hk
    · exact absurd hcall haway.2
    · exact absurd haw hno
    · exact absurd hcall hastray.2.2.2
  case waiting =>
    rcases hk.2.2 with haw | hastray
    · exact absurd haw hno
    · exact absurd hcall hastray.2.2.2
  case inChair => exact ⟨by simp [hpc], hk.2.1⟩
  case left => exact absurd hcall hk.2

/-- **The shaves match after every run.** -/
theorem shavesMatch_run (S : Setup ι) (sched : List (Who ι)) :
    ShavesMatch S (S.logged.run sched S.logStart) := by
  obtain ⟨⟨hI, hL⟩, hA⟩ := S.history_of_run sched
  generalize S.logged.run sched S.logStart = s at hI hL hA ⊢
  -- a client that has left is not the one the barber is busy with
  have hleft : ∀ i how, (clientOf s i).pc = .left how →
      s.mem.2.shaved.count (S.pid i) = s.mem.2.gotUp.count (S.pid i) := by
    intro i how hpc
    have hk := (hA i).1
    unfold Knows at hk
    simp only [hpc] at hk
    rw [hL.shaved, if_neg, Nat.add_zero]
    rintro ⟨hst, hcurr⟩
    exact hk.2 ⟨Or.inr (Or.inr hst), hcurr⟩
  refine ⟨fun i j hi hj => ?_, fun i => hL.shaved _, fun i => hL.invited _, fun hst => ?_,
    fun i hpc => ?_, fun i hpc => ⟨hleft i _ hpc, ?_⟩⟩
  · have hsi := seated_of_sits (hA i).1 (hA i).2 hi
    have hsj := seated_of_sits (hA j).1 (hA j).2 hj
    exact S.pid_injective (hsi.2.2.symm.trans hsj.2.2)
  · obtain ⟨-, i, hi⟩ := hI.called s.mem.1.currClient ⟨Or.inr (Or.inl hst), rfl⟩
    exact ⟨i, hi.symm,
      sits_of_called (hA i).1 ⟨Or.inr (Or.inl hst), hi.symm⟩ (by simp [hst])⟩
  · have ht := (hA i).2
    unfold Tally at ht
    simp only [hpc] at ht
    rw [hleft i _ hpc, ht.2]
  · have ht := (hA i).2
    unfold Tally at ht
    simp only [hpc] at ht
    rcases ht with ⟨hst, hcount⟩ | ⟨hst, hcount⟩
    · simp [hst, hcount]
    · simp [hst, hcount]

/-- Clients are served in the order in which they joined the queue. -/
structure Served (s : Logged ι) : Prop where
  /-- The ids invited, then those in the queue, are the ids enqueued. -/
  order : s.mem.2.invited ++ queue s.mem.1 = s.mem.2.enqueued
  /-- The next id invited after a client has woken the barber is that client's. -/
  wake : ∀ p n, (p, n) ∈ s.mem.2.wakes → n < s.mem.2.invited.length →
    s.mem.2.invited[n]? = some p

/-- **First come, first served, after every run.** -/
theorem served_run (S : Setup ι) (sched : List (Who ι)) :
    Served (S.logged.run sched S.logStart) := by
  obtain ⟨⟨-, hL⟩, -⟩ := S.history_of_run sched
  refine ⟨hL.order, fun p n hn hlt => ?_⟩
  have hnext := hL.wake p n hn
  rwa [← hL.order, List.getElem?_append_left hlt] at hnext

end Barber
end OpSys
