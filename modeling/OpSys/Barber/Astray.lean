import OpSys.Barber.Rest
import OpSys.Barber.Service

/-!
# A client that goes astray

The loop of `arrive_at_barbershop` runs while `curr_shave <= shaves`.  A client that asks
for `INT_MAX` shaves never gets past this test: after its last shave the counter wraps
around, and it begins another round, for which nobody has put it into the queue.  If the
barber falls asleep before, both wait for ever.

## Main definitions

* `Alone S i` — the steps of the barber and the client `i`.
* `FirstInLine` — a client is the only one in the queue.
* `Spent` — what becomes of a client that comes alone.

## Main results

* `reach_spent` — a client that comes to a sleeping barber and is alone is soon spent.
* `orderly_iff`, `comes_to_rest_iff` — when the shop is in order, and when it comes to rest.

## References

`lab6_semaphores_shared_mem/POSIX/client_spawner.c` and its System V version.
-/

namespace OpSys
namespace Barber

open Records

variable {ι : Type*}

/-! ### One client and the barber -/

/-- A step of the barber or of the client `i`, on the shared record and the client. -/
inductive Alone (S : Setup ι) (i : ι) : Barbershop × Client → Barbershop × Client → Prop
  | barber (b : Barbershop) (c : Client) : Alone S i (b, c) (barberSection b, c)
  | client {b : Barbershop} {c : Client} {r : Barbershop × Client}
    (h : clientStep (S.pid i) (S.shaves i) b c = some r) : Alone S i (b, c) r

/-- The steps of the two are steps of the system. -/
theorem reach_of_alone [DecidableEq ι] {S : Setup ι} {i : ι} {s : Global Barbershop (Local ι)}
    {r : Barbershop × Client}
    (h : Relation.ReflTransGen (Alone S i) (s.mem, s.loc (.client i)) r) :
    S.program.Reach s ⟨r.1, Function.update s.loc (.client i) r.2⟩ := by
  induction h with
  | refl =>
    rw [Function.update_eq_self]
    exact .refl s
  | tail _ hstep ih =>
    refine Relation.ReflTransGen.tail ih ?_
    cases hstep with
    | barber b c =>
      refine ⟨.barber, congrArg some (Global.ext rfl ?_)⟩
      exact Function.update_eq_self (Who.barber : Who ι) (Function.update s.loc (.client i) c)
    | client hclient => exact ⟨.client i, by simp [Program.next, Setup.program, hclient]⟩

/-- The client is the only one in the queue. -/
structure FirstInLine (S : Setup ι) (i : ι) (b : Barbershop) (c : Client) : Prop where
  sound : Sound S b
  status : b.status = .wokenUp ∨ b.status = .free
  line : queue b = [S.pid i]
  pc : c.pc = .waiting
  clientStatus : c.clientStatus ≠ .invited

/-- The client is in the chair at the end of its shave, and nobody else has come. -/
structure Shorn (S : Setup ι) (i : ι) (b : Barbershop) (c : Client) : Prop where
  sound : Sound S b
  status : b.status = .endShaving
  currClient : S.pid i = b.currClient
  line : queue b = []
  pc : c.pc = .inChair

/-- What becomes of a client that comes alone and is not turned away. -/
def Spent (shaves : ℤ) (c : Client) : Prop :=
  if shaves = intMax then
    c.pc = .waiting ∧ c.clientStatus = .shaven ∧ c.currShave = intMax + 1
  else c.pc = .left .endedShave

section Alone

variable {S : Setup ι} {i : ι} {b : Barbershop} {c : Client}

/-- The barber calls the client in the queue, the client sits down and is shaved. -/
theorem FirstInLine.shorn (h : FirstInLine S i b c) :
    ∃ b' c', Relation.ReflTransGen (Alone S i) (b, c) (b', c') ∧ Shorn S i b' c' ∧
      c'.currShave = c.currShave := by
  obtain ⟨hsound, hst, hq, hpc, hne⟩ := h
  obtain ⟨p, rest, hq', hrest, hp, hinv, hsound'⟩ := hsound.inviteClient (by simp [hq])
  obtain ⟨rfl, rfl⟩ : S.pid i = p ∧ [] = rest := by simpa using hq.symm.trans hq'
  have hsec : barberSection b = inviteClient b := by
    rcases hst with hst | hst
    · simp [barberSection, hst]
    · have hempty : qEmpty b = false :=
        (qEmpty_eq_false_iff b).mpr fun h0 => by simp [hsound.queue_eq_nil_iff.mpr h0] at hq
      simp [barberSection, hst, hempty]
  have hsit : clientStep (S.pid i) (S.shaves i) (inviteClient b) c =
      some ({ inviteClient b with status := .startShaving },
        { c with pc := .inChair, clientStatus := .invited }) := by
    simp [clientStep, hpc, waitSection, hinv, hp, invitedTest_of_eq]
  have hcall : Alone S i (b, c) (inviteClient b, c) := hsec ▸ .barber b c
  refine ⟨_, _, .tail (.tail (.single hcall) (.client hsit)) (.barber _ _), ?_, rfl⟩
  exact ⟨hsound'.withStatus _, rfl, hp.symm, hrest, rfl⟩

/-- Short of the last shave the client takes its place in the queue again. -/
theorem Shorn.again (h : Shorn S i b c) (hseats : 0 < S.seats) (hloop : InLoop (S.shaves i) c)
    (hlt : toInt c.currShave < S.shaves i) :
    ∃ b' c', Relation.ReflTransGen (Alone S i) (b, c) (b', c') ∧ FirstInLine S i b' c' ∧
      c'.currShave = c.currShave + 1 := by
  obtain ⟨hsound, hst, hme, hq, hpc⟩ := h
  obtain ⟨hle, -⟩ := hloop.next (S.shaves_le i) hlt
  -- up from the chair, with more shaves to come, it enqueues again
  let b₁ : Barbershop := { b with status := .free }
  have hsound₁ : Sound S b₁ := hsound.withStatus .free
  have hfull : qFull b₁ = false := by
    have hempty : b₁.totalClients = 0 := hsound₁.queue_eq_nil_iff.mp hq
    rw [qFull_eq_false_iff, hsound₁.size]
    omega
  have hq₁ : queue (enqueue (S.pid i) b₁) = [S.pid i] := by
    rw [hsound₁.queue_enqueue hfull]
    simp [show queue b₁ = [] from hq]
  have hnot : S.pid i ∉ queue b₁ := by simp [show queue b₁ = [] from hq]
  have hup : clientStep (S.pid i) (S.shaves i) b c = some (enqueue (S.pid i) b₁,
      ⟨.arriving, .shaven, false, c.currShave + 1⟩) := by
    have hfull' : qFull { b with status := .free } = false := hfull
    simp [clientStep, hpc, chairSection, hst, hme, hlt, b₁, hfull', shavenTest_of_eq,
      forTest_of_le, hle]
  have hgo : clientStep (S.pid i) (S.shaves i) (enqueue (S.pid i) b₁)
      ⟨.arriving, .shaven, false, c.currShave + 1⟩ =
        some (enqueue (S.pid i) b₁, ⟨.waiting, .shaven, false, c.currShave + 1⟩) := by
    simp [clientStep, arriveSection, b₁, invitedTest]
  -- and polls, the first in an otherwise empty room
  refine ⟨_, _, .tail (.single (.client hup)) (.client hgo), ?_, rfl⟩
  exact ⟨hsound₁.enqueue hfull hnot, Or.inr (by simp [b₁]), hq₁, rfl, by simp⟩

/-- After the last shave the client leaves or goes astray, and the barber falls asleep. -/
theorem Shorn.spent (h : Shorn S i b c) (hloop : InLoop (S.shaves i) c)
    (hlast : c.currShave = S.shaves i) :
    ∃ b' c', Relation.ReflTransGen (Alone S i) (b, c) (b', c') ∧ b'.status = .sleeping ∧
      Spent (S.shaves i) c' := by
  obtain ⟨hsound, hst, hme, hq, hpc⟩ := h
  have heq : toInt c.currShave = S.shaves i := by
    rw [toInt_of_mem (Int.le_of_lt hloop.1) (by rw [hlast]; exact S.shaves_le i), hlast]
  have hlt : ¬ toInt c.currShave < S.shaves i := by omega
  -- with nobody waiting the barber goes to sleep
  have hsleep (c' : Client) :
      Alone S i ({ b with status := .free }, c') ({ b with status := .sleeping }, c') := by
    have hempty : qEmpty { b with status := .free } = true :=
      (qEmpty_iff _).mpr ((hsound.withStatus .free).queue_eq_nil_iff.mp hq)
    have hsec : barberSection { b with status := .free } = { b with status := .sleeping } := by
      simp [barberSection, hempty, fallAsleep]
    rw [← hsec]
    exact .barber _ c'
  rcases hloop.last (S.shaves_le i) heq with ⟨-, hout⟩ | ⟨hmax, hle⟩
  · have hup : clientStep (S.pid i) (S.shaves i) b c = some ({ b with status := .free },
        ⟨.left .endedShave, .shaven, false, c.currShave + 1⟩) := by
      simp [clientStep, hpc, chairSection, hst, ← hme, hlt, shavenTest_of_eq, forTest_of_lt, hout]
    have hne : S.shaves i ≠ intMax := by
      -- the counter that comes after the last shave is greater, so the loop ends
      intro hmax
      have := toInt_le_intMax (c.currShave + 1)
      omega
    refine ⟨_, _, .tail (.single (.client hup)) (hsleep _), rfl, ?_⟩
    rw [Spent, if_neg hne]
  · -- `curr_shave++` has overflowed, and the loop goes on with a negative counter
    have hup : clientStep (S.pid i) (S.shaves i) b c = some ({ b with status := .free },
        ⟨.arriving, .shaven, false, c.currShave + 1⟩) := by
      simp [clientStep, hpc, chairSection, hst, ← hme, hlt, shavenTest_of_eq, forTest_of_le, hle]
    have hgo : clientStep (S.pid i) (S.shaves i) { b with status := .free }
        ⟨.arriving, .shaven, false, c.currShave + 1⟩ = some ({ b with status := .free },
          ⟨.waiting, .shaven, false, c.currShave + 1⟩) := by
      simp [clientStep, arriveSection, invitedTest]
    refine ⟨_, _, .tail (.tail (.single (.client hup)) (.client hgo)) (hsleep _),
      rfl, ?_⟩
    rw [Spent, if_pos hmax]
    exact ⟨rfl, rfl, by rw [hlast, hmax]⟩

/-- A client that is served alone goes through all its rounds. -/
theorem FirstInLine.spent (h : FirstInLine S i b c) (hseats : 0 < S.seats)
    (hone : c.currShave = 1) (hmore : 1 ≤ S.shaves i) :
    ∃ b' c', Relation.ReflTransGen (Alone S i) (b, c) (b', c') ∧ b'.status = .sleeping ∧
      Spent (S.shaves i) c' := by
  -- one round after the other, up to the last
  have hrounds (n : ℕ) : n + 1 ≤ S.shaves i → ∃ b' c',
      Relation.ReflTransGen (Alone S i) (b, c) (b', c') ∧ FirstInLine S i b' c' ∧
        c'.currShave = n + 1 := by
    induction n with
    | zero => exact fun _ => ⟨b, c, .refl, h, by simpa using hone⟩
    | succ n ih =>
      intro hle
      obtain ⟨b₁, c₁, hrun₁, hfirst, hcurr₁⟩ := ih (by omega)
      obtain ⟨b₂, c₂, hrun₂, hshorn, hcurr₂⟩ := hfirst.shorn
      have hmax := S.shaves_le i
      have hlt : toInt c₂.currShave < S.shaves i := by
        rw [toInt_of_mem (by omega) (by omega)]
        omega
      obtain ⟨b₃, c₃, hrun₃, hagain, hcurr₃⟩ :=
        hshorn.again hseats ⟨by omega, Or.inl (by omega)⟩ hlt
      exact ⟨b₃, c₃, hrun₁.trans (hrun₂.trans hrun₃), hagain, by omega⟩
  obtain ⟨b₁, c₁, hrun₁, hfirst, hcurr₁⟩ := hrounds (S.shaves i - 1).toNat (by omega)
  obtain ⟨b₂, c₂, hrun₂, hshorn, hcurr₂⟩ := hfirst.shorn
  obtain ⟨b₃, c₃, hrun₃, hsleep, hspent⟩ :=
    hshorn.spent ⟨by omega, Or.inl (by omega)⟩ (by omega)
  exact ⟨b₃, c₃, hrun₁.trans (hrun₂.trans hrun₃), hsleep, hspent⟩

/-- A client that comes to a sleeping barber and is alone. -/
theorem alone_spent (h : ShopInv S b) (hsleep : b.status = .sleeping) (hseats : 0 < S.seats)
    (i : ι) : ∃ b' c', Relation.ReflTransGen (Alone S i) (b, Client.new) (b', c') ∧
      b'.status = .sleeping ∧ Spent (S.shaves i) c' := by
  have hone : toInt 1 = 1 := by decide
  by_cases hmore : 1 ≤ S.shaves i
  · have henter : clientStep (S.pid i) (S.shaves i) b Client.new =
        some (b, ⟨.arriving, .waiting, true, 1⟩) := by
      simp [clientStep, Client.new, enter, forTest, hone, hmore]
    -- nobody waits while the barber sleeps
    have hq := h.sleeping hsleep
    have hfull : qFull b = false := by
      rw [qFull_eq_false_iff, h.queue_eq_nil_iff.mp hq, h.size]
      exact hseats
    have hwake : clientStep (S.pid i) (S.shaves i) b ⟨.arriving, .waiting, true, 1⟩ =
        some (enqueue (S.pid i) { b with status := .wokenUp }, ⟨.waiting, .waiting, true, 1⟩) := by
      simp [clientStep, arriveSection, hfull, hsleep, invitedTest]
    have hsound : Sound S { b with status := .wokenUp } := h.toSound.withStatus _
    have hnot : S.pid i ∉ queue { b with status := .wokenUp } := by
      simp [show queue { b with status := .wokenUp } = [] from hq]
    have hfirst : FirstInLine S i (enqueue (S.pid i) { b with status := .wokenUp })
        ⟨.waiting, .waiting, true, 1⟩ := by
      refine ⟨hsound.enqueue hfull hnot, Or.inl (by simp), ?_, rfl, by simp⟩
      rw [hsound.queue_enqueue hfull, show queue { b with status := .wokenUp } = [] from hq]
      rfl
    obtain ⟨b', c', hrun, hres⟩ := hfirst.spent hseats rfl hmore
    exact ⟨b', c', .head (.client henter) (.head (.client hwake) hrun), hres⟩
  · -- not even a first shave
    have henter : clientStep (S.pid i) (S.shaves i) b Client.new =
        some (b, ⟨.left .endedShave, .waiting, true, 1⟩) := by
      simp [clientStep, Client.new, enter, forTest, hone, hmore]
    have hne : S.shaves i ≠ intMax := by
      rw [intMax]
      omega
    exact ⟨b, _, .single (.client henter), hsleep, by rw [Spent, if_neg hne]⟩

end Alone

/-! ### Shops in which a counter wraps around -/

section Shop

variable [DecidableEq ι] {S : Setup ι}

/-- A client that comes to a sleeping barber and is alone is spent, and the others have not
stirred. -/
theorem reach_spent {s : Global Barbershop (Local ι)} (hs : S.program.Reach S.start s)
    (hsleep : s.mem.status = .sleeping) (hseats : 0 < S.seats) {i : ι}
    (hi : s.loc (.client i) = Client.new) :
    ∃ s', S.program.Reach s s' ∧ s'.mem.status = .sleeping ∧
      Spent (S.shaves i) (s'.loc (.client i)) ∧
      ∀ j ≠ i, s'.loc (.client j) = s.loc (.client j) := by
  obtain ⟨b, c, hrun, hsleep', hspent⟩ := alone_spent (S.knows_of_reach hs).1 hsleep hseats i
  rw [← hi] at hrun
  refine ⟨_, reach_of_alone hrun, hsleep', ?_, fun j hj => ?_⟩
  · show Spent (S.shaves i) (Function.update s.loc (.client i) c (.client i))
    rwa [Function.update_self]
  · exact Function.update_of_ne (fun heq => hj (Who.client.inj heq)) _ _

/-- A client that asks for `INT_MAX` shaves is in the shop while the barber sleeps. -/
theorem exists_not_orderly (hseats : 0 < S.seats) {i : ι} (hmax : S.shaves i = intMax) :
    ∃ sched, ¬ Orderly S (S.logged.run sched S.logStart) := by
  obtain ⟨s, hs, hsleep, hspent, -⟩ := reach_spent (.refl S.start) rfl hseats (i := i) rfl
  obtain ⟨sched, rfl⟩ := S.program.exists_run_of_reach hs
  rw [← S.erase_logged_run] at hsleep hspent
  refine ⟨sched, fun horder => (horder.sleeping hsleep).2 i ?_⟩
  obtain ⟨⟨-, hL⟩, hA⟩ := S.history_of_run sched
  rw [Spent, if_pos hmax] at hspent
  obtain ⟨hpc, -, hcurr⟩ := hspent
  have ht := (hA i).2
  unfold Tally at ht
  simp only [show (clientOf (S.logged.run sched S.logStart) i).pc = .waiting from hpc] at ht
  have hround : (clientOf (S.logged.run sched S.logStart) i).currShave = intMax + 1 := hcurr
  rw [hround, intMax] at ht
  -- the client has got up, so it was invited, so it was in the queue
  have hinvited := hL.invited (S.pid i)
  have hshaved := hL.shaved (S.pid i)
  have hmem : S.pid i ∈ (S.logged.run sched S.logStart).mem.2.invited :=
    List.count_pos_iff.mp (by omega)
  refine ⟨?_, fun how hleft => absurd (hpc.symm.trans hleft) (by simp)⟩
  rw [← hL.order]
  exact List.mem_append_left _ hmem

/-- Any number of the clients are spent one after the other. -/
theorem reach_all_spent (hseats : 0 < S.seats) (F : Finset ι) :
    ∃ s, S.program.Reach S.start s ∧ s.mem.status = .sleeping ∧
      (∀ j ∈ F, Spent (S.shaves j) (s.loc (.client j))) ∧
      ∀ j ∉ F, s.loc (.client j) = Client.new := by
  induction F using Finset.induction_on with
  | empty => exact ⟨S.start, .refl _, rfl, by simp, fun _ _ => rfl⟩
  | insert i F hi ih =>
    obtain ⟨s, hs, hsleep, hspent, hnew⟩ := ih
    obtain ⟨s', hs', hsleep', hspent', hsame⟩ := reach_spent hs hsleep hseats (hnew i hi)
    refine ⟨s', hs.trans hs', hsleep', fun j hj => ?_, fun j hj => ?_⟩
    · rcases Finset.mem_insert.mp hj with rfl | hF
      · exact hspent'
      · rw [hsame j fun heq => hi (heq ▸ hF)]
        exact hspent j hF
    · rw [Finset.mem_insert, not_or] at hj
      rw [hsame j hj.1]
      exact hnew j hj.2

/-- While the barber sleeps no step of clients that are spent changes anything. -/
theorem not_move_of_spent {s : Global Barbershop (Local ι)} (hsleep : s.mem.status = .sleeping)
    (hspent : ∀ i, Spent (S.shaves i) (s.loc (.client i))) : ¬ ∃ s', S.program.Move s s' := by
  rintro ⟨s', ⟨t, hnext⟩, hne⟩
  obtain ⟨b, l, hstep, rfl⟩ := S.program.next_eq_some hnext
  refine hne ?_
  cases t with
  | barber =>
    obtain ⟨rfl, rfl⟩ := Prod.mk.inj (Option.some.inj hstep)
    -- a barber that sleeps stays asleep
    exact Global.ext (by simp [barberSection, hsleep]) (Function.update_eq_self _ _)
  | client i =>
    have hi := hspent i
    have hstep' : clientStep (S.pid i) (S.shaves i) s.mem (s.loc (.client i)) = some (b, l) :=
      hstep
    rw [Spent] at hi
    split at hi
    · obtain ⟨hpc, hst, -⟩ := hi
      have hne : (s.loc (.client i)).clientStatus ≠ .invited := by simp [hst]
      have hpoll : waitSection (S.pid i) (S.shaves i) s.mem (s.loc (.client i)) =
          (s.mem, s.loc (.client i)) := by
        -- a client that polls at a sleeping barber changes nothing
        simp [waitSection, hsleep, invitedTest_of_ne hne, ← hpc]
      simp only [clientStep, hpc, hpoll, Option.some.injEq] at hstep'
      obtain ⟨rfl, rfl⟩ := Prod.mk.inj hstep'
      exact Global.ext rfl (Function.update_eq_self _ _)
    · simp [clientStep, hi] at hstep'

/-- A client that asks for `INT_MAX` shaves is left polling. -/
theorem not_comesToRest [Finite ι] (hseats : 0 < S.seats) {i : ι} (hmax : S.shaves i = intMax) :
    ¬ ComesToRest S := by
  obtain ⟨_⟩ := nonempty_fintype ι
  obtain ⟨s, hs, hsleep, hspent, -⟩ := reach_all_spent hseats (Finset.univ : Finset ι)
  intro hrest
  rcases hrest.progress s hs with ⟨hleft, -⟩ | hmove
  · obtain ⟨how, hpc⟩ := hleft i
    have hi := hspent i (Finset.mem_univ i)
    rw [Spent, if_pos hmax] at hi
    exact absurd (hi.1.symm.trans hpc) (by simp)
  · exact not_move_of_spent hsleep (fun j => hspent j (Finset.mem_univ j)) hmove

omit [DecidableEq ι] in
theorem counts_iff : (∀ i, S.Counts i) ↔ S.seats ≤ 0 ∨ ∀ i, S.shaves i < intMax :=
  forall_or_left

omit [DecidableEq ι] in
theorem exists_eq_intMax (h : ¬ ∀ i, S.Counts i) : 0 < S.seats ∧ ∃ i, S.shaves i = intMax := by
  rw [counts_iff, not_or, not_le, not_forall] at h
  obtain ⟨hseats, i, hi⟩ := h
  exact ⟨hseats, i, le_antisymm (S.shaves_le i) (not_lt.mp hi)⟩

/-- **When the queue and the chair are in order** after every run: when nobody asks for
`INT_MAX` shaves, or the waiting room has no chair. -/
theorem orderly_iff (S : Setup ι) :
    (∀ sched, Orderly S (S.logged.run sched S.logStart)) ↔
      S.seats ≤ 0 ∨ ∀ i, S.shaves i < intMax := by
  rw [← counts_iff]
  refine ⟨fun h => ?_, fun hS sched => orderly_of_counts hS sched⟩
  by_contra hS
  obtain ⟨hseats, i, hmax⟩ := exists_eq_intMax hS
  obtain ⟨sched, hnot⟩ := exists_not_orderly hseats hmax
  exact hnot (h sched)

/-- **When the barbershop comes to rest**: when nobody asks for `INT_MAX` shaves, or the
waiting room has no chair. -/
theorem comes_to_rest_iff (S : Setup ι) :
    ((S.seats ≤ 0 ∨ ∀ i, S.shaves i < intMax) → ComesToRest S) ∧
    (Finite ι → (ComesToRest S ↔ S.seats ≤ 0 ∨ ∀ i, S.shaves i < intMax)) := by
  rw [← counts_iff]
  refine ⟨comesToRest_of_counts, fun hfin => ⟨fun h => ?_, comesToRest_of_counts⟩⟩
  by_contra hS
  obtain ⟨hseats, i, hmax⟩ := exists_eq_intMax hS
  exact not_comesToRest hseats hmax h

end Shop

/-- A shop with one chair, and one client that asks for `INT_MAX` shaves. -/
def tireless : Setup Unit where
  seats := 1
  seats_le := one_le_maxClients
  pid _ := 1
  pid_pos _ := Int.one_pos
  pid_injective _ _ _ := rfl
  shaves _ := intMax
  shaves_le _ := Int.le_refl _
  found := ⟨.sleeping, 0, 0, 0, Vector.replicate maxClients 0⟩

theorem not_orderly_tireless :
    ¬ ∀ sched, Orderly tireless (tireless.logged.run sched tireless.logStart) := by
  obtain ⟨sched, hnot⟩ := exists_not_orderly (S := tireless) (i := ()) (by decide) rfl
  exact fun h => hnot (h sched)

theorem not_comesToRest_tireless : ¬ ComesToRest tireless :=
  not_comesToRest (i := ()) (by decide) rfl

end Barber
end OpSys
