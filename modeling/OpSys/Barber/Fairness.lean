import OpSys.Barber.Rest

/-!
# No client starves

Clients poll the shared record, so that a step may change nothing, and other clients may
come without end.  If the barber and each client have their turns again and again, every
client that asks for fewer than `INT_MAX` shaves leaves all the same: the ones in front of
it in the queue are called one after the other, each of them answers, and nobody gets in
front of it.

## Main definitions

* `spot`, `phase` — how many are called before a client, and how far the barber is.
* `turnRank`, `stayRank` — bounds on what a client has still to wait for.
* `Helps` — the process whose turn brings a client on.

## Main results

* `barber_brings`, `other_brings`, `self_brings` — what a step of each process does for a
  client.
* `leaves` — every such client leaves under a fair schedule.

## References

`lab6_semaphores_shared_mem/POSIX/barber.c`, `client_spawner.c` and their System V versions.
-/

namespace OpSys
namespace Barber

open Records

/-! ### Places -/

/-- The place of `p` in the queue, counted from 1, and 0 out of it. -/
def spot (b : Barbershop) (p : Pid) : ℕ := if p ∈ queue b then (queue b).idxOf p + 1 else 0

/-- What is left of a service. -/
def phase : BarberStatus → ℕ
  | .inviting => 3
  | .startShaving => 2
  | .endShaving => 1
  | _ => 0

theorem phase_le (st : BarberStatus) : phase st ≤ 3 := by cases st <;> decide

section Spot

variable {ι : Type*} {S : Setup ι} {b : Barbershop} {p p' : Pid}

theorem spot_le (h : Sound S b) (p : Pid) : spot b p ≤ maxClients := by
  rw [spot]
  split
  · rename_i hmem
    have hlt := List.idxOf_lt_length_of_mem hmem
    have hlen := length_queue h.le_maxClients
    have hle := h.le_maxClients
    omega
  · exact Nat.zero_le _

/-- Nobody gets in front of `p`. -/
theorem spot_enqueue (h : Sound S b) (hfull : qFull b = false) (hne : p ≠ p') :
    spot (enqueue p' b) p = spot b p := by
  rw [spot, spot, h.queue_enqueue hfull]
  by_cases hmem : p ∈ queue b
  · rw [if_pos hmem, if_pos (List.mem_append_left _ hmem), List.idxOf_append_of_mem hmem]
  · have hnot : p ∉ queue b ++ [p'] := by
      rw [List.mem_append, List.mem_singleton]
      exact fun hor => hor.elim hmem hne
    rw [if_neg hmem, if_neg hnot]

/-- A call moves everybody up by one place. -/
theorem spot_inviteClient (h : Sound S b) (hmem : p ∈ queue b) :
    spot (inviteClient b) p + 1 = spot b p := by
  obtain ⟨head, rest, hq, hq', -⟩ := h.inviteClient (List.ne_nil_of_mem hmem)
  have hnodup := h.nodup
  rw [spot, spot, hq', if_pos hmem, hq]
  rw [hq] at hmem hnodup
  obtain ⟨hnot, -⟩ := List.nodup_cons.mp hnodup
  rcases List.mem_cons.mp hmem with rfl | hrest
  · rw [if_neg hnot, List.idxOf_cons_self]
  · have hne : head ≠ p := fun heq => hnot (heq ▸ hrest)
    rw [if_pos hrest, List.idxOf_cons_ne _ hne]

end Spot

/-! ### What a client waits for -/

section Rank

variable {ι : Type*} (S : Setup ι) (i : ι)

/-- The client that is called has still to pass the section at the start of a round. -/
def Late (s : Global Barbershop (Local ι)) : Prop :=
  s.mem.status = .inviting ∧
    ∃ j, S.pid j = s.mem.currClient ∧ (s.loc (.client j)).pc = .arriving

open Classical in
/-- The step that this takes. -/
noncomputable def late (s : Global Barbershop (Local ι)) : ℕ := if Late S s then 1 else 0

/-- The steps of the shop before a client in it has its turn. -/
noncomputable def turnRank (s : Global Barbershop (Local ι)) : ℕ :=
  2 * (4 * spot s.mem (S.pid i) + phase s.mem.status) + late S s

/-- A client is in the queue, called or in the chair, and knows it. -/
def Inside (s : Global Barbershop (Local ι)) : Prop :=
  (s.loc (.client i)).pc = .waiting ∨ (s.loc (.client i)).pc = .inChair

instance (s : Global Barbershop (Local ι)) : Decidable (Inside i s) :=
  inferInstanceAs (Decidable (_ ∨ _))

/-- What a client has still to wait for. -/
noncomputable def stayRank (s : Global Barbershop (Local ι)) : ℕ :=
  100 * clientRank (S.shaves i) (s.loc (.client i)) + if Inside i s then turnRank S i s else 0

/-- The process whose turn brings the client `i` on. -/
def Helps (s : Global Barbershop (Local ι)) (t : Who ι) : Prop :=
  if Inside i s then
    match s.mem.status with
    | .wokenUp => t = .barber
    | .startShaving => t = .barber
    | .free => t = .barber
    | .inviting => ∃ j, t = .client j ∧ S.pid j = s.mem.currClient
    | .endShaving => ∃ j, t = .client j ∧ S.pid j = s.mem.currClient
    | .sleeping => False
  else t = .client i

/-- A step has brought the client on, or it was not the turn of a process that helps. -/
def Brings (s s' : Global Barbershop (Local ι)) (t : Who ι) : Prop :=
  stayRank S i s' < stayRank S i s ∨
    stayRank S i s' = stayRank S i s ∧ ¬Helps S i s t ∧ ∀ u, Helps S i s u → Helps S i s' u

end Rank

section Steps

variable {ι : Type*} {S : Setup ι} {i : ι} {s s' : Global Barbershop (Local ι)} {t : Who ι}

theorem late_le (S : Setup ι) (s : Global Barbershop (Local ι)) : late S s ≤ 1 := by
  rw [late]
  split
  · exact le_rfl
  · exact Nat.zero_le 1

open Classical in
theorem late_congr (h : Late S s' ↔ Late S s) : late S s' = late S s := if_congr h rfl rfl

theorem turnRank_le (h : Sound S s.mem) (i : ι) : turnRank S i s ≤ 263 := by
  have hspot := spot_le h (S.pid i)
  have hphase := phase_le s.mem.status
  have hlate := late_le S s
  have hmax : maxClients = 32 := rfl
  rw [turnRank]
  omega

theorem turnRank_lt (h : 4 * spot s'.mem (S.pid i) + phase s'.mem.status <
    4 * spot s.mem (S.pid i) + phase s.mem.status) : turnRank S i s' < turnRank S i s := by
  have hlate := late_le S s'
  rw [turnRank, turnRank]
  omega

/-- A client that is not inside waits for its own turn only. -/
theorem Brings.of_outside (hout : ¬Inside i s) (hloc : s'.loc (.client i) = s.loc (.client i))
    (ht : t ≠ .client i) : Brings S i s s' t := by
  have hout' : ¬Inside i s' := by
    rw [Inside, hloc]
    exact hout
  refine Or.inr ⟨?_, ?_, fun u hu => ?_⟩
  · rw [stayRank, stayRank, hloc, if_neg hout, if_neg hout']
  · rw [Helps, if_neg hout]
    exact ht
  · rw [Helps, if_neg hout] at hu
    rw [Helps, if_neg hout']
    exact hu

/-- The client is brought on when its turn comes nearer. -/
theorem Brings.of_turnRank_lt (hin : Inside i s)
    (hloc : s'.loc (.client i) = s.loc (.client i)) (hlt : turnRank S i s' < turnRank S i s) :
    Brings S i s s' t := by
  have hin' : Inside i s' := by
    rw [Inside, hloc]
    exact hin
  refine Or.inl ?_
  rw [stayRank, stayRank, hloc, if_pos hin, if_pos hin']
  omega

/-- A step that leaves the status, the call and the turn alone, of a process that does not
help. -/
theorem Brings.of_same (hin : Inside i s) (hloc : s'.loc (.client i) = s.loc (.client i))
    (hstatus : s'.mem.status = s.mem.status) (hcurr : s'.mem.currClient = s.mem.currClient)
    (hrank : turnRank S i s' = turnRank S i s) (hno : ¬Helps S i s t) : Brings S i s s' t := by
  have hin' : Inside i s' := by
    rw [Inside, hloc]
    exact hin
  refine Or.inr ⟨?_, hno, fun u hu => ?_⟩
  · rw [stayRank, stayRank, hloc, if_pos hin, if_pos hin', hrank]
  · rw [Helps, if_pos hin] at hu
    rw [Helps, if_pos hin', hstatus, hcurr]
    exact hu

/-- A client inside is in the queue or called. -/
theorem Inside.place (hin : Inside i s) (hno : ¬Astray (S.shaves i) s.mem (S.pid i))
    (hk : Knows (S.pid i) (S.shaves i) s.mem (s.loc (.client i))) :
    S.pid i ∈ queue s.mem ∨ Called s.mem (S.pid i) := by
  unfold Knows at hk
  rcases hin with hpc | hpc
  · simp only [hpc] at hk
    rcases hk.2.2.resolve_right hno with ⟨hmem, -⟩ | ⟨-, hst, hcurr⟩
    · exact Or.inl hmem
    · exact Or.inr ⟨Or.inl hst, hcurr⟩
  · simp only [hpc] at hk
    exact Or.inr hk.2.2.called

/-! ### The barber -/

variable [DecidableEq ι]

theorem barber_brings (hi : S.Counts i) (hI : ShopInv S s.mem)
    (hk : Knows (S.pid i) (S.shaves i) s.mem (s.loc (.client i))) :
    Brings S i s ⟨barberSection s.mem, Function.update s.loc .barber ()⟩ .barber := by
  have hother : Who.client i ≠ Who.barber := by simp
  have hloc : Function.update s.loc .barber () (.client i) = s.loc (.client i) :=
    Function.update_of_ne hother _ _
  by_cases hin : Inside i s
  · have hplace := hin.place (hi.not_astray hI.toSound) hk
    have hdoes := barberDoes hI
    generalize barberSection s.mem = b' at hdoes ⊢
    cases hdoes with
    | invite hst hne =>
      have hno : ¬Called s.mem (S.pid i) := by
        rintro ⟨hcalled, -⟩
        rcases hst with hst | hst
        · -- the client at the head is invited, so everyone in line is a place nearer
          simp [hst] at hcalled
        · simp [hst] at hcalled
      have hspot := spot_inviteClient hI.toSound (hplace.resolve_right hno)
      obtain ⟨-, -, -, -, -, hst', -⟩ := hI.toSound.inviteClient hne
      refine .of_turnRank_lt hin hloc (turnRank_lt ?_)
      simp only [hst', phase]
      omega
    | shave hst =>
      refine .of_turnRank_lt hin hloc (turnRank_lt ?_)
      have hspot : spot (shave s.mem) (S.pid i) = spot s.mem (S.pid i) := rfl
      have hst' : (shave s.mem).status = .endShaving := rfl
      rw [hspot, hst, hst']
      exact Nat.add_lt_add_left (by decide) _
    | sleep hst hnil =>
      -- someone in line or called would keep the barber from sleeping
      rcases hplace with hmem | ⟨hcalled, -⟩
      · exact absurd hmem (by simp [hnil])
      · simp [hst] at hcalled
    | idle hst =>
      have hsame : (⟨s.mem, Function.update s.loc .barber ()⟩ : Global Barbershop (Local ι)) = s :=
        Global.ext rfl (Function.update_eq_self _ _)
      rw [hsame]
      -- it is not the barber's turn to bring the client nearer
      refine .of_same hin rfl rfl rfl rfl ?_
      rw [Helps, if_pos hin]
      rcases hst with hst | hst | hst
      · simp [hst]
      · simp [hst]
      · simp [hst]
  · exact .of_outside hin hloc hother.symm

/-! ### Another client -/

variable {j : ι} {b : Barbershop} {c : Client}

/-- The barber waits for `p` to sit down or to get up. -/
def Asked (b : Barbershop) (p : Pid) : Prop :=
  (b.status = .inviting ∨ b.status = .endShaving) ∧ b.currClient = p

theorem Asked.called {p : Pid} (h : Asked b p) : Called b p := ⟨h.1.imp_right Or.inr, h.2⟩

omit [DecidableEq ι] in
/-- Of the clients only the one that is asked helps a client inside. -/
theorem not_helps (hin : Inside i s) (hno : ¬Asked s.mem (S.pid j)) :
    ¬Helps S i s (.client j) := by
  rw [Helps, if_pos hin]
  cases hst : s.mem.status with
  | sleeping => exact id
  | wokenUp => simp
  | startShaving => simp
  | free => simp
  | inviting =>
    rintro ⟨k, heq, hcurr⟩
    obtain rfl := Who.client.inj heq
    exact hno ⟨Or.inl hst, hcurr.symm⟩
  | endShaving =>
    rintro ⟨k, heq, hcurr⟩
    obtain rfl := Who.client.inj heq
    exact hno ⟨Or.inr hst, hcurr.symm⟩

theorem late_update (hstatus : b.status = s.mem.status) (hcurr : b.currClient = s.mem.currClient)
    (hno : ¬Asked s.mem (S.pid j)) :
    late S (⟨b, Function.update s.loc (.client j) c⟩ : Global Barbershop (Local ι)) =
      late S s := by
  refine late_congr ?_
  rw [Late, Late, hstatus, hcurr]
  refine and_congr_right fun hinviting => exists_congr fun k => and_congr_right fun hk => ?_
  have hkj : Who.client k ≠ Who.client j := by
    intro heq
    obtain rfl := Who.client.inj heq
    exact hno ⟨Or.inl hinviting, hk.symm⟩
  show (Function.update s.loc (.client j) c (.client k)).pc = _ ↔ _
  rw [Function.update_of_ne hkj]

/-- A step of a client that is not asked, which leaves the others where they are. -/
theorem Brings.of_not_asked (hin : Inside i s) (hji : j ≠ i)
    (hstatus : b.status = s.mem.status) (hcurr : b.currClient = s.mem.currClient)
    (hspot : spot b (S.pid i) = spot s.mem (S.pid i)) (hno : ¬Asked s.mem (S.pid j)) :
    Brings S i s ⟨b, Function.update s.loc (.client j) c⟩ (.client j) := by
  have hother : Who.client i ≠ Who.client j := fun heq => hji (Who.client.inj heq).symm
  refine .of_same hin (Function.update_of_ne hother _ _) hstatus hcurr ?_ (not_helps hin hno)
  rw [turnRank, turnRank, late_update hstatus hcurr hno, hspot, hstatus]

/-- The client that is asked has passed the section at the start of its round. -/
theorem late_update_waiting (hcurr : s.mem.currClient = S.pid j) (hpc : c.pc = .waiting) :
    late S (⟨s.mem, Function.update s.loc (.client j) c⟩ : Global Barbershop (Local ι)) = 0 := by
  refine if_neg ?_
  rintro ⟨-, k, hk, harriving⟩
  obtain rfl : k = j := S.pid_injective (hk.trans hcurr)
  have hself : (Function.update s.loc (.client k) c (.client k)).pc = .arriving := harriving
  rw [Function.update_self, hpc] at hself
  cases hself

omit [DecidableEq ι] in
/-- A client that is asked does not poll in vain. -/
theorem PollsInVain.not_asked {me : Pid} {shaves : ℤ} (hpoll : PollsInVain me b c)
    (hk : Knows me shaves b c) : ¬Asked b me := by
  unfold Knows at hk
  rintro hasked
  rcases hpoll with ⟨hpc, hno⟩ | ⟨hpc, hno⟩
  · simp only [hpc] at hk
    rcases hk.2.2 with (⟨-, hnot⟩ | ⟨-, hinviting, -⟩) | hastray
    · exact hnot hasked.called
    · exact hno ⟨hinviting, hasked.2.symm⟩
    · exact hastray.2.2.2 hasked.called
  · simp only [hpc] at hk
    obtain ⟨-, -, -, hstart | hend, -⟩ := hk
    · obtain ⟨hst | hst, -⟩ := hasked
      · simp [hstart] at hst
      · simp [hstart] at hst
    · exact hno ⟨hend, hasked.2.symm⟩

theorem other_brings (hi : S.Counts i) (hji : j ≠ i) (hI : ShopInv S s.mem)
    (hki : Knows (S.pid i) (S.shaves i) s.mem (s.loc (.client i)))
    (hkj : Knows (S.pid j) (S.shaves j) s.mem (s.loc (.client j)))
    (hstep : clientStep (S.pid j) (S.shaves j) s.mem (s.loc (.client j)) = some (b, c)) :
    Brings S i s ⟨b, Function.update s.loc (.client j) c⟩ (.client j) := by
  have hother : Who.client i ≠ Who.client j := fun heq => hji (Who.client.inj heq).symm
  have hloc : Function.update s.loc (.client j) c (.client i) = s.loc (.client i) :=
    Function.update_of_ne hother _ _
  by_cases hin : Inside i s
  · have hplace := hin.place (hi.not_astray hI.toSound) hki
    have hpid : S.pid i ≠ S.pid j := fun heq => hji (S.pid_injective heq).symm
    have hdoes := clientDoes hI (S.shaves_le j) hkj hstep
    unfold Knows at hkj
    cases hdoes with
    | enter hpc hle =>
      simp only [hpc] at hkj
      exact .of_not_asked hin hji rfl rfl rfl fun hasked => hkj.2 hasked.called
    | decline hpc hlt =>
      simp only [hpc] at hkj
      exact .of_not_asked hin hji rfl rfl rfl fun hasked => hkj.2 hasked.called
    | turnAway hpc hfirst hcs hfull =>
      simp only [hpc, hfirst, Bool.true_eq_false, false_and, or_false] at hkj
      exact .of_not_asked hin hji rfl rfl rfl fun hasked => hkj.2.2.2.2 hasked.called
    | wake hpc hfirst hcs hfull hst =>
      rcases hplace with hmem | ⟨hcalled, -⟩
      · exact absurd hmem (by simp [hI.sleeping hst])
      · simp [hst] at hcalled
    -- a new client goes behind
    | join hpc hfirst hcs hfull hst =>
      simp only [hpc, hfirst, Bool.true_eq_false, false_and, or_false] at hkj
      exact .of_not_asked hin hji (enqueue_status _ _) (enqueue_currClient _ _)
        (spot_enqueue hI.toSound hfull hpid) fun hasked => hkj.2.2.2.2 hasked.called
    | goOn hpc hfirst hcs hst =>
      by_cases hasked : Asked s.mem (S.pid j)
      · simp only [hpc, hfirst, Bool.false_eq_true, false_and, false_or] at hkj
        rcases hkj.2.2.2 with (⟨-, hnot⟩ | ⟨-, hinviting, hcurr⟩) | hastray
        · exact absurd hasked.called hnot
        · -- the invited client was behind, and now waits for its invitation
          have hlate : late S s = 1 := if_pos ⟨hinviting, j, hcurr.symm, hpc⟩
          refine .of_turnRank_lt hin hloc ?_
          rw [turnRank, turnRank, hlate, late_update_waiting hcurr rfl]
          exact Nat.lt_succ_self _
        · exact absurd hasked.called hastray.2.2.2
      · exact .of_not_asked hin hji rfl rfl rfl hasked
    | poll hpc =>
      have hsame : (⟨s.mem, Function.update s.loc (.client j) (s.loc (.client j))⟩ :
          Global Barbershop (Local ι)) = s := Global.ext rfl (Function.update_eq_self _ _)
      -- polling changes nothing
      rw [hsame]
      exact .of_same hin rfl rfl rfl rfl (not_helps hin (PollsInVain.not_asked hpc hkj))
    | sit hpc hst hme =>
      have hphase : phase .startShaving < phase .inviting := by decide
      refine .of_turnRank_lt hin hloc (turnRank_lt ?_)
      rw [hst]
      exact Nat.add_lt_add_left hphase _
    | rewake hpc hfirst hcs hfull hst hastray =>
      rcases hplace with hmem | ⟨hcalled, -⟩
      · exact absurd hmem (by simp [hI.sleeping hst])
      · simp [hst] at hcalled
    -- the client that enqueues again goes behind, and the chair is free
    | rejoin hpc hst hme hlt hmore hfull =>
      have hspot := spot_enqueue (hI.toSound.withStatus .free) hfull hpid
      refine .of_turnRank_lt hin hloc (turnRank_lt ?_)
      simp only [enqueue_status]
      rw [hspot, hst]
      exact Nat.add_lt_add_left (by decide) _
    | turnOut hpc hst hme hlt hfull =>
      have hphase : phase .free < phase .endShaving := by decide
      refine .of_turnRank_lt hin hloc (turnRank_lt ?_)
      rw [hst]
      exact Nat.add_lt_add_left hphase _
    | finish hpc hst hme heq hlast | restart hpc hst hme heq hmax =>
      have hphase : phase .free < phase .endShaving := by decide
      refine .of_turnRank_lt hin hloc (turnRank_lt ?_)
      rw [hst]
      exact Nat.add_lt_add_left hphase _
  · exact .of_outside hin hloc hother.symm

/-! ### The client itself -/

theorem self_brings (hi : S.Counts i) (hI : ShopInv S s.mem)
    (hk : Knows (S.pid i) (S.shaves i) s.mem (s.loc (.client i))) (hb : Sound S b)
    (hstep : clientStep (S.pid i) (S.shaves i) s.mem (s.loc (.client i)) = some (b, c)) :
    Brings S i s ⟨b, Function.update s.loc (.client i) c⟩ (.client i) := by
  rcases (clientDoes hI (S.shaves_le i) hk hstep).poll_or_lt hi hI with ⟨rfl, rfl, hpoll⟩ | hlt
  · have hin : Inside i s := by
      rcases hpoll with ⟨hpc, -⟩ | ⟨hpc, -⟩
      · exact Or.inl hpc
      · exact Or.inr hpc
    have hsame : (⟨s.mem, Function.update s.loc (.client i) (s.loc (.client i))⟩ :
        Global Barbershop (Local ι)) = s := Global.ext rfl (Function.update_eq_self _ _)
    rw [hsame]
    exact .of_same hin rfl rfl rfl rfl (not_helps hin (hpoll.not_asked hk))
  · -- a section passed outweighs whatever the client may wait for in the next one
    have hturn := turnRank_le (s := ⟨b, Function.update s.loc (.client i) c⟩) hb i
    have hself : Function.update s.loc (.client i) c (.client i) = c := Function.update_self _ _ _
    refine Or.inl ?_
    simp only [stayRank, hself]
    split <;> split <;> omega

end Steps

/-! ### Every client leaves -/

section Leaves

variable {ι : Type*} [DecidableEq ι] {S : Setup ι} {i : ι} {s s' : Global Barbershop (Local ι)}

/-- The client `i` has left the shop. -/
def HasLeft (i : ι) (s : Global Barbershop (Local ι)) : Prop :=
  ∃ how, (s.loc (.client i)).pc = .left how

/-- A step of any process of a reachable state. -/
theorem brings_of_step {t : Who ι} (hi : S.Counts i) (hs : S.program.Reach S.start s)
    (hnext : S.program.next t s = some s') : Brings S i s s' t := by
  obtain ⟨hI, hA⟩ := S.knows_of_reach hs
  obtain ⟨hI', -⟩ := S.knows_of_reach (hs.tail ⟨t, hnext⟩)
  obtain ⟨b, l, hstep, rfl⟩ := S.program.next_eq_some hnext
  cases t with
  | barber =>
    obtain ⟨rfl, rfl⟩ := Prod.mk.inj (Option.some.inj hstep)
    exact barber_brings hi hI (hA i)
  | client j =>
    by_cases hji : j = i
    · subst hji
      exact self_brings hi hI (hA j) hI'.toSound hstep
    · exact other_brings hi hji hI (hA i) (hA j) hstep

/-- Somebody helps a client that has not left. -/
theorem exists_helps (hi : S.Counts i) (hs : S.program.Reach S.start s) : ∃ t, Helps S i s t := by
  obtain ⟨hI, hA⟩ := S.knows_of_reach hs
  by_cases hin : Inside i s
  · simp only [Helps, if_pos hin]
    cases hst : s.mem.status with
    | wokenUp => exact ⟨.barber, rfl⟩
    | startShaving => exact ⟨.barber, rfl⟩
    | free => exact ⟨.barber, rfl⟩
    | inviting =>
      obtain ⟨-, j, hj⟩ := hI.called s.mem.currClient ⟨Or.inl hst, rfl⟩
      exact ⟨.client j, j, rfl, hj⟩
    | endShaving =>
      obtain ⟨-, j, hj⟩ := hI.called s.mem.currClient ⟨Or.inr (Or.inr hst), rfl⟩
      exact ⟨.client j, j, rfl, hj⟩
    | sleeping =>
      rcases hin.place (hi.not_astray hI.toSound) (hA i) with hmem | ⟨hcalled, -⟩
      · exact absurd hmem (by simp [hI.sleeping hst])
      · simp [hst] at hcalled
  · exact ⟨.client i, by rw [Helps, if_neg hin]⟩

/-- A process that helps has a step. -/
theorem next_of_helps {t : Who ι} (hs : S.program.Reach S.start s)
    (hstay : ¬HasLeft i s) (hhelps : Helps S i s t) :
    ∃ s', S.program.next t s = some s' := by
  obtain ⟨hI, hA⟩ := S.knows_of_reach hs
  cases t with
  | barber => exact ⟨_, rfl⟩
  | client j =>
    have hj : ∀ how, (s.loc (.client j)).pc ≠ .left how := by
      intro how hpc
      by_cases hin : Inside i s
      · have hasked : Asked s.mem (S.pid j) := by
          by_contra hno
          exact not_helps hin hno hhelps
        have hk := hA j
        unfold Knows at hk
        simp only [hpc] at hk
        exact hk.2 hasked.called
      · rw [Helps, if_neg hin] at hhelps
        obtain rfl := Who.client.inj hhelps
        exact hstay ⟨how, hpc⟩
    obtain ⟨b, c, hstep⟩ : ∃ b c,
        clientStep (S.pid j) (S.shaves j) s.mem (s.loc (.client j)) = some (b, c) := by
      unfold clientStep
      cases hpc : (s.loc (.client j)).pc with
      | left how => exact absurd hpc (hj how)
      | _ => exact ⟨_, _, rfl⟩
    exact ⟨⟨b, Function.update s.loc (.client j) c⟩, by simp [Program.next, Setup.program, hstep]⟩

/-- **No client starves**: under a fair schedule every client whose counter does not wrap
around leaves, however many others there are and whatever they ask for. -/
theorem leaves (S : Setup ι) (sched : ℕ → Who ι) (hfair : Program.Fair sched) (i : ι)
    (hi : S.seats ≤ 0 ∨ S.shaves i < intMax) :
    ∃ n how, ((S.program.trace sched S.start n).loc (.client i)).pc = .left how := by
  have hreach : S.program.Reach S.start (S.program.trace sched S.start 0) := .refl _
  have hleft : ∃ n, 0 ≤ n ∧ HasLeft i (S.program.trace sched S.start n) :=
    hfair.leads_to (stayRank S i) (Helps S i) (fun s hs _ => exists_helps hi hs)
      (fun t s hs hstay => next_of_helps hs hstay)
      (fun t s s' hs _ hnext => Or.inr ⟨hs.tail ⟨t, hnext⟩, brings_of_step hi hs hnext⟩) hreach
  obtain ⟨n, -, hgood⟩ := hleft
  exact ⟨n, hgood⟩

/-- A shop with one chair and no end of clients, which ask for two shaves each. -/
def endless : Setup ℕ where
  seats := 1
  seats_le := one_le_maxClients
  pid i := i + 1
  pid_pos i := Int.lt_add_one_of_le (Int.natCast_nonneg i)
  pid_injective i j h := by simpa using h
  shaves _ := 2
  shaves_le _ := by decide
  found := ⟨.sleeping, 0, 0, 0, Vector.replicate maxClients 0⟩

/-- Everybody's turn comes again and again. -/
def byTurns (n : ℕ) : Who ℕ :=
  match n.unpair.1 with
  | 0 => .barber
  | i + 1 => .client i

theorem fair_byTurns : Program.Fair byTurns := by
  intro t n
  cases t with
  | barber => exact ⟨Nat.pair 0 n, Nat.right_le_pair 0 n, by simp [byTurns]⟩
  | client i => exact ⟨Nat.pair (i + 1) n, Nat.right_le_pair _ n, by simp [byTurns]⟩

theorem leaves_endless : ∃ n how,
    ((endless.program.trace byTurns endless.start n).loc (.client 7)).pc = .left how :=
  leaves endless byTurns fair_byTurns 7 (Or.inr (by decide))

end Leaves

end Barber
end OpSys
