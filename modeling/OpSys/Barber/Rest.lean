import OpSys.Lib.Progress
import OpSys.Barber.Invariant
import Mathlib.Algebra.BigOperators.Fin
import Mathlib.Algebra.Order.BigOperators.Group.Finset

/-!
# The barbershop comes to rest

Both sides only poll the shared status, so what has to be shown is that no status
is missed: in every reachable state with a client left, or with the barber awake,
somebody has a step that changes the state.  A rank that counts the sections each
client still has to pass, the queue and the status bounds the number of such
steps.  All of this is about shops in which no counter wraps around.

## Main definitions

* `AtRest` — all clients have left and the barber sleeps.
* `ComesToRest` — every maximal run of moves is finite and ends at rest.
* `rank` — the bound on the moves to come.

## Main results

* `rank_lt_of_move` — every move lowers the rank.
* `exists_move` — a reachable state that is not at rest has a move.
* `comesToRest_of_counts` — the shop comes to rest.
-/

namespace OpSys
namespace Barber

open Records

variable {ι : Type*}

/-- All clients have left and the barber sleeps. -/
def AtRest (s : Global Barbershop (Local ι)) : Prop :=
  (∀ i, ∃ how, (s.loc (.client i)).pc = .left how) ∧ s.mem.status = .sleeping

/-- **The barbershop comes to rest.**  A reachable state is at rest or has a move;
with finitely many clients no run of moves is infinite; and a run of moves that
cannot be continued ends at rest. -/
structure ComesToRest [DecidableEq ι] (S : Setup ι) : Prop where
  progress : ∀ s, S.program.Reach S.start s → AtRest s ∨ ∃ s', S.program.Move s s'
  finite : Finite ι → ¬ ∃ r : ℕ → Global Barbershop (Local ι),
    S.program.Reach S.start (r 0) ∧ ∀ n, S.program.Move (r n) (r (n + 1))
  ends : ∀ s s', S.program.Reach S.start s → Relation.ReflTransGen S.program.Move s s' →
    (∀ s'', ¬ S.program.Move s' s'') → AtRest s'

/-! ### The rank -/

/-- Four times the sections a client has still to pass, its polls not counted. -/
def clientRank (shaves : ℤ) (c : Client) : ℕ :=
  match c.pc with
  | .outside => 4 * (3 * shaves.toNat + 1)
  | .arriving => 4 * (3 * (shaves - c.currShave).toNat + 3)
  | .waiting => 4 * (3 * (shaves - c.currShave).toNat + 2)
  | .inChair => 4 * (3 * (shaves - c.currShave).toNat + 1)
  | .left _ => 0

/-- Whether the barber has something to do. -/
def statusRank : BarberStatus → ℕ
  | .wokenUp => 1
  | .startShaving => 1
  | .free => 1
  | _ => 0

/-- The part of the shared record in the rank. -/
def shopRank (b : Barbershop) : ℕ := 2 * (queue b).length + statusRank b.status

theorem statusRank_le (st : BarberStatus) : statusRank st ≤ 1 := by cases st <;> decide

/-- A client polls in vain. -/
def PollsInVain (me : Pid) (b : Barbershop) (c : Client) : Prop :=
  c.pc = .waiting ∧ ¬ (b.status = .inviting ∧ me = b.currClient) ∨
    c.pc = .inChair ∧ ¬ (b.status = .endShaving ∧ me = b.currClient)

section Steps

variable {S : Setup ι} {b : Barbershop}

/-- A client's step is a poll in vain or takes it past a section. -/
theorem ClientDoes.poll_or_lt {i : ι} (hi : S.Counts i) (hI : ShopInv S b) {b' : Barbershop}
    {c c' : Client} (h : ClientDoes (S.pid i) (S.shaves i) b c b' c') :
    (b' = b ∧ c' = c ∧ PollsInVain (S.pid i) b c) ∨
      clientRank (S.shaves i) c' + 4 ≤ clientRank (S.shaves i) c := by
  -- a client in the chair has kept the barber awake
  have hne : b.status = .endShaving → S.shaves i ≠ intMax := fun hst =>
    hi.shaves_ne hI.toSound (hI.awake (by simp [hst]))
  cases h with
  | poll hpc => exact Or.inl ⟨rfl, rfl, hpc⟩
  | enter hpc hle => right; simp only [clientRank, hpc]; omega
  | decline hpc hlt => right; simp only [clientRank, hpc]; omega
  | turnAway hpc => right; simp only [clientRank, hpc]; omega
  | wake hpc => right; simp only [clientRank, hpc]; omega
  | join hpc => right; simp only [clientRank, hpc]; omega
  | goOn hpc => right; simp only [clientRank, hpc]; omega
  | rewake hpc => right; simp only [clientRank, hpc]; omega
  | sit hpc => right; simp only [clientRank, hpc]; omega
  | rejoin hpc hst hme hlt hmore =>
    right
    have hle : c.currShave + 1 ≤ S.shaves i := hmore.2.resolve_right (hne hst)
    simp only [clientRank, hpc]
    omega
  | turnOut hpc => right; simp only [clientRank, hpc]; omega
  | finish hpc => right; simp only [clientRank, hpc]; omega
  | restart hpc hst hme heq hmax => exact absurd hmax (hne hst)

theorem length_queue_enqueue (h : Sound S b) (p : Pid) :
    (queue (enqueue p b)).length ≤ (queue b).length + 1 := by
  cases hfull : qFull b with
  | true => simp [enqueue, hfull]
  | false => simp [h.queue_enqueue hfull]

/-- A client's step adds at most one id to the queue. -/
theorem ClientDoes.shopRank_le (hI : Sound S b) {me : Pid} {shaves : ℤ} {b' : Barbershop}
    {c c' : Client} (h : ClientDoes me shaves b c b' c') : shopRank b' ≤ shopRank b + 3 := by
  have hstatus := statusRank_le b'.status
  have hlen : (queue b').length ≤ (queue b).length + 1 := by
    cases h with
    | wake => exact length_queue_enqueue (hI.withStatus _) me
    | join => exact length_queue_enqueue hI me
    | rewake => exact length_queue_enqueue (hI.withStatus _) me
    | rejoin => exact length_queue_enqueue (hI.withStatus _) me
    | _ => exact Nat.le_succ _
  unfold shopRank
  omega

/-- The barber's section does nothing or lowers the rank of the record. -/
theorem barber_idle_or_lt (h : ShopInv S b) :
    (barberSection b = b ∧
      (b.status = .sleeping ∨ b.status = .inviting ∨ b.status = .endShaving)) ∨
      shopRank (barberSection b) < shopRank b := by
  have hdoes := barberDoes h
  generalize barberSection b = b' at hdoes ⊢
  cases hdoes with
  | idle hst => exact Or.inl ⟨rfl, hst⟩
  | invite hst hne =>
    obtain ⟨p, rest, hq, hq', -, hst', -⟩ := h.toSound.inviteClient hne
    right
    simp only [shopRank, hq, hq', hst', List.length_cons, statusRank]
    omega
  | shave hst =>
    right
    show 2 * (queue b).length + 0 < 2 * (queue b).length + statusRank b.status
    rw [hst]
    exact Nat.lt_succ_self _
  | sleep hst hnil =>
    right
    show 2 * (queue b).length + 0 < 2 * (queue b).length + statusRank b.status
    rw [hst]
    exact Nat.lt_succ_self _

end Steps

/-- A bound on the moves to come. -/
def rank [Fintype ι] (S : Setup ι) (s : Global Barbershop (Local ι)) : ℕ :=
  (∑ i, clientRank (S.shaves i) (s.loc (.client i))) + shopRank s.mem

section Moves

variable [DecidableEq ι] {S : Setup ι} {s : Global Barbershop (Local ι)}

/-- **Every move of a reachable state lowers the rank.** -/
theorem rank_lt_of_move [Fintype ι] (hS : ∀ i, S.Counts i) (hs : S.program.Reach S.start s)
    {s' : Global Barbershop (Local ι)} (hmove : S.program.Move s s') : rank S s' < rank S s := by
  obtain ⟨⟨t, hnext⟩, hne⟩ := hmove
  obtain ⟨hI, hA⟩ := S.knows_of_reach hs
  obtain ⟨b, l, hstep, rfl⟩ := S.program.next_eq_some hnext
  cases t with
  | barber =>
    obtain ⟨rfl, rfl⟩ := Prod.mk.inj (Option.some.inj hstep)
    -- a barber that idles does not move
    rcases barber_idle_or_lt hI with ⟨hidle, -⟩ | hlt
    · refine absurd ?_ hne
      ext1
      · exact hidle
      · exact Function.update_eq_self _ _
    · simpa [rank] using hlt
  | client i =>
    have hdoes := clientDoes hI (S.shaves_le i) (hA i) hstep
    -- nor does a client that polls
    rcases hdoes.poll_or_lt (hS i) hI with ⟨rfl, rfl, -⟩ | hlt
    · refine absurd ?_ hne
      ext1
      · rfl
      · exact Function.update_eq_self _ _
    · have hshop := hdoes.shopRank_le hI.toSound
      let f : ι → ℕ := fun j => clientRank (S.shaves j) (s.loc (.client j))
      let f' : ι → ℕ := fun j =>
        clientRank (S.shaves j) (Function.update s.loc (.client i) l (.client j))
      have hsame : ∀ j ∈ Finset.univ.erase i, f' j = f j := by
        intro j hj
        have hij : Who.client j ≠ Who.client i := by
          simpa using Finset.ne_of_mem_erase hj
        simp only [f, f', Function.update_of_ne hij]
      have hi : f' i = clientRank (S.shaves i) l := by simp only [f', Function.update_self]
      -- a client's own rank falls by more than that of the shop can rise
      have hsum : ∑ j, f' j + 4 ≤ ∑ j, f j := by
        have hf' := Finset.add_sum_erase _ f' (Finset.mem_univ i)
        have hf := Finset.add_sum_erase _ f (Finset.mem_univ i)
        have hrest : ∑ j ∈ Finset.univ.erase i, f' j = ∑ j ∈ Finset.univ.erase i, f j :=
          Finset.sum_congr rfl hsame
        rw [hrest, hi] at hf'
        have hfi : clientRank (S.shaves i) l + 4 ≤ f i := hlt
        omega
      show (∑ j, f' j) + shopRank b < (∑ j, f j) + shopRank s.mem
      omega

/-- A section of the barber that has something to do is a move. -/
theorem barber_move (hI : ShopInv S s.mem)
    (hst : s.mem.status = .wokenUp ∨ s.mem.status = .startShaving ∨ s.mem.status = .free) :
    ∃ s', S.program.Move s s' := by
  refine ⟨_, ⟨.barber, rfl⟩, fun heq => ?_⟩
  have hmem : barberSection s.mem = s.mem := congrArg Global.mem heq
  rcases barber_idle_or_lt hI with ⟨-, hidle⟩ | hlt
  · rcases hst with hst | hst | hst <;> simp [hst] at hidle
  · rw [hmem] at hlt
    exact absurd hlt (lt_irrefl _)

/-- A client that has not left and does not poll in vain has a move. -/
theorem client_move (hS : ∀ i, S.Counts i) (hI : ShopInv S s.mem) {i : ι}
    (hk : Knows (S.pid i) (S.shaves i) s.mem (s.loc (.client i)))
    (hleft : ∀ how, (s.loc (.client i)).pc ≠ .left how)
    (hpoll : ¬ PollsInVain (S.pid i) s.mem (s.loc (.client i))) :
    ∃ s', S.program.Move s s' := by
  obtain ⟨b, c, hstep⟩ : ∃ b c,
      clientStep (S.pid i) (S.shaves i) s.mem (s.loc (.client i)) = some (b, c) := by
    unfold clientStep
    cases hpc : (s.loc (.client i)).pc with
    | left how => exact absurd hpc (hleft how)
    | _ => exact ⟨_, _, rfl⟩
  refine ⟨⟨b, Function.update s.loc (.client i) c⟩, ⟨.client i, ?_⟩, fun heq => ?_⟩
  · simp [Program.next, Setup.program, hstep]
  · have hc : c = s.loc (.client i) := by rw [← heq]; simp
    rcases (clientDoes hI (S.shaves_le i) hk hstep).poll_or_lt (hS i) hI with ⟨-, -, h⟩ | hlt
    · exact hpoll h
    · rw [hc] at hlt
      omega

/-- The client the barber is waiting for answers. -/
theorem called_move (hS : ∀ i, S.Counts i) (hI : ShopInv S s.mem) {i : ι}
    (hk : Knows (S.pid i) (S.shaves i) s.mem (s.loc (.client i)))
    (hcurr : s.mem.currClient = S.pid i)
    (hst : s.mem.status = .inviting ∨ s.mem.status = .endShaving) :
    ∃ s', S.program.Move s s' := by
  have hcalled : Called s.mem (S.pid i) := ⟨hst.imp_right Or.inr, hcurr⟩
  refine client_move hS hI hk (fun how hpc => ?_) ?_
  · unfold Knows at hk
    simp only [hpc] at hk
    exact hk.2 hcalled
  · unfold Knows at hk
    rintro (⟨hpc, hno⟩ | ⟨hpc, hno⟩)
    · simp only [hpc] at hk
      rcases hk.2.2 with (⟨-, h⟩ | ⟨-, h, -⟩) | hastray
      · exact h hcalled
      · exact hno ⟨h, hcurr.symm⟩
      · exact hastray.2.2.2 hcalled
    · simp only [hpc] at hk
      refine hno ⟨?_, hcurr.symm⟩
      rcases hk.2.2.2.1 with h | h
      · rcases hst with h' | h' <;> simp [h] at h'
      · exact h

/-- **No status is missed**: a reachable state that is not at rest has a move. -/
theorem exists_move (hS : ∀ i, S.Counts i) (hs : S.program.Reach S.start s) (hrest : ¬ AtRest s) :
    ∃ s', S.program.Move s s' := by
  obtain ⟨hI, hA⟩ := S.knows_of_reach hs
  cases hst : s.mem.status with
  | wokenUp => exact barber_move hI (Or.inl hst)
  | startShaving => exact barber_move hI (Or.inr (Or.inl hst))
  | free => exact barber_move hI (Or.inr (Or.inr hst))
  | inviting =>
    obtain ⟨-, i, hi⟩ := hI.called s.mem.currClient ⟨Or.inl hst, rfl⟩
    exact called_move hS hI (hA i) hi.symm (Or.inl hst)
  | endShaving =>
    obtain ⟨-, i, hi⟩ := hI.called s.mem.currClient ⟨Or.inr (Or.inr hst), rfl⟩
    exact called_move hS hI (hA i) hi.symm (Or.inr hst)
  | sleeping =>
    -- the barber sleeps, so every client that has not left is about to arrive
    obtain ⟨i, hi⟩ : ∃ i, ∀ how, (s.loc (.client i)).pc ≠ .left how := by
      by_contra hall
      push Not at hall
      exact hrest ⟨hall, hst⟩
    apply client_move hS hI (hA i) hi
    have hk := hA i
    unfold Knows at hk
    rintro (⟨hpc, -⟩ | ⟨hpc, -⟩)
    · simp only [hpc] at hk
      exact (hk.2.2.resolve_right ((hS i).not_astray hI.toSound)).not_sleeping hI hst
    · simp only [hpc] at hk
      rcases hk.2.2.2.1 with h | h <;> simp [hst] at h

end Moves

/-- The shop comes to rest where no counter wraps around. -/
theorem comesToRest_of_counts [DecidableEq ι] {S : Setup ι} (hS : ∀ i, S.Counts i) :
    ComesToRest S := by
  refine ⟨fun s hs => ?_, fun hfin => ?_, fun s s' hs hrun hmax => ?_⟩
  · by_cases hrest : AtRest s
    · exact Or.inl hrest
    · exact Or.inr (exists_move hS hs hrest)
  · obtain ⟨_⟩ := nonempty_fintype ι
    exact Program.not_infinite_moves (rank S) fun s s' hs hmove => rank_lt_of_move hS hs hmove
  · by_contra hrest
    obtain ⟨s'', hmove⟩ := exists_move hS (hs.of_moves hrun) hrest
    exact hmax s'' hmove

end Barber
end OpSys
