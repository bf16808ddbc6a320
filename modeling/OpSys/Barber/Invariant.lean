import OpSys.Barber.Program
import Mathlib.Data.List.Nodup
import Mathlib.Data.Int.Order.Basic

/-!
# The invariant of the barbershop

Relative to the shared record a client is in one of three places: away from it,
standing in the queue or called from it, or seated in the chair.  What a client
knows is which of these places goes with its program counter, and a step of any
other process leaves it there: the barber may call a client from the queue, but
takes none out of the shop.  A client whose `curr_shave` has wrapped around goes on
without a place, until it finds the barber asleep.

## Main definitions

* `Away`, `Awaits`, `Seated` — the places.
* `Astray` — a client that goes on without a place.
* `ShopInv` — the invariant of the shared record.
* `Knows` — what a client knows.
* `Setup.Counts` — the counter of a client does not wrap around.

## Main results

* `knows_of_reach` — the invariant holds in every reachable state.
* `Setup.Counts.not_astray` — a client whose counter does not wrap around does not go astray.
-/

namespace OpSys
namespace Barber

open Records

/-! ### Places -/

/-- The barber has called `p` and has not let it go yet. -/
def Called (b : Barbershop) (p : Pid) : Prop :=
  (b.status = .inviting ∨ b.status = .startShaving ∨ b.status = .endShaving) ∧ b.currClient = p

/-- `p` is neither queued nor called. -/
def Away (b : Barbershop) (p : Pid) : Prop := p ∉ queue b ∧ ¬ Called b p

/-- `p` is in the queue, or out of it and invited. -/
def Awaits (b : Barbershop) (p : Pid) : Prop :=
  (p ∈ queue b ∧ ¬ Called b p) ∨ (p ∉ queue b ∧ b.status = .inviting ∧ b.currClient = p)

/-- `p` is in the chair. -/
def Seated (b : Barbershop) (p : Pid) : Prop :=
  p ∉ queue b ∧ (b.status = .startShaving ∨ b.status = .endShaving) ∧ b.currClient = p

/-- `p` asks for `INT_MAX` shaves, and has gone on after the last without a place. -/
def Astray (shaves : ℤ) (b : Barbershop) (p : Pid) : Prop :=
  shaves = intMax ∧ 0 < b.waitingRoomSize ∧ Away b p

theorem Seated.called {b : Barbershop} {p : Pid} (h : Seated b p) : Called b p :=
  ⟨Or.inr h.2.1, h.2.2⟩

/-- Nobody but `mine` leaves its place between the records `b` and `b'`. -/
structure KeepsPlaces (mine : Option Pid) (b b' : Barbershop) : Prop where
  size : b'.waitingRoomSize = b.waitingRoomSize
  places : ∀ p, mine ≠ some p →
    (Away b p → Away b' p) ∧ (Awaits b p → Awaits b' p) ∧ (Seated b p → Seated b' p)

theorem KeepsPlaces.refl (mine : Option Pid) (b : Barbershop) : KeepsPlaces mine b b :=
  ⟨rfl, fun _ _ => ⟨id, id, id⟩⟩

theorem KeepsPlaces.trans {mine : Option Pid} {b b' b'' : Barbershop}
    (h : KeepsPlaces mine b b') (h' : KeepsPlaces mine b' b'') : KeepsPlaces mine b b'' := by
  refine ⟨h'.size.trans h.size, fun p hp => ?_⟩
  obtain ⟨haway, hawaits, hseated⟩ := h.places p hp
  obtain ⟨haway', hawaits', hseated'⟩ := h'.places p hp
  exact ⟨haway' ∘ haway, hawaits' ∘ hawaits, hseated' ∘ hseated⟩

/-- Only the status changes, in a way that matters to nobody but `mine`. -/
theorem KeepsPlaces.of_status {mine : Option Pid} {b b' : Barbershop}
    (hsize : b'.waitingRoomSize = b.waitingRoomSize)
    (hq : queue b' = queue b) (hcurr : b'.currClient = b.currClient)
    (hstatus : mine = some b.currClient ∨
      (b.status = .startShaving ∧ b'.status = .endShaving) ∨
      (b.status = .free ∧ b'.status = .sleeping)) : KeepsPlaces mine b b' := by
  refine ⟨hsize, fun p hp => ?_⟩
  simp only [Away, Awaits, Seated, Called, hq, hcurr]
  rcases hstatus with rfl | ⟨h, h'⟩ | ⟨h, h'⟩
  · have hne : b.currClient ≠ p := fun h => hp (by rw [h])
    simp [hne]
  · simp [h, h']
  · simp [h, h']

/-! ### The invariant -/

/-- What always holds of the queue. -/
structure Sound {ι : Type*} (S : Setup ι) (b : Barbershop) : Prop where
  size : b.waitingRoomSize = S.seats
  nonneg : 0 ≤ b.totalClients
  le : b.totalClients ≤ max S.seats 0
  nodup : (queue b).Nodup
  known : ∀ p ∈ queue b, ∃ i, S.pid i = p

/-- The invariant of the shared record. -/
structure ShopInv {ι : Type*} (S : Setup ι) (b : Barbershop) : Prop extends Sound S b where
  /-- The barber has been woken by a client that found a free chair. -/
  awake : b.status ≠ .sleeping → 0 < b.waitingRoomSize
  sleeping : b.status = .sleeping → queue b = []
  wokenUp : b.status = .wokenUp → queue b ≠ []
  called : ∀ p, Called b p → p ∉ queue b ∧ ∃ i, S.pid i = p

/-- The number of a round that the loop begins: a counter that does not stop in front
of `INT_MAX` goes on for ever. -/
def InLoop (shaves : ℤ) (c : Client) : Prop :=
  0 < c.currShave ∧ (c.currShave ≤ shaves ∨ shaves = intMax)

/-- What a client that has the process id `me` knows. -/
def Knows (me : Pid) (shaves : ℤ) (b : Barbershop) (c : Client) : Prop :=
  match c.pc with
  | .outside => Away b me
  | .arriving => InLoop shaves c ∧
      ((c.firstShave = true ∧ c.clientStatus = .waiting ∧ Away b me) ∨
        (c.firstShave = false ∧ c.clientStatus = .shaven ∧
          (Awaits b me ∨ Astray shaves b me)))
  | .waiting => InLoop shaves c ∧ c.clientStatus ≠ .invited ∧ (Awaits b me ∨ Astray shaves b me)
  | .inChair => InLoop shaves c ∧ c.clientStatus = .invited ∧ Seated b me
  | .left _ => Away b me

/-- What a client knows depends on its place only. -/
theorem Knows.frame {mine : Option Pid} {b b' : Barbershop} (h : KeepsPlaces mine b b')
    {me : Pid} (hme : mine ≠ some me) {shaves : ℤ} {c : Client} (hk : Knows me shaves b c) :
    Knows me shaves b' c := by
  obtain ⟨haway, hawaits, hseated⟩ := h.places me hme
  have hastray : Astray shaves b me → Astray shaves b' me := by
    rintro ⟨hmax, hpos, hp⟩
    exact ⟨hmax, h.size ▸ hpos, haway hp⟩
  unfold Knows at hk ⊢
  cases hpc : c.pc <;> simp only [hpc] at hk ⊢
  case outside => exact haway hk
  case arriving =>
    obtain ⟨hle, ⟨hf, hs, hp⟩ | ⟨hf, hs, hp⟩⟩ := hk
    · exact ⟨hle, Or.inl ⟨hf, hs, haway hp⟩⟩
    · exact ⟨hle, Or.inr ⟨hf, hs, hp.imp hawaits hastray⟩⟩
  case waiting => exact ⟨hk.1, hk.2.1, hk.2.2.imp hawaits hastray⟩
  case inChair => exact ⟨hk.1, hk.2.1, hseated hk.2.2⟩
  case left => exact haway hk

section Queue

variable {ι : Type*} {S : Setup ι} {b : Barbershop}

theorem Sound.le_maxClients (h : Sound S b) : b.totalClients ≤ maxClients := by
  have := h.le
  have := S.seats_le
  have hmax : maxClients = 32 := rfl
  omega

/-- A change of the status leaves the queue sound. -/
theorem Sound.withStatus (h : Sound S b) (st : BarberStatus) :
    Sound S { b with status := st } :=
  ⟨h.size, h.nonneg, h.le, h.nodup, h.known⟩

theorem Sound.queue_eq_nil_iff (h : Sound S b) : queue b = [] ↔ b.totalClients = 0 := by
  rw [Barber.queue_eq_nil_iff h.le_maxClients]
  have := h.nonneg
  omega

/-- In a sound queue that is not full `enqueue` appends the client. -/
theorem Sound.queue_enqueue (h : Sound S b) (hfull : qFull b = false) (p : Pid) :
    queue (enqueue p b) = queue b ++ [p] := by
  rw [qFull_eq_false_iff] at hfull
  exact Barber.queue_enqueue h.nonneg hfull (h.size ▸ S.seats_le) p

theorem Sound.enqueue (h : Sound S b) (hfull : qFull b = false) {i : ι}
    (hi : S.pid i ∉ queue b) : Sound S (enqueue (S.pid i) b) := by
  have hq := h.queue_enqueue hfull (S.pid i)
  rw [qFull_eq_false_iff] at hfull
  have htotal := enqueue_totalClients hfull (S.pid i)
  have hsize := h.size
  have hnonneg := h.nonneg
  refine ⟨by simpa using hsize, by omega, by omega, ?_, ?_⟩
  · rw [hq]
    exact h.nodup.append (List.nodup_singleton _) (by simpa using hi)
  · intro p hp
    rw [hq, List.mem_append, List.mem_singleton] at hp
    rcases hp with hp | rfl
    · exact h.known p hp
    · exact ⟨i, rfl⟩

/-- `enqueue` moves nobody but the client it is called with. -/
theorem keepsPlaces_enqueue (h : Sound S b) (hfull : qFull b = false) (p : Pid) :
    KeepsPlaces (some p) b (enqueue p b) := by
  refine ⟨enqueue_waitingRoomSize p b, fun p' hp' => ?_⟩
  have hne : p' ≠ p := fun h => hp' (by rw [h])
  simp [Away, Awaits, Seated, Called, h.queue_enqueue hfull, hne]

/-- On a sound non-empty queue `invite_client` calls the head. -/
theorem Sound.inviteClient (h : Sound S b) (hne : queue b ≠ []) :
    ∃ p rest, queue b = p :: rest ∧ queue (inviteClient b) = rest ∧
      (inviteClient b).currClient = p ∧ (inviteClient b).status = .inviting ∧
      Sound S (Barber.inviteClient b) := by
  have htotal : b.totalClients ≠ 0 := fun h0 => hne (h.queue_eq_nil_iff.mpr h0)
  have hnonneg := h.nonneg
  have hle := h.le
  let b₁ : Barbershop := { b with status := .inviting }
  have hcons : queue b = (dequeue b₁).1 :: queue (dequeue b₁).2 :=
    queue_eq_dequeue_cons (b := b₁) (show 0 < b.totalClients by omega) h.le_maxClients
  have htotal₁ : (dequeue b₁).2.totalClients = b.totalClients - 1 := dequeue_totalClients htotal
  refine ⟨(dequeue b₁).1, queue (dequeue b₁).2, hcons, rfl, rfl, dequeue_status b₁, ?_⟩
  have hnodup : ((dequeue b₁).1 :: queue (dequeue b₁).2).Nodup := hcons ▸ h.nodup
  refine ⟨(dequeue_waitingRoomSize b₁).trans h.size, ?_, ?_, hnodup.of_cons, ?_⟩
  · show 0 ≤ (dequeue b₁).2.totalClients
    omega
  · show (dequeue b₁).2.totalClients ≤ _
    omega
  · intro p hp
    exact h.known p (hcons ▸ List.mem_cons_of_mem _ hp)

end Queue

/-! ### What a step does -/

/-- The effects of the barber's section. -/
inductive BarberDoes (b : Barbershop) : Barbershop → Prop
  | invite (hstatus : b.status = .wokenUp ∨ b.status = .free) (hne : queue b ≠ []) :
    BarberDoes b (inviteClient b)
  | shave (hstatus : b.status = .startShaving) : BarberDoes b (shave b)
  | sleep (hstatus : b.status = .free) (hnil : queue b = []) : BarberDoes b (fallAsleep b)
  | idle (hstatus : b.status = .sleeping ∨ b.status = .inviting ∨ b.status = .endShaving) :
    BarberDoes b b

/-- The effects of a client's step. -/
inductive ClientDoes (me : Pid) (shaves : ℤ) (b : Barbershop) (c : Client) :
    Barbershop → Client → Prop
  | enter (hpc : c.pc = .outside) (hle : 1 ≤ shaves) :
    ClientDoes me shaves b c b ⟨.arriving, .waiting, true, 1⟩
  | decline (hpc : c.pc = .outside) (hlt : shaves < 1) :
    ClientDoes me shaves b c b ⟨.left .endedShave, .waiting, true, 1⟩
  | turnAway (hpc : c.pc = .arriving) (hfirst : c.firstShave = true)
    (hst : c.clientStatus = .waiting) (hfull : qFull b = true) :
    ClientDoes me shaves b c b { c with pc := .left .noFreeChair }
  | wake (hpc : c.pc = .arriving) (hfirst : c.firstShave = true)
    (hst : c.clientStatus = .waiting) (hfull : qFull b = false) (hstatus : b.status = .sleeping) :
    ClientDoes me shaves b c (enqueue me { b with status := .wokenUp }) { c with pc := .waiting }
  | join (hpc : c.pc = .arriving) (hfirst : c.firstShave = true)
    (hst : c.clientStatus = .waiting) (hfull : qFull b = false) (hstatus : b.status ≠ .sleeping) :
    ClientDoes me shaves b c (enqueue me b) { c with pc := .waiting }
  | goOn (hpc : c.pc = .arriving) (hfirst : c.firstShave = false)
    (hst : c.clientStatus = .shaven) (hstatus : b.status ≠ .sleeping) :
    ClientDoes me shaves b c b { c with pc := .waiting }
  | poll (hpc : c.pc = .waiting ∧ ¬ (b.status = .inviting ∧ me = b.currClient) ∨
      c.pc = .inChair ∧ ¬ (b.status = .endShaving ∧ me = b.currClient)) :
    ClientDoes me shaves b c b c
  | rewake (hpc : c.pc = .arriving) (hfirst : c.firstShave = false)
    (hst : c.clientStatus = .shaven) (hfull : qFull b = false) (hstatus : b.status = .sleeping)
    (hastray : Astray shaves b me) :
    ClientDoes me shaves b c (enqueue me { b with status := .wokenUp }) { c with pc := .waiting }
  | sit (hpc : c.pc = .waiting) (hstatus : b.status = .inviting) (hme : me = b.currClient) :
    ClientDoes me shaves b c { b with status := .startShaving }
      { c with pc := .inChair, clientStatus := .invited }
  | rejoin (hpc : c.pc = .inChair) (hstatus : b.status = .endShaving) (hme : me = b.currClient)
    (hlt : toInt c.currShave < shaves) (hmore : InLoop shaves ⟨.arriving, .shaven, false,
      c.currShave + 1⟩) (hfull : qFull b = false) :
    ClientDoes me shaves b c (enqueue me { b with status := .free })
      ⟨.arriving, .shaven, false, c.currShave + 1⟩
  | turnOut (hpc : c.pc = .inChair) (hstatus : b.status = .endShaving) (hme : me = b.currClient)
    (hlt : toInt c.currShave < shaves) (hfull : qFull b = true) :
    ClientDoes me shaves b c { b with status := .free }
      { c with pc := .left .noFreeChair, clientStatus := .shaven }
  | finish (hpc : c.pc = .inChair) (hstatus : b.status = .endShaving) (hme : me = b.currClient)
    (heq : toInt c.currShave = shaves) (hlast : c.currShave = shaves) :
    ClientDoes me shaves b c { b with status := .free }
      ⟨.left .endedShave, .shaven, false, c.currShave + 1⟩
  | restart (hpc : c.pc = .inChair) (hstatus : b.status = .endShaving) (hme : me = b.currClient)
    (heq : toInt c.currShave = shaves) (hmax : shaves = intMax) :
    ClientDoes me shaves b c { b with status := .free }
      ⟨.arriving, .shaven, false, c.currShave + 1⟩

theorem forTest_of_le {shaves : ℤ} {c : Client} (h : toInt c.currShave ≤ shaves) :
    forTest shaves c = { c with pc := .arriving } := by
  simp [forTest, h]

theorem forTest_of_lt {shaves : ℤ} {c : Client} (h : shaves < toInt c.currShave) :
    forTest shaves c = { c with pc := .left .endedShave } := by
  simp [forTest, h]

theorem invitedTest_of_ne {shaves : ℤ} {c : Client} (h : c.clientStatus ≠ .invited) :
    invitedTest shaves c = { c with pc := .waiting } := by
  simp [invitedTest, h]

theorem invitedTest_of_eq {shaves : ℤ} {c : Client} (h : c.clientStatus = .invited) :
    invitedTest shaves c = { c with pc := .inChair } := by
  simp [invitedTest, shavenTest, h]

theorem shavenTest_of_ne {shaves : ℤ} {c : Client} (h : c.clientStatus ≠ .shaven) :
    shavenTest shaves c = { c with pc := .inChair } := by
  simp [shavenTest, h]

theorem shavenTest_of_eq {shaves : ℤ} {c : Client} (h : c.clientStatus = .shaven) :
    shavenTest shaves c =
      forTest shaves { c with firstShave := false, currShave := c.currShave + 1 } := by
  simp [shavenTest, h]

section InLoop

variable {shaves : ℤ} {c : Client}

theorem InLoop.toInt_le (h : InLoop shaves c) (hint : shaves ≤ intMax) :
    toInt c.currShave ≤ shaves := by
  obtain ⟨hpos, hle | rfl⟩ := h
  · rw [toInt_of_mem (by omega) (by omega)]
    exact hle
  · exact toInt_le_intMax _

/-- Short of the last shave the counter does not wrap around. -/
theorem InLoop.next (h : InLoop shaves c) (hint : shaves ≤ intMax)
    (hlt : toInt c.currShave < shaves) :
    toInt (c.currShave + 1) ≤ shaves ∧
      InLoop shaves ⟨.arriving, .shaven, false, c.currShave + 1⟩ := by
  constructor
  · rw [toInt_add_one (by omega)]
    omega
  · obtain ⟨hpos, hle | hmax⟩ := h
    · rw [toInt_of_mem (by omega) (by omega)] at hlt
      exact ⟨by show 0 < c.currShave + 1; omega, Or.inl hlt⟩
    · exact ⟨by show 0 < c.currShave + 1; omega, Or.inr hmax⟩

/-- After the last shave the counter passes the bound of the loop, or wraps around. -/
theorem InLoop.last (h : InLoop shaves c) (hint : shaves ≤ intMax)
    (heq : toInt c.currShave = shaves) :
    (c.currShave = shaves ∧ shaves < toInt (c.currShave + 1)) ∨
      (shaves = intMax ∧ toInt (c.currShave + 1) ≤ shaves) := by
  rcases Int.lt_or_eq_of_le hint with hlt | hmax
  · left
    obtain ⟨hpos, hle | hmax⟩ := h
    · rw [toInt_of_mem (by omega) (by omega)] at heq
      rw [toInt_of_mem (by omega) (by omega)]
      exact ⟨heq, by omega⟩
    · omega
  · right
    rw [toInt_add_one_of_eq (heq.trans hmax), hmax]
    exact ⟨rfl, by decide⟩

end InLoop

section Does

variable {ι : Type*} {S : Setup ι} {b : Barbershop}

theorem barberDoes (h : ShopInv S b) : BarberDoes b (barberSection b) := by
  unfold barberSection
  split
  case h_1 hst => exact .invite (Or.inl hst) (h.wokenUp hst)
  case h_2 hst => exact .shave hst
  case h_3 hst =>
    cases hq : qEmpty b with
    | true => exact .sleep hst (h.queue_eq_nil_iff.mpr ((qEmpty_iff b).mp hq))
    | false =>
      exact .invite (Or.inr hst) fun hnil =>
        (qEmpty_eq_false_iff b).mp hq (h.queue_eq_nil_iff.mp hnil)
  case h_4 h1 h2 h3 =>
    apply BarberDoes.idle
    cases hst : b.status <;> simp_all

/-- Someone who awaits the barber keeps it from sleeping. -/
theorem Awaits.not_sleeping (h : ShopInv S b) {p : Pid} (hp : Awaits b p) :
    b.status ≠ .sleeping := by
  intro hst
  rcases hp with ⟨hq, -⟩ | ⟨-, hinv, -⟩
  · simp [h.sleeping hst] at hq
  · simp [hst] at hinv

/-- The first section of a client's first round. -/
theorem arriveDoes_first {me : Pid} {shaves : ℤ} {c : Client} (hpc : c.pc = .arriving)
    (hfirst : c.firstShave = true) (hst : c.clientStatus = .waiting) :
    ClientDoes me shaves b c (arriveSection me shaves b c).1 (arriveSection me shaves b c).2 := by
  have hne : c.clientStatus ≠ .invited := by simp [hst]
  cases hfull : qFull b with
  | true =>
    have hres : arriveSection me shaves b c = (b, { c with pc := .left .noFreeChair }) := by
      simp [arriveSection, hst, hfull]
    rw [hres]
    exact .turnAway hpc hfirst hst hfull
  | false =>
    by_cases hsl : b.status = .sleeping
    · have hres : arriveSection me shaves b c
          = (enqueue me { b with status := .wokenUp }, { c with pc := .waiting }) := by
        simp [arriveSection, hfull, hsl, invitedTest_of_ne hne]
      rw [hres]
      exact .wake hpc hfirst hst hfull hsl
    · have hres : arriveSection me shaves b c = (enqueue me b, { c with pc := .waiting }) := by
        simp [arriveSection, hfull, hsl, hfirst, invitedTest_of_ne hne]
      rw [hres]
      exact .join hpc hfirst hst hfull hsl

/-- The first section of a client's later rounds, the barber being awake: a client that
is queued already keeps it so. -/
theorem arriveDoes_later {me : Pid} {shaves : ℤ} {c : Client} (hpc : c.pc = .arriving)
    (hfirst : c.firstShave = false) (hst : c.clientStatus = .shaven)
    (hsl : b.status ≠ .sleeping) :
    ClientDoes me shaves b c (arriveSection me shaves b c).1 (arriveSection me shaves b c).2 := by
  have hne : c.clientStatus ≠ .invited := by simp [hst]
  have hres : arriveSection me shaves b c = (b, { c with pc := .waiting }) := by
    simp [arriveSection, hst, hsl, hfirst, invitedTest_of_ne hne]
  rw [hres]
  exact .goOn hpc hfirst hst hsl

/-- A client that has gone astray finds the barber asleep, and takes a place again. -/
theorem arriveDoes_astray (h : ShopInv S b) {me : Pid} {shaves : ℤ} {c : Client}
    (hpc : c.pc = .arriving) (hfirst : c.firstShave = false) (hst : c.clientStatus = .shaven)
    (hsl : b.status = .sleeping) (hastray : Astray shaves b me) :
    ClientDoes me shaves b c (arriveSection me shaves b c).1 (arriveSection me shaves b c).2 := by
  have hne : c.clientStatus ≠ .invited := by simp [hst]
  have hempty : b.totalClients = 0 := h.queue_eq_nil_iff.mp (h.sleeping hsl)
  have hfull : qFull b = false := by
    rw [qFull_eq_false_iff, hempty]
    exact hastray.2.1
  have hres : arriveSection me shaves b c
      = (enqueue me { b with status := .wokenUp }, { c with pc := .waiting }) := by
    simp [arriveSection, hst, hsl, invitedTest_of_ne hne]
  rw [hres]
  exact .rewake hpc hfirst hst hfull hsl hastray

theorem waitDoes {me : Pid} {shaves : ℤ} {c : Client} (hpc : c.pc = .waiting)
    (hst : c.clientStatus ≠ .invited) :
    ClientDoes me shaves b c (waitSection me shaves b c).1 (waitSection me shaves b c).2 := by
  by_cases hcall : b.status = .inviting ∧ me = b.currClient
  · have hres : waitSection me shaves b c = ({ b with status := .startShaving },
        { c with pc := .inChair, clientStatus := .invited }) := by
      simp [waitSection, hcall, invitedTest_of_eq]
    rw [hres]
    exact .sit hpc hcall.1 hcall.2
  · have hres : waitSection me shaves b c = (b, c) := by
      simp [waitSection, hcall, invitedTest_of_ne hst, ← hpc]
    rw [hres]
    exact .poll (Or.inl ⟨hpc, hcall⟩)

theorem chairDoes {me : Pid} {shaves : ℤ} {c : Client} (hpc : c.pc = .inChair)
    (hint : shaves ≤ intMax) (hloop : InLoop shaves c) (hst : c.clientStatus = .invited) :
    ClientDoes me shaves b c (chairSection me shaves b c).1 (chairSection me shaves b c).2 := by
  by_cases hend : b.status = .endShaving ∧ me = b.currClient
  · -- the shave is over: there are more to come, or this was the last
    by_cases hlt : toInt c.currShave < shaves
    · have hfree : qFull { b with status := .free } = qFull b := rfl
      cases hfull : qFull b with
      | true =>
        have hres : chairSection me shaves b c = ({ b with status := .free },
            { c with pc := .left .noFreeChair, clientStatus := .shaven }) := by
          simp [chairSection, hend, hlt, hfree, hfull]
        rw [hres]
        exact .turnOut hpc hend.1 hend.2 hlt hfull
      | false =>
        obtain ⟨hle, hmore⟩ := hloop.next hint hlt
        have hres : chairSection me shaves b c = (enqueue me { b with status := .free },
            ⟨.arriving, .shaven, false, c.currShave + 1⟩) := by
          simp [chairSection, hend, hlt, hfree, hfull, shavenTest_of_eq, forTest_of_le, hle]
        rw [hres]
        exact .rejoin hpc hend.1 hend.2 hlt hmore hfull
    · have heq : toInt c.currShave = shaves :=
        le_antisymm (hloop.toInt_le hint) (not_lt.mp hlt)
      rcases hloop.last hint heq with ⟨hlast, hout⟩ | ⟨hmax, hle⟩
      · have hres : chairSection me shaves b c = ({ b with status := .free },
            ⟨.left .endedShave, .shaven, false, c.currShave + 1⟩) := by
          simp [chairSection, hend, hlt, shavenTest_of_eq, forTest_of_lt, hout]
        rw [hres]
        exact .finish hpc hend.1 hend.2 heq hlast
      · -- the loop goes on, and nobody has called `enqueue`
        have hres : chairSection me shaves b c = ({ b with status := .free },
            ⟨.arriving, .shaven, false, c.currShave + 1⟩) := by
          simp [chairSection, hend, hlt, shavenTest_of_eq, forTest_of_le, hle]
        rw [hres]
        exact .restart hpc hend.1 hend.2 heq hmax
  · -- the chair is polled until the barber has ended the shave
    have hres : chairSection me shaves b c = (b, c) := by
      have hne : c.clientStatus ≠ .shaven := by simp [hst]
      simp [chairSection, hend, shavenTest_of_ne hne, ← hpc]
    rw [hres]
    exact .poll (Or.inr ⟨hpc, hend⟩)

theorem clientDoes (h : ShopInv S b) {me : Pid} {shaves : ℤ} (hint : shaves ≤ intMax)
    {c : Client} (hk : Knows me shaves b c) {b' : Barbershop} {c' : Client}
    (hstep : clientStep me shaves b c = some (b', c')) : ClientDoes me shaves b c b' c' := by
  unfold clientStep at hstep
  unfold Knows at hk
  cases hpc : c.pc <;> simp only [hpc, Option.some.injEq, reduceCtorEq] at hstep hk
  case outside =>
    obtain ⟨rfl, rfl⟩ := Prod.mk.inj hstep
    have hone : toInt 1 = 1 := by decide
    by_cases hle : 1 ≤ shaves
    · simpa [enter, forTest, hone, hle] using ClientDoes.enter hpc hle
    · simpa [enter, forTest, hone, hle] using ClientDoes.decline hpc (not_le.mp hle)
  case arriving =>
    have hdoes : ClientDoes me shaves b c (arriveSection me shaves b c).1
        (arriveSection me shaves b c).2 := by
      obtain ⟨-, ⟨hfirst, hst, -⟩ | ⟨hfirst, hst, haw | hastray⟩⟩ := hk
      · exact arriveDoes_first hpc hfirst hst
      · -- the first round, and the later ones of a client that has enqueued itself
        exact arriveDoes_later hpc hfirst hst (haw.not_sleeping h)
      · by_cases hsl : b.status = .sleeping
        · exact arriveDoes_astray h hpc hfirst hst hsl hastray
        · exact arriveDoes_later hpc hfirst hst hsl
    rwa [hstep] at hdoes
  case waiting =>
    have hdoes : ClientDoes me shaves b c (waitSection me shaves b c).1
        (waitSection me shaves b c).2 := waitDoes hpc hk.2.1
    rwa [hstep] at hdoes
  case inChair =>
    have hdoes : ClientDoes me shaves b c (chairSection me shaves b c).1
        (chairSection me shaves b c).2 := chairDoes hpc hint hk.1 hk.2.1
    rwa [hstep] at hdoes

end Does

/-! ### The invariant is kept -/

section Steps

variable {ι : Type*} {S : Setup ι} {b : Barbershop}

/-- Calling the head of the queue. -/
theorem invite_keeps (h : ShopInv S b) (hst : b.status = .wokenUp ∨ b.status = .free)
    (hne : queue b ≠ []) :
    ShopInv S (inviteClient b) ∧ KeepsPlaces none b (inviteClient b) := by
  obtain ⟨p, rest, hq, hq', hcurr, hst', hsound⟩ := h.toSound.inviteClient hne
  have hnodup := h.nodup
  rw [hq, List.nodup_cons] at hnodup
  -- from here on exactly the client at the head is called
  have hcalled : ∀ p', Called (inviteClient b) p' ↔ p = p' := by
    simp [Called, hst', hcurr]
  constructor
  · have hpos : 0 < b.waitingRoomSize := h.awake (by rcases hst with hst | hst <;> simp [hst])
    refine ⟨hsound, fun _ => by rwa [hsound.size, ← h.size], by simp [hst'], by simp [hst'], ?_⟩
    intro p' hp'
    obtain rfl := (hcalled p').mp hp'
    exact ⟨by rw [hq']; exact hnodup.1, h.known p (by rw [hq]; exact List.mem_cons_self)⟩
  · -- nobody is called while the barber looks for a client
    have hno : ∀ p', ¬ Called b p' := by
      rintro p' ⟨hb, -⟩
      rcases hst with hst | hst <;> simp [hst] at hb
    refine ⟨hsound.size.trans h.size.symm, fun p' _ => ?_⟩
    refine ⟨?_, ?_, fun hseat => absurd hseat.called (hno p')⟩
    · rintro ⟨hout, -⟩
      rw [hq, List.mem_cons, not_or] at hout
      exact ⟨by rw [hq']; exact hout.2, fun hc => hout.1 ((hcalled p').mp hc).symm⟩
    · rintro (⟨hin, -⟩ | ⟨-, hinv, hp'⟩)
      · rw [hq, List.mem_cons] at hin
        rcases hin with rfl | hin
        · exact Or.inr ⟨by rw [hq']; exact hnodup.1, hst', hcurr⟩
        · have hne' : p ≠ p' := fun h => hnodup.1 (h ▸ hin)
          exact Or.inl ⟨by rw [hq']; exact hin, fun hc => hne' ((hcalled p').mp hc)⟩
      · exact absurd ⟨Or.inl hinv, hp'⟩ (hno p')

/-- The barber keeps the invariant and moves nobody but from the queue to the call. -/
theorem barber_keeps (h : ShopInv S b) :
    ShopInv S (barberSection b) ∧ KeepsPlaces none b (barberSection b) := by
  have hdoes := barberDoes h
  generalize barberSection b = b' at hdoes ⊢
  cases hdoes with
  | invite hst hne => exact invite_keeps h hst hne
  | shave hst =>
    refine ⟨⟨h.toSound.withStatus _, fun _ => h.awake (by simp [hst]), by simp [shave],
      by simp [shave], ?_⟩, .of_status rfl rfl rfl (Or.inr (Or.inl ⟨hst, rfl⟩))⟩
    rintro p ⟨-, hp⟩
    exact h.called p ⟨Or.inr (Or.inl hst), hp⟩
  | sleep hst hnil =>
    refine ⟨⟨h.toSound.withStatus _, fun hno => absurd rfl hno, fun _ => hnil,
      by simp [fallAsleep], ?_⟩, .of_status rfl rfl rfl (Or.inr (Or.inr ⟨hst, rfl⟩))⟩
    rintro p ⟨hp, -⟩
    simp [fallAsleep] at hp
  | idle => exact ⟨h, .refl _ _⟩

/-- A client that is away and joins the queue, the barber being in state `st`. -/
theorem join_keeps (h : ShopInv S b) {i : ι} (hfull : qFull b = false)
    (haway : Away b (S.pid i)) (st : BarberStatus) (hst : st ≠ .sleeping)
    (hcalled : ∀ p, Called { b with status := st } p → Called b p) :
    ShopInv S (enqueue (S.pid i) { b with status := st }) ∧
      Awaits (enqueue (S.pid i) { b with status := st }) (S.pid i) := by
  have hfull' : qFull { b with status := st } = false := hfull
  have hsound := h.toSound.withStatus st
  have hq := hsound.queue_enqueue hfull' (S.pid i)
  have hnot : ¬ Called (enqueue (S.pid i) { b with status := st }) (S.pid i) := by
    intro hc
    exact haway.2 (hcalled _ (by simpa [Called] using hc))
  have hpos : 0 < b.waitingRoomSize := by
    have hnonneg := h.nonneg
    rw [qFull_eq_false_iff] at hfull
    omega
  refine ⟨⟨hsound.enqueue hfull' haway.1, fun _ => by simpa using hpos, by simp [hst],
    by simp [hq], ?_⟩, Or.inl ⟨by simp [hq], hnot⟩⟩
  intro p hp
  obtain ⟨hout, hknown⟩ := h.called p (hcalled p (by simpa [Called] using hp))
  have hne : p ≠ S.pid i := fun heq => hnot (heq ▸ hp)
  rw [hq, List.mem_append, List.mem_singleton, not_or]
  exact ⟨⟨hout, hne⟩, hknown⟩

/-- The place of the client in the chair, once it has got up. -/
theorem away_of_seated {p : Pid} (h : Seated b p) : Away { b with status := .free } p :=
  ⟨h.1, by simp [Called]⟩

/-- The shop when the client in the chair gets up. -/
theorem free_keeps (h : ShopInv S b) (hst : b.status = .endShaving) :
    ShopInv S { b with status := .free } :=
  ⟨h.toSound.withStatus _, fun _ => h.awake (by simp [hst]), by simp, by simp,
    by rintro p ⟨hp, -⟩; simp at hp⟩

/-- A client wakes the barber. -/
theorem wake_keeps (h : ShopInv S b) {i : ι} (hfull : qFull b = false)
    (hst : b.status = .sleeping) (haway : Away b (S.pid i)) :
    ShopInv S (enqueue (S.pid i) { b with status := .wokenUp }) ∧
      Awaits (enqueue (S.pid i) { b with status := .wokenUp }) (S.pid i) ∧
      KeepsPlaces (some (S.pid i)) b (enqueue (S.pid i) { b with status := .wokenUp }) := by
  obtain ⟨hinv, hawaits⟩ := join_keeps h hfull haway .wokenUp (by simp)
    (by rintro p ⟨hp, -⟩; simp at hp)
  have henq := keepsPlaces_enqueue (h.toSound.withStatus .wokenUp) hfull (S.pid i)
  -- a sleeping barber has called nobody, nor has one just woken
  have hno : ∀ p, ¬ Called b p := by rintro p ⟨hp, -⟩; simp [hst] at hp
  refine ⟨hinv, hawaits, henq.size, fun p hp => ⟨fun haway => ?_, fun haw => ?_, fun hseat => ?_⟩⟩
  · exact (henq.places p hp).1 ⟨haway.1, by simp [Called]⟩
  · exact absurd hst (haw.not_sleeping h)
  · exact absurd hseat.called (hno p)

/-- A client keeps the invariant, moves nobody but itself, and knows its new place. -/
theorem client_keeps (h : ShopInv S b) {i : ι} {c : Client}
    (hk : Knows (S.pid i) (S.shaves i) b c) {b' : Barbershop} {c' : Client}
    (hstep : clientStep (S.pid i) (S.shaves i) b c = some (b', c')) :
    ShopInv S b' ∧ Knows (S.pid i) (S.shaves i) b' c' ∧
      KeepsPlaces (some (S.pid i)) b b' := by
  have hdoes := clientDoes h (S.shaves_le i) hk hstep
  unfold Knows at hk ⊢
  cases hdoes with
  | enter hpc hle =>
    simp only [hpc] at hk ⊢
    exact ⟨h, ⟨⟨Int.one_pos, Or.inl hle⟩, Or.inl ⟨trivial, trivial, hk⟩⟩, .refl _ _⟩
  | decline hpc hlt =>
    simp only [hpc] at hk ⊢
    exact ⟨h, hk, .refl _ _⟩
  | turnAway hpc hfirst hcs hfull =>
    simp only [hpc, hfirst, Bool.true_eq_false, false_and, or_false] at hk ⊢
    exact ⟨h, hk.2.2.2, .refl _ _⟩
  | wake hpc hfirst hcs hfull hst =>
    simp only [hpc, hfirst, Bool.true_eq_false, false_and, or_false] at hk ⊢
    obtain ⟨hloop, -, -, haway⟩ := hk
    obtain ⟨hinv, hawaits, hkeeps⟩ := wake_keeps h hfull hst haway
    exact ⟨hinv, ⟨hloop, by simp [hcs], Or.inl hawaits⟩, hkeeps⟩
  | join hpc hfirst hcs hfull hst =>
    simp only [hpc, hfirst, Bool.true_eq_false, false_and, or_false] at hk ⊢
    obtain ⟨hloop, -, -, haway⟩ := hk
    obtain ⟨hinv, hawaits⟩ := join_keeps h hfull haway b.status hst (fun p hp => hp)
    exact ⟨hinv, ⟨hloop, by simp [hcs], Or.inl hawaits⟩, keepsPlaces_enqueue h.toSound hfull _⟩
  | goOn hpc hfirst hcs hst =>
    simp only [hpc, hfirst, Bool.false_eq_true, false_and, false_or] at hk ⊢
    exact ⟨h, ⟨hk.1, by simp [hcs], hk.2.2.2⟩, .refl _ _⟩
  | poll hpc => exact ⟨h, hk, .refl _ _⟩
  | rewake hpc hfirst hcs hfull hst hastray =>
    simp only [hpc] at hk ⊢
    obtain ⟨hinv, hawaits, hkeeps⟩ := wake_keeps h hfull hst hastray.2.2
    exact ⟨hinv, ⟨hk.1, by simp [hcs], Or.inl hawaits⟩, hkeeps⟩
  | sit hpc hst hme =>
    simp only [hpc] at hk ⊢
    -- whoever sits down has left the queue
    have hout : S.pid i ∉ queue b := (h.called _ ⟨Or.inl hst, hme.symm⟩).1
    refine ⟨⟨h.toSound.withStatus _, fun _ => h.awake (by simp [hst]), by simp, by simp, ?_⟩,
      ⟨hk.1, trivial, hout, Or.inl rfl, hme.symm⟩,
      .of_status rfl rfl rfl (Or.inl (by rw [hme]))⟩
    rintro p ⟨-, hp⟩
    exact h.called p ⟨Or.inl hst, hp⟩
  | rejoin hpc hst hme hlt hmore hfull =>
    simp only [hpc] at hk ⊢
    -- back in the queue at once: the chair and the queue change in one section
    obtain ⟨-, hcs, hseat⟩ := hk
    have hfree := free_keeps h hst
    obtain ⟨hinv, hawaits⟩ := join_keeps hfree hfull (away_of_seated hseat) .free
      (by simp) (fun p hp => hp)
    have hgot : KeepsPlaces (some (S.pid i)) b { b with status := .free } :=
      .of_status rfl rfl rfl (Or.inl (by rw [hme]))
    exact ⟨hinv, ⟨hmore, Or.inr ⟨trivial, trivial, Or.inl hawaits⟩⟩,
      hgot.trans (keepsPlaces_enqueue hfree.toSound hfull (S.pid i))⟩
  | turnOut hpc hst hme hlt hfull =>
    simp only [hpc] at hk ⊢
    exact ⟨free_keeps h hst, away_of_seated hk.2.2,
      .of_status rfl rfl rfl (Or.inl (by rw [hme]))⟩
  | finish hpc hst hme heq hlast =>
    simp only [hpc] at hk ⊢
    exact ⟨free_keeps h hst, away_of_seated hk.2.2,
      .of_status rfl rfl rfl (Or.inl (by rw [hme]))⟩
  | restart hpc hst hme heq hmax =>
    simp only [hpc] at hk ⊢
    -- the counter has gone past `INT_MAX`, and the client is in no queue
    obtain ⟨⟨hpos, -⟩, -, hseat⟩ := hk
    have hsize : 0 < b.waitingRoomSize := h.awake (by simp [hst])
    refine ⟨free_keeps h hst, ⟨⟨?_, Or.inr hmax⟩, Or.inr ⟨trivial, trivial, Or.inr ?_⟩⟩,
      .of_status rfl rfl rfl (Or.inl (by rw [hme]))⟩
    · show 0 < c.currShave + 1
      omega
    · exact ⟨hmax, hsize, away_of_seated hseat⟩

end Steps

/-! ### Every reachable state -/

namespace Setup

variable {ι : Type*} (S : Setup ι)

/-- What a process knows. -/
def Knowledge : (t : Who ι) → Barbershop → Local ι t → Prop
  | .barber, _, _ => True
  | .client i, b, c => Knows (S.pid i) (S.shaves i) b c

/-- The process id of a process that may take a place. -/
def pid? : Who ι → Option Pid
  | .barber => none
  | .client i => some (S.pid i)

theorem shopInv_start : ShopInv S S.start.mem := by
  have hq : queue S.start.mem = [] := rfl
  refine ⟨⟨rfl, le_rfl, le_max_right _ _, ?_, ?_⟩, fun hno => absurd rfl hno, fun _ => hq,
    by simp [start, initBarbershop], ?_⟩
  · simp [hq]
  · simp [hq]
  · rintro p ⟨hp, -⟩
    simp [start, initBarbershop] at hp

theorem knowledge_start (t : Who ι) : S.Knowledge t S.start.mem (S.start.loc t) := by
  cases t with
  | barber => trivial
  | client i =>
    refine ⟨by simp [queue, start, initBarbershop], ?_⟩
    rintro ⟨hp, -⟩
    simp [start, initBarbershop] at hp

theorem pid?_ne {t : Who ι} {j : ι} (h : .client j ≠ t) : S.pid? t ≠ some (S.pid j) := by
  cases t with
  | barber => exact (Option.some_ne_none _).symm
  | client i => exact fun heq => h (by rw [S.pid_injective (Option.some.inj heq)])

/-- **The invariant of the barbershop** holds in every reachable state, and every
client knows its place. -/
theorem knows_of_reach [DecidableEq ι] {s : Global Barbershop (Local ι)}
    (h : S.program.Reach S.start s) :
    ShopInv S s.mem ∧
      ∀ i, Knows (S.pid i) (S.shaves i) s.mem (s.loc (.client i)) := by
  have key := h.relyGuarantee (I := ShopInv S) (A := S.Knowledge)
    (G := fun t => KeepsPlaces (S.pid? t)) ?_ ?_ S.shopInv_start S.knowledge_start
  · exact ⟨key.1, fun i => key.2 (.client i)⟩
  · intro t b l b' l' hI hA hstep
    cases t with
    | barber =>
      obtain ⟨rfl, -⟩ := Prod.mk.inj (Option.some.inj hstep)
      exact ⟨(barber_keeps hI).1, trivial, (barber_keeps hI).2⟩
    | client i => exact client_keeps hI hA hstep
  · intro t u b b' l hne hI hI' hG hA
    cases u with
    | barber => trivial
    | client j => exact Knows.frame hG (S.pid?_ne hne) hA

/-- The counter of a client does not wrap around: the waiting room has no chair, so that
nobody is shaved, or the client asks for fewer than `INT_MAX` shaves. -/
def Counts (i : ι) : Prop := S.seats ≤ 0 ∨ S.shaves i < intMax

variable {S} {i : ι} {b : Barbershop}

theorem Counts.shaves_ne (hi : S.Counts i) (h : Sound S b) (hpos : 0 < b.waitingRoomSize) :
    S.shaves i ≠ intMax := by
  rw [h.size] at hpos
  rcases hi with hseats | hlt
  · omega
  · exact Int.ne_of_lt hlt

/-- A client whose counter does not wrap around does not go astray. -/
theorem Counts.not_astray (hi : S.Counts i) (h : Sound S b) :
    ¬ Astray (S.shaves i) b (S.pid i) :=
  fun hastray => hi.shaves_ne h hastray.2.1 hastray.1

end Setup

end Barber
end OpSys
