import OpSys.Lib.Sections
import OpSys.Barber.Invariant

/-!
# The statements of the barber and its clients

Every read and every write of a field of the shared record is a step, the semaphore is
a counter, and the other processes may step between any two of these.  A process's
private code goes with the access before it.

## Main definitions

* `BarberStmt`, `ClientStmt` — where a process is inside a section.
* `barberStmt`, `clientStmt` — the statements of the sections.
* `Setup.sections` — the barber and its clients.
* `Setup.Atomic` — what holds of every state that the statements go through.

## Main results

* `Setup.performs` — the sections of `Setup.program` are those of the source.
* `Setup.sections_atomic` — every interleaving of the statements goes through states of
  `Setup.program`, and at most one section that is under way.

## References

`lab6_semaphores_shared_mem/POSIX/barber.c`, `client_spawner.c` and `common.h`, and
their System V versions.
-/

namespace OpSys
namespace Barber

open Records

/-! ### The barber -/

/-- Where the barber is in its section. -/
inductive BarberStmt
  /-- At `switch (barbershop->status)`. -/
  | switch
  /-- At `if (!q_empty())` of the case `FREE`. -/
  | testEmpty
  /-- At `barbershop->status = INVITING`. -/
  | setInviting
  /-- In `dequeue`, at `if (!q_empty())`. -/
  | dequeueTest
  /-- At `client = barbershop->q[0]`. -/
  | readHead
  /-- At `i < barbershop->total_clients-1`. -/
  | shiftTest (client : Pid) (i : ℕ)
  /-- At the read of `barbershop->q[i+1]`. -/
  | shiftRead (client : Pid) (i : ℕ)
  /-- At the write of `barbershop->q[i]`. -/
  | shiftWrite (client : Pid) (i : ℕ) (next : Pid)
  /-- At the read of `barbershop->total_clients` in `q[total_clients-1] = 0`. -/
  | lastRead (client : Pid)
  /-- At the write. -/
  | lastWrite (client : Pid) (total : ℤ)
  /-- At the read of `barbershop->total_clients--`. -/
  | decRead (client : Pid)
  /-- At the write. -/
  | decWrite (client : Pid) (total : ℤ)
  /-- At the write of `barbershop->curr_client`. -/
  | setCurr (client : Pid)
  /-- At the `printf` of `invite_client`. -/
  | printInvite
  /-- At `barbershop->status = END_SHAVING`. -/
  | setEndShaving
  /-- At the `printf`s of `shave`. -/
  | printStarted
  | printEnded
  /-- At `barbershop->status = SLEEPING`. -/
  | setSleeping
  /-- At `sem_return`. -/
  | semReturn
  deriving DecidableEq

/-- The statements of the barber's section. -/
def barberStmt (b : Barbershop) : BarberStmt → Stmt Barbershop Unit BarberStmt
  | .switch =>
    match b.status with
    | .wokenUp => .goOn b .setInviting
    | .startShaving => .goOn b .setEndShaving
    | .free => .goOn b .testEmpty
    | _ => .goOn b .semReturn
  | .testEmpty => .goOn b (if !qEmpty b then .setInviting else .setSleeping)
  | .setInviting => .goOn { b with status := .inviting } .dequeueTest
  | .dequeueTest => .goOn b (if !qEmpty b then .readHead else .setCurr (-1))
  | .readHead => .goOn b (.shiftTest (b.q[0]?.getD 0) 0)
  | .shiftTest client i =>
    .goOn b (if (i : ℤ) < b.totalClients - 1 then .shiftRead client i else .lastRead client)
  | .shiftRead client i => .goOn b (.shiftWrite client i (b.q[i + 1]?.getD 0))
  | .shiftWrite client i next =>
    .goOn { b with q := b.q.setIfInBounds i next } (.shiftTest client (i + 1))
  | .lastRead client => .goOn b (.lastWrite client b.totalClients)
  | .lastWrite client total =>
    .goOn { b with q := b.q.setIfInBounds (total - 1).toNat 0 } (.decRead client)
  | .decRead client => .goOn b (.decWrite client b.totalClients)
  | .decWrite client total => .goOn { b with totalClients := total - 1 } (.setCurr client)
  | .setCurr client => .goOn { b with currClient := client } .printInvite
  | .printInvite => .goOn b .semReturn
  | .setEndShaving => .goOn { b with status := .endShaving } .printStarted
  | .printStarted => .goOn b .printEnded
  | .printEnded => .goOn b .semReturn
  | .setSleeping => .goOn { b with status := .sleeping } .semReturn
  | .semReturn => .post ()

/-! ### A client -/

/-- Where a client is in a section.  Its variables are `c`, or `after` at the
`sem_return` that ends the section with an `enqueue` before it. -/
inductive ClientStmt
  /-- In `q_full` of the first section of a round, at the read of `total_clients`. -/
  | arriveTotal (c : Client)
  /-- At the read of `waiting_room_size`. -/
  | arriveSize (c : Client) (total : ℤ)
  /-- At `barbershop->status == SLEEPING`. -/
  | arriveStatus (c : Client)
  /-- At `barbershop->status = WOKEN_UP`. -/
  | setWokenUp (c : Client)
  /-- At `barbershop->status == INVITING`. -/
  | waitStatus (c : Client)
  /-- At `getpid() == barbershop->curr_client`. -/
  | waitCurr (c : Client)
  /-- At `barbershop->status = START_SHAVING`. -/
  | setStartShaving (c : Client)
  /-- At `barbershop->status == END_SHAVING`. -/
  | chairStatus (c : Client)
  /-- At `getpid() == barbershop->curr_client`. -/
  | chairCurr (c : Client)
  /-- At `barbershop->status = FREE`. -/
  | setFree (c : Client)
  /-- In `q_full` of `if (!q_full())`. -/
  | chairTotal (c : Client)
  | chairSize (c : Client) (total : ℤ)
  /-- In `q_full` of `else if (q_full())`. -/
  | elseTotal (c : Client)
  | elseSize (c : Client) (total : ℤ)
  /-- In `q_full` of `enqueue`. -/
  | enqueueTotal (after : Client)
  | enqueueSize (after : Client) (total : ℤ)
  /-- At the read of `total_clients` in `q[total_clients] = client`. -/
  | slotRead (after : Client)
  /-- At the write. -/
  | slotWrite (after : Client) (total : ℤ)
  /-- At the read of `total_clients++`. -/
  | incRead (after : Client)
  /-- At the write. -/
  | incWrite (after : Client) (total : ℤ)
  /-- At `sem_return`. -/
  | semReturn (after : Client)
  deriving DecidableEq

/-- The statements of the sections of `arrive_at_barbershop`. -/
def clientStmt (me : Pid) (shaves : ℤ) (b : Barbershop) :
    ClientStmt → Stmt Barbershop Client ClientStmt
  | .arriveTotal c => .goOn b (.arriveSize c b.totalClients)
  | .arriveSize c total =>
    .goOn b (if b.waitingRoomSize ≤ total then .semReturn { c with pc := .left .noFreeChair }
      else .arriveStatus c)
  | .arriveStatus c =>
    .goOn b (if b.status = .sleeping then .setWokenUp c
      else if c.firstShave then .enqueueTotal (invitedTest shaves c)
      else .semReturn (invitedTest shaves c))
  | .setWokenUp c => .goOn { b with status := .wokenUp } (.enqueueTotal (invitedTest shaves c))
  | .waitStatus c =>
    .goOn b (if b.status = .inviting then .waitCurr c else .semReturn (invitedTest shaves c))
  | .waitCurr c =>
    .goOn b (if me = b.currClient then .setStartShaving { c with clientStatus := .invited }
      else .semReturn (invitedTest shaves c))
  | .setStartShaving c =>
    .goOn { b with status := .startShaving } (.semReturn (invitedTest shaves c))
  | .chairStatus c =>
    .goOn b (if b.status = .endShaving then .chairCurr c else .semReturn (shavenTest shaves c))
  | .chairCurr c =>
    .goOn b (if me = b.currClient then .setFree { c with clientStatus := .shaven }
      else .semReturn (shavenTest shaves c))
  | .setFree c =>
    .goOn { b with status := .free }
      (if toInt c.currShave < shaves then .chairTotal c else .semReturn (shavenTest shaves c))
  | .chairTotal c => .goOn b (.chairSize c b.totalClients)
  | .chairSize c total =>
    .goOn b (if b.waitingRoomSize ≤ total then .elseTotal c
      else .enqueueTotal (shavenTest shaves c))
  | .elseTotal c => .goOn b (.elseSize c b.totalClients)
  | .elseSize c total =>
    .goOn b (if b.waitingRoomSize ≤ total then .semReturn { c with pc := .left .noFreeChair }
      else .semReturn (shavenTest shaves c))
  | .enqueueTotal after => .goOn b (.enqueueSize after b.totalClients)
  | .enqueueSize after total =>
    .goOn b (if b.waitingRoomSize ≤ total then .semReturn after else .slotRead after)
  | .slotRead after => .goOn b (.slotWrite after b.totalClients)
  | .slotWrite after total =>
    .goOn { b with q := b.q.setIfInBounds total.toNat me } (.incRead after)
  | .incRead after => .goOn b (.incWrite after b.totalClients)
  | .incWrite after total => .goOn { b with totalClients := total + 1 } (.semReturn after)
  | .semReturn after => .post after

/-- A client between two sections. -/
def clientBetween (shaves : ℤ) (c : Client) : Between Client ClientStmt :=
  match c.pc with
  | .outside => .goOn (enter shaves c)
  -- `q_full` is not called when `client_status` is not `WAITING`
  | .arriving => .wait (if c.clientStatus = .waiting then .arriveTotal c else .arriveStatus c)
  | .waiting => .wait (.waitStatus c)
  | .inChair => .wait (.chairStatus c)
  | .left _ => .done

/-! ### The system -/

/-- Where a process is inside a section. -/
@[reducible] def InSection (ι : Type*) : Who ι → Type
  | .barber => BarberStmt
  | .client _ => ClientStmt

namespace Setup

variable {ι : Type*} (S : Setup ι)

/-- The barber and its clients, with their statements. -/
def sections : Sections (Who ι) Barbershop (Local ι) (InSection ι) where
  between
    | .barber, _ => .wait .switch
    | .client i, c => clientBetween (S.shaves i) c
  stmt
    | .barber, b, l => barberStmt b l
    | .client i, b, l => clientStmt (S.pid i) (S.shaves i) b l

/-! ### The sections of the barber -/

/-- The rounds of the loop of `dequeue`. -/
theorem inside_shift (b : Barbershop) (client : Pid) {i : ℕ}
    (hi : i ≤ (b.totalClients - 1).toNat) :
    S.sections.Inside .barber (b, .shiftTest client 0)
      ({ b with q := shift b.q i }, .shiftTest client i) := by
  induction i with
  | zero => exact Sections.Inside.refl _
  | succ i ih =>
    apply (ih (by omega)).trans
    have hlt : (i : ℤ) < b.totalClients - 1 := by omega
    have htest : barberStmt { b with q := shift b.q i } (.shiftTest client i) =
        .goOn { b with q := shift b.q i } (.shiftRead client i) := by
      rw [barberStmt, if_pos hlt]
    exact .head htest (.head rfl (.head rfl (.refl _)))

/-- The statements of `dequeue`. -/
theorem inside_dequeue (b : Barbershop) :
    S.sections.Inside .barber (b, .dequeueTest) ((dequeue b).2, .setCurr (dequeue b).1) := by
  cases hempty : qEmpty b with
  | true =>
    have htest : barberStmt b .dequeueTest = .goOn b (.setCurr (-1)) := by
      simp [barberStmt, hempty]
    have hdeq : dequeue b = (-1, b) := by simp [dequeue, hempty]
    rw [hdeq]
    exact .head htest (.refl _)
  | false =>
    have htest : barberStmt b .dequeueTest = .goOn b .readHead := by
      simp [barberStmt, hempty]
    have hdeq : dequeue b = (b.q[0]?.getD 0, { b with
        q := (shift b.q (b.totalClients - 1).toNat).setIfInBounds (b.totalClients - 1).toNat 0
        totalClients := b.totalClients - 1 }) := by
      simp [dequeue, hempty]
    rw [hdeq]
    refine .head htest (.head rfl ((S.inside_shift b _ (Nat.le_refl _)).trans ?_))
    -- the loop ends
    have hge : ¬ ((b.totalClients - 1).toNat : ℤ) < b.totalClients - 1 := by omega
    have hlast : barberStmt { b with q := shift b.q (b.totalClients - 1).toNat }
        (.shiftTest (b.q[0]?.getD 0) (b.totalClients - 1).toNat) =
          .goOn { b with q := shift b.q (b.totalClients - 1).toNat }
            (.lastRead (b.q[0]?.getD 0)) := by
      rw [barberStmt, if_neg hge]
    exact .head hlast (.head rfl (.head rfl (.head rfl (.head rfl (.refl _)))))

/-- The statements of `invite_client`. -/
theorem inside_inviteClient (b : Barbershop) :
    S.sections.Inside .barber (b, .setInviting) (inviteClient b, .semReturn) :=
  .head rfl ((S.inside_dequeue _).trans (.head rfl (.head rfl (.refl _))))

/-- The statements of the barber's section do what the section does. -/
theorem inside_barberSection (b : Barbershop) :
    S.sections.Inside .barber (b, .switch) (barberSection b, .semReturn) := by
  cases hst : b.status with
  -- `switch` has no case for these
  | sleeping | inviting | endShaving =>
    have hswitch : barberStmt b .switch = .goOn b .semReturn := by simp [barberStmt, hst]
    have hsec : barberSection b = b := by simp [barberSection, hst]
    rw [hsec]
    exact .head hswitch (.refl _)
  | wokenUp =>
    have hswitch : barberStmt b .switch = .goOn b .setInviting := by simp [barberStmt, hst]
    have hsec : barberSection b = inviteClient b := by simp [barberSection, hst]
    rw [hsec]
    exact .head hswitch (S.inside_inviteClient b)
  | startShaving =>
    have hswitch : barberStmt b .switch = .goOn b .setEndShaving := by simp [barberStmt, hst]
    have hsec : barberSection b = shave b := by simp [barberSection, hst]
    rw [hsec]
    exact .head hswitch (.head rfl (.head rfl (.head rfl (.refl _))))
  | free =>
    have hswitch : barberStmt b .switch = .goOn b .testEmpty := by simp [barberStmt, hst]
    refine .head hswitch ?_
    -- `if (!q_empty()) invite_client(); else fall_asleep();`
    cases hempty : qEmpty b with
    | true =>
      have htest : barberStmt b .testEmpty = .goOn b .setSleeping := by
        simp [barberStmt, hempty]
      have hsec : barberSection b = fallAsleep b := by simp [barberSection, hst, hempty]
      rw [hsec]
      exact .head htest (.head rfl (.refl _))
    | false =>
      have htest : barberStmt b .testEmpty = .goOn b .setInviting := by
        simp [barberStmt, hempty]
      have hsec : barberSection b = inviteClient b := by simp [barberSection, hst, hempty]
      rw [hsec]
      exact .head htest (S.inside_inviteClient b)

/-! ### The sections of a client -/

section Client

variable (i : ι) (b : Barbershop) (c : Client)

/-- The statements of `enqueue`. -/
theorem inside_enqueue (after : Client) :
    S.sections.Inside (.client i) (b, .enqueueTotal after)
      (enqueue (S.pid i) b, .semReturn after) := by
  cases hfull : qFull b with
  | true =>
    have hle : b.waitingRoomSize ≤ b.totalClients := by simpa [qFull] using hfull
    have henq : enqueue (S.pid i) b = b := by simp [enqueue, hfull]
    have htest : clientStmt (S.pid i) (S.shaves i) b (.enqueueSize after b.totalClients) =
        .goOn b (.semReturn after) := by
      rw [clientStmt, if_pos hle]
    rw [henq]
    exact .head rfl (.head htest (.refl _))
  | false =>
    have hlt : ¬ b.waitingRoomSize ≤ b.totalClients := by simpa [qFull] using hfull
    have henq : enqueue (S.pid i) b = { b with
        q := b.q.setIfInBounds b.totalClients.toNat (S.pid i)
        totalClients := b.totalClients + 1 } := by
      simp [enqueue, hfull]
    have htest : clientStmt (S.pid i) (S.shaves i) b (.enqueueSize after b.totalClients) =
        .goOn b (.slotRead after) := by
      rw [clientStmt, if_neg hlt]
    rw [henq]
    exact .head rfl (.head htest (.head rfl (.head rfl (.head rfl (.head rfl (.refl _))))))

/-- The part of the first section behind the test for a free chair. -/
theorem inside_arriveStatus (h : ¬ (c.clientStatus = .waiting ∧ qFull b = true)) :
    S.sections.Inside (.client i) (b, .arriveStatus c)
      ((arriveSection (S.pid i) (S.shaves i) b c).1,
        .semReturn (arriveSection (S.pid i) (S.shaves i) b c).2) := by
  -- the room is known not to be full for a client that still waits
  have hnot : (decide (c.clientStatus = .waiting) && qFull b) = false := by
    rw [← Bool.not_eq_true, Bool.and_eq_true, decide_eq_true_eq]
    exact h
  -- `enqueue` comes after the wake-up, or on the first round
  by_cases hst : b.status = .sleeping
  · have hstmt : clientStmt (S.pid i) (S.shaves i) b (.arriveStatus c) =
        .goOn b (.setWokenUp c) := by
      rw [clientStmt, if_pos hst]
    have hsec : arriveSection (S.pid i) (S.shaves i) b c =
        (enqueue (S.pid i) { b with status := .wokenUp }, invitedTest (S.shaves i) c) := by
      simp [arriveSection, hnot, hst]
    rw [hsec]
    exact .head hstmt (.head rfl (S.inside_enqueue i _ _))
  · cases hfirst : c.firstShave with
    | true =>
      have hstmt : clientStmt (S.pid i) (S.shaves i) b (.arriveStatus c) =
          .goOn b (.enqueueTotal (invitedTest (S.shaves i) c)) := by
        simp [clientStmt, hst, hfirst]
      have hsec : arriveSection (S.pid i) (S.shaves i) b c =
          (enqueue (S.pid i) b, invitedTest (S.shaves i) c) := by
        simp [arriveSection, hnot, hst, hfirst]
      rw [hsec]
      exact .head hstmt (S.inside_enqueue i _ _)
    | false =>
      have hstmt : clientStmt (S.pid i) (S.shaves i) b (.arriveStatus c) =
          .goOn b (.semReturn (invitedTest (S.shaves i) c)) := by
        simp [clientStmt, hst, hfirst]
      have hsec : arriveSection (S.pid i) (S.shaves i) b c =
          (b, invitedTest (S.shaves i) c) := by
        simp [arriveSection, hnot, hst, hfirst]
      rw [hsec]
      exact .head hstmt (.refl _)

/-- The statements of the first section of a round. -/
theorem inside_arriveSection :
    S.sections.Inside (.client i)
      (b, if c.clientStatus = .waiting then .arriveTotal c else .arriveStatus c)
      ((arriveSection (S.pid i) (S.shaves i) b c).1,
        .semReturn (arriveSection (S.pid i) (S.shaves i) b c).2) := by
  by_cases hwait : c.clientStatus = .waiting
  · rw [if_pos hwait]
    -- the section ends with `return` when the room is full
    by_cases hfull : qFull b = true
    · have hle : b.waitingRoomSize ≤ b.totalClients := by simpa [qFull] using hfull
      have hstmt : clientStmt (S.pid i) (S.shaves i) b (.arriveSize c b.totalClients) =
          .goOn b (.semReturn { c with pc := .left .noFreeChair }) := by
        rw [clientStmt, if_pos hle]
      have hsec : arriveSection (S.pid i) (S.shaves i) b c =
          (b, { c with pc := .left .noFreeChair }) := by
        simp [arriveSection, hwait, hfull]
      rw [hsec]
      exact .head rfl (.head hstmt (.refl _))
    · have hlt : ¬ b.waitingRoomSize ≤ b.totalClients := by simpa [qFull] using hfull
      have hstmt : clientStmt (S.pid i) (S.shaves i) b (.arriveSize c b.totalClients) =
          .goOn b (.arriveStatus c) := by
        rw [clientStmt, if_neg hlt]
      exact .head rfl (.head hstmt (S.inside_arriveStatus i b c fun h => hfull h.2))
  · rw [if_neg hwait]
    exact S.inside_arriveStatus i b c fun h => hwait h.1

/-- The statements of the section of the first `while` loop. -/
theorem inside_waitSection :
    S.sections.Inside (.client i) (b, .waitStatus c)
      ((waitSection (S.pid i) (S.shaves i) b c).1,
        .semReturn (waitSection (S.pid i) (S.shaves i) b c).2) := by
  by_cases hst : b.status = .inviting
  · have hstmt : clientStmt (S.pid i) (S.shaves i) b (.waitStatus c) = .goOn b (.waitCurr c) := by
      rw [clientStmt, if_pos hst]
    by_cases hme : S.pid i = b.currClient
    · have hcurr : clientStmt (S.pid i) (S.shaves i) b (.waitCurr c) =
          .goOn b (.setStartShaving { c with clientStatus := .invited }) := by
        rw [clientStmt, if_pos hme]
      have hsec : waitSection (S.pid i) (S.shaves i) b c =
          ({ b with status := .startShaving },
            invitedTest (S.shaves i) { c with clientStatus := .invited }) := by
        simp [waitSection, hst, hme]
      rw [hsec]
      exact .head hstmt (.head hcurr (.head rfl (.refl _)))
    · have hcurr : clientStmt (S.pid i) (S.shaves i) b (.waitCurr c) =
          .goOn b (.semReturn (invitedTest (S.shaves i) c)) := by
        rw [clientStmt, if_neg hme]
      have hsec : waitSection (S.pid i) (S.shaves i) b c = (b, invitedTest (S.shaves i) c) := by
        simp [waitSection, hme]
      rw [hsec]
      exact .head hstmt (.head hcurr (.refl _))
  · have hstmt : clientStmt (S.pid i) (S.shaves i) b (.waitStatus c) =
        .goOn b (.semReturn (invitedTest (S.shaves i) c)) := by
      rw [clientStmt, if_neg hst]
    have hsec : waitSection (S.pid i) (S.shaves i) b c = (b, invitedTest (S.shaves i) c) := by
      simp [waitSection, hst]
    rw [hsec]
    exact .head hstmt (.refl _)

/-- The part of the section of the second `while` loop behind its condition. -/
theorem inside_setFree (hst : b.status = .endShaving) (hme : S.pid i = b.currClient) :
    S.sections.Inside (.client i) (b, .setFree { c with clientStatus := .shaven })
      ((chairSection (S.pid i) (S.shaves i) b c).1,
        .semReturn (chairSection (S.pid i) (S.shaves i) b c).2) := by
  -- the `else if (q_full())` reads the same room again
  by_cases hmore : toInt c.currShave < S.shaves i
  · have hstmt : clientStmt (S.pid i) (S.shaves i) b (.setFree { c with clientStatus := .shaven }) =
        .goOn { b with status := .free } (.chairTotal { c with clientStatus := .shaven }) := by
      rw [clientStmt, if_pos hmore]
    by_cases hfull : qFull { b with status := .free } = true
    · have hle : b.waitingRoomSize ≤ b.totalClients := by simpa [qFull] using hfull
      have htest : clientStmt (S.pid i) (S.shaves i) { b with status := .free }
          (.chairSize { c with clientStatus := .shaven } b.totalClients) =
            .goOn { b with status := .free } (.elseTotal { c with clientStatus := .shaven }) := by
        rw [clientStmt, if_pos hle]
      have helse : clientStmt (S.pid i) (S.shaves i) { b with status := .free }
          (.elseSize { c with clientStatus := .shaven } b.totalClients) =
            .goOn { b with status := .free }
              (.semReturn { c with clientStatus := .shaven, pc := .left .noFreeChair }) := by
        rw [clientStmt, if_pos hle]
      have hsec : chairSection (S.pid i) (S.shaves i) b c =
          ({ b with status := .free },
            { c with clientStatus := .shaven, pc := .left .noFreeChair }) := by
        simp [chairSection, hst, hme, hmore, hfull]
      rw [hsec]
      exact .head hstmt (.head rfl (.head htest (.head rfl (.head helse (.refl _)))))
    · have hlt : ¬ b.waitingRoomSize ≤ b.totalClients := by simpa [qFull] using hfull
      have htest : clientStmt (S.pid i) (S.shaves i) { b with status := .free }
          (.chairSize { c with clientStatus := .shaven } b.totalClients) =
            .goOn { b with status := .free }
              (.enqueueTotal (shavenTest (S.shaves i) { c with clientStatus := .shaven })) := by
        rw [clientStmt, if_neg hlt]
      have hsec : chairSection (S.pid i) (S.shaves i) b c =
          (enqueue (S.pid i) { b with status := .free },
            shavenTest (S.shaves i) { c with clientStatus := .shaven }) := by
        simp [chairSection, hst, hme, hmore, hfull]
      rw [hsec]
      exact .head hstmt (.head rfl (.head htest (S.inside_enqueue i _ _)))
  · have hstmt : clientStmt (S.pid i) (S.shaves i) b (.setFree { c with clientStatus := .shaven }) =
        .goOn { b with status := .free }
          (.semReturn (shavenTest (S.shaves i) { c with clientStatus := .shaven })) := by
      rw [clientStmt, if_neg hmore]
    have hsec : chairSection (S.pid i) (S.shaves i) b c =
        ({ b with status := .free },
          shavenTest (S.shaves i) { c with clientStatus := .shaven }) := by
      simp [chairSection, hst, hme, hmore]
    rw [hsec]
    exact .head hstmt (.refl _)

/-- The statements of the section of the second `while` loop. -/
theorem inside_chairSection :
    S.sections.Inside (.client i) (b, .chairStatus c)
      ((chairSection (S.pid i) (S.shaves i) b c).1,
        .semReturn (chairSection (S.pid i) (S.shaves i) b c).2) := by
  by_cases hst : b.status = .endShaving
  · have hstmt : clientStmt (S.pid i) (S.shaves i) b (.chairStatus c) = .goOn b (.chairCurr c) := by
      rw [clientStmt, if_pos hst]
    by_cases hme : S.pid i = b.currClient
    · have hcurr : clientStmt (S.pid i) (S.shaves i) b (.chairCurr c) =
          .goOn b (.setFree { c with clientStatus := .shaven }) := by
        rw [clientStmt, if_pos hme]
      exact .head hstmt (.head hcurr (S.inside_setFree i b c hst hme))
    · have hcurr : clientStmt (S.pid i) (S.shaves i) b (.chairCurr c) =
          .goOn b (.semReturn (shavenTest (S.shaves i) c)) := by
        rw [clientStmt, if_neg hme]
      have hsec : chairSection (S.pid i) (S.shaves i) b c = (b, shavenTest (S.shaves i) c) := by
        simp [chairSection, hme]
      rw [hsec]
      exact .head hstmt (.head hcurr (.refl _))
  · have hstmt : clientStmt (S.pid i) (S.shaves i) b (.chairStatus c) =
        .goOn b (.semReturn (shavenTest (S.shaves i) c)) := by
      rw [clientStmt, if_neg hst]
    have hsec : chairSection (S.pid i) (S.shaves i) b c = (b, shavenTest (S.shaves i) c) := by
      simp [chairSection, hst]
    rw [hsec]
    exact .head hstmt (.refl _)

end Client

/-- The statements of every section do what the section does in one step. -/
theorem performs : S.sections.Performs S.program := by
  refine ⟨?_, ?_, ?_⟩
  · intro t a hdone m
    cases t with
    | barber => exact absurd hdone (by simp [sections])
    | client i =>
      obtain ⟨pc, st, first, curr⟩ := a
      cases pc with
      | left how => rfl
      | _ => exact absurd hdone (by simp [sections, clientBetween])
  · intro t a a' hgo m
    cases t with
    | barber => exact absurd hgo (by simp [sections])
    | client i =>
      obtain ⟨pc, st, first, curr⟩ := a
      cases pc with
      | outside =>
        obtain rfl := Between.goOn.inj hgo
        rfl
      | _ => exact absurd hgo (by simp [sections, clientBetween])
  · intro t a l hwait m
    cases t with
    | barber =>
      obtain rfl := Between.wait.inj hwait
      exact ⟨_, (), ⟨_, S.inside_barberSection m, rfl⟩, rfl⟩
    | client i =>
      obtain ⟨pc, st, first, curr⟩ := a
      cases pc with
      | arriving =>
        obtain rfl := Between.wait.inj hwait
        exact ⟨_, _, ⟨_, S.inside_arriveSection i m _, rfl⟩, rfl⟩
      | waiting =>
        obtain rfl := Between.wait.inj hwait
        exact ⟨_, _, ⟨_, S.inside_waitSection i m _, rfl⟩, rfl⟩
      | inChair =>
        obtain rfl := Between.wait.inj hwait
        exact ⟨_, _, ⟨_, S.inside_chairSection i m _, rfl⟩, rfl⟩
      | _ => exact absurd hwait (by simp [sections, clientBetween])

/-- What holds of every state that the statements go through. -/
structure Atomic [DecidableEq ι] (r : Global (Guarded Barbershop)
    (Sections.Local (Local ι) (InSection ι))) : Prop where
  /-- The semaphore is free and nobody is inside a section, or it is taken and one is. -/
  exclusive : (r.mem.sem = 1 ∧ ∀ t l, r.loc t ≠ .inside l) ∨
    (r.mem.sem = 0 ∧ ∃ t, (∃ l, r.loc t = .inside l) ∧ ∀ u l, r.loc u = .inside l → u = t)
  /-- While the semaphore is free the state is one of the whole sections. -/
  free : r.mem.sem = 1 →
    ∃ sched, r = Sections.embed (InSection ι) (S.program.run sched S.start)
  /-- The section that is under way can be finished. -/
  finish : ∃ sched, (S.sections.program.run sched r).mem.sem = 1

/-- **The sections are atomic.**  Every interleaving of the statements goes through states
of whole sections and at most one section that is under way, and every interleaving of
whole sections is one of statements. -/
theorem sections_atomic [DecidableEq ι] :
    (∀ sched, S.Atomic
      (S.sections.program.run sched (Sections.embed (InSection ι) S.start))) ∧
    ∀ sched, ∃ sched', S.sections.program.run sched' (Sections.embed (InSection ι) S.start) =
      Sections.embed (InSection ι) (S.program.run sched S.start) := by
  constructor
  · intro sched
    have hreach := S.sections.program.reach_run sched (Sections.embed (InSection ι) S.start)
    refine ⟨(S.performs.serial hreach).exclusive, fun hfree => ?_, ?_⟩
    · have hne : (S.sections.program.run sched
          (Sections.embed (InSection ι) S.start)).mem.sem ≠ 0 := by
        rw [hfree]
        exact Nat.one_ne_zero
      obtain ⟨s', hs', heq⟩ := (S.performs.reach_free_iff hne).mp hreach
      obtain ⟨sched', rfl⟩ := S.program.exists_run_of_reach hs'
      exact ⟨sched', heq⟩
    · obtain ⟨s', -, hr⟩ := S.performs.exists_free hreach
      obtain ⟨sched', hsched'⟩ := S.sections.program.exists_run_of_reach hr
      exact ⟨sched', by rw [hsched']; rfl⟩
  · intro sched
    apply S.sections.program.exists_run_of_reach
    exact S.performs.reach_embed (S.program.reach_run sched S.start)

end Setup

end Barber
end OpSys
