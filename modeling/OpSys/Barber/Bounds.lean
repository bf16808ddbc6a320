import OpSys.Barber.Statements

/-!
# The array of the waiting room

`enqueue` and `dequeue` check nothing but the emptiness and the fullness of the queue,
and they read `total_clients` again for every access.  While one semaphore guards their
statements every access is inside the array `q`, also between the statements.

## Main definitions

* `BarberStmt.index`, `ClientStmt.index` — the index of the next access to `q`.
* `Ranged` — the counters of the record are in range.
* `BarberStmt.Fits`, `ClientStmt.Fits` — what a process relies on inside its section.
* `InBounds` — every access that is to come is inside the array.

## Main results

* `Setup.in_bounds` — no interleaving of the statements leaves the array.

## References

`lab6_semaphores_shared_mem/POSIX/common.h` and `SystemV/common.h`.
-/

namespace OpSys
namespace Barber

/-- The index of the barber's next access to `q`. -/
def BarberStmt.index : BarberStmt → Option ℤ
  | .readHead => some 0
  | .shiftRead _ i => some (i + 1)
  | .shiftWrite _ i _ => some i
  | .lastWrite _ total => some (total - 1)
  | _ => none

/-- The index of a client's next access to `q`. -/
def ClientStmt.index : ClientStmt → Option ℤ
  | .slotWrite _ total => some total
  | _ => none

/-- The counters of the record are in range. -/
structure Ranged (b : Barbershop) : Prop where
  nonneg : 0 ≤ b.totalClients
  le : b.totalClients ≤ maxClients
  size : b.waitingRoomSize ≤ maxClients

/-- What the barber relies on inside its section. -/
def BarberStmt.Fits (b : Barbershop) : BarberStmt → Prop
  | .readHead | .shiftTest _ _ | .lastRead _ | .decRead _ => 0 < b.totalClients
  | .shiftRead _ i | .shiftWrite _ i _ => (i : ℤ) < b.totalClients - 1
  | .lastWrite _ total | .decWrite _ total => total = b.totalClients ∧ 0 < b.totalClients
  | _ => True

/-- What a client relies on inside its section. -/
def ClientStmt.Fits (b : Barbershop) : ClientStmt → Prop
  | .enqueueSize _ total => total = b.totalClients
  | .slotRead _ | .incRead _ => b.totalClients < b.waitingRoomSize
  | .slotWrite _ total | .incWrite _ total =>
    total = b.totalClients ∧ b.totalClients < b.waitingRoomSize
  | _ => True

/-! ### A statement keeps it -/

section Statement

variable {b b' : Barbershop}

theorem Ranged.barberStmt {l l' : BarberStmt} (hr : Ranged b) (hf : l.Fits b)
    (h : Barber.barberStmt b l = .goOn b' l') : Ranged b' := by
  obtain ⟨h₀, hle, hsize⟩ := hr
  cases l with
  | switch =>
    simp only [Barber.barberStmt] at h
    split at h
    all_goals
      obtain ⟨rfl, -⟩ := Stmt.goOn.inj h
      exact ⟨h₀, hle, hsize⟩
  | decWrite client total =>
    obtain ⟨rfl, -⟩ := Stmt.goOn.inj h
    obtain ⟨rfl, hpos⟩ := hf
    exact ⟨by show 0 ≤ b.totalClients - 1; omega, by show b.totalClients - 1 ≤ _; omega, hsize⟩
  | semReturn => exact absurd h (by simp [Barber.barberStmt])
  | _ =>
    obtain ⟨rfl, -⟩ := Stmt.goOn.inj h
    exact ⟨h₀, hle, hsize⟩

theorem BarberStmt.Fits.next {l l' : BarberStmt} (hr : Ranged b) (hf : l.Fits b)
    (h : Barber.barberStmt b l = .goOn b' l') : l'.Fits b' := by
  cases l with
  | switch =>
    simp only [Barber.barberStmt] at h
    split at h
    all_goals
      obtain ⟨-, rfl⟩ := Stmt.goOn.inj h
      trivial
  | testEmpty =>
    obtain ⟨-, rfl⟩ := Stmt.goOn.inj h
    split <;> trivial
  | dequeueTest =>
    obtain ⟨rfl, rfl⟩ := Stmt.goOn.inj h
    split
    · rename_i hne
      -- the queue is not empty, and the counter is never negative
      have := (qEmpty_eq_false_iff b).mp (by simpa using hne)
      have := hr.nonneg
      show 0 < b.totalClients
      omega
    · trivial
  | shiftTest client i =>
    obtain ⟨rfl, rfl⟩ := Stmt.goOn.inj h
    split
    · assumption
    · exact hf
  | shiftWrite client i next =>
    obtain ⟨rfl, rfl⟩ := Stmt.goOn.inj h
    show 0 < b.totalClients
    have : (i : ℤ) < b.totalClients - 1 := hf
    omega
  | lastRead client | decRead client =>
    obtain ⟨rfl, rfl⟩ := Stmt.goOn.inj h
    exact ⟨rfl, hf⟩
  | lastWrite client total =>
    obtain ⟨rfl, rfl⟩ := Stmt.goOn.inj h
    exact hf.2
  | readHead | shiftRead client i =>
    obtain ⟨rfl, rfl⟩ := Stmt.goOn.inj h
    exact hf
  | semReturn => exact absurd h (by simp [Barber.barberStmt])
  | _ =>
    obtain ⟨-, rfl⟩ := Stmt.goOn.inj h
    trivial

variable {me : Pid} {shaves : ℤ}

theorem Ranged.clientStmt {l l' : ClientStmt} (hr : Ranged b) (hf : l.Fits b)
    (h : Barber.clientStmt me shaves b l = .goOn b' l') : Ranged b' := by
  obtain ⟨h₀, hle, hsize⟩ := hr
  cases l with
  | incWrite after total =>
    obtain ⟨rfl, -⟩ := Stmt.goOn.inj h
    obtain ⟨rfl, hlt⟩ := hf
    exact ⟨by show 0 ≤ b.totalClients + 1; omega, by show b.totalClients + 1 ≤ _; omega, hsize⟩
  | semReturn => exact absurd h (by simp [Barber.clientStmt])
  | _ =>
    obtain ⟨rfl, -⟩ := Stmt.goOn.inj h
    exact ⟨h₀, hle, hsize⟩

theorem ClientStmt.Fits.next {l l' : ClientStmt} (hf : l.Fits b)
    (h : Barber.clientStmt me shaves b l = .goOn b' l') : l'.Fits b' := by
  cases l with
  | enqueueTotal after =>
    obtain ⟨rfl, rfl⟩ := Stmt.goOn.inj h
    rfl
  | enqueueSize after total =>
    obtain ⟨rfl, rfl⟩ := Stmt.goOn.inj h
    obtain rfl : total = b.totalClients := hf
    split
    · trivial
    · exact Int.not_le.mp (by assumption)
  | slotRead after | incRead after =>
    obtain ⟨rfl, rfl⟩ := Stmt.goOn.inj h
    exact ⟨rfl, hf⟩
  | slotWrite after total =>
    obtain ⟨rfl, rfl⟩ := Stmt.goOn.inj h
    exact hf.2
  | arriveSize | arriveStatus | waitStatus | waitCurr | chairStatus | chairCurr | setFree
  | chairSize | elseSize =>
    obtain ⟨rfl, rfl⟩ := Stmt.goOn.inj h
    repeat' split
    all_goals trivial
  | semReturn => exact absurd h (by simp [Barber.clientStmt])
  | _ =>
    obtain ⟨rfl, rfl⟩ := Stmt.goOn.inj h
    trivial

end Statement

/-! ### The runs -/

section Runs

variable {ι : Type*} {S : Setup ι}

theorem ShopInv.ranged {b : Barbershop} (h : ShopInv S b) : Ranged b :=
  ⟨h.nonneg, h.toSound.le_maxClients, by rw [h.size]; exact S.seats_le⟩

/-- What a process relies on inside its section. -/
def Fits : (t : Who ι) → Barbershop → InSection ι t → Prop
  | .barber, b, l => BarberStmt.Fits b l
  | .client _, b, l => ClientStmt.Fits b l

/-- The index of a process's next access to `q`. -/
def index : (t : Who ι) → InSection ι t → Option ℤ
  | .barber, l => BarberStmt.index l
  | .client _, l => ClientStmt.index l

/-- It holds along a section. -/
theorem fits_inside {t : Who ι} {x y : Barbershop × InSection ι t}
    (h : S.sections.Inside t x y) (hr : Ranged x.1) (hf : Fits t x.1 x.2) :
    Ranged y.1 ∧ Fits t y.1 y.2 := by
  induction h with
  | refl => exact ⟨hr, hf⟩
  | tail _ hlast ih =>
    obtain ⟨hr', hf'⟩ := ih
    cases t with
    | barber => exact ⟨hr'.barberStmt hf' hlast, BarberStmt.Fits.next hr' hf' hlast⟩
    | client i => exact ⟨hr'.clientStmt hf' hlast, ClientStmt.Fits.next hf' hlast⟩

/-- A section begins with nothing to rely on. -/
theorem fits_wait {t : Who ι} {a : Local ι t} {l : InSection ι t}
    (h : S.sections.between t a = .wait l) (b : Barbershop) : Fits t b l := by
  cases t with
  | barber =>
    obtain rfl := Between.wait.inj h
    trivial
  | client i =>
    obtain ⟨pc, st, first, curr⟩ := a
    cases pc with
    | arriving =>
      obtain rfl := Between.wait.inj h
      show ClientStmt.Fits b (if _ then _ else _)
      split <;> trivial
    | waiting | inChair =>
      obtain rfl := Between.wait.inj h
      trivial
    | _ => exact absurd h (by simp [Setup.sections, clientBetween])

/-- The index of the next access is inside the array. -/
theorem index_lt {t : Who ι} {b : Barbershop} {l : InSection ι t} (hr : Ranged b)
    (hf : Fits t b l) {j : ℤ} (hj : index t l = some j) : 0 ≤ j ∧ j < maxClients := by
  obtain ⟨h₀, hle, hsize⟩ := hr
  have hmax : (maxClients : ℤ) = 32 := rfl
  cases t with
  | barber =>
    cases l with
    | readHead =>
      obtain rfl := Option.some.inj hj
      exact ⟨Int.le_refl 0, by decide⟩
    | shiftRead client i | shiftWrite client i next =>
      obtain rfl := Option.some.inj hj
      -- the shift stops one place before the last
      have : (i : ℤ) < b.totalClients - 1 := hf
      omega
    | lastWrite client total =>
      obtain rfl := Option.some.inj hj
      obtain ⟨rfl, hpos⟩ : total = b.totalClients ∧ 0 < b.totalClients := hf
      omega
    | _ => exact absurd hj (Option.some_ne_none _).symm
  | client i =>
    cases l with
    | slotWrite after total =>
      obtain rfl := Option.some.inj hj
      -- `enqueue` has found the room not full
      obtain ⟨rfl, hlt⟩ : total = b.totalClients ∧ b.totalClients < b.waitingRoomSize := hf
      omega
    | _ => exact absurd hj (Option.some_ne_none _).symm

/-- Every process that is at an access to `q` is at an index of the array. -/
def InBounds (r : Global (Guarded Barbershop) (Sections.Local (Local ι) (InSection ι))) : Prop :=
  ∀ t l, r.loc t = .inside l → ∀ j, index t l = some j → 0 ≤ j ∧ j < maxClients

/-- **No interleaving of the statements leaves the array `q`.** -/
theorem Setup.in_bounds [DecidableEq ι] (S : Setup ι) (sched : List (Who ι)) :
    InBounds (S.sections.program.run sched (Sections.embed (InSection ι) S.start)) := by
  intro t l hloc j hj
  have hreach := S.sections.program.reach_run sched (Sections.embed (InSection ι) S.start)
  obtain ⟨s, hs, hfree | ⟨u, l₀, l', hheld⟩⟩ := S.performs.serial hreach
  · rw [hfree.loc t] at hloc
    exact absurd hloc (by simp)
  · obtain rfl : t = u := by
      by_contra hne
      rw [hheld.others t hne] at hloc
      exact absurd hloc (by simp)
    obtain rfl := Point.inside.inj (hheld.self.symm.trans hloc)
    -- the counters were in range before the section, and the section keeps them there
    have hr : Ranged s.mem := (S.knows_of_reach hs).1.ranged
    obtain ⟨hr', hf'⟩ := fits_inside hheld.inside hr (fits_wait hheld.waited s.mem)
    exact index_lt hr' hf' hj

end Runs

end Barber
end OpSys
