import Mathlib.Data.Int.Notation
import OpSys.Lib.Machine

/-!
# Runs of the System V barber

A semaphore set outlives the process that created it, until it is removed.  A barber
gets the set of its key, or a new one with the value 0, and adds 1 to the value; in
`clean_up` it removes the set, unless the id is 0, which the code takes for "no set".

A run is modelled up to its calls; what a section does to the shared record is the
business of `OpSys.Barber.Program`.  Clients take and return the semaphore of the set.
The removal of the set does not end a client that is in its section: it finds out when it
returns the semaphore.

## Main definitions

* `Pc`, `Process`, `State` — a barber, and what the kernel keeps between runs.
* `proceed`, `cleanUp`, `Event`, `machine` — the statements of a run, and the histories.
* `Usable` — a barber finds one token, and at most one process is in its section.
* `Sound` — there is one token if a barber has added its own, and none otherwise.
* `Tidy` — a signal leaves neither a token over nor a client in its section.

## Main results

* `step_spec` — a step that is tidy keeps the tokens right.
* `not_lasting` — one that is not lets two processes into their sections, or shows another
  value than 1.
* `usable_iff` — when the semaphore is usable in every run.

## References

`lab6_semaphores_shared_mem/SystemV/barber.c`, `common.h`.
-/

namespace OpSys
namespace Barber
namespace SystemV

/-- Where a barber is: before a call of `init_barbershop`, before its last assignments,
before `sem_take`, or between `sem_take` and `sem_return`. -/
inductive Pc
  | ftok
  | shmget
  | shmat
  | semget
  | semReturn
  | fill
  | semTake
  | inSection
  deriving DecidableEq, Repr

/-- The process of a barber: `mem_id` and `sem_id`. -/
structure Process where
  pc : Pc
  memId : ℤ
  semId : ℤ
  deriving DecidableEq, Repr

/-- A process with its handlers installed: global variables start at zero. -/
def Process.new : Process := ⟨.ftok, 0, 0⟩

/-- A semaphore set: its id, and the value of its semaphore. -/
structure SemSet where
  id : ℕ
  value : ℕ
  deriving DecidableEq, Repr

/-- The segment and the set of the key, the barber that runs, if one does, and the clients
between `sem_take` and `sem_return`: the number of those that have taken the semaphore of
the set, and the ids of the sets that have been removed under the others. -/
structure State where
  shm : Option ℕ
  set : Option SemSet
  barber : Option Process
  inside : ℕ
  outlived : List ℕ
  deriving DecidableEq, Repr

/-- Before the first run. -/
def boot : State := ⟨none, none, none, 0, []⟩

/-- `semctl(semId, 0, IPC_RMID)`.  The clients in their sections stay there. -/
def semctlRmid (semId : ℤ) (s : State) : State :=
  match s.set with
  | none => s
  | some set =>
    if (set.id : ℤ) = semId then
      { s with
        set := none
        inside := 0
        outlived := List.replicate s.inside set.id ++ s.outlived }
    else s

/-- `shmctl(memId, IPC_RMID, NULL)`. -/
def shmctlRmid (memId : ℤ) (s : State) : State :=
  if s.shm.any fun id => (id : ℤ) = memId then { s with shm := none } else s

/-- `exit` with `clean_up`. -/
def cleanUp (p : Process) (s : State) : State :=
  let s := if p.semId ≠ 0 then semctlRmid p.semId s else s
  let s := if p.memId ≠ 0 then shmctlRmid p.memId s else s
  { s with barber := none }

/-- The next statement of a barber, `id` being the id that the kernel gives to a new
segment or set. -/
def proceed (id : ℕ) (p : Process) (s : State) : Option State :=
  match p.pc with
  | .ftok => some { s with barber := some { p with pc := .shmget } }
  | .shmget =>
    some { s with
      shm := some (s.shm.getD id)
      barber := some { p with pc := .shmat, memId := s.shm.getD id } }
  | .shmat => some { s with barber := some { p with pc := .semget } }
  | .semget =>
    -- without IPC_EXCL a set that is there already is as good as a new one
    some { s with
      set := some (s.set.getD ⟨id, 0⟩)
      barber := some { p with pc := .semReturn, semId := (s.set.getD ⟨id, 0⟩).id } }
  | .semReturn =>
    s.set.map fun set =>
      { s with
        set := some { set with value := set.value + 1 }
        barber := some { p with pc := .fill } }
  | .fill => some { s with barber := some { p with pc := .semTake } }
  | .semTake =>
    match s.set with
    | some ⟨id, v + 1⟩ =>
      some { s with set := some ⟨id, v⟩, barber := some { p with pc := .inSection } }
    | _ => none
  | .inSection =>
    s.set.map fun set =>
      { s with
        set := some { set with value := set.value + 1 }
        barber := some { p with pc := .semTake } }

/-- A call of `init_barbershop` fails, and `EXIT_MSG` exits. -/
def failCall (p : Process) (s : State) : Option State :=
  match p.pc with
  | .ftok => some (cleanUp p s)
  | .shmget => some (cleanUp { p with memId := -1 } s)
  | .shmat => some (cleanUp p s)
  | .semget => some (cleanUp { p with semId := -1 } s)
  | .semReturn => some (cleanUp p s)
  | _ => none

/-- What happens next: a barber is started, goes on or meets a failing call, SIGINT or
SIGTERM is delivered to it, a client takes or returns the semaphore, or one returns a
semaphore whose set has been removed under it. -/
inductive Event
  | start
  | proceed (id : ℕ)
  | failCall
  | signal
  | clientTake
  | clientReturn
  | lateReturn (id : ℕ)
  deriving DecidableEq, Repr

/-- The runs of barbers, one after the other. -/
def machine : Machine Event State where
  step
    | .start, s => if s.barber = none then some { s with barber := some .new } else none
    | .proceed id, s => s.barber.bind fun p => proceed id p s
    | .failCall, s => s.barber.bind fun p => failCall p s
    | .signal, s => s.barber.map fun p => cleanUp p s
    | .clientTake, s =>
      match s.set with
      | some ⟨id, v + 1⟩ => some { s with set := some ⟨id, v⟩, inside := s.inside + 1 }
      | _ => none
    | .clientReturn, s =>
      if 0 < s.inside then
        s.set.map fun set =>
          { s with set := some { set with value := set.value + 1 }, inside := s.inside - 1 }
      else none
    | .lateReturn id, s =>
      -- the call fails and the client exits, unless a new set has got the old id
      if id ∈ s.outlived then
        some { s with
          set := s.set.map fun set =>
            if set.id = id then { set with value := set.value + 1 } else set
          outlived := s.outlived.erase id }
      else none

/-! ### The tokens -/

/-- 1 if the barber is between `sem_take` and `sem_return`. -/
def barberInside : Option Process → ℕ
  | some ⟨.inSection, _, _⟩ => 1
  | _ => 0

/-- 1 if the barber has added its token. -/
def own : Option Process → ℕ
  | some ⟨.fill, _, _⟩ => 1
  | some ⟨.semTake, _, _⟩ => 1
  | some ⟨.inSection, _, _⟩ => 1
  | _ => 0

/-- 1 if the token that the barber has added is not with the barber. -/
def given : Option Process → ℕ
  | some ⟨.fill, _, _⟩ => 1
  | some ⟨.semTake, _, _⟩ => 1
  | _ => 0

/-- The value of the semaphore. -/
def value (set : Option SemSet) : ℕ := set.elim 0 SemSet.value

/-- The value of the semaphore, and the processes that are to return it. -/
def tokens (s : State) : ℕ := value s.set + s.inside + barberInside s.barber

/-- A barber that is about to take the semaphore finds its one token, if no client has it,
and at most one process is between `sem_take` and `sem_return`. -/
structure Usable (s : State) : Prop where
  value : ∀ p, s.barber = some p → p.pc = .semTake → value s.set + s.inside = 1
  exclusive : s.inside + s.outlived.length + barberInside s.barber ≤ 1

/-- The semaphore is usable in whatever way the history goes on without another signal. -/
def Lasting (s : State) : Prop :=
  ∀ es, machine.Meets (fun e _ => e ≠ .signal) es s → Usable (machine.run es s)

/-- Before `semget`. -/
def Pc.Early (pc : Pc) : Prop := pc = .ftok ∨ pc = .shmget ∨ pc = .shmat ∨ pc = .semget

/-- The set that the barber uses is that of its `sem_id`. -/
structure Uses (s : State) (p : Process) : Prop where
  semId_of_early : p.pc.Early → p.semId = 0
  set_of_late : ¬p.pc.Early → ∃ set, s.set = some set ∧ p.semId = set.id

/-- What holds while no token is left over from an earlier run, and no client in its section
either. -/
structure Sound (s : State) : Prop where
  whole : tokens s = own s.barber
  outlived : s.outlived = []
  inside_of_none : s.set = none → s.inside = 0
  uses : ∀ p, s.barber = some p → Uses s p
  /-- A set that no barber uses has the id 0. -/
  id_of_unused : ∀ set, s.set = some set → (∀ p, s.barber = some p → p.pc.Early) → set.id = 0

/-- The signal does not end a run with the id 0 while its token is in the semaphore or with a
client, nor one with another id while a client is in its section. -/
def Tidy (e : Event) (s : State) : Prop :=
  e = .signal → ∀ p, s.barber = some p →
    (p.semId = 0 → given (some p) = 0) ∧ (p.semId ≠ 0 → s.inside = 0)

theorem own_eq (b : Option Process) : own b = given b + barberInside b := by
  cases b with
  | none => rfl
  | some p =>
    obtain ⟨pc, memId, semId⟩ := p
    cases pc <;> rfl

theorem own_le (b : Option Process) : own b ≤ 1 := by
  cases b with
  | none => exact Nat.zero_le _
  | some p =>
    obtain ⟨pc, memId, semId⟩ := p
    cases pc <;> simp [own]

theorem own_of_early {p : Process} (h : p.pc.Early) : own (some p) = 0 := by
  obtain ⟨pc, memId, semId⟩ := p
  rcases h with h | h | h | h <;> (obtain rfl : pc = _ := h; rfl)

theorem barberInside_of_own {b : Option Process} (h : own b = 0) : barberInside b = 0 := by
  have := own_eq b
  omega

theorem sound_boot : Sound boot where
  whole := rfl
  outlived := rfl
  inside_of_none := fun _ => rfl
  uses := fun _ hp => absurd hp (Option.some_ne_none _).symm
  id_of_unused := fun _ hset _ => absurd hset (Option.some_ne_none _).symm

/-- While the tokens are right the semaphore is usable. -/
theorem Sound.usable {s : State} (hs : Sound s) : Usable s := by
  have hwhole := hs.whole
  constructor
  · intro p hp hpc
    obtain ⟨pc, memId, semId⟩ := p
    obtain rfl : pc = .semTake := hpc
    rw [tokens, hp] at hwhole
    exact hwhole
  · have hle := own_le s.barber
    rw [hs.outlived]
    rw [tokens] at hwhole
    show s.inside + 0 + barberInside s.barber ≤ 1
    omega

/-! ### The statements of a barber -/

/-- A step that leaves the set and the clients alone, and the barber with its place. -/
theorem spec_early {s : State} (hs : Sound s) {p q : Process} {shm : Option ℕ}
    (hp : s.barber = some p) (hearly : p.pc.Early) (hq : q.pc.Early) (hsem : q.semId = p.semId) :
    Sound { s with shm := shm, barber := some q } := by
  have hown := hs.whole
  rw [tokens, hp, own_of_early hearly, barberInside_of_own (own_of_early hearly)] at hown
  have hzero := (hs.uses p hp).semId_of_early hearly
  refine ⟨?_, hs.outlived, hs.inside_of_none, ?_, ?_⟩
  · rw [own_of_early hq]
    show value s.set + s.inside + barberInside (some q) = 0
    rw [barberInside_of_own (own_of_early hq)]
    exact hown
  · intro r hr
    obtain rfl := Option.some.inj hr
    exact ⟨fun _ => hsem.trans hzero, fun hlate => absurd hq hlate⟩
  · intro set hset _
    refine hs.id_of_unused set hset fun r hr => ?_
    obtain rfl := Option.some.inj (hp.symm.trans hr)
    exact hearly

/-- A step of a barber that uses a set, which moves a token or adds that of the barber. -/
theorem spec_late {s : State} (hs : Sound s) {p q : Process} {set set' : SemSet}
    (hp : s.barber = some p) (hset : s.set = some set) (hlate : ¬p.pc.Early) (hq : ¬q.pc.Early)
    (hsem : q.semId = p.semId) (hid : set'.id = set.id)
    (htok : set'.value + barberInside (some q) + own (some p) =
      set.value + barberInside (some p) + own (some q)) :
    Sound { s with set := some set', barber := some q } := by
  have hwhole := hs.whole
  rw [tokens, hset, hp] at hwhole
  refine ⟨?_, hs.outlived, fun h => absurd h (Option.some_ne_none _), ?_, ?_⟩
  · show set'.value + s.inside + barberInside (some q) = own (some q)
    have hvalue : set.value + s.inside + barberInside (some p) = own (some p) := hwhole
    omega
  · intro r hr
    obtain rfl := Option.some.inj hr
    obtain ⟨set₁, hset₁, hsem₁⟩ := (hs.uses p hp).set_of_late hlate
    obtain rfl := Option.some.inj (hset.symm.trans hset₁)
    exact ⟨fun h => absurd h hq, fun _ => ⟨set', rfl, by rw [hsem, hsem₁, hid]⟩⟩
  · intro set₁ _ hall
    exact absurd (hall q rfl) hq

/-- `semget` gives the set that is there, or one without a token. -/
theorem spec_semget {s : State} (hs : Sound s) {p q : Process} (id : ℕ) (hp : s.barber = some p)
    (hearly : p.pc.Early) (hq : ¬q.pc.Early) (hown : own (some q) = 0)
    (hsem : q.semId = (s.set.getD ⟨id, 0⟩).id) :
    Sound { s with set := some (s.set.getD ⟨id, 0⟩), barber := some q } := by
  have hwhole := hs.whole
  rw [tokens, hp, own_of_early hearly, barberInside_of_own (own_of_early hearly)] at hwhole
  have hvalue : value (some (s.set.getD ⟨id, 0⟩)) = value s.set := by
    cases s.set <;> rfl
  refine ⟨?_, hs.outlived, fun h => absurd h (Option.some_ne_none _), ?_, ?_⟩
  · rw [hown]
    show value (some (s.set.getD ⟨id, 0⟩)) + s.inside + barberInside (some q) = 0
    rw [hvalue, barberInside_of_own hown]
    exact hwhole
  · intro r hr
    obtain rfl := Option.some.inj hr
    exact ⟨fun h => absurd h hq, fun _ => ⟨_, rfl, hsem⟩⟩
  · intro set _ hall
    exact absurd (hall q rfl) hq

/-- A statement of the barber keeps the tokens right. -/
theorem spec_proceed {id : ℕ} {p : Process} {s s' : State} (hs : Sound s)
    (hp : s.barber = some p) (h : proceed id p s = some s') : Sound s' := by
  obtain ⟨pc, memId, semId⟩ := p
  have hlate : ∀ pc', ¬Pc.Early pc' → pc = pc' → ∃ set, s.set = some set := by
    rintro pc' hpc rfl
    obtain ⟨set, hset, -⟩ := (hs.uses _ hp).set_of_late hpc
    exact ⟨set, hset⟩
  -- before `semget` the run has no set yet
  cases pc with
  | ftok =>
    obtain rfl := Option.some.inj h
    exact spec_early hs hp (Or.inl rfl) (Or.inr (Or.inl rfl)) rfl
  | shmget =>
    obtain rfl := Option.some.inj h
    exact spec_early hs hp (Or.inr (Or.inl rfl)) (Or.inr (Or.inr (Or.inl rfl))) rfl
  | shmat =>
    obtain rfl := Option.some.inj h
    exact spec_early hs hp (Or.inr (Or.inr (Or.inl rfl))) (Or.inr (Or.inr (Or.inr rfl))) rfl
  | semget =>
    obtain rfl := Option.some.inj h
    exact spec_semget hs id hp (Or.inr (Or.inr (Or.inr rfl))) (by simp [Pc.Early]) rfl rfl
  | semReturn =>
    obtain ⟨set, hset, rfl⟩ := Option.map_eq_some_iff.mp h
    exact spec_late hs hp hset (by simp [Pc.Early]) (by simp [Pc.Early]) rfl rfl
      (by simp [barberInside, own])
  | fill =>
    obtain ⟨set, hset⟩ := hlate .fill (by simp [Pc.Early]) rfl
    obtain rfl := Option.some.inj h
    have hspec := spec_late (q := ⟨.semTake, memId, semId⟩) hs hp hset (by simp [Pc.Early])
      (by simp [Pc.Early]) rfl rfl rfl
    rw [← hset] at hspec
    exact hspec
  | semTake =>
    obtain ⟨⟨id', v⟩, hset⟩ := hlate .semTake (by simp [Pc.Early]) rfl
    rw [proceed] at h
    simp only [hset] at h
    -- `semop` waits for a token
    cases v with
    | zero => cases h
    | succ v =>
      obtain rfl := Option.some.inj h
      exact spec_late hs hp hset (by simp [Pc.Early]) (by simp [Pc.Early]) rfl rfl
        (by simp [barberInside, own])
  | inSection =>
    obtain ⟨set, hset, rfl⟩ := Option.map_eq_some_iff.mp h
    exact spec_late hs hp hset (by simp [Pc.Early]) (by simp [Pc.Early]) rfl rfl
      (by simp [barberInside, own])

/-- The steps of a client move a token. -/
theorem spec_client {s : State} (hs : Sound s) {set set' : SemSet} {inside : ℕ}
    (hset : s.set = some set) (hid : set'.id = set.id)
    (htok : set'.value + inside = set.value + s.inside) :
    Sound { s with set := some set', inside := inside } := by
  have hwhole := hs.whole
  rw [tokens, hset] at hwhole
  refine ⟨?_, hs.outlived, fun h => absurd h (Option.some_ne_none _), ?_, ?_⟩
  · rw [← hwhole]
    exact congrArg (· + barberInside s.barber) htok
  · intro p hp
    refine ⟨(hs.uses p hp).semId_of_early, fun hlate => ?_⟩
    obtain ⟨set₁, hset₁, hsem⟩ := (hs.uses p hp).set_of_late hlate
    obtain rfl := Option.some.inj (hset.symm.trans hset₁)
    exact ⟨set', rfl, by rw [hsem, hid]⟩
  · intro set₁ hset₁ hall
    obtain rfl := Option.some.inj hset₁
    rw [hid]
    exact hs.id_of_unused set hset hall

/-! ### The end of a run -/

/-- What `clean_up` leaves alone or changes, apart from the segment and the barber. -/
theorem cleanUp_frame (p : Process) (s : State) :
    (cleanUp p s).barber = none ∧
      (cleanUp p s).set = (if p.semId ≠ 0 then semctlRmid p.semId s else s).set ∧
      (cleanUp p s).inside = (if p.semId ≠ 0 then semctlRmid p.semId s else s).inside ∧
      (cleanUp p s).outlived = (if p.semId ≠ 0 then semctlRmid p.semId s else s).outlived := by
  have hshm : ∀ memId t, (shmctlRmid memId t).set = t.set ∧
      (shmctlRmid memId t).inside = t.inside ∧ (shmctlRmid memId t).outlived = t.outlived := by
    intro memId t
    unfold shmctlRmid
    split <;> exact ⟨rfl, rfl, rfl⟩
  refine ⟨rfl, ?_⟩
  rw [cleanUp]
  by_cases hmem : p.memId ≠ 0
  · simp only [if_pos hmem]
    exact hshm _ _
  · simp only [if_neg hmem, and_self]

/-- The set stays when the id is 0 or not its own. -/
theorem cleanUp_keeps {p : Process} {s : State}
    (h : p.semId = 0 ∨ ∀ set, s.set = some set → (set.id : ℤ) ≠ p.semId) :
    (cleanUp p s).barber = none ∧ (cleanUp p s).set = s.set ∧
      (cleanUp p s).inside = s.inside ∧ (cleanUp p s).outlived = s.outlived := by
  have hframe := cleanUp_frame p s
  by_cases hzero : p.semId = 0
  · rwa [if_neg (Classical.not_not.mpr hzero)] at hframe
  · have hrm : semctlRmid p.semId s = s := by
      unfold semctlRmid
      split
      · rfl
      · rename_i set hset
        rw [if_neg (h.resolve_left hzero set hset)]
    rwa [if_pos hzero, hrm] at hframe

theorem cleanUp_removes {p : Process} {s : State} {set : SemSet} (hzero : p.semId ≠ 0)
    (hset : s.set = some set) (hid : p.semId = set.id) :
    (cleanUp p s).barber = none ∧ (cleanUp p s).set = none ∧ (cleanUp p s).inside = 0 ∧
      (cleanUp p s).outlived = List.replicate s.inside set.id ++ s.outlived := by
  have hframe := cleanUp_frame p s
  have hrm : semctlRmid p.semId s = { s with
      set := none
      inside := 0
      outlived := List.replicate s.inside set.id ++ s.outlived } := by
    simp only [semctlRmid, hset, hid, if_true]
  rwa [if_pos hzero, hrm] at hframe

/-- A run ends and leaves a set without a token. -/
theorem spec_kept {s t : State} (hs : Sound s) {p : Process} (hp : s.barber = some p)
    (ht : t.barber = none ∧ t.set = s.set ∧ t.inside = s.inside ∧ t.outlived = s.outlived)
    (hid : ∀ set, s.set = some set → set.id = 0) (hgiven : given (some p) = 0) : Sound t := by
  obtain ⟨hb, hset, hin, hout⟩ := ht
  have hwhole := hs.whole
  have hown := own_eq (some p)
  rw [tokens, hp] at hwhole
  refine ⟨?_, hout.trans hs.outlived, ?_, ?_, fun set h _ => hid set (hset.symm.trans h)⟩
  · rw [tokens, hset, hin, hb]
    show value s.set + s.inside + 0 = 0
    omega
  · rw [hset, hin]
    exact hs.inside_of_none
  · intro q hq
    rw [hb] at hq
    cases hq

/-- A run ends and the set with it, and nobody is in its section. -/
theorem spec_removed {s t : State} (hs : Sound s) {id : ℕ}
    (ht : t.barber = none ∧ t.set = none ∧ t.inside = 0 ∧
      t.outlived = List.replicate s.inside id ++ s.outlived)
    (hin : s.inside = 0) : Sound t := by
  obtain ⟨hb, hset, hin', hout⟩ := ht
  refine ⟨?_, ?_, fun _ => hin', ?_, ?_⟩
  · rw [tokens, hset, hin', hb]
    rfl
  · rw [hout, hin, hs.outlived]
    rfl
  · intro q hq
    rw [hb] at hq
    cases hq
  · intro set h
    rw [hset] at h
    cases h

/-- The set of a run with the id 0, or of none. -/
theorem Sound.id_eq_zero {s : State} (hs : Sound s) {p : Process} (hp : s.barber = some p)
    (hsem : p.semId = 0) : ∀ set, s.set = some set → set.id = 0 := by
  intro set hset
  by_cases hearly : p.pc.Early
  · refine hs.id_of_unused set hset fun q hq => ?_
    obtain rfl := Option.some.inj (hp.symm.trans hq)
    exact hearly
  · obtain ⟨set', hset', hid⟩ := (hs.uses p hp).set_of_late hearly
    obtain rfl := Option.some.inj (hset.symm.trans hset')
    omega

/-- A run with another id uses the set of this id. -/
theorem Sound.exists_set {s : State} (hs : Sound s) {p : Process} (hp : s.barber = some p)
    (hsem : p.semId ≠ 0) : ∃ set, s.set = some set ∧ p.semId = set.id :=
  (hs.uses p hp).set_of_late fun hearly => hsem ((hs.uses p hp).semId_of_early hearly)

/-- The end of a run that leaves neither a token over nor a client in its section. -/
theorem spec_cleanUp {s : State} (hs : Sound s) {p : Process} (hp : s.barber = some p)
    (hkept : p.semId = 0 → given (some p) = 0) (hremoved : p.semId ≠ 0 → s.inside = 0) :
    Sound (cleanUp p s) := by
  by_cases hzero : p.semId = 0
  · exact spec_kept hs hp (cleanUp_keeps (Or.inl hzero)) (hs.id_eq_zero hp hzero) (hkept hzero)
  · obtain ⟨set, hset, hid⟩ := hs.exists_set hp hzero
    exact spec_removed hs (cleanUp_removes hzero hset hid) (hremoved hzero)

/-- The end of a run whose `init_barbershop` fails: its token is not there yet. -/
theorem spec_failCall {s s' : State} (hs : Sound s) {p : Process} (hp : s.barber = some p)
    (h : failCall p s = some s') : Sound s' := by
  obtain ⟨q, rfl, hown, hkeep⟩ : ∃ q, s' = cleanUp q s ∧ own (some p) = 0 ∧
      (q = p ∨ p.pc.Early ∧ (q.semId = p.semId ∨ q.semId = -1)) := by
    obtain ⟨pc, memId, semId⟩ := p
    cases pc
    case ftok => exact ⟨_, (Option.some.inj h).symm, rfl, Or.inl rfl⟩
    case shmget =>
      exact ⟨_, (Option.some.inj h).symm, rfl, Or.inr ⟨Or.inr (Or.inl rfl), Or.inl rfl⟩⟩
    case shmat => exact ⟨_, (Option.some.inj h).symm, rfl, Or.inl rfl⟩
    case semget =>
      exact ⟨_, (Option.some.inj h).symm, rfl, Or.inr ⟨Or.inr (Or.inr (Or.inr rfl)), Or.inr rfl⟩⟩
    case semReturn => exact ⟨_, (Option.some.inj h).symm, rfl, Or.inl rfl⟩
    all_goals cases h
  have hgiven : given (some p) = 0 := by
    have := own_eq (some p)
    omega
  rcases hkeep with rfl | ⟨hearly, hsem⟩
  · refine spec_cleanUp hs hp (fun _ => hgiven) fun _ => ?_
    -- without the barber's token no client has got one
    have hwhole := hs.whole
    rw [tokens, hp, hown] at hwhole
    omega
  · have hzero := (hs.uses p hp).semId_of_early hearly
    have hkeeps : q.semId = 0 ∨ ∀ set, s.set = some set → (set.id : ℤ) ≠ q.semId := by
      rcases hsem with hsem | hsem
      · exact Or.inl (hsem.trans hzero)
      · right
        intro set _
        omega
    exact spec_kept hs hp (cleanUp_keeps hkeeps) (hs.id_eq_zero hp hzero) hgiven

/-- A new barber has no id yet. -/
theorem spec_start {s : State} (hs : Sound s) (hb : s.barber = none) :
    Sound { s with barber := some .new } := by
  have hwhole := hs.whole
  rw [tokens, hb] at hwhole
  refine ⟨hwhole, hs.outlived, hs.inside_of_none, fun p hp => ?_, fun set hset _ => ?_⟩
  · obtain rfl := Option.some.inj hp
    exact ⟨fun _ => rfl, fun hlate => absurd (Or.inl rfl) hlate⟩
  · refine hs.id_of_unused set hset fun p hp => ?_
    rw [hb] at hp
    cases hp

/-- **What one step does to the tokens**: if it is tidy they stay right. -/
theorem step_spec {e : Event} {s s' : State} (hs : Sound s) (hok : Tidy e s)
    (h : machine.step e s = some s') : Sound s' := by
  cases e with
  | start =>
    by_cases hb : s.barber = none
    · obtain rfl := Option.some.inj ((if_pos hb).symm.trans h)
      exact spec_start hs hb
    · exact absurd ((if_neg hb).symm.trans h) (Option.some_ne_none _).symm
  | proceed id =>
    obtain ⟨p, hp, h⟩ := Option.bind_eq_some_iff.mp h
    exact spec_proceed hs hp h
  | failCall =>
    obtain ⟨p, hp, h⟩ := Option.bind_eq_some_iff.mp h
    exact spec_failCall hs hp h
  | signal =>
    obtain ⟨p, hp, rfl⟩ := Option.map_eq_some_iff.mp h
    exact spec_cleanUp hs hp (hok rfl p hp).1 (hok rfl p hp).2
  | clientTake =>
    -- without the set no client comes in or goes out
    cases hset : s.set with
    | none =>
      simp only [machine, hset] at h
      cases h
    | some set =>
      obtain ⟨id, v⟩ := set
      simp only [machine, hset] at h
      cases v with
      | zero => cases h
      | succ v =>
        obtain rfl := Option.some.inj h
        exact spec_client hs hset rfl (by simp; omega)
  | clientReturn =>
    by_cases hin : 0 < s.inside
    · obtain ⟨set, hset, rfl⟩ := Option.map_eq_some_iff.mp ((if_pos hin).symm.trans h)
      exact spec_client hs hset rfl (by simp; omega)
    · exact absurd ((if_neg hin).symm.trans h) (Option.some_ne_none _).symm
  | lateReturn id =>
    have hnone : machine.step (.lateReturn id) s = none := by
      simp [machine, hs.outlived]
    rw [hnone] at h
    cases h

/-! ### A signal that is not tidy -/

/-- A barber that is started and comes to its loop, where it finds a set with the id 0 or
gets a new one. -/
def restart : List Event := .start :: List.replicate 6 (.proceed 0)

/-- A new barber adds its token to those that are there. -/
theorem run_restart {s : State} (hb : s.barber = none) :
    ∃ p v, machine.run restart s = ⟨some (s.shm.getD 0),
        some ⟨(s.set.getD ⟨0, 0⟩).id, v + 1⟩, some p, s.inside, s.outlived⟩ ∧
      p.pc = .semTake ∧ v = value s.set := by
  obtain ⟨shm, set, barber, inside, outlived⟩ := s
  obtain rfl : barber = none := hb
  cases set with
  | none => exact ⟨_, 0, rfl, rfl, rfl⟩
  | some set =>
    obtain ⟨id, v⟩ := set
    exact ⟨_, v, rfl, rfl, rfl⟩

theorem meets_restart {n : ℕ} (s : State) :
    machine.Meets (fun e _ => e ≠ .signal) (restart ++ List.replicate n (.proceed 0)) s := by
  have hall : ∀ es : List Event, (∀ e ∈ es, e ≠ .signal) → ∀ s : State,
      machine.Meets (fun e _ => e ≠ .signal) es s := by
    intro es
    induction es with
    | nil => exact fun _ _ => trivial
    | cons e es ih =>
      intro h s
      exact ⟨fun _ => h e List.mem_cons_self,
        ih (fun e' he' => h e' (List.mem_cons_of_mem _ he')) _⟩
  refine hall _ (fun e he => ?_) s
  rintro rfl
  simp [restart, List.mem_replicate] at he

/-- **A signal that is not tidy**: the next run shows another value than 1, or there are two
processes in their sections. -/
theorem not_lasting {e : Event} {s s' : State} (hs : Sound s) (hok : ¬Tidy e s)
    (h : machine.step e s = some s') : ¬Lasting s' := by
  obtain ⟨rfl, p, hp, hbad⟩ : e = .signal ∧ ∃ p, s.barber = some p ∧
      ¬((p.semId = 0 → given (some p) = 0) ∧ (p.semId ≠ 0 → s.inside = 0)) := by
    rw [Tidy, Classical.not_imp, Classical.not_forall] at hok
    obtain ⟨he, p, hp⟩ := hok
    exact ⟨he, p, Classical.not_imp.mp hp⟩
  obtain ⟨q, hq, rfl⟩ := Option.map_eq_some_iff.mp h
  obtain rfl := Option.some.inj (hp.symm.trans hq)
  intro hlast
  by_cases hzero : p.semId = 0
  · -- the token of this run is still there, and the next run adds its own
    have hgiven : given (some p) ≠ 0 := fun hgiven =>
      hbad ⟨fun _ => hgiven, fun hne => absurd hzero hne⟩
    obtain ⟨hb, hset, hin, -⟩ := cleanUp_keeps (s := s) (Or.inl hzero)
    obtain ⟨q, v, hrun, hpc, hv⟩ := run_restart hb
    have husable := hlast restart (by simpa using meets_restart (n := 0) (cleanUp p s))
    rw [hrun] at husable
    have hvalue : v + 1 + (cleanUp p s).inside = 1 := husable.value q rfl hpc
    have hwhole := hs.whole
    have hown := own_eq (some p)
    rw [tokens, hp] at hwhole
    rw [hset] at hv
    rw [hin] at hvalue
    omega
  · -- the set is gone, but not the client in its section
    have hin : s.inside ≠ 0 := fun hin => hbad ⟨fun h => absurd h hzero, fun _ => hin⟩
    obtain ⟨set, hset, hid⟩ := hs.exists_set hp hzero
    obtain ⟨hb, hset', hin', hout⟩ := cleanUp_removes hzero hset hid
    obtain ⟨q, v, hrun, hpc, -⟩ := run_restart hb
    have husable := hlast _ (meets_restart (n := 1) (cleanUp p s))
    obtain ⟨pc, memId, semId⟩ := q
    obtain rfl : pc = .semTake := hpc
    rw [Machine.run_append, hrun] at husable
    have htwo : (cleanUp p s).inside + (cleanUp p s).outlived.length + 1 ≤ 1 := husable.exclusive
    rw [hout, List.length_append, List.length_replicate] at htwo
    omega

/-! ### Histories -/

/-- While the tokens are right the semaphore stays usable until the next signal. -/
theorem Sound.lasting {s : State} (hs : Sound s) : Lasting s := by
  intro es hes
  have hok : machine.Meets Tidy es s := hes.mono fun e _ he hsig => absurd hsig he
  exact (hok.run (fun _ _ _ hs hok h => step_spec hs hok h) hs).usable

/-- **When the semaphore is usable** in every state of a history, and in whatever way it goes
on from there without another signal: when no run with the id 0 is ended while its token is
in the semaphore or with a client, and no run with another id while a client is in its
section. -/
theorem usable_iff (es : List Event) :
    (∀ n, Lasting (machine.run (es.take n) boot)) ↔ machine.Meets Tidy es boot :=
  Machine.forall_seen_take_iff_meets (fun _ hs => hs.lasting)
    (fun _ _ _ hs hok h => step_spec hs hok h) (fun _ _ _ hs hok h => not_lasting hs hok h)
    es sound_boot

/-- A first run with the id `id` that is ended after `n` of its statements, while a client is
in its section if `client` says so, and a second one up to its section. -/
def twoRuns (id n : ℕ) (client : Bool) : List Event :=
  .start :: (List.replicate n (.proceed id) ++ (if client then [.clientTake] else []) ++
    .signal :: .start :: List.replicate 7 (.proceed id))

/-- With the id 0 the set stays, and the second run adds a second token; with another id the
second barber is in its section beside a client of the first run. -/
theorem two_tokens : ¬Usable (machine.run ((twoRuns 0 6 false).take 15) boot) ∧
    ¬Usable (machine.run (twoRuns 1 6 true) boot) := by
  constructor
  · intro husable
    have hvalue := husable.value ⟨.semTake, 0, 0⟩ (by decide) rfl
    exact absurd hvalue (by decide)
  · intro husable
    exact absurd husable.exclusive (by decide)

end SystemV
end Barber
end OpSys
