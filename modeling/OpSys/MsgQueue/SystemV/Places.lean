import OpSys.MsgQueue.SystemV.Invariant

/-!
# Places of the server with System V queues

The server has a place for each of `MAX_CLIENTS` clients and never takes one back: its
`handle_quit` is declared and not there, and its clients send no `QUIT`.

## Main definitions

* `Sys.Exited`, `Sys.Full` — the clients that have ended; that enough have not.
* `Justified` — a client is refused only for want of a place.
* `Sys.PlacesFreed` — the place of a client that has ended can become free.
* `NoneTwice` — no client has two of the places when they are all taken.

## Main results

* `kept_run` — a place that is taken stays taken.
* `places_iff` — the places are handled well exactly as long as nobody who has one leaves.
* `refused_for_nothing` — a client is refused though the others have ended.

## References

`lab5_message_queues/SystemV/server.c`, `lab5_message_queues/SystemV/client.c`,
`lab5_message_queues/SystemV/server.h`.
-/

namespace OpSys
namespace MsgQueue
namespace SystemV

open Stdio Ipc
open Posix (ServerData)

variable {ι : Type*}

/-- The client has ended. -/
def Sys.Exited (s : Sys ι) (i : ι) : Prop := ∃ status, (s.client i).pc = .gone status

/-- `MAX_CLIENTS` clients that were accepted have not ended yet. -/
def Sys.Full (s : Sys ι) : Prop :=
  ∃ l : List ι, l.Nodup ∧ (l.length : ℤ) = maxClients ∧ ∀ i ∈ l, i ∈ s.granted ∧ ¬s.Exited i

/-- If the server answers a `REGISTER` with -1, then `MAX_CLIENTS` clients that were
accepted have not ended yet. -/
def Justified [DecidableEq ι] (cfg : Config ι) (e : Event ι) (s : Sys ι) : Prop :=
  ∀ s' p qid r, (system cfg).step e s = some s' → s.pc = .register p → s'.pc = .send qid r →
    scanInt r.msg.content = .value (-1) → s.Full

/-- Some course of events frees the place of every client that has ended. -/
def Sys.PlacesFreed [DecidableEq ι] (cfg : Config ι) (s : Sys ι) : Prop :=
  ∀ (k : ℕ) (i : ι), s.granted[k]? = some i → s.Exited i → ∃ es,
    ((system cfg).run es s).data.clientCount ≤ k ∨
      ((system cfg).run es s).data.clientsData k ≠ s.data.clientsData k

/-- When a `REGISTER` is handled that leads to a queue, and all places are taken, no client
has two of them. -/
def NoneTwice : Event ι → Sys ι → Prop
  | .server _ garbage _, s => ∀ p key, s.pc = .register p →
      clientKey garbage p.msg.content = some key →
      key = ipcPrivate ∨ s.kernel.keys key ≠ none →
      s.data.clientCount = maxClients → s.granted.Nodup
  | _, _ => True

/-- A `REGISTER` that leads to a queue finds all places taken. -/
def FindsFull : Event ι → Sys ι → Prop
  | .server _ garbage _, s =>
    (∃ p, s.pc = .register p) ∧ ¬s.CallFails garbage ∧ s.data.clientCount = maxClients
  | _, _ => False

/-- Every place that is taken is that of an accepted client. -/
structure PlaceInv (s : Sys ι) : Prop where
  sys : SysInv s
  granted : (s.granted.length : ℤ) = s.data.clientCount
  count_le : s.data.clientCount ≤ maxClients

/-- Places that are taken in `d` are taken in `d'`, too. -/
structure Kept (d d' : ServerData) : Prop where
  count : d.clientCount ≤ d'.clientCount
  place : ∀ k : ℕ, (k : ℤ) < d.clientCount → d'.clientsData k = d.clientsData k

namespace Kept

theorem refl (d : ServerData) : Kept d d := ⟨le_rfl, fun _ _ => rfl⟩

theorem trans {d d' d'' : ServerData} (h : Kept d d') (h' : Kept d' d'') : Kept d d'' where
  count := h.count.trans h'.count
  place k hk := (h'.place k (hk.trans_le h.count)).trans (h.place k hk)

end Kept

section Steps

variable [DecidableEq ι] {cfg : Config ι} {s s' : Sys ι} {e : Event ι}

/-- What a step does to the places. -/
inductive PlaceStep (cfg : Config ι) (s s' : Sys ι) : Prop
  | same (hdata : s'.data.clientsData = s.data.clientsData ∧
      s'.data.clientCount = s.data.clientCount) (hgranted : s'.granted = s.granted)
  | refused (qid : ℤ) (p : Packet ι) (hpc : s.pc = .register p)
      (hpc' : s'.pc = .send qid { p with msg := registerResponse cfg.server p.msg (-1) })
      (hfull : s.data.clientCount > maxClients - 1) (hdata : s'.data = s.data)
      (hgranted : s'.granted = s.granted)
  | accepted (qid : ℤ) (p : Packet ι) (hpc : s.pc = .register p)
      (hpc' : s'.pc = .send qid { p with
        msg := registerResponse cfg.server p.msg s.data.clientCount })
      (hroom : ¬s.data.clientCount > maxClients - 1)
      (hdata : s'.data = { s.data with
        clientsData := Function.update s.data.clientsData s.data.clientCount.toNat
          (p.msg.senderPid, qid)
        clientCount := s.data.clientCount + 1 })
      (hgranted : s'.granted = s.granted ++ [p.origin])

omit [DecidableEq ι] in
theorem placeStep_server {garbage : ℤ} (hdoes : ServerDoes cfg garbage s s') :
    PlaceStep cfg s s' := by
  cases hdoes with
  | receive clock p ps hpc hslot =>
    refine .same ?_ rfl
    show (dispatchRequests cfg.server clock.1 s.data p).1.clientsData = _ ∧
      (dispatchRequests cfg.server clock.1 s.data p).1.clientCount = _
    rcases dispatch_data cfg.server clock.1 s.data p with hdata | hdata
    · rw [hdata]
      exact ⟨rfl, rfl⟩
    · rw [hdata]
      exact ⟨rfl, rfl⟩
  | openClient id key qid k p hpc hkey hget hqid =>
    -- the two branches of `handle_register`
    by_cases hfull : s.data.clientCount > maxClients - 1
    · have hopened : registerOpened cfg.server s.data p.msg qid =
          (s.data, registerResponse cfg.server p.msg (-1)) := by
        rw [registerOpened, if_pos hfull]
      refine .refused qid p hpc ?_ hfull ?_ (if_pos hfull)
      · simp only [Sys.answerRegister, hopened]
      · simp only [Sys.answerRegister, hopened]
    · have hopened : registerOpened cfg.server s.data p.msg qid =
          ({ s.data with
              clientsData := Function.update s.data.clientsData s.data.clientCount.toNat
                (p.msg.senderPid, qid)
              clientCount := s.data.clientCount + 1 },
            registerResponse cfg.server p.msg s.data.clientCount) := by
        rw [registerOpened, if_neg hfull]
      refine .accepted qid p hpc ?_ hfull ?_ (if_neg hfull)
      · simp only [Sys.answerRegister, hopened]
      · simp only [Sys.answerRegister, hopened]
  | _ => exact .same ⟨rfl, rfl⟩ rfl

theorem placeStep (h : SysInv s) (hstep : (system cfg).step e s = some s') :
    PlaceStep cfg s s' := by
  cases does h.ok hstep with
  | server id garbage clock hdoes => exact placeStep_server hdoes
  | interruptServer hpc => exact .same ⟨rfl, rfl⟩ rfl
  | client i id hdoes => cases hdoes <;> exact .same ⟨rfl, rfl⟩ rfl
  | interruptClient i hpc => exact .same ⟨rfl, rfl⟩ rfl

theorem placeInv_step (h : PlaceInv s) (hstep : (system cfg).step e s = some s') :
    PlaceInv s' := by
  have hsys := sysInv_step h.sys hstep
  have hlen := h.granted
  have hle := h.count_le
  cases placeStep h.sys hstep with
  | same hdata hgranted => exact ⟨hsys, by rw [hgranted, hdata.2, hlen], by rwa [hdata.2]⟩
  | refused qid p hpc hpc' hfull hdata hgranted =>
    exact ⟨hsys, by rw [hgranted, hdata, hlen], by rwa [hdata]⟩
  | accepted qid p hpc hpc' hroom hdata hgranted =>
    refine ⟨hsys, ?_, ?_⟩
    · rw [hgranted, hdata, List.length_append, List.length_singleton]
      push_cast
      omega
    · rw [hdata]
      show s.data.clientCount + 1 ≤ maxClients
      omega

theorem kept_step (h : PlaceInv s) (hstep : (system cfg).step e s = some s') :
    Kept s.data s'.data := by
  have hlen := h.granted
  cases placeStep h.sys hstep with
  | same hdata hgranted => exact ⟨hdata.2.ge, fun k _ => by rw [hdata.1]⟩
  | refused qid p hpc hpc' hfull hdata hgranted =>
    rw [hdata]
    exact .refl _
  | accepted qid p hpc hpc' hroom hdata hgranted =>
    rw [hdata]
    refine ⟨by simp, fun k hk => Function.update_of_ne ?_ ..⟩
    omega

/-- A place that is taken stays taken. -/
theorem kept_run (cfg : Config ι) (h : PlaceInv s) (es : List (Event ι)) :
    PlaceInv ((system cfg).run es s) ∧ Kept s.data ((system cfg).run es s).data :=
  Machine.run_invariant (I := fun t => PlaceInv t ∧ Kept s.data t.data)
    (fun _ _ _ ht hstep =>
      ⟨placeInv_step ht.1 hstep, ht.2.trans (kept_step ht.1 hstep)⟩) es ⟨h, .refl _⟩

omit [DecidableEq ι] in
theorem placeInv_start (cfg : Config ι) : PlaceInv cfg.start :=
  ⟨sysInv_start cfg, rfl, Int.zero_le_ofNat 5⟩

omit [DecidableEq ι] in
/-- With all places taken, enough clients are there if they are different and none has
ended. -/
theorem full_iff (hlen : (s.granted.length : ℤ) = maxClients) :
    s.Full ↔ s.granted.Nodup ∧ ∀ i ∈ s.granted, ¬s.Exited i := by
  constructor
  · rintro ⟨l, hnodup, hl, hmem⟩
    have hsub : l.Subperm s.granted := hnodup.subperm fun i hi => (hmem i hi).1
    have hperm := hsub.perm_of_length_le (by omega)
    exact ⟨hperm.nodup_iff.mp hnodup, fun i hi => (hmem i (hperm.mem_iff.mpr hi)).2⟩
  · rintro ⟨hnodup, hexited⟩
    exact ⟨s.granted, hnodup, hlen, fun i hi => ⟨hi, hexited i hi⟩⟩

/-- The server refuses exactly if it finds all places taken. -/
theorem justified_iff (e : Event ι) (s s' : Sys ι) (h : PlaceInv s)
    (hstep : (system cfg).step e s = some s') : Justified cfg e s ↔ (FindsFull e s → s.Full) := by
  constructor
  · intro hjust
    -- only the server with a client's `REGISTER` in hand can refuse
    cases does h.sys.ok hstep with
    | server id garbage clock hdoes =>
      rintro ⟨⟨p, hpc⟩, hcall, hcount⟩
      cases hdoes with
      | openClient id' key qid k p' hpc' hkey hget hqid =>
        obtain rfl := ServerPc.register.inj (hpc.symm.trans hpc')
        refine hjust _ p qid _ hstep hpc rfl ?_
        have hresp : (registerOpened cfg.server s.data p.msg qid).2 =
            registerResponse cfg.server p.msg (-1) := by
          rw [registerOpened, if_pos (by omega)]
        show scanInt (registerOpened cfg.server s.data p.msg qid).2.content = _
        rw [hresp]
        exact scanInt_overwrite _ _
      | fail hfails => exact absurd hfails hcall
      | create id' q k hpc' hget => exact nomatch hpc.symm.trans hpc'
      | wait hpc' hlive => exact nomatch hpc.symm.trans hpc'
      | finish hpc' hactive hslot => exact nomatch hpc.symm.trans hpc'
      | receive clock' p' ps hpc' hslot => exact nomatch hpc.symm.trans hpc'
      | send qid p' ps hpc' hslot hroom => exact nomatch hpc.symm.trans hpc'
      | remove status hpc' => exact nomatch hpc.symm.trans hpc'
    | _ => exact False.elim
  · intro hfull s'' p qid r hstep' hpc hpc' hscan
    -- the refusal that is read in the response is the only one that the step can make
    obtain rfl : s' = s'' := Option.some.inj (hstep.symm.trans hstep')
    cases does h.sys.ok hstep with
    | server id garbage clock hdoes =>
      cases hdoes with
      | openClient id' key qid' k p' hpc'' hkey hget hqid =>
        obtain rfl := ServerPc.register.inj (hpc.symm.trans hpc'')
        obtain ⟨rfl, rfl⟩ := ServerPc.send.inj hpc'
        have hcall := not_callFails hpc hkey hget hqid
        have hle := h.count_le
        have hscan' : scanInt (registerOpened cfg.server s.data p.msg qid').2.content =
            .value (-1) := hscan
        unfold registerOpened at hscan'
        split at hscan'
        · rename_i hgt
          have hcount : s.data.clientCount = maxClients := by omega
          exact hfull ⟨⟨p, hpc⟩, hcall, hcount⟩
        · -- an accepted client is answered with its position, which is not negative
          have hsession := (scanInt_overwrite s.data.clientCount p.msg.content).symm.trans hscan'
          have hnegative := Scan.value.inj hsession
          have hlen := h.granted
          omega
      | fail hfails =>
        exact nomatch (exit_status s.data (-1)).symm.trans (congrArg ServerPc.status hpc')
      | create id' q k hpc'' hget => exact nomatch hpc.symm.trans hpc''
      | wait hpc'' hlive => exact nomatch hpc.symm.trans hpc''
      | finish hpc'' hactive hslot => exact nomatch hpc.symm.trans hpc''
      | receive clock' p' ps hpc'' hslot => exact nomatch hpc.symm.trans hpc''
      | send qid' p' ps hpc'' hslot hroom => exact nomatch hpc.symm.trans hpc''
      | remove status hpc'' => exact nomatch hpc.symm.trans hpc''
    | interruptServer hstatus =>
      exact nomatch (exit_status s.data 2).symm.trans (congrArg ServerPc.status hpc')
    | client i id hdoes =>
      have hsame : s'.pc = s.pc := by cases hdoes <;> rfl
      exact nomatch hpc.symm.trans (hsame.symm.trans hpc')
    | interruptClient i hstatus => exact nomatch hpc.symm.trans hpc'

omit [DecidableEq ι] in
/-- The key in a `REGISTER` leads to a queue, or the call of the server fails. -/
theorem register_callFails {p : Packet ι} {garbage : ℤ} (hpc : s.pc = .register p) :
    ¬s.CallFails garbage ↔ ∃ key, clientKey garbage p.msg.content = some key ∧
      (key = ipcPrivate ∨ s.kernel.keys key ≠ none) := by
  simp only [Sys.CallFails, hpc, Classical.not_forall, not_and_or, Classical.not_not, exists_prop,
    ne_eq]

omit [DecidableEq ι] in
/-- With different clients in all places, none of which has ended, enough are there. -/
theorem noneTwice_iff (e : Event ι) (h : PlaceInv s) (hthere : ∀ i ∈ s.granted, ¬s.Exited i) :
    (FindsFull e s → s.Full) ↔ NoneTwice e s := by
  have hlen := h.granted
  cases e with
  | server id garbage clock =>
    constructor
    · intro hfull p key hpc hkey hleads hcount
      have hcall := (register_callFails hpc).mpr ⟨key, hkey, hleads⟩
      exact ((full_iff (by omega)).mp (hfull ⟨⟨p, hpc⟩, hcall, hcount⟩)).1
    · rintro honce ⟨⟨p, hpc⟩, hcall, hcount⟩
      obtain ⟨key, hkey, hleads⟩ := (register_callFails hpc).mp hcall
      exact (full_iff (by omega)).mpr ⟨honce p key hpc hkey hleads hcount, hthere⟩
  | interruptServer => exact iff_of_true False.elim trivial
  | client i id => exact iff_of_true False.elim trivial
  | interruptClient i => exact iff_of_true False.elim trivial

/-- No place is freed in any course of events. -/
theorem placesFreed_iff (h : PlaceInv s) :
    s.PlacesFreed cfg ↔ ∀ i ∈ s.granted, ¬s.Exited i := by
  constructor
  · intro hfreed i hi hexited
    obtain ⟨k, hk⟩ := List.mem_iff_getElem?.mp hi
    obtain ⟨es, hes⟩ := hfreed k i hk hexited
    obtain ⟨hlt, -⟩ := List.getElem?_eq_some_iff.mp hk
    have hlen := h.granted
    have hkept := (kept_run cfg h es).2
    have hcount := hkept.count
    rcases hes with hcount' | hplace
    · omega
    · exact hplace (hkept.place k (by omega))
  · intro hexited k i hk hgone
    exact absurd hgone (hexited i (List.mem_of_getElem? hk))

/-- **The places are handled well exactly as long as no client that was accepted leaves**, and
none is accepted twice. -/
theorem places_iff (cfg : Config ι) (es : List (Event ι)) :
    ((system cfg).Meets (Justified cfg) es cfg.start ∧
        ∀ n, ((system cfg).run (es.take n) cfg.start).PlacesFreed cfg) ↔
      (system cfg).Meets NoneTwice es cfg.start ∧
        ∀ n, ∀ i ∈ ((system cfg).run (es.take n) cfg.start).granted,
          ¬((system cfg).run (es.take n) cfg.start).Exited i := by
  have hinv : ∀ n, PlaceInv ((system cfg).run (es.take n) cfg.start) :=
    fun n => (kept_run cfg (placeInv_start cfg) (es.take n)).1
  have hfreed : (∀ n, ((system cfg).run (es.take n) cfg.start).PlacesFreed cfg) ↔
      ∀ n, ∀ i ∈ ((system cfg).run (es.take n) cfg.start).granted,
        ¬((system cfg).run (es.take n) cfg.start).Exited i :=
    forall_congr' fun n => placesFreed_iff (hinv n)
  rw [hfreed, Machine.meets_congr (fun _ _ _ h hstep => placeInv_step h hstep) justified_iff es
    (placeInv_start cfg)]
  refine and_congr_left fun hthere => ?_
  -- as nobody has gone, a refusal is justified if the places are those of different clients
  have hgood : ∀ n, PlaceInv ((system cfg).run (es.take n) cfg.start) ∧
      ∀ i ∈ ((system cfg).run (es.take n) cfg.start).granted,
        ¬((system cfg).run (es.take n) cfg.start).Exited i := fun n => ⟨hinv n, hthere n⟩
  have hiff : ∀ e (s : Sys ι), PlaceInv s ∧ (∀ i ∈ s.granted, ¬s.Exited i) →
      ((FindsFull e s → s.Full) ↔ NoneTwice e s) := fun e s hs => noneTwice_iff e hs.1 hs.2
  exact ⟨fun h => h.of_take (fun e s hs => (hiff e s hs).mp) hgood,
    fun h => h.of_take (fun e s hs => (hiff e s hs).mpr) hgood⟩

end Steps

/-! ### A client that is refused for nothing -/

/-- Clients whose users type `quit`. -/
def crowd : Config ℕ where
  ftok := .plain
  server := 100
  server_pos := hundred_pos
  pid i := 101 + i
  pid_pos i := by omega
  capacity := 7
  capacity_pos := seven_pos
  stdin := fun _ => [113, 117, 105, 116, 10]
  junk := fun _ => [nul]

def crowdServer : Event ℕ := .server 0 0 ⟨[], clock_nil⟩

/-- The client `i` sends `REGISTER`, and the server receives it. -/
def joining (i : ℕ) : List (Event ℕ) :=
  [.client i (i + 1), .client i (i + 1), .client i 0, crowdServer, crowdServer]

/-- The client `i` registers and quits. -/
def visit (i : ℕ) : List (Event ℕ) :=
  joining i ++ [crowdServer, crowdServer, .client i 0, .client i 0, .client i 0]

/-- Five clients come and go, and then a sixth one comes. -/
def crowdRun : List (Event ℕ) := crowdServer :: (List.range 5).flatMap visit ++ joining 5

set_option maxRecDepth 20000 in
theorem refused_for_nothing :
    ¬(system crowd).Meets (Justified crowd) (crowdRun ++ [crowdServer]) crowd.start := by
  intro h
  have hlast := h.last (by decide)
  have hfull := hlast _ _ _ _ rfl rfl rfl (by decide)
  have hgone := ((full_iff (by decide)).mp hfull).2 0 (by decide)
  exact hgone ⟨0, by decide⟩

end SystemV
end MsgQueue
end OpSys
