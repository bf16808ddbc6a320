import OpSys.MsgQueue.SystemV.Places
import OpSys.MsgQueue.SystemV.Talks

/-!
# Pids that get in each other's way

`ftok` makes the key of a private queue from the low 8 bits of a pid.  Two clients
whose pids agree in these bits have one queue together, and a client whose pid agrees
with `PROJECT_ID` there takes the public queue for its own.

## Main definitions

* `Separate` — the queues are apart, and so are the responses and the exits.

## Main results

* `separate_iff` — this is so in every run if and only if the pids are apart.
* `response_of_another` — a client finds the response to another's request.

## References

`lab5_message_queues/SystemV/client.c`, `lab5_message_queues/SystemV/server.c`.
-/

namespace OpSys
namespace MsgQueue
namespace SystemV

open Stdio Ipc

variable {ι : Type*}

/-- The client has a private queue, and has not ended. -/
def Sys.Holds (s : Sys ι) (i : ι) : Prop := (s.client i).privQid ≠ -1 ∧ ¬s.Exited i

/-- The process waits for a response. -/
def ClientPc.Waits (pc : ClientPc) : Prop := pc = .receiveSession ∨ pc = .receiveResponse

/-- Every queue is one process's, every response is for the client that receives it, and
the exit of a client leaves the queues of the others as they are. -/
structure Separate (cfg : Config ι) (s : Sys ι) : Prop where
  clients : ∀ i j, i ≠ j → s.Holds i → s.Holds j → (s.client i).privQid ≠ (s.client j).privQid
  server : ∀ i, s.Holds i → (s.client i).privQid ≠ s.data.queueDesc
  responses : ∀ i p ps, (s.client i).pc.Waits →
    s.kernel.slot (s.client i).privQid = .live (p :: ps) →
      p.origin = i ∧ ∃ req, s.latest i = some req ∧ Answers cfg.server req p.msg
  requests : ∀ p ps, s.kernel.slot s.data.queueDesc = .live (p :: ps) →
    ∃ answered, Asks (cfg.pid p.origin) answered p.msg
  exits : ∀ i status, (s.client i).pc = .remove status →
    (s.kernel.rmid (s.client i).privQid).slot s.data.queueDesc =
        s.kernel.slot s.data.queueDesc ∧
      ∀ j, j ≠ i → s.Holds j → (s.kernel.rmid (s.client i).privQid).slot (s.client j).privQid =
        s.kernel.slot (s.client j).privQid

section Steps

variable [DecidableEq ι] {cfg : Config ι} {s : Sys ι}

theorem TalkInv.separate (h : TalkInv cfg s) : Separate cfg s where
  clients i j hij hi _ := h.keys.priv_ne_priv hij hi.1
  server i hi := h.keys.priv_ne hi.1
  -- what is in a private queue is a response on the way to its client
  responses i p ps _ hslot := by
    have hinbox : s.inbox i = p :: ps := by
      rw [Sys.inbox, hslot]
      rfl
    have hmem : Slip.answered p.msg ∈ (s.talk cfg i).flight := by
      show _ ∈ slips i (s.inbox i) s.requests s.pc
      rw [hinbox]
      exact List.mem_cons_self
    exact ⟨h.msgs.inbox i p (by rw [hinbox]; exact List.mem_cons_self),
      (h.orderly i).answered p.msg hmem⟩
  requests p ps hslot := by
    refine (h.msgs.sent p ?_).asks
    rw [requests_of_slot hslot]
    exact List.mem_cons_self
  exits i status _ := by
    -- only a queue that is still there can be removed
    by_cases hlive : (s.kernel.slot (s.client i).privQid).Live
    · have hpriv : (s.client i).privQid ≠ -1 := by
        have := h.sys.ok.nonneg _ hlive
        omega
      exact ⟨Kernel.rmid_slot_of_ne (h.keys.priv_ne hpriv).symm, fun j hj _ =>
        Kernel.rmid_slot_of_ne (h.keys.priv_ne_priv hj.symm hpriv).symm⟩
    · rw [Kernel.rmid_slot_of_not_live hlive]
      exact ⟨rfl, fun _ _ _ => rfl⟩

/-! ### Pids that agree -/

/-- The server has made the public queue, which is the first one. -/
def Config.served (cfg : Config ι) : Sys ι :=
  { cfg.start with
    kernel := (Kernel.empty.make 0).enter cfg.pubKey 0
    data := { cfg.start.data with queueDesc := 0 }
    pc := .top }

/-- The client `i` has opened the public queue. -/
def Sys.openedPublic (s : Sys ι) (i : ι) : Sys ι :=
  s.setClient i { s.client i with queueDesc := 0, pc := .openPrivate }

/-- The client `i` has opened the queue `q` as its own. -/
def Sys.openedPrivate (s : Sys ι) (i : ι) (q : ℤ) : Sys ι :=
  s.setClient i { s.client i with privQid := q, pc := .sendRegister }

theorem step_served (cfg : Config ι) (garbage : ℤ) (clock : Clock) :
    (system cfg).step (.server 0 garbage clock) cfg.start = some cfg.served := by
  have hget : cfg.start.kernel.msgget (cfg.ftok.key projectId) true 0 = some (0, _) :=
    Kernel.msgget_made (cfg.ftok.key_ne _).2 rfl (Kernel.fresh_empty le_rfl)
  show (cfg.start.kernel.msgget (cfg.ftok.key projectId) true 0).map _ = _
  rw [hget]
  rfl

theorem step_openPublic {i : ι} (hpc : (s.client i).pc = .openPublic)
    (hkey : s.kernel.keys cfg.pubKey = some 0) (id : ℤ) :
    (system cfg).step (.client i id) s = some (s.openedPublic i) := by
  have hget : s.kernel.msgget (cfg.ftok.key projectId) false id = some (0, s.kernel) :=
    Kernel.msgget_found (cfg.ftok.key_ne _).2 hkey false id
  simp only [system, clientStep, hpc, hget, Option.map_some]
  rfl

/-- A client takes a queue that is already there for its own. -/
theorem step_found {i : ι} (hpc : (s.client i).pc = .openPrivate) {q : ℤ}
    (hkey : s.kernel.keys (cfg.privKey i) = some q) (id : ℤ) :
    (system cfg).step (.client i id) s = some (s.openedPrivate i q) := by
  have hget : s.kernel.msgget (cfg.ftok.key (cfg.pid i)) true id = some (q, s.kernel) :=
    Kernel.msgget_found (cfg.ftok.key_ne _).2 hkey true id
  simp only [system, clientStep, hpc, hget, Option.map_some]
  rfl

/-- A client makes its own queue. -/
theorem step_made {i : ι} (hpc : (s.client i).pc = .openPrivate) {id : ℤ}
    (hkey : s.kernel.keys (cfg.privKey i) = none) (hfresh : s.kernel.Fresh id) :
    (system cfg).step (.client i id) s = some ({ s with
      kernel := (s.kernel.make id).enter (cfg.privKey i) id }.openedPrivate i id) := by
  have hget : s.kernel.msgget (cfg.ftok.key (cfg.pid i)) true id =
      some (id, (s.kernel.make id).enter (cfg.privKey i) id) :=
    Kernel.msgget_made (cfg.ftok.key_ne _).2 hkey hfresh
  simp only [system, clientStep, hpc, hget, Option.map_some]
  rfl

section Opened

variable {i j : ι} {q : ℤ}

theorem openedPublic_pc (s : Sys ι) (i : ι) : ((s.openedPublic i).client i).pc = .openPrivate := by
  rw [Sys.openedPublic, setClient_client, Function.update_self]

theorem openedPrivate_privQid (s : Sys ι) (i : ι) (q : ℤ) :
    ((s.openedPrivate i q).client i).privQid = q := by
  rw [Sys.openedPrivate, setClient_client, Function.update_self]

theorem openedPublic_of_ne (s : Sys ι) (hij : j ≠ i) :
    (s.openedPublic i).client j = s.client j := Function.update_of_ne hij ..

theorem openedPrivate_of_ne (s : Sys ι) (hij : j ≠ i) (q : ℤ) :
    (s.openedPrivate i q).client j = s.client j := Function.update_of_ne hij ..

theorem holds_openedPrivate (s : Sys ι) (i : ι) (hq : q ≠ -1) : (s.openedPrivate i q).Holds i := by
  refine ⟨by rwa [openedPrivate_privQid], ?_⟩
  rintro ⟨status, hstatus⟩
  rw [Sys.openedPrivate, setClient_client, Function.update_self] at hstatus
  cases hstatus

end Opened

/-- A pid that agrees with `PROJECT_ID` leads its client to the public queue. -/
theorem meets_server {i : ι} (hpid : cfg.pid i % 256 = projectId % 256) :
    ¬Separate cfg ((system cfg).run
      [.server 0 0 ⟨[], by decide⟩, .client i 0, .client i 0] cfg.start) := by
  have hkey : cfg.privKey i = cfg.pubKey := (cfg.ftok.key_eq_iff _ _).mpr hpid
  have hpub : cfg.served.kernel.keys cfg.pubKey = some 0 := Kernel.enter_keys_self
  rw [Machine.run_cons, step_served, Option.getD_some, Machine.run_cons,
    step_openPublic rfl hpub, Option.getD_some, Machine.run_cons,
    step_found (openedPublic_pc _ i) (hkey ▸ hpub), Option.getD_some, Machine.run_nil]
  intro h
  exact h.server i (holds_openedPrivate _ i (by decide)) (openedPrivate_privQid _ i 0)

/-- Two pids that agree lead their clients to one queue. -/
theorem meets_client {i j : ι} (hij : i ≠ j) (hserver : cfg.pid i % 256 ≠ projectId % 256)
    (hpid : cfg.pid i % 256 = cfg.pid j % 256) :
    ¬Separate cfg ((system cfg).run
      [.server 0 0 ⟨[], by decide⟩, .client i 0, .client i 1, .client j 0, .client j 0]
        cfg.start) := by
  -- the second client finds under its key the queue that the first one made
  have hkey : cfg.privKey j = cfg.privKey i := (cfg.ftok.key_eq_iff _ _).mpr hpid.symm
  have hne : cfg.privKey i ≠ cfg.pubKey := fun heq => hserver ((cfg.ftok.key_eq_iff _ _).mp heq)
  have hpub : cfg.served.kernel.keys cfg.pubKey = some 0 := Kernel.enter_keys_self
  have hnone : (cfg.served.openedPublic i).kernel.keys (cfg.privKey i) = none :=
    Kernel.enter_keys_of_ne hne
  have hfresh : (cfg.served.openedPublic i).kernel.Fresh 1 := ⟨zero_le_one, rfl⟩
  rw [Machine.run_cons, step_served, Option.getD_some, Machine.run_cons,
    step_openPublic rfl hpub, Option.getD_some, Machine.run_cons,
    step_made (openedPublic_pc _ i) hnone hfresh, Option.getD_some]
  generalize hs : Sys.openedPrivate _ i 1 = s
  have hkernel : s.kernel = (cfg.served.kernel.make 1).enter (cfg.privKey i) 1 := by
    rw [← hs]
    rfl
  have hi : s.Holds i ∧ (s.client i).privQid = 1 := by
    rw [← hs]
    exact ⟨holds_openedPrivate _ i (by decide), openedPrivate_privQid _ i 1⟩
  have hj : (s.client j).pc = .openPublic := by
    rw [← hs, openedPrivate_of_ne _ hij.symm]
    exact congrArg Client.pc (openedPublic_of_ne cfg.served hij.symm)
  have hpub' : s.kernel.keys cfg.pubKey = some 0 := by
    rw [hkernel, Kernel.enter_keys_of_ne hne.symm]
    exact hpub
  have hkeys : s.kernel.keys (cfg.privKey j) = some 1 := by
    rw [hkernel, hkey, Kernel.enter_keys_self]
  rw [Machine.run_cons, step_openPublic hj hpub', Option.getD_some, Machine.run_cons,
    step_found (openedPublic_pc _ j) hkeys, Option.getD_some, Machine.run_nil]
  have hsame : ((s.openedPublic j).openedPrivate j 1).client i = s.client i := by
    rw [openedPrivate_of_ne _ hij, openedPublic_of_ne _ hij]
  intro h
  have hi' : ((s.openedPublic j).openedPrivate j 1).Holds i := by
    rw [Sys.Holds, Sys.Exited, hsame]
    exact hi.1
  refine h.clients i j hij hi' (holds_openedPrivate _ j (by decide)) ?_
  rw [hsame, hi.2, openedPrivate_privQid]

/-- **The queues are separate in every run if and only if the pids are apart.** -/
theorem separate_iff (cfg : Config ι) :
    (∀ es, Separate cfg ((system cfg).run es cfg.start)) ↔ cfg.Apart := by
  constructor
  · intro h
    have hserver : ∀ i, cfg.pid i % 256 ≠ projectId % 256 := fun i hpid => meets_server hpid (h _)
    exact ⟨fun i j hij hpid => meets_client hij (hserver i) hpid (h _), hserver⟩
  · exact fun hapart es => (talkInv_run hapart es).separate

end Steps

/-! ### A response that goes astray -/

/-- Two clients whose pids differ by 256. -/
def rivals : Config Bool where
  ftok := .plain
  server := 100
  server_pos := hundred_pos
  pid first := if first then 1000 else 1256
  pid_pos first := by cases first <;> decide
  capacity := 7
  capacity_pos := seven_pos
  stdin := fun _ => []
  junk := fun _ => [nul]

/-- Both clients register, and the server answers the first one. -/
def rivalsRun : List (Event Bool) :=
  let server := Event.server 0 0 ⟨[], clock_nil⟩
  [server, .client true 0, .client true 1, .client true 0, .client false 0, .client false 0,
    .client false 0, server, server, server, server]

set_option maxRecDepth 20000 in
theorem response_of_another :
    Function.Injective rivals.pid ∧
      ¬Separate rivals ((system rivals).run rivalsRun rivals.start) := by
  refine ⟨fun i j hpid => ?_, fun h => ?_⟩
  · revert i j
    decide
  · have horigin := (h.responses false _ _ (.inl rfl) rfl).1
    exact absurd horigin (by decide)

end SystemV
end MsgQueue
end OpSys
