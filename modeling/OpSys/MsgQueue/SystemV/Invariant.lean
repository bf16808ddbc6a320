import OpSys.MsgQueue.SystemV.Steps

/-!
# What the system with System V queues keeps

Whatever the pids are, no message disappears from the server's queue as long as the
queue is there: what has come in has been received, by the server or by a client, or
is still in it.

## Main definitions

* `SysInv` — what holds in every state.
* `Sys.Closed` — the server has not ended, or its queue is gone.

## Main results

* `sysInv_start`, `sysInv_step` — the invariant, at the start and along every step.

## References

`lab5_message_queues/SystemV/server.c`, `lab5_message_queues/SystemV/client.c`.
-/

namespace OpSys
namespace MsgQueue
namespace SystemV

open Stdio Ipc
open Posix (ServerData)

variable {ι : Type*}

/-- The server has not made its queue, and nobody else can make one. -/
structure Sys.Fresh (s : Sys ι) : Prop where
  keys : ∀ key, s.kernel.keys key = none
  client : ∀ i, ((s.client i).pc = .openPublic ∨ ∃ status, (s.client i).pc = .gone status) ∧
    (s.client i).privQid = -1
  log : s.accepted = [] ∧ s.dispatched = [] ∧ s.taken = []
  queueDesc : s.data.queueDesc = -1

/-- An `END` has been dispatched, or `SIGINT` has reached the server. -/
def Sys.Ended (s : Sys ι) : Prop :=
  (∃ p ∈ s.dispatched, p.msg.type = typeEnd) ∨ s.interrupted = true

/-- What holds in every state. -/
structure SysInv (s : Sys ι) : Prop where
  ok : s.kernel.Ok
  fresh : s.pc = .start → s.Fresh
  known : s.data.queueDesc = -1 ∨ s.kernel.slot s.data.queueDesc ≠ .unused
  log : ∀ ps, s.kernel.slot s.data.queueDesc = .live ps →
    s.accepted.Perm (s.dispatched ++ s.taken ++ ps)
  ended : s.data.active = false → s.Ended

section Server

variable {cfg : Config ι} {s s' : Sys ι}

@[simp] theorem exit_status (d : ServerData) (status : ℤ) :
    (exit d status : ServerPc ι).status = some status := by
  unfold exit
  split
  · rfl
  · rfl

theorem exit_ne_start (d : ServerData) (status : ℤ) : (exit d status : ServerPc ι) ≠ .start :=
  fun h => nomatch (exit_status d status).symm.trans (congrArg ServerPc.status h)

theorem dispatch_active {server : ℤ} {clock : List UInt8} {d : ServerData} {p : Packet ι}
    (h : (dispatchRequests server clock d p).1.active = false) :
    d.active = false ∨ p.msg.type = typeEnd := by
  -- only a message of type `END` clears `active`
  unfold dispatchRequests at h
  split at h
  · exact .inl h
  split at h
  · split at h
    · exact .inl h
    · exact .inl h
  split at h
  · split at h
    · exact .inl h
    · exact .inl h
  split at h
  · rename_i htype
    exact .inr htype
  · exact .inl h

/-- Only `active` can change before the first system call. -/
theorem dispatch_data (server : ℤ) (clock : List UInt8) (d : ServerData) (p : Packet ι) :
    (dispatchRequests server clock d p).1 = d ∨
      (dispatchRequests server clock d p).1 = { d with active := false } := by
  unfold dispatchRequests
  split
  · exact .inl rfl
  split
  · split
    · exact .inl rfl
    · exact .inl rfl
  split
  · split
    · exact .inl rfl
    · exact .inl rfl
  split
  · exact .inr rfl
  · exact .inl rfl

theorem dispatch_ne_start {server : ℤ} {clock : List UInt8} {d : ServerData} {p : Packet ι} :
    (dispatchRequests server clock d p).2 ≠ .start ∧
      (dispatchRequests server clock d p).2.status = none := by
  unfold dispatchRequests
  split
  · exact ⟨fun h => (nomatch h), rfl⟩
  split
  · split
    · exact ⟨fun h => (nomatch h), rfl⟩
    · exact ⟨fun h => (nomatch h), rfl⟩
  split
  · split
    · exact ⟨fun h => (nomatch h), rfl⟩
    · exact ⟨fun h => (nomatch h), rfl⟩
  split
  · exact ⟨fun h => (nomatch h), rfl⟩
  · exact ⟨fun h => (nomatch h), rfl⟩

theorem registerOpened_data (server : ℤ) (d : ServerData) (msg : Message) (qid : ℤ) :
    (registerOpened server d msg qid).1.active = d.active ∧
      (registerOpened server d msg qid).1.queueDesc = d.queueDesc := by
  unfold registerOpened
  split
  · exact ⟨rfl, rfl⟩
  · exact ⟨rfl, rfl⟩

/-- The server goes on without a call that changes anything. -/
theorem SysInv.goOn (h : SysInv s) {pc : ServerPc ι} (hpc : pc ≠ .start) :
    SysInv { s with pc := pc } :=
  { h with fresh := fun hstart => absurd hstart hpc }

/-- The kernel after `msgget`. -/
theorem SysInv.got (h : SysInv s) {key id q : ℤ} {create : Bool} {k : Kernel (Packet ι)}
    (hget : s.kernel.Got key create id q k) (hpc : s.pc ≠ .start) :
    SysInv { s with kernel := k } := by
  have hok := h.ok.got hget
  refine { h with
    ok := hok
    fresh := fun hstart => absurd hstart hpc
    -- a lookup makes no slot that was in use into another
    known := h.known.imp_right fun hne => ?_
    log := fun ps hps => ?_ }
  · show k.slot s.data.queueDesc ≠ .unused
    rwa [hget.slot_eq hne]
  · rcases h.known with hdesc | hne
    · have hnonneg := hok.nonneg _ ⟨ps, hps⟩
      rw [hdesc] at hnonneg
      omega
    · exact h.log ps ((hget.slot_eq hne).symm.trans hps)

/-- A message comes into a queue. -/
theorem SysInv.post (h : SysInv s) {q : ℤ} {ps : List (Packet ι)} (p : Packet ι)
    (hslot : s.kernel.slot q = .live ps) (hpc : s.pc ≠ .start) :
    SysInv (s.post (s.kernel.write q (ps ++ [p])) q p) := by
  refine { h with
    ok := h.ok.write ⟨ps, hslot⟩ _
    fresh := fun hstart => absurd hstart hpc
    known := h.known.imp_right fun hne => ?_
    log := fun qs hqs => ?_ }
  · show (s.kernel.write q (ps ++ [p])).slot s.data.queueDesc ≠ .unused
    -- the log is that of the public queue, the message may be for another
    by_cases hq : s.data.queueDesc = q
    · rw [hq, Kernel.write_slot_self]
      exact fun heq => nomatch heq
    · rwa [Kernel.write_slot_of_ne hq]
  · have hqs' : (s.kernel.write q (ps ++ [p])).slot s.data.queueDesc = .live qs := hqs
    show (if q = s.data.queueDesc then s.accepted ++ [p] else s.accepted).Perm _
    by_cases hq : s.data.queueDesc = q
    · rw [hq, Kernel.write_slot_self] at hqs'
      obtain rfl := Slot.live.inj hqs'
      rw [if_pos hq.symm, ← List.append_assoc]
      exact (h.log ps (by rw [hq, hslot])).append_right [p]
    · rw [Kernel.write_slot_of_ne hq] at hqs'
      rw [if_neg fun heq => hq heq.symm]
      exact h.log qs hqs'

theorem SysInv.take (h : SysInv s) {q : ℤ} {p : Packet ι} {ps : List (Packet ι)}
    (hslot : s.kernel.slot q = .live (p :: ps)) (hpc : s.pc ≠ .start) :
    SysInv (s.take (s.kernel.write q ps) q p) := by
  refine { h with
    ok := h.ok.write ⟨p :: ps, hslot⟩ _
    fresh := fun hstart => absurd hstart hpc
    known := h.known.imp_right fun hne => ?_
    log := fun qs hqs => ?_ }
  · show (s.kernel.write q ps).slot s.data.queueDesc ≠ .unused
    -- as for a message that is put
    by_cases hq : s.data.queueDesc = q
    · rw [hq, Kernel.write_slot_self]
      exact fun heq => nomatch heq
    · rwa [Kernel.write_slot_of_ne hq]
  · have hqs' : (s.kernel.write q ps).slot s.data.queueDesc = .live qs := hqs
    show s.accepted.Perm (s.dispatched ++ (if q = s.data.queueDesc then s.taken ++ [p]
      else s.taken) ++ qs)
    by_cases hq : s.data.queueDesc = q
    · rw [hq, Kernel.write_slot_self] at hqs'
      obtain rfl := Slot.live.inj hqs'
      rw [if_pos hq.symm]
      simpa using h.log (p :: ps) (by rw [hq, hslot])
    · rw [Kernel.write_slot_of_ne hq] at hqs'
      rw [if_neg fun heq => hq heq.symm]
      exact h.log qs hqs'

theorem SysInv.rmid (h : SysInv s) (q : ℤ) (hpc : s.pc ≠ .start) :
    SysInv { s with kernel := s.kernel.rmid q } := by
  refine { h with
    ok := h.ok.rmid q
    fresh := fun hstart => absurd hstart hpc
    known := h.known.imp_right fun hne heq => hne (Kernel.rmid_slot_eq_unused heq)
    log := fun qs hqs => ?_ }
  have hq : s.data.queueDesc ≠ q := by
    intro heq
    have hlive : ((s.kernel.rmid q).slot q).Live := ⟨qs, heq ▸ hqs⟩
    exact Kernel.rmid_slot_self hlive
  exact h.log qs ((Kernel.rmid_slot_of_ne hq).symm.trans hqs)

theorem SysInv.create (h : SysInv s) (hpc : s.pc = .start) {id q : ℤ} {k : Kernel (Packet ι)}
    (hget : s.kernel.Got (cfg.ftok.key projectId) true id q k) :
    SysInv { s with kernel := k, data := { s.data with queueDesc := q }, pc := .top } := by
  have hfresh := h.fresh hpc
  obtain ⟨hacc, hdisp, htaken⟩ := hfresh.log
  -- the key of the server is not in use before it starts, so its queue is a new one
  obtain ⟨-, -, hslot⟩ := hget.fresh (cfg.ftok.key_ne projectId).2 (hfresh.keys _)
  refine ⟨h.ok.got hget, fun heq => (nomatch heq), .inr (Slot.Live.used ⟨[], hslot⟩),
    fun ps hps => ?_, h.ended⟩
  obtain rfl := Slot.live.inj (hslot.symm.trans hps)
  show s.accepted.Perm (s.dispatched ++ s.taken ++ [])
  rw [hacc, hdisp, htaken]
  exact List.Perm.nil

theorem SysInv.serverDoes (h : SysInv s) {garbage : ℤ} (hdoes : ServerDoes cfg garbage s s') :
    SysInv s' := by
  cases hdoes with
  | create id q k hpc hget => exact h.create hpc hget
  | wait hpc hlive => exact h.goOn fun heq => nomatch heq
  | finish hpc hactive hslot => exact h.goOn (exit_ne_start s.data 0)
  | receive clock p ps hpc hslot =>
    have hdata := dispatch_data cfg.server clock.1 s.data p
    have hdesc : (dispatchRequests cfg.server clock.1 s.data p).1.queueDesc = s.data.queueDesc := by
      rcases hdata with hdata | hdata
      · rw [hdata]
      · rw [hdata]
    have hwrite : (s.kernel.write s.data.queueDesc ps).slot s.data.queueDesc = .live ps :=
      Kernel.write_slot_self ps
    refine ⟨h.ok.write ⟨p :: ps, hslot⟩ ps, fun heq => absurd heq dispatch_ne_start.1, .inr ?_,
      fun qs hqs => ?_, fun hactive => ?_⟩
    · show (s.kernel.write s.data.queueDesc ps).slot
        (dispatchRequests cfg.server clock.1 s.data p).1.queueDesc ≠ .unused
      rw [hdesc, hwrite]
      exact fun heq => nomatch heq
    · have hqs' : (s.kernel.write s.data.queueDesc ps).slot
          (dispatchRequests cfg.server clock.1 s.data p).1.queueDesc = .live qs := hqs
      rw [hdesc, hwrite] at hqs'
      obtain rfl := Slot.live.inj hqs'
      show s.accepted.Perm (s.dispatched ++ [p] ++ s.taken ++ ps)
      refine (h.log (p :: ps) hslot).trans ?_
      simp only [List.append_assoc, List.singleton_append]
      -- the message that is taken moves from the queue to the dispatched ones
      exact List.perm_middle.append_left _
    · -- an `END` is among the dispatched ones from now on
      rcases dispatch_active hactive with hactive | htype
      · rcases h.ended hactive with ⟨p', hp', htype⟩ | hint
        · exact .inl ⟨p', List.mem_append_left _ hp', htype⟩
        · exact .inr hint
      · exact .inl ⟨p, List.mem_append_right _ (by simp), htype⟩
  | openClient id key qid k p hpc hkey hget hqid =>
    obtain ⟨hactive, hdesc⟩ := registerOpened_data cfg.server s.data p.msg qid
    have hk := h.got hget (by rw [hpc]; exact fun heq => nomatch heq)
    refine ⟨hk.ok, fun heq => (nomatch heq), ?_, fun qs hqs => ?_, fun hfalse => ?_⟩
    · exact hdesc ▸ hk.known
    · exact hk.log qs (hdesc ▸ hqs)
    · exact h.ended (hactive.symm.trans hfalse)
  | send qid p ps hpc hslot hroom =>
    have hpost := h.post p hslot (by rw [hpc]; exact fun heq => nomatch heq)
    exact hpost.goOn fun heq => nomatch heq
  | fail hfails => exact h.goOn (exit_ne_start s.data (-1))
  | remove status hpc =>
    have hrm := h.rmid s.data.queueDesc (by rw [hpc]; exact fun heq => nomatch heq)
    exact hrm.goOn fun heq => nomatch heq

end Server

section Clients

variable [DecidableEq ι] {cfg : Config ι} {s s' : Sys ι} {i : ι}

omit [DecidableEq ι] in
/-- Before the server has started, a client has found no queue. -/
theorem SysInv.started (h : SysInv s) (hpc : (s.client i).pc ≠ .openPublic)
    (hgone : ∀ status, (s.client i).pc ≠ .gone status) : s.pc ≠ .start := by
  intro hstart
  rcases ((h.fresh hstart).client i).1 with hopen | ⟨status, hstatus⟩
  · exact hpc hopen
  · exact hgone status hstatus

theorem SysInv.setClient (h : SysInv s) (c : Client) (hpc : s.pc ≠ .start) :
    SysInv (s.setClient i c) :=
  { h with fresh := fun hstart => absurd hstart hpc }

theorem SysInv.exitClient (h : SysInv s) (hpc : (s.client i).pc.status = none) (status : ℤ) :
    SysInv (s.setClient i (exitClient (s.client i) status)) := by
  refine { h with fresh := fun hstart => ?_ }
  have hfresh := h.fresh hstart
  refine ⟨hfresh.keys, fun j => ?_, hfresh.log, hfresh.queueDesc⟩
  -- a client that ends before the server's start has opened no queue
  by_cases hj : j = i
  · subst hj
    obtain ⟨-, hpriv⟩ := hfresh.client j
    have hgone : SystemV.exitClient (s.client j) status =
        { s.client j with pc := .gone status } := by
      unfold SystemV.exitClient
      rw [if_neg (by omega)]
    have hclient : (s.setClient j (SystemV.exitClient (s.client j) status)).client j =
        { s.client j with pc := .gone status } := (Function.update_self ..).trans hgone
    rw [hclient]
    exact ⟨.inr ⟨status, rfl⟩, hpriv⟩
  · have hclient : (s.setClient i (SystemV.exitClient (s.client i) status)).client j =
        s.client j := Function.update_of_ne hj ..
    rw [hclient]
    exact hfresh.client j

omit [DecidableEq ι] in
theorem sends_status {c : Client} {msg : Message} {answered : Bool} {pc : ClientPc}
    (h : ClientPc.sends cfg i c = some (msg, answered, pc)) :
    c.pc ≠ .openPublic ∧ c.pc.status = none := by
  unfold ClientPc.sends at h
  split at h
  · rename_i hpc
    rw [hpc]
    exact ⟨ClientPc.noConfusion, rfl⟩
  · rename_i answered' hpc
    rw [hpc]
    exact ⟨ClientPc.noConfusion, rfl⟩
  · exact absurd h (Option.some_ne_none _).symm

theorem SysInv.clientDoes (h : SysInv s) (hdoes : ClientDoes cfg i s s') : SysInv s' := by
  cases hdoes with
  | openPublic q hpc hkey =>
    have hstart : s.pc ≠ .start := fun hstart =>
      Option.some_ne_none _ (hkey.symm.trans ((h.fresh hstart).keys _))
    exact h.setClient _ hstart
  | openPrivate id q k hpc hget =>
    have hstart := h.started (i := i) (by simp [hpc]) (by simp [hpc])
    exact (h.got hget hstart).setClient _ hstart
  | send msg answered pc ps hpc hslot hroom =>
    obtain ⟨hopen, hstatus⟩ := sends_status hpc
    -- a client that sends has found the server's key, so the server is there
    have hstart := h.started (i := i) hopen fun status hgone => by
      simp [hgone, ClientPc.status] at hstatus
    have hpost := h.post ⟨msg, i⟩ hslot hstart
    have hset := hpost.setClient (i := i) { s.client i with msg := msg, pc := pc } hstart
    exact { hset with fresh := fun heq => absurd heq hstart, ended := hset.ended }
  | session p ps hpc hslot =>
    have hstart := h.started (i := i) (by simp [hpc]) (by simp [hpc])
    exact (h.take hslot hstart).setClient _ hstart
  | prompt hpc =>
    have hstart := h.started (i := i) (by simp [hpc]) (by simp [hpc])
    exact h.setClient _ hstart
  | response p ps hpc hslot =>
    have hstart := h.started (i := i) (by simp [hpc]) (by simp [hpc])
    exact (h.take hslot hstart).setClient _ hstart
  | exit status hpc => exact h.exitClient hpc status
  | remove status hpc =>
    have hstart := h.started (i := i) (by simp [hpc]) (by simp [hpc])
    exact (h.rmid _ hstart).setClient _ hstart

/-- **Every step keeps the invariant.** -/
theorem sysInv_step {e : Event ι} (h : SysInv s) (hstep : (system cfg).step e s = some s') :
    SysInv s' := by
  cases does h.ok hstep with
  | server id garbage clock hdoes => exact h.serverDoes hdoes
  | interruptServer hpc =>
    have hexit := h.goOn (exit_ne_start s.data 2)
    exact { hexit with
      fresh := fun hstart => absurd hstart (exit_ne_start s.data 2)
      ended := fun _ => .inr rfl }
  | client i id hdoes => exact h.clientDoes hdoes
  | interruptClient i hpc => exact h.exitClient hpc 2

omit [DecidableEq ι] in
theorem sysInv_start (cfg : Config ι) : SysInv cfg.start where
  ok := Kernel.ok_empty
  fresh _ := ⟨fun _ => rfl, fun _ => ⟨.inl rfl, rfl⟩, ⟨rfl, rfl, rfl⟩, rfl⟩
  known := .inl rfl
  log _ hps := nomatch hps
  ended h := absurd h Bool.true_eq_false.mp

/-! ### After the removal of the public queue -/

/-- A server that has ended has no queue. -/
def Sys.Closed (s : Sys ι) : Prop :=
  ∀ status, s.pc = .gone status → ¬(s.kernel.slot s.data.queueDesc).Live

omit [DecidableEq ι] in
theorem closed_exit (hok : s.kernel.Ok) {status status' : ℤ}
    (hgone : exit s.data status = (.gone status' : ServerPc ι)) :
    ¬(s.kernel.slot s.data.queueDesc).Live := by
  intro hlive
  have := hok.nonneg _ hlive
  rw [exit, if_pos (by omega)] at hgone
  cases hgone

/-- No step of a client brings the public queue back. -/
theorem not_live_client (h : SysInv s) (hnot : ¬(s.kernel.slot s.data.queueDesc).Live)
    (hdoes : ClientDoes cfg i s s') : ¬(s'.kernel.slot s.data.queueDesc).Live := by
  have hwrite : ∀ q ps, (s.kernel.slot q).Live →
      ¬((s.kernel.write q ps).slot s.data.queueDesc).Live := by
    intro q ps hlive
    have hne : s.data.queueDesc ≠ q := fun heq => hnot (heq ▸ hlive)
    rwa [Kernel.write_slot_of_ne hne]
  cases hdoes with
  | openPrivate id q k hpc hget =>
    -- the new queue has an id that was never in use
    show ¬(k.slot s.data.queueDesc).Live
    rcases h.known with hdesc | hused
    · intro hlive
      have := (h.ok.got hget).nonneg _ hlive
      omega
    · rwa [hget.slot_eq hused]
  | send msg answered pc ps hpc hslot hroom => exact hwrite _ _ ⟨ps, hslot⟩
  | session p ps hpc hslot => exact hwrite _ _ ⟨_, hslot⟩
  | response p ps hpc hslot => exact hwrite _ _ ⟨_, hslot⟩
  | remove status hpc =>
    show ¬((s.kernel.rmid (s.client i).privQid).slot s.data.queueDesc).Live
    -- a client that takes the public queue for its own removes it
    by_cases hq : s.data.queueDesc = (s.client i).privQid
    · rw [hq]
      exact Kernel.rmid_slot_self
    · rwa [Kernel.rmid_slot_of_ne hq]
  | _ => exact hnot

theorem closed_step {e : Event ι} (h : SysInv s) (hclosed : s.Closed)
    (hstep : (system cfg).step e s = some s') : s'.Closed := by
  intro status hgone
  cases does h.ok hstep with
  | server id garbage clock hdoes =>
    cases hdoes with
    | finish hpc hactive hslot => exact closed_exit h.ok hgone
    | receive clock' p ps hpc hslot =>
      have hrunning : (dispatchRequests cfg.server clock'.1 s.data p).2.status = none :=
        dispatch_ne_start.2
      have hgone' : (dispatchRequests cfg.server clock'.1 s.data p).2 = .gone status := hgone
      rw [hgone'] at hrunning
      cases hrunning
    | fail hfails => exact closed_exit h.ok hgone
    | remove status' hpc => exact Kernel.rmid_slot_self
    | _ => cases hgone
  | interruptServer hpc => exact closed_exit h.ok hgone
  | client i id hdoes =>
    have hpc : s'.pc = s.pc ∧ s'.data = s.data := by cases hdoes <;> exact ⟨rfl, rfl⟩
    rw [hpc.2]
    exact not_live_client h (hclosed status (hpc.1.symm.trans hgone)) hdoes
  | interruptClient i hpc => exact hclosed status hgone

end Clients

end SystemV
end MsgQueue
end OpSys
