import OpSys.MsgQueue.Posix.Dispatch

/-!
# Session numbers

The number that `handle_register` hands out is the place of the client in the array
at that time, which is how many clients are registered.  Clients that leave make
room in front, and the number is handed out again while its holder is registered.

## Main definitions

* `session` — the number that a registered client has been told.
* `SessionsDistinct` — the registered clients hold different numbers.
* `NumberFree` — no registered client was accepted among as many clients.

## Main results

* `sessionsDistinct_iff` — exactly when the numbers stay different.

## References

`lab5_message_queues/POSIX/server.c`, `lab5_message_queues/POSIX/client.c`.
-/

namespace OpSys
namespace MsgQueue
namespace Posix

open Stdio

/-- The session number that the client with this queue has read from the last response
to a `REGISTER`. -/
def session (s : Desk) (qid : ℤ) : Option Scan :=
  (s.lastLogin qid).map fun l => scanInt l.answer.content

/-- How many clients were registered when this client was accepted. -/
def registeredBefore (s : Desk) (qid : ℤ) : Option ℤ := (s.lastLogin qid).map Login.among

/-- No two registered clients hold the same session number. -/
def SessionsDistinct (s : Desk) : Prop :=
  ((entries s.data).map fun e => session s e.2).Nodup

instance (s : Desk) : Decidable (SessionsDistinct s) :=
  inferInstanceAs (Decidable ((entries s.data).map fun e => session s e.2).Nodup)

/-- If this message makes the server accept a client, then no client that is still
registered was accepted while as many clients were registered as now. -/
def NumberFree (r : Request) (s : Desk) : Prop :=
  r.msg.type = typeRegister → s.data.clientCount < maxClients →
    ∀ e ∈ entries s.data, registeredBefore s e.2 ≠ some s.data.clientCount

section Step

variable {server queueDesc : ℤ} {r : Request} {s : Desk}

theorem DeskInv.session_eq (h : DeskInv queueDesc s) {e : ℤ × ℤ} (he : e ∈ entries s.data) :
    session s e.2 = (registeredBefore s e.2).map Scan.value := by
  obtain ⟨l, hl, hscan⟩ := h.numbered e he
  rw [session, registeredBefore, hl, Option.map_some, Option.map_some, Option.map_some, hscan]

/-- A response on a new descriptor changes no session number that is held. -/
theorem map_session_update (h : DeskInv queueDesc s) {qid : ℤ} (hqid : qid ∉ s.isOpen)
    (s' : Desk) (hlogin : ∃ l, s'.lastLogin = Function.update s.lastLogin qid l) :
    ((entries s.data).map fun e => session s' e.2) =
      (entries s.data).map fun e => session s e.2 := by
  obtain ⟨l, hl⟩ := hlogin
  refine List.map_congr_left fun e he => ?_
  have hne : e.2 ≠ qid := fun heq => hqid (heq ▸ h.snd_mem he)
  rw [session, session, hl, Function.update_of_ne hne]

/-- The accepted client gets a number of its own exactly if the number is free. -/
theorem sessionsDistinct_accepted (h : DeskInv queueDesc s) (hfresh : s.Fresh r.qid)
    (hroom : ¬s.data.clientCount > maxClients - 1) (hdistinct : SessionsDistinct s) :
    SessionsDistinct (s.accepted server r) ↔
      ∀ e ∈ entries s.data, registeredBefore s e.2 ≠ some s.data.clientCount := by
  -- the number of the new client is the length of the table
  have hnew : session (s.accepted server r) r.qid = some (.value s.data.clientCount) := by
    rw [session, Desk.accepted, Desk.logIn]
    simp [registerResponse, scanInt_overwrite]
  have hold := map_session_update h hfresh.2.2 (s.accepted server r) ⟨_, rfl⟩
  have hmem : some (Scan.value s.data.clientCount) ∉
      ((entries s.data).map fun e => session s e.2) ↔
        ∀ e ∈ entries s.data, registeredBefore s e.2 ≠ some s.data.clientCount := by
    rw [List.mem_map, not_exists]
    refine forall_congr' fun e => ?_
    rw [not_and]
    refine forall_congr' fun he => ?_
    rw [h.session_eq he, not_iff_not]
    cases registeredBefore s e.2 with
    | none => simp
    | some n => simp
  rw [SessionsDistinct, entries_accepted h hroom, List.map_append, List.map_singleton, hnew, hold,
    ← List.concat_eq_append, List.nodup_concat, hmem]
  exact and_iff_left hdistinct

theorem sessionsDistinct_step (h : DeskInv queueDesc s) (hdistinct : SessionsDistinct s) {s' : Desk}
    (hstep : (dispatcher server).step r s = some s') :
    SessionsDistinct s' ↔ NumberFree r s := by
  by_cases hreg : r.msg.type = typeRegister
  · rw [dispatch_register hreg] at hstep
    split at hstep
    · rename_i hfresh
      obtain rfl := Option.some.inj hstep
      by_cases hfull : s.data.clientCount > maxClients - 1
      · rw [if_pos hfull]
        -- a refused client has the number -1 and no entry
        have hsame : SessionsDistinct (s.refused server r) := by
          have hold := map_session_update h hfresh.2.2 (s.refused server r) ⟨_, rfl⟩
          rw [SessionsDistinct]
          exact hold ▸ hdistinct
        exact iff_of_true hsame fun _ hroom => absurd hroom (by omega)
      · rw [if_neg hfull, sessionsDistinct_accepted h hfresh hfull hdistinct]
        exact ⟨fun hall _ _ => hall, fun hall => hall hreg (by omega)⟩
    · exact absurd hstep (Option.some_ne_none _).symm
  · have hfree : NumberFree r s := fun htype => absurd htype hreg
    refine iff_of_true ?_ hfree
    by_cases hquit : r.msg.type = typeQuit
    · rw [dispatch_quit h hquit] at hstep
      obtain rfl := Option.some.inj hstep
      split
      · rename_i hfound
        -- taking an entry out leaves the other numbers distinct
        have hentries : entries (s.left (s.data.find r.msg.senderPid)).data =
            (entries s.data).eraseIdx (s.data.find r.msg.senderPid) := entries_quitClosed hfound
        rw [SessionsDistinct, hentries]
        exact hdistinct.sublist ((List.eraseIdx_sublist ..).map _)
      · exact hdistinct
    · obtain ⟨s₁, hs₁, hsame⟩ : ∃ s₁, (dispatcher server).step r s = some s₁ ∧
          s.SameClients s₁ := dispatch_other h hreg hquit
      obtain rfl := Option.some.inj (hs₁.symm.trans hstep)
      have hsession : ∀ q, session s₁ q = session s q := fun q => by
        rw [session, session, hsame.lastLogin]
      rw [SessionsDistinct, hsame.entries_eq]
      simp only [hsession]
      exact hdistinct

end Step

/-- **The registered clients hold different session numbers** all along a history if and
only if no client is accepted while as many are registered as when some registered
client was accepted. -/
theorem sessionsDistinct_iff (server queueDesc : ℤ) (hist : List Request) :
    (∀ n, SessionsDistinct ((dispatcher server).run (hist.take n) (Desk.begin queueDesc))) ↔
      (dispatcher server).Meets NumberFree hist (Desk.begin queueDesc) :=
  Machine.forall_run_take_iff_meets (fun _ _ _ => deskInv_step)
    (fun _ _ _ h hdistinct hstep => sessionsDistinct_step h hdistinct hstep) hist
    (deskInv_begin queueDesc) (by simp [SessionsDistinct, Desk.begin, entries])

/-- A `REGISTER` from `pid`, answered over `qid`. -/
def registerFrom (pid qid : ℤ) : Request := ⟨⟨typeRegister, pid, []⟩, qid, []⟩

/-- A `QUIT` from `pid`. -/
def quitFrom (pid : ℤ) : Request := ⟨⟨typeQuit, pid, []⟩, 0, []⟩

/-- Two clients register, the first one leaves, a third one registers: it is told the
number of the second one. -/
theorem session_twice :
    ¬SessionsDistinct ((dispatcher 100).run
      [registerFrom 101 4, registerFrom 102 5, quitFrom 101, registerFrom 103 4]
        (Desk.begin 3)) := by
  decide

end Posix
end MsgQueue
end OpSys
