import OpSys.MsgQueue.Posix.Cleanup

/-!
# Who is told that the server ends

`close_queue` of the server sends `SIGINT` to the pids in its array.  These are the pids that
a registry has, which takes the pid of a `REGISTER` as long as there is room, and gives up one
entry of a pid at its `QUIT`.

## Main definitions

* `register`, `registered` — the registry after a message, and after a list of them.
* `kills`, `watched`, `watchedRun` — the system with a record of whom `kill` has been called with.
* `Noted` — the array is the registry, and the record goes through the array.

## Main results

* `noted_step` — what a step keeps.
* `notifies_registered` — in the end every entry of the registry has been told, and no one else.

## References

`lab5_message_queues/POSIX/server.c`.
-/

namespace OpSys
namespace MsgQueue
namespace Posix

/-! ### The registry -/

/-- The pids that are registered after a message. -/
def register (pids : List ℤ) (m : Message) : List ℤ :=
  if m.type = typeRegister then
    if (pids.length : ℤ) < maxClients then pids ++ [m.senderPid] else pids
  else if m.type = typeQuit then pids.erase m.senderPid
  else pids

/-- The pids that are registered after `ms`. -/
def registered (ms : List Message) : List ℤ := ms.foldl register []

@[simp] theorem registered_concat (ms : List Message) (m : Message) :
    registered (ms ++ [m]) = register (registered ms) m := List.foldl_concat ..

/-- Other messages leave the registry alone. -/
theorem register_other (pids : List ℤ) {m : Message} (hreg : m.type ≠ typeRegister)
    (hquit : m.type ≠ typeQuit) : register pids m = pids := by
  rw [register, if_neg hreg, if_neg hquit]

theorem register_quit (pids : List ℤ) {m : Message} (hquit : m.type = typeQuit) :
    register pids m = pids.erase m.senderPid := by
  have hreg : m.type ≠ typeRegister := by
    rw [hquit]
    decide
  rw [register, if_neg hreg, if_pos hquit]

/-! ### The record -/

variable {ι : Type*}

/-- Whom a step of `close_queue` sends `SIGINT`. -/
def kills : Event ι → Sys ι → List ℤ
  | .server _ _, s =>
    match s.pc with
    | .closeClient _ i => [(s.data.clientsData i).1]
    | _ => []
  | .interruptServer, _ => []
  | .client _, _ => []
  | .interruptClient _, _ => []

/-- The system, and the pids that the server has called `kill` with. -/
def watched [DecidableEq ι] (cfg : Config ι) : Machine (Event ι) (Sys ι × List ℤ) :=
  (system cfg).watch (fun _ _ _ => true) fun e s told => told ++ kills e s

/-- A run from the start, and the pids that the server has called `kill` with. -/
def watchedRun [DecidableEq ι] (cfg : Config ι) (es : List (Event ι)) : Sys ι × List ℤ :=
  (watched cfg).run es (cfg.start, [])

/-- The pids in the array. -/
def pids (d : ServerData) : List ℤ := (entries d).map Prod.fst

/-- The messages that the server has received and not finished with. -/
def ServerPc.InHand (d : ServerData) (rest : List Message) : ServerPc → Prop
  | .register msg => rest = [msg]
  | .quit i => ∃ m, rest = [m] ∧ m.type = typeQuit ∧ i = d.find m.senderPid
  | _ => rest = []

/-- How many entries of the array `close_queue` has gone through. -/
def ServerPc.passed (d : ServerData) : ServerPc → ℕ
  | .closeClient _ i => i
  | .closeQueue _ => d.clientCount.toNat
  | .unlink _ => d.clientCount.toNat
  | .gone _ => d.clientCount.toNat
  | _ => 0

/-- The server has finished with the messages `ms` and not with `rest`, and has told the pids
in `told`. -/
structure Noted (s : Sys ι) (told : List ℤ) (ms rest : List Message) : Prop where
  split : s.dispatched = ms ++ rest
  table : pids s.data = registered ms
  hand : s.pc.status = none → s.pc.InHand s.data rest
  left : ∀ status, s.pc.status = some status → rest.length ≤ 1 ∧ (status = 0 → rest = [])
  told_eq : told = (pids s.data).take (s.pc.passed s.data)
  bound : ∀ status i, s.pc = .closeClient status i → (i : ℤ) < s.data.clientCount

section Server

variable {cfg : Config ι} {s s' : Sys ι} {told : List ℤ} {ms rest : List Message} {d : ServerData}
  {pc : ServerPc}

@[simp] theorem length_pids (d : ServerData) : (pids d).length = d.clientCount.toNat := by
  rw [pids, List.length_map, length_entries]

theorem InHand.length_le (h : pc.InHand d rest) : rest.length ≤ 1 := by
  cases pc with
  | register msg => exact (congrArg List.length h).le
  | quit i =>
    obtain ⟨m, rfl, -, -⟩ := h
    exact le_rfl
  | _ => exact (congrArg List.length h).trans_le zero_le_one

theorem passed_of_status (hstatus : pc.status = none) : pc.passed d = 0 := by
  cases pc with
  | closeClient => exact nomatch hstatus
  | closeQueue => exact nomatch hstatus
  | unlink => exact nomatch hstatus
  | gone => exact nomatch hstatus
  | _ => rfl

@[simp] theorem passed_closePublic (d' : ServerData) (status : ℤ) :
    (closePublic d' status).passed d = d.clientCount.toNat := by
  unfold closePublic
  split
  · rfl
  · rfl

/-- At `exit` no one has been told. -/
theorem take_exit (d : ServerData) (status : ℤ) :
    (pids d).take ((exit d status).passed d) = [] := by
  unfold exit
  split
  · rfl
  · have hnil : pids d = [] := List.eq_nil_of_length_eq_zero (by rw [length_pids]; omega)
    rw [hnil, List.take_nil]

theorem exit_eq_closeClient {status status' : ℤ} {i : ℕ}
    (h : exit d status = .closeClient status' i) : (i : ℤ) < d.clientCount := by
  unfold exit at h
  split at h
  · obtain ⟨-, rfl⟩ := ServerPc.closeClient.inj h
    assumption
  · unfold closePublic at h
    split at h
    · cases h
    · cases h

/-- The running server has told no one. -/
theorem Noted.told_nil (h : Noted s told ms rest) (hstatus : s.pc.status = none) : told = [] := by
  rw [h.told_eq, passed_of_status hstatus, List.take_zero]

/-- The server runs on, and has perhaps finished with the message in hand. -/
theorem Noted.goOn {ms' rest' : List Message} (h : Noted s told ms rest)
    (hstatus : s.pc.status = none) (hstatus' : s'.pc.status = none)
    (hsplit : s'.dispatched = ms' ++ rest') (htable : pids s'.data = registered ms')
    (hhand : s'.pc.InHand s'.data rest') : Noted s' told ms' rest' where
  split := hsplit
  table := htable
  hand _ := hhand
  left status hsome := nomatch hstatus'.symm.trans hsome
  told_eq := by rw [h.told_nil hstatus, passed_of_status hstatus', List.take_zero]
  bound status i hpc := nomatch hstatus'.symm.trans (congrArg ServerPc.status hpc)

/-- The server leaves its loop. -/
theorem Noted.exited (h : Noted s told ms rest) (hstatus : s.pc.status = none) {status : ℤ}
    (hsplit : s'.dispatched = s.dispatched) (hpids : pids s'.data = pids s.data)
    (hpc : s'.pc = exit s'.data status) (hzero : status = 0 → rest = []) :
    Noted s' told ms rest where
  split := hsplit.trans h.split
  table := hpids.trans h.table
  hand hnone := by
    rw [hpc] at hnone
    exact nomatch hnone.symm.trans (exit_status s'.data status)
  left status' hsome := by
    rw [hpc] at hsome
    obtain rfl := Option.some.inj ((exit_status s'.data status).symm.trans hsome)
    exact ⟨InHand.length_le (h.hand hstatus), hzero⟩
  told_eq := by rw [h.told_nil hstatus, hpc, take_exit]
  bound status' i heq := exit_eq_closeClient (hpc.symm.trans heq)

/-- `handle_register` does to the array what `register` does. -/
theorem pids_registerOpened (hcount : 0 ≤ d.clientCount) (server qid : ℤ) {msg : Message}
    (htype : msg.type = typeRegister) :
    pids (registerOpened server d msg qid).1 = register (pids d) msg := by
  have hlen := length_pids d
  rw [register, if_pos htype]
  unfold registerOpened
  by_cases hfull : d.clientCount > maxClients - 1
  · rw [if_pos hfull, if_neg (by omega)]
  · rw [if_neg hfull, if_pos (by omega)]
    simp only [pids, entries_accept hcount, List.map_append, List.map_cons, List.map_nil]

/-- So does `handle_quit`. -/
theorem pids_quitClosed {m : Message} (htype : m.type = typeQuit)
    (hfind : (d.find m.senderPid : ℤ) < d.clientCount) :
    pids (quitClosed d (d.find m.senderPid)) = register (pids d) m := by
  rw [register_quit _ htype, pids, entries_quitClosed_find hfind, pids, List.erase_eq_eraseP',
    List.eraseP_map]
  rfl

/-- A pid that is not found is not registered. -/
theorem register_unknown (hcount : 0 ≤ d.clientCount) {m : Message}
    (hreg : m.type ≠ typeRegister) (hfind : ¬(d.find m.senderPid : ℤ) < d.clientCount) :
    register (pids d) m = pids d := by
  by_cases hquit : m.type = typeQuit
  · rw [register_quit _ hquit]
    refine List.erase_of_not_mem fun hmem => hfind ?_
    obtain ⟨e, he, heq⟩ := List.mem_map.mp hmem
    exact (find_lt_iff hcount _).mpr ⟨e, he, heq⟩
  · exact register_other _ hreg hquit

/-- A message is received. -/
theorem Noted.receive (h : Noted s told ms []) (hcount : 0 ≤ s.data.clientCount)
    (hstatus : s.pc.status = none) {m : Message} {p : ServerData × ServerPc}
    (hp : Dispatched cfg.server s.data m p) (hpc : s'.pc = p.2) (hdata : s'.data = p.1)
    (hlog : s'.dispatched = s.dispatched ++ [m]) : ∃ ms' rest', Noted s' told ms' rest' := by
  have hstatus' : s'.pc.status = none := hpc ▸ hp.running.2
  have hsplit : s'.dispatched = ms ++ [m] := by rw [hlog, h.split, List.append_nil]
  -- a message that leaves the table as it is is finished with at once
  have hdone : register (pids s.data) m = pids s.data → pids s'.data = pids s.data →
      s'.pc.InHand s'.data [] → ∃ ms' rest', Noted s' told ms' rest' := by
    intro hsame hpids hhand
    refine ⟨ms ++ [m], [], h.goOn hstatus hstatus' ?_ ?_ hhand⟩
    · rw [hsplit, List.append_nil]
    · rw [registered_concat, ← h.table, hsame, hpids]
  -- `REGISTER` and `QUIT` stay in hand until the table has changed
  have hheld : pids s'.data = pids s.data → s'.pc.InHand s'.data [m] →
      ∃ ms' rest', Noted s' told ms' rest' := fun hpids hhand =>
    ⟨ms, [m], h.goOn hstatus hstatus' hsplit (hpids.trans h.table) hhand⟩
  cases hp with
  | register htype =>
    refine hheld (by rw [hdata]) ?_
    rw [hpc]
    rfl
  | unknown htype hfind =>
    have hreg : m.type ≠ typeRegister := by
      rcases htype with htype | htype | htype <;> rw [htype] <;> decide
    refine hdone (register_unknown hcount hreg hfind) (by rw [hdata]) ?_
    rw [hpc]
    rfl
  | respond resp htype hfind hanswer =>
    have hother : m.type ≠ typeRegister ∧ m.type ≠ typeQuit := by
      rcases htype with htype | htype <;> rw [htype] <;> decide
    refine hdone (register_other _ hother.1 hother.2) (by rw [hdata]) ?_
    rw [hpc]
    rfl
  | finish htype =>
    have hother : m.type ≠ typeRegister ∧ m.type ≠ typeQuit := by rw [htype]; decide
    refine hdone (register_other _ hother.1 hother.2) (by rw [hdata]; rfl) ?_
    rw [hpc]
    rfl
  | quit htype hfind =>
    refine hheld (by rw [hdata]) ?_
    rw [hpc, hdata]
    exact ⟨m, rfl, htype, rfl⟩
  | other htype =>
    refine hdone (register_other _ htype.1 htype.2.2.2.2) (by rw [hdata]) ?_
    rw [hpc]
    rfl

/-- The handler of `QUIT` or of a `REGISTER` has finished with the message in hand. -/
theorem Noted.finished (h : Noted s told ms rest) (hstatus : s.pc.status = none) {m : Message}
    (hrest : rest = [m]) (hstatus' : s'.pc.status = none) (hlog : s'.dispatched = s.dispatched)
    (hpids : pids s'.data = register (pids s.data) m) (hhand : s'.pc.InHand s'.data []) :
    ∃ ms' rest', Noted s' told ms' rest' := by
  refine ⟨ms ++ [m], [], h.goOn hstatus hstatus' ?_ ?_ hhand⟩
  · rw [hlog, h.split, hrest, List.append_nil]
  · rw [registered_concat, ← h.table, hpids]

theorem inHand_nil_of_sends {pc' : ServerPc} {qid : ℤ} {msg : Message}
    (hpc : pc.sends = some (qid, msg, pc')) (h : pc.InHand d rest) : pc'.InHand d rest := by
  cases pc with
  | refuse qid' msg' =>
    obtain ⟨-, -, rfl⟩ := by simpa [ServerPc.sends] using hpc
    exact h
  | login qid' msg' =>
    obtain ⟨-, -, rfl⟩ := by simpa [ServerPc.sends] using hpc
    exact h
  | respond qid' msg' =>
    obtain ⟨-, -, rfl⟩ := by simpa [ServerPc.sends] using hpc
    exact h
  | _ => exact absurd hpc (Option.some_ne_none _).symm

/-- **The running server keeps its array as the registry is.** -/
theorem Noted.serverDoes [DecidableEq ι] (h : Noted s told ms rest) (hsys : SysInv cfg s)
    (hstatus : s.pc.status = none) (hdoes : ServerDoes cfg s s') :
    ∃ ms' rest', Noted s' told ms' rest' := by
  have hhand := h.hand hstatus
  have hfds : s.pc ≠ .start → FdInv cfg s.fds s.data s.pc := fun hne => hsys.fds ⟨hne, hstatus⟩
  have hfails : ∃ ms' rest', Noted (s.exitServer (-1)) told ms' rest' :=
    ⟨ms, rest, h.exited hstatus rfl rfl rfl fun heq => absurd heq (by decide)⟩
  cases hdoes with
  | create fd q hpc hfd hq =>
    rw [hpc] at hhand
    exact ⟨ms, rest, h.goOn hstatus rfl h.split h.table hhand⟩
  | wait hpc =>
    rw [hpc] at hhand
    exact ⟨ms, rest, h.goOn hstatus rfl h.split h.table hhand⟩
  | finish q hpc hactive hfd hempty =>
    rw [hpc] at hhand
    exact ⟨ms, rest, h.exited hstatus rfl rfl rfl fun _ => hhand⟩
  | receive clock q m qs hpc hfd hq =>
    have hrun := hfds (by simp [hpc])
    rw [hpc] at hhand
    obtain rfl : rest = [] := hhand
    -- only between two rounds does the server receive, with nothing in hand
    exact h.receive hrun.count_nonneg hstatus (hrun.dispatched cfg.server clock m) rfl rfl rfl
  | openClient fd msg q hpc hlink hfd =>
    -- the client opened is entered or refused, and the `REGISTER` leaves the hand
    have hcount := (hfds (by simp [hpc])).count_nonneg
    rw [hpc] at hhand
    refine h.finished hstatus hhand (registerOpened_running ..).1.2 rfl
      (pids_registerOpened hcount _ _ (hsys.register msg hpc).2) ?_
    show (registerOpened cfg.server s.data msg fd).2.InHand _ []
    unfold registerOpened
    split
    · rfl
    · rfl
  | send qid msg pc q hpc hfd hroom =>
    have hrun' := (sends_running hpc).2.1
    exact ⟨ms, rest, h.goOn hstatus hrun'.2 h.split h.table (inHand_nil_of_sends hpc hhand)⟩
  | close qid d q hpc hfd =>
    -- a refused client is closed beside the table, a client that quits is taken out of it
    cases hat : s.pc with
    | closeRefused qid' =>
      rw [hat] at hpc hhand
      obtain ⟨-, rfl⟩ := Prod.mk.inj (Option.some.inj hpc)
      exact ⟨ms, rest, h.goOn hstatus rfl h.split h.table hhand⟩
    | quit i =>
      have hfound := (hfds (by simp [hat])).found i hat
      rw [hat] at hpc hhand
      obtain ⟨-, rfl⟩ := Prod.mk.inj (Option.some.inj hpc)
      obtain ⟨m, hrest, htype, rfl⟩ := hhand
      exact h.finished hstatus hrest rfl rfl (pids_quitClosed htype hfound) rfl
    | _ =>
      rw [hat] at hpc
      exact absurd hpc (Option.some_ne_none _).symm
  | missing msg hpc hlink => exact hfails
  | badPublic hpc hfd => exact hfails
  | badSend qid msg pc hpc hfd => exact hfails
  | badClose qid d hpc hfd => exact hfails
  -- an ending server is not in this case
  | closing status fd pc hpc hpc' => exact nomatch hstatus.symm.trans hpc
  | unlink status hpc => exact nomatch hstatus.symm.trans (congrArg ServerPc.status hpc)

/-- The server is past `exit`, and goes on to `pc`. -/
theorem Noted.passOn {told' : List ℤ} (h : Noted s told ms rest) {status : ℤ}
    (hstatus : s.pc.status = some status) (hstatus' : s'.pc.status = some status)
    (hsplit : s'.dispatched = s.dispatched) (hdata : s'.data = s.data)
    (htold : told' = (pids s.data).take (s'.pc.passed s.data))
    (hbound : ∀ status i, s'.pc = .closeClient status i → (i : ℤ) < s.data.clientCount) :
    Noted s' told' ms rest where
  split := hsplit.trans h.split
  table := hdata ▸ h.table
  hand hnone := nomatch hnone.symm.trans hstatus'
  left status' hsome := by
    obtain rfl := Option.some.inj (hstatus'.symm.trans hsome)
    exact h.left status hstatus
  told_eq := hdata ▸ htold
  bound := hdata ▸ hbound

/-- **`close_queue` tells the pids of the array, one after the other.** -/
theorem Noted.closing [DecidableEq ι] (h : Noted s told ms rest) {fd : ℤ} {clock : Clock}
    {status : ℤ} (hstatus : s.pc.status = some status)
    (hstep : serverStep cfg fd clock s = some s') :
    Noted s' (told ++ kills (.server fd clock) s) ms rest := by
  rcases closing_cases hstep hstatus with ⟨i, hpc, rfl⟩ | ⟨hpc, rfl⟩ | ⟨hpc, rfl⟩
  · have hlt := h.bound status i hpc
    -- the signal goes to the entry that is next in the table
    have hat : (pids s.data)[i]? = some (s.data.clientsData i).1 := by
      rw [pids, List.getElem?_map, getElem?_entries, if_pos (by omega), Option.map_some]
    have htold : told ++ kills (.server fd clock) s = (pids s.data).take (i + 1) := by
      rw [List.take_add_one, hat, kills, hpc, h.told_eq, hpc]
      rfl
    refine h.passOn hstatus (afterClient_status ..) rfl rfl ?_ ?_
    · rw [htold]
      show _ = (pids s.data).take ((afterClient s.data status i).passed s.data)
      unfold afterClient
      split
      · rfl
      · rw [passed_closePublic]
        congr 1
        omega
    · intro status' j hj
      have hj' : afterClient s.data status i = .closeClient status' j := hj
      unfold afterClient at hj'
      split at hj'
      · obtain ⟨-, rfl⟩ := ServerPc.closeClient.inj hj'
        push_cast
        assumption
      · unfold closePublic at hj'
        split at hj'
        · cases hj'
        · cases hj'
  · refine h.passOn hstatus rfl rfl rfl ?_ fun _ _ heq => nomatch heq
    rw [kills, hpc, List.append_nil, h.told_eq, hpc]
    rfl
  · refine h.passOn hstatus rfl rfl rfl ?_ fun _ _ heq => nomatch heq
    rw [kills, hpc, List.append_nil, h.told_eq, hpc]
    rfl

end Server

/-! ### Runs -/

section Runs

variable {cfg : Config ι} {s s' : Sys ι} {told : List ℤ} {ms rest : List Message}

theorem clientDoes_server [DecidableEq ι] {i : ι} (h : ClientDoes cfg i s s') :
    s'.pc = s.pc ∧ s'.data = s.data ∧ s'.dispatched = s.dispatched := by
  cases h <;> exact ⟨rfl, rfl, rfl⟩

/-- What a client does is no concern of the array. -/
theorem Noted.elsewhere (h : Noted s told ms rest) (hpc : s'.pc = s.pc) (hdata : s'.data = s.data)
    (hlog : s'.dispatched = s.dispatched) : Noted s' told ms rest where
  split := hlog.trans h.split
  table := hdata ▸ h.table
  hand := by
    rw [hpc, hdata]
    exact h.hand
  left := hpc ▸ h.left
  told_eq := by
    rw [hpc, hdata]
    exact h.told_eq
  bound := by
    rw [hpc, hdata]
    exact h.bound

theorem kills_of_status (h : s.pc.status = none) (e : Event ι) : kills e s = [] := by
  cases e with
  | server fd clock =>
    simp only [kills]
    split
    · rename_i heq
      rw [heq] at h
      cases h
    · rfl
  | _ => rfl

theorem noted_start (cfg : Config ι) : Noted cfg.start [] [] [] where
  split := rfl
  table := rfl
  hand _ := rfl
  left _ h := nomatch h
  told_eq := rfl
  bound _ _ h := nomatch h

variable [DecidableEq ι]

/-- **Every step keeps the array and the record in order.** -/
theorem noted_step {e : Event ι} (h : Noted s told ms rest) (hsys : SysInv cfg s)
    (hstep : (system cfg).step e s = some s') :
    ∃ ms' rest', Noted s' (told ++ kills e s) ms' rest' := by
  cases e with
  | server fd clock =>
    cases hstatus : s.pc.status with
    | none =>
      rw [kills_of_status hstatus, List.append_nil]
      exact h.serverDoes hsys hstatus (serverDoes hstep)
    | some status => exact ⟨ms, rest, h.closing hstatus hstep⟩
  | interruptServer =>
    cases does hstep with
    | interruptServer hpc =>
      rw [kills, List.append_nil]
      exact ⟨ms, rest, h.exited hpc rfl rfl rfl fun heq => absurd heq (by decide)⟩
  | client i =>
    obtain ⟨hpc, hdata, hlog⟩ := clientDoes_server (clientDoes hstep)
    rw [kills, List.append_nil]
    exact ⟨ms, rest, h.elsewhere hpc hdata hlog⟩
  | interruptClient i =>
    cases does hstep with
    | interruptClient _ hpc =>
      rw [kills, List.append_nil]
      exact ⟨ms, rest, h.elsewhere rfl rfl rfl⟩

theorem noted_run (cfg : Config ι) (es : List (Event ι)) :
    ∃ ms rest, Noted (watchedRun cfg es).1 (watchedRun cfg es).2 ms rest := by
  have hstep : ∀ e (w w' : Sys ι × List ℤ), (SysInv cfg w.1 ∧ ∃ ms rest, Noted w.1 w.2 ms rest) →
      (watched cfg).step e w = some w' →
      SysInv cfg w'.1 ∧ ∃ ms rest, Noted w'.1 w'.2 ms rest := by
    rintro e w w' ⟨hsys, ms, rest, h⟩ hs
    obtain ⟨-, hs', htold⟩ := Machine.watch_step_eq_some.mp hs
    rw [htold]
    exact ⟨sysInv_step hsys hs', noted_step h hsys hs'⟩
  have hstart : SysInv cfg (cfg.start, ([] : List ℤ)).1 ∧
      ∃ ms rest, Noted (cfg.start, ([] : List ℤ)).1 (cfg.start, ([] : List ℤ)).2 ms rest :=
    ⟨sysInv_start, [], [], noted_start cfg⟩
  exact (Machine.run_invariant hstep es hstart).2

end Runs

end Posix
end MsgQueue
end OpSys
