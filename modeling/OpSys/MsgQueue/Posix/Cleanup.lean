import OpSys.MsgQueue.Posix.Invariant

/-!
# The names of the queues

A queue with a name stays in the system when the processes are gone.  Both programs
register `close_queue` with `atexit`, so that whoever has made a name also removes it,
however the process ends.

## Main definitions

* `Sys.ServerUp` — the server has opened its queue and not removed its name yet.
* `Client.Owes` — a client has a private queue and has not removed its name yet.
* `Sys.AllEnded` — every process has ended, or has not come to its `mq_open`.

## Main results

* `named_step` — what a step keeps.
* `leaves_nothing` — every name has a process that will remove it, and in the end none is
  left.

## References

`lab5_message_queues/POSIX/server.c`, `lab5_message_queues/POSIX/client.c`.
-/

namespace OpSys
namespace MsgQueue
namespace Posix

variable {ι : Type*}

/-- The server is between `mq_open` and `mq_unlink`. -/
def Sys.ServerUp (s : Sys ι) : Prop := s.pc ≠ .start ∧ ∀ status, s.pc ≠ .gone status

/-- The client is between `mq_open` and `mq_unlink`. -/
def Client.Owes (c : Client ι) : Prop := c.privQid.isSome ∧ ∀ status, c.pc ≠ .gone status

/-- No process is between `mq_open` and `mq_unlink`. -/
def Sys.AllEnded (s : Sys ι) : Prop := ¬s.ServerUp ∧ ∀ i, ¬(s.client i).Owes

/-- Every name belongs to a process that will remove it. -/
structure Named (cfg : Config ι) (s : Sys ι) : Prop where
  unopened : s.pc = .start → s.data.queueDesc = -1
  /-- An open queue of the server is one that `close_queue` looks after. -/
  desc : s.ServerUp → 0 ≤ s.data.queueDesc
  server : s.link serverPath ≠ none ↔ s.ServerUp
  client : ∀ p, p ≠ serverPath → s.link p ≠ none →
    ∃ i, p = clientPath (cfg.pid i) ∧ (s.client i).Owes

theorem named_start (cfg : Config ι) : Named cfg cfg.start where
  unopened _ := rfl
  desc h := absurd rfl h.1
  server := ⟨fun h => absurd rfl h, fun h => absurd rfl h.1⟩
  client _ _ h := absurd rfl h

/-! ### Steps of the server -/

section Server

variable {cfg : Config ι} {s s' : Sys ι}

theorem serverUp_of_running (h : s.pc.Running) : s.ServerUp := by
  refine ⟨h.1, fun status hgone => ?_⟩
  exact h.status_ne (congrArg ServerPc.status hgone)

/-- `exit` comes to `mq_unlink` if the server has its queue. -/
theorem exit_ne_gone {d : ServerData} (hdesc : 0 ≤ d.queueDesc) (status status' : ℤ) :
    exit d status ≠ .gone status' := by
  unfold exit
  split
  · exact ServerPc.noConfusion
  · rw [closePublic, if_pos (by omega)]
    exact ServerPc.noConfusion

theorem afterClient_ne_gone {d : ServerData} (hdesc : 0 ≤ d.queueDesc) (status status' : ℤ)
    (i : ℕ) : afterClient d status i ≠ .gone status' := by
  unfold afterClient
  split
  · exact ServerPc.noConfusion
  · rw [closePublic, if_pos (by omega)]
    exact ServerPc.noConfusion

theorem serverUp_of_status {status : ℤ} (hstatus : s.pc.status = some status)
    (hne : ∀ status', s.pc ≠ .gone status') : s.ServerUp := by
  refine ⟨fun hstart => ?_, hne⟩
  exact nomatch hstatus.symm.trans (congrArg ServerPc.status hstart)

/-- The steps of `close_queue`. -/
theorem closing_cases [DecidableEq ι] {fd : ℤ} {clock : Clock}
    (h : serverStep cfg fd clock s = some s') {status : ℤ} (hstatus : s.pc.status = some status) :
    (∃ i, s.pc = .closeClient status i ∧
      s' = { s.setFd (s.data.clientsData i).2 none with pc := afterClient s.data status i }) ∨
    (s.pc = .closeQueue status ∧ s' = { s.setFd s.data.queueDesc none with pc := .unlink status }) ∨
    (s.pc = .unlink status ∧ s' = { s.setLink serverPath none with pc := .gone status }) := by
  -- only the three steps of `close_queue` have a status
  unfold serverStep at h
  cases hpc : s.pc with
  | closeClient status' i =>
    obtain rfl := Option.some.inj ((congrArg ServerPc.status hpc).symm.trans hstatus)
    simp only [hpc, Option.some.injEq] at h
    exact .inl ⟨i, rfl, h.symm⟩
  | closeQueue status' =>
    obtain rfl := Option.some.inj ((congrArg ServerPc.status hpc).symm.trans hstatus)
    simp only [hpc, Option.some.injEq] at h
    exact .inr (.inl ⟨rfl, h.symm⟩)
  | unlink status' =>
    obtain rfl := Option.some.inj ((congrArg ServerPc.status hpc).symm.trans hstatus)
    simp only [hpc, Option.some.injEq] at h
    exact .inr (.inr ⟨rfl, h.symm⟩)
  | gone status' => simp [hpc] at h
  | _ =>
    rw [hpc] at hstatus
    cases hstatus

/-- The server goes from one place to another between `mq_open` and `mq_unlink`. -/
theorem Named.move (h : Named cfg s) (hlink : s'.link = s.link) (hclient : s'.client = s.client)
    (hdesc : s'.data.queueDesc = s.data.queueDesc) (hup : s.ServerUp) (hup' : s'.ServerUp) :
    Named cfg s' where
  unopened hstart := absurd hstart hup'.1
  desc _ := hdesc ▸ h.desc hup
  server := by
    rw [hlink]
    exact ⟨fun _ => hup', fun _ => h.server.mpr hup⟩
  client p hp hne := by
    rw [hlink] at hne
    obtain ⟨i, hi, howes⟩ := h.client p hp hne
    exact ⟨i, hi, by rwa [hclient]⟩

/-- The server makes its name or removes it. -/
theorem Named.setServer [DecidableEq ι] (h : Named cfg s) {o : Option (Option ι)}
    (hlink : s'.link = Function.update s.link serverPath o) (hclient : s'.client = s.client)
    (hstart : s'.pc ≠ .start) (hdesc : s'.ServerUp → 0 ≤ s'.data.queueDesc)
    (hup : o ≠ none ↔ s'.ServerUp) : Named cfg s' where
  unopened hpc := absurd hpc hstart
  desc := hdesc
  server := by
    rw [hlink, Function.update_self]
    exact hup
  client p hp hne := by
    rw [hlink, Function.update_of_ne hp] at hne
    obtain ⟨i, hi, howes⟩ := h.client p hp hne
    exact ⟨i, hi, by rwa [hclient]⟩

theorem serverUp_exit (hdesc : 0 ≤ s.data.queueDesc) (status : ℤ) :
    (s.exitServer status).ServerUp :=
  serverUp_of_status (exit_status s.data status) (exit_ne_gone hdesc status)

theorem Dispatched.queueDesc_eq {server : ℤ} {d : ServerData} {m : Message}
    {p : ServerData × ServerPc} (hp : Dispatched server d m p) : p.1.queueDesc = d.queueDesc := by
  cases hp <;> rfl

theorem registerOpened_running (server : ℤ) (d : ServerData) (msg : Message) (qid : ℤ) :
    (registerOpened server d msg qid).2.Running ∧
      (registerOpened server d msg qid).1.queueDesc = d.queueDesc := by
  unfold registerOpened
  split
  · exact ⟨⟨ServerPc.noConfusion, rfl⟩, rfl⟩
  · exact ⟨⟨ServerPc.noConfusion, rfl⟩, rfl⟩

/-- **The running server keeps the names in order.** -/
theorem Named.serverDoes [DecidableEq ι] (h : Named cfg s) (hsys : SysInv cfg s)
    (hstatus : s.pc.status = none) (hdoes : ServerDoes cfg s s') : Named cfg s' := by
  -- the queue has its name from its creation to the `mq_unlink`
  have hup : s.pc ≠ .start → s.ServerUp := fun hstart => serverUp_of_running ⟨hstart, hstatus⟩
  have hexit : ∀ status, s.pc ≠ .start → Named cfg (s.exitServer status) := fun status hstart =>
    h.move rfl rfl rfl (hup hstart) (serverUp_exit (h.desc (hup hstart)) status)
  cases hdoes with
  | create fd q hpc hfd hq =>
    have hnew : ServerPc.Running .top := ⟨ServerPc.noConfusion, rfl⟩
    exact h.setServer rfl rfl ServerPc.noConfusion (fun _ => hfd.1)
      ⟨fun _ => serverUp_of_running hnew, fun _ => Option.some_ne_none _⟩
  | wait hpc =>
    have hstart : s.pc ≠ .start := by simp [hpc]
    exact h.move rfl rfl rfl (hup hstart) (serverUp_of_running ⟨ServerPc.noConfusion, rfl⟩)
  | finish q hpc hactive hfd hempty => exact hexit 0 (by simp [hpc])
  | receive clock q m ms hpc hfd hq =>
    have hrun : s.pc.Running := .of_eq hpc ServerPc.noConfusion rfl
    have hp := (hsys.fds hrun).dispatched cfg.server clock m
    exact h.move rfl rfl hp.queueDesc_eq (hup hrun.1) (serverUp_of_running hp.running)
  | openClient fd msg q hpc hlink hfd =>
    obtain ⟨hrun, hdesc⟩ := registerOpened_running cfg.server s.data msg fd
    exact h.move rfl rfl hdesc (hup (by simp [hpc])) (serverUp_of_running hrun)
  | send qid msg pc q hpc hfd hroom =>
    obtain ⟨hrun, hrun', -⟩ := sends_running hpc
    exact h.move rfl rfl rfl (hup hrun.1) (serverUp_of_running hrun')
  | close qid d q hpc hfd =>
    obtain ⟨hrun, -⟩ := closes_running hpc
    have hdesc := ((hsys.fds hrun).entries_of_closes hpc).2.2.2
    exact h.move rfl rfl hdesc (hup hrun.1) (serverUp_of_running ⟨ServerPc.noConfusion, rfl⟩)
  | missing msg hpc hlink => exact hexit (-1) (by simp [hpc])
  -- both descriptors fail only once the server has been created
  | badPublic hpc hfd =>
    refine hexit (-1) fun hstart => ?_
    rcases hpc with hpc | hpc
    · exact nomatch hstart.symm.trans hpc
    · exact nomatch hstart.symm.trans hpc
  | badSend qid msg pc hpc hfd => exact hexit (-1) (sends_running hpc).1.1
  | badClose qid d hpc hfd => exact hexit (-1) (closes_running hpc).1.1
  | closing status fd pc hpc hpc' => exact nomatch hstatus.symm.trans hpc
  | unlink status hpc => exact nomatch hstatus.symm.trans (congrArg ServerPc.status hpc)

/-- So does `close_queue`. -/
theorem Named.closing [DecidableEq ι] (h : Named cfg s) {fd : ℤ} {clock : Clock} {status : ℤ}
    (hstatus : s.pc.status = some status) (hstep : serverStep cfg fd clock s = some s') :
    Named cfg s' := by
  rcases closing_cases hstep hstatus with ⟨i, hpc, rfl⟩ | ⟨hpc, rfl⟩ | ⟨hpc, rfl⟩
  · have hup : s.ServerUp := serverUp_of_status hstatus (by simp [hpc])
    refine h.move rfl rfl rfl hup (serverUp_of_status (afterClient_status ..) ?_)
    exact fun status' => afterClient_ne_gone (h.desc hup) status status' i
  · have hup : s.ServerUp := serverUp_of_status hstatus (by simp [hpc])
    exact h.move rfl rfl rfl hup (serverUp_of_status rfl fun _ => ServerPc.noConfusion)
  · have hdown : ∀ t : Sys ι, t.pc = .gone status → ¬t.ServerUp := fun t ht hup => hup.2 status ht
    exact h.setServer rfl rfl ServerPc.noConfusion (fun hup => absurd hup (hdown _ rfl))
      ⟨fun hne => absurd rfl hne, fun hup => absurd hup (hdown _ rfl)⟩

/-- `SIGINT` may come before the server has a queue. -/
theorem Named.interruptServer (h : Named cfg s) (hsys : SysInv cfg s)
    (hstatus : s.pc.status = none) : Named cfg { s with
      data := { s.data with active := false }
      pc := exit s.data 2
      interrupted := true } := by
  by_cases hstart : s.pc = .start
  · have hexit : exit s.data 2 = .gone 2 := by
      -- interrupted before `mq_open`, it has neither clients nor a queue to close
      rw [exit, if_neg (by simp [(hsys.fresh hstart).count]), closePublic,
        if_neg (by simp [h.unopened hstart])]
    have hdown : ¬s.ServerUp := fun hup => hup.1 hstart
    rw [hexit]
    exact {
      unopened := fun hpc => nomatch hpc
      desc := fun hup => absurd rfl (hup.2 2)
      server := ⟨fun hne => absurd (h.server.mp hne) hdown, fun hup => absurd rfl (hup.2 2)⟩
      client := h.client }
  · have hup : s.ServerUp := serverUp_of_running ⟨hstart, hstatus⟩
    exact h.move rfl rfl rfl hup
      (serverUp_of_status (exit_status s.data 2) (exit_ne_gone (h.desc hup) 2))

end Server

/-! ### Steps of a client -/

section Client

variable {cfg : Config ι} {s s' : Sys ι} {i : ι}

/-- What a client does to itself. -/
theorem Named.setClient [DecidableEq ι] (h : Named cfg s) (hlink : s'.link = s.link)
    (hpc : s'.pc = s.pc) (hdata : s'.data = s.data) {c : Client ι}
    (hclient : s'.client = Function.update s.client i c)
    (howes : (s.client i).Owes → c.Owes) : Named cfg s' where
  unopened hstart := by
    rw [hdata]
    exact h.unopened (hpc ▸ hstart)
  desc hup := by
    rw [hdata]
    exact h.desc (by rwa [Sys.ServerUp, hpc] at hup)
  server := by
    rw [hlink, Sys.ServerUp, hpc]
    exact h.server
  client p hp hne := by
    rw [hlink] at hne
    obtain ⟨j, hj, hold⟩ := h.client p hp hne
    refine ⟨j, hj, ?_⟩
    rw [hclient]
    -- the name is the one of the client that moves, or of another, which is left as it was
    by_cases hij : j = i
    · subst hij
      rw [Function.update_self]
      exact howes hold
    · rw [Function.update_of_ne hij]
      exact hold

/-- A client with a private queue comes to `mq_unlink`. -/
theorem exitClient_owes {c : Client ι} (hpriv : c.privQid.isSome) (status : ℤ) :
    (exitClient c status).Owes := by
  refine ⟨hpriv, fun status' => ?_⟩
  have hsome : ¬c.privQid.isNone = true := by simp [Option.isSome_iff_ne_none.mp hpriv]
  unfold exitClient
  rw [if_neg hsome]
  split
  · exact ClientPc.noConfusion
  · exact ClientPc.noConfusion

theorem readSession_owes {c : Client ι} (hpriv : c.privQid.isSome) (resp : Message) :
    (readSession cfg i c resp).Owes := by
  unfold readSession
  split
  · rename_i n _
    split
    · exact exitClient_owes (c := { c with sessionNum := n }) hpriv (-1)
    · exact ⟨hpriv, fun _ => ClientPc.noConfusion⟩
  · exact exitClient_owes hpriv (-1)

theorem readCommand_owes {pid : ℤ} {c : Client ι} (hpriv : c.privQid.isSome)
    (hpc : c.pc = .prompt) : (readCommand pid c).Owes := by
  unfold readCommand
  split
  · exact ⟨hpriv, by simp [hpc]⟩
  · exact ⟨hpriv, fun _ => ClientPc.noConfusion⟩
  · rename_i stdin _
    exact exitClient_owes (c := { c with stdin := stdin }) hpriv 0

variable [DecidableEq ι]

/-- The steps of `close_queue`. -/
theorem clientClosing_cases (h : clientStep cfg i s = some s') {status : ℤ}
    (hstatus : (s.client i).pc.status = some status) :
    (∃ q msg, s' = s.clientPut i q msg (.closePublic status)) ∨
    s' = s.setClient i { s.client i with pc := .closePrivate status } ∨
    s' = s.setClient i { s.client i with pc := .unlink status } ∨
    s' = (s.setLink (clientPath (cfg.pid i)) none).setClient i
      { s.client i with pc := .gone status } := by
  unfold clientStep at h
  cases hpc : (s.client i).pc with
  | sendQuit status' =>
    obtain rfl := Option.some.inj ((congrArg ClientPc.status hpc).symm.trans hstatus)
    simp only [hpc] at h
    obtain ⟨q, -, -, rfl⟩ := clientSend_eq_some h
    exact .inl ⟨q, _, rfl⟩
  | closePublic status' =>
    obtain rfl := Option.some.inj ((congrArg ClientPc.status hpc).symm.trans hstatus)
    simp only [hpc, Option.some.injEq] at h
    exact .inr (.inl h.symm)
  | closePrivate status' =>
    obtain rfl := Option.some.inj ((congrArg ClientPc.status hpc).symm.trans hstatus)
    simp only [hpc, Option.some.injEq] at h
    exact .inr (.inr (.inl h.symm))
  | unlink status' =>
    obtain rfl := Option.some.inj ((congrArg ClientPc.status hpc).symm.trans hstatus)
    simp only [hpc, Option.some.injEq] at h
    exact .inr (.inr (.inr h.symm))
  | gone status' => simp [hpc] at h
  | _ =>
    rw [hpc] at hstatus
    cases hstatus

/-- A client makes the name of its private queue, or removes it. -/
theorem Named.setPrivate (h : Named cfg s) {o : Option (Option ι)} {c : Client ι}
    (howes : o ≠ none → c.Owes) :
    Named cfg ((s.setLink (clientPath (cfg.pid i)) o).setClient i c) where
  unopened hstart := h.unopened hstart
  desc hup := h.desc hup
  server := by
    -- the server's name is no client's
    have hserver : Function.update s.link (clientPath (cfg.pid i)) o serverPath =
        s.link serverPath := Function.update_of_ne (serverPath_ne _) ..
    show Function.update s.link (clientPath (cfg.pid i)) o serverPath ≠ none ↔ s.ServerUp
    rw [hserver]
    exact h.server
  client p hp hne := by
    have hne' : Function.update s.link (clientPath (cfg.pid i)) o p ≠ none := hne
    by_cases hpath : p = clientPath (cfg.pid i)
    · subst hpath
      rw [Function.update_self] at hne'
      refine ⟨i, rfl, ?_⟩
      show (Function.update s.client i c i).Owes
      rw [Function.update_self]
      exact howes hne'
    · rw [Function.update_of_ne hpath] at hne'
      obtain ⟨j, hj, hold⟩ := h.client p hp hne'
      have hij : j ≠ i := fun heq => hpath (heq ▸ hj)
      refine ⟨j, hj, ?_⟩
      show (Function.update s.client i c j).Owes
      rw [Function.update_of_ne hij]
      exact hold

/-- **A client keeps the names in order.** -/
theorem Named.clientDoes (h : Named cfg s) (hstatus : (s.client i).pc.status = none)
    (hdoes : ClientDoes cfg i s s') : Named cfg s' := by
  cases hdoes with
  | noServer hpc hlink =>
    exact h.setClient rfl rfl rfl rfl fun howes => exitClient_owes howes.1 (-1)
  | openPublic q hpc hlink =>
    exact h.setClient rfl rfl rfl rfl fun howes => ⟨howes.1, fun _ => ClientPc.noConfusion⟩
  | openPrivate q hpc hlink =>
    exact h.setPrivate fun _ => ⟨rfl, fun _ => ClientPc.noConfusion⟩
  | ask msg pc q hpc hpub hroom =>
    -- a client that asks or tells is in the middle of its session, before `exit`
    refine h.setClient rfl rfl rfl rfl fun howes => ⟨howes.1, fun status => ?_⟩
    rcases (asks_pc hpc).1 with rfl | rfl
    · exact ClientPc.noConfusion
    · exact ClientPc.noConfusion
  | tell msg pc q hpc hpub hroom =>
    refine h.setClient rfl rfl rfl rfl fun howes => ⟨howes.1, fun status => ?_⟩
    rcases tells_pc hpc with ⟨-, rfl⟩ | ⟨status', -, rfl⟩
    · exact ClientPc.noConfusion
    · exact ClientPc.noConfusion
  | session q m ms hpc hpriv hq =>
    exact h.setClient rfl rfl rfl rfl fun howes => readSession_owes howes.1 m
  | prompt hpc =>
    exact h.setClient rfl rfl rfl rfl fun howes => readCommand_owes howes.1 hpc
  | response q m ms hpc hpriv hq =>
    exact h.setClient rfl rfl rfl rfl fun howes => ⟨howes.1, fun _ => ClientPc.noConfusion⟩
  | closing status pc hpc hpc' => exact nomatch hstatus.symm.trans hpc
  | unlink status hpc => exact nomatch hstatus.symm.trans (congrArg ClientPc.status hpc)

theorem Named.clientClosing (h : Named cfg s) {status : ℤ}
    (hstatus : (s.client i).pc.status = some status) (hstep : clientStep cfg i s = some s') :
    Named cfg s' := by
  rcases clientClosing_cases hstep hstatus with ⟨q, msg, rfl⟩ | rfl | rfl | rfl
  · exact h.setClient rfl rfl rfl rfl fun howes => ⟨howes.1, fun _ => ClientPc.noConfusion⟩
  · exact h.setClient rfl rfl rfl rfl fun howes => ⟨howes.1, fun _ => ClientPc.noConfusion⟩
  · exact h.setClient rfl rfl rfl rfl fun howes => ⟨howes.1, fun _ => ClientPc.noConfusion⟩
  · exact h.setPrivate fun hne => absurd rfl hne

end Client

/-! ### Runs -/

section Runs

variable [DecidableEq ι] {cfg : Config ι} {s s' : Sys ι}

/-- **Every step keeps the names in order.** -/
theorem named_step {e : Event ι} (h : Named cfg s) (hsys : SysInv cfg s)
    (hstep : (system cfg).step e s = some s') : Named cfg s' := by
  cases e with
  | server fd clock =>
    cases hstatus : s.pc.status with
    | none => exact h.serverDoes hsys hstatus (serverDoes hstep)
    | some status => exact h.closing hstatus hstep
  | client i =>
    cases hstatus : (s.client i).pc.status with
    | none => exact h.clientDoes hstatus (clientDoes hstep)
    | some status => exact h.clientClosing hstatus hstep
  | interruptServer =>
    cases does hstep with
    | interruptServer hpc => exact h.interruptServer hsys hpc
  | interruptClient i =>
    cases does hstep with
    | interruptClient _ hpc =>
      exact h.setClient rfl rfl rfl rfl fun howes => exitClient_owes howes.1 2

theorem named_run (cfg : Config ι) (es : List (Event ι)) :
    Named cfg ((system cfg).run es cfg.start) := by
  have hstep : ∀ e s s', SysInv cfg s ∧ Named cfg s → (system cfg).step e s = some s' →
      SysInv cfg s' ∧ Named cfg s' := fun e s s' h hs => ⟨sysInv_step h.1 hs, named_step h.2 h.1 hs⟩
  exact (Machine.run_invariant hstep es ⟨sysInv_start, named_start cfg⟩).2

end Runs

end Posix
end MsgQueue
end OpSys
