import OpSys.MsgQueue.SystemV.Invariant

/-!
# Private queues with System V queues

Nothing but the low 8 bits of the pids keeps the queues of two clients apart.  If
these bits are all different, and different from those of `PROJECT_ID`, then a client
that calls `msgget` for its own queue makes a new one, and what it holds is no one
else's from then on.

## Main definitions

* `Config.Apart` — the pids differ in the bits that `ftok` uses.
* `ClientInv`, `KeyInv` — whose queue is whose.

## Main results

* `keyInv_step` — every step keeps the queues apart.

## References

`lab5_message_queues/SystemV/server.c`, `lab5_message_queues/SystemV/client.c`.
-/

namespace OpSys
namespace MsgQueue
namespace SystemV

open Stdio Ipc

variable {ι : Type*}

/-- The pids differ in their low 8 bits, from each other and from `PROJECT_ID`. -/
structure Config.Apart (cfg : Config ι) : Prop where
  pid : ∀ i j, i ≠ j → cfg.pid i % 256 ≠ cfg.pid j % 256
  server : ∀ i, cfg.pid i % 256 ≠ projectId % 256

/-- The key of the public queue. -/
def Config.pubKey (cfg : Config ι) : ℤ := cfg.ftok.key projectId

/-- The key of the private queue of the client `i`. -/
def Config.privKey (cfg : Config ι) (i : ι) : ℤ := cfg.ftok.key (cfg.pid i)

namespace Config.Apart

variable {cfg : Config ι}

theorem key_injective (h : cfg.Apart) {i j : ι} (hkey : cfg.privKey i = cfg.privKey j) :
    i = j := by
  by_contra hij
  exact h.pid i j hij ((cfg.ftok.key_eq_iff _ _).mp hkey)

theorem key_ne (h : cfg.Apart) (i : ι) : cfg.privKey i ≠ cfg.pubKey :=
  fun hkey => h.server i ((cfg.ftok.key_eq_iff _ _).mp hkey)

theorem injective (h : cfg.Apart) : Function.Injective cfg.pid :=
  fun _ _ hpid => h.key_injective (congrArg cfg.ftok.key hpid)

end Config.Apart

/-- The queues that a client has, and what it is about to send. -/
structure ClientInv (cfg : Config ι) (k : Kernel (Packet ι)) (desc : ℤ) (i : ι) (c : Client) :
    Prop where
  queueDesc : c.queueDesc = -1 ∨ c.queueDesc = desc
  unopened : c.pc = .openPublic ∨ c.pc = .openPrivate → c.privQid = -1
  opened : c.privQid = -1 ∨ c.privQid ≠ desc ∧ k.slot c.privQid ≠ .unused
  asks : ∀ answered, c.pc = .sendRequest answered →
    Asks (cfg.pid i) answered c.msg ∧ c.msg.type ≠ typeRegister

/-- Every queue belongs to one process. -/
structure KeyInv (cfg : Config ι) (k : Kernel (Packet ι)) (desc : ℤ) (client : ι → Client) :
    Prop where
  pub : ∀ q, k.keys cfg.pubKey = some q → q = desc
  priv : ∀ i q, k.keys (cfg.privKey i) = some q → q = (client i).privQid
  own : ∀ i, ClientInv cfg k desc i (client i)
  apart : ∀ i j, i ≠ j → (client i).privQid = (client j).privQid → (client i).privQid = -1

section Client

variable {cfg : Config ι} {k k' : Kernel (Packet ι)} {desc : ℤ} {i : ι} {c c' : Client}

theorem exitClient_status (c : Client) (status : ℤ) :
    (exitClient c status).pc.status = some status := by
  unfold exitClient
  simp only
  split
  · rfl
  · rfl

/-- A client that has its queues may go on with them. -/
theorem ClientInv.goOn (h : ClientInv cfg k desc i c) (hdesc : c'.queueDesc = c.queueDesc)
    (hpriv : c'.privQid = c.privQid) (hpc : c'.pc ≠ .openPublic ∧ c'.pc ≠ .openPrivate)
    (hasks : ∀ answered, c'.pc = .sendRequest answered →
      Asks (cfg.pid i) answered c'.msg ∧ c'.msg.type ≠ typeRegister) :
    ClientInv cfg k desc i c' where
  queueDesc := by rw [hdesc]; exact h.queueDesc
  unopened hunopened := by
    rcases hunopened with heq | heq
    · exact absurd heq hpc.1
    · exact absurd heq hpc.2
  opened := by rw [hpriv]; exact h.opened
  asks := hasks

theorem ClientInv.closing (h : ClientInv cfg k desc i c) (hdesc : c'.queueDesc = c.queueDesc)
    (hpriv : c'.privQid = c.privQid) {status : ℤ} (hpc : c'.pc.status = some status) :
    ClientInv cfg k desc i c' := by
  have hne : ∀ pc : ClientPc, pc.status = none → c'.pc ≠ pc := by
    rintro pc hnone rfl
    exact Option.some_ne_none _ (hpc.symm.trans hnone)
  exact h.goOn hdesc hpriv ⟨hne _ rfl, hne _ rfl⟩ fun answered heq => absurd heq (hne _ rfl)

theorem ClientInv.exitClient (h : ClientInv cfg k desc i c) (status : ℤ) :
    ClientInv cfg k desc i (exitClient c status) :=
  h.closing rfl rfl (exitClient_status c status)

theorem readSession_desc (junk : List UInt8) (c : Client) (resp : Message) :
    (readSession junk c resp).queueDesc = c.queueDesc ∧
      (readSession junk c resp).privQid = c.privQid := by
  unfold readSession
  split
  · split
    · exact ⟨rfl, rfl⟩
    · exact ⟨rfl, rfl⟩
  · exact ⟨rfl, rfl⟩

theorem ClientInv.readSession (h : ClientInv cfg k desc i c) (junk : List UInt8)
    (resp : Message) : ClientInv cfg k desc i (readSession junk c resp) := by
  obtain ⟨hdesc, hpriv⟩ := readSession_desc junk c resp
  unfold SystemV.readSession at hdesc hpriv ⊢
  cases hscan : scanInt resp.content with
  | value n =>
    simp only [hscan] at hdesc hpriv ⊢
    split
    · exact h.closing rfl rfl (exitClient_status _ (-1))
    · exact h.goOn rfl rfl ⟨ClientPc.noConfusion, ClientPc.noConfusion⟩
        fun answered heq => nomatch heq
  | noMatch => exact h.exitClient (-1)
  | eof => exact h.exitClient (-1)

theorem readCommand_desc (pid : ℤ) (c : Client) :
    (readCommand pid c).queueDesc = c.queueDesc ∧ (readCommand pid c).privQid = c.privQid := by
  unfold readCommand
  split
  · exact ⟨rfl, rfl⟩
  · exact ⟨rfl, rfl⟩
  · exact ⟨rfl, rfl⟩

theorem ClientInv.readCommand (h : ClientInv cfg k desc i c) (hpc : c.pc = .prompt) :
    ClientInv cfg k desc i (readCommand (cfg.pid i) c) := by
  unfold SystemV.readCommand
  cases hprompt : prompt (cfg.pid i) c.msg c.stdin with
  | again msg stdin =>
    have hpc' : c.pc ≠ .openPublic ∧ c.pc ≠ .openPrivate := by rw [hpc]; decide
    exact h.goOn rfl rfl hpc' fun answered heq => nomatch hpc.symm.trans heq
  | ask answered msg stdin =>
    refine h.goOn rfl rfl ⟨ClientPc.noConfusion, ClientPc.noConfusion⟩ ?_
    intro answered' heq
    obtain rfl := ClientPc.sendRequest.inj heq
    exact ⟨prompt_asks hprompt, (prompt_stays hprompt).1⟩
  | quit stdin => exact h.closing rfl rfl (exitClient_status _ 0)

/-- After a message has been sent the client goes on as it should. -/
theorem ClientInv.send (h : ClientInv cfg k desc i c) {msg : Message} {answered : Bool}
    {pc : ClientPc} (hpc : ClientPc.sends cfg i c = some (msg, answered, pc)) :
    ClientInv cfg k desc i { c with msg := msg, pc := pc } := by
  unfold ClientPc.sends at hpc
  split at hpc
  · obtain ⟨-, -, rfl⟩ := by simpa only [Option.some.injEq, Prod.mk.injEq] using hpc
    exact h.goOn rfl rfl ⟨ClientPc.noConfusion, ClientPc.noConfusion⟩
      fun answered heq => nomatch heq
  · obtain ⟨-, -, rfl⟩ := by simpa only [Option.some.injEq, Prod.mk.injEq] using hpc
    refine h.goOn rfl rfl ⟨?_, ?_⟩ fun answered' heq => ?_
    · show (if _ then ClientPc.receiveResponse else ClientPc.prompt) ≠ _
      split <;> exact ClientPc.noConfusion
    · show (if _ then ClientPc.receiveResponse else ClientPc.prompt) ≠ _
      split <;> exact ClientPc.noConfusion
    · have heq' : (if _ then ClientPc.receiveResponse else ClientPc.prompt) =
        .sendRequest answered' := heq
      split at heq' <;> cases heq'
  · exact absurd hpc (Option.some_ne_none _).symm

end Client

namespace KeyInv

variable {cfg : Config ι} {k k' : Kernel (Packet ι)} {desc id q : ℤ} {client : ι → Client} {i j : ι}

/-- The calls that create no queue. -/
theorem keeps (h : KeyInv cfg k desc client) (hk : k.Keeps k') : KeyInv cfg k' desc client where
  pub q hq := h.pub q (hk.keys _ q hq)
  priv i q hq := h.priv i q (hk.keys _ q hq)
  own i := { h.own i with opened := (h.own i).opened.imp_right (And.imp_right (hk.used _)) }
  apart := h.apart

/-- A queue that a client holds is not the public one. -/
theorem priv_ne (h : KeyInv cfg k desc client) (hpriv : (client i).privQid ≠ -1) :
    (client i).privQid ≠ desc :=
  ((h.own i).opened.resolve_left hpriv).1

/-- Two clients do not hold one queue. -/
theorem priv_ne_priv (h : KeyInv cfg k desc client) (hij : i ≠ j)
    (hpriv : (client i).privQid ≠ -1) : (client i).privQid ≠ (client j).privQid :=
  fun heq => hpriv (h.apart i j hij heq)

/-- The server makes the public queue. -/
theorem create (h : KeyInv cfg k (-1) client) (hapart : cfg.Apart)
    (hkeys : ∀ key, k.keys key = none) (hfresh : ∀ i, (client i).privQid = -1)
    (hget : k.Got cfg.pubKey true id q k') : KeyInv cfg k' q client := by
  have hpub : k'.keys cfg.pubKey = some q := hget.keys_self (cfg.ftok.key_ne projectId).2
  refine ⟨fun q' hq' => ?_, fun i q' hq' => ?_, fun i => ?_, h.apart⟩
  · exact Option.some.inj (hq'.symm.trans hpub)
  · rw [hget.keys_of_ne (hapart.key_ne i), hkeys] at hq'
    exact absurd hq' (Option.some_ne_none _).symm
  · exact {
      queueDesc := .inl (or_self_iff.mp (h.own i).queueDesc)
      unopened := (h.own i).unopened
      opened := .inl (hfresh i)
      asks := (h.own i).asks }

section Clients

variable [DecidableEq ι]

/-- A client goes on with the queues that it has. -/
theorem update (h : KeyInv cfg k desc client) {c : Client}
    (hpriv : c.privQid = (client i).privQid) (hc : ClientInv cfg k desc i c) :
    KeyInv cfg k desc (Function.update client i c) := by
  have hsame : ∀ j, (Function.update client i c j).privQid = (client j).privQid := by
    intro j
    by_cases hj : j = i
    · rw [hj, Function.update_self, hpriv]
    · rw [Function.update_of_ne hj]
  refine ⟨h.pub, fun j q hq => ?_, fun j => ?_, fun j j' hjj => ?_⟩
  · rw [hsame]
    exact h.priv j q hq
  · by_cases hj : j = i
    · subst hj
      rwa [Function.update_self]
    · rw [Function.update_of_ne hj]
      exact h.own j
  · rw [hsame, hsame]
    exact h.apart j j' hjj

/-- The client `i` makes its own queue, which is a new one. -/
theorem openPrivate (h : KeyInv cfg k desc client) (hok : k.Ok)
    (hdesc : desc = -1 ∨ k.slot desc ≠ .unused) (hapart : cfg.Apart)
    (hpc : (client i).pc = .openPrivate) (hget : k.Got (cfg.privKey i) true id q k') :
    KeyInv cfg k' desc
        (Function.update client i { client i with privQid := q, pc := .sendRegister }) ∧
      q ≠ -1 ∧ k'.slot q = .live [] ∧ k.slot q = .unused := by
  have hunopened : (client i).privQid = -1 := (h.own i).unopened (.inr hpc)
  -- the key is the client's alone, and it has not opened a queue yet
  have hnone : k.keys (cfg.privKey i) = none := by
    cases hold : k.keys (cfg.privKey i) with
    | none => rfl
    | some q' =>
      have := hok.key_nonneg hold
      have := h.priv i q' hold
      omega
  have hprivate := (cfg.ftok.key_ne (cfg.pid i)).2
  -- a new queue: its id is no one's yet
  obtain ⟨hnonneg, hunused, hslot⟩ := hget.fresh hprivate hnone
  have hne : ∀ q', k.slot q' ≠ .unused → q' ≠ q := fun q' hq' heq => hq' (heq ▸ hunused)
  have hother : ∀ j, (client j).privQid ≠ q := by
    intro j heq
    rcases (h.own j).opened with hopened | ⟨-, hused⟩
    · omega
    · exact hne _ hused heq
  refine ⟨⟨fun q' hq' => ?_, fun j q' hq' => ?_, fun j => ?_, fun j j' hjj => ?_⟩, by omega,
    hslot, hunused⟩
  · -- the public key keeps its queue, the keys being apart
    rw [hget.keys_of_ne (hapart.key_ne i).symm] at hq'
    exact h.pub q' hq'
  · by_cases hj : j = i
    · subst hj
      rw [Function.update_self]
      exact Option.some.inj (hq'.symm.trans (hget.keys_self hprivate))
    · rw [hget.keys_of_ne fun heq => hj (hapart.key_injective heq)] at hq'
      rw [Function.update_of_ne hj]
      exact h.priv j q' hq'
  · by_cases hj : j = i
    · subst hj
      rw [Function.update_self]
      refine ⟨(h.own j).queueDesc, fun heq => ?_, .inr ⟨?_, Slot.Live.used ⟨[], hslot⟩⟩,
        fun _ heq => nomatch heq⟩
      · rcases heq with heq | heq
        · cases heq
        · cases heq
      · rcases hdesc with hdesc | hused
        · show q ≠ desc
          omega
        · exact (hne _ hused).symm
    · rw [Function.update_of_ne hj]
      have hj' := h.own j
      refine { hj' with opened := hj'.opened.imp_right fun hopened => ⟨hopened.1, ?_⟩ }
      rw [hget.slot_eq hopened.2]
      exact hopened.2
  · by_cases hj : j = i
    · subst hj
      rw [Function.update_self, Function.update_of_ne hjj.symm]
      exact fun heq => absurd heq.symm (hother j')
    · rw [Function.update_of_ne hj]
      by_cases hj' : j' = i
      · subst hj'
        rw [Function.update_self]
        exact fun heq => absurd heq (hother j)
      · rw [Function.update_of_ne hj']
        exact h.apart j j' hjj

end Clients

end KeyInv

section Steps

variable {cfg : Config ι} {s s' : Sys ι} {e : Event ι}

theorem keyInv_server (h : KeyInv cfg s.kernel s.data.queueDesc s.client) (hsys : SysInv s)
    (hapart : cfg.Apart) {garbage : ℤ} (hdoes : ServerDoes cfg garbage s s') :
    KeyInv cfg s'.kernel s'.data.queueDesc s'.client := by
  cases hdoes with
  | create id q k hpc hget =>
    have hfresh := hsys.fresh hpc
    rw [hfresh.queueDesc] at h
    exact h.create hapart hfresh.keys (fun i => (hfresh.client i).2) hget
  | receive clock p ps hpc hslot =>
    -- `dispatch_requests` leaves the server's queue as it is
    have hdesc : (dispatchRequests cfg.server clock.1 s.data p).1.queueDesc = s.data.queueDesc := by
      rcases dispatch_data cfg.server clock.1 s.data p with hdata | hdata
      · rw [hdata]
      · rw [hdata]
    show KeyInv cfg (s.kernel.write s.data.queueDesc ps)
      (dispatchRequests cfg.server clock.1 s.data p).1.queueDesc s.client
    rw [hdesc]
    exact h.keeps (Kernel.keeps_write ..)
  | openClient id key qid k p hpc hkey hget hqid =>
    show KeyInv cfg k (registerOpened cfg.server s.data p.msg qid).1.queueDesc s.client
    rw [(registerOpened_data cfg.server s.data p.msg qid).2]
    exact h.keeps hget.keeps
  | send qid p ps hpc hslot hroom => exact h.keeps (Kernel.keeps_write ..)
  | remove status hpc => exact h.keeps (Kernel.keeps_rmid ..)
  | _ => exact h

variable [DecidableEq ι]

theorem keyInv_client (h : KeyInv cfg s.kernel s.data.queueDesc s.client) (hsys : SysInv s)
    (hapart : cfg.Apart) {i : ι} (hdoes : ClientDoes cfg i s s') :
    KeyInv cfg s'.kernel s'.data.queueDesc s'.client := by
  have hc := h.own i
  cases hdoes with
  | openPublic q hpc hkey =>
    have hunopened := hc.unopened (.inl hpc)
    exact h.update rfl ⟨.inr (h.pub q hkey), fun _ => hunopened, .inl hunopened,
      fun _ heq => nomatch heq⟩
  | openPrivate id q k hpc hget => exact (h.openPrivate hsys.ok hsys.known hapart hpc hget).1
  | send msg answered pc ps hpc hslot hroom =>
    exact (h.update (i := i) (c := { s.client i with msg := msg, pc := pc }) rfl
      (hc.send hpc)).keeps (Kernel.keeps_write ..)
  | session p ps hpc hslot =>
    exact (h.update (readSession_desc _ _ _).2 (hc.readSession _ _)).keeps (Kernel.keeps_write ..)
  | prompt hpc => exact h.update (readCommand_desc _ _).2 (hc.readCommand hpc)
  | response p ps hpc hslot =>
    refine (h.update (i := i) (c := { s.client i with msg := p.msg, pc := .prompt }) rfl ?_).keeps
      (Kernel.keeps_write ..)
    exact hc.goOn rfl rfl ⟨ClientPc.noConfusion, ClientPc.noConfusion⟩ fun _ heq => nomatch heq
  | exit status hpc => exact h.update rfl (hc.exitClient status)
  | remove status hpc =>
    have hgone : ClientPc.status (.gone status) = some status := rfl
    exact (h.update (i := i) (c := { s.client i with pc := .gone status }) rfl
      (hc.closing rfl rfl hgone)).keeps (Kernel.keeps_rmid ..)

/-- **Every step keeps the queues apart.** -/
theorem keyInv_step (h : KeyInv cfg s.kernel s.data.queueDesc s.client) (hsys : SysInv s)
    (hapart : cfg.Apart) (hstep : (system cfg).step e s = some s') :
    KeyInv cfg s'.kernel s'.data.queueDesc s'.client := by
  cases does hsys.ok hstep with
  | server id garbage clock hdoes => exact keyInv_server h hsys hapart hdoes
  | interruptServer hpc => exact h
  | client i id hdoes => exact keyInv_client h hsys hapart hdoes
  | interruptClient i hpc => exact h.update rfl ((h.own i).exitClient 2)

omit [DecidableEq ι] in
theorem keyInv_start (cfg : Config ι) :
    KeyInv cfg cfg.start.kernel cfg.start.data.queueDesc cfg.start.client where
  pub _ hq := absurd hq (Option.some_ne_none _).symm
  priv _ _ hq := absurd hq (Option.some_ne_none _).symm
  own _ := ⟨.inl rfl, fun _ => rfl, .inl rfl, fun _ heq => nomatch heq⟩
  apart _ _ _ _ := rfl

end Steps

end SystemV
end MsgQueue
end OpSys
