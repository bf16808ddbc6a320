import OpSys.MsgQueue.SystemV.Cleanup

/-!
# Who has removed a queue

Whatever the pids are, a System V queue is removed by a process that holds it and ends: a
client that has it for its private queue, or the server.  So what the server finds when it
comes to use a queue depends only on which clients have ended.

## Main definitions

* `Sys.Abandoned` — a client that held the queue has ended.
* `Sys.KeyHeld` — a process has a queue with this key, and none that held it has ended.
* `OwnInv` — which queues there are, under which keys.
* `AimInv` — the server uses identifiers that `msgget` has returned.

## Main results

* `ownInv_step`, `aimInv_step` — both along every run.
* `live_iff`, `keyed_iff` — a queue is there as long as no client that held it has ended.

## References

`lab5_message_queues/SystemV/server.c`, `lab5_message_queues/SystemV/client.c`.
-/

namespace OpSys
namespace MsgQueue
namespace SystemV

open Stdio Ipc
open Posix (ServerData search)

variable {ι : Type*}

/-- A client that had the queue `q` for its private one has ended. -/
def Sys.Abandoned (s : Sys ι) (q : ℤ) : Prop := ∃ i, s.Exited i ∧ (s.client i).privQid = q

/-- A client, or the server, has made or opened a queue under this key, and no client that
had it for its private one has ended. -/
def Sys.KeyHeld (cfg : Config ι) (s : Sys ι) (key : ℤ) : Prop :=
  (∃ i, cfg.privKey i = key ∧ (s.client i).privQid ≠ -1 ∧ ¬s.Abandoned (s.client i).privQid) ∨
    cfg.pubKey = key ∧ ¬s.Abandoned s.data.queueDesc

/-- Which queues there are, under which keys. -/
structure OwnInv (cfg : Config ι) (s : Sys ι) : Prop where
  unopened : ∀ i, (s.client i).pc = .openPublic ∨ (s.client i).pc = .openPrivate →
    (s.client i).privQid = -1
  held : ∀ i, (s.client i).privQid = -1 ∨ s.kernel.slot (s.client i).privQid ≠ .unused
  named : ∀ i, (s.kernel.slot (s.client i).privQid).Live →
    s.kernel.keys (cfg.privKey i) = some (s.client i).privQid
  started : s.pc ≠ .start → s.pc.status = none → s.kernel.slot s.data.queueDesc ≠ .unused
  pub : (s.kernel.slot s.data.queueDesc).Live → s.kernel.keys cfg.pubKey = some s.data.queueDesc
  owner : ∀ key q, s.kernel.keys key = some q →
    (∃ i, cfg.privKey i = key ∧ (s.client i).privQid = q) ∨
      cfg.pubKey = key ∧ s.data.queueDesc = q
  removed : ∀ q, s.kernel.slot q = .removed →
    s.Abandoned q ∨ ∃ status, s.pc = .gone status
  exited : ∀ i, s.Exited i → ¬(s.kernel.slot (s.client i).privQid).Live

theorem ownInv_start (cfg : Config ι) : OwnInv cfg cfg.start where
  unopened _ _ := rfl
  held _ := .inl rfl
  named _ hlive := by
    obtain ⟨ms, hms⟩ := hlive
    cases hms
  started hpc := absurd rfl hpc
  pub hlive := by
    obtain ⟨ms, hms⟩ := hlive
    cases hms
  owner _ _ hq := absurd hq (Option.some_ne_none _).symm
  removed q hq := by cases hq
  exited i hi := by
    obtain ⟨status, hstatus⟩ := hi
    cases hstatus

/-! ### What is known of a queue -/

section Queues

variable {cfg : Config ι} {s : Sys ι} {q : ℤ}

/-- **A queue that has been made is there** as long as no client that held it has ended. -/
theorem live_iff (h : OwnInv cfg s) (hrunning : s.pc.status = none)
    (hq : s.kernel.slot q ≠ .unused) : (s.kernel.slot q).Live ↔ ¬s.Abandoned q := by
  constructor
  · rintro hlive ⟨i, hi, rfl⟩
    exact h.exited i hi hlive
  · intro hkept
    cases hslot : s.kernel.slot q with
    | unused => exact absurd hslot hq
    | live ms => exact ⟨ms, rfl⟩
    | removed =>
      rcases h.removed q hslot with habandoned | ⟨status, hstatus⟩
      · exact absurd habandoned hkept
      · rw [hstatus] at hrunning
        cases hrunning

/-- **A key leads to a queue** as long as a process holds one under it. -/
theorem keyed_iff (h : OwnInv cfg s) (hok : s.kernel.Ok) (hstart : s.pc ≠ .start)
    (hrunning : s.pc.status = none) (key : ℤ) :
    s.kernel.keys key ≠ none ↔ s.KeyHeld cfg key := by
  constructor
  · intro hkey
    obtain ⟨q, hq⟩ := Option.ne_none_iff_exists'.mp hkey
    have hlive := hok.keyed key q hq
    have hkept := (live_iff h hrunning hlive.used).mp hlive
    rcases h.owner key q hq with ⟨i, hi, rfl⟩ | ⟨hpub, rfl⟩
    · have hnonneg := hok.nonneg _ hlive
      exact .inl ⟨i, hi, by omega, hkept⟩
    · exact .inr ⟨hpub, hkept⟩
  · rintro (⟨i, rfl, hopened, hkept⟩ | ⟨rfl, hkept⟩)
    · have hlive := (live_iff h hrunning ((h.held i).resolve_left hopened)).mpr hkept
      rw [h.named i hlive]
      exact Option.some_ne_none _
    · have hlive := (live_iff h hrunning (h.started hstart hrunning)).mpr hkept
      rw [h.pub hlive]
      exact Option.some_ne_none _

end Queues

/-! ### Steps that remove and make no queue -/

/-- The same queues are there, under the same keys. -/
structure Alike (k k' : Kernel (Packet ι)) : Prop where
  keys : k'.keys = k.keys
  live : ∀ q, (k'.slot q).Live ↔ (k.slot q).Live
  unused : ∀ q, k'.slot q = .unused ↔ k.slot q = .unused

namespace Alike

variable {k k' : Kernel (Packet ι)} {q : ℤ}

theorem refl (k : Kernel (Packet ι)) : Alike k k := ⟨rfl, fun _ => Iff.rfl, fun _ => Iff.rfl⟩

theorem write (hlive : (k.slot q).Live) (ms : List (Packet ι)) : Alike k (k.write q ms) where
  keys := rfl
  live q' := by
    by_cases hq : q' = q
    · rw [hq, Kernel.write_slot_self]
      exact iff_of_true ⟨ms, rfl⟩ hlive
    · rw [Kernel.write_slot_of_ne hq]
  unused q' := by
    by_cases hq : q' = q
    · rw [hq, Kernel.write_slot_self]
      refine iff_of_false (fun heq => ?_) hlive.used
      cases heq
    · rw [Kernel.write_slot_of_ne hq]

theorem removed (h : Alike k k') (hq : k'.slot q = .removed) : k.slot q = .removed := by
  have hnot : ¬(k.slot q).Live := by
    rw [← h.live q, hq]
    rintro ⟨ms, hms⟩
    cases hms
  have hused : k.slot q ≠ .unused := by
    rw [Ne, ← h.unused q, hq]
    intro heq
    cases heq
  cases hslot : k.slot q with
  | unused => exact absurd hslot hused
  | live ms => exact absurd ⟨ms, hslot⟩ hnot
  | removed => rfl

end Alike

section Steps

variable {cfg : Config ι} {s s' : Sys ι} {i : ι}

/-- The processes go on with the queues that they hold, and who ends holds none. -/
theorem OwnInv.alike (h : OwnInv cfg s) (hk : Alike s.kernel s'.kernel)
    (hpriv : ∀ i, (s'.client i).privQid = (s.client i).privQid)
    (hopen : ∀ i, (s'.client i).pc = .openPublic ∨ (s'.client i).pc = .openPrivate →
      (s.client i).pc = .openPublic ∨ (s.client i).pc = .openPrivate)
    (hgoes : ∀ i, s.Exited i → s'.Exited i)
    (hends : ∀ i, s'.Exited i → s.Exited i ∨ ¬(s.kernel.slot (s.client i).privQid).Live)
    (hdesc : s'.data.queueDesc = s.data.queueDesc)
    (hrunning : s'.pc ≠ .start → s'.pc.status = none → s.pc ≠ .start ∧ s.pc.status = none)
    (hgone : ∀ status, s.pc = .gone status → s'.pc = .gone status) : OwnInv cfg s' where
  unopened i hi := by
    rw [hpriv]
    exact h.unopened i (hopen i hi)
  held i := by
    rw [hpriv, Ne, hk.unused]
    exact h.held i
  named i hlive := by
    rw [hpriv, hk.live] at hlive
    rw [hpriv, hk.keys]
    exact h.named i hlive
  started hstart hstatus := by
    obtain ⟨hstart', hstatus'⟩ := hrunning hstart hstatus
    rw [hdesc, Ne, hk.unused]
    exact h.started hstart' hstatus'
  pub hlive := by
    rw [hdesc, hk.live] at hlive
    rw [hdesc, hk.keys]
    exact h.pub hlive
  owner key q hq := by
    rw [hk.keys] at hq
    rw [hdesc]
    refine (h.owner key q hq).imp_left ?_
    rintro ⟨i, hi, rfl⟩
    exact ⟨i, hi, hpriv i⟩
  removed q hq := by
    rcases h.removed q (hk.removed hq) with ⟨i, hi, rfl⟩ | ⟨status, hstatus⟩
    · exact .inl ⟨i, hgoes i hi, hpriv i⟩
    · exact .inr ⟨status, hgone status hstatus⟩
  exited i hi := by
    rw [hpriv, hk.live]
    exact (hends i hi).elim (h.exited i) id

/-- The server goes on, and the clients stay as they are. -/
theorem OwnInv.server (h : OwnInv cfg s) (hk : Alike s.kernel s'.kernel)
    (hclient : s'.client = s.client) (hdesc : s'.data.queueDesc = s.data.queueDesc)
    (hstart : s.pc ≠ .start) (hstatus : s.pc.status = none) : OwnInv cfg s' := by
  have hsame : ∀ i, s'.client i = s.client i := fun i => congrFun hclient i
  have hexited : ∀ i, s'.Exited i ↔ s.Exited i := by
    intro i
    rw [Sys.Exited, Sys.Exited, hsame]
  refine h.alike hk (fun i => by rw [hsame]) (fun i => by rw [hsame]; exact id)
    (fun i => (hexited i).mpr) (fun i hi => .inl ((hexited i).mp hi)) hdesc
    (fun _ _ => ⟨hstart, hstatus⟩) fun status hgone => ?_
  rw [hgone] at hstatus
  cases hstatus

/-- The client `i` goes on with the queue that it has. -/
theorem OwnInv.client [DecidableEq ι] (h : OwnInv cfg s) (hok : s.kernel.Ok) {c : Client}
    (hk : Alike s.kernel s'.kernel) (hclients : s'.client = Function.update s.client i c)
    (hdata : s'.data = s.data) (hpc : s'.pc = s.pc)
    (hpriv : c.privQid = (s.client i).privQid)
    (hopen : c.pc = .openPublic ∨ c.pc = .openPrivate →
      (s.client i).pc = .openPublic ∨ (s.client i).pc = .openPrivate)
    (hrunning : ¬s.Exited i)
    (hends : 0 ≤ (s.client i).privQid → ∀ status, c.pc ≠ .gone status) : OwnInv cfg s' := by
  have hself : s'.client i = c := by rw [hclients, Function.update_self]
  have hother : ∀ j, j ≠ i → s'.client j = s.client j := by
    intro j hj
    rw [hclients, Function.update_of_ne hj]
  refine h.alike hk (fun j => ?_) (fun j => ?_) (fun j hj => ?_) (fun j hj => ?_)
    (by rw [hdata]) (by rw [hpc]; exact fun hs hn => ⟨hs, hn⟩) (by rw [hpc]; exact fun _ => id)
  · by_cases hj : j = i
    · rw [hj, hself, hpriv]
    · rw [hother j hj]
  · by_cases hj : j = i
    · subst hj
      rw [hself]
      exact hopen
    · rw [hother j hj]
      exact id
  · have hji : j ≠ i := by
      rintro rfl
      exact hrunning hj
    rw [Sys.Exited, hother j hji]
    exact hj
  · by_cases hji : j = i
    · subst hji
      right
      intro hlive
      obtain ⟨status, hstatus⟩ := hj
      rw [hself] at hstatus
      exact hends (hok.nonneg _ hlive) status hstatus
    · rw [Sys.Exited, hother j hji] at hj
      exact .inl hj

/-! ### Steps that remove a queue -/

/-- A process that ends removes the queue that it holds. -/
theorem OwnInv.rmid (h : OwnInv cfg s) {q : ℤ} (hkernel : s'.kernel = s.kernel.rmid q)
    (hpriv : ∀ i, (s'.client i).privQid = (s.client i).privQid)
    (hopen : ∀ i, (s'.client i).pc = .openPublic ∨ (s'.client i).pc = .openPrivate →
      (s.client i).pc = .openPublic ∨ (s.client i).pc = .openPrivate)
    (hgoes : ∀ i, s.Exited i → s'.Exited i)
    (hends : ∀ i, s'.Exited i → s.Exited i ∨ (s.client i).privQid = q)
    (hdesc : s'.data.queueDesc = s.data.queueDesc)
    (hrunning : s'.pc ≠ .start → s'.pc.status = none → s.pc ≠ .start ∧ s.pc.status = none)
    (hgone : ∀ status, s.pc = .gone status → s'.pc = .gone status)
    (hself : s'.Abandoned q ∨ ∃ status, s'.pc = .gone status) : OwnInv cfg s' where
  unopened i hi := by
    rw [hpriv]
    exact h.unopened i (hopen i hi)
  held i := by
    rw [hpriv, hkernel]
    exact (h.held i).imp_right fun hused heq => hused (Kernel.rmid_slot_eq_unused heq)
  named i hlive := by
    rw [hpriv, hkernel] at hlive
    obtain ⟨hne, hlive⟩ := live_of_rmid hlive
    rw [hpriv, hkernel, Kernel.rmid_keys, if_neg, h.named i hlive]
    rw [h.named i hlive]
    exact fun heq => hne (Option.some.inj heq)
  started hstart hstatus := by
    obtain ⟨hstart', hstatus'⟩ := hrunning hstart hstatus
    rw [hdesc, hkernel]
    exact fun heq => h.started hstart' hstatus' (Kernel.rmid_slot_eq_unused heq)
  pub hlive := by
    rw [hdesc, hkernel] at hlive
    obtain ⟨hne, hlive⟩ := live_of_rmid hlive
    rw [hdesc, hkernel, Kernel.rmid_keys, if_neg, h.pub hlive]
    rw [h.pub hlive]
    exact fun heq => hne (Option.some.inj heq)
  owner key q' hq' := by
    rw [hkernel] at hq'
    rw [hdesc]
    refine (h.owner key q' ((Kernel.keeps_rmid s.kernel q).keys key q' hq')).imp_left ?_
    rintro ⟨i, hi, rfl⟩
    exact ⟨i, hi, hpriv i⟩
  removed q' hq' := by
    rw [hkernel] at hq'
    by_cases hq : q' = q
    · exact hq ▸ hself
    · rw [Kernel.rmid_slot_of_ne hq] at hq'
      rcases h.removed q' hq' with ⟨i, hi, rfl⟩ | ⟨status, hstatus⟩
      · exact .inl ⟨i, hgoes i hi, hpriv i⟩
      · exact .inr ⟨status, hgone status hstatus⟩
  exited i hi hlive := by
    rw [hpriv, hkernel] at hlive
    obtain ⟨hne, hlive⟩ := live_of_rmid hlive
    rcases hends i hi with hi | hself
    · exact h.exited i hi hlive
    · exact hne hself

/-! ### Steps that make a queue -/

/-- The server makes the public queue. -/
theorem OwnInv.create (h : OwnInv cfg s) (hsys : SysInv s) (hpc : s.pc = .start) {id q : ℤ}
    {k : Kernel (Packet ι)} (hget : s.kernel.Got cfg.pubKey true id q k) :
    OwnInv cfg { s with kernel := k, data := { s.data with queueDesc := q }, pc := .top } := by
  have hfresh := hsys.fresh hpc
  have hok := hsys.ok.got hget
  have hnot : ∀ i, ¬(k.slot (s.client i).privQid).Live := by
    intro i hlive
    have hnonneg := hok.nonneg _ hlive
    rw [(hfresh.client i).2] at hnonneg
    exact absurd hnonneg (by decide)
  have hkey : k.keys cfg.pubKey = some q := hget.keys_self (cfg.ftok.key_ne projectId).2
  refine ⟨h.unopened, fun i => .inl (hfresh.client i).2, fun i hlive => absurd hlive (hnot i),
    fun _ _ => (hok.keyed _ _ hkey).used, fun _ => hkey, fun key q' hq' => ?_, fun q' hq' => ?_,
    fun i _ => hnot i⟩
  · by_cases hne : key = cfg.pubKey
    · subst hne
      exact .inr ⟨rfl, Option.some.inj (hkey.symm.trans hq')⟩
    · -- no other key leads to a queue yet
      have hnone := (hget.keys_of_ne hne).symm.trans hq'
      rw [hfresh.keys] at hnone
      exact absurd hnone (Option.some_ne_none _).symm
  · rcases h.removed q' (hget.removed hq') with habandoned | ⟨status, hstatus⟩
    · exact .inl habandoned
    · rw [hpc] at hstatus
      cases hstatus

/-- `msgget` without `IPC_CREAT` makes a queue for `IPC_PRIVATE` only, and it has no key. -/
theorem OwnInv.looked (h : OwnInv cfg s) (hok : s.kernel.Ok) {key id q : ℤ}
    {k : Kernel (Packet ι)} (hget : s.kernel.Got key false id q k)
    (hknown : s.data.queueDesc = -1 ∨ s.kernel.slot s.data.queueDesc ≠ .unused) :
    OwnInv cfg { s with kernel := k } := by
  refine ⟨h.unopened, fun i => (h.held i).imp_right fun hused => ?_, fun i hlive => ?_,
    fun hstart hstatus => ?_, fun hpub => ?_, fun key' q' hq' => ?_,
    fun q' hq' => h.removed q' (hget.removed hq'),
    fun i hi hlive => h.exited i hi (hget.live hok (h.held i) hlive)⟩
  · rwa [hget.slot_eq hused]
  · rw [hget.keys_eq]
    exact h.named i (hget.live hok (h.held i) hlive)
  · have hused := h.started hstart hstatus
    rwa [hget.slot_eq hused]
  · rw [hget.keys_eq]
    exact h.pub (hget.live hok hknown hpub)
  · exact h.owner key' q' (hget.keys_eq ▸ hq')

variable [DecidableEq ι]

/-- A client that opens its queue has not ended, and a queue that others hold is not new. -/
theorem OwnInv.openPrivate (h : OwnInv cfg s) (hsys : SysInv s)
    (hpc : (s.client i).pc = .openPrivate) {id q : ℤ} {k : Kernel (Packet ι)}
    (hget : s.kernel.Got (cfg.privKey i) true id q k) :
    OwnInv cfg ({ s with kernel := k }.setClient i
      { s.client i with privQid := q, pc := .sendRegister }) := by
  have hok := hsys.ok.got hget
  have hunopened := h.unopened i (.inr hpc)
  have hstart : s.pc ≠ .start := hsys.started (i := i) (by simp [hpc]) (by simp [hpc])
  have hself : ({ s with kernel := k }.setClient i
      { s.client i with privQid := q, pc := .sendRegister }).client i =
      { s.client i with privQid := q, pc := .sendRegister } := Function.update_self ..
  have hother : ∀ j, j ≠ i → ({ s with kernel := k }.setClient i
      { s.client i with privQid := q, pc := .sendRegister }).client j = s.client j :=
    fun j hj => Function.update_of_ne hj ..
  have hnot : ¬s.Exited i := by
    rintro ⟨status, hstatus⟩
    rw [hpc] at hstatus
    cases hstatus
  -- the client has the queue under its key
  have hkey : k.keys (cfg.privKey i) = some q := hget.keys_self (cfg.ftok.key_ne _).2
  refine ⟨fun j hj => ?_, fun j => ?_, fun j hj => ?_, fun _ hstatus => ?_,
    fun hpub => hget.keys_of_some (h.pub (hget.live hsys.ok hsys.known hpub)),
    fun key q' hq' => ?_,
    fun q' hq' => ?_, fun j hj => ?_⟩
  · by_cases hji : j = i
    · subst hji
      rw [hself] at hj
      rcases hj with heq | heq <;> cases heq
    · rw [hother j hji] at hj ⊢
      exact h.unopened j hj
  · by_cases hji : j = i
    · subst hji
      rw [hself]
      exact .inr (hok.keyed _ _ hkey).used
    · rw [hother j hji]
      exact (h.held j).imp_right fun hused => (hget.slot_eq hused).symm ▸ hused
  · by_cases hji : j = i
    · subst hji
      rw [hself]
      exact hkey
    · rw [hother j hji] at hj ⊢
      exact hget.keys_of_some (h.named j (hget.live hsys.ok (h.held j) hj))
  · have hused := h.started hstart hstatus
    exact (hget.slot_eq hused).symm ▸ hused
  · by_cases hne : key = cfg.privKey i
    · subst hne
      exact .inl ⟨i, rfl, by rw [hself]; exact Option.some.inj (hkey.symm.trans hq')⟩
    · have hold : s.kernel.keys key = some q' := (hget.keys_of_ne hne).symm.trans hq'
      refine (h.owner key q' hold).imp_left ?_
      rintro ⟨j, rfl, rfl⟩
      have hji : j ≠ i := fun heq => hne (heq ▸ rfl)
      exact ⟨j, rfl, by rw [hother j hji]⟩
  · refine (h.removed q' (hget.removed hq')).imp_left ?_
    rintro ⟨j, hj, rfl⟩
    have hji : j ≠ i := fun heq => hnot (heq ▸ hj)
    refine ⟨j, ?_, by rw [hother j hji]⟩
    rw [Sys.Exited, hother j hji]
    exact hj
  · have hji : j ≠ i := by
      rintro rfl
      obtain ⟨status, hstatus⟩ := hj
      rw [hself] at hstatus
      cases hstatus
    rw [Sys.Exited, hother j hji] at hj
    rw [hother j hji]
    exact fun hlive => h.exited j hj (hget.live hsys.ok (h.held j) hlive)

/-! ### All steps -/

omit [DecidableEq ι] in
theorem ownInv_server (h : OwnInv cfg s) (hsys : SysInv s) {garbage : ℤ}
    (hdoes : ServerDoes cfg garbage s s') : OwnInv cfg s' := by
  -- every step of a running server but the creation keeps the keys
  have hgoes : ∀ {pc : ServerPc ι}, s.pc = pc → pc ≠ .start → pc.status = none →
      ∀ {s' : Sys ι}, Alike s.kernel s'.kernel → s'.client = s.client →
      s'.data.queueDesc = s.data.queueDesc → OwnInv cfg s' := by
    intro pc hpc hstart hstatus s' hk hclient hdesc
    exact h.server hk hclient hdesc (hpc ▸ hstart) (hpc ▸ hstatus)
  cases hdoes with
  | create id q k hpc hget => exact h.create hsys hpc hget
  | wait hpc hlive => exact hgoes hpc (by simp) rfl (.refl _) rfl rfl
  | finish hpc hactive hslot => exact hgoes hpc (by simp) rfl (.refl _) rfl rfl
  | receive clock p ps hpc hslot =>
    refine hgoes hpc (by simp) rfl (.write ⟨_, hslot⟩ ps) rfl ?_
    show (dispatchRequests cfg.server clock.1 s.data p).1.queueDesc = s.data.queueDesc
    rcases dispatch_data cfg.server clock.1 s.data p with hdata | hdata <;> rw [hdata]
  | openClient id key qid k p hpc hkey hget hqid =>
    have hlooked := h.looked hsys.ok hget hsys.known
    exact hlooked.server (.refl _) rfl (registerOpened_data cfg.server s.data p.msg qid).2
      (by simp [hpc]) (by simp [hpc, ServerPc.status])
  | send qid p ps hpc hslot hroom =>
    exact hgoes hpc (by simp) rfl (.write ⟨_, hslot⟩ (ps ++ [p])) rfl rfl
  | fail hfails =>
    -- a call can only fail while the server runs
    obtain ⟨hstart, hstatus⟩ : s.pc ≠ .start ∧ s.pc.status = none := by
      cases hpc : s.pc <;> simp [Sys.CallFails, hpc, ServerPc.status] at hfails ⊢
    exact hgoes rfl hstart hstatus (.refl _) rfl rfl
  | remove status hpc =>
    refine h.rmid rfl (fun _ => rfl) (fun _ => id) (fun _ => id) (fun _ => .inl) rfl
      ?_ (fun status' hgone => ?_) (.inr ⟨status, rfl⟩)
    · intro _ hstatus
      cases hstatus
    · rw [hpc] at hgone
      cases hgone

/-- The client has yet to open a queue. -/
def ClientPc.Opens (pc : ClientPc) : Prop := pc = .openPublic ∨ pc = .openPrivate

theorem opens_exitClient (c : Client) (status : ℤ) : ¬(exitClient c status).pc.Opens := by
  have hstatus := exitClient_status c status
  rintro (heq | heq)
  · rw [heq] at hstatus
    cases hstatus
  · rw [heq] at hstatus
    cases hstatus

theorem opens_readSession (junk : List UInt8) (c : Client) (resp : Message) :
    ¬(readSession junk c resp).pc.Opens := by
  unfold readSession
  split
  · split
    · exact opens_exitClient _ (-1)
    · simp [ClientPc.Opens]
  · exact opens_exitClient c (-1)

theorem opens_readCommand (pid : ℤ) {c : Client} (hpc : c.pc = .prompt) :
    ¬(readCommand pid c).pc.Opens := by
  unfold readCommand
  split
  · simp [ClientPc.Opens, hpc]
  · simp [ClientPc.Opens]
  · exact opens_exitClient _ 0

omit [DecidableEq ι] in
theorem opens_sends {c : Client} {msg : Message} {answered : Bool} {pc : ClientPc}
    (h : ClientPc.sends cfg i c = some (msg, answered, pc)) : ¬pc.Opens := by
  unfold ClientPc.sends at h
  split at h
  · obtain ⟨-, -, rfl⟩ := by simpa only [Option.some.injEq, Prod.mk.injEq] using h
    simp [ClientPc.Opens]
  · obtain ⟨-, -, rfl⟩ := by simpa only [Option.some.injEq, Prod.mk.injEq] using h
    split
    · simp [ClientPc.Opens]
    · simp [ClientPc.Opens]
  · exact absurd h (Option.some_ne_none _).symm

theorem ownInv_client (h : OwnInv cfg s) (hsys : SysInv s) (hdoes : ClientDoes cfg i s s') :
    OwnInv cfg s' := by
  have hrunning : ∀ {pc : ClientPc}, (s.client i).pc = pc → (∀ status, pc ≠ .gone status) →
      ¬s.Exited i := by
    -- a client that has ended has no step
    rintro pc hpc hne ⟨status, hstatus⟩
    exact hne status (hpc.symm.trans hstatus)
  have hstays : (s.client i).pc.status = none → ¬s.Exited i := by
    rintro hstatus ⟨status, hgone⟩
    simp [hgone, ClientPc.status] at hstatus
  cases hdoes with
  | openPublic q hpc hkey =>
    exact h.client hsys.ok (.refl _) rfl rfl rfl rfl (fun _ => .inl hpc)
      (hrunning hpc (by simp)) fun _ _ => by simp
  | openPrivate id q k hpc hget => exact h.openPrivate hsys hpc hget
  | send msg answered pc ps hpc hslot hroom =>
    exact h.client (c := { s.client i with msg := msg, pc := pc }) hsys.ok (.write ⟨_, hslot⟩ _)
      rfl rfl rfl rfl (fun hopens => absurd hopens (opens_sends hpc))
      (hstays (sends_status hpc).2) fun _ => sends_holds hpc
  | session p ps hpc hslot =>
    exact h.client hsys.ok (.write ⟨_, hslot⟩ ps) rfl rfl rfl (readSession_desc _ _ _).2
      (fun hopens => absurd hopens (opens_readSession _ _ _)) (hrunning hpc (by simp))
      fun hpriv => readSession_holds hpriv _ _
  | prompt hpc =>
    exact h.client hsys.ok (.refl _) rfl rfl rfl (readCommand_desc _ _).2
      (fun hopens => absurd hopens (opens_readCommand _ hpc)) (hrunning hpc (by simp))
      fun hpriv => readCommand_holds hpriv hpc
  | response p ps hpc hslot =>
    exact h.client (c := { s.client i with msg := p.msg, pc := .prompt }) hsys.ok
      (.write ⟨_, hslot⟩ ps) rfl rfl rfl rfl (fun hopens => by simp at hopens)
      (hrunning hpc (by simp)) fun _ _ => by simp
  | exit status hpc =>
    exact h.client hsys.ok (.refl _) rfl rfl rfl rfl
      (fun hopens => absurd hopens (opens_exitClient _ status)) (hstays hpc)
      fun hpriv => exitClient_holds hpriv status
  | remove status hpc =>
    -- `IPC_RMID` of the private queue, and the client is gone
    have hself : ({ s with kernel := s.kernel.rmid (s.client i).privQid }.setClient i
        { s.client i with pc := .gone status }).client i = { s.client i with pc := .gone status } :=
      Function.update_self ..
    have hother : ∀ j, j ≠ i → ({ s with kernel := s.kernel.rmid (s.client i).privQid }.setClient i
        { s.client i with pc := .gone status }).client j = s.client j :=
      fun j hj => Function.update_of_ne hj ..
    refine h.rmid (q := (s.client i).privQid) rfl (fun j => ?_) (fun j hj => ?_) (fun j hj => ?_)
      (fun j hj => ?_) rfl (fun hstart hstatus => ⟨hstart, hstatus⟩) (fun _ => id)
      (.inl ⟨i, ⟨status, by rw [hself]⟩, by rw [hself]⟩)
    · by_cases hji : j = i
      · rw [hji, hself]
      · rw [hother j hji]
    · by_cases hji : j = i
      · subst hji
        rw [hself] at hj
        rcases hj with heq | heq <;> cases heq
      · rwa [hother j hji] at hj
    · by_cases hji : j = i
      · subst hji
        exact ⟨status, by rw [hself]⟩
      · rw [Sys.Exited, hother j hji]
        exact hj
    · by_cases hji : j = i
      · exact .inr (by rw [hji])
      · rw [Sys.Exited, hother j hji] at hj
        exact .inl hj

/-- **Every step keeps the queues of the processes that have not ended.** -/
theorem ownInv_step {e : Event ι} (h : OwnInv cfg s) (hsys : SysInv s)
    (hstep : (system cfg).step e s = some s') : OwnInv cfg s' := by
  cases does hsys.ok hstep with
  | server id garbage clock hdoes => exact ownInv_server h hsys hdoes
  | interruptServer hpc =>
    have hstatus := exit_status (ι := ι) s.data 2
    refine h.alike (.refl _) (fun _ => rfl) (fun _ => id) (fun _ => id) (fun _ => .inl) rfl
      (fun _ hnone => ?_) fun status hgone => ?_
    · exact absurd (hstatus.symm.trans hnone) (Option.some_ne_none _)
    · rw [hgone] at hpc
      cases hpc
  | client i id hdoes => exact ownInv_client h hsys hdoes
  | interruptClient i hpc => exact ownInv_client h hsys (.exit 2 hpc)

end Steps

/-! ### Where the server sends -/

/-- The server uses identifiers that `msgget` has returned; every message has a sender. -/
structure AimInv (s : Sys ι) : Prop where
  asks : ∀ i answered, (s.client i).pc = .sendRequest answered → 0 < (s.client i).msg.senderPid
  sent : ∀ q, ∀ p ∈ (s.kernel.slot q).msgs, 0 < p.msg.senderPid
  register : ∀ p, s.pc = .register p → 0 < p.msg.senderPid
  table : ∀ n, (s.data.clientsData n).1 ≠ 0 → s.kernel.slot (s.data.clientsData n).2 ≠ .unused
  target : ∀ qid p, s.pc = .send qid p → s.kernel.slot qid ≠ .unused ∧ 0 < p.msg.senderPid

theorem aimInv_start (cfg : Config ι) : AimInv cfg.start where
  asks _ _ hpc := by cases hpc
  sent _ _ hp := absurd hp List.not_mem_nil
  register _ hpc := by cases hpc
  table _ hn := absurd rfl hn
  target _ _ hpc := by cases hpc

/-- A response comes from the server. -/
theorem dispatch_sender {server qid : ℤ} {clock : List UInt8} {d : ServerData} {p p' : Packet ι}
    (h : (dispatchRequests server clock d p).2 = .send qid p') : p'.msg.senderPid = server := by
  unfold dispatchRequests at h
  split at h
  · cases h
  split at h
  · split at h
    · cases h
    · obtain ⟨-, rfl⟩ := ServerPc.send.inj h
      rfl
  split at h
  · split at h
    · cases h
    · obtain ⟨-, rfl⟩ := ServerPc.send.inj h
      rfl
  split at h <;> cases h

section Aims

variable {cfg : Config ι} {s s' : Sys ι} {i : ι}

/-- The server goes on with nothing in its hand. -/
theorem AimInv.goOn (h : AimInv s) {pc : ServerPc ι} (hregister : ∀ p, pc ≠ .register p)
    (hsend : ∀ qid p, pc ≠ .send qid p) : AimInv { s with pc := pc } where
  asks := h.asks
  sent := h.sent
  register p hpc := absurd hpc (hregister p)
  table := h.table
  target qid p hpc := absurd hpc (hsend qid p)

theorem AimInv.exitServer (h : AimInv s) (status : ℤ) : AimInv (s.exitServer status) := by
  obtain ⟨hregister, hsend⟩ := status_ne (exit_status (ι := ι) s.data status)
  exact h.goOn hregister hsend

/-- The kernel has the queues that it had, and at most messages with a sender are new. -/
theorem AimInv.kernel (h : AimInv s) {k : Kernel (Packet ι)}
    (hused : ∀ q, s.kernel.slot q ≠ .unused → k.slot q ≠ .unused)
    (hsent : ∀ q, ∀ p ∈ (k.slot q).msgs, 0 < p.msg.senderPid) : AimInv { s with kernel := k } where
  asks := h.asks
  sent := hsent
  register := h.register
  table n hn := hused _ (h.table n hn)
  target qid p hpc := ⟨hused _ (h.target qid p hpc).1, (h.target qid p hpc).2⟩

theorem AimInv.got (h : AimInv s) {key id q : ℤ} {create : Bool} {k : Kernel (Packet ι)}
    (hget : s.kernel.Got key create id q k) : AimInv { s with kernel := k } :=
  h.kernel (fun _ hused => (hget.slot_eq hused).symm ▸ hused)
    fun q' p hp => h.sent q' p (hget.mem_msgs hp)

theorem AimInv.write (h : AimInv s) (q : ℤ) {ms : List (Packet ι)}
    (hms : ∀ p ∈ ms, 0 < p.msg.senderPid) : AimInv { s with kernel := s.kernel.write q ms } :=
  h.kernel (Kernel.keeps_write s.kernel q ms).used fun q' p hp =>
    (Kernel.mem_msgs_write hp).elim (hms p) (h.sent q' p)

theorem AimInv.rmid (h : AimInv s) (q : ℤ) : AimInv { s with kernel := s.kernel.rmid q } :=
  h.kernel (Kernel.keeps_rmid s.kernel q).used fun q' p hp => h.sent q' p (Kernel.mem_msgs_rmid hp)

/-- The messages of a queue have senders. -/
theorem AimInv.slot (h : AimInv s) {q : ℤ} {ms : List (Packet ι)}
    (hslot : s.kernel.slot q = .live ms) : ∀ p ∈ ms, 0 < p.msg.senderPid := by
  intro p hp
  refine h.sent q p ?_
  rw [hslot]
  exact hp

theorem AimInv.receive (h : AimInv s) (cfg : Config ι) {p : Packet ι} {ps : List (Packet ι)}
    (hslot : s.kernel.slot s.data.queueDesc = .live (p :: ps)) (clock : List UInt8) :
    AimInv { s.goOn (dispatchRequests cfg.server clock s.data p) with
      kernel := s.kernel.write s.data.queueDesc ps
      dispatched := s.dispatched ++ [p] } := by
  -- the senders in a queue are positive, in what stays of it too
  have hp : 0 < p.msg.senderPid := h.slot hslot p List.mem_cons_self
  have hps : ∀ p' ∈ ps, 0 < p'.msg.senderPid := fun p' hp' =>
    h.slot hslot p' (List.mem_cons_of_mem p hp')
  have hwrite := h.write s.data.queueDesc hps
  have hdata : (dispatchRequests cfg.server clock s.data p).1.clientsData = s.data.clientsData := by
    rcases dispatch_data cfg.server clock s.data p with hdata | hdata <;> rw [hdata]
  refine ⟨h.asks, hwrite.sent, fun p' hpc => ?_, fun n hn => ?_, fun qid p' hpc => ⟨?_, ?_⟩⟩
  · obtain ⟨rfl, -⟩ := dispatch_register hpc
    exact hp
  · show (s.kernel.write s.data.queueDesc ps).slot
      ((dispatchRequests cfg.server clock s.data p).1.clientsData n).2 ≠ .unused
    have hn' : ((dispatchRequests cfg.server clock s.data p).1.clientsData n).1 ≠ 0 := hn
    rw [hdata] at hn' ⊢
    exact hwrite.table n hn'
  · -- `get_qid` has found an entry of the sender, and the sender is not 0
    obtain ⟨hqid, hne⟩ := dispatch_send hpc
    obtain ⟨n, hn, hget⟩ := getQid_found (hqid ▸ hne)
    rw [hqid, hget]
    refine hwrite.table n ?_
    show (s.data.clientsData n).1 ≠ 0
    rw [hn]
    exact hp.ne'
  · rw [dispatch_sender hpc]
    exact cfg.server_pos

theorem AimInv.openClient (h : AimInv s) (hok : s.kernel.Ok) (cfg : Config ι) (p : Packet ι)
    {key id qid : ℤ} {k : Kernel (Packet ι)} (hget : s.kernel.Got key false id qid k)
    (hqid : qid ≠ -1) :
    AimInv (s.answerRegister cfg k qid p) := by
  have hgot := h.got hget
  have hused := hget.used hok hqid
  refine ⟨h.asks, hgot.sent, fun p' hpc' => (nomatch hpc'), fun n hn => ?_, fun qid' p' hpc' => ?_⟩
  · show k.slot ((registerOpened cfg.server s.data p.msg qid).1.clientsData n).2 ≠ .unused
    have hn' : ((registerOpened cfg.server s.data p.msg qid).1.clientsData n).1 ≠ 0 := hn
    unfold registerOpened at hn' ⊢
    split
    · rename_i hfull
      rw [if_pos hfull] at hn'
      exact hgot.table n hn'
    · rename_i hroom
      rw [if_neg hroom] at hn'
      simp only at hn' ⊢
      -- the new entry has the id just found, the others keep theirs
      by_cases hlast : n = s.data.clientCount.toNat
      · rw [hlast, Function.update_self]
        exact hused
      · rw [Function.update_of_ne hlast] at hn' ⊢
        exact hgot.table n hn'
  · obtain ⟨rfl, rfl⟩ := ServerPc.send.inj hpc'
    refine ⟨hused, ?_⟩
    have hsender : (registerOpened cfg.server s.data p.msg qid).2.senderPid = cfg.server := by
      unfold registerOpened
      split <;> rfl
    show 0 < (registerOpened cfg.server s.data p.msg qid).2.senderPid
    rw [hsender]
    exact cfg.server_pos

theorem aimInv_server (h : AimInv s) (hsys : SysInv s) {garbage : ℤ}
    (hdoes : ServerDoes cfg garbage s s') : AimInv s' := by
  cases hdoes with
  | create id q k hpc hget =>
    have hgot := h.got hget
    exact ⟨hgot.asks, hgot.sent, fun p hpc => (nomatch hpc), hgot.table,
      fun qid p hpc => nomatch hpc⟩
  | wait hpc hlive => exact h.goOn (by simp) (by simp)
  | finish hpc hactive hslot => exact h.exitServer 0
  | receive clock p ps hpc hslot => exact h.receive cfg hslot clock.1
  | openClient id key qid k p hpc hkey hget hqid => exact h.openClient hsys.ok cfg p hget hqid
  | send qid p ps hpc hslot hroom =>
    -- the response goes out with the positive pid of the server
    have hps : ∀ p' ∈ ps ++ [p], 0 < p'.msg.senderPid := by
      intro p' hp'
      rcases List.mem_append.mp hp' with hp' | hp'
      · exact h.slot hslot p' hp'
      · rw [List.mem_singleton.mp hp']
        exact (h.target qid p hpc).2
    have hwrite := h.write qid hps
    exact ⟨hwrite.asks, hwrite.sent, fun p hpc => (nomatch hpc), hwrite.table,
      fun qid p hpc => nomatch hpc⟩
  | fail hfails => exact h.exitServer (-1)
  | remove status hpc => exact (h.rmid s.data.queueDesc).goOn (by simp) (by simp)

variable [DecidableEq ι]

/-- The client `i` goes on, and what it is about to send has a sender. -/
theorem AimInv.client (h : AimInv s) {c : Client} (hkernel : AimInv { s with kernel := s'.kernel })
    (hclients : s'.client = Function.update s.client i c) (hdata : s'.data = s.data)
    (hpc : s'.pc = s.pc)
    (hc : ∀ answered, c.pc = .sendRequest answered → 0 < c.msg.senderPid) : AimInv s' where
  asks j answered hj := by
    rw [hclients] at hj ⊢
    by_cases hji : j = i
    · subst hji
      rw [Function.update_self] at hj ⊢
      exact hc answered hj
    · rw [Function.update_of_ne hji] at hj ⊢
      exact h.asks j answered hj
  sent := hkernel.sent
  register p hp := h.register p (hpc ▸ hp)
  table := by
    rw [hdata]
    exact hkernel.table
  target qid p hp := hkernel.target qid p (hpc ▸ hp)

omit [DecidableEq ι] in
/-- What a client sends has a sender. -/
theorem AimInv.sends (h : AimInv s) {msg : Message} {answered : Bool} {pc : ClientPc}
    (hpc : ClientPc.sends cfg i (s.client i) = some (msg, answered, pc)) :
    0 < msg.senderPid ∧ ∀ answered', pc ≠ .sendRequest answered' := by
  unfold ClientPc.sends at hpc
  split at hpc
  · obtain ⟨rfl, -, rfl⟩ := by simpa only [Option.some.injEq, Prod.mk.injEq] using hpc
    exact ⟨cfg.pid_pos i, by simp⟩
  · rename_i answered' hsend
    obtain ⟨rfl, -, rfl⟩ := by simpa only [Option.some.injEq, Prod.mk.injEq] using hpc
    refine ⟨h.asks i answered' hsend, fun answered'' => ?_⟩
    split <;> exact ClientPc.noConfusion
  · exact absurd hpc (Option.some_ne_none _).symm

theorem aimInv_client (h : AimInv s) (hdoes : ClientDoes cfg i s s') : AimInv s' := by
  have htake : ∀ {p : Packet ι} {ps : List (Packet ι)} {q : ℤ},
      s.kernel.slot q = .live (p :: ps) → AimInv { s with kernel := s.kernel.write q ps } :=
    -- what stays in a queue was in it
    fun hslot => h.write _ fun p' hp' => h.slot hslot p' (List.mem_cons_of_mem _ hp')
  have hexit : ∀ (c : Client) (status : ℤ) (answered : Bool),
      (exitClient c status).pc ≠ .sendRequest answered := by
    intro c status answered heq
    exact nomatch (exitClient_status c status).symm.trans (congrArg ClientPc.status heq)
  cases hdoes with
  | openPublic q hpc hkey => exact h.client h rfl rfl rfl (by simp)
  | openPrivate id q k hpc hget => exact h.client (h.got hget) rfl rfl rfl (by simp)
  | send msg answered pc ps hpc hslot hroom =>
    obtain ⟨hsender, hnext⟩ := h.sends hpc
    refine h.client (c := { s.client i with msg := msg, pc := pc }) ?_ rfl rfl rfl
      fun answered' heq => absurd heq (hnext answered')
    refine h.write _ fun p' hp' => ?_
    rcases List.mem_append.mp hp' with hp' | hp'
    · -- the message is the client's own, with its pid
      exact h.slot hslot p' hp'
    · rw [List.mem_singleton.mp hp']
      exact hsender
  | session p ps hpc hslot =>
    refine h.client (htake hslot) rfl rfl rfl fun answered heq => ?_
    unfold readSession at heq
    split at heq
    · split at heq
      · exact absurd heq (hexit _ _ _)
      · cases heq
    · exact absurd heq (hexit _ _ _)
  | prompt hpc =>
    refine h.client h rfl rfl rfl fun answered heq => ?_
    unfold readCommand at heq ⊢
    cases hprompt : prompt (cfg.pid i) (s.client i).msg (s.client i).stdin with
    | again msg stdin => simp [hprompt, hpc] at heq
    | ask answered' msg stdin =>
      have hsender : msg.senderPid = cfg.pid i := (prompt_asks hprompt).sender
      simpa [hsender] using cfg.pid_pos i
    | quit stdin =>
      simp only [hprompt] at heq
      exact absurd heq (hexit _ _ _)
  | response p ps hpc hslot => exact h.client (htake hslot) rfl rfl rfl (by simp)
  | exit status hpc => exact h.client h rfl rfl rfl fun answered heq => absurd heq (hexit _ _ _)
  | remove status hpc => exact h.client (h.rmid _) rfl rfl rfl (by simp)

/-- **Every step keeps the server to identifiers that it has.** -/
theorem aimInv_step {e : Event ι} (h : AimInv s) (hsys : SysInv s)
    (hstep : (system cfg).step e s = some s') : AimInv s' := by
  cases does hsys.ok hstep with
  | server id garbage clock hdoes => exact aimInv_server h hsys hdoes
  | interruptServer hpc =>
    have hexit := h.exitServer 2
    exact { hexit with }
  | client i id hdoes => exact aimInv_client h hdoes
  | interruptClient i hpc =>
    have hdoes : ClientDoes cfg i s (s.setClient i (exitClient (s.client i) 2)) := .exit 2 hpc
    exact aimInv_client h hdoes

end Aims

end SystemV
end MsgQueue
end OpSys
