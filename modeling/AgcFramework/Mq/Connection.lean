import AgcFramework.Lib.Trace
import AgcFramework.Types

/-!
# Connections to the message broker

An `agcmq_connection_t` stores the current connection object of the AMQP library and whether it is
active. The library's objects are handles; every call of the library is recorded with the object it
is applied to, and what the library answers is an input.

## Main definitions

* `Mq`: the connection with the record of the library's calls
* `agcmqConnectionOpen`, `agcmqConnectionClose`: the functions of `rabbitmq_utils.c`
* `LifeCycle`: what the record of a run has to meet

## Main results

* `lifeCycle_iff`: the life cycle is a condition on each call and the calls before it
* `Mq.Inv.use`, `Mq.Inv.close`, `Mq.Inv.open_of_ready`: what keeps the invariant
* `Mq.Inv.open_of_not_ready`: every other opening of an inactive connection breaks the life cycle
-/

open Trace

/-! ## The library's interface -/

/-- An object that `amqp_new_connection` returned. -/
abbrev Handle := ℕ

/-- The functions of the library that are applied to a connection object. -/
inductive AmqpFun
  | tcpSocketNew
  | socketOpen
  | login
  | channelOpen
  | channelClose
  | connectionClose
  | destroyConnection
  | getRpcReply
  | exchangeDeclare
  | queueDeclare
  | queueBind
  | basicPublish
  | basicConsume
  | maybeReleaseBuffers
  | consumeMessage
  | simpleWaitFrame
  deriving DecidableEq, Repr

/-- An entry of the record. -/
inductive MqLabel
  /-- `amqp_new_connection` returned the object. -/
  | created (h : Handle)
  /-- The function was applied to the object, or to null. -/
  | applied (f : AmqpFun) (s : Option Handle)
  /-- The `agcmq_connection_open` that made the object returned. -/
  | openReturned (h : Handle) (status : AgcStatus)
  deriving DecidableEq, Repr

/-- The reply types of the library. -/
inductive ReplyType
  | normal
  | none
  | libraryException
  | serverException
  | unknown
  deriving DecidableEq, Repr

/-- `agcmq_parse_amqp_reply`. -/
def agcmqParseAmqpReply : ReplyType → ℤ
  | .normal => 0
  | _ => -1

/-- `struct agcmq_connection_info_s`, without the link to the next one. -/
structure AgcmqConnectionInfo where
  hostname : String
  virtualhost : String
  username : String
  password : String
  port : ℕ

/-- What the library answers during one `agcmq_connection_open`. -/
structure OpenOutcome where
  /-- Whether `amqp_tcp_socket_new` returns a socket. -/
  socket : Bool
  /-- The status of the attempts of `amqp_socket_open`, by their number. -/
  connect : ℕ → AgcmqConnectionInfo → ℤ
  login : AgcmqConnectionInfo → ReplyType

/-! ## The connection -/

/-- An `agcmq_connection_t` with the record of the library's calls. -/
structure Mq where
  active : Bool
  state : Option Handle
  /-- The object that `amqp_new_connection` returns next. -/
  next : Handle
  calls : List MqLabel

namespace Mq

/-- A connection from zeroed memory. -/
def init : Mq := ⟨false, none, 0, []⟩

def push (w : Mq) (l : MqLabel) : Mq := { w with calls := w.calls ++ [l] }

/-- A call of the library on the object `s`. -/
def call (w : Mq) (f : AmqpFun) (s : Option Handle) : Mq := w.push (.applied f s)

@[simp] theorem push_active (w : Mq) (l : MqLabel) : (w.push l).active = w.active := rfl
@[simp] theorem push_state (w : Mq) (l : MqLabel) : (w.push l).state = w.state := rfl
@[simp] theorem push_next (w : Mq) (l : MqLabel) : (w.push l).next = w.next := rfl
@[simp] theorem push_calls (w : Mq) (l : MqLabel) : (w.push l).calls = w.calls ++ [l] := rfl

end Mq

/-- `agcmq_connection_close`; the stored object stays in `state`. -/
def agcmqConnectionClose (w : Mq) : Mq :=
  let w := w.call .channelClose w.state
  let w := w.call .connectionClose w.state
  let w := w.call .destroyConnection w.state
  { w with active := false }

/-- The loop of `agcmq_connection_open` over the hosts; `i` counts the attempts. -/
def connectLoop (w : Mq) (newConnection : Handle) (connect : ℕ → AgcmqConnectionInfo → ℤ) :
    ℕ → List AgcmqConnectionInfo → Mq × Option AgcmqConnectionInfo
  | _, [] => (w, none)
  | i, info :: infos =>
    let w := w.call .socketOpen (some newConnection)
    if connect i info ≠ 0 then connectLoop w newConnection connect (i + 1) infos
    else (w, some info)

/-- `agcmq_connection_open` from the login on. -/
def loginWith (w : Mq) (newConnection : Handle) (oldConnection : Option Handle)
    (reply : ReplyType) : Mq × AgcStatus :=
  let w := w.call .login (some newConnection)
  -- the stored connection is closed, not the new one
  if agcmqParseAmqpReply reply ≠ 0 then (agcmqConnectionClose w, .generr)
  else
    let w := w.call .channelOpen (some newConnection)
    -- the reply of the login is looked at again, not the one for the channel
    if agcmqParseAmqpReply reply ≠ 0 then (w, .generr)
    else
      let w := { w with state := some newConnection, active := true }
      match oldConnection with
      | some old => (w.call .destroyConnection (some old), .success)
      | none => (w, .success)

/-- `agcmq_connection_open` after `amqp_new_connection`. -/
def openWith (w : Mq) (newConnection : Handle) (infos : List AgcmqConnectionInfo)
    (o : OpenOutcome) : Mq × AgcStatus :=
  if infos.isEmpty then (w, .generr)
  else
    let oldConnection := w.state
    let w := w.call .tcpSocketNew (some newConnection)
    if !o.socket then (w, .generr)
    else
      match connectLoop w newConnection o.connect 0 infos with
      | (w, none) => (w, .generr)
      | (w, some info) => loginWith w newConnection oldConnection (o.login info)

/-- `agcmq_connection_open`; no host stands for null `conn_infos`. -/
def agcmqConnectionOpen (w : Mq) (infos : List AgcmqConnectionInfo) (o : OpenOutcome) :
    Mq × AgcStatus :=
  let newConnection := w.next
  let w := { w.push (.created newConnection) with next := newConnection + 1 }
  let (w, status) := openWith w newConnection infos o
  (w.push (.openReturned newConnection status), status)

/-! ## The life cycle -/

/-- The call that destroys an object. -/
def MqLabel.destroyed (h : Handle) : MqLabel := .applied .destroyConnection (some h)

/-- The objects' life cycle: each object is destroyed at most once, no function is applied to null
or to a destroyed object, and an opening that fails has destroyed the object it made. -/
structure LifeCycle (calls : List MqLabel) : Prop where
  once : ∀ h, calls.count (.destroyed h) ≤ 1
  live : Throughout (fun pre l => ∀ f s, l = .applied f s →
    ∃ h, s = some h ∧ MqLabel.destroyed h ∉ pre) calls
  failed : Throughout (fun pre l => ∀ h status, l = .openReturned h status → status ≠ .success →
    MqLabel.destroyed h ∈ pre) calls

/-- What the life cycle asks of one entry of the record. -/
def MqLabel.Sound (pre : List MqLabel) : MqLabel → Prop
  | created _ => True
  | applied _ s => ∃ h, s = some h ∧ destroyed h ∉ pre
  | openReturned h status => status ≠ .success → destroyed h ∈ pre

theorem count_destroyed_le {calls : List MqLabel} (h : Throughout MqLabel.Sound calls)
    (x : Handle) : calls.count (.destroyed x) ≤ 1 := by
  induction calls using List.reverseRecOn with
  | nil => simp
  | append_singleton calls l ih =>
    obtain ⟨hcalls, hl⟩ := throughout_snoc.mp h
    by_cases hx : l = .destroyed x
    · subst hx
      obtain ⟨y, hy, hnot⟩ := hl
      obtain rfl := Option.some_inj.mp hy
      simp [List.count_eq_zero_of_not_mem hnot]
    · have hle := ih hcalls
      rw [List.count_append, List.count_singleton, beq_eq_false_iff_ne.mpr hx]
      simpa using hle

/-- The life cycle is a condition on each entry and the entries before it. -/
theorem lifeCycle_iff {calls : List MqLabel} :
    LifeCycle calls ↔ Throughout MqLabel.Sound calls := by
  constructor
  · intro h pre l post hl
    cases l with
    | created x => trivial
    | applied f s => exact h.live pre _ post hl f s rfl
    | openReturned x status => exact h.failed pre _ post hl x status rfl
  · intro h
    refine ⟨count_destroyed_le h, ?_, ?_⟩
    · rintro pre l post hl f s rfl
      exact h pre _ post hl
    · rintro pre l post hl x status rfl
      exact h pre _ post hl

theorem LifeCycle.of_prefix {calls calls' : List MqLabel} (h : LifeCycle calls')
    (hp : calls <+: calls') : LifeCycle calls := by
  obtain ⟨post, rfl⟩ := hp
  exact lifeCycle_iff.mpr (Throughout.of_append (lifeCycle_iff.mp h))

theorem lifeCycle_snoc {calls : List MqLabel} {l : MqLabel} :
    LifeCycle (calls ++ [l]) ↔ LifeCycle calls ∧ l.Sound calls := by
  rw [lifeCycle_iff, lifeCycle_iff, throughout_snoc]

/-- The host that the loop ends at. -/
def reached (connect : ℕ → AgcmqConnectionInfo → ℤ) :
    ℕ → List AgcmqConnectionInfo → Option AgcmqConnectionInfo
  | _, [] => none
  | i, info :: infos => if connect i info ≠ 0 then reached connect (i + 1) infos else some info

/-- The library answers so that the opening succeeds: there is a socket, a host is reached and the
login is accepted. -/
def OpenOutcome.Succeeds (o : OpenOutcome) (infos : List AgcmqConnectionInfo) : Prop :=
  o.socket = true ∧ ∃ info, reached o.connect 0 infos = some info ∧ o.login info = .normal

namespace Mq

variable {w : Mq} {x : Handle} {f : AmqpFun} {infos : List AgcmqConnectionInfo} {o : OpenOutcome}

/-- The invariant: the record so far meets the life cycle, and an active connection is one whose
stored object is not destroyed. -/
structure Inv (w : Mq) : Prop where
  lifeCycle : LifeCycle w.calls
  bound : ∀ f h, MqLabel.applied f (some h) ∈ w.calls → h < w.next
  stored : (w.state = none ∧ w.active = false) ∨
    ∃ h, w.state = some h ∧ h < w.next ∧ (w.active = true ↔ MqLabel.destroyed h ∉ w.calls)

/-- The object `x` may be used. -/
structure Held (w : Mq) (x : Handle) : Prop where
  inv : w.Inv
  lt : x < w.next
  live : MqLabel.destroyed x ∉ w.calls

theorem inv_init : init.Inv where
  lifeCycle := lifeCycle_iff.mpr throughout_nil
  bound _ _ hm := absurd hm List.not_mem_nil
  stored := Or.inl ⟨rfl, rfl⟩

theorem Inv.held (h : w.Inv) (ha : w.active = true) : ∃ x, w.state = some x ∧ w.Held x := by
  rcases h.stored with ⟨-, hi⟩ | ⟨x, hx, hlt, hiff⟩
  · rw [ha] at hi
    cases hi
  · exact ⟨x, hx, h, hlt, hiff.mp ha⟩

/-- The stored object of an inactive connection is null or destroyed. -/
theorem Inv.dead (h : w.Inv) (ha : w.active = false) (hs : w.state = some x) :
    MqLabel.destroyed x ∈ w.calls := by
  rcases h.stored with ⟨hn, -⟩ | ⟨y, hy, -, hiff⟩
  · rw [hs] at hn
    cases hn
  · obtain rfl := Option.some_inj.mp (hs.symm.trans hy)
    by_contra hnot
    rw [hiff.mpr hnot] at ha
    cases ha

theorem destroyed_mem_snoc {calls : List MqLabel} {s : Option Handle}
    (hf : f ≠ .destroyConnection) :
    MqLabel.destroyed x ∈ calls ++ [.applied f s] ↔ MqLabel.destroyed x ∈ calls := by
  simp [MqLabel.destroyed, Ne.symm hf]

theorem Held.bound_snoc (h : w.Held x) (g : AmqpFun) (y : Handle)
    (hm : MqLabel.applied g (some y) ∈ w.calls ++ [.applied f (some x)]) : y < w.next := by
  rcases List.mem_append.mp hm with hm | hm
  · exact h.inv.bound g y hm
  · obtain ⟨-, hy⟩ := MqLabel.applied.inj (List.mem_singleton.mp hm)
    exact (Option.some_inj.mp hy) ▸ h.lt

/-- A call on a live object, other than its destruction. -/
theorem Held.call (h : w.Held x) (hf : f ≠ .destroyConnection) : (w.call f (some x)).Held x where
  inv :=
    { lifeCycle := lifeCycle_snoc.mpr ⟨h.inv.lifeCycle, x, rfl, h.live⟩
      bound := h.bound_snoc
      stored := by
        refine h.inv.stored.imp id ?_
        rintro ⟨y, hy, hlt, hiff⟩
        exact ⟨y, hy, hlt, hiff.trans (not_congr (destroyed_mem_snoc hf).symm)⟩ }
  lt := h.lt
  live := fun hm => h.live ((destroyed_mem_snoc hf).mp hm)

/-- A use of an active connection's object. -/
theorem Inv.use (h : w.Inv) (ha : w.active = true) (hf : f ≠ .destroyConnection) :
    (w.call f w.state).Inv := by
  obtain ⟨x, hx, hheld⟩ := h.held ha
  rw [hx]
  exact (hheld.call hf).inv

/-- Closing an active connection destroys its object, which stays stored. -/
theorem Inv.close (h : w.Inv) (ha : w.active = true) : (agcmqConnectionClose w).Inv := by
  obtain ⟨x, hx, hheld⟩ := h.held ha
  simp only [agcmqConnectionClose, Mq.call, push_state, hx]
  have hused : ((w.call .channelClose (some x)).call .connectionClose (some x)).Held x :=
    (hheld.call (by decide)).call (by decide)
  refine ⟨lifeCycle_snoc.mpr ⟨hused.inv.lifeCycle, x, rfl, hused.live⟩, hused.bound_snoc, ?_⟩
  · refine Or.inr ⟨x, rfl, hheld.lt, ?_⟩
    simp [MqLabel.destroyed]

/-! ## The record grows -/

theorem grows_push (w : Mq) (l : MqLabel) : w.calls <+: (w.push l).calls := List.prefix_append _ _

theorem grows_call (w : Mq) (f : AmqpFun) (s : Option Handle) : w.calls <+: (w.call f s).calls :=
  grows_push _ _

theorem grows_close (w : Mq) : w.calls <+: (agcmqConnectionClose w).calls :=
  ((grows_call _ _ _).trans (grows_call _ _ _)).trans (grows_call _ _ _)

theorem grows_connectLoop (w : Mq) (x : Handle) (connect : ℕ → AgcmqConnectionInfo → ℤ) (i : ℕ)
    (infos : List AgcmqConnectionInfo) :
    w.calls <+: (connectLoop w x connect i infos).1.calls := by
  induction infos generalizing w i with
  | nil => exact List.prefix_refl _
  | cons info infos ih =>
    simp only [connectLoop]
    split
    · exact (grows_call w _ _).trans (ih _ _)
    · exact grows_call w _ _

theorem grows_loginWith (w : Mq) (x : Handle) (old : Option Handle) (reply : ReplyType) :
    w.calls <+: (loginWith w x old reply).1.calls := by
  have hlogin := grows_call w .login (some x)
  have hchannel := hlogin.trans (grows_call _ .channelOpen (some x))
  simp only [loginWith]
  split
  · exact hlogin.trans (grows_close _)
  · cases old with
    | none => exact hchannel
    | some y => exact hchannel.trans (grows_call _ _ _)

theorem grows_openWith (w : Mq) (x : Handle) (infos : List AgcmqConnectionInfo) (o : OpenOutcome) :
    w.calls <+: (openWith w x infos o).1.calls := by
  have hsocket := grows_call w .tcpSocketNew (some x)
  simp only [openWith]
  split
  · exact List.prefix_refl _
  · split
    · exact hsocket
    · have hloop := hsocket.trans (grows_connectLoop _ x o.connect 0 infos)
      split
      · rename_i hcl
        rwa [hcl] at hloop
      · rename_i hcl
        rw [hcl] at hloop
        exact hloop.trans (grows_loginWith _ _ _ _)

/-- The connection with its new object. -/
def created (w : Mq) : Mq := { w.push (.created w.next) with next := w.next + 1 }

theorem open_eq (w : Mq) (infos : List AgcmqConnectionInfo) (o : OpenOutcome) :
    agcmqConnectionOpen w infos o =
      ((openWith w.created w.next infos o).1.push
        (.openReturned w.next (openWith w.created w.next infos o).2),
        (openWith w.created w.next infos o).2) := rfl

theorem grows_open (w : Mq) (infos : List AgcmqConnectionInfo) (o : OpenOutcome) :
    w.calls <+: (agcmqConnectionOpen w infos o).1.calls := by
  have hcreated : w.calls <+: w.created.calls := grows_push w _
  rw [open_eq]
  exact (hcreated.trans (grows_openWith _ _ infos o)).trans (grows_push _ _)

/-! ## Opening -/

theorem connectLoop_snd (w : Mq) (x : Handle) (connect : ℕ → AgcmqConnectionInfo → ℤ) (i : ℕ)
    (infos : List AgcmqConnectionInfo) :
    (connectLoop w x connect i infos).2 = reached connect i infos := by
  induction infos generalizing w i with
  | nil => rfl
  | cons info infos ih =>
    simp only [connectLoop, reached]
    split
    · exact ih _ _
    · rfl

theorem Held.connects (h : w.Held x) (connect : ℕ → AgcmqConnectionInfo → ℤ) (i : ℕ)
    (infos : List AgcmqConnectionInfo) :
    (connectLoop w x connect i infos).1.Held x ∧
      (connectLoop w x connect i infos).1.state = w.state := by
  induction infos generalizing w i with
  | nil => exact ⟨h, rfl⟩
  | cons info infos ih =>
    have hcall := h.call (f := .socketOpen) (by decide)
    simp only [connectLoop]
    split
    · exact ih hcall (i + 1)
    · exact ⟨hcall, rfl⟩

theorem Inv.created (h : w.Inv) : w.created.Held w.next where
  inv :=
    { lifeCycle := lifeCycle_snoc.mpr ⟨h.lifeCycle, trivial⟩
      bound := by
        intro f y hm
        rcases List.mem_append.mp hm with hm | hm
        · exact Nat.lt_succ_of_lt (h.bound f y hm)
        · cases List.mem_singleton.mp hm
      stored := by
        refine h.stored.imp id ?_
        rintro ⟨y, hy, hlt, hiff⟩
        refine ⟨y, hy, Nat.lt_succ_of_lt hlt, hiff.trans (not_congr ?_)⟩
        simp [Mq.created, MqLabel.destroyed] }
  lt := Nat.lt_succ_self _
  live := by
    intro hm
    rcases List.mem_append.mp hm with hm | hm
    · exact absurd (h.bound _ _ hm) (lt_irrefl _)
    · cases List.mem_singleton.mp hm

theorem not_lifeCycle_failed {calls : List MqLabel} {status : AgcStatus} (hs : status ≠ .success)
    (hx : MqLabel.destroyed x ∉ calls) : ¬ LifeCycle (calls ++ [.openReturned x status]) :=
  fun h => hx ((lifeCycle_snoc.mp h).2 hs)

theorem not_lifeCycle_applied {calls : List MqLabel} {s : Option Handle}
    (hs : ∀ x, s = some x → MqLabel.destroyed x ∈ calls) :
    ¬ LifeCycle (calls ++ [.applied f s]) := by
  intro h
  obtain ⟨x, hx, hnot⟩ := (lifeCycle_snoc.mp h).2
  exact hnot (hs x hx)

/-- The ways through `agcmq_connection_open`: it gives up before the login with the new object
unchanged, or it logs in to a host. -/
theorem openWith_cases (h : w.Held x) (infos : List AgcmqConnectionInfo) (o : OpenOutcome) :
    (∃ w', openWith w x infos o = (w', .generr) ∧ MqLabel.destroyed x ∉ w'.calls ∧
        ¬ o.Succeeds infos) ∨
      ∃ w' info, openWith w x infos o = loginWith w' x w.state (o.login info) ∧ w'.Held x ∧
        w'.state = w.state ∧ w.calls <+: w'.calls ∧
        (o.Succeeds infos ↔ o.login info = .normal) := by
  cases infos with
  | nil =>
    refine Or.inl ⟨w, rfl, h.live, ?_⟩
    rintro ⟨-, info, hinfo, -⟩
    cases hinfo
  | cons info infos =>
    have hnew : (w.call .tcpSocketNew (some x)).Held x := h.call (by decide)
    cases hsock : o.socket with
    | false =>
      refine Or.inl ⟨_, by simp [openWith, hsock], hnew.live, ?_⟩
      rintro ⟨hs, -⟩
      rw [hsock] at hs
      cases hs
    | true =>
      -- the hosts are tried in order, and the first that answers is the one to log in to
      have hloop := hnew.connects o.connect 0 (info :: infos)
      have hsnd := connectLoop_snd (w.call .tcpSocketNew (some x)) x o.connect 0 (info :: infos)
      have hgrows := grows_connectLoop (w.call .tcpSocketNew (some x)) x o.connect 0 (info :: infos)
      rcases hcl : connectLoop (w.call .tcpSocketNew (some x)) x o.connect 0 (info :: infos)
        with ⟨w', r⟩
      rw [hcl] at hloop hsnd hgrows
      obtain ⟨hheld, hstate⟩ := hloop
      cases r with
      | none =>
        refine Or.inl ⟨w', by simp [openWith, hsock, hcl], hheld.live, ?_⟩
        rintro ⟨-, info', hinfo, -⟩
        rw [← hsnd] at hinfo
        cases hinfo
      | some host =>
        refine Or.inr ⟨w', host, by simp [openWith, hsock, hcl], hheld, hstate,
          (List.prefix_append _ _).trans hgrows, ?_⟩
        simp [OpenOutcome.Succeeds, hsock, ← hsnd]

theorem Inv.returned (h : w.Inv) : (w.push (.openReturned x .success)).Inv where
  lifeCycle := lifeCycle_snoc.mpr ⟨h.lifeCycle, fun hne => absurd rfl hne⟩
  bound := by
    intro f y hm
    rcases List.mem_append.mp hm with hm | hm
    · exact h.bound f y hm
    · cases List.mem_singleton.mp hm
  stored := by
    refine h.stored.imp id ?_
    rintro ⟨y, hy, hlt, hiff⟩
    refine ⟨y, hy, hlt, hiff.trans (not_congr ?_)⟩
    simp [MqLabel.destroyed]

/-- The new object takes the place of null. -/
theorem Held.loginWith (h : w.Held x) :
    ∃ w', loginWith w x none .normal = (w', .success) ∧ w'.Inv ∧ w'.active = true := by
  have hopen : ((w.call .login (some x)).call .channelOpen (some x)).Held x :=
    (h.call (by decide)).call (by decide)
  refine ⟨_, rfl, ⟨hopen.inv.lifeCycle, hopen.inv.bound, ?_⟩, rfl⟩
  exact Or.inr ⟨x, rfl, hopen.lt, iff_of_true rfl hopen.live⟩

/-- **A first opening that succeeds** keeps the invariant. -/
theorem Inv.open_of_ready (h : w.Inv) (hs : w.state = none) (ho : o.Succeeds infos) :
    (agcmqConnectionOpen w infos o).2 = .success ∧ (agcmqConnectionOpen w infos o).1.Inv ∧
      (agcmqConnectionOpen w infos o).1.active = true := by
  rw [open_eq]
  rcases openWith_cases h.created infos o with ⟨w', -, -, hno⟩ | ⟨w', info, heq, hheld, -, -, hiff⟩
  · exact absurd ho hno
  · have hstate : w.created.state = none := hs
    rw [heq, hiff.mp ho, hstate]
    obtain ⟨w'', hlogin, hinv, hactive⟩ := hheld.loginWith
    rw [hlogin]
    exact ⟨rfl, hinv.returned, hactive⟩

theorem parse_ne_zero {r : ReplyType} (h : r ≠ .normal) : agcmqParseAmqpReply r ≠ 0 := by
  cases r with
  | normal => exact absurd rfl h
  | none => decide
  | libraryException => decide
  | serverException => decide
  | unknown => decide

/-- A login with a dead object stored: it is destroyed again, or closed. -/
theorem not_lifeCycle_loginWith {old : Option Handle} {reply : ReplyType}
    (hdead : ∀ y, w.state = some y → MqLabel.destroyed y ∈ w.calls) (hold : w.state = old)
    (hbad : old ≠ none ∨ reply ≠ .normal) : ¬ LifeCycle (loginWith w x old reply).1.calls := by
  intro hlife
  by_cases hreply : reply = .normal
  · obtain ⟨y, hy⟩ := Option.ne_none_iff_exists'.mp (hbad.resolve_right fun h => h hreply)
    subst hreply
    rw [hy] at hlife hold
    refine not_lifeCycle_applied (fun z hz => ?_) hlife
    obtain rfl := Option.some_inj.mp hz
    exact List.mem_append_left _ (List.mem_append_left _ (hdead _ hold))
  · simp only [loginWith, if_pos (parse_ne_zero hreply)] at hlife
    -- the first use of the stored object already breaks it
    have hfirst : LifeCycle ((w.call .login (some x)).call .channelClose w.state).calls :=
      hlife.of_prefix ((List.prefix_append _ _).trans (List.prefix_append _ _))
    exact not_lifeCycle_applied (fun z hz => List.mem_append_left _ (hdead z hz)) hfirst

/-- **Every other opening** of an inactive connection breaks the life cycle: the new object is left
behind, or a null or destroyed object is used. -/
theorem Inv.open_of_not_ready (h : w.Inv) (ha : w.active = false)
    (ho : ¬ (w.state = none ∧ o.Succeeds infos)) :
    ¬ LifeCycle (agcmqConnectionOpen w infos o).1.calls := by
  rw [open_eq]
  rcases openWith_cases h.created infos o with
    ⟨w', heq, hlive, -⟩ | ⟨w', info, heq, -, hstate, hprefix, hiff⟩
  · rw [heq]
    exact not_lifeCycle_failed AgcStatus.noConfusion hlive
  · have hdead : ∀ y, w'.state = some y → MqLabel.destroyed y ∈ w'.calls := fun y hy =>
      hprefix.subset (List.mem_append_left _ (h.dead ha (hstate.symm.trans hy)))
    have hbad : w.created.state ≠ none ∨ o.login info ≠ .normal := by
      rw [← not_and_or, ← hiff]
      exact ho
    rw [heq]
    intro hlife
    exact not_lifeCycle_loginWith hdead hstate hbad (lifeCycle_snoc.mp hlife).1

end Mq
