import AgcFramework.Redis.Operations

/-!
# Runs of the Redis module

The module is loaded, which fills the pool, and threads run the operations in any interleaving.

## Main definitions

* `PoolOk`: every connection is in one place, put back by the operation that took it, and usable

## Main results

* `pool_conserved`: in every interleaving the pool is in order
-/

open Places

namespace Redis

variable {s s' : State} {l : ℕ → Local} {t : ℕ} {o : Outcome}

/-- Only an allocation makes a new connection. -/
theorem respond_allocated {c : Call} {r : c.Answer} (hc : c ≠ .allocConnection)
    (hr : respond s t o c = some (r, s')) : s'.allocated = s.allocated := by
  cases c with
  | allocConnection => exact (hc rfl).elim
  | trypop =>
    simp only [respond] at hr
    split at hr <;> cases hr <;> rfl
  | push c =>
    simp only [respond] at hr
    split at hr <;> cases hr
    rfl
  | contextInit =>
    simp only [respond] at hr
    split at hr <;> cases hr <;> rfl
  | freeContext cc =>
    cases cc <;> cases hr <;> rfl
  | fault => cases hr
  | _ =>
    cases hr
    rfl

/-- The invariant, with the number of connections. -/
def PoolInv (n : ℕ) (s : State) (l : ℕ → Local) : Prop := Inv s l ∧ s.allocated = n

/-- A call other than an allocation keeps the number of connections. -/
theorem PoolInv.respond {n : ℕ} {c : Call} {r : c.Answer} (h : PoolInv n s l)
    (ha : Allowed (l t) c) (hc : c ≠ .allocConnection)
    (hr : Redis.respond s t o c = some (r, s')) :
    ∃ l', After (l t) c r l' ∧ PoolInv n s' (Function.update l t l') := by
  obtain ⟨hinv, hn⟩ := h
  obtain ⟨l', haft, hinv'⟩ := respond_keeps hinv ha hr
  refine ⟨l', haft, hinv', ?_⟩
  rw [respond_allocated hc hr, hn]

theorem does_keeps {α : Type} (n : ℕ) :
    Prog.Keeps (α := α) respond (fun l c _ => Allowed l c ∧ Common c) After (PoolInv n) := by
  intro s l t o c next r s' hinv ⟨hal, hcommon⟩ hr
  refine hinv.respond hal ?_ hr
  rintro rfl
  exact hcommon

theorem opOk_keeps (op : Op) (n : ℕ) : Prog.Keeps respond (OpOk op) After (PoolInv n) := by
  intro s l t o c next r s' hinv hok hr
  refine hinv.respond (allowed_of_opOk hok) ?_ hr
  rintro rfl
  exact hok

/-! ## Loading -/

theorem poolInv_init : PoolInv 0 {} fun _ => .free := by
  refine ⟨⟨fun _ => none, rfl, fun _ => rfl, by simp, ?_, by simp, by simp, by simp⟩, rfl⟩
  rintro (_ | t) c hc
  · simp [spots] at hc
  · simp [spots, Local.conns] at hc

/-- One more connection is in the pool after `create_connection`. -/
theorem createConnection_exec {n : ℕ} {os : List Outcome} {status : AgcStatus}
    (h : PoolInv n s fun _ => .free)
    (he : createConnection.exec (respond · 0) s os = some (status, s')) :
    status = .success ∧ PoolInv (n + 1) s' fun _ => .free := by
  -- `SYSTEM_RUNNING` is set, and a new connection is allocated
  cases os with
  | nil => cases he
  | cons o os =>
    obtain ⟨⟨owner, hown⟩, hn⟩ := h
    have hrunning := hown.running
    have he : (if s.running = true then do
          let c ← allocConnection
          let _ ← createContext c
          push c
          return .success
        else return .success : Client AgcStatus).exec (respond · 0) s os = some (status, s') := he
    rw [if_pos hrunning] at he
    cases os with
    | nil => cases he
    | cons o os =>
      obtain ⟨l', hl', hinv'⟩ := respond_keeps (c := .allocConnection) (o := o)
        ⟨owner, hown⟩ (rfl : Local.free = Local.free) rfl
      -- the rest is done with the new connection
      have hdoes : Does l' (do
          let _ ← createContext s.allocated
          push s.allocated
          return .success : Client AgcStatus)
          fun l'' status => status = .success ∧ l'' = .free := by
        refine (works_createContext hl' rfl).does.bind ?_
        rintro l₁ - ⟨v, hv, -⟩
        refine (does_push hv).bind ?_
        rintro l₂ - rfl
        exact does_ret ⟨rfl, rfl⟩
      rw [← Function.update_self 0 l' fun _ => Local.free] at hdoes
      obtain ⟨l'', ⟨hstatus, rfl⟩, hpool⟩ := Prog.Safe.exec (does_keeps (n + 1)) hdoes
        ⟨hinv', congrArg (· + 1) hn⟩ he
      rw [Function.update_idem, Function.update_eq_self] at hpool
      exact ⟨hstatus, hpool⟩

/-- The pool has the given number of connections after `initial_connection_pool`. -/
theorem initialConnectionPool_exec {n k : ℕ} {os : List Outcome} {status : AgcStatus}
    (h : PoolInv n s fun _ => .free)
    (he : (initialConnectionPool k).exec (respond · 0) s os = some (status, s')) :
    PoolInv (n + k) s' fun _ => .free := by
  induction k generalizing n s os with
  | zero =>
    cases os with
    | nil =>
      cases he
      exact h
    | cons o os => cases he
  | succ k ih =>
    -- the outcomes split into those of `create_connection` and those of the rest
    obtain ⟨a, s₁, os₁, os₂, h₁, h₂⟩ := Prog.exec_bind_eq_some he
    obtain ⟨rfl, hinv⟩ := createConnection_exec h h₁
    rw [if_pos rfl] at h₂
    have := ih hinv h₂
    rwa [Nat.add_right_comm] at this

/-- The run of the threads starts with a full pool. -/
theorem exists_loaded {n : ℕ} {load : List Outcome} {ls : List Label} {g : Config}
    (h : run n load ls = some g) :
    ∃ s, PoolInv n s (fun _ => .free) ∧
      system.run { state := s, thread := fun _ => none } ls = some g := by
  simp only [run, Option.bind_eq_some_iff, Prod.exists] at h
  obtain ⟨status, s, hload, hrun⟩ := h
  have hinv := initialConnectionPool_exec poolInv_init hload
  rw [Nat.zero_add] at hinv
  exact ⟨s, hinv, hrun⟩

/-- The threads of a run own what fits together, and what they have left to do is safe. -/
theorem run_sound {n : ℕ} {load : List Outcome} {ls : List Label} {g : Config}
    (h : run n load ls = some g) : System.Sound OpOk After .free (PoolInv n) g := by
  obtain ⟨s, hinv, hrun⟩ := exists_loaded h
  refine System.Sound.run Op.body_safe (fun op => opOk_keeps op n) ?_ hrun
  exact ⟨fun _ => .free, hinv, fun _ _ => rfl, fun t op p ht => by simp at ht⟩

/-! ## The pool is in order -/

/-- The pool of `n` connections is in order. -/
structure PoolOk (n : ℕ) (g : Config) : Prop where
  /-- Each connection is once in the queue, or held by one thread. -/
  placed : ∀ c < n, ExactlyOnce g.state.places c
  /-- A thread whose operation returns, and an idle one, has put back what it took, each
  connection once. -/
  returned : ∀ t, (g.thread t = none ∨ ∃ op a, g.thread t = some (op, .ret a)) →
    g.state.putBack t = g.state.obtained t
  /-- The queue has room for its connections, and for one that is about to be put back. -/
  capacity : g.state.queue.length ≤ 2 * maxPoolConnections
  room : ∀ t op c next, g.thread t = some (op, .call (.push c) next) →
    g.state.queue.length < 2 * maxPoolConnections
  /-- A connection is connected exactly when it has a context. -/
  connected : ∀ c < n, (g.state.conn c).connected = true ↔ (g.state.conn c).cc ≠ none
  /-- A context that is used or freed is there. -/
  used : ∀ t op cc u next, g.thread t = some (op, .call (.use cc u) next) →
    ∃ x, cc = some x ∧ g.state.live x = true
  freed : ∀ t op cc next, g.thread t = some (op, .call (.freeContext cc) next) →
    ∃ x, cc = some x ∧ g.state.live x = true

/-- The queue is never longer than the pool. -/
theorem Owned.queue_length_le {owner : Context → Option Conn} (h : Owned owner s l) :
    s.queue.length ≤ s.allocated := by
  -- the queue holds existing connections, each of them once
  have hle := Places.length_le (c := spots s l) (p := none) (l := List.range s.allocated)
    (fun c hc => h.placed c (h.allocated none c hc))
    (fun c hc => List.mem_range.mpr (h.allocated none c hc))
  rwa [List.length_range] at hle

/-- Every connection that exists is well formed, wherever it is. -/
theorem Owned.wf {owner : Context → Option Conn} (h : Owned owner s l) {c : Conn}
    (hc : c < s.allocated) : (s.conn c).Wf := by
  obtain ⟨p, hp⟩ := h.placed c hc
  have hmem := hp.mem
  cases p with
  | none => exact (h.queued c hmem).1
  | some t =>
    simp only [spots] at hmem
    cases hl : l t with
    | free => simp [hl, Local.conns] at hmem
    | holding c' v own =>
      obtain rfl : c = c' := by simpa [hl, Local.conns] using hmem
      obtain ⟨hv, hwf, -⟩ := h.holding t c v own hl
      rw [hv]
      exact hwf

/-- A context that a thread owns is live. -/
theorem Owned.live {owner : Context → Option Conn} (h : Owned owner s l) {cc : Option Context}
    (hcc : ∃ c v own x, l t = .holding c v own ∧ cc = some x ∧ x ∈ own) :
    ∃ x, cc = some x ∧ s.live x = true := by
  obtain ⟨c, v, own, x, hl, rfl, hx⟩ := hcc
  obtain ⟨-, -, -, hown⟩ := h.holding t c v own hl
  exact ⟨x, rfl, (hown x hx).1⟩

theorem connectionPoolSize_le (entries : List ℕ) :
    connectionPoolSize entries ≤ maxPoolConnections := by
  cases entries using List.reverseRecOn with
  | nil => simp [connectionPoolSize]
  | append_singleton entries n =>
    simp only [connectionPoolSize, List.foldl_append, List.foldl_cons, List.foldl_nil]
    exact max_le (by decide) (min_le_right _ _)

/-- In every interleaving of the operations, with every outcome of their calls, the pool is in
order. -/
theorem pool_conserved (entries : List ℕ) (load : List Outcome) (ls : List Label) (g : Config)
    (h : run (connectionPoolSize entries) load ls = some g) :
    PoolOk (connectionPoolSize entries) g := by
  obtain ⟨l, ⟨⟨owner, hown⟩, hn⟩, hidle, hsafe⟩ := run_sound h
  have hqueue := hown.queue_length_le
  have hsize := connectionPoolSize_le entries
  -- the queue is made for twice the most connections a pool can have
  have hroom : g.state.queue.length < 2 * maxPoolConnections := by
    simp only [maxPoolConnections] at hsize ⊢
    omega
  refine ⟨fun c hc => ?_, fun t ht => ?_, Nat.le_of_lt hroom, fun _ _ _ _ _ => hroom,
    fun c hc => ?_, fun t op cc u next ht => ?_, fun t op cc next ht => ?_⟩
  · rw [hown.places_eq]
    exact hown.placed c (hn ▸ hc)
  · -- the program of the thread has returned, so it owns nothing
    have hfree : l t = .free := by
      rcases ht with ht | ⟨op, a, ht⟩
      · exact hidle t ht
      · exact hsafe t op _ ht
    have hledger := hown.ledger t
    rw [hfree] at hledger
    simpa [Local.conns] using hledger.symm
  · have hwf := hown.wf (hn ▸ hc : c < g.state.allocated)
    rw [Connection.Wf, Option.isSome_iff_ne_none] at hwf
    exact hwf
  · -- what the thread is about to call is allowed with what it owns
    obtain ⟨hok, -⟩ := hsafe t op _ ht
    exact hown.live hok
  · obtain ⟨hok, -⟩ := hsafe t op _ ht
    exact hown.live hok

/-- Two threads hold the two connections, one of which could not connect. -/
theorem pool_conserved_two_threads : ∃ g,
    run (connectionPoolSize [2])
      (List.replicate 10 { made := true } ++ List.replicate 13 { err := true })
      [.start 1 (.delete (CStr.ofString "a")), .start 2 (.get (CStr.ofString "b") true true),
        .step 1 { made := true }, .step 1 { made := true }, .step 2 { made := true },
        .step 2 { made := true }] = some g ∧
    g.state.queue = [] ∧ g.state.held 1 = [0] ∧ g.state.held 2 = [1] ∧
      PoolOk (connectionPoolSize [2]) g := by
  have hrun : (run (connectionPoolSize [2])
      (List.replicate 10 { made := true } ++ List.replicate 13 { err := true })
      [.start 1 (.delete (CStr.ofString "a")), .start 2 (.get (CStr.ofString "b") true true),
        .step 1 { made := true }, .step 1 { made := true }, .step 2 { made := true },
        .step 2 { made := true }]).map
      (fun g => (g.state.queue, g.state.held 1, g.state.held 2)) = some ([], [0], [1]) := by
    decide +kernel
  obtain ⟨g, hg, hheld⟩ := Option.map_eq_some_iff.mp hrun
  simp only [Prod.mk.injEq] at hheld
  exact ⟨g, hg, hheld.1, hheld.2.1, hheld.2.2, pool_conserved _ _ _ g hg⟩

end Redis
