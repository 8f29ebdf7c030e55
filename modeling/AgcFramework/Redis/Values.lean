import AgcFramework.Redis.Server

/-!
# What the Redis operations read and write

The readers are four separate pieces of code; three of them keep a nil reply apart from an empty
string. The writers give the library C strings, so a value is written up to its first NUL whatever
size the caller passes.

## Main definitions

* `found`, `foundInBatch`: what the readers make of a value that is there or not
* `Agrees`: a list is what reads of its keys one by one give
* `Passed`: a value as a caller passes it

## Main results

* `output_of_get`, `output_of_getPipeline`, `output_of_hashget`, `output_of_hashmget`: the readers
* `store_of_set`, `store_of_hashmset`: the writers
* `batch_reads_iff`: when reads of many keys agree with reads of one
* `read_back_iff`: when a value is read back as it was written
-/

namespace Redis

/-! ## The readers -/

/-- What a reader makes of a value that is there or not. -/
def found (key : CStr) (v : Option (List Byte)) : KeyValue where
  key
  value := v.map strndup
  valueLen := (v.getD []).length

/-- What `agc_cache_redis_hashmget` makes of it: a copy of no bytes if there is none. -/
def foundInBatch (key : CStr) (v : Option (List Byte)) : KeyValue where
  key
  value := some (strndup (v.getD []))
  valueLen := (v.getD []).length

/-- What a reader of one key stores. -/
def KeyValue.output (kv : KeyValue) : Output := .string kv.value kv.valueLen

section Readers

variable {e e' : Env} {out : Output}

theorem yields_getStrvalue {α : Type} {r : Reply} {v : Option (List Byte)} (key : CStr)
    {f : Option (List Byte) × ℕ → Client α} {a : α} (hr : e.reply r = .ofOption v)
    (h : e.Yields (getStrvalue r >>= f) a e') :
    e.Yields (f ((found key v).value, (found key v).valueLen)) a e' := by
  obtain ⟨b, e₁, hb, hf⟩ := Prog.Yields.of_bind h
  have hb := yields_replyType hb
  rw [hr] at hb
  cases v with
  | none =>
    obtain ⟨rfl, rfl⟩ := Prog.yields_ret.mp hb
    exact hf
  | some s =>
    have hb := yields_replyStr hb
    rw [hr] at hb
    obtain ⟨rfl, rfl⟩ := Prog.yields_ret.mp hb
    exact hf

theorem yields_strOutput {r : Reply} {v : Option (List Byte)} (key : CStr)
    (hr : e.reply r = .ofOption v) (h : e.Yields (strOutput r) out e') :
    out = (found key v).output ∧ e' = e := by
  have h := yields_getStrvalue key hr h
  exact Prog.yields_ret.mp h

theorem output_of_get {key : CStr}
    (h : e.Yields (agcCacheRedisGet key true true) (.success, out) e') :
    out = (found key (e.store.strings key.bytes)).output := by
  obtain ⟨-, h⟩ := yields_checked h
  obtain ⟨r, e₁, ha, h⟩ := yields_commandOp h
  have hr := ha.reply
  rw [exec_get] at hr
  exact (yields_strOutput key hr h).1

theorem output_of_hashget {tablename key : CStr}
    (h : e.Yields (agcCacheRedisHashget (some tablename) (some key) true true)
      (.success, out) e') :
    out = (found key (e.store.hashes tablename.bytes key.bytes)).output := by
  obtain ⟨-, h⟩ := yields_checked h
  obtain ⟨r, e₁, ha, h⟩ := yields_commandOp h
  have hr := ha.reply
  rw [exec_hget] at hr
  exact (yields_strOutput key hr h).1

/-- The entries of the keys whose values are the elements of an array behind the given ones. -/
theorem yields_hashEntries {r : Reply} {look : CStr → Option (List Byte)} {keys : List CStr}
    {entries : List KeyValue} (before : List (Option (List Byte)))
    (hr : e.reply r = .array (before ++ keys.map look))
    (h : e.Yields (hashEntries r before.length keys) entries e') :
    entries = keys.map fun key => foundInBatch key (look key) := by
  induction keys generalizing before entries e' with
  | nil => exact (Prog.yields_ret.mp h).1
  | cons key keys ih =>
    have h := yields_replyElement h
    have helement : (e.reply r).element before.length = look key := by
      rw [hr]
      simp [Data.element]
    rw [helement] at h
    obtain ⟨rest, e₁, hrest, h⟩ := Prog.Yields.of_bind h
    -- the next element is behind this one
    have hih := ih (before ++ [look key]) (by simpa using hr) (by simpa using hrest)
    rw [hih] at h
    exact (Prog.yields_ret.mp h).1

theorem yields_handleArray {keys : List CStr} {reply : Option Reply}
    (h : e.Yields (handleArray keys reply) (.success, out) e') :
    ∃ r entries e₁, reply = some r ∧ (e.reply r).type = .array ∧
      e.Yields (hashEntries r 0 keys) entries e₁ ∧ out = .list entries := by
  have hfail : ∀ {e₁ : Env}, ¬ e₁.Yields
      (do freeReply reply; logError reply; return (.generr, .untouched) : Client Result)
      (.success, out) e' := by
    intro e₁ h
    have h := yields_freeReply h
    obtain ⟨_, e₂, -, h⟩ := Prog.Yields.of_bind h
    obtain ⟨⟨⟩, -⟩ := Prog.yields_ret.mp h
  cases reply with
  | none => exact (hfail h).elim
  | some r =>
    have h := yields_replyType h
    by_cases ht : (e.reply r).type = .array
    · rw [if_pos ht] at h
      obtain ⟨entries, e₁, hentries, h⟩ := Prog.Yields.of_bind h
      have h := yields_freeReply h
      obtain ⟨h, -⟩ := Prog.yields_ret.mp h
      cases h
      exact ⟨r, entries, e₁, rfl, ht, hentries, rfl⟩
    · rw [if_neg ht] at h
      exact (hfail h).elim

theorem exec_hmget {s : Store} {table : CStr} {keys : List CStr} {cmd : List (List Byte)}
    (hkeys : keys ≠ []) (hcmd : hashWords "HMGET" table keys [] = some cmd) :
    (s.exec cmd).1 = .array (keys.map fun key => s.hashes table.bytes key.bytes) := by
  have hempty : ¬keys.isEmpty := by simpa using hkeys
  rw [hashWords, if_neg hempty] at hcmd
  obtain rfl := Option.some.inj hcmd
  have h : (s.exec (words "HMGET" (table.bytes :: keys.map CStr.bytes))).1 =
      .array ((keys.map CStr.bytes).map (s.hashes table.bytes)) := rfl
  rwa [List.map_map] at h

theorem output_of_hashmget {tablename : CStr} {keys : List CStr}
    (h : e.Yields (agcCacheRedisHashmget (some tablename) keys) (.success, out) e') :
    out = .list (keys.map fun key =>
      foundInBatch key (e.store.hashes tablename.bytes key.bytes)) := by
  obtain ⟨hkeys, h⟩ := yields_checked h
  have hkeys : keys ≠ [] := by simpa using hkeys
  have hhandle : ∀ (e₁ : Env) reply, e₁.Yields (handleArray keys reply) (.success, out) e' →
      ∃ r, reply = some r ∧ (e₁.reply r).type ≠ .error := by
    intro e₁ reply h
    obtain ⟨r, _, _, hr, ht, -⟩ := yields_handleArray h
    exact ⟨r, hr, by simp [ht]⟩
  obtain ⟨cmd, r, e₁, hcmd, ha, h⟩ := yields_hashOp (by simpa using hkeys) h hhandle
  obtain ⟨_, entries, e₂, hr, -, h, rfl⟩ := yields_handleArray h
  cases hr
  have hreply := ha.reply.trans (exec_hmget hkeys hcmd)
  exact congrArg Output.list (yields_hashEntries [] hreply h)

end Readers

/-! ## Pipelines -/

section Pipeline

variable {e e' : Env} {o : Outcome} {c : Conn}

/-- The replies of `agc_cache_redis_get_pipeline` are those of the commands that wait, in their
order: there are enough of them if the operation succeeds. -/
theorem yields_collectReplies {keys gets : List CStr} {entries : List KeyValue}
    (hq : e.queued c = gets.map fun key => words "GET" [key.bytes])
    (h : e.Yields (collectReplies c keys) (.success, entries) e') :
    keys.length ≤ gets.length ∧
      entries = List.zipWith (fun key get => found key (e.store.strings get.bytes)) keys gets := by
  induction keys generalizing e e' gets entries with
  | nil =>
    obtain ⟨heq, -⟩ := Prog.yields_ret.mp h
    cases heq
    simp
  | cons key keys ih =>
    obtain ⟨o, h⟩ := yields_use h
    obtain ⟨⟨got, e₁⟩, hu⟩ : ∃ x, e.use o (e.pool.conn c).cc .getReply = x := ⟨_, rfl⟩
    rw [hu] at h
    rcases got with (_ | r) | err
    · cases eq_of_yields_failed h
    · have h := yields_replyType h
      by_cases ht : (e₁.reply r).type = .error
      · rw [if_pos ht] at h
        cases eq_of_yields_failed h
      · rw [if_neg ht] at h
        obtain ⟨cmd, htaken⟩ := use_getReply hu ht
        -- the first command is that of the first key that was appended
        have hqueued := hq.symm.trans htaken.queued
        cases gets with
        | nil => cases hqueued
        | cons get gets =>
          obtain ⟨rfl, hrest⟩ := List.cons.inj hqueued
          obtain ⟨-, hreply, hstore⟩ := htaken
          rw [exec_get] at hreply hstore
          have h := yields_getStrvalue key hreply h
          have h := yields_freeReply h
          obtain ⟨⟨status, rest⟩, e₂, hkeys, h⟩ := Prog.Yields.of_bind h
          obtain ⟨heq, -⟩ := Prog.yields_ret.mp h
          cases heq
          obtain ⟨hlen, rfl⟩ := ih hrest.symm hkeys
          rw [hstore]
          exact ⟨Nat.succ_le_succ hlen, rfl⟩
    · cases eq_of_yields_failed h

theorem output_of_getPipeline {keys : List CStr} {out : Output} (he : e.Reached)
    (h : e.Yields (agcCacheRedisGetPipeline keys true) (.success, out) e') :
    out = .list (keys.map fun key => found key (e.store.strings key.bytes)) := by
  obtain ⟨-, h⟩ := yields_checked h
  obtain ⟨c, e₁, hs, h⟩ := yields_withConnection h
  obtain ⟨_, e₂, happend, h⟩ := Prog.Yields.of_bind h
  obtain ⟨given, sent, hgiven, hsub, hq, hstore⟩ := yields_appendAll happend
  obtain rfl : keys.map (fun key => words "GET" [key.bytes]) = given := by
    refine List.map_injective_iff.mpr (Option.some_injective _) ?_
    rw [List.map_map, ← hgiven]
    rfl
  obtain ⟨gets, hgets, rfl⟩ := List.sublist_map_iff.mp hsub
  rw [(he.idle.same hs).queued c, List.nil_append] at hq
  obtain ⟨⟨status, entries⟩, e₃, hcollect, h⟩ := Prog.Yields.of_bind h
  obtain ⟨_, e₄, -, h⟩ := Prog.Yields.of_bind h
  obtain ⟨_, e₅, -, h⟩ := Prog.Yields.of_bind h
  obtain ⟨heq, -⟩ := Prog.yields_ret.mp h
  cases heq
  -- with fewer commands than keys the last reply would be missing
  obtain ⟨hlen, rfl⟩ := yields_collectReplies hq hcollect
  obtain rfl := hgets.eq_of_length_le hlen
  rw [List.zipWith_self, hstore, hs.store]

/-- The text of an error is looked at before a result is given. -/
theorem yields_errstr {n n' : ℕ}
    (h : e.Yields (do let _ ← use (← read c).cc .errstr; return n) n' e') : n' = n ∧ e' = e := by
  obtain ⟨o, h⟩ := yields_use h
  exact Prog.yields_ret.mp h

/-- What `agc_cache_redis_set` has appended, when as many commands wait as it asks replies for. -/
theorem yields_appendSet {key : CStr} {value : List Byte} {expires : ℤ} {n : ℕ}
    (hq : e.queued c = []) (h : e.Yields (appendSet c key value expires) n e')
    (hn : n ≤ (e'.queued c).length) :
    ∃ more, (e'.queued c).take n = words "SET" [key.bytes, strndup value] :: more ∧
      (more = [] ∨ more = [words "EXPIRE" [key.bytes, Decimal.decimalInt expires]]) := by
  obtain ⟨o, h⟩ := yields_use h
  rcases use_appendCommand (o := o) (words "SET" [key.bytes, strndup value]) with
    ⟨hok, hq₁, -⟩ | heq
  · rw [hok, if_pos rfl] at h
    rw [hq, List.nil_append] at hq₁
    by_cases hexp : expires > 0
    · rw [if_pos hexp] at h
      obtain ⟨o', h⟩ := yields_use h
      rcases use_appendCommand (o := o') (words "EXPIRE" [key.bytes, Decimal.decimalInt expires])
        with ⟨hok', hq₂, -⟩ | heq'
      · rw [hok', if_pos rfl] at h
        obtain ⟨rfl, rfl⟩ := Prog.yields_ret.mp h
        rw [hq₂, hq₁]
        exact ⟨_, rfl, Or.inr rfl⟩
      · -- two replies are asked for, and one command waits
        rw [heq', if_neg (by simp)] at h
        obtain ⟨rfl, rfl⟩ := yields_errstr h
        rw [hq₁] at hn
        exact absurd hn (by simp)
    · rw [if_neg hexp] at h
      obtain ⟨rfl, rfl⟩ := Prog.yields_ret.mp h
      rw [hq₁]
      exact ⟨[], rfl, Or.inl rfl⟩
  · -- one reply is asked for, and no command waits
    rw [heq, if_neg (by simp)] at h
    obtain ⟨rfl, rfl⟩ := yields_errstr h
    rw [hq] at hn
    exact absurd hn (by simp)

/-- What a successful `agc_cache_redis_set` leaves in the store: the value up to its first NUL. -/
theorem store_of_set {key : CStr} {value : List Byte} {size expires : ℤ} {out : Output}
    (he : e.Reached) (h : e.Yields (agcCacheRedisSet key value size expires) (.success, out) e') :
    e'.store.strings key.bytes = some (strndup value) := by
  obtain ⟨c, e₁, hs, h⟩ := yields_withConnection h
  obtain ⟨n, e₂, happend, h⟩ := Prog.Yields.of_bind h
  obtain ⟨status, e₃, hmulti, h⟩ := Prog.Yields.of_bind h
  obtain ⟨_, e₄, hfree, h⟩ := Prog.Yields.of_bind h
  obtain ⟨heq, rfl⟩ := Prog.yields_ret.mp h
  cases heq
  obtain ⟨hn, hstore⟩ := yields_agcRedisMultireplies hmulti
  obtain ⟨more, htake, hmore⟩ := yields_appendSet ((he.idle.same hs).queued c) happend hn
  rw [((quiet_freeConnection c).same hfree).store, hstore, htake]
  -- an expiry that follows leaves the value in place
  rcases hmore with rfl | rfl
  · rw [Store.execAll, List.foldl_cons, exec_set]
    exact Function.update_self ..
  · rw [Store.execAll, List.foldl_cons, List.foldl_cons, exec_expire, exec_set]
    exact Function.update_self ..

end Pipeline

/-! ## Reading one key after another, and all at once -/

/-- The operation, called for each of the keys while the store is that of `e`, succeeds with these
outputs. -/
def Env.Singles (e : Env) (op : CStr → Client Result) : List CStr → List Output → Prop :=
  List.Forall₂ fun key out => ∃ e₁ e₂ : Env, e₁.store = e.store ∧
    e₁.Yields (op key) (.success, out) e₂

/-- A list has the keys in their order, each with what was read for it alone, and NULL of length 0
for a key without a value. -/
def Agrees (look : List Byte → Option (List Byte)) (keys : List CStr) (singles : List Output)
    (batch : Output) : Prop :=
  ∃ entries, batch = .list entries ∧ entries.map KeyValue.key = keys ∧
    entries.map KeyValue.output = singles ∧
    ∀ kv ∈ entries, look kv.key.bytes = none → kv.value = none ∧ kv.valueLen = 0

section Batch

variable {e e' : Env} {keys : List CStr} {singles : List Output}
  {look : List Byte → Option (List Byte)}

theorem Env.Singles.eq_map {op : CStr → Client Result} (output : Store → CStr → Output)
    (hop : ∀ (e₁ e₂ : Env) key out, e₁.Yields (op key) (.success, out) e₂ →
      out = output e₁.store key)
    (h : e.Singles op keys singles) : singles = keys.map (output e.store) := by
  induction h with
  | nil => rfl
  | cons hkey hkeys ih =>
    obtain ⟨e₁, e₂, hstore, hkey⟩ := hkey
    rw [List.map_cons, ih, hop e₁ e₂ _ _ hkey, hstore]

/-- The three readers that look at the type of the reply agree. -/
theorem agrees_found : Agrees look keys (keys.map fun key => (found key (look key.bytes)).output)
    (.list (keys.map fun key => found key (look key.bytes))) := by
  refine ⟨_, rfl, ?_, ?_, ?_⟩
  · simp [Function.comp_def, found]
  · simp [Function.comp_def]
  · intro kv hkv hnone
    obtain ⟨key, -, rfl⟩ := List.mem_map.mp hkv
    replace hnone : look key.bytes = none := hnone
    simp [found, hnone]

theorem output_foundInBatch (key : CStr) (v : Option (List Byte)) :
    (foundInBatch key v).output = (found key v).output ↔ v.isSome := by
  cases v <;> simp [KeyValue.output, found, foundInBatch]

/-- A key without a value is not read by `agc_cache_redis_hashmget` as by the others. -/
theorem agrees_foundInBatch_iff :
    Agrees look keys (keys.map fun key => (found key (look key.bytes)).output)
      (.list (keys.map fun key => foundInBatch key (look key.bytes))) ↔
    ∀ key ∈ keys, (look key.bytes).isSome := by
  constructor
  · rintro ⟨entries, heq, -, houtput, -⟩ key hkey
    obtain rfl := Output.list.inj heq
    rw [List.map_map, List.map_inj_left] at houtput
    exact (output_foundInBatch key _).mp (houtput key hkey)
  · intro h
    refine ⟨_, rfl, ?_, ?_, ?_⟩
    · simp [Function.comp_def, foundInBatch]
    · rw [List.map_map, List.map_inj_left]
      exact fun key hkey => (output_foundInBatch key _).mpr (h key hkey)
    · intro kv hkv hnone
      obtain ⟨key, hkey, rfl⟩ := List.mem_map.mp hkv
      replace hnone : look key.bytes = none := hnone
      have hsome := h key hkey
      rw [hnone] at hsome
      cases hsome

/-- Reads of many keys at once give what reads of one key give exactly when the hash has a value
for each of the keys. -/
theorem batch_reads_iff {tablename : CStr} {hashSingles : List Output} {batch hashBatch : Output}
    {e₁ e₂ : Env} (he : e.Reached)
    (hget : e.Singles (fun key => agcCacheRedisGet key true true) keys singles)
    (hpipeline : e.Yields (agcCacheRedisGetPipeline keys true) (.success, batch) e₁)
    (hhashget : e.Singles (fun key => agcCacheRedisHashget (some tablename) (some key) true true)
      keys hashSingles)
    (hhashmget : e.Yields (agcCacheRedisHashmget (some tablename) keys) (.success, hashBatch) e₂) :
    Agrees e.store.strings keys singles batch ∧
      Agrees (e.store.hashes tablename.bytes) keys hashSingles hashBatch ↔
    ∀ key ∈ keys, (e.store.hashes tablename.bytes key.bytes).isSome := by
  have hsingles := hget.eq_map (fun s key => (found key (s.strings key.bytes)).output)
    fun _ _ _ _ h => output_of_get h
  have hhash := hhashget.eq_map
    (fun s key => (found key (s.hashes tablename.bytes key.bytes)).output)
    fun _ _ _ _ h => output_of_hashget h
  rw [hsingles, hhash, output_of_getPipeline he hpipeline, output_of_hashmget hhashmget]
  exact (and_iff_right agrees_found).trans agrees_foundInBatch_iff

/-- A pool of one connection, over a server with the given store. -/
def Env.ready (store : Store) : Env where
  pool :=
    { queue := [0]
      conn := fun _ => { connected := true, cc := some 0 }
      allocated := 1
      live := fun x => x == 0
      contexts := 1 }
  store

/-- Nothing fails, and every command is answered. -/
def answers (n : ℕ) : List Outcome := List.replicate n { reply := some 0 }

theorem Env.reached_ready (store : Store) : (Env.ready store).Reached := .init _ store _

theorem Env.singles_cons {op : CStr → Client Result} {key : CStr} {out : Output}
    (os : List Outcome) (h : ((op key).exec Env.respond e os).map Prod.fst = some (.success, out))
    (hs : e.Singles op keys singles) : e.Singles op (key :: keys) (out :: singles) := by
  obtain ⟨e₁, h⟩ := Prog.exists_yields os h
  exact .cons ⟨e, e₁, rfl, h⟩ hs

/-- A key that is there, read twice. -/
theorem batch_reads_twice :
    ∃ (e : Env) (tablename : CStr) (keys : List CStr) (singles hashSingles : List Output)
      (batch hashBatch : Output) (e₁ e₂ : Env), e.Reached ∧
      e.Singles (fun key => agcCacheRedisGet key true true) keys singles ∧
      e.Yields (agcCacheRedisGetPipeline keys true) (.success, batch) e₁ ∧
      e.Singles (fun key => agcCacheRedisHashget (some tablename) (some key) true true) keys
        hashSingles ∧
      e.Yields (agcCacheRedisHashmget (some tablename) keys) (.success, hashBatch) e₂ ∧
      Agrees e.store.strings keys singles batch ∧
      Agrees (e.store.hashes tablename.bytes) keys hashSingles hashBatch := by
  let e := Env.ready { strings := fun _ => some [104], hashes := fun _ _ => some [104] }
  let k := CStr.ofString "k"
  have hget : e.Singles (fun key => agcCacheRedisGet key true true) [k, k]
      [.string (some [104]) 1, .string (some [104]) 1] :=
    Env.singles_cons (answers 13) (by decide +kernel)
      (Env.singles_cons (answers 13) (by decide +kernel) .nil)
  have hhashget : e.Singles
      (fun key => agcCacheRedisHashget (some k) (some key) true true) [k, k]
      [.string (some [104]) 1, .string (some [104]) 1] :=
    Env.singles_cons (answers 13) (by decide +kernel)
      (Env.singles_cons (answers 13) (by decide +kernel) .nil)
  obtain ⟨e₁, hpipeline⟩ : ∃ e₁, e.Yields (agcCacheRedisGetPipeline [k, k] true)
      (.success, .list [⟨k, some [104], 1⟩, ⟨k, some [104], 1⟩]) e₁ :=
    Prog.exists_yields (answers 25) (by decide +kernel)
  obtain ⟨e₂, hhashmget⟩ : ∃ e₂, e.Yields (agcCacheRedisHashmget (some k) [k, k])
      (.success, .list [⟨k, some [104], 1⟩, ⟨k, some [104], 1⟩]) e₂ :=
    Prog.exists_yields (answers 13) (by decide +kernel)
  have he : e.Reached := Env.reached_ready _
  exact ⟨e, k, [k, k], _, _, _, _, e₁, e₂, he, hget, hpipeline, hhashget, hhashmget,
    (batch_reads_iff he hget hpipeline hhashget hhashmget).mpr fun _ _ => rfl⟩

/-- A field that the hash does not have is NULL when it is read alone, and an empty string in a
list. -/
theorem batch_reads_absent :
    ∃ (e : Env) (tablename : CStr) (keys : List CStr) (hashSingles : List Output)
      (hashBatch : Output) (e₂ : Env), e.Reached ∧ keys ≠ [] ∧
      e.Singles (fun key => agcCacheRedisHashget (some tablename) (some key) true true) keys
        hashSingles ∧
      e.Yields (agcCacheRedisHashmget (some tablename) keys) (.success, hashBatch) e₂ ∧
      ¬Agrees (e.store.hashes tablename.bytes) keys hashSingles hashBatch := by
  let k := CStr.ofString "k"
  have hhashget : (Env.ready {}).Singles
      (fun key => agcCacheRedisHashget (some k) (some key) true true) [k] [.string none 0] :=
    Env.singles_cons (answers 12) (by decide +kernel) .nil
  obtain ⟨e₂, hhashmget⟩ : ∃ e₂, (Env.ready {}).Yields (agcCacheRedisHashmget (some k) [k])
      (.success, .list [⟨k, some [], 0⟩]) e₂ :=
    Prog.exists_yields (answers 12) (by decide +kernel)
  refine ⟨Env.ready {}, k, [k], _, _, e₂, Env.reached_ready _, by simp, hhashget, hhashmget, ?_⟩
  rintro ⟨entries, heq, -, houtput, -⟩
  obtain rfl := Output.list.inj heq
  simp [KeyValue.output] at houtput

end Batch

/-! ## Reading what was written -/

/-- A value as a caller passes it: its bytes, and what lies behind them in memory. -/
structure Passed where
  bytes : List Byte
  behind : List Byte

namespace Passed

/-- The memory that the pointer leads to. -/
def memory (p : Passed) : List Byte := p.bytes ++ p.behind

/-- The value is a text: no byte of it is a NUL, and a NUL is right behind it. -/
def IsText (p : Passed) : Prop := 0 ∉ p.bytes ∧ p.behind.head? = some 0
  deriving Decidable

/-- A reader has given the value back: its bytes and its size. To write it no byte was read beyond
the memory. -/
def ReadAs (p : Passed) (out : Output) : Prop :=
  0 ∈ p.memory ∧ out = .string (some p.bytes) p.bytes.length

/-- The copy of the memory up to its first NUL is the value exactly if the value is a text. -/
theorem strndup_memory_iff (p : Passed) :
    0 ∈ p.memory ∧ strndup p.memory = p.bytes ↔ p.IsText := by
  obtain ⟨bytes, behind⟩ := p
  simp only [memory, IsText]
  constructor
  · rintro ⟨hnul, hcopy⟩
    have hbytes : 0 ∉ bytes := by
      rw [← hcopy]
      exact (CStr.ofBuffer _).nul_notMem
    refine ⟨hbytes, ?_⟩
    cases behind with
    | nil =>
      rw [List.append_nil] at hnul
      exact absurd hnul hbytes
    | cons b rest =>
      -- a byte other than NUL behind the value would be copied too
      by_contra hb
      replace hb : b ≠ 0 := fun h => hb (by rw [h]; rfl)
      have htake : strndup (bytes ++ b :: rest) = bytes ++ b :: strndup rest := by
        simp only [strndup, CStr.ofBuffer]
        rw [List.takeWhile_append_of_pos, List.takeWhile_cons_of_pos (by simpa using hb)]
        intro x hx
        simpa using ne_of_mem_of_not_mem hx hbytes
      rw [hcopy] at htake
      simp at htake
  · rintro ⟨hbytes, hbehind⟩
    obtain ⟨rest, rfl⟩ := List.head?_eq_some_iff.mp hbehind
    refine ⟨by simp, ?_⟩
    have htext := CStr.ofBuffer_bytes ⟨bytes, hbytes⟩ rest
    exact congrArg CStr.bytes htext

theorem strndup_strndup (buf : List Byte) : strndup (strndup buf) = strndup buf :=
  congrArg CStr.bytes (CStr.ofBuffer_self _)

/-- What is stored of a value is read back as that value exactly if it is a text. -/
theorem readAs_found_iff (p : Passed) (key : CStr) :
    p.ReadAs (found key (some (strndup p.memory))).output ↔ p.IsText := by
  rw [← strndup_memory_iff]
  refine and_congr_right fun _ => ?_
  simp only [KeyValue.output, found, Option.map_some, Option.getD_some, strndup_strndup,
    Output.string.injEq, Option.some.injEq]
  exact and_iff_left_of_imp (congrArg List.length)

end Passed

/-- An entry of a list for `agc_cache_redis_hashmset`. -/
def keyValue (entry : CStr × Passed) : KeyValue where
  key := entry.1
  value := some entry.2.memory
  valueLen := entry.2.bytes.length

section ReadBack

variable {e e₁ e₂ e₃ : Env}

/-- The words of an entry for `agc_cache_redis_hashmset`. -/
def fieldWords (entry : CStr × Passed) : List (List Byte) :=
  [entry.1.bytes, strndup entry.2.memory]

theorem mapM_entryWords (entries : List (CStr × Passed)) :
    (entries.map keyValue).mapM entryWords = some (entries.map fieldWords) := by
  induction entries with
  | nil => rfl
  | cons entry entries ih =>
    rw [List.map_cons, List.mapM_cons, ih]
    rfl

theorem setFields_of_notMem {fields : List Byte → Option (List Byte)}
    {entries : List (CStr × Passed)} {key : CStr} (hkey : key ∉ entries.map Prod.fst) :
    setFields fields (entries.map fieldWords).flatten key.bytes = fields key.bytes := by
  induction entries generalizing fields with
  | nil => rfl
  | cons entry entries ih =>
    simp only [List.map_cons, List.mem_cons, not_or] at hkey
    have hne : key.bytes ≠ entry.1.bytes := fun h => hkey.1 (CStr.ext h)
    refine (ih hkey.2).trans ?_
    exact Function.update_of_ne hne ..

/-- A field is set to the value of its entry, if no other entry is for the same field. -/
theorem setFields_of_mem {fields : List Byte → Option (List Byte)}
    {entries : List (CStr × Passed)} (hnodup : (entries.map Prod.fst).Nodup)
    {entry : CStr × Passed} (hentry : entry ∈ entries) :
    setFields fields (entries.map fieldWords).flatten entry.1.bytes =
      some (strndup entry.2.memory) := by
  induction entries generalizing fields with
  | nil => cases hentry
  | cons first entries ih =>
    rw [List.map_cons, List.nodup_cons] at hnodup
    rcases List.mem_cons.mp hentry with rfl | hentry
    · refine (setFields_of_notMem hnodup.1).trans ?_
      exact Function.update_self ..
    · exact ih hnodup.2 hentry

/-- What a successful `agc_cache_redis_hashmset` leaves in the table. -/
theorem store_of_hashmset {tablename : CStr} {entries : List (CStr × Passed)} {out : Output}
    (h : e.Yields (agcCacheRedisHashmset (some tablename) (entries.map keyValue))
      (.success, out) e₁) :
    e₁.store.hashes tablename.bytes =
      setFields (e.store.hashes tablename.bytes) (entries.map fieldWords).flatten := by
  obtain ⟨hne, h⟩ := yields_checked h
  obtain ⟨cmd, r, e₂, hcmd, ha, h⟩ := yields_hashOp (by simpa using hne) h
    fun _ _ => handleReply_some
  obtain ⟨_, hr, -, h⟩ := yields_handleReply h
  obtain ⟨-, rfl⟩ := Prog.yields_ret.mp h
  rw [hashWords, if_pos List.isEmpty_nil, mapM_entryWords] at hcmd
  obtain rfl := Option.some.inj hcmd
  rw [ha.store]
  exact Function.update_self ..

/-- A value is read back after `agc_cache_set` exactly if it is a text, and the values of a list
after `agc_cache_hashmset` exactly if all of them are: the sizes that are passed along are not
looked at. -/
theorem read_back_iff (he : e.Reached) :
    (∀ (key : CStr) (p : Passed) (expires : ℤ) (done out : Output) (e₁ e₂ e₃ : Env),
      e.Yields (agcCacheRedisSet key p.memory p.bytes.length expires) (.success, done) e₁ →
      e₂.store = e₁.store →
      e₂.Yields (agcCacheRedisGet key true true) (.success, out) e₃ →
      (p.ReadAs out ↔ p.IsText)) ∧
    ∀ (tablename : CStr) (entries : List (CStr × Passed)) (done : Output) (outs : List Output)
      (e₁ : Env), (entries.map Prod.fst).Nodup →
      e.Yields (agcCacheRedisHashmset (some tablename) (entries.map keyValue))
        (.success, done) e₁ →
      e₁.Singles (fun key => agcCacheRedisHashget (some tablename) (some key) true true)
        (entries.map Prod.fst) outs →
      (List.Forall₂ (fun entry out => entry.2.ReadAs out) entries outs ↔
        ∀ entry ∈ entries, entry.2.IsText) := by
  constructor
  · intro key p expires done out e₁ e₂ e₃ hset hstore hget
    have hout := output_of_get hget
    rw [hstore, store_of_set he hset] at hout
    rw [hout]
    exact p.readAs_found_iff key
  · intro tablename entries done outs e₁ hnodup hset hgets
    -- what each read gives is what the store has under the field
    have houts := hgets.eq_map
      (fun s key => (found key (s.hashes tablename.bytes key.bytes)).output)
      fun _ _ _ _ h => output_of_hashget h
    rw [houts, List.map_map, List.forall₂_map_right_iff, List.forall₂_same, store_of_hashmset hset]
    refine forall₂_congr fun entry hentry => ?_
    rw [Function.comp_apply, setFields_of_mem hnodup hentry]
    exact entry.2.readAs_found_iff entry.1

/-- Two operations one after the other, on the given outcomes. -/
theorem exists_yields_two {p q : Client Result} {a b : Result} (os : List Outcome)
    (h : ((do return (← p, ← q) : Client (Result × Result)).exec Env.respond e os).map Prod.fst =
      some (a, b)) :
    ∃ e₁ e₂, e.Yields p a e₁ ∧ Env.Yields e₁ q b e₂ := by
  obtain ⟨e', h⟩ := Prog.exists_yields os h
  obtain ⟨a', e₁, hp, h⟩ := Prog.Yields.of_bind h
  obtain ⟨b', e₂, hq, h⟩ := Prog.Yields.of_bind h
  obtain ⟨heq, -⟩ := Prog.yields_ret.mp h
  cases heq
  exact ⟨e₁, e₂, hp, hq⟩

/-- A text is read back, alone and from a table. -/
theorem read_back_text :
    ∃ (e e₁ e₂ e₃ : Env) (key : CStr) (p : Passed) (out out' : Output), e.Reached ∧
      e.Yields (agcCacheRedisSet key p.memory p.bytes.length 0) (.success, .untouched) e₁ ∧
      e₁.Yields (agcCacheRedisGet key true true) (.success, out) e₂ ∧
      e.Yields (agcCacheRedisHashmset (some key) [keyValue (key, p)]) (.success, .untouched) e₃ ∧
      e₃.Singles (fun k => agcCacheRedisHashget (some key) (some k) true true) [key] [out'] ∧
      p.ReadAs out ∧ p.ReadAs out' := by
  let k := CStr.ofString "k"
  let p : Passed := ⟨[104], [0]⟩
  have he := Env.reached_ready {}
  have hp : p.IsText := by decide
  obtain ⟨e₁, e₂, hset, hget⟩ := exists_yields_two (e := Env.ready {})
    (p := agcCacheRedisSet k p.memory p.bytes.length 0) (q := agcCacheRedisGet k true true)
    (a := (.success, .untouched)) (b := (.success, .string (some [104]) 1)) (answers 28)
    (by decide +kernel)
  obtain ⟨e₃, e₄, hhset, hhget⟩ := exists_yields_two (e := Env.ready {})
    (p := agcCacheRedisHashmset (some k) [keyValue (k, p)])
    (q := agcCacheRedisHashget (some k) (some k) true true)
    (a := (.success, .untouched)) (b := (.success, .string (some [104]) 1)) (answers 24)
    (by decide +kernel)
  have hsingles : e₃.Singles (fun key => agcCacheRedisHashget (some k) (some key) true true) [k]
      [.string (some [104]) 1] := .cons ⟨e₃, e₄, rfl, hhget⟩ .nil
  refine ⟨_, e₁, e₂, e₃, k, p, _, _, he, hset, hget, hhset, hsingles, ?_, ?_⟩
  · exact ((read_back_iff he).1 k p 0 _ _ e₁ e₁ e₂ hset rfl hget).mpr hp
  · have h := ((read_back_iff he).2 k [(k, p)] _ _ e₃ (by simp) hhset hsingles).mpr (by simpa)
    exact (List.forall₂_cons.mp h).1

/-- A value of one NUL is read back as an empty string. -/
theorem read_back_nul :
    ∃ (e e₁ e₂ : Env) (key : CStr) (p : Passed) (out : Output), e.Reached ∧
      e.Yields (agcCacheRedisSet key p.memory p.bytes.length 0) (.success, .untouched) e₁ ∧
      e₁.Yields (agcCacheRedisGet key true true) (.success, out) e₂ ∧
      out ≠ .string (some p.bytes) p.bytes.length := by
  let k := CStr.ofString "k"
  obtain ⟨e₁, e₂, hset, hget⟩ := exists_yields_two (e := Env.ready {})
    (p := agcCacheRedisSet k [0, 0] 1 0) (q := agcCacheRedisGet k true true)
    (a := (.success, .untouched)) (b := (.success, .string (some []) 0)) (answers 28)
    (by decide +kernel)
  exact ⟨_, e₁, e₂, k, ⟨[0], [0]⟩, _, Env.reached_ready {}, hset, hget, by decide⟩

end ReadBack

end Redis
