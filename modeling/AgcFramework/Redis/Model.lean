import AgcFramework.Lib.Decimal
import AgcFramework.Lib.Prog
import AgcFramework.Types

/-!
# The Redis cache

`mod_redis` keeps a pool of connections in a queue. Each of the fourteen cache operations takes a
connection from the queue, talks to the server through the connection's context, and puts the
connection back. The operations are programs over the calls they make: those of the queue, of the
connection's fields, of the clocks and of the client library. What a call does and answers is left
to the environment.

The assignments to the fields of a connection that stand next to each other in the source are one
`write`: only the thread that took the connection from the queue can see them. The texts that are
logged are left out; what is read to make them is not. Where the process dies, a program makes the
call `fault`, which nothing answers.

## Main definitions

* `Call`, `Client`: the calls, and the programs over them
* `createContext`, `releaseContext`, `checkConnection`, `getConnection`, `freeConnection`
* `agcCacheRedisSet`, ..., `agcCacheRedisHashdel`: the operations
* `Op`, `Op.body`: the fourteen operations with their arguments
-/

namespace Redis

/-- The address of an `agc_redis_connection_t`. -/
abbrev Conn := ℕ

/-- The address of a `redisClusterContext`. -/
abbrev Context := ℕ

/-- The address of a `redisReply`. -/
abbrev Reply := ℕ

/-- `agc_redis_connection_t`. The default is the zeroed memory of `agc_memory_alloc`. -/
structure Connection where
  connected : Bool := false
  cc : Option Context := none
  connectTime : ℕ := 0
  deriving DecidableEq, Repr

/-- The types of a reply. -/
inductive ReplyType
  | string
  | array
  | integer
  | nil
  | status
  | error
  deriving DecidableEq, Repr

/-- What the operations do with a context. A command is given by its words. -/
inductive Use
  | setOptionAddNodes
  | setOptionRouteUseSlots
  | connect2
  | err
  | errstr
  | appendCommand (words : List (List Byte))
  | command (words : List (List Byte))
  | commandArgv (words : List (List Byte))
  | getReply
  | reset

/-- What `redisClusterGetReply` returns: `REDIS_OK` with a reply or NULL, or another status, and
whether it has left the `err` of the context other than 0. -/
inductive GetReply
  | ok (reply : Option Reply)
  | failed (err : Bool)

/-- The reply, NULL unless the call gave one. -/
def GetReply.reply : GetReply → Option Reply
  | ok reply => reply
  | failed _ => none

/-- What a use of a context gives: the flag for `err`, whether the result is `REDIS_OK`, the
reply. -/
abbrev Use.Answer : Use → Type
  | .err => Bool
  | .appendCommand _ => Bool
  | .command _ => Option Reply
  | .commandArgv _ => Option Reply
  | .getReply => GetReply
  | _ => Unit

/-- The calls. -/
inductive Call
  /-- Reads `SYSTEM_RUNNING`. -/
  | systemRunning
  /-- `agc_memory_alloc` of a connection. -/
  | allocConnection
  /-- `agc_queue_trypop(REDIS_CONTEXT_QUEUE, ..)`. -/
  | trypop
  /-- `agc_queue_push(REDIS_CONTEXT_QUEUE, ..)`. -/
  | push (c : Conn)
  /-- Reads the fields of a connection. -/
  | read (c : Conn)
  /-- Assigns the fields of a connection. -/
  | write (c : Conn) (value : Connection)
  /-- `agc_time_now`. -/
  | timeNow
  /-- `agc_timer_curtime`. -/
  | curtime
  /-- `redisClusterContextInit`. -/
  | contextInit
  /-- A use of a context, through the pointer the operation has. -/
  | use (cc : Option Context) (u : Use)
  /-- `redisClusterFree`. -/
  | freeContext (cc : Option Context)
  /-- Reads `reply->type`. -/
  | replyType (r : Reply)
  /-- Reads `reply->str` and `reply->len`. -/
  | replyStr (r : Reply)
  /-- Reads `reply->integer`. -/
  | replyInteger (r : Reply)
  /-- Reads `reply->element[i]->str` and `reply->element[i]->len`. -/
  | replyElement (r : Reply) (i : ℕ)
  /-- `freeReplyObject`. -/
  | freeReply (r : Option Reply)
  /-- Reads whether `runtime.hard_log_level` lets errors through to the log. -/
  | logsErrors
  /-- The process dies. -/
  | fault

/-- The answers to a call. A string is NULL or a buffer of `len` bytes. -/
abbrev Call.Answer : Call → Type
  | .systemRunning => Bool
  | .allocConnection => Conn
  | .trypop => Option Conn
  | .read _ => Connection
  | .timeNow => ℕ
  | .curtime => ℕ
  | .contextInit => Option Context
  | .use _ u => u.Answer
  | .replyType _ => ReplyType
  | .replyStr _ => Option (List Byte)
  | .replyInteger _ => ℤ
  | .replyElement _ _ => Option (List Byte)
  | .logsErrors => Bool
  | .fault => Empty
  | _ => Unit

/-- The programs of the module. -/
abbrev Client (α : Type) := Prog Call Call.Answer α

/-! ## The calls as programs -/

abbrev systemRunning : Client Bool := Prog.call .systemRunning .ret
abbrev allocConnection : Client Conn := Prog.call .allocConnection .ret
abbrev trypop : Client (Option Conn) := Prog.call .trypop .ret
abbrev push (c : Conn) : Client Unit := Prog.call (.push c) .ret
abbrev read (c : Conn) : Client Connection := Prog.call (.read c) .ret
abbrev write (c : Conn) (value : Connection) : Client Unit := Prog.call (.write c value) .ret
abbrev agcTimeNow : Client ℕ := Prog.call .timeNow .ret
abbrev agcTimerCurtime : Client ℕ := Prog.call .curtime .ret
abbrev contextInit : Client (Option Context) := Prog.call .contextInit .ret
abbrev use (cc : Option Context) (u : Use) : Client u.Answer := Prog.call (.use cc u) .ret
abbrev freeContext (cc : Option Context) : Client Unit := Prog.call (.freeContext cc) .ret
abbrev replyType (r : Reply) : Client ReplyType := Prog.call (.replyType r) .ret
abbrev replyStr (r : Reply) : Client (Option (List Byte)) := Prog.call (.replyStr r) .ret
abbrev replyInteger (r : Reply) : Client ℤ := Prog.call (.replyInteger r) .ret
abbrev replyElement (r : Reply) (i : ℕ) : Client (Option (List Byte)) :=
  Prog.call (.replyElement r i) .ret
abbrev freeReply (r : Option Reply) : Client Unit := Prog.call (.freeReply r) .ret
abbrev logsErrors : Client Bool := Prog.call .logsErrors .ret
abbrev fault {α : Type} : Client α := Prog.call .fault Empty.elim

/-! ## The pool -/

def maxPoolConnections : ℕ := 32
def minPoolConnections : ℕ := 2
def maxPoolRetries : ℕ := 5

/-- `CONNECTION_POOL_SIZE` after `load_configuration` has read the given `poolsize` entries. -/
def connectionPoolSize (entries : List ℕ) : ℕ :=
  entries.foldl (fun _ n => max minPoolConnections (min n maxPoolConnections)) 0

def nextConnectTime : Client ℕ := do
  let now ← agcTimeNow
  return now / 1000 + 10000

/-- The context that `create_context` finds in the connection is freed. -/
def dropContext (c : Conn) : Client Unit := do
  let connection ← read c
  if connection.cc.isSome then
    freeContext connection.cc
    write c { connection with cc := none }

def createContext (c : Conn) : Client AgcStatus := do
  dropContext c
  match ← contextInit with
  | none => return .generr
  | some cc =>
    use (some cc) .setOptionAddNodes
    use (some cc) .setOptionRouteUseSlots
    use (some cc) .connect2
    if ← use (some cc) .err then
      use (some cc) .errstr
      let time ← nextConnectTime
      -- the connection loses its context before the context is freed
      write c { connected := false, cc := none, connectTime := time }
      freeContext (some cc)
      return .generr
    else
      write c { connected := true, cc := some cc, connectTime := 0 }
      return .success

/-- `if (connection->cc) redisClusterFree(connection->cc);`. -/
def freeAnyContext (c : Conn) : Client Unit := do
  let connection ← read c
  if connection.cc.isSome then freeContext connection.cc

def releaseContext (c : Conn) : Client Unit := do
  freeAnyContext c
  let time ← nextConnectTime
  write c { connected := false, cc := none, connectTime := time }

def createConnection : Client AgcStatus := do
  if ← systemRunning then
    let c ← allocConnection
    -- the connection goes into the pool whether or not it could connect
    let _ ← createContext c
    push c
    return .success
  else
    return .success

/-- `initial_connection_pool` for the given number of connections. -/
def initialConnectionPool : ℕ → Client AgcStatus
  | 0 => return .success
  | n + 1 => do
    if (← createConnection) = .success then initialConnectionPool n else return .generr

/-- The loop of `get_connection`, with the number of retries that are left. -/
def trypopRetries : ℕ → Client (Option Conn)
  | 0 => trypop
  | n + 1 => do
    match ← trypop with
    | some c => return some c
    | none => trypopRetries n

def checkConnection (c : Conn) : Client Bool := do
  let connection ← read c
  if connection.connected then
    return true
  else
    let now ← agcTimerCurtime
    -- the comparison is the wrong way round
    if connection.connectTime > now / 1000 then
      return (← createContext c) = .success
    else
      return false

def getConnection : Client (Option Conn) := do
  if ← systemRunning then
    match ← trypopRetries maxPoolRetries with
    | none => return none
    | some c =>
      if ← checkConnection c then
        return some c
      else
        push c
        return none
  else
    return none

/-- A connection whose context has an error loses it. -/
def releaseOnError (c : Conn) : Client Unit := do
  let connection ← read c
  match connection.cc with
  | none => pure ()
  | some cc => if ← use (some cc) .err then releaseContext c

def freeConnection (c : Conn) : Client Unit := do
  if ← systemRunning then
    releaseOnError c
    push c
  else
    releaseContext c

/-! ## Replies -/

/-- An entry of a `keyvalues_t` list. A NULL list is the empty one. -/
structure KeyValue where
  key : CStr
  value : Option (List Byte)
  valueLen : ℕ
  deriving DecidableEq

/-- What an operation stores through its output parameter. -/
inductive Output
  | untouched
  | string (value : Option (List Byte)) (len : ℕ)
  | integer (value : ℤ)
  | list (entries : List KeyValue)
  deriving DecidableEq

/-- The status an operation returns, and its output. -/
abbrev Result := AgcStatus × Output

/-- `strndup` of a buffer: the copy ends at a NUL. -/
def strndup (buf : List Byte) : List Byte := (CStr.ofBuffer buf).bytes

/-- `get_strvalue`, for output parameters that are not NULL: the value and its length. -/
def getStrvalue (r : Reply) : Client (Option (List Byte) × ℕ) := do
  if (← replyType r) = .string then
    let str ← replyStr r
    -- the length is that of the reply, also when the copy is shorter
    return (str.map strndup, (str.getD []).length)
  else
    return (none, 0)

/-- `get_intvalue`. The number is cut to an `int`. -/
def getIntvalue (r : Reply) (result : Bool) : Client Output := do
  if result then
    if (← replyType r) = .integer then
      let n ← replyInteger r
      return .integer (n.bmod (2 ^ 32))
    else
      return .untouched
  else
    return .untouched

def logError (reply : Option Reply) : Client Unit := do
  match reply with
  | none => pure ()
  | some r =>
    if (← replyType r) = .error then
      let _ ← replyStr r

/-- One round of the loop of `agc_redis_multireplies`: whether the loop goes on. -/
def nextReply (c : Conn) : Client Bool := do
  match ← use (← read c).cc .getReply with
  | .failed err =>
    -- the log line formats the `int` `cc->err` with `%s`; only 0, as NULL, can be printed
    if (← logsErrors) && err then fault else return false
  | .ok none => return false
  | .ok (some r) =>
    if (← replyType r) = .error then
      let _ ← replyStr r
      freeReply (some r)
      return false
    else
      freeReply (some r)
      return true

/-- The loop of `agc_redis_multireplies`. -/
def multirepliesLoop (c : Conn) : ℕ → Client AgcStatus
  | 0 => return .success
  | n + 1 => do
    if ← nextReply c then multirepliesLoop c n else return .generr

/-- `if (connection->cc) redisClusterReset(connection->cc);`. -/
def resetContext (c : Conn) : Client Unit := do
  let connection ← read c
  match connection.cc with
  | none => pure ()
  | some cc => use (some cc) .reset

def agcRedisMultireplies (c : Conn) (replies : ℕ) : Client AgcStatus := do
  let status ← multirepliesLoop c replies
  resetContext c
  return status

/-- The key and the value of an entry, each up to its NUL; a NULL value has no `strlen`. -/
def entryWords (kv : KeyValue) : Option (List (List Byte)) :=
  kv.value.map fun value => [kv.key.bytes, strndup value]

/-- The words of the command that `agc_redis_hashargv` sends: the bytes of each string up to its
NUL. -/
def hashWords (cmd : String) (tablename : CStr) (keys : List CStr) (keyvalues : List KeyValue) :
    Option (List (List Byte)) := do
  let args ← if keys.isEmpty then (keyvalues.mapM entryWords).map List.flatten
    else some (keys.map CStr.bytes)
  return (CStr.ofString cmd).bytes :: tablename.bytes :: args

/-- `agc_redis_hashargv`: of the two lists one is NULL. -/
def agcRedisHashargv (c : Conn) (cmd : String) (tablename : CStr) (keys : List CStr)
    (keyvalues : List KeyValue) : Client (Option Reply) := do
  if keys.isEmpty = keyvalues.isEmpty then
    return none
  else
    match hashWords cmd tablename keys keyvalues with
    | none => fault
    | some words => use (← read c).cc (.commandArgv words)

/-! ## The operations -/

/-- The words of a formatted command. -/
def words (cmd : String) (args : List (List Byte)) : List (List Byte) :=
  (CStr.ofString cmd).bytes :: args

/-- Every operation begins with `get_connection` and fails without a connection. -/
def withConnection (body : Conn → Client Result) : Client Result := do
  match ← getConnection with
  | none => return (.generr, .untouched)
  | some c => body c

/-- The end of most operations: a reply other than NULL and an error makes it a success. -/
def handleReply (output : Reply → Client Output) (reply : Option Reply) : Client Result := do
  match reply with
  | none =>
    logError reply
    freeReply reply
    return (.generr, .untouched)
  | some r =>
    if (← replyType r) = .error then
      logError reply
      freeReply reply
      return (.generr, .untouched)
    else
      let out ← output r
      freeReply reply
      return (.success, out)

/-- An operation of one command: the connection is put back before the reply is looked at. -/
def commandOp (cmd : List (List Byte)) (output : Reply → Client Output) : Client Result :=
  withConnection fun c => do
    let reply ← use (← read c).cc (.command cmd)
    freeConnection c
    handleReply output reply

/-- An operation of one command that is given by its arguments. -/
def hashOp (cmd : String) (tablename : CStr) (keys : List CStr) (keyvalues : List KeyValue)
    (handle : Option Reply → Client Result) : Client Result :=
  withConnection fun c => do
    let reply ← agcRedisHashargv c cmd tablename keys keyvalues
    freeConnection c
    handle reply

/-- An output parameter that is not there or not written. -/
def noOutput (_ : Reply) : Client Output := return .untouched

/-- The value and the length of a string reply. -/
def strOutput (r : Reply) : Client Output := do
  let (value, len) ← getStrvalue r
  return .string value len

/-- An operation that checks its parameters first. -/
def checked (valid : Bool) (op : Client Result) : Client Result :=
  if valid then op else return (.generr, .untouched)

/-- The appended commands of `agc_cache_redis_set`: the number of replies it asks for. -/
def appendSet (c : Conn) (key : CStr) (value : List Byte) (expires : ℤ) : Client ℕ := do
  if ← use (← read c).cc (.appendCommand (words "SET" [key.bytes, strndup value])) then
    if expires > 0 then
      if ← use (← read c).cc
          (.appendCommand (words "EXPIRE" [key.bytes, Decimal.decimalInt expires])) then
        return 2
      else
        let _ ← use (← read c).cc .errstr
        return 2
    else
      return 1
  else
    let _ ← use (← read c).cc .errstr
    return 1

/-- `agc_cache_redis_set`. The size of the value is not looked at. -/
def agcCacheRedisSet (key : CStr) (value : List Byte) (_size expires : ℤ) : Client Result :=
  withConnection fun c => do
    let cmds ← appendSet c key value expires
    let status ← agcRedisMultireplies c cmds
    freeConnection c
    return (status, .untouched)

def agcCacheRedisGet (key : CStr) (result len : Bool) : Client Result :=
  checked (result && len) (commandOp (words "GET" [key.bytes]) strOutput)

def agcCacheRedisDelete (key : CStr) : Client Result :=
  commandOp (words "DEL" [key.bytes]) noOutput

/-- A command appended for each element of a list, whatever the results. A command that cannot be
formatted ends the process. -/
def appendAll (c : Conn) : List (Option (List (List Byte))) → Client Unit
  | [] => return
  | none :: _ => fault
  | some cmd :: cmds => do
    let _ ← use (← read c).cc (.appendCommand cmd)
    appendAll c cmds

/-- The commands of a pipeline are appended, their replies are asked for. -/
def pipelineOp (cmds : List (Option (List (List Byte)))) : Client Result :=
  withConnection fun c => do
    appendAll c cmds
    let status ← agcRedisMultireplies c cmds.length
    freeConnection c
    return (status, .untouched)

/-- The command of an entry; a value that is NULL is no string for `%s`. -/
def setCommand (kv : KeyValue) : Option (List (List Byte)) :=
  kv.value.map fun value => words "SET" [kv.key.bytes, strndup value]

def agcCacheRedisSetPipeline (keyvalues : List KeyValue) : Client Result :=
  pipelineOp (keyvalues.map setCommand)

/-- The replies of `agc_cache_redis_get_pipeline`: the list made of those before the first that is
missing or an error. -/
def collectReplies (c : Conn) : List CStr → Client (AgcStatus × List KeyValue)
  | [] => return (.success, [])
  | key :: keys => do
    -- the result of `redisClusterGetReply` is not looked at
    let got ← use (← read c).cc .getReply
    match got.reply with
    | none =>
      logError none
      freeReply none
      return (.generr, [])
    | some r =>
      if (← replyType r) = .error then
        logError (some r)
        freeReply (some r)
        return (.generr, [])
      else
        let (value, len) ← getStrvalue r
        freeReply (some r)
        let (status, entries) ← collectReplies c keys
        return (status, { key, value, valueLen := len } :: entries)

def agcCacheRedisGetPipeline (keys : List CStr) (keyvalues : Bool) : Client Result :=
  checked (!keys.isEmpty && keyvalues) <| withConnection fun c => do
    appendAll c (keys.map fun key => some (words "GET" [key.bytes]))
    let (status, entries) ← collectReplies c keys
    resetContext c
    freeConnection c
    return (status, .list entries)

def agcCacheRedisDeletePipeline (keys : List CStr) : Client Result :=
  checked (!keys.isEmpty) (pipelineOp (keys.map fun key => some (words "DEL" [key.bytes])))

def agcCacheRedisExpire (key : Option CStr) (expires : ℤ) : Client Result :=
  match key with
  | none => return (.generr, .untouched)
  | some key =>
    checked (expires > 0)
      (commandOp (words "EXPIRE" [key.bytes, Decimal.decimalInt expires]) noOutput)

/-- `agc_cache_redis_incr` and `agc_cache_redis_decr`. -/
def counterOp (cmd : String) (key : Option CStr) (value : Bool) : Client Result :=
  match key with
  | none => return (.generr, .untouched)
  | some key => commandOp (words cmd [key.bytes]) (getIntvalue · value)

def agcCacheRedisIncr (key : Option CStr) (value : Bool) : Client Result :=
  counterOp "INCR" key value

def agcCacheRedisDecr (key : Option CStr) (value : Bool) : Client Result :=
  counterOp "DECR" key value

/-- Unlike the other operations, `agc_cache_redis_hashset` logs the error of the context. -/
def logNullReply (c : Conn) (reply : Option Reply) : Client Unit := do
  if reply.isNone then
    let _ ← use (← read c).cc .errstr

def agcCacheRedisHashset (tablename key : Option CStr) (value : Option (List Byte)) :
    Client Result :=
  match tablename, key, value with
  | some tablename, some key, some value => withConnection fun c => do
    let reply ← use (← read c).cc
      (.command (words "HSET" [tablename.bytes, key.bytes, strndup value]))
    logNullReply c reply
    freeConnection c
    handleReply noOutput reply
  | _, _, _ => return (.generr, .untouched)

def agcCacheRedisHashget (tablename key : Option CStr) (value len : Bool) : Client Result :=
  match tablename, key with
  | some tablename, some key =>
    checked (value && len) (commandOp (words "HGET" [tablename.bytes, key.bytes]) strOutput)
  | _, _ => return (.generr, .untouched)

def agcCacheRedisHashmset (tablename : Option CStr) (keyvalues : List KeyValue) :
    Client Result :=
  match tablename with
  | none => return (.generr, .untouched)
  | some tablename =>
    checked (!keyvalues.isEmpty) (hashOp "HMSET" tablename [] keyvalues (handleReply noOutput))

/-- The entries of `agc_cache_redis_hashmget`: the elements of the reply from the `i`-th on. -/
def hashEntries (r : Reply) : ℕ → List CStr → Client (List KeyValue)
  | _, [] => return []
  | i, key :: keys => do
    let str ← replyElement r i
    let entries ← hashEntries r (i + 1) keys
    -- the copy is made without a test: no byte of a NULL of length 0 is read, the copy is empty
    return { key, value := some (strndup (str.getD [])), valueLen := (str.getD []).length } ::
      entries

/-- The reply of `agc_cache_redis_hashmget`. It is freed before `log_error` gets it. -/
def handleArray (keys : List CStr) (reply : Option Reply) : Client Result := do
  match reply with
  | none =>
    freeReply reply
    logError reply
    return (.generr, .untouched)
  | some r =>
    if (← replyType r) = .array then
      let entries ← hashEntries r 0 keys
      freeReply reply
      return (.success, .list entries)
    else
      freeReply reply
      logError reply
      return (.generr, .untouched)

def agcCacheRedisHashmget (tablename : Option CStr) (keys : List CStr) : Client Result :=
  match tablename with
  | none => return (.generr, .untouched)
  | some tablename =>
    checked (!keys.isEmpty) (hashOp "HMGET" tablename keys [] (handleArray keys))

def agcCacheRedisHashdel (tablename : Option CStr) (keys : List CStr) : Client Result :=
  match tablename with
  | none => return (.generr, .untouched)
  | some tablename =>
    checked (!keys.isEmpty) (hashOp "HDEL" tablename keys [] (handleReply noOutput))

/-- The fourteen operations of `agc_cache_routine`. -/
inductive Op
  | set (key : CStr) (value : List Byte) (size expires : ℤ)
  | get (key : CStr) (result len : Bool)
  | delete (key : CStr)
  | setPipeline (keyvalues : List KeyValue)
  | getPipeline (keys : List CStr) (keyvalues : Bool)
  | deletePipeline (keys : List CStr)
  | expire (key : Option CStr) (expires : ℤ)
  | incr (key : Option CStr) (value : Bool)
  | decr (key : Option CStr) (value : Bool)
  | hashset (tablename key : Option CStr) (value : Option (List Byte))
  | hashget (tablename key : Option CStr) (value len : Bool)
  | hashmset (tablename : Option CStr) (keyvalues : List KeyValue)
  | hashmget (tablename : Option CStr) (keys : List CStr)
  | hashdel (tablename : Option CStr) (keys : List CStr)

def Op.body : Op → Client Result
  | set key value size expires => agcCacheRedisSet key value size expires
  | get key result len => agcCacheRedisGet key result len
  | delete key => agcCacheRedisDelete key
  | setPipeline keyvalues => agcCacheRedisSetPipeline keyvalues
  | getPipeline keys keyvalues => agcCacheRedisGetPipeline keys keyvalues
  | deletePipeline keys => agcCacheRedisDeletePipeline keys
  | expire key expires => agcCacheRedisExpire key expires
  | incr key value => agcCacheRedisIncr key value
  | decr key value => agcCacheRedisDecr key value
  | hashset tablename key value => agcCacheRedisHashset tablename key value
  | hashget tablename key value len => agcCacheRedisHashget tablename key value len
  | hashmset tablename keyvalues => agcCacheRedisHashmset tablename keyvalues
  | hashmget tablename keys => agcCacheRedisHashmget tablename keys
  | hashdel tablename keys => agcCacheRedisHashdel tablename keys

end Redis
