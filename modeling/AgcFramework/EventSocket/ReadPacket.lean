import AgcFramework.Lib.Buffer
import AgcFramework.Lib.Decimal
import AgcFramework.Event.Header

/-!
# Reading packets from the event socket

A packet is a block of lines that an empty line ends, and a body whose length stands in a line of
the block. The block is received byte by byte into a buffer that grows; a pointer into the buffer
is the rest of the buffer. What the socket is going to deliver is a list of receipts. The sending
of queued events while nothing is received is left out.

## Main definitions

* `agcSocketRecv`: a receipt
* `Reader`, `readStep`, `readBlock`: the buffer and the loop that fills it
* `parseBlock`: the lines of the block, and the body
* `readPacket`: `read_packet` of `eventsocket_conn.c`
-/

open Exec Decimal

/-! ## The socket -/

/-- What the socket has for a receipt: nothing yet, bytes, or an end. -/
inductive Recv
  | wouldBlock
  | data (bs : List Byte)
  | closed

/-- What the socket is going to deliver. -/
abbrev Socket := List Recv

/-- `agc_socket_recv` for at most `len` bytes: the status, the bytes and what is left. -/
def agcSocketRecv (len : ℕ) : Socket → AgcStatus × List Byte × Socket
  | [] => (.brk, [], [])
  | .wouldBlock :: s => (.brk, [], s)
  | .closed :: s => (.generr, [], s)
  | .data bs :: s =>
    if bs.length ≤ len then (.success, bs, s)
    else (.success, bs.take len, .data (bs.drop len) :: s)

/-! ## The block -/

/-- `EVTSKT_BLOCK_LEN`. -/
def EVTSKT_BLOCK_LEN : ℕ := 2048

/-- `EVTSKT_MAX_LEN`. -/
def EVTSKT_MAX_LEN : ℕ := 10485760

def CR : Byte := 13
def LF : Byte := 10

/-- A byte that ends a line. -/
def isEol (b : Byte) : Bool := b = CR ∨ b = LF

/-- The locals of `read_packet` that the receiving loop changes; the length of `mbuf` is
`buf_len`. -/
structure Reader where
  mbuf : List Byte
  ptr : ℕ
  bytes : ℕ
  crcount : ℕ

namespace Reader

def init : Reader := ⟨List.replicate EVTSKT_BLOCK_LEN 0, 0, 0, 0⟩

/-- The growth of the buffer when only its last byte is free. -/
def grow (r : Reader) : Reader :=
  if r.bytes = r.mbuf.length - 1 then
    { r with mbuf := r.mbuf.take r.bytes ++
        List.replicate (r.mbuf.length + EVTSKT_BLOCK_LEN - r.bytes) 0 }
  else r

/-- The count of line ends, a `uint8_t`, after a byte. -/
def countEol (crcount : ℕ) (b : Byte) : ℕ :=
  if b = LF then (crcount + 1) % 256 else if b ≠ CR then 0 else crcount

/-- What the loop does with a received byte, and whether the block is complete. -/
def accept (r : Reader) (b : Byte) : Exec (Reader × Bool) :=
  if r.ptr < r.mbuf.length then
    let mbuf := r.mbuf.set r.ptr b
    let bytes := r.bytes + 1
    -- line ends in front of a packet are dropped
    if mbuf.head?.any isEol then pure ({ r with mbuf := mbuf.set 0 0, ptr := 0, bytes := 0 }, false)
    else
      let crcount := countEol r.crcount b
      let crcount := if EVTSKT_MAX_LEN ≤ bytes then 2 else crcount
      pure (⟨mbuf, r.ptr + 1, bytes, crcount⟩, crcount = 2)
  else .error .fault

end Reader

/-- What an iteration of the receiving loop leads to. -/
inductive ReadStep
  | more (s : Socket) (r : Reader)
  | gaveUp (s : Socket)
  | block (s : Socket) (r : Reader)

/-- An iteration of the receiving loop. -/
def readStep (s : Socket) (r : Reader) : Exec ReadStep :=
  let r := r.grow
  let (status, data, s) := agcSocketRecv 1 s
  if status ≠ .brk ∧ status ≠ .success then pure (.gaveUp s)
  else
    match data with
    | [] => pure (.more s r)
    | b :: _ => do
      let (r, complete) ← r.accept b
      pure (if complete then .block s r else .more s r)

/-- The receiving loop; none when it gives up. -/
def readBlock : ℕ → Socket → Reader → Exec (Option Reader × Socket)
  | 0, _, _ => .error .fuel
  | fuel + 1, s, r => do
    match ← readStep s r with
    | .more s r => readBlock fuel s r
    | .gaveUp s => pure (none, s)
    | .block s r => pure (some r, s)

/-! ## The lines -/

/-- The first carriage return of the string, or else its first line feed. -/
def findEol (s : List Byte) : Exec (Option (List Byte)) := do
  match ← strchr CR s with
  | some p => pure (some p)
  | none => strchr LF s

/-- The start of the next line. -/
def nextLine (cur : List Byte) : Exec (Option (List Byte)) := do
  let next ← findEol cur
  pure (next.map fun p => p.dropWhile isEol)

/-- `strip_cr`. What it cuts off is in front of the next line. -/
def stripCr (s : List Byte) : Exec CStr := do
  match ← findEol s with
  | some p => pure (CStr.ofBuffer (s.take (s.length - p.length)))
  | none => pure (CStr.ofBuffer s)

/-- A line with a colon is cut into a name and a value, without the spaces in front of it. -/
def splitHeader (var : CStr) : Option (CStr × CStr) :=
  match var.bytes.dropWhile (· ≠ 58) with
  | [] => none
  | _ :: val =>
    some (CStr.ofBuffer (var.bytes.takeWhile (· ≠ 58)), CStr.ofBuffer (val.dropWhile (· = 32)))

/-- The loop that receives the body, `clen` more bytes behind `body`. -/
def readBody : ℕ → Socket → ℕ → List Byte → Exec (Option (List Byte) × Socket)
  | 0, _, _, _ => .error .fuel
  | fuel + 1, s, clen, body =>
    if clen = 0 then pure (some body, s)
    else
      let (status, data, s) := agcSocketRecv clen s
      if status ≠ .brk ∧ status ≠ .success then pure (none, s)
      else readBody fuel s (clen - data.length) (body ++ data)

/-- `agc_event_add_body` with the format `%s`; an empty text is refused by `agc_vasprintf`. -/
def agcEventAddBody (e : Event) (text : CStr) : Event :=
  if text.bytes.isEmpty then e else { e with body := some text }

/-- The body of length `clen`, if it is positive. The result says whether it was received. -/
def readContent (fuel : ℕ) (e : Event) (clen : ℤ) (s : Socket) : Exec (Event × Bool × Socket) :=
  if 0 < clen then do
    checkInt (clen.toNat + 1)
    match ← readBody fuel s clen.toNat [] with
    | (none, s) => pure (e, false, s)
    | (some body, s) => pure (agcEventAddBody e (CStr.ofBuffer (body ++ [0])), true, s)
  else pure (e, true, s)

/-- What is done with a line behind the first one. -/
def handleLine (fuel : ℕ) (e : Event) (var : CStr) (s : Socket) : Exec (Event × Bool × Socket) :=
  if var.bytes.isEmpty then pure (e, true, s)
  else
    match splitHeader var with
    | none => pure (e, true, s)
    | some (name, val) => do
      let (e, _) ← agcEventAddHeaderString fuel e name (some val)
      if name.SameName (CStr.ofString "content-length") then readContent fuel e (atoi val.bytes) s
      else pure (e, true, s)

/-- The loop over the lines behind the first one. -/
def parseLines : ℕ → Option (List Byte) → Event → Socket → Exec (Event × Bool × Socket)
  | 0, _, _, _ => .error .fuel
  | _ + 1, none, e, s => pure (e, true, s)
  | fuel + 1, some cur, e, s => do
    let next ← nextLine cur
    let var ← stripCr cur
    let (e, ok, s) ← handleLine fuel e var s
    if ok then parseLines fuel next e s else pure (e, false, s)

/-- `EVENT_ID_EVENTSOCKET`. -/
def EVENT_ID_EVENTSOCKET : ℤ := 1

/-- The event of a block: the whole block is its command, and the lines behind the first one are
its headers. -/
def parseBlock (fuel : ℕ) (mem : Addr → Option Header) (brk : Addr) (mbuf : List Byte)
    (s : Socket) : Exec (Event × Bool × Socket) := do
  let next ← nextLine mbuf
  let e := agcEventCreate mem brk EVENT_ID_EVENTSOCKET 0
  let (e, _) ← agcEventAddHeaderString fuel e (CStr.ofString "command") (some (CStr.ofBuffer mbuf))
  parseLines fuel next e s

/-- `read_packet`, while the module is not shut down: the status, the event and what is left in
the socket. -/
def readPacket (fuel : ℕ) (mem : Addr → Option Header) (brk : Addr) (s : Socket) :
    Exec ((AgcStatus × Option Event) × Socket) := do
  match ← readBlock fuel s Reader.init with
  | (none, s) => pure ((.false, none), s)
  | (some r, s) =>
    let (e, ok, s) ← parseBlock fuel mem brk r.mbuf s
    pure ((if ok then .success else .false, some e), s)
