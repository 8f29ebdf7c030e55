import AgcFramework.Event.Bind
import AgcFramework.Event.Dup
import AgcFramework.Event.Json
import AgcFramework.EventSocket.Framing

/-!
# Subscriptions of event-socket connections

A client subscribes with the command `event <name> <name> ...`. The command is looked for in the
header `command` of the event that `read_packet` makes of a packet: that is the text of the whole
packet, unless a later line of the packet gives a header of this name. It is cut at the end of its
first line; every name that is registered marks an entry of the connection's list, the name of
`EVENT_ID_ALL` all of them. An event is cloned into the queue of every connection whose list has its
id.

## Main definitions

* `agcEventGetId`, `CStr.stripCr`, `parseCommand`, `handleEvent`: the functions of the source
* `EventCommand`: a header `command` with the command, its lines ended by LF
* `EventListener.Reaches`: the listener after a sequence of packets, deliveries and sendings

## Main results

* `EventCommand.parse_spec`: what a connection is subscribed to after a command
* `EventCommand.readPacket_command`: the packets whose first line is the command have it as header
* `EventListener.routing`: who receives an event
-/

open Exec Chain Event

/-- `MAX_QUEUE_LEN`. -/
def MAX_QUEUE_LEN : ℕ := 100000

/-- `agc_event_get_id`: the first id that is registered under the name. -/
def agcEventGetId (templates : EventTemplates) (eventName : CStr) : Option ℕ :=
  (List.range EVENT_ID_LIMIT.toNat).find? fun i =>
    match templates i with
    | some name => decide (eventName.SameName name)
    | none => false

/-- An `event_connect_t`. -/
structure EventConnect where
  hasEvent : Bool
  isRunning : Bool
  eventList : ℕ → Bool
  eventQueue : List Event

/-! ## Commands -/

/-- What `strip_cr` leaves of a string: the text up to its first CR, or up to its first LF if there
is no CR. -/
def CStr.stripCr (s : CStr) : List Byte :=
  if CR ∈ s.bytes then s.bytes.takeWhile (· ≠ CR) else s.bytes.takeWhile (· ≠ LF)

theorem take_length_dropWhile (q : Byte → Bool) (bs rest : List Byte) :
    (bs ++ rest).take ((bs ++ rest).length - (bs.dropWhile q ++ rest).length) =
      bs.takeWhile q := by
  have hsplit := List.takeWhile_append_dropWhile (p := q) (l := bs)
  have hlen : (bs ++ rest).length - (bs.dropWhile q ++ rest).length = (bs.takeWhile q).length := by
    have := congrArg List.length hsplit
    simp only [List.length_append] at this ⊢
    omega
  have happ : bs ++ rest = bs.takeWhile q ++ (bs.dropWhile q ++ rest) := by
    rw [← List.append_assoc, hsplit]
  rw [hlen, happ]
  exact List.take_left

/-- The function on strings is the one on the buffers that hold them. -/
theorem stripCr_terminated (s : CStr) (pad : List Byte) :
    stripCr (s.bytes ++ 0 :: pad) = .ok (CStr.ofBuffer s.stripCr) := by
  have hcr := strchr_terminated (b := CR) (by decide) s pad
  have hlf := strchr_terminated (b := LF) (by decide) s pad
  by_cases h : CR ∈ s.bytes
  · rw [if_pos h] at hcr
    simp only [stripCr, findEol, hcr, Exec.ok_bind, Exec.pure_eq_ok, take_length_dropWhile,
      CStr.stripCr, if_pos h]
  · rw [if_neg h] at hcr
    by_cases h' : LF ∈ s.bytes
    · rw [if_pos h'] at hlf
      simp only [stripCr, findEol, hcr, hlf, Exec.ok_bind, Exec.pure_eq_ok, take_length_dropWhile,
        CStr.stripCr, if_neg h]
    · -- a string of one line stays as it is
      rw [if_neg h'] at hlf
      have hall : s.bytes.takeWhile (· ≠ LF) = s.bytes := by
        refine List.takeWhile_eq_self_iff.mpr fun b hb => ?_
        simp only [decide_eq_true_eq]
        rintro rfl
        exact h' hb
      simp only [stripCr, findEol, hcr, hlf, Exec.ok_bind, Exec.pure_eq_ok, CStr.ofBuffer_bytes,
        CStr.stripCr, if_neg h, hall, CStr.ofBuffer_self]

/-- `!strncasecmp(cmd, word, strlen(word))`. -/
def startsWith (cmd : List Byte) (word : CStr) : Bool :=
  (cmd.take word.bytes.length).map CStr.toLower = word.fold

/-- An iteration of the loop over the names: the list, and how many names were found. -/
def subscribe (templates : EventTemplates) (r : (ℕ → Bool) × ℕ) (name : List Byte) :
    (ℕ → Bool) × ℕ :=
  match agcEventGetId templates (CStr.ofBuffer name) with
  | none => r
  | some id =>
    if (id : ℤ) = EVENT_ID_ALL then (fun x => decide (x < EVENT_ID_LIMIT.toNat) || r.1 x, r.2 + 1)
    else (Function.update r.1 id true, r.2 + 1)

/-- The names of a command: what stands between the blanks behind the first one. -/
def commandNames (cmd : List Byte) : List (List Byte) :=
  match (cmd.drop 5).dropWhile (· ≠ 32) with
  | [] => []
  | _ :: cur => cur.splitOn 32

/-- `parse_command`, on the event of a packet: the connection and the reply. The command `api` is
run by a function that does not touch the subscription. -/
def parseCommand (fuel : ℕ) (templates : EventTemplates) (conn : EventConnect)
    (event : Option Event) : Exec (EventConnect × String) := do
  let cmdHeader ← match event with
    | none => pure none
    | some e => agcEventGetHeader fuel e (CStr.ofString "command")
  match cmdHeader with
  | none => pure ({ conn with isRunning := false }, "-ERR command parse error.")
  | some cmd =>
    if startsWith cmd.bytes (.ofString "exit") || startsWith cmd.bytes (.ofString "...") then
      pure ({ conn with isRunning := false }, "+OK bye")
    else if startsWith cmd.bytes (.ofString "api ") then pure (conn, "")
    else if startsWith cmd.bytes (.ofString "event") then do
      -- the copy that `strdup` made of the header is cut
      let cmd ← stripCr (cmd.bytes ++ [0])
      let r := (commandNames cmd.bytes).foldl (subscribe templates) (fun _ => false, 0)
      if r.2 = 0 then
        pure ({ conn with eventList := r.1, hasEvent := false }, "-ERR no keywords supplied")
      else pure ({ conn with eventList := r.1, hasEvent := true }, "+OK")
    else pure (conn, "")

/-! ## Deliveries -/

/-- The body of the loop of `handle_event`: the connection, and the event with the memory as the
clone leaves it. A clone that finds the queue full is destroyed. -/
def offer (fuel : ℕ) (c : EventConnect) (event : Event) : Exec (EventConnect × Event) := do
  let i ← eventIndex event.eventId
  if c.hasEvent && c.eventList i then
    let clone ← agcEventDup fuel event
    let event := { event with mem := clone.mem, brk := clone.brk }
    if c.eventQueue.length < MAX_QUEUE_LEN then
      pure ({ c with eventQueue := c.eventQueue ++ [clone] }, event)
    else pure (c, event)
  else pure (c, event)

/-- The loop of `handle_event` over the connections, each with its address. -/
def offerAll (fuel : ℕ) : List (ℕ × EventConnect) → Event → Exec (List (ℕ × EventConnect) × Event)
  | [], event => pure ([], event)
  | (a, c) :: cs, event => do
    let (c, event) ← offer fuel c event
    let (cs, event) ← offerAll fuel cs event
    pure ((a, c) :: cs, event)

/-- The listener of the module. -/
structure EventListener where
  ready : Bool
  connections : List (ℕ × EventConnect)

/-- `handle_event`. -/
def handleEvent (fuel : ℕ) (l : EventListener) (event : Event) : Exec (EventListener × Event) :=
  if !l.ready then pure (l, event)
  else do
    let (cs, event) ← offerAll fuel l.connections event
    pure ({ l with connections := cs }, event)

/-! ## The command -/

/-- A header `command` with the command `event`: the word in letters of any case, names that are set
apart by single blanks, and what stands behind this line. The lines end with LF; there is no CR. -/
structure EventCommand where
  word : List Byte
  word_event : word.map CStr.toLower = (CStr.ofString "event").fold
  names : List CStr
  blank_notMem : ∀ name ∈ names, 32 ∉ name.bytes
  lf_notMem : ∀ name ∈ names, 10 ∉ name.bytes
  rest : List Byte
  rest_lf : rest = [] ∨ rest.head? = some 10
  rest_nul : 0 ∉ rest
  cr_notMem : 13 ∉ rest ∧ ∀ name ∈ names, 13 ∉ name.bytes

namespace EventCommand

/-- The first line. -/
def line (cmd : EventCommand) : List Byte :=
  cmd.word ++ cmd.names.flatMap fun name => 32 :: name.bytes

/-- The bytes of a word that folds to `event`. -/
theorem word_mem (cmd : EventCommand) {b : Byte} (hb : b ∈ cmd.word) :
    CStr.toLower b ∈ (CStr.ofString "event").fold := by
  rw [← cmd.word_event]
  exact List.mem_map_of_mem hb

/-- A byte that is its own lower case and is no letter of `event` is not in the word. -/
theorem notMem_word (cmd : EventCommand) {b : Byte}
    (h : CStr.toLower b ∉ (CStr.ofString "event").fold) : b ∉ cmd.word :=
  fun hb => h (cmd.word_mem hb)

theorem length_word (cmd : EventCommand) : cmd.word.length = 5 := by
  have h := congrArg List.length cmd.word_event
  rw [List.length_map] at h
  rw [h]
  decide

theorem notMem_line (cmd : EventCommand) {b : Byte} (hblank : b ≠ 32)
    (hword : CStr.toLower b ∉ (CStr.ofString "event").fold)
    (hnames : ∀ name ∈ cmd.names, b ∉ name.bytes) : b ∉ cmd.line := by
  intro hb
  rcases List.mem_append.mp hb with hb | hb
  · exact cmd.notMem_word hword hb
  · obtain ⟨name, hname, hb⟩ := List.mem_flatMap.mp hb
    rcases List.mem_cons.mp hb with rfl | hb
    · exact hblank rfl
    · exact hnames name hname hb

/-- The text of the header. -/
def text (cmd : EventCommand) : CStr where
  bytes := cmd.line ++ cmd.rest
  nul_notMem := by
    intro h
    rcases List.mem_append.mp h with h | h
    · exact cmd.notMem_line (by decide) (by decide) (fun name _ => name.nul_notMem) h
    · exact cmd.rest_nul h

/-- The text is cut at the end of its first line. -/
theorem stripCr_text (cmd : EventCommand) : cmd.text.stripCr = cmd.line := by
  have hcr : CR ∉ cmd.text.bytes := by
    intro h
    rcases List.mem_append.mp h with h | h
    · exact cmd.notMem_line (by decide) (by decide) cmd.cr_notMem.2 h
    · exact cmd.cr_notMem.1 h
  have hline : ∀ b ∈ cmd.line, decide (b ≠ LF) = true := by
    intro b hb
    simp only [decide_eq_true_eq]
    rintro rfl
    exact cmd.notMem_line (by decide) (by decide) cmd.lf_notMem hb
  rw [CStr.stripCr, if_neg hcr, text, List.takeWhile_append_of_pos hline]
  rcases cmd.rest_lf with h | h
  · rw [h, List.takeWhile_nil, List.append_nil]
  · obtain ⟨rest, hrest⟩ := List.head?_eq_some_iff.mp h
    simp [hrest, LF]

/-- The names of the first line are those of the command. -/
theorem commandNames_line (cmd : EventCommand) :
    commandNames cmd.line = cmd.names.map CStr.bytes := by
  -- the five bytes of the word are passed over
  have hdrop : cmd.line.drop 5 = cmd.names.flatMap fun name => 32 :: name.bytes := by
    rw [line, ← cmd.length_word, List.drop_left]
  rw [commandNames, hdrop]
  cases hnames : cmd.names with
  | nil => rfl
  | cons name names =>
    have hjoin : ∀ (name : CStr) (names : List CStr),
        name.bytes ++ names.flatMap (fun name => 32 :: name.bytes) =
          [32].intercalate ((name :: names).map CStr.bytes) := by
      intro name names
      induction names generalizing name with
      | nil => simp
      | cons name' names ih =>
        rw [List.map_cons, List.map_cons, List.intercalate_cons_cons, List.flatMap_cons]
        have ih := ih name'
        rw [List.map_cons] at ih
        rw [← ih]
        simp
    simp only [List.flatMap_cons, List.cons_append]
    rw [List.dropWhile_cons_of_neg (by simp)]
    simp only
    rw [hjoin, List.splitOn_intercalate]
    · intro l hl
      obtain ⟨n, hn, rfl⟩ := List.mem_map.mp hl
      exact cmd.blank_notMem n (hnames ▸ hn)
    · simp

/-- One of the names is resolved to the id, or to `EVENT_ID_ALL`. -/
def Resolves (templates : EventTemplates) (names : List CStr) (i : ℕ) : Prop :=
  ∃ name ∈ names, agcEventGetId templates name = some i ∨
    agcEventGetId templates name = some EVENT_ID_ALL.toNat

/-- The loop over the names marks the ids that they are resolved to, and counts the names that are
resolved. -/
theorem foldl_subscribe (templates : EventTemplates) (names : List CStr) (r : (ℕ → Bool) × ℕ)
    {i : ℕ} (hi : i < EVENT_ID_LIMIT.toNat) (hr : r.1 i = true → r.2 ≠ 0) :
    let r' := (names.map CStr.bytes).foldl (subscribe templates) r
    (r'.1 i = true ↔ r.1 i = true ∨ Resolves templates names i) ∧ (r'.1 i = true → r'.2 ≠ 0) := by
  induction names generalizing r with
  | nil => exact ⟨by simp [Resolves], hr⟩
  | cons name names ih =>
    have hcons : Resolves templates (name :: names) i ↔
        (agcEventGetId templates name = some i ∨
          agcEventGetId templates name = some EVENT_ID_ALL.toNat) ∨ Resolves templates names i := by
      simp [Resolves]
    rw [List.map_cons, List.foldl_cons, hcons]
    -- what the first name does to the entry
    have hone : ((subscribe templates r name.bytes).1 i = true ↔ r.1 i = true ∨
        agcEventGetId templates name = some i ∨
          agcEventGetId templates name = some EVENT_ID_ALL.toNat) ∧
        ((subscribe templates r name.bytes).1 i = true →
          (subscribe templates r name.bytes).2 ≠ 0) := by
      unfold subscribe
      rw [CStr.ofBuffer_self]
      cases hid : agcEventGetId templates name with
      | none => simpa using hr
      | some id =>
        have hall : (id : ℤ) = EVENT_ID_ALL ↔ id = EVENT_ID_ALL.toNat := by
          simp [EVENT_ID_ALL]
        by_cases hid0 : (id : ℤ) = EVENT_ID_ALL
        · simp only [if_pos hid0, decide_eq_true hi, Bool.true_or, true_iff]
          exact ⟨Or.inr (Or.inr (congrArg some (hall.mp hid0))), fun _ => Nat.succ_ne_zero _⟩
        · have hne : ¬ id = EVENT_ID_ALL.toNat := fun h => hid0 (hall.mpr h)
          simp only [if_neg hid0]
          refine ⟨?_, fun _ => Nat.succ_ne_zero _⟩
          by_cases hidi : id = i
          · subst hidi
            simp
          · rw [Function.update_of_ne (Ne.symm hidi)]
            simp only [Option.some.injEq, hne, hidi, or_self, or_false]
    obtain ⟨hiff, hcount⟩ := ih (subscribe templates r name.bytes) hone.2
    refine ⟨?_, hcount⟩
    rw [hiff, hone.1, or_assoc]

/-- The text starts with the word `event`, up to the case of its letters. -/
theorem map_toLower_text (cmd : EventCommand) :
    ∃ tail, cmd.text.bytes.map CStr.toLower = [101, 118, 101, 110, 116] ++ tail := by
  have hword : cmd.word.map CStr.toLower = [101, 118, 101, 110, 116] := by
    rw [cmd.word_event]
    decide
  refine ⟨(cmd.names.flatMap (fun name => 32 :: name.bytes) ++ cmd.rest).map CStr.toLower, ?_⟩
  rw [← hword, ← List.map_append, ← List.append_assoc]
  rfl

/-- What the command makes of a connection. -/
def applyTo (templates : EventTemplates) (cmd : EventCommand) (conn : EventConnect) :
    EventConnect :=
  let r := (cmd.names.map CStr.bytes).foldl (subscribe templates) (fun _ => false, 0)
  { conn with eventList := r.1, hasEvent := r.2 ≠ 0 }

theorem nul_notMem_line (cmd : EventCommand) : 0 ∉ cmd.line :=
  cmd.notMem_line (by decide) (by decide) fun name _ => name.nul_notMem

/-- The command is none of the other commands, and is read to the end of its line. -/
theorem parseCommand_text {e : Event} (templates : EventTemplates) (conn : EventConnect)
    (cmd : EventCommand)
    (he : Returns (fun fuel => agcEventGetHeader fuel e (CStr.ofString "command"))
      (some cmd.text)) :
    ∃ reply, Returns (fun fuel => parseCommand fuel templates conn (some e))
      (cmd.applyTo templates conn, reply) := by
  obtain ⟨tail, htail⟩ := cmd.map_toLower_text
  have hexit : startsWith cmd.text.bytes (.ofString "exit") = false := by
    rw [startsWith, List.map_take, htail]
    rfl
  have hdots : startsWith cmd.text.bytes (.ofString "...") = false := by
    rw [startsWith, List.map_take, htail]
    rfl
  have hapi : startsWith cmd.text.bytes (.ofString "api ") = false := by
    rw [startsWith, List.map_take, htail]
    rfl
  have hevent : startsWith cmd.text.bytes (.ofString "event") = true := by
    rw [startsWith, List.map_take, htail]
    rfl
  have hstrip : stripCr (cmd.text.bytes ++ [0]) = .ok ⟨cmd.line, cmd.nul_notMem_line⟩ := by
    rw [stripCr_terminated cmd.text [], stripCr_text]
    exact congrArg Except.ok (CStr.ofBuffer_self ⟨cmd.line, cmd.nul_notMem_line⟩)
  obtain ⟨n, hn⟩ := he
  by_cases hcount :
      ((cmd.names.map CStr.bytes).foldl (subscribe templates) (fun _ => false, 0)).2 = 0
  · refine ⟨"-ERR no keywords supplied", n, fun k hk => ?_⟩
    simp only [parseCommand, hn k hk, ok_bind, hexit, hdots, hapi, hevent, hstrip,
      commandNames_line, Bool.or_self, Bool.false_eq_true, if_false, if_true, applyTo,
      if_pos hcount, pure_eq_ok]
    simp [hcount]
  · refine ⟨"+OK", n, fun k hk => ?_⟩
    simp only [parseCommand, hn k hk, ok_bind, hexit, hdots, hapi, hevent, hstrip,
      commandNames_line, Bool.or_self, Bool.false_eq_true, if_false, if_true, applyTo,
      if_neg hcount, pure_eq_ok]
    simp [hcount]

/-- After a command, the connection is subscribed to what the command's names are resolved to. -/
theorem parse_spec {e : Event} {templates : EventTemplates} {conn conn' : EventConnect}
    {cmd : EventCommand} {reply : String}
    (he : Returns (fun fuel => agcEventGetHeader fuel e (CStr.ofString "command")) (some cmd.text))
    (hparse : Returns (fun fuel => parseCommand fuel templates conn (some e)) (conn', reply))
    {i : ℕ} (hi : i < EVENT_ID_LIMIT.toNat) :
    (conn'.hasEvent && conn'.eventList i) = true ↔ Resolves templates cmd.names i := by
  obtain ⟨reply', hret⟩ := cmd.parseCommand_text templates conn he
  obtain ⟨rfl, -⟩ := Prod.mk.inj (hparse.unique hret)
  obtain ⟨hiff, hcount⟩ := foldl_subscribe templates cmd.names (fun _ => false, 0) hi (by simp)
  simp only [applyTo, Bool.and_eq_true, decide_eq_true_eq]
  constructor
  · rintro ⟨-, hmark⟩
    simpa using hiff.mp hmark
  · intro hres
    have hmark := hiff.mpr (Or.inr hres)
    exact ⟨hcount hmark, hmark⟩

/-! ### Packets with the command -/

section Packet

variable {p : Packet} {word : List Byte} {names : List CStr}

theorem eol_notMem_name
    (hline : p.cmd.text.bytes = word ++ names.flatMap fun name => 32 :: name.bytes) {b : Byte}
    (hb : isEol b = true) : ∀ name ∈ names, b ∉ name.bytes := by
  intro name hname hmem
  refine p.cmd.eol_notMem hb ?_
  rw [hline]
  refine List.mem_append_right _ (List.mem_flatMap.mpr ⟨name, hname, ?_⟩)
  exact List.mem_cons_of_mem _ hmem

/-- The command of a packet whose first line is an `event` command. -/
def ofPacket (p : Packet) (word : List Byte) (names : List CStr)
    (hword : word.map CStr.toLower = (CStr.ofString "event").fold)
    (hblank : ∀ name ∈ names, 32 ∉ name.bytes)
    (hline : p.cmd.text.bytes = word ++ names.flatMap fun name => 32 :: name.bytes) :
    EventCommand where
  word := word
  word_event := hword
  names := names
  blank_notMem := hblank
  lf_notMem := eol_notMem_name hline rfl
  rest := LF ::
    blockOf (p.fields.map HeaderField.line ++ (lengthFields p.body).map HeaderField.line)
  rest_lf := Or.inr rfl
  rest_nul := List.not_mem_cons_of_ne_of_not_mem (by decide) (nul_notMem_blockOf _)
  cr_notMem := ⟨List.not_mem_cons_of_ne_of_not_mem (by decide) (CR_notMem_blockOf _),
    eol_notMem_name hline rfl⟩

/-- **The header of a packet.** Where the first line of a packet is an `event` command, and no other
line gives a header `command`, `read_packet` makes an event whose header `command` is the command
with the lines behind it. -/
theorem readPacket_command {s : Socket} {tail : List Byte}
    (hword : word.map CStr.toLower = (CStr.ofString "event").fold)
    (hblank : ∀ name ∈ names, 32 ∉ name.bytes)
    (hline : p.cmd.text.bytes = word ++ names.flatMap fun name => 32 :: name.bytes)
    (hs : .closed ∉ s) (hb : s.bytes = p.encode ++ tail)
    (hlen : ∀ b ∈ p.body, b.bytes.length < INT_MAX) (mem : Addr → Option Header) (brk : Addr) :
    ∃ e s', Returns (fun fuel => readPacket fuel mem brk s) ((.success, some e), s') ∧
      Returns (fun fuel => agcEventGetHeader fuel e (CStr.ofString "command"))
        (some (ofPacket p word names hword hblank hline).text) := by
  obtain ⟨e, s', hret, hrep, -⟩ := p.readPacket_represents hs hb hlen mem brk
  have htext : (ofPacket p word names hword hblank hline).text = p.command := by
    ext1
    show (word ++ names.flatMap fun name => 32 :: name.bytes) ++ LF :: _ = p.block
    rw [← hline, Packet.block, packetLines, blockOf_cons]
  exact ⟨e, s', hret, htext ▸ Packet.getHeader_command hrep⟩

end Packet

end EventCommand

/-! ## Who is offered an event -/

namespace Event

variable {e e' e'' clone : Event} {pairs : List (CStr × CStr)}

/-- The same event in a memory that has grown. -/
structure Extends (e e' : Event) : Prop where
  eventId : e'.eventId = e.eventId
  sourceId : e'.sourceId = e.sourceId
  headers : e'.headers = e.headers
  lastHeader : e'.lastHeader = e.lastHeader
  body : e'.body = e.body
  brk : e.brk ≤ e'.brk
  unchanged : ∀ a, a < e.brk → e'.mem a = e.mem a

theorem Extends.refl (e : Event) : e.Extends e :=
  ⟨rfl, rfl, rfl, rfl, rfl, Nat.le_refl _, fun _ _ => rfl⟩

theorem Extends.trans (h : e.Extends e') (h' : e'.Extends e'') : e.Extends e'' where
  eventId := h'.eventId.trans h.eventId
  sourceId := h'.sourceId.trans h.sourceId
  headers := h'.headers.trans h.headers
  lastHeader := h'.lastHeader.trans h.lastHeader
  body := h'.body.trans h.body
  brk := h.brk.trans h'.brk
  unchanged a ha := (h'.unchanged a (Nat.lt_of_lt_of_le ha h.brk)).trans (h.unchanged a ha)

theorem Extends.represents (h : e.Extends e') (he : e.Represents pairs) : e'.Represents pairs := by
  obtain ⟨cs, hl, hc, hb⟩ := he
  refine ⟨cs, ⟨?_, hl.nodup, h.lastHeader.trans hl.last⟩, hc, fun x hx => ?_⟩
  · rw [h.headers]
    exact hl.chain.congr fun x hx => h.unchanged x.1 (hb x hx)
  · exact Nat.lt_of_lt_of_le (hb x hx) h.brk

/-- A clone made in the grown memory is one of the event before. -/
theorem Extends.clones (h : e.Extends e') (hc : Clones e' pairs clone) : Clones e pairs clone where
  eventId := hc.eventId.trans h.eventId
  sourceId := hc.sourceId.trans h.sourceId
  body := hc.body.trans h.body
  headers := hc.headers
  separate ds hds x hx := h.brk.trans (hc.separate ds hds x hx)
  unchanged a ha := (hc.unchanged a (Nat.lt_of_lt_of_le ha h.brk)).trans (h.unchanged a ha)

end Event

namespace EventConnect

/-- The connection is to be given events with the id. -/
def wants (c : EventConnect) (i : ℕ) : Bool := c.hasEvent && c.eventList i

/-- The connection `c'` is `c` after an event has been offered to it: a clone is put into the queue
if the connection wants it and there is room. -/
structure Offered (e : Event) (pairs : List (CStr × CStr)) (c c' : EventConnect) : Prop where
  hasEvent : c'.hasEvent = c.hasEvent
  eventList : c'.eventList = c.eventList
  given : c.wants e.eventId.toNat = true → c.eventQueue.length < MAX_QUEUE_LEN →
    ∃ clone, Event.Clones e pairs clone ∧ c'.eventQueue = c.eventQueue ++ [clone]
  kept : ¬ (c.wants e.eventId.toNat = true ∧ c.eventQueue.length < MAX_QUEUE_LEN) →
    c'.eventQueue = c.eventQueue

end EventConnect

section Offer

variable {e : Event} {pairs : List (CStr × CStr)}

theorem eventIndex_eq {eventId : ℤ} (h0 : 0 < eventId) (hlim : eventId < EVENT_ID_LIMIT) :
    eventIndex eventId = .ok eventId.toNat := by
  rw [eventIndex, if_pos ⟨h0.le, hlim⟩]

/-- An event whose names are distinct is offered to a connection. -/
theorem offer_spec (c : EventConnect) (he : e.Represents pairs)
    (hd : pairs.Pairwise fun p q => ¬ p.1.SameName q.1) (h0 : 0 < e.eventId)
    (hlim : e.eventId < EVENT_ID_LIMIT) :
    ∃ c' e', Returns (fun fuel => offer fuel c e) (c', e') ∧ c.Offered e pairs c' ∧
      e.Extends e' := by
  by_cases hwants : c.wants e.eventId.toNat = true
  · obtain ⟨clone, hret, hbuilt⟩ := Event.built_of_distinct he hd
    have hext : e.Extends { e with mem := clone.mem, brk := clone.brk } :=
      ⟨rfl, rfl, rfl, rfl, rfl, hbuilt.brk, hbuilt.unchanged⟩
    have hwants' : (c.hasEvent && c.eventList e.eventId.toNat) = true := hwants
    by_cases hroom : c.eventQueue.length < MAX_QUEUE_LEN
    · refine ⟨{ c with eventQueue := c.eventQueue ++ [{ clone with body := e.body }] }, _, ?_,
        ⟨rfl, rfl, fun _ _ => ⟨_, hbuilt.clones, rfl⟩, fun hno => absurd ⟨hwants, hroom⟩ hno⟩, hext⟩
      have hrest := hret.bind (g := fun _ clone => (pure
        ({ c with eventQueue := c.eventQueue ++ [clone] },
          { e with mem := clone.mem, brk := clone.brk }) : Exec (EventConnect × Event)))
        (Returns.const _)
      refine hrest.congr fun k => ?_
      simp only [offer, eventIndex_eq h0 hlim, ok_bind, hwants', if_true, hroom]
    · -- the clone is destroyed again
      refine ⟨c, _, ?_, ⟨rfl, rfl, fun _ hr => absurd hr hroom, fun _ => rfl⟩, hext⟩
      have hrest := hret.bind (g := fun _ (clone : Event) => (pure
        (c, { e with mem := clone.mem, brk := clone.brk }) : Exec (EventConnect × Event)))
        (Returns.const _)
      refine hrest.congr fun k => ?_
      simp only [offer, eventIndex_eq h0 hlim, ok_bind, hwants', if_true, hroom, if_false]
  · -- the connection does not want the event
    have hwants' : (c.hasEvent && c.eventList e.eventId.toNat) = false := by
      simpa [EventConnect.wants] using hwants
    refine ⟨c, e, ?_, ⟨rfl, rfl, fun h => absurd h hwants, fun _ => rfl⟩, Event.Extends.refl e⟩
    refine (Returns.const (c, e)).congr fun k => ?_
    simp only [offer, eventIndex_eq h0 hlim, ok_bind, hwants', Bool.false_eq_true, if_false,
      pure_eq_ok]

/-- An event whose names are distinct is offered to every connection. -/
theorem offerAll_spec (cs : List (ℕ × EventConnect)) (he : e.Represents pairs)
    (hd : pairs.Pairwise fun p q => ¬ p.1.SameName q.1) (h0 : 0 < e.eventId)
    (hlim : e.eventId < EVENT_ID_LIMIT) :
    ∃ cs' e', Returns (fun fuel => offerAll fuel cs e) (cs', e') ∧
      List.Forall₂ (fun c c' => c'.1 = c.1 ∧ c.2.Offered e pairs c'.2) cs cs' ∧ e.Extends e' := by
  induction cs generalizing e with
  | nil => exact ⟨[], e, Returns.const _, List.Forall₂.nil, Event.Extends.refl e⟩
  | cons c cs ih =>
    obtain ⟨a, c⟩ := c
    obtain ⟨c', e₁, hret, hoffered, hext⟩ := offer_spec c he hd h0 hlim
    -- the other connections are offered the event in the memory with the first clone
    obtain ⟨cs', e', hrets, hall, hext'⟩ := ih (hext.represents he) (hext.eventId ▸ h0)
      (hext.eventId ▸ hlim)
    refine ⟨(a, c') :: cs', e', ?_, List.Forall₂.cons ⟨rfl, hoffered⟩ ?_, hext.trans hext'⟩
    · exact hret.bind (g := fun fuel r => do
        let (cs, event) ← offerAll fuel cs r.2
        pure ((a, r.1) :: cs, event))
        (hrets.bind (g := fun _ (r : List (ℕ × EventConnect) × Event) =>
          pure ((a, c') :: r.1, r.2)) (Returns.const _))
    · refine hall.imp fun d d' hd' => ⟨hd'.1, ?_⟩
      obtain ⟨heq, hhas, hlist, hgiven, hkept⟩ := hd'
      rw [hext.eventId] at hgiven hkept
      refine ⟨hhas, hlist, fun hw hr => ?_, hkept⟩
      obtain ⟨clone, hclone, hqueue⟩ := hgiven hw hr
      exact ⟨clone, hext.clones hclone, hqueue⟩

/-- Whatever the event, an offer leaves the subscription alone. -/
theorem offer_wants {fuel : ℕ} {c c' : EventConnect} {e e' : Event}
    (h : offer fuel c e = .ok (c', e')) (i : ℕ) : c'.wants i = c.wants i := by
  simp only [offer] at h
  obtain ⟨j, -, h⟩ := bind_eq_ok.mp h
  split at h
  · obtain ⟨clone, -, h⟩ := bind_eq_ok.mp h
    split at h <;>
    · obtain ⟨rfl, -⟩ := Prod.mk.inj (Except.ok.inj h)
      rfl
  · obtain ⟨rfl, -⟩ := Prod.mk.inj (Except.ok.inj h)
    rfl

theorem offerAll_wants {fuel : ℕ} {cs cs' : List (ℕ × EventConnect)} {e e' : Event}
    (h : offerAll fuel cs e = .ok (cs', e')) :
    List.Forall₂ (fun c c' => c'.1 = c.1 ∧ ∀ i, c'.2.wants i = c.2.wants i) cs cs' := by
  induction cs generalizing e e' cs' with
  | nil =>
    obtain ⟨rfl, -⟩ := Prod.mk.inj (Except.ok.inj h)
    exact List.Forall₂.nil
  | cons c cs ih =>
    obtain ⟨a, c⟩ := c
    simp only [offerAll] at h
    obtain ⟨⟨c₁, e₁⟩, hoffer, h⟩ := bind_eq_ok.mp h
    obtain ⟨⟨cs₁, e₂⟩, hall, h⟩ := bind_eq_ok.mp h
    obtain ⟨rfl, -⟩ := Prod.mk.inj (Except.ok.inj h)
    exact List.Forall₂.cons ⟨rfl, offer_wants hoffer⟩ (ih hall)

/-- Every connection after the offers is one of those before. -/
theorem exists_of_mem_offered {R : ℕ × EventConnect → ℕ × EventConnect → Prop}
    {cs cs' : List (ℕ × EventConnect)} (h : List.Forall₂ R cs cs') {c' : ℕ × EventConnect}
    (hc : c' ∈ cs') : ∃ c ∈ cs, R c c' := by
  induction h with
  | nil => cases hc
  | cons hR _ ih =>
    rcases List.mem_cons.mp hc with rfl | hc
    · exact ⟨_, List.mem_cons_self, hR⟩
    · obtain ⟨c, hmem, hR'⟩ := ih hc
      exact ⟨c, List.mem_cons_of_mem _ hmem, hR'⟩

end Offer

/-! ## Runs -/

/-- What happens at the listener. -/
inductive SubscribeEvent
  /-- A connection parses a command. -/
  | command (conn : ℕ) (cmd : EventCommand)
  | deliver (event : Event)
  /-- A connection takes an event out of its queue and sends it. -/
  | send (conn : ℕ)

namespace EventListener

/-- Connections as they are accepted. -/
def fresh (addrs : List ℕ) : EventListener where
  ready := true
  connections := addrs.map fun a => (a, ⟨false, true, fun _ => false, []⟩)

/-- The listener after a sequence of events, with the connections at the addresses. A connection
reads a packet, and parses the event of it if its header is an `event` command. -/
inductive Reaches (templates : EventTemplates) (addrs : List ℕ) :
    List SubscribeEvent → EventListener → Prop
  | start (hnodup : addrs.Nodup) : Reaches templates addrs [] (fresh addrs)
  | command {evs : List SubscribeEvent} {l : EventListener} (h : Reaches templates addrs evs l)
      {pre post : List (ℕ × EventConnect)} {conn : ℕ} {c c' : EventConnect} {cmd : EventCommand}
      {mem : Addr → Option Header} {brk : Addr} {s s' : Socket} {e : Event} {reply : String}
      (hl : l.connections = pre ++ (conn, c) :: post)
      (hread : Returns (fun fuel => readPacket fuel mem brk s) ((.success, some e), s'))
      (hheader : Returns (fun fuel => agcEventGetHeader fuel e (CStr.ofString "command"))
        (some cmd.text))
      (hparse : Returns (fun fuel => parseCommand fuel templates c (some e)) (c', reply)) :
      Reaches templates addrs (evs ++ [.command conn cmd])
        { l with connections := pre ++ (conn, c') :: post }
  | deliver {evs : List SubscribeEvent} {l l' : EventListener} {event event' : Event}
      (h : Reaches templates addrs evs l)
      (hr : Returns (fun fuel => handleEvent fuel l event) (l', event')) :
      Reaches templates addrs (evs ++ [.deliver event]) l'
  | send {evs : List SubscribeEvent} {l : EventListener} (h : Reaches templates addrs evs l)
      {pre post : List (ℕ × EventConnect)} {conn : ℕ} {c : EventConnect}
      (hl : l.connections = pre ++ (conn, c) :: post) (hevent : c.hasEvent = true) :
      Reaches templates addrs (evs ++ [.send conn])
        { l with connections :=
            pre ++ (conn, { c with eventQueue := c.eventQueue.tail }) :: post }

/-- The names of the last command that the connection parsed. -/
def lastNames (conn : ℕ) (evs : List SubscribeEvent) : List CStr :=
  evs.foldl (fun names ev =>
    match ev with
    | .command conn' cmd => if conn' = conn then cmd.names else names
    | _ => names) []

/-- The connections other than one have other addresses. -/
theorem ne_of_mem_split {pre post : List (ℕ × EventConnect)} {conn : ℕ} {c : EventConnect}
    (hnodup : ((pre ++ (conn, c) :: post).map Prod.fst).Nodup) {d : ℕ × EventConnect}
    (hd : d ∈ pre ∨ d ∈ post) : d.1 ≠ conn := by
  intro heq
  rw [List.map_append, List.map_cons, List.nodup_middle] at hnodup
  apply (List.nodup_cons.mp hnodup).1
  rw [← List.map_append]
  exact List.mem_map.mpr ⟨d, List.mem_append.mpr hd, heq⟩

/-- The addresses stay, and each connection wants the events that the names of its last command are
resolved to. -/
theorem Reaches.wants {templates : EventTemplates} {addrs : List ℕ} {evs : List SubscribeEvent}
    {l : EventListener} (h : Reaches templates addrs evs l) :
    l.ready = true ∧ (l.connections.map Prod.fst).Nodup ∧
      ∀ c ∈ l.connections, ∀ i, i < EVENT_ID_LIMIT.toNat →
        (c.2.wants i = true ↔ EventCommand.Resolves templates (lastNames c.1 evs) i) := by
  induction h with
  | start hnodup =>
    refine ⟨rfl, ?_, fun c hc i _ => ?_⟩
    · simpa [fresh, Function.comp_def] using hnodup
    · obtain ⟨a, -, rfl⟩ := List.mem_map.mp hc
      simp [EventConnect.wants, lastNames, EventCommand.Resolves]
  | @command evs l h pre post conn c c' cmd mem brk s s' e reply hl hread hheader hparse ih =>
    obtain ⟨hready, hnodup, hwants⟩ := ih
    rw [hl] at hnodup hwants
    refine ⟨hready, by simpa using hnodup, fun d hd i hi => ?_⟩
    rw [lastNames, List.foldl_append]
    rcases List.mem_append.mp hd with hd | hd
    · have hne := ne_of_mem_split hnodup (Or.inl hd)
      simp only [List.foldl_cons, List.foldl_nil, if_neg (Ne.symm hne)]
      exact hwants d (List.mem_append_left _ hd) i hi
    · rcases List.mem_cons.mp hd with rfl | hd
      · -- the command is this connection's
        simp only [List.foldl_cons, List.foldl_nil, if_true]
        exact EventCommand.parse_spec hheader hparse hi
      · have hne := ne_of_mem_split hnodup (Or.inr hd)
        simp only [List.foldl_cons, List.foldl_nil, if_neg (Ne.symm hne)]
        exact hwants d (List.mem_append_right _ (List.mem_cons_of_mem _ hd)) i hi
  | @deliver evs l l' event event' h hr ih =>
    -- a delivery fills queues, and leaves the lists of wanted ids as they are
    obtain ⟨hready, hnodup, hwants⟩ := ih
    obtain ⟨n, hn⟩ := hr
    have hok := hn n (Nat.le_refl n)
    simp only [handleEvent, hready, Bool.not_true, Bool.false_eq_true, if_false] at hok
    obtain ⟨⟨cs, e⟩, hall, hok⟩ := bind_eq_ok.mp hok
    obtain ⟨rfl, -⟩ := Prod.mk.inj (Except.ok.inj hok)
    have hoffered := offerAll_wants hall
    refine ⟨rfl, ?_, fun c hc i hi => ?_⟩
    · have hsame : cs.map Prod.fst = l.connections.map Prod.fst := by
        refine List.forall₂_eq_eq_eq ▸ ?_
        refine List.forall₂_map_left_iff.mpr (List.forall₂_map_right_iff.mpr ?_)
        exact (hoffered.imp fun c c' hc => hc.1).flip
      rw [hsame]
      exact hnodup
    · obtain ⟨d, hd, hkey, hsub⟩ := exists_of_mem_offered hoffered hc
      rw [hsub, hkey, lastNames, List.foldl_append]
      exact hwants d hd i hi
  | @send evs l h pre post conn c hl hevent ih =>
    obtain ⟨hready, hnodup, hwants⟩ := ih
    rw [hl] at hnodup hwants
    refine ⟨hready, by simpa using hnodup, fun d hd i hi => ?_⟩
    rw [lastNames, List.foldl_append]
    rcases List.mem_append.mp hd with hd | hd
    · exact hwants d (List.mem_append_left _ hd) i hi
    · rcases List.mem_cons.mp hd with rfl | hd
      · exact hwants (conn, c) (List.mem_append_right _ List.mem_cons_self) i hi
      · exact hwants d (List.mem_append_right _ (List.mem_cons_of_mem _ hd)) i hi

/-- **Subscription routing.** After every sequence of packets with commands, deliveries and sendings
on every set of connections, an event with an id of the lists and distinct names is delivered, and a
clone of it is put into the queue of a connection exactly when there is room and the last command
that this connection parsed had a name that is resolved to the id or to `EVENT_ID_ALL`; the queues
of all other connections stay as they are. -/
theorem routing {templates : EventTemplates} {addrs : List ℕ} {evs : List SubscribeEvent}
    {l : EventListener} (hl : Reaches templates addrs evs l) {e : Event}
    {pairs : List (CStr × CStr)} (he : e.Represents pairs)
    (hd : pairs.Pairwise fun p q => ¬ p.1.SameName q.1) (h0 : 0 < e.eventId)
    (hlim : e.eventId < EVENT_ID_LIMIT) :
    ∃ l' e', Returns (fun fuel => handleEvent fuel l e) (l', e') ∧
      List.Forall₂ (fun c c' => c'.1 = c.1 ∧
        (c.2.eventQueue.length < MAX_QUEUE_LEN ∧
            EventCommand.Resolves templates (lastNames c.1 evs) e.eventId.toNat →
          ∃ clone, Event.Clones e pairs clone ∧ c'.2.eventQueue = c.2.eventQueue ++ [clone]) ∧
        (¬ (c.2.eventQueue.length < MAX_QUEUE_LEN ∧
            EventCommand.Resolves templates (lastNames c.1 evs) e.eventId.toNat) →
          c'.2.eventQueue = c.2.eventQueue)) l.connections l'.connections := by
  obtain ⟨hready, -, hwants⟩ := hl.wants
  have hi : e.eventId.toNat < EVENT_ID_LIMIT.toNat := by omega
  obtain ⟨cs', e', hret, hall, -⟩ := offerAll_spec l.connections he hd h0 hlim
  refine ⟨{ l with connections := cs' }, e', ?_, ?_⟩
  · refine (hret.bind (g := fun _ (r : List (ℕ × EventConnect) × Event) =>
      (pure ({ l with connections := r.1 }, r.2) : Exec (EventListener × Event)))
      (Returns.const _)).congr fun k => ?_
    simp only [handleEvent, hready, Bool.not_true, Bool.false_eq_true, if_false]
  · have hforall := List.forall₂_iff_zip.mp hall
    refine List.forall₂_iff_zip.mpr ⟨hforall.1, fun {c c'} hmem => ?_⟩
    obtain ⟨hkey, hoffered⟩ := hforall.2 hmem
    have hiff := hwants c (List.of_mem_zip hmem).1 e.eventId.toNat hi
    refine ⟨hkey, ?_, ?_⟩
    · rintro ⟨hroom, hres⟩
      exact hoffered.given (hiff.mpr hres) hroom
    · intro hno
      exact hoffered.kept fun ⟨hw, hroom⟩ => hno ⟨hroom, hiff.mp hw⟩

/-- A header. -/
def viaTcp : HeaderField where
  name := CStr.ofString "via"
  value := CStr.ofString "tcp"
  name_ne_nil := by decide
  name_isEol := isEol_eq_of_all (by decide)
  colon_notMem := by decide
  value_isEol := isEol_eq_of_all (by decide)
  value_space := by decide

/-- The packet `event a` with another line. -/
def eventA : Packet where
  cmd := ⟨CStr.ofString "event a", by decide, isEol_eq_of_all (by decide)⟩
  fields := [viaTcp]
  body := none
  distinct := List.pairwise_singleton _ _
  not_command f hf := by
    obtain rfl := List.mem_singleton.mp hf
    decide
  not_length f hf := by
    obtain rfl := List.mem_singleton.mp hf
    decide
  body_ne_nil b hb := by cases hb
  short := by decide

/-- A table with one name. -/
def tableA : EventTemplates := fun i => if i = 7 then some (CStr.ofString "A") else none

/-- Two connections, of which one reads a packet that subscribes to the only name of the table. -/
theorem routing_two_connections :
    ∃ cmd l l' e', Reaches tableA [4, 9] [.command 4 cmd] l ∧ cmd.names = [CStr.ofString "a"] ∧
      Returns (fun fuel => handleEvent fuel l
        (Event.double (CStr.ofString "a") (CStr.ofString "x") (CStr.ofString "b")
          (CStr.ofString "x"))) (l', e') ∧
      l'.connections.map (fun c => c.2.eventQueue.length) = [1, 0] := by
  -- the packet is read and parsed by the first connection
  have hword : ([101, 118, 101, 110, 116] : List Byte).map CStr.toLower =
      (CStr.ofString "event").fold := by decide
  have hblank : ∀ name ∈ [CStr.ofString "a"], 32 ∉ name.bytes := by decide
  have hbytes : Socket.bytes [.data eventA.encode] = eventA.encode ++ [] := by simp
  obtain ⟨e, s', hread, hheader⟩ := EventCommand.readPacket_command (p := eventA) hword hblank
    (by decide) (by simp) hbytes (fun b hb => by cases hb) (fun _ => none) 0
  obtain ⟨cmd, hcmd, hnames⟩ : ∃ cmd : EventCommand,
      Returns (fun fuel => agcEventGetHeader fuel e (CStr.ofString "command")) (some cmd.text) ∧
        cmd.names = [CStr.ofString "a"] := ⟨_, hheader, rfl⟩
  obtain ⟨reply, hparse⟩ := cmd.parseCommand_text tableA ⟨false, true, fun _ => false, []⟩ hcmd
  have hfirst : (fresh [4, 9]).connections = [] ++ (4, ⟨false, true, fun _ => false, []⟩) ::
      [(9, ⟨false, true, fun _ => false, []⟩)] := rfl
  have hl : Reaches tableA [4, 9] [.command 4 cmd] ⟨true,
      [(4, cmd.applyTo tableA ⟨false, true, fun _ => false, []⟩),
        (9, ⟨false, true, fun _ => false, []⟩)]⟩ :=
    Reaches.command (Reaches.start (by decide)) hfirst hread hcmd hparse
  obtain ⟨l', e', hret, hall⟩ := routing hl
    (Event.represents_double (CStr.ofString "a") (CStr.ofString "x") (CStr.ofString "b")
      (CStr.ofString "x")) (List.pairwise_pair.mpr (by decide)) (by decide) (by decide)
  refine ⟨cmd, _, l', e', hl, hnames, hret, ?_⟩
  obtain ⟨c₄, cs, ⟨-, hgiven, -⟩, htail, hcs⟩ := List.forall₂_cons_left_iff.mp hall
  obtain ⟨c₉, cs', ⟨-, -, hkept⟩, hnil, rfl⟩ := List.forall₂_cons_left_iff.mp htail
  obtain rfl := List.forall₂_nil_left_iff.mp hnil
  simp only [lastNames, List.foldl_cons, List.foldl_nil, reduceIte, hnames] at hgiven
  have hid : agcEventGetId tableA (CStr.ofString "a") = some 7 :=
    List.find?_range_eq_some.mpr ⟨by decide, List.mem_range.mpr (by decide), by decide⟩
  have hroom : 0 < MAX_QUEUE_LEN := by decide
  obtain ⟨clone, -, h₄⟩ := hgiven ⟨hroom, CStr.ofString "a", by decide, Or.inl hid⟩
  have h₉ := hkept (by
    rintro ⟨-, name, hname, -⟩
    cases hname)
  rw [hcs, List.map_cons, List.map_cons, h₄, h₉]
  rfl

end EventListener
