import AgcFramework.EventSocket.Lines

/-!
# Framing on the event socket

A packet is a command line, headers and an optional body. Packets that are sent one behind the
other are read back one by one, however the socket cuts their bytes into receipts, as long as the
length of every body fits the `int` that the reader keeps it in.

## Main definitions

* `Packet`: a packet that can be sent, and `Packet.encode`, its bytes
* `Packet.Delivers p e`: the event has the contents of the packet
* `Framed ps s`: successive calls of `read_packet` deliver the packets

## Main results

* `Packet.readPacket_iff`: what is left to do once a block has been received and parsed
* `Packet.readPacket_delivers`, `Packet.readPacket_not_delivers`: a body is delivered if its length
  fits, and otherwise not
* `framed_iff_length_lt`: the packets are delivered exactly when the length of every body fits
-/

open Exec Reader Decimal Event

/-! ## Packets -/

/-- The header that gives the length of a body of `n` bytes. -/
def lengthField (n : ℕ) : HeaderField where
  name := CStr.ofString "Content-Length"
  value := ⟨decimal n, nul_notMem_decimal n⟩
  name_ne_nil := by decide
  name_isEol := isEol_eq_of_all (by decide)
  colon_notMem := by decide
  value_isEol b hb := by
    have hdigit := isDigit_of_mem_decimal hb
    by_contra heol
    rw [Bool.not_eq_false, isEol, decide_eq_true_eq] at heol
    rcases heol with rfl | rfl <;> exact absurd hdigit (by decide)
  value_space h := by
    have hmem : (32 : Byte) ∈ decimal n := List.mem_of_mem_head? h
    exact absurd (isDigit_of_mem_decimal hmem) (by decide)

theorem sameName_lengthField (n : ℕ) :
    (lengthField n).name.SameName (CStr.ofString "content-length") := by
  show (CStr.ofString "Content-Length").SameName (CStr.ofString "content-length")
  decide

/-- The header for the length of a body, if there is one. -/
def lengthFields (body : Option CStr) : List HeaderField :=
  (body.map fun b => lengthField b.bytes.length).toList

/-- The lines of a packet. -/
def packetLines (cmd : Line) (fields : List HeaderField) (body : Option CStr) : List Line :=
  cmd :: (fields.map HeaderField.line ++ (lengthFields body).map HeaderField.line)

/-- A packet: the texts can be told apart, and its block is not too long. -/
structure Packet where
  cmd : Line
  fields : List HeaderField
  body : Option CStr
  distinct : fields.Pairwise fun f g => ¬ f.name.SameName g.name
  not_command : ∀ f ∈ fields, ¬ f.name.SameName (CStr.ofString "command")
  not_length : ∀ f ∈ fields, ¬ f.name.SameName (CStr.ofString "content-length")
  body_ne_nil : ∀ b ∈ body, b.bytes ≠ []
  short : (blockOf (packetLines cmd fields body)).length < EVTSKT_MAX_LEN

namespace Packet

variable (p : Packet)

/-- The lines of a packet and the empty line. -/
def block : List Byte := blockOf (packetLines p.cmd p.fields p.body)

/-- The bytes of a packet. -/
def encode : List Byte := p.block ++ (p.body.map CStr.bytes).getD []

/-- The text of the whole block, which becomes the command. -/
def command : CStr := ⟨p.block, nul_notMem_blockOf _⟩

/-- The headers of the event of a packet. -/
def headers : List (CStr × CStr) :=
  (CStr.ofString "command", p.command) :: p.fields.map (fun f => (f.name, f.value)) ++
    (lengthFields p.body).map fun f => (f.name, f.value)

/-- The event has the contents of the packet: the first line of its command is the packet's command
line, each header of the packet is found with its value, and the body is the packet's body. -/
structure Delivers (e : Event) : Prop where
  command : ∃ text, Returns (fun fuel => agcEventGetHeader fuel e (CStr.ofString "command"))
      (some text) ∧ text.bytes.takeWhile (fun b => !isEol b) = p.cmd.text.bytes
  headers : ∀ f ∈ p.fields, Returns (fun fuel => agcEventGetHeader fuel e f.name) (some f.value)
  body : e.body = p.body

end Packet

/-- Successive calls of `read_packet`, on whatever memory: there is an event for each of the
packets, in their order, each call takes exactly the bytes of its packet, and the receive buffer is
terminated throughout. -/
def Framed : List Packet → Socket → Prop
  | [], _ => True
  | p :: ps, s =>
    (∀ s' r, Reaches s s' r → r.Terminated) ∧
    ∀ mem brk, ∃ e s', Returns (fun fuel => readPacket fuel mem brk s) ((.success, some e), s') ∧
      p.Delivers e ∧ s.bytes = p.encode ++ s'.bytes ∧ Framed ps s'

/-! ## The headers of a packet -/

namespace Packet

variable {p : Packet} {e : Event}

theorem find_of_distinct {fs : List HeaderField}
    (hd : fs.Pairwise fun f g => ¬ f.name.SameName g.name) {f : HeaderField} (hf : f ∈ fs) :
    ((fs.map fun f => (f.name, f.value)).find? fun x => decide (x.1.SameName f.name)) =
      some (f.name, f.value) := by
  induction fs with
  | nil => cases hf
  | cons g fs ih =>
    obtain ⟨hg, hd⟩ := List.pairwise_cons.mp hd
    rcases List.mem_cons.mp hf with rfl | hf
    · rw [List.map_cons, List.find?_cons_of_pos (by simpa using CStr.SameName.refl f.name)]
    · rw [List.map_cons, List.find?_cons_of_neg (by simpa using hg f hf)]
      exact ih hd hf

theorem takeWhile_command (p : Packet) :
    p.command.bytes.takeWhile (fun b => !isEol b) = p.cmd.text.bytes := by
  have hline : ∀ b ∈ p.cmd.text.bytes, (!isEol b) = true := by
    intro b hb
    rw [p.cmd.isEol_eq b hb]
    rfl
  have hblock : p.command.bytes = blockOf (packetLines p.cmd p.fields p.body) := rfl
  rw [hblock, packetLines, blockOf_cons, List.takeWhile_append_of_pos hline]
  exact List.append_nil _

/-- The command of an event with the headers of a packet is the block of the packet. -/
theorem getHeader_command (h : e.Represents p.headers) :
    Returns (fun fuel => agcEventGetHeader fuel e (CStr.ofString "command")) (some p.command) := by
  have hget := h.getHeader (CStr.ofString "command")
  rw [headers, List.cons_append,
    List.find?_cons_of_pos (by simpa using CStr.SameName.refl _)] at hget
  exact hget

/-- An event with the headers of a packet and its body delivers the packet. -/
theorem delivers_of_represents (h : e.Represents p.headers) (hbody : e.body = p.body) :
    p.Delivers e where
  command := ⟨p.command, getHeader_command h, p.takeWhile_command⟩
  headers f hf := by
    have hget := h.getHeader f.name
    have hcommand : ¬ (CStr.ofString "command").SameName f.name :=
      fun hs => p.not_command f hf hs.symm
    rw [headers, List.cons_append, List.find?_cons_of_neg (by simpa using hcommand),
      List.find?_append, find_of_distinct p.distinct hf] at hget
    exact hget
  body := hbody

/-! ## Parsing a block -/

section Parse

variable {pairs : List (CStr × CStr)} {pad : List Byte} {s : Socket}

/-- Behind the last line the loop ends. -/
theorem parseLines_nul {k : ℕ} (hk : 2 ≤ k) (e : Event) (pad : List Byte) (s : Socket) :
    parseLines k (some (0 :: pad)) e s = .ok (e, true, s) := by
  obtain ⟨k, rfl⟩ : ∃ n, k = n + 2 := ⟨k - 2, by omega⟩
  simp only [parseLines, nextLine_nul, stripCr_nul, ok_bind, handleLine, List.isEmpty_nil, if_true,
    pure_eq_ok]

/-- What the parsing loop does with a line when its header is added. -/
def afterHeader (f : HeaderField) (ls : List Line) (pad : List Byte) (fuel : ℕ) (e : Event)
    (s : Socket) : Exec (Event × Bool × Socket) := do
  let (e, ok, s) ←
    if f.name.SameName (CStr.ofString "content-length") then
      readContent fuel e (atoi f.value.bytes) s
    else pure (e, true, s)
  if ok then parseLines fuel (some (remaining ls ++ 0 :: pad)) e s else pure (e, false, s)

/-- A line adds its header. -/
theorem parseLines_field (f : HeaderField) (ls : List Line) (pad : List Byte)
    (h : e.Represents pairs) (ha : ¬ Present f.name pairs) :
    ∃ e', e'.Represents (pairs ++ [(f.name, f.value)]) ∧ e'.body = e.body ∧ ∀ s x,
      Returns (fun fuel => parseLines fuel (some (blockOf (f.line :: ls) ++ 0 :: pad)) e s) x ↔
      Returns (fun fuel => afterHeader f ls pad fuel e' s) x := by
  obtain ⟨e', hadd, hrep, -, hbody⟩ := h.addAbsent f.name f.value ha
  have hne : f.line.text.bytes.isEmpty = false := by
    rw [List.isEmpty_eq_false_iff]
    exact f.line.ne_nil
  refine ⟨e', hrep, hbody, fun s x => ?_⟩
  have hbind : Returns (fun fuel => agcEventBaseAddHeader fuel e f.name f.value >>=
      fun e => afterHeader f ls pad fuel e s) x ↔
      Returns (fun fuel => afterHeader f ls pad fuel e' s) x := Returns.bind_iff hadd
  rw [← hbind]
  apply Returns.succ_iff
  intro k
  simp only [parseLines, nextLine_blockOf, stripCr_blockOf, ok_bind, handleLine, hne,
    Bool.false_eq_true, if_false, f.splitHeader_line, agcEventAddHeaderString, bind_assoc,
    pure_bind, afterHeader]
  congr 1
  ext1 e₁
  by_cases hlen : f.name.SameName (CStr.ofString "content-length")
  · simp only [if_pos hlen]
  · simp only [if_neg hlen]
    rfl

/-- The headers of the packet are added one by one. -/
theorem parseLines_fields (fs : List HeaderField) (ls : List Line) (pad : List Byte)
    (h : e.Represents pairs) (hd : fs.Pairwise fun f g => ¬ f.name.SameName g.name)
    (ha : ∀ f ∈ fs, ¬ Present f.name pairs)
    (hl : ∀ f ∈ fs, ¬ f.name.SameName (CStr.ofString "content-length")) :
    ∃ e', e'.Represents (pairs ++ fs.map fun f => (f.name, f.value)) ∧ e'.body = e.body ∧ ∀ s x,
      Returns (fun fuel => parseLines fuel
        (some (remaining (fs.map HeaderField.line ++ ls) ++ 0 :: pad)) e s) x ↔
      Returns (fun fuel => parseLines fuel (some (remaining ls ++ 0 :: pad)) e' s) x := by
  induction fs generalizing e pairs with
  | nil => exact ⟨e, by simpa using h, rfl, fun s x => Iff.rfl⟩
  | cons f fs ih =>
    obtain ⟨hf, hd⟩ := List.pairwise_cons.mp hd
    obtain ⟨e₁, hrep, hbody, hfirst⟩ :=
      parseLines_field f (fs.map HeaderField.line ++ ls) pad h (ha f List.mem_cons_self)
    -- the header that was added has another name than those that follow
    have ha' : ∀ g ∈ fs, ¬ Present g.name (pairs ++ [(f.name, f.value)]) := by
      rintro g hg ⟨x, hx, hs⟩
      rcases List.mem_append.mp hx with hx | hx
      · exact ha g (List.mem_cons_of_mem f hg) ⟨x, hx, hs⟩
      · rw [List.mem_singleton.mp hx] at hs
        exact hf g hg hs
    obtain ⟨e', hrep', hbody', hrest⟩ :=
      ih hrep hd ha' fun g hg => hl g (List.mem_cons_of_mem f hg)
    refine ⟨e', ?_, hbody'.trans hbody, fun s x => ?_⟩
    · rw [List.append_assoc] at hrep'
      exact hrep'
    · have hskip : ∀ k, afterHeader f (fs.map HeaderField.line ++ ls) pad k e₁ s = parseLines k
          (some (remaining (fs.map HeaderField.line ++ ls) ++ 0 :: pad)) e₁ s := by
        intro k
        rw [afterHeader, if_neg (hl f List.mem_cons_self)]
        rfl
      exact ((hfirst s x).trans (returns_congr 0 fun k _ => hskip k)).trans (hrest s x)

/-- The line for the length is the last one: it makes the loop receive the body. -/
theorem afterHeader_length {n : ℕ} {x : Event × Bool × Socket} (e : Event) (s : Socket) :
    Returns (fun fuel => afterHeader (lengthField n) [] pad fuel e s) x ↔
      Returns (fun fuel => readContent fuel e (atoi (decimal n)) s) x := by
  apply returns_congr 2
  intro k hk
  have hlast : ∀ y : Event × Bool × Socket, (if y.2.1 then
      parseLines k (some (remaining [] ++ 0 :: pad)) y.1 y.2.2 else pure (y.1, false, y.2.2)) =
      (pure y : Exec (Event × Bool × Socket)) := by
    rintro ⟨e, ok, s⟩
    cases ok with
    | false => rfl
    | true => exact parseLines_nul hk e pad s
  rw [afterHeader, if_pos (sameName_lengthField n)]
  simp only [hlast, bind_pure]
  rfl

/-- The receipt of the body, whose length the last line of the block gives. -/
def content (p : Packet) (fuel : ℕ) (e : Event) (s : Socket) : Exec (Event × Bool × Socket) :=
  match p.body with
  | none => pure (e, true, s)
  | some b => readContent fuel e (atoi (decimal b.bytes.length)) s

theorem content_none {p : Packet} (hp : p.body = none) (fuel : ℕ) (e : Event) (s : Socket) :
    p.content fuel e s = .ok (e, true, s) := by
  rw [content, hp]
  rfl

theorem content_some {p : Packet} {b : CStr} (hp : p.body = some b) (fuel : ℕ) (e : Event)
    (s : Socket) : p.content fuel e s = readContent fuel e (atoi (decimal b.bytes.length)) s := by
  rw [content, hp]

/-- The block makes an event with the headers in front of the line for the length. -/
theorem parseBlock_fields (p : Packet) (mem : Addr → Option Header) (brk : Addr)
    (pad : List Byte) :
    ∃ e, e.Represents ((CStr.ofString "command", p.command) ::
        p.fields.map fun f => (f.name, f.value)) ∧ e.body = none ∧ ∀ s x,
      Returns (fun fuel => parseBlock fuel mem brk (p.block ++ 0 :: pad) s) x ↔
      Returns (fun fuel => parseLines fuel
        (some (remaining ((lengthFields p.body).map HeaderField.line) ++ 0 :: pad)) e s) x := by
  have hempty := represents_create mem brk EVENT_ID_EVENTSOCKET 0
  obtain ⟨e₁, hadd, hrep, -, hbody⟩ :=
    hempty.addAbsent (CStr.ofString "command") p.command (by simp [Present])
  have habsent : ∀ f ∈ p.fields, ¬ Present f.name [(CStr.ofString "command", p.command)] := by
    rintro f hf ⟨x, hx, hs⟩
    rw [List.mem_singleton.mp hx] at hs
    exact p.not_command f hf hs.symm
  obtain ⟨e₂, hrep', hbody', hfields⟩ := parseLines_fields p.fields
    ((lengthFields p.body).map HeaderField.line) pad hrep p.distinct habsent p.not_length
  refine ⟨e₂, hrep', hbody'.trans hbody, fun s x => Iff.trans ?_ (hfields s x)⟩
  have hnext : nextLine (p.block ++ 0 :: pad) = .ok (some (remaining
      (p.fields.map HeaderField.line ++ (lengthFields p.body).map HeaderField.line) ++ 0 :: pad)) :=
    nextLine_blockOf p.cmd _ pad
  have htext : CStr.ofBuffer (p.block ++ 0 :: pad) = p.command := p.command.ofBuffer_bytes pad
  refine Iff.trans (returns_congr 0 fun k _ => ?_) (Returns.bind_iff hadd
    (g := fun k e => parseLines k (some (remaining (p.fields.map HeaderField.line ++
      (lengthFields p.body).map HeaderField.line) ++ 0 :: pad)) e s))
  simp only [parseBlock, hnext, htext, ok_bind, agcEventAddHeaderString, bind_assoc, pure_bind]

/-- The block makes an event with the headers of the packet, and its body is received last. -/
theorem parseBlock_iff (p : Packet) (mem : Addr → Option Header) (brk : Addr) (pad : List Byte) :
    ∃ e, e.Represents p.headers ∧ e.body = none ∧ ∀ s x,
      Returns (fun fuel => parseBlock fuel mem brk (p.block ++ 0 :: pad) s) x ↔
      Returns (fun fuel => p.content fuel e s) x := by
  obtain ⟨e, hrep, hbody, hblock⟩ := p.parseBlock_fields mem brk pad
  cases hb : p.body with
  | none =>
    have hheaders : p.headers = (CStr.ofString "command", p.command) ::
        p.fields.map fun f => (f.name, f.value) := by
      rw [headers, hb]
      exact List.append_nil _
    refine ⟨e, hheaders ▸ hrep, hbody, fun s x => (hblock s x).trans ?_⟩
    apply returns_congr 2
    intro k hk
    rw [content_none hb, hb]
    exact parseLines_nul hk e pad s
  | some b =>
    -- no header of the packet has the name of the line for the length
    have habsent : ¬ Present (lengthField b.bytes.length).name
        ((CStr.ofString "command", p.command) :: p.fields.map fun f => (f.name, f.value)) := by
      rintro ⟨x, hx, hs⟩
      have hs' := hs.trans (sameName_lengthField _)
      rcases List.mem_cons.mp hx with rfl | hx
      · have hcommand : ¬ (CStr.ofString "command").SameName (CStr.ofString "content-length") := by
          decide
        exact hcommand hs'
      · obtain ⟨f, hf, rfl⟩ := List.mem_map.mp hx
        exact p.not_length f hf hs'
    obtain ⟨e', hrep', hbody', hlength⟩ :=
      parseLines_field (lengthField b.bytes.length) [] pad hrep habsent
    have hheaders : p.headers = ((CStr.ofString "command", p.command) ::
        p.fields.map fun f => (f.name, f.value)) ++
        [((lengthField b.bytes.length).name, (lengthField b.bytes.length).value)] := by
      rw [headers, hb]
      rfl
    refine ⟨e', hheaders ▸ hrep', hbody'.trans hbody, fun s x => ?_⟩
    rw [hb] at hblock
    rw [hblock]
    simp only [content_some hb]
    exact (hlength s x).trans (afterHeader_length e' s)

end Parse

/-! ## Reading a packet -/

section Read

variable {s : Socket} {tail : List Byte}

/-- The result of `read_packet` when the parsing loop ends with `x`. -/
def resultOf (x : Event × Bool × Socket) : (AgcStatus × Option Event) × Socket :=
  ((if x.2.1 then .success else .false, some x.1), x.2.2)

theorem resultOf_injective : Function.Injective resultOf := by
  rintro ⟨e, ok, s⟩ ⟨e', ok', s'⟩ h
  simp only [resultOf, Prod.mk.injEq, Option.some.injEq] at h
  obtain ⟨⟨hok, rfl⟩, rfl⟩ := h
  cases ok <;> cases ok' <;> first | rfl | cases hok

/-- What is left to do once the block has been received and parsed. -/
theorem readPacket_iff (p : Packet) (hs : .closed ∉ s) (hb : s.bytes = p.block ++ tail)
    (mem : Addr → Option Header) (brk : Addr) :
    ∃ e s', e.Represents p.headers ∧ e.body = none ∧ .closed ∉ s' ∧ s'.bytes = tail ∧ ∀ x,
      Returns (fun fuel => readPacket fuel mem brk s) x ↔
        ∃ y, resultOf y = x ∧ Returns (fun fuel => p.content fuel e s') y := by
  have hends : EndsBlock init.crcount p.block := endsBlock_blockOf_cons p.cmd _ 0
  have hfirst : ∀ b ∈ ([] ++ p.block).head?, isEol b = false := by
    obtain ⟨c, cs, hc⟩ := List.exists_cons_of_ne_nil p.cmd.ne_nil
    have hblock : p.block.head? = some c := by
      rw [block, packetLines, blockOf_cons, hc]
      rfl
    rw [List.nil_append, hblock]
    rintro b ⟨⟩
    exact p.cmd.isEol_eq c (by rw [hc]; exact List.mem_cons_self)
  obtain ⟨r, s', hread, hr, hs', hb'⟩ := readBlock_spec hs hb holds_init hends hfirst p.short
  obtain ⟨k, hk⟩ := hr.mbuf
  obtain ⟨e, hrep, hbody, hblock⟩ := p.parseBlock_iff mem brk (List.replicate k 0)
  have hmbuf : r.mbuf = p.block ++ 0 :: List.replicate k 0 := hk
  refine ⟨e, s', hrep, hbody, hs', hb', fun x => ?_⟩
  have hparse : Returns (fun fuel => readPacket fuel mem brk s) x ↔
      Returns (fun fuel => parseBlock fuel mem brk r.mbuf s' >>= fun y => pure (resultOf y)) x :=
    Returns.bind_iff hread
  rw [hparse, returns_map_iff resultOf_injective, hmbuf]
  simp only [hblock]

theorem not_returns_error {α : Type} {err : Abort} {a : α} :
    ¬ Returns (fun _ => (.error err : Exec α)) a := by
  rintro ⟨n, hn⟩
  cases hn n (Nat.le_refl n)

/-- A body whose length fits is received as it was sent. -/
theorem readContent_spec {xs : List Byte} (e : Event) (hs : .closed ∉ s)
    (hb : s.bytes = xs ++ tail) (hxs : xs ≠ []) (hlen : xs.length < INT_MAX) :
    ∃ s', Returns (fun fuel => readContent fuel e xs.length s)
        (agcEventAddBody e (CStr.ofBuffer (xs ++ [0])), true, s') ∧
      .closed ∉ s' ∧ s'.bytes = tail := by
  obtain ⟨s', hread, hs', hb'⟩ := readBody_spec hs hb []
  refine ⟨s', ?_, hs', hb'⟩
  have hpos : 0 < (xs.length : ℤ) := by
    have := List.length_pos_iff.mpr hxs
    omega
  have hcheck : checkInt (xs.length + 1) = .ok () := checkInt_of_le hlen
  simp only [readContent, if_pos hpos, hcheck, ok_bind, Int.toNat_natCast]
  exact hread.bind (Returns.const _)

theorem atoi_length {n : ℕ} (hn : n < 2 ^ 31) : atoi (decimal n) = n := by
  have h := atoi_decimal hn (s := []) (by simp)
  rwa [List.append_nil] at h

/-- A packet whose body fits is read: the call returns an event with its headers and its body, and
takes exactly its bytes. -/
theorem readPacket_represents (p : Packet) (hs : .closed ∉ s) (hb : s.bytes = p.encode ++ tail)
    (hlen : ∀ b ∈ p.body, b.bytes.length < INT_MAX) (mem : Addr → Option Header) (brk : Addr) :
    ∃ e s', Returns (fun fuel => readPacket fuel mem brk s) ((.success, some e), s') ∧
      e.Represents p.headers ∧ e.body = p.body ∧ .closed ∉ s' ∧ s'.bytes = tail := by
  rw [encode, List.append_assoc] at hb
  obtain ⟨e, s₁, hrep, hbody, hs₁, hb₁, hiff⟩ := p.readPacket_iff hs hb mem brk
  cases hp : p.body with
  | none =>
    refine ⟨e, s₁, ?_, hrep, hbody, hs₁, ?_⟩
    · refine (hiff _).mpr ⟨(e, true, s₁), rfl, ?_⟩
      simp only [content_none hp]
      exact Returns.const _
    · rw [hb₁, hp]
      rfl
  | some b =>
    have hfits := hlen b hp
    have hb₁ : s₁.bytes = b.bytes ++ tail := by
      rw [hb₁, hp]
      rfl
    obtain ⟨s₂, hread, hs₂, hb₂⟩ := readContent_spec e hs₁ hb₁ (p.body_ne_nil b hp) hfits
    have hadd : agcEventAddBody e (CStr.ofBuffer (b.bytes ++ [0])) = { e with body := some b } := by
      have hne : b.bytes.isEmpty = false := by
        rw [List.isEmpty_eq_false_iff]
        exact p.body_ne_nil b hp
      rw [CStr.ofBuffer_bytes, agcEventAddBody, if_neg (by simp [hne])]
    rw [hadd] at hread
    have hrep' : Event.Represents { e with body := some b } p.headers := hrep.congr rfl rfl rfl rfl
    refine ⟨{ e with body := some b }, s₂, ?_, hrep', rfl, hs₂, hb₂⟩
    refine (hiff _).mpr ⟨({ e with body := some b }, true, s₂), rfl, ?_⟩
    -- the number is read back from the line that was written
    have hclen : atoi (decimal b.bytes.length) = b.bytes.length :=
      atoi_length (Nat.lt_of_lt_of_le hfits (by decide))
    simp only [content_some hp, hclen]
    exact hread

/-- **A packet is delivered** if the length of its body fits: the call returns an event with its
contents and takes exactly its bytes. -/
theorem readPacket_delivers (p : Packet) (hs : .closed ∉ s) (hb : s.bytes = p.encode ++ tail)
    (hlen : ∀ b ∈ p.body, b.bytes.length < INT_MAX) (mem : Addr → Option Header) (brk : Addr) :
    ∃ e s', Returns (fun fuel => readPacket fuel mem brk s) ((.success, some e), s') ∧
      p.Delivers e ∧ .closed ∉ s' ∧ s'.bytes = tail := by
  obtain ⟨e, s', hret, hrep, hbody, hs', hb'⟩ := p.readPacket_represents hs hb hlen mem brk
  exact ⟨e, s', hret, delivers_of_represents hrep hbody, hs', hb'⟩

/-- A packet whose body is too long is not delivered: the number that is read back from its length
is another one, or has no successor. -/
theorem readPacket_not_delivers (p : Packet) (hs : .closed ∉ s) (hb : s.bytes = p.encode ++ tail)
    {b : CStr} (hp : p.body = some b) (hlen : INT_MAX ≤ b.bytes.length)
    {mem : Addr → Option Header} {brk : Addr} {status : AgcStatus} {e : Event} {s' : Socket}
    (h : Returns (fun fuel => readPacket fuel mem brk s) ((status, some e), s')) :
    ¬ p.Delivers e := by
  rw [encode, List.append_assoc] at hb
  obtain ⟨e₁, s₁, -, hbody, hs₁, hb₁, hiff⟩ := p.readPacket_iff hs hb mem brk
  have hb₁ : s₁.bytes = b.bytes ++ tail := by
    rw [hb₁, hp]
    rfl
  obtain ⟨⟨e₂, ok, s₂⟩, hy, hread⟩ := (hiff _).mp h
  obtain ⟨⟨-, rfl⟩, rfl⟩ : (_ ∧ e₂ = e) ∧ s₂ = s' := by
    simpa [resultOf] using hy
  simp only [content_some hp] at hread
  intro hdel
  have hbody₂ : e₂.body = some b := hdel.body.trans hp
  set c := atoi (decimal b.bytes.length) with hc
  by_cases hpos : 0 < c
  · by_cases hfits : c.toNat < INT_MAX
    · -- another, shorter body is received
      set xs := b.bytes.take c.toNat with hxs
      have hlen' : xs.length = c.toNat := by
        rw [hxs, List.length_take]
        omega
      have hsplit : s₁.bytes = xs ++ (b.bytes.drop c.toNat ++ tail) := by
        rw [hb₁, hxs, ← List.append_assoc, List.take_append_drop]
      have hne : xs ≠ [] := by
        rw [← List.length_pos_iff]
        omega
      obtain ⟨s₃, hspec, -⟩ := readContent_spec e₁ hs₁ hsplit hne (hlen' ▸ hfits)
      have hcast : (xs.length : ℤ) = c := by omega
      rw [hcast] at hspec
      obtain ⟨rfl, -⟩ := Prod.mk.inj (hread.unique hspec)
      have hnul : 0 ∉ xs := fun hm => b.nul_notMem (List.mem_of_mem_take hm)
      rw [agcEventAddBody, CStr.ofBuffer_bytes ⟨xs, hnul⟩, if_neg (by simpa using hne)] at hbody₂
      have hlt : b.bytes.length = xs.length := by
        rw [← Option.some.inj hbody₂]
      omega
    · -- the buffer of the body would need one byte more than an int can say
      have hcheck : checkInt (c.toNat + 1) = .error .fault := if_neg (by omega)
      simp only [readContent, if_pos hpos, hcheck, error_bind] at hread
      exact not_returns_error hread
  · -- a number that is not positive: no body is received
    simp only [readContent, if_neg hpos] at hread
    obtain ⟨rfl, -⟩ := Prod.mk.inj (hread.unique (Returns.const _))
    rw [hbody] at hbody₂
    cases hbody₂

/-- A command line. -/
def sendLine : Line := ⟨CStr.ofString "send", by decide, isEol_eq_of_all (by decide)⟩

/-- A header. -/
def toAll : HeaderField where
  name := CStr.ofString "to"
  value := CStr.ofString "all"
  name_ne_nil := by decide
  name_isEol := isEol_eq_of_all (by decide)
  colon_notMem := by decide
  value_isEol := isEol_eq_of_all (by decide)
  value_space := by decide

/-- A body of `n` letters. -/
def lettersBody (n : ℕ) : CStr := CStr.replicate n 98 (by decide)

theorem length_lettersBody (n : ℕ) : (lettersBody n).bytes.length = n := List.length_replicate

theorem short_letters {n : ℕ} (hd : (decimal n).length ≤ 20) :
    (blockOf (packetLines sendLine [toAll] (some (lettersBody n)))).length < EVTSKT_MAX_LEN := by
  have hcmd : sendLine.text.bytes.length = 4 := by decide
  have hto : toAll.name.bytes.length = 2 := by decide
  have hall : toAll.value.bytes.length = 3 := by decide
  have hname : (CStr.ofString "Content-Length").bytes.length = 14 := by decide
  simp only [packetLines, lengthFields, Option.map_some, Option.toList_some, List.map_cons,
    List.map_nil, List.cons_append, List.nil_append, length_lettersBody, blockOf,
    List.flatMap_cons, List.flatMap_nil, List.append_nil, List.length_append, List.length_cons,
    List.length_nil, hcmd, hto, hall, HeaderField.line, lengthField, hname,
    EVTSKT_MAX_LEN]
  omega

/-- A packet with a header and a body of `n` letters. -/
def letters (n : ℕ) (hn : n ≠ 0) (hd : (decimal n).length ≤ 20) : Packet where
  cmd := sendLine
  fields := [toAll]
  body := some (lettersBody n)
  distinct := List.pairwise_singleton _ _
  not_command f hf := by
    obtain rfl := List.mem_singleton.mp hf
    decide
  not_length f hf := by
    obtain rfl := List.mem_singleton.mp hf
    decide
  body_ne_nil b hb := by
    obtain rfl : lettersBody n = b := Option.some.inj hb
    rw [← List.length_pos_iff, length_lettersBody]
    omega
  short := short_letters hd

theorem letters_length {n : ℕ} {hn : n ≠ 0} {hd : (decimal n).length ≤ 20} {b : CStr}
    (hb : b ∈ (letters n hn hd).body) : b.bytes.length = n := by
  obtain rfl : lettersBody n = b := Option.some.inj hb
  exact length_lettersBody n

/-- A body of two bytes. -/
def twoLetters : Packet := letters 2 (by decide) (by simp [decimal])

/-- A body whose length is the first one that is not an `int`. -/
def overlong : Packet := letters (2 ^ 31) (by decide) (by simp [decimal])

/-- A packet of letters that are too many is not delivered. -/
theorem not_framed_letters {n : ℕ} {hn : n ≠ 0} {hd : (decimal n).length ≤ 20}
    (hlen : INT_MAX ≤ n) :
    ¬ Framed [letters n hn hd] [.data (letters n hn hd).encode] := by
  set p := letters n hn hd with hp
  rintro ⟨-, hcall⟩
  obtain ⟨e, s', hret, hdel, -⟩ := hcall (fun _ => none) 0
  have hb : Socket.bytes [.data p.encode] = p.encode ++ [] := rfl
  obtain ⟨b, hbody⟩ : ∃ b, p.body = some b := ⟨_, rfl⟩
  have hbig : INT_MAX ≤ b.bytes.length := by
    rw [letters_length hbody]
    exact hlen
  exact p.readPacket_not_delivers (by simp) hb hbody hbig hret hdel

end Read

end Packet

/-! ## Sequences of packets -/

/-- **The packets are delivered** one by one, whatever the socket makes of their bytes, exactly when
the length of every body, and the number behind it, fits an `int`. -/
theorem framed_iff_length_lt (ps : List Packet) {s : Socket} {rest : List Byte}
    (hs : .closed ∉ s) (hb : s.bytes = ps.flatMap Packet.encode ++ rest) :
    Framed ps s ↔ ∀ p ∈ ps, ∀ b ∈ p.body, b.bytes.length < INT_MAX := by
  induction ps generalizing s with
  | nil => exact ⟨fun _ p hp => absurd hp List.not_mem_nil, fun _ => trivial⟩
  | cons p ps ih =>
    rw [List.flatMap_cons, List.append_assoc] at hb
    constructor
    · rintro ⟨-, hcall⟩
      obtain ⟨e, s', hret, hdel, hb', hrest⟩ := hcall (fun _ => none) 0
      have hlen : ∀ b ∈ p.body, b.bytes.length < INT_MAX := by
        intro b hp
        by_contra hbig
        exact p.readPacket_not_delivers hs hb hp (Nat.le_of_not_lt hbig) hret hdel
      -- the socket is left without an end, so that the other packets can be read
      obtain ⟨e₁, s₁, hret₁, -, hs₁, hb₁⟩ := p.readPacket_delivers hs hb hlen (fun _ => none) 0
      obtain ⟨-, rfl⟩ := Prod.mk.inj (hret.unique hret₁)
      intro q hq
      rcases List.mem_cons.mp hq with rfl | hq
      · exact hlen
      · exact (ih hs₁ hb₁).mp hrest q hq
    · intro hlen
      refine ⟨fun s' r h => reaches_terminated h, fun mem brk => ?_⟩
      obtain ⟨e, s', hret, hdel, hs', hb'⟩ :=
        p.readPacket_delivers hs hb (hlen p List.mem_cons_self) mem brk
      refine ⟨e, s', hret, hdel, hb' ▸ hb, ?_⟩
      exact (ih hs' hb').mpr fun q hq => hlen q (List.mem_cons_of_mem p hq)

/-- Two packets, the first of which comes in three receipts. -/
theorem framed_in_parts :
    Framed [Packet.twoLetters, Packet.twoLetters] [.data (Packet.twoLetters.encode.take 3),
      .wouldBlock, .data (Packet.twoLetters.encode.drop 3), .wouldBlock,
      .data Packet.twoLetters.encode] := by
  have hbytes : Socket.bytes [.data (Packet.twoLetters.encode.take 3), .wouldBlock,
      .data (Packet.twoLetters.encode.drop 3), .wouldBlock, .data Packet.twoLetters.encode] =
      [Packet.twoLetters, Packet.twoLetters].flatMap Packet.encode ++ [] := by
    simp only [Socket.bytes_data, Socket.bytes_wouldBlock, Socket.bytes_nil, List.flatMap_cons,
      List.flatMap_nil, List.append_nil]
    rw [← List.append_assoc, List.take_append_drop]
  refine (framed_iff_length_lt _ (by simp) hbytes).mpr ?_
  intro p hp b hb
  obtain rfl : p = Packet.twoLetters := by simpa using hp
  rw [Packet.letters_length hb]
  decide

/-- A body of `2 ^ 31` bytes is not received, although all of its bytes are there. -/
theorem not_framed_overlong :
    Recv.closed ∉ [Recv.data Packet.overlong.encode] ∧
      Socket.bytes [.data Packet.overlong.encode] = [Packet.overlong].flatMap Packet.encode ∧
      ¬ Framed [Packet.overlong] [.data Packet.overlong.encode] :=
  ⟨by simp, by simp, Packet.not_framed_letters (by decide)⟩
