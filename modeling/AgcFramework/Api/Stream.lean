import AgcFramework.Lib.Buffer
import AgcFramework.Lib.Trace
import AgcFramework.Types

/-!
# The stream of an API call

The answer of an API call is collected in a buffer that grows. Texts are written behind what is
there and measured from the start of the buffer, bytes are written with their number. A text that
comes behind a NUL is therefore lost.

## Main definitions

* `Stream`: `agc_stream_handle_t`
* `agcApiStreamWrite`, `agcApiStreamRawWrite`: the two writers of `agc_api.c`
* `Holds s bs`: the stream has taken these bytes

## Main results

* `Holds.rawWrite`, `Holds.write`: what a call adds
* `stream_holds_iff`: a stream holds what was written as long as no text follows a NUL
-/

open Exec

namespace Api

/-- `AGC_CMD_CHUNK_LEN`. -/
def AGC_CMD_CHUNK_LEN : ℕ := 1024

/-- The fields of `agc_stream_handle_t` that the writers use. The allocation is a list, and `fin` is
the distance of `end` from its start. -/
structure Stream where
  data : List Byte
  fin : ℕ
  dataSize : ℕ
  dataLen : ℕ
  allocLen : ℕ
  allocChunk : ℕ
  uuid : Option CStr

/-- `agc_api_stand_stream`. -/
def agcApiStandStream : Stream where
  data := List.replicate AGC_CMD_CHUNK_LEN 0
  fin := 0
  dataSize := AGC_CMD_CHUNK_LEN
  dataLen := 0
  allocLen := AGC_CMD_CHUNK_LEN
  allocChunk := AGC_CMD_CHUNK_LEN
  uuid := none

/-- The growth of `agc_api_stream_write`, by the bytes that `realloc` finds; none if it fails. -/
def growText (h : Stream) (need : ℕ) (fill : Option (ℕ → Byte)) : Option Stream :=
  if h.dataSize - h.dataLen < need ∧ h.allocLen ≠ 0 then
    let newLen := h.dataSize + need + h.allocChunk
    fill.map fun fill =>
      { h with
        data := Buffer.realloc h.data newLen fill
        dataSize := newLen
        allocLen := newLen
        fin := h.dataLen }
  else some h

/-- `agc_api_stream_write` of a formatted text, or of none if the formatting fails. -/
def agcApiStreamWrite (h : Stream) (text : Option CStr) (fill : Option (ℕ → Byte)) :
    Exec (Stream × AgcStatus) :=
  if h.dataSize ≤ h.dataLen then pure (h, .false)
  else
    match text with
    | none => pure (h, .false)
    | some text =>
      let need := text.bytes.length + 1
      match growText h need fill with
      | none => pure (h, .false)
      | some h =>
        if h.dataSize - h.dataLen < need then pure (h, .false)
        else do
          let data ← Buffer.copy h.data h.fin (text.bytes ++ [0])
          let dataLen ← Buffer.strlen data
          pure ({ h with data := data, dataLen := dataLen, fin := dataLen }, .success)

/-- The growth of `agc_api_stream_raw_write`; none if `realloc` fails. -/
def growRaw (h : Stream) (need : ℕ) (fill : Option (ℕ → Byte)) : Option Stream :=
  if h.dataSize ≤ need then
    let need := need + h.allocChunk
    fill.map fun fill => { h with data := Buffer.realloc h.data need fill, dataSize := need }
  else some h

/-- `agc_api_stream_raw_write`. -/
def agcApiStreamRawWrite (h : Stream) (bytes : List Byte) (fill : Option (ℕ → Byte)) :
    Exec (Stream × AgcStatus) :=
  match growRaw h (h.dataLen + bytes.length) fill with
  | none => pure (h, .memerr)
  | some h => do
    let data ← Buffer.copy h.data h.dataLen bytes
    let dataLen := h.dataLen + bytes.length
    let data ← Buffer.put data dataLen 0
    pure ({ h with data := data, dataLen := dataLen, fin := dataLen }, .success)

/-! ## What a stream holds -/

/-- The stream has taken these bytes: they are at the start of the buffer, with a NUL behind them,
and the sizes and the end are right. -/
structure Holds (s : Stream) (bs : List Byte) : Prop where
  text : s.data.take s.dataLen = bs
  nul : s.data[s.dataLen]? = some 0
  lt : s.dataLen < s.dataSize
  size : s.data.length = s.dataSize
  fin : s.fin = s.dataLen

/-- The stream may grow. -/
structure Growable (s : Stream) : Prop where
  allocLen : s.allocLen ≠ 0
  allocChunk : 0 < s.allocChunk

variable {s : Stream} {bs : List Byte}

/-- The buffer as a whole. -/
theorem holds_iff : Holds s bs ↔
    ∃ rest, s = { s with
      data := bs ++ 0 :: rest
      fin := bs.length
      dataLen := bs.length
      dataSize := (bs ++ 0 :: rest).length } := by
  constructor
  · intro h
    have hlen : s.dataLen < s.data.length := h.size ▸ h.lt
    have hbs : s.dataLen = bs.length := by
      rw [← h.text, List.length_take, Nat.min_eq_left hlen.le]
    refine ⟨s.data.drop (s.dataLen + 1), ?_⟩
    have hnul : s.data[s.dataLen] = 0 := by
      simpa [List.getElem?_eq_getElem hlen] using h.nul
    have hdata : s.data = bs ++ 0 :: s.data.drop (s.dataLen + 1) := by
      rw [← h.text, ← hnul, ← List.drop_eq_getElem_cons hlen, List.take_append_drop]
    obtain ⟨data, fin, dataSize, dataLen, allocLen, allocChunk, uuid⟩ := s
    simp only at hdata hbs
    have hsize := h.size
    have hfin := h.fin
    simp only at hsize hfin
    rw [← hdata, ← hbs, hsize, hfin]
  · rintro ⟨rest, h⟩
    rw [h]
    constructor <;> simp

theorem Holds.length_eq (h : Holds s bs) : s.dataLen = bs.length := by
  obtain ⟨rest, h⟩ := holds_iff.mp h
  rw [h]

/-- A larger allocation. -/
theorem Holds.realloc (h : Holds s bs) {n fin : ℕ} (hn : s.dataSize ≤ n) (hfin : fin = s.dataLen)
    (fill : ℕ → Byte) (allocLen : ℕ) :
    Holds { s with
      data := Buffer.realloc s.data n fill
      dataSize := n
      fin := fin
      allocLen := allocLen } bs := by
  obtain ⟨extra, hextra, hlen⟩ := Buffer.exists_realloc_eq (h.size ▸ hn) fill
  have hlt : s.dataLen < s.data.length := h.size ▸ h.lt
  refine ⟨?_, ?_, ?_, ?_, hfin⟩
  · rw [hextra, List.take_append_of_le_length hlt.le, h.text]
  · rw [hextra, List.getElem?_append_left hlt, h.nul]
  · exact h.lt.trans_le hn
  · rw [hextra, hlen]

/-- The growth of the text writer leaves room. -/
theorem Holds.growText (h : Holds s bs) (hg : Growable s) (need : ℕ) (fill : ℕ → Byte) :
    ∃ s', growText s need (some fill) = some s' ∧ Holds s' bs ∧ Growable s' ∧
      need ≤ s'.dataSize - s'.dataLen := by
  have hlt := h.lt
  unfold Api.growText
  split_ifs with hgrow
  · refine ⟨_, rfl, h.realloc (by omega) rfl fill _, ⟨?_, hg.allocChunk⟩, ?_⟩
    · simp only [ne_eq]
      omega
    · simp only
      omega
  · refine ⟨s, rfl, h, hg, ?_⟩
    have := hg.allocLen
    omega

/-- The growth of the writer of bytes leaves room. -/
theorem Holds.growRaw (h : Holds s bs) (hg : Growable s) (need : ℕ) (fill : ℕ → Byte) :
    ∃ s', growRaw s need (some fill) = some s' ∧ Holds s' bs ∧ Growable s' ∧
      need < s'.dataSize := by
  have hchunk := hg.allocChunk
  unfold Api.growRaw
  split_ifs with hgrow
  · exact ⟨_, rfl, h.realloc (by omega) h.fin fill _, ⟨hg.allocLen, hg.allocChunk⟩,
      by simpa using hchunk⟩
  · exact ⟨s, rfl, h, hg, by omega⟩

/-- What is written behind the bytes of a stream. -/
theorem Holds.copy (h : Holds s bs) {bytes : List Byte}
    (hroom : bs.length + bytes.length ≤ s.dataSize) :
    Buffer.copy s.data bs.length bytes =
      .ok (bs ++ bytes ++ s.data.drop (bs.length + bytes.length)) := by
  rw [Buffer.copy_of_le (h.size ▸ hroom), ← h.length_eq, h.text, h.length_eq]

/-- Bytes are added, whatever they are. -/
theorem Holds.rawWrite (h : Holds s bs) (hg : Growable s) (bytes : List Byte) (fill : ℕ → Byte) :
    ∃ s', agcApiStreamRawWrite s bytes (some fill) = .ok (s', .success) ∧ Growable s' ∧
      Holds s' (bs ++ bytes) := by
  obtain ⟨s₁, hgrow, h₁, hg₁, hroom⟩ := h.growRaw hg (s.dataLen + bytes.length) fill
  rw [h.length_eq] at hroom
  -- there is a byte behind the new ones, which becomes the NUL
  have hlt : bs.length + bytes.length < s₁.data.length := h₁.size ▸ hroom
  let rest := s₁.data.drop (bs.length + bytes.length + 1)
  have hput : Buffer.put (bs ++ bytes ++ s₁.data.drop (bs.length + bytes.length))
      (bs.length + bytes.length) 0 = .ok (bs ++ bytes ++ 0 :: rest) := by
    rw [List.drop_eq_getElem_cons hlt, Buffer.put_append (by simp)]
  let s' : Stream := { s₁ with
    data := bs ++ bytes ++ 0 :: rest
    fin := bs.length + bytes.length
    dataLen := bs.length + bytes.length }
  have hsize : (bs ++ bytes ++ 0 :: rest).length = s₁.dataSize := by
    rw [← h₁.size]
    simp [rest]
    omega
  refine ⟨s', ?_, ⟨hg₁.allocLen, hg₁.allocChunk⟩, ?_⟩
  · simp only [agcApiStreamRawWrite, hgrow, h₁.length_eq, h₁.copy hroom.le, hput, ok_bind,
      pure_eq_ok]
    rfl
  · refine ⟨?_, ?_, hroom, hsize, rfl⟩
    · simp only [s', ← List.length_append, List.take_left]
    · simp only [s', ← List.length_append, List.getElem?_append_right (Nat.le_refl _), Nat.sub_self,
        List.getElem?_cons_zero]

/-- A text is written behind what is there, and measured with it. -/
theorem Holds.write (h : Holds s bs) (hg : Growable s) (text : CStr) (fill : ℕ → Byte) :
    ∃ s' rest, agcApiStreamWrite s (some text) (some fill) = .ok (s', .success) ∧ Growable s' ∧
      s'.data = bs ++ text.bytes ++ 0 :: rest ∧ Buffer.strlen s'.data = .ok s'.dataLen ∧
      s'.data.length = s'.dataSize ∧ s'.fin = s'.dataLen := by
  obtain ⟨s₁, hgrow, h₁, hg₁, hroom⟩ := h.growText hg (text.bytes.length + 1) fill
  have hlen := h₁.length_eq
  have hroom' : bs.length + (text.bytes ++ [0]).length ≤ s₁.dataSize := by
    have := h₁.lt
    simp
    omega
  let rest := s₁.data.drop (bs.length + (text.bytes ++ [0]).length)
  let data := bs ++ text.bytes ++ 0 :: rest
  have hcopy : Buffer.copy s₁.data bs.length (text.bytes ++ [0]) = .ok data := by
    rw [h₁.copy hroom']
    simp [data, rest]
  -- the length is measured from the start of the data, not from the text
  have hstrlen : Buffer.strlen data = .ok (Buffer.str data 0).bytes.length :=
    if_pos (by simp [data])
  refine ⟨{ s₁ with
    data := data
    dataLen := (Buffer.str data 0).bytes.length
    fin := (Buffer.str data 0).bytes.length }, rest, ?_, ⟨hg₁.allocLen, hg₁.allocChunk⟩, rfl,
    hstrlen, ?_, rfl⟩
  · have hnot : ¬ s.dataSize ≤ s.dataLen := Nat.not_le.mpr h.lt
    rw [hlen] at hroom
    simp only [agcApiStreamWrite, if_neg hnot, hgrow, h₁.fin, hlen, if_neg (Nat.not_lt.mpr hroom),
      hcopy, hstrlen, ok_bind, pure_eq_ok]
  · rw [← h₁.size]
    simp only [data, rest]
    simp at hroom' ⊢
    rw [h₁.size]
    omega

/-! ## Runs -/

/-- A call in which the allocations succeed. -/
inductive Call
  | write (text : CStr) (fill : ℕ → Byte)
  | rawWrite (bytes : List Byte) (fill : ℕ → Byte)

/-- What is written. -/
def Call.bytes : Call → List Byte
  | .write text _ => text.bytes
  | .rawWrite bytes _ => bytes

def step (s : Stream) : Call → Exec Stream
  | .write text fill => do
    let (s, _) ← agcApiStreamWrite s (some text) (some fill)
    pure s
  | .rawWrite bytes fill => do
    let (s, _) ← agcApiStreamRawWrite s bytes (some fill)
    pure s

/-- The calls on a new stream. -/
def run (calls : List Call) : Exec Stream := calls.foldlM step agcApiStandStream

/-- All that was written. -/
def written (calls : List Call) : List Byte := calls.flatMap Call.bytes

/-- A text does not come behind a NUL. -/
def Call.Admissible (before : List Byte) : Call → Prop
  | .write _ _ => 0 ∉ before
  | .rawWrite _ _ => True

theorem run_snoc (calls : List Call) (c : Call) :
    run (calls ++ [c]) = run calls >>= fun s => step s c := by
  simp only [run, List.foldlM_append, List.foldlM_cons, List.foldlM_nil, bind_pure]

theorem holds_init : Holds agcApiStandStream [] ∧ Growable agcApiStandStream := by
  have hpos : 0 < AGC_CMD_CHUNK_LEN := by decide
  refine ⟨⟨rfl, ?_, hpos, List.length_replicate, rfl⟩, ⟨hpos.ne', hpos⟩⟩
  exact List.getElem?_replicate_of_lt hpos

/-- One call: the stream holds what it adds exactly if it is no text behind a NUL. -/
theorem Holds.step_iff (h : Holds s bs) (hg : Growable s) (c : Call) :
    ∃ s', step s c = .ok s' ∧ Growable s' ∧ (Holds s' (bs ++ c.bytes) ↔ c.Admissible bs) := by
  cases c with
  | rawWrite bytes fill =>
    obtain ⟨s', heq, hg', h'⟩ := h.rawWrite hg bytes fill
    refine ⟨s', ?_, hg', iff_of_true h' trivial⟩
    simp only [step, heq, ok_bind, pure_eq_ok]
  | write text fill =>
    obtain ⟨s', rest, heq, hg', hdata, hstrlen, hsize, hfin⟩ := h.write hg text fill
    refine ⟨s', ?_, hg', ?_⟩
    · simp only [step, heq, ok_bind, pure_eq_ok]
    constructor
    · -- a NUL in front of the text ends the measure
      intro h' h0
      rw [List.append_assoc] at hdata
      have hlt := Buffer.strlen_lt hdata h0 hstrlen
      have hlen := h'.length_eq
      rw [List.length_append] at hlen
      omega
    · intro h0
      -- without a NUL the measure is that of all that was written
      have h0' : 0 ∉ bs ++ text.bytes := by simpa using ⟨h0, text.nul_notMem⟩
      rw [hdata, Buffer.strlen_append h0'] at hstrlen
      have hlen : s'.dataLen = (bs ++ text.bytes).length := (Except.ok.inj hstrlen).symm
      refine ⟨?_, ?_, ?_, hsize, hfin⟩
      · rw [hlen, hdata, List.take_left]
        rfl
      · rw [hlen, hdata, List.getElem?_append_right (Nat.le_refl _), Nat.sub_self,
          List.getElem?_cons_zero]
      · rw [hlen, ← hsize, hdata]
        simp

/-- One call at the end of a run. -/
theorem run_snoc_eq {calls : List Call} (hrun : run calls = .ok s) (hg : Growable s)
    (h : Holds s (written calls)) (c : Call) : ∃ s', run (calls ++ [c]) = .ok s' ∧ Growable s' ∧
      (Holds s' (written (calls ++ [c])) ↔ c.Admissible (written calls)) := by
  obtain ⟨s', hstep, hg', hiff⟩ := h.step_iff hg c
  have hwritten : written (calls ++ [c]) = written calls ++ c.bytes := by simp [written]
  exact ⟨s', by rw [run_snoc, hrun, ok_bind, hstep], hg', hwritten ▸ hiff⟩

/-- In a run from a new stream the buffer, its sizes and its end are right after each call exactly
if no text is written behind a NUL. -/
theorem stream_holds_iff (calls : List Call) :
    (∀ p, p <+: calls → ∃ s, run p = .ok s ∧ Holds s (written p)) ↔
      Trace.Throughout (fun before c => c.Admissible (written before)) calls := by
  -- the run rule needs the fields by which the stream grows too
  let S : List Call → Prop := fun p => ∃ s, run p = .ok s ∧ Growable s ∧ Holds s (written p)
  have hrule : (∀ p, p <+: calls → S p) ↔
      Trace.Throughout (fun before c => c.Admissible (written before)) calls := by
    refine Trace.prefixes_iff_throughout ⟨_, rfl, holds_init.2, holds_init.1⟩ ?_ calls
    rintro calls c ⟨s, hrun, hg, h⟩
    obtain ⟨s', hrun', hg', hiff⟩ := run_snoc_eq hrun hg h c
    rw [← hiff]
    constructor
    · rintro ⟨s₁, hrun₁, -, h₁⟩
      obtain rfl := Except.ok.inj (hrun₁.symm.trans hrun')
      exact h₁
    · intro h'
      exact ⟨s', hrun', hg', h'⟩
  have hgrow : ∀ p, (∀ q, q <+: p → ∃ s, run q = .ok s ∧ Holds s (written q)) → S p := by
    intro p
    induction p using List.reverseRecOn with
    | nil => exact fun _ => ⟨_, rfl, holds_init.2, holds_init.1⟩
    | append_singleton p c ih =>
      intro hall
      obtain ⟨s, hrun, hg, h⟩ := ih fun q hq => hall q (hq.trans (List.prefix_append p [c]))
      obtain ⟨s', hrun', hg', -⟩ := run_snoc_eq hrun hg h c
      obtain ⟨s₁, hrun₁, h₁⟩ := hall _ (List.prefix_refl _)
      obtain rfl := Except.ok.inj (hrun₁.symm.trans hrun')
      exact ⟨s₁, hrun₁, hg', h₁⟩
  rw [← hrule]
  constructor
  · intro hall p hp
    exact hgrow p fun q hq => hall q (hq.trans hp)
  · intro hall p hp
    obtain ⟨s, hrun, -, h⟩ := hall p hp
    exact ⟨s, hrun, h⟩

/-- A NUL, and a text behind it. -/
theorem stream_text_behind_nul : ¬ ∃ s,
    run [.rawWrite [0] fun _ => 0, .write ⟨[97], by decide⟩ fun _ => 0] = .ok s ∧
      Holds s (written [.rawWrite [0] fun _ => 0, .write ⟨[97], by decide⟩ fun _ => 0]) := by
  rintro ⟨s, hrun, h⟩
  obtain ⟨s₁, hrun₁, hg₁, hiff₁⟩ := run_snoc_eq (show run [] = _ from rfl) holds_init.2 holds_init.1
    (.rawWrite [0] fun _ => 0)
  obtain ⟨s₂, hrun₂, -, hiff₂⟩ := run_snoc_eq hrun₁ hg₁ (hiff₁.mpr trivial)
    (.write ⟨[97], by decide⟩ fun _ => 0)
  obtain rfl := Except.ok.inj (hrun.symm.trans hrun₂)
  exact hiff₂.mp h (by simp [written, Call.bytes])

end Api
