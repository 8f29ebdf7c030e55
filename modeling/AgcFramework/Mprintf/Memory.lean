import AgcFramework.Lib.Buffer
import AgcFramework.Mprintf.Return

/-!
# Printing into memory

`mout` is the consumer that collects the texts. They go to a buffer on the stack, or to that of the
caller, and for `agc_mprintf` to a block of the heap once the buffer is full. Where a block cannot
be made larger, the record is nevertheless set to the larger size.

## Main definitions

* `SgMprintf`: `struct sgMprintf`, with the memory that its pointers lead to
* `mout`, `baseVprintf`: the consumer, and what is around the formatter
* `agcVmprintf`, `agcSnprintfv`: the functions that are called
* `growths`: how many times the memory is made larger

## Main results

* `agcVmprintf_eq`: the text and its allocation, or a write out of bounds
* `agcSnprintfv_eq`: what is in the buffer of the caller
-/

open Exec

namespace Mprintf

/-! ## The consumer -/

/-- Where `zText` points to: to `zBase`, to a block of the heap or nowhere. -/
inductive TextPtr
  | base
  | heap (block : List Byte)
  | null
  deriving DecidableEq, Repr

/-- `struct sgMprintf`, with the memory that `zBase` points to and the number of calls of
`xRealloc` so far. -/
structure SgMprintf where
  zBase : List Byte
  zText : TextPtr
  nChar : ℕ
  nTotal : ℕ
  nAlloc : ℤ
  reallocs : ℕ
  deriving DecidableEq, Repr

/-- The least `int`. -/
def INT_MIN : ℤ := -2 ^ 31

/-- `xRealloc`, if it is not null: which of its calls succeed, and what the new bytes are. -/
abbrev Realloc := Option (ℕ → Option (ℕ → Byte))

/-- The memory of the text, if there is any. -/
def SgMprintf.text (m : SgMprintf) : Option (List Byte) :=
  match m.zText with
  | .base => some m.zBase
  | .heap block => some block
  | .null => none

/-- The memory of the text after a write. -/
def SgMprintf.setText (m : SgMprintf) (bytes : List Byte) : SgMprintf :=
  match m.zText with
  | .base => { m with zBase := bytes }
  | .heap _ => { m with zText := .heap bytes }
  | .null => m

/-- `xRealloc` of the memory of the text to `n` bytes: a new block with the first `keep` bytes of
`zBase`, or the block at its new size. Where it fails, a text that was in `zBase` is lost. -/
def SgMprintf.realloc (m : SgMprintf) (grow : ℕ → Option (ℕ → Byte)) (n keep : ℕ) :
    Exec SgMprintf := do
  let m' := { m with reallocs := m.reallocs + 1 }
  match m.zText, grow m.reallocs with
  | .base, some fill => do
    let old ← Buffer.read m.zBase 0 keep
    let block ← Buffer.copy (Buffer.realloc [] n fill) 0 old
    pure { m' with zText := .heap block }
  | .base, none => pure { m' with zText := .null }
  | .heap block, some fill => pure { m' with zText := .heap (Buffer.realloc block n fill) }
  | .null, some fill => pure { m' with zText := .heap (Buffer.realloc [] n fill) }
  | _, none => pure m'

/-- The `memcpy` of `mout`, which is made for a positive number of bytes. -/
def copyText (bytes : List Byte) (i : ℕ) (zNewText : List Byte) (nNewChar : ℤ) :
    Exec (List Byte) :=
  if 0 < nNewChar then Buffer.copy bytes i (zNewText.take nNewChar.toNat) else pure bytes

/-- The end of `mout`: the first `nNewChar` bytes go behind the text, and a NUL behind them. -/
def SgMprintf.append (m : SgMprintf) (zNewText : List Byte) (nNewChar : ℤ) : Exec SgMprintf :=
  match m.text with
  | none => pure m
  | some bytes => do
    let bytes ← copyText bytes m.nChar zNewText nNewChar
    let nChar := m.nChar + nNewChar.toNat
    let bytes ← Buffer.put bytes nChar 0
    pure ({ m with nChar := nChar }.setText bytes)

/-- `mout`. -/
def mout (xRealloc : Realloc) (m : SgMprintf) (zNewText : List Byte) : Exec SgMprintf := do
  let nNewChar := zNewText.length
  checkInt (m.nTotal + nNewChar)
  let m := { m with nTotal := m.nTotal + nNewChar }
  checkInt (m.nChar + nNewChar + 1)
  if m.nAlloc < ((m.nChar + nNewChar + 1 : ℕ) : ℤ) then
    match xRealloc with
    | none =>
      -- for a size near the least `int` the room that is left is not an `int`
      if m.nAlloc - m.nChar - 1 < INT_MIN then .error .fault
      else m.append zNewText (m.nAlloc - m.nChar - 1)
    | some grow => do
      let nAlloc := m.nChar + nNewChar * 2 + 1
      checkInt nAlloc
      let m ← { m with nAlloc := nAlloc }.realloc grow nAlloc m.nChar
      m.append zNewText nNewChar
  else m.append zNewText nNewChar

/-- The end of `base_vprintf`: the text goes to a block of its own size. -/
def finish (xRealloc : Realloc) (m : SgMprintf) : Exec SgMprintf :=
  match xRealloc, m.zText with
  | none, _ => pure m
  | some grow, .base => m.realloc grow (m.nChar + 1) (m.nChar + 1)
  | some grow, _ =>
    if m.nChar + 10 < m.nAlloc then m.realloc grow (m.nChar + 1) 0 else pure m

/-- `base_vprintf`, for the texts that `vxprintf` gives to `mout`. -/
def baseVprintf (xRealloc : Realloc) (zInitBuf : List Byte) (nInitBuf : ℤ)
    (calls : List (List Byte)) : Exec SgMprintf := do
  let m ← calls.foldlM (mout xRealloc) ⟨zInitBuf, .base, 0, 0, nInitBuf, 0⟩
  finish xRealloc m

variable {R : Type}

/-- `agc_vmprintf` and `agc_mprintf`: `zBase` is what the stack happens to hold. -/
def agcVmprintf (grow : ℕ → Option (ℕ → Byte)) (F : Floats R)
    (malloc : ℕ → Bool) (zBase : List Byte) (zFormat : CStr) (ap : List (VaArg R)) :
    Exec TextPtr := do
  let p ← vxprintf false F malloc zFormat ap
  let m ← baseVprintf (some grow) zBase etBUFSIZE p.calls
  pure m.zText

/-- `agc_snprintfv`: what it leaves in the buffer of the caller. -/
def agcSnprintfv (F : Floats R) (malloc : ℕ → Bool)
    (zBuf : List Byte) (n : ℤ) (zFormat : CStr) (ap : List (VaArg R)) : Exec (List Byte) := do
  let p ← vxprintf false F malloc zFormat ap
  let m ← baseVprintf none zBuf n p.calls
  pure m.zBase

/-! ## The text in memory -/

/-- The memory holds the text, a NUL behind it, and what else there is. -/
def HoldsText (bytes t : List Byte) (n : ℕ) : Prop :=
  ∃ rest, bytes = t ++ 0 :: rest ∧ bytes.length = n

variable {m : SgMprintf} {bytes t u : List Byte} {n : ℕ}

/-- What is written behind a text that fits. -/
theorem write_eq {pre : List Byte} (hbytes : bytes = pre ++ u)
    (hroom : pre.length + t.length < bytes.length) :
    (Buffer.copy bytes pre.length t >>= fun b => Buffer.put b (pre.length + t.length) 0) =
      .ok (pre ++ t ++ 0 :: bytes.drop (pre.length + t.length + 1)) := by
  have htake : bytes.take pre.length = pre := by
    rw [hbytes]
    exact List.take_left' rfl
  rw [Buffer.copy_of_le (by omega), ok_bind, htake, List.drop_eq_getElem_cons hroom]
  exact Buffer.put_append (by rw [List.length_append]) 0

theorem holdsText_write {pre : List Byte} (hroom : pre.length + t.length < bytes.length) :
    HoldsText (pre ++ t ++ 0 :: bytes.drop (pre.length + t.length + 1)) (pre ++ t)
      bytes.length := by
  refine ⟨_, rfl, ?_⟩
  rw [List.length_append, List.length_append, List.length_cons, List.length_drop]
  omega

/-- The record after the end of `mout`, where the text fits. -/
theorem append_of_fits (htext : m.text = some bytes) (hbytes : bytes = t ++ u)
    (hchar : m.nChar = t.length) {s : List Byte} {k : ℤ} (hk : s.length = k)
    (hroom : t.length + s.length < bytes.length) :
    m.append s k = .ok ({ m with nChar := (t ++ s).length }.setText
      (t ++ s ++ 0 :: bytes.drop (t.length + s.length + 1))) := by
  have hwrite := write_eq hbytes hroom
  have hcopy : copyText bytes t.length s k = Buffer.copy bytes t.length s := by
    subst hk
    unfold copyText
    split_ifs with hpos
    · rw [Int.toNat_natCast, List.take_length]
    · obtain rfl : s = [] := List.length_eq_zero_iff.mp (by omega)
      rw [Buffer.copy_of_le (by omega)]
      simp
  obtain ⟨copied, hcopied, hput⟩ := bind_eq_ok.mp hwrite
  have hnat : k.toNat = s.length := by omega
  simp only [SgMprintf.append, htext, hchar, hcopy, hcopied, ok_bind, hnat, hput,
    List.length_append, pure_eq_ok]

/-! ## Printing into the heap -/

/-- How many times the memory is made larger, when the texts have these lengths. -/
def growths : ℕ → ℕ → List ℕ → ℕ
  | _, _, [] => 0
  | nChar, nAlloc, n :: ns =>
    if nAlloc < nChar + n + 1 then growths (nChar + n) (nChar + n * 2 + 1) ns + 1
    else growths (nChar + n) nAlloc ns

/-- The record holds the text: the memory has the size that it says, and room for the text. -/
structure Collects (m : SgMprintf) (t : List Byte) (n : ℕ) : Prop where
  text : ∃ bytes u, m.text = some bytes ∧ bytes = t ++ u ∧ bytes.length = n
  nChar : m.nChar = t.length
  nAlloc : m.nAlloc = n
  room : t.length < n

@[simp] theorem text_setText (h : m.text = some bytes) (bytes' : List Byte) :
    (m.setText bytes').text = some bytes' := by
  unfold SgMprintf.text at h
  unfold SgMprintf.setText
  split at h
  · rename_i hz
    simp [SgMprintf.text, hz]
  · simp [SgMprintf.text]
  · cases h

theorem setText_base (h : m.zText = .base) (bytes : List Byte) :
    m.setText bytes = { m with zBase := bytes } := by
  rw [SgMprintf.setText, h]

theorem setText_fields (m : SgMprintf) (bytes : List Byte) :
    (m.setText bytes).nChar = m.nChar ∧ (m.setText bytes).nTotal = m.nTotal ∧
      (m.setText bytes).nAlloc = m.nAlloc ∧ (m.setText bytes).reallocs = m.reallocs := by
  unfold SgMprintf.setText
  split <;> exact ⟨rfl, rfl, rfl, rfl⟩

/-- Where a text is kept does not change when it is written. -/
theorem zText_setText (m : SgMprintf) (bytes : List Byte) :
    ((m.setText bytes).zText = .base ↔ m.zText = .base) ∧
      ((m.setText bytes).zText = .null ↔ m.zText = .null) := by
  unfold SgMprintf.setText
  split
  · rename_i h
    simp [h]
  · rename_i h
    simp [h]
  · exact ⟨Iff.rfl, Iff.rfl⟩

/-- The record after a text has been collected: the text is there with a NUL behind it, and where it
is kept, and how many calls of `xRealloc` were made, is as before. -/
structure Collected (m : SgMprintf) (t : List Byte) (n : ℕ) (m' : SgMprintf) : Prop where
  collects : Collects m' t n
  reallocs : m'.reallocs = m.reallocs
  nTotal : m'.nTotal = m.nTotal
  base : m'.zText = .base ↔ m.zText = .base
  holds : ∃ bytes, m'.text = some bytes ∧ HoldsText bytes t n

/-- A text that fits is collected, and a NUL stands behind it. -/
theorem Collects.append (h : Collects m t n) (s : List Byte) (hroom : t.length + s.length < n) :
    ∃ m', m.append s s.length = .ok m' ∧ Collected m (t ++ s) n m' := by
  obtain ⟨bytes, u, htext, hbytes, hlen⟩ := h.text
  have happend := append_of_fits htext hbytes h.nChar rfl (hlen ▸ hroom)
  have hholds : HoldsText (t ++ s ++ 0 :: bytes.drop (t.length + s.length + 1)) (t ++ s)
      bytes.length := holdsText_write (hlen ▸ hroom)
  generalize t ++ s ++ 0 :: bytes.drop (t.length + s.length + 1) = bytes' at happend hholds
  rw [hlen] at hholds
  obtain ⟨rest, hrest, hsize⟩ := id hholds
  have htext' := text_setText (m := { m with nChar := (t ++ s).length }) htext bytes'
  obtain ⟨h₁, h₂, h₃, h₄⟩ := setText_fields { m with nChar := (t ++ s).length } bytes'
  refine ⟨_, happend, ⟨⟨bytes', _, htext', hrest, hsize⟩, h₁, ?_, ?_⟩, h₄, h₂,
    (zText_setText _ bytes').1, bytes', htext', hholds⟩
  · rw [h₃]
    exact h.nAlloc
  · rw [List.length_append]
    exact hroom

/-- The memory after a growth that succeeds is a block of the heap, with the text at its start. -/
theorem Collects.realloc (h : Collects m t n) {grow : ℕ → Option (ℕ → Byte)} {fill : ℕ → Byte}
    (hgrow : grow m.reallocs = some fill) {size : ℕ} (hsize : n ≤ size) :
    ∃ block, ({ m with nAlloc := size }.realloc grow size m.nChar) =
      .ok { m with nAlloc := size, reallocs := m.reallocs + 1, zText := .heap block } ∧
      Collects { m with nAlloc := size, reallocs := m.reallocs + 1, zText := .heap block } t
        size := by
  obtain ⟨bytes, u, htext, hbytes, hlen⟩ := h.text
  have hroom := h.room
  -- the text is at the start of the new block, whichever way it comes there
  have hblock : ∀ block u', block = t ++ u' → block.length = size →
      Collects { m with nAlloc := size, reallocs := m.reallocs + 1, zText := .heap block } t
        size := fun block u' hu hl =>
    ⟨⟨block, u', rfl, hu, hl⟩, h.nChar, rfl, hroom.trans_le hsize⟩
  unfold SgMprintf.text at htext
  unfold SgMprintf.realloc
  simp only [hgrow]
  split at htext
  · rename_i hz
    obtain rfl := Option.some.inj htext
    have hread : Buffer.read m.zBase 0 m.nChar = .ok t := by
      rw [hbytes, h.nChar]
      show Buffer.read ([] ++ t ++ u) 0 t.length = .ok t
      exact Buffer.read_append rfl
    have hfresh : (Buffer.realloc [] size fill).length = size := by simp [Buffer.realloc]
    have hcopy : Buffer.copy (Buffer.realloc [] size fill) 0 t =
        .ok (t ++ (Buffer.realloc [] size fill).drop t.length) := by
      rw [Buffer.copy_of_le (by omega)]
      simp
    simp only [hz, hread, ok_bind, hcopy]
    refine ⟨_, rfl, hblock _ _ rfl ?_⟩
    rw [List.length_append, List.length_drop, hfresh]
    omega
  · rename_i block hz
    obtain rfl := Option.some.inj htext
    have hle : block.length ≤ size := hlen ▸ hsize
    obtain ⟨extra, hextra, hl⟩ := Buffer.exists_realloc_eq hle fill
    simp only [hz]
    refine ⟨_, rfl, hblock _ (u ++ extra) ?_ ?_⟩
    · rw [hextra, hbytes, List.append_assoc]
    · rw [hextra]
      exact hl
  · cases htext

section Heap

variable {grow : ℕ → Option (ℕ → Byte)} {s : List Byte}

/-- What has been given to the consumer is counted elsewhere. -/
theorem Collects.count (h : Collects m t n) (k : ℕ) : Collects { m with nTotal := k } t n :=
  ⟨h.text, h.nChar, h.nAlloc, h.room⟩

/-- `mout` of a text that fits. -/
theorem Collects.mout_fits (h : Collects m t n) (hmax : m.nTotal + s.length ≤ INT_MAX)
    (hsize : t.length + s.length + 1 ≤ INT_MAX) (hfits : ¬ n < t.length + s.length + 1)
    (xRealloc : Realloc) :
    ∃ m', mout xRealloc m s = .ok m' ∧
      Collected { m with nTotal := m.nTotal + s.length } (t ++ s) n m' := by
  obtain ⟨m', happend, h'⟩ := (h.count (m.nTotal + s.length)).append s (by omega)
  refine ⟨m', ?_, h'⟩
  have hroom : ¬ m.nAlloc < ((m.nChar + s.length + 1 : ℕ) : ℤ) := by
    rw [h.nAlloc, h.nChar]
    omega
  rw [← h.nChar] at hsize
  simp only [mout, checkInt_of_le hmax, checkInt_of_le hsize, ok_bind]
  rw [if_neg hroom, happend]

/-- `mout` of a text that does not fit, up to the growth. -/
theorem Collects.mout_full (h : Collects m t n) (hmax : m.nTotal + s.length ≤ INT_MAX)
    (hsize : t.length + s.length * 2 + 1 ≤ INT_MAX) (hfull : n < t.length + s.length + 1) :
    mout (some grow) m s =
      ({ m with nTotal := m.nTotal + s.length
                nAlloc := ((t.length + s.length * 2 + 1 : ℕ) : ℤ) }.realloc grow
          (t.length + s.length * 2 + 1) m.nChar >>= fun m' => m'.append s s.length) := by
  have hroom : m.nAlloc < ((m.nChar + s.length + 1 : ℕ) : ℤ) := by
    rw [h.nAlloc, h.nChar]
    omega
  have hone : m.nChar + s.length + 1 ≤ INT_MAX := by
    rw [h.nChar]
    omega
  simp only [mout, checkInt_of_le hmax, checkInt_of_le hone, ok_bind]
  rw [if_pos hroom, h.nChar, checkInt_of_le hsize, ok_bind]

/-- A text that does not fit is collected in a larger block. -/
theorem Collects.mout_grows (h : Collects m t n) (hmax : m.nTotal + s.length ≤ INT_MAX)
    (hsize : t.length + s.length * 2 + 1 ≤ INT_MAX) (hfull : n < t.length + s.length + 1)
    {fill : ℕ → Byte} (hgrow : grow m.reallocs = some fill) :
    ∃ m', mout (some grow) m s = .ok m' ∧
      Collects m' (t ++ s) (t.length + s.length * 2 + 1) ∧ m'.reallocs = m.reallocs + 1 ∧
      m'.nTotal = m.nTotal + s.length ∧ m'.zText ≠ .base ∧
      ∃ bytes, m'.text = some bytes ∧ HoldsText bytes (t ++ s) (t.length + s.length * 2 + 1) := by
  obtain ⟨block, hrealloc, hcollects⟩ := (h.count (m.nTotal + s.length)).realloc
    hgrow (show n ≤ t.length + s.length * 2 + 1 by omega)
  obtain ⟨m', happend, h'⟩ := hcollects.append s (by omega)
  refine ⟨m', ?_, h'.collects, h'.reallocs, h'.nTotal, fun hz => ?_, h'.holds⟩
  · rw [h.mout_full hmax hsize hfull, hrealloc, ok_bind, happend]
  · cases h'.base.mp hz

/-- A block that could not be made larger is written behind its end. -/
theorem Collects.mout_fault (h : Collects m t n) (hmax : m.nTotal + s.length ≤ INT_MAX)
    (hsize : t.length + s.length * 2 + 1 ≤ INT_MAX) (hfull : n < t.length + s.length + 1)
    (hgrow : grow m.reallocs = none) (hz : m.zText ≠ .base) :
    mout (some grow) m s = .error .fault := by
  obtain ⟨bytes, u, htext, hbytes, hlen⟩ := h.text
  rw [h.mout_full hmax hsize hfull]
  unfold SgMprintf.text at htext
  split at htext
  · rename_i hb
    exact absurd hb hz
  · rename_i block hb
    obtain rfl := Option.some.inj htext
    have hpos : 0 < s.length := by
      have := h.room
      omega
    simp only [SgMprintf.realloc, hb, hgrow, pure_eq_ok, ok_bind, SgMprintf.append,
      SgMprintf.text, h.nChar, copyText, Int.toNat_natCast, List.take_length]
    rw [if_pos (by omega)]
    rcases Nat.lt_or_ge block.length (t.length + s.length) with hlt | hge
    · -- the text is behind the end
      rw [Buffer.copy, if_neg (by omega), error_bind]
    · -- the text just fits, and its NUL is behind the end
      rw [Buffer.copy_of_le hge, ok_bind, Buffer.put, if_neg, error_bind]
      rw [List.length_append, List.length_append, List.length_take, List.length_drop]
      omega
  · cases htext

/-- The texts are collected, as long as each growth succeeds. -/
theorem Collects.run (h : Collects m t n) (calls : List (List Byte))
    (hmax : m.nTotal + calls.flatten.length ≤ INT_MAX)
    (hsize : t.length + calls.flatten.length * 2 + 1 ≤ INT_MAX)
    (hgrow : ∀ j < growths t.length n (calls.map List.length), grow (m.reallocs + j) ≠ none) :
    ∃ m' n', calls.foldlM (mout (some grow)) m = .ok m' ∧ Collects m' (t ++ calls.flatten) n' ∧
      m'.reallocs = m.reallocs + growths t.length n (calls.map List.length) ∧
      (m'.zText = .base ↔ m.zText = .base ∧ growths t.length n (calls.map List.length) = 0) ∧
      ((calls ≠ [] ∨ ∃ bytes, m.text = some bytes ∧ HoldsText bytes t n) →
        ∃ bytes, m'.text = some bytes ∧ HoldsText bytes (t ++ calls.flatten) n') := by
  induction calls generalizing m t n with
  | nil =>
    refine ⟨m, n, rfl, ?_, rfl, ?_, ?_⟩
    · rw [List.flatten_nil, List.append_nil]
      exact h
    · simp [growths]
    · rintro (hne | hholds)
      · exact absurd rfl hne
      · rw [List.flatten_nil, List.append_nil]
        exact hholds
  | cons s calls ih =>
    rw [List.flatten_cons, List.length_append] at hmax hsize
    rw [List.map_cons, growths] at hgrow ⊢
    rw [List.foldlM_cons, List.flatten_cons, ← List.append_assoc]
    split_ifs at hgrow ⊢ with hfull
    · -- the growth comes first
      obtain ⟨fill, hfill⟩ := Option.ne_none_iff_exists'.mp (hgrow 0 (Nat.succ_pos _))
      obtain ⟨m', hm', hcollects, hreallocs, htotal, hbase, hholds⟩ :=
        h.mout_grows (by omega) (by omega) hfull hfill
      rw [← List.length_append] at hgrow ⊢
      obtain ⟨m'', n', hrun, hcollects', hreallocs', hbase', hholds'⟩ := ih hcollects
        (by omega) (by rw [List.length_append]; omega) fun j hj => by
          rw [hreallocs, Nat.add_assoc, Nat.add_comm 1 j]
          exact hgrow (j + 1) (Nat.succ_lt_succ hj)
      refine ⟨m'', n', by rw [hm', ok_bind, hrun], hcollects', ?_, ?_, fun _ =>
        hholds' (Or.inr hholds)⟩
      · rw [hreallocs', hreallocs]
        omega
      · rw [hbase']
        simp [hbase]
    · obtain ⟨m', hm', hcollected⟩ := h.mout_fits (by omega) (by omega) hfull (some grow)
      have hcollects := hcollected.collects
      have hreallocs : m'.reallocs = m.reallocs := hcollected.reallocs
      have htotal : m'.nTotal = m.nTotal + s.length := hcollected.nTotal
      rw [← List.length_append] at hgrow ⊢
      obtain ⟨m'', n', hrun, hcollects', hreallocs', hbase', hholds'⟩ := ih hcollects
        (by omega) (by rw [List.length_append]; omega) fun j hj => by
          rw [hreallocs]
          exact hgrow j hj
      refine ⟨m'', n', by rw [hm', ok_bind, hrun], hcollects', ?_, ?_,
        fun _ => hholds' (Or.inr hcollected.holds)⟩
      · rw [hreallocs', hreallocs]
      · rw [hbase', hcollected.base]

/-- If a growth of a block fails, the text is written behind the end of the block. -/
theorem Collects.run_fault (h : Collects m t n) (calls : List (List Byte))
    (hmax : m.nTotal + calls.flatten.length ≤ INT_MAX)
    (hsize : t.length + calls.flatten.length * 2 + 1 ≤ INT_MAX)
    (hfirst : m.zText = .base → grow m.reallocs ≠ none)
    (hgrow : ∃ j < growths t.length n (calls.map List.length), grow (m.reallocs + j) = none) :
    calls.foldlM (mout (some grow)) m = .error .fault := by
  induction calls generalizing m t n with
  | nil =>
    obtain ⟨j, hj, -⟩ := hgrow
    exact absurd hj (Nat.not_lt_zero j)
  | cons s calls ih =>
    rw [List.flatten_cons, List.length_append] at hmax hsize
    rw [List.map_cons, growths] at hgrow
    rw [List.foldlM_cons]
    split_ifs at hgrow with hfull
    · rcases hfill : grow m.reallocs with _ | fill
      · rw [h.mout_fault (by omega) (by omega) hfull hfill fun hz => hfirst hz hfill, error_bind]
      · obtain ⟨m', hm', hcollects, hreallocs, htotal, hbase, -⟩ :=
          h.mout_grows (by omega) (by omega) hfull hfill
        rw [← List.length_append] at hgrow
        rw [hm', ok_bind]
        apply ih hcollects (by omega) (by rw [List.length_append]; omega)
          (fun hz => absurd hz hbase)
        obtain ⟨j, hj, hnone⟩ := hgrow
        -- it is not the first one that fails
        obtain ⟨j, rfl⟩ : ∃ i, j = i + 1 := by
          rcases j with _ | i
          · rw [Nat.add_zero, hfill] at hnone
            cases hnone
          · exact ⟨i, rfl⟩
        refine ⟨j, Nat.lt_of_succ_lt_succ hj, ?_⟩
        rw [hreallocs, Nat.add_assoc, Nat.add_comm 1 j]
        exact hnone
    · obtain ⟨m', hm', hcollected⟩ := h.mout_fits (by omega) (by omega) hfull (some grow)
      have hreallocs : m'.reallocs = m.reallocs := hcollected.reallocs
      have htotal : m'.nTotal = m.nTotal + s.length := hcollected.nTotal
      rw [← List.length_append] at hgrow
      rw [hm', ok_bind]
      apply ih hcollected.collects (by omega) (by rw [List.length_append]; omega)
      · rw [hreallocs]
        exact fun hz => hfirst (hcollected.base.mp hz)
      · rw [hreallocs]
        exact hgrow

/-- The end of `base_vprintf` for a text on the stack. -/
theorem Collects.finish_base (h : Collects m t n) (hz : m.zText = .base)
    (hholds : ∃ bytes, m.text = some bytes ∧ HoldsText bytes t n) {fill : ℕ → Byte}
    (hgrow : grow m.reallocs = some fill) :
    ∃ m', finish (some grow) m = .ok m' ∧ m'.zText = .heap (t ++ [0]) := by
  obtain ⟨bytes, htext, rest, hrest, -⟩ := hholds
  obtain rfl : m.zBase = bytes := by
    rw [SgMprintf.text, hz] at htext
    exact Option.some.inj htext
  have hread : Buffer.read m.zBase 0 (t.length + 1) = .ok (t ++ [0]) := by
    rw [hrest]
    have hread : Buffer.read ([] ++ (t ++ [0]) ++ rest) 0 (t ++ [0]).length = .ok (t ++ [0]) :=
      Buffer.read_append rfl
    simpa using hread
  have hcopy : Buffer.copy (Buffer.realloc [] (t.length + 1) fill) 0 (t ++ [0]) =
      .ok (t ++ [0]) := by
    have hsize : (Buffer.realloc [] (t.length + 1) fill).length = t.length + 1 := by
      simp [Buffer.realloc]
    rw [Buffer.copy_of_le (by rw [hsize]; simp), List.drop_eq_nil_of_le (by rw [hsize]; simp)]
    simp
  refine ⟨{ m with zText := .heap (t ++ [0]), reallocs := m.reallocs + 1 }, ?_, rfl⟩
  simp only [finish, SgMprintf.realloc, hz, hgrow, h.nChar, hread, ok_bind, hcopy, pure_eq_ok]

/-- The end of `base_vprintf` for a text in a block. -/
theorem Collects.finish_heap (h : Collects m t n) (grow : ℕ → Option (ℕ → Byte))
    (hz : m.zText ≠ .base)
    (hholds : ∃ bytes, m.text = some bytes ∧ HoldsText bytes t n) :
    ∃ m' block, finish (some grow) m = .ok m' ∧ m'.zText = .heap block ∧
      HoldsText block t block.length ∧ (grow m.reallocs ≠ none → block.length ≤ t.length + 10) := by
  obtain ⟨bytes, htext, rest, hrest, hlen⟩ := hholds
  unfold SgMprintf.text at htext
  split at htext
  · rename_i hb
    exact absurd hb hz
  · rename_i block hb
    obtain rfl := Option.some.inj htext
    have hroom := h.room
    unfold finish
    simp only [hb]
    split_ifs with hshrink
    · rw [h.nChar, h.nAlloc] at hshrink
      rcases hfill : grow m.reallocs with _ | fill
      · refine ⟨{ m with reallocs := m.reallocs + 1 }, block, ?_, hb, ⟨rest, hrest, rfl⟩, ?_⟩
        · simp only [SgMprintf.realloc, hb, hfill, pure_eq_ok]
        · exact fun hne => absurd rfl hne
      · -- what is cut off is behind the NUL
        have hcut : Buffer.realloc block (t.length + 1) fill = t ++ [0] := by
          rw [Buffer.realloc, List.take_append_of_le_length (by omega), hrest]
          simp [List.take_append]
        refine ⟨{ m with zText := .heap (t ++ [0]), reallocs := m.reallocs + 1 }, t ++ [0],
          ?_, rfl, ⟨[], rfl, rfl⟩, ?_⟩
        · simp only [SgMprintf.realloc, hb, hfill, h.nChar, hcut, pure_eq_ok]
        · rw [List.length_append, List.length_singleton]
          omega
    · rw [h.nChar, h.nAlloc] at hshrink
      exact ⟨m, block, rfl, hb, ⟨rest, hrest, rfl⟩, fun _ => by omega⟩
  · cases htext

end Heap

/-- The consumer is always given something: an empty text at the beginning. -/
theorem calls_vxprintf {F : Floats R} {malloc : ℕ → Bool}
    {fmt : CStr} {ap : List (VaArg R)} {p : Printed}
    (h : vxprintf false F malloc fmt ap = .ok p) : ∃ calls, p.calls = [] :: calls := by
  obtain ⟨q, -, h⟩ := bind_eq_ok.mp h
  cases h
  exact ⟨q.calls, rfl⟩

/-- **Printing into the heap.** Let the formatter give some texts to `agc_mprintf`, of half the
largest `int` together, and let its first allocation succeed. If every growth of the block succeeds,
the caller gets a block with all of the texts, in order, and a NUL; and if the last allocation
succeeds too, it has at most ten bytes more than the text. If a growth fails, which is to say one of
the calls of `realloc` before the last one, the text is written behind the end of the block. -/
theorem agcVmprintf_eq (grow : ℕ → Option (ℕ → Byte))
    (F : Floats R) (malloc : ℕ → Bool) (zBase : List Byte)
    (zFormat : CStr) (ap : List (VaArg R)) {p : Printed}
    (hp : vxprintf false F malloc zFormat ap = .ok p) (hbase : zBase.length = etBUFSIZE)
    (hmax : p.calls.flatten.length * 2 + 1 ≤ INT_MAX) (hfirst : grow 0 ≠ none) :
    let k := growths 0 etBUFSIZE (p.calls.map List.length)
    ((∃ j < k, grow j = none) →
      agcVmprintf grow F malloc zBase zFormat ap = .error .fault) ∧
    ((∀ j < k, grow j ≠ none) → ∃ block,
      agcVmprintf grow F malloc zBase zFormat ap = .ok (.heap block) ∧
      HoldsText block p.calls.flatten block.length ∧
      (grow k ≠ none → block.length ≤ p.calls.flatten.length + 10)) := by
  intro k
  obtain ⟨calls, hcalls⟩ := calls_vxprintf hp
  have h : Collects ⟨zBase, .base, 0, 0, etBUFSIZE, 0⟩ [] etBUFSIZE :=
    ⟨⟨zBase, zBase, rfl, rfl, hbase⟩, rfl, rfl, by decide⟩
  have htotal : 0 + p.calls.flatten.length ≤ INT_MAX := by omega
  have hlen : ([] : List Byte).length + p.calls.flatten.length * 2 + 1 ≤ INT_MAX := by
    rw [List.length_nil, Nat.zero_add]
    exact hmax
  constructor
  · rintro ⟨j, hj, hnone⟩
    have hrun := h.run_fault p.calls htotal hlen (fun _ => hfirst)
      ⟨j, hj, (congrArg grow (Nat.zero_add j)).trans hnone⟩
    rw [agcVmprintf, hp, ok_bind, baseVprintf, hrun]
    rfl
  · intro hgrow
    obtain ⟨m, n, hrun, hcollects, hreallocs, hz, hholds⟩ := h.run p.calls htotal hlen
      fun j hj => by
        rw [Nat.zero_add]
        exact hgrow j hj
    have hholds := hholds (Or.inl (by rw [hcalls]; exact List.cons_ne_nil _ _))
    rw [List.nil_append] at hcollects hholds
    have hcount : m.reallocs = k := hreallocs.trans (Nat.zero_add _)
    rw [agcVmprintf, hp, ok_bind, baseVprintf, hrun, ok_bind]
    rcases Nat.eq_zero_or_pos k with hk | hk
    · -- the text is still on the stack
      obtain ⟨fill, hfill⟩ := Option.ne_none_iff_exists'.mp hfirst
      obtain ⟨m', hfinish, htext⟩ := hcollects.finish_base (hz.mpr ⟨rfl, hk⟩) hholds
        (by rw [hcount, hk]; exact hfill)
      refine ⟨p.calls.flatten ++ [0], ?_, ⟨[], rfl, rfl⟩, fun _ => ?_⟩
      · rw [hfinish, ok_bind, htext]
        rfl
      · rw [List.length_append, List.length_singleton]
        omega
    · have hne : m.zText ≠ .base := fun hb => absurd (hz.mp hb).2 hk.ne'
      obtain ⟨m', block, hfinish, htext, hblock, hle⟩ :=
        hcollects.finish_heap grow hne hholds
      refine ⟨block, ?_, hblock, fun hlast => hle (hcount ▸ hlast)⟩
      rw [hfinish, ok_bind, htext]
      rfl

/-- A text that is on the stack until the end. -/
theorem agcVmprintf_eq_percent :
    let fmt := CStr.ofString "%"
    ∃ p, vxprintf false Floats.rational (fun _ => true) fmt [] = .ok p ∧
      ∃ block, agcVmprintf (fun _ => some fun _ => 0) Floats.rational (fun _ => true)
          (List.replicate etBUFSIZE 0) fmt [] = .ok (.heap block) ∧
        HoldsText block p.calls.flatten block.length := by
  intro fmt
  have hp : vxprintf false Floats.rational (fun _ => true) fmt [] =
      .ok ⟨[[], [ch '%']], [], -1⟩ := by rfl
  refine ⟨_, hp, ?_⟩
  obtain ⟨block, hblock, hholds, -⟩ := (agcVmprintf_eq (fun _ => some fun _ => 0) _ _ _ fmt [] hp
    List.length_replicate (by decide) (by decide)).2 (by decide)
  exact ⟨block, hblock, hholds⟩

/-! ## Printing into the caller's buffer -/

/-- The buffer of `n` bytes at the start of `orig` holds what fits of the text. -/
structure Cut (orig : List Byte) (n : ℕ) (m : SgMprintf) (t : List Byte) : Prop where
  zText : m.zText = .base
  text : ∃ u, m.zBase = t.take (n - 1) ++ u
  length : m.zBase.length = orig.length
  behind : m.zBase.drop n = orig.drop n
  nChar : m.nChar = (t.take (n - 1)).length
  nAlloc : m.nAlloc = n

/-- What fits of a text is what is copied. -/
theorem append_take (m : SgMprintf) (s : List Byte) (k : ℕ) :
    m.append s k = m.append (s.take k) k := by
  simp only [SgMprintf.append, copyText, Int.toNat_natCast, List.take_take, Nat.min_self]

/-- What is behind the size stays as it is. -/
theorem drop_cut {cut : List Byte} {n : ℕ} (hn : 0 < n) (hcut : cut.length ≤ n - 1)
    (bytes : List Byte) : (cut ++ 0 :: bytes.drop (cut.length + 1)).drop n = bytes.drop n := by
  obtain ⟨j, rfl⟩ : ∃ j, n = cut.length + (j + 1) := ⟨n - cut.length - 1, by omega⟩
  rw [List.drop_append, List.drop_eq_nil_of_le (by omega), List.nil_append]
  have hj : cut.length + (j + 1) - cut.length = j + 1 := by omega
  rw [hj, List.drop_succ_cons, List.drop_drop]
  congr 1
  omega

/-- The room that is left in the buffer is an `int`. -/
theorem room_not_lt {n k : ℕ} (h : k < n) : ¬ (n : ℤ) - (k : ℤ) - 1 < INT_MIN := by
  have hmin : INT_MIN < 0 := by decide
  omega

theorem Cut.mout {orig : List Byte} {n : ℕ} (hn : 0 < n) (horig : n ≤ orig.length)
    (h : Cut orig n m t) (s : List Byte) (hmax : m.nTotal + s.length ≤ INT_MAX)
    (hsize : t.length + s.length < INT_MAX) :
    ∃ m', mout none m s = .ok m' ∧ Cut orig n m' (t ++ s) ∧ m'.nTotal = m.nTotal + s.length ∧
      ∃ rest, m'.zBase = (t ++ s).take (n - 1) ++ 0 :: rest := by
  obtain ⟨u, hu⟩ := h.text
  have hcut : (t.take (n - 1)).length = min (n - 1) t.length := List.length_take
  -- the number of bytes that are copied
  obtain ⟨k, hk, hmout⟩ : ∃ k : ℕ, k = min s.length (n - 1 - (t.take (n - 1)).length) ∧
      Mprintf.mout none m s = { m with nTotal := m.nTotal + s.length }.append s k := by
    refine ⟨_, rfl, ?_⟩
    have hone : m.nChar + s.length + 1 ≤ INT_MAX := by
      rw [h.nChar]
      omega
    simp only [Mprintf.mout, checkInt_of_le hmax, checkInt_of_le hone, ok_bind]
    rw [h.nAlloc, h.nChar, if_neg (room_not_lt (by omega))]
    split_ifs with hfull
    · congr 1
      omega
    · congr 1
      omega
  have htake : (t ++ s).take (n - 1) = t.take (n - 1) ++ s.take k := by
    rw [List.take_append, hk]
    congr 1
    rcases Nat.le_total (n - 1) t.length with hle | hle
    · have : n - 1 - (t.take (n - 1)).length = 0 := by omega
      rw [this, Nat.min_zero, Nat.sub_eq_zero_of_le hle]
    · rw [List.take_of_length_le hle, Nat.min_comm, List.take_eq_take_iff]
      omega
  have hlen : (s.take k).length = k := by
    rw [List.length_take]
    omega
  have horigLen := h.length
  have htext : SgMprintf.text { m with nTotal := m.nTotal + s.length } = some m.zBase := by
    simp [SgMprintf.text, h.zText]
  have happend := append_of_fits htext hu h.nChar (s := s.take k) (k := k) (by rw [hlen]) (by omega)
  have hsize := congrArg List.length htake
  rw [List.length_append] at hsize
  rw [← append_take, ← hmout, setText_base (by exact h.zText), ← htake] at happend
  rw [← hsize] at happend
  have hcutlen : ((t ++ s).take (n - 1)).length ≤ n - 1 := List.length_take_le _ _
  refine ⟨_, happend, ⟨h.zText, ⟨_, rfl⟩, ?_, ?_, rfl, h.nAlloc⟩, rfl, _, rfl⟩
  · show (((t ++ s).take (n - 1)) ++ 0 :: m.zBase.drop _).length = _
    rw [List.length_append, List.length_cons, List.length_drop]
    omega
  · exact (drop_cut hn hcutlen m.zBase).trans h.behind

theorem Cut.run {orig : List Byte} {n : ℕ} (hn : 0 < n) (horig : n ≤ orig.length)
    (h : Cut orig n m t) (calls : List (List Byte))
    (hmax : m.nTotal + calls.flatten.length ≤ INT_MAX)
    (hsize : t.length + calls.flatten.length < INT_MAX) :
    ∃ m', calls.foldlM (Mprintf.mout none) m = .ok m' ∧ Cut orig n m' (t ++ calls.flatten) ∧
      ((calls ≠ [] ∨ ∃ rest, m.zBase = t.take (n - 1) ++ 0 :: rest) →
        ∃ rest, m'.zBase = (t ++ calls.flatten).take (n - 1) ++ 0 :: rest) := by
  induction calls generalizing m t with
  | nil =>
    rw [List.flatten_nil, List.append_nil]
    exact ⟨m, rfl, h, fun hnul => hnul.resolve_left fun hne => hne rfl⟩
  | cons s calls ih =>
    rw [List.flatten_cons, List.length_append] at hmax hsize
    obtain ⟨m', hm', hcut, htotal, hnul⟩ := h.mout hn horig s (by omega) (by omega)
    obtain ⟨m'', hrun, hcut', hnul'⟩ := ih hcut (by omega) (by rw [List.length_append]; omega)
    rw [List.foldlM_cons, List.flatten_cons, ← List.append_assoc]
    exact ⟨m'', by rw [hm', ok_bind, hrun], hcut', fun _ => hnul' (Or.inr hnul)⟩

/-- A size that is not positive does not keep `mout` from writing a NUL. -/
theorem mout_of_nonpos {n : ℤ} (hn : n ≤ 0) (s : List Byte) (hz : m.zText = .base)
    (hchar : m.nChar = 0) (halloc : m.nAlloc = n) (hmax : m.nTotal + s.length < INT_MAX) :
    Mprintf.mout none m s = if n ≤ INT_MIN ∨ m.zBase = [] then .error .fault
      else .ok { m with nTotal := m.nTotal + s.length, zBase := m.zBase.set 0 0 } := by
  have htotal : m.nTotal + s.length ≤ INT_MAX := hmax.le
  have hone : m.nChar + s.length + 1 ≤ INT_MAX := by
    rw [hchar]
    omega
  have hfull : m.nAlloc < ((m.nChar + s.length + 1 : ℕ) : ℤ) := by
    rw [halloc, hchar]
    omega
  have hroom : m.nAlloc - ((m.nChar : ℕ) : ℤ) - 1 = n - 1 := by
    rw [halloc, hchar, Nat.cast_zero, Int.sub_zero]
  simp only [Mprintf.mout, checkInt_of_le htotal, checkInt_of_le hone, ok_bind]
  rw [if_pos hfull, hroom]
  rcases lt_or_ge (n - 1) INT_MIN with hmin | hmin
  · rw [if_pos hmin, if_pos (Or.inl (by omega))]
  · have hneg : ¬ 0 < n - 1 := by omega
    have hnat : (n - 1).toNat = 0 := by omega
    rw [if_neg (by omega)]
    simp only [SgMprintf.append, SgMprintf.text, hz, copyText, if_neg hneg, pure_eq_ok, ok_bind,
      hnat, Nat.add_zero, hchar, Buffer.put]
    by_cases hnil : m.zBase = []
    · rw [if_pos (Or.inr hnil), if_neg (by simp [hnil])]
      rfl
    · have hok : ¬ (n ≤ INT_MIN ∨ m.zBase = []) := not_or.mpr ⟨by omega, hnil⟩
      rw [if_neg hok, if_pos (List.length_pos_of_ne_nil hnil), ok_bind, setText_base rfl]

theorem run_of_nonpos {n : ℤ} (hn : n ≤ 0) (hmin : INT_MIN < n) (calls : List (List Byte))
    (hz : m.zText = .base) (hchar : m.nChar = 0) (halloc : m.nAlloc = n)
    (hmax : m.nTotal + calls.flatten.length < INT_MAX) (hne : m.zBase ≠ [])
    (hnul : m.zBase.set 0 0 = m.zBase) :
    ∃ m', calls.foldlM (Mprintf.mout none) m = .ok m' ∧ m'.zBase = m.zBase := by
  induction calls generalizing m with
  | nil => exact ⟨m, rfl, rfl⟩
  | cons s calls ih =>
    rw [List.flatten_cons, List.length_append] at hmax
    have hstep := mout_of_nonpos hn s hz hchar halloc (by omega)
    rw [if_neg (not_or.mpr ⟨hmin.not_ge, hne⟩), hnul] at hstep
    rw [List.foldlM_cons, hstep, ok_bind]
    exact ih hz hchar halloc (by rw [Nat.add_assoc]; exact hmax) hne hnul

/-- **Printing into the caller's buffer.** For a size of at least one that the buffer has,
`agc_snprintfv` leaves as much of the text there as fits, with a NUL behind it, and does not touch
what is behind the size. For a size of zero or less it writes a NUL all the same, to the first byte
of the buffer, which is out of bounds if the buffer is as large as the size says; for the least
`int` the room that is left overflows. -/
theorem agcSnprintfv_eq (F : Floats R) (malloc : ℕ → Bool)
    (zBuf : List Byte) (n : ℤ) (zFormat : CStr) (ap : List (VaArg R)) {p : Printed}
    (hp : vxprintf false F malloc zFormat ap = .ok p)
    (hmax : p.calls.flatten.length < INT_MAX) (hbuf : n ≤ zBuf.length) :
    (0 < n → ∃ buf rest, agcSnprintfv F malloc zBuf n zFormat ap = .ok buf ∧
      buf = p.calls.flatten.take (n.toNat - 1) ++ 0 :: rest ∧ buf.length = zBuf.length ∧
      buf.drop n.toNat = zBuf.drop n.toNat) ∧
    (n ≤ 0 → agcSnprintfv F malloc zBuf n zFormat ap =
      if n ≤ INT_MIN ∨ zBuf = [] then .error .fault else .ok (zBuf.set 0 0)) := by
  obtain ⟨calls, hcalls⟩ := calls_vxprintf hp
  have htotal : 0 + p.calls.flatten.length < INT_MAX := by omega
  constructor
  · intro hn
    obtain ⟨n, rfl⟩ := Int.eq_ofNat_of_zero_le hn.le
    have h : Cut zBuf n ⟨zBuf, .base, 0, 0, n, 0⟩ [] :=
      ⟨rfl, ⟨zBuf, by simp⟩, rfl, rfl, by simp, rfl⟩
    obtain ⟨m, hrun, hcut, hnul⟩ := h.run (by omega) (by omega) p.calls htotal.le
      (by rw [List.length_nil]; exact htotal)
    obtain ⟨rest, hrest⟩ := hnul (Or.inl (by rw [hcalls]; exact List.cons_ne_nil _ _))
    rw [List.nil_append] at hrest
    refine ⟨m.zBase, rest, ?_, hrest, hcut.length, hcut.behind⟩
    rw [agcSnprintfv, hp, ok_bind, baseVprintf]
    show (p.calls.foldlM (Mprintf.mout none) ⟨zBuf, .base, 0, 0, ((n : ℕ) : ℤ), 0⟩ >>= _) >>= _ = _
    rw [hrun]
    rfl
  · intro hn
    rw [agcSnprintfv, hp, ok_bind, baseVprintf, hcalls, List.foldlM_cons,
      mout_of_nonpos hn [] rfl rfl rfl (show 0 < INT_MAX by decide)]
    split_ifs with hfault
    · rfl
    · obtain ⟨hmin, hnil⟩ := not_or.mp hfault
      rw [hcalls, List.flatten_cons, List.nil_append] at htotal
      obtain ⟨m, hrun, hbase⟩ := run_of_nonpos
        (m := ⟨zBuf.set 0 0, .base, 0, 0 + [].length, n, 0⟩) hn (not_le.mp hmin) calls rfl rfl rfl
        htotal
        (by simpa using hnil) (by simp)
      rw [ok_bind, hrun]
      show Except.ok m.zBase = _
      rw [hbase]

/-- Three bytes for a text of two, and none at all. -/
theorem agcSnprintfv_eq_percent :
    let fmt := CStr.ofString "a%%"
    ∃ p, vxprintf false Floats.rational (fun _ => true) fmt [] = .ok p ∧
      (∃ buf rest, agcSnprintfv Floats.rational (fun _ => true) [7, 7, 7, 7] 2 fmt [] =
        .ok buf ∧ buf = p.calls.flatten.take 1 ++ 0 :: rest ∧ buf.length = 4 ∧
        buf.drop 2 = [7, 7]) ∧
      agcSnprintfv Floats.rational (fun _ => true) [] 0 fmt [] = .error .fault := by
  intro fmt
  have hp : vxprintf false Floats.rational (fun _ => true) fmt [] =
      .ok ⟨[[], [ch 'a'], [ch '%']], [], 2⟩ := by rfl
  refine ⟨_, hp, ?_, ?_⟩
  · exact (agcSnprintfv_eq _ _ [7, 7, 7, 7] 2 fmt [] hp (by decide) (by decide)).1 (by decide)
  · exact (agcSnprintfv_eq _ _ [] 0 fmt [] hp (by decide) (by decide)).2 (by decide)

end Mprintf
