import AgcFramework.Lib.CString
import AgcFramework.Lib.Exec

/-!
# Buffers of bytes

A buffer is a list of bytes, and a pointer into it is a position. An access behind its end is a
fault.

## Main definitions

* `Buffer.get`, `Buffer.put`: a read and a write
* `Buffer.str`, `Buffer.strlen`: the string at a position, and the search for its NUL
* `Buffer.read`, `Buffer.copy`: a read and a write of several bytes
* `Buffer.realloc`: the buffer in a larger allocation
* `strchr`: the search for a byte, behind a pointer that is the rest of the buffer

## Main results

* `Buffer.get_append`, `Buffer.put_append`: accesses behind a part of known length
* `strchr_terminated`: the search in a string
-/

namespace Buffer

variable {pre post : List Byte} {b : Byte} {i : ℕ}

/-- A read. -/
def get (buf : List Byte) (i : ℕ) : Exec Byte :=
  match buf[i]? with
  | some b => .ok b
  | none => .error .fault

/-- A write. -/
def put (buf : List Byte) (i : ℕ) (b : Byte) : Exec (List Byte) :=
  if i < buf.length then .ok (buf.set i b) else .error .fault

/-- The string at a position. -/
def str (buf : List Byte) (i : ℕ) : CStr := CStr.ofBuffer (buf.drop i)

/-- `strlen` of the string at the start; without a NUL it reads behind the end. -/
def strlen (buf : List Byte) : Exec ℕ :=
  if 0 ∈ buf then .ok (str buf 0).bytes.length else .error .fault

/-- A read of `n` bytes. -/
def read (buf : List Byte) (i n : ℕ) : Exec (List Byte) :=
  if i + n ≤ buf.length then .ok ((buf.drop i).take n) else .error .fault

/-- `memcpy` to a position. -/
def copy (buf : List Byte) (i : ℕ) (bs : List Byte) : Exec (List Byte) :=
  if i + bs.length ≤ buf.length then .ok (buf.take i ++ bs ++ buf.drop (i + bs.length))
  else .error .fault

/-- `realloc` to `n` bytes, where the new ones are those of `fill`. -/
def realloc (buf : List Byte) (n : ℕ) (fill : ℕ → Byte) : List Byte :=
  (buf ++ (List.range n).map fill).take n

theorem get_append (hi : i = pre.length) : get (pre ++ b :: post) i = .ok b := by
  subst hi
  simp [get]

theorem put_append (hi : i = pre.length) (c : Byte) :
    put (pre ++ b :: post) i c = .ok (pre ++ c :: post) := by
  subst hi
  simp [put]

/-- A NUL that is written into a text, or over the one behind it. -/
theorem put_nul {t : List Byte} {n : ℕ} (hn : n ≤ t.length) :
    put (pre ++ t ++ 0 :: post) (pre.length + n) 0 = .ok (pre ++ t.set n 0 ++ 0 :: post) := by
  rcases Nat.lt_or_eq_of_le hn with hlt | rfl
  · have hset : t.set n 0 = t.take n ++ 0 :: t.drop (n + 1) := by
      rw [List.set_eq_take_append_cons_drop, if_pos hlt]
    have htext : t.take n ++ t[n] :: t.drop (n + 1) = t := by
      rw [← List.drop_eq_getElem_cons hlt, List.take_append_drop]
    have hbuf : pre ++ t ++ 0 :: post =
        (pre ++ t.take n) ++ t[n] :: (t.drop (n + 1) ++ 0 :: post) := by
      calc pre ++ t ++ 0 :: post
          = pre ++ (t.take n ++ t[n] :: t.drop (n + 1)) ++ 0 :: post := by rw [htext]
        _ = _ := by simp only [List.append_assoc, List.cons_append]
    rw [hbuf, put_append (by simp [hn]), hset]
    simp
  · rw [put_append (by simp), List.set_eq_of_length_le (Nat.le_refl _)]

theorem copy_of_le {buf bs : List Byte} (h : i + bs.length ≤ buf.length) :
    copy buf i bs = .ok (buf.take i ++ bs ++ buf.drop (i + bs.length)) := if_pos h

theorem read_append {bs : List Byte} (hi : i = pre.length) :
    read (pre ++ bs ++ post) i bs.length = .ok bs := by
  subst hi
  simp [read]

/-- Bytes of the same number over those that stand there. -/
theorem copy_append {bs cs : List Byte} (hi : i = pre.length) (h : cs.length = bs.length) :
    copy (pre ++ bs ++ post) i cs = .ok (pre ++ cs ++ post) := by
  subst hi
  rw [copy_of_le (by simp [h]), h]
  simp

theorem strlen_append {bs rest : List Byte} (h : 0 ∉ bs) :
    strlen (bs ++ 0 :: rest) = .ok bs.length := by
  have hstr : (str (bs ++ 0 :: rest) 0).bytes = bs := by
    rw [str, List.drop_zero]
    exact congrArg CStr.bytes (CStr.ofBuffer_bytes ⟨bs, h⟩ rest)
  rw [strlen, if_pos (by simp), hstr]

/-- The string of a buffer ends at its first NUL. -/
theorem strlen_lt {buf bs rest : List Byte} {n : ℕ} (hbuf : buf = bs ++ rest) (h : 0 ∈ bs)
    (hn : strlen buf = .ok n) : n < bs.length := by
  obtain ⟨pre, post, rfl, h0⟩ := List.eq_append_cons_of_mem h
  rw [hbuf, List.append_assoc, List.cons_append, strlen_append h0] at hn
  cases hn
  simp

/-- What is there stays at the start of the new allocation. -/
theorem exists_realloc_eq {buf : List Byte} {n : ℕ} (hn : buf.length ≤ n) (fill : ℕ → Byte) :
    ∃ extra, realloc buf n fill = buf ++ extra ∧ (buf ++ extra).length = n := by
  refine ⟨((List.range n).map fill).take (n - buf.length), ?_, ?_⟩
  · rw [realloc, List.take_append, List.take_of_length_le hn]
  · simp
    omega

/-- A read behind the end. -/
theorem get_of_length_le {buf : List Byte} (hi : buf.length ≤ i) : get buf i = .error .fault := by
  simp [get, List.getElem?_eq_none hi]

end Buffer

/-! ## Searching -/

/-- `strchr`, behind a pointer into a buffer; the end of the allocation is a fault. -/
def strchr (c : Byte) : List Byte → Exec (Option (List Byte))
  | [] => .error .fault
  | b :: s =>
    if b = c then pure (some (b :: s))
    else if b = 0 then pure none
    else strchr c s

section Strchr

variable {c : Byte} {bs rest pad : List Byte}

theorem strchr_found (hc : c ∉ bs) (h0 : 0 ∉ bs) :
    strchr c (bs ++ c :: rest) = .ok (some (c :: rest)) := by
  induction bs with
  | nil => simp [strchr]
  | cons b bs ih =>
    have hbc : b ≠ c := fun h => hc (h ▸ List.mem_cons_self)
    have hb0 : b ≠ 0 := fun h => h0 (h ▸ List.mem_cons_self)
    rw [List.cons_append, strchr, if_neg hbc, if_neg hb0]
    exact ih (fun h => hc (List.mem_cons_of_mem b h)) fun h => h0 (List.mem_cons_of_mem b h)

theorem strchr_absent (hc : c ∉ bs) (h0 : 0 ∉ bs) (hc0 : c ≠ 0) :
    strchr c (bs ++ 0 :: pad) = .ok none := by
  induction bs with
  | nil => simp [strchr, hc0.symm]
  | cons b bs ih =>
    have hbc : b ≠ c := fun h => hc (h ▸ List.mem_cons_self)
    have hb0 : b ≠ 0 := fun h => h0 (h ▸ List.mem_cons_self)
    rw [List.cons_append, strchr, if_neg hbc, if_neg hb0]
    exact ih (fun h => hc (List.mem_cons_of_mem b h)) fun h => h0 (List.mem_cons_of_mem b h)

/-- `strchr` in a string: nothing, or what begins with the first occurrence. -/
theorem strchr_terminated {b : Byte} (hb : b ≠ 0) (s : CStr) (pad : List Byte) :
    strchr b (s.bytes ++ 0 :: pad) =
      .ok (if b ∈ s.bytes then some (s.bytes.dropWhile (· ≠ b) ++ 0 :: pad) else none) := by
  by_cases h : b ∈ s.bytes
  · have hne : s.bytes.dropWhile (· ≠ b) ≠ [] := by
      intro hnil
      have := List.dropWhile_eq_nil_iff.mp hnil b h
      simp at this
    obtain ⟨c, rest, hdrop⟩ := List.exists_cons_of_ne_nil hne
    obtain rfl : c = b := by
      have hhead := List.head_dropWhile_not (· ≠ b) hne
      simp only [hdrop, List.head_cons] at hhead
      simpa using hhead
    -- the string up to the byte has neither the byte nor a NUL
    have hsplit := List.takeWhile_append_dropWhile (p := (· ≠ c)) (l := s.bytes)
    have hc : c ∉ s.bytes.takeWhile (· ≠ c) := by
      intro hmem
      simpa using List.mem_takeWhile_imp hmem
    have h0 : 0 ∉ s.bytes.takeWhile (· ≠ c) := fun hmem =>
      s.nul_notMem ((List.takeWhile_sublist _).mem hmem)
    rw [if_pos h, hdrop]
    conv_lhs => rw [← hsplit, hdrop, List.append_assoc, List.cons_append]
    exact strchr_found hc h0
  · rw [if_neg h]
    exact strchr_absent h s.nul_notMem hb

end Strchr
