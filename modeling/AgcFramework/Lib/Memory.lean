import AgcFramework.Lib.CString
import AgcFramework.Lib.Exec

/-!
# Memory as bytes by address

A write puts bytes at an address and the ones above it, whatever stands there. A string is read from
its address up to the first NUL, within an allocation that ends somewhere.

## Main definitions

* `Mem.write`, `Mem.strcpy`: writes
* `Mem.bytes`, `Mem.str`: reads
* `Mem.SameOutside`, `Mem.SameStr`: two memories that agree outside of a region, or in the string at
  an address

## Main results

* `Mem.write_of_notMem`, `Mem.write_of_mem`: what a write changes, and to what
* `Mem.str_of_nul`, `Mem.SameStr.exists_str`: strings that are terminated
-/

/-- A memory. -/
abbrev Mem := ℕ → Byte

namespace Mem

variable {m m' : Mem} {a hi k x : ℕ} {bs : List Byte}

/-- A write of several bytes. -/
def write (m : Mem) (a : ℕ) (bs : List Byte) : Mem :=
  fun x => if a ≤ x then (bs[x - a]?).getD (m x) else m x

/-- `strcpy`. -/
def strcpy (m : Mem) (a : ℕ) (s : CStr) : Mem := m.write a (s.bytes ++ [0])

/-- A read of several bytes. -/
def bytes (m : Mem) (a n : ℕ) : List Byte := (List.range n).map fun i => m (a + i)

/-- The string at an address, in an allocation that ends at `hi`; without a NUL it is read behind
the end. -/
def str (m : Mem) (a hi : ℕ) : Exec CStr :=
  if 0 ∈ m.bytes a (hi - a) then .ok (CStr.ofBuffer (m.bytes a (hi - a))) else .error .fault

/-! ## Writes -/

theorem write_of_notMem (h : x < a ∨ a + bs.length ≤ x) : m.write a bs x = m x := by
  unfold write
  split_ifs with hax
  · rw [List.getElem?_eq_none (by omega), Option.getD_none]
  · rfl

/-- What is written does not depend on what stood there. -/
theorem write_of_mem (m m' : Mem) (ha : a ≤ x) (hx : x < a + bs.length) :
    m.write a bs x = m'.write a bs x := by
  have hlt : x - a < bs.length := by omega
  simp only [write, if_pos ha, List.getElem?_eq_getElem hlt, Option.getD_some]

theorem write_add (m : Mem) (a : ℕ) {i : ℕ} (hi : i < bs.length) :
    m.write a bs (a + i) = bs[i] := by
  simp only [write, if_pos (Nat.le_add_right a i), Nat.add_sub_cancel_left,
    List.getElem?_eq_getElem hi, Option.getD_some]

/-- The NUL that `strcpy` writes. -/
theorem strcpy_nul (m : Mem) (a : ℕ) (s : CStr) : m.strcpy a s (a + s.bytes.length) = 0 := by
  have hlt : s.bytes.length < (s.bytes ++ [0]).length := by simp
  rw [strcpy, write_add m a hlt]
  simp

theorem strcpy_of_notMem {s : CStr} (h : x < a ∨ a + s.bytes.length + 1 ≤ x) :
    m.strcpy a s x = m x :=
  write_of_notMem (by simpa [Nat.add_assoc] using h)

theorem strcpy_of_mem (m m' : Mem) {s : CStr} (ha : a ≤ x) (hx : x ≤ a + s.bytes.length) :
    m.strcpy a s x = m'.strcpy a s x :=
  write_of_mem m m' ha (by simp; omega)

/-! ## Reads -/

theorem bytes_congr (h : ∀ i, i < k → m (a + i) = m' (a + i)) : m.bytes a k = m'.bytes a k :=
  List.map_congr_left fun i hi => h i (List.mem_range.mp hi)

theorem bytes_add (m : Mem) (a k n : ℕ) : m.bytes a (k + n) = m.bytes a k ++ m.bytes (a + k) n := by
  simp only [bytes, List.range_add, List.map_append, List.map_map]
  congr 1
  exact List.map_congr_left fun i _ => by simp [Nat.add_assoc]

theorem bytes_succ (m : Mem) (a n : ℕ) : m.bytes a (n + 1) = m a :: m.bytes (a + 1) n := by
  rw [Nat.add_comm, bytes_add]
  rfl

/-- What was written is read. -/
theorem bytes_write (m : Mem) (a : ℕ) (bs : List Byte) : (m.write a bs).bytes a bs.length = bs := by
  apply List.ext_getElem
  · simp [bytes]
  · intro i hi hbs
    simp only [bytes, List.getElem_map, List.getElem_range]
    exact write_add m a hbs

theorem bytes_strcpy (m : Mem) (a : ℕ) (s : CStr) :
    (m.strcpy a s).bytes a s.bytes.length = s.bytes := by
  have hread := m.bytes_write a (s.bytes ++ [0])
  rw [List.length_append, bytes_add] at hread
  exact List.append_inj_left hread (by simp [bytes])

/-- What stands before a byte, the byte, and what stands behind it. -/
theorem bytes_split (m : Mem) (hk : a + k < hi) :
    ∃ rest, m.bytes a (hi - a) = m.bytes a k ++ m (a + k) :: rest := by
  have hlen : hi - a = k + ((hi - a - k - 1) + 1) := by omega
  refine ⟨m.bytes (a + k + 1) (hi - a - k - 1), ?_⟩
  rw [← bytes_succ, ← bytes_add, ← hlen]

/-- A string that has a NUL. -/
theorem str_of_nul (hk : a + k < hi) (h : m (a + k) = 0) :
    m.str a hi = .ok (CStr.ofBuffer (m.bytes a k)) := by
  obtain ⟨rest, hsplit⟩ := m.bytes_split hk
  rw [h] at hsplit
  rw [str, if_pos (by simp [hsplit]), hsplit, CStr.ofBuffer_append_nul]

/-- A text in memory is the string that is read there exactly if a NUL stands behind it. -/
theorem str_eq_iff {s : CStr} (hs : m.bytes a s.bytes.length = s.bytes)
    (hlt : a + s.bytes.length < hi) : m.str a hi = .ok s ↔ m (a + s.bytes.length) = 0 := by
  constructor
  · intro hstr
    by_contra hne
    obtain ⟨rest, hsplit⟩ := m.bytes_split hlt
    rw [hs] at hsplit
    unfold str at hstr
    split_ifs at hstr with hnul
    have hbytes := congrArg CStr.bytes (Except.ok.inj hstr)
    simp only [CStr.ofBuffer, hsplit] at hbytes
    -- the byte behind the text belongs to the string
    rw [List.takeWhile_append_of_pos fun b hb => s.ne_zero_of_mem hb,
      List.takeWhile_cons_of_pos (by simpa using hne)] at hbytes
    have hlen := congrArg List.length hbytes
    simp at hlen
  · intro h
    rw [str_of_nul hlt h, hs, CStr.ofBuffer_self]

/-! ## Memories that agree -/

/-- The memories agree outside of the region from `lo` up to `hi`. -/
def SameOutside (lo hi : ℕ) (m m' : Mem) : Prop := ∀ x, x < lo ∨ hi ≤ x → m' x = m x

/-- The memories have the same string at an address, with its NUL below `hi`. -/
def SameStr (a hi : ℕ) (m m' : Mem) : Prop :=
  ∃ k, a + k < hi ∧ m (a + k) = 0 ∧ ∀ x, a ≤ x → x ≤ a + k → m x = m' x

/-- The string is read from both. -/
theorem SameStr.exists_str {hi' : ℕ} (h : SameStr a hi m m') (hle : hi ≤ hi') :
    ∃ s, m.str a hi' = .ok s ∧ m'.str a hi' = .ok s := by
  obtain ⟨k, hk, hnul, hsame⟩ := h
  have hnul' : m' (a + k) = 0 := (hsame _ (Nat.le_add_right a k) (le_refl _)).symm.trans hnul
  have hbytes : m.bytes a k = m'.bytes a k :=
    bytes_congr fun i hi => hsame _ (Nat.le_add_right a i) (by omega)
  refine ⟨CStr.ofBuffer (m.bytes a k), str_of_nul (hk.trans_le hle) hnul, ?_⟩
  rw [str_of_nul (hk.trans_le hle) hnul', hbytes]

/-- Writes elsewhere leave the string alone. -/
theorem SameStr.of_outside {lo hi' : ℕ} {n n' : Mem} (h : SameStr a hi m m')
    (hn : SameOutside lo hi' m n) (hn' : SameOutside lo hi' m' n') (hout : hi ≤ lo ∨ hi' ≤ a) :
    SameStr a hi n n' := by
  obtain ⟨k, hk, hnul, hsame⟩ := h
  refine ⟨k, hk, ?_, ?_⟩
  · rw [hn _ (by omega), hnul]
  · intro x hx hxk
    rw [hn x (by omega), hn' x (by omega), hsame x hx hxk]

end Mem
