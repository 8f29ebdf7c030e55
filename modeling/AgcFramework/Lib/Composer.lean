import AgcFramework.Lib.Buffer

/-!
# Texts that are composed in memory

A composer is an allocation with a pointer into it, behind the text that was written so far. A part
of a program that writes puts a text behind it, as long as there is room for the text and a NUL;
such parts compose.

## Main definitions

* `Composer.push`, `Composer.nul`, `Composer.strcpy`: `*ptr++ = b`, `*ptr = 0`, and a string with
  its NUL
* `Composer.Holds w t n`: the text `t` is at the start of `n` bytes, and the pointer behind it
* `Composer.Puts f s`: the part `f` puts the text `s`

## Main results

* `Composer.Puts.bind`: parts one after another
* `Composer.Puts.finish`: the text with its NUL
-/

open Exec

/-- An allocation, and the pointer into it. -/
structure Composer where
  out : List Byte
  ptr : ℕ

namespace Composer

variable {w : Composer} {t s s' : List Byte} {n : ℕ} {f g : Composer → Exec Composer}

/-- `*ptr++ = b`. -/
def push (b : Byte) (w : Composer) : Exec Composer := do
  let out ← Buffer.put w.out w.ptr b
  pure ⟨out, w.ptr + 1⟩

/-- `*ptr = 0`. -/
def nul (w : Composer) : Exec Composer := do
  let out ← Buffer.put w.out w.ptr 0
  pure ⟨out, w.ptr⟩

/-- `strcpy(ptr, s)`, and the pointer is moved behind the string. -/
def strcpy (s : List Byte) (w : Composer) : Exec Composer := do
  let out ← Buffer.copy w.out w.ptr (s ++ [0])
  pure ⟨out, w.ptr + s.length⟩

/-- `if (c) *ptr++ = b`. -/
def pushIf (c : Bool) (b : Byte) (w : Composer) : Exec Composer := if c then w.push b else pure w

/-- The text is at the start of `n` bytes, and the pointer is behind it. -/
structure Holds (w : Composer) (t : List Byte) (n : ℕ) : Prop where
  ptr : w.ptr = t.length
  text : ∃ rest, w.out = t ++ rest
  length : w.out.length = n

/-- Wherever there is room for a text and a NUL behind it, the part puts the text. -/
def Puts (f : Composer → Exec Composer) (s : List Byte) : Prop :=
  ∀ w t n, Holds w t n → t.length + s.length < n → ∃ w', f w = .ok w' ∧ w'.Holds (t ++ s) n

/-- A write of one byte at the pointer. -/
theorem Holds.put (h : w.Holds t n) (hroom : t.length < n) (b : Byte) :
    ∃ rest, Buffer.put w.out w.ptr b = .ok (t ++ b :: rest) ∧ (t ++ b :: rest).length = n := by
  obtain ⟨rest, hrest⟩ := h.text
  have hlen := h.length
  rw [hrest, List.length_append] at hlen
  have hne : rest ≠ [] := by
    rintro rfl
    rw [List.length_nil] at hlen
    omega
  obtain ⟨c, rest, rfl⟩ := List.exists_cons_of_ne_nil hne
  refine ⟨rest, ?_, ?_⟩
  · rw [hrest, h.ptr]
    exact Buffer.put_append rfl b
  · rw [List.length_append, List.length_cons]
    rw [List.length_cons] at hlen
    exact hlen

theorem Puts.push (b : Byte) : Puts (push b) [b] := by
  intro w t n h hroom
  rw [List.length_singleton] at hroom
  obtain ⟨rest, hput, hlen⟩ := h.put (by omega) b
  refine ⟨⟨t ++ b :: rest, w.ptr + 1⟩, ?_, ?_, ⟨rest, by simp⟩, hlen⟩
  · rw [Composer.push, hput]
    rfl
  · rw [h.ptr, List.length_append, List.length_singleton]

theorem Puts.nul : Puts nul [] := by
  intro w t n h hroom
  obtain ⟨rest, hput, hlen⟩ := h.put hroom 0
  rw [List.append_nil]
  refine ⟨⟨t ++ 0 :: rest, w.ptr⟩, ?_, h.ptr, ⟨0 :: rest, rfl⟩, hlen⟩
  rw [Composer.nul, hput]
  rfl

theorem Puts.strcpy (s : List Byte) : Puts (strcpy s) s := by
  intro w t n h hroom
  obtain ⟨rest, hrest⟩ := h.text
  have hlen := h.length
  have hroom' : w.ptr + (s ++ [0]).length ≤ w.out.length := by
    rw [h.ptr, hlen, List.length_append, List.length_singleton]
    omega
  refine ⟨⟨w.out.take w.ptr ++ (s ++ [0]) ++ w.out.drop (w.ptr + (s ++ [0]).length),
    w.ptr + s.length⟩, ?_, ?_, ?_, ?_⟩
  · rw [Composer.strcpy, Buffer.copy_of_le hroom']
    rfl
  · show w.ptr + s.length = _
    rw [h.ptr, List.length_append]
  · refine ⟨0 :: w.out.drop (w.ptr + (s ++ [0]).length), ?_⟩
    have htake : w.out.take w.ptr = t := by
      rw [hrest, h.ptr, List.take_left]
    rw [htake]
    simp
  · simp only [List.length_append, List.length_take, List.length_drop] at hroom' ⊢
    omega

theorem Puts.pure : Puts pure [] := by
  intro w t n h _
  rw [List.append_nil]
  exact ⟨w, rfl, h⟩

theorem Puts.bind (hf : Puts f s) (hg : Puts g s') : Puts (fun w => f w >>= g) (s ++ s') := by
  intro w t n h hroom
  rw [List.length_append] at hroom
  obtain ⟨w', hw', h'⟩ := hf w t n h (by omega)
  obtain ⟨w'', hw'', h''⟩ := hg w' (t ++ s) n h' (by rw [List.length_append]; omega)
  rw [List.append_assoc] at h''
  refine ⟨w'', ?_, h''⟩
  show (f w >>= g) = _
  rw [hw', ok_bind, hw'']

theorem Puts.pushIf (c : Bool) (b : Byte) : Puts (pushIf c b) (if c then [b] else []) := by
  cases c with
  | false => exact Puts.pure
  | true => exact Puts.push b

/-- **The text with its NUL** is at the start of an allocation that has the room for both. -/
theorem Puts.finish (hf : Puts f s) {out : List Byte} (hroom : s.length < out.length) :
    ∃ rest w, (f ⟨out, 0⟩ >>= Composer.push 0) = .ok w ∧ w.out = s ++ 0 :: rest := by
  obtain ⟨w, hw, h⟩ := hf ⟨out, 0⟩ [] out.length ⟨rfl, ⟨out, rfl⟩, rfl⟩
    (by rw [List.length_nil, Nat.zero_add]; exact hroom)
  obtain ⟨rest, hput, -⟩ := h.put (by rw [List.nil_append]; exact hroom) 0
  refine ⟨rest, ⟨s ++ 0 :: rest, w.ptr + 1⟩, ?_, rfl⟩
  rw [hw, ok_bind, Composer.push, hput]
  rfl

end Composer
