import AgcFramework.EventSocket.Receive

/-!
# The lines of a block

A block is a sequence of lines and an empty line. The receiving loop takes it as a whole, and the
parsing loop finds its lines again.

## Main definitions

* `Line`: a text that is not empty and has no line ends
* `blockOf`: the block of a sequence of lines
* `HeaderField`: a header as a line

## Main results

* `endsBlock_blockOf`: the second line end in a row is the end of the block
* `nextLine_blockOf`, `stripCr_blockOf`: the parsing loop finds the lines
* `HeaderField.splitHeader_line`: a line is cut into the name and the value of its header
-/

open Exec Reader

/-- A text that is not empty and has no line ends. -/
structure Line where
  text : CStr
  ne_nil : text.bytes ≠ []
  isEol_eq : ∀ b ∈ text.bytes, isEol b = false

theorem isEol_eq_of_all {bs : List Byte} (h : (bs.all fun b => !isEol b) = true) :
    ∀ b ∈ bs, isEol b = false := by
  intro b hb
  simpa using List.all_eq_true.mp h b hb

/-- The block of a sequence of lines. -/
def blockOf (ls : List Line) : List Byte := ls.flatMap (fun l => l.text.bytes ++ [LF]) ++ [LF]

theorem blockOf_cons (l : Line) (ls : List Line) :
    blockOf (l :: ls) = l.text.bytes ++ LF :: blockOf ls := by
  simp [blockOf]

/-! ## The end of a block -/

theorem countEol_of_isEol_eq {b : Byte} (h : isEol b = false) (c : ℕ) : countEol c b = 0 := by
  simp only [isEol, decide_eq_false_iff_not, not_or] at h
  rw [countEol, if_neg h.2, if_pos h.1]

/-- The line end behind a text is the first one in a row. -/
theorem endsBlock_text {bs rest : List Byte} (hne : bs ≠ []) (hbs : ∀ b ∈ bs, isEol b = false)
    (hrest : EndsBlock 1 rest) (c : ℕ) : EndsBlock c (bs ++ LF :: rest) := by
  induction bs generalizing c with
  | nil => exact absurd rfl hne
  | cons b bs ih =>
    have hb := countEol_of_isEol_eq (hbs b List.mem_cons_self) c
    refine Or.inr ⟨by rw [hb]; decide, ?_⟩
    rw [hb]
    by_cases hnil : bs = []
    · subst hnil
      exact Or.inr ⟨by decide, hrest⟩
    · exact ih hnil (fun b' hb' => hbs b' (List.mem_cons_of_mem b hb')) 0

/-- **The second line end in a row is the end of the block**, and there is none before it. -/
theorem endsBlock_blockOf (ls : List Line) : EndsBlock 1 (blockOf ls) := by
  induction ls with
  | nil => exact Or.inl ⟨by decide, rfl⟩
  | cons l ls ih =>
    rw [blockOf_cons]
    exact endsBlock_text l.ne_nil l.isEol_eq ih 1

theorem endsBlock_blockOf_cons (l : Line) (ls : List Line) (c : ℕ) :
    EndsBlock c (blockOf (l :: ls)) := by
  rw [blockOf_cons]
  exact endsBlock_text l.ne_nil l.isEol_eq (endsBlock_blockOf ls) c

/-! ## Finding the lines -/

section Find

variable {c : Byte} {bs rest pad : List Byte} {l : Line} {ls : List Line}

theorem Line.eol_notMem (l : Line) {b : Byte} (hb : isEol b = true) : b ∉ l.text.bytes := by
  intro h
  rw [l.isEol_eq b h] at hb
  cases hb

theorem mem_blockOf {b : Byte} (h : b ∈ blockOf ls) : b = LF ∨ ∃ l ∈ ls, b ∈ l.text.bytes := by
  simp only [blockOf, List.mem_append, List.mem_flatMap, List.mem_singleton] at h
  rcases h with ⟨l, hl, hb | hb⟩ | hb
  · exact Or.inr ⟨l, hl, hb⟩
  · exact Or.inl hb
  · exact Or.inl hb

theorem CR_notMem_blockOf (ls : List Line) : CR ∉ blockOf ls := by
  intro h
  rcases mem_blockOf h with h | ⟨l, -, h⟩
  · exact absurd h (by decide)
  · exact l.eol_notMem (by decide) h

theorem nul_notMem_blockOf (ls : List Line) : 0 ∉ blockOf ls := by
  intro h
  rcases mem_blockOf h with h | ⟨l, -, h⟩
  · exact absurd h (by decide)
  · exact l.text.nul_notMem h

/-- The block has no carriage return, so that the end of its first line is a line feed. -/
theorem findEol_blockOf (l : Line) (ls : List Line) (pad : List Byte) :
    findEol (blockOf (l :: ls) ++ 0 :: pad) = .ok (some (LF :: (blockOf ls ++ 0 :: pad))) := by
  have hcr : strchr CR (blockOf (l :: ls) ++ 0 :: pad) = .ok none :=
    strchr_absent (CR_notMem_blockOf _) (nul_notMem_blockOf _) (by decide)
  have hlf : strchr LF (blockOf (l :: ls) ++ 0 :: pad) =
      .ok (some (LF :: (blockOf ls ++ 0 :: pad))) := by
    rw [blockOf_cons, List.append_assoc, List.cons_append]
    exact strchr_found (l.eol_notMem (by decide)) l.text.nul_notMem
  simp only [findEol, hcr, hlf, ok_bind]

/-- What the parsing loop has in front of it when the lines `ls` are left: nothing once it has
skipped the empty line. -/
def remaining : List Line → List Byte
  | [] => []
  | l :: ls => blockOf (l :: ls)

theorem dropWhile_blockOf (ls : List Line) (pad : List Byte) :
    (LF :: (blockOf ls ++ 0 :: pad)).dropWhile isEol = remaining ls ++ 0 :: pad := by
  have hlf : isEol LF = true := by decide
  rw [List.dropWhile_cons_of_pos hlf]
  cases ls with
  | nil =>
    have h0 : ¬ isEol 0 = true := by decide
    show List.dropWhile isEol (LF :: 0 :: pad) = 0 :: pad
    rw [List.dropWhile_cons_of_pos hlf, List.dropWhile_cons_of_neg h0]
  | cons l ls =>
    obtain ⟨b, bs, hb⟩ := List.exists_cons_of_ne_nil l.ne_nil
    have hfirst : isEol b = false := l.isEol_eq b (by rw [hb]; exact List.mem_cons_self)
    rw [remaining, blockOf_cons, hb]
    exact List.dropWhile_cons_of_neg (by simp [hfirst])

theorem nextLine_blockOf (l : Line) (ls : List Line) (pad : List Byte) :
    nextLine (blockOf (l :: ls) ++ 0 :: pad) = .ok (some (remaining ls ++ 0 :: pad)) := by
  simp only [nextLine, findEol_blockOf, ok_bind, Option.map_some, dropWhile_blockOf, pure_eq_ok]

theorem stripCr_blockOf (l : Line) (ls : List Line) (pad : List Byte) :
    stripCr (blockOf (l :: ls) ++ 0 :: pad) = .ok l.text := by
  have htake : (blockOf (l :: ls) ++ 0 :: pad).take ((blockOf (l :: ls) ++ 0 :: pad).length -
      (LF :: (blockOf ls ++ 0 :: pad)).length) = l.text.bytes := by
    rw [blockOf_cons, List.append_assoc, List.cons_append]
    apply List.take_left'
    rw [List.length_append]
    omega
  simp only [stripCr, findEol_blockOf, ok_bind, htake, CStr.ofBuffer_self, pure_eq_ok]

/-- Behind the empty line there is no line end. -/
theorem nextLine_nul (pad : List Byte) : nextLine (0 :: pad) = .ok none := rfl

theorem stripCr_nul (pad : List Byte) : stripCr (0 :: pad) = .ok ⟨[], List.not_mem_nil⟩ := by
  have h : findEol (0 :: pad) = .ok none := rfl
  simp only [stripCr, h, ok_bind, pure_eq_ok]
  congr 1

end Find

/-! ## Headers as lines -/

/-- A header whose line can be read back. -/
structure HeaderField where
  name : CStr
  value : CStr
  name_ne_nil : name.bytes ≠ []
  name_isEol : ∀ b ∈ name.bytes, isEol b = false
  colon_notMem : 58 ∉ name.bytes
  value_isEol : ∀ b ∈ value.bytes, isEol b = false
  value_space : value.bytes.head? ≠ some 32

namespace HeaderField

/-- The line of a header: its name, a colon, a space and its value. -/
def line (f : HeaderField) : Line where
  text.bytes := f.name.bytes ++ 58 :: 32 :: f.value.bytes
  text.nul_notMem := by
    simp only [List.mem_append, List.mem_cons, not_or]
    exact ⟨f.name.nul_notMem, by decide, by decide, f.value.nul_notMem⟩
  ne_nil := by simp
  isEol_eq b hb := by
    simp only [List.mem_append, List.mem_cons] at hb
    rcases hb with hb | rfl | rfl | hb
    · exact f.name_isEol b hb
    · decide
    · decide
    · exact f.value_isEol b hb

/-- A line is cut into the name and the value of its header. -/
theorem splitHeader_line (f : HeaderField) : splitHeader f.line.text = some (f.name, f.value) := by
  have hname : ∀ b ∈ f.name.bytes, decide (b ≠ 58) = true := by
    intro b hb
    rw [decide_eq_true_eq]
    rintro rfl
    exact f.colon_notMem hb
  have hdrop : f.line.text.bytes.dropWhile (· ≠ 58) = 58 :: 32 :: f.value.bytes := by
    show (f.name.bytes ++ 58 :: 32 :: f.value.bytes).dropWhile _ = _
    rw [List.dropWhile_append_of_pos hname]
    rfl
  have htake : f.line.text.bytes.takeWhile (· ≠ 58) = f.name.bytes := by
    show (f.name.bytes ++ 58 :: 32 :: f.value.bytes).takeWhile _ = _
    rw [List.takeWhile_append_of_pos hname]
    simp
  -- the value does not start with a space, so that only the space of the line is skipped
  have hvalue : (32 :: f.value.bytes).dropWhile (· = 32) = f.value.bytes := by
    rw [List.dropWhile_cons_of_pos (by decide)]
    cases hv : f.value.bytes with
    | nil => rfl
    | cons b bs =>
      have hb : b ≠ 32 := by
        rintro rfl
        exact f.value_space (by rw [hv]; rfl)
      exact List.dropWhile_cons_of_neg (by simpa using hb)
  simp only [splitHeader, hdrop, htake, hvalue, CStr.ofBuffer_self]

end HeaderField
