import AgcFramework.Utils.Separate

/-!
# What the second pass makes of a token

The pass copies a token over itself. The bytes that it has read and not yet written over lie between
what it wrote and what it still has to read, so that the token is computed as if it were copied to
another place.

## Main definitions

* `clean delim t`: the token without its quotes, escapes and outer spaces
* `Cleans`: what the pass has written, and what it still has to read
* `Laid`, `Strings`: texts, and what was made of them, one behind the other in a buffer

## Main results

* `cleanupSeparatedString_spec`: the pass leaves the token `clean delim t` in the place of `t`
* `cleanupAll_spec`: the pass over all tokens
-/

open Exec

namespace Separate

/-! ## The token -/

/-- What was made of the first part of a token: the bytes that were written, and how many of them
are kept so far. -/
structure Clean where
  inside : Bool
  text : List Byte
  kept : ℕ

namespace Clean

/-- The byte of an escape is kept. -/
def escaped (c : Clean) (x : Byte) : Clean :=
  { c with text := c.text ++ [x], kept := c.text.length + 1 }

/-- Any other byte. A quote is left out if it ends a quotation or if there is another one later; a
space outside of quotations is kept if something behind it is. -/
def byte (c : Clean) (b : Byte) (later : Bool) : Clean :=
  if b = QUOTE ∧ (c.inside ∨ later) then
    { c with inside := !c.inside, kept := if c.inside then c.kept else c.text.length }
  else
    { c with
      text := c.text ++ [b]
      kept := if b ≠ SPACE ∨ c.inside then c.text.length + 1 else c.kept }

/-- What is made of the rest of the token. -/
def run (delim : Byte) : Clean → List Byte → Clean
  | c, [] => c
  | c, [b] => c.byte b false
  | c, b :: e :: rest =>
    match if b = ESCAPE_META then escape delim e else none with
    | some x => run delim (c.escaped x) rest
    | none => run delim (c.byte b (QUOTE ∈ e :: rest)) (e :: rest)

end Clean

/-- The token without its quotes, escapes and outer spaces. -/
def clean (delim : Byte) (t : List Byte) : List Byte :=
  let c := Clean.run delim ⟨false, [], 0⟩ (t.dropWhile (· = SPACE))
  c.text.take c.kept

/-! ## The pass -/

variable {delim b x : Byte} {pre post junk rest t buf : List Byte} {s : Cleanup} {c : Clean}
  {n off : ℕ} {qs : List ℕ} {ts : List (List Byte)}

@[simp] theorem escape_nul (delim : Byte) : escape delim 0 = none := by
  have h : ¬ (delim ≠ 0 ∧ 0 = delim) := fun h => h.1 h.2.symm
  simp [escape, h, QUOTE, DQUOTE, ESCAPE_META, unescapeChar]

theorem escape_ne_nul {e : Byte} (he : e ≠ 0) (hx : escape delim e = some x) : x ≠ 0 := by
  unfold escape at hx
  split at hx
  · cases hx
    exact he
  · split at hx
    · cases hx
      unfold unescapeChar
      repeat' split
      all_goals first | exact he | decide
    · cases hx

/-- The test for a quote reads the rest of the token. -/
theorem isQuotation_eq {ptr : ℕ} {inside : Bool} (h : buf.drop (ptr + 1) = rest ++ 0 :: post)
    (h0 : 0 ∉ rest) (b : Byte) :
    isQuotation buf ptr inside b = .ok (decide (b = QUOTE ∧ (inside = true ∨ QUOTE ∈ rest))) := by
  unfold isQuotation
  by_cases hb : b = QUOTE
  · cases inside with
    | true => simp [hb]
    | false =>
      have hstr := strchr_terminated (b := QUOTE) (by decide) ⟨rest, h0⟩ post
      simp only [h, hstr, hb, ok_bind, pure_eq_ok]
      by_cases hq : QUOTE ∈ rest
      · simp [hq]
      · simp [hq]
  · simp [hb]

/-- The pass has written `c.text` at the end of `pre`. It has read the bytes of `junk` too, and has
`rest` to read. All of these are `n` bytes. -/
structure Cleans (n : ℕ) (pre post : List Byte) (s : Cleanup) (c : Clean)
    (junk rest : List Byte) : Prop where
  buf : s.buf = pre ++ c.text ++ (junk ++ (rest ++ 0 :: post))
  ptr : s.ptr = pre.length + c.text.length + junk.length
  dest : s.dest = pre.length + c.text.length
  inside : s.insideQuotes = c.inside
  kept : c.kept ≤ c.text.length
  /-- There is no end yet only before the first byte, which is not a space. -/
  fin : s.fin = some (pre.length + c.kept) ∨
    s.fin = none ∧ c = ⟨false, [], 0⟩ ∧ junk = [] ∧ rest.head? ≠ some SPACE
  length : c.text.length + junk.length + rest.length = n
  text : 0 ∉ c.text
  rest : 0 ∉ rest

/-- A byte is written over the first one that was read. -/
theorem Cleans.put (hc : Cleans n pre post s c junk (t ++ rest)) (hne : t ≠ []) (x : Byte) :
    ∃ junk', junk'.length + 1 = junk.length + t.length ∧
      Buffer.put s.buf s.dest x =
        .ok (pre ++ (c.text ++ [x]) ++ (junk' ++ (rest ++ 0 :: post))) := by
  obtain ⟨y, junk', hy⟩ : ∃ y junk', junk ++ t = y :: junk' :=
    List.exists_cons_of_ne_nil (by simp [hne])
  have hlen := congrArg List.length hy
  refine ⟨junk', by simpa using hlen.symm, ?_⟩
  have hbuf : s.buf = (pre ++ c.text) ++ y :: (junk' ++ (rest ++ 0 :: post)) := by
    rw [hc.buf, List.append_assoc t, ← List.append_assoc junk, hy, List.cons_append]
  rw [hbuf, Buffer.put_append (by simp [hc.dest])]
  simp

/-- The byte that is read, in the buffer. -/
theorem Cleans.buf_eq (hc : Cleans n pre post s c junk (b :: rest)) :
    s.buf = (pre ++ c.text ++ junk ++ [b]) ++ (rest ++ 0 :: post) ∧
      s.ptr + 1 = (pre ++ c.text ++ junk ++ [b]).length := by
  refine ⟨by simp [hc.buf], ?_⟩
  simp [hc.ptr]
  omega

theorem Cleans.get (hc : Cleans n pre post s c junk rest) :
    Buffer.get s.buf s.ptr = .ok (rest.headD 0) := by
  have hptr : s.ptr = (pre ++ c.text ++ junk).length := by simp [hc.ptr]; omega
  have hbuf : s.buf = (pre ++ c.text ++ junk) ++ (rest ++ 0 :: post) := by simp [hc.buf]
  cases rest with
  | nil => rw [hbuf, List.nil_append, Buffer.get_append hptr, List.headD_nil]
  | cons b rest => rw [hbuf, List.cons_append, Buffer.get_append hptr, List.headD_cons]

/-- The byte behind the one that is read; it may be the NUL. -/
theorem Cleans.get_succ (hc : Cleans n pre post s c junk (b :: rest)) :
    Buffer.get s.buf (s.ptr + 1) = .ok (rest.headD 0) := by
  obtain ⟨hbuf, hptr⟩ := hc.buf_eq
  cases rest with
  | nil => rw [hbuf, List.nil_append, Buffer.get_append hptr, List.headD_nil]
  | cons e rest => rw [hbuf, List.cons_append, Buffer.get_append hptr, List.headD_cons]

/-- An escape. -/
theorem Cleans.step_escaped {e : Byte} (hc : Cleans n pre post s c junk (b :: e :: rest))
    (hb : b = ESCAPE_META) (hx : escape delim e = some x) :
    ∃ s' junk', cleanupStep delim b s = .ok s' ∧ Cleans n pre post s' (c.escaped x) junk' rest := by
  obtain ⟨junk', hlen, hput⟩ := Cleans.put (t := [b, e]) hc (by simp) x
  -- two bytes are read and one is written
  have he : e ≠ 0 := fun h => hc.rest (by simp [h])
  refine ⟨{ s with
      buf := pre ++ (c.text ++ [x]) ++ (junk' ++ (rest ++ 0 :: post))
      ptr := s.ptr + 2
      dest := s.dest + 1
      fin := some (s.dest + 1) }, junk', ?_, ?_⟩
  · simp only [cleanupStep, escapeAt, if_pos hb, hc.get_succ, List.headD_cons, hx, hput, ok_bind,
      pure_eq_ok]
  · have hptr := hc.ptr
    have hdest := hc.dest
    have hn := hc.length
    simp only [List.length_cons, List.length_nil] at hlen hn
    refine ⟨rfl, ?_, ?_, hc.inside, ?_, Or.inl ?_, ?_, ?_, ?_⟩
    · simp only [Clean.escaped, List.length_append, List.length_singleton]
      omega
    · simp only [Clean.escaped, List.length_append, List.length_singleton]
      omega
    · simp [Clean.escaped]
    · simp only [Clean.escaped]
      rw [hdest, Nat.add_assoc]
    · simp only [Clean.escaped, List.length_append, List.length_singleton]
      omega
    · simpa [Clean.escaped] using ⟨hc.text, (escape_ne_nul he hx).symm⟩
    · exact fun h => hc.rest (by simp [h])

/-- A quote that is left out: it is read, and nothing is written. -/
theorem Cleans.quote (hc : Cleans n pre post s c junk (b :: rest)) :
    Cleans n pre post
      { s with
        ptr := s.ptr + 1
        insideQuotes := !s.insideQuotes
        fin := if s.insideQuotes then s.fin else some s.dest }
      { c with inside := !c.inside, kept := if c.inside then c.kept else c.text.length }
      (junk ++ [b]) rest := by
  have hkept := hc.kept
  have hn := hc.length
  refine ⟨by simp [hc.buf], ?_, hc.dest, by simp [hc.inside], ?_, Or.inl ?_, ?_, hc.text, ?_⟩
  · simp [hc.ptr]
    omega
  · dsimp only
    split <;> omega
  · rw [hc.inside]
    cases hin : c.inside with
    | true =>
      rcases hc.fin with hfin | ⟨-, rfl, -⟩
      · simpa using hfin
      · cases hin
    | false => simp [hc.dest]
  · simp only [List.length_append, List.length_cons, List.length_nil] at hn ⊢
    omega
  · exact fun h => hc.rest (List.mem_cons_of_mem b h)

/-- A byte that is copied. -/
theorem Cleans.copy (hc : Cleans n pre post s c junk (b :: rest)) :
    ∃ buf junk', Buffer.put s.buf s.dest b = .ok buf ∧ Cleans n pre post
      { s with
        buf := buf
        ptr := s.ptr + 1
        dest := s.dest + 1
        fin := if b ≠ SPACE ∨ s.insideQuotes then some (s.dest + 1) else s.fin }
      { c with
        text := c.text ++ [b]
        kept := if b ≠ SPACE ∨ c.inside then c.text.length + 1 else c.kept }
      junk' rest := by
  obtain ⟨junk', hlen, hput⟩ := Cleans.put (t := [b]) hc (by simp) b
  have hptr := hc.ptr
  have hdest := hc.dest
  have hkept := hc.kept
  have hb : b ≠ 0 := fun h => hc.rest (by simp [h])
  have hn := hc.length
  simp only [List.length_cons, List.length_nil] at hlen hn
  refine ⟨_, junk', hput, rfl, ?_, ?_, hc.inside, ?_, ?_, ?_, ?_, ?_⟩
  · simp only [List.length_append, List.length_singleton]
    omega
  · simp only [List.length_append, List.length_singleton]
    omega
  · dsimp only
    rw [List.length_append, List.length_singleton]
    split <;> omega
  · -- behind a byte that is kept the end moves on
    left
    rw [hc.inside]
    by_cases hkeep : b ≠ SPACE ∨ c.inside = true
    · simp only [if_pos hkeep, hdest, Nat.add_assoc]
    · rcases hc.fin with hfin | ⟨-, -, -, hhead⟩
      · simp only [if_neg hkeep, hfin]
      · -- the first byte is not a space
        rw [not_or, not_not] at hkeep
        exact absurd (by simp [hkeep.1]) hhead
  · simp only [List.length_append, List.length_singleton]
    omega
  · simpa using ⟨hc.text, hb.symm⟩
  · exact fun h => hc.rest (List.mem_cons_of_mem b h)

/-- Any other byte than that of an escape. -/
theorem Cleans.step_byte (delim : Byte) (hc : Cleans n pre post s c junk (b :: rest))
    (hesc : b = ESCAPE_META → escape delim (rest.headD 0) = none) :
    ∃ s' junk', cleanupStep delim b s = .ok s' ∧
      Cleans n pre post s' (c.byte b (QUOTE ∈ rest)) junk' rest := by
  have h0 : 0 ∉ rest := fun h => hc.rest (List.mem_cons_of_mem b h)
  have hnone : escapeAt s.buf s.ptr delim b = .ok none := by
    by_cases hb : b = ESCAPE_META
    · simp only [escapeAt, if_pos hb, hc.get_succ, ok_bind, hesc hb, pure_eq_ok]
    · simp only [escapeAt, if_neg hb, pure_eq_ok]
  have hquote : isQuotation s.buf s.ptr s.insideQuotes b =
      .ok (decide (b = QUOTE ∧ (c.inside = true ∨ QUOTE ∈ rest))) := by
    obtain ⟨hbuf, hptr⟩ := hc.buf_eq
    have hdrop : s.buf.drop (s.ptr + 1) = rest ++ 0 :: post := by
      rw [hbuf]
      exact List.drop_left' hptr.symm
    rw [hc.inside]
    exact isQuotation_eq hdrop h0 b
  -- a quote that is not copied turns the quoting on or off; all else is copied
  by_cases hq : b = QUOTE ∧ (c.inside = true ∨ QUOTE ∈ rest)
  · have hbyte : c.byte b (QUOTE ∈ rest) =
        { c with inside := !c.inside, kept := if c.inside then c.kept else c.text.length } := by
      simp only [Clean.byte, decide_eq_true_eq, if_pos hq]
    refine ⟨_, _, ?_, hbyte ▸ hc.quote⟩
    simp only [cleanupStep, hnone, hquote, ok_bind, decide_eq_true hq, if_true, pure_eq_ok]
  · obtain ⟨buf, junk', hput, hcopy⟩ := hc.copy
    have hbyte : c.byte b (QUOTE ∈ rest) =
        { c with
          text := c.text ++ [b]
          kept := if b ≠ SPACE ∨ c.inside then c.text.length + 1 else c.kept } := by
      simp only [Clean.byte, decide_eq_true_eq, if_neg hq]
    refine ⟨_, junk', ?_, hbyte ▸ hcopy⟩
    simp only [cleanupStep, hnone, hquote, hput, ok_bind, decide_eq_false hq, Bool.false_eq_true,
      if_false, pure_eq_ok]

/-- An iteration of the loop. -/
theorem cleanupLoop_succ (hc : Cleans n pre post s c junk (b :: rest)) {s' : Cleanup}
    (hstep : cleanupStep delim b s = .ok s') (fuel : ℕ) :
    cleanupLoop delim (fuel + 1) s = cleanupLoop delim fuel s' := by
  have hb : b ≠ 0 := fun h => hc.rest (by simp [h])
  simp only [cleanupLoop, hc.get, List.headD_cons, ok_bind, if_neg hb, hstep]

/-- The loop. -/
theorem Cleans.loop (delim : Byte) (hc : Cleans n pre post s c junk rest) :
    ∃ s' junk', Returns (fun fuel => cleanupLoop delim fuel s) s' ∧
      Cleans n pre post s' (c.run delim rest) junk' [] := by
  -- the cases: the end, a last byte, an escape, and any other byte
  induction c, rest using Clean.run.induct delim generalizing s junk with
  | case1 c =>
    refine ⟨s, junk, (Returns.const s).succ fun fuel => ?_, hc⟩
    simp [cleanupLoop, hc.get]
  | case2 c b =>
    obtain ⟨s₁, junk₁, hstep, hc₁⟩ := hc.step_byte delim fun _ => by simp
    refine ⟨s₁, junk₁, ((Returns.const s₁).succ fun fuel => ?_).succ (cleanupLoop_succ hc hstep),
      ?_⟩
    · simp [cleanupLoop, hc₁.get]
    · simpa [Clean.run] using hc₁
  | case3 c b e rest x hx ih =>
    have hb : b = ESCAPE_META := by
      by_contra hb
      simp [hb] at hx
    rw [if_pos hb] at hx
    obtain ⟨s₁, junk₁, hstep, hc₁⟩ := hc.step_escaped hb hx
    obtain ⟨s', junk', hret, hc'⟩ := ih hc₁
    refine ⟨s', junk', hret.succ (cleanupLoop_succ hc hstep), ?_⟩
    rw [Clean.run, if_pos hb, hx]
    exact hc'
  | case4 c b e rest hx ih =>
    obtain ⟨s₁, junk₁, hstep, hc₁⟩ := hc.step_byte delim fun hb => by simpa [hb] using hx
    obtain ⟨s', junk', hret, hc'⟩ := ih hc₁
    refine ⟨s', junk', hret.succ (cleanupLoop_succ hc hstep), ?_⟩
    rw [Clean.run, hx]
    exact hc'

/-- The spaces in front of a text. -/
theorem skipSpaces_spec (pre : List Byte) (h0 : 0 ∉ t) :
    Returns (fun fuel => skipSpaces (pre ++ t ++ 0 :: post) fuel pre.length)
      (pre.length + (t.takeWhile (· = SPACE)).length) := by
  induction t generalizing pre with
  | nil =>
    refine (Returns.const _).succ fun fuel => ?_
    rw [skipSpaces, List.append_nil, Buffer.get_append rfl]
    rfl
  | cons b t ih =>
    have hget : Buffer.get (pre ++ (b :: t) ++ 0 :: post) pre.length = .ok b := by
      rw [List.append_assoc, List.cons_append, Buffer.get_append rfl]
    by_cases hb : b = SPACE
    · have hnext := ih (pre ++ [b]) fun h => h0 (List.mem_cons_of_mem b h)
      simp only [List.length_append, List.length_singleton, List.append_assoc, List.cons_append,
        List.nil_append] at hnext
      have hlen : pre.length + ((b :: t).takeWhile (· = SPACE)).length =
          pre.length + 1 + (t.takeWhile (· = SPACE)).length := by
        simp [hb]
        omega
      rw [hlen]
      refine hnext.succ fun fuel => ?_
      rw [skipSpaces, hget, ok_bind, if_pos hb, List.append_assoc, List.cons_append]
    · refine (Returns.const _).succ fun fuel => ?_
      rw [skipSpaces, hget, ok_bind, if_neg hb]
      simp [hb]

/-- A NUL that is written behind the first `n` bytes of a text ends the string there. -/
theorem ofBuffer_set_nul {text : List Byte} {n : ℕ} (h0 : 0 ∉ text) (hn : n ≤ text.length)
    (junk : List Byte) :
    (CStr.ofBuffer ((text ++ junk).set n 0)).bytes = text.take n := by
  have htake : 0 ∉ text.take n := fun h => h0 (List.mem_of_mem_take h)
  rcases Nat.lt_or_ge n (text ++ junk).length with hlt | hge
  · have hset : (text ++ junk).set n 0 = text.take n ++ 0 :: (text ++ junk).drop (n + 1) := by
      rw [List.set_eq_take_append_cons_drop, if_pos hlt, List.take_append_of_le_length hn]
    rw [hset]
    exact congrArg CStr.bytes (CStr.ofBuffer_bytes ⟨_, htake⟩ _)
  · -- nothing is behind the text, and its own NUL ends it
    rw [List.set_eq_of_length_le hge]
    have hjunk' : junk = [] := by
      rw [List.length_append] at hge
      exact List.length_eq_zero_iff.mp (by omega)
    have hn' : n = text.length := by
      simp only [hjunk', List.append_nil] at hge
      omega
    rw [hjunk', List.append_nil, hn', List.take_length]
    exact congrArg CStr.bytes (CStr.ofBuffer_self ⟨text, h0⟩)

/-- The pass over one token. The token gets shorter in its place, and starts behind its first
spaces. -/
theorem cleanupSeparatedString_spec (delim : Byte) (h0 : 0 ∉ t) (pre post : List Byte) :
    ∃ body k, Returns (fun fuel => cleanupSeparatedString fuel (pre ++ t ++ 0 :: post) pre.length
        delim) (pre ++ body ++ 0 :: post, pre.length + k) ∧
      body.length = t.length ∧ k ≤ body.length ∧
      (CStr.ofBuffer (body.drop k)).bytes = clean delim t := by
  let spaces := t.takeWhile (· = SPACE)
  let rest := t.dropWhile (· = SPACE)
  have hsplit : spaces ++ rest = t := List.takeWhile_append_dropWhile
  have hhead : rest.head? ≠ some SPACE := by
    intro h
    have := List.head?_dropWhile_not (· = SPACE) t
    simp [show t.dropWhile (· = SPACE) = rest from rfl, h] at this
  -- the loop starts behind the spaces, where it reads and writes at the same place
  have hstart : Cleans rest.length (pre ++ spaces) post
      ⟨pre ++ t ++ 0 :: post, pre.length + spaces.length, pre.length + spaces.length, none, false⟩
      ⟨false, [], 0⟩ [] rest := by
    refine ⟨?_, by simp, by simp, rfl, Nat.le_refl 0, Or.inr ⟨rfl, rfl, rfl, hhead⟩, by simp,
      by simp, ?_⟩
    · simp [← hsplit]
    · exact fun h => h0 ((List.dropWhile_sublist _).mem h)
  obtain ⟨s, junk, hret, hc⟩ := hstart.loop delim
  let c := Clean.run delim ⟨false, [], 0⟩ rest
  have hlen : (c.text ++ junk).length = rest.length := by
    simpa using hc.length
  have hbuf : s.buf = (pre ++ spaces) ++ (c.text ++ junk) ++ 0 :: post := by
    rw [hc.buf]
    simp [c]
  refine ⟨spaces ++ (c.text ++ junk).set c.kept 0, spaces.length, ?_, ?_, ?_, ?_⟩
  · refine (skipSpaces_spec pre h0).bind (hret.bind ((Returns.const _).congr fun fuel => ?_))
    rcases hc.fin with hfin | ⟨hfin, hinit, rfl, -⟩
    · have hput : Buffer.put s.buf ((pre ++ spaces).length + c.kept) 0 =
          .ok (pre ++ spaces ++ (c.text ++ junk).set c.kept 0 ++ 0 :: post) := by
        rw [hbuf]
        exact Buffer.put_nul (hc.kept.trans (by simp [c]))
      simp only [hfin, c, hput, ok_bind, pure_eq_ok, ← List.append_assoc]
      rfl
    · -- nothing but spaces
      simp only [hfin, pure_eq_ok, hbuf, c, hinit]
      simp [spaces]
  · simp [← hsplit, hlen]
  · simp
  · rw [List.drop_left]
    exact ofBuffer_set_nul hc.text hc.kept junk

/-! ## All tokens -/

/-- The buffer, which begins at the position `off`, holds the texts at the positions, each with its
NUL. -/
inductive Laid : ℕ → List Byte → List ℕ → List (List Byte) → Prop
  | nil (off : ℕ) (buf : List Byte) : Laid off buf [] []
  | cons {off : ℕ} (gap : List Byte) {t buf : List Byte} {qs : List ℕ} {ts : List (List Byte)}
    (h0 : 0 ∉ t)
    (h : Laid (off + gap.length + t.length + 1) buf qs ts) :
    Laid off (gap ++ t ++ 0 :: buf) ((off + gap.length) :: qs) (t :: ts)

/-- The buffer, which begins at the position `off`, holds at the positions strings with these
bytes. -/
inductive Strings : ℕ → List Byte → List ℕ → List (List Byte) → Prop
  | nil (off : ℕ) (buf : List Byte) : Strings off buf [] []
  | cons {off k : ℕ} {gap body t buf : List Byte} {qs : List ℕ} {ts : List (List Byte)}
    (hk : k ≤ body.length) (ht : (CStr.ofBuffer (body.drop k)).bytes = t)
    (h : Strings (off + gap.length + body.length + 1) buf qs ts) :
    Strings off (gap ++ body ++ 0 :: buf) ((off + gap.length + k) :: qs) (t :: ts)

/-- Bytes in front of the texts. -/
theorem Laid.append {gap : List Byte} (h : Laid (off + gap.length) buf qs ts) :
    Laid off (gap ++ buf) qs ts := by
  cases h with
  | nil => exact .nil off _
  | @cons _ gap' t buf qs ts h0 h =>
    rw [Nat.add_assoc off, ← List.length_append] at h ⊢
    simpa using Laid.cons _ h0 h

/-- The pass over all tokens. -/
theorem cleanupAll_spec (delim : Byte) (h : Laid off buf qs ts) (pre : List Byte)
    (hoff : off = pre.length) :
    ∃ buf' qs', Returns (fun fuel => cleanupAll delim fuel (pre ++ buf) qs) (pre ++ buf', qs') ∧
      buf'.length = buf.length ∧ Strings off buf' qs' (ts.map (clean delim)) := by
  induction h generalizing pre with
  | nil off buf => exact ⟨buf, [], Returns.const _, rfl, .nil off buf⟩
  | @cons off gap t buf qs ts h0 h ih =>
    subst hoff
    obtain ⟨body, k, hret, hlen, hk, hclean⟩ :=
      cleanupSeparatedString_spec delim h0 (pre ++ gap) buf
    obtain ⟨buf', qs', hret', hlen', hstrings⟩ := ih (pre ++ gap ++ body ++ [0])
      (by simp [hlen]; omega)
    refine ⟨gap ++ body ++ 0 :: buf', _, ?_, by simp [hlen, hlen'],
      .cons hk hclean (hlen ▸ hstrings)⟩
    have hhead : Returns (fun fuel => cleanupSeparatedString fuel (pre ++ (gap ++ t ++ 0 :: buf))
        (pre.length + gap.length) delim)
        (pre ++ gap ++ body ++ [0] ++ buf, pre.length + gap.length + k) := by
      simpa using hret
    refine hhead.bind (hret'.bind ((Returns.const _).congr fun fuel => ?_))
    simp

/-- Each position is that of its string. -/
theorem Strings.map_str (h : Strings off buf qs ts) (pre : List Byte) (hoff : off = pre.length) :
    qs.map (fun q => (Buffer.str (pre ++ buf) q).bytes) = ts := by
  induction h generalizing pre with
  | nil => rfl
  | @cons off k gap body t buf qs ts hk ht h ih =>
    subst hoff
    have hrest := ih (pre ++ gap ++ body ++ [0]) (by simp; omega)
    have hstr :
        (Buffer.str (pre ++ (gap ++ body ++ 0 :: buf)) (pre.length + gap.length + k)).bytes =
        t := by
      rw [← ht]
      have hdrop : (pre ++ (gap ++ body ++ 0 :: buf)).drop (pre.length + gap.length + k) =
          body.drop k ++ 0 :: buf := by
        rw [List.append_assoc, ← List.append_assoc, ← List.length_append,
          List.drop_length_add_append, List.drop_append_of_le_length hk]
      rw [Buffer.str, hdrop, CStr.ofBuffer_append_nul]
    rw [List.map_cons, hstr]
    simpa using hrest

/-- Each position is in the buffer, and there is a NUL at it or behind it. -/
theorem Strings.nul (h : Strings off buf qs ts) (pre : List Byte) (hoff : off = pre.length) :
    ∀ q ∈ qs, ∃ j, q ≤ j ∧ (pre ++ buf)[j]? = some 0 := by
  induction h generalizing pre with
  | nil => simp
  | @cons off k gap body t buf qs ts hk ht h ih =>
    subst hoff
    intro q hq
    rcases List.mem_cons.mp hq with rfl | hq
    · refine ⟨(pre ++ gap ++ body).length, by simp; omega, ?_⟩
      have hbuf : pre ++ (gap ++ body ++ 0 :: buf) = (pre ++ gap ++ body) ++ 0 :: buf := by simp
      rw [hbuf, List.getElem?_append_right (Nat.le_refl _), Nat.sub_self, List.getElem?_cons_zero]
    · obtain ⟨j, hj, hnul⟩ := ih (pre ++ gap ++ body ++ [0]) (by simp; omega) q hq
      exact ⟨j, hj, by simpa using hnul⟩

theorem Strings.length_eq (h : Strings off buf qs ts) : qs.length = ts.length := by
  induction h with
  | nil => rfl
  | cons _ _ _ ih => simp [ih]

end Separate
