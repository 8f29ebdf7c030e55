import Mathlib.Algebra.Ring.Parity
import Mathlib.Data.List.DropRight
import Mathlib.Data.List.Induction
import AgcFramework.Utils.Clean

/-!
# The tokens of a text

The two ways of cutting agree but for the quotes and for runs of blanks, and are described by one
function. A backslash takes the byte behind it with it. Where the text ends in a backslash that is
not escaped itself, the loop steps over the NUL.

## Main definitions

* `scan`: the first token and what is behind its delimiter
* `tokens delim m s`: the tokens of the text, of which the `m`-th has all that is left
* `pending`: the text ends behind a backslash that is not escaped
* `tokenCount`: the number of tokens, if there is room for all

## Main results

* `pending_eq_odd`: a backslash is pending when the text ends in an odd number of them
* `splitter_chars`, `splitter_blank`: what the loops find
* `agcSeparateString_spec`: what `agc_separate_string` returns
* `separate_string_bounds_iff`: when it stays inside of its text
-/

open Exec

namespace Separate

/-! ## Scanning -/

/-- A quote begins or ends a quotation. Outside of one it needs another quote later, but not where
the delimiter is a blank. -/
def Quotes (delim : Byte) (inside : Bool) (b : Byte) (rest : List Byte) : Prop :=
  b = QUOTE ∧ (inside = true ∨ delim = SPACE ∨ QUOTE ∈ rest)

instance (delim : Byte) (inside : Bool) (b : Byte) (rest : List Byte) :
    Decidable (Quotes delim inside b rest) := inferInstanceAs (Decidable (_ ∧ _))

/-- The text up to the first delimiter outside of quotations, and what is behind it. The flag
`skip` says that a backslash is in front of the text. -/
def scan (delim : Byte) : Bool → Bool → List Byte → List Byte × Option (List Byte)
  | _, _, [] => ([], none)
  | true, inside, b :: rest =>
    let (p, tl) := scan delim false inside rest
    (b :: p, tl)
  | false, inside, b :: rest =>
    if b = ESCAPE_META then
      let (p, tl) := scan delim true inside rest
      (b :: p, tl)
    else if Quotes delim inside b rest then
      let (p, tl) := scan delim false (!inside) rest
      (b :: p, tl)
    else if b = delim ∧ inside = false then ([], some rest)
    else
      let (p, tl) := scan delim false inside rest
      (b :: p, tl)

/-- A backslash in front of the end escapes nothing. -/
def pending : Bool → List Byte → Bool
  | skip, [] => skip
  | true, _ :: rest => pending false rest
  | false, b :: rest => pending (b = ESCAPE_META) rest

/-- A blank, where blanks are the delimiter. -/
def isBlank (delim b : Byte) : Bool := delim = SPACE ∧ b = SPACE

/-- The tokens of the text. The last one that there is room for has all that is left. -/
def tokens (delim : Byte) : ℕ → List Byte → List (List Byte)
  | 0, _ => []
  | m + 1, s =>
    if s = [] then []
    -- the array has room for one more, which gets the rest uncut
    else if m = 0 then [s]
    else
      match scan delim false false (s.dropWhile (isBlank delim)) with
      | (p, none) => [s.takeWhile (isBlank delim) ++ p]
      | (p, some rest) =>
        (s.takeWhile (isBlank delim) ++ p) :: tokens delim m (rest.dropWhile (isBlank delim))

/-- The number of delimiters outside of escapes and quotations; of the blanks of a run only the last
one counts, and only with something behind it. -/
def separators (delim : Byte) : Bool → Bool → List Byte → ℕ
  | _, _, [] => 0
  | true, inside, _ :: rest => separators delim false inside rest
  | false, inside, b :: rest =>
    if b = ESCAPE_META then separators delim true inside rest
    else if Quotes delim inside b rest then separators delim false (!inside) rest
    else if b = delim ∧ inside = false ∧ (delim = SPACE → rest.head?.any (· ≠ SPACE)) then
      separators delim false inside rest + 1
    else separators delim false inside rest

/-- The number of tokens of a text, if there is room for all. -/
def tokenCount (delim : Byte) (s : List Byte) : ℕ :=
  separators delim false false (s.dropWhile (isBlank delim)) + 1

variable {delim b : Byte} {skip inside : Bool} {s p rest pre : List Byte} {m : ℕ}

/-! ## Trailing backslashes -/

theorem pending_snoc (skip : Bool) (s : List Byte) (b : Byte) :
    pending skip (s ++ [b]) = (!pending skip s && b = ESCAPE_META) := by
  induction s generalizing skip with
  | nil => cases skip <;> simp [pending]
  -- the first byte is escaped or not, and the rest decides
  | cons a s ih =>
    cases skip with
    | true => simp only [List.cons_append, pending, ih]
    | false => simp only [List.cons_append, pending, ih]

/-- A backslash is pending when the text ends in an odd number of them. -/
theorem pending_eq_odd (s : List Byte) :
    pending false s = true ↔ Odd (s.rtakeWhile (· = ESCAPE_META)).length := by
  induction s using List.reverseRecOn with
  | nil => simp [pending]
  | append_singleton s b ih =>
    rw [pending_snoc, List.rtakeWhile_concat]
    by_cases hb : b = ESCAPE_META
    · simp only [hb, decide_true, if_true, Bool.and_true, List.length_append, List.length_singleton,
        Nat.odd_add_one, ← ih]
      simp
    · simp [hb]

/-! ## What a scan finds -/

/-- How a scan goes on behind a byte. -/
theorem scan_cons_of_not_cut (h : skip = true ∨ b = ESCAPE_META ∨ Quotes delim inside b rest ∨
    ¬ (b = delim ∧ inside = false)) :
    ∃ skip' inside', scan delim skip inside (b :: rest) =
        (b :: (scan delim skip' inside' rest).1, (scan delim skip' inside' rest).2) ∧
      pending skip (b :: rest) = pending skip' rest ∧
      separators delim skip inside (b :: rest) = separators delim skip' inside' rest := by
  cases skip with
  | true => exact ⟨false, inside, rfl, rfl, rfl⟩
  -- the tests in the order in which the loops make them
  | false =>
    by_cases hesc : b = ESCAPE_META
    · exact ⟨true, inside, by simp [scan, hesc], by simp [pending, hesc],
        by simp [separators, hesc]⟩
    by_cases hquote : Quotes delim inside b rest
    · exact ⟨false, !inside, by simp [scan, hesc, hquote], by simp [pending, hesc],
        by simp [separators, hesc, hquote]⟩
    have hcut : ¬ (b = delim ∧ inside = false) := by simpa [hesc, hquote] using h
    refine ⟨false, inside, by simp [scan, hesc, hquote, hcut], by simp [pending, hesc], ?_⟩
    rw [separators, if_neg hesc, if_neg hquote, if_neg fun h => hcut ⟨h.1, h.2.1⟩]

/-- The blanks behind a blank. -/
theorem separators_blanks (hrest : rest.dropWhile (isBlank delim) ≠ [])
    (hdelim : delim = SPACE) :
    separators delim false false (SPACE :: rest) =
      separators delim false false (rest.dropWhile (isBlank delim)) + 1 := by
  have hquote : ¬ Quotes delim false SPACE rest := fun h => absurd h.1 (by decide)
  have hesc : SPACE ≠ ESCAPE_META := by decide
  induction rest with
  | nil => exact absurd rfl hrest
  | cons c rest ih =>
    by_cases hc : c = SPACE
    · -- a blank with a blank behind it does not count
      have hblank : isBlank delim c = true := by simp [isBlank, hdelim, hc]
      rw [List.dropWhile_cons, if_pos hblank] at hrest ⊢
      rw [separators, if_neg hesc, if_neg hquote, if_neg (by simp [hdelim, hc]), hc]
      exact ih hrest fun h => absurd h.1 (by decide)
    · -- this is the last blank of the run
      have hblank : isBlank delim c = false := by simp [isBlank, hc]
      rw [List.dropWhile_cons, hblank]
      rw [separators, if_neg hesc, if_neg hquote, if_pos (by simp [hdelim, hc])]
      rfl

theorem pending_dropWhile (s : List Byte) :
    pending false (s.dropWhile (isBlank delim)) = pending false s := by
  induction s with
  | nil => rfl
  | cons b s ih =>
    by_cases hb : isBlank delim b = true
    · have hspace : b ≠ ESCAPE_META := by
        simp only [isBlank, Bool.decide_and, Bool.and_eq_true, decide_eq_true_eq] at hb
        rw [hb.2]
        decide
      rw [List.dropWhile_cons, if_pos hb, ih]
      simp [pending, hspace]
    · rw [List.dropWhile_cons, if_neg hb]

/-- A scan to the end. -/
theorem scan_eq_none (h : scan delim skip inside s = (p, none)) :
    p = s ∧ separators delim skip inside s = 0 := by
  induction s generalizing skip inside p with
  | nil =>
    cases h
    exact ⟨rfl, by simp [separators]⟩
  | cons b rest ih =>
    by_cases hcont : skip = true ∨ b = ESCAPE_META ∨ Quotes delim inside b rest ∨
        ¬ (b = delim ∧ inside = false)
    · obtain ⟨skip', inside', hscan, -, hsep⟩ := scan_cons_of_not_cut hcont
      rw [hscan] at h
      obtain ⟨hp, hnone⟩ := Prod.mk.inj h
      obtain ⟨htail, hzero⟩ := ih (Prod.ext rfl hnone)
      exact ⟨hp.symm.trans (congrArg (b :: ·) htail), by rw [hsep, hzero]⟩
    · simp only [not_or, not_not] at hcont
      obtain ⟨hskip, hesc, hquote, hcut⟩ := hcont
      rw [Bool.not_eq_true] at hskip
      subst hskip
      rw [scan, if_neg hesc, if_neg hquote, if_pos hcut] at h
      cases (Prod.mk.inj h).2

/-- A scan to a delimiter. -/
theorem scan_eq_some (h : scan delim skip inside s = (p, some rest)) :
    s = p ++ delim :: rest ∧ pending skip s = pending false rest ∧
      (rest.dropWhile (isBlank delim) ≠ [] → separators delim skip inside s =
        separators delim false false (rest.dropWhile (isBlank delim)) + 1) := by
  induction s generalizing skip inside p with
  | nil => cases h
  | cons b tl ih =>
    by_cases hcont : skip = true ∨ b = ESCAPE_META ∨ Quotes delim inside b tl ∨
        ¬ (b = delim ∧ inside = false)
    · obtain ⟨skip', inside', hscan, hpend, hsep⟩ := scan_cons_of_not_cut hcont
      rw [hscan] at h
      obtain ⟨hp, hsome⟩ := Prod.mk.inj h
      obtain ⟨htail, hpend', hsep'⟩ := ih (Prod.ext rfl hsome)
      refine ⟨by rw [← hp, List.cons_append, ← htail], hpend.trans hpend', fun hne => ?_⟩
      rw [hsep, hsep' hne]
    · simp only [not_or, not_not] at hcont
      obtain ⟨hskip, hesc, hquote, rfl, rfl⟩ := hcont
      rw [Bool.not_eq_true] at hskip
      subst hskip
      simp only [scan, if_neg hesc, if_neg hquote, and_self, if_true, Prod.mk.injEq,
        Option.some.injEq] at h
      obtain ⟨rfl, rfl⟩ := h
      refine ⟨rfl, by simp [pending, hesc], fun hne => ?_⟩
      -- behind a blank the other blanks of the run are skipped as well
      by_cases hdelim : b = SPACE
      · have := separators_blanks hne hdelim
        rwa [← hdelim] at this
      · have hblank : tl.dropWhile (isBlank b) = tl := by
          cases tl with
          | nil => rfl
          | cons c tl => simp [isBlank, hdelim]
        rw [hblank, separators, if_neg hesc, if_neg hquote, if_pos (by simp [hdelim])]

/-! ## Cutting -/

/-- The search comes to an end of the text that it can see, or is stopped before it by the length of
the array. -/
def Complete (delim : Byte) (m : ℕ) (s : List Byte) : Prop :=
  pending false s = false ∨ m ≤ tokenCount delim s

/-- What is behind a delimiter. -/
theorem complete_rest
    (hscan : scan delim false false (s.dropWhile (isBlank delim)) = (p, some rest)) :
    Complete delim (m + 1) s ↔ Complete delim m (rest.dropWhile (isBlank delim)) := by
  obtain ⟨-, hpend, hsep⟩ := scan_eq_some hscan
  rw [pending_dropWhile] at hpend
  have hpend' : pending false s = pending false (rest.dropWhile (isBlank delim)) := by
    rw [hpend, pending_dropWhile]
  unfold Complete tokenCount
  rw [hpend']
  -- with nothing left there is no further token, and no backslash either
  by_cases hnil : rest.dropWhile (isBlank delim) = []
  · simp [hnil, pending]
  · rw [hsep hnil, List.dropWhile_idempotent, Nat.add_le_add_iff_right]

/-- What a way of cutting does, by what it has read of the buffer and what it still has to read: at
the start of a token, and in search of its end. It gives the buffer and the array. -/
structure Splitter (delim : Byte) (arraylen : ℕ)
    (start : List ℕ → List Byte → List Byte → ℕ → Exec (List Byte × List ℕ))
    (find : List ℕ → Bool → Bool → List Byte → List Byte → ℕ → Exec (List Byte × List ℕ)) :
    Prop where
  full : ∀ array pre {s}, 0 ∉ s → arraylen ≤ array.length →
    Returns (start array pre s) (pre ++ s ++ [0], array)
  empty : ∀ array pre, Returns (start array pre []) (pre ++ [0], array)
  last : ∀ array pre {s}, s ≠ [] → 0 ∉ s → array.length + 1 = arraylen →
    Returns (start array pre s) (pre ++ s ++ [0], array ++ [pre.length])
  begin : ∀ array pre {s}, s ≠ [] → 0 ∉ s → array.length + 1 < arraylen →
    Leads (start array pre s) (find (array ++ [pre.length]) false false
      (pre ++ s.takeWhile (isBlank delim)) (s.dropWhile (isBlank delim)))
  skip : ∀ {array inside pre b rest},
    find array true inside pre (b :: rest) = find array false inside (pre ++ [b]) rest
  escape : ∀ {array inside pre b rest}, 0 ∉ b :: rest → array.length < arraylen →
    b = ESCAPE_META →
    Leads (find array false inside pre (b :: rest)) (find array true inside (pre ++ [b]) rest)
  quote : ∀ {array inside pre b rest}, 0 ∉ b :: rest → array.length < arraylen →
    b ≠ ESCAPE_META → Quotes delim inside b rest →
    Leads (find array false inside pre (b :: rest)) (find array false (!inside) (pre ++ [b]) rest)
  copy : ∀ {array inside pre b rest}, 0 ∉ b :: rest → array.length < arraylen →
    b ≠ ESCAPE_META → ¬ Quotes delim inside b rest → ¬ (b = delim ∧ inside = false) →
    Leads (find array false inside pre (b :: rest)) (find array false inside (pre ++ [b]) rest)
  cut : ∀ {array pre b rest}, 0 ∉ b :: rest → array.length < arraylen →
    b ≠ ESCAPE_META → ¬ Quotes delim false b rest → b = delim →
    Leads (find array false false pre (b :: rest))
      (start array (pre ++ 0 :: rest.takeWhile (isBlank delim)) (rest.dropWhile (isBlank delim)))
  stop : ∀ {array inside pre}, Returns (find array false inside pre []) (pre ++ [0], array)
  beyond : ∀ {array inside pre}, array.length < arraylen → Faults (find array true inside pre [])

namespace Splitter

variable {arraylen : ℕ} {array : List ℕ}
  {start : List ℕ → List Byte → List Byte → ℕ → Exec (List Byte × List ℕ)}
  {find : List ℕ → Bool → Bool → List Byte → List Byte → ℕ → Exec (List Byte × List ℕ)}

/-- The search goes to the end of the text. -/
theorem scan_none (h : Splitter delim arraylen start find) (pre : List Byte) (h0 : 0 ∉ s)
    (hlen : array.length < arraylen) (hscan : scan delim skip inside s = (p, none)) :
    ∃ inside', Leads (find array skip inside pre s)
      (find array (pending skip s) inside' (pre ++ s) []) := by
  induction s generalizing skip inside pre p with
  | nil =>
    refine ⟨inside, ?_⟩
    rw [List.append_nil]
    exact Leads.refl _
  | cons b rest ih =>
    have h0' : 0 ∉ rest := fun h => h0 (List.mem_cons_of_mem b h)
    have happend : pre ++ b :: rest = pre ++ [b] ++ rest := by simp
    rw [happend]
    cases skip with
    | true =>
      rw [h.skip]
      exact ih (pre ++ [b]) h0' (Prod.ext rfl (Prod.mk.inj hscan).2)
    | false =>
      rw [scan] at hscan
      -- an escape, a quote, a delimiter or any other byte
      split_ifs at hscan with hesc hquote hcut
      · obtain ⟨inside', hlead⟩ := ih (pre ++ [b]) h0' (Prod.ext rfl (Prod.mk.inj hscan).2)
        exact ⟨inside', by simpa [pending, hesc] using (h.escape h0 hlen hesc).trans hlead⟩
      · obtain ⟨inside', hlead⟩ := ih (pre ++ [b]) h0' (Prod.ext rfl (Prod.mk.inj hscan).2)
        exact ⟨inside', by simpa [pending, hesc] using (h.quote h0 hlen hesc hquote).trans hlead⟩
      · cases (Prod.mk.inj hscan).2
      · obtain ⟨inside', hlead⟩ := ih (pre ++ [b]) h0' (Prod.ext rfl (Prod.mk.inj hscan).2)
        refine ⟨inside', ?_⟩
        simpa [pending, hesc] using (h.copy h0 hlen hesc hquote hcut).trans hlead

/-- The search finds a delimiter, which becomes a NUL. -/
theorem scan_some (h : Splitter delim arraylen start find) (pre : List Byte) (h0 : 0 ∉ s)
    (hlen : array.length < arraylen) (hscan : scan delim skip inside s = (p, some rest)) :
    Leads (find array skip inside pre s)
      (start array (pre ++ p ++ 0 :: rest.takeWhile (isBlank delim))
        (rest.dropWhile (isBlank delim))) := by
  induction s generalizing skip inside pre p with
  | nil => cases hscan
  | cons b tl ih =>
    have h0' : 0 ∉ tl := fun h => h0 (List.mem_cons_of_mem b h)
    cases skip with
    | true =>
      obtain ⟨rfl, hsome⟩ := Prod.mk.inj hscan
      have hlead := ih (pre ++ [b]) h0' (Prod.ext rfl hsome)
      rw [h.skip]
      simpa using hlead
    | false =>
      rw [scan] at hscan
      split_ifs at hscan with hesc hquote hcut
      · obtain ⟨rfl, hsome⟩ := Prod.mk.inj hscan
        have hlead := ih (pre ++ [b]) h0' (Prod.ext rfl hsome)
        exact (h.escape h0 hlen hesc).trans (by simpa using hlead)
      · obtain ⟨rfl, hsome⟩ := Prod.mk.inj hscan
        have hlead := ih (pre ++ [b]) h0' (Prod.ext rfl hsome)
        exact (h.quote h0 hlen hesc hquote).trans (by simpa using hlead)
      · -- the delimiter: the search ends here
        obtain ⟨rfl, rfl⟩ := hcut
        obtain ⟨rfl, hrest⟩ := Prod.mk.inj hscan
        obtain rfl := Option.some.inj hrest
        rw [List.append_nil]
        exact h.cut h0 hlen hesc hquote rfl
      · obtain ⟨rfl, hsome⟩ := Prod.mk.inj hscan
        have hlead := ih (pre ++ [b]) h0' (Prod.ext rfl hsome)
        exact (h.copy h0 hlen hesc hquote hcut).trans (by simpa using hlead)

/-- The tokens are found, if the search stays inside of the text. -/
theorem returns_tokens (h : Splitter delim arraylen start find) (array : List ℕ) (pre : List Byte)
    (h0 : 0 ∉ s)
    (hlen : array.length + m = arraylen) (hcomplete : Complete delim m s) :
    ∃ buf qs, Returns (start array pre s) (pre ++ buf, array ++ qs) ∧
      buf.length = s.length + 1 ∧ Laid pre.length buf qs (tokens delim m s) := by
  induction m generalizing s array pre with
  | zero =>
    refine ⟨s ++ [0], [], ?_, by simp, by simpa [tokens] using Laid.nil _ _⟩
    simpa using h.full array pre h0 (by omega)
  | succ m ih =>
    by_cases hs : s = []
    · subst hs
      exact ⟨[0], [], by simpa using h.empty array pre, rfl, by simpa [tokens] using Laid.nil _ _⟩
    by_cases hm : m = 0
    · subst hm
      refine ⟨s ++ [0], [pre.length], by simpa using h.last array pre hs h0 (by omega), by simp, ?_⟩
      simpa [tokens, hs] using Laid.cons [] h0 (.nil (pre.length + s.length + 1) [])
    have hbegin := h.begin array pre hs h0 (by omega)
    have h0' : 0 ∉ s.dropWhile (isBlank delim) := fun h => h0 ((List.dropWhile_sublist _).mem h)
    have hlen' : (array ++ [pre.length]).length < arraylen := by simp; omega
    have hsplit : s.takeWhile (isBlank delim) ++ s.dropWhile (isBlank delim) = s :=
      List.takeWhile_append_dropWhile
    -- the array has room for two more, so the end of this token is looked for
    match hscan : scan delim false false (s.dropWhile (isBlank delim)) with
    | (p, none) =>
      obtain ⟨rfl, hsep⟩ := scan_eq_none hscan
      -- a pending backslash is excluded, as the count says that the array is not full by then
      have hpend : pending false s = false := by
        rcases hcomplete with hpend | hcount
        · exact hpend
        · rw [tokenCount, hsep] at hcount
          omega
      obtain ⟨inside', hlead⟩ := h.scan_none (pre ++ s.takeWhile (isBlank delim)) h0' hlen' hscan
      rw [pending_dropWhile, hpend] at hlead
      refine ⟨s ++ [0], [pre.length], ?_, by simp, ?_⟩
      · simpa [hsplit] using (hbegin.trans hlead).returns h.stop
      · simpa [tokens, hs, hm, hscan, hsplit] using
          Laid.cons [] h0 (.nil (pre.length + s.length + 1) [])
    | (p, some rest) =>
      obtain ⟨hs', -, -⟩ := scan_eq_some hscan
      have htext : s = s.takeWhile (isBlank delim) ++ p ++ delim :: rest := by
        rw [List.append_assoc, ← hs', hsplit]
      have hrest : rest.takeWhile (isBlank delim) ++ rest.dropWhile (isBlank delim) = rest :=
        List.takeWhile_append_dropWhile
      have h0p : 0 ∉ s.takeWhile (isBlank delim) ++ p := by
        intro hmem
        rw [htext] at h0
        exact h0 (List.mem_append_left _ hmem)
      have h0r : 0 ∉ rest.dropWhile (isBlank delim) := by
        intro hmem
        rw [htext] at h0
        refine h0 (List.mem_append_right _ (List.mem_cons_of_mem _ ?_))
        exact (List.dropWhile_sublist _).mem hmem
      have hlead := h.scan_some (pre ++ s.takeWhile (isBlank delim)) h0' hlen' hscan
      obtain ⟨buf, qs, hret, hbuf, hlaid⟩ := ih (array ++ [pre.length])
        (pre ++ s.takeWhile (isBlank delim) ++ p ++ 0 :: rest.takeWhile (isBlank delim))
        h0r (by simp; omega) ((complete_rest hscan).mp hcomplete)
      refine ⟨s.takeWhile (isBlank delim) ++ p ++ 0 :: (rest.takeWhile (isBlank delim) ++ buf),
        pre.length :: qs, ?_, ?_, ?_⟩
      · simpa using (hbegin.trans hlead).returns hret
      · have hlens := congrArg List.length htext
        have hlenr := congrArg List.length hrest
        simp only [List.length_append, List.length_cons] at hlens hlenr ⊢
        omega
      · rw [tokens, if_neg hs, if_neg hm, hscan]
        have hoff : (pre ++ s.takeWhile (isBlank delim) ++ p ++
            0 :: rest.takeWhile (isBlank delim)).length =
            pre.length + ([] : List Byte).length + (s.takeWhile (isBlank delim) ++ p).length + 1 +
              (rest.takeWhile (isBlank delim)).length := by
          simp
          omega
        rw [hoff] at hlaid
        exact Laid.cons [] h0p hlaid.append

/-- The search steps over the NUL, if it comes to a pending backslash. -/
theorem faults_of_not_complete (h : Splitter delim arraylen start find) (array : List ℕ)
    (pre : List Byte) (h0 : 0 ∉ s)
    (hlen : array.length + m = arraylen) (hcomplete : ¬ Complete delim m s) :
    Faults (start array pre s) := by
  induction m generalizing s array pre with
  | zero => exact absurd (Or.inr (Nat.zero_le _)) hcomplete
  | succ m ih =>
    have hs : s ≠ [] := by
      rintro rfl
      exact hcomplete (Or.inl rfl)
    have hm : m ≠ 0 := by
      rintro rfl
      exact hcomplete (Or.inr (Nat.succ_le_succ (Nat.zero_le _)))
    have hbegin := h.begin array pre hs h0 (by omega)
    have h0' : 0 ∉ s.dropWhile (isBlank delim) := fun h => h0 ((List.dropWhile_sublist _).mem h)
    have hlen' : (array ++ [pre.length]).length < arraylen := by simp; omega
    match hscan : scan delim false false (s.dropWhile (isBlank delim)) with
    | (p, none) =>
      -- the last token is searched to its end, where the backslash takes the NUL with it
      have hpend : pending false s = true := by
        by_contra hpend
        exact hcomplete (Or.inl (by simpa using hpend))
      obtain ⟨inside', hlead⟩ := h.scan_none (pre ++ s.takeWhile (isBlank delim)) h0' hlen' hscan
      rw [pending_dropWhile, hpend] at hlead
      exact (hbegin.trans hlead).faults (h.beyond hlen')
    | (p, some rest) =>
      have hlead := h.scan_some (pre ++ s.takeWhile (isBlank delim)) h0' hlen' hscan
      obtain ⟨hs', -, -⟩ := scan_eq_some hscan
      have h0r : 0 ∉ rest.dropWhile (isBlank delim) := by
        intro hmem
        rw [hs'] at h0'
        refine h0' (List.mem_append_right _ (List.mem_cons_of_mem _ ?_))
        exact (List.dropWhile_sublist _).mem hmem
      refine (hbegin.trans hlead).faults (ih _ _ h0r (by simp; omega) ?_)
      exact fun hrest => hcomplete ((complete_rest hscan).mpr hrest)

end Splitter

/-! ## Cutting at a byte -/

section Chars

variable {arraylen : ℕ} {array : List ℕ} {st' : Chars} {c : Byte}

/-- The buffer and the array at the end of the loop. -/
def charRun (delim : Byte) (arraylen : ℕ) (st : Chars) (fuel : ℕ) :
    Exec (List Byte × List ℕ) := do
  let s ← charLoop delim arraylen fuel st
  pure (s.buf, s.array)

theorem charRun_step (st : Chars) (hget : Buffer.get st.buf st.ptr = .ok c) (hc : c ≠ 0)
    (hlen : st.array.length < arraylen) (hstep : charStep delim c st = .ok st') :
    Leads (charRun delim arraylen st) (charRun delim arraylen st') := by
  refine Leads.step fun fuel => ?_
  simp only [charRun, charLoop, hget, ok_bind, if_pos (And.intro hc hlen), hstep]

theorem charRun_exit (delim : Byte) (arraylen : ℕ) (st : Chars)
    (hget : Buffer.get st.buf st.ptr = .ok c)
    (h : c = 0 ∨ arraylen ≤ st.array.length) :
    Returns (charRun delim arraylen st) (st.buf, st.array) := by
  refine (Returns.const _).succ fun fuel => ?_
  -- the condition of the loop
  have hnot : ¬ (c ≠ 0 ∧ st.array.length < arraylen) := by
    rintro ⟨hc, hlen⟩
    rcases h with h | h
    · exact hc h
    · omega
  simp only [charRun, charLoop, hget, ok_bind, if_neg hnot, pure_eq_ok]

/-- The state at the start of a token. -/
def charStart (array : List ℕ) (pre s : List Byte) : Chars :=
  ⟨pre ++ s ++ [0], pre.length, array, false, .start⟩

/-- The state in search of the end of a token. -/
def charFind (array : List ℕ) (skip inside : Bool) (pre s : List Byte) : Chars :=
  ⟨pre ++ s ++ [0], pre.length + skip.toNat, array, inside, .findDelim⟩

/-- The byte at the end of what was read. -/
theorem get_text (pre s : List Byte) :
    Buffer.get (pre ++ s ++ [0]) pre.length = .ok (s.headD 0) := by
  cases s with
  | nil => rw [List.append_nil, Buffer.get_append rfl, List.headD_nil]
  | cons b s => rw [List.append_assoc, List.cons_append, Buffer.get_append rfl, List.headD_cons]

theorem drop_text (pre : List Byte) (b : Byte) (rest : List Byte) :
    (pre ++ (b :: rest) ++ [0]).drop (pre.length + 1) = rest ++ [0] := by
  have h : pre ++ (b :: rest) ++ [0] = (pre ++ [b]) ++ (rest ++ [0]) := by simp
  rw [h]
  exact List.drop_left' (by simp)

theorem headD_ne_nul (hs : s ≠ []) (h0 : 0 ∉ s) : s.headD 0 ≠ 0 := by
  cases s with
  | nil => exact absurd rfl hs
  | cons b s =>
    rintro rfl
    exact h0 List.mem_cons_self

theorem put_nul_text (pre : List Byte) (b : Byte) (rest : List Byte) :
    Buffer.put (pre ++ (b :: rest) ++ [0]) pre.length 0 = .ok (pre ++ 0 :: (rest ++ [0])) := by
  rw [List.append_assoc, List.cons_append, Buffer.put_append rfl]

/-- The test for a quotation, in search of the end of a token. -/
theorem isQuotation_text (h0 : 0 ∉ b :: rest) (hdelim : delim ≠ SPACE) (inside : Bool)
    (pre : List Byte) :
    isQuotation (pre ++ (b :: rest) ++ [0]) pre.length inside b =
      .ok (decide (Quotes delim inside b rest)) := by
  have h0' : 0 ∉ rest := fun h => h0 (List.mem_cons_of_mem b h)
  rw [isQuotation_eq (drop_text pre b rest) h0' b]
  simp [Quotes, hdelim]

theorem takeWhile_isBlank (hdelim : delim ≠ SPACE) (s : List Byte) :
    s.takeWhile (isBlank delim) = [] := by
  cases s with
  | nil => rfl
  | cons b s => simp [isBlank, hdelim]

theorem dropWhile_isBlank (hdelim : delim ≠ SPACE) (s : List Byte) :
    s.dropWhile (isBlank delim) = s := by
  cases s with
  | nil => rfl
  | cons b s => simp [isBlank, hdelim]

section Step

variable (h0 : 0 ∉ b :: rest) (hdelim : delim ≠ SPACE) (hesc : b ≠ ESCAPE_META)
include h0 hdelim hesc

theorem charStep_quote (hquote : Quotes delim inside b rest) :
    charStep delim b (charFind array false inside pre (b :: rest)) =
      .ok (charFind array false (!inside) (pre ++ [b]) rest) := by
  simp only [charStep, charFind, if_neg hesc, Bool.toNat_false, Nat.add_zero,
    isQuotation_text h0 hdelim, ok_bind, decide_eq_true hquote, if_true, pure_eq_ok]
  simp

theorem charStep_copy (hquote : ¬ Quotes delim inside b rest)
    (hcut : ¬ (b = delim ∧ inside = false)) :
    charStep delim b (charFind array false inside pre (b :: rest)) =
      .ok (charFind array false inside (pre ++ [b]) rest) := by
  simp only [charStep, charFind, if_neg hesc, Bool.toNat_false, Nat.add_zero,
    isQuotation_text h0 hdelim, ok_bind, decide_eq_false hquote, Bool.false_eq_true, if_false,
    pure_eq_ok]
  refine (if_neg hcut).trans ?_
  simp

theorem charStep_cut (hquote : ¬ Quotes delim false b rest) (hcut : b = delim) :
    charStep delim b (charFind array false false pre (b :: rest)) =
      .ok (charStart array (pre ++ [0]) rest) := by
  simp only [charStep, charFind, charStart, if_neg hesc, Bool.toNat_false, Nat.add_zero,
    isQuotation_text h0 hdelim, ok_bind, decide_eq_false hquote, Bool.false_eq_true, if_false,
    put_nul_text, pure_eq_ok]
  simp [hcut]

end Step

/-- Cutting at a byte other than a blank. -/
theorem splitter_chars (hdelim : delim ≠ SPACE) : Splitter delim arraylen
    (fun array pre s => charRun delim arraylen (charStart array pre s))
    (fun array skip inside pre s => charRun delim arraylen (charFind array skip inside pre s)) where
  full array pre _ _ hlen := charRun_exit _ _ _ (get_text _ _) (Or.inr hlen)
  empty array pre := by
    have h := charRun_exit delim arraylen (charStart array pre []) (get_text pre []) (Or.inl rfl)
    simpa [charStart] using h
  last array pre s hs h0 hlen := by
    refine (charRun_step (charStart array pre s) (get_text pre s) (headD_ne_nul hs h0)
      (Nat.lt_of_succ_le hlen.le) rfl).returns (charRun_exit _ _ _ (get_text pre s) (Or.inr ?_))
    simp [charStart, ← hlen]
  begin array pre s hs h0 hlen := by
    -- there are no blanks to skip
    rw [takeWhile_isBlank hdelim, dropWhile_isBlank hdelim, List.append_nil]
    exact charRun_step (charStart array pre s) (get_text pre s) (headD_ne_nul hs h0)
      (Nat.lt_of_succ_lt hlen) rfl
  skip := by
    intro array inside pre b rest
    simp [charFind]
  escape {array inside pre b rest} h0 hlen hesc := by
    refine charRun_step _ (get_text pre (b :: rest)) (headD_ne_nul (by simp) h0) hlen ?_
    simp [charStep, charFind, hesc]
  quote {array inside pre b rest} h0 hlen hesc hquote :=
    charRun_step _ (get_text pre (b :: rest)) (headD_ne_nul (by simp) h0) hlen
      (charStep_quote h0 hdelim hesc hquote)
  copy {array inside pre b rest} h0 hlen hesc hquote hcut :=
    charRun_step _ (get_text pre (b :: rest)) (headD_ne_nul (by simp) h0) hlen
      (charStep_copy h0 hdelim hesc hquote hcut)
  cut {array pre b rest} h0 hlen hesc hquote hcut := by
    rw [takeWhile_isBlank hdelim, dropWhile_isBlank hdelim]
    exact charRun_step _ (get_text pre (b :: rest)) (headD_ne_nul (by simp) h0) hlen
      (charStep_cut h0 hdelim hesc hquote hcut)
  stop {array inside pre} := by
    have h := charRun_exit delim arraylen (charFind array false inside pre []) (get_text pre [])
      (Or.inl rfl)
    simpa [charFind] using h
  beyond {array inside pre} hlen := by
    refine ⟨1, fun fuel hfuel => ?_⟩
    obtain ⟨fuel, rfl⟩ := Nat.exists_eq_add_of_le' hfuel
    -- the loop reads behind the NUL
    have hget : Buffer.get (pre ++ [0]) (pre.length + 1) = .error .fault :=
      Buffer.get_of_length_le (by simp)
    simp [charRun, charLoop, charFind, hget]

end Chars

/-! ## Cutting at blanks -/

section Blank

variable {arraylen : ℕ} {array : List ℕ} {st' : Blank} {c : Byte}

/-- The buffer and the array at the end of the loop. -/
def blankRun (arraylen : ℕ) (st : Blank) (fuel : ℕ) : Exec (List Byte × List ℕ) := do
  let s ← blankLoop arraylen fuel st
  pure (s.buf, s.array)

theorem blankRun_step (st : Blank) (hget : Buffer.get st.buf st.ptr = .ok c) (hc : c ≠ 0)
    (hlen : st.array.length < arraylen) (hstep : blankStep c st = .ok st') :
    Leads (blankRun arraylen st) (blankRun arraylen st') := by
  refine Leads.step fun fuel => ?_
  simp only [blankRun, blankLoop, hget, ok_bind, if_pos (And.intro hc hlen), hstep]

theorem blankRun_exit (arraylen : ℕ) (st : Blank) (hget : Buffer.get st.buf st.ptr = .ok c)
    (h : c = 0 ∨ arraylen ≤ st.array.length) :
    Returns (blankRun arraylen st) (st.buf, st.array) := by
  refine (Returns.const _).succ fun fuel => ?_
  have hnot : ¬ (c ≠ 0 ∧ st.array.length < arraylen) := by
    rintro ⟨hc, hlen⟩
    rcases h with h | h
    · exact hc h
    · omega
  simp only [blankRun, blankLoop, hget, ok_bind, if_neg hnot, pure_eq_ok]

/-- At the end of the text it does not matter which blanks the loop skips. -/
theorem blankRun_eq_of_nul (arraylen : ℕ) (st : Blank) (hget : Buffer.get st.buf st.ptr = .ok 0)
    (state : BlankState) :
    blankRun arraylen st = blankRun arraylen { st with state := state } := by
  funext fuel
  cases fuel with
  | zero => rfl
  | succ fuel => simp [blankRun, blankLoop, hget]

/-- The state with `pre` read and `s` to read. -/
def blankAt (state : BlankState) (array : List ℕ) (inside : Bool) (pre s : List Byte) : Blank :=
  ⟨pre ++ s ++ [0], pre.length, array, inside, state⟩

/-- The state in search of the end of a token. -/
def blankFind (array : List ℕ) (skip inside : Bool) (pre s : List Byte) : Blank :=
  ⟨pre ++ s ++ [0], pre.length + skip.toNat, array, inside, .findDelim⟩

/-- The blanks are skipped, and the loop goes on in the state that follows. -/
theorem leads_skip_blanks {state next : BlankState} (pre : List Byte) (hs : 0 ∉ s)
    (hlen : array.length < arraylen)
    (hstep : ∀ c st, st.state = state → blankStep c st =
      if c = SPACE then .ok { st with ptr := st.ptr + 1 } else .ok { st with state := next }) :
    Leads (blankRun arraylen (blankAt state array false pre s))
      (blankRun arraylen (blankAt next array false (pre ++ s.takeWhile (isBlank SPACE))
        (s.dropWhile (isBlank SPACE)))) := by
  induction s generalizing pre with
  | nil =>
    have h := blankRun_eq_of_nul arraylen (blankAt state array false pre []) (get_text pre []) next
    rw [h, List.takeWhile_nil, List.append_nil]
    exact Leads.refl _
  | cons b s ih =>
    have h0 : 0 ∉ s := fun h => hs (List.mem_cons_of_mem b h)
    by_cases hb : b = SPACE
    · have hblank : isBlank SPACE b = true := by simp [isBlank, hb]
      rw [List.takeWhile_cons_of_pos hblank, List.dropWhile_cons_of_pos hblank]
      have hnext := blankRun_step _ (get_text pre (b :: s)) (headD_ne_nul (by simp) hs) hlen
        ((hstep b (blankAt state array false pre (b :: s)) rfl).trans (if_pos hb))
      refine hnext.trans ?_
      simpa [blankAt] using ih (pre ++ [b]) h0
    · -- the first other byte changes the state and is looked at again
      have hblank : ¬ isBlank SPACE b = true := by simp [isBlank, hb]
      rw [List.takeWhile_cons_of_neg hblank, List.dropWhile_cons_of_neg hblank, List.append_nil]
      exact blankRun_step _ (get_text pre (b :: s)) (headD_ne_nul (by simp) hs) hlen
        ((hstep b (blankAt state array false pre (b :: s)) rfl).trans (if_neg hb))

theorem leads_skip_initial (pre : List Byte) (h0 : 0 ∉ s) (hlen : array.length < arraylen) :
    Leads (blankRun arraylen (blankAt .skipInitialSpace array false pre s))
      (blankRun arraylen (blankFind array false false (pre ++ s.takeWhile (isBlank SPACE))
        (s.dropWhile (isBlank SPACE)))) := by
  refine leads_skip_blanks pre h0 hlen fun c st hst => ?_
  rw [blankStep, hst]
  rfl

/-- Behind the blanks there is the start of a token or the end of the text. -/
theorem leads_skip_ending (pre : List Byte) (h0 : 0 ∉ s) (hlen : array.length < arraylen) :
    Leads (blankRun arraylen (blankAt .skipEndingSpace array false pre s))
      (blankRun arraylen (blankAt .start array false (pre ++ s.takeWhile (isBlank SPACE))
        (s.dropWhile (isBlank SPACE)))) := by
  refine leads_skip_blanks pre h0 hlen fun c st hst => ?_
  rw [blankStep, hst]
  rfl

section Step

variable (hesc : b ≠ ESCAPE_META)
include hesc

theorem blankStep_quote (hquote : Quotes SPACE inside b rest) :
    blankStep b (blankFind array false inside pre (b :: rest)) =
      .ok (blankFind array false (!inside) (pre ++ [b]) rest) := by
  simp only [blankStep, blankFind, if_neg hesc, if_pos hquote.1, pure_eq_ok]
  simp

theorem blankStep_copy (hquote : ¬ Quotes SPACE inside b rest)
    (hcut : ¬ (b = SPACE ∧ inside = false)) :
    blankStep b (blankFind array false inside pre (b :: rest)) =
      .ok (blankFind array false inside (pre ++ [b]) rest) := by
  have hb : b ≠ QUOTE := fun h => hquote ⟨h, Or.inr (Or.inl rfl)⟩
  simp only [blankStep, blankFind, if_neg hesc, if_neg hb, pure_eq_ok]
  refine (if_neg hcut).trans ?_
  simp

theorem blankStep_cut (hcut : b = SPACE) :
    blankStep b (blankFind array false false pre (b :: rest)) =
      .ok (blankAt .skipEndingSpace array false (pre ++ [0]) rest) := by
  have hb : b ≠ QUOTE := by
    rw [hcut]
    decide
  simp only [blankStep, blankFind, blankAt, if_neg hesc, if_neg hb, Bool.toNat_false, Nat.add_zero,
    put_nul_text, ok_bind, pure_eq_ok]
  simp [hcut]

end Step

/-- Cutting at blanks. -/
theorem splitter_blank : Splitter SPACE arraylen
    (fun array pre s => blankRun arraylen (blankAt .start array false pre s))
    (fun array skip inside pre s => blankRun arraylen (blankFind array skip inside pre s)) where
  full array pre _ _ hlen := blankRun_exit _ _ (get_text _ _) (Or.inr hlen)
  empty array pre := by
    have h := blankRun_exit arraylen (blankAt .start array false pre []) (get_text pre [])
      (Or.inl rfl)
    simpa [blankAt] using h
  last array pre s hs h0 hlen := by
    refine (blankRun_step (blankAt .start array false pre s) (get_text pre s) (headD_ne_nul hs h0)
      (Nat.lt_of_succ_le hlen.le) rfl).returns (blankRun_exit _ _ (get_text pre s) (Or.inr ?_))
    simp [blankAt, ← hlen]
  begin array pre s hs h0 hlen := by
    have hstep := blankRun_step (blankAt .start array false pre s) (get_text pre s)
      (headD_ne_nul hs h0) (Nat.lt_of_succ_lt hlen) rfl
    refine hstep.trans (leads_skip_initial pre h0 ?_)
    simpa [blankAt] using hlen
  skip := by
    intro array inside pre b rest
    simp [blankFind]
  escape {array inside pre b rest} h0 hlen hesc := by
    refine blankRun_step _ (get_text pre (b :: rest)) (headD_ne_nul (by simp) h0) hlen ?_
    simp [blankStep, blankFind, hesc]
  quote {array inside pre b rest} h0 hlen hesc hquote :=
    blankRun_step _ (get_text pre (b :: rest)) (headD_ne_nul (by simp) h0) hlen
      (blankStep_quote hesc hquote)
  copy {array inside pre b rest} h0 hlen hesc hquote hcut :=
    blankRun_step _ (get_text pre (b :: rest)) (headD_ne_nul (by simp) h0) hlen
      (blankStep_copy hesc hquote hcut)
  cut {array pre b rest} h0 hlen hesc _ hcut := by
    have hstep := blankRun_step (blankFind array false false pre (b :: rest))
      (get_text pre (b :: rest)) (headD_ne_nul (by simp) h0) hlen (blankStep_cut hesc hcut)
    have hskip := leads_skip_ending (pre ++ [0]) (fun h => h0 (List.mem_cons_of_mem b h)) hlen
    rw [List.append_assoc, List.singleton_append] at hskip
    exact hstep.trans hskip
  stop {array inside pre} := by
    have h := blankRun_exit arraylen (blankFind array false inside pre []) (get_text pre [])
      (Or.inl rfl)
    simpa [blankFind] using h
  beyond {array inside pre} hlen := by
    refine ⟨1, fun fuel hfuel => ?_⟩
    obtain ⟨fuel, rfl⟩ := Nat.exists_eq_add_of_le' hfuel
    -- the byte behind the end of the text is not in the buffer
    have hget : Buffer.get (pre ++ [0]) (pre.length + 1) = .error .fault :=
      Buffer.get_of_length_le (by simp)
    simp [blankRun, blankLoop, blankFind, hget]

end Blank

/-! ## `agc_separate_string` -/

/-- The delimiter and the text, without the prefix that names a delimiter. -/
def delimAndText (delim : Byte) : List Byte → Byte × List Byte
  | x :: y :: d :: c :: rest =>
    if x = CARET ∧ y = CARET then (d, c :: rest) else (delim, x :: y :: d :: c :: rest)
  | s => (delim, s)

theorem textAndDelim_eq (h0 : 0 ∉ s) (delim : Byte) :
    ∃ pre, textAndDelim (s ++ [0]) delim = .ok (pre.length, (delimAndText delim s).1) ∧
      s = pre ++ (delimAndText delim s).2 := by
  match s with
  | [] => exact ⟨[], by simp [textAndDelim, namesDelim, Buffer.get, delimAndText, CARET], rfl⟩
  | [x] => exact ⟨[], by simp [textAndDelim, namesDelim, Buffer.get, delimAndText, CARET], rfl⟩
  | [x, y] => exact ⟨[], by simp [textAndDelim, namesDelim, Buffer.get, delimAndText], rfl⟩
  | [x, y, d] => exact ⟨[], by simp [textAndDelim, namesDelim, Buffer.get, delimAndText], rfl⟩
  | x :: y :: d :: c :: rest =>
    have hd : d ≠ 0 := fun h => h0 (by simp [h])
    have hc : c ≠ 0 := fun h => h0 (by simp [h])
    -- only a text that is long enough can name its delimiter
    by_cases hxy : x = CARET ∧ y = CARET
    · refine ⟨[x, y, d], ?_, ?_⟩
      · simp [textAndDelim, namesDelim, Buffer.get, delimAndText, hxy.1, hxy.2, hd, hc]
      · simp [delimAndText, hxy.1, hxy.2]
    · refine ⟨[], ?_, by simp [delimAndText, hxy]⟩
      by_cases hx : x = CARET
      · have hy : y ≠ CARET := fun hy => hxy ⟨hx, hy⟩
        simp [textAndDelim, namesDelim, Buffer.get, delimAndText, hx, hy]
      · simp [textAndDelim, namesDelim, Buffer.get, delimAndText, hx]

/-- The delimiter of the second pass. -/
def cleanupDelim (delim : Byte) : Byte := if delim = SPACE then 0 else delim

/-- Both ways of cutting. -/
def separate (delim : Byte) (arraylen fuel : ℕ) (buf : List Byte) (ptr : ℕ) :
    Exec (List Byte × List ℕ) :=
  if delim = SPACE then separateStringBlankDelim fuel buf ptr arraylen
  else separateStringCharDelim fuel buf ptr delim arraylen

theorem bind_cleanupAll {buf : List Byte} {qs : List ℕ} {ts : List (List Byte)}
    {run : ℕ → Exec (List Byte × List ℕ)} (hrun : Returns run (pre ++ buf, qs))
    (hlaid : Laid pre.length buf qs ts) (delim : Byte) :
    ∃ buf' qs', Returns (fun fuel => run fuel >>= fun r => cleanupAll delim fuel r.1 r.2)
        (pre ++ buf', qs') ∧
      buf'.length = buf.length ∧ Strings pre.length buf' qs' (ts.map (clean delim)) := by
  obtain ⟨buf', qs', hret, hlen, hstrings⟩ := cleanupAll_spec delim hlaid pre rfl
  exact ⟨buf', qs', hrun.bind hret, hlen, hstrings⟩

/-- A splitter behind `separate`. -/
theorem exists_splitter (delim : Byte) (arraylen : ℕ) : ∃ start find,
    Splitter delim arraylen start find ∧
    ∀ fuel pre s, separate delim arraylen fuel (pre ++ s ++ [0]) pre.length =
      start [] pre s fuel >>= fun r => cleanupAll (cleanupDelim delim) fuel r.1 r.2 := by
  by_cases hdelim : delim = SPACE
  · subst hdelim
    refine ⟨_, _, splitter_blank, fun fuel pre s => ?_⟩
    simp only [separate, if_true, separateStringBlankDelim, cleanupDelim, blankRun, blankAt,
      bind_assoc, pure_bind]
  · refine ⟨_, _, splitter_chars hdelim, fun fuel pre s => ?_⟩
    simp only [separate, if_neg hdelim, separateStringCharDelim, cleanupDelim, charRun, charStart,
      bind_assoc, pure_bind]

/-- The tokens of the text behind `pre`. -/
theorem separate_spec (h0 : 0 ∉ s) (delim : Byte) (m : ℕ) (pre : List Byte) :
    (Complete delim m s → ∃ buf qs,
      Returns (fun fuel => separate delim m fuel (pre ++ s ++ [0]) pre.length) (pre ++ buf, qs) ∧
      buf.length = s.length + 1 ∧
      Strings pre.length buf qs ((tokens delim m s).map (clean (cleanupDelim delim)))) ∧
    (¬ Complete delim m s →
      Faults fun fuel => separate delim m fuel (pre ++ s ++ [0]) pre.length) := by
  obtain ⟨start, find, hsplit, heq⟩ := exists_splitter delim m
  constructor
  · intro hcomplete
    obtain ⟨buf, qs, hret, hlen, hlaid⟩ :=
      hsplit.returns_tokens [] pre h0 (by simp) hcomplete
    rw [List.nil_append] at hret
    obtain ⟨buf', qs', hret', hlen', hstrings⟩ := bind_cleanupAll hret hlaid (cleanupDelim delim)
    exact ⟨buf', qs', hret'.congr fun fuel => heq fuel pre s, hlen'.trans hlen, hstrings⟩
  · intro hcomplete
    have hfault := hsplit.faults_of_not_complete [] pre h0 (by simp) hcomplete
    simp only [heq]
    exact hfault.bind

/-- What `agc_separate_string` returns: the tokens, if the search for them stays inside of the text,
and a fault otherwise. -/
theorem agcSeparateString_spec (text : CStr) (delim : Byte) (hm : m ≠ 0) {d : Byte} {s : List Byte}
    (hs : delimAndText delim text.bytes = (d, s)) :
    (Complete d m s → ∃ buf qs,
      Returns (fun fuel => agcSeparateString fuel (text.bytes ++ [0]) delim m) (buf, qs) ∧
      buf.length = text.bytes.length + 1 ∧
      qs.map (fun q => (Buffer.str buf q).bytes) =
        (tokens d m s).map (clean (cleanupDelim d)) ∧
      ∀ q ∈ qs, ∃ j, q ≤ j ∧ buf[j]? = some 0) ∧
    (¬ Complete d m s → Faults fun fuel => agcSeparateString fuel (text.bytes ++ [0]) delim m) := by
  obtain ⟨pre, htext, hpre⟩ := textAndDelim_eq text.nul_notMem delim
  rw [hs] at htext hpre
  have h0 : 0 ∉ s := fun h => text.nul_notMem (by rw [hpre]; exact List.mem_append_right _ h)
  have heq : ∀ fuel, agcSeparateString fuel (text.bytes ++ [0]) delim m =
      separate d m fuel (pre ++ s ++ [0]) pre.length := by
    intro fuel
    rw [agcSeparateString, if_neg hm, htext]
    simp only [ok_bind, separate, hpre]
  obtain ⟨hreturns, hfaults⟩ := separate_spec h0 d m pre
  simp only [heq]
  refine ⟨fun hcomplete => ?_, hfaults⟩
  obtain ⟨buf, qs, hret, hlen, hstrings⟩ := hreturns hcomplete
  refine ⟨pre ++ buf, qs, hret, ?_, hstrings.map_str pre rfl, hstrings.nul pre rfl⟩
  have hlen' : text.bytes.length = pre.length + s.length := by
    rw [hpre, List.length_append]
  rw [List.length_append, hlen, hlen', Nat.add_assoc]

theorem length_tokens_le (delim : Byte) (m : ℕ) (s : List Byte) :
    (tokens delim m s).length ≤ m := by
  induction m generalizing s with
  | zero => simp [tokens]
  | succ m ih =>
    rw [tokens]
    split
    · simp
    split
    · simp
    split
    · simp
    · rw [List.length_cons]
      exact Nat.succ_le_succ (ih _)

/-- `agc_separate_string` stays inside of its text, and what it returns lies there, if the text does
not end in an odd number of backslashes or the array is full before the search comes to its end. -/
theorem separate_string_bounds_iff (text : CStr) (delim : Byte) (arraylen : ℕ) :
    (∃ buf array,
      Returns (fun fuel => agcSeparateString fuel (text.bytes ++ [0]) delim arraylen) (buf, array) ∧
      buf.length = text.bytes.length + 1 ∧ array.length ≤ arraylen ∧
      ∀ q ∈ array, ∃ j, q ≤ j ∧ j ≤ text.bytes.length ∧ buf[j]? = some 0) ↔
    ¬ Odd ((delimAndText delim text.bytes).2.rtakeWhile (· = ESCAPE_META)).length ∨
      arraylen ≤
        tokenCount (delimAndText delim text.bytes).1 (delimAndText delim text.bytes).2 := by
  by_cases hm : arraylen = 0
  · subst hm
    refine iff_of_true ⟨text.bytes ++ [0], [], Returns.const _, by simp, by simp, by simp⟩ ?_
    exact Or.inr (Nat.zero_le _)
  obtain ⟨hreturns, hfaults⟩ := agcSeparateString_spec (m := arraylen) text delim hm rfl
  rw [← pending_eq_odd, Bool.not_eq_true]
  constructor
  · -- a run that steps over the NUL returns nothing
    rintro ⟨buf, array, hret, -⟩
    by_contra hnot
    exact hret.not_faults (hfaults hnot)
  · intro hcomplete
    obtain ⟨buf, array, hret, hlen, hmap, hnul⟩ := hreturns hcomplete
    refine ⟨buf, array, hret, hlen, ?_, fun q hq => ?_⟩
    · have hlength := congrArg List.length hmap
      rw [List.length_map, List.length_map] at hlength
      exact hlength.trans_le (length_tokens_le _ _ _)
    · obtain ⟨j, hqj, hj⟩ := hnul q hq
      obtain ⟨hlt, -⟩ := List.getElem?_eq_some_iff.mp hj
      exact ⟨j, hqj, by omega, hj⟩

/-- A text that is one backslash. -/
theorem separate_string_backslash : ¬ ∃ buf array,
    Returns (fun fuel => agcSeparateString fuel [92, 0] 59 2) (buf, array) := by
  rintro ⟨buf, array, hret⟩
  refine hret.not_faults ⟨3, fun k hk => ?_⟩
  obtain ⟨k, rfl⟩ := Nat.exists_eq_add_of_le' hk
  rfl

end Separate
