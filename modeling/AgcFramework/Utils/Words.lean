import AgcFramework.Utils.Tokens

/-!
# Encoded tokens and words

A list of tokens that is encoded and joined is cut into the same tokens again. A text without
backslashes and quotes is cut at its blanks into its words.

## Main definitions

* `encode`, `joined`: a token with its special bytes escaped, and a list of tokens as a text
* `words`: the maximal runs of bytes other than blanks
* `fromWord n s`: the text from the start of its word `n` on

## Main results

* `clean_encode`, `tokens_intercalate`: both passes read an encoded text back
* `separate_string_joined`: encoding and cutting
* `clean_plain`: the pass over a token without backslashes and quotes
* `separate_string_words`: cutting at blanks
-/

open Exec

namespace Separate

variable {delim b x : Byte} {c : Clean} {t rest s : List Byte} {m : ℕ}

/-! ## Steps of the second pass -/

theorem Clean.run_escaped {e : Byte} (hx : escape delim e = some x) :
    c.run delim (ESCAPE_META :: e :: rest) = (c.escaped x).run delim rest := by
  rw [Clean.run, if_pos rfl, hx]

theorem Clean.run_byte (hb : b ≠ ESCAPE_META) :
    c.run delim (b :: rest) = (c.byte b (QUOTE ∈ rest)).run delim rest := by
  cases rest with
  | nil => simp [Clean.run]
  | cons e rest => rw [Clean.run, if_neg hb]

/-! ## Encoding -/

/-- A delimiter that has no other meaning. -/
def IsPlain (delim : Byte) : Prop :=
  delim ∉ [0, SPACE, ESCAPE_META, QUOTE, DQUOTE, CARET, 110, 114, 116, 115]

instance (delim : Byte) : Decidable (IsPlain delim) := inferInstanceAs (Decidable (_ ∉ _))

/-- A backslash, a quote and the delimiter get a backslash, and a space becomes `\s`. -/
def encodeByte (delim b : Byte) : List Byte :=
  if b = ESCAPE_META then [ESCAPE_META, ESCAPE_META]
  else if b = QUOTE then [ESCAPE_META, QUOTE]
  else if b = delim then [ESCAPE_META, delim]
  else if b = SPACE then [ESCAPE_META, 115]
  else [b]

/-- A token with its special bytes escaped. -/
def encode (delim : Byte) (t : List Byte) : List Byte := t.flatMap (encodeByte delim)

/-- The encoded tokens with delimiters between them. -/
def joined (delim : Byte) (ts : List (List Byte)) : List Byte :=
  [delim].intercalate (ts.map (encode delim))

/-- A byte is encoded as an escape of it, or as itself if it has no meaning. -/
theorem encodeByte_cases (hd : IsPlain delim) (b : Byte) :
    (∃ e, encodeByte delim b = [ESCAPE_META, e] ∧ escape delim e = some b ∧ e ≠ 0) ∨
      (encodeByte delim b = [b] ∧ b ≠ ESCAPE_META ∧ b ≠ QUOTE ∧ b ≠ delim ∧ b ≠ SPACE) := by
  simp only [IsPlain, List.mem_cons, List.not_mem_nil, or_false, not_or] at hd
  unfold encodeByte
  split_ifs with hesc hquote hdelim hspace
  · exact Or.inl ⟨ESCAPE_META, rfl, by simp [escape, hesc], by decide⟩
  · exact Or.inl ⟨QUOTE, rfl, by simp [escape, hquote], by decide⟩
  · exact Or.inl ⟨delim, rfl, by simp [escape, hd, hdelim], hd.1⟩
  · refine Or.inl ⟨115, rfl, ?_, by decide⟩
    have hs : (115 : Byte) ≠ delim := Ne.symm hd.2.2.2.2.2.2.2.2.2
    simp [escape, hs, hspace, QUOTE, DQUOTE, ESCAPE_META, unescapeChar, SPACE]
  · exact Or.inr ⟨rfl, hesc, hquote, hdelim, hspace⟩

/-- The second pass reads an encoded token back. -/
theorem Clean.run_encode (hd : IsPlain delim) (hin : c.inside = false)
    (hkept : c.kept = c.text.length) :
    c.run delim (encode delim t) = ⟨false, c.text ++ t, (c.text ++ t).length⟩ := by
  induction t generalizing c with
  | nil =>
    obtain ⟨inside, text, kept⟩ := c
    simp only at hin hkept
    subst hin hkept
    simp [encode, Clean.run]
  | cons b t ih =>
    rw [encode, List.flatMap_cons]
    rcases encodeByte_cases hd b with ⟨e, henc, hesc, -⟩ | ⟨henc, hesc, hquote, -, hspace⟩
    · rw [henc, List.cons_append, List.singleton_append, Clean.run_escaped hesc]
      rw [← encode, ih (c := c.escaped b) hin (by simp [Clean.escaped])]
      simp [Clean.escaped]
    · rw [henc, List.singleton_append, Clean.run_byte hesc]
      have hbyte : c.byte b (QUOTE ∈ t.flatMap (encodeByte delim)) = c.escaped b := by
        simp [Clean.byte, Clean.escaped, hquote, hspace]
      rw [hbyte, ← encode, ih (c := c.escaped b) hin (by simp [Clean.escaped])]
      simp [Clean.escaped]

theorem dropWhile_encode (hd : IsPlain delim) (t : List Byte) :
    (encode delim t).dropWhile (· = SPACE) = encode delim t := by
  cases t with
  | nil => rfl
  | cons b t =>
    rw [encode, List.flatMap_cons]
    rcases encodeByte_cases hd b with ⟨e, henc, -, -⟩ | ⟨henc, -, -, -, hspace⟩
    · rw [henc, List.cons_append]
      exact List.dropWhile_cons_of_neg (by decide)
    · rw [henc, List.singleton_append]
      exact List.dropWhile_cons_of_neg (by simpa using hspace)

theorem clean_encode (hd : IsPlain delim) (t : List Byte) : clean delim (encode delim t) = t := by
  have hrun := Clean.run_encode (c := ⟨false, [], 0⟩) (t := t) hd rfl rfl
  simp only [clean, dropWhile_encode hd, hrun, List.nil_append, List.take_length]

/-- The first pass reads over the bytes and has nothing in mind behind them. -/
def Closed (delim : Byte) (p : List Byte) : Prop := ∀ rest, scan delim false false (p ++ rest) =
  (p ++ (scan delim false false rest).1, (scan delim false false rest).2)

/-- The first pass reads over an encoded token. -/
theorem scan_encode (hd : IsPlain delim) (t rest : List Byte) :
    scan delim false false (encode delim t ++ rest) =
        (encode delim t ++ (scan delim false false rest).1, (scan delim false false rest).2) ∧
      pending false (encode delim t ++ rest) = pending false rest := by
  induction t with
  | nil => simp [encode]
  | cons b t ih =>
    obtain ⟨hscan, hpend⟩ := ih
    rw [encode, List.flatMap_cons, ← encode, List.append_assoc]
    rcases encodeByte_cases hd b with ⟨e, henc, -, -⟩ | ⟨henc, hesc, hquote, hdelim, -⟩
    · rw [henc]
      constructor
      · simp [scan, hscan]
      · simp [pending, hpend]
    · rw [henc]
      constructor
      · simp [scan, hscan, hesc, hdelim, Quotes, hquote]
      · simp [pending, hpend, hesc]

theorem encode_ne_nil (ht : t ≠ []) : encode delim t ≠ [] := by
  cases t with
  | nil => exact absurd rfl ht
  | cons b t =>
    rw [encode, List.flatMap_cons]
    unfold encodeByte
    split_ifs <;> simp

theorem joined_cons (t t' : List Byte) (ts : List (List Byte)) :
    joined delim (t :: t' :: ts) = encode delim t ++ delim :: joined delim (t' :: ts) := by
  simp [joined]

theorem IsPlain.ne_space (hd : IsPlain delim) : delim ≠ SPACE := fun h => hd (by simp [h])

/-- The first pass at a delimiter. -/
theorem scan_delim (hd : IsPlain delim) (rest : List Byte) :
    scan delim false false (delim :: rest) = ([], some rest) ∧
      pending false (delim :: rest) = pending false rest := by
  have hesc : delim ≠ ESCAPE_META := fun h => hd (by simp [h])
  have hquote : ¬ Quotes delim false delim rest := fun h => hd (by simp [h.1])
  constructor
  · rw [scan, if_neg hesc, if_neg hquote, if_pos ⟨rfl, rfl⟩]
  · simp [pending, hesc]

/-- The pieces of a text with delimiters between them. -/
theorem tokens_intercalate (hd : IsPlain delim) {ps : List (List Byte)} (hne : ps ≠ [])
    (hclosed : ∀ p ∈ ps, Closed delim p) (hlen : ps.length ≤ m)
    (hlast : ∀ p ∈ ps.getLast?, p ≠ []) : tokens delim m ([delim].intercalate ps) = ps := by
  induction ps generalizing m with
  | nil => exact absurd rfl hne
  | cons p ps ih =>
    obtain ⟨m, rfl⟩ :=
      Nat.exists_eq_add_of_le' (Nat.le_trans (Nat.succ_le_succ (Nat.zero_le _)) hlen)
    have hp : Closed delim p := hclosed p List.mem_cons_self
    cases ps with
    | nil =>
      -- the last piece is not empty, and is found with or without a search
      have hnil : p ≠ [] := hlast p (by simp)
      have hscan := hp []
      rw [List.append_nil] at hscan
      rw [List.intercalate_singleton, tokens, if_neg hnil]
      split_ifs with hm
      · rfl
      · rw [takeWhile_isBlank hd.ne_space, dropWhile_isBlank hd.ne_space, hscan]
        simp [scan]
    | cons p' ps =>
      have hm : m ≠ 0 := by
        rintro rfl
        simp at hlen
      have hcons : [delim].intercalate (p :: p' :: ps) =
          p ++ delim :: [delim].intercalate (p' :: ps) := by simp
      have hscan := hp (delim :: [delim].intercalate (p' :: ps))
      rw [(scan_delim hd _).1] at hscan
      rw [hcons, tokens, if_neg (by simp), if_neg hm, takeWhile_isBlank hd.ne_space,
        dropWhile_isBlank hd.ne_space, hscan]
      have hrest := ih (m := m) (by simp) (fun q hq => hclosed q (List.mem_cons_of_mem p hq))
        (by simpa using hlen) (by simpa using hlast)
      simp only [dropWhile_isBlank hd.ne_space, hrest, List.append_nil, List.nil_append]

theorem pending_joined (hd : IsPlain delim) (ts : List (List Byte)) :
    pending false (joined delim ts) = false := by
  induction ts with
  | nil => rfl
  | cons t ts ih =>
    cases ts with
    | nil => simpa [joined, pending] using (scan_encode hd t []).2
    | cons t' ts => rw [joined_cons, (scan_encode hd t _).2, (scan_delim hd _).2, ih]

theorem nul_notMem_encode (hd : IsPlain delim) (h0 : 0 ∉ t) : 0 ∉ encode delim t := by
  intro hmem
  obtain ⟨b, hb, hmem⟩ := List.mem_flatMap.mp hmem
  rcases encodeByte_cases hd b with ⟨e, henc, -, he⟩ | ⟨henc, -⟩
  · rw [henc] at hmem
    simp [ESCAPE_META, he.symm] at hmem
  · rw [henc, List.mem_singleton] at hmem
    exact h0 (hmem ▸ hb)

theorem nul_notMem_joined (hd : IsPlain delim) {ts : List (List Byte)} (h0 : ∀ t ∈ ts, 0 ∉ t) :
    0 ∉ joined delim ts := by
  induction ts with
  | nil => simp [joined]
  | cons t ts ih =>
    have ht := nul_notMem_encode hd (h0 t List.mem_cons_self)
    cases ts with
    | nil => simpa [joined] using ht
    | cons t' ts =>
      have hdelim : (0 : Byte) ≠ delim := fun h => hd (by simp [← h])
      have hrest := ih fun t ht => h0 t (List.mem_cons_of_mem _ ht)
      simp [joined_cons, ht, hdelim, hrest]

/-- A text without a prefix that names a delimiter. -/
theorem delimAndText_eq (h : ¬ [CARET, CARET] <+: s) (delim : Byte) :
    delimAndText delim s = (delim, s) := by
  match s with
  | [] | [_] | [_, _] | [_, _, _] => rfl
  | x :: y :: d :: c :: rest =>
    have hxy : ¬ (x = CARET ∧ y = CARET) := by
      rintro ⟨rfl, rfl⟩
      exact h ⟨d :: c :: rest, rfl⟩
    simp [delimAndText, hxy]

/-- Tokens that are encoded and joined are found again. -/
theorem separate_string_joined (hd : IsPlain delim) {ts : List CStr} (hne : ts ≠ [])
    {arraylen : ℕ} (hlen : ts.length ≤ arraylen) (hlast : ∀ t ∈ ts.getLast?, t.bytes ≠ [])
    (hcaret : ¬ [CARET, CARET] <+: joined delim (ts.map CStr.bytes)) :
    ∃ buf array, Returns (fun fuel =>
        agcSeparateString fuel (joined delim (ts.map CStr.bytes) ++ [0]) delim arraylen)
        (buf, array) ∧
      array.length = ts.length ∧ array.map (Buffer.str buf) = ts := by
  have h0 : 0 ∉ joined delim (ts.map CStr.bytes) := by
    refine nul_notMem_joined hd fun t ht => ?_
    obtain ⟨t, -, rfl⟩ := List.mem_map.mp ht
    exact t.nul_notMem
  have hm : arraylen ≠ 0 := by
    have := List.length_pos_of_ne_nil hne
    omega
  -- each encoded token is scanned as one, up to the delimiter behind it
  have htokens : tokens delim arraylen (joined delim (ts.map CStr.bytes)) =
      (ts.map CStr.bytes).map (encode delim) := by
    refine tokens_intercalate hd (by simpa using hne) ?_ (by simpa using hlen) ?_
    · intro p hp
      obtain ⟨t, -, rfl⟩ := List.mem_map.mp hp
      exact fun rest => (scan_encode hd t rest).1
    · intro p hp
      rw [List.getLast?_map, List.getLast?_map, Option.map_map] at hp
      obtain ⟨t, ht, rfl⟩ := Option.mem_map.mp hp
      exact encode_ne_nil (hlast t ht)
  obtain ⟨buf, array, hret, -, hmap, -⟩ :=
    (agcSeparateString_spec ⟨_, h0⟩ delim hm (delimAndText_eq hcaret delim)).1
      (Or.inl (pending_joined hd _))
  -- cleaning gives back what the encoding changed
  have hclean : ∀ t : CStr, clean delim (encode delim t.bytes) = t.bytes :=
    fun t => clean_encode hd t.bytes
  rw [htokens, cleanupDelim, if_neg hd.ne_space, List.map_map, List.map_map] at hmap
  have hts : array.map (Buffer.str buf) = ts := by
    refine List.map_injective_iff.mpr (fun s t h => CStr.ext h) ?_
    rw [List.map_map]
    exact hmap.trans (List.map_congr_left fun t _ => hclean t)
  refine ⟨buf, array, hret, ?_, hts⟩
  rw [← hts, List.length_map]

/-- A token with a delimiter, an empty one and one with a space. -/
theorem separate_string_joined_three : ∃ buf array, Returns (fun fuel => agcSeparateString fuel
      (joined 59 (List.map CStr.bytes [⟨[97, 59], by decide⟩, ⟨[], by decide⟩,
        ⟨[98, 32], by decide⟩]) ++ [0]) 59 3) (buf, array) ∧
    array.length = 3 ∧ array.map (Buffer.str buf) =
      [⟨[97, 59], by decide⟩, ⟨[], by decide⟩, ⟨[98, 32], by decide⟩] := by
  refine separate_string_joined (by decide) (by simp) (Nat.le_refl 3) (by simp) ?_
  simp [joined, encode, encodeByte, CARET, ESCAPE_META, QUOTE, SPACE]

/-! ## Words -/

/-- The maximal runs of bytes other than spaces. -/
def words (s : List Byte) : List (List Byte) := (s.splitOnP (· = SPACE)).filter (· ≠ [])

/-- The text from the start of its word `n` on; the first word is that of the number 0. -/
def fromWord : ℕ → List Byte → List Byte
  | 0, s => s.dropWhile (· = SPACE)
  | n + 1, s => fromWord n ((s.dropWhile (· = SPACE)).dropWhile (· ≠ SPACE))

theorem words_space (s : List Byte) : words (SPACE :: s) = words s := by
  simp [words, List.splitOnP_cons_eq_if_modifyHead]

theorem words_dropWhile (s : List Byte) : words (s.dropWhile (· = SPACE)) = words s := by
  induction s with
  | nil => rfl
  | cons b s ih =>
    by_cases hb : b = SPACE
    · rw [List.dropWhile_cons_of_pos (by simpa using hb), ih, hb, words_space]
    · rw [List.dropWhile_cons_of_neg (by simpa using hb)]

theorem words_append {w : List Byte} (hw : w ≠ []) (hspace : SPACE ∉ w) (rest : List Byte) :
    words (w ++ SPACE :: rest) = w :: words rest := by
  have hp : ∀ b ∈ w, decide (b = SPACE) = false := by
    intro b hb
    simp only [decide_eq_false_iff_not]
    rintro rfl
    exact hspace hb
  rw [words, List.splitOnP_append_cons_of_forall_mem hp _ (by simp),
    List.filter_cons_of_pos (by simpa), words]

theorem words_single {w : List Byte} (hw : w ≠ []) (hspace : SPACE ∉ w) : words w = [w] := by
  have hp : ∀ b ∈ w, decide (b = SPACE) = false := by
    intro b hb
    simp only [decide_eq_false_iff_not]
    rintro rfl
    exact hspace hb
  rw [words, List.splitOnP_eq_singleton hp, List.filter_cons_of_pos (by simpa), List.filter_nil]

theorem rdropWhile_append {α : Type} (p : α → Bool) (l l' : List α) :
    (l ++ l').rdropWhile p =
      if l'.rdropWhile p = [] then l.rdropWhile p else l ++ l'.rdropWhile p := by
  simp only [List.rdropWhile, List.reverse_append, List.dropWhile_append, List.isEmpty_iff,
    List.reverse_eq_nil_iff]
  split_ifs <;> simp

theorem rdropWhile_cons {α : Type} (p : α → Bool) (a : α) (l : List α) :
    (a :: l).rdropWhile p =
      if l.rdropWhile p = [] then if p a then [] else [a] else a :: l.rdropWhile p := by
  rw [← List.singleton_append, rdropWhile_append, List.rdropWhile_singleton, List.singleton_append]

/-- The pass over a text without backslashes and quotes keeps it up to its last byte other than a
space. -/
theorem Clean.run_plain (delim : Byte) (hin : c.inside = false) (hesc : ESCAPE_META ∉ s)
    (hquote : QUOTE ∉ s) :
    c.run delim s = ⟨false, c.text ++ s, if s.rdropWhile (· = SPACE) = [] then c.kept
      else c.text.length + (s.rdropWhile (· = SPACE)).length⟩ := by
  induction s generalizing c with
  | nil =>
    obtain ⟨inside, text, kept⟩ := c
    simp only at hin
    subst hin
    simp [Clean.run]
  | cons b s ih =>
    simp only [List.mem_cons, not_or] at hesc hquote
    have hb : b ≠ QUOTE := Ne.symm hquote.1
    rw [Clean.run_byte (Ne.symm hesc.1), ih (by simp [Clean.byte, hb, hin]) hesc.2 hquote.2,
      rdropWhile_cons]
    simp only [Clean.byte, hb, false_and, if_false, hin, Bool.false_eq_true, or_false,
      List.append_assoc, List.singleton_append, List.length_append, List.length_singleton,
      Clean.mk.injEq, true_and]
    by_cases hnil : s.rdropWhile (· = SPACE) = []
    · by_cases hspace : b = SPACE
      · simp [hnil, hspace]
      · simp [hnil, hspace]
    · simp [hnil]
      omega

/-- A text without its outer spaces. -/
def trim (s : List Byte) : List Byte := (s.dropWhile (· = SPACE)).rdropWhile (· = SPACE)

/-- The pass over a token without backslashes and quotes. -/
theorem clean_plain (delim : Byte) (hesc : ESCAPE_META ∉ s) (hquote : QUOTE ∉ s) :
    clean delim s = trim s := by
  have hsub := List.dropWhile_sublist (l := s) fun b : Byte => decide (b = SPACE)
  have hrun := Clean.run_plain delim (c := ⟨false, [], 0⟩) rfl
    (fun h => hesc (hsub.mem h)) fun h => hquote (hsub.mem h)
  simp only [clean, hrun, List.nil_append, List.length_nil, Nat.zero_add]
  have hprefix := List.rdropWhile_prefix (fun b : Byte => decide (b = SPACE))
    (s.dropWhile (· = SPACE))
  have hkept : (if (s.dropWhile (· = SPACE)).rdropWhile (· = SPACE) = [] then 0
      else ((s.dropWhile (· = SPACE)).rdropWhile (· = SPACE)).length) = (trim s).length := by
    split_ifs with hnil
    · simp [trim, hnil]
    · rfl
  rw [hkept]
  exact (List.prefix_iff_eq_take.mp hprefix).symm

/-- The first pass over a text without backslashes, quotes and delimiters. -/
theorem scan_plain (hesc : ESCAPE_META ∉ s) (hquote : QUOTE ∉ s) (hdelim : delim ∉ s) :
    Closed delim s := by
  intro rest
  induction s with
  | nil => simp
  | cons b s ih =>
    simp only [List.mem_cons, not_or] at hesc hquote hdelim
    have hb : ¬ Quotes delim false b (s ++ rest) := fun h => hquote.1 h.1.symm
    rw [List.cons_append, scan, if_neg (Ne.symm hesc.1), if_neg hb,
      if_neg fun h => hdelim.1 h.1.symm, ih hesc.2 hquote.2 hdelim.2]
    rfl

theorem pending_plain (hesc : ESCAPE_META ∉ s) : pending false s = false := by
  induction s with
  | nil => rfl
  | cons b s ih =>
    simp only [List.mem_cons, not_or] at hesc
    simp [pending, Ne.symm hesc.1, ih hesc.2]

/-- The bytes of a token are bytes of the text. -/
theorem mem_of_mem_tokens (ht : t ∈ tokens delim m s) (hb : b ∈ t) : b ∈ s := by
  induction m generalizing s with
  | zero => simp [tokens] at ht
  | succ m ih =>
    have hsplit : s.takeWhile (isBlank delim) ++ s.dropWhile (isBlank delim) = s :=
      List.takeWhile_append_dropWhile
    rw [tokens] at ht
    split_ifs at ht with hs hm
    · simp at ht
    · rw [List.mem_singleton] at ht
      exact ht ▸ hb
    · split at ht
      · rename_i p hscan
        rw [List.mem_singleton] at ht
        rw [(scan_eq_none hscan).1, hsplit] at ht
        exact ht ▸ hb
      · rename_i p rest hscan
        have htext : s = s.takeWhile (isBlank delim) ++ p ++ delim :: rest := by
          rw [List.append_assoc, ← (scan_eq_some hscan).1, hsplit]
        rw [htext]
        rcases List.mem_cons.mp ht with rfl | ht
        · exact List.mem_append_left _ hb
        · refine List.mem_append_right _ (List.mem_cons_of_mem _ ?_)
          exact (List.dropWhile_sublist _).mem (ih ht)

/-! ## The first word -/

theorem isBlank_space : isBlank SPACE = fun b => decide (b = SPACE) := by
  funext b
  simp [isBlank]

/-- A text with a byte other than a space: spaces, the first word, and nothing or another space. -/
theorem exists_word (h : ∃ b ∈ s, b ≠ SPACE) : ∃ lead w rest, s = lead ++ (w ++ rest) ∧
    s.takeWhile (· = SPACE) = lead ∧ s.dropWhile (· = SPACE) = w ++ rest ∧
    (w ++ rest).dropWhile (· ≠ SPACE) = rest ∧
    (∀ b ∈ lead, b = SPACE) ∧ w ≠ [] ∧ SPACE ∉ w ∧
    (rest = [] ∨ ∃ rest', rest = SPACE :: rest') := by
  -- the text behind the first spaces starts with the word
  let u := s.dropWhile (· = SPACE)
  have hu : u ≠ [] := by
    intro hnil
    obtain ⟨b, hb, hspace⟩ := h
    simpa [hspace] using List.dropWhile_eq_nil_iff.mp hnil b hb
  have hsplit : u.takeWhile (· ≠ SPACE) ++ u.dropWhile (· ≠ SPACE) = u :=
    List.takeWhile_append_dropWhile
  refine ⟨s.takeWhile (· = SPACE), u.takeWhile (· ≠ SPACE), u.dropWhile (· ≠ SPACE), ?_, rfl,
    hsplit.symm, by rw [hsplit], ?_, ?_, ?_, ?_⟩
  · rw [hsplit]
    exact List.takeWhile_append_dropWhile.symm
  · intro b hb
    simpa using List.mem_takeWhile_imp hb
  · have hhead := List.head_dropWhile_not (fun b : Byte => decide (b = SPACE)) hu
    obtain ⟨b, u', hbu⟩ := List.exists_cons_of_ne_nil hu
    have hb : b ≠ SPACE := by
      simpa [show s.dropWhile (· = SPACE) = b :: u' from hbu] using hhead
    rw [hbu]
    simp [hb]
  · intro hmem
    simpa using List.mem_takeWhile_imp hmem
  · by_cases hnil : u.dropWhile (· ≠ SPACE) = []
    · exact Or.inl hnil
    · obtain ⟨b, rest, hbr⟩ := List.exists_cons_of_ne_nil hnil
      have hhead := List.head_dropWhile_not (fun b : Byte => decide (b ≠ SPACE)) hnil
      simp only [hbr, List.head_cons] at hhead
      have hb : b = SPACE := by simpa using hhead
      exact Or.inr ⟨rest, hb ▸ hbr⟩

/-- The words are those behind the first spaces. -/
theorem words_eq (h : s.dropWhile (· = SPACE) = t) : words s = words t := by
  rw [← h, words_dropWhile]

/-- The first word and those of the rest. -/
theorem words_append_rest {w : List Byte} (hw : w ≠ []) (hspace : SPACE ∉ w)
    (hrest : rest = [] ∨ ∃ rest', rest = SPACE :: rest') : words (w ++ rest) = w :: words rest := by
  rcases hrest with rfl | ⟨rest', rfl⟩
  · rw [List.append_nil, words_single hw hspace]
    rfl
  · rw [words_append hw hspace, words_space]

theorem words_eq_nil_iff : words s = [] ↔ ∀ b ∈ s, b = SPACE := by
  constructor
  · intro hnil
    by_contra hword
    simp only [not_forall] at hword
    obtain ⟨b, hb, hspace⟩ := hword
    obtain ⟨lead, w, rest, -, -, hdrop, -, -, hw, hspace', hrest⟩ := exists_word ⟨b, hb, hspace⟩
    rw [words_eq hdrop, words_append_rest hw hspace' hrest] at hnil
    cases hnil
  · intro hall
    exact words_eq (List.dropWhile_eq_nil_iff.mpr (by simpa using hall))

theorem fromWord_dropWhile (n : ℕ) (s : List Byte) :
    fromWord n (s.dropWhile (· = SPACE)) = fromWord n s := by
  cases n with
  | zero => exact List.dropWhile_idempotent _ _
  | succ n => rw [fromWord, List.dropWhile_idempotent, fromWord]

theorem fromWord_space (n : ℕ) (s : List Byte) : fromWord n (SPACE :: s) = fromWord n s := by
  rw [← fromWord_dropWhile, ← fromWord_dropWhile n s]
  simp

/-- A word between spaces. -/
theorem trim_word {lead w rest : List Byte} (hlead : ∀ b ∈ lead, b = SPACE)
    (hrest : ∀ b ∈ rest, b = SPACE) (hw : w ≠ []) (hspace : SPACE ∉ w) :
    trim (lead ++ (w ++ rest)) = w := by
  have hdrop : (lead ++ (w ++ rest)).dropWhile (· = SPACE) = w ++ rest := by
    rw [List.dropWhile_append_of_pos (by simpa using hlead)]
    obtain ⟨b, w, rfl⟩ := List.exists_cons_of_ne_nil hw
    refine List.dropWhile_cons_of_neg ?_
    simp only [decide_eq_true_eq]
    rintro rfl
    exact hspace List.mem_cons_self
  rw [trim, hdrop, List.rdropWhile, List.reverse_append,
    List.dropWhile_append_of_pos (by simpa using hrest), ← List.rdropWhile,
    List.rdropWhile_eq_self_iff]
  intro hne hlast
  simp only [decide_eq_true_eq] at hlast
  exact hspace (hlast ▸ List.getLast_mem hne)

/-- The words, if there is room for all of them; else the last place has the text from its word
on. -/
def wordTokens (m : ℕ) (s : List Byte) : List (List Byte) :=
  if (words s).length ≤ m then words s
  else (words s).take (m - 1) ++ [(fromWord (m - 1) s).rdropWhile (· = SPACE)]

/-- The tokens of a text without backslashes and quotes, when its blanks are the delimiter. -/
theorem tokens_words (hword : ∃ b ∈ s, b ≠ SPACE) (hesc : ESCAPE_META ∉ s) (hquote : QUOTE ∉ s)
    (m : ℕ) : (tokens SPACE (m + 1) s).map trim = wordTokens (m + 1) s := by
  induction m generalizing s with
  | zero =>
    obtain ⟨lead, w, rest, hs, -, hdrop, -, hlead, hw, hspace, hrest⟩ := exists_word hword
    have hne : s ≠ [] := by
      rintro rfl
      simp at hword
    rw [tokens, if_neg hne, if_pos rfl, wordTokens]
    split_ifs with hlen
    · -- there is one word, with spaces around it
      have hwords : words s = w :: words rest := by
        rw [words_eq hdrop, words_append_rest hw hspace hrest]
      have hnil : words rest = [] := by
        rw [hwords, List.length_cons] at hlen
        exact List.length_eq_zero_iff.mp (by omega)
      rw [hwords, hnil, List.map_singleton, hs,
        trim_word hlead (words_eq_nil_iff.mp hnil) hw hspace]
    · -- one place for several words: it has all of the text
      simp [fromWord, trim]
  | succ m ih =>
    obtain ⟨lead, w, rest, hs, htake, hdrop, hrest, hlead, hw, hspace, htail⟩ := exists_word hword
    have hne : s ≠ [] := by
      rintro rfl
      simp at hword
    have htrim : trim (lead ++ w) = w := by
      have htrim := trim_word hlead (List.forall_mem_nil (· = SPACE)) hw hspace
      rwa [List.append_nil] at htrim
    have hscan := scan_plain (s := w) (fun h => hesc (by simp [hs, h]))
      (fun h => hquote (by simp [hs, h])) hspace rest
    have hwords : words s = w :: words rest := by
      rw [words_eq hdrop, words_append_rest hw hspace htail]
    rw [tokens, if_neg hne, if_neg (Nat.succ_ne_zero m), isBlank_space, htake, hdrop, hscan]
    rcases htail with rfl | ⟨rest', rfl⟩
    · -- the word is the last one
      have hone : words s = [w] := hwords
      simp [scan, htrim, wordTokens, hone]
    · have hcut : scan SPACE false false (SPACE :: rest') = ([], some rest') := by
        simp [scan, Quotes, SPACE, ESCAPE_META, QUOTE]
      simp only [hcut, List.append_nil, List.map_cons, htrim]
      rw [words_space] at hwords
      by_cases hnil : words rest' = []
      · -- only spaces are left, and the loop ends
        have hdrop' : rest'.dropWhile (· = SPACE) = [] :=
          List.dropWhile_eq_nil_iff.mpr (by simpa using words_eq_nil_iff.mp hnil)
        rw [hnil] at hwords
        simp [hdrop', tokens, wordTokens, hwords]
      · -- the loop goes on at the next word, with one place less
        have hsub := List.dropWhile_sublist (l := rest') fun b : Byte => decide (b = SPACE)
        have hmem : ∀ b ∈ rest'.dropWhile (· = SPACE), b ∈ s := by
          intro b hb
          rw [hs]
          refine List.mem_append_right _ (List.mem_append_right _ ?_)
          exact List.mem_cons_of_mem _ (hsub.mem hb)
        have hword' : ∃ b ∈ rest'.dropWhile (· = SPACE), b ≠ SPACE := by
          by_contra hall
          simp only [not_exists, not_and, not_not] at hall
          exact hnil (words_dropWhile rest' ▸ words_eq_nil_iff.mpr hall)
        rw [ih hword' (fun h => hesc (hmem _ h)) fun h => hquote (hmem _ h)]
        simp only [wordTokens, words_dropWhile, hwords, List.length_cons, Nat.add_sub_cancel,
          fromWord_dropWhile]
        have hfrom : fromWord (m + 1) s = fromWord m rest' := by
          rw [fromWord, hdrop, hrest, fromWord_space]
        by_cases hlen : (words rest').length ≤ m + 1
        · simp [hlen]
        · simp [hlen, hfrom]

/-- Cutting at blanks a text without backslashes and quotes gives its words. If there are more than
there is room for, the last place has all from its word on. -/
theorem separate_string_words (text : CStr) (hword : ∃ b ∈ text.bytes, b ≠ SPACE)
    (hesc : ESCAPE_META ∉ text.bytes) (hquote : QUOTE ∉ text.bytes)
    (hcaret : ¬ [CARET, CARET] <+: text.bytes) {m : ℕ} (hm : 1 ≤ m) :
    ∃ buf array,
      Returns (fun fuel => agcSeparateString fuel (text.bytes ++ [0]) SPACE m) (buf, array) ∧
      array.length = min (words text.bytes).length m ∧
      array.map (fun q => (Buffer.str buf q).bytes) =
        if (words text.bytes).length ≤ m then words text.bytes
        else (words text.bytes).take (m - 1) ++
          [(fromWord (m - 1) text.bytes).rdropWhile (· = SPACE)] := by
  obtain ⟨m, rfl⟩ := Nat.exists_eq_add_of_le' hm
  obtain ⟨buf, array, hret, -, hmap, -⟩ :=
    (agcSeparateString_spec text SPACE (Nat.succ_ne_zero m) (delimAndText_eq hcaret SPACE)).1
      (Or.inl (pending_plain hesc))
  -- no token has a backslash or a quote, so cleaning is trimming
  have htrim : (tokens SPACE (m + 1) text.bytes).map (clean (cleanupDelim SPACE)) =
      (tokens SPACE (m + 1) text.bytes).map trim := by
    refine List.map_congr_left fun t ht => clean_plain _ (fun h => hesc ?_) fun h => hquote ?_
    · exact mem_of_mem_tokens ht h
    · exact mem_of_mem_tokens ht h
  rw [htrim, tokens_words hword hesc hquote] at hmap
  refine ⟨buf, array, hret, ?_, hmap⟩
  have hlen := congrArg List.length hmap
  rw [List.length_map, wordTokens] at hlen
  rw [hlen]
  split_ifs with hk
  · exact (Nat.min_eq_left hk).symm
  · simp
    omega

/-- Three words, with room for two tokens. -/
theorem separate_string_words_limit : ∃ buf array,
    Returns (fun fuel => agcSeparateString fuel
      ((⟨[32, 97, 32, 32, 98, 32, 99, 32], by decide⟩ : CStr).bytes ++ [0]) SPACE 2) (buf, array) ∧
    array.length = 2 ∧ array.map (fun q => (Buffer.str buf q).bytes) = [[97], [98, 32, 99]] := by
  obtain ⟨buf, array, hret, hlen, hmap⟩ := separate_string_words
    ⟨[32, 97, 32, 32, 98, 32, 99, 32], by decide⟩ ⟨97, by decide, by decide⟩ (by decide) (by decide)
    (by decide) (Nat.le_succ 1)
  exact ⟨buf, array, hret, hlen, hmap⟩

end Separate
