import AgcFramework.Mprintf.Return

/-!
# Statements with escaped values

`%q` doubles the quotes of its argument, so that it can stand between quotes in a statement; `%Q`
puts the quotes around it as well, and makes a null pointer the word `NULL`. A format that is made
of literal text, names and such values gives a statement whose tokens do not depend on what is in
the values.

## Main definitions

* `escaped xtype bytes`: the text with its escapes
* `Prints F fmt ap t`: the formatter makes the text `t`
* `SqlTok`, `sqlTokens`: the literals of a statement and the bytes outside of them
* `SqlPiece`: what a statement is made of

## Main results

* `escapeText_eq`: an escaped text fits the memory that is reserved for it, to the byte
* `Prints.cons`, `Prints.directive`: the text of a format from those of its parts
* `statement_tokens`: the tokens of a statement
-/

open Exec

namespace Mprintf

/-! ## Escaping -/

/-- The text with its escapes. -/
def escaped (xtype : EtType) (bytes : List Byte) : List Byte :=
  bytes.flatMap fun b =>
    if escapes xtype b then (if xtype = .sqlescape4 then [ch '\\', b] else [b, b]) else [b]

variable {xtype : EtType} {R : Type}

@[simp] theorem escaped_nil (xtype : EtType) : escaped xtype [] = [] := rfl

theorem escaped_cons (xtype : EtType) (b : Byte) (s : List Byte) :
    escaped xtype (b :: s) =
      (if escapes xtype b then (if xtype = .sqlescape4 then [ch '\\', b] else [b, b]) else [b]) ++
        escaped xtype s := List.flatMap_cons

theorem length_escaped (xtype : EtType) (s : List Byte) :
    (escaped xtype s).length = s.countP (escapes xtype) + s.length := by
  induction s with
  | nil => rfl
  | cons b s ih =>
    rw [escaped_cons, List.length_append, ih, List.length_cons, List.countP_cons]
    split_ifs
    all_goals
      simp only [List.length_cons, List.length_nil]
      omega

theorem emit_of_lt {size : ℕ} {t : List Byte} (h : t.length < size) (b : Byte) :
    emit size t b = .ok (t ++ [b]) := if_pos h

/-- The loop writes the escaped text, where there is room for it. -/
theorem escapeLoop_eq {size : ℕ} (s t : List Byte)
    (hroom : t.length + (escaped xtype s).length ≤ size) :
    escapeLoop xtype size s t = .ok (t ++ escaped xtype s) := by
  induction s generalizing t with
  | nil =>
    rw [escaped_nil, List.append_nil]
    rfl
  | cons b s ih =>
    rw [escaped_cons, List.length_append] at hroom
    rw [escapeLoop, escaped_cons]
    split_ifs at hroom ⊢ with hesc hback
    · rw [List.length_cons, List.length_singleton] at hroom
      have htake : (t ++ [b] ++ [b]).take ((t ++ [b] ++ [b]).length - 2) = t := by
        simp
      have hroom' : (t ++ [ch '\\', b]).length + (escaped xtype s).length ≤ size := by
        rw [List.length_append, List.length_cons, List.length_singleton]
        omega
      rw [emit_of_lt (by omega), ok_bind, emit_of_lt (by simp; omega), ok_bind, htake,
        ih _ hroom', List.append_assoc]
    · rw [List.length_cons, List.length_singleton] at hroom
      rw [emit_of_lt (by omega), ok_bind, emit_of_lt (by simp; omega), ok_bind,
        ih _ (by simp; omega)]
      simp
    · rw [List.length_singleton] at hroom
      rw [emit_of_lt (by omega), ok_bind, ih _ (by simp; omega), List.append_assoc]

/-- The text of an escaping conversion. -/
def escapedArg (xtype : EtType) (s : Option CStr) : List Byte :=
  if s.isSome && xtype = .sqlescape2 then
    ch '\'' :: escaped xtype (escarg xtype s) ++ [ch '\'']
  else escaped xtype (escarg xtype s)

/-- The number of bytes that is reserved for an escaped text is that of the text and its NUL. -/
theorem escapeSize_eq (xtype : EtType) (s : Option CStr) :
    escapeSize xtype (escarg xtype s) (s.isSome && xtype = .sqlescape2) =
      (escapedArg xtype s).length + 1 := by
  rw [escapeSize, ← length_escaped, escapedArg]
  split_ifs
  · rw [List.length_append, List.length_cons, List.length_singleton]
  · omega

/-- Nothing is written behind the bytes that are reserved for an escaped text. -/
theorem escapeText_eq (xtype : EtType) (s : Option CStr) (malloc : Bool)
    (hmax : (escapedArg xtype s).length + 1 ≤ INT_MAX)
    (hmalloc : etBUFSIZE < (escapedArg xtype s).length + 1 → malloc = true) :
    escapeText xtype s malloc = .ok (some (escapedArg xtype s)) := by
  have hsize := escapeSize_eq xtype s
  have hroom : ¬ (etBUFSIZE < (escapedArg xtype s).length + 1 ∧ malloc = false) := by
    rintro ⟨hlt, hfalse⟩
    rw [hmalloc hlt] at hfalse
    cases hfalse
  have hle : (escapedArg xtype s).length + 1 ≤ max ((escapedArg xtype s).length + 1) etBUFSIZE :=
    Nat.le_max_left _ _
  unfold escapeText
  simp only [hsize]
  rw [checkInt_of_le hmax, ok_bind, if_neg hroom]
  generalize max ((escapedArg xtype s).length + 1) etBUFSIZE = size at hle
  unfold escapedArg at hle ⊢
  rcases hquote : (s.isSome && decide (xtype = .sqlescape2)) with _ | _
  · rw [hquote] at hle
    simp only [Bool.false_eq_true, if_false] at hle ⊢
    rw [emitQuote, if_neg Bool.false_ne_true, pure_eq_ok, ok_bind,
      escapeLoop_eq _ _ (by simp; omega), ok_bind, emitQuote, if_neg Bool.false_ne_true,
      pure_eq_ok, ok_bind, List.nil_append, emit_of_lt (by omega), ok_bind]
    rfl
  · rw [hquote] at hle
    simp only [if_true, List.length_append, List.length_cons, List.length_nil] at hle ⊢
    rw [emitQuote, if_pos rfl, emit_of_lt (by simp; omega), ok_bind,
      escapeLoop_eq _ _ (by simp; omega), ok_bind, emitQuote, if_pos rfl,
      emit_of_lt (by simp; omega), ok_bind, emit_of_lt (by simp; omega), ok_bind]
    rfl

/-! ## The text of a format -/

/-- Whatever was printed before, the formatter makes the text `t` of the format, if it fits an
`int`. -/
def Prints (F : Floats R) (fmt : List Byte)
    (ap : List (VaArg R)) (t : List Byte) : Prop :=
  ∀ k count n, fmt.length < k → count + t.length < INT_MAX → ∃ p,
    loop false F (fun _ => true) k fmt ap count n = .ok p ∧ p.calls.flatten = t ∧
      p.ret = ((count + t.length : ℕ) : ℤ)

variable {F : Floats R} {fmt t : List Byte} {ap : List (VaArg R)}

theorem Prints.nil : Prints F [] ([] : List (VaArg R)) [] := by
  intro k count n hk hmax
  obtain ⟨k, rfl⟩ := Nat.exists_eq_succ_of_ne_zero (Nat.ne_of_gt hk)
  refine ⟨⟨[], [], count⟩, ?_, rfl, rfl⟩
  rw [loop]
  rw [List.length_nil, Nat.add_zero] at hmax
  simp only [List.takeWhile_nil, List.length_nil, List.dropWhile_nil, Nat.add_zero]
  rw [checkInt_of_le hmax.le, ok_bind]
  rfl

/-- A byte of the literal text. -/
theorem Prints.cons (h : Prints F fmt ap t) {b : Byte} (hb : b ≠ ch '%') :
    Prints F (b :: fmt) ap (b :: t) := by
  intro k count n hk hmax
  rw [List.length_cons] at hk hmax
  obtain ⟨k, rfl⟩ := Nat.exists_eq_succ_of_ne_zero (Nat.ne_of_gt (Nat.zero_lt_of_lt hk))
  obtain ⟨p, hp, ht, hret⟩ := h (k + 1) (count + 1) n (by omega) (by omega)
  rw [loop] at hp ⊢
  simp only [List.takeWhile_cons_of_pos (p := (· ≠ ch '%')) (by simpa using hb),
    List.dropWhile_cons_of_pos (p := (· ≠ ch '%')) (by simpa using hb), List.length_cons]
  rw [Nat.add_right_comm count 1, Nat.add_assoc] at hp
  obtain ⟨u, hu, hp⟩ := bind_eq_ok.mp hp
  obtain ⟨q, hq, hp⟩ := bind_eq_ok.mp hp
  cases hp
  refine ⟨_, by rw [hu, ok_bind, hq]; rfl, ?_, ?_⟩
  · rw [← ht]
    simp only [Printed.after, List.flatten_append, flatten_calls]
    rfl
  · rw [← Nat.add_assoc, Nat.add_right_comm, ← hret]
    rfl

theorem Prints.text (h : Prints F fmt ap t) {s : List Byte} (hs : ch '%' ∉ s) :
    Prints F (s ++ fmt) ap (s ++ t) := by
  induction s with
  | nil => exact h
  | cons b s ih =>
    rw [List.mem_cons, not_or] at hs
    exact (ih hs.2).cons (Ne.symm hs.1)

/-- A directive whose conversion gives the text `u`. -/
theorem Prints.directive {s s' : List Byte} {ap' ap'' : List (VaArg R)} {d : Directive} {c : Byte}
    {i : EtInfo} {u : List Byte} (hparse : parseDirective s ap = .ok (d, c :: s', ap'))
    (hfind : fmtinfo.find? (·.fmttype = c) = some i) (hintern : i.intern = false)
    (hconv : max d.width u.length < INT_MAX →
      convert F i d ap' true = .ok (.text u, ap''))
    (h : Prints F s' ap'' t) :
    Prints F (ch '%' :: s) ap ((field d u).flatten ++ t) := by
  intro k count n hk hmax
  have hlen := ((parseDirective_suffix s ap).2 _ _ _ hparse).length_le
  rw [List.length_append, length_field] at hmax
  rw [List.length_cons] at hk hlen
  obtain ⟨k, rfl⟩ := Nat.exists_eq_succ_of_ne_zero (Nat.ne_of_gt (Nat.zero_lt_of_lt hk))
  obtain ⟨p, hp, ht, hret⟩ := h k (count + max d.width u.length) (n + 1) (by omega) (by omega)
  have hne : s ≠ [] := by
    rintro rfl
    exact absurd hlen (by simp)
  obtain ⟨b, s, rfl⟩ := List.exists_cons_of_ne_nil hne
  refine ⟨p.after (field d u) [], ?_, ?_, ?_⟩
  · rw [loop]
    simp only [List.takeWhile_cons_of_neg (p := (· ≠ ch '%')) (a := ch '%') (by simp),
      List.dropWhile_cons_of_neg (p := (· ≠ ch '%')) (a := ch '%') (by simp), List.length_nil,
      Nat.add_zero]
    rw [checkInt_of_le (by omega), ok_bind, Mprintf.directive, hparse, ok_bind]
    simp only [hfind]
    rw [if_neg (by simp [hintern]), hconv (by omega), ok_bind]
    simp only
    rw [checkInt_of_le (by omega), ok_bind, hp]
    · rfl
    · rintro ⟨⟩
  · rw [← ht, Printed.after, List.flatten_append]
  · rw [List.length_append, length_field, ← Nat.add_assoc, ← hret]
    rfl

/-- What stands behind a `%` that its conversion character follows at once. -/
def plain : Directive :=
  ⟨⟨false, false, false, false, false, false⟩, 0, -1, false, false, Nat.zero_le _⟩

theorem flatten_field_plain (u : List Byte) : (field plain u).flatten = u := by
  have hpad : pad (0 - u.length) = [] := by
    rw [Nat.zero_sub]
    rfl
  simp only [field, plain, hpad, Bool.false_eq_true, if_false, List.nil_append, List.append_nil,
    flatten_calls]

/-- `%s`. -/
theorem Prints.string (h : Prints F fmt ap t) (s : CStr) :
    Prints F (ch '%' :: ch 's' :: fmt) (.str (some s) :: ap) (s.bytes ++ t) := by
  have hparse : parseDirective (ch 's' :: fmt) (.str (some s) :: ap) =
      .ok (plain, ch 's' :: fmt, .str (some s) :: ap) := by rfl
  have hdir := Prints.directive (u := s.bytes) hparse
    (i := ⟨ch 's', 0, 4, .string, 0, 0⟩) (by rfl) (by rfl) ?_ h
  · rwa [flatten_field_plain] at hdir
  · intro hmax
    have hle : s.bytes.length ≤ INT_MAX := by
      have := Nat.le_max_right plain.width s.bytes.length
      omega
    show ((checkInt s.bytes.length >>= fun _ => _) >>= fun _ => _) = _
    rw [checkInt_of_le hle]
    rfl

/-- The conversions that escape: `%q`, `%Q`, `%w` and `%y`. -/
def escapeInfos : List EtInfo := (fmtinfo.drop 4).take 4

theorem convert_escape {i : EtInfo} (hi : i ∈ escapeInfos) (s : Option CStr)
    (hmax : (escapedArg i.type s).length < INT_MAX) :
    convert F i plain (.str s :: ap) true = .ok (.text (escapedArg i.type s), ap) := by
  have heq := escapeText_eq i.type s true hmax fun _ => rfl
  simp only [escapeInfos, fmtinfo, List.drop_succ_cons, List.drop_zero, List.take_succ_cons,
    List.take_zero, List.mem_cons, List.not_mem_nil, or_false] at hi
  rcases hi with rfl | rfl | rfl | rfl
  all_goals
    show ((escapeText _ s true >>= fun _ => _) : Exec (Converted × List (VaArg R))) = _
    rw [heq]
    rfl

theorem parseDirective_escape {i : EtInfo} (hi : i ∈ escapeInfos) (fmt : List Byte)
    (ap : List (VaArg R)) :
    parseDirective (i.fmttype :: fmt) ap = .ok (plain, i.fmttype :: fmt, ap) ∧
      fmtinfo.find? (·.fmttype = i.fmttype) = some i ∧ i.intern = false := by
  simp only [escapeInfos, fmtinfo, List.drop_succ_cons, List.drop_zero, List.take_succ_cons,
    List.take_zero, List.mem_cons, List.not_mem_nil, or_false] at hi
  rcases hi with rfl | rfl | rfl | rfl
  all_goals exact ⟨rfl, rfl, rfl⟩

/-- A conversion that escapes. -/
theorem Prints.escape (h : Prints F fmt ap t) {i : EtInfo} (hi : i ∈ escapeInfos)
    (s : Option CStr) :
    Prints F (ch '%' :: i.fmttype :: fmt) (.str s :: ap) (escapedArg i.type s ++ t) := by
  obtain ⟨hparse, hfind, hintern⟩ := parseDirective_escape hi fmt (.str s :: ap)
  have hdir := Prints.directive (u := escapedArg i.type s) hparse hfind hintern ?_ h
  · rwa [flatten_field_plain] at hdir
  · intro hmax
    exact convert_escape hi s ((Nat.le_max_right _ _).trans_lt hmax)

/-! ## Literals -/

/-- A token of a statement: a literal, or a byte outside of the literals. -/
inductive SqlTok
  | literal (s : List Byte)
  | byte (b : Byte)
  deriving DecidableEq

/-- Where a scan of a statement is. -/
inductive SqlState
  | outside
  | inside (s : List Byte)
  /-- Behind a quote that either ends the literal or is the first of two. -/
  | quote (s : List Byte)

/-- The tokens of a statement, where a literal stands between quotes and a quote in it is doubled.
There are none if the last literal does not end. -/
def sqlTokens : SqlState → List Byte → Option (List SqlTok)
  | .outside, [] => some []
  | .outside, b :: t =>
    if b = ch '\'' then sqlTokens (.inside []) t
    else (sqlTokens .outside t).map (.byte b :: ·)
  | .inside _, [] => none
  | .inside s, b :: t =>
    if b = ch '\'' then sqlTokens (.quote s) t else sqlTokens (.inside (s ++ [b])) t
  | .quote s, [] => some [.literal s]
  | .quote s, b :: t =>
    if b = ch '\'' then sqlTokens (.inside (s ++ [b])) t
    else (sqlTokens .outside t).map ([.literal s, .byte b] ++ ·)

theorem sqlTokens_bytes {s : List Byte} (hs : ch '\'' ∉ s) (t : List Byte) :
    sqlTokens .outside (s ++ t) = (sqlTokens .outside t).map (s.map .byte ++ ·) := by
  induction s with
  | nil => simp
  | cons b s ih =>
    rw [List.mem_cons, not_or] at hs
    rw [List.cons_append, sqlTokens, if_neg (Ne.symm hs.1), ih hs.2, Option.map_map]
    rfl

/-- A text with its quotes doubled stays inside of the literal, and comes out as it was. -/
theorem sqlTokens_escaped (s u t : List Byte) :
    sqlTokens (.inside u) (s.flatMap (fun b => if b = ch '\'' then [b, b] else [b]) ++ t) =
      sqlTokens (.inside (u ++ s)) t := by
  induction s generalizing u with
  | nil => simp
  | cons b s ih =>
    rw [List.flatMap_cons, List.append_assoc]
    split_ifs with hb
    · rw [List.cons_append, List.singleton_append, sqlTokens, if_pos hb, sqlTokens, if_pos hb, ih,
        List.append_assoc, List.singleton_append]
    · rw [List.singleton_append, sqlTokens, if_neg hb, ih, List.append_assoc,
        List.singleton_append]

theorem sqlTokens_quote {s t : List Byte} (ht : t.head? ≠ some (ch '\'')) :
    sqlTokens (.quote s) t = (sqlTokens .outside t).map (.literal s :: ·) := by
  cases t with
  | nil => rfl
  | cons b t =>
    have hb : b ≠ ch '\'' := by
      rintro rfl
      exact ht rfl
    rw [sqlTokens, if_neg hb, sqlTokens, if_neg hb, Option.map_map]
    rfl

/-- A literal and what follows it, which does not begin with a quote. -/
theorem sqlTokens_literal (s : List Byte) {t : List Byte} (ht : t.head? ≠ some (ch '\'')) :
    sqlTokens .outside (ch '\'' ::
        s.flatMap (fun b => if b = ch '\'' then [b, b] else [b]) ++ ch '\'' :: t) =
      (sqlTokens .outside t).map (.literal s :: ·) := by
  rw [List.cons_append, sqlTokens, if_pos rfl, sqlTokens_escaped, List.nil_append, sqlTokens,
    if_pos rfl, sqlTokens_quote ht]

/-! ## Statements -/

/-- What a statement is made of. -/
inductive SqlPiece
  /-- Text of the format. -/
  | text (s : CStr)
  /-- `%s` -/
  | name (s : CStr)
  /-- `'%q'` -/
  | value (s : Option CStr)
  /-- `%Q` -/
  | nullable (s : Option CStr)
  deriving DecidableEq

namespace SqlPiece

/-- The piece in the format. -/
def format : SqlPiece → List Byte
  | text s => s.bytes
  | name _ => [ch '%', ch 's']
  | value _ => [ch '\'', ch '%', ch 'q', ch '\'']
  | nullable _ => [ch '%', ch 'Q']

/-- The argument of the piece. -/
def args : SqlPiece → List (VaArg R)
  | text _ => []
  | name s => [.str (some s)]
  | value s => [.str s]
  | nullable s => [.str s]

/-- The piece in the statement. -/
def sql : SqlPiece → List Byte
  | text s => s.bytes
  | name s => s.bytes
  | value s => ch '\'' :: escapedArg .sqlescape s ++ [ch '\'']
  | nullable s => escapedArg .sqlescape2 s

/-- The tokens that the piece stands for. -/
def tokens : SqlPiece → List SqlTok
  | text s => s.bytes.map .byte
  | name s => s.bytes.map .byte
  | value s => [.literal (escarg .sqlescape s)]
  | nullable (some s) => [.literal s.bytes]
  | nullable none => (CStr.ofString "NULL").bytes.map .byte

/-- The piece is a literal of the statement. -/
def Quoted : SqlPiece → Prop
  | text _ => False
  | name _ => False
  | value _ => True
  | nullable s => s.isSome = true

/-- Text and names are not empty and have no quotes, and text has no directives. The values can be
any string. -/
def Plain : SqlPiece → Prop
  | text s => s.bytes ≠ [] ∧ ch '\'' ∉ s.bytes ∧ ch '%' ∉ s.bytes
  | name s => s.bytes ≠ [] ∧ ch '\'' ∉ s.bytes
  | value _ => True
  | nullable _ => True

theorem prints (p : SqlPiece) (hp : p.Plain) (h : Prints F fmt ap t) :
    Prints F (p.format ++ fmt) (p.args ++ ap) (p.sql ++ t) := by
  cases p with
  | text s => exact h.text hp.2.2
  | name s => exact h.string s
  | value s =>
    have hclose : Prints F (ch '\'' :: fmt) ap (ch '\'' :: t) := h.cons (by decide)
    have hvalue := (hclose.escape (i := ⟨ch 'q', 0, 4, .sqlescape, 0, 0⟩) (by decide) s).cons
      (b := ch '\'') (by decide)
    rw [sql, List.append_assoc, List.singleton_append, List.cons_append]
    exact hvalue
  | nullable s =>
    exact h.escape (i := ⟨ch 'Q', 0, 4, .sqlescape2, 0, 0⟩) (by decide) s

/-- What the formatter makes of the pieces. -/
theorem prints_flatMap (F : Floats R) (ps : List SqlPiece)
    (hps : ∀ p ∈ ps, p.Plain) :
    Prints F (ps.flatMap format) (ps.flatMap args) (ps.flatMap sql) := by
  induction ps with
  | nil => exact Prints.nil
  | cons p ps ih =>
    rw [List.forall_mem_cons] at hps
    exact p.prints hps.1 (ih hps.2)

theorem escaped_eq {xtype : EtType} (h : xtype = .sqlescape ∨ xtype = .sqlescape2)
    (s : List Byte) :
    escaped xtype s = s.flatMap fun b => if b = ch '\'' then [b, b] else [b] := by
  rcases h with rfl | rfl
  all_goals
    unfold escaped
    simp only [escapes, reduceCtorEq, decide_false, Bool.false_and, Bool.or_false,
      decide_eq_true_eq, if_false]

/-- A piece that is not a literal does not begin with a quote. -/
theorem head?_sql {p : SqlPiece} (hp : p.Plain) (hq : ¬ p.Quoted) (t : List Byte) :
    (p.sql ++ t).head? ≠ some (ch '\'') := by
  have hbytes : ∀ s : List Byte, s ≠ [] → ch '\'' ∉ s → (s ++ t).head? ≠ some (ch '\'') := by
    intro s hne hmem hhead
    rw [List.head?_append_of_ne_nil _ hne] at hhead
    exact hmem (List.mem_of_head? hhead)
  cases p with
  | text s => exact hbytes _ hp.1 hp.2.1
  | name s => exact hbytes _ hp.1 hp.2
  | value s => exact absurd trivial hq
  | nullable s =>
    cases s with
    | some s => exact absurd rfl hq
    | none => exact hbytes _ (by decide) (by decide)

theorem sqlTokens_sql {p : SqlPiece} (hp : p.Plain)
    (ht : p.Quoted → t.head? ≠ some (ch '\'')) :
    sqlTokens .outside (p.sql ++ t) = (sqlTokens .outside t).map (p.tokens ++ ·) := by
  cases p with
  | text s => exact sqlTokens_bytes hp.2.1 t
  | name s => exact sqlTokens_bytes hp.2 t
  | value s =>
    have harg : escapedArg .sqlescape s = escaped .sqlescape (escarg .sqlescape s) := by
      simp [escapedArg]
    rw [sql, harg, escaped_eq (Or.inl rfl), List.append_assoc, List.singleton_append,
      sqlTokens_literal _ (ht trivial)]
    rfl
  | nullable s =>
    cases s with
    | some s =>
      have harg : escapedArg .sqlescape2 (some s) =
          ch '\'' :: escaped .sqlescape2 s.bytes ++ [ch '\''] := rfl
      rw [sql, harg, escaped_eq (Or.inr rfl), List.append_assoc, List.singleton_append,
        sqlTokens_literal _ (ht rfl)]
      rfl
    | none => exact sqlTokens_bytes (by decide) t

end SqlPiece

/-- **Values do not change a statement.** A format of text, of names, of values between quotes and
of nullable values gives a statement with the tokens that were written: each value is one literal,
with the bytes of its argument, whatever these are. -/
theorem statement_tokens (F : Floats R) (ps : List SqlPiece)
    (hplain : ∀ p ∈ ps, p.Plain) (hsep : ps.IsChain fun p q => p.Quoted → ¬ q.Quoted)
    (fmt : CStr) (hfmt : fmt.bytes = ps.flatMap SqlPiece.format)
    (hmax : (ps.flatMap SqlPiece.sql).length < INT_MAX) :
    ∃ p, vxprintf false F (fun _ => true) fmt (ps.flatMap SqlPiece.args) = .ok p ∧
      sqlTokens .outside p.calls.flatten = some (ps.flatMap SqlPiece.tokens) := by
  obtain ⟨p, hp, ht, -⟩ := SqlPiece.prints_flatMap F ps hplain
    (fmt.bytes.length + 1) 0 0 (by rw [hfmt]; exact Nat.lt_succ_self _) (by rwa [Nat.zero_add])
  refine ⟨p.after [[]] [], by rw [vxprintf, hfmt] at *; rw [hp]; rfl, ?_⟩
  show sqlTokens .outside p.calls.flatten = _
  rw [ht]
  clear hp ht hfmt hmax p
  induction ps with
  | nil => rfl
  | cons p ps ih =>
    rw [List.forall_mem_cons] at hplain
    rw [List.flatMap_cons, List.flatMap_cons, SqlPiece.sqlTokens_sql hplain.1,
      ih hplain.2 hsep.tail]
    · rfl
    · intro hq
      cases ps with
      | nil => simp
      | cons q ps =>
        rw [List.isChain_cons_cons] at hsep
        exact SqlPiece.head?_sql (hplain.2 q (by simp)) (hsep.1 hq) _

/-- A value that tries to end its literal. -/
theorem statement_tokens_quote :
    let ps : List SqlPiece := [.text (CStr.ofString "x="), .value (some (CStr.ofString "a' or '"))]
    ∃ p, vxprintf false Floats.rational (fun _ => true) (CStr.ofString "x='%q'")
        (ps.flatMap SqlPiece.args) = .ok p ∧
      sqlTokens .outside p.calls.flatten =
        some [.byte (ch 'x'), .byte (ch '='), .literal (CStr.ofString "a' or '").bytes] := by
  intro ps
  refine statement_tokens _ ps ?_ ?_ _ ?_ ?_
  · simp [ps, SqlPiece.Plain]
    decide
  · simp [ps, SqlPiece.Quoted]
  · rfl
  · decide

end Mprintf
