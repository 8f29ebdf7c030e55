import AgcFramework.Lib.CString
import AgcFramework.Lib.Exec
import AgcFramework.Lib.Trace

/-!
# Reading the tokens of a YAML scanner

A scanner turns a document into tokens. A simple reader looks at scalars, at the entries of block
sequences and at the ends of blocks, and knows of a scalar only whether it stands in the place of a
key. To such a reader a stream of tokens is a sequence of events, which ends with the stream or
where the scanner fails.

## Main definitions

* `Token`: the tokens of the scanner
* `Event`, `events`: what a reader sees of them
* `scan step`: the loop of a reader
* `lastKey sel evs`: the last of the keys that are selected
* `EntryAt P evs`: an entry stands where `P` holds of what is before it
* `pairEvents`, `mapping`: the events of a flat mapping
* `lastValue k pairs`: the value that a key has in the end
* `assigned k evs`: the scalars with the keys that they stand behind

## Main results

* `scan_eq_foldlM`: the loop is a run over the events
* `lastKey_snoc`, `entryAt_snoc`: what one more event does to the conditions on the events so far
-/

namespace Yaml

open Exec

/-- The tokens of the scanner, with what is read of their data. -/
inductive Token
  | noToken
  | streamStart
  | streamEnd
  | versionDirective
  | tagDirective
  | documentStart
  | documentEnd
  | blockSequenceStart
  | blockMappingStart
  | blockEnd
  | flowSequenceStart
  | flowSequenceEnd
  | flowMappingStart
  | flowMappingEnd
  | blockEntry
  | flowEntry
  | key
  | value
  | alias
  | anchor
  | tag
  | scalar (value : CStr)
  deriving DecidableEq

/-- What a reader sees: a scalar as a key or as a value, the start of an entry, the end of a
block. -/
inductive Event
  | key (k : CStr)
  | value (v : CStr)
  | entry
  | stop
  deriving DecidableEq

/-- The events of a stream, from a place where scalars are keys or not. -/
def events : Bool → List Token → List Event
  | _, [] => []
  | _, .streamEnd :: _ => []
  | _, .key :: ts => events true ts
  | _, .value :: ts => events false ts
  | isKey, .scalar s :: ts => (if isKey then .key s else .value s) :: events isKey ts
  | isKey, .blockEntry :: ts => .entry :: events isKey ts
  | isKey, .blockEnd :: ts => .stop :: events isKey ts
  | isKey, _ :: ts => events isKey ts

section Scan

variable {σ : Type}

/-- The loop of a reader: each token is looked at, up to the end of the stream or to where the
scanner fails. -/
def scan (step : σ → Event → Exec σ) : Bool → List Token → σ → Exec σ
  | _, [], s => pure s
  | _, .streamEnd :: _, s => pure s
  | _, .key :: ts, s => scan step true ts s
  | _, .value :: ts, s => scan step false ts s
  | isKey, .scalar v :: ts, s => do
    let s ← step s (if isKey then .key v else .value v)
    scan step isKey ts s
  | isKey, .blockEntry :: ts, s => do
    let s ← step s .entry
    scan step isKey ts s
  | isKey, .blockEnd :: ts, s => do
    let s ← step s .stop
    scan step isKey ts s
  | isKey, _ :: ts, s => scan step isKey ts s

/-- The loop is a run over the events. -/
theorem scan_eq_foldlM (step : σ → Event → Exec σ) (isKey : Bool) (ts : List Token) (s : σ) :
    scan step isKey ts s = (events isKey ts).foldlM step s := by
  induction ts generalizing isKey s with
  | nil => rfl
  | cons t ts ih =>
    cases t with
    | streamEnd => rfl
    | scalar v =>
      simp only [scan, events, List.foldlM_cons]
      exact bind_congr fun s => ih isKey s
    | blockEntry =>
      simp only [scan, events, List.foldlM_cons]
      exact bind_congr fun s => ih isKey s
    | blockEnd =>
      simp only [scan, events, List.foldlM_cons]
      exact bind_congr fun s => ih isKey s
    | key => exact ih true s
    | value => exact ih false s
    | _ => exact ih isKey s

end Scan

/-! ## Conditions on the events so far -/

section Before

variable {P : List Event → Prop}

/-- The keys among the events. -/
def keysOf (evs : List Event) : List CStr := evs.filterMap fun e => match e with
  | .key k => some k
  | .value _ | .entry | .stop => none

theorem keysOf_append (evs es : List Event) : keysOf (evs ++ es) = keysOf evs ++ keysOf es :=
  List.filterMap_append

/-- The last of the keys that are selected. -/
def lastKey (sel : CStr → Bool) (evs : List Event) : Option CStr :=
  ((keysOf evs).filter sel).getLast?

theorem lastKey_snoc (sel : CStr → Bool) (evs : List Event) (e : Event) :
    lastKey sel (evs ++ [e]) = match e with
      | .key k => if sel k then some k else lastKey sel evs
      | .value _ | .entry | .stop => lastKey sel evs := by
  rw [lastKey, keysOf_append, List.filter_append]
  cases e with
  | key k =>
    change (List.filter _ (keysOf evs) ++ List.filter _ [k]).getLast? = _
    by_cases hk : sel k = true
    · simp [hk]
    · simp [hk, lastKey]
  | _ =>
    change (List.filter _ (keysOf evs) ++ []).getLast? = _
    rw [List.append_nil]
    rfl

/-- An entry stands where `P` holds of the events before it. -/
def EntryAt (P : List Event → Prop) (evs : List Event) : Prop :=
  ∃ p q, evs = p ++ Event.entry :: q ∧ P p

@[simp] theorem not_entryAt_nil : ¬ EntryAt P [] := by
  rintro ⟨p, q, h, -⟩
  simp at h

theorem entryAt_snoc (evs : List Event) (e : Event) :
    EntryAt P (evs ++ [e]) ↔ EntryAt P evs ∨ e = .entry ∧ P evs := by
  constructor
  · rintro ⟨p, q, h, hp⟩
    rcases Trace.snoc_eq_append_cons h with ⟨rfl, rfl, -⟩ | ⟨q', -, rfl⟩
    · exact .inr ⟨rfl, hp⟩
    · exact .inl ⟨p, q', rfl, hp⟩
  · rintro (⟨p, q, rfl, hp⟩ | ⟨rfl, h⟩)
    · exact ⟨p, q ++ [e], by simp, hp⟩
    · exact ⟨evs, [], rfl, h⟩

end Before

/-! ## Flat mappings -/

/-- A key with its value, which may be empty. -/
abbrev Pair := CStr × Option CStr

/-- The events of a key with its value; an empty value is no scalar. -/
def pairEvents (p : Pair) : List Event := .key p.1 :: (p.2.map Event.value).toList

/-- The events of a mapping of scalars. -/
def mapping (pairs : List Pair) : List Event := pairs.flatMap pairEvents

/-- The value that is read last for a key. -/
def lastValue (k : CStr) (pairs : List Pair) : Option CStr :=
  ((pairs.filter fun p => p.1 = k).filterMap Prod.snd).getLast?

theorem lastValue_snoc (k : CStr) (pairs : List Pair) (p : Pair) :
    lastValue k (pairs ++ [p]) =
      if p.1 = k then p.2.or (lastValue k pairs) else lastValue k pairs := by
  by_cases hk : p.1 = k
  · rw [if_pos hk, lastValue, List.filter_append, List.filterMap_append]
    cases hv : p.2 with
    | none => simp [hk, hv, lastValue]
    | some v => simp [hk, hv]
  · rw [if_neg hk, lastValue, List.filter_append]
    simp [hk, lastValue]

theorem lastValue_append (k : CStr) (ps qs : List Pair) :
    lastValue k (ps ++ qs) = (lastValue k qs).or (lastValue k ps) := by
  rw [lastValue, List.filter_append, List.filterMap_append, List.getLast?_append]
  rfl

theorem mapping_append (ps qs : List Pair) : mapping (ps ++ qs) = mapping ps ++ mapping qs :=
  List.flatMap_append

theorem mapping_cons (p : Pair) (ps : List Pair) : mapping (p :: ps) = pairEvents p ++ mapping ps :=
  List.flatMap_cons

/-! ## Scalars and their keys -/

/-- The scalars with the keys that they stand behind, from a place behind the key `k`. -/
def assigned : Option CStr → List Event → List Pair
  | _, [] => []
  | _, .key k :: es => assigned (some k) es
  | some k, .value v :: es => (k, some v) :: assigned (some k) es
  | none, .value _ :: es => assigned none es
  | k, .entry :: es => assigned k es
  | k, .stop :: es => assigned k es

theorem assigned_append (k : Option CStr) (evs es : List Event) :
    assigned k (evs ++ es) = assigned k evs ++ assigned ((keysOf evs).getLast?.or k) es := by
  induction evs generalizing k with
  | nil => rfl
  | cons e evs ih =>
    cases e with
    | key c =>
      have hkeys : keysOf (.key c :: evs) = c :: keysOf evs := rfl
      have hlast : (c :: keysOf evs).getLast?.or k = (keysOf evs).getLast?.or (some c) := by
        rw [List.getLast?_cons]
        cases (keysOf evs).getLast? with
        | none => rfl
        | some x => rfl
      rw [hkeys, hlast]
      exact ih (some c)
    | value v =>
      cases k with
      | none => exact ih none
      | some c => exact congrArg _ (ih (some c))
    | entry => exact ih k
    | stop => exact ih k

/-- A mapping assigns the values of its pairs. -/
theorem lastValue_assigned_mapping (k : Option CStr) (c : CStr) (pairs : List Pair) :
    lastValue c (assigned k (mapping pairs)) = lastValue c pairs := by
  induction pairs generalizing k with
  | nil => rfl
  | cons p pairs ih =>
    have hp : lastValue c (assigned k (pairEvents p)) = lastValue c [p] := by
      obtain ⟨a, v⟩ := p
      cases v with
      | none =>
        have hnone : lastValue c ([] ++ [(a, none)]) = none := by
          rw [lastValue_snoc]
          exact ite_self none
        exact hnone.symm
      | some v => rfl
    rw [mapping_cons, assigned_append, lastValue_append, ih, hp, ← lastValue_append]
    rfl

end Yaml
