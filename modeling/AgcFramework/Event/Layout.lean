import AgcFramework.Event.Payload
import AgcFramework.Event.Fast
import AgcFramework.Lib.Chain
import AgcFramework.Lib.Tiling

/-!
# The block of a fast event

`fast_event_create` puts everything of a fast event but its record into one block: the node, the
array of the pointers to the headers, the headers, their names and values, and the body. The size of
the block is added up in one pass, and a cursor goes over the block in the passes that fill it in.

Addresses are counted from the start of the block. The fields of the headers and the bytes of the
texts are kept apart, as they stand in different regions.

## Main definitions

* `payloadSize`: the sum of the sizes, in an `int`
* `fastAddHeader`, `linkHeader`, `nameHeader`: an iteration of the passes
* `fastEventCreate`: `fast_event_create` of `agc_event.c`
* `regions`: the parts of the block, in order

## Main results

* `Linked.linkHeader`, `Named.nameHeader`: what the passes have done up to an index
* `fastEventCreate_layout`: the regions tile the block, and the headers are linked in order
* `fastEventCreate_eq_mem`: behind the headers the block is the payload that the setters see
-/

open Decimal Tiling Chain

namespace FastArena

/-- The `sizeof`s of the structures. -/
structure Sizes where
  node : ℕ
  ptr : ℕ
  header : ℕ
  header_pos : 0 < header

/-- `EVENT_HEADER_TYPE_LEN`. -/
def EVENT_HEADER_TYPE_LEN : ℕ := 4

/-- The fields of a header in the block; a new block is cleared. -/
structure HeaderCell where
  name : Option ℕ
  value : Option ℕ
  next : Option ℕ
  deriving DecidableEq

/-- The event with its block, and the cursor. -/
structure Arena where
  buff : ℕ
  /-- `fast->headers`. -/
  array : ℕ
  /-- `fast->headers[i]`. -/
  header : ℕ → ℕ
  cells : ℕ → HeaderCell
  /-- `event->headers`. -/
  headers : Option ℕ
  lastHeader : Option ℕ
  body : Option ℕ
  /-- The bytes of the block. -/
  mem : Mem

/-- The value that an `int` takes. -/
def toInt (x : ℤ) : ℤ := x.bmod (2 ^ 32)

/-- An iteration of the pass that adds up the sizes. -/
def addSizes (l : FastLayout) (size : ℤ) (i : ℕ) : ℤ :=
  toInt (toInt (size + l.nameRoom i) + l.valueRoom i)

/-- `payload_size`. -/
def payloadSize (Z : Sizes) (l : FastLayout) : ℤ :=
  let n := l.headers.length
  let size := toInt (0 + Z.node)
  let size := toInt (size + (n * Z.ptr : ℕ))
  let size := toInt (size + (n * Z.header : ℕ))
  let size := (List.range n).foldl (addSizes l) size
  toInt (size + l.bodylength)

/-- `fast_add_header`. -/
def fastAddHeader (s : Arena) (header : ℕ) : Arena :=
  match s.lastHeader with
  | some last =>
    { s with
      cells := Function.update s.cells last { s.cells last with next := some header }
      lastHeader := some header }
  | none => { s with headers := some header, lastHeader := some header }

/-- An iteration of the pass over the headers. -/
def linkHeader (Z : Sizes) (s : Arena) (i : ℕ) : Arena :=
  let s := { s with header := Function.update s.header i s.buff }
  let s := fastAddHeader s (s.header i)
  { s with buff := s.buff + Z.header }

/-- An iteration of the pass over the names and values. -/
def nameHeader (l : FastLayout) (s : Arena) (i : ℕ) : Arena :=
  let a := s.header i
  let value := s.buff + l.nameRoom i
  { s with
    cells := Function.update s.cells a { s.cells a with name := some s.buff, value := some value }
    buff := value + l.valueRoom i }

/-- The texts of the first header. -/
def writeType (l : FastLayout) (s : Arena) : Arena :=
  let c := s.cells (s.header 0)
  let mem := s.mem.strcpy (c.name.getD 0) EVENT_HEADER_TYPE
  { s with mem := mem.strcpy (c.value.getD 0) (intText l.type) }

/-- `fast_event_create`: the event with its block, which starts at zero. -/
def fastEventCreate (Z : Sizes) (l : FastLayout) : Arena :=
  let n := l.headers.length
  let s : Arena := ⟨Z.node, Z.node, fun _ => 0, fun _ => ⟨none, none, none⟩, none, none, none,
    fun _ => 0⟩
  let s := { s with buff := s.buff + n * Z.ptr }
  let s := (List.range n).foldl (linkHeader Z) s
  let s := (List.range n).foldl (nameHeader l) s
  let s := if 0 < l.bodylength then { s with body := some s.buff } else s
  if 0 < n then writeType l s else s

/-- A region behind a pointer that may be null. -/
def place (p : Option ℕ) (n : ℕ) : List Region := p.toList.map fun a => (a, n)

/-- The parts of the block, in order. -/
def regions (Z : Sizes) (l : FastLayout) (s : Arena) : List Region :=
  let n := l.headers.length
  [(0, Z.node), (s.array, n * Z.ptr)] ++
    (List.range n).flatMap (fun i => [(s.header i, Z.header)]) ++
    (List.range n).flatMap (fun i =>
      place (s.cells (s.header i)).name (l.nameRoom i) ++
        place (s.cells (s.header i)).value (l.valueRoom i)) ++
    place s.body l.bodylength

variable {Z : Sizes} {l : FastLayout} {s : Arena} {b i j : ℕ}

/-! ## The pass over the headers -/

/-- The address of a header, behind `b`. -/
def headerAt (Z : Sizes) (b i : ℕ) : ℕ := b + i * Z.header

theorem headerAt_inj (h : headerAt Z b i = headerAt Z b j) : i = j :=
  Nat.eq_of_mul_eq_mul_right Z.header_pos (Nat.add_left_cancel h)

/-- The first `k` headers are linked. -/
structure Linked (Z : Sizes) (b k : ℕ) (s : Arena) : Prop where
  buff : s.buff = headerAt Z b k
  header : ∀ i < k, s.header i = headerAt Z b i
  headers : s.headers = if 0 < k then some b else none
  last : s.lastHeader = if 0 < k then some (headerAt Z b (k - 1)) else none
  next : ∀ i < k, (s.cells (headerAt Z b i)).next =
    if i + 1 < k then some (headerAt Z b (i + 1)) else none
  clear : ∀ i, k ≤ i → s.cells (headerAt Z b i) = ⟨none, none, none⟩
  rest : s.array = Z.node ∧ s.body = none ∧ s.mem = fun _ => 0

theorem Linked.linkHeader {k : ℕ} (h : Linked Z b k s) : Linked Z b (k + 1) (linkHeader Z s k) := by
  have hheader : ∀ i < k + 1, Function.update s.header k s.buff i = headerAt Z b i := by
    intro i hi
    by_cases hik : i = k
    · rw [hik, Function.update_self, h.buff]
    · rw [Function.update_of_ne hik]
      exact h.header i (by omega)
  have hbuff : headerAt Z b k + Z.header = headerAt Z b (k + 1) := by
    rw [headerAt, headerAt, Nat.succ_mul, Nat.add_assoc]
  by_cases hk : 0 < k
  · have hlast : s.lastHeader = some (headerAt Z b (k - 1)) := by rw [h.last, if_pos hk]
    simp only [FastArena.linkHeader, fastAddHeader, hlast, Function.update_self]
    -- only the node that was the last is written
    have hother : ∀ i, i ≠ k - 1 → Function.update s.cells (headerAt Z b (k - 1))
        { s.cells (headerAt Z b (k - 1)) with next := some s.buff } (headerAt Z b i) =
          s.cells (headerAt Z b i) := fun i hik =>
      Function.update_of_ne (fun heq => hik (headerAt_inj heq)) _ _
    refine ⟨?_, hheader, ?_, ?_, fun i hi => ?_, fun i hi => ?_, h.rest⟩
    · rw [h.buff, hbuff]
    · rw [h.headers, if_pos hk, if_pos (Nat.succ_pos k)]
    · rw [h.buff, if_pos (Nat.succ_pos k), Nat.add_sub_cancel]
    · by_cases hik : i = k - 1
      · subst hik
        simp only [Function.update_self]
        rw [h.buff, if_pos (by omega), Nat.sub_add_cancel hk]
      · simp only [hother i hik]
        by_cases hi' : i < k
        · rw [h.next i hi', if_pos (by omega), if_pos (by omega)]
        · rw [h.clear i (by omega), if_neg (by omega)]
    · simp only [hother i (by omega)]
      exact h.clear i (by omega)
  · -- the first header becomes the head as well
    obtain rfl : k = 0 := by omega
    have hlast : s.lastHeader = none := h.last
    simp only [FastArena.linkHeader, fastAddHeader, hlast, Function.update_self]
    have hb : s.buff = b := by
      rw [h.buff, headerAt, Nat.zero_mul, Nat.add_zero]
    refine ⟨?_, hheader, ?_, ?_, fun i hi => ?_, fun i hi => ?_, h.rest⟩
    · rw [h.buff, hbuff]
    · rw [hb, if_pos Nat.one_pos]
    · rw [h.buff, if_pos Nat.one_pos]
    · rw [h.clear i (Nat.zero_le i), if_neg (by omega)]
    · exact h.clear i (Nat.zero_le i)

theorem linked_foldl {k : ℕ} (h : Linked Z b 0 s) :
    Linked Z b k ((List.range k).foldl (linkHeader Z) s) := by
  induction k with
  | zero => exact h
  | succ k ih =>
    rw [List.range_succ, List.foldl_append]
    exact ih.linkHeader

/-! ## The pass over the names and values -/

/-- The `n` headers are linked, and the first `k` have their names and values behind `c`. -/
structure Named (Z : Sizes) (l : FastLayout) (b c n k : ℕ) (s : Arena) : Prop where
  buff : s.buff = c + l.nameAt k
  header : ∀ i < n, s.header i = headerAt Z b i
  headers : s.headers = if 0 < n then some b else none
  last : s.lastHeader = if 0 < n then some (headerAt Z b (n - 1)) else none
  next : ∀ i < n, (s.cells (headerAt Z b i)).next =
    if i + 1 < n then some (headerAt Z b (i + 1)) else none
  name : ∀ i < k, (s.cells (headerAt Z b i)).name = some (c + l.nameAt i)
  value : ∀ i < k, (s.cells (headerAt Z b i)).value = some (c + l.valueAt i)
  rest : s.array = Z.node ∧ s.body = none ∧ s.mem = fun _ => 0

variable {c k n : ℕ}

theorem Linked.named (h : Linked Z b n s) : Named Z l b (headerAt Z b n) n 0 s where
  buff := h.buff
  header := h.header
  headers := h.headers
  last := h.last
  next := h.next
  name i hi := absurd hi (Nat.not_lt_zero i)
  value i hi := absurd hi (Nat.not_lt_zero i)
  rest := h.rest

theorem Named.nameHeader (h : Named Z l b c n k s) (hk : k < n) (hn : n = l.headers.length) :
    Named Z l b c n (k + 1) (nameHeader l s k) := by
  have hother : ∀ i, i ≠ k → (FastArena.nameHeader l s k).cells (headerAt Z b i) =
      s.cells (headerAt Z b i) := by
    intro i hik
    simp only [FastArena.nameHeader, h.header k hk]
    exact Function.update_of_ne (fun heq => hik (headerAt_inj heq)) _ _
  -- the name is at the position that is reached, and the value behind it and its NUL
  have hself : (FastArena.nameHeader l s k).cells (headerAt Z b k) =
      { s.cells (headerAt Z b k) with
        name := some (c + l.nameAt k), value := some (c + l.valueAt k) } := by
    simp only [FastArena.nameHeader, h.header k hk, h.buff, Function.update_self,
      FastLayout.valueAt, Nat.add_assoc]
  refine ⟨?_, h.header, h.headers, h.last, fun i hi => ?_, fun i hi => ?_, fun i hi => ?_, h.rest⟩
  · simp only [FastArena.nameHeader, h.buff]
    rw [FastLayout.nameAt_succ (hn ▸ hk), FastLayout.endAt, FastLayout.valueAt]
    omega
  · by_cases hik : i = k
    · rw [hik, hself]
      exact h.next k hk
    · rw [hother i hik]
      exact h.next i hi
  · by_cases hik : i = k
    · rw [hik, hself]
    · rw [hother i hik]
      exact h.name i (by omega)
  · by_cases hik : i = k
    · rw [hik, hself]
    · rw [hother i hik]
      exact h.value i (by omega)

theorem Named.foldl (h : Named Z l b c n 0 s) (hn : n = l.headers.length) (hk : k ≤ n) :
    Named Z l b c n k ((List.range k).foldl (FastArena.nameHeader l) s) := by
  induction k with
  | zero => exact h
  | succ k ih =>
    rw [List.range_succ, List.foldl_append]
    exact (ih (by omega)).nameHeader hk hn

/-! ## The size -/

theorem toInt_of_le {x : ℕ} (h : x ≤ Exec.INT_MAX) : toInt x = x := by
  unfold Exec.INT_MAX at h
  exact Int.bmod_eq_of_le (by omega) (by omega)

/-- The headers stand behind the node and the array. -/
def headersAt (Z : Sizes) (l : FastLayout) : ℕ := Z.node + l.headers.length * Z.ptr

/-- The names and values stand behind the headers. -/
def textsAt (Z : Sizes) (l : FastLayout) : ℕ := headerAt Z (headersAt Z l) l.headers.length

/-- The size of all parts. -/
def total (Z : Sizes) (l : FastLayout) : ℕ := textsAt Z l + l.payloadEnd

theorem foldl_addSizes (hfit : total Z l ≤ Exec.INT_MAX) (hk : k ≤ l.headers.length) :
    (List.range k).foldl (addSizes l) (textsAt Z l) = (textsAt Z l + l.nameAt k : ℕ) := by
  induction k with
  | zero => simp [FastLayout.nameAt]
  | succ k ih =>
    have hend : l.endAt k ≤ l.bodyAt := FastLayout.endAt_le_bodyAt (by omega)
    have hvalue : l.nameAt k + l.nameRoom k + l.valueRoom k = l.endAt k := rfl
    have hpay : l.bodyAt + l.bodylength = l.payloadEnd := rfl
    have htotal : textsAt Z l + l.payloadEnd = total Z l := rfl
    rw [List.range_succ, List.foldl_append, ih (by omega), FastLayout.nameAt_succ (by omega)]
    have hname : textsAt Z l + l.nameAt k + l.nameRoom k ≤ Exec.INT_MAX := by omega
    have hboth : textsAt Z l + l.nameAt k + l.nameRoom k + l.valueRoom k ≤ Exec.INT_MAX := by omega
    have hsum : textsAt Z l + l.nameAt k + l.nameRoom k + l.valueRoom k =
        textsAt Z l + l.endAt k := by omega
    rw [List.foldl_cons, List.foldl_nil, addSizes, ← Int.natCast_add (_ + _), toInt_of_le hname,
      ← Int.natCast_add, toInt_of_le hboth, hsum]

/-- Where all parts fit an `int`, the sum is exact. -/
theorem payloadSize_eq (hfit : total Z l ≤ Exec.INT_MAX) : payloadSize Z l = total Z l := by
  have htexts : headersAt Z l + l.headers.length * Z.header = textsAt Z l := rfl
  have hheaders : Z.node + l.headers.length * Z.ptr = headersAt Z l := rfl
  have htotal : textsAt Z l + (l.bodyAt + l.bodylength) = total Z l := rfl
  have hfold := foldl_addSizes hfit (Nat.le_refl _)
  simp only [payloadSize, Int.zero_add]
  rw [toInt_of_le (by omega), ← Int.natCast_add, hheaders, toInt_of_le (by omega),
    ← Int.natCast_add, htexts, toInt_of_le (by omega), hfold, ← Int.natCast_add,
    toInt_of_le (by change textsAt Z l + l.bodyAt + l.bodylength ≤ _; omega)]
  change ((textsAt Z l + l.bodyAt + l.bodylength : ℕ) : ℤ) = _
  rw [Nat.add_assoc, htotal]

/-! ## The whole block -/

/-- What stands where in the block of a new event. -/
structure Created (Z : Sizes) (l : FastLayout) (s : Arena) : Prop where
  array : s.array = Z.node
  header : ∀ i < l.headers.length, s.header i = headerAt Z (headersAt Z l) i
  headers : s.headers = if 0 < l.headers.length then some (headersAt Z l) else none
  last : s.lastHeader = if 0 < l.headers.length then
    some (headerAt Z (headersAt Z l) (l.headers.length - 1)) else none
  next : ∀ i < l.headers.length, (s.cells (headerAt Z (headersAt Z l) i)).next =
    if i + 1 < l.headers.length then some (headerAt Z (headersAt Z l) (i + 1)) else none
  name : ∀ i < l.headers.length,
    (s.cells (headerAt Z (headersAt Z l) i)).name = some (textsAt Z l + l.nameAt i)
  value : ∀ i < l.headers.length,
    (s.cells (headerAt Z (headersAt Z l) i)).value = some (textsAt Z l + l.valueAt i)
  body : s.body = if 0 < l.bodylength then some (textsAt Z l + l.bodyAt) else none
  mem : s.mem = if 0 < l.headers.length then
    (Mem.strcpy (fun _ => 0) (textsAt Z l + l.nameAt 0) EVENT_HEADER_TYPE).strcpy
      (textsAt Z l + l.valueAt 0) (intText l.type) else fun _ => 0

theorem created_fastEventCreate (Z : Sizes) (l : FastLayout) :
    Created Z l (fastEventCreate Z l) := by
  -- the block behind the three passes, before the body and the texts of the first header
  obtain ⟨s, hs⟩ : ∃ s, s = (List.range l.headers.length).foldl (nameHeader l)
      ((List.range l.headers.length).foldl (linkHeader Z) ⟨headersAt Z l, Z.node, fun _ => 0,
        fun _ => ⟨none, none, none⟩, none, none, none, fun _ => 0⟩) := ⟨_, rfl⟩
  have hlinked : Linked Z (headersAt Z l) 0 ⟨headersAt Z l, Z.node, fun _ => 0,
      fun _ => ⟨none, none, none⟩, none, none, none, fun _ => 0⟩ :=
    { buff := by rw [headerAt, Nat.zero_mul, Nat.add_zero]
      header := fun i hi => absurd hi (Nat.not_lt_zero i)
      headers := rfl
      last := rfl
      next := fun i hi => absurd hi (Nat.not_lt_zero i)
      clear := fun _ _ => rfl
      rest := ⟨rfl, rfl, rfl⟩ }
  have h : Named Z l (headersAt Z l) (textsAt Z l) l.headers.length l.headers.length s := by
    rw [hs]
    exact (linked_foldl hlinked).named.foldl rfl (Nat.le_refl _)
  obtain ⟨harray, hbody, hmem⟩ := h.rest
  have hwith : (if 0 < l.bodylength then { s with body := some s.buff } else s) =
      { s with body := if 0 < l.bodylength then some (textsAt Z l + l.bodyAt) else none } := by
    split
    · exact congrArg (fun p => { s with body := some p }) h.buff
    · rw [← hbody]
  have hcreate : fastEventCreate Z l =
      let s := if 0 < l.bodylength then { s with body := some s.buff } else s
      if 0 < l.headers.length then writeType l s else s := by
    rw [hs]
    rfl
  rw [hcreate, hwith]
  by_cases hn : 0 < l.headers.length
  · have hname := h.name 0 hn
    have hvalue := h.value 0 hn
    rw [← h.header 0 hn] at hname hvalue
    rw [if_pos hn]
    refine ⟨harray, h.header, h.headers, h.last, h.next, h.name, h.value, rfl, ?_⟩
    rw [if_pos hn]
    simp only [writeType, hname, hvalue, hmem, Option.getD_some]
  · rw [if_neg hn]
    refine ⟨harray, h.header, h.headers, h.last, h.next, h.name, h.value, rfl, ?_⟩
    rw [if_neg hn]
    exact hmem

/-! ## The regions -/

theorem Created.header_cell (h : Created Z l s) (hi : i < l.headers.length) :
    (s.cells (s.header i)).name = some (textsAt Z l + l.nameAt i) ∧
      (s.cells (s.header i)).value = some (textsAt Z l + l.valueAt i) := by
  rw [h.header i hi]
  exact ⟨h.name i hi, h.value i hi⟩

theorem Created.tiles (h : Created Z l s) : Tiles 0 (regions Z l s) (total Z l) := by
  -- the event and its index, the headers, their texts and the body follow each other
  have hfront : Tiles 0 [(0, Z.node), (s.array, l.headers.length * Z.ptr)] (headersAt Z l) :=
    ⟨rfl, by rw [h.array, Nat.zero_add], by rw [Nat.zero_add]; rfl⟩
  have hheaders : Tiles (headersAt Z l)
      ((List.range l.headers.length).flatMap fun i => [(s.header i, Z.header)]) (textsAt Z l) := by
    have hrange := tiles_range (f := fun i => [(s.header i, Z.header)])
      (headerAt Z (headersAt Z l)) (n := l.headers.length) fun i hi =>
        ⟨h.header i hi, by rw [headerAt, headerAt, Nat.succ_mul, Nat.add_assoc]; rfl⟩
    rwa [headerAt, Nat.zero_mul, Nat.add_zero] at hrange
  have htexts : Tiles (textsAt Z l) ((List.range l.headers.length).flatMap fun i =>
      place (s.cells (s.header i)).name (l.nameRoom i) ++
        place (s.cells (s.header i)).value (l.valueRoom i)) (textsAt Z l + l.bodyAt) := by
    refine tiles_range (fun i => textsAt Z l + l.nameAt i) fun i hi => ?_
    obtain ⟨hname, hvalue⟩ := h.header_cell hi
    rw [hname, hvalue, FastLayout.nameAt_succ hi]
    refine ⟨rfl, (Nat.add_assoc _ _ _).symm, ?_⟩
    change textsAt Z l + l.nameAt i + l.nameRoom i + l.valueRoom i =
      textsAt Z l + (l.nameAt i + l.nameRoom i + l.valueRoom i)
    omega
  have hbody : Tiles (textsAt Z l + l.bodyAt) (place s.body l.bodylength) (total Z l) := by
    rw [h.body]
    split
    · exact ⟨rfl, Nat.add_assoc _ _ _⟩
    · rename_i hb
      change textsAt Z l + l.bodyAt = textsAt Z l + (l.bodyAt + l.bodylength)
      omega
  exact ((hfront.append hheaders).append htexts).append hbody

/-- The headers are linked in the order of their indices. -/
theorem Created.segment (h : Created Z l s) :
    Segment HeaderCell.next (fun a => some (s.cells a)) s.headers
      ((List.range l.headers.length).map fun i => (s.header i, s.cells (s.header i))) none := by
  have hsegment : Segment HeaderCell.next (fun a => some (s.cells a)) _
      ((List.range l.headers.length).map fun i => (headerAt Z (headersAt Z l) i,
        s.cells (headerAt Z (headersAt Z l) i))) none := segment_range h.next
  rw [headerAt, Nat.zero_mul, Nat.add_zero, ← h.headers] at hsegment
  have hmap : (List.range l.headers.length).map (fun i => (s.header i, s.cells (s.header i))) =
      (List.range l.headers.length).map fun i =>
        (headerAt Z (headersAt Z l) i, s.cells (headerAt Z (headersAt Z l) i)) := by
    refine List.map_congr_left fun i hi => ?_
    rw [h.header i (List.mem_range.mp hi)]
  rw [hmap]
  exact hsegment

theorem Created.lastHeader_eq (h : Created Z l s) :
    s.lastHeader = ((List.range l.headers.length).map s.header).getLast? := by
  rw [h.last, List.getLast?_map]
  by_cases hn : 0 < l.headers.length
  · obtain ⟨m, hm⟩ : ∃ m, l.headers.length = m + 1 := ⟨l.headers.length - 1, by omega⟩
    rw [if_pos hn, hm, List.range_succ, List.getLast?_concat, Option.map_some, Nat.add_sub_cancel,
      h.header m (by omega)]
  · rw [if_neg hn, Nat.eq_zero_of_not_pos hn]
    rfl

/-! ## The texts of the first header -/

/-- The types that `agc_event_fast_initial` lets pass have at most two digits. -/
theorem length_intText_le {t : ℤ} (h0 : 0 ≤ t) (h : t < EVENT_FAST_TYPE_Invalid) :
    (intText t).bytes.length ≤ 2 := by
  have hlen : (intText t).bytes.length ≤ (decimalInt t).length :=
    (List.takeWhile_sublist _).length_le
  refine hlen.trans ?_
  have hlt : t.natAbs < 10 ^ 2 := by
    unfold EVENT_FAST_TYPE_Invalid at h
    omega
  rw [decimalInt, if_neg (by omega), decimal]
  split
  · decide
  · rw [List.length_map, List.length_reverse]
    exact (Nat.digits_length_le_iff (by decide) _).mpr hlt

theorem sameOutside_strcpy {m : Mem} {a room : ℕ} {t : CStr} (h : t.bytes.length + 1 ≤ room) :
    Mem.SameOutside a (a + room) m (m.strcpy a t) := fun _ hx =>
  Mem.strcpy_of_notMem (by omega)

/-- The regions of the block of a fast event are consecutive, do not overlap and fill
`payload_size`; the chain visits the headers in the order of their indices; and the texts of the
first header stay in its own regions where these have room for them. The type is one that
`agc_event_fast_initial` lets pass and finds a queue for: it tests the upper bound only, and a
negative type is an index in front of `FAST_EVENT_QUEUES` before its text is made. -/
theorem fastEventCreate_layout (Z : Sizes) (l : FastLayout) (hfit : total Z l ≤ Exec.INT_MAX) :
    let s := fastEventCreate Z l
    (∃ size : ℕ, payloadSize Z l = size ∧ Tiles 0 (regions Z l s) size ∧
      (regions Z l s).Pairwise fun r t => r.1 + r.2 ≤ t.1) ∧
    (∀ i < l.headers.length, (s.cells (s.header i)).name.isSome ∧
      (s.cells (s.header i)).value.isSome) ∧
    (s.body.isSome ↔ 0 < l.bodylength) ∧
    Segment HeaderCell.next (fun a => some (s.cells a)) s.headers
      ((List.range l.headers.length).map fun i => (s.header i, s.cells (s.header i))) none ∧
    s.lastHeader = ((List.range l.headers.length).map s.header).getLast? ∧
    ∀ h ∈ l.headers.head?, EVENT_HEADER_TYPE.bytes.length ≤ h.1.bytes.length →
      EVENT_HEADER_TYPE_LEN ≤ h.2 → 0 ≤ l.type → l.type < EVENT_FAST_TYPE_Invalid →
      ∃ name value m, (s.cells (s.header 0)).name = some name ∧
        (s.cells (s.header 0)).value = some value ∧
        Mem.SameOutside name (name + (h.1.bytes.length + 1)) (fun _ => 0) m ∧
        Mem.SameOutside value (value + h.2) m s.mem := by
  intro s
  have hc := created_fastEventCreate Z l
  refine ⟨⟨total Z l, payloadSize_eq hfit, hc.tiles, hc.tiles.pairwise⟩, fun i hi => ?_, ?_,
    hc.segment, hc.lastHeader_eq, fun h hh hname hvalue h0 htype => ?_⟩
  · obtain ⟨hname, hvalue⟩ := hc.header_cell hi
    exact ⟨Option.isSome_iff_exists.mpr ⟨_, hname⟩, Option.isSome_iff_exists.mpr ⟨_, hvalue⟩⟩
  · rw [hc.body]
    split
    · simpa using ‹0 < l.bodylength›
    · simpa using ‹¬ 0 < l.bodylength›
  · -- the first header has the type: its name, and then its number in the value
    obtain ⟨rest, hl⟩ := List.head?_eq_some_iff.mp hh
    have hn : 0 < l.headers.length := by simp [hl]
    obtain ⟨hcell, hcell'⟩ := hc.header_cell hn
    refine ⟨_, _, _, hcell, hcell', sameOutside_strcpy (t := EVENT_HEADER_TYPE) (by omega), ?_⟩
    rw [hc.mem, if_pos hn]
    refine sameOutside_strcpy ?_
    have hdigits := length_intText_le h0 htype
    unfold EVENT_HEADER_TYPE_LEN at hvalue
    omega

/-- On a platform with pointers of eight bytes, two headers and a body. -/
theorem fastEventCreate_layout_two :
    let Z : Sizes := ⟨16, 8, 24, by decide⟩
    let l : FastLayout := ⟨1, 0, [(CStr.ofString "_t", 4), (CStr.ofString "key", 2)], 5⟩
    let s := fastEventCreate Z l
    total Z l = 98 ∧ payloadSize Z l = 98 ∧
      regions Z l s = [(0, 16), (16, 16), (32, 24), (56, 24), (80, 3), (83, 4), (87, 4), (91, 2),
        (93, 5)] ∧
      Tiles 0 (regions Z l s) 98 ∧
      ∃ name value m, (s.cells (s.header 0)).name = some name ∧
        (s.cells (s.header 0)).value = some value ∧
        Mem.SameOutside name (name + 3) (fun _ => 0) m ∧
        Mem.SameOutside value (value + 4) m s.mem := by
  intro Z l s
  have hfit : total Z l ≤ Exec.INT_MAX := by decide
  obtain ⟨⟨size, hsize, htiles, -⟩, -, -, -, -, htype⟩ := fastEventCreate_layout Z l hfit
  have htotal : payloadSize Z l = 98 := payloadSize_eq hfit
  obtain rfl : size = 98 := by omega
  exact ⟨rfl, htotal, by decide, htiles,
    htype _ rfl (by decide) (by decide) (by decide) (by decide)⟩

end FastArena

/-- Behind the headers the block is the payload that the setters work on. -/
theorem fastEventCreate_eq_mem (Z : FastArena.Sizes) (l : FastLayout) (x : ℕ) :
    fastEventCreate l x = (FastArena.fastEventCreate Z l).mem (FastArena.textsAt Z l + x) := by
  have hshift : ∀ (m : Mem) (c a : ℕ) (t : CStr) (x : ℕ),
      m.strcpy (c + a) t (c + x) = Mem.strcpy (fun y => m (c + y)) a t x := by
    intro m c a t x
    simp only [Mem.strcpy, Mem.write, Nat.add_le_add_iff_left, Nat.add_sub_add_left]
  rw [(FastArena.created_fastEventCreate Z l).mem, fastEventCreate]
  by_cases hn : l.headers = []
  · simp [hn]
  · have hpos : 0 < l.headers.length := List.length_pos_iff.mpr hn
    have hempty : ¬ l.headers.isEmpty = true := by simpa using hn
    rw [if_pos hpos, if_neg hempty, hshift]
    simp only [hshift]
