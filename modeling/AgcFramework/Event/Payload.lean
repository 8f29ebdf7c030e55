import AgcFramework.Lib.Memory
import AgcFramework.Event.Json

/-!
# The payload of a fast event

A fast event is created with its headers and its body in one block: the names and the values of the
headers stand back to back, each with the room it was created with, and the body behind them. The
setters write through the pointers and do not know how much room there is. A text that is too long
goes on into what stands behind it, and a header index below zero is read from outside of the array
of the headers.

Addresses are counted from the first name. The array of the headers and the headers themselves stand
below it, where no write to a name, a value or the body goes.

## Main definitions

* `FastLayout`: what a fast event is created with, and where its parts stand
* `agcEventFastSetStrheader`, `agcEventFastSetIntheader`, `agcEventFastSetUintheader`,
  `agcEventFastSetBody`: the setters of `agc_event.c`
* `FastLayout.Stays`: a call is refused or writes to its own part only
* `FastLayout.Fits`: the texts of a call fit the room that there is

## Main results

* `FastLayout.endAt_le_nameAt`: the parts stand in order
* `FastLayout.stays_iff`: a call stays in its part, whatever the payload holds, exactly if it fits
-/

open Exec Decimal

/-- What the events of a fast type are created with: each header has the text that its name is
given room for and the length of its value. -/
structure FastLayout where
  type : ℤ
  eventId : ℤ
  headers : List (CStr × ℕ)
  bodylength : ℕ

/-- `EVENT_HEADER_TYPE`. -/
def EVENT_HEADER_TYPE : CStr := CStr.ofString "_t"

namespace FastLayout

variable (l : FastLayout)

/-! ## Where the parts stand -/

/-- The room of a header. -/
def room (h : CStr × ℕ) : ℕ := h.1.bytes.length + 1 + h.2

/-- The address of the name of a header. -/
def nameAt (i : ℕ) : ℕ := ((l.headers.take i).map room).sum

/-- The room for the name of a header. -/
def nameRoom (i : ℕ) : ℕ := (l.headers[i]?.map fun h => h.1.bytes.length + 1).getD 0

/-- `valuelengths`. -/
def valueRoom (i : ℕ) : ℕ := (l.headers[i]?.map Prod.snd).getD 0

/-- The address of the value of a header. -/
def valueAt (i : ℕ) : ℕ := l.nameAt i + l.nameRoom i

/-- The end of the room of a header. -/
def endAt (i : ℕ) : ℕ := l.valueAt i + l.valueRoom i

/-- The address of the body. -/
def bodyAt : ℕ := l.nameAt l.headers.length

/-- The end of the payload. -/
def payloadEnd : ℕ := l.bodyAt + l.bodylength

variable {l} {i j : ℕ}

theorem nameAt_succ (hi : i < l.headers.length) : l.nameAt (i + 1) = l.endAt i := by
  simp only [endAt, valueAt, nameAt, nameRoom, valueRoom, List.getElem?_eq_getElem hi,
    Option.map_some, Option.getD_some, List.take_succ_eq_append_getElem hi, List.map_append,
    List.sum_append, List.map_singleton, List.sum_singleton, room]
  omega

theorem nameAt_le_endAt (l : FastLayout) (i : ℕ) : l.nameAt i ≤ l.endAt i := by
  simp only [endAt, valueAt]
  omega

theorem nameAt_mono (hij : i ≤ j) (hj : j ≤ l.headers.length) : l.nameAt i ≤ l.nameAt j := by
  -- the rooms add up header by header
  induction j with
  | zero =>
    obtain rfl : i = 0 := Nat.le_zero.mp hij
    exact le_refl _
  | succ j ih =>
    rcases Nat.lt_or_eq_of_le hij with hlt | rfl
    · refine (ih (Nat.le_of_lt_succ hlt) (by omega)).trans ?_
      rw [nameAt_succ (by omega)]
      exact nameAt_le_endAt l j
    · exact le_refl _

/-- The headers stand one behind the other. -/
theorem endAt_le_nameAt (hij : i < j) (hj : j ≤ l.headers.length) : l.endAt i ≤ l.nameAt j := by
  rw [← nameAt_succ (by omega)]
  exact nameAt_mono hij hj

/-- The body stands behind the headers. -/
theorem endAt_le_bodyAt (hi : i < l.headers.length) : l.endAt i ≤ l.bodyAt :=
  endAt_le_nameAt hi (le_refl _)

end FastLayout

/-! ## The functions -/

/-- `fast_event_create`: the payload of a new event, where the first header has the type. -/
def fastEventCreate (l : FastLayout) : Mem :=
  let m : Mem := fun _ => 0
  -- the arena is cleared; the type is written for the first header only
  if l.headers.isEmpty then m
  else (m.strcpy (l.nameAt 0) EVENT_HEADER_TYPE).strcpy (l.valueAt 0) (intText l.type)

/-- `fast_get_header`: the index is only compared with the number of the headers. -/
def fastGetHeader (l : FastLayout) (index : ℤ) : Exec (Option ℕ) :=
  if l.headers.length ≤ index then pure none
  -- an index below zero passes the comparison, and the array is read in front of its start
  else if index < 0 then .error .fault
  else pure (some index.toNat)

/-- The setters of headers, by the text that they write for the value. -/
def fastSetHeader (l : FastLayout) (m : Mem) (index : ℤ) (name text : CStr) :
    Exec (Mem × AgcStatus) := do
  match ← fastGetHeader l index with
  | none => pure (m, .generr)
  -- two `strcpy`s, without a look at the room
  | some i => pure ((m.strcpy (l.nameAt i) name).strcpy (l.valueAt i) text, .success)

/-- `agc_event_fast_set_strheader`. -/
def agcEventFastSetStrheader (l : FastLayout) (m : Mem) (index : ℤ) (name value : CStr) :
    Exec (Mem × AgcStatus) :=
  fastSetHeader l m index name value

/-- `agc_event_fast_set_intheader`. -/
def agcEventFastSetIntheader (l : FastLayout) (m : Mem) (index : ℤ) (name : CStr) (value : ℤ) :
    Exec (Mem × AgcStatus) :=
  fastSetHeader l m index name (intText value)

/-- `agc_event_fast_set_uintheader`. -/
def agcEventFastSetUintheader (l : FastLayout) (m : Mem) (index : ℤ) (name : CStr)
    (value : UInt32) : Exec (Mem × AgcStatus) :=
  fastSetHeader l m index name (CStr.ofBuffer (decimal value.toNat))

/-- `agc_event_fast_set_body`, of the memory at `body`; the length of `memcpy` is unsigned. -/
def agcEventFastSetBody (l : FastLayout) (m body : Mem) (len : ℤ) : Exec (Mem × AgcStatus) :=
  if l.bodylength = 0 then pure (m, .false)
  else if len < 0 then .error .fault
  else pure (m.write l.bodyAt (body.bytes 0 len.toNat), .success)

/-- A call of a setter. -/
inductive FastCall
  | strheader (index : ℤ) (name value : CStr)
  | intheader (index : ℤ) (name : CStr) (value : ℤ)
  | uintheader (index : ℤ) (name : CStr) (value : UInt32)
  | body (body : Mem) (len : ℤ)

namespace FastLayout

variable {l : FastLayout} {m : Mem} {index len : ℤ} {name text : CStr} {i : ℕ}

/-- What a call does to the payload. -/
def call (l : FastLayout) (m : Mem) : FastCall → Exec (Mem × AgcStatus)
  | .strheader index name value => agcEventFastSetStrheader l m index name value
  | .intheader index name value => agcEventFastSetIntheader l m index name value
  | .uintheader index name value => agcEventFastSetUintheader l m index name value
  | .body body len => agcEventFastSetBody l m body len

/-! ## Calls that stay in their part -/

/-- The header of an index that is one. -/
def headerRegion (l : FastLayout) (index : ℤ) : Option (ℕ × ℕ) :=
  if 0 ≤ index ∧ index < l.headers.length then
    some (l.nameAt index.toNat, l.endAt index.toNat)
  else none

/-- The part of the payload that a call is for, if there is one. -/
def region (l : FastLayout) : FastCall → Option (ℕ × ℕ)
  | .strheader index _ _ => l.headerRegion index
  | .intheader index _ _ => l.headerRegion index
  | .uintheader index _ _ => l.headerRegion index
  | .body _ _ => if l.bodylength = 0 then none else some (l.bodyAt, l.payloadEnd)

/-- A result that is a refusal without a change, or a change of one part only. -/
def Within (m : Mem) (r : Option (ℕ × ℕ)) (result : Exec (Mem × AgcStatus)) : Prop :=
  ∃ m' status, result = .ok (m', status) ∧
    ((status ≠ .success ∧ m' = m) ∨ ∃ lo hi, r = some (lo, hi) ∧ Mem.SameOutside lo hi m m')

/-- A call is refused and changes nothing, or it changes its own part only. -/
def Stays (l : FastLayout) (m : Mem) (c : FastCall) : Prop := Within m (l.region c) (l.call m c)

/-- The index is refused, or it is one of a header that has room for the texts. A long name may go
on into the room of the value, which is written behind it. -/
def HeaderFits (l : FastLayout) (index : ℤ) (name text : CStr) : Prop :=
  l.headers.length ≤ index ∨
    (0 ≤ index ∧ index < l.headers.length ∧
      name.bytes.length + 1 ≤ l.nameRoom index.toNat + l.valueRoom index.toNat ∧
      text.bytes.length + 1 ≤ l.valueRoom index.toNat)

/-- The texts of a call fit the room that there is. -/
def Fits (l : FastLayout) : FastCall → Prop
  | .strheader index name value => l.HeaderFits index name value
  | .intheader index name value => l.HeaderFits index name (intText value)
  | .uintheader index name value => l.HeaderFits index name (CStr.ofBuffer (decimal value.toNat))
  | .body _ len => l.bodylength = 0 ∨ (0 ≤ len ∧ len ≤ l.bodylength)

theorem fastSetHeader_refused (h : l.headers.length ≤ index) (m : Mem) (name text : CStr) :
    fastSetHeader l m index name text = .ok (m, .generr) := by
  simp [fastSetHeader, fastGetHeader, h]

theorem fastSetHeader_fault (h : index < 0) (m : Mem) (name text : CStr) :
    fastSetHeader l m index name text = .error .fault := by
  have hnot : ¬ (l.headers.length : ℤ) ≤ index := by omega
  simp [fastSetHeader, fastGetHeader, hnot, h]

theorem fastSetHeader_of_mem (h0 : 0 ≤ index) (h : index < l.headers.length) (m : Mem)
    (name text : CStr) :
    fastSetHeader l m index name text =
      .ok ((m.strcpy (l.nameAt index.toNat) name).strcpy (l.valueAt index.toNat) text,
        .success) := by
  have hnot : ¬ (l.headers.length : ℤ) ≤ index := by omega
  have hnot' : ¬ index < 0 := by omega
  simp [fastSetHeader, fastGetHeader, hnot, hnot']

/-- Two texts that fit change the room of their header only. -/
theorem sameOutside_strcpy (hname : name.bytes.length + 1 ≤ l.nameRoom i + l.valueRoom i)
    (htext : text.bytes.length + 1 ≤ l.valueRoom i) (m : Mem) :
    Mem.SameOutside (l.nameAt i) (l.endAt i) m
      ((m.strcpy (l.nameAt i) name).strcpy (l.valueAt i) text) := by
  intro x hx
  simp only [endAt, valueAt] at hx ⊢
  rw [Mem.strcpy_of_notMem (by omega), Mem.strcpy_of_notMem (by omega)]

/-- A call that always writes a byte outside of its part does not stay in it. -/
theorem not_within_of_written {f : Mem → Mem} {result : Mem → Exec (Mem × AgcStatus)} {lo hi x : ℕ}
    {b : Byte} (hcall : ∀ m, result m = .ok (f m, .success)) (hx : x < lo ∨ hi ≤ x)
    (hb : ∀ m, f m x = b) : ¬ ∀ m, Within m (some (lo, hi)) (result m) := by
  intro h
  -- a payload that holds another byte there is changed
  obtain ⟨m', status, hok, hframe⟩ := h fun _ => b + 1
  rw [hcall] at hok
  cases hok
  rcases hframe with ⟨hstatus, -⟩ | ⟨lo, hi, hr, hsame⟩
  · exact hstatus rfl
  · cases hr
    have hout := hsame x hx
    rw [hb] at hout
    simp at hout

/-- A header call stays in its header, whatever the payload holds, exactly if its texts fit. -/
theorem within_fastSetHeader_iff (l : FastLayout) (index : ℤ) (name text : CStr) :
    (∀ m, Within m (l.headerRegion index) (fastSetHeader l m index name text)) ↔
      l.HeaderFits index name text := by
  rcases le_or_gt (l.headers.length : ℤ) index with hle | hlt
  · -- refused
    refine iff_of_true (fun m => ?_) (Or.inl hle)
    exact ⟨m, .generr, fastSetHeader_refused hle m name text, Or.inl ⟨by decide, rfl⟩⟩
  · rcases lt_or_ge index 0 with hneg | h0
    · refine iff_of_false (fun h => ?_) ?_
      · obtain ⟨m', status, hok, -⟩ := h fun _ => 0
        rw [fastSetHeader_fault hneg] at hok
        cases hok
      · rintro (hle | ⟨h0, -⟩)
        · omega
        · omega
    · have hregion : l.headerRegion index = some (l.nameAt index.toNat, l.endAt index.toNat) :=
        if_pos ⟨h0, hlt⟩
      obtain ⟨i, hi⟩ : ∃ i, i = index.toNat := ⟨_, rfl⟩
      rw [← hi] at hregion
      constructor
      · intro h
        refine Or.inr ⟨h0, hlt, ?_⟩
        rw [← hi]
        by_contra hlong
        -- the first byte behind the header is written, with a byte that does not depend on it
        have hwritten : ∀ m m' : Mem,
            (m.strcpy (l.nameAt i) name).strcpy (l.valueAt i) text (l.endAt i) =
              (m'.strcpy (l.nameAt i) name).strcpy (l.valueAt i) text (l.endAt i) := by
          intro m m'
          have hend : l.endAt i = l.nameAt i + l.nameRoom i + l.valueRoom i := rfl
          have hvalue : l.valueAt i = l.nameAt i + l.nameRoom i := rfl
          -- the value comes last; where it ends before that byte, the name has written it
          by_cases htext : l.endAt i ≤ l.valueAt i + text.bytes.length
          · exact Mem.strcpy_of_mem _ _ (by omega) htext
          · have hbehind : ∀ n : Mem, n.strcpy (l.valueAt i) text (l.endAt i) = n (l.endAt i) :=
              fun n => Mem.strcpy_of_notMem (by omega)
            rw [hbehind, hbehind]
            exact Mem.strcpy_of_mem _ _ (by omega) (by omega)
        obtain ⟨b, hb⟩ : ∃ b, ∀ m : Mem,
            (m.strcpy (l.nameAt i) name).strcpy (l.valueAt i) text (l.endAt i) = b :=
          ⟨_, fun m => hwritten m fun _ => 0⟩
        rw [hregion] at h
        refine not_within_of_written (fun m => ?_) (Or.inr (le_refl _)) hb h
        rw [fastSetHeader_of_mem h0 hlt, ← hi]
      · rintro (hle | ⟨-, -, hname, htext⟩) m
        · omega
        · rw [← hi] at hname htext
          refine ⟨_, .success, fastSetHeader_of_mem h0 hlt m name text, Or.inr ⟨_, _, hregion, ?_⟩⟩
          rw [← hi]
          exact sameOutside_strcpy hname htext m

/-- A body stays in its part, whatever the payload holds, exactly if it is not longer. -/
theorem within_fastSetBody_iff (l : FastLayout) (body : Mem) (len : ℤ) :
    (∀ m, Within m (l.region (.body body len)) (agcEventFastSetBody l m body len)) ↔
      l.Fits (.body body len) := by
  simp only [Fits]
  by_cases hzero : l.bodylength = 0
  · refine iff_of_true (fun m => ?_) (Or.inl hzero)
    exact ⟨m, .false, by simp [agcEventFastSetBody, hzero], Or.inl ⟨by decide, rfl⟩⟩
  · have hregion : l.region (.body body len) = some (l.bodyAt, l.payloadEnd) := if_neg hzero
    rcases lt_or_ge len 0 with hneg | h0
    · -- a negative length faults
      refine iff_of_false (fun h => ?_) ?_
      · obtain ⟨m', status, hok, -⟩ := h fun _ => 0
        simp [agcEventFastSetBody, hzero, hneg] at hok
      · rintro (hle | ⟨h0, -⟩)
        · exact hzero hle
        · omega
    · have hcall : ∀ m, agcEventFastSetBody l m body len =
          .ok (m.write l.bodyAt (body.bytes 0 len.toNat), .success) := by
        intro m
        rw [agcEventFastSetBody, if_neg hzero, if_neg (by omega)]
        rfl
      have hlength : (body.bytes 0 len.toNat).length = len.toNat := by simp [Mem.bytes]
      constructor
      · intro h
        refine Or.inr ⟨h0, ?_⟩
        by_contra hlong
        -- a longer body writes the byte behind the payload, whatever that was
        obtain ⟨b, hb⟩ : ∃ b, ∀ m : Mem,
            m.write l.bodyAt (body.bytes 0 len.toNat) l.payloadEnd = b := by
          refine ⟨_, fun m => Mem.write_of_mem m (fun _ => 0) (Nat.le_add_right _ _) ?_⟩
          simp only [payloadEnd, hlength]
          omega
        rw [hregion] at h
        exact not_within_of_written hcall (Or.inr (le_refl _)) hb h
      · rintro (hle | ⟨-, hfits⟩) m
        · exact absurd hle hzero
        · refine ⟨_, .success, hcall m, Or.inr ⟨_, _, hregion, ?_⟩⟩
          intro x hx
          refine Mem.write_of_notMem ?_
          simp only [payloadEnd] at hx
          omega

/-- **The setters stay in their part.** Whatever the payload holds, a call of a setter is refused
without a change, or changes nothing but the header of its index, or the body, exactly if the index
is not negative and the texts fit the room of the header, or the length of the body is between zero
and its room. A negative index is a fault in a layout without headers too, where `headers[-1]` is
read like in any other. -/
theorem stays_iff (l : FastLayout) (c : FastCall) : (∀ m, l.Stays m c) ↔ l.Fits c := by
  cases c with
  | strheader index name value => exact within_fastSetHeader_iff l index name value
  | intheader index name value => exact within_fastSetHeader_iff l index name (intText value)
  | uintheader index name value =>
    exact within_fastSetHeader_iff l index name (CStr.ofBuffer (decimal value.toNat))
  | body body len => exact within_fastSetBody_iff l body len

/-- Two headers with values of four bytes, and no body. -/
def twoHeaders : FastLayout := ⟨1, 3, [(CStr.ofString "_t", 4), (CStr.ofString "_x", 4)], 0⟩

/-- A value of five characters in the first of the two headers makes a name of the second. An index
below zero is not refused. A body of five bytes in a payload with room for four goes behind its
end. -/
theorem setters_leave_their_part :
    ¬ twoHeaders.Stays (fun _ => 0)
      (.strheader 0 (CStr.ofString "_t") (CStr.ofString "12345")) ∧
    ¬ twoHeaders.Stays (fun _ => 0) (.intheader (-1) (CStr.ofString "_t") 7) ∧
    ¬ (⟨1, 3, [], 4⟩ : FastLayout).Stays (fastEventCreate ⟨1, 3, [], 4⟩)
      (.body (fun _ => 65) 5) := by
  refine ⟨?_, ?_, ?_⟩
  · rintro ⟨m', status, hok, hframe⟩
    cases hok
    rcases hframe with ⟨hstatus, -⟩ | ⟨lo, hi, hr, hsame⟩
    · exact hstatus rfl
    · cases hr
      exact absurd (hsame 7 (by decide)) (by decide)
  · rintro ⟨m', status, hok, -⟩
    cases hok
  · rintro ⟨m', status, hok, hframe⟩
    cases hok
    rcases hframe with ⟨hstatus, -⟩ | ⟨lo, hi, hr, hsame⟩
    · exact hstatus rfl
    · cases hr
      exact absurd (hsame 4 (by decide)) (by decide)

end FastLayout
