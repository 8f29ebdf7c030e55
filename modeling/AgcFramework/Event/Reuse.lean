import AgcFramework.Event.Pooled

/-!
# Fast events that are used again

The pool hands an event out as it was given back: neither `agc_event_fast_alloc` nor
`agc_event_fast_release` clears the payload or the record. A header that is set again is terminated,
so that what stood behind it is not seen any more. A body is copied without a NUL: where an earlier
one was longer, the new one goes on with the rest of it. The id and the headers that were added
behind those of the block stay as well.

## Main definitions

* `fastEvent`: the event that the readers see
* `SameView`: two events with the same body and the same members
* `NoLeak`: after two histories a further use leads to the same view
* `SameRecord`: what the histories must agree in for this

## Main results

* `FastLayout.settled_runCalls`: the headers that are set are the same after every history
* `FastBodyLayout.noLeak_iff`: nothing leaks exactly if a NUL stood behind the new body and the
  records agree
-/

open Exec Chain Event

/-- The call sets the header of an index. -/
inductive FastCall.SetsHeader (index : ℤ) : FastCall → Prop
  | str (name value : CStr) : SetsHeader index (.strheader index name value)
  | int (name : CStr) (value : ℤ) : SetsHeader index (.intheader index name value)
  | uint (name : CStr) (value : UInt32) : SetsHeader index (.uintheader index name value)

namespace FastLayout

variable {l : FastLayout}

/-! ## Uses of an event -/

/-- The calls of a use, one after the other. -/
def runCalls (l : FastLayout) (m : Mem) : List FastCall → Exec Mem
  | [] => pure m
  | c :: cs => do
    let (m, _) ← l.call m c
    runCalls l m cs

/-- `agc_event_get_body`: the string at the pointer. -/
def fastGetBody (l : FastLayout) (m : Mem) : Exec (Option CStr) :=
  if l.bodylength = 0 then pure none
  else do
    let body ← m.str l.bodyAt l.payloadEnd
    pure (some body)

/-- The name and the value of a header. -/
def headerText (l : FastLayout) (m : Mem) (i : ℕ) : Exec (CStr × CStr) := do
  let name ← m.str (l.nameAt i) l.payloadEnd
  let value ← m.str (l.valueAt i) l.payloadEnd
  pure (name, value)

/-- The event with the texts of the payload. -/
def fastEvent (l : FastLayout) (p : PooledEvent) : Exec Event := do
  let texts ← (List.range l.headers.length).mapM (l.headerText p.payload)
  let body ← l.fastGetBody p.payload
  pure
    { p.event with
      body := body
      mem := fun a => (p.event.mem a).map fun h =>
        texts[a]?.elim h fun t => { h with name := t.1, value := some t.2 } }

/-- `agc_event_serialize_json_obj` of a fast event. -/
def fastSerializeJsonObj (fuel : ℕ) (templates : EventTemplates) (l : FastLayout)
    (p : PooledEvent) : Exec Json := do
  let e ← l.fastEvent p
  agcEventSerializeJsonObj fuel templates e

/-- `agc_event_serialize_json` of a fast event. -/
def fastSerializeJson (printNumber : List Byte → List Byte) (fuel : ℕ) (templates : EventTemplates)
    (l : FastLayout) (p : PooledEvent) : Exec CStr := do
  let e ← l.fastEvent p
  agcEventSerializeJson printNumber fuel templates e

/-- The readers see the same in both events: the body `b`, the members of one object, and with that
the text that is printed of it. -/
structure SameView (l : FastLayout) (templates : EventTemplates) (p p' : PooledEvent)
    (b : CStr) : Prop where
  body : l.fastGetBody p.payload = .ok (some b)
  body' : l.fastGetBody p'.payload = .ok (some b)
  object : ∃ cj, Returns (fun fuel => fastSerializeJsonObj fuel templates l p) cj ∧
    Returns (fun fuel => fastSerializeJsonObj fuel templates l p') cj
  texts : ∀ printNumber, ∃ n, ∀ fuel, n ≤ fuel →
    fastSerializeJson printNumber fuel templates l p =
      fastSerializeJson printNumber fuel templates l p'

/-- A header call, as the one setter that they all are. -/
theorem exists_call {index : ℤ} {c : FastCall} (h : c.SetsHeader index) :
    ∃ name text, (∀ m, l.call m c = fastSetHeader l m index name text) ∧
      (l.Fits c ↔ l.HeaderFits index name text) := by
  cases h with
  | str name value => exact ⟨name, value, fun _ => rfl, Iff.rfl⟩
  | int name value => exact ⟨name, intText value, fun _ => rfl, Iff.rfl⟩
  | uint name value => exact ⟨name, _, fun _ => rfl, Iff.rfl⟩

/-! ## Headers that are set -/

/-- The payloads have the same texts in a header. -/
structure Settled (l : FastLayout) (i : ℕ) (m m' : Mem) : Prop where
  name : Mem.SameStr (l.nameAt i) (l.endAt i) m m'
  value : Mem.SameStr (l.valueAt i) (l.endAt i) m m'

/-- A header that is set is the same, whatever stood there. -/
theorem settled_strcpy {i : ℕ} {name text : CStr}
    (htext : text.bytes.length + 1 ≤ l.valueRoom i) (m m' : Mem) :
    l.Settled i ((m.strcpy (l.nameAt i) name).strcpy (l.valueAt i) text)
      ((m'.strcpy (l.nameAt i) name).strcpy (l.valueAt i) text) := by
  have hvalue : l.valueAt i = l.nameAt i + l.nameRoom i := rfl
  have hend : l.endAt i = l.valueAt i + l.valueRoom i := rfl
  -- the bytes of the name that the value does not overwrite
  have hbefore : ∀ x, l.nameAt i ≤ x → x ≤ l.nameAt i + name.bytes.length → x < l.valueAt i →
      (m.strcpy (l.nameAt i) name).strcpy (l.valueAt i) text x =
        (m'.strcpy (l.nameAt i) name).strcpy (l.valueAt i) text x := by
    intro x hx hxk hxv
    have hkept : ∀ n : Mem, n.strcpy (l.valueAt i) text x = n x :=
      fun n => Mem.strcpy_of_notMem (Or.inl hxv)
    rw [hkept, hkept]
    exact Mem.strcpy_of_mem _ _ hx hxk
  -- the name, up to its own NUL or through the value up to the value's, and then the value
  constructor
  · rcases Nat.lt_or_ge name.bytes.length (l.nameRoom i) with hshort | hlong
    · refine ⟨name.bytes.length, by omega, ?_, ?_⟩
      · rw [Mem.strcpy_of_notMem (by omega), Mem.strcpy_nul]
      · exact fun x hx hxk => hbefore x hx hxk (by omega)
    · -- the name goes on with the value, up to the value's NUL
      refine ⟨l.nameRoom i + text.bytes.length, by omega, ?_, ?_⟩
      · rw [← Nat.add_assoc, ← hvalue, Mem.strcpy_nul]
      · intro x hx hxk
        rcases Nat.lt_or_ge x (l.valueAt i) with hlt | hge
        · exact hbefore x hx (by omega) hlt
        · exact Mem.strcpy_of_mem _ _ hge (by omega)
  · refine ⟨text.bytes.length, by omega, Mem.strcpy_nul _ _ _, ?_⟩
    exact fun x hx hxk => Mem.strcpy_of_mem _ _ hx hxk

/-- A write to another part leaves the texts of a header the same. -/
theorem Settled.of_outside {i lo hi : ℕ} {m m' n n' : Mem} (h : l.Settled i m m')
    (hn : Mem.SameOutside lo hi m n) (hn' : Mem.SameOutside lo hi m' n')
    (hout : l.endAt i ≤ lo ∨ hi ≤ l.nameAt i) : l.Settled i n n' := by
  refine ⟨h.name.of_outside hn hn' hout, h.value.of_outside hn hn' ?_⟩
  rcases hout with hle | hle
  · exact Or.inl hle
  · exact Or.inr (hle.trans (Nat.le_add_right _ _))

/-- What a header call that fits does to two payloads. -/
theorem settled_call {index : ℤ} {c : FastCall} (hc : c.SetsHeader index) (hfits : l.Fits c)
    (m m' : Mem) :
    ∃ n n' status, l.call m c = .ok (n, status) ∧ l.call m' c = .ok (n', status) ∧
      (∀ x, l.bodyAt ≤ x → n x = m x ∧ n' x = m' x) ∧
      ∀ i < l.headers.length, (index = i ∨ l.Settled i m m') → l.Settled i n n' := by
  obtain ⟨name, text, hcall, hiff⟩ := exists_call (l := l) hc
  rw [hcall, hcall]
  rcases hiff.mp hfits with hle | ⟨h0, hlt, hname, htext⟩
  · -- a refused index is not one of a header
    refine ⟨m, m', .generr, fastSetHeader_refused hle m name text,
      fastSetHeader_refused hle m' name text, fun x _ => ⟨rfl, rfl⟩, ?_⟩
    rintro i hi (rfl | hsettled)
    · omega
    · exact hsettled
  · refine ⟨_, _, .success, fastSetHeader_of_mem h0 hlt m name text,
      fastSetHeader_of_mem h0 hlt m' name text, ?_, ?_⟩
    · intro x hx
      have hend : l.endAt index.toNat ≤ l.bodyAt := endAt_le_bodyAt (by omega)
      exact ⟨sameOutside_strcpy hname htext m x (Or.inr (hend.trans hx)),
        sameOutside_strcpy hname htext m' x (Or.inr (hend.trans hx))⟩
    · intro i hi hset
      -- the headers in front of the one that is set, this one, and those behind it
      rcases Nat.lt_trichotomy i index.toNat with hbefore | heq | hafter
      · rcases hset with heq | hsettled
        · omega
        · exact hsettled.of_outside (sameOutside_strcpy hname htext m)
            (sameOutside_strcpy hname htext m')
            (Or.inl (endAt_le_nameAt hbefore (by omega)))
      · rw [heq]
        exact settled_strcpy htext m m'
      · rcases hset with heq | hsettled
        · omega
        · exact hsettled.of_outside (sameOutside_strcpy hname htext m)
            (sameOutside_strcpy hname htext m')
            (Or.inr (endAt_le_nameAt hafter (Nat.le_of_lt hi)))

/-- What header calls that fit do to two payloads: the headers they set are the same in both, and
so are those that were before, and the body is as it was. -/
theorem settled_runCalls {cs : List FastCall}
    (hcs : ∀ c ∈ cs, l.Fits c ∧ ∃ index, c.SetsHeader index) (m m' : Mem) :
    ∃ n n', l.runCalls m cs = .ok n ∧ l.runCalls m' cs = .ok n' ∧
      (∀ x, l.bodyAt ≤ x → n x = m x ∧ n' x = m' x) ∧
      ∀ i < l.headers.length, ((∃ c ∈ cs, c.SetsHeader i) ∨ l.Settled i m m') →
        l.Settled i n n' := by
  -- a header is settled from the first call for it on
  induction cs generalizing m m' with
  | nil =>
    refine ⟨m, m', rfl, rfl, fun x _ => ⟨rfl, rfl⟩, ?_⟩
    rintro i - (⟨c, hc, -⟩ | hsettled)
    · cases hc
    · exact hsettled
  | cons c cs ih =>
    obtain ⟨hfits, index, hc⟩ := hcs c List.mem_cons_self
    obtain ⟨n, n', status, hn, hn', hbody, hset⟩ := settled_call hc hfits m m'
    obtain ⟨r, r', hr, hr', hbody', hset'⟩ :=
      ih (fun c' hc' => hcs c' (List.mem_cons_of_mem _ hc')) n n'
    refine ⟨r, r', ?_, ?_, ?_, ?_⟩
    · rw [runCalls, hn]
      exact hr
    · rw [runCalls, hn']
      exact hr'
    · intro x hx
      obtain ⟨hx1, hx2⟩ := hbody' x hx
      obtain ⟨hx3, hx4⟩ := hbody x hx
      exact ⟨hx1.trans hx3, hx2.trans hx4⟩
    · intro i hi hsome
      apply hset' i hi
      rcases hsome with ⟨c', hc', hsets⟩ | hsettled
      · rcases List.mem_cons.mp hc' with rfl | hc'
        · -- a call sets the header of one index
          right
          apply hset i hi
          left
          cases hc with
          | str name value => cases hsets; rfl
          | int name value => cases hsets; rfl
          | uint name value => cases hsets; rfl
        · exact Or.inl ⟨c', hc', hsets⟩
      · exact Or.inr (hset i hi (Or.inr hsettled))

/-! ## The body -/

/-- What a body that is shorter than its room does to two payloads. -/
theorem settled_body {src : Mem} {b : CStr} (hsrc : src.bytes 0 b.bytes.length = b.bytes)
    (hlen : b.bytes.length < l.bodylength) (m m' : Mem) :
    ∃ n n', l.call m (.body src b.bytes.length) = .ok (n, .success) ∧
      l.call m' (.body src b.bytes.length) = .ok (n', .success) ∧
      n = m.write l.bodyAt b.bytes ∧ n' = m'.write l.bodyAt b.bytes ∧
      ∀ i < l.headers.length, l.Settled i m m' → l.Settled i n n' := by
  have hcall : ∀ m : Mem, l.call m (.body src b.bytes.length) =
      .ok (m.write l.bodyAt b.bytes, .success) := by
    intro m
    have hzero : l.bodylength ≠ 0 := by omega
    have hneg : ¬ (b.bytes.length : ℤ) < 0 := by omega
    simp only [call, agcEventFastSetBody, if_neg hzero, if_neg hneg, Int.toNat_natCast, hsrc]
    rfl
  refine ⟨_, _, hcall m, hcall m', rfl, rfl, ?_⟩
  intro i hi hsettled
  have hout : ∀ m : Mem, Mem.SameOutside l.bodyAt (l.bodyAt + b.bytes.length) m
      (m.write l.bodyAt b.bytes) := fun m x hx => Mem.write_of_notMem hx
  exact hsettled.of_outside (hout m) (hout m') (Or.inl (endAt_le_bodyAt hi))

section Calls

variable {pre post : List FastCall} {src : Mem} {b : CStr}

theorem runCalls_append {m n : Mem} {cs : List FastCall} (h : l.runCalls m cs = .ok n)
    (cs' : List FastCall) : l.runCalls m (cs ++ cs') = l.runCalls n cs' := by
  induction cs generalizing m with
  | nil =>
    cases h
    rfl
  | cons c cs ih =>
    rw [runCalls] at h
    obtain ⟨⟨m₁, status⟩, hm₁, h⟩ := bind_eq_ok.mp h
    rw [List.cons_append, runCalls, hm₁]
    exact ih h

/-- What a use does to two payloads that sets the headers and, among these calls, the body. -/
theorem settled_use (hsrc : src.bytes 0 b.bytes.length = b.bytes)
    (hlen : b.bytes.length < l.bodylength)
    (hcalls : ∀ c ∈ pre ++ post, l.Fits c ∧ ∃ index, c.SetsHeader index)
    (hset : ∀ i < l.headers.length, ∃ c ∈ pre ++ post, c.SetsHeader i) (m m' : Mem) :
    ∃ n n', l.runCalls m (pre ++ FastCall.body src b.bytes.length :: post) = .ok n ∧
      l.runCalls m' (pre ++ FastCall.body src b.bytes.length :: post) = .ok n' ∧
      (∀ x, l.bodyAt ≤ x → n x = m.write l.bodyAt b.bytes x ∧ n' x = m'.write l.bodyAt b.bytes x) ∧
      ∀ i < l.headers.length, l.Settled i n n' := by
  -- the calls in front of the body, the body, and those behind it
  obtain ⟨n, n', hn, hn', hbody, hpre⟩ :=
    settled_runCalls (fun c hc => hcalls c (List.mem_append_left _ hc)) m m'
  obtain ⟨r, r', hr, hr', heq, heq', hkept⟩ := settled_body hsrc hlen n n'
  obtain ⟨t, t', ht, ht', hbody', hpost⟩ :=
    settled_runCalls (fun c hc => hcalls c (List.mem_append_right _ hc)) r r'
  -- the bytes of the body come from the one call for it
  have hwrite : ∀ {m n : Mem}, (∀ x, l.bodyAt ≤ x → n x = m x) → ∀ x, l.bodyAt ≤ x →
      n.write l.bodyAt b.bytes x = m.write l.bodyAt b.bytes x := by
    intro m n hsame x hx
    rcases Nat.lt_or_ge x (l.bodyAt + b.bytes.length) with hlt | hge
    · exact Mem.write_of_mem n m hx hlt
    · rw [Mem.write_of_notMem (Or.inr hge), Mem.write_of_notMem (Or.inr hge), hsame x hx]
  refine ⟨t, t', ?_, ?_, ?_, ?_⟩
  · rw [runCalls_append hn, runCalls, hr]
    exact ht
  · rw [runCalls_append hn', runCalls, hr']
    exact ht'
  · intro x hx
    obtain ⟨hx1, hx2⟩ := hbody' x hx
    rw [hx1, hx2, heq, heq']
    exact ⟨hwrite (fun y hy => (hbody y hy).1) x hx, hwrite (fun y hy => (hbody y hy).2) x hx⟩
  · intro i hi
    apply hpost i hi
    obtain ⟨c, hc, hsets⟩ := hset i hi
    rcases List.mem_append.mp hc with hc | hc
    · exact Or.inr (hkept i hi (hpre i hi (Or.inl ⟨c, hc, hsets⟩)))
    · exact Or.inl ⟨c, hc, hsets⟩

/-! ## What is seen -/

theorem fastGetBody_iff {n m : Mem} (hlen : b.bytes.length < l.bodylength)
    (hn : ∀ x, l.bodyAt ≤ x → n x = m.write l.bodyAt b.bytes x) :
    l.fastGetBody n = .ok (some b) ↔ m (l.bodyAt + b.bytes.length) = 0 := by
  have hzero : l.bodylength ≠ 0 := by omega
  have hend : l.bodyAt + b.bytes.length < l.payloadEnd := by
    simp only [payloadEnd]
    omega
  have hbytes : n.bytes l.bodyAt b.bytes.length = b.bytes := by
    rw [Mem.bytes_congr fun i _ => hn (l.bodyAt + i) (Nat.le_add_right _ _), Mem.bytes_write]
  -- the byte behind the body is one of the earlier payload
  have hbehind : n (l.bodyAt + b.bytes.length) = m (l.bodyAt + b.bytes.length) := by
    rw [hn _ (Nat.le_add_right _ _), Mem.write_of_notMem (Or.inr (le_refl _))]
  rw [← hbehind, ← Mem.str_eq_iff hbytes hend, fastGetBody, if_neg hzero]
  cases hstr : n.str l.bodyAt l.payloadEnd with
  | error e => simp
  | ok s => simp

/-- The texts of headers that are the same in two payloads. -/
theorem exists_texts {n n' : Mem} (h : ∀ i < l.headers.length, l.Settled i n n') :
    ∃ texts, texts.length = l.headers.length ∧
      (List.range l.headers.length).mapM (l.headerText n) = .ok texts ∧
      (List.range l.headers.length).mapM (l.headerText n') = .ok texts := by
  have htext : ∀ i, ∃ t, i < l.headers.length →
      l.headerText n i = .ok t ∧ l.headerText n' i = .ok t := by
    intro i
    by_cases hi : i < l.headers.length
    · have hend : l.endAt i ≤ l.payloadEnd := (endAt_le_bodyAt hi).trans (Nat.le_add_right _ _)
      obtain ⟨name, hname, hname'⟩ := (h i hi).name.exists_str hend
      obtain ⟨value, hvalue, hvalue'⟩ := (h i hi).value.exists_str hend
      refine ⟨(name, value), fun _ => ⟨?_, ?_⟩⟩
      · rw [headerText, hname, ok_bind, hvalue]
        rfl
      · rw [headerText, hname', ok_bind, hvalue']
        rfl
    · exact ⟨(CStr.ofString "", CStr.ofString ""), fun hlt => absurd hlt hi⟩
  choose text htext using htext
  refine ⟨(List.range l.headers.length).map text, by simp, ?_, ?_⟩
  · exact mapM_eq_ok _ fun i hi => (htext i (List.mem_range.mp hi)).1
  · exact mapM_eq_ok _ fun i hi => (htext i (List.mem_range.mp hi)).2

end Calls

/-! ## The object -/

section Object

variable {p : PooledEvent} {texts : List (CStr × CStr)} {body : Option CStr}
  {templates : EventTemplates} {cj : Json}

/-- The object that is made of the texts of the block, of those behind it, of an id and of a
body. -/
def objectOf (templates : EventTemplates) (texts : List (CStr × CStr)) (eventId : ℤ)
    (body : Option CStr) : Json :=
  .object (strings texts ++ [(CStr.ofString "_id", .string (intText eventId))] ++
    nameMembers (templates eventId.toNat) ++ bodyMembers body)

/-- The event that is read has the links of the record, the texts of the payload in the headers of
the block, and the headers behind it. -/
theorem exists_fastEvent (h : p.event.Fronted l.headers.length)
    (hlen : texts.length = l.headers.length)
    (htexts : (List.range l.headers.length).mapM (l.headerText p.payload) = .ok texts)
    (hbody : l.fastGetBody p.payload = .ok body) :
    ∃ e, l.fastEvent p = .ok e ∧ e.eventId = p.event.eventId ∧ e.body = body ∧
      e.Fronted l.headers.length ∧
      (∀ added, e.Added l.headers.length added ↔ p.event.Added l.headers.length added) ∧
      ∀ i c, e.mem i = some c → ∀ t, texts[i]? = some t →
        (c.name, c.value.getD (CStr.ofString "")) = t := by
  let f : Addr → Header → Header := fun a c =>
    texts[a]?.elim c fun t => { c with name := t.1, value := some t.2 }
  have hnext : ∀ a c, (f a c).next = c.next := by
    intro a c
    simp only [f]
    cases texts[a]? with
    | none => rfl
    | some t => rfl
  let e : Event := { p.event with body := body, mem := fun a => (p.event.mem a).map (f a) }
  have hmap := h.map f hnext
  have hfronted : e.Fronted l.headers.length :=
    ⟨hmap.headers, hmap.last, hmap.front, hmap.behind, hmap.brk⟩
  have hbehind : e.behindBlock l.headers.length = p.event.behindBlock l.headers.length := by
    simp only [behindBlock, e]
    cases p.event.mem (l.headers.length - 1) with
    | none => rfl
    | some c => simp only [Option.map_some, Option.bind_some, hnext]
  have hmem : ∀ a, l.headers.length ≤ a → e.mem a = p.event.mem a := by
    intro a ha
    change (p.event.mem a).map (f a) = p.event.mem a
    have hnone : texts[a]? = none := List.getElem?_eq_none (hlen.symm ▸ ha)
    have hid : f a = id := by
      funext c
      simp only [f, hnone]
      rfl
    rw [hid, Option.map_id, id_eq]
  refine ⟨e, ?_, rfl, rfl, hfronted, fun added => ⟨?_, ?_⟩, ?_⟩
  · rw [fastEvent, htexts, ok_bind, hbody]
    rfl
  · exact hfronted.added_congr hbehind.symm fun a ha => (hmem a ha).symm
  · exact h.added_congr hbehind hmem
  · intro i c hm t ht
    obtain ⟨c', -, rfl⟩ := Option.map_eq_some_iff.mp hm
    simp only [f, ht]
    rfl

/-- An event is made into an object exactly if its headers lead to an end and its id is one of the
table. -/
theorem fastSerializeJsonObj_iff (h : p.event.Fronted l.headers.length)
    (hlen : texts.length = l.headers.length)
    (htexts : (List.range l.headers.length).mapM (l.headerText p.payload) = .ok texts)
    (hbody : l.fastGetBody p.payload = .ok body) :
    Returns (fun fuel => fastSerializeJsonObj fuel templates l p) cj ↔
      0 ≤ p.event.eventId ∧ p.event.eventId < EVENT_ID_LIMIT ∧
        ∃ added, p.event.Added l.headers.length added ∧
          cj = objectOf templates (texts ++ added) p.event.eventId body := by
  obtain ⟨e, he, hid, hebody, hfronted, hadded, htexts'⟩ := exists_fastEvent h hlen htexts hbody
  have hobj : ∀ fuel, fastSerializeJsonObj fuel templates l p =
      serializeHeaders e fuel e.headers >>= fun members =>
        eventTemplate templates p.event.eventId >>= fun template =>
          pure (.object (members ++ [(CStr.ofString "_id", .string (intText p.event.eventId))] ++
            nameMembers template ++ bodyMembers body)) := by
    intro fuel
    rw [fastSerializeJsonObj, he, ok_bind, agcEventSerializeJsonObj, hid, hebody]
  constructor
  · intro hret
    obtain ⟨fuel, members, hmembers, htemplate⟩ := (hret.congr fun k => (hobj k).symm).exists_bind
    obtain ⟨added, hadd, rfl⟩ := (hfronted.serializeHeaders_iff hlen htexts').mp ⟨fuel, hmembers⟩
    obtain ⟨template, htemplate, hcj⟩ := bind_eq_ok.mp htemplate
    unfold eventTemplate at htemplate
    split at htemplate
    · rename_i hrange
      cases htemplate
      cases hcj
      exact ⟨hrange.1, hrange.2, added, (hadded added).mp hadd, rfl⟩
    · cases htemplate
  · rintro ⟨h0, hlt, added, hadd, rfl⟩
    obtain ⟨fuel, hmembers⟩ :=
      (hfronted.serializeHeaders_iff hlen htexts').mpr ⟨added, (hadded added).mpr hadd, rfl⟩
    refine ⟨fuel, fun k hk => ?_⟩
    refine (hobj k).trans ?_
    rw [serializeHeaders_mono hmembers hk, ok_bind, eventTemplate, if_pos ⟨h0, hlt⟩]
    rfl

theorem fastSerializeJson_eq (printNumber : List Byte → List Byte) (fuel : ℕ) (p : PooledEvent) :
    fastSerializeJson printNumber fuel templates l p =
      fastSerializeJsonObj fuel templates l p >>= cJSONPrintUnformatted printNumber := by
  rw [fastSerializeJson, fastSerializeJsonObj, bind_assoc]
  rfl

/-- Without a registered name, the object tells the texts and the numeral of the id. -/
theorem objectOf_inj {texts' : List (CStr × CStr)} {i i' : ℤ}
    (h : objectOf (fun _ => none) texts i body = objectOf (fun _ => none) texts' i' body) :
    texts = texts' ∧ intText i = intText i' := by
  have hmembers := List.append_cancel_right (Json.object.inj h)
  simp only [nameMembers, List.append_nil] at hmembers
  obtain ⟨hstrings, hid⟩ := List.append_inj' hmembers rfl
  constructor
  · apply List.map_injective_iff.mpr _ hstrings
    rintro ⟨name, value⟩ ⟨name', value'⟩ heq
    simpa using heq
  · simpa using hid

/-- The readers see the same in two events with the same texts in their blocks exactly if the ids
are the same, one of the table, and so are the headers behind the blocks. -/
theorem sameView_iff {q : PooledEvent} {b : CStr} (h : p.event.Fronted l.headers.length)
    (h' : q.event.Fronted l.headers.length) (hlen : texts.length = l.headers.length)
    (htexts : (List.range l.headers.length).mapM (l.headerText p.payload) = .ok texts)
    (htexts' : (List.range l.headers.length).mapM (l.headerText q.payload) = .ok texts)
    (hbody : l.fastGetBody p.payload = .ok (some b))
    (hbody' : l.fastGetBody q.payload = .ok (some b)) :
    (∀ templates, l.SameView templates p q b) ↔
      p.event.eventId = q.event.eventId ∧
        (0 ≤ p.event.eventId ∧ p.event.eventId < EVENT_ID_LIMIT) ∧
          ∃ added, p.event.Added l.headers.length added ∧
            q.event.Added l.headers.length added := by
  constructor
  · intro hview
    obtain ⟨cj, hcj, hcj'⟩ := (hview fun _ => none).object
    obtain ⟨h0, hlt, added, hadd, rfl⟩ := (fastSerializeJsonObj_iff h hlen htexts hbody).mp hcj
    obtain ⟨h0', hlt', added', hadd', heq⟩ :=
      (fastSerializeJsonObj_iff h' hlen htexts' hbody').mp hcj'
    obtain ⟨happend, hid⟩ := objectOf_inj heq
    have hids : p.event.eventId = q.event.eventId := by
      rw [← atoi_intText h0 hlt, hid, atoi_intText h0' hlt']
    obtain rfl := List.append_cancel_left happend
    exact ⟨hids, ⟨h0, hlt⟩, added, hadd, hadd'⟩
  · rintro ⟨hids, ⟨h0, hlt⟩, added, hadd, hadd'⟩ templates
    let cj := objectOf templates (texts ++ added) p.event.eventId (some b)
    have hcj : Returns (fun fuel => fastSerializeJsonObj fuel templates l p) cj :=
      (fastSerializeJsonObj_iff h hlen htexts hbody).mpr ⟨h0, hlt, added, hadd, rfl⟩
    have hcj' : Returns (fun fuel => fastSerializeJsonObj fuel templates l q) cj := by
      refine (fastSerializeJsonObj_iff h' hlen htexts' hbody').mpr
        ⟨hids ▸ h0, hids ▸ hlt, added, hadd', ?_⟩
      rw [← hids]
    refine ⟨hbody, hbody', ⟨_, hcj, hcj'⟩, fun printNumber => ?_⟩
    -- the same object is printed
    obtain ⟨k, hk⟩ := hcj
    obtain ⟨k', hk'⟩ := hcj'
    refine ⟨max k k', fun fuel hfuel => ?_⟩
    have hobj : fastSerializeJsonObj fuel templates l p = fastSerializeJsonObj fuel templates l q :=
      (hk fuel ((le_max_left k k').trans hfuel)).trans
        (hk' fuel ((le_max_right k k').trans hfuel)).symm
    rw [fastSerializeJson_eq, fastSerializeJson_eq, hobj]

end Object

end FastLayout

/-! ## The later use -/

/-- The call sets the header of an index. -/
def FastUse.SetsHeader (index : ℤ) : FastUse → Prop
  | .fast c => c.SetsHeader index
  | _ => False

/-- The call sets a header, with texts that fit, or the id. -/
def FastUse.Prepares (l : FastLayout) : FastUse → Prop
  | .fast c => l.Fits c ∧ ∃ index, c.SetsHeader index
  | .setId _ => True
  | _ => False

/-- The calls of setters. -/
def setters (calls : List FastUse) : List FastCall :=
  calls.filterMap fun
    | .fast c => some c
    | _ => none

/-- The id after calls. -/
def eventIdAfter (calls : List FastUse) (eventId : ℤ) : ℤ :=
  calls.foldl (fun eventId c =>
    match c with
    | .setId eventId' => eventId'
    | _ => eventId) eventId

/-- What two histories must agree in. Behind a use that makes the calls the events have the same id,
which is one of the table, and behind the headers of the block their chains lead through headers
with the same texts to their ends. -/
structure SameRecord (n : ℕ) (calls : List FastUse) (p p' : PooledEvent) : Prop where
  eventId : eventIdAfter calls p.event.eventId = eventIdAfter calls p'.event.eventId
  valid : 0 ≤ eventIdAfter calls p.event.eventId ∧
    eventIdAfter calls p.event.eventId < EVENT_ID_LIMIT
  added : ∃ added, p.event.Added n added ∧ p'.event.Added n added

namespace FastBodyLayout

variable {l : FastBodyLayout}

/-- After both histories and a use with the calls, the readers see the same and the body `b`. -/
def NoLeak (l : FastBodyLayout) (uses uses' : List (List FastUse)) (calls : List FastUse)
    (b : CStr) : Prop :=
  ∃ q q', Returns (fun fuel => l.eventAfter fuel (uses ++ [calls])) q ∧
    Returns (fun fuel => l.eventAfter fuel (uses' ++ [calls])) q' ∧
    ∀ templates, l.toFastLayout.SameView templates q q' b

theorem eventAfter_snoc (fuel : ℕ) (uses : List (List FastUse)) (calls : List FastUse) :
    l.eventAfter fuel (uses ++ [calls]) =
      l.eventAfter fuel uses >>= fun p => l.runUses fuel p calls := by
  simp only [eventAfter, runUses, List.flatten_append, List.foldlM_append, List.flatten_cons,
    List.flatten_nil, List.append_nil]

/-- Calls of setters and of the id act on the payload and on the id. -/
theorem runUses_eq {calls : List FastUse} {p : PooledEvent} {m : Mem} (fuel : ℕ)
    (hcalls : ∀ c ∈ calls, (∃ f, c = .fast f) ∨ ∃ eventId, c = .setId eventId)
    (hm : l.runCalls p.payload (setters calls) = .ok m) :
    l.runUses fuel p calls =
      .ok ⟨m, { p.event with eventId := eventIdAfter calls p.event.eventId }⟩ := by
  induction calls generalizing p with
  | nil =>
    cases hm
    rfl
  | cons c cs ih =>
    have hcs : ∀ c' ∈ cs, (∃ f, c' = .fast f) ∨ ∃ eventId, c' = .setId eventId :=
      fun c' hc' => hcalls c' (List.mem_cons_of_mem _ hc')
    rcases hcalls c List.mem_cons_self with ⟨f, rfl⟩ | ⟨eventId, rfl⟩
    · obtain ⟨⟨m₁, status⟩, hcall, hm⟩ := bind_eq_ok.mp hm
      rw [runUses, List.foldlM_cons, use, hcall, ok_bind]
      exact ih (p := { p with payload := m₁ }) hcs hm
    · rw [runUses, List.foldlM_cons]
      exact ih (p := { p with event := agcEventSetId p.event eventId }) hcs hm

section Later

variable {uses uses' : List (List FastUse)} {pre post : List FastUse} {src : Mem} {b : CStr}
  {p p' : PooledEvent}

theorem setters_append (cs cs' : List FastUse) : setters (cs ++ cs') = setters cs ++ setters cs' :=
  List.filterMap_append

theorem mem_setters {cs : List FastUse} {c : FastCall} : c ∈ setters cs ↔ FastUse.fast c ∈ cs := by
  rw [setters, List.mem_filterMap]
  constructor
  · rintro ⟨u, hu, hc⟩
    cases u with
    | fast c' =>
      cases hc
      exact hu
    | setId _ => cases hc
    | header _ => cases hc
    | setBody _ => cases hc
    | addBody _ => cases hc
  · exact fun h => ⟨_, h, rfl⟩

/-- What a later use does to two events. -/
theorem exists_later (hsrc : src.bytes 0 b.bytes.length = b.bytes)
    (hlen : b.bytes.length < l.bodylength)
    (hcalls : ∀ c ∈ pre ++ post, c.Prepares l.toFastLayout)
    (hset : ∀ i < l.headers.length, ∃ c ∈ pre ++ post, c.SetsHeader i) (p p' : PooledEvent) :
    ∃ n n', (∀ fuel, l.runUses fuel p (pre ++ .fast (.body src b.bytes.length) :: post) =
        .ok ⟨n, { p.event with eventId := eventIdAfter (pre ++ post) p.event.eventId }⟩) ∧
      (∀ fuel, l.runUses fuel p' (pre ++ .fast (.body src b.bytes.length) :: post) =
        .ok ⟨n', { p'.event with eventId := eventIdAfter (pre ++ post) p'.event.eventId }⟩) ∧
      (∀ x, l.bodyAt ≤ x → n x = p.payload.write l.bodyAt b.bytes x ∧
        n' x = p'.payload.write l.bodyAt b.bytes x) ∧
      ∀ i < l.headers.length, l.Settled i n n' := by
  have hcalls' : ∀ c ∈ setters pre ++ setters post, l.Fits c ∧ ∃ index, c.SetsHeader index := by
    intro c hc
    rw [← setters_append, mem_setters] at hc
    exact hcalls _ hc
  have hset' : ∀ i < l.headers.length, ∃ c ∈ setters pre ++ setters post, c.SetsHeader i := by
    intro i hi
    obtain ⟨c, hc, hsets⟩ := hset i hi
    cases c with
    | fast c =>
      rw [← setters_append]
      exact ⟨c, mem_setters.mpr hc, hsets⟩
    | setId _ => cases hsets
    | header _ => cases hsets
    | setBody _ => cases hsets
    | addBody _ => cases hsets
  obtain ⟨n, n', hn, hn', hbody, hsettled⟩ :=
    FastLayout.settled_use hsrc hlen hcalls' hset' p.payload p'.payload
  have hsplit : setters (pre ++ .fast (.body src b.bytes.length) :: post) =
      setters pre ++ .body src b.bytes.length :: setters post := setters_append _ _
  have hid : ∀ eventId, eventIdAfter (pre ++ .fast (.body src b.bytes.length) :: post) eventId =
      eventIdAfter (pre ++ post) eventId := by
    intro eventId
    rw [eventIdAfter, eventIdAfter, List.foldl_append, List.foldl_append, List.foldl_cons]
  have hkind : ∀ c ∈ pre ++ .fast (.body src b.bytes.length) :: post,
      (∃ f, c = .fast f) ∨ ∃ eventId, c = .setId eventId := by
    intro c hc
    cases c with
    | fast c => exact Or.inl ⟨c, rfl⟩
    | setId eventId => exact Or.inr ⟨eventId, rfl⟩
    | header op => exact (hcalls (.header op) (by simpa using hc)).elim
    | setBody body => exact (hcalls (.setBody body) (by simpa using hc)).elim
    | addBody data => exact (hcalls (.addBody data) (by simpa using hc)).elim
  refine ⟨n, n', fun fuel => ?_, fun fuel => ?_, hbody, hsettled⟩
  · rw [← hid]
    exact runUses_eq fuel hkind (hsplit ▸ hn)
  · rw [← hid]
    exact runUses_eq fuel hkind (hsplit ▸ hn')

theorem fronted_after {fuel : ℕ} (h : l.eventAfter fuel uses = .ok p) :
    p.event.Fronted l.headers.length :=
  fronted_runUses (fronted_create l.toFastLayout) h

/-- The events that a later use leads to, with what the readers see of them. -/
theorem exists_view (hp : Returns (fun fuel => l.eventAfter fuel uses) p)
    (hp' : Returns (fun fuel => l.eventAfter fuel uses') p')
    (hsrc : src.bytes 0 b.bytes.length = b.bytes) (hlen : b.bytes.length < l.bodylength)
    (hcalls : ∀ c ∈ pre ++ post, c.Prepares l.toFastLayout)
    (hset : ∀ i < l.headers.length, ∃ c ∈ pre ++ post, c.SetsHeader i) :
    ∃ q q', (l.NoLeak uses uses' (pre ++ .fast (.body src b.bytes.length) :: post) b ↔
        ∀ templates, l.toFastLayout.SameView templates q q' b) ∧
      (l.toFastLayout.fastGetBody q.payload = .ok (some b) ↔
        p.payload (l.bodyAt + b.bytes.length) = 0) ∧
      (l.toFastLayout.fastGetBody q'.payload = .ok (some b) ↔
        p'.payload (l.bodyAt + b.bytes.length) = 0) ∧
      (l.toFastLayout.fastGetBody q.payload = .ok (some b) →
        l.toFastLayout.fastGetBody q'.payload = .ok (some b) →
          ((∀ templates, l.toFastLayout.SameView templates q q' b) ↔
            SameRecord l.headers.length (pre ++ post) p p')) := by
  obtain ⟨n, n', hn, hn', hbody, hsettled⟩ := exists_later hsrc hlen hcalls hset p p'
  obtain ⟨texts, htlen, htexts, htexts'⟩ := FastLayout.exists_texts hsettled
  refine ⟨⟨n, { p.event with eventId := eventIdAfter (pre ++ post) p.event.eventId }⟩,
    ⟨n', { p'.event with eventId := eventIdAfter (pre ++ post) p'.event.eventId }⟩, ?_,
    FastLayout.fastGetBody_iff hlen fun x hx => (hbody x hx).1,
    FastLayout.fastGetBody_iff hlen fun x hx => (hbody x hx).2, fun hb hb' => ?_⟩
  · -- the use returns one event after each history
    have hq := hp.bind (g := fun fuel p =>
      l.runUses fuel p (pre ++ .fast (.body src b.bytes.length) :: post))
        ⟨0, fun fuel _ => hn fuel⟩
    have hq' := hp'.bind (g := fun fuel p =>
      l.runUses fuel p (pre ++ .fast (.body src b.bytes.length) :: post))
        ⟨0, fun fuel _ => hn' fuel⟩
    constructor
    · rintro ⟨r, r', hr, hr', hsame⟩
      obtain rfl := (hr.congr fun fuel => (eventAfter_snoc fuel _ _).symm).unique hq
      obtain rfl := (hr'.congr fun fuel => (eventAfter_snoc fuel _ _).symm).unique hq'
      exact hsame
    · intro hsame
      exact ⟨_, _, hq.congr fun fuel => eventAfter_snoc fuel _ _,
        hq'.congr fun fuel => eventAfter_snoc fuel _ _, hsame⟩
  · -- the links are those of the record
    have hf : p.event.Fronted l.headers.length := fronted_after (hp.choose_spec _ (le_refl _))
    have hf' : p'.event.Fronted l.headers.length := fronted_after (hp'.choose_spec _ (le_refl _))
    refine (FastLayout.sameView_iff
      (p := ⟨n, { p.event with eventId := eventIdAfter (pre ++ post) p.event.eventId }⟩)
      (q := ⟨n', { p'.event with eventId := eventIdAfter (pre ++ post) p'.event.eventId }⟩)
      ⟨hf.headers, hf.last, hf.front, hf.behind, hf.brk⟩
      ⟨hf'.headers, hf'.last, hf'.front, hf'.behind, hf'.brk⟩ htlen htexts htexts' hb hb').trans ?_
    constructor
    · rintro ⟨hids, hvalid, hadded⟩
      exact ⟨hids, hvalid, hadded⟩
    · rintro ⟨hids, hvalid, hadded⟩
      exact ⟨hids, hvalid, hadded⟩

/-- Without a NUL behind it, the body goes on. -/
theorem NoLeak.nul (h : l.NoLeak uses uses' (pre ++ .fast (.body src b.bytes.length) :: post) b)
    (hp : Returns (fun fuel => l.eventAfter fuel uses) p)
    (hp' : Returns (fun fuel => l.eventAfter fuel uses') p')
    (hsrc : src.bytes 0 b.bytes.length = b.bytes) (hlen : b.bytes.length < l.bodylength)
    (hcalls : ∀ c ∈ pre ++ post, c.Prepares l.toFastLayout)
    (hset : ∀ i < l.headers.length, ∃ c ∈ pre ++ post, c.SetsHeader i) :
    p.payload (l.bodyAt + b.bytes.length) = 0 ∧ p'.payload (l.bodyAt + b.bytes.length) = 0 := by
  obtain ⟨q, q', hleak, hbody, hbody', -⟩ := exists_view hp hp' hsrc hlen hcalls hset
  have hsame := hleak.mp h fun _ => none
  exact ⟨hbody.mp hsame.body, hbody'.mp hsame.body'⟩

/-- **What a fast event shows of its earlier uses.** Take two histories of an event with a body, and
a later use that sets every header, with texts that fit, and the body to `b`, which is shorter than
its room; the use may set the id. The readers see the same after both histories, and the body is
`b`, if and only if the byte behind `b` in the body was NUL at the end of both histories, and these
left records that agree. -/
theorem noLeak_iff (hp : Returns (fun fuel => l.eventAfter fuel uses) p)
    (hp' : Returns (fun fuel => l.eventAfter fuel uses') p')
    (hsrc : src.bytes 0 b.bytes.length = b.bytes) (hlen : b.bytes.length < l.bodylength)
    (hcalls : ∀ c ∈ pre ++ post, c.Prepares l.toFastLayout)
    (hset : ∀ i < l.headers.length, ∃ c ∈ pre ++ post, c.SetsHeader i) :
    l.NoLeak uses uses' (pre ++ .fast (.body src b.bytes.length) :: post) b ↔
      p.payload (l.bodyAt + b.bytes.length) = 0 ∧ p'.payload (l.bodyAt + b.bytes.length) = 0 ∧
        SameRecord l.headers.length (pre ++ post) p p' := by
  obtain ⟨q, q', hleak, hbody, hbody', hview⟩ := exists_view hp hp' hsrc hlen hcalls hset
  rw [hleak]
  constructor
  · intro hsame
    have hb := (hsame fun _ => none).body
    have hb' := (hsame fun _ => none).body'
    exact ⟨hbody.mp hb, hbody'.mp hb', (hview hb hb').mp hsame⟩
  · rintro ⟨hnul, hnul', hrecord⟩
    exact (hview (hbody.mpr hnul) (hbody'.mpr hnul')).mpr hrecord

end Later

end FastBodyLayout

/-- A header with a value of four bytes, and a body of eight. -/
def headerAndBody : FastBodyLayout := ⟨⟨1, 3, [(CStr.ofString "_t", 4)], 8⟩, by decide⟩

/-- The memory with a text. -/
def textAt (s : CStr) : Mem := fun i => s.bytes[i]?.getD 0

namespace FastBodyLayout

/-- The body of a new event is empty. -/
theorem fastEventCreate_headerAndBody {x : ℕ} (hx : 5 ≤ x) :
    fastEventCreate headerAndBody.toFastLayout x = 0 := by
  have htype : (intText 1).bytes.length = 1 := by
    simp [intText, Decimal.decimalInt, Decimal.decimal, CStr.ofBuffer, Decimal.digit]
  have hvalue : headerAndBody.valueAt 0 + (intText 1).bytes.length + 1 = 5 := by
    rw [htype]
    decide
  have hname : headerAndBody.nameAt 0 + EVENT_HEADER_TYPE.bytes.length + 1 = 3 := by decide
  change Mem.strcpy (Mem.strcpy (fun _ => 0) (headerAndBody.nameAt 0) EVENT_HEADER_TYPE)
    (headerAndBody.valueAt 0) (intText 1) x = 0
  rw [Mem.strcpy_of_notMem (Or.inr (by omega)), Mem.strcpy_of_notMem (Or.inr (by omega))]

/-- A call that sets the only header. -/
def setsType : FastUse := .fast (.strheader 0 (CStr.ofString "_t") (CStr.ofString "9"))

theorem setsType_headerAndBody :
    (∀ c ∈ [setsType, .setId 7] ++ [], c.Prepares headerAndBody.toFastLayout) ∧
      ∀ i < headerAndBody.headers.length, ∃ c ∈ [setsType, .setId 7] ++ [], c.SetsHeader i := by
  constructor
  · intro c hc
    rcases List.mem_cons.mp hc with rfl | hc
    · exact ⟨Or.inr (by decide), 0, .str _ _⟩
    · obtain rfl := List.mem_singleton.mp hc
      trivial
  · intro i hi
    obtain rfl : i = 0 := Nat.lt_one_iff.mp hi
    exact ⟨_, List.mem_cons_self, .str _ _⟩

/-- A header that is added behind that of the block. -/
def addsHeader : FastUse := .header (.addHeader (CStr.ofString "a") (some (CStr.ofString "b")))

/-- An earlier use with another id and with a body. -/
def usesBody (body : CStr) : List FastUse :=
  [.setId 5, .fast (.body (textAt body) body.bytes.length)]

/-- What two histories leave that both add the header, one behind an earlier body. -/
theorem exists_addsHeader :
    (∃ p, (∀ fuel, headerAndBody.eventAfter fuel [[addsHeader]] = .ok p) ∧
      p.payload = fastEventCreate headerAndBody.toFastLayout ∧
      p.event.Added 1 [(CStr.ofString "a", CStr.ofString "b")]) ∧
    ∃ p, (∀ fuel, headerAndBody.eventAfter fuel
        [usesBody (CStr.ofString "hi"), [addsHeader]] = .ok p) ∧
      p.payload = (fastEventCreate headerAndBody.toFastLayout).write headerAndBody.bodyAt
        (CStr.ofString "hi").bytes ∧
      p.event.Added 1 [(CStr.ofString "a", CStr.ofString "b")] := by
  constructor
  · refine ⟨_, fun _ => rfl, rfl, [(1, ⟨CStr.ofString "a", some (CStr.ofString "b"), none⟩)], ?_⟩
    exact ⟨⟨rfl, rfl, rfl⟩, rfl⟩
  · refine ⟨_, fun _ => rfl, rfl, [(1, ⟨CStr.ofString "a", some (CStr.ofString "b"), none⟩)], ?_⟩
    exact ⟨⟨rfl, rfl, rfl⟩, rfl⟩

/-- The body is longer than the earlier one, both histories added the same header, and the use sets
the id. -/
theorem noLeak_longer :
    headerAndBody.NoLeak [[addsHeader]] [usesBody (CStr.ofString "hi"), [addsHeader]]
      ([setsType, .setId 7] ++
        .fast (.body (textAt (CStr.ofString "hello")) (CStr.ofString "hello").bytes.length) :: [])
      (CStr.ofString "hello") := by
  obtain ⟨hcalls, hset⟩ := setsType_headerAndBody
  obtain ⟨⟨p, hp, hpayload, hadded⟩, p', hp', hpayload', hadded'⟩ := exists_addsHeader
  have hvalid : (0 : ℤ) ≤ 7 ∧ (7 : ℤ) < EVENT_ID_LIMIT := by decide
  refine (noLeak_iff ⟨0, fun k _ => hp k⟩ ⟨0, fun k _ => hp' k⟩ (by decide) (by decide) hcalls
    hset).mpr ⟨?_, ?_, rfl, hvalid, _, hadded, hadded'⟩
  · rw [hpayload]
    exact fastEventCreate_headerAndBody (by decide)
  · rw [hpayload']
    exact (Mem.write_of_notMem (by decide)).trans (fastEventCreate_headerAndBody (by decide))

/-- A body that is shorter goes on with the rest of the earlier one. -/
theorem body_leaks :
    ¬ headerAndBody.NoLeak [] [usesBody (CStr.ofString "hello")]
      ([setsType, .setId 7] ++
        .fast (.body (textAt (CStr.ofString "hi")) (CStr.ofString "hi").bytes.length) :: [])
      (CStr.ofString "hi") := by
  intro h
  obtain ⟨hcalls, hset⟩ := setsType_headerAndBody
  obtain ⟨-, hnul⟩ := h.nul ⟨0, fun _ _ => rfl⟩ ⟨0, fun _ _ => rfl⟩ (by decide) (by decide) hcalls
    hset
  -- the byte behind the new body is one of the earlier body
  exact absurd hnul (by decide)

end FastBodyLayout
