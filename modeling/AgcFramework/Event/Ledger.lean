import AgcFramework.Event.Heap
import AgcFramework.Lib.Chain

/-!
# The allocations of the events

An event owns its record, its body and the nodes of its headers with their names and values. A call
on an event allocates and releases for that event only, and writes only to what that event has
allocated, so that each event can be looked at by itself.

## Main definitions

* `Owned h i l`: the live allocations of the event `i` are those of the list
* `Step i h h'`: what may be done for the event `i`
* `IsEvent h i ep b names`: the event `i` is at `ep`, well linked, and owns what it reaches
* `Op.Admissible`: a call on an event that is there, which adds no name a second time
* `Inv`: every event is as the calls so far have left it

## Main results

* `IsEvent.addHeader`, …, `IsEvent.destroy`: what each function does to an event
* `Inv.step`, `inv_run`: one call and a run of calls
* `event_allocations_released`: releases happen once and by the owner, and the record of an event is
  never released
-/

namespace EventHeap

open Exec Ledger Chain

/-! ## What an event owns -/

/-- The live allocations of the event `i` are those of the list. No address was handed out twice,
and none that is still to come. -/
structure Owned (h : Heap) (i : ℕ) (l : List Ptr) : Prop where
  ledger : Ledger.Owns (fun x => x.1 = i) h.log (l.map (Prod.mk i))
  fresh : ∀ x, .alloc x ∈ h.log → x.2 < h.brk
  unique : ∀ j k p, .alloc (j, p) ∈ h.log → .alloc (k, p) ∈ h.log → j = k

variable {h h' h'' : Heap} {i j : ℕ} {l l' : List Ptr} {p : Ptr}

theorem Owned.perm (ho : Owned h i l) (hl : l.Perm l') : Owned h i l' :=
  ⟨ho.ledger.perm (hl.map _), ho.fresh, ho.unique⟩

theorem Owned.nodup (ho : Owned h i l) : l.Nodup := ho.ledger.nodup.of_map _

theorem Owned.alloc_mem (ho : Owned h i l) (hp : p ∈ l) : .alloc (i, p) ∈ h.log :=
  (ho.ledger.live_of_mem (List.mem_map_of_mem hp)).1

theorem Owned.lt_brk (ho : Owned h i l) (hp : p ∈ l) : p < h.brk := ho.fresh _ (ho.alloc_mem hp)

theorem Owned.of_log (ho : Owned h i l) (hlog : h'.log = h.log) (hbrk : h'.brk = h.brk) :
    Owned h' i l := by
  refine ⟨hlog ▸ ho.ledger, fun x hx => ?_, fun j k p hj hk => ho.unique j k p ?_ ?_⟩
  · rw [hbrk]
    exact ho.fresh x (hlog ▸ hx)
  · exact hlog ▸ hj
  · exact hlog ▸ hk

/-- An allocation for the event. -/
theorem Owned.malloc (ho : Owned h i l) (hlog : h'.log = h.log ++ [Act.alloc (i, h.brk)])
    (hbrk : h'.brk = h.brk + 1) : Owned h' i (h.brk :: l) := by
  have hnew : ∀ j, .alloc (j, h.brk) ∉ h.log := by
    intro j hj
    exact absurd (ho.fresh _ hj) (lt_irrefl _)
  refine ⟨?_, fun x hx => ?_, fun j k p hj hk => ?_⟩
  · rw [hlog]
    exact ho.ledger.alloc rfl (hnew i)
  · rw [hlog, List.mem_append, List.mem_singleton] at hx
    rw [hbrk]
    rcases hx with hx | hx
    · exact (ho.fresh x hx).trans (Nat.lt_succ_self _)
    · rw [Act.alloc.inj hx]
      exact Nat.lt_succ_self _
  · rw [hlog, List.mem_append, List.mem_singleton] at hj hk
    rcases hj with hj | hj
    · rcases hk with hk | hk
      · exact ho.unique j k p hj hk
      · obtain ⟨rfl, rfl⟩ := Prod.mk.inj (Act.alloc.inj hk)
        exact absurd hj (hnew j)
    · obtain ⟨rfl, rfl⟩ := Prod.mk.inj (Act.alloc.inj hj)
      rcases hk with hk | hk
      · exact absurd hk (hnew k)
      · exact (Prod.mk.inj (Act.alloc.inj hk)).1.symm

/-- A release of one of its allocations. -/
theorem Owned.free (ho : Owned h i (p :: l)) (hlog : h'.log = h.log ++ [Act.free (i, p)])
    (hbrk : h'.brk = h.brk) : Owned h' i l := by
  refine ⟨?_, fun x hx => ?_, fun j k q hj hk => ho.unique j k q ?_ ?_⟩
  · rw [hlog]
    exact ho.ledger.free
  · rw [hbrk]
    exact ho.fresh x (by simpa [hlog] using hx)
  · simpa [hlog] using hj
  · simpa [hlog] using hk

/-! ## What a call for an event leaves alone -/

/-- The heaps agree at the address. -/
def Same (h h' : Heap) (p : Ptr) : Prop :=
  h'.events p = h.events p ∧ h'.headers p = h.headers p ∧ h'.texts p = h.texts p

theorem Same.refl (h : Heap) (p : Ptr) : Same h h p := ⟨rfl, rfl, rfl⟩

theorem Same.trans (hs : Same h h' p) (hs' : Same h' h'' p) : Same h h'' p :=
  ⟨hs'.1.trans hs.1, hs'.2.1.trans hs.2.1, hs'.2.2.trans hs.2.2⟩

/-- What may be done for the event `i`: it writes to what it allocated itself, and its allocations
and releases are noted as its own. -/
structure Step (i : ℕ) (h h' : Heap) : Prop where
  brk : h.brk ≤ h'.brk
  same : ∀ p, p < h.brk → .alloc (i, p) ∉ h.log → Same h h' p
  log : ∃ acts, h'.log = h.log ++ acts ∧
    ∀ a ∈ acts, a.res.1 = i ∧ ∀ p, a = .alloc (i, p) → h.brk ≤ p

theorem Step.refl (i : ℕ) (h : Heap) : Step i h h :=
  ⟨le_rfl, fun p _ _ => Same.refl h p, [], by simp, by simp⟩

theorem Step.trans (hs : Step i h h') (hs' : Step i h' h'') : Step i h h'' := by
  obtain ⟨acts, hacts, htag⟩ := hs.log
  obtain ⟨acts', hacts', htag'⟩ := hs'.log
  refine ⟨hs.brk.trans hs'.brk, fun p hp hnot => (hs.same p hp hnot).trans (hs'.same p ?_ ?_), ?_⟩
  · exact hp.trans_le hs.brk
  · -- what the first part allocated is not below the old break
    rw [hacts, List.mem_append, not_or]
    refine ⟨hnot, fun hmem => ?_⟩
    exact absurd hp ((htag _ hmem).2 p rfl).not_gt
  · refine ⟨acts ++ acts', by rw [hacts', hacts, List.append_assoc], fun a ha => ?_⟩
    rcases List.mem_append.mp ha with ha | ha
    · exact htag a ha
    · exact ⟨(htag' a ha).1, fun p hp => hs.brk.trans ((htag' a ha).2 p hp)⟩

/-- A write to one address, which the event allocated. -/
theorem Step.write (hp : .alloc (i, p) ∈ h.log) (hsame : ∀ q, q ≠ p → Same h h' q)
    (hlog : h'.log = h.log) (hbrk : h'.brk = h.brk) : Step i h h' where
  brk := hbrk.ge
  same q _ hnot := hsame q fun hqp => hnot (hqp ▸ hp)
  log := ⟨[], by simp [hlog], by simp⟩

theorem Step.malloc (hsame : ∀ q, q ≠ h.brk → Same h h' q)
    (hlog : h'.log = h.log ++ [Act.alloc (i, h.brk)]) (hbrk : h'.brk = h.brk + 1) :
    Step i h h' where
  brk := hbrk ▸ Nat.le_succ _
  same q hq _ := hsame q hq.ne
  log := by
    refine ⟨_, hlog, fun a ha => ?_⟩
    obtain rfl := List.mem_singleton.mp ha
    exact ⟨rfl, fun p hp => (Prod.mk.inj (Act.alloc.inj hp)).2.le⟩

theorem Step.free (hp : .alloc (i, p) ∈ h.log) (hsame : ∀ q, q ≠ p → Same h h' q)
    (hlog : h'.log = h.log ++ [Act.free (i, p)]) (hbrk : h'.brk = h.brk) : Step i h h' where
  brk := hbrk.ge
  same q _ hnot := hsame q fun hqp => hnot (hqp ▸ hp)
  log := by
    refine ⟨_, hlog, fun a ha => ?_⟩
    obtain rfl := List.mem_singleton.mp ha
    exact ⟨rfl, fun q hq => (by cases hq)⟩

/-- Another event owns what it owned before. -/
theorem Owned.other (ho : Owned h j l) (hs : Step i h h') (ho' : Owned h' i l') (hij : j ≠ i) :
    Owned h' j l := by
  obtain ⟨acts, hacts, htag⟩ := hs.log
  refine ⟨?_, ho'.fresh, ho'.unique⟩
  rw [hacts]
  refine ho.ledger.other (hacts ▸ ho'.ledger.sound) fun a ha hj => hij ?_
  exact hj.symm.trans (htag a ha).1

/-- Nothing of what it owns was written to. -/
theorem Owned.same_of_other (ho : Owned h j l) (hs : Step i h h') (hij : j ≠ i) (hp : p ∈ l) :
    Same h h' p :=
  hs.same p (ho.lt_brk hp) fun hi => hij (ho.unique j i p (ho.alloc_mem hp) hi)

/-! ## The shape of an event -/

/-- A node with its address. -/
abbrev Node := Ptr × HeaderRec

/-- The allocations of a node: the node, its name and its value. -/
def ptrs (x : Node) : List Ptr := x.1 :: (x.2.name.toList ++ x.2.value.toList)

/-- The allocations of an event: the record, the body and those of the nodes. -/
def footprint (ep : Ptr) (r : EventRec) (cs : List Node) : List Ptr :=
  ep :: (r.body.toList ++ cs.flatMap ptrs)

/-- The record of the event `i` is at `ep`, its chain leads through the nodes `cs`, which have these
names, and it owns all of this and the addresses `l`. -/
structure Has (h : Heap) (i : ℕ) (ep : Ptr) (r : EventRec) (cs : List Node) (names : List CStr)
    (l : List Ptr) : Prop where
  record : h.events ep = some r
  fast : r.fast = false
  chain : Segment HeaderRec.next h.headers r.headers cs none
  last : r.lastHeader = (cs.map Prod.fst).getLast?
  names : cs.map (fun x => x.2.name.bind h.texts) = names.map some
  values : ∀ x ∈ cs, (x.2.value.bind h.texts).isSome
  body : ∀ p ∈ r.body, (h.texts p).isSome
  owned : Owned h i (footprint ep r cs ++ l)

variable {ep : Ptr} {r : EventRec} {cs : List Node} {names : List CStr} {x : Node}

theorem mem_footprint_of_mem (hx : x ∈ cs) (hp : p ∈ ptrs x) : p ∈ footprint ep r cs :=
  List.mem_cons_of_mem _ (List.mem_append_right _ (List.mem_flatMap.mpr ⟨x, hx, hp⟩))

/-- The shape depends on the allocations of the event only. -/
theorem Has.congr (hh : Has h i ep r cs names l)
    (hsame : ∀ p ∈ footprint ep r cs, Same h h' p) (ho : Owned h' i (footprint ep r cs ++ l')) :
    Has h' i ep r cs names l' := by
  have htext : ∀ x ∈ cs, ∀ q ∈ x.2.name.toList ++ x.2.value.toList, h'.texts q = h.texts q :=
    fun x hx q hq => (hsame q (mem_footprint_of_mem hx (List.mem_cons_of_mem _ hq))).2.2
  have hbind : ∀ x ∈ cs, ∀ o : Option Ptr, (∀ q ∈ o, q ∈ x.2.name.toList ++ x.2.value.toList) →
      o.bind h'.texts = o.bind h.texts := by
    intro x hx o ho
    cases o with
    | none => rfl
    | some q => exact htext x hx q (ho q rfl)
  refine ⟨?_, hh.fast, hh.chain.congr fun x hx => ?_, hh.last, ?_, fun x hx => ?_,
    fun p hp => ?_, ho⟩
  · rw [(hsame ep List.mem_cons_self).1]
    exact hh.record
  · exact (hsame x.1 (mem_footprint_of_mem hx List.mem_cons_self)).2.1
  · rw [← hh.names]
    refine List.map_congr_left fun x hx => hbind x hx _ fun q hq => ?_
    exact List.mem_append_left _ (Option.mem_toList.mpr hq)
  · rw [hbind x hx _ fun q hq => List.mem_append_right _ (Option.mem_toList.mpr hq)]
    exact hh.values x hx
  · rw [(hsame p (List.mem_cons_of_mem _ (List.mem_append_left _ (Option.mem_toList.mpr hp)))).2.2]
    exact hh.body p hp

/-- Another event keeps its shape. -/
theorem Has.other (hh : Has h j ep r cs names l) (hs : Step i h h') (ho : Owned h' i l')
    (hij : j ≠ i) : Has h' j ep r cs names l :=
  hh.congr (fun _ hp => hh.owned.same_of_other hs hij (List.mem_append_left _ hp))
    (hh.owned.other hs ho hij)

theorem Has.perm (hh : Has h i ep r cs names l) (hl : l.Perm l') : Has h i ep r cs names l' :=
  hh.congr (fun p _ => Same.refl h p) (hh.owned.perm (hl.append_left _))

/-- An allocation that is not a part of the event yet. -/
theorem Has.malloc (hh : Has h i ep r cs names l) (hsame : ∀ q, q ≠ h.brk → Same h h' q)
    (hlog : h'.log = h.log ++ [Act.alloc (i, h.brk)]) (hbrk : h'.brk = h.brk + 1) :
    Has h' i ep r cs names (h.brk :: l) := by
  refine hh.congr (fun q hq => hsame q ?_) ((hh.owned.malloc hlog hbrk).perm List.perm_middle.symm)
  exact (hh.owned.lt_brk (List.mem_append_left _ hq)).ne

/-- An address that the event owns but that is not a part of it. -/
theorem Has.ne_of_mem (hh : Has h i ep r cs names l) (hp : p ∈ l) {q : Ptr}
    (hq : q ∈ footprint ep r cs) : q ≠ p := by
  rintro rfl
  exact (List.disjoint_of_nodup_append hh.owned.nodup) hq hp

/-- A release of what is not a part of the event. -/
theorem Has.free (hh : Has h i ep r cs names (p :: l)) (hsame : ∀ q, q ≠ p → Same h h' q)
    (hlog : h'.log = h.log ++ [Act.free (i, p)]) (hbrk : h'.brk = h.brk) :
    Has h' i ep r cs names l :=
  hh.congr (fun _ hq => hsame _ (hh.ne_of_mem List.mem_cons_self hq))
    ((hh.owned.perm List.perm_middle).free hlog hbrk)

/-- A write to what is not a part of the event. -/
theorem Has.write (hh : Has h i ep r cs names l) (hp : p ∈ l) (hsame : ∀ q, q ≠ p → Same h h' q)
    (hlog : h'.log = h.log) (hbrk : h'.brk = h.brk) : Has h' i ep r cs names l :=
  hh.congr (fun _ hq => hsame _ (hh.ne_of_mem hp hq)) (hh.owned.of_log hlog hbrk)

/-! ## Single allocations and releases -/

section Fields

variable (h : Heap) (ep a : Ptr) (r : EventRec) (c : HeaderRec)

@[simp] theorem setEvent_headers : (h.setEvent ep r).headers = h.headers := rfl

@[simp] theorem setEvent_texts : (h.setEvent ep r).texts = h.texts := rfl

@[simp] theorem setHeader_headers :
    (h.setHeader a c).headers = Function.update h.headers a (some c) := rfl

@[simp] theorem setHeader_texts : (h.setHeader a c).texts = h.texts := rfl

end Fields

variable {s name data : CStr} {a : Ptr} {c : HeaderRec}

theorem same_strdup {q : Ptr} (hq : q ≠ h.brk) : Same h (h.strdup i s) q :=
  ⟨rfl, rfl, Function.update_of_ne hq _ _⟩

theorem same_mallocHeader {q : Ptr} (hq : q ≠ h.brk) : Same h (h.mallocHeader i) q :=
  ⟨rfl, Function.update_of_ne hq _ _, rfl⟩

theorem same_setHeader {q : Ptr} (hq : q ≠ a) : Same h (h.setHeader a c) q :=
  ⟨rfl, Function.update_of_ne hq _ _, rfl⟩

theorem same_setEvent {q : Ptr} (hq : q ≠ ep) : Same h (h.setEvent ep r) q :=
  ⟨Function.update_of_ne hq _ _, rfl, rfl⟩

theorem same_freeText {q : Ptr} (hq : q ≠ p) : Same h (h.freeText i (some p)) q :=
  ⟨rfl, rfl, Function.update_of_ne hq _ _⟩

theorem same_freeHeader {q : Ptr} (hq : q ≠ a) : Same h (h.freeHeader i a) q :=
  ⟨rfl, Function.update_of_ne hq _ _, rfl⟩

theorem step_strdup (i : ℕ) (h : Heap) (s : CStr) : Step i h (h.strdup i s) :=
  .malloc (fun _ hq => same_strdup hq) rfl rfl

theorem step_mallocHeader (i : ℕ) (h : Heap) : Step i h (h.mallocHeader i) :=
  .malloc (fun _ hq => same_mallocHeader hq) rfl rfl

theorem step_setHeader (ha : .alloc (i, a) ∈ h.log) : Step i h (h.setHeader a c) :=
  .write ha (fun _ hq => same_setHeader hq) rfl rfl

theorem step_setEvent (hep : .alloc (i, ep) ∈ h.log) : Step i h (h.setEvent ep r) :=
  .write hep (fun _ hq => same_setEvent hq) rfl rfl

theorem Has.strdup (hh : Has h i ep r cs names l) (s : CStr) :
    Has (h.strdup i s) i ep r cs names (h.brk :: l) :=
  hh.malloc (fun _ hq => same_strdup hq) rfl rfl

theorem isSome_strdup (i : ℕ) (h : Heap) (s : CStr) : ((h.strdup i s).texts h.brk).isSome := by
  simp [Heap.strdup]

/-- A text that may be null is released. -/
theorem Owned.freeText {o : Option Ptr} (ho : Owned h i (o.toList ++ l)) :
    Owned (h.freeText i o) i l ∧ Step i h (h.freeText i o) := by
  cases o with
  | none => exact ⟨ho, Step.refl i h⟩
  | some p =>
    refine ⟨ho.free rfl rfl, .free ?_ (fun _ hq => same_freeText hq) rfl rfl⟩
    exact ho.alloc_mem List.mem_cons_self

theorem Owned.freeHeader (ho : Owned h i (a :: l)) :
    Owned (h.freeHeader i a) i l ∧ Step i h (h.freeHeader i a) :=
  ⟨ho.free rfl rfl,
    .free (ho.alloc_mem List.mem_cons_self) (fun _ hq => same_freeHeader hq) rfl rfl⟩

/-- A node is released with its texts, and nothing else is written to. -/
theorem Owned.freeNode (ho : Owned h i (ptrs (a, c) ++ l)) :
    Owned (freeNode i h a c) i l ∧ Step i h (freeNode i h a c) := by
  have hperm : (ptrs (a, c) ++ l).Perm (c.name.toList ++ (c.value.toList ++ (a :: l))) := by
    simp only [ptrs, List.cons_append, List.append_assoc]
    rw [← List.append_assoc, ← List.append_assoc]
    exact List.perm_middle.symm
  obtain ⟨ho₁, hs₁⟩ := (ho.perm hperm).freeText
  obtain ⟨ho₂, hs₂⟩ := ho₁.freeText
  obtain ⟨ho₃, hs₃⟩ := ho₂.freeHeader
  exact ⟨ho₃, (hs₁.trans hs₂).trans hs₃⟩

theorem same_freeText_of_notMem {o : Option Ptr} {q : Ptr} (hq : q ∉ o.toList) :
    Same h (h.freeText i o) q := by
  cases o with
  | none => exact Same.refl h q
  | some p => exact same_freeText (by simpa using hq)

theorem freeText_events (i : ℕ) (h : Heap) (o : Option Ptr) :
    (h.freeText i o).events = h.events := by
  cases o with
  | none => rfl
  | some p => rfl

theorem freeNode_events (i : ℕ) (h : Heap) (a : Ptr) (c : HeaderRec) :
    (freeNode i h a c).events = h.events := by
  change ((h.freeText i c.name).freeText i c.value).events = h.events
  rw [freeText_events, freeText_events]

theorem same_freeNode {q : Ptr} (hq : q ∉ ptrs (a, c)) : Same h (freeNode i h a c) q := by
  simp only [ptrs, List.mem_cons, List.mem_append, not_or] at hq
  obtain ⟨ha, hname, hvalue⟩ := hq
  exact ((same_freeText_of_notMem hname).trans (same_freeText_of_notMem hvalue)).trans
    (same_freeHeader ha)

theorem Has.freeNode (hh : Has h i ep r cs names (ptrs (a, c) ++ l)) :
    Has (freeNode i h a c) i ep r cs names l ∧ Step i h (freeNode i h a c) := by
  have hperm : (footprint ep r cs ++ (ptrs (a, c) ++ l)).Perm
      (ptrs (a, c) ++ (footprint ep r cs ++ l)) := by
    rw [← List.append_assoc, ← List.append_assoc]
    exact List.perm_append_comm.append_right l
  obtain ⟨ho, hs⟩ := (hh.owned.perm hperm).freeNode
  refine ⟨hh.congr (fun q hq => same_freeNode fun hmem => ?_) ho, hs⟩
  exact hh.ne_of_mem (List.mem_append_left _ hmem) hq rfl

/-! ## Adding -/

theorem event_eq {ep : Ptr} (he : h.events ep = some r) : h.event ep = .ok r := by
  rw [Heap.event, he]

theorem header_eq (ha : h.headers a = some c) : h.header a = .ok c := by
  rw [Heap.header, ha]

theorem text_eq {o : Option Ptr} (ho : o.bind h.texts = some s) : h.text o = .ok s := by
  rw [Heap.text, ho]

/-- A node that is not linked yet: it stands at `a`, and its texts are there. -/
structure Loose (h : Heap) (a : Ptr) (c : HeaderRec) (name : CStr) : Prop where
  node : h.headers a = some c
  next : c.next = none
  name : c.name.bind h.texts = some name
  value : (c.value.bind h.texts).isSome

/-- A new node with a value, before it is linked. -/
theorem Has.newHeader (hh : Has h i ep r cs names (p :: l)) (hp : (h.texts p).isSome)
    (name : CStr) :
    ∃ h' c, setValue (newHeader i h name) h.brk p = .ok h' ∧ Step i h h' ∧
      Loose h' h.brk c name ∧ Has h' i ep r cs names (ptrs (h.brk, c) ++ l) := by
  let c : HeaderRec := ⟨some (h.brk + 1), some p, none⟩
  let h₁ := (h.mallocHeader i).strdup i name
  have hpb : p < h.brk := hh.owned.lt_brk (by simp)
  have hh₁ : Has h₁ i ep r cs names ((h.brk + 1) :: h.brk :: p :: l) :=
    (hh.malloc (fun _ hq => same_mallocHeader hq) rfl rfl).strdup name
  have hs₁ : Step i h h₁ := (step_mallocHeader i h).trans (step_strdup i _ name)
  have ha : h.brk ∈ (h.brk + 1) :: h.brk :: p :: l := by simp
  -- the node is not a part of the event yet, so that writing to it leaves the event alone
  have hwrite : ∀ c, Has (h₁.setHeader h.brk c) i ep r cs names ((h.brk + 1) :: h.brk :: p :: l) ∧
      Step i h (h₁.setHeader h.brk c) := by
    intro c
    refine ⟨hh₁.write ha (fun _ hq => same_setHeader hq) rfl rfl, hs₁.trans (step_setHeader ?_)⟩
    exact hh₁.owned.alloc_mem (List.mem_append_right _ ha)
  refine ⟨h₁.setHeader h.brk c, c, ?_, (hwrite c).2, ⟨?_, rfl, ?_, ?_⟩, (hwrite c).1.perm ?_⟩
  · have hload : (EventHeap.newHeader i h name).header h.brk = .ok ⟨some (h.brk + 1), none, none⟩ :=
      header_eq (Function.update_self _ _ _)
    simp only [setValue, hload, ok_bind, pure_eq_ok]
    change Except.ok ((h₁.setHeader h.brk _).setHeader h.brk c) = _
    simp only [Heap.setHeader, Function.update_idem]
  · exact Function.update_self _ _ _
  · exact Function.update_self _ _ _
  · change (Function.update h.texts (h.brk + 1) (some name) p).isSome
    rw [Function.update_of_ne (Nat.ne_of_lt (hpb.trans (Nat.lt_succ_self _)))]
    exact hp
  · exact List.Perm.swap _ _ _

/-- The record is written. -/
theorem Owned.setEvent (ho : Owned h i l) (hep : ep ∈ l) :
    Owned (h.setEvent ep r) i l ∧ Step i h (h.setEvent ep r) :=
  ⟨ho.of_log rfl rfl, step_setEvent (ho.alloc_mem hep)⟩

theorem map_fst_sublist (cs : List Node) : (cs.map Prod.fst).Sublist (cs.flatMap ptrs) := by
  induction cs with
  | nil => exact List.Sublist.refl _
  | cons x cs ih =>
    rw [List.map_cons, List.flatMap_cons]
    exact (ih.trans (List.sublist_append_right _ _)).cons_cons x.1

theorem Has.nodes_nodup (hh : Has h i ep r cs names l) : (cs.map Prod.fst).Nodup := by
  have hfoot : (footprint ep r cs).Nodup := (List.nodup_append.mp hh.owned.nodup).1
  have hnodes : (cs.flatMap ptrs).Nodup :=
    (List.nodup_append.mp (List.nodup_cons.mp hfoot).2).2.1
  exact hnodes.sublist (map_fst_sublist cs)

theorem Has.ep_mem (_ : Has h i ep r cs names l) : ep ∈ footprint ep r cs ++ l := List.mem_cons_self

/-- The first node. -/
theorem Has.linkFirst (hh : Has h i ep r [] names (ptrs (a, c) ++ l)) (hc : Loose h a c name) :
    Has ((h.setHeader a { c with next := none }).setEvent ep
      { r with headers := some a, lastHeader := some a }) i ep
      { r with headers := some a, lastHeader := some a } [(a, { c with next := none })]
      (names ++ [name]) l := by
  obtain rfl : names = [] := by simpa using hh.names
  refine ⟨Function.update_self _ _ _, hh.fast, ?_, rfl, ?_, ?_, hh.body, ?_⟩
  · exact ⟨rfl, Function.update_self _ _ _, rfl⟩
  · exact congrArg (fun o => [o]) hc.name
  · intro x hx
    obtain rfl := List.mem_singleton.mp hx
    exact hc.value
  · refine Owned.of_log (hh.owned.perm (.of_eq ?_)) rfl rfl
    simp [footprint, ptrs]

/-- A node behind another one. -/
theorem Has.linkNext {last : Ptr} {c₀ : HeaderRec}
    (hh : Has h i ep r (cs ++ [(last, c₀)]) names (ptrs (a, c) ++ l)) (hc : Loose h a c name) :
    Has ((h.setHeader last { c₀ with next := some a }).setEvent ep
      { r with lastHeader := some a }) i ep { r with lastHeader := some a }
      (cs ++ [(last, { c₀ with next := some a }), (a, c)]) (names ++ [name]) l := by
  have hnodup := hh.nodes_nodup
  rw [List.map_append, List.nodup_append] at hnodup
  have hlast : last ∉ cs.map Prod.fst := fun hmem => hnodup.2.2 last hmem last (by simp) rfl
  have ha : a ≠ last := by
    have hmem : last ∈ footprint ep r (cs ++ [(last, c₀)]) :=
      mem_footprint_of_mem (x := (last, c₀)) (by simp) List.mem_cons_self
    exact (hh.ne_of_mem (p := a) (by simp [ptrs]) hmem).symm
  refine ⟨Function.update_self _ _ _, hh.fast, ?_, ?_, ?_, ?_, hh.body, ?_⟩
  · -- the write of `next` keeps the nodes before it, and the new node ends the chain
    have hchain := hh.chain.relink hlast { c₀ with next := some a }
    have hnode : Function.update h.headers last (some { c₀ with next := some a }) a = some c := by
      rw [Function.update_of_ne ha]
      exact hc.node
    have hend : Segment HeaderRec.next
        (Function.update h.headers last (some { c₀ with next := some a })) (some a) [(a, c)] none :=
      ⟨rfl, hnode, hc.next⟩
    have := segment_append.mpr ⟨some a, hchain, hend⟩
    simpa using this
  · simp
  · have hnames := hh.names
    simp only [List.map_append, List.map_cons, List.map_nil] at hnames ⊢
    rw [← hnames]
    simpa using hc.name
  · intro x hx
    simp only [List.mem_append, List.mem_cons, List.not_mem_nil, or_false] at hx
    rcases hx with hx | rfl | rfl
    · exact hh.values x (List.mem_append_left _ hx)
    · exact hh.values (last, c₀) (by simp)
    · exact hc.value
  · refine Owned.of_log (hh.owned.perm (.of_eq ?_)) rfl rfl
    simp [footprint, ptrs]

/-- A loose node is linked behind the last one. -/
theorem Has.linkLast (hh : Has h i ep r cs names (ptrs (a, c) ++ l)) (hc : Loose h a c name) :
    ∃ h' r' cs', linkLast h ep a = .ok h' ∧ Step i h h' ∧
      Has h' i ep r' cs' (names ++ [name]) l ∧ r'.body = r.body := by
  have hsteps : ∀ {b d r'}, b ∈ footprint ep r cs ++ (ptrs (a, c) ++ l) →
      Step i h ((h.setHeader b d).setEvent ep r') := by
    intro b d r' hb
    refine (step_setHeader (hh.owned.alloc_mem hb)).trans (step_setEvent ?_)
    exact hh.owned.alloc_mem hh.ep_mem
  rcases List.eq_nil_or_concat' cs with rfl | ⟨cs, ⟨last, c₀⟩, rfl⟩
  · have hlast : r.lastHeader = none := hh.last
    refine ⟨_, _, _, ?_, hsteps (b := a) (by simp [ptrs]), hh.linkFirst hc, rfl⟩
    simp only [EventHeap.linkLast, event_eq hh.record, ok_bind, hlast, header_eq hc.node,
      pure_eq_ok]
  · have hlast : r.lastHeader = some last := by simpa using hh.last
    have hnode : h.headers last = some c₀ := hh.chain.get (x := (last, c₀)) (by simp)
    refine ⟨_, _, _, ?_, hsteps (b := last) ?_, hh.linkNext hc, rfl⟩
    · simp only [EventHeap.linkLast, event_eq hh.record, ok_bind, hlast, header_eq hnode,
        pure_eq_ok]
    · refine List.mem_append_left _ ?_
      exact mem_footprint_of_mem (x := (last, c₀)) (by simp) (by simp [ptrs])

/-- The event `i` is at `ep`, with a body at `b`, and has headers with these names, in order. -/
def IsEvent (h : Heap) (i : ℕ) (ep : Ptr) (b : Option Ptr) (names : List CStr) : Prop :=
  ∃ r cs, r.body = b ∧ Has h i ep r cs names []

variable {b : Option Ptr}

/-- A new header, with or without a look for its name. -/
theorem Has.addNocheck (hh : Has h i ep r cs names [p]) (hp : (h.texts p).isSome) (name : CStr) :
    ∃ h', agcEventBaseAddHeaderNocheck i h ep name p = .ok h' ∧ Step i h h' ∧
      IsEvent h' i ep r.body (names ++ [name]) := by
  obtain ⟨h₁, c, hnew, hs₁, hc, hh₁⟩ := hh.newHeader hp name
  obtain ⟨h₂, r', cs', hlink, hs₂, hh₂, hbody⟩ := hh₁.linkLast hc
  refine ⟨h₂, ?_, hs₁.trans hs₂, r', cs', hbody, hh₂⟩
  simp only [agcEventBaseAddHeaderNocheck, hnew, ok_bind, hlink]

/-- The lookup of a name that no header has. -/
theorem findHeader_absent {o : Option Ptr} (hchain : Segment HeaderRec.next h.headers o cs none)
    (hnames : cs.map (fun x => x.2.name.bind h.texts) = names.map some)
    (habsent : ∀ n ∈ names, ¬ n.SameName name) :
    Returns (fun fuel => findHeader h name fuel o) none := by
  induction cs generalizing o names with
  | nil =>
    obtain rfl : o = none := hchain
    exact (Returns.const none).succ fun _ => rfl
  | cons x cs ih =>
    obtain ⟨a, c⟩ := x
    obtain ⟨rfl, hc, hchain⟩ := hchain
    cases names with
    | nil => simp at hnames
    | cons n names =>
      simp only [List.map_cons, List.cons.injEq] at hnames
      have hrest := ih hchain hnames.2 fun m hm => habsent m (List.mem_cons_of_mem _ hm)
      refine hrest.succ fun fuel => ?_
      simp only [findHeader, header_eq hc, ok_bind, text_eq hnames.1,
        if_neg (habsent n List.mem_cons_self)]

/-- The two functions that add a header, on a name that is new to the second. -/
theorem IsEvent.addHeader (he : IsEvent h i ep b names) (name data : CStr) :
    ∃ h', agcEventAddHeader i h ep name (some data) = .ok (h', .success) ∧ Step i h h' ∧
      IsEvent h' i ep b (names ++ [name]) := by
  obtain ⟨r, cs, rfl, hh⟩ := he
  have htext := isSome_strdup i h data
  obtain ⟨h', hadd, hs, he'⟩ := (hh.strdup data).addNocheck htext name
  refine ⟨h', ?_, (step_strdup i h data).trans hs, he'⟩
  simp only [agcEventAddHeader, hadd, ok_bind, pure_eq_ok]

theorem IsEvent.addHeaderString (he : IsEvent h i ep b names) (data : CStr)
    (habsent : ∀ n ∈ names, ¬ n.SameName name) :
    ∃ h', Returns (fun fuel => agcEventAddHeaderString i fuel h ep name (some data))
        (h', .success) ∧
      Step i h h' ∧ IsEvent h' i ep b (names ++ [name]) := by
  obtain ⟨r, cs, rfl, hh⟩ := he
  have htext := isSome_strdup i h data
  have hh₁ := hh.strdup data
  obtain ⟨h', hadd, hs, he'⟩ := hh₁.addNocheck htext name
  have hbase : Returns (fun fuel =>
      agcEventBaseAddHeader i fuel (h.strdup i data) ep name h.brk) h' := by
    refine Returns.bind (f := fun _ => (h.strdup i data).event ep) (a := r) ?_ ?_
    · exact (Returns.const r).congr fun _ => event_eq hh₁.record
    · refine Returns.bind (findHeader_absent hh₁.chain hh₁.names habsent) ?_
      exact (Returns.const h').congr fun _ => hadd
  refine ⟨h', ?_, (step_strdup i h data).trans hs, he'⟩
  exact hbase.bind (Returns.const _)

/-! ## Removing -/

theorem perm_append_left_comm (l₁ l₂ l₃ : List Ptr) :
    (l₁ ++ (l₂ ++ l₃)).Perm (l₂ ++ (l₁ ++ l₃)) := by
  rw [← List.append_assoc, ← List.append_assoc]
  exact List.perm_append_comm.append_right l₃

/-- The first node is taken out of the chain. -/
theorem Has.unlinkFirst {post : List Node} {n : CStr} {last : Option Ptr}
    (hh : Has h i ep r ((a, c) :: post) (n :: names) l)
    (hlast : last = (post.map Prod.fst).getLast?) :
    Has (h.setEvent ep { r with headers := c.next, lastHeader := last }) i ep
      { r with headers := c.next, lastHeader := last } post names (ptrs (a, c) ++ l) := by
  obtain ⟨-, -, hpost⟩ := hh.chain
  refine ⟨Function.update_self _ _ _, hh.fast, hpost, hlast, ?_, fun x hx => ?_, hh.body, ?_⟩
  · exact (List.cons.inj hh.names).2
  · exact hh.values x (List.mem_cons_of_mem _ hx)
  · refine Owned.of_log (hh.owned.perm ?_) rfl rfl
    simp only [footprint, List.flatMap_cons, List.cons_append, List.append_assoc]
    exact List.Perm.cons _ (List.Perm.append_left _ (perm_append_left_comm _ _ _))

/-- A node behind another one is taken out of the chain. -/
theorem Has.unlinkNext {pre post : List Node} {kept rest : List CStr} {n : CStr} {b : Ptr}
    {d : HeaderRec} {last : Option Ptr}
    (hh : Has h i ep r (pre ++ (b, d) :: (a, c) :: post) (kept ++ n :: rest) l)
    (hlen : pre.length + 1 = kept.length)
    (hlast : last = ((pre ++ (b, d) :: post).map Prod.fst).getLast?) :
    Has ((h.setHeader b { d with next := c.next }).setEvent ep { r with lastHeader := last }) i ep
      { r with lastHeader := last } (pre ++ (b, { d with next := c.next }) :: post) (kept ++ rest)
      (ptrs (a, c) ++ l) := by
  have hnodup := hh.nodes_nodup
  simp only [List.map_append, List.map_cons] at hnodup
  have hb := List.nodup_middle.mp hnodup
  obtain ⟨hbpre, hbpost⟩ : b ∉ pre.map Prod.fst ∧ b ∉ a :: post.map Prod.fst := by
    have := (List.nodup_cons.mp hb).1
    rwa [List.mem_append, not_or] at this
  -- the names are those of the nodes, one for one
  have hnames : (pre ++ [(b, d)]).map (fun x => x.2.name.bind h.texts) = kept.map some ∧
      ((a, c) :: post).map (fun x => x.2.name.bind h.texts) = (n :: rest).map some := by
    refine List.append_inj ?_ (by simpa using hlen)
    rw [← List.map_append, ← List.map_append, List.append_assoc]
    exact hh.names
  refine ⟨Function.update_self _ _ _, hh.fast, ?_, ?_, ?_, fun x hx => ?_, hh.body, ?_⟩
  · exact hh.chain.splice hbpre (fun hmem => hbpost (List.mem_cons_of_mem _ hmem)) rfl
  · rw [hlast]
    simp
  · have hpost := (List.cons.inj hnames.2).2
    rw [List.map_append (f := some), ← hnames.1, ← hpost]
    simp
  · rcases List.mem_append.mp hx with hx | hx
    · exact hh.values x (List.mem_append_left _ hx)
    · rcases List.mem_cons.mp hx with rfl | hx
      · exact hh.values (b, d) (by simp)
      · exact hh.values x (by simp [hx])
  · refine Owned.of_log (hh.owned.perm ?_) rfl rfl
    simp only [footprint, List.flatMap_append, List.flatMap_cons, List.cons_append,
      List.append_assoc]
    refine List.Perm.cons _ (List.Perm.append_left _ (List.Perm.append_left _ ?_))
    exact List.Perm.append_left _ (perm_append_left_comm _ _ _)

/-- A node is taken out of the chain: its allocations are no longer a part of the event. -/
theorem Has.unlink {pre post : List Node} {kept rest : List CStr} {n : CStr}
    (hh : Has h i ep r (pre ++ (a, c) :: post) (kept ++ n :: rest) l)
    (hlen : pre.length = kept.length) :
    ∃ h' r' pre', unlinkHeader h ep (pre.map Prod.fst).getLast? a c = .ok h' ∧ Step i h h' ∧
      Has h' i ep r' (pre' ++ post) (kept ++ rest) (ptrs (a, c) ++ l) ∧
      pre'.map Prod.fst = pre.map Prod.fst := by
  obtain ⟨o, -, -, -, hpost⟩ := segment_append.mp hh.chain
  have hnodup := hh.nodes_nodup
  rw [List.map_append, List.map_cons] at hnodup
  have hout : a ∉ post.map Prod.fst := fun hmem =>
    (List.nodup_middle.mp hnodup).notMem (List.mem_append_right _ hmem)
  have hlast : (if some a = r.lastHeader ∨ c.next = none then (pre.map Prod.fst).getLast?
      else r.lastHeader) = (pre.map Prod.fst ++ post.map Prod.fst).getLast? := by
    rw [hh.last, List.map_append, List.map_cons, hpost.start_head]
    exact getLast?_remove hout
  have hep : .alloc (i, ep) ∈ h.log := hh.owned.alloc_mem hh.ep_mem
  rcases List.eq_nil_or_concat' pre with rfl | ⟨pre, ⟨b, d⟩, rfl⟩
  · -- the first node: the event itself leads past it
    obtain rfl : kept = [] := by simpa using hlen.symm
    refine ⟨_, _, [], ?_, step_setEvent hep, hh.unlinkFirst rfl, rfl⟩
    simp only [List.map_nil, List.nil_append, List.getLast?_nil] at hlast ⊢
    simp only [unlinkHeader, event_eq hh.record, ok_bind, pure_eq_ok, hlast]
  · rw [List.append_assoc, List.singleton_append] at hh
    have hb : h.headers b = some d := hh.chain.get (x := (b, d)) (by simp)
    have hmem : b ∈ footprint ep r (pre ++ (b, d) :: (a, c) :: post) ++ l :=
      List.mem_append_left _ (mem_footprint_of_mem (x := (b, d)) (by simp) (by simp [ptrs]))
    obtain ⟨last, hdef⟩ : ∃ last, last =
        ((pre ++ [(b, d)]).map Prod.fst ++ post.map Prod.fst).getLast? := ⟨_, rfl⟩
    refine ⟨(h.setHeader b { d with next := c.next }).setEvent ep { r with lastHeader := last },
      { r with lastHeader := last }, pre ++ [(b, { d with next := c.next })], ?_,
      (step_setHeader (hh.owned.alloc_mem hmem)).trans (step_setEvent hep), ?_, by simp⟩
    · have hlp : ((pre ++ [(b, d)]).map Prod.fst).getLast? = some b := by simp
      rw [hlp, ← hdef] at hlast
      rw [hlp]
      simp only [unlinkHeader, event_eq hh.record, ok_bind, header_eq hb, pure_eq_ok, hlast]
    · rw [List.append_assoc, List.singleton_append]
      refine hh.unlinkNext (by simpa using hlen) ?_
      rw [hdef]
      simp

/-- The names of the nodes that are not visited yet. -/
theorem Has.names_rest {pre post : List Node} {kept rest : List CStr}
    (hh : Has h i ep r (pre ++ post) (kept ++ rest) l) (hlen : pre.length = kept.length) :
    post.map (fun x => x.2.name.bind h.texts) = rest.map some := by
  have hnames := hh.names
  rw [List.map_append, List.map_append] at hnames
  exact (List.append_inj hnames (by simpa using hlen)).2

/-- The loop takes out the nodes with the name among those that are not visited yet, and releases
them. -/
theorem Has.delHeaderLoop {pre post : List Node} {kept rest : List CStr} {o : Option Ptr}
    (name : CStr) (hh : Has h i ep r (pre ++ post) (kept ++ rest) [])
    (hlen : pre.length = kept.length) (ho : Segment HeaderRec.next h.headers o post none) :
    ∃ h', Returns (fun fuel => delHeaderLoop i ep name fuel h (pre.map Prod.fst).getLast? o) h' ∧
      Step i h h' ∧ ∃ b, IsEvent h' i ep b (kept ++ rest.filter fun n => ¬ name.SameName n) := by
  induction post generalizing h r pre kept rest o with
  | nil =>
    obtain rfl : o = none := ho
    obtain rfl : rest = [] := by simpa using (hh.names_rest hlen).symm
    refine ⟨h, (Returns.const h).succ fun _ => rfl, Step.refl i h, r.body, r, pre, rfl, ?_⟩
    simpa using hh
  | cons x post ih =>
    obtain ⟨a, c⟩ := x
    obtain ⟨rfl, ha, hpost⟩ := ho
    have hnames := hh.names_rest hlen
    cases rest with
    | nil => simp at hnames
    | cons n rest =>
      have hn : c.name.bind h.texts = some n := (List.cons.inj hnames).1
      by_cases hname : name.SameName n
      · obtain ⟨h₁, r₁, pre₁, hunlink, hs₁, hh₁, hpre⟩ := hh.unlink hlen
        obtain ⟨hh₂, hs₂⟩ := hh₁.freeNode
        have hlen₁ : pre₁.length = kept.length := by
          have := congrArg List.length hpre
          simpa [hlen] using this
        -- the successor was read before the node was freed, and it is where the rest starts
        obtain ⟨q, -, hq⟩ := segment_append.mp hh₂.chain
        obtain rfl := hq.start_eq hpost
        obtain ⟨h', hret, hs', he'⟩ := ih hh₂ hlen₁ hq
        rw [hpre] at hret
        refine ⟨h', hret.succ fun fuel => ?_, (hs₁.trans hs₂).trans hs', ?_⟩
        · simp only [EventHeap.delHeaderLoop, header_eq ha, ok_bind, text_eq hn, if_pos hname,
            hunlink]
        · rw [List.filter_cons_of_neg (by simpa using hname)]
          exact he'
      · have hh' : Has h i ep r ((pre ++ [(a, c)]) ++ post) ((kept ++ [n]) ++ rest) [] := by
          simpa using hh
        obtain ⟨h', hret, hs', he'⟩ := ih hh' (by simp [hlen]) hpost
        have hlp : ((pre ++ [(a, c)]).map Prod.fst).getLast? = some a := by simp
        rw [hlp] at hret
        refine ⟨h', hret.succ fun fuel => ?_, hs', ?_⟩
        · simp only [EventHeap.delHeaderLoop, header_eq ha, ok_bind, text_eq hn, if_neg hname]
        · rw [List.filter_cons_of_pos (by simpa using hname)]
          simpa using he'

theorem IsEvent.delHeader (he : IsEvent h i ep b names) (name : CStr) :
    ∃ h', Returns (fun fuel => agcEventDelHeader i fuel h ep name) (h', .success) ∧ Step i h h' ∧
      ∃ b, IsEvent h' i ep b (names.filter fun n => ¬ name.SameName n) := by
  obtain ⟨r, cs, -, hh⟩ := he
  have hh₀ : Has h i ep r ([] ++ cs) ([] ++ names) [] := hh
  obtain ⟨h', hret, hs, he'⟩ := hh₀.delHeaderLoop name rfl hh.chain
  refine ⟨h', ?_, hs, he'⟩
  refine Returns.bind (f := fun _ => h.event ep) (a := r) ?_ (hret.bind (Returns.const _))
  exact (Returns.const r).congr fun _ => event_eq hh.record

/-! ## The body -/

/-- The body is taken out of the record. -/
theorem Has.clearBody (hh : Has h i ep r cs names l) :
    Has (h.setEvent ep { r with body := none }) i ep { r with body := none } cs names
      (r.body.toList ++ l) := by
  refine ⟨Function.update_self _ _ _, hh.fast, hh.chain, hh.last, hh.names, hh.values, ?_, ?_⟩
  · rintro q ⟨⟩
  · refine Owned.of_log (hh.owned.perm ?_) rfl rfl
    simp only [footprint, Option.toList_none, List.cons_append, List.append_assoc, List.nil_append]
    exact List.Perm.cons _ (perm_append_left_comm _ _ _)

/-- A text that the event owns becomes its body. -/
theorem Has.fillBody (hh : Has h i ep { r with body := none } cs names (p :: l))
    (hp : (h.texts p).isSome) :
    Has (h.setEvent ep { r with body := some p }) i ep { r with body := some p } cs names l := by
  refine ⟨Function.update_self _ _ _, hh.fast, hh.chain, hh.last, hh.names, hh.values, ?_, ?_⟩
  · rintro q ⟨⟩
    exact hp
  · refine Owned.of_log (hh.owned.perm ?_) rfl rfl
    simp only [footprint, Option.toList_none, Option.toList_some, List.cons_append, List.nil_append]
    exact List.Perm.cons _ List.perm_middle

theorem Has.freeText {o : Option Ptr} (hh : Has h i ep r cs names (o.toList ++ l)) :
    Has (h.freeText i o) i ep r cs names l := by
  cases o with
  | none => exact hh
  | some p => exact hh.free (fun _ hq => same_freeText hq) rfl rfl

theorem setEvent_idem (h : Heap) (ep : Ptr) (r r' : EventRec) :
    (h.setEvent ep r).setEvent ep r' = h.setEvent ep r' := by
  simp [Heap.setEvent]

theorem setEvent_freeText (h : Heap) (ep : Ptr) (r : EventRec) (o : Option Ptr) :
    (h.setEvent ep r).freeText i o = (h.freeText i o).setEvent ep r := by
  cases o with
  | none => rfl
  | some p => rfl

theorem Has.owned_body (hh : Has h i ep r cs names l) :
    Owned h i (r.body.toList ++ (ep :: (cs.flatMap ptrs ++ l))) := by
  refine hh.owned.perm ?_
  simp only [footprint, List.cons_append, List.append_assoc]
  exact List.perm_middle.symm

theorem IsEvent.setBody (he : IsEvent h i ep b names) (body : CStr) :
    ∃ h', agcEventSetBody i h ep (some body) = .ok (h', .success) ∧ Step i h h' ∧
      ∃ b, IsEvent h' i ep b names := by
  obtain ⟨r, cs, rfl, hh⟩ := he
  let h₁ := h.freeText i r.body
  let r' : EventRec := { r with body := some h₁.brk }
  -- the record is written once, at the end; in between it points to what is released
  have hh₁ : Has ((h₁.strdup i body).setEvent ep r') i ep r' cs names [] := by
    have hfill := (hh.clearBody.freeText.strdup body).fillBody (isSome_strdup i _ body)
    rw [setEvent_freeText] at hfill
    exact setEvent_idem (h₁.strdup i body) ep _ r' ▸ hfill
  have hs₁ : Step i h h₁ := hh.owned_body.freeText.2
  refine ⟨(h₁.strdup i body).setEvent ep r', ?_, ?_, some h₁.brk, r', cs, rfl, hh₁⟩
  · simp only [agcEventSetBody, event_eq hh.record, ok_bind, pure_eq_ok]
    rfl
  · refine (hs₁.trans (step_strdup i h₁ body)).trans (step_setEvent ?_)
    exact hh₁.owned.alloc_mem hh₁.ep_mem

theorem IsEvent.addBody (he : IsEvent h i ep b names) (data : CStr) :
    ∃ h', agcEventAddBody i h ep (some data) = .ok (h', .success) ∧ Step i h h' ∧
      ∃ b, IsEvent h' i ep b names := by
  obtain ⟨r, cs, rfl, hh⟩ := he
  let h₁ := h.strdup i data
  let r' : EventRec := { r with body := some h.brk }
  have hh₁ : Has h₁ i ep r cs names [h.brk] := hh.strdup data
  have hs₂ : Step i h₁ (h₁.freeText i r.body) := hh₁.owned_body.freeText.2
  have hh₂ : Has ((h₁.freeText i r.body).setEvent ep r') i ep r' cs names [] := by
    have hclear := hh₁.clearBody.freeText
    rw [setEvent_freeText] at hclear
    have hnot : h.brk ∉ r.body.toList := fun hmem =>
      hh₁.ne_of_mem (p := h.brk) (by simp) (by simp [footprint, hmem]) rfl
    have htext : ((h₁.freeText i r.body).texts h.brk).isSome := by
      rw [(same_freeText_of_notMem hnot).2.2]
      exact isSome_strdup i h data
    exact setEvent_idem (h₁.freeText i r.body) ep _ r' ▸ hclear.fillBody htext
  refine ⟨(h₁.freeText i r.body).setEvent ep r', ?_, ?_, some h.brk, r', cs, rfl, hh₂⟩
  · have hload : (h.strdup i data).event ep = .ok r := event_eq hh₁.record
    simp only [agcEventAddBody, hload, ok_bind, pure_eq_ok]
    rfl
  · refine ((step_strdup i h data).trans hs₂).trans (step_setEvent ?_)
    exact hh₂.owned.alloc_mem hh₂.ep_mem

/-! ## Making and destroying -/

/-- A new event. -/
theorem isEvent_create (ho : Owned h i []) (eventId : ℤ) (sourceId : UInt32) :
    IsEvent (agcEventCreate i h eventId sourceId) i h.brk none [] ∧
      Step i h (agcEventCreate i h eventId sourceId) := by
  have hsame : ∀ q, q ≠ h.brk → Same h (agcEventCreate i h eventId sourceId) q :=
    fun q hq => ⟨Function.update_of_ne hq _ _, rfl, rfl⟩
  refine ⟨⟨_, [], rfl, Function.update_self _ _ _, rfl, rfl, rfl, rfl, by simp, ?_, ?_⟩, ?_⟩
  · rintro q ⟨⟩
  · exact ho.malloc rfl rfl
  · exact .malloc hsame rfl rfl

theorem isEvent_createCallback (ho : Owned h i []) (sourceId : UInt32) (data callback : ℕ) :
    ∃ h', agcEventCreateCallback i h sourceId data callback = .ok h' ∧ Step i h h' ∧
      IsEvent h' i h.brk none [] := by
  obtain ⟨⟨r, cs, hbody, hh⟩, hs⟩ := isEvent_create ho 0 sourceId
  refine ⟨_, ?_, hs.trans (step_setEvent ?_), { r with callBack := some (callback, data) }, cs,
    hbody, Function.update_self _ _ _, hh.fast, hh.chain, hh.last, hh.names, hh.values, hh.body, ?_⟩
  · simp only [agcEventCreateCallback, event_eq hh.record, ok_bind, pure_eq_ok]
  · exact hh.owned.alloc_mem hh.ep_mem
  · exact hh.owned.of_log rfl rfl

/-- The loop releases every node with its texts. -/
theorem Owned.destroyLoop {o : Option Ptr} (ho : Owned h i (cs.flatMap ptrs ++ l))
    (hchain : Segment HeaderRec.next h.headers o cs none) :
    ∃ h', Returns (fun fuel => destroyLoop i fuel h o) h' ∧ Step i h h' ∧ Owned h' i l ∧
      h'.events = h.events := by
  induction cs generalizing h o with
  | nil =>
    obtain rfl : o = none := hchain
    exact ⟨h, (Returns.const h).succ fun _ => rfl, Step.refl i h, ho, rfl⟩
  | cons x cs ih =>
    obtain ⟨a, c⟩ := x
    obtain ⟨rfl, ha, hchain⟩ := hchain
    rw [List.flatMap_cons, List.append_assoc] at ho
    obtain ⟨ho₁, hs₁⟩ := ho.freeNode
    -- the rest of the chain does not go through what was released
    have hchain₁ : Segment HeaderRec.next (EventHeap.freeNode i h a c).headers c.next cs none := by
      refine hchain.congr fun y hy => (same_freeNode (i := i) fun hmem => ?_).2.1
      refine List.disjoint_of_nodup_append ho.nodup hmem (List.mem_append_left _ ?_)
      exact List.mem_flatMap.mpr ⟨y, hy, List.mem_cons_self⟩
    obtain ⟨h', hret, hs', ho', hevents⟩ := ih ho₁ hchain₁
    refine ⟨h', hret.succ fun fuel => ?_, hs₁.trans hs', ho', hevents.trans (freeNode_events ..)⟩
    simp only [EventHeap.destroyLoop, header_eq ha, ok_bind]

/-- What is left of a destroyed event is its record. -/
def Gone (h : Heap) (i : ℕ) : Prop := ∃ ep, Owned h i [ep] ∧ (h.events ep).isSome

theorem IsEvent.destroy (he : IsEvent h i ep b names) :
    ∃ h', Returns (fun fuel => agcEventDestroy i fuel h ep) h' ∧ Step i h h' ∧ Gone h' i := by
  obtain ⟨r, cs, -, hh⟩ := he
  have ho : Owned h i (cs.flatMap ptrs ++ (r.body.toList ++ [ep])) := by
    refine hh.owned.perm ?_
    simp only [footprint, List.append_nil]
    refine (List.perm_append_singleton _ _).symm.trans ?_
    rw [List.append_assoc]
    exact perm_append_left_comm _ _ _
  obtain ⟨h₁, hret, hs₁, ho₁, hevents⟩ := ho.destroyLoop hh.chain
  obtain ⟨ho₂, hs₂⟩ := ho₁.freeText
  refine ⟨_, ?_, hs₁.trans hs₂, ep, ho₂, ?_⟩
  · refine Returns.bind (f := fun _ => h.event ep) (a := r) ?_ (hret.bind (Returns.const _))
    exact (Returns.const r).congr fun _ => event_eq hh.record
  · rw [freeText_events, hevents, hh.record]
    rfl

/-- A delivered event is destroyed: it is not a fast one. -/
theorem IsEvent.deliver (he : IsEvent h i ep b names) :
    ∃ h', Returns (fun fuel => agcEventDeliver i fuel h ep) h' ∧ Step i h h' ∧ Gone h' i := by
  obtain ⟨h', hret, hs, ho⟩ := he.destroy
  obtain ⟨r, cs, -, hh⟩ := he
  refine ⟨h', ?_, hs, ho⟩
  refine Returns.bind (f := fun _ => h.event ep) (a := r) ?_ ?_
  · exact (Returns.const r).congr fun _ => event_eq hh.record
  · refine hret.congr fun fuel => ?_
    rw [hh.fast]
    rfl

/-! ## Copying -/

theorem IsEvent.exists_owned (he : IsEvent h i ep b names) : ∃ l, Owned h i l := by
  obtain ⟨r, cs, -, hh⟩ := he
  exact ⟨_, hh.owned⟩

/-- The loop copies the headers that are not visited yet. The copies are new names to the clone, and
the original is left alone. -/
theorem Has.dupHeaders {todup : Ptr} {pre post : List Node} {done rest : List CStr} {o : Option Ptr}
    (hh : Has h j todup r (pre ++ post) (done ++ rest) []) (hij : j ≠ i)
    (hlen : pre.length = done.length) (ho : Segment HeaderRec.next h.headers o post none)
    (he : IsEvent h i ep none done)
    (hdistinct : (done ++ rest).Pairwise fun m n => ¬ m.SameName n) :
    ∃ h', Returns (fun fuel => dupHeaders i ep fuel h o) h' ∧ Step i h h' ∧
      IsEvent h' i ep none (done ++ rest) := by
  induction post generalizing h pre done rest o with
  | nil =>
    obtain rfl : o = none := ho
    obtain rfl : rest = [] := by simpa using (hh.names_rest hlen).symm
    refine ⟨h, (Returns.const h).succ fun _ => rfl, Step.refl i h, ?_⟩
    simpa using he
  | cons x post ih =>
    obtain ⟨a, c⟩ := x
    obtain ⟨rfl, ha, hpost⟩ := ho
    have hnames := hh.names_rest hlen
    cases rest with
    | nil => simp at hnames
    | cons n rest =>
      have hn : c.name.bind h.texts = some n := (List.cons.inj hnames).1
      have hvalue : ∃ s, valueText h c.value = .ok (some s) := by
        have hsome := hh.values (a, c) (by simp)
        cases hv : c.value with
        | none => simp [hv] at hsome
        | some q =>
          simp only [hv, Option.bind_some] at hsome
          obtain ⟨s, hs⟩ := Option.isSome_iff_exists.mp hsome
          refine ⟨s, ?_⟩
          simp only [valueText, text_eq (o := some q) hs, ok_bind, pure_eq_ok]
      obtain ⟨s, hs⟩ := hvalue
      -- the clone has the names that are copied so far, and this is another one
      have habsent : ∀ m ∈ done, ¬ m.SameName n := fun m hm =>
        (List.pairwise_append.mp hdistinct).2.2 m hm n List.mem_cons_self
      obtain ⟨h₁, hret₁, hs₁, he₁⟩ := he.addHeaderString s habsent
      obtain ⟨l₁, ho₁⟩ := he₁.exists_owned
      -- the original is not touched by a step of the clone
      have hh₁ := hh.other hs₁ ho₁ hij
      have ha₁ : h₁.headers a = some c := hh₁.chain.get (x := (a, c)) (by simp)
      have hsplit : Has h₁ j todup r ((pre ++ [(a, c)]) ++ post) ((done ++ [n]) ++ rest) [] := by
        simpa using hh₁
      obtain ⟨q, -, hq⟩ := segment_append.mp hsplit.chain
      obtain rfl := hq.start_eq hpost
      obtain ⟨h', hret, hs', he'⟩ := ih hsplit (by simp [hlen]) hq he₁ (by simpa using hdistinct)
      have hloop : Returns (fun fuel => do
          let r ← agcEventAddHeaderString i fuel h ep n (some s)
          let c ← r.1.header a
          EventHeap.dupHeaders i ep fuel r.1 c.next) h' := by
        refine hret₁.bind ?_
        simp only [header_eq ha₁, ok_bind]
        exact hret
      refine ⟨h', hloop.succ fun fuel => ?_, hs₁.trans hs', by simpa using he'⟩
      simp only [EventHeap.dupHeaders, header_eq ha, ok_bind, text_eq hn, hs]

/-- The body is copied into a clone, which has none yet. -/
theorem IsEvent.dupBody {o : Option Ptr} (he : IsEvent h i ep none names)
    (ho : ∀ p ∈ o, (h.texts p).isSome) :
    ∃ h', dupBody i h ep o = .ok h' ∧ Step i h h' ∧ ∃ b, IsEvent h' i ep b names := by
  cases o with
  | none => exact ⟨h, rfl, Step.refl i h, none, he⟩
  | some p =>
    obtain ⟨r, cs, hbody, hh⟩ := he
    obtain ⟨s, hs⟩ := Option.isSome_iff_exists.mp (ho p rfl)
    have hr : { r with body := none } = r := by rw [← hbody]
    have hempty : Has (h.strdup i s) i ep { r with body := none } cs names [h.brk] :=
      hr.symm ▸ hh.strdup s
    have hh₁ := hempty.fillBody (isSome_strdup i h s)
    refine ⟨_, ?_, (step_strdup i h s).trans (step_setEvent ?_), some h.brk, _, cs, rfl, hh₁⟩
    · simp only [EventHeap.dupBody, text_eq (o := some p) hs, event_eq hh.record, ok_bind,
        pure_eq_ok]
    · exact (hh.strdup s).owned.alloc_mem (hh.strdup s).ep_mem

/-- A clone of an event without repeated names. -/
theorem IsEvent.dup {todup : Ptr} (he : IsEvent h j todup b names) (ho : Owned h i []) (hij : j ≠ i)
    (hdistinct : names.Pairwise fun m n => ¬ m.SameName n) :
    ∃ h', Returns (fun fuel => agcEventDup i fuel h todup) h' ∧ Step i h h' ∧
      ∃ b, IsEvent h' i h.brk b names := by
  obtain ⟨r, cs, rfl, hh⟩ := he
  obtain ⟨he₁, hs₁⟩ := isEvent_create ho r.eventId r.sourceId
  obtain ⟨l₁, ho₁⟩ := he₁.exists_owned
  have hh₁ : Has (agcEventCreate i h r.eventId r.sourceId) j todup r ([] ++ cs) ([] ++ names) [] :=
    hh.other hs₁ ho₁ hij
  obtain ⟨h₂, hret₂, hs₂, he₂⟩ := hh₁.dupHeaders hij rfl hh₁.chain he₁ hdistinct
  obtain ⟨l₂, ho₂⟩ := he₂.exists_owned
  have hh₂ := hh₁.other hs₂ ho₂ hij
  obtain ⟨h₃, hret₃, hs₃, he₃⟩ := he₂.dupBody hh₂.body
  refine ⟨h₃, ?_, (hs₁.trans hs₂).trans hs₃, he₃⟩
  refine Returns.bind (f := fun _ => h.event todup) (a := r) ?_ (hret₂.bind ?_)
  · exact (Returns.const r).congr fun _ => event_eq hh.record
  · exact (Returns.const h₃).congr fun _ => hret₃

/-! ## Runs -/

/-- The names of the headers of each event, and none for an event that was destroyed. -/
abbrev Names := List (Option (List CStr))

/-- What a call is to do to the names. -/
def Op.apply (A : Names) : Op → Names
  | .create _ _ | .createCallback _ _ _ => A ++ [some []]
  | .addHeader i name (some _) | .addHeaderString i name (some _) =>
    A.modify i (Option.map (· ++ [name]))
  | .delHeader i name => A.modify i (Option.map (List.filter fun n => ¬ name.SameName n))
  | .dup i => A ++ [(A[i]?).join]
  | .destroy i | .deliver i => A.set i none
  | .addHeader _ _ none | .addHeaderString _ _ none | .setBody _ _ | .addBody _ _ => A

/-- A call on an event that is there, which adds no name with a look that the event has already, and
clones no event with a repeated name. An event that was destroyed may be destroyed again. -/
def Op.Admissible (A : Names) : Op → Prop
  | .create _ _ | .createCallback _ _ _ => True
  | .addHeader i _ _ | .delHeader i _ | .setBody i _ | .addBody i _ | .deliver i =>
    ∃ names, A[i]? = some (some names)
  | .addHeaderString i name data =>
    ∃ names, A[i]? = some (some names) ∧ (data.isSome → ∀ n ∈ names, ¬ n.SameName name)
  | .dup i => ∃ names, A[i]? = some (some names) ∧ names.Pairwise fun m n => ¬ m.SameName n
  | .destroy i => i < A.length

/-- What there is of an event, by the caller's pointer to it and the names of its headers. -/
def Slot (h : Heap) (i : ℕ) : Option Ptr → Option (List CStr) → Prop
  | some ep, some names => ∃ b, IsEvent h i ep b names
  | none, none => Gone h i
  | _, _ => False

/-- The events are as the names say. -/
structure Inv (w : World) (A : Names) : Prop where
  length : A.length = w.events.length
  slot : ∀ i o ns, w.events[i]? = some o → A[i]? = some ns → Slot w.heap i o ns
  rest : ∀ i, w.events.length ≤ i → Owned w.heap i []

variable {w : World} {A : Names} {ns : Option (List CStr)} {o : Option Ptr}

theorem Slot.exists_owned (hslot : Slot h i o ns) : ∃ l, Owned h i l := by
  match o, ns with
  | some ep, some names =>
    obtain ⟨b, he⟩ := hslot
    exact he.exists_owned
  | none, none =>
    obtain ⟨ep, ho, -⟩ := hslot
    exact ⟨_, ho⟩

/-- A call for another event leaves what there is of this one. -/
theorem Slot.other (hslot : Slot h j o ns) (hs : Step i h h') (ho : Owned h' i l) (hij : j ≠ i) :
    Slot h' j o ns := by
  match o, ns with
  | some ep, some names =>
    obtain ⟨b, r, cs, hb, hh⟩ := hslot
    exact ⟨b, r, cs, hb, hh.other hs ho hij⟩
  | none, none =>
    obtain ⟨ep, hown, hsome⟩ := hslot
    refine ⟨ep, hown.other hs ho hij, ?_⟩
    rw [(hown.same_of_other hs hij List.mem_cons_self).1]
    exact hsome

/-- A call for an event that was made before. -/
theorem Inv.set (hinv : Inv w A) (hi : i < w.events.length) (hs : Step i w.heap h')
    (hslot : Slot h' i o ns) :
    Inv { heap := h', events := w.events.set i o } (A.set i ns) := by
  obtain ⟨l, ho⟩ := hslot.exists_owned
  refine ⟨by simpa using hinv.length, fun j p ms hp hms => ?_, fun j hj => ?_⟩
  · by_cases hij : j = i
    · subst hij
      rw [List.getElem?_set_self hi] at hp
      rw [List.getElem?_set_self (hinv.length ▸ hi)] at hms
      cases hp
      cases hms
      exact hslot
    · rw [List.getElem?_set_ne (Ne.symm hij)] at hp hms
      exact (hinv.slot j p ms hp hms).other hs ho hij
  · simp only [List.length_set] at hj
    exact (hinv.rest j hj).other hs ho (hi.trans_le hj).ne'

/-- A call that makes an event. -/
theorem Inv.snoc (hinv : Inv w A) (hs : Step w.events.length w.heap h')
    (hslot : Slot h' w.events.length o ns) :
    Inv { heap := h', events := w.events ++ [o] } (A ++ [ns]) := by
  obtain ⟨l, ho⟩ := hslot.exists_owned
  refine ⟨by simpa using hinv.length, fun j p ms hp hms => ?_, fun j hj => ?_⟩
  · rcases Nat.lt_trichotomy j w.events.length with hj | rfl | hj
    · rw [List.getElem?_append_left hj] at hp
      rw [List.getElem?_append_left (hinv.length ▸ hj)] at hms
      exact (hinv.slot j p ms hp hms).other hs ho hj.ne
    · rw [List.getElem?_concat_length] at hp
      rw [← hinv.length, List.getElem?_concat_length] at hms
      cases hp
      cases hms
      exact hslot
    · rw [List.getElem?_eq_none (by simpa using Nat.succ_le_of_lt hj)] at hp
      cases hp
  · have hj : w.events.length < j := Nat.lt_of_succ_le (by simpa using hj)
    exact (hinv.rest j hj.le).other hs ho hj.ne'

/-- An event that is there, by its names. -/
theorem Inv.isEvent (hinv : Inv w A) (hi : A[i]? = some (some names)) :
    i < w.events.length ∧ ∃ ep b, w.events[i]? = some (some ep) ∧ w.ptr i = .ok ep ∧
      IsEvent w.heap i ep b names := by
  have hlt : i < w.events.length := hinv.length ▸ (List.getElem?_eq_some_iff.mp hi).1
  have hslot := hinv.slot i w.events[i] (some names) (List.getElem?_eq_getElem hlt) hi
  cases hep : w.events[i] with
  | none =>
    rw [hep] at hslot
    exact hslot.elim
  | some ep =>
    rw [hep] at hslot
    obtain ⟨b, he⟩ := hslot
    have hget : w.events[i]? = some (some ep) := by rw [List.getElem?_eq_getElem hlt, hep]
    exact ⟨hlt, ep, b, hget, by simp only [World.ptr, hget], he⟩

/-- A call that works on an event and leaves the pointers alone. -/
theorem Inv.on (hinv : Inv w A) (hi : A[i]? = some (some names))
    {f : ℕ → Heap → Ptr → Exec (Heap × AgcStatus)} {names' : List CStr}
    (hf : ∀ ep b, IsEvent w.heap i ep b names → ∃ h' status,
      Returns (fun fuel => f fuel w.heap ep) (h', status) ∧ Step i w.heap h' ∧
        ∃ b, IsEvent h' i ep b names') :
    ∃ w', Returns (fun fuel => w.on i (f fuel)) w' ∧ Inv w' (A.set i (some names')) := by
  obtain ⟨hlt, ep, b, hget, hptr, he⟩ := hinv.isEvent hi
  obtain ⟨h', status, hret, hs, he'⟩ := hf ep b he
  refine ⟨{ w with heap := h' }, ?_, ?_⟩
  · have hw : Returns (fun fuel => do
        let r ← f fuel w.heap ep
        pure { w with heap := r.1 }) { w with heap := h' } := hret.bind (Returns.const _)
    exact hw.congr fun fuel => by simp only [World.on, hptr, ok_bind]
  · have hset : Inv _ (A.set i (some names')) := hinv.set (o := some ep) hlt hs he'
    have hsame : w.events.set i (some ep) = w.events := by
      obtain ⟨hlt, hep⟩ := List.getElem?_eq_some_iff.mp hget
      rw [← hep, List.set_getElem_self]
    rwa [hsame] at hset

/-- A call that returns at once with its error. -/
theorem Inv.on_refused (hinv : Inv w A) (hi : A[i]? = some (some names)) (status : AgcStatus) :
    ∃ w', Returns (fun _ => w.on i fun h _ => pure (h, status)) w' ∧ Inv w' A := by
  obtain ⟨-, ep, b, -, hptr, -⟩ := hinv.isEvent hi
  refine ⟨w, (Returns.const w).congr fun _ => ?_, hinv⟩
  simp only [World.on, hptr, ok_bind, pure_eq_ok]

/-- A call that makes an event. -/
theorem Inv.make (hinv : Inv w A) {f : ℕ → Heap → Exec Heap}
    (hf : Owned w.heap w.events.length [] → ∃ h', Returns (fun fuel => f fuel w.heap) h' ∧
      Step w.events.length w.heap h' ∧
      ∃ b, IsEvent h' w.events.length w.heap.brk b names) :
    ∃ w', Returns (fun fuel => w.make (f fuel)) w' ∧ Inv w' (A ++ [some names]) := by
  obtain ⟨h', hret, hs, he⟩ := hf (hinv.rest _ le_rfl)
  exact ⟨_, hret.bind (Returns.const _), hinv.snoc hs he⟩

/-- A call that ends an event. -/
theorem Inv.finish (hinv : Inv w A) (hi : A[i]? = some (some names))
    {f : ℕ → Heap → Ptr → Exec Heap}
    (hf : ∀ ep b, IsEvent w.heap i ep b names → ∃ h',
      Returns (fun fuel => f fuel w.heap ep) h' ∧ Step i w.heap h' ∧ Gone h' i) :
    ∃ w', Returns (fun fuel => w.finish i (f fuel)) w' ∧ Inv w' (A.set i none) := by
  obtain ⟨hlt, ep, b, -, hptr, he⟩ := hinv.isEvent hi
  obtain ⟨h', hret, hs, hgone⟩ := hf ep b he
  refine ⟨{ heap := h', events := w.events.set i none }, ?_, hinv.set hlt hs hgone⟩
  have hw : Returns (fun fuel => do
      let h ← f fuel w.heap ep
      pure { heap := h, events := w.events.set i none : World }) _ := hret.bind (Returns.const _)
  exact hw.congr fun fuel => by simp only [World.finish, hptr, ok_bind]

theorem modify_eq_set (hi : A[i]? = some ns) (f : Option (List CStr) → Option (List CStr)) :
    A.modify i f = A.set i (f ns) := by
  rw [List.modify_eq_set, hi, Option.getD_some]

theorem set_eq_self (hi : A[i]? = some ns) : A.set i ns = A := by
  obtain ⟨hlt, rfl⟩ := List.getElem?_eq_some_iff.mp hi
  exact List.set_getElem_self hlt

/-- An event that was destroyed. -/
theorem Inv.null (hinv : Inv w A) (hi : A[i]? = some none) : w.events[i]? = some none := by
  have hlt : i < w.events.length := hinv.length ▸ (List.getElem?_eq_some_iff.mp hi).1
  have hslot := hinv.slot i w.events[i] none (List.getElem?_eq_getElem hlt) hi
  cases hep : w.events[i] with
  | none => rw [List.getElem?_eq_getElem hlt, hep]
  | some ep =>
    rw [hep] at hslot
    exact hslot.elim

/-- One call. -/
theorem Inv.step (hinv : Inv w A) {op : Op} (hop : op.Admissible A) :
    ∃ w', Returns (fun fuel => step fuel w op) w' ∧ Inv w' (op.apply A) := by
  cases op with
  | create eventId sourceId =>
    refine hinv.make (f := fun _ h => pure (agcEventCreate w.events.length h eventId sourceId))
      fun ho => ?_
    obtain ⟨he, hs⟩ := isEvent_create ho eventId sourceId
    exact ⟨_, Returns.const _, hs, none, he⟩
  | createCallback sourceId data callback =>
    refine hinv.make
      (f := fun _ h => agcEventCreateCallback w.events.length h sourceId data callback) fun ho => ?_
    obtain ⟨h', heq, hs, he⟩ := isEvent_createCallback ho sourceId data callback
    exact ⟨h', (Returns.const h').congr fun _ => heq, hs, none, he⟩
  | addHeader i name data =>
    obtain ⟨names, hi⟩ := hop
    cases data with
    | none => exact hinv.on_refused hi .memerr
    | some data =>
      rw [Op.apply, modify_eq_set hi]
      refine hinv.on (f := fun _ h ep => agcEventAddHeader i h ep name (some data)) hi
        fun ep b he => ?_
      obtain ⟨h', heq, hs, he'⟩ := he.addHeader name data
      exact ⟨h', .success, (Returns.const _).congr fun _ => heq, hs, b, he'⟩
  | addHeaderString i name data =>
    obtain ⟨names, hi, habsent⟩ := hop
    cases data with
    | none => exact hinv.on_refused hi .generr
    | some data =>
      rw [Op.apply, modify_eq_set hi]
      refine hinv.on (f := fun fuel h ep => agcEventAddHeaderString i fuel h ep name (some data)) hi
        fun ep b he => ?_
      obtain ⟨h', hret, hs, he'⟩ := he.addHeaderString data (habsent rfl)
      exact ⟨h', .success, hret, hs, b, he'⟩
  | delHeader i name =>
    obtain ⟨names, hi⟩ := hop
    rw [Op.apply, modify_eq_set hi]
    refine hinv.on (f := fun fuel h ep => agcEventDelHeader i fuel h ep name) hi fun ep b he => ?_
    obtain ⟨h', hret, hs, he'⟩ := he.delHeader name
    exact ⟨h', .success, hret, hs, he'⟩
  | setBody i body =>
    obtain ⟨names, hi⟩ := hop
    cases body with
    | none => exact hinv.on_refused hi .generr
    | some body =>
      rw [Op.apply, ← set_eq_self hi]
      refine hinv.on (f := fun _ h ep => agcEventSetBody i h ep (some body)) hi fun ep b he => ?_
      obtain ⟨h', heq, hs, he'⟩ := he.setBody body
      exact ⟨h', .success, (Returns.const _).congr fun _ => heq, hs, he'⟩
  | addBody i data =>
    obtain ⟨names, hi⟩ := hop
    cases data with
    | none => exact hinv.on_refused hi .generr
    | some data =>
      rw [Op.apply, ← set_eq_self hi]
      refine hinv.on (f := fun _ h ep => agcEventAddBody i h ep (some data)) hi fun ep b he => ?_
      obtain ⟨h', heq, hs, he'⟩ := he.addBody data
      exact ⟨h', .success, (Returns.const _).congr fun _ => heq, hs, he'⟩
  | dup i =>
    obtain ⟨names, hi, hdistinct⟩ := hop
    obtain ⟨hlt, ep, b, -, hptr, he⟩ := hinv.isEvent hi
    rw [Op.apply, hi, Option.join_some]
    obtain ⟨w', hret, hinv'⟩ := hinv.make
      (f := fun fuel h => agcEventDup w.events.length fuel h ep)
      fun ho => he.dup ho hlt.ne hdistinct
    exact ⟨w', hret.congr fun fuel => by simp only [EventHeap.step, hptr, ok_bind], hinv'⟩
  | destroy i =>
    have hlt : i < A.length := hop
    cases hns : A[i] with
    | none =>
      -- the pointer is null, and the call returns at once
      have hi : A[i]? = some none := by rw [List.getElem?_eq_getElem hlt, hns]
      rw [Op.apply, set_eq_self hi]
      exact ⟨w, (Returns.const w).congr fun fuel => by simp only [EventHeap.step, hinv.null hi,
        pure_eq_ok], hinv⟩
    | some names =>
      have hi : A[i]? = some (some names) := by rw [List.getElem?_eq_getElem hlt, hns]
      obtain ⟨-, ep, b, hget, -, -⟩ := hinv.isEvent hi
      obtain ⟨w', hret, hinv'⟩ := hinv.finish (f := fun fuel h ep => agcEventDestroy i fuel h ep) hi
        fun ep b he => he.destroy
      exact ⟨w', hret.congr fun fuel => by simp only [EventHeap.step, hget], hinv'⟩
  | deliver i =>
    obtain ⟨names, hi⟩ := hop
    exact hinv.finish (f := fun fuel h ep => agcEventDeliver i fuel h ep) hi
      fun ep b he => he.deliver

theorem Inv.init : Inv World.init [] where
  length := rfl
  slot i o ns ho := by simp [World.init] at ho
  rest i _ := ⟨owns_nil, by simp [World.init], by simp [World.init]⟩

/-- The names after the calls. -/
def namesAfter (ops : List Op) : Names := ops.foldl Op.apply []

/-- Each call is admissible after those before it. -/
def Admissible (ops : List Op) : Prop :=
  Trace.Throughout (fun before op => op.Admissible (namesAfter before)) ops

/-- A run of admissible calls. -/
theorem inv_run {ops : List Op} (hops : Admissible ops) :
    ∃ w, Returns (fun fuel => run fuel ops) w ∧ Inv w (namesAfter ops) := by
  induction ops using List.reverseRecOn with
  | nil => exact ⟨World.init, Returns.const _, Inv.init⟩
  | append_singleton ops op ih =>
    obtain ⟨hops, hop⟩ := Trace.throughout_snoc.mp hops
    obtain ⟨w, hret, hinv⟩ := ih hops
    obtain ⟨w', hret', hinv'⟩ := hinv.step hop
    refine ⟨w', hret.foldlM_snoc hret', ?_⟩
    rwa [namesAfter, List.foldl_concat]

/-- The record of a destroyed event is live. -/
theorem Gone.live (hgone : Gone h i) : ∃ p, Live h.log (i, p) := by
  obtain ⟨ep, ho, -⟩ := hgone
  exact ⟨ep, ho.ledger.live_of_mem (by simp)⟩

/-- When all events are destroyed nothing is live only if there were none. -/
theorem Inv.nothing_live_iff (hinv : Inv w A) :
    ((∀ o ∈ w.events, o = none) → ∀ x, ¬ Live w.heap.log x) ↔
      A = [] ∨ ∃ names, some names ∈ A := by
  constructor
  · -- the record of a null event is not freed: one such event alone leaves it live
    intro hall
    by_contra hnot
    rw [not_or, not_exists] at hnot
    obtain ⟨hne, hnone⟩ := hnot
    have hnull : ∀ i, (hi : i < A.length) → A[i] = none := by
      intro i hi
      cases hns : A[i] with
      | none => rfl
      | some names => exact absurd (hns ▸ List.getElem_mem hi) (hnone names)
    have hevents : ∀ o ∈ w.events, o = none := by
      intro o ho
      obtain ⟨i, hi, rfl⟩ := List.getElem_of_mem ho
      have hlt : i < A.length := hinv.length ▸ hi
      have := hinv.null (i := i) (by rw [List.getElem?_eq_getElem hlt, hnull i hlt])
      simpa [List.getElem?_eq_getElem hi] using this
    have hpos : 0 < A.length := List.length_pos_of_ne_nil hne
    have hget : A[0]? = some none := by rw [List.getElem?_eq_getElem hpos, hnull 0 hpos]
    have hslot := hinv.slot 0 none none (hinv.null hget) hget
    obtain ⟨p, hp⟩ := Gone.live hslot
    exact hall hevents _ hp
  · rintro (rfl | ⟨names, hmem⟩) hall x hlive
    · have hnil : w.events = [] := List.length_eq_zero_iff.mp hinv.length.symm
      have ho := hinv.rest x.1 (by simp [hnil])
      simpa using (ho.ledger.live x rfl).mp hlive
    · obtain ⟨i, hi, hns⟩ := List.getElem_of_mem hmem
      obtain ⟨-, ep, b, hget, -, -⟩ :=
        hinv.isEvent (i := i) (by rw [List.getElem?_eq_getElem hi, hns])
      cases hall _ (List.mem_of_getElem? hget)

/-- In a run of admissible calls every allocation is released at most once, and only by a call on
the event that made it. The record of a destroyed event is not released: nothing is live after the
last event is destroyed only where no event was made. -/
theorem event_allocations_released {ops : List Op} (hops : Admissible ops) :
    ∃ w, Returns (fun fuel => run fuel ops) w ∧
      (∀ x, w.heap.log.count (.free x) ≤ 1) ∧
      (∀ i p, .free (i, p) ∈ w.heap.log → .alloc (i, p) ∈ w.heap.log ∧
        ∀ j, .alloc (j, p) ∈ w.heap.log → j = i) ∧
      (((∀ o ∈ w.events, o = none) → ∀ x, ¬ Live w.heap.log x) ↔
        namesAfter ops = [] ∨ ∃ names, some names ∈ namesAfter ops) := by
  obtain ⟨w, hret, hinv⟩ := inv_run hops
  have ho := hinv.rest _ le_rfl
  refine ⟨w, hret, ho.ledger.sound.count_free_le_one, fun i p hfree => ?_, hinv.nothing_live_iff⟩
  have halloc := ho.ledger.sound.alloc_mem_of_free_mem hfree
  exact ⟨halloc, fun j hj => ho.unique j i p hj halloc⟩

/-- One event with one header. Its record is what is left of it. -/
theorem event_allocations_released_header :
    Admissible [.create 0 0, .addHeaderString 0 ⟨[97], by decide⟩ (some ⟨[98], by decide⟩),
        .destroy 0] ∧
      ∃ w, Returns (fun fuel => run fuel [.create 0 0,
          .addHeaderString 0 ⟨[97], by decide⟩ (some ⟨[98], by decide⟩), .destroy 0]) w ∧
        ∀ x, w.heap.log.count (.free x) ≤ 1 := by
  have hops : Admissible [.create 0 0,
      .addHeaderString 0 ⟨[97], by decide⟩ (some ⟨[98], by decide⟩), .destroy 0] := by
    refine Trace.throughout_cons.mpr ⟨trivial, Trace.throughout_cons.mpr ⟨?_, ?_⟩⟩
    · exact ⟨[], rfl, by simp⟩
    · exact Trace.throughout_cons.mpr ⟨Nat.zero_lt_one, Trace.throughout_nil⟩
  obtain ⟨w, hret, hfree, -⟩ := event_allocations_released hops
  exact ⟨hops, w, hret, hfree⟩

/-- The record of an event stays live behind its destruction. The destruction of an event in which
a name was added again reads a node that it has released. -/
theorem destroyed_event_record_live :
    (∃ w, Returns (fun fuel => run fuel [.create 0 0, .destroy 0]) w ∧
      (∀ o ∈ w.events, o = none) ∧ Live w.heap.log (0, 0)) ∧
    Faults fun fuel => run fuel [.create 0 0,
      .addHeaderString 0 ⟨[97], by decide⟩ (some ⟨[98], by decide⟩),
      .addHeaderString 0 ⟨[97], by decide⟩ (some ⟨[99], by decide⟩), .destroy 0] := by
  refine ⟨⟨⟨agcEventCreate 0 World.init.heap 0 0, [none]⟩, ⟨1, fun k hk => ?_⟩, ?_, ?_⟩, 3,
    fun k hk => ?_⟩
  · obtain ⟨k, rfl⟩ := Nat.exists_eq_add_of_le' hk
    rfl
  · simp
  · decide
  · obtain ⟨k, rfl⟩ := Nat.exists_eq_add_of_le' hk
    rfl

end EventHeap
