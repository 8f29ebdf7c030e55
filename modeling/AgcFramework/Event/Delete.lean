import AgcFramework.Event.Ledger
import Mathlib.Data.List.Flatten
import Mathlib.Data.List.Perm.Basic

/-!
# Taking headers out of an event

`agc_event_del_header` filters the chain in place. It goes through the chain with a pointer to the
last node that it kept, unlinks the nodes with the name and releases each with its texts. Here the
chain is any finite one whose nodes have texts of their own, and what is released is read off the
ledger.

## Main definitions

* `WellFormed h ep r cs`: the chain of the event at `ep` leads through the nodes `cs`
* `named T name x`: the node has the name, up to the case of its letters
* `releases i x`: the releases of a node and its texts

## Main results

* `Chained.unlink`: one node is taken out
* `Chained.delHeaderLoop`: the loop keeps the nodes with other names and releases those with the
  name
* `agcEventDelHeader_filters`: the whole function
-/

namespace EventHeap

open Exec Ledger Chain

/-- A node without its link. -/
def fields (x : Node) : Ptr × Option Ptr × Option Ptr := (x.1, x.2.name, x.2.value)

/-- `strcasecmp(header_name, hp->name) == 0`, with the texts `T`. -/
def named (T : Ptr → Option CStr) (name : CStr) (x : Node) : Bool :=
  match x.2.name.bind T with
  | some s => decide (name.SameName s)
  | none => false

/-- The releases of a node: its name, its value and the node. -/
def releases (i : ℕ) (x : Node) : List (Act (ℕ × Ptr)) :=
  (x.2.name.toList ++ x.2.value.toList ++ [x.1]).map fun p => Act.free (i, p)

/-- The chain of the event at `ep` leads through the nodes `cs`, `last_header` is the last of them,
and the nodes and their texts are allocations of their own. -/
structure Chained (h : Heap) (ep : Ptr) (r : EventRec) (cs : List Node) : Prop where
  record : h.events ep = some r
  chain : Segment HeaderRec.next h.headers r.headers cs none
  last : r.lastHeader = (cs.map Prod.fst).getLast?
  separate : (cs.flatMap ptrs).Nodup

/-- Such a chain in which every node has a name. -/
structure WellFormed (h : Heap) (ep : Ptr) (r : EventRec) (cs : List Node) : Prop
    extends Chained h ep r cs where
  names : ∀ x ∈ cs, (x.2.name.bind h.texts).isSome

variable {h h' : Heap} {i : ℕ} {ep a : Ptr} {r r' : EventRec} {c : HeaderRec} {name : CStr}
  {cs cs' pre post : List Node} {T : Ptr → Option CStr}

/-! ## Nodes without their links -/

theorem ptrs_eq_of_fields {x y : Node} (hxy : fields x = fields y) : ptrs x = ptrs y := by
  simp only [fields, Prod.mk.injEq] at hxy
  rw [ptrs, ptrs, hxy.1, hxy.2.1, hxy.2.2]

theorem flatMap_ptrs_of_fields (hcs : cs.map fields = cs'.map fields) :
    cs.flatMap ptrs = cs'.flatMap ptrs := by
  induction cs generalizing cs' with
  | nil => rw [List.map_eq_nil_iff.mp hcs.symm]
  | cons x cs ih =>
    cases cs' with
    | nil => cases hcs
    | cons y cs' =>
      obtain ⟨hxy, hrest⟩ := List.cons.inj hcs
      rw [List.flatMap_cons, List.flatMap_cons, ptrs_eq_of_fields hxy, ih hrest]

theorem map_fst_of_fields (hcs : cs.map fields = cs'.map fields) :
    cs.map Prod.fst = cs'.map Prod.fst := by
  have hfst := congrArg (List.map Prod.fst) hcs
  rwa [List.map_map, List.map_map] at hfst

theorem Chained.nodes_nodup (hc : Chained h ep r cs) : (cs.map Prod.fst).Nodup :=
  hc.separate.sublist (map_fst_sublist cs)

/-! ## One node -/

/-- `last_header` behind the removal of a node. -/
theorem Chained.last_remove (hc : Chained h ep r (pre ++ (a, c) :: post)) :
    (if some a = r.lastHeader ∨ c.next = none then (pre.map Prod.fst).getLast?
      else r.lastHeader) = (pre.map Prod.fst ++ post.map Prod.fst).getLast? := by
  obtain ⟨o, -, -, -, hpost⟩ := segment_append.mp hc.chain
  have hnodup := hc.nodes_nodup
  rw [List.map_append, List.map_cons] at hnodup
  have hout : a ∉ post.map Prod.fst := fun hmem =>
    (List.nodup_middle.mp hnodup).notMem (List.mem_append_right _ hmem)
  rw [hc.last, List.map_append, List.map_cons, hpost.start_head]
  exact getLast?_remove hout

/-- A node is taken out of the chain, and the one before it, or the event, leads past it. -/
theorem Chained.unlink (hc : Chained h ep r (pre ++ (a, c) :: post)) :
    ∃ h' r' pre', unlinkHeader h ep (pre.map Prod.fst).getLast? a c = .ok h' ∧
      Chained h' ep r' (pre' ++ post) ∧ pre'.map fields = pre.map fields ∧
      h'.texts = h.texts ∧ h'.log = h.log := by
  have hlast := hc.last_remove
  have hsep := hc.separate
  rw [List.flatMap_append, List.flatMap_cons] at hsep
  have hsep' : (pre.flatMap ptrs ++ post.flatMap ptrs).Nodup :=
    hsep.sublist (List.Sublist.append_left (List.sublist_append_right _ _) _)
  rcases List.eq_nil_or_concat' pre with rfl | ⟨pre, ⟨b, d⟩, rfl⟩
  · -- no node before it: the event leads past the node
    obtain ⟨-, -, hpost⟩ := hc.chain
    simp only [List.map_nil, List.nil_append, List.getLast?_nil] at hlast
    refine ⟨h.setEvent ep { r with
        headers := c.next, lastHeader := (post.map Prod.fst).getLast? },
      { r with headers := c.next, lastHeader := (post.map Prod.fst).getLast? }, [], ?_,
      ⟨Function.update_self _ _ _, hpost, rfl, hsep'⟩, rfl, rfl, rfl⟩
    simp only [unlinkHeader, event_eq hc.record, ok_bind, pure_eq_ok, List.map_nil,
      List.getLast?_nil, hlast]
  · -- the node before it, `b`, leads past the node
    obtain ⟨last, hdef⟩ : ∃ last, last =
        ((pre ++ [(b, d)]).map Prod.fst ++ post.map Prod.fst).getLast? := ⟨_, rfl⟩
    have hlp : ((pre ++ [(b, d)]).map Prod.fst).getLast? = some b := by simp
    have hchain := hc.chain
    rw [List.append_assoc, List.singleton_append] at hchain
    have hb : h.headers b = some d := hchain.get (x := (b, d)) (by simp)
    have hnodup := hc.nodes_nodup
    simp only [List.append_assoc, List.map_append, List.map_cons, List.singleton_append,
      List.nodup_middle, List.nodup_cons, List.mem_append, List.mem_cons, not_or] at hnodup
    obtain ⟨⟨hbpre, -, hbpost⟩, -⟩ := hnodup
    have hlink : { d with next := c.next }.next = c.next := rfl
    have hsplice := hchain.splice hbpre hbpost hlink
    refine ⟨(h.setHeader b { d with next := c.next }).setEvent ep { r with lastHeader := last },
      { r with lastHeader := last }, pre ++ [(b, { d with next := c.next })], ?_,
      ⟨Function.update_self _ _ _, ?_, ?_, ?_⟩, by simp [fields], rfl, rfl⟩
    · rw [hlp, ← hdef] at hlast
      rw [hlp]
      simp only [unlinkHeader, event_eq hc.record, ok_bind, header_eq hb, pure_eq_ok, hlast]
    · rw [List.append_assoc, List.singleton_append]
      exact hsplice
    · rw [hdef]
      simp
    · simpa [ptrs] using hsep'

theorem freeText_log (h : Heap) (o : Option Ptr) :
    (h.freeText i o).log = h.log ++ o.toList.map fun p => Act.free (i, p) := by
  cases o with
  | none => exact (List.append_nil _).symm
  | some p => rfl

theorem freeNode_log (h : Heap) (a : Ptr) (c : HeaderRec) :
    (freeNode i h a c).log = h.log ++ releases i (a, c) := by
  change ((h.freeText i c.name).freeText i c.value).log ++ [Act.free (i, a)] = _
  rw [freeText_log, freeText_log]
  simp [releases]

/-- The release of a node that is not in the chain. -/
theorem Chained.freeNode (hc : Chained h ep r cs) (hout : ∀ p ∈ cs.flatMap ptrs, p ∉ ptrs (a, c)) :
    Chained (freeNode i h a c) ep r cs := by
  refine ⟨?_, hc.chain.congr fun x hx => ?_, hc.last, hc.separate⟩
  · rw [freeNode_events]
    exact hc.record
  · have hx' : x.1 ∈ cs.flatMap ptrs := List.mem_flatMap.mpr ⟨x, hx, List.mem_cons_self⟩
    exact (same_freeNode (i := i) (hout x.1 hx')).2.1

/-! ## The loop -/

/-- What the loop leaves behind, from the nodes `pre` that it kept and the nodes `post` that are not
visited yet. -/
structure Filtered (i : ℕ) (T : Ptr → Option CStr) (name : CStr) (h : Heap) (ep : Ptr)
    (pre post : List Node) (h' : Heap) (r' : EventRec) (cs' : List Node) : Prop where
  chained : Chained h' ep r' cs'
  kept : cs'.map fields = (pre ++ post.filter fun x => !named T name x).map fields
  log : h'.log = h.log ++ (post.filter (named T name)).flatMap (releases i)
  texts : ∀ p ∉ (post.filter (named T name)).flatMap ptrs, h'.texts p = h.texts p

theorem Chained.delHeaderLoop (i : ℕ) (name : CStr) {tp : Option Ptr}
    (hc : Chained h ep r (pre ++ post))
    (hT : ∀ p ∈ post.flatMap ptrs, h.texts p = T p)
    (hnames : ∀ x ∈ post, (x.2.name.bind T).isSome)
    (htp : Segment HeaderRec.next h.headers tp post none) :
    ∃ h' r' cs', Returns (fun k => delHeaderLoop i ep name k h (pre.map Prod.fst).getLast? tp) h' ∧
      Filtered i T name h ep pre post h' r' cs' := by
  induction post generalizing h r pre tp with
  | nil =>
    obtain rfl : tp = none := htp
    refine ⟨h, r, pre, (Returns.const h).succ fun _ => rfl, ?_, ?_, ?_, ?_⟩
    · simpa using hc
    · simp
    · simp
    · exact fun _ _ => rfl
  | cons x post ih =>
    obtain ⟨a, c⟩ := x
    obtain ⟨rfl, ha, hpost⟩ := htp
    obtain ⟨s, hs⟩ := Option.isSome_iff_exists.mp (hnames (a, c) List.mem_cons_self)
    -- what is freed so far is not the name of this node
    have hs' : c.name.bind h.texts = some s := by
      obtain ⟨q, hq, hqs⟩ := Option.bind_eq_some_iff.mp hs
      have hmem : q ∈ ptrs (a, c) := by simp [ptrs, show c.name = some q from hq]
      rw [show c.name = some q from hq]
      exact (hT q (List.mem_append_left _ hmem)).trans hqs
    by_cases hname : name.SameName s
    · -- the node is taken out: the chain is the kept nodes and the rest
      have hnamed : named T name (a, c) = true := by
        simp only [named, hs, hname, decide_true]
      have hsep := hc.separate
      rw [List.flatMap_append, List.flatMap_cons] at hsep
      obtain ⟨h₁, r₁, pre₁, hunlink, hc₁, hpre, htexts, hlog⟩ := hc.unlink
      -- the texts and nodes that stay are not those of the node
      have hout : ∀ p ∈ (pre₁ ++ post).flatMap ptrs, p ∉ ptrs (a, c) := by
        intro p hp hmem
        rw [List.flatMap_append, flatMap_ptrs_of_fields hpre] at hp
        rcases List.mem_append.mp hp with hp | hp
        · exact (List.nodup_append.mp hsep).2.2 p hp p (List.mem_append_left _ hmem) rfl
        · have hrest := (List.nodup_append.mp hsep).2.1
          exact (List.nodup_append.mp hrest).2.2 p hmem p hp rfl
      have hc₂ := hc₁.freeNode (i := i) hout
      have htexts₂ : ∀ p ∉ ptrs (a, c), (EventHeap.freeNode i h₁ a c).texts p = h.texts p := by
        intro p hp
        rw [(same_freeNode (i := i) hp).2.2, htexts]
      have hT₂ : ∀ p ∈ post.flatMap ptrs, (EventHeap.freeNode i h₁ a c).texts p = T p := by
        intro p hp
        rw [htexts₂ p (hout p (by rw [List.flatMap_append]; exact List.mem_append_right _ hp))]
        exact hT p (List.mem_append_right _ hp)
      -- the loop goes on at the successor that was read before the release
      obtain ⟨o, -, ho⟩ := segment_append.mp hc₂.chain
      obtain rfl := ho.start_eq hpost
      obtain ⟨h', r', cs', hret, hf⟩ :=
        ih hc₂ hT₂ (fun y hy => hnames y (List.mem_cons_of_mem _ hy)) ho
      rw [map_fst_of_fields hpre] at hret
      refine ⟨h', r', cs', hret.succ fun k => ?_, hf.chained, ?_, ?_, fun p hp => ?_⟩
      · simp only [EventHeap.delHeaderLoop, header_eq ha, ok_bind, text_eq hs', if_pos hname,
          hunlink]
      · rw [hf.kept, List.map_append, List.map_append, hpre,
          List.filter_cons_of_neg (by simp [hnamed])]
      · rw [hf.log, freeNode_log, hlog, List.filter_cons_of_pos hnamed, List.flatMap_cons,
          List.append_assoc]
      · rw [List.filter_cons_of_pos hnamed, List.flatMap_cons, List.mem_append, not_or] at hp
        rw [hf.texts p hp.2, htexts₂ p hp.1]
    · -- the node is kept, and is the last of the kept ones
      have hnamed : named T name (a, c) = false := by
        simp only [named, hs, hname, decide_false]
      have hc' : Chained h ep r ((pre ++ [(a, c)]) ++ post) := by simpa using hc
      obtain ⟨h', r', cs', hret, hf⟩ := ih hc' (fun p hp => hT p (List.mem_append_right _ hp))
        (fun y hy => hnames y (List.mem_cons_of_mem _ hy)) hpost
      have hlp : ((pre ++ [(a, c)]).map Prod.fst).getLast? = some a := by simp
      rw [hlp] at hret
      refine ⟨h', r', cs', hret.succ fun k => ?_, hf.chained, ?_, ?_, fun p hp => ?_⟩
      · simp only [EventHeap.delHeaderLoop, header_eq ha, ok_bind, text_eq hs', if_neg hname]
      · rw [hf.kept, List.filter_cons_of_pos (by simp [hnamed])]
        simp
      · rw [hf.log, List.filter_cons_of_neg (by simp [hnamed])]
      · rw [List.filter_cons_of_neg (by simp [hnamed])] at hp
        exact hf.texts p hp

/-! ## The function -/

/-- What a node that is kept points to is not released. -/
theorem Chained.notMem_released (hc : Chained h ep r cs) {x : Node} {p : Ptr} (hx : x ∈ cs)
    (hkept : named T name x = false) (hp : p ∈ ptrs x) :
    p ∉ (cs.filter (named T name)).flatMap ptrs := by
  have hperm := (List.filter_append_perm (named T name) cs).flatMap_right ptrs
  have hnodup := hperm.nodup_iff.mpr hc.separate
  rw [List.flatMap_append] at hnodup
  have hmem : p ∈ (cs.filter fun x => !named T name x).flatMap ptrs :=
    List.mem_flatMap.mpr ⟨x, List.mem_filter.mpr ⟨hx, by simp [hkept]⟩, hp⟩
  exact fun hrel => List.disjoint_of_nodup_append hnodup hrel hmem

theorem Chained.nodup_releases (hc : Chained h ep r cs) (i : ℕ) (keep : Node → Bool) :
    ((cs.filter keep).flatMap (releases i)).Nodup := by
  have hperm : ((cs.filter keep).flatMap (releases i)).Perm
      (((cs.filter keep).flatMap ptrs).map fun p => Act.free (i, p)) := by
    rw [List.map_flatMap]
    refine List.Perm.flatMap_left _ fun x _ => List.Perm.map _ ?_
    rw [ptrs]
    exact List.perm_append_singleton _ _
  have hsub : ((cs.filter keep).flatMap ptrs).Nodup :=
    hc.separate.sublist (List.filter_sublist.flatMap ptrs)
  refine hperm.nodup_iff.mpr (hsub.map fun p q hpq => ?_)
  exact (Prod.mk.inj (Act.free.inj hpq)).2

/-- The chain is filtered in place: what is left are the nodes with other names, in order and with
their texts, `last_header` is the last of them, and exactly the nodes with the name are released,
each of them and of their texts once. The name is a text of the caller: were it one of the texts of
the chain, it would be compared after it was released. -/
theorem agcEventDelHeader_filters (hw : WellFormed h ep r cs) (i : ℕ) (name : CStr) :
    ∃ h' r' cs', Returns (fun k => agcEventDelHeader i k h ep name) (h', .success) ∧
      WellFormed h' ep r' cs' ∧
      cs'.map fields = (cs.filter fun x => !named h.texts name x).map fields ∧
      (∀ x ∈ cs', x.2.name.bind h'.texts = x.2.name.bind h.texts) ∧
      r'.lastHeader = ((cs.filter fun x => !named h.texts name x).map Prod.fst).getLast? ∧
      h'.log = h.log ++ (cs.filter (named h.texts name)).flatMap (releases i) ∧
      ((cs.filter (named h.texts name)).flatMap (releases i)).Nodup := by
  have hc := hw.toChained
  obtain ⟨h', r', cs', hret, hf⟩ := Chained.delHeaderLoop i name (List.nil_append cs ▸ hc)
    (fun _ _ => rfl) hw.names hc.chain
  have hkept : ∀ x ∈ cs', ∃ y ∈ cs, fields y = fields x ∧ named h.texts name y = false := by
    intro x hx
    have hmem : fields x ∈ cs'.map fields := List.mem_map_of_mem hx
    rw [hf.kept, List.nil_append] at hmem
    obtain ⟨y, hy, hyx⟩ := List.mem_map.mp hmem
    obtain ⟨hycs, hnot⟩ := List.mem_filter.mp hy
    exact ⟨y, hycs, hyx, by simpa using hnot⟩
  have htext : ∀ x ∈ cs', x.2.name.bind h'.texts = x.2.name.bind h.texts := by
    intro x hx
    obtain ⟨y, hy, hyx, hnot⟩ := hkept x hx
    cases hn : x.2.name with
    | none => rfl
    | some q =>
      have hq : q ∈ ptrs y := by
        rw [ptrs_eq_of_fields hyx]
        simp [ptrs, hn]
      exact hf.texts q (hc.notMem_released hy hnot hq)
  refine ⟨h', r', cs', ?_, ⟨hf.chained, fun x hx => ?_⟩, hf.kept, htext, ?_, hf.log,
    hc.nodup_releases i _⟩
  · refine Returns.bind (f := fun _ => h.event ep) (a := r) ?_ (hret.bind (Returns.const _))
    exact (Returns.const r).congr fun _ => event_eq hc.record
  · obtain ⟨y, hy, hyx, -⟩ := hkept x hx
    have hname : y.2.name = x.2.name := congrArg (fun f => f.2.1) hyx
    rw [htext x hx, ← hname]
    exact hw.names y hy
  · rw [hf.chained.last, map_fst_of_fields hf.kept, List.nil_append]

/-- An event with the headers `a` and `B`, and their texts. -/
def twoHeaders : Heap where
  events p := if p = 0 then some ⟨0, 0, none, false, some 1, some 4, none⟩ else none
  headers p :=
    if p = 1 then some ⟨some 2, some 3, some 4⟩
    else if p = 4 then some ⟨some 5, some 6, none⟩
    else none
  texts p :=
    if p = 2 then some (CStr.ofString "a")
    else if p = 5 then some (CStr.ofString "B")
    else some (CStr.ofString "")
  brk := 7
  log := []

theorem agcEventDelHeader_filters_twoHeaders :
    ∃ h' r' cs', Returns (fun k => agcEventDelHeader 0 k twoHeaders 0 (CStr.ofString "A"))
        (h', .success) ∧
      WellFormed h' 0 r' cs' ∧ cs'.map fields = [(4, some 5, some 6)] ∧
      r'.lastHeader = some 4 ∧ h'.log = [.free (0, 2), .free (0, 3), .free (0, 1)] := by
  have hw : WellFormed twoHeaders 0 ⟨0, 0, none, false, some 1, some 4, none⟩
      [(1, ⟨some 2, some 3, some 4⟩), (4, ⟨some 5, some 6, none⟩)] :=
    { record := rfl
      chain := ⟨rfl, rfl, rfl, rfl, rfl⟩
      last := rfl
      separate := by decide
      names := by
        intro x hx
        rcases List.mem_cons.mp hx with rfl | hx
        · rfl
        · obtain rfl := List.mem_singleton.mp hx
          rfl }
  obtain ⟨h', r', cs', hret, hw', hkept, -, hlast, hlog, -⟩ :=
    agcEventDelHeader_filters hw 0 (CStr.ofString "A")
  exact ⟨h', r', cs', hret, hw', hkept, hlast, hlog⟩

end EventHeap
