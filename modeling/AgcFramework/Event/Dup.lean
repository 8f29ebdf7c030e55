import AgcFramework.Event.Header

/-!
# Cloning events

`agc_event_dup` copies an event header by header into the same memory. The copy is made with the
insertion that checks for a present name, so that it follows the original exactly when no name
repeats.

## Main definitions

* `agcEventDup`: the function of `agc_event.c`
* `Event.Clones e pairs clone`: the clone has the contents of the event, which is left alone

## Main results

* `Event.Built.add`, `Event.dupHeaders_spec`: a new name is copied behind the ones before it
* `Event.dupHeaders_cyclic`: a repeated name leaves a cycle
* `Event.dup_clones_iff`: the events whose clone equals them
-/

open Exec Chain

/-- The loop of `agc_event_dup` over the headers of the original, which stand in the memory that
the clone is built in. -/
def dupHeaders : ℕ → Event → Option Addr → Exec Event
  | 0, _, _ => .error .fuel
  | _ + 1, event, none => pure event
  | fuel + 1, event, some hp => do
    let h ← event.load hp
    let (event, _) ← agcEventAddHeaderString fuel event h.name h.value
    -- the link is read behind the addition
    let h ← event.load hp
    dupHeaders fuel event h.next

/-- `agc_event_dup`: the clone, with the memory that it shares with the original. -/
def agcEventDup (fuel : ℕ) (todup : Event) : Exec Event := do
  let event := agcEventCreate todup.mem todup.brk todup.eventId todup.sourceId
  let event ← dupHeaders fuel event todup.headers
  match todup.body with
  | some body => pure { event with body := some body }
  | none => pure event

namespace Event

variable {e clone : Event} {cs : List Node} {pairs done rest : List (CStr × CStr)}
  {name data : CStr}

/-- The clone has the contents of the event and a chain of its own, and the memory that was there
before is unchanged. -/
structure Clones (e : Event) (pairs : List (CStr × CStr)) (clone : Event) : Prop where
  eventId : clone.eventId = e.eventId
  sourceId : clone.sourceId = e.sourceId
  body : clone.body = e.body
  headers : clone.Represents pairs
  separate : ∀ ds, clone.Linked ds → ∀ x ∈ ds, e.brk ≤ x.1
  unchanged : ∀ a, a < e.brk → clone.mem a = e.mem a

/-- The state of the loop when the pairs `done` are copied. -/
structure Built (e : Event) (done : List (CStr × CStr)) (clone : Event) : Prop where
  eventId : clone.eventId = e.eventId
  sourceId : clone.sourceId = e.sourceId
  body : clone.body = none
  brk : e.brk ≤ clone.brk
  chain : ∃ ds, clone.Linked ds ∧ Carries ds done ∧ ∀ x ∈ ds, e.brk ≤ x.1 ∧ x.1 < clone.brk
  unchanged : ∀ a, a < e.brk → clone.mem a = e.mem a

theorem built_create (e : Event) :
    Built e [] (agcEventCreate e.mem e.brk e.eventId e.sourceId) where
  eventId := rfl
  sourceId := rfl
  body := rfl
  brk := Nat.le_refl _
  chain := ⟨[], ⟨rfl, List.nodup_nil, rfl⟩, rfl, by simp⟩
  unchanged _ _ := rfl

/-- A header with a new name is copied. -/
theorem Built.add (h : Built e done clone) (data : CStr) (ha : ¬ Present name done) :
    ∃ clone', Returns (fun fuel => agcEventBaseAddHeader fuel clone name data) clone' ∧
      Built e (done ++ [(name, data)]) clone' := by
  obtain ⟨ds, hl, hc, hds⟩ := h.chain
  obtain ⟨clone', ds', hret, hl', hc', hfst, hbrk, ⟨hid, hsource, hbody⟩, hframe⟩ :=
    hl.addAbsent hc (fun x hx => (hds x hx).2) name data ha
  refine ⟨clone', hret, ?_⟩
  constructor
  · exact hid.trans h.eventId
  · exact hsource.trans h.sourceId
  · exact hbody.trans h.body
  · rw [hbrk]
    exact Nat.le_succ_of_le h.brk
  · refine ⟨ds', hl', hc', fun x hx => ⟨?_, ?_⟩⟩
    · -- the new node is the first free address
      have hm : x.1 ∈ ds.map Prod.fst ++ [clone.brk] := hfst ▸ List.mem_map_of_mem hx
      rcases List.mem_append.mp hm with hm | hm
      · obtain ⟨y, hy, hyx⟩ := List.mem_map.mp hm
        exact hyx ▸ (hds y hy).1
      · rw [List.mem_singleton.mp hm]
        exact h.brk
    · rw [hbrk]
      exact lt_brk_of_append (fun y hy => (hds y hy).2) hfst x hx
  · -- the nodes of the clone stand above those of the original
    intro a ha
    rw [hframe a, h.unchanged a ha]
    · exact (Nat.lt_of_lt_of_le ha h.brk).ne
    · intro hm
      obtain ⟨y, hy, rfl⟩ := List.mem_map.mp hm
      exact absurd ha (Nat.not_lt.mpr (hds y hy).1)

/-- A header with a name that was copied before leaves a cycle. -/
theorem Built.cyclic (h : Built e done clone) (data : CStr) (hp : Present name done) :
    ∃ clone', Returns (fun fuel => agcEventBaseAddHeader fuel clone name data) clone' ∧
      clone'.Cyclic := by
  obtain ⟨ds, hl, hc, -⟩ := h.chain
  exact hl.cyclic name data (hc.present.mp hp)

/-- An iteration of the loop at a node of the original. -/
theorem dupHeaders_step {a : Addr} {c : Header} {clone₁ : Event} {r : Event}
    (hm : clone.mem a = some c) (hv : c.value = some data)
    (hadd : Returns (fun fuel => agcEventBaseAddHeader fuel clone c.name data) clone₁) :
    Returns (fun fuel => dupHeaders fuel clone (some a)) r ↔
      Returns (fun fuel => do
        let h ← clone₁.load a
        dupHeaders fuel clone₁ h.next) r := by
  refine Iff.trans (Returns.succ_iff fun k => ?_) (Returns.bind_iff hadd
    (g := fun k clone => do
      let h ← clone.load a
      dupHeaders k clone h.next))
  simp only [dupHeaders, load_eq hm, ok_bind, hv, agcEventAddHeaderString, bind_assoc, pure_bind]

/-- The loop copies headers whose names are new and do not repeat. -/
theorem dupHeaders_spec {p : Option Addr} (h : Built e done clone)
    (hseg : Segment Header.next e.mem p cs none) (hc : Carries cs rest)
    (hb : ∀ x ∈ cs, x.1 < e.brk)
    (hd : (done ++ rest).Pairwise fun p q => ¬ p.1.SameName q.1) :
    ∃ clone', Returns (fun fuel => dupHeaders fuel clone p) clone' ∧
      Built e (done ++ rest) clone' := by
  induction cs generalizing p clone done rest with
  | nil =>
    obtain rfl : p = none := hseg
    obtain rfl : rest = [] := by simpa [Carries, texts] using hc.symm
    rw [List.append_nil]
    exact ⟨clone, (Returns.const clone).succ fun k => rfl, h⟩
  | cons x cs ih =>
    obtain ⟨a, c⟩ := x
    obtain ⟨rfl, hm, hcs⟩ := hseg
    cases rest with
    | nil => simp [Carries, texts] at hc
    | cons q rest =>
      obtain ⟨hq, hc⟩ := List.cons.inj hc
      obtain ⟨hname, hvalue⟩ := Prod.ext_iff.mp hq
      simp only at hname hvalue
      have hab : a < e.brk := hb (a, c) List.mem_cons_self
      -- the name is none of those that are copied
      have hnew : ¬ Present c.name done := by
        rintro ⟨y, hy, hs⟩
        exact (List.pairwise_append.mp hd).2.2 y hy q List.mem_cons_self (hname ▸ hs)
      obtain ⟨clone₁, hadd, hbuilt⟩ := h.add q.2 hnew
      have hpair : (c.name, q.2) = q := by rw [hname]
      rw [hpair] at hbuilt
      rw [List.append_cons] at hd ⊢
      obtain ⟨clone', hret, hbuilt'⟩ :=
        ih hbuilt hcs hc (fun y hy => hb y (List.mem_cons_of_mem _ hy)) hd
      refine ⟨clone', ?_, hbuilt'⟩
      -- the link of the original is still what it was
      rw [dupHeaders_step ((h.unchanged a hab).trans hm) hvalue hadd]
      refine hret.congr fun k => ?_
      rw [load_eq ((hbuilt.unchanged a hab).trans hm), ok_bind]

/-- An iteration adds a header to the clone, or leaves it as it is when the header has no value. -/
theorem dupHeaders_inv {fuel : ℕ} {hp : Addr} {clone' : Event}
    (hr : dupHeaders (fuel + 1) clone (some hp) = .ok clone') :
    ∃ clone₁ p, dupHeaders fuel clone₁ p = .ok clone' ∧
      (clone₁ = clone ∨ ∃ name data, agcEventBaseAddHeader fuel clone name data = .ok clone₁) := by
  obtain ⟨c, -, hr⟩ := bind_eq_ok.mp hr
  obtain ⟨⟨clone₁, status⟩, hadd, hr⟩ := bind_eq_ok.mp hr
  obtain ⟨c', -, hr⟩ := bind_eq_ok.mp hr
  refine ⟨clone₁, c'.next, hr, ?_⟩
  cases hv : c.value with
  | none =>
    rw [hv] at hadd
    cases hadd
    exact Or.inl rfl
  | some data =>
    rw [hv] at hadd
    obtain ⟨clone₂, hbase, heq⟩ := bind_eq_ok.mp hadd
    cases heq
    exact Or.inr ⟨c.name, data, hbase⟩

/-- Whatever the loop still copies into a cycle, it leaves a cycle. -/
theorem Cyclic.dupHeaders {fuel : ℕ} {p : Option Addr} {clone' : Event} (h : clone.Cyclic)
    (hr : dupHeaders fuel clone p = .ok clone') : clone'.Cyclic := by
  induction fuel generalizing p clone with
  | zero => cases hr
  | succ n ih =>
    cases p with
    | none =>
      cases hr
      exact h
    | some hp =>
      obtain ⟨clone₁, p, hr, hstep⟩ := dupHeaders_inv hr
      refine ih ?_ hr
      rcases hstep with rfl | ⟨name, data, hadd⟩
      · exact h
      · exact h.addHeader hadd

/-- A name that repeats leaves a cycle. -/
theorem dupHeaders_cyclic {p : Option Addr} {clone' : Event} (h : Built e done clone)
    (hseg : Segment Header.next e.mem p cs none) (hc : Carries cs rest)
    (hb : ∀ x ∈ cs, x.1 < e.brk) (hd : done.Pairwise fun p q => ¬ p.1.SameName q.1)
    (hrep : ¬ (done ++ rest).Pairwise fun p q => ¬ p.1.SameName q.1)
    (hr : Returns (fun fuel => dupHeaders fuel clone p) clone') : clone'.Cyclic := by
  induction cs generalizing p clone done rest with
  | nil =>
    obtain rfl : rest = [] := by simpa [Carries, texts] using hc.symm
    rw [List.append_nil] at hrep
    exact absurd hd hrep
  | cons x cs ih =>
    obtain ⟨a, c⟩ := x
    obtain ⟨rfl, hm, hcs⟩ := hseg
    cases rest with
    | nil => simp [Carries, texts] at hc
    | cons q rest =>
      obtain ⟨hq, hc⟩ := List.cons.inj hc
      obtain ⟨hname, hvalue⟩ := Prod.ext_iff.mp hq
      simp only at hname hvalue
      have hab : a < e.brk := hb (a, c) List.mem_cons_self
      have hm' : clone.mem a = some c := (h.unchanged a hab).trans hm
      by_cases hp : Present c.name done
      · -- the first repetition
        obtain ⟨clone₁, hadd, hcyc⟩ := h.cyclic q.2 hp
        obtain ⟨n, c', -, hrun⟩ := ((dupHeaders_step hm' hvalue hadd).mp hr).exists_bind
        exact hcyc.dupHeaders hrun
      · -- a new name: the repetition is further on
        obtain ⟨clone₁, hadd, hbuilt⟩ := h.add q.2 hp
        have hpair : (c.name, q.2) = q := by rw [hname]
        rw [hpair] at hbuilt
        have hd' : (done ++ [q]).Pairwise fun p q => ¬ p.1.SameName q.1 := by
          refine List.pairwise_append.mpr ⟨hd, List.pairwise_singleton _ _, fun y hy z hz hs => ?_⟩
          rw [List.mem_singleton.mp hz, ← hname] at hs
          exact hp ⟨y, hy, hs⟩
        rw [List.append_cons] at hrep
        refine ih hbuilt hcs hc (fun y hy => hb y (List.mem_cons_of_mem _ hy)) hd' hrep ?_
        refine ((dupHeaders_step hm' hvalue hadd).mp hr).congr fun k => ?_
        rw [load_eq ((hbuilt.unchanged a hab).trans hm), ok_bind]

/-- The loop does not touch the body. -/
theorem dupHeaders_body {fuel : ℕ} {p : Option Addr} {clone' : Event}
    (hr : dupHeaders fuel clone p = .ok clone') : clone'.body = clone.body := by
  induction fuel generalizing p clone with
  | zero => cases hr
  | succ n ih =>
    cases p with
    | none =>
      cases hr
      rfl
    | some hp =>
      obtain ⟨clone₁, p, hr, hstep⟩ := dupHeaders_inv hr
      refine (ih hr).trans ?_
      rcases hstep with rfl | ⟨name, data, hadd⟩
      · rfl
      · exact (addHeader_fields hadd).2.2

/-- The clone is what the loop leaves, with the body of the original. -/
theorem dup_returns_iff :
    Returns (fun fuel => agcEventDup fuel e) clone ↔
      clone.body = e.body ∧ Returns (fun fuel => dupHeaders fuel
        (agcEventCreate e.mem e.brk e.eventId e.sourceId) e.headers)
          { clone with body := none } := by
  -- the body of the clone is empty before it is copied
  have hdup : ∀ fuel, agcEventDup fuel e =
      (dupHeaders fuel (agcEventCreate e.mem e.brk e.eventId e.sourceId) e.headers >>= fun c =>
        pure { c with body := e.body.or c.body }) := by
    intro fuel
    unfold agcEventDup
    cases e.body <;> rfl
  have hnone : ∀ {fuel : ℕ} {c : Event}, dupHeaders fuel
      (agcEventCreate e.mem e.brk e.eventId e.sourceId) e.headers = .ok c → c.body = none :=
    fun hr => dupHeaders_body hr
  constructor
  · rintro ⟨n, hn⟩
    have hstep : ∀ k, n ≤ k → clone.body = e.body ∧ dupHeaders k
        (agcEventCreate e.mem e.brk e.eventId e.sourceId) e.headers =
          .ok { clone with body := none } := by
      intro k hk
      obtain ⟨c, hc, heq⟩ := bind_eq_ok.mp ((hdup k).symm.trans (hn k hk))
      have hbody := hnone hc
      cases heq
      simp only [hbody, Option.or_none]
      refine ⟨trivial, hc.trans ?_⟩
      rw [← hbody]
    exact ⟨(hstep n (Nat.le_refl n)).1, n, fun k hk => (hstep k hk).2⟩
  · rintro ⟨hbody, n, hn⟩
    refine ⟨n, fun k hk => ?_⟩
    simp only [hdup, hn k hk, ok_bind, Option.or_none, ← hbody]
    rfl

/-- No clone equals an event in which a name repeats. -/
theorem not_clones_of_repeated (h : e.Represents pairs)
    (hrep : ¬ pairs.Pairwise fun p q => ¬ p.1.SameName q.1)
    (hret : Returns (fun fuel => agcEventDup fuel e) clone) : ¬ Clones e pairs clone := by
  intro hclone
  obtain ⟨cs, hl, hc, hb⟩ := h
  obtain ⟨-, hloop⟩ := dup_returns_iff.mp hret
  have hcyc := dupHeaders_cyclic (built_create e) hl.chain hc hb List.Pairwise.nil hrep hloop
  have hrepr : Represents { clone with body := none } pairs :=
    hclone.headers.congr rfl rfl rfl rfl
  exact hcyc.not_wellFormed hrepr.wellFormed

/-- The headers of an event in which no name repeats are copied one by one. -/
theorem built_of_distinct (h : e.Represents pairs)
    (hd : pairs.Pairwise fun p q => ¬ p.1.SameName q.1) :
    ∃ clone : Event, Returns (fun fuel => agcEventDup fuel e) { clone with body := e.body } ∧
      Built e pairs clone := by
  obtain ⟨cs, hl, hc, hb⟩ := h
  obtain ⟨clone, hret, hbuilt⟩ := dupHeaders_spec (built_create e) hl.chain hc hb hd
  rw [List.nil_append] at hbuilt
  refine ⟨clone, dup_returns_iff.mpr ⟨rfl, ?_⟩, hbuilt⟩
  have hclone : { clone with body := none } = clone := by rw [← hbuilt.body]
  exact hclone.symm ▸ hret

/-- What the loop has built when all pairs are copied is a clone, once it has the body. -/
theorem Built.clones (h : Built e pairs clone) : Clones e pairs { clone with body := e.body } := by
  obtain ⟨ds, hlink, hcarries, hds⟩ := h.chain
  constructor
  · exact h.eventId
  · exact h.sourceId
  · rfl
  · exact ⟨ds, ⟨hlink.chain, hlink.nodup, hlink.last⟩, hcarries, fun x hx => (hds x hx).2⟩
  · intro ds' hlink' x hx
    have hsame : ds' = ds := hlink'.chain.unique hlink.chain
    exact (hds x (hsame ▸ hx)).1
  · exact h.unchanged

/-- An event in which no name repeats is cloned. -/
theorem clones_of_distinct (h : e.Represents pairs)
    (hd : pairs.Pairwise fun p q => ¬ p.1.SameName q.1) :
    ∃ clone, Returns (fun fuel => agcEventDup fuel e) clone ∧ Clones e pairs clone := by
  obtain ⟨clone, hret, hbuilt⟩ := built_of_distinct h hd
  exact ⟨{ clone with body := e.body }, hret, hbuilt.clones⟩

/-- **A clone equals its original** exactly when no name repeats, up to the case of its letters. -/
theorem dup_clones_iff (h : e.Represents pairs) :
    (∃ clone, Returns (fun fuel => agcEventDup fuel e) clone ∧ Clones e pairs clone) ↔
      pairs.Pairwise fun p q => ¬ p.1.SameName q.1 := by
  constructor
  · rintro ⟨clone, hret, hclone⟩
    by_contra hrep
    exact not_clones_of_repeated h hrep hret hclone
  · exact clones_of_distinct h

/-- An event with two headers. -/
def double (name₁ value₁ name₂ value₂ : CStr) : Event where
  eventId := 7
  sourceId := 3
  headers := some 1
  lastHeader := some 2
  body := some (CStr.ofString "b")
  mem := fun a => if a = 1 then some ⟨name₁, some value₁, some 2⟩
    else if a = 2 then some ⟨name₂, some value₂, none⟩ else none
  brk := 3

theorem represents_double (name₁ value₁ name₂ value₂ : CStr) :
    (double name₁ value₁ name₂ value₂).Represents [(name₁, value₁), (name₂, value₂)] := by
  refine ⟨[(1, ⟨name₁, some value₁, some 2⟩), (2, ⟨name₂, some value₂, none⟩)],
    ⟨⟨rfl, rfl, rfl, rfl, rfl⟩, by simp, rfl⟩, rfl, ?_⟩
  intro x hx
  simp only [List.mem_cons, List.not_mem_nil, or_false] at hx
  rcases hx with rfl | rfl
  · exact (by decide : (1 : ℕ) < 3)
  · exact (by decide : (2 : ℕ) < 3)

/-- Two names that differ. -/
theorem dup_clones_double :
    ∃ clone, Returns (fun fuel => agcEventDup fuel
        (double (CStr.ofString "a") (CStr.ofString "x") (CStr.ofString "b") (CStr.ofString "x")))
        clone ∧
      Clones (double (CStr.ofString "a") (CStr.ofString "x") (CStr.ofString "b")
          (CStr.ofString "x"))
        [(CStr.ofString "a", CStr.ofString "x"), (CStr.ofString "b", CStr.ofString "x")] clone := by
  refine (dup_clones_iff (represents_double _ _ _ _)).mpr (List.pairwise_pair.mpr ?_)
  decide

/-- A name that repeats in upper case: no clone equals the original. -/
theorem dup_repeated_name :
    ¬ ∃ clone, Returns (fun fuel => agcEventDup fuel
        (double (CStr.ofString "a") (CStr.ofString "x") (CStr.ofString "A") (CStr.ofString "y")))
        clone ∧
      Clones (double (CStr.ofString "a") (CStr.ofString "x") (CStr.ofString "A")
          (CStr.ofString "y"))
        [(CStr.ofString "a", CStr.ofString "x"), (CStr.ofString "A", CStr.ofString "y")] clone := by
  rintro ⟨clone, hret, hclone⟩
  refine not_clones_of_repeated (represents_double _ _ _ _) ?_ hret hclone
  rw [List.pairwise_pair]
  decide

end Event
