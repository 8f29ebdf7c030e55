import AgcFramework.Event.Ids
import AgcFramework.EventSocket.Subscribe

/-!
# The registry of event names

`agc_event_register` gives a name to an id that has none. The names are looked up without regard to
case, and the first id that has the name is found. Nothing keeps two ids from having one name, so
that the look-up is the inverse of `agc_event_get_name` only as long as the names given are
different.

## Main definitions

* `registerAll`: the calls one after the other, from the table of `init_ids`
* `givenNames`: the names of the ids, by the calls alone
* `RegistryLaw`: the look-up inverts the table, and a call changes no more than its own id

## Main results

* `registerAll_eq`: the table is the one of the names given
* `registry_law_iff`: the law holds exactly for names that differ
-/

open Exec IdState

/-- Calls of `agc_event_register` one after the other, behind `init_ids`. -/
def registerAll (calls : List (ℤ × CStr)) : Exec EventTemplates :=
  calls.foldlM (fun templates call => do
    let (templates, _) ← agcEventRegister templates call.1 call.2
    pure templates) initIds

/-- The ids of events. -/
def EventId (i : ℤ) : Prop := 1 ≤ i ∧ i < EVENT_ID_LIMIT

/-- The name of an id, by the calls alone: a reserved one, or that of the first call for the id. -/
def givenNames (calls : List (ℤ × CStr)) (i : ℕ) : Option CStr :=
  (initIds i).or ((calls.find? fun call => decide (call.1 = (i : ℤ))).map Prod.snd)

/-- A call that succeeds behind the calls `done`. -/
def Registers (done : List (ℤ × CStr)) (call : ℤ × CStr) : Prop :=
  ∃ t t', registerAll done = .ok t ∧ agcEventRegister t call.1 call.2 = .ok (t', .success)

/-- The law of the registry. -/
structure RegistryLaw (calls : List (ℤ × CStr)) : Prop where
  /-- The id of an id's name is the id. -/
  inverse : ∀ t, registerAll calls = .ok t → ∀ i, EventId i →
    ((initIds i.toNat).isSome ∨ ∃ done name rest, calls = done ++ (i, name) :: rest ∧
      Registers done (i, name)) →
    ∃ name, agcEventGetName t i = .ok (some name) ∧ agcEventGetId t name = some i.toNat
  /-- A call that fails changes nothing. -/
  refused : ∀ done call rest t t' status, calls = done ++ call :: rest → registerAll done = .ok t →
    agcEventRegister t call.1 call.2 = .ok (t', status) → status ≠ .success → t' = t
  /-- A call that succeeds changes no other id's name. -/
  others : ∀ done call rest t t', calls = done ++ call :: rest → registerAll done = .ok t →
    agcEventRegister t call.1 call.2 = .ok (t', .success) →
    ∀ j, EventId j → j ≠ call.1 → t' j.toNat = t j.toNat

section Registry

variable {calls done : List (ℤ × CStr)} {i : ℤ} {name : CStr} {t : EventTemplates}

theorem EventId.valid (hi : EventId i) : eventIdIsInvalid i = false := by
  refine decide_eq_false ?_
  obtain ⟨h1, hlim⟩ := hi
  unfold EVENT_ID_ALL
  omega

theorem EventId.inRange (hi : EventId i) : InRange i := ⟨by have := hi.1; omega, hi.2⟩

/-- What a call with the id of an event does. -/
theorem register_eq (hi : EventId i) (t : EventTemplates) (name : CStr) :
    agcEventRegister t i name = .ok (if (t i.toNat).isSome then (t, .generr)
      else (Function.update t i.toNat (some name), .success)) := by
  simp only [agcEventRegister, hi.valid, Bool.false_eq_true, if_false,
    eventTemplate_of_inRange hi.inRange, ok_bind]
  -- the name is set only where there is none
  cases t i.toNat <;> rfl

theorem getName_eq (hi : EventId i) (t : EventTemplates) :
    agcEventGetName t i = .ok (t i.toNat) := by
  simp only [agcEventGetName, hi.valid, Bool.false_eq_true, if_false]
  exact eventTemplate_of_inRange hi.inRange t

theorem registerAll_snoc (calls : List (ℤ × CStr)) (call : ℤ × CStr) :
    registerAll (calls ++ [call]) = (do
      let t ← registerAll calls
      let (t, _) ← agcEventRegister t call.1 call.2
      pure t) := by
  simp only [registerAll, List.foldlM_append, List.foldlM_cons, List.foldlM_nil, bind_pure]

theorem EventId.eq_toNat_iff (hi : EventId i) (j : ℕ) : i = (j : ℤ) ↔ j = i.toNat := by
  have := hi.1
  omega

/-- One more call gives a name to an id that has none. -/
theorem givenNames_snoc (hi : EventId i) :
    givenNames (calls ++ [(i, name)]) =
      if (givenNames calls i.toNat).isSome then givenNames calls
      else Function.update (givenNames calls) i.toNat (some name) := by
  funext j
  have hsnoc : givenNames (calls ++ [(i, name)]) j =
      (givenNames calls j).or (if j = i.toNat then some name else none) := by
    -- the last call counts only for an id that no earlier one was for
    have hlast : [(i, name)].find? (fun call => decide (call.1 = (j : ℤ))) =
        if j = i.toNat then some (i, name) else none := by
      simp only [List.find?_cons, List.find?_nil, hi.eq_toNat_iff]
      by_cases hj : j = i.toNat <;> simp [hj]
    rw [givenNames, List.find?_append, hlast, Option.map_or, ← Option.or_assoc]
    split
    · rfl
    · rfl
  rw [hsnoc]
  by_cases hj : j = i.toNat
  · rw [if_pos hj, hj]
    cases hname : givenNames calls i.toNat with
    | none => simp
    | some old => simp [hname]
  · rw [if_neg hj, Option.or_none]
    split
    · rfl
    · exact (Function.update_of_ne hj ..).symm

/-- The table is the one of the names given. -/
theorem registerAll_eq (hcalls : ∀ call ∈ calls, EventId call.1) :
    registerAll calls = .ok (givenNames calls) := by
  -- a call sees the table of the calls before it
  induction calls using List.reverseRecOn with
  | nil =>
    have hnone : givenNames [] = initIds := funext fun i => Option.or_none
    rw [hnone]
    rfl
  | append_singleton calls call ih =>
    obtain ⟨i, name⟩ := call
    have hi : EventId i := hcalls (i, name) (by simp)
    rw [registerAll_snoc, ih fun call hcall => hcalls call (List.mem_append_left _ hcall), ok_bind,
      register_eq hi, givenNames_snoc hi]
    split
    · rfl
    · rfl

/-- A call succeeds exactly if its id has no name yet. -/
theorem registers_iff (hdone : ∀ call ∈ done, EventId call.1) (hi : EventId i) :
    Registers done (i, name) ↔ givenNames done i.toNat = none := by
  simp only [Registers, registerAll_eq hdone, register_eq hi]
  constructor
  · rintro ⟨t, t', ht, h⟩
    obtain rfl := Except.ok.inj ht
    by_contra hname
    rw [if_pos (Option.isSome_iff_ne_none.mpr hname)] at h
    cases h
  · intro hname
    exact ⟨_, _, rfl, by rw [hname]; rfl⟩

/-- An event's id has a name if it is reserved or a call for it succeeded. -/
theorem isSome_givenNames_iff (hcalls : ∀ call ∈ calls, EventId call.1) (hi : EventId i) :
    (givenNames calls i.toNat).isSome ↔ ((initIds i.toNat).isSome ∨
      ∃ done name rest, calls = done ++ (i, name) :: rest ∧ Registers done (i, name)) := by
  constructor
  · intro hsome
    by_cases hinit : (initIds i.toNat).isSome
    · exact Or.inl hinit
    · -- the first call for the id has succeeded
      refine Or.inr ?_
      rw [Option.not_isSome_iff_eq_none] at hinit
      rw [givenNames, hinit, Option.none_or, Option.isSome_map] at hsome
      obtain ⟨⟨j, name⟩, hfind⟩ := Option.isSome_iff_exists.mp hsome
      obtain ⟨hj, done, rest, rfl, hfirst⟩ := List.find?_eq_some_iff_append.mp hfind
      obtain rfl : j = i := by
        have := hi.1
        simp only [decide_eq_true_eq] at hj
        omega
      refine ⟨done, name, rest, rfl, ?_⟩
      rw [registers_iff (fun call hcall => hcalls call (List.mem_append_left _ hcall)) hi,
        givenNames, hinit, Option.none_or, Option.map_eq_none_iff, List.find?_eq_none]
      exact fun call hcall => by simpa using hfirst call hcall
  · -- a call for the id, whichever it is, leaves the id with a name
    rintro (hinit | ⟨done, name, rest, rfl, -⟩)
    · simp [givenNames, hinit]
    · have hfind : ((done ++ (i, name) :: rest).find? fun call =>
          decide (call.1 = (i.toNat : ℤ))).isSome := by
        rw [List.find?_isSome]
        refine ⟨(i, name), by simp, ?_⟩
        simpa using (hi.eq_toNat_iff _).mpr rfl
      rw [givenNames, Option.isSome_or, Option.isSome_map, hfind, Bool.or_true]

/-- The id found under a name of the table is the first one that has it. -/
theorem getId_eq_iff (hi : EventId i) (hname : t i.toNat = some name) :
    agcEventGetId t name = some i.toNat ↔
      ∀ j < i.toNat, ∀ other, t j = some other → ¬ name.SameName other := by
  have hlt : i.toNat < EVENT_ID_LIMIT.toNat := by
    have := hi.2
    unfold EVENT_ID_LIMIT at this ⊢
    omega
  -- the search goes up from the first id
  unfold agcEventGetId
  rw [List.find?_range_eq_some]
  simp only [hname, CStr.SameName.refl, decide_true, true_and, List.mem_range, hlt]
  constructor
  · intro h j hj other hother
    have := h j hj
    rw [hother] at this
    simpa using this
  · intro h j hj
    cases hother : t j with
    | none => rfl
    | some other => simpa using h j hj other hother

theorem le_of_initIds {j : ℕ} (hname : initIds j = some name) : j ≤ 5 := by
  unfold initIds at hname
  split at hname <;> first | decide | cases hname

/-- A name is given to a reserved id or by a call. -/
theorem le_or_mem_of_givenNames {j : ℕ} (hname : givenNames calls j = some name) :
    j ≤ 5 ∨ ((j : ℤ), name) ∈ calls := by
  rcases Option.or_eq_some_iff.mp hname with hinit | ⟨-, hcall⟩
  · exact Or.inl (le_of_initIds hinit)
  · obtain ⟨⟨i, name'⟩, hfind, rfl⟩ := Option.map_eq_some_iff.mp hcall
    have hi : i = (j : ℤ) := by simpa using List.find?_some hfind
    subst hi
    exact Or.inr (List.mem_of_find?_eq_some hfind)

theorem eventId_of_givenNames (hcalls : ∀ call ∈ calls, EventId call.1) {j : ℕ} (hj : 0 < j)
    (hname : givenNames calls j = some name) : EventId j := by
  rcases le_or_mem_of_givenNames hname with hle | hmem
  · constructor
    · omega
    · unfold EVENT_ID_LIMIT
      omega
  · exact hcalls _ hmem

/-- The registry obeys its law exactly if the names given to different ids differ in more than
case. -/
theorem registry_law_iff (hcalls : ∀ call ∈ calls, EventId call.1) :
    (∃ t, registerAll calls = .ok t) ∧
    (RegistryLaw calls ↔ ∀ i j name other, i < j → givenNames calls i = some other →
      givenNames calls j = some name → ¬ name.SameName other) := by
  refine ⟨⟨_, registerAll_eq hcalls⟩, fun hlaw i j name other hij hi hj => ?_, fun hnames => ?_⟩
  · -- the larger of two ids with one name is not found under it
    have hid : EventId j := eventId_of_givenNames hcalls (Nat.zero_lt_of_lt hij) hj
    have hj' : givenNames calls (j : ℤ).toNat = some name := hj
    obtain ⟨name', hget, hfound⟩ := hlaw.inverse _ (registerAll_eq hcalls) j hid
      ((isSome_givenNames_iff hcalls hid).mp (by rw [hj']; rfl))
    rw [getName_eq hid, hj'] at hget
    obtain rfl := Option.some.inj (Except.ok.inj hget)
    exact (getId_eq_iff hid hj').mp hfound i hij other hi
  · have hdone : ∀ done call rest, calls = done ++ call :: rest →
        (∀ call ∈ done, EventId call.1) ∧ EventId call.1 := by
      rintro done call rest rfl
      exact ⟨fun c hc => hcalls c (List.mem_append_left _ hc), hcalls call (by simp)⟩
    -- the last two parts hold for any names
    refine ⟨fun t ht i hi hregistered => ?_, ?_, ?_⟩
    · obtain rfl := Except.ok.inj ((registerAll_eq hcalls).symm.trans ht)
      obtain ⟨name, hname⟩ :=
        Option.isSome_iff_exists.mp ((isSome_givenNames_iff hcalls hi).mpr hregistered)
      refine ⟨name, by rw [getName_eq hi, hname], (getId_eq_iff hi hname).mpr ?_⟩
      exact fun j hj other hother => hnames j i.toNat name other hj hother hname
    · intro done call rest t t' status hsplit ht hcall hstatus
      rw [register_eq (hdone done call rest hsplit).2] at hcall
      split at hcall
      · cases hcall
        rfl
      · cases hcall
        exact absurd rfl hstatus
    · intro done call rest t t' hsplit ht hcall j hj hne
      obtain ⟨-, hid⟩ := hdone done call rest hsplit
      rw [register_eq hid] at hcall
      split at hcall
      · cases hcall
      · cases hcall
        refine Function.update_of_ne (fun h => hne ?_) ..
        have := hj.1
        have := hid.1
        omega

end Registry

/-- A new name. -/
theorem registry_law_new : RegistryLaw [(6, CStr.ofString "media")] := by
  have hcalls : ∀ call ∈ [((6 : ℤ), CStr.ofString "media")], EventId call.1 := by
    simp [EventId, EVENT_ID_LIMIT]
  refine (registry_law_iff hcalls).2.mpr ?_
  intro i j name other hij hi hj
  have hbound : ∀ {k : ℕ} {n : CStr}, givenNames [((6 : ℤ), CStr.ofString "media")] k = some n →
      k ≤ 6 := by
    intro k n hk
    rcases le_or_mem_of_givenNames hk with hle | hmem
    · omega
    · have := congrArg Prod.fst (List.mem_singleton.mp hmem)
      dsimp only at this
      omega
  have hj6 := hbound hj
  interval_cases j <;> interval_cases i <;> cases hi <;> cases hj <;> decide

/-- The name of the event socket in other letters: the look-up finds the event socket. -/
theorem registry_law_clash : ¬ RegistryLaw [(6, CStr.ofString "ESL")] := by
  have hcalls : ∀ call ∈ [((6 : ℤ), CStr.ofString "ESL")], EventId call.1 := by
    simp [EventId, EVENT_ID_LIMIT]
  have hid : EventId 6 := hcalls _ (List.mem_singleton_self _)
  intro hlaw
  obtain ⟨name, hname, hfound⟩ := hlaw.inverse _ (registerAll_eq hcalls) 6 hid
    ((isSome_givenNames_iff hcalls hid).mp (by decide))
  have h6 : givenNames [((6 : ℤ), CStr.ofString "ESL")] (6 : ℤ).toNat =
      some (CStr.ofString "ESL") := by decide
  rw [getName_eq hid, h6] at hname
  obtain rfl := Option.some.inj (Except.ok.inj hname)
  exact (getId_eq_iff hid h6).mp hfound 1 (by decide) (CStr.ofString "esl") (by decide) (by decide)
