import AgcFramework.Lib.Trace

/-!
# Ledgers of resources

A program makes resources, uses them and releases them. The ledger of a run lists these acts in
order. It is sound when every act finds the resource as it should be: a resource is made once, and
is used and released only while it is live.

## Main definitions

* `Act`: a resource is made, used or released
* `Live`: made and not released
* `Sound`: each act along the ledger is admitted by the acts before it
* `Owns S log l`: of the resources in `S` those of the list are live

## Main results

* `Sound.count_free_le_one`: no resource is released twice
* `Sound.not_mem_of_free`: nothing is done to a resource after its release
* `Sound.count_free_eq_one`: a resource that is no longer live was released once
* `Owns.use`, `Owns.free`, `Owns.alloc`, `Owns.other`: what an act does to the live resources
-/

namespace Ledger

/-- What is done to a resource. -/
inductive Act (ρ : Type)
  | alloc (x : ρ)
  | use (x : ρ)
  | free (x : ρ)
  deriving DecidableEq, Repr

/-- The resource of an act. -/
def Act.res {ρ : Type} : Act ρ → ρ
  | alloc x | use x | free x => x

variable {ρ : Type} {log before after : List (Act ρ)} {a : Act ρ} {x y : ρ}

/-- The resource is made and not released. -/
def Live (log : List (Act ρ)) (x : ρ) : Prop := .alloc x ∈ log ∧ .free x ∉ log

instance [DecidableEq ρ] : Decidable (Live log x) := inferInstanceAs (Decidable (_ ∧ _))

/-- An act is admitted after those before it. -/
def Admitted (before : List (Act ρ)) : Act ρ → Prop
  | .alloc x => .alloc x ∉ before
  | .use x => Live before x
  | .free x => Live before x

/-- Every act is admitted after those before it. -/
def Sound (log : List (Act ρ)) : Prop := Trace.Throughout Admitted log

instance [DecidableEq ρ] : Decidable (Admitted before a) :=
  match a with
  | .alloc x => inferInstanceAs (Decidable (.alloc x ∉ before))
  | .use x => inferInstanceAs (Decidable (Live before x))
  | .free x => inferInstanceAs (Decidable (Live before x))

instance [DecidableEq ρ] : Decidable (Sound log) :=
  decidable_of_iff _ Trace.throughout_iff_getElem.symm

@[simp] theorem sound_nil : Sound ([] : List (Act ρ)) := Trace.throughout_nil

theorem sound_snoc : Sound (log ++ [a]) ↔ Sound log ∧ Admitted log a := Trace.throughout_snoc

/-- Only what was made is released. -/
theorem Sound.alloc_mem_of_free_mem (h : Sound log) (hx : .free x ∈ log) : .alloc x ∈ log := by
  obtain ⟨before, after, rfl⟩ := List.append_of_mem hx
  have hlive : Live before x := h before (.free x) after rfl
  exact List.mem_append_left _ hlive.1

/-! ## What is live after one more act -/

@[simp] theorem not_live_nil : ¬ Live ([] : List (Act ρ)) x := by
  simp [Live]

@[simp] theorem live_snoc_use : Live (log ++ [Act.use y]) x ↔ Live log x := by
  simp [Live]

@[simp] theorem live_snoc_free : Live (log ++ [Act.free y]) x ↔ x ≠ y ∧ Live log x := by
  simp only [Live, List.mem_append, List.mem_singleton, reduceCtorEq, or_false, Act.free.injEq]
  tauto

theorem live_snoc_alloc (h : Sound log) (hy : .alloc y ∉ log) :
    Live (log ++ [Act.alloc y]) x ↔ x = y ∨ Live log x := by
  simp only [Live, List.mem_append, List.mem_singleton, reduceCtorEq, or_false, Act.alloc.injEq]
  constructor
  · rintro ⟨hx | rfl, hfree⟩
    · exact Or.inr ⟨hx, hfree⟩
    · exact Or.inl rfl
  · rintro (rfl | hx)
    · exact ⟨Or.inr rfl, fun hfree => hy (h.alloc_mem_of_free_mem hfree)⟩
    · exact ⟨Or.inl hx.1, hx.2⟩

@[simp] theorem alloc_mem_snoc_use : Act.alloc x ∈ log ++ [Act.use y] ↔ Act.alloc x ∈ log := by
  simp

@[simp] theorem alloc_mem_snoc_free : Act.alloc x ∈ log ++ [Act.free y] ↔ Act.alloc x ∈ log := by
  simp

/-- An act on another resource. -/
theorem mem_snoc_of_ne (h : a.res ≠ x) : (.alloc x ∈ log ++ [a] ↔ .alloc x ∈ log) ∧
    (.free x ∈ log ++ [a] ↔ .free x ∈ log) := by
  constructor
  · refine ⟨fun hx => ?_, List.mem_append_left _⟩
    rcases List.mem_append.mp hx with hx | hx
    · exact hx
    · exact absurd (congrArg Act.res (List.mem_singleton.mp hx)).symm h
  · refine ⟨fun hx => ?_, List.mem_append_left _⟩
    rcases List.mem_append.mp hx with hx | hx
    · exact hx
    · exact absurd (congrArg Act.res (List.mem_singleton.mp hx)).symm h

theorem live_snoc_of_ne (h : a.res ≠ x) : Live (log ++ [a]) x ↔ Live log x := by
  rw [Live, Live, (mem_snoc_of_ne h).1, (mem_snoc_of_ne h).2]

/-! ## The live resources of a part -/

/-- The ledger is sound, and of the resources in `S` exactly those of the list are live. -/
structure Owns (S : ρ → Prop) (log : List (Act ρ)) (l : List ρ) : Prop where
  sound : Sound log
  nodup : l.Nodup
  mem : ∀ x ∈ l, S x
  live : ∀ x, S x → (Live log x ↔ x ∈ l)

section Owns

variable {S : ρ → Prop} {l l' : List ρ}

theorem owns_nil : Owns S ([] : List (Act ρ)) [] :=
  ⟨sound_nil, List.nodup_nil, by simp, by simp⟩

theorem Owns.perm (h : Owns S log l) (hl : l.Perm l') : Owns S log l' where
  sound := h.sound
  nodup := hl.nodup_iff.mp h.nodup
  mem x hx := h.mem x (hl.mem_iff.mpr hx)
  live x hx := by rw [h.live x hx, hl.mem_iff]

theorem Owns.live_of_mem (h : Owns S log l) (hx : x ∈ l) : Live log x :=
  (h.live x (h.mem x hx)).mpr hx

theorem Owns.use (h : Owns S log l) (hx : x ∈ l) : Owns S (log ++ [Act.use x]) l where
  sound := sound_snoc.mpr ⟨h.sound, h.live_of_mem hx⟩
  nodup := h.nodup
  mem := h.mem
  live y hy := by rw [live_snoc_use, h.live y hy]

theorem Owns.free (h : Owns S log (x :: l)) : Owns S (log ++ [Act.free x]) l where
  sound := sound_snoc.mpr ⟨h.sound, h.live_of_mem List.mem_cons_self⟩
  nodup := (List.nodup_cons.mp h.nodup).2
  mem y hy := h.mem y (List.mem_cons_of_mem _ hy)
  live y hy := by
    rw [live_snoc_free, h.live y hy, List.mem_cons]
    refine ⟨fun h' => h'.2.resolve_left h'.1, fun hl => ⟨?_, Or.inr hl⟩⟩
    rintro rfl
    exact (List.nodup_cons.mp h.nodup).1 hl

theorem Owns.alloc (h : Owns S log l) (hS : S x) (hx : .alloc x ∉ log) :
    Owns S (log ++ [Act.alloc x]) (x :: l) where
  sound := sound_snoc.mpr ⟨h.sound, hx⟩
  nodup := List.nodup_cons.mpr ⟨fun hl => hx (h.live_of_mem hl).1, h.nodup⟩
  mem y hy := by
    rcases List.mem_cons.mp hy with rfl | hy
    · exact hS
    · exact h.mem y hy
  live y hy := by rw [live_snoc_alloc h.sound hx, h.live y hy, List.mem_cons]

/-- Acts on resources outside of the part. -/
theorem Owns.other {acts : List (Act ρ)} (h : Owns S log l) (hsound : Sound (log ++ acts))
    (hacts : ∀ a ∈ acts, ¬ S a.res) : Owns S (log ++ acts) l where
  sound := hsound
  nodup := h.nodup
  mem := h.mem
  live y hy := by
    have halloc : .alloc y ∉ acts := fun hmem => hacts _ hmem hy
    have hfree : .free y ∉ acts := fun hmem => hacts _ hmem hy
    rw [← h.live y hy]
    simp [Live, halloc, hfree]

end Owns

/-! ## Releases -/

/-- After a resource is released it is neither used nor released again. -/
theorem Sound.not_mem_of_free (h : Sound (before ++ .free x :: after)) :
    .use x ∉ after ∧ .free x ∉ after := by
  -- an act on the resource further on would find it released
  have hdead : ∀ a p q, after = p ++ a :: q → Admitted (before ++ .free x :: p) a := by
    rintro a p q rfl
    exact h (before ++ .free x :: p) a q (by simp)
  constructor
  · intro hx
    obtain ⟨p, q, hq⟩ := List.append_of_mem hx
    have hlive : Live (before ++ .free x :: p) x := hdead _ p q hq
    exact hlive.2 (by simp)
  · intro hx
    obtain ⟨p, q, hq⟩ := List.append_of_mem hx
    have hlive : Live (before ++ .free x :: p) x := hdead _ p q hq
    exact hlive.2 (by simp)

variable [DecidableEq ρ]

/-- No resource is released twice. -/
theorem Sound.count_free_le_one (h : Sound log) (x : ρ) : log.count (.free x) ≤ 1 := by
  by_cases hx : .free x ∈ log
  · obtain ⟨before, after, rfl⟩ := List.append_of_mem hx
    have hlive : Live before x := h before (.free x) after rfl
    have hbefore : before.count (.free x) = 0 := List.count_eq_zero.mpr hlive.2
    have hafter : after.count (.free x) = 0 := List.count_eq_zero.mpr h.not_mem_of_free.2
    rw [List.count_append, List.count_cons_self, hbefore, hafter]
  · rw [List.count_eq_zero.mpr hx]
    exact Nat.zero_le 1

/-- A resource that was made and is no longer live was released once. -/
theorem Sound.count_free_eq_one (h : Sound log) (hx : .alloc x ∈ log) (hlive : ¬ Live log x) :
    log.count (.free x) = 1 := by
  have hfree : .free x ∈ log := by
    by_contra hfree
    exact hlive ⟨hx, hfree⟩
  have hpos := List.count_pos_iff.mpr hfree
  have hle := h.count_free_le_one x
  omega

end Ledger
