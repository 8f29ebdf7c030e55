import Mathlib.Data.List.Basic
import Mathlib.Data.List.Induction
import Mathlib.Data.List.Infix
import Mathlib.Tactic.Common

/-!
# Conditions along a sequence

A run is a sequence of steps, and a condition on a step often speaks about the steps before it.

## Main definitions

* `Throughout P l`: every element of `l` satisfies `P` together with the elements before it
* `observed step view s es`: what is seen along the run of `es` from `s`

## Main results

* `throughout_snoc`, `throughout_cons`: the condition is checked at one end and along the rest
* `throughout_iff_getElem`: the condition is checked at each place
* `prefixes_iff_throughout`, `iff_throughout`: the run rules, from one step to all initial parts
* `observed_snoc`: one more step adds what is seen at it
-/

namespace Trace

variable {α : Type} {P Q : List α → α → Prop} {l l' : List α} {a : α}

/-- Every element of `l` satisfies `P` together with the elements before it. -/
def Throughout (P : List α → α → Prop) (l : List α) : Prop :=
  ∀ p a q, l = p ++ a :: q → P p a

/-- A split of a sequence is at its last element or before it. -/
theorem snoc_eq_append_cons {p q : List α} {b : α} (h : l ++ [a] = p ++ b :: q) :
    (p = l ∧ b = a ∧ q = []) ∨ ∃ q', q = q' ++ [a] ∧ l = p ++ b :: q' := by
  rcases List.eq_nil_or_concat' q with rfl | ⟨q', c, rfl⟩
  · obtain ⟨hl, hab⟩ := List.append_inj' h rfl
    exact Or.inl ⟨hl.symm, (List.singleton_inj.mp hab).symm, rfl⟩
  · rw [← List.cons_append, ← List.append_assoc] at h
    obtain ⟨hl, hac⟩ := List.append_inj' h rfl
    exact Or.inr ⟨q', by rw [List.singleton_inj.mp hac], hl⟩

@[simp] theorem throughout_nil : Throughout P [] := by
  intro p a q h
  simp at h

@[simp] theorem throughout_snoc : Throughout P (l ++ [a]) ↔ Throughout P l ∧ P l a := by
  constructor
  · intro h
    refine ⟨fun p b q hl => ?_, h l a [] rfl⟩
    refine h p b (q ++ [a]) ?_
    rw [hl]
    simp
  · rintro ⟨h, ha⟩ p b q hl
    rcases snoc_eq_append_cons hl with ⟨rfl, rfl, -⟩ | ⟨q', -, rfl⟩
    · exact ha
    · exact h p b q' rfl

theorem throughout_cons :
    Throughout P (a :: l) ↔ P [] a ∧ Throughout (fun p b => P (a :: p) b) l := by
  constructor
  · intro h
    refine ⟨h [] a l rfl, fun p b q hl => h (a :: p) b q ?_⟩
    rw [hl]
    rfl
  · rintro ⟨ha, h⟩ p b q hl
    cases p with
    | nil =>
      obtain ⟨rfl, -⟩ := List.cons.inj hl
      exact ha
    | cons c p =>
      obtain ⟨rfl, rfl⟩ := List.cons.inj hl
      exact h p b q rfl

/-- The condition is checked at each place. -/
theorem throughout_iff_getElem :
    Throughout P l ↔ ∀ i, (h : i < l.length) → P (l.take i) l[i] := by
  constructor
  · intro hl i hi
    refine hl (l.take i) l[i] (l.drop (i + 1)) ?_
    rw [← List.drop_eq_getElem_cons hi, List.take_append_drop]
  · rintro h p a q rfl
    have := h p.length (by simp)
    simpa using this

/-- The condition holds along every initial part. -/
theorem Throughout.of_append (h : Throughout P (l ++ l')) : Throughout P l := by
  intro p a q hl
  refine h p a (q ++ l') ?_
  rw [hl]
  simp

/-- What a step leads to, from a state where all was well before it, decides the whole run: every
initial part is well exactly when the condition holds along the sequence. Only the steps of the
sequence matter. -/
theorem prefixes_iff_throughout_of {S : List α → Prop} (hnil : S []) (l : List α)
    (hstep : ∀ l' a, l' ++ [a] <+: l → S l' → (S (l' ++ [a]) ↔ P l' a)) :
    (∀ p, p <+: l → S p) ↔ Throughout P l := by
  induction l using List.reverseRecOn with
  | nil => simpa using hnil
  | append_singleton l a ih =>
    have hl : l <+: l ++ [a] := List.prefix_append l [a]
    have ih := ih fun l' b hb => hstep l' b (hb.trans hl)
    rw [throughout_snoc, ← ih]
    constructor
    · intro hall
      have hpre : ∀ p, p <+: l → S p := fun p hp => hall p (hp.trans hl)
      refine ⟨hpre, (hstep l a (List.prefix_refl _) (hpre l (List.prefix_refl l))).mp ?_⟩
      exact hall _ (List.prefix_refl _)
    · rintro ⟨hpre, ha⟩ p hp
      rcases List.prefix_concat_iff.mp hp with rfl | hp
      · exact (hstep l a (List.prefix_refl _) (hpre l (List.prefix_refl l))).mpr ha
      · exact hpre p hp

/-- The rule for steps that are all alike. -/
theorem prefixes_iff_throughout {S : List α → Prop} (hnil : S [])
    (hstep : ∀ l a, S l → (S (l ++ [a]) ↔ P l a)) (l : List α) :
    (∀ p, p <+: l → S p) ↔ Throughout P l :=
  prefixes_iff_throughout_of hnil l fun l' a _ => hstep l' a

/-- The run rule with an invariant, for a property that a longer sequence cannot regain. -/
theorem iff_throughout {S I : List α → Prop} (hnil : S []) (hI : I [])
    (hmono : ∀ l a, S (l ++ [a]) → S l)
    (hstep : ∀ l a, I l → (S (l ++ [a]) ↔ P l a)) (hinv : ∀ l a, I l → P l a → I (l ++ [a]))
    (l : List α) : S l ↔ Throughout P l := by
  suffices h : (S l ↔ Throughout P l) ∧ (S l → I l) from h.1
  induction l using List.reverseRecOn with
  | nil => exact ⟨iff_of_true hnil throughout_nil, fun _ => hI⟩
  | append_singleton l a ih =>
    obtain ⟨hiff, hl⟩ := ih
    refine ⟨?_, fun h => ?_⟩
    · rw [throughout_snoc, ← hiff]
      refine ⟨fun h => ?_, fun h => (hstep l a (hl h.1)).mpr h.2⟩
      have hS := hmono l a h
      exact ⟨hS, (hstep l a (hl hS)).mp h⟩
    · have hIl := hl (hmono l a h)
      exact hinv l a hIl ((hstep l a hIl).mp h)

section Observed

variable {σ ε ω : Type} (step : σ → ε → σ) (view : σ → ε → List ω)

/-- What is seen along a run: at each event, from the state before it. -/
def observed : σ → List ε → List ω
  | _, [] => []
  | s, e :: es => view s e ++ observed (step s e) es

@[simp] theorem observed_snoc (s : σ) (es : List ε) (e : ε) :
    observed step view s (es ++ [e]) = observed step view s es ++ view (es.foldl step s) e := by
  induction es generalizing s with
  | nil => simp [observed]
  | cons e' es ih => simp [observed, ih]

end Observed

end Trace
