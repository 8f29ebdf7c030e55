import AgcFramework.Lib.Trace
import Mathlib.Logic.Function.Basic
import Mathlib.Tactic.Common

/-!
# Programs that call their environment

A program is a tree: it returns, or it makes a call and goes on with the answer. What a call does
is not part of the program: the environment answers it and changes its own state. A set of threads
runs programs over one environment, one call at a time, in any order.

## Main definitions

* `Prog C R α`: the programs over the calls `C`, the answers to a call `c` being of type `R c`
* `Prog.Safe`: every call the program makes is allowed in the local state it is made in
* `Prog.exec`, `Prog.Yields`: one program run alone
* `Prog.Comes`, `Prog.Ends`: a program that comes to a call with which it ends
* `Prog.CanEnd`: a program that has a run to its end
* `Prog.Only`: every call the program makes is of a given kind
* `System.step`, `System.run`: threads that start, make one call each time, and return
* `System.restrict`: the system in which only calls that meet a condition are answered

## Main results

* `Prog.Safe.bind`: safety of a program from that of its parts
* `Prog.Safe.exec`: a safe program run alone keeps the invariant of the environment
* `Prog.Only.keeps`: what the calls of a kind keep, a program of such calls keeps
* `Prog.Yields.project`: a run over one environment as a run over a coarser one
* `System.Sound.step`, `System.Sound.run`: threads of safe programs keep it in every interleaving
* `System.run_restrict`: the runs whose calls meet a condition
-/

/-- A program over the calls `C`. -/
inductive Prog (C : Type) (R : C → Type) (α : Type) : Type
  | ret (a : α)
  | call (c : C) (next : R c → Prog C R α)

namespace Prog

variable {C : Type} {R : C → Type} {α β γ L σ ω : Type}

/-- Sequencing. -/
protected def bind : Prog C R α → (α → Prog C R β) → Prog C R β
  | ret a, f => f a
  | call c next, f => call c fun r => (next r).bind f

instance : Monad (Prog C R) where
  pure := ret
  bind := Prog.bind

@[simp] theorem pure_eq (a : α) : (pure a : Prog C R α) = ret a := rfl

@[simp] theorem ret_bind (a : α) (f : α → Prog C R β) : ret a >>= f = f a := rfl

@[simp] theorem call_bind (c : C) (next : R c → Prog C R α) (f : α → Prog C R β) :
    call c next >>= f = call c fun r => next r >>= f := rfl

theorem bind_ret (p : Prog C R α) : p >>= ret = p := by
  induction p with
  | ret a => rfl
  | call c next ih =>
    rw [call_bind]
    exact congrArg (call c) (funext ih)

theorem bind_bind (p : Prog C R α) (f : α → Prog C R β) (g : β → Prog C R γ) :
    p >>= f >>= g = p >>= fun a => f a >>= g := by
  induction p with
  | ret a => rfl
  | call c next ih =>
    simp only [call_bind]
    exact congrArg (call c) (funext ih)

instance : LawfulMonad (Prog C R) :=
  LawfulMonad.mk' _ (fun p => bind_ret p) (fun _ _ => rfl) bind_bind

/-! ## Safety

A discipline gives the calls that are allowed in a local state (they may be judged together with
what follows them) and the local states a call can lead to. -/

/-- Every call the program makes is allowed where it is made, and it returns in a good state. -/
def Safe (ok : L → (c : C) → (R c → Prog C R α) → Prop) (post : L → (c : C) → R c → L → Prop)
    (Q : L → α → Prop) : Prog C R α → L → Prop
  | ret a, l => Q l a
  | call c next, l => ok l c next ∧ ∀ r l', post l c r l' → (next r).Safe ok post Q l'

variable {ok : L → (c : C) → (R c → Prog C R α) → Prop}
  {ok' : L → (c : C) → (R c → Prog C R β) → Prop}
  {post : L → (c : C) → R c → L → Prop} {Q : L → α → Prop} {Q' : L → β → Prop}

/-- More calls are allowed, and more results are good. -/
theorem Safe.mono {ok₁ : L → (c : C) → (R c → Prog C R α) → Prop} {Q₁ : L → α → Prop}
    {p : Prog C R α} {l : L} (hp : p.Safe ok post Q l)
    (hok : ∀ l c next, ok l c next → ok₁ l c next) (hQ : ∀ l a, Q l a → Q₁ l a) :
    p.Safe ok₁ post Q₁ l := by
  induction p generalizing l with
  | ret a => exact hQ l a hp
  | call c next ih =>
    obtain ⟨hc, hnext⟩ := hp
    exact ⟨hok l c next hc, fun r l' hpost => ih r (hnext r l' hpost)⟩

/-- A program followed by another: the second is safe wherever the first returns. -/
theorem Safe.bind {p : Prog C R α} {f : α → Prog C R β} {l : L} (hp : p.Safe ok post Q l)
    (hok : ∀ l c next, ok l c next → ok' l c fun r => next r >>= f)
    (hf : ∀ l a, Q l a → (f a).Safe ok' post Q' l) : (p >>= f).Safe ok' post Q' l := by
  induction p generalizing l with
  | ret a => exact hf l a hp
  | call c next ih =>
    obtain ⟨hc, hnext⟩ := hp
    exact ⟨hok l c next hc, fun r l' hpost => ih r (hnext r l' hpost)⟩

/-- The program run alone, one outcome of the environment for each call. -/
def exec (respond : σ → ω → (c : C) → Option (R c × σ)) :
    Prog C R α → σ → List ω → Option (α × σ)
  | ret a, s, [] => some (a, s)
  | ret _, _, _ :: _ => none
  | call _ _, _, [] => none
  | call c next, s, o :: os => (respond s o c).bind fun (r, s') => (next r).exec respond s' os

/-- The run of a sequence splits into the runs of its parts. -/
theorem exec_bind_eq_some {respond : σ → ω → (c : C) → Option (R c × σ)} {p : Prog C R α}
    {f : α → Prog C R β} {s s' : σ} {os : List ω} {b : β}
    (h : (p >>= f).exec respond s os = some (b, s')) :
    ∃ a s₁ os₁ os₂, p.exec respond s os₁ = some (a, s₁) ∧
      (f a).exec respond s₁ os₂ = some (b, s') := by
  induction p generalizing s os with
  | ret a => exact ⟨a, s, [], os, rfl, h⟩
  | call c next ih =>
    cases os with
    | nil => simp [exec] at h
    | cons o os =>
      rw [call_bind] at h
      simp only [exec, Option.bind_eq_some_iff] at h
      obtain ⟨⟨r, s₁⟩, hr, h⟩ := h
      obtain ⟨a, s₂, os₁, os₂, h₁, h₂⟩ := ih r h
      -- the outcome of the call belongs to the first part
      refine ⟨a, s₂, o :: os₁, os₂, ?_, h₂⟩
      simp only [exec, hr]
      exact h₁

/-- The program, run alone, can give the result and the state. -/
def Yields (respond : σ → ω → (c : C) → Option (R c × σ)) (p : Prog C R α) (s : σ) (a : α)
    (s' : σ) : Prop :=
  ∃ os, p.exec respond s os = some (a, s')

section Yields

variable {respond : σ → ω → (c : C) → Option (R c × σ)} {p : Prog C R α} {f : α → Prog C R β}
  {s s' : σ} {a : α} {b : β}

theorem yields_ret {a' : α} : (ret a).Yields respond s a' s' ↔ a' = a ∧ s' = s := by
  constructor
  · rintro ⟨_ | ⟨o, os⟩, h⟩
    · simp only [exec, Option.some.injEq, Prod.mk.injEq] at h
      exact ⟨h.1.symm, h.2.symm⟩
    · simp [exec] at h
  · rintro ⟨rfl, rfl⟩
    exact ⟨[], rfl⟩

theorem yields_call {c : C} {next : R c → Prog C R α} :
    (call c next).Yields respond s a s' ↔
      ∃ o r s₁, respond s o c = some (r, s₁) ∧ (next r).Yields respond s₁ a s' := by
  constructor
  · rintro ⟨_ | ⟨o, os⟩, h⟩
    · simp [exec] at h
    · simp only [exec, Option.bind_eq_some_iff] at h
      obtain ⟨⟨r, s₁⟩, hr, h⟩ := h
      exact ⟨o, r, s₁, hr, os, h⟩
  · rintro ⟨o, r, s₁, hr, os, h⟩
    refine ⟨o :: os, ?_⟩
    simp only [exec, hr]
    exact h

/-- A run on the given outcomes. -/
theorem exists_yields (os : List ω) (h : (p.exec respond s os).map Prod.fst = some a) :
    ∃ s', p.Yields respond s a s' := by
  obtain ⟨⟨_, s'⟩, he, rfl⟩ := Option.map_eq_some_iff.mp h
  exact ⟨s', os, he⟩

theorem Yields.of_bind (h : (p >>= f).Yields respond s b s') :
    ∃ a s₁, p.Yields respond s a s₁ ∧ (f a).Yields respond s₁ b s' := by
  obtain ⟨os, h⟩ := h
  obtain ⟨a, s₁, os₁, os₂, h₁, h₂⟩ := exec_bind_eq_some h
  exact ⟨a, s₁, ⟨os₁, h₁⟩, os₂, h₂⟩

/-- The runs of the parts make up the run of a sequence. -/
theorem exec_bind {os os' : List ω} {s₁ : σ} (hp : p.exec respond s os = some (a, s₁))
    (hf : (f a).exec respond s₁ os' = some (b, s')) :
    (p >>= f).exec respond s (os ++ os') = some (b, s') := by
  induction p generalizing s os with
  | ret a' =>
    cases os with
    | nil =>
      obtain ⟨rfl, rfl⟩ := Prod.mk.inj (Option.some.inj hp)
      exact hf
    | cons o os => cases hp
  | call c next ih =>
    cases os with
    | nil => cases hp
    | cons o os =>
      simp only [exec, Option.bind_eq_some_iff] at hp
      obtain ⟨⟨r, s₂⟩, hr, hp⟩ := hp
      simp only [call_bind, List.cons_append, exec, hr, Option.bind_some]
      exact ih r hp

theorem Yields.bind {s₁ : σ} (hp : p.Yields respond s a s₁)
    (hf : (f a).Yields respond s₁ b s') : (p >>= f).Yields respond s b s' := by
  obtain ⟨os, hp⟩ := hp
  obtain ⟨os', hf⟩ := hf
  exact ⟨os ++ os', exec_bind hp hf⟩

/-- Every call that the program makes is of the given kind. -/
def Only (P : C → Prop) : Prog C R α → Prop
  | ret _ => True
  | call c next => P c ∧ ∀ r, (next r).Only P

theorem Only.mono {P Q : C → Prop} (hp : p.Only P) (h : ∀ c, P c → Q c) : p.Only Q := by
  induction p with
  | ret a => exact trivial
  | call c next ih => exact ⟨h c hp.1, fun r => ih r (hp.2 r)⟩

theorem Only.bind {P : C → Prop} (hp : p.Only P) (hf : ∀ a, (f a).Only P) :
    (p >>= f).Only P := by
  induction p with
  | ret a => exact hf a
  | call c next ih => exact ⟨hp.1, fun r => ih r (hp.2 r)⟩

/-- What the calls of a kind keep, a program of such calls keeps. -/
theorem Only.keeps {P : C → Prop} {I : σ → Prop}
    (hI : ∀ s o c r s', P c → respond s o c = some (r, s') → I s → I s') (hp : p.Only P)
    (h : p.Yields respond s a s') (hs : I s) : I s' := by
  induction p generalizing s with
  | ret b =>
    obtain ⟨-, rfl⟩ := yields_ret.mp h
    exact hs
  | call c next ih =>
    obtain ⟨o, r, s₁, hr, h⟩ := yields_call.mp h
    exact ih r (hp.2 r) h (hI s o c r s₁ hp.1 hr hs)

/-- An environment that answers as another one can: the program runs there too. -/
theorem Yields.project {τ ω' : Type} {respond' : τ → ω' → (c : C) → Option (R c × τ)} {g : σ → τ}
    (hsim : ∀ s o c r s', respond s o c = some (r, s') →
      ∃ o', respond' (g s) o' c = some (r, g s'))
    (h : p.Yields respond s a s') : p.Yields respond' (g s) a (g s') := by
  induction p generalizing s with
  | ret b =>
    obtain ⟨rfl, rfl⟩ := yields_ret.mp h
    exact yields_ret.mpr ⟨rfl, rfl⟩
  | call c next ih =>
    obtain ⟨o, r, s₁, hr, h⟩ := yields_call.mp h
    obtain ⟨o', hr'⟩ := hsim s o c r s₁ hr
    exact yields_call.mpr ⟨o', r, g s₁, hr', ih r h⟩

end Yields

/-! ## Programs that end in the middle

A call that no environment answers is the end of a run: what the program would do next is not
reached. -/

/-- The program, run alone, comes to the call. -/
def Comes (respond : σ → ω → (c : C) → Option (R c × σ)) (stop : C) :
    Prog C R α → σ → σ → Prop
  | ret _, _, _ => False
  | call c next, s, s' => (c = stop ∧ s' = s) ∨
      ∃ o r s₁, respond s o c = some (r, s₁) ∧ (next r).Comes respond stop s₁ s'

/-- The program, run alone, can end so: with a result, or at the call `stop`. -/
def Ends (respond : σ → ω → (c : C) → Option (R c × σ)) (stop : C) (p : Prog C R α) (s : σ) :
    Option α → σ → Prop
  | some a, s' => p.Yields respond s a s'
  | none, s' => p.Comes respond stop s s'

section Ends

variable {respond : σ → ω → (c : C) → Option (R c × σ)} {stop : C} {p : Prog C R α}
  {f : α → Prog C R β} {s s₁ s' : σ} {a : α} {out : Option α} {out' : Option β}

theorem ends_ret : (ret a).Ends respond stop s out s' ↔ out = some a ∧ s' = s := by
  cases out with
  | none => simp [Ends, Comes]
  | some b =>
    rw [Option.some.injEq]
    exact yields_ret

/-- The first call of a program is answered. -/
theorem ends_call {c : C} {next : R c → Prog C R α} (hc : c ≠ stop) :
    (call c next).Ends respond stop s out s' ↔
      ∃ o r s₁, respond s o c = some (r, s₁) ∧ (next r).Ends respond stop s₁ out s' := by
  cases out with
  | none => simp only [Ends, Comes, hc, false_and, false_or]
  | some b => exact yields_call

/-- The call `stop` is not answered. -/
theorem ends_stop [IsEmpty (R stop)] {next : R stop → Prog C R α} :
    (call stop next).Ends respond stop s out s' ↔ out = none ∧ s' = s := by
  cases out with
  | some a =>
    refine iff_of_false (fun h => ?_) (by simp)
    obtain ⟨_, r, _⟩ := yields_call.mp h
    exact isEmptyElim r
  | none =>
    refine ⟨?_, fun h => Or.inl ⟨rfl, h.2⟩⟩
    rintro (⟨-, rfl⟩ | ⟨_, r, _⟩)
    · exact ⟨rfl, rfl⟩
    · exact isEmptyElim r

theorem comes_call_of_mem {c : C} {next : R c → Prog C R α} {o : ω} {r : R c}
    (hr : respond s o c = some (r, s₁)) (h : (next r).Comes respond stop s₁ s') :
    (call c next).Comes respond stop s s' :=
  Or.inr ⟨o, r, s₁, hr, h⟩

/-- A sequence ends in its first part, or in the second one. -/
theorem Ends.of_bind (h : (p >>= f).Ends respond stop s out' s') :
    (out' = none ∧ p.Comes respond stop s s') ∨
      ∃ a s₁, p.Yields respond s a s₁ ∧ (f a).Ends respond stop s₁ out' s' := by
  cases out' with
  | some b => exact Or.inr (Yields.of_bind h)
  | none =>
    induction p generalizing s with
    | ret a => exact Or.inr ⟨a, s, yields_ret.mpr ⟨rfl, rfl⟩, h⟩
    | call c next ih =>
      rcases h with ⟨rfl, rfl⟩ | ⟨o, r, s₁, hr, h⟩
      · exact Or.inl ⟨rfl, Or.inl ⟨rfl, rfl⟩⟩
      · rcases ih r h with ⟨-, hp⟩ | ⟨a, s₂, hp, hf⟩
        · exact Or.inl ⟨rfl, comes_call_of_mem hr hp⟩
        · exact Or.inr ⟨a, s₂, yields_call.mpr ⟨o, r, s₁, hr, hp⟩, hf⟩

theorem Comes.bind (hp : p.Comes respond stop s s') (f : α → Prog C R β) :
    (p >>= f).Comes respond stop s s' := by
  induction p generalizing s with
  | ret a => exact hp.elim
  | call c next ih =>
    rcases hp with hp | ⟨o, r, s₁, hr, hp⟩
    · exact Or.inl hp
    · exact comes_call_of_mem hr (ih r hp)

theorem Ends.bind (hp : p.Yields respond s a s₁) (hf : (f a).Ends respond stop s₁ out' s') :
    (p >>= f).Ends respond stop s out' s' := by
  cases out' with
  | some b => exact Yields.bind hp hf
  | none =>
    induction p generalizing s with
    | ret b =>
      obtain ⟨rfl, rfl⟩ := yields_ret.mp hp
      exact hf
    | call c next ih =>
      obtain ⟨o, r, s₂, hr, hp⟩ := yields_call.mp hp
      exact comes_call_of_mem hr (ih r hp)

/-- A program that never makes the call does not come to it. -/
theorem Only.not_comes {P : C → Prop} (hp : p.Only P) (hstop : ¬ P stop) :
    ¬ p.Comes respond stop s s' := by
  induction p generalizing s with
  | ret a => exact id
  | call c next ih =>
    rintro (⟨rfl, -⟩ | ⟨o, r, s₁, -, h⟩)
    · exact hstop hp.1
    · exact ih r (hp.2 r) h

/-- Behind a program that never makes the call, the second part of a sequence ends the run. -/
theorem Only.ends_bind {P : C → Prop} (hp : p.Only P) (hstop : ¬ P stop)
    (h : (p >>= f).Ends respond stop s out' s') :
    ∃ a s₁, p.Yields respond s a s₁ ∧ (f a).Ends respond stop s₁ out' s' := by
  rcases h.of_bind with ⟨-, hcomes⟩ | h
  · exact absurd hcomes (hp.not_comes hstop)
  · exact h

/-- From a state of the first kind the program can come to an end in one of the second kind. -/
def CanEnd (respond : σ → ω → (c : C) → Option (R c × σ)) (stop : C) (I J : σ → Prop)
    (p : Prog C R α) : Prop :=
  ∀ s, I s → ∃ out s', p.Ends respond stop s out s' ∧ J s'

section CanEnd

variable {I I' J : σ → Prop}

theorem canEnd_ret (h : ∀ s, I s → J s) : (ret a).CanEnd respond stop I J :=
  fun s hs => ⟨some a, s, ends_ret.mpr ⟨rfl, rfl⟩, h s hs⟩

theorem canEnd_stop {next : R stop → Prog C R α} (h : ∀ s, I s → J s) :
    (call stop next).CanEnd respond stop I J :=
  fun s hs => ⟨none, s, Or.inl ⟨rfl, rfl⟩, h s hs⟩

/-- A program that can end, and then another one; what the first ends in is good enough if it comes
to the call `stop`. -/
theorem CanEnd.bind (hp : p.CanEnd respond stop I I') (hf : ∀ a, (f a).CanEnd respond stop I' J)
    (h : ∀ s, I' s → J s) : (p >>= f).CanEnd respond stop I J := by
  intro s hs
  obtain ⟨out, s₁, hrun, hs₁⟩ := hp s hs
  cases out with
  | none => exact ⟨none, s₁, Comes.bind hrun f, h s₁ hs₁⟩
  | some a =>
    obtain ⟨out', s', hrun', hs'⟩ := hf a s₁ hs₁
    exact ⟨out', s', Ends.bind hrun hrun', hs'⟩

/-- Where every call of a kind can be answered so that the invariant is kept, a program of such
calls can end. -/
theorem Only.canEnd {P : C → Prop}
    (hI : ∀ s c, P c → c ≠ stop → I s → ∃ o r s', respond s o c = some (r, s') ∧ I s')
    (hp : p.Only P) : p.CanEnd respond stop I I := by
  induction p with
  | ret a => exact canEnd_ret fun _ hs => hs
  | call c next ih =>
    intro s hs
    by_cases hc : c = stop
    · exact ⟨none, s, Or.inl ⟨hc, rfl⟩, hs⟩
    · obtain ⟨o, r, s₁, hr, hs₁⟩ := hI s c hp.1 hc hs
      obtain ⟨out, s', h, hs'⟩ := ih r (hp.2 r) s₁ hs₁
      exact ⟨out, s', (ends_call hc).mpr ⟨o, r, s₁, hr, h⟩, hs'⟩

end CanEnd

end Ends

/-- Calls that are allowed keep the invariant of the environment and lead the thread that makes
them to a local state of the discipline. The other threads stay in theirs. -/
def Keeps {τ : Type} [DecidableEq τ] (respond : σ → τ → ω → (c : C) → Option (R c × σ))
    (ok : L → (c : C) → (R c → Prog C R α) → Prop) (post : L → (c : C) → R c → L → Prop)
    (Inv : σ → (τ → L) → Prop) : Prop :=
  ∀ s l t o c next r s', Inv s l → ok (l t) c next → respond s t o c = some (r, s') →
    ∃ l', post (l t) c r l' ∧ Inv s' (Function.update l t l')

/-- A safe program run alone keeps the invariant. -/
theorem Safe.exec {τ : Type} [DecidableEq τ]
    {respond : σ → τ → ω → (c : C) → Option (R c × σ)} {Inv : σ → (τ → L) → Prop}
    (hkeeps : Keeps respond ok post Inv) {p : Prog C R α} {s s' : σ} {l : τ → L} {t : τ}
    {os : List ω} {a : α} (hp : p.Safe ok post Q (l t)) (hinv : Inv s l)
    (he : p.exec (fun s => respond s t) s os = some (a, s')) :
    ∃ l', Q l' a ∧ Inv s' (Function.update l t l') := by
  induction p generalizing s l os with
  | ret b =>
    cases os with
    | nil =>
      simp only [Prog.exec, Option.some.injEq, Prod.mk.injEq] at he
      obtain ⟨rfl, rfl⟩ := he
      exact ⟨l t, hp, by rwa [Function.update_eq_self]⟩
    | cons o os => simp [Prog.exec] at he
  | call c next ih =>
    cases os with
    | nil => simp [Prog.exec] at he
    | cons o os =>
      obtain ⟨hok, hnext⟩ := hp
      simp only [Prog.exec, Option.bind_eq_some_iff] at he
      obtain ⟨⟨r, s₁⟩, hr, he⟩ := he
      obtain ⟨l₁, hpost, hinv₁⟩ := hkeeps s l t o c next r s₁ hinv hok hr
      -- the rest is safe in the local state the call has led to
      have hsafe : (next r).Safe ok post Q (Function.update l t l₁ t) := by
        rw [Function.update_self]
        exact hnext r l₁ hpost
      obtain ⟨l', hQ, hinv'⟩ := ih r hsafe hinv₁ he
      rw [Function.update_idem] at hinv'
      exact ⟨l', hQ, hinv'⟩

end Prog

/-! ## Threads -/

/-- The tasks `ι` that threads `τ` run, and how the environment answers a thread's call: with no
answer the thread has to wait. -/
structure System (ι τ σ ω : Type) (C : Type) (R : C → Type) (α : Type) where
  body : ι → Prog C R α
  respond : σ → τ → ω → (c : C) → Option (R c × σ)

namespace System

variable {ι τ σ ω C α L : Type} {R : C → Type}

/-- The state of the environment, and what each thread has left to do of its task. -/
structure Config (ι τ σ C : Type) (R : C → Type) (α : Type) where
  state : σ
  thread : τ → Option (ι × Prog C R α)

/-- One step of a thread. -/
inductive Label (ι τ ω : Type)
  /-- The idle thread starts a task. -/
  | start (t : τ) (i : ι)
  /-- The thread makes its next call, or its task returns. -/
  | step (t : τ) (o : ω)

/-- The thread that makes the step. -/
def Label.thread : Label ι τ ω → τ
  | .start t _ => t
  | .step t _ => t

variable [DecidableEq τ]

/-- One step. A step that cannot be made has no result. -/
def step (S : System ι τ σ ω C R α) (g : Config ι τ σ C R α) :
    Label ι τ ω → Option (Config ι τ σ C R α)
  | .start t i =>
    match g.thread t with
    | none => some { g with thread := Function.update g.thread t (some (i, S.body i)) }
    | some _ => none
  | .step t o =>
    match g.thread t with
    | none => none
    | some (_, .ret _) => some { g with thread := Function.update g.thread t none }
    | some (i, .call c next) =>
      (S.respond g.state t o c).map fun (r, s) =>
        { state := s, thread := Function.update g.thread t (some (i, next r)) }

/-- Steps one after the other. -/
def run (S : System ι τ σ ω C R α) (g : Config ι τ σ C R α) (ls : List (Label ι τ ω)) :
    Option (Config ι τ σ C R α) :=
  ls.foldlM S.step g

theorem run_snoc (S : System ι τ σ ω C R α) (g : Config ι τ σ C R α) (ls : List (Label ι τ ω))
    (lab : Label ι τ ω) : S.run g (ls ++ [lab]) = (S.run g ls).bind (S.step · lab) := by
  simp only [run, List.foldlM_append, List.foldlM_cons, List.foldlM_nil, bind_pure]
  rfl

/-- A step leaves the state of the environment alone, or is a call of a thread. -/
theorem state_of_step {S : System ι τ σ ω C R α} {g g' : Config ι τ σ C R α} {lab : Label ι τ ω}
    (h : S.step g lab = some g') :
    g'.state = g.state ∨ ∃ t o i c next r, lab = .step t o ∧ g.thread t = some (i, .call c next) ∧
      S.respond g.state t o c = some (r, g'.state) := by
  cases lab with
  | start t i =>
    simp only [step] at h
    split at h <;> cases h
    exact Or.inl rfl
  | step t o =>
    simp only [step] at h
    split at h
    · cases h
    · cases h
      exact Or.inl rfl
    · rename_i i c next ht
      simp only [Option.map_eq_some_iff, Prod.exists] at h
      obtain ⟨r, s', hr, rfl⟩ := h
      exact Or.inr ⟨t, o, i, c, next, r, rfl, ht, hr⟩

/-- The other threads stay where they are. -/
theorem thread_of_step {S : System ι τ σ ω C R α} {g g' : Config ι τ σ C R α} {lab : Label ι τ ω}
    {u : τ} (h : S.step g lab = some g') (hu : u ≠ lab.thread) : g'.thread u = g.thread u := by
  cases lab with
  | start t i =>
    simp only [step] at h
    split at h <;> cases h
    exact Function.update_of_ne hu _ _
  | step t o =>
    simp only [step] at h
    split at h
    · cases h
    · cases h
      exact Function.update_of_ne hu _ _
    · simp only [Option.map_eq_some_iff, Prod.exists] at h
      obtain ⟨r, s', -, rfl⟩ := h
      exact Function.update_of_ne hu _ _

/-- A thread that takes no step stays where it is. -/
theorem thread_of_run {S : System ι τ σ ω C R α} {g g' : Config ι τ σ C R α}
    {ls : List (Label ι τ ω)} {u : τ} (h : S.run g ls = some g')
    (hu : ∀ lab ∈ ls, u ≠ lab.thread) : g'.thread u = g.thread u := by
  induction ls using List.reverseRecOn generalizing g' with
  | nil =>
    obtain rfl := Option.some.inj h
    rfl
  | append_singleton ls lab ih =>
    rw [run_snoc, Option.bind_eq_some_iff] at h
    obtain ⟨g₁, hg₁, hs⟩ := h
    rw [thread_of_step hs (hu lab (by simp))]
    exact ih hg₁ fun lab' hlab' => hu lab' (List.mem_append_left _ hlab')

/-- The invariant holds for local states in which every thread's remaining program is safe; the
idle threads are at rest. -/
def Sound (ok : ι → L → (c : C) → (R c → Prog C R α) → Prop)
    (post : L → (c : C) → R c → L → Prop) (rest : L) (Inv : σ → (τ → L) → Prop)
    (g : Config ι τ σ C R α) : Prop :=
  ∃ l, Inv g.state l ∧ (∀ t, g.thread t = none → l t = rest) ∧
    ∀ t i p, g.thread t = some (i, p) → p.Safe (ok i) post (fun l' _ => l' = rest) (l t)

section Sound

variable {S : System ι τ σ ω C R α} {ok : ι → L → (c : C) → (R c → Prog C R α) → Prop}
  {post : L → (c : C) → R c → L → Prop} {rest : L} {Inv : σ → (τ → L) → Prop}
  {g g' : Config ι τ σ C R α}

/-- A thread has moved on, and the others are where they were. -/
theorem Sound.update {l : τ → L} {l' : L} {s' : σ} {t : τ} {task : Option (ι × Prog C R α)}
    (hinv : Inv s' (Function.update l t l')) (hidle : ∀ u, g.thread u = none → l u = rest)
    (hsafe : ∀ u i p, g.thread u = some (i, p) →
      p.Safe (ok i) post (fun l' _ => l' = rest) (l u))
    (hnone : task = none → l' = rest)
    (hsome : ∀ i p, task = some (i, p) → p.Safe (ok i) post (fun l' _ => l' = rest) l') :
    Sound ok post rest Inv { state := s', thread := Function.update g.thread t task } := by
  refine ⟨Function.update l t l', hinv, fun u hu => ?_, fun u i p hu => ?_⟩
  · by_cases hut : u = t
    · subst hut
      simp only [Function.update_self] at hu ⊢
      exact hnone hu
    · simp only [Function.update_of_ne hut] at hu ⊢
      exact hidle u hu
  · by_cases hut : u = t
    · subst hut
      simp only [Function.update_self] at hu ⊢
      exact hsome i p hu
    · simp only [Function.update_of_ne hut] at hu ⊢
      exact hsafe u i p hu

/-- One step keeps the invariant and the safety of every thread. -/
theorem Sound.step (hbody : ∀ i, (S.body i).Safe (ok i) post (fun l' _ => l' = rest) rest)
    (hkeeps : ∀ i, Prog.Keeps S.respond (ok i) post Inv) (h : Sound ok post rest Inv g)
    {lab : Label ι τ ω} (hs : S.step g lab = some g') : Sound ok post rest Inv g' := by
  obtain ⟨l, hinv, hidle, hsafe⟩ := h
  have hself : ∀ t, Inv g.state (Function.update l t (l t)) := fun t => by
    rw [Function.update_eq_self]
    exact hinv
  cases lab with
  | start t i =>
    simp only [System.step] at hs
    split at hs
    · -- a thread that starts a task was at rest
      rename_i hnone
      obtain rfl := Option.some.inj hs
      refine Sound.update (hself t) hidle hsafe (by simp) fun j p hp => ?_
      cases hp
      rw [hidle t hnone]
      exact hbody i
    · simp at hs
  | step t o =>
    simp only [System.step] at hs
    split at hs
    · simp at hs
    · -- the task returns: its thread is at rest
      rename_i i a ht
      obtain rfl := Option.some.inj hs
      exact Sound.update (hself t) hidle hsafe (fun _ => hsafe t i _ ht) (by simp)
    · -- a call: the environment keeps the invariant, and the rest of the task is safe
      rename_i i c next ht
      simp only [Option.map_eq_some_iff, Prod.exists] at hs
      obtain ⟨r, s', hr, rfl⟩ := hs
      obtain ⟨hok, hnext⟩ := hsafe t i _ ht
      obtain ⟨l', hpost, hinv'⟩ := hkeeps i g.state l t o c next r s' hinv hok hr
      refine Sound.update hinv' hidle hsafe (by simp) fun j p hp => ?_
      cases hp
      exact hnext r l' hpost

/-- Every interleaving keeps the invariant and the safety of every thread. -/
theorem Sound.run (hbody : ∀ i, (S.body i).Safe (ok i) post (fun l' _ => l' = rest) rest)
    (hkeeps : ∀ i, Prog.Keeps S.respond (ok i) post Inv) (h : Sound ok post rest Inv g)
    {ls : List (Label ι τ ω)} (hs : S.run g ls = some g') : Sound ok post rest Inv g' := by
  induction ls using List.reverseRecOn generalizing g' with
  | nil =>
    obtain rfl := Option.some.inj hs
    exact h
  | append_singleton ls lab ih =>
    rw [run_snoc, Option.bind_eq_some_iff] at hs
    obtain ⟨g₁, hg₁, hs⟩ := hs
    exact (ih hg₁).step hbody hkeeps hs

end Sound

/-! ### Runs whose calls meet a condition -/

section Restrict

variable (S : System ι τ σ ω C R α) (P : σ → τ → ω → C → Prop) [∀ s t o c, Decidable (P s t o c)]

/-- The system in which a call that does not meet the condition is not answered. -/
def restrict : System ι τ σ ω C R α where
  body := S.body
  respond s t o c := if P s t o c then S.respond s t o c else none

/-- The call that a thread makes next. -/
def Config.calling (g : Config ι τ σ C R α) (t : τ) : Option C :=
  match g.thread t with
  | some (_, .call c _) => some c
  | _ => none

/-- The step is not a call, or one that meets the condition. -/
def Config.Meets (g : Config ι τ σ C R α) : Label ι τ ω → Prop
  | .start _ _ => True
  | .step t o => ∀ c ∈ g.calling t, P g.state t o c

instance (g : Config ι τ σ C R α) : DecidablePred (g.Meets P : Label ι τ ω → Prop)
  | .start _ _ => isTrue trivial
  | .step t o => inferInstanceAs (Decidable (∀ c ∈ g.calling t, P g.state t o c))

variable {S P} {g g' : Config ι τ σ C R α}

theorem step_restrict {lab : Label ι τ ω} (hlab : g.Meets P lab) :
    (S.restrict P).step g lab = S.step g lab := by
  cases lab with
  | start t i => rfl
  | step t o =>
    simp only [step]
    split
    · rfl
    · rfl
    · rename_i i c next ht
      have hc : P g.state t o c := hlab c (by simp [Config.calling, ht])
      simp only [restrict, if_pos hc]

/-- A run whose calls meet the condition is one of the restricted system. -/
theorem run_restrict {ls : List (Label ι τ ω)} (hs : S.run g ls = some g')
    (hls : Trace.Throughout (fun pre lab => ∀ g₀ ∈ S.run g pre, g₀.Meets P lab) ls) :
    (S.restrict P).run g ls = some g' := by
  induction ls using List.reverseRecOn generalizing g' with
  | nil => exact hs
  | append_singleton ls lab ih =>
    rw [run_snoc, Option.bind_eq_some_iff] at hs ⊢
    obtain ⟨g₁, hg₁, hs⟩ := hs
    obtain ⟨hls, hlab⟩ := Trace.throughout_snoc.mp hls
    refine ⟨g₁, ih hg₁ hls, ?_⟩
    rw [step_restrict (hlab g₁ hg₁)]
    exact hs

end Restrict

end System
