import Mathlib.Data.List.Induction
import Mathlib.Tactic.Common

/-!
# Commands that are logged

A command changes a state and makes calls to something outside, which are logged. It is specified by
a pre- and a postcondition on the state and the log, with a way out: some logs are *lost*, which no
further call repairs, and a command may end with one of them in place of its postcondition. A
sequence of commands that goes wrong on the way is then specified like one that does not, and the
wrong end is looked at where the run is over.

## Main definitions

* `Command σ ε α`: a command with its result, on a state and with its calls
* `Command.Sticky lost`: what is lost stays lost
* `Command.Triple lost P m Q`: from `P` the command ends with `Q` or is lost
* `Command.Keeps I m`: the command keeps an invariant of the state
* `Command.Agrees f m m'`: the commands do the same, and the result of one is seen in the other's

## Main results

* `Triple.pure`, `Triple.bind`, `Triple.ite`, `Triple.get`, `Triple.get_bind`, `Triple.modify`,
  `Triple.tell`: the rules of the commands
* `Triple.mono`, `Triple.of_pre`: the rules of the conditions
* `Triple.foldl`, `Keeps.foldl`: the run rules
* `Agrees.bind`, `Agrees.ite`: commands that observe more, part by part
-/

/-- A command: its result, the state behind it and the calls that it makes. -/
def Command (σ ε α : Type) := σ → α × σ × List ε

namespace Command

variable {σ ε α β : Type}

instance : Monad (Command σ ε) where
  pure a := fun s => (a, s, [])
  bind m k := fun s =>
    let r := m s
    let r' := k r.1 r.2.1
    (r'.1, r'.2.1, r.2.2 ++ r'.2.2)

/-- The result is that of what comes next, in the state behind the first command. -/
theorem fst_bind (m : Command σ ε α) (k : α → Command σ ε β) (s : σ) :
    ((m >>= k) s).1 = (k (m s).1 (m s).2.1).1 := rfl

/-- Only what comes next in this state matters. -/
theorem bind_congr_apply {m : Command σ ε α} {k k' : α → Command σ ε β} {s : σ}
    (h : k (m s).1 (m s).2.1 = k' (m s).1 (m s).2.1) : (m >>= k) s = (m >>= k') s := by
  change (_, _, _) = (_, _, _)
  rw [h]

/-- The state. -/
def get : Command σ ε σ := fun s => (s, s, [])

/-- A change of the state. -/
def modify (f : σ → σ) : Command σ ε Unit := fun s => ((), f s, [])

/-- A call, by what is logged of it. -/
def tell (f : σ → ε) : Command σ ε Unit := fun s => ((), s, [f s])

/-- A state and a log, behind a command. -/
def run (m : Command σ ε α) (s : σ × List ε) : σ × List ε := ((m s.1).2.1, s.2 ++ (m s.1).2.2)

/-- What is lost stays lost. -/
class Sticky (lost : List ε → Prop) : Prop where
  append : ∀ {log : List ε} (log' : List ε), lost log → lost (log ++ log')

instance : Sticky fun _ : List ε => False := ⟨fun _ h => h⟩

/-- From a state and a log with `P` the command ends with `Q`, or it is lost. -/
def Triple (lost : List ε → Prop) (P : σ → List ε → Prop) (m : Command σ ε α)
    (Q : α → σ → List ε → Prop) : Prop :=
  ∀ s log, P s log → Q (m s).1 (m s).2.1 (log ++ (m s).2.2) ∨ lost (log ++ (m s).2.2)

namespace Triple

variable {lost : List ε → Prop} {P P' : σ → List ε → Prop} {m m' : Command σ ε α}
  {Q Q' : α → σ → List ε → Prop}

theorem pure {a : α} (h : ∀ s log, P s log → Q a s log) : Triple lost P (Pure.pure a) Q := by
  intro s log hs
  refine Or.inl ?_
  change Q a s (log ++ [])
  rw [List.append_nil]
  exact h s log hs

theorem get {Q : σ → σ → List ε → Prop} (h : ∀ s log, P s log → Q s s log) :
    Triple lost P Command.get Q := by
  intro s log hs
  refine Or.inl ?_
  change Q s s (log ++ [])
  rw [List.append_nil]
  exact h s log hs

theorem modify {f : σ → σ} {Q : Unit → σ → List ε → Prop} (h : ∀ s log, P s log → Q () (f s) log) :
    Triple lost P (Command.modify f) Q := by
  intro s log hs
  refine Or.inl ?_
  change Q () (f s) (log ++ [])
  rw [List.append_nil]
  exact h s log hs

theorem tell {f : σ → ε} {Q : Unit → σ → List ε → Prop}
    (h : ∀ s log, P s log → Q () s (log ++ [f s]) ∨ lost (log ++ [f s])) :
    Triple lost P (Command.tell f) Q :=
  h

theorem bind [Sticky lost] {k : α → Command σ ε β} {R : β → σ → List ε → Prop}
    (hm : Triple lost P m Q) (hk : ∀ a, Triple lost (Q a) (k a) R) :
    Triple lost P (m >>= k) R := by
  intro s log hs
  have hlog : log ++ ((m >>= k) s).2.2 = log ++ (m s).2.2 ++ (k (m s).1 (m s).2.1).2.2 :=
    (List.append_assoc ..).symm
  rw [hlog]
  rcases hm s log hs with hQ | hl
  · exact hk _ _ _ hQ
  · exact Or.inr (Sticky.append _ hl)

/-- What comes next is given the state. -/
theorem get_bind {k : σ → Command σ ε β} {R : β → σ → List ε → Prop}
    (h : ∀ s, Triple lost (fun s' log => s' = s ∧ P s' log) (k s) R) :
    Triple lost P (Command.get >>= k) R :=
  fun s log hs => h s s log ⟨rfl, hs⟩

theorem ite {c : Prop} [Decidable c] (h : c → Triple lost P m Q) (h' : ¬ c → Triple lost P m' Q) :
    Triple lost P (if c then m else m') Q := by
  split
  · rename_i hc
    exact h hc
  · rename_i hc
    exact h' hc

theorem mono (hm : Triple lost P m Q) (hP : ∀ s log, P' s log → P s log)
    (hQ : ∀ a s log, Q a s log → Q' a s log) : Triple lost P' m Q' :=
  fun s log hs => (hm s log (hP s log hs)).imp_left (hQ _ _ _)

/-- What the precondition says about no state may be assumed. -/
theorem of_pre {p : Prop} (hp : ∀ s log, P s log → p) (h : p → Triple lost P m Q) :
    Triple lost P m Q :=
  fun s log hs => h (hp s log hs) s log hs

/-- An invariant of each command holds behind a sequence of them, or the log is lost. -/
theorem foldl [Sticky lost] {ι : Type} {f : ι → Command σ ε Unit}
    (hf : ∀ i, Triple lost P (f i) fun _ => P) (l : List ι) (s : σ × List ε)
    (hs : P s.1 s.2 ∨ lost s.2) :
    P (l.foldl (fun s i => (f i).run s) s).1 (l.foldl (fun s i => (f i).run s) s).2 ∨
      lost (l.foldl (fun s i => (f i).run s) s).2 := by
  induction l using List.reverseRecOn with
  | nil => exact hs
  | append_singleton l i ih =>
    simp only [List.foldl_append, List.foldl_cons, List.foldl_nil]
    rcases ih with ih | ih
    · exact hf i _ _ ih
    · exact Or.inr (Sticky.append _ ih)

end Triple

/-! ## Invariants of the state -/

/-- The command keeps an invariant of the state. -/
class Keeps (I : σ → Prop) (m : Command σ ε α) : Prop where
  keeps : ∀ s, I s → I (m s).2.1

section Keeps

variable {I : σ → Prop} {m m' : Command σ ε α}

instance (a : α) : Keeps I (pure a : Command σ ε α) := ⟨fun _ hs => hs⟩

instance : Keeps I (get : Command σ ε σ) := ⟨fun _ hs => hs⟩

instance (f : σ → ε) : Keeps I (tell f) := ⟨fun _ hs => hs⟩

instance {k : α → Command σ ε β} [hm : Keeps I m] [hk : ∀ a, Keeps I (k a)] : Keeps I (m >>= k) :=
  ⟨fun s hs => (hk _).keeps _ (hm.keeps s hs)⟩

instance {c : Prop} [Decidable c] [hm : Keeps I m] [hm' : Keeps I m'] :
    Keeps I (if c then m else m') := by
  split
  · exact hm
  · exact hm'

theorem Keeps.triple (lost : List ε → Prop) [hm : Keeps I m] :
    Triple lost (fun s _ => I s) m fun _ s _ => I s :=
  fun s _ hs => Or.inl (hm.keeps s hs)

theorem Keeps.foldl {ι : Type} {f : ι → Command σ ε Unit} [hf : ∀ i, Keeps I (f i)] (l : List ι)
    (s : σ × List ε) (hs : I s.1) : I (l.foldl (fun s i => (f i).run s) s).1 := by
  induction l using List.reverseRecOn with
  | nil => exact hs
  | append_singleton l i ih =>
    simp only [List.foldl_append, List.foldl_cons, List.foldl_nil]
    exact (hf i).keeps _ ih

end Keeps

/-! ## Commands that observe more -/

/-- The commands do the same, and the result of `m'` is what `f` makes of the result of `m`. -/
def Agrees {γ : Type} (f : α → γ) (m : Command σ ε α) (m' : Command σ ε γ) : Prop :=
  ∀ s, m' s = (f (m s).1, (m s).2)

namespace Agrees

variable {γ δ : Type} {f : α → γ} {m : Command σ ε α} {m' : Command σ ε γ}

theorem pure (a : α) : Agrees f (Pure.pure a : Command σ ε α) (Pure.pure (f a)) := fun _ => rfl

/-- Something is added to the result. -/
theorem map {g : β → α} {m : Command σ ε β} (h : Agrees (fun b => f (g b)) m m') :
    Agrees f (m >>= fun b => Pure.pure (g b)) m' := by
  intro s
  rw [h s]
  refine Prod.ext rfl (Prod.ext rfl ?_)
  exact (List.append_nil _).symm

theorem bind {g : β → δ} {n : Command σ ε β} {n' : Command σ ε δ} {k : β → Command σ ε α}
    {k' : δ → Command σ ε γ} (hn : Agrees g n n') (h : ∀ b, Agrees f (k b) (k' (g b))) :
    Agrees f (n >>= k) (n' >>= k') := by
  intro s
  change (_, _, _) = (_, _, _)
  rw [hn, h]
  rfl

/-- The commands begin alike. -/
theorem bind_left {n : Command σ ε β} {k : β → Command σ ε α} {k' : β → Command σ ε γ}
    (h : ∀ b, Agrees f (k b) (k' b)) : Agrees f (n >>= k) (n >>= k') :=
  bind (g := id) (fun _ => rfl) h

theorem ite {c : Prop} [Decidable c] {n : Command σ ε α} {n' : Command σ ε γ}
    (h : c → Agrees f m m') (h' : ¬ c → Agrees f n n') :
    Agrees f (if c then m else n) (if c then m' else n') := by
  split
  · rename_i hc
    exact h hc
  · rename_i hc
    exact h' hc

end Agrees

end Command
