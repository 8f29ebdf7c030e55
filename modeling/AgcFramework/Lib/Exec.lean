import Mathlib.Algebra.Ring.Nat
import Mathlib.Tactic.Common

/-!
# Fuelled executions

A loop of a pointer program may follow a cyclic structure for ever, and a read may go through a
null or a released pointer. A computation is therefore a function of its fuel into `Exec`: it
returns a value, it faults, or its fuel runs out before it returns.

## Main definitions

* `Exec α`: a value, a fault, or exhausted fuel
* `Returns f a`: the computation returns `a`, for every fuel that is large enough
* `Faults f`: the computation faults, for every fuel that is large enough
* `Leads f g`: after some of its fuel `f` goes on as `g`
* `andThen`: sequencing that stops at a null result
* `checkInt n`: a count that is kept in an `int`

## Main results

* `Returns.unique`: a computation returns at most one value
* `Returns.foldlM_snoc`, `Returns.of_foldlM_snoc`: runs step by step
-/

namespace Exec

/-- How a computation stops without a value. -/
inductive Abort
  | fault
  | fuel
  deriving DecidableEq, Repr

end Exec

/-- A computation at a given fuel. -/
abbrev Exec (α : Type) := Except Exec.Abort α

namespace Exec

variable {α β : Type}

@[simp] theorem ok_bind (a : α) (f : α → Exec β) : (Except.ok a >>= f) = f a := rfl

@[simp] theorem error_bind (e : Abort) (f : α → Exec β) :
    ((Except.error e : Exec α) >>= f) = Except.error e := rfl

@[simp] theorem pure_eq_ok (a : α) : (pure a : Exec α) = Except.ok a := rfl

/-- A computation that returned made each of its parts return. -/
theorem bind_eq_ok {x : Exec α} {f : α → Exec β} {b : β} :
    (x >>= f) = Except.ok b ↔ ∃ a, x = Except.ok a ∧ f a = Except.ok b := by
  cases x with
  | ok a => simp
  | error e => simp

/-- What follows a computation and cannot stop does not decide whether it returns. -/
theorem exists_bind_iff {x : Exec α} {f : α → Exec β} (hf : ∀ a, ∃ b, f a = .ok b) :
    (∃ b, (x >>= f) = .ok b) ↔ ∃ a, x = .ok a := by
  constructor
  · rintro ⟨b, h⟩
    obtain ⟨a, ha, -⟩ := bind_eq_ok.mp h
    exact ⟨a, ha⟩
  · rintro ⟨a, ha⟩
    obtain ⟨b, hb⟩ := hf a
    exact ⟨b, bind_eq_ok.mpr ⟨a, ha, hb⟩⟩

/-- The fuelled computation `f` returns `a`: every fuel from some bound on gives `a`. -/
def Returns (f : ℕ → Exec α) (a : α) : Prop :=
  ∃ n, ∀ k, n ≤ k → f k = .ok a

/-- The fuelled computation `f` faults: every fuel from some bound on gives a fault. -/
def Faults (f : ℕ → Exec α) : Prop :=
  ∃ n, ∀ k, n ≤ k → f k = .error .fault

theorem Returns.unique {f : ℕ → Exec α} {a b : α} (ha : Returns f a) (hb : Returns f b) :
    a = b := by
  obtain ⟨n, hn⟩ := ha
  obtain ⟨m, hm⟩ := hb
  have h := (hn (max n m) (Nat.le_max_left n m)).symm.trans (hm (max n m) (Nat.le_max_right n m))
  exact Except.ok.inj h

theorem Returns.not_faults {f : ℕ → Exec α} {a : α} (ha : Returns f a) : ¬ Faults f := by
  rintro ⟨m, hm⟩
  obtain ⟨n, hn⟩ := ha
  have h := (hn (max n m) (Nat.le_max_left n m)).symm.trans (hm (max n m) (Nat.le_max_right n m))
  cases h

theorem Returns.const (a : α) : Returns (fun _ => .ok a) a := ⟨0, fun _ _ => rfl⟩

theorem Returns.congr {f g : ℕ → Exec α} {a : α} (hf : Returns f a) (h : ∀ k, g k = f k) :
    Returns g a := by
  obtain ⟨n, hn⟩ := hf
  exact ⟨n, fun k hk => (h k).trans (hn k hk)⟩

/-- A computation that spends one unit of fuel before it goes on. -/
theorem Returns.succ {f g : ℕ → Exec α} {a : α} (hf : Returns f a) (h : ∀ k, g (k + 1) = f k) :
    Returns g a := by
  obtain ⟨n, hn⟩ := hf
  refine ⟨n + 1, fun k hk => ?_⟩
  obtain ⟨k, rfl⟩ : ∃ m, k = m + 1 := ⟨k - 1, by omega⟩
  rw [h]
  exact hn k (by omega)

/-- Sequencing: the second computation continues from the value of the first. -/
theorem Returns.bind {f : ℕ → Exec α} {g : ℕ → α → Exec β} {a : α} {b : β}
    (hf : Returns f a) (hg : Returns (fun k => g k a) b) :
    Returns (fun k => f k >>= g k) b := by
  obtain ⟨n, hn⟩ := hf
  obtain ⟨m, hm⟩ := hg
  refine ⟨max n m, fun k hk => ?_⟩
  have hnk : n ≤ k := Nat.le_trans (Nat.le_max_left n m) hk
  have hmk : m ≤ k := Nat.le_trans (Nat.le_max_right n m) hk
  simp only [hn k hnk, ok_bind]
  exact hm k hmk

/-- What follows a computation that returns is what the sequence does. -/
theorem Returns.of_bind {f : ℕ → Exec α} {g : ℕ → α → Exec β} {a : α} {b : β}
    (h : Returns (fun k => f k >>= g k) b) (hf : Returns f a) : Returns (fun k => g k a) b := by
  obtain ⟨n, hn⟩ := hf
  obtain ⟨m, hm⟩ := h
  refine ⟨max n m, fun k hk => ?_⟩
  have e : (f k >>= g k) = .ok b := hm k (Nat.le_trans (Nat.le_max_right n m) hk)
  rw [hn k (Nat.le_trans (Nat.le_max_left n m) hk)] at e
  exact e

/-- A sequence that returns has a first part that does, at some fuel. -/
theorem Returns.exists_bind {f : ℕ → Exec α} {g : ℕ → α → Exec β} {b : β}
    (h : Returns (fun k => f k >>= g k) b) : ∃ n a, f n = .ok a ∧ g n a = .ok b := by
  obtain ⟨n, hn⟩ := h
  exact ⟨n, bind_eq_ok.mp (hn n (Nat.le_refl n))⟩

theorem Returns.bind_iff {f : ℕ → Exec α} {g : ℕ → α → Exec β} {a : α} {b : β}
    (hf : Returns f a) : Returns (fun k => f k >>= g k) b ↔ Returns (fun k => g k a) b :=
  ⟨fun h => h.of_bind hf, fun h => hf.bind h⟩

theorem Returns.succ_iff {f g : ℕ → Exec α} {a : α} (h : ∀ k, g (k + 1) = f k) :
    Returns g a ↔ Returns f a := by
  constructor
  · rintro ⟨n, hn⟩
    exact ⟨n, fun k hk => (h k).symm.trans (hn (k + 1) (by omega))⟩
  · intro hf
    exact hf.succ h

/-- Computations that agree from some fuel on return the same. -/
theorem returns_congr {f g : ℕ → Exec α} {a : α} (n : ℕ) (h : ∀ k, n ≤ k → g k = f k) :
    Returns g a ↔ Returns f a := by
  constructor
  · rintro ⟨m, hm⟩
    exact ⟨max n m, fun k hk => (h k (by omega)).symm.trans (hm k (by omega))⟩
  · rintro ⟨m, hm⟩
    exact ⟨max n m, fun k hk => (h k (by omega)).trans (hm k (by omega))⟩

/-- A computation whose value is made into another one that determines it. -/
theorem returns_map_iff {f : ℕ → Exec α} {g : α → β} (hg : Function.Injective g) {b : β} :
    Returns (fun k => f k >>= fun a => pure (g a)) b ↔ ∃ a, g a = b ∧ Returns f a := by
  constructor
  · rintro ⟨n, hn⟩
    have hval : ∀ k, n ≤ k → ∃ a, f k = .ok a ∧ g a = b := by
      intro k hk
      obtain ⟨a, ha, hb⟩ := bind_eq_ok.mp (hn k hk)
      exact ⟨a, ha, Except.ok.inj hb⟩
    obtain ⟨a, -, hb⟩ := hval n (Nat.le_refl n)
    refine ⟨a, hb, n, fun k hk => ?_⟩
    obtain ⟨a', ha', hb'⟩ := hval k hk
    rw [ha', hg (hb'.trans hb.symm)]
  · rintro ⟨a, rfl, h⟩
    exact h.bind (Returns.const _)

/-! ## Going on -/

/-- After some of its fuel the computation `f` goes on as `g`. -/
def Leads (f g : ℕ → Exec α) : Prop := ∃ n, ∀ k, f (k + n) = g k

section Leads

variable {f g h : ℕ → Exec α}

theorem Leads.refl (f : ℕ → Exec α) : Leads f f := ⟨0, fun _ => rfl⟩

theorem Leads.step (hfg : ∀ k, f (k + 1) = g k) : Leads f g := ⟨1, hfg⟩

theorem Leads.trans (hfg : Leads f g) (hgh : Leads g h) : Leads f h := by
  obtain ⟨n, hn⟩ := hfg
  obtain ⟨m, hm⟩ := hgh
  refine ⟨m + n, fun k => ?_⟩
  rw [← Nat.add_assoc, hn, hm]

theorem Leads.returns {a : α} (hfg : Leads f g) (hg : Returns g a) : Returns f a := by
  obtain ⟨n, hn⟩ := hfg
  obtain ⟨m, hm⟩ := hg
  refine ⟨m + n, fun k hk => ?_⟩
  obtain ⟨j, rfl⟩ := Nat.exists_eq_add_of_le' (Nat.le_trans (Nat.le_add_left n m) hk)
  rw [hn]
  exact hm j (by omega)

theorem Leads.faults (hfg : Leads f g) (hg : Faults g) : Faults f := by
  obtain ⟨n, hn⟩ := hfg
  obtain ⟨m, hm⟩ := hg
  refine ⟨m + n, fun k hk => ?_⟩
  obtain ⟨j, rfl⟩ := Nat.exists_eq_add_of_le' (Nat.le_trans (Nat.le_add_left n m) hk)
  rw [hn]
  exact hm j (by omega)

end Leads

/-- A computation that faults ends the sequence. -/
theorem Faults.bind {f : ℕ → Exec α} {g : ℕ → α → Exec β} (hf : Faults f) :
    Faults (fun k => f k >>= g k) := by
  obtain ⟨n, hn⟩ := hf
  exact ⟨n, fun k hk => by simp only [hn k hk, error_bind]⟩

/-! ## Lists of computations -/

theorem mapM_eq_ok {f : α → Exec β} {g : α → β} (l : List α)
    (h : ∀ a ∈ l, f a = .ok (g a)) : l.mapM f = .ok (l.map g) := by
  induction l with
  | nil => rfl
  | cons a l ih =>
    have ih := ih fun a ha => h a (List.mem_cons_of_mem _ ha)
    simp only [List.mapM_cons, h a List.mem_cons_self, ih, ok_bind, pure_eq_ok, List.map_cons]

/-- Each call of a walk that returned has returned. -/
theorem mapM_eq_ok_mem {f : α → Exec β} {l : List α} {l' : List β} {a : α}
    (h : l.mapM f = .ok l') (ha : a ∈ l) : ∃ b, f a = .ok b := by
  induction l generalizing l' with
  | nil => cases ha
  | cons x xs ih =>
    rw [List.mapM_cons] at h
    obtain ⟨y, hy, h⟩ := bind_eq_ok.mp h
    obtain ⟨ys, hys, -⟩ := bind_eq_ok.mp h
    rcases List.mem_cons.mp ha with rfl | ha
    · exact ⟨y, hy⟩
    · exact ih hys ha

/-- A computation for each element of a list. -/
theorem Returns.mapM {f : ℕ → α → Exec β} {g : α → β} (l : List α)
    (h : ∀ a ∈ l, Returns (fun k => f k a) (g a)) :
    Returns (fun k => l.mapM (f k)) (l.map g) := by
  induction l with
  | nil => exact Returns.const []
  | cons a l ih =>
    have ih := ih fun b hb => h b (List.mem_cons_of_mem a hb)
    have hcons : Returns (fun k => f k a >>= fun b => l.mapM (f k) >>= fun bs => pure (b :: bs))
        (g a :: l.map g) :=
      (h a List.mem_cons_self).bind (ih.bind (Returns.const _))
    exact hcons.congr fun k => List.mapM_cons

theorem length_of_mapM {f : α → Exec β} {l : List α} {l' : List β}
    (h : l.mapM f = .ok l') : l'.length = l.length := by
  induction l generalizing l' with
  | nil =>
    cases h
    rfl
  | cons a l ih =>
    rw [List.mapM_cons] at h
    obtain ⟨b, -, h⟩ := bind_eq_ok.mp h
    obtain ⟨bs, hbs, h⟩ := bind_eq_ok.mp h
    cases h
    simp [ih hbs]

/-! ## Null results -/

/-- Sequencing of computations that may return null, which ends the sequence. -/
def andThen (x : Exec (Option α)) (f : α → Exec (Option β)) : Exec (Option β) :=
  x >>= fun
    | none => pure none
    | some a => f a

@[simp] theorem andThen_ok_some (a : α) (f : α → Exec (Option β)) :
    andThen (.ok (some a)) f = f a := rfl

theorem Returns.andThen {f : ℕ → Exec (Option α)} {g : ℕ → α → Exec (Option β)} {a : α}
    {b : Option β} (hf : Returns f (some a)) (hg : Returns (fun k => g k a) b) :
    Returns (fun k => Exec.andThen (f k) (g k)) b := hf.bind hg

/-! ## Counts -/

/-- The largest `int`. -/
def INT_MAX : ℕ := 2 ^ 31 - 1

/-- A count that is kept in an `int`, whose overflow is a fault. -/
def checkInt (n : ℕ) : Exec Unit := if n ≤ INT_MAX then .ok () else .error .fault

theorem checkInt_of_le {n : ℕ} (h : n ≤ INT_MAX) : checkInt n = .ok () := if_pos h

theorem checkInt_eq_ok {n : ℕ} {u : Unit} : checkInt n = .ok u ↔ n ≤ INT_MAX := by
  unfold checkInt
  split
  · rename_i h
    simp [h]
  · rename_i h
    simp [h]

/-! ## Runs -/

section Run

variable {σ ι : Type} {step : ℕ → σ → ι → Exec σ} {s s' s'' : σ} {ops : List ι} {op : ι}

theorem foldlM_snoc (k : ℕ) :
    (ops ++ [op]).foldlM (step k) s = ops.foldlM (step k) s >>= fun s' => step k s' op := by
  simp only [List.foldlM_append, List.foldlM_cons, List.foldlM_nil, bind_pure]

/-- A run made longer by one step. -/
theorem Returns.foldlM_snoc (h : Returns (fun k => ops.foldlM (step k) s) s')
    (h' : Returns (fun k => step k s' op) s'') :
    Returns (fun k => (ops ++ [op]).foldlM (step k) s) s'' := by
  have hb : Returns (fun k => ops.foldlM (step k) s >>= fun s' => step k s' op) s'' := h.bind h'
  exact hb.congr fun k => Exec.foldlM_snoc k

/-- The last step of a run. -/
theorem Returns.of_foldlM_snoc (h : Returns (fun k => (ops ++ [op]).foldlM (step k) s) s'')
    (h' : Returns (fun k => ops.foldlM (step k) s) s') :
    Returns (fun k => step k s' op) s'' := by
  have hb : Returns (fun k => ops.foldlM (step k) s >>= fun s' => step k s' op) s'' :=
    h.congr fun k => (Exec.foldlM_snoc k).symm
  exact hb.of_bind h'

end Run

end Exec
