import AgcFramework.Event.Header
import AgcFramework.Lib.Trace

/-!
# Runs of header operations

What the header functions are for is said on a list of pairs: an addition without a check puts the
pair at the end, an addition with one replaces the value of the first pair with the name or puts
the pair at the end, and a removal takes out every pair with the name. The chain follows the list
in exactly the runs that never add, with a check, a name that is present.

## Main definitions

* `HeaderOp`, `headerRun`: the operations and the code of a run
* `HeaderOp.apply`: what an operation is to do to the list
* `HeaderOp.ReAdds`: a checked addition of a name that is present

## Main results

* `Event.header_chain_iff`: the runs in which the chain follows the list
-/

open Exec Chain Trace

/-- An operation on the headers of an event. The data of the first two is what `agc_vasprintf`
made, that of the third may be null. -/
inductive HeaderOp
  | addHeader (name : CStr) (data : Option CStr)
  | addHeaderRepeatcheck (name : CStr) (data : Option CStr)
  | addHeaderString (name : CStr) (data : Option CStr)
  | delHeader (name : CStr)

/-- The code of an operation. -/
def HeaderOp.exec (fuel : ℕ) (e : Event) : HeaderOp → Exec (Event × AgcStatus)
  | addHeader name data => agcEventAddHeader e name data
  | addHeaderRepeatcheck name data => agcEventAddHeaderRepeatcheck fuel e name data
  | addHeaderString name data => agcEventAddHeaderString fuel e name data
  | delHeader name => agcEventDelHeader fuel e name

/-- An operation whose status the caller drops. -/
def headerStep (fuel : ℕ) (e : Event) (op : HeaderOp) : Exec Event := do
  let (e, _) ← op.exec fuel e
  pure e

/-- The code of a run. -/
def headerRun (fuel : ℕ) (e : Event) (ops : List HeaderOp) : Exec Event :=
  ops.foldlM (headerStep fuel) e

/-- The list with the value of the first pair of the name replaced, or with a new pair at its
end. -/
def setHeader (name data : CStr) : List (CStr × CStr) → List (CStr × CStr)
  | [] => [(name, data)]
  | p :: ps => if p.1.SameName name then (p.1, data) :: ps else p :: setHeader name data ps

/-- What an operation is to do to the list of pairs. -/
def HeaderOp.apply (pairs : List (CStr × CStr)) : HeaderOp → List (CStr × CStr)
  | addHeader name (some data) => pairs ++ [(name, data)]
  | addHeaderRepeatcheck name (some data) => setHeader name data pairs
  | addHeaderString name (some data) => setHeader name data pairs
  | delHeader name => pairs.filter fun p => ¬ name.SameName p.1
  | addHeader _ none => pairs
  | addHeaderRepeatcheck _ none => pairs
  | addHeaderString _ none => pairs

/-- The operation is a checked addition, with data, of a name that is present. -/
def HeaderOp.ReAdds (pairs : List (CStr × CStr)) : HeaderOp → Prop
  | addHeaderRepeatcheck name (some _) => Event.Present name pairs
  | addHeaderString name (some _) => Event.Present name pairs
  | _ => False

/-- The pairs after a run. -/
def headersAfter (ops : List HeaderOp) : List (CStr × CStr) := ops.foldl HeaderOp.apply []

/-- No operation of the run re-adds a name. -/
def NeverReAdds (ops : List HeaderOp) : Prop :=
  Throughout (fun pre op => ¬ op.ReAdds (headersAfter pre)) ops

namespace Event

variable {e : Event} {pairs : List (CStr × CStr)} {ops : List HeaderOp} {op : HeaderOp}

theorem setHeader_of_absent {name data : CStr} (h : ¬ Present name pairs) :
    setHeader name data pairs = pairs ++ [(name, data)] := by
  induction pairs with
  | nil => rfl
  | cons p ps ih =>
    have hp : ¬ p.1.SameName name := fun hs => h ⟨p, by simp, hs⟩
    have hps : ¬ Present name ps := by
      rintro ⟨x, hx, hs⟩
      exact h ⟨x, List.mem_cons_of_mem _ hx, hs⟩
    rw [setHeader, if_neg hp, ih hps, List.cons_append]

/-- The checked additions with data, each with the status it returns dropped. -/
theorem headerStep_addHeaderRepeatcheck (fuel : ℕ) (e : Event) (name data : CStr) :
    headerStep fuel e (.addHeaderRepeatcheck name (some data)) =
      agcEventBaseAddHeader fuel e name data := by
  simp only [headerStep, HeaderOp.exec, agcEventAddHeaderRepeatcheck, bind_assoc, pure_bind,
    bind_pure]

theorem headerStep_addHeaderString (fuel : ℕ) (e : Event) (name data : CStr) :
    headerStep fuel e (.addHeaderString name (some data)) =
      agcEventBaseAddHeader fuel e name data := by
  simp only [headerStep, HeaderOp.exec, agcEventAddHeaderString, bind_assoc, pure_bind, bind_pure]

/-- A checked addition of a new name follows the list. -/
theorem Represents.setHeader (h : e.Represents pairs) (name data : CStr)
    (ha : ¬ Present name pairs) :
    ∃ e', Returns (fun fuel => agcEventBaseAddHeader fuel e name data) e' ∧
      e'.Represents (setHeader name data pairs) := by
  obtain ⟨e', hrun, hrep, -⟩ := h.addAbsent name data ha
  rw [setHeader_of_absent ha]
  exact ⟨e', hrun, hrep⟩

/-- The step lemma: an operation that is no re-addition follows the list. -/
theorem Represents.step (h : e.Represents pairs) (hop : ¬ op.ReAdds pairs) :
    ∃ e', Returns (fun fuel => headerStep fuel e op) e' ∧ e'.Represents (op.apply pairs) := by
  cases op with
  | addHeader name data =>
    cases data with
    | none => exact ⟨e, Returns.const e, h⟩
    | some data =>
      obtain ⟨e', hrun, hrep, -⟩ := h.addNocheck name data
      refine ⟨e', ⟨0, fun k _ => ?_⟩, hrep⟩
      simp only [headerStep, HeaderOp.exec, agcEventAddHeader, hrun, ok_bind, pure_eq_ok]
  | addHeaderRepeatcheck name data =>
    cases data with
    | none => exact ⟨e, Returns.const e, h⟩
    | some data =>
      obtain ⟨e', hrun, hrep⟩ := h.setHeader name data hop
      exact ⟨e', hrun.congr fun fuel => headerStep_addHeaderRepeatcheck fuel e name data, hrep⟩
  | addHeaderString name data =>
    cases data with
    | none => exact ⟨e, Returns.const e, h⟩
    | some data =>
      obtain ⟨e', hrun, hrep⟩ := h.setHeader name data hop
      exact ⟨e', hrun.congr fun fuel => headerStep_addHeaderString fuel e name data, hrep⟩
  | delHeader name =>
    obtain ⟨e', ⟨n, hn⟩, hrep⟩ := h.delHeader name
    refine ⟨e', ⟨n, fun k hk => ?_⟩, hrep⟩
    simp only [headerStep, HeaderOp.exec, hn k hk, ok_bind, pure_eq_ok]

/-- A checked addition of a name that is present leaves a chain that is not well formed. -/
theorem Represents.not_wellFormed {name data : CStr} {e' : Event} (h : e.Represents pairs)
    (hname : Present name pairs)
    (hr : Returns (fun fuel => agcEventBaseAddHeader fuel e name data) e') : ¬ e'.WellFormed := by
  obtain ⟨cs, hl, hc, -⟩ := h
  obtain ⟨e₁, hrun, hw⟩ := hl.not_wellFormed name data (hc.present.mp hname)
  rw [← hrun.unique hr]
  exact hw

/-- A re-addition leaves a chain that is not well formed. -/
theorem Represents.reAdd {e' : Event} (h : e.Represents pairs) (hop : op.ReAdds pairs)
    (hr : Returns (fun fuel => headerStep fuel e op) e') : ¬ e'.WellFormed := by
  rcases op with ⟨name, data⟩ | ⟨name, _ | data⟩ | ⟨name, _ | data⟩ | name
  · exact absurd hop id
  · exact absurd hop id
  · simp only [headerStep_addHeaderRepeatcheck] at hr
    exact h.not_wellFormed hop hr
  · exact absurd hop id
  · simp only [headerStep_addHeaderString] at hr
    exact h.not_wellFormed hop hr
  · exact absurd hop id

theorem headersAfter_snoc (ops : List HeaderOp) (op : HeaderOp) :
    headersAfter (ops ++ [op]) = op.apply (headersAfter ops) := by
  simp [headersAfter]

section Run

variable (mem : Addr → Option Header) (brk : Addr) (eventId : ℤ) (sourceId : UInt32)

/-- The run lemma: a run without re-additions follows the list. -/
theorem represents_run (h : NeverReAdds ops) :
    ∃ e, Returns (fun fuel => headerRun fuel (agcEventCreate mem brk eventId sourceId) ops) e ∧
      e.Represents (headersAfter ops) := by
  induction ops using List.reverseRecOn with
  | nil => exact ⟨_, Returns.const _, represents_create mem brk eventId sourceId⟩
  | append_singleton ops op ih =>
    obtain ⟨h, hop⟩ := throughout_snoc.mp h
    obtain ⟨e, hrun, hrep⟩ := ih h
    obtain ⟨e', hstep, hrep'⟩ := hrep.step hop
    rw [headersAfter_snoc]
    exact ⟨e', Returns.foldlM_snoc hrun hstep, hrep'⟩

/-- **The header chain.** In every state of a run the chain is well formed and holds the pairs the
operations are to leave, exactly when the run never adds, with a check, a name that is present. -/
theorem header_chain_iff (ops : List HeaderOp) :
    (∀ pre suf, ops = pre ++ suf →
        ∃ e, Returns (fun fuel => headerRun fuel (agcEventCreate mem brk eventId sourceId) pre) e ∧
          e.Represents (headersAfter pre)) ↔
      NeverReAdds ops := by
  constructor
  · rintro h pre op suf rfl hop
    obtain ⟨e, hrun, hrep⟩ := h pre (op :: suf) rfl
    obtain ⟨e', hrun', hrep'⟩ := h (pre ++ [op]) suf (by simp)
    exact hrep.reAdd hop (Returns.of_foldlM_snoc hrun' hrun) hrep'.wellFormed
  · rintro h pre suf rfl
    exact represents_run mem brk eventId sourceId h.of_append

end Run

/-- A header added with a check, and added again under the same name in upper case: no state with
a well-formed chain is reached. -/
theorem header_chain_cycle :
    ¬ ∃ e, Returns (fun fuel => headerRun fuel (agcEventCreate (fun _ => none) 1 1 0)
        ([.addHeaderString ⟨[97], by decide⟩ (some ⟨[120], by decide⟩)] ++
          [.addHeaderString ⟨[65], by decide⟩ (some ⟨[121], by decide⟩)])) e ∧ e.WellFormed := by
  rintro ⟨e', hrun', hw⟩
  have hfirst : NeverReAdds
      ([] ++ [.addHeaderString ⟨[97], by decide⟩ (some ⟨[120], by decide⟩)]) := by
    refine throughout_snoc.mpr ⟨throughout_nil, ?_⟩
    rintro ⟨p, hp, -⟩
    cases hp
  obtain ⟨e, hrun, hrep⟩ := represents_run (fun _ => none) 1 1 0 hfirst
  have hstep := Returns.of_foldlM_snoc hrun' hrun
  refine hrep.reAdd ?_ hstep hw
  exact ⟨(⟨[97], by decide⟩, ⟨[120], by decide⟩), List.mem_cons_self, by decide⟩

end Event
