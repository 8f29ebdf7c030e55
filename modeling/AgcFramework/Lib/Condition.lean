import Mathlib.Data.Fintype.Card
import Mathlib.Data.List.Nodup
import Mathlib.Tactic.Common

/-!
# Condition variables

A thread that waits on a condition variable gives its mutex back and blocks. It goes on once it has
been woken, by a signal, a broadcast or for no reason, and has got the mutex again.

## Main definitions

* `Condition`: the threads blocked on a condition variable, and those woken that have not left it
* `Condition.wait`, `Condition.wake`, `Condition.signal`, `Condition.broadcast`, `Condition.leave`
* `Condition.Covers c n`: if a thread is blocked, at least `n` threads are woken
* `Condition.Tracks c count who n`: the waiting threads and the counter of them are right

## Main results

* `Condition.Covers.signal`: a signal makes up for one more
* `Condition.Tracks.signal`: a signal that is sent only if the counter is not zero
* `Condition.Tracks.count_lt_card`: a thread that does not wait is not counted
-/

/-- The threads blocked on a condition variable, and those that have been woken and have not got
the mutex back yet. -/
structure Condition (T : Type) where
  blocked : List T
  woken : List T

namespace Condition

variable {T : Type}

/-- No thread waits. -/
def create : Condition T := ⟨[], []⟩

/-- A thread blocks. -/
def wait (c : Condition T) (t : T) : Condition T := { c with blocked := c.blocked ++ [t] }

/-- All blocked threads are woken. -/
def broadcast (c : Condition T) : Condition T := ⟨[], c.woken ++ c.blocked⟩

/-- The threads that wait. -/
def waiters (c : Condition T) : List T := c.blocked ++ c.woken

variable [DecidableEq T]

/-- A thread, if it is blocked, is woken. -/
def wake (c : Condition T) (t : T) : Condition T :=
  if t ∈ c.blocked then ⟨c.blocked.erase t, c.woken ++ [t]⟩ else c

/-- A blocked thread, if there is one, is woken: the thread `choice` if it is blocked, else the one
that has waited longest. -/
def signal (c : Condition T) (choice : T) : Condition T :=
  if choice ∈ c.blocked then c.wake choice
  else
    match c.blocked with
    | [] => c
    | t :: _ => c.wake t

/-- A woken thread has got the mutex back. -/
def leave (c : Condition T) (t : T) : Condition T := { c with woken := c.woken.erase t }

variable {c : Condition T} {t u : T}

/-! ## Who waits -/

theorem wake_perm (c : Condition T) (t : T) : (c.wake t).waiters.Perm c.waiters := by
  unfold wake
  split_ifs with ht
  · have hperm : (c.blocked.erase t ++ (c.woken ++ [t])).Perm
        (t :: c.blocked.erase t ++ c.woken) := by
      rw [← List.append_assoc]
      exact List.perm_append_singleton t _
    exact hperm.trans ((List.perm_cons_erase ht).symm.append_right _)
  · exact List.Perm.refl _

theorem signal_perm (c : Condition T) (choice : T) :
    (c.signal choice).waiters.Perm c.waiters := by
  unfold signal
  split_ifs
  · exact wake_perm c choice
  · split
    · exact List.Perm.refl _
    · exact wake_perm c _

omit [DecidableEq T] in
theorem broadcast_perm (c : Condition T) : c.broadcast.waiters.Perm c.waiters := by
  show ([] ++ (c.woken ++ c.blocked)).Perm (c.blocked ++ c.woken)
  rw [List.nil_append]
  exact List.perm_append_comm

omit [DecidableEq T] in
theorem wait_perm (c : Condition T) (t : T) : (c.wait t).waiters.Perm (t :: c.waiters) := by
  show (c.blocked ++ [t] ++ c.woken).Perm (t :: (c.blocked ++ c.woken))
  exact (List.perm_append_singleton t c.blocked).append_right c.woken

theorem leave_perm (ht : t ∈ c.woken) : c.waiters.Perm (t :: (c.leave t).waiters) := by
  show (c.blocked ++ c.woken).Perm (t :: (c.blocked ++ c.woken.erase t))
  exact ((List.perm_cons_erase ht).append_left c.blocked).trans List.perm_middle

/-! ## How many are woken -/

/-- If a thread is blocked, at least `n` threads are woken. -/
def Covers (c : Condition T) (n : ℕ) : Prop := c.blocked ≠ [] → n ≤ c.woken.length

omit [DecidableEq T] in
theorem Covers.mono {m n : ℕ} (h : c.Covers n) (hmn : m ≤ n) : c.Covers m :=
  fun hb => hmn.trans (h hb)

theorem wake_eq (h : t ∈ c.blocked) : c.wake t = ⟨c.blocked.erase t, c.woken ++ [t]⟩ := if_pos h

theorem wake_of_nil (h : c.blocked = []) (t : T) : c.wake t = c := by
  rw [wake, h, if_neg List.not_mem_nil]

/-- Nobody is there to be signalled. -/
theorem signal_of_nil (h : c.blocked = []) (choice : T) : c.signal choice = c := by
  rw [signal, h, if_neg List.not_mem_nil]

/-- Waking a thread makes up for one more. -/
theorem Covers.wake_of_mem {n : ℕ} (h : c.Covers n) (ht : t ∈ c.blocked) :
    (c.wake t).Covers (n + 1) := by
  rw [wake_eq ht]
  intro _
  have := h (List.ne_nil_of_mem ht)
  show n + 1 ≤ (c.woken ++ [t]).length
  rw [List.length_append]
  exact Nat.succ_le_succ this

theorem Covers.wake {n : ℕ} (h : c.Covers n) (t : T) : (c.wake t).Covers n := by
  by_cases ht : t ∈ c.blocked
  · exact (h.wake_of_mem ht).mono n.le_succ
  · rwa [Condition.wake, if_neg ht]

/-- A signal makes up for one more. -/
theorem Covers.signal {n : ℕ} (h : c.Covers n) (choice : T) : (c.signal choice).Covers (n + 1) := by
  unfold Condition.signal
  split_ifs with hc
  · exact h.wake_of_mem hc
  · split
    · rename_i hb
      exact fun hne => absurd hb hne
    · rename_i t l hb
      apply h.wake_of_mem
      rw [hb]
      exact List.mem_cons_self

/-- A thread that leaves is one less. -/
theorem Covers.leave {n : ℕ} (h : c.Covers n) (ht : t ∈ c.woken) : (c.leave t).Covers (n - 1) := by
  intro hb
  have := h hb
  show n - 1 ≤ (c.woken.erase t).length
  rw [List.length_erase_of_mem ht]
  omega

/-! ## The counter of waiting threads -/

/-- The threads that wait are those of `who`, the counter says how many they are, and if one of them
is blocked, at least `n` have been woken. -/
structure Tracks (c : Condition T) (count : ℕ) (who : T → Prop) (n : ℕ) : Prop where
  nodup : c.waiters.Nodup
  mem : ∀ t, t ∈ c.waiters ↔ who t
  count : count = c.waiters.length
  covers : c.Covers n

variable {count n : ℕ} {who : T → Prop}

omit [DecidableEq T] in
theorem Tracks.create (h : ∀ t, ¬ who t) (n : ℕ) : (create : Condition T).Tracks 0 who n where
  nodup := List.nodup_nil
  mem := by simpa [Condition.create, waiters] using h
  count := rfl
  covers := fun hb => absurd rfl hb

omit [DecidableEq T] in
theorem Tracks.mono {m : ℕ} (h : c.Tracks count who n) (hmn : m ≤ n) : c.Tracks count who m :=
  { h with covers := h.covers.mono hmn }

omit [DecidableEq T] in
theorem Tracks.congr {who' : T → Prop} (h : c.Tracks count who n) (hwho : ∀ t, who t ↔ who' t) :
    c.Tracks count who' n :=
  { h with mem := fun t => (h.mem t).trans (hwho t) }

omit [DecidableEq T] in
/-- The same threads wait. -/
theorem Tracks.of_perm {c' : Condition T} {m : ℕ} (h : c.Tracks count who n)
    (hperm : c'.waiters.Perm c.waiters) (hcovers : c'.Covers m) : c'.Tracks count who m where
  nodup := hperm.nodup_iff.mpr h.nodup
  mem t := hperm.mem_iff.trans (h.mem t)
  count := h.count.trans hperm.length_eq.symm
  covers := hcovers

theorem Tracks.wake (h : c.Tracks count who n) (t : T) : (c.wake t).Tracks count who n :=
  h.of_perm (wake_perm c t) (h.covers.wake t)

omit [DecidableEq T] in
theorem Tracks.broadcast (h : c.Tracks count who n) (m : ℕ) : c.broadcast.Tracks count who m :=
  h.of_perm (broadcast_perm c) fun hb => absurd rfl hb

/-- A signal that is sent only if the counter is not zero makes up for one more. -/
theorem Tracks.signal (h : c.Tracks count who n) (choice : T) :
    (if count ≠ 0 then c.signal choice else c).Tracks count who (n + 1) := by
  split_ifs with hcount
  · exact h.of_perm (signal_perm c choice) (h.covers.signal choice)
  · -- nobody waits
    refine { h with covers := fun hb => ?_ }
    have hlen := h.count
    rw [not_not.mp hcount, waiters, List.length_append] at hlen
    exact absurd (List.length_eq_zero_iff.mp (by omega)) hb

omit [DecidableEq T] in
/-- A thread blocks where no thread needs to be woken. -/
theorem Tracks.wait (h : c.Tracks count who 0) (ht : ¬ who t) :
    (c.wait t).Tracks (count + 1) (fun u => who u ∨ u = t) 0 where
  nodup := by
    apply (wait_perm c t).nodup_iff.mpr
    exact List.nodup_cons.mpr ⟨fun hmem => ht ((h.mem t).mp hmem), h.nodup⟩
  mem u := by
    rw [(wait_perm c t).mem_iff, List.mem_cons, h.mem u, or_comm]
  count := by
    rw [(wait_perm c t).length_eq, List.length_cons, h.count]
  covers := fun _ => Nat.zero_le _

/-- A woken thread leaves. -/
theorem Tracks.leave (h : c.Tracks (count + 1) who n) (ht : t ∈ c.woken) :
    (c.leave t).Tracks count (fun u => who u ∧ u ≠ t) (n - 1) := by
  have hperm := leave_perm ht
  have hnodup := List.nodup_cons.mp (hperm.nodup_iff.mp h.nodup)
  refine ⟨hnodup.2, fun u => ?_, ?_, h.covers.leave ht⟩
  · rw [← h.mem u, hperm.mem_iff, List.mem_cons]
    constructor
    · intro hu
      refine ⟨Or.inr hu, ?_⟩
      rintro rfl
      exact hnodup.1 hu
    · rintro ⟨rfl | hu, hne⟩
      · exact absurd rfl hne
      · exact hu
  · have hcount := h.count
    rw [hperm.length_eq, List.length_cons] at hcount
    exact Nat.succ.inj hcount

omit [DecidableEq T] in
/-- A thread that does not wait is not counted. -/
theorem Tracks.count_lt_card [Fintype T] (h : c.Tracks count who n) (ht : ¬ who t) :
    count < Fintype.card T := by
  have hnodup : (t :: c.waiters).Nodup :=
    List.nodup_cons.mpr ⟨fun hmem => ht ((h.mem t).mp hmem), h.nodup⟩
  have hcard := hnodup.length_le_card
  rw [List.length_cons, ← h.count] at hcard
  exact hcard

end Condition
