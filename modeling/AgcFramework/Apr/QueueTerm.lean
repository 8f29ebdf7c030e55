import AgcFramework.Apr.QueueWait

/-!
# The termination of the queue

`apr_queue_term` sets `terminated` in one critical section and wakes all threads in another one.
A push or a pop reads `terminated` before it takes the mutex, so that one that is past this test can
still take place.

## Main definitions

* `QueueSystem.Drained`: the queue is terminated, and no thread is blocked
* `QueueSystem.pending`: the push or the pop that a thread is in, past the test
* `QueueSystem.Finishing`: a thread is seen once at most, in its pending call

## Main results

* `QueueSystem.Drained.finishing`: this is so in every run of a drained queue
* `QueueSystem.after_term`: what the threads can still do once `apr_queue_term` has returned
-/

open Trace

namespace QueueSystem

variable {α T : Type} [DecidableEq T] {s s' : QueueSystem α T} {t choice : T}

/-- The queue is terminated, and no thread is blocked. -/
structure Drained (s : QueueSystem α T) : Prop where
  terminated : s.queue.terminated = true
  notFull : s.queue.notFull.blocked = []
  notEmpty : s.queue.notEmpty.blocked = []

/-- The push or the pop that a thread is in, past the test of `terminated`. -/
def pending : QueuePc α → Option (QueueCall α)
  | .entered .interruptAll => none
  | .entered .term => none
  | .entered c => some c
  | .waiting c => some c
  | _ => none

/-- What a push or a pop can do to the contents, or find out about them. -/
def Matches : QueueCall α → FifoOp α → Prop
  | .push d, op => op = .put d ∨ op = .full
  | .trypush d, op => op = .put d ∨ op = .full
  | .pop, op => (∃ d, op = .take d) ∨ op = .empty
  | .trypop, op => (∃ d, op = .take d) ∨ op = .empty
  | _, _ => False

/-- A thread in `pc` has made its step as the call `c` does, in the terminated queue of `s`. -/
structure Finishes (s : QueueSystem α T) (pc : QueuePc α) (c : QueueCall α) : Prop where
  drained : s.Drained
  pending : pending pc = none
  outcome : outcome pc = [] ∨ ∃ op, Matches c op ∧ outcome pc = [op]

theorem Drained.put (hs : s.Drained) {d : α} {q : AprQueue α T}
    (hput : s.queue.put d choice = some q) : (s.setQueue q).Drained := by
  unfold AprQueue.put at hput
  split_ifs at hput
  · cases hput
    exact ⟨hs.terminated, hs.notFull, by
      show (s.queue.notEmpty.signal choice).blocked = []
      rw [Condition.signal_of_nil hs.notEmpty]
      exact hs.notEmpty⟩
  · cases hput
    exact ⟨hs.terminated, hs.notFull, hs.notEmpty⟩

theorem Drained.take (hs : s.Drained) {d : α} {q : AprQueue α T}
    (htake : s.queue.take choice = some (d, q)) : (s.setQueue q).Drained := by
  obtain ⟨x, -, htake⟩ := Option.map_eq_some_iff.mp htake
  obtain ⟨-, rfl⟩ := Prod.mk.inj htake
  split_ifs
  · exact ⟨hs.terminated, by
      show (s.queue.notFull.signal choice).blocked = []
      rw [Condition.signal_of_nil hs.notFull]
      exact hs.notFull, hs.notEmpty⟩
  · exact ⟨hs.terminated, hs.notFull, hs.notEmpty⟩

theorem Drained.goto (hs : s.Drained) (t : T) (pc : QueuePc α) : (s.goto t pc).Drained :=
  ⟨hs.terminated, hs.notFull, hs.notEmpty⟩

theorem Drained.finishes_goto (hs : s.Drained) (t : T) {pc : QueuePc α} {c : QueueCall α}
    (hpending : QueueSystem.pending pc = none)
    (hout : QueueSystem.outcome pc = [] ∨ ∃ op, Matches c op ∧ QueueSystem.outcome pc = [op]) :
    (s.goto t pc).Finishes ((s.goto t pc).pc t) c := by
  rw [pc_goto_self]
  exact ⟨hs.goto t pc, hpending, hout⟩

theorem Drained.store (hs : s.Drained) (t : T) {c : QueueCall α} {d : α} (choice : T)
    (hc : c = .push d ∨ c = .trypush d) :
    (s.store t c d choice).Finishes ((s.store t c d choice).pc t) c := by
  unfold QueueSystem.store
  split
  · rename_i q hput
    refine (hs.put hput).finishes_goto t rfl (Or.inr ⟨.put d, ?_⟩)
    rcases hc with rfl | rfl
    · exact ⟨Or.inl rfl, rfl⟩
    · exact ⟨Or.inl rfl, rfl⟩
  · exact hs.finishes_goto t rfl (Or.inl rfl)

theorem Drained.fetch (hs : s.Drained) (t : T) {c : QueueCall α} (choice : T)
    (hc : c = .pop ∨ c = .trypop) :
    (s.fetch t c choice).Finishes ((s.fetch t c choice).pc t) c := by
  unfold QueueSystem.fetch
  split
  · rename_i d q htake
    refine (hs.take htake).finishes_goto t rfl (Or.inr ⟨.take d, ?_⟩)
    rcases hc with rfl | rfl
    · exact ⟨Or.inl ⟨d, rfl⟩, rfl⟩
    · exact ⟨Or.inl ⟨d, rfl⟩, rfl⟩
  · exact hs.finishes_goto t rfl (Or.inl rfl)

theorem Drained.pushAwake (hs : s.Drained) (t : T) (d : α) (choice : T) :
    (s.pushAwake t d choice).Finishes ((s.pushAwake t d choice).pc t) (.push d) := by
  unfold QueueSystem.pushAwake
  split_ifs
  · exact hs.finishes_goto t rfl (Or.inr ⟨.full, Or.inr rfl, rfl⟩)
  · exact hs.store t choice (Or.inl rfl)

theorem Drained.popAwake (hs : s.Drained) (t choice : T) :
    (s.popAwake t choice).Finishes ((s.popAwake t choice).pc t) .pop := by
  unfold QueueSystem.popAwake
  split_ifs
  · exact hs.finishes_goto t rfl (Or.inr ⟨.empty, Or.inr rfl, rfl⟩)
  · exact hs.fetch t choice (Or.inl rfl)

/-- Nobody blocks any more: a critical section is the last one of its call. -/
theorem Drained.section? (hs : s.Drained) (hsec : s.section? t choice = some s') :
    s'.Drained ∧ pending (s'.pc t) = none ∧ (outcome (s'.pc t) = [] ∨
      ∃ c op, pending (s.pc t) = some c ∧ Matches c op ∧ outcome (s'.pc t) = [op]) := by
  have hfin : ∀ {c}, pending (s.pc t) = some c → s'.Finishes (s'.pc t) c →
      s'.Drained ∧ pending (s'.pc t) = none ∧ (outcome (s'.pc t) = [] ∨
        ∃ c op, pending (s.pc t) = some c ∧ Matches c op ∧ outcome (s'.pc t) = [op]) := by
    intro c hc hf
    refine ⟨hf.drained, hf.pending, hf.outcome.imp_right ?_⟩
    rintro ⟨op, hop, hout⟩
    exact ⟨c, op, hc, hop, hout⟩
  have hbroadcast : ∀ c, outcome (.outside (some ⟨c, .success, none⟩)) = ([] : List (FifoOp α)) →
      (s.interruptAll t c).Drained ∧ pending ((s.interruptAll t c).pc t) = none ∧
        outcome ((s.interruptAll t c).pc t) = [] := by
    intro c hc
    have hpc : (s.interruptAll t c).pc t = .outside (some ⟨c, .success, none⟩) := pc_goto_self _ _ _
    rw [hpc]
    exact ⟨⟨hs.terminated, rfl, rfl⟩, rfl, hc⟩
  unfold QueueSystem.section? at hsec
  split at hsec
  · rename_i d hp
    cases hsec
    apply hfin (by rw [hp]; rfl)
    unfold QueueSystem.push
    rw [hs.terminated, Bool.not_true, Bool.and_false, if_neg Bool.false_ne_true]
    exact hs.pushAwake t d choice
  · rename_i d hp
    cases hsec
    apply hfin (by rw [hp]; rfl)
    unfold QueueSystem.trypush
    split_ifs
    · exact hs.finishes_goto t rfl (Or.inr ⟨.full, Or.inr rfl, rfl⟩)
    · exact hs.store t choice (Or.inr rfl)
  · rename_i hp
    cases hsec
    apply hfin (by rw [hp]; rfl)
    unfold QueueSystem.pop
    rw [hs.terminated, Bool.not_true, Bool.and_false, if_neg Bool.false_ne_true]
    exact hs.popAwake t choice
  · rename_i hp
    cases hsec
    apply hfin (by rw [hp]; rfl)
    unfold QueueSystem.trypop
    split_ifs
    · exact hs.finishes_goto t rfl (Or.inr ⟨.empty, Or.inr rfl, rfl⟩)
    · exact hs.fetch t choice (Or.inr rfl)
  · cases hsec
    obtain ⟨h₁, h₂, h₃⟩ := hbroadcast .interruptAll rfl
    exact ⟨h₁, h₂, Or.inl h₃⟩
  · cases hsec
    have hpc : (s.term t).pc t = .broadcasting := pc_goto_self _ _ _
    rw [hpc]
    exact ⟨⟨rfl, hs.notFull, hs.notEmpty⟩, rfl, Or.inl rfl⟩
  · cases hsec
    obtain ⟨h₁, h₂, h₃⟩ := hbroadcast .term rfl
    exact ⟨h₁, h₂, Or.inl h₃⟩
  · rename_i d hp
    split_ifs at hsec
    cases hsec
    apply hfin (by rw [hp]; rfl)
    exact (⟨hs.terminated, hs.notFull, hs.notEmpty⟩ : (s.leaveFull t).Drained).pushAwake t d choice
  · rename_i hp
    split_ifs at hsec
    cases hsec
    apply hfin (by rw [hp]; rfl)
    exact (⟨hs.terminated, hs.notFull, hs.notEmpty⟩ : (s.leaveEmpty t).Drained).popAwake t choice
  · cases hsec

/-- A critical section moves its thread only. -/
theorem pc_section?_of_ne (hsec : s.section? t choice = some s') {u : T} (hu : u ≠ t) :
    s'.pc u = s.pc u := by
  have hgoto : ∀ (q : AprQueue α T) (pc : QueuePc α), ((s.setQueue q).goto t pc).pc u = s.pc u :=
    fun q pc => pc_goto_of_ne (s.setQueue q) hu pc
  unfold QueueSystem.section? at hsec
  split at hsec
  · cases hsec
    unfold push
    split_ifs
    · exact hgoto _ _
    · exact (moved_pushAwake s t _ choice).others u hu
  · cases hsec
    unfold trypush
    split_ifs
    · exact (moved_ret s t _ _ _).others u hu
    · exact (moved_store s t _ _ choice).others u hu
  · cases hsec
    unfold pop
    split_ifs
    · exact hgoto _ _
    · exact (moved_popAwake s t choice).others u hu
  · cases hsec
    unfold trypop
    split_ifs
    · exact (moved_ret s t _ _ _).others u hu
    · exact (moved_fetch s t _ choice).others u hu
  · cases hsec
    exact hgoto _ _
  · cases hsec
    exact hgoto _ _
  · cases hsec
    exact hgoto _ _
  · split_ifs at hsec
    cases hsec
    exact (moved_pushAwake (s.leaveFull t) t _ choice).others u hu
  · split_ifs at hsec
    cases hsec
    exact (moved_popAwake (s.leaveEmpty t) t choice).others u hu
  · cases hsec

/-- The test of `terminated` ends the call of a push or a pop. -/
theorem Drained.test (hs : s.Drained) (t : T) :
    (s.test t).Drained ∧ ∀ u c, pending ((s.test t).pc u) = some c → pending (s.pc u) = some c := by
  have hret : ∀ pc, pending pc = none → (s.goto t pc).Drained ∧
      ∀ u c, pending ((s.goto t pc).pc u) = some c → pending (s.pc u) = some c := by
    intro pc hpc
    refine ⟨hs.goto t pc, fun u c hu => ?_⟩
    rcases eq_or_ne u t with rfl | hne
    · rw [pc_goto_self, hpc] at hu
      cases hu
    · rwa [pc_goto_of_ne s hne] at hu
  unfold QueueSystem.test
  split
  · exact hret _ rfl
  · exact hret _ rfl
  · rw [if_pos hs.terminated]
    exact hret _ rfl
  · rw [if_pos hs.terminated]
    exact hret _ rfl
  · rw [if_pos hs.terminated]
    exact hret _ rfl
  · exact ⟨hs, fun u c hu => hu⟩

/-- What the threads see, in a run from the drained state `s` to `s'`: each at most one thing, of
the call that it was in. -/
structure Finishing (s : QueueSystem α T) (seen : List (T × FifoOp α)) (s' : QueueSystem α T) :
    Prop where
  drained : s'.Drained
  once : (seen.map Prod.fst).Nodup
  matches' : ∀ u op, (u, op) ∈ seen → ∃ c, pending (s.pc u) = some c ∧ Matches c op
  left : ∀ u c, pending (s'.pc u) = some c →
    pending (s.pc u) = some c ∧ u ∉ seen.map Prod.fst

theorem Finishing.step {s₀ : QueueSystem α T} {seen : List (T × FifoOp α)}
    (h : s₀.Finishing seen s) (e : QueueStep α T) :
    s₀.Finishing (seen ++ s.view e) (s.step e) := by
  -- a step that shows nothing, and after which no more calls are pending
  have hquiet : ∀ s', s'.Drained → (∀ u c, pending (s'.pc u) = some c → pending (s.pc u) = some c) →
      s₀.Finishing (seen ++ []) s' := by
    intro s' hs' hleft
    rw [List.append_nil]
    exact ⟨hs', h.once, h.matches', fun u c hu => h.left u c (hleft u c hu)⟩
  cases e with
  | call t c =>
    simp only [QueueSystem.step]
    split
    · refine hquiet _ (h.drained.goto t _) fun u c hu => ?_
      rcases eq_or_ne u t with rfl | hne
      · rw [pc_goto_self] at hu
        cases hu
      · rwa [pc_goto_of_ne s hne] at hu
    · exact hquiet s h.drained fun u c hu => hu
  | test t =>
    obtain ⟨hs', hleft⟩ := h.drained.test t
    exact hquiet _ hs' hleft
  | spurious t =>
    refine hquiet _ ⟨h.drained.terminated, ?_, ?_⟩ fun u c hu => hu
    · show (s.queue.notFull.wake t).blocked = []
      rw [Condition.wake_of_nil h.drained.notFull]
      exact h.drained.notFull
    · show (s.queue.notEmpty.wake t).blocked = []
      rw [Condition.wake_of_nil h.drained.notEmpty]
      exact h.drained.notEmpty
  | lock t choice =>
    rcases hsec : s.section? t choice with _ | s'
    · simp only [QueueSystem.step, view, hsec]
      exact hquiet s h.drained fun u c hu => hu
    · simp only [QueueSystem.step, view, hsec]
      obtain ⟨hs', hpending, hout⟩ := h.drained.section? hsec
      have hleft : ∀ u c, pending (s'.pc u) = some c → u ≠ t ∧ pending (s.pc u) = some c := by
        intro u c hu
        have hne : u ≠ t := by
          rintro rfl
          rw [hpending] at hu
          cases hu
        rw [pc_section?_of_ne hsec hne] at hu
        exact ⟨hne, hu⟩
      rcases hout with hout | ⟨c, op, hc, hop, hout⟩
      · rw [hout]
        exact hquiet s' hs' fun u c hu => (hleft u c hu).2
      · -- the thread was pending, so it has not been seen yet
        obtain ⟨hc₀, hnew⟩ := h.left t c hc
        rw [hout]
        refine ⟨hs', ?_, ?_, ?_⟩
        · rw [List.map_append]
          show (seen.map Prod.fst ++ [t]).Nodup
          exact List.nodup_append_comm.mp (List.nodup_cons.mpr ⟨hnew, h.once⟩)
        · intro u op' hmem
          rcases List.mem_append.mp hmem with hmem | hmem
          · exact h.matches' u op' hmem
          · obtain ⟨rfl, rfl⟩ := Prod.mk.inj (List.mem_singleton.mp hmem)
            exact ⟨c, hc₀, hop⟩
        · intro u c' hu
          obtain ⟨hne, hu⟩ := hleft u c' hu
          obtain ⟨hu₀, hnew'⟩ := h.left u c' hu
          refine ⟨hu₀, fun hmem => ?_⟩
          rw [List.map_append] at hmem
          rcases List.mem_append.mp hmem with hmem | hmem
          · exact hnew' hmem
          · exact hne (List.mem_singleton.mp hmem)

theorem Drained.finishing (hs : s.Drained) (es : List (QueueStep α T)) :
    s.Finishing (observed step view s es) (s.run es) := by
  induction es using List.reverseRecOn with
  | nil => exact ⟨hs, List.nodup_nil, by rintro _ _ ⟨⟩, fun u c hu => ⟨hu, List.not_mem_nil⟩⟩
  | append_singleton es e ih =>
    rw [observed_snoc, run, List.foldl_concat]
    exact ih.step e

/-- `terminated` stays set, and is set where `apr_queue_term` is between its critical sections. -/
structure Ends (s : QueueSystem α T) (t : T) (s' : QueueSystem α T) : Prop where
  stays : s.queue.terminated = true → s'.queue.terminated = true
  broadcasting : s'.pc t = .broadcasting → s'.queue.terminated = true

theorem ends_goto (s : QueueSystem α T) (t : T) {pc : QueuePc α} (hpc : pc ≠ .broadcasting) :
    s.Ends t (s.goto t pc) :=
  ⟨id, fun h => absurd ((pc_goto_self s t pc).symm.trans h) hpc⟩

omit [DecidableEq T] in
theorem Ends.of_setQueue {q : AprQueue α T} (h : (s.setQueue q).Ends t s')
    (hq : q.terminated = s.queue.terminated) : s.Ends t s' :=
  ⟨fun hs => h.stays (hq.trans hs), h.broadcasting⟩

theorem ends_store (s : QueueSystem α T) (t : T) (c : QueueCall α) (d : α) (choice : T) :
    s.Ends t (s.store t c d choice) := by
  unfold store
  split
  · rename_i q hput
    refine (ends_goto (s.setQueue q) t (by rintro ⟨⟩)).of_setQueue ?_
    unfold AprQueue.put at hput
    split_ifs at hput <;> cases hput <;> rfl
  · exact ends_goto s t (by rintro ⟨⟩)

theorem ends_fetch (s : QueueSystem α T) (t : T) (c : QueueCall α) (choice : T) :
    s.Ends t (s.fetch t c choice) := by
  unfold fetch
  split
  · rename_i d q htake
    refine (ends_goto (s.setQueue q) t (by rintro ⟨⟩)).of_setQueue ?_
    obtain ⟨x, -, htake⟩ := Option.map_eq_some_iff.mp htake
    obtain ⟨-, rfl⟩ := Prod.mk.inj htake
    split_ifs <;> rfl
  · exact ends_goto s t (by rintro ⟨⟩)

theorem ends_pushAwake (s : QueueSystem α T) (t : T) (d : α) (choice : T) :
    s.Ends t (s.pushAwake t d choice) := by
  unfold pushAwake
  split_ifs
  · exact ends_goto s t (by rintro ⟨⟩)
  · exact ends_store s t _ d choice

theorem ends_popAwake (s : QueueSystem α T) (t choice : T) : s.Ends t (s.popAwake t choice) := by
  unfold popAwake
  split_ifs
  · exact ends_goto s t (by rintro ⟨⟩)
  · exact ends_fetch s t _ choice

theorem ends_section? (hsec : s.section? t choice = some s') : s.Ends t s' := by
  have hq : ∀ (q : AprQueue α T) (pc : QueuePc α), q.terminated = s.queue.terminated →
      pc ≠ .broadcasting → s.Ends t ((s.setQueue q).goto t pc) :=
    fun q pc hq hpc => (ends_goto (s.setQueue q) t hpc).of_setQueue hq
  unfold QueueSystem.section? at hsec
  split at hsec
  · cases hsec
    unfold push
    split_ifs
    · exact hq _ _ rfl (by rintro ⟨⟩)
    · exact ends_pushAwake s t _ choice
  · cases hsec
    unfold trypush
    split_ifs
    · exact ends_goto s t (by rintro ⟨⟩)
    · exact ends_store s t _ _ choice
  · cases hsec
    unfold pop
    split_ifs
    · exact hq _ _ rfl (by rintro ⟨⟩)
    · exact ends_popAwake s t choice
  · cases hsec
    unfold trypop
    split_ifs
    · exact ends_goto s t (by rintro ⟨⟩)
    · exact ends_fetch s t _ choice
  · cases hsec
    exact hq _ _ rfl (by rintro ⟨⟩)
  · cases hsec
    exact ⟨fun _ => rfl, fun _ => rfl⟩
  · cases hsec
    exact hq _ _ rfl (by rintro ⟨⟩)
  · split_ifs at hsec
    cases hsec
    exact (ends_pushAwake (s.leaveFull t) t _ choice).of_setQueue rfl
  · split_ifs at hsec
    cases hsec
    exact (ends_popAwake (s.leaveEmpty t) t choice).of_setQueue rfl
  · cases hsec

theorem ends_test (s : QueueSystem α T) (t : T)
    (h : s.pc t = .broadcasting → s.queue.terminated = true) : s.Ends t (s.test t) := by
  unfold QueueSystem.test
  split
  · exact ends_goto s t (by rintro ⟨⟩)
  · exact ends_goto s t (by rintro ⟨⟩)
  · split_ifs
    · exact ends_goto s t (by rintro ⟨⟩)
    · exact ends_goto s t (by rintro ⟨⟩)
  · split_ifs
    · exact ends_goto s t (by rintro ⟨⟩)
    · exact ends_goto s t (by rintro ⟨⟩)
  · split_ifs
    · exact ends_goto s t (by rintro ⟨⟩)
    · exact ends_goto s t (by rintro ⟨⟩)
  · exact ⟨id, h⟩

theorem pc_test_of_ne (s : QueueSystem α T) {t u : T} (hu : u ≠ t) :
    (s.test t).pc u = s.pc u := by
  have hgoto : ∀ pc, (s.goto t pc).pc u = s.pc u := fun pc => pc_goto_of_ne s hu pc
  unfold QueueSystem.test
  split
  · exact hgoto _
  · exact hgoto _
  · split_ifs
    · exact hgoto _
    · exact hgoto _
  · split_ifs
    · exact hgoto _
    · exact hgoto _
  · split_ifs
    · exact hgoto _
    · exact hgoto _
  · rfl

/-- Where a thread is between the critical sections of `apr_queue_term`, `terminated` is set. -/
theorem terminated_run (null : α) (capacity : UInt32) (es : List (QueueStep α T)) :
    ∀ t, ((create null capacity : QueueSystem α T).run es).pc t = .broadcasting →
      ((create null capacity : QueueSystem α T).run es).queue.terminated = true := by
  induction es using List.reverseRecOn with
  | nil => rintro t ⟨⟩
  | append_singleton es e ih =>
    rw [run, List.foldl_concat]
    rw [run] at ih
    generalize es.foldl step (create null capacity) = s at ih ⊢
    -- the thread of the step, and the others, which stay where they are
    have hends : ∀ {t s'}, s.Ends t s' → (∀ u, u ≠ t → s'.pc u = s.pc u) →
        ∀ u, s'.pc u = .broadcasting → s'.queue.terminated = true := by
      intro t s' he hothers u hu
      rcases eq_or_ne u t with rfl | hne
      · exact he.broadcasting hu
      · rw [hothers u hne] at hu
        exact he.stays (ih u hu)
    cases e with
    | call t c =>
      simp only [QueueSystem.step]
      split
      · exact hends (ends_goto s t (by rintro ⟨⟩)) fun u hu => pc_goto_of_ne s hu _
      · exact ih
    | test t => exact hends (ends_test s t (ih t)) fun u hu => pc_test_of_ne s hu
    | lock t choice =>
      rcases hsec : s.section? t choice with _ | s'
      · simp only [QueueSystem.step, hsec]
        exact ih
      · simp only [QueueSystem.step, hsec]
        exact hends (ends_section? hsec) fun u hu => pc_section?_of_ne hsec hu
    | spurious t => exact ih

/-- **Termination.** Let fewer than `2 ^ 32` threads call the functions of a queue in any order, and
let a thread return from `apr_queue_term`. However the threads go on, no thread is ever blocked
again, and one that waits can take the mutex; a push or a pop that still reads `terminated` returns
`APR_EOF`; and a thread pushes, pops or finds the queue full or empty once at most, in the call that
it was in, past the test of `terminated`, when `apr_queue_term` returned. -/
theorem after_term [Fintype T] (hT : Fintype.card T < 2 ^ 32) (null : α) (capacity : UInt32)
    (es₁ es₂ : List (QueueStep α T)) (t choice : T)
    (hterm : ((create null capacity : QueueSystem α T).run es₁).pc t = .broadcasting) :
    let s := ((create null capacity : QueueSystem α T).run es₁).step (.lock t choice)
    let s' := s.run es₂
    let seen := observed step view s es₂
    (s'.queue.notFull.blocked = [] ∧ s'.queue.notEmpty.blocked = []) ∧
    (∀ u, s'.Pushing u ∨ s'.Popping u → ∀ choice', (s'.section? u choice').isSome) ∧
    (∀ u c, s'.pc u = .calling c → c ≠ .interruptAll → c ≠ .term →
      (s'.step (.test u)).pc u = .outside (some ⟨c, .eof, none⟩)) ∧
    (seen.map Prod.fst).Nodup ∧
    ∀ u op, (u, op) ∈ seen → ∃ c, pending (s.pc u) = some c ∧ Matches c op := by
  intro s s' seen
  have hs : s.Drained := by
    have hset := terminated_run null capacity es₁ t hterm
    show (QueueSystem.step _ (.lock t choice)).Drained
    simp only [QueueSystem.step, QueueSystem.section?, hterm]
    exact ⟨hset, rfl, rfl⟩
  have hfin := hs.finishing es₂
  have hwaits : s'.Waits := by
    have h := waits_run hT null capacity (es₁ ++ .lock t choice :: es₂)
    rwa [run, List.foldl_append, List.foldl_cons] at h
  refine ⟨⟨hfin.drained.notFull, hfin.drained.notEmpty⟩, ?_, ?_, hfin.once, hfin.matches'⟩
  · -- nobody is blocked, so a thread that waits has been woken
    rintro u (hu | hu) choice'
    · have hmem := (hwaits.full.mem u).mpr hu
      rw [Condition.waiters, hfin.drained.notFull, List.nil_append] at hmem
      obtain ⟨d, hpc⟩ := hu
      simp only [QueueSystem.section?, hpc]
      rw [if_pos hmem]
      rfl
    · have hmem := (hwaits.empty.mem u).mpr hu
      rw [Condition.waiters, hfin.drained.notEmpty, List.nil_append] at hmem
      have hpc : s'.pc u = .waiting .pop := hu
      simp only [QueueSystem.section?, hpc]
      rw [if_pos hmem]
      rfl
  · intro u c hc hi ht
    have hterminated := hfin.drained.terminated
    show (s'.test u).pc u = _
    unfold QueueSystem.test
    rw [hc]
    split
    · rename_i h
      cases h
      exact absurd rfl hi
    · rename_i h
      cases h
      exact absurd rfl ht
    · rename_i h
      cases h
      rw [if_pos hterminated]
      exact pc_goto_self _ _ _
    · rename_i h
      cases h
    · rename_i h
      cases h
    · rename_i h₁ h₂ h₃ h₄ h₅
      exact absurd rfl (h₃ c)

/-- A pop waits, and a push is past the test of `terminated`, when the queue is terminated: both
still take place, and the next pop does not. -/
theorem after_term_push :
    let es : List (QueueStep ℕ (Fin 3)) := [.call 0 .pop, .test 0, .lock 0 0, .call 1 (.push 7),
      .test 1, .call 2 .term, .test 2, .lock 2 2]
    let s := ((create (0 : ℕ) 2 : QueueSystem ℕ (Fin 3)).run es).step (.lock 2 2)
    let es' : List (QueueStep ℕ (Fin 3)) := [.lock 1 1, .lock 0 0, .call 1 .pop]
    observed step view s es' = [(1, .put 7), (0, .take 7)] ∧
      ((s.run es').step (.test 1)).pc 1 = .outside (some ⟨.pop, .eof, none⟩) := by
  intro es s es'
  have h := after_term (T := Fin 3) (by decide) (0 : ℕ) 2 es es' 2 2 (by decide)
  exact ⟨by decide, h.2.2.1 1 .pop (by decide) (by rintro ⟨⟩) (by rintro ⟨⟩)⟩

end QueueSystem
