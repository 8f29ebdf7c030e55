import AgcFramework.Apr.Queue

/-!
# The waits on the queue

A thread that pushes on a full queue, or pops from an empty one, blocks until it is signalled; the
counters `full_waiters` and `empty_waiters` decide whether a signal is sent.

## Main definitions

* `AprQueue.Signalled`: a signal for each free place and element that a blocked thread could have
* `QueueSystem.Waits`: the waiting threads are counted, and signalled for

## Main results

* `QueueSystem.waits_run`: this is so in every run
* `QueueSystem.no_lost_wakeup`: a blocked thread that could go on has been signalled for
-/

open Trace

/-! ## What the critical sections do to the waits -/

namespace AprQueue

variable {α T : Type}

/-- The threads that wait for room and for an element are those of `pushers` and `poppers`. If one
of them is blocked, at least `room`, or `elements`, of its kind have been woken. -/
structure Waits (q : AprQueue α T) (pushers poppers : T → Prop) (room elements : ℕ) : Prop where
  full : q.notFull.Tracks q.fullWaiters pushers room
  empty : q.notEmpty.Tracks q.emptyWaiters poppers elements

/-- There is a signal for each free place and each element that a blocked thread could have. -/
def Signalled (q : AprQueue α T) (pushers poppers : T → Prop) : Prop :=
  q.Waits pushers poppers (q.bounds - q.nelts) q.nelts

variable {q q' : AprQueue α T} {pushers poppers pushers' poppers' : T → Prop} {l : List α}
  {d : α} {t choice : T}

theorem Signalled.congr (h : q.Signalled pushers poppers) (hpush : ∀ t, pushers t ↔ pushers' t)
    (hpop : ∀ t, poppers t ↔ poppers' t) : q.Signalled pushers' poppers' :=
  ⟨h.full.congr hpush, h.empty.congr hpop⟩

theorem Signalled.broadcast (h : q.Signalled pushers poppers) :
    ({ q with notEmpty := q.notEmpty.broadcast, notFull := q.notFull.broadcast } :
      AprQueue α T).Signalled pushers poppers :=
  ⟨h.full.broadcast _, h.empty.broadcast _⟩

section Step

variable [DecidableEq T]

theorem Signalled.wake (h : q.Signalled pushers poppers) (t : T) :
    ({ q with notEmpty := q.notEmpty.wake t, notFull := q.notFull.wake t } :
      AprQueue α T).Signalled pushers poppers :=
  ⟨h.full.wake t, h.empty.wake t⟩

/-- A push takes a free place, and adds an element that a blocked pop is signalled for. -/
theorem Waits.put (h : q.Waits pushers poppers (q.bounds - q.nelts - 1) q.nelts)
    (hc : q.Contents l) (hroom : l.length < q.bounds) (hput : q.put d choice = some q') :
    q'.Signalled pushers poppers := by
  have hnelts : incr q.nelts = q.nelts + 1 := by
    have := hc.bounds
    rw [hc.nelts]
    exact incr_of_lt (by omega)
  have hempty := h.empty.signal choice
  have hfull : q.notFull.Tracks q.fullWaiters pushers (q.bounds - incr q.nelts) := by
    rw [hnelts]
    exact h.full
  rw [← hnelts] at hempty
  unfold AprQueue.put at hput
  split_ifs at hput with hin hcount
  · cases hput
    rw [if_pos hcount] at hempty
    exact ⟨hfull, hempty⟩
  · cases hput
    rw [if_neg hcount] at hempty
    exact ⟨hfull, hempty⟩

/-- A pop takes an element, and leaves a free place that a blocked push is signalled for. -/
theorem Waits.take {x : α} (h : q.Waits pushers poppers (q.bounds - q.nelts) (q.nelts - 1))
    (hc : q.Contents (d :: l)) (htake : q.take choice = some (x, q')) :
    q'.Signalled pushers poppers := by
  have hlen := hc.length_le
  rw [List.length_cons] at hlen
  have hnelts : decr q.nelts = q.nelts - 1 ∧ 0 < q.nelts ∧ q.nelts ≤ q.bounds := by
    rw [hc.nelts, List.length_cons, decr_succ]
    omega
  have hfull := h.full.signal choice
  have hempty := h.empty
  rw [show q.bounds - q.nelts + 1 = q.bounds - decr q.nelts by omega] at hfull
  rw [← hnelts.1] at hempty
  obtain ⟨y, -, htake⟩ := Option.map_eq_some_iff.mp htake
  obtain ⟨-, rfl⟩ := Prod.mk.inj htake
  split_ifs with hcount
  · rw [if_pos hcount] at hfull
    exact ⟨hfull, hempty⟩
  · rw [if_neg hcount] at hfull
    exact ⟨hfull, hempty⟩

end Step

/-! ## The counters of the waiting threads -/

/-- A woken thread leaves, and is no longer counted. -/
theorem tracks_leave [DecidableEq T] {c : Condition T} {count n : ℕ} {who : T → Prop}
    (h : c.Tracks count who n) (ht : t ∈ c.woken) :
    (c.leave t).Tracks (decr count) (fun u => who u ∧ u ≠ t) (n - 1) := by
  have hpos : 0 < count := by
    rw [h.count, Condition.waiters, List.length_append]
    exact Nat.add_pos_right _ (List.length_pos_of_mem ht)
  obtain ⟨k, rfl⟩ := Nat.exists_eq_succ_of_ne_zero hpos.ne'
  rw [decr_succ]
  exact h.leave ht

section Counters

variable [Fintype T] (hT : Fintype.card T < 2 ^ 32)

include hT

/-- A push blocks on a full queue. -/
theorem Signalled.waitFull (h : q.Signalled pushers poppers) (hc : q.Contents l)
    (hfull : q.full = true) (ht : ¬ pushers t) :
    ({ q with fullWaiters := incr q.fullWaiters, notFull := q.notFull.wait t } :
      AprQueue α T).Signalled (fun u => pushers u ∨ u = t) poppers := by
  have hzero : q.bounds - q.nelts = 0 := by
    rw [hc.nelts, hc.full_iff.mp hfull, Nat.sub_self]
  have htracks := h.full
  rw [hzero] at htracks
  have hlt := htracks.count_lt_card ht
  refine ⟨?_, h.empty⟩
  show Condition.Tracks _ (incr q.fullWaiters) _ (q.bounds - q.nelts)
  rw [hzero, incr_of_lt (by omega)]
  exact htracks.wait ht

/-- A pop blocks on an empty queue. -/
theorem Signalled.waitEmpty (h : q.Signalled pushers poppers) (hempty : q.empty = true)
    (ht : ¬ poppers t) :
    ({ q with emptyWaiters := incr q.emptyWaiters, notEmpty := q.notEmpty.wait t } :
      AprQueue α T).Signalled pushers (fun u => poppers u ∨ u = t) := by
  have hzero : q.nelts = 0 := by simpa [AprQueue.empty] using hempty
  have htracks := h.empty
  rw [hzero] at htracks
  have hlt := htracks.count_lt_card ht
  refine ⟨h.full, ?_⟩
  show Condition.Tracks _ (incr q.emptyWaiters) _ q.nelts
  rw [hzero, incr_of_lt (by omega)]
  exact htracks.wait ht

end Counters

end AprQueue

/-! ## What the threads wait for -/

namespace QueueSystem

variable {α T : Type} [DecidableEq T] {s s' : QueueSystem α T} {t choice : T} {l : List α}
  {capacity : ℕ} {pushers poppers : T → Prop}

/-- The thread waits for room. -/
def Pushing (s : QueueSystem α T) (t : T) : Prop := ∃ d, s.pc t = .waiting (.push d)

/-- The thread waits for an element. -/
def Popping (s : QueueSystem α T) (t : T) : Prop := s.pc t = .waiting .pop

/-- The waiting threads are counted, and signalled for. -/
def Waits (s : QueueSystem α T) : Prop := s.queue.Signalled s.Pushing s.Popping

theorem queue_store {c : QueueCall α} {d : α} (hs : s.queue.Contents l)
    (hroom : l.length < s.queue.bounds) : ∃ q, s.queue.put d choice = some q ∧
      (s.store t c d choice) = (s.setQueue q).ret t c .success none := by
  obtain ⟨q, hput, -, -⟩ := hs.put hroom d choice
  exact ⟨q, hput, by rw [store, hput]⟩

theorem queue_fetch {c : QueueCall α} {d : α} (hs : s.queue.Contents (d :: l)) :
    ∃ q, s.queue.take choice = some (d, q) ∧
      (s.fetch t c choice) = (s.setQueue q).ret t c .success (some d) := by
  obtain ⟨q, htake, -, -⟩ := hs.take choice
  exact ⟨q, htake, by rw [fetch, htake]⟩

/-- The thread has moved, and does not wait. -/
structure Moved (s : QueueSystem α T) (t : T) (s' : QueueSystem α T) : Prop where
  others : ∀ u, u ≠ t → s'.pc u = s.pc u
  self : ∀ c, s'.pc t ≠ .waiting c

omit [DecidableEq T] in
theorem Moved.of_setQueue {q : AprQueue α T} (hm : (s.setQueue q).Moved t s') : s.Moved t s' :=
  ⟨hm.others, hm.self⟩

theorem moved_goto (s : QueueSystem α T) (t : T) {pc : QueuePc α} (hpc : ∀ c, pc ≠ .waiting c) :
    s.Moved t (s.goto t pc) where
  others u hu := pc_goto_of_ne s hu pc
  self := by rwa [pc_goto_self]

theorem moved_ret (s : QueueSystem α T) (t : T) (c : QueueCall α) (rv : AprStatus)
    (data : Option α) : s.Moved t (s.ret t c rv data) :=
  moved_goto s t (by rintro _ ⟨⟩)

theorem moved_store (s : QueueSystem α T) (t : T) (c : QueueCall α) (d : α) (choice : T) :
    s.Moved t (s.store t c d choice) := by
  unfold store
  split
  · exact (moved_ret _ t _ _ _).of_setQueue
  · exact moved_goto s t (by rintro _ ⟨⟩)

theorem moved_fetch (s : QueueSystem α T) (t : T) (c : QueueCall α) (choice : T) :
    s.Moved t (s.fetch t c choice) := by
  unfold fetch
  split
  · exact (moved_ret _ t _ _ _).of_setQueue
  · exact moved_goto s t (by rintro _ ⟨⟩)

theorem moved_pushAwake (s : QueueSystem α T) (t : T) (d : α) (choice : T) :
    s.Moved t (s.pushAwake t d choice) := by
  unfold pushAwake
  split_ifs
  · exact moved_goto s t (by rintro _ ⟨⟩)
  · exact moved_store s t _ d choice

theorem moved_popAwake (s : QueueSystem α T) (t choice : T) :
    s.Moved t (s.popAwake t choice) := by
  unfold popAwake
  split_ifs
  · exact moved_goto s t (by rintro _ ⟨⟩)
  · exact moved_fetch s t _ choice

omit [DecidableEq T] in
/-- After the step of a thread the others wait as before. -/
theorem Moved.waits (hm : s.Moved t s') (h : s'.queue.Signalled pushers poppers)
    (hpush : ∀ u, pushers u ↔ s.Pushing u ∧ u ≠ t) (hpop : ∀ u, poppers u ↔ s.Popping u ∧ u ≠ t) :
    s'.Waits := by
  apply h.congr
  · intro u
    rw [hpush]
    rcases eq_or_ne u t with rfl | hu
    · simp [Pushing, hm.self]
    · simp [Pushing, hm.others u hu, hu]
  · intro u
    rw [hpop]
    rcases eq_or_ne u t with rfl | hu
    · simp [Popping, hm.self]
    · simp [Popping, hm.others u hu, hu]

theorem signalled_store {c : QueueCall α} {d : α} (hc : s.queue.Contents l)
    (hfull : ¬ s.queue.full = true)
    (h : s.queue.Waits pushers poppers (s.queue.bounds - s.queue.nelts - 1) s.queue.nelts) :
    (s.store t c d choice).queue.Signalled pushers poppers := by
  obtain ⟨q, hput, heq⟩ := queue_store hc (hc.room hfull)
  rw [heq]
  exact h.put hc (hc.room hfull) hput

theorem signalled_fetch {c : QueueCall α} (hc : s.queue.Contents l)
    (hempty : ¬ s.queue.empty = true)
    (h : s.queue.Waits pushers poppers (s.queue.bounds - s.queue.nelts) (s.queue.nelts - 1)) :
    (s.fetch t c choice).queue.Signalled pushers poppers := by
  rw [hc.empty_iff] at hempty
  obtain ⟨d, l, rfl⟩ := List.exists_cons_of_ne_nil hempty
  obtain ⟨q, htake, heq⟩ := queue_fetch hc
  rw [heq]
  exact h.take hc htake

/-- A push that finds the queue full needs no signal. -/
theorem signalled_pushAwake (hc : s.queue.Contents l) (d : α)
    (h : s.queue.Waits pushers poppers (s.queue.bounds - s.queue.nelts - 1) s.queue.nelts) :
    (s.pushAwake t d choice).queue.Signalled pushers poppers := by
  unfold pushAwake
  split_ifs with hfull
  · have hzero : s.queue.bounds - s.queue.nelts = 0 := by
      rw [hc.nelts, hc.full_iff.mp hfull, Nat.sub_self]
    have hnone := h.full
    rw [show s.queue.bounds - s.queue.nelts - 1 = s.queue.bounds - s.queue.nelts by omega] at hnone
    exact ⟨hnone, h.empty⟩
  · exact signalled_store hc hfull h

/-- A pop that finds the queue empty needs no signal. -/
theorem signalled_popAwake (hc : s.queue.Contents l)
    (h : s.queue.Waits pushers poppers (s.queue.bounds - s.queue.nelts) (s.queue.nelts - 1)) :
    (s.popAwake t choice).queue.Signalled pushers poppers := by
  unfold popAwake
  split_ifs with hempty
  · have hzero : s.queue.nelts = 0 := by simpa [AprQueue.empty] using hempty
    have hnone := h.empty
    rw [show s.queue.nelts - 1 = s.queue.nelts by omega] at hnone
    exact ⟨h.full, hnone⟩
  · exact signalled_fetch hc hempty h

omit [DecidableEq T] in
/-- A thread that does not wait is not among those that do. -/
theorem Waits.ne (h : s.Waits) (ht : ∀ c, s.pc t ≠ .waiting c) :
    s.queue.Signalled (fun u => s.Pushing u ∧ u ≠ t) (fun u => s.Popping u ∧ u ≠ t) := by
  apply AprQueue.Signalled.congr h
  · intro u
    refine (and_iff_left_of_imp ?_).symm
    rintro ⟨d, hd⟩ rfl
    exact ht _ hd
  · intro u
    refine (and_iff_left_of_imp ?_).symm
    rintro hd rfl
    exact ht _ hd

section Run

variable [Fintype T] (hT : Fintype.card T < 2 ^ 32)

include hT

/-- The wait of a push: the thread is counted, and blocked. -/
theorem Waits.push (h : s.Waits) (hs : s.Sound capacity l) (ht : ∀ c, s.pc t ≠ .waiting c) (d : α) :
    (s.push t d choice).Waits := by
  unfold QueueSystem.push
  split_ifs with hfull
  · rw [Bool.and_eq_true] at hfull
    have hq := h.waitFull (t := t) hT hs.contents hfull.1
      (by rintro ⟨d, hd⟩; exact ht _ hd)
    apply AprQueue.Signalled.congr hq
    · intro u
      rcases eq_or_ne u t with rfl | hu
      · simp [Pushing, pc_goto_self]
      · simp [Pushing, setQueue, pc_goto_of_ne, hu]
    · intro u
      rcases eq_or_ne u t with rfl | hu
      · simp [Popping, pc_goto_self, ht]
      · simp [Popping, setQueue, pc_goto_of_ne, hu]
  · have hne := h.ne ht
    apply (moved_pushAwake s t d choice).waits ?_ (fun _ => Iff.rfl) (fun _ => Iff.rfl)
    exact signalled_pushAwake hs.contents d ⟨hne.full.mono (Nat.sub_le _ _), hne.empty⟩

/-- The wait of a pop. -/
theorem Waits.pop (h : s.Waits) (hs : s.Sound capacity l) (ht : ∀ c, s.pc t ≠ .waiting c) :
    (s.pop t choice).Waits := by
  unfold QueueSystem.pop
  split_ifs with hempty
  · rw [Bool.and_eq_true] at hempty
    have hq := h.waitEmpty (t := t) hT hempty.1 (ht _)
    apply AprQueue.Signalled.congr hq
    · intro u
      rcases eq_or_ne u t with rfl | hu
      · simp [Pushing, pc_goto_self, ht]
      · simp [Pushing, setQueue, pc_goto_of_ne, hu]
    · intro u
      rcases eq_or_ne u t with rfl | hu
      · simp [Popping, pc_goto_self]
      · simp [Popping, setQueue, pc_goto_of_ne, hu]
  · have hne := h.ne ht
    apply (moved_popAwake s t choice).waits ?_ (fun _ => Iff.rfl) (fun _ => Iff.rfl)
    exact signalled_popAwake hs.contents ⟨hne.full, hne.empty.mono (Nat.sub_le _ _)⟩

/-- A critical section keeps the waits in order. -/
theorem Waits.section? (h : s.Waits) (hs : s.Sound capacity l)
    (hsec : s.section? t choice = some s') : s'.Waits := by
  have hc := hs.contents
  -- the thread did not wait, and does not wait
  have hmoved : (∀ c, s.pc t ≠ .waiting c) → s.Moved t s' →
      (s'.queue.Signalled (fun u => s.Pushing u ∧ u ≠ t) fun u => s.Popping u ∧ u ≠ t) →
      s'.Waits := fun _ hm hq => hm.waits hq (fun _ => Iff.rfl) (fun _ => Iff.rfl)
  have hpc : ∀ {pc}, s.pc t = pc → (∀ c, pc ≠ .waiting c) → ∀ c, s.pc t ≠ .waiting c :=
    fun hp hne c hw => hne c (hp.symm.trans hw)
  unfold QueueSystem.section? at hsec
  split at hsec
  · rename_i d hp
    cases hsec
    exact h.push hT hs (hpc hp (by rintro _ ⟨⟩)) d
  · rename_i d hp
    have ht := hpc hp (by rintro _ ⟨⟩)
    cases hsec
    unfold QueueSystem.trypush at hmoved ⊢
    split_ifs at hmoved ⊢ with hfull
    · exact hmoved ht (moved_ret s t _ _ _) (h.ne ht)
    · refine hmoved ht (moved_store s t _ d choice) (signalled_store hc hfull ?_)
      exact ⟨(h.ne ht).full.mono (Nat.sub_le _ _), (h.ne ht).empty⟩
  · rename_i hp
    cases hsec
    exact h.pop hT hs (hpc hp (by rintro _ ⟨⟩))
  · rename_i hp
    have ht := hpc hp (by rintro _ ⟨⟩)
    cases hsec
    unfold QueueSystem.trypop at hmoved ⊢
    split_ifs at hmoved ⊢ with hempty
    · exact hmoved ht (moved_ret s t _ _ _) (h.ne ht)
    · refine hmoved ht (moved_fetch s t _ choice) (signalled_fetch hc hempty ?_)
      exact ⟨(h.ne ht).full, (h.ne ht).empty.mono (Nat.sub_le _ _)⟩
  · rename_i hp
    have ht := hpc hp (by rintro _ ⟨⟩)
    cases hsec
    exact hmoved ht (moved_ret _ t _ _ _).of_setQueue (h.ne ht).broadcast
  · rename_i hp
    have ht := hpc hp (by rintro _ ⟨⟩)
    cases hsec
    refine hmoved ht (moved_goto _ t (by rintro _ ⟨⟩)).of_setQueue ?_
    exact ⟨(h.ne ht).full, (h.ne ht).empty⟩
  · rename_i hp
    have ht := hpc hp (by rintro _ ⟨⟩)
    cases hsec
    exact hmoved ht (moved_ret _ t _ _ _).of_setQueue (h.ne ht).broadcast
  · rename_i d hp
    split_ifs at hsec with hwoken
    cases hsec
    -- it is no longer counted, and takes the place it was woken for
    have hm := (moved_pushAwake (s.leaveFull t) t d choice).of_setQueue
    have hleave : (s.leaveFull t).queue.Waits (fun u => s.Pushing u ∧ u ≠ t) s.Popping
        (s.queue.bounds - s.queue.nelts - 1) s.queue.nelts := by
      constructor
      · exact AprQueue.tracks_leave h.full hwoken
      · exact h.empty
    have hcontents : (s.leaveFull t).queue.Contents l := ⟨hc.1, hc.2, hc.3, hc.4, hc.5, hc.6⟩
    refine hm.waits (signalled_pushAwake hcontents d hleave) (fun _ => Iff.rfl) fun u => ?_
    refine (and_iff_left_of_imp ?_).symm
    rintro hu rfl
    simp [Popping, hp] at hu
  · rename_i hp
    split_ifs at hsec with hwoken
    cases hsec
    have hm := (moved_popAwake (s.leaveEmpty t) t choice).of_setQueue
    have hleave : (s.leaveEmpty t).queue.Waits s.Pushing (fun u => s.Popping u ∧ u ≠ t)
        (s.queue.bounds - s.queue.nelts) (s.queue.nelts - 1) := by
      constructor
      · exact h.full
      · exact AprQueue.tracks_leave h.empty hwoken
    have hcontents : (s.leaveEmpty t).queue.Contents l := ⟨hc.1, hc.2, hc.3, hc.4, hc.5, hc.6⟩
    refine hm.waits (signalled_popAwake hcontents hleave) (fun u => ?_) fun _ => Iff.rfl
    refine (and_iff_left_of_imp ?_).symm
    rintro ⟨d, hu⟩ rfl
    simp [hp] at hu
  · cases hsec

omit [Fintype T] hT in
/-- The thread moves, and waits neither before nor after it. -/
theorem Waits.goto (h : s.Waits) (ht : ∀ c, s.pc t ≠ .waiting c) {pc : QueuePc α}
    (hpc : ∀ c, pc ≠ .waiting c) : (s.goto t pc).Waits :=
  (moved_goto s t hpc).waits (h.ne ht) (fun _ => Iff.rfl) (fun _ => Iff.rfl)

omit [Fintype T] hT in
theorem Waits.test (h : s.Waits) (t : T) : (s.test t).Waits := by
  have hpc : ∀ {pc}, s.pc t = pc → (∀ c, pc ≠ .waiting c) → ∀ c, s.pc t ≠ .waiting c :=
    fun hp hne c hw => hne c (hp.symm.trans hw)
  unfold QueueSystem.test
  split
  · rename_i hp
    exact h.goto (hpc hp (by rintro _ ⟨⟩)) (by rintro _ ⟨⟩)
  · rename_i hp
    exact h.goto (hpc hp (by rintro _ ⟨⟩)) (by rintro _ ⟨⟩)
  · rename_i hp
    split_ifs
    · exact h.goto (hpc hp (by rintro _ ⟨⟩)) (by rintro _ ⟨⟩)
    · exact h.goto (hpc hp (by rintro _ ⟨⟩)) (by rintro _ ⟨⟩)
  · rename_i hp
    split_ifs
    · exact h.goto (hpc hp (by rintro _ ⟨⟩)) (by rintro _ ⟨⟩)
    · exact h.goto (hpc hp (by rintro _ ⟨⟩)) (by rintro _ ⟨⟩)
  · rename_i hp
    split_ifs
    · exact h.goto (hpc hp (by rintro _ ⟨⟩)) (by rintro _ ⟨⟩)
    · exact h.goto (hpc hp (by rintro _ ⟨⟩)) (by rintro _ ⟨⟩)
  · exact h

theorem Waits.step (h : s.Waits) (hs : s.Sound capacity l) (e : QueueStep α T) :
    (s.step e).Waits := by
  cases e with
  | call t c =>
    simp only [QueueSystem.step]
    split
    · rename_i hp
      exact h.goto (by rw [hp]; rintro _ ⟨⟩) (by rintro _ ⟨⟩)
    · exact h
  | test t => exact h.test t
  | lock t choice =>
    rcases hsec : s.section? t choice with _ | s'
    · simp only [QueueSystem.step, hsec]
      exact h
    · simp only [QueueSystem.step, hsec]
      exact h.section? hT hs hsec
  | spurious t => exact AprQueue.Signalled.wake h t

/-- In every run the waiting threads are counted, and signalled for. -/
theorem waits_run (null : α) (capacity : UInt32) (es : List (QueueStep α T)) :
    ((create null capacity : QueueSystem α T).run es).Waits := by
  induction es using List.reverseRecOn with
  | nil =>
    constructor
    · exact Condition.Tracks.create (by rintro t ⟨d, ⟨⟩⟩) _
    · exact Condition.Tracks.create (by rintro t ⟨⟩) _
  | append_singleton es e ih =>
    obtain ⟨l, -, hs⟩ := sound_run (T := T) null capacity es
    rw [run, List.foldl_concat]
    exact ih.step hT hs e

end Run

/-- **No lost wakeup.** Let fewer than `2 ^ 32` threads call the functions of a queue in any order,
with any spurious wakeups. Each thread that waits for room is blocked on `not_full` or woken, and
`full_waiters` is their number, and so for the pops. If a pop is blocked, at least as many pops have
been woken, and have yet to take the mutex, as there are elements; if a push is blocked, at least
as many pushes have been woken as there are free places. So while one thread is blocked that could
go on, another one that was woken can take the mutex, and in a queue that can hold an element
pushes and pops are never all blocked at once. -/
theorem no_lost_wakeup [Fintype T] (hT : Fintype.card T < 2 ^ 32) (null : α) (capacity : UInt32)
    (es : List (QueueStep α T)) :
    let s := (create null capacity : QueueSystem α T).run es
    let q := s.queue
    (∀ t, t ∈ q.notFull.blocked ++ q.notFull.woken ↔ ∃ d, s.pc t = .waiting (.push d)) ∧
    (∀ t, t ∈ q.notEmpty.blocked ++ q.notEmpty.woken ↔ s.pc t = .waiting .pop) ∧
    q.fullWaiters = (q.notFull.blocked ++ q.notFull.woken).length ∧
    q.emptyWaiters = (q.notEmpty.blocked ++ q.notEmpty.woken).length ∧
    (q.notEmpty.blocked ≠ [] → q.nelts ≤ q.notEmpty.woken.length) ∧
    (q.notFull.blocked ≠ [] → capacity.toNat - q.nelts ≤ q.notFull.woken.length) ∧
    (q.notEmpty.blocked ≠ [] → q.notFull.blocked ≠ [] → 0 < capacity.toNat →
      ∃ t ∈ q.notEmpty.woken ++ q.notFull.woken, ∀ choice, (s.section? t choice).isSome) := by
  intro s q
  have h := waits_run hT null capacity es
  obtain ⟨l, -, hs⟩ := sound_run (T := T) null capacity es
  have hfull : q.notFull.blocked ≠ [] → capacity.toNat - q.nelts ≤ q.notFull.woken.length :=
    fun hb => hs.bounds ▸ h.full.covers hb
  refine ⟨h.full.mem, h.empty.mem, h.full.count, h.empty.count, h.empty.covers, hfull, ?_⟩
  intro hpop hpush hpos
  have hpop := h.empty.covers hpop
  have hpush := hfull hpush
  have hwoken : 0 < (q.notEmpty.woken ++ q.notFull.woken).length := by
    have hpop : q.nelts ≤ q.notEmpty.woken.length := hpop
    rw [List.length_append]
    omega
  obtain ⟨t, ht⟩ := List.exists_mem_of_length_pos hwoken
  refine ⟨t, ht, fun choice => ?_⟩
  rcases List.mem_append.mp ht with ht | ht
  · have hpc : s.pc t = .waiting .pop :=
      (h.empty.mem t).mp (List.mem_append_right _ ht)
    simp only [QueueSystem.section?, hpc]
    rw [if_pos ht]
    rfl
  · obtain ⟨d, hpc⟩ : ∃ d, s.pc t = .waiting (.push d) :=
      (h.full.mem t).mp (List.mem_append_right _ ht)
    simp only [QueueSystem.section?, hpc]
    rw [if_pos ht]
    rfl

/-- Two pops wait on a queue of two places, and a push signals for one of them. -/
theorem no_lost_wakeup_push :
    let s := (create (0 : ℕ) 2 : QueueSystem ℕ (Fin 3)).run
      [.call 0 .pop, .test 0, .lock 0 0, .call 1 .pop, .test 1, .lock 1 0,
        .call 2 (.push 7), .test 2, .lock 2 1]
    s.queue.notEmpty.blocked = [0] ∧ s.queue.notEmpty.woken = [1] ∧ s.queue.nelts = 1 ∧
      s.queue.emptyWaiters = (s.queue.notEmpty.blocked ++ s.queue.notEmpty.woken).length := by
  intro s
  have h := no_lost_wakeup (T := Fin 3) (by decide) (0 : ℕ) 2
    [.call 0 .pop, .test 0, .lock 0 0, .call 1 .pop, .test 1, .lock 1 0,
      .call 2 (.push 7), .test 2, .lock 2 1]
  exact ⟨by decide, by decide, by decide, h.2.2.2.1⟩

end QueueSystem
