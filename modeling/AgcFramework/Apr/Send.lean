import AgcFramework.Lib.Memory

/-!
# Sending a buffer through a socket

`agc_socket_send` calls `apr_socket_send` until the socket has taken all bytes. A call takes a part
of what it is given, or reports that it would block, or fails; after too many calls in a row that
would block the function gives up.

## Main definitions

* `Outcome`: what a call of `apr_socket_send` reports
* `sendStep`, `sendLoop`: an iteration, and the loop
* `agcSocketSend`: `agc_socket_send` of `agc_apr.c`

## Main results

* `Inv.sendStep`: what the socket has taken is a prefix of the buffer, at each iteration
* `agcSocketSend_takes_prefix`: on return, and that the function returns
-/

open Exec

namespace Socket

/-- `AGC_STATUS_SUCCESS`. -/
def AGC_STATUS_SUCCESS : ℤ := 0

/-- `AGC_STATUS_FALSE`. -/
def AGC_STATUS_FALSE : ℤ := 1

/-- `AGC_STATUS_BREAK`. -/
def AGC_STATUS_BREAK : ℤ := 11

/-- What a call of `apr_socket_send` reports: a status, and how many bytes it takes where it is
given as many. -/
structure Outcome where
  status : ℤ
  taken : ℕ
  taken_eq_zero : status ≠ AGC_STATUS_SUCCESS → taken = 0

/-- The locals of `agc_socket_send`, with the number of calls and the bytes that the socket took. -/
structure Send where
  status : ℤ
  wrote : ℕ
  need : ℕ
  toCount : ℕ
  calls : ℕ
  accepted : List Byte

/-- The status is one of those for a call that would block. -/
def WouldBlock (status : ℤ) : Prop :=
  status = AGC_STATUS_BREAK ∨ status = 730035 ∨ status = 35

instance (status : ℤ) : Decidable (WouldBlock status) :=
  inferInstanceAs (Decidable (_ ∨ _ ∨ _))

/-- The condition of the loop. -/
def Send.GoesOn (req : ℕ) (s : Send) : Prop :=
  (s.wrote < req ∧ s.status = AGC_STATUS_SUCCESS) ∨
    (s.need = 0 ∧ s.status = AGC_STATUS_BREAK) ∨ s.status = 730035 ∨ s.status = 35

instance (req : ℕ) (s : Send) : Decidable (s.GoesOn req) :=
  inferInstanceAs (Decidable (_ ∨ _ ∨ _ ∨ _))

/-- `apr_socket_send(sock, buf + wrote, &need)`, which never takes more than it is given. -/
def aprSocketSend (buf : Mem) (req : ℕ) (out : Outcome) (s : Send) : Send :=
  let need := min out.taken (req - s.wrote)
  { s with
    status := out.status
    need := need
    calls := s.calls + 1
    accepted := s.accepted ++ buf.bytes s.wrote need }

/-- An iteration, and whether it leaves the loop by its `break`. -/
def sendStep (buf : Mem) (req : ℕ) (outcomes : ℕ → Outcome) (s : Send) : Send × Bool :=
  let s := aprSocketSend buf req (outcomes s.calls) s
  if WouldBlock s.status then
    let s := { s with toCount := s.toCount + 1 }
    if 60000 < s.toCount then ({ s with status := AGC_STATUS_FALSE }, true)
    else ({ s with wrote := s.wrote + s.need }, false)
  else ({ s with toCount := 0, wrote := s.wrote + s.need }, false)

/-- The loop. -/
def sendLoop (buf : Mem) (req : ℕ) (outcomes : ℕ → Outcome) : ℕ → Send → Exec Send
  | 0, _ => .error .fuel
  | fuel + 1, s =>
    if s.GoesOn req then
      let r := sendStep buf req outcomes s
      if r.2 then pure r.1 else sendLoop buf req outcomes fuel r.1
    else pure s

/-- What `agc_socket_send` returns, with `*len` and the bytes that the socket took. -/
structure Sent where
  status : ℤ
  len : ℕ
  accepted : List Byte
  deriving DecidableEq

/-- `agc_socket_send`. -/
def agcSocketSend (buf : Mem) (len : ℕ) (outcomes : ℕ → Outcome) (fuel : ℕ) : Exec Sent := do
  let s ← sendLoop buf len outcomes fuel ⟨AGC_STATUS_SUCCESS, 0, len, 0, 0, []⟩
  pure ⟨s.status, s.wrote, s.accepted⟩

/-! ## An iteration -/

section Run

variable {buf : Mem} {req : ℕ} {outcomes : ℕ → Outcome} {s : Send}

/-- The socket took the bytes before `wrote`, and unless the last call succeeded some are left. -/
structure Inv (buf : Mem) (req : ℕ) (s : Send) : Prop where
  accepted : s.accepted = buf.bytes 0 s.wrote
  le : s.wrote ≤ req
  lt : s.status ≠ AGC_STATUS_SUCCESS → s.wrote < req
  toCount : s.toCount ≤ 60000

/-- The loop is only entered with bytes left. -/
theorem Inv.lt_of_goesOn (h : Inv buf req s) (hs : s.GoesOn req) : s.wrote < req := by
  rcases hs with ⟨hlt, -⟩ | ⟨-, hstatus⟩ | hstatus | hstatus
  · exact hlt
  all_goals
    apply h.lt
    rw [hstatus]
    decide

theorem WouldBlock.ne_success {status : ℤ} (h : WouldBlock status) :
    status ≠ AGC_STATUS_SUCCESS := by
  rcases h with rfl | rfl | rfl
  all_goals decide

/-- A call extends what the socket took by what it takes. -/
theorem Inv.accepted_aprSocketSend (h : Inv buf req s) (out : Outcome) :
    (aprSocketSend buf req out s).accepted =
      buf.bytes 0 (s.wrote + min out.taken (req - s.wrote)) := by
  rw [Mem.bytes_add, Nat.zero_add, ← h.accepted]
  rfl

/-- What an iteration does: it gives up, or it goes on with what the call took. -/
theorem sendStep_cases (buf : Mem) (req : ℕ) (outcomes : ℕ → Outcome) (s : Send) :
    let s' := aprSocketSend buf req (outcomes s.calls) s
    (WouldBlock s'.status ∧ 60000 < s.toCount + 1 ∧ sendStep buf req outcomes s =
        ({ s' with toCount := s.toCount + 1, status := AGC_STATUS_FALSE }, true)) ∨
      (WouldBlock s'.status ∧ s.toCount + 1 ≤ 60000 ∧ sendStep buf req outcomes s =
        ({ s' with toCount := s.toCount + 1, wrote := s.wrote + s'.need }, false)) ∨
      (¬ WouldBlock s'.status ∧ sendStep buf req outcomes s =
        ({ s' with toCount := 0, wrote := s.wrote + s'.need }, false)) := by
  intro s'
  by_cases hblock : WouldBlock s'.status
  · by_cases hcount : 60000 < s.toCount + 1
    · exact .inl ⟨hblock, hcount, by
        simp only [sendStep]
        rw [if_pos hblock, if_pos (c := 60000 < s'.toCount + 1) hcount]
        rfl⟩
    · exact .inr (.inl ⟨hblock, Nat.not_lt.mp hcount, by
        simp only [sendStep]
        rw [if_pos hblock, if_neg (c := 60000 < s'.toCount + 1) hcount]
        rfl⟩)
  · exact .inr (.inr ⟨hblock, by
      simp only [sendStep]
      rw [if_neg hblock]
      rfl⟩)

/-- What holds when the function returns. -/
structure Done (buf : Mem) (req : ℕ) (s : Send) : Prop where
  accepted : s.accepted = buf.bytes 0 s.wrote
  le : s.wrote ≤ req
  success_iff : s.status = AGC_STATUS_SUCCESS ↔ s.wrote = req

/-- A call that does not succeed takes nothing. -/
theorem need_eq_zero (buf : Mem) {out : Outcome} (h : out.status ≠ AGC_STATUS_SUCCESS) :
    (aprSocketSend buf req out s).need = 0 := by
  simp [aprSocketSend, out.taken_eq_zero h]

theorem Inv.sendStep (h : Inv buf req s) (outcomes : ℕ → Outcome) (hs : s.GoesOn req) :
    ((sendStep buf req outcomes s).2 = false → Inv buf req (sendStep buf req outcomes s).1) ∧
      ((sendStep buf req outcomes s).2 = true → Done buf req (sendStep buf req outcomes s).1) := by
  have hlt := h.lt_of_goesOn hs
  have hacc := h.accepted_aprSocketSend (outcomes s.calls)
  have hneed : (aprSocketSend buf req (outcomes s.calls) s).need ≤ req - s.wrote :=
    Nat.min_le_right _ _
  have hzero : (outcomes s.calls).status ≠ AGC_STATUS_SUCCESS →
      (aprSocketSend buf req (outcomes s.calls) s).need = 0 := fun hne => need_eq_zero buf hne
  -- a blocking status is given up on or tried again; on any other the count starts anew
  rcases sendStep_cases buf req outcomes s with ⟨hblock, -, heq⟩ | ⟨hblock, hcount, heq⟩ | ⟨-, heq⟩
  · rw [heq]
    refine ⟨fun hfalse => (Bool.noConfusion hfalse), fun _ => ⟨?_, h.le, ?_⟩⟩
    · have hmin : min (outcomes s.calls).taken (req - s.wrote) = 0 :=
        hzero hblock.ne_success
      rw [hmin] at hacc
      exact hacc
    · have hne : AGC_STATUS_FALSE ≠ AGC_STATUS_SUCCESS := by decide
      exact ⟨fun hfalse => absurd hfalse hne, fun heq => absurd heq (Nat.ne_of_lt hlt)⟩
  · rw [heq]
    refine ⟨fun _ => ⟨hacc, ?_, fun hne => ?_, hcount⟩, fun htrue => Bool.noConfusion htrue⟩
    · change s.wrote + _ ≤ req
      omega
    · change s.wrote + _ < req
      rw [hzero hne]
      exact hlt
  · rw [heq]
    refine ⟨fun _ => ⟨hacc, ?_, fun hne => ?_, Nat.zero_le _⟩, fun htrue => Bool.noConfusion htrue⟩
    · change s.wrote + _ ≤ req
      omega
    · change s.wrote + _ < req
      rw [hzero hne]
      exact hlt

theorem Inv.done (h : Inv buf req s) (hs : ¬ s.GoesOn req) : Done buf req s := by
  refine ⟨h.accepted, h.le, fun hstatus => ?_, fun heq => ?_⟩
  · have hnot : ¬ s.wrote < req := fun hlt => hs (.inl ⟨hlt, hstatus⟩)
    exact Nat.le_antisymm h.le (Nat.not_lt.mp hnot)
  · by_contra hne
    exact Nat.ne_of_lt (h.lt hne) heq

/-! ## The loop -/

theorem Inv.sendLoop {fuel : ℕ} {s' : Send} (h : Inv buf req s)
    (hrun : sendLoop buf req outcomes fuel s = .ok s') : Done buf req s' := by
  induction fuel generalizing s with
  | zero => cases hrun
  | succ fuel ih =>
    by_cases hs : s.GoesOn req
    · obtain ⟨hgoes, hbreak⟩ := h.sendStep outcomes hs
      rw [Socket.sendLoop, if_pos hs] at hrun
      cases hleft : (Socket.sendStep buf req outcomes s).2 with
      | true =>
        simp only [hleft, if_true] at hrun
        cases hrun
        exact hbreak hleft
      | false =>
        simp only [hleft, Bool.false_eq_true, if_false] at hrun
        exact ih (hgoes hleft) hrun
    · rw [Socket.sendLoop, if_neg hs] at hrun
      cases hrun
      exact h.done hs

/-- The bytes that are left, and below that the calls before the function gives up. -/
def Send.rank (req : ℕ) (s : Send) : ℕ := (req - s.wrote) * 60002 + (60001 - s.toCount)

/-- An iteration comes closer to the end, or it is the last one. -/
theorem Inv.rank_lt (hprogress : ∀ i, (outcomes i).status = AGC_STATUS_SUCCESS →
      0 < (outcomes i).taken) (h : Inv buf req s) (hs : s.GoesOn req)
    (hstep : (Socket.sendStep buf req outcomes s).2 = false)
    (hs' : (Socket.sendStep buf req outcomes s).1.GoesOn req) :
    (Socket.sendStep buf req outcomes s).1.rank req < s.rank req := by
  have hlt := h.lt_of_goesOn hs
  have hcount := h.toCount
  rcases sendStep_cases buf req outcomes s with ⟨-, -, heq⟩ | ⟨hblock, -, heq⟩ | ⟨hblock, heq⟩
  · rw [heq] at hstep
    cases hstep
  · rw [heq]
    simp only [Send.rank, need_eq_zero buf hblock.ne_success]
    omega
  · rw [heq] at hs' ⊢
    -- the loop goes on, and the call did not block: it succeeded
    have hstatus : (outcomes s.calls).status = AGC_STATUS_SUCCESS := by
      rcases hs' with ⟨-, hstatus⟩ | ⟨-, hstatus⟩ | hstatus | hstatus
      · exact hstatus
      · exact absurd (.inl hstatus) hblock
      · exact absurd (.inr (.inl hstatus)) hblock
      · exact absurd (.inr (.inr hstatus)) hblock
    have htaken := hprogress s.calls hstatus
    have hneed : 0 < (aprSocketSend buf req (outcomes s.calls) s).need :=
      Nat.lt_min.mpr ⟨htaken, by omega⟩
    simp only [Send.rank]
    omega

theorem Inv.returns_sendLoop (hprogress : ∀ i, (outcomes i).status = AGC_STATUS_SUCCESS →
      0 < (outcomes i).taken) (h : Inv buf req s) :
    ∃ s', Returns (fun k => Socket.sendLoop buf req outcomes k s) s' := by
  induction hr : s.rank req using Nat.strong_induction_on generalizing s with
  | _ r ih =>
    have hsucc : ∀ {s s'}, (∀ k, Socket.sendLoop buf req outcomes (k + 1) s = .ok s') →
        Returns (fun k => Socket.sendLoop buf req outcomes k s) s' := fun hk =>
      (Returns.const _).succ hk
    by_cases hs : s.GoesOn req
    · cases hleft : (Socket.sendStep buf req outcomes s).2 with
      | true =>
        refine ⟨(Socket.sendStep buf req outcomes s).1, hsucc fun k => ?_⟩
        simp [Socket.sendLoop, hs, hleft]
      | false =>
        have hnext := (h.sendStep outcomes hs).1 hleft
        have hstep : ∀ k, Socket.sendLoop buf req outcomes (k + 1) s =
            Socket.sendLoop buf req outcomes k (Socket.sendStep buf req outcomes s).1 := by
          intro k
          simp [Socket.sendLoop, hs, hleft]
        by_cases hs' : (Socket.sendStep buf req outcomes s).1.GoesOn req
        · -- each round sends something or uses up one of the waits
          have hrank := h.rank_lt hprogress hs hleft hs'
          obtain ⟨s', hret⟩ := ih _ (hr ▸ hrank) hnext rfl
          exact ⟨s', hret.succ hstep⟩
        · refine ⟨(Socket.sendStep buf req outcomes s).1, (hsucc fun k => ?_).succ hstep⟩
          rw [Socket.sendLoop, if_neg hs']
          rfl
    · refine ⟨s, hsucc fun k => ?_⟩
      rw [Socket.sendLoop, if_neg hs]
      rfl

end Run

/-- The socket takes a prefix of the buffer, each byte once, `*len` is its length, and the function
succeeds exactly if it is the whole buffer. The function returns unless calls succeed for ever
without taking anything. -/
theorem agcSocketSend_takes_prefix (buf : Mem) (len : ℕ) (outcomes : ℕ → Outcome) :
    (∀ fuel r, agcSocketSend buf len outcomes fuel = .ok r →
      r.len ≤ len ∧ r.accepted = buf.bytes 0 r.len ∧
        (r.status = AGC_STATUS_SUCCESS ↔ r.len = len)) ∧
    ((∀ i, (outcomes i).status = AGC_STATUS_SUCCESS → 0 < (outcomes i).taken) →
      ∃ r, Returns (agcSocketSend buf len outcomes) r) := by
  have hinit : Inv buf len ⟨AGC_STATUS_SUCCESS, 0, len, 0, 0, []⟩ :=
    ⟨rfl, Nat.zero_le _, fun h => absurd rfl h, Nat.zero_le _⟩
  constructor
  · intro fuel r hrun
    obtain ⟨s, hs, hr⟩ := bind_eq_ok.mp hrun
    cases hr
    have hdone := hinit.sendLoop hs
    exact ⟨hdone.le, hdone.accepted, hdone.success_iff⟩
  · intro hprogress
    obtain ⟨s, hs⟩ := hinit.returns_sendLoop hprogress
    exact ⟨⟨s.status, s.wrote, s.accepted⟩, hs.bind (Returns.const _)⟩

/-- A socket that takes one byte, would block once, and takes two bytes at a time behind that. -/
def slowOutcomes : ℕ → Outcome
  | 0 => ⟨AGC_STATUS_SUCCESS, 1, fun h => absurd rfl h⟩
  | 1 => ⟨AGC_STATUS_BREAK, 0, fun _ => rfl⟩
  | _ => ⟨AGC_STATUS_SUCCESS, 2, fun h => absurd rfl h⟩

theorem agcSocketSend_takes_prefix_slow :
    agcSocketSend (fun x => x.toUInt8) 4 slowOutcomes 10 =
      .ok ⟨AGC_STATUS_SUCCESS, 4, [0, 1, 2, 3]⟩ ∧
      ((AGC_STATUS_SUCCESS = AGC_STATUS_SUCCESS ↔ 4 = 4) ∧
        ∃ r, Returns (agcSocketSend (fun x => x.toUInt8) 4 slowOutcomes) r) := by
  have hrun : agcSocketSend (fun x => x.toUInt8) 4 slowOutcomes 10 =
      .ok ⟨AGC_STATUS_SUCCESS, 4, [0, 1, 2, 3]⟩ := rfl
  have htakes := agcSocketSend_takes_prefix (fun x => x.toUInt8) 4 slowOutcomes
  refine ⟨hrun, (htakes.1 10 _ hrun).2.2, htakes.2 ?_⟩
  rintro (_ | _ | i) hstatus
  · decide
  · exact absurd hstatus (by decide)
  · change 0 < 2
    decide

end Socket
