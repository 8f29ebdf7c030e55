import AgcFramework.EventSocket.ReadPacket

/-!
# Receiving a block and a body

However the bytes are cut into receipts, the receiving loops take exactly the bytes they are to
take. The state of the loop that fills the buffer is determined by the bytes it has taken since the
last reset.

## Main definitions

* `Socket.bytes`: the bytes that the socket is going to deliver
* `Reader.Holds r got`: the reader has taken the bytes `got`
* `Reader.Terminated r`: the buffer holds a NUL behind the bytes that were taken

## Main results

* `readBody_spec`: the body is the next bytes
* `Reader.reaches_terminated`: the buffer is terminated in every state that is reached
* `readBlock_spec`: the block is taken up to its empty line
-/

open Exec

namespace Socket

/-- The bytes of the receipts. -/
def bytes (s : Socket) : List Byte :=
  s.flatMap fun
    | .data bs => bs
    | _ => []

@[simp] theorem bytes_nil : bytes [] = [] := rfl
@[simp] theorem bytes_wouldBlock (s : Socket) : bytes (.wouldBlock :: s) = bytes s := rfl
@[simp] theorem bytes_data (bs : List Byte) (s : Socket) :
    bytes (.data bs :: s) = bs ++ bytes s := rfl

/-- The number of receipts and bytes, which every receipt lowers. -/
def size (s : Socket) : ℕ := s.length + s.bytes.length

end Socket

/-- A receipt takes some of the bytes from the front, and makes progress. -/
theorem agcSocketRecv_spec {s : Socket} {len : ℕ} (hs : .closed ∉ s) (hb : s.bytes ≠ [])
    (hlen : 0 < len) :
    ∃ status d s', agcSocketRecv len s = (status, d, s') ∧
      (status = .brk ∨ status = .success) ∧ .closed ∉ s' ∧ s.bytes = d ++ s'.bytes ∧
      d.length ≤ len ∧ s'.size < s.size := by
  cases s with
  | nil => exact absurd rfl hb
  | cons x s =>
    have hs' : Recv.closed ∉ s := fun h => hs (List.mem_cons_of_mem x h)
    cases x with
    | wouldBlock =>
      exact ⟨.brk, [], s, rfl, Or.inl rfl, hs', rfl, Nat.zero_le _, by simp [Socket.size]⟩
    | closed => exact absurd List.mem_cons_self hs
    | data bs =>
      by_cases hle : bs.length ≤ len
      · refine ⟨.success, bs, s, if_pos hle, Or.inr rfl, hs', rfl, hle, ?_⟩
        simp only [Socket.size, List.length_cons, Socket.bytes_data, List.length_append]
        omega
      · refine ⟨.success, bs.take len, .data (bs.drop len) :: s, if_neg hle, Or.inr rfl, ?_, ?_,
          by simp, ?_⟩
        · simpa using hs'
        · rw [Socket.bytes_data, Socket.bytes_data, ← List.append_assoc, List.take_append_drop]
        · simp only [Socket.size, List.length_cons, Socket.bytes_data, List.length_append,
            List.length_drop]
          omega

/-- **The body is the next bytes**, however they are received. -/
theorem readBody_spec {s : Socket} {xs ys : List Byte} (hs : .closed ∉ s)
    (hb : s.bytes = xs ++ ys) (body : List Byte) :
    ∃ s', Returns (fun fuel => readBody fuel s xs.length body) (some (body ++ xs), s') ∧
      .closed ∉ s' ∧ s'.bytes = ys := by
  -- every receipt lowers the size of what is left
  induction hn : s.size using Nat.strong_induction_on generalizing s xs body with
  | _ n ih =>
    subst hn
    by_cases hxs : xs = []
    · subst hxs
      refine ⟨s, ?_, hs, hb⟩
      rw [List.append_nil]
      exact (Returns.const _).succ fun k => rfl
    · have hne : s.bytes ≠ [] := by
        rw [hb]
        simp [hxs]
      have hpos : 0 < xs.length := List.length_pos_iff.mpr hxs
      obtain ⟨status, d, s', hrecv, hstatus, hs', hd, hle, hsize⟩ :=
        agcSocketRecv_spec hs hne hpos
      -- what was received is a first part of the body
      obtain ⟨zs, rfl⟩ : ∃ zs, xs = d ++ zs := by
        have hpre : d <+: xs := by
          refine List.prefix_of_prefix_length_le ⟨s'.bytes, hd.symm⟩ ⟨ys, ?_⟩ hle
          exact hb.symm
        obtain ⟨zs, hzs⟩ := hpre
        exact ⟨zs, hzs.symm⟩
      have hb' : s'.bytes = zs ++ ys := by
        rw [hd, List.append_assoc] at hb
        exact List.append_cancel_left hb
      obtain ⟨s'', hret, hs'', hy⟩ := ih s'.size hsize hs' hb' (body ++ d) rfl
      refine ⟨s'', ?_, hs'', hy⟩
      rw [List.append_assoc] at hret
      refine hret.succ fun k => ?_
      have hgo : ¬ (status ≠ .brk ∧ status ≠ .success) := fun h => hstatus.elim h.1 h.2
      have hzero : ¬ (d ++ zs).length = 0 := hpos.ne'
      have hlen : (d ++ zs).length - d.length = zs.length := by simp
      simp only [readBody, if_neg hzero, hrecv, if_neg hgo, hlen]

namespace Reader

variable {r r' : Reader} {got : List Byte} {b : Byte} {s s' : Socket}

/-- The reader has taken the bytes `got`, the first of which does not end a line: they stand at the
start of the buffer, and the rest of the buffer is zero. -/
structure Holds (r : Reader) (got : List Byte) : Prop where
  mbuf : ∃ k, r.mbuf = got ++ List.replicate (k + 1) 0
  ptr : r.ptr = got.length
  bytes : r.bytes = got.length
  first : ∀ b ∈ got.head?, isEol b = false

/-- The buffer holds a NUL behind the bytes that were taken. -/
def Terminated (r : Reader) : Prop := r.mbuf[r.bytes]? = some 0

theorem holds_init : init.Holds [] where
  mbuf := ⟨2047, rfl⟩
  ptr := rfl
  bytes := rfl
  first b hb := by cases hb

theorem Holds.terminated (h : r.Holds got) : r.Terminated := by
  obtain ⟨k, hk⟩ := h.mbuf
  rw [Terminated, hk, h.bytes, List.getElem?_append_right (Nat.le_refl _)]
  simp

/-- After the growth there is room for a byte and a NUL. -/
theorem Holds.grow (h : r.Holds got) :
    r.grow.Holds got ∧ r.grow.crcount = r.crcount ∧
      ∃ k, r.grow.mbuf = got ++ List.replicate (k + 2) 0 := by
  obtain ⟨k, hk⟩ := h.mbuf
  have hlen : r.mbuf.length = got.length + (k + 1) := by
    rw [hk]
    simp
  by_cases hfull : r.bytes = r.mbuf.length - 1
  · -- the buffer is full: a block of zeros is put behind what was taken
    have hgrow : r.grow = { r with mbuf := got ++ List.replicate (EVTSKT_BLOCK_LEN + 1) 0 } := by
      have hk0 : k = 0 := by
        rw [h.bytes, hlen] at hfull
        omega
      have htake : r.mbuf.take r.bytes = got := by
        rw [hk, h.bytes]
        exact List.take_left' rfl
      have hrest : r.mbuf.length + EVTSKT_BLOCK_LEN - r.bytes = EVTSKT_BLOCK_LEN + 1 := by
        rw [h.bytes, hlen]
        omega
      rw [Reader.grow, if_pos hfull, htake, hrest]
    rw [hgrow]
    exact ⟨⟨⟨_, rfl⟩, h.ptr, h.bytes, h.first⟩, rfl, 2047, rfl⟩
  · have hgrow : r.grow = r := if_neg hfull
    rw [hgrow]
    refine ⟨h, rfl, k - 1, ?_⟩
    have hk1 : k - 1 + 2 = k + 1 := by
      rw [h.bytes, hlen] at hfull
      omega
    rw [hk1]
    exact hk

/-- The store of a byte behind the ones that were taken. -/
theorem set_append (got : List Byte) (k : ℕ) (b : Byte) :
    (got ++ List.replicate (k + 2) 0).set got.length b =
      got ++ b :: List.replicate (k + 1) 0 := by
  rw [List.set_append_right _ _ (Nat.le_refl _), Nat.sub_self, List.replicate_succ]
  rfl

/-- A byte that ends a line in front of a packet is dropped. -/
theorem Holds.accept_eol {k : ℕ} (h : r.Holds []) (hk : r.mbuf = List.replicate (k + 2) 0)
    (hb : isEol b = true) :
    ∃ r', r.accept b = .ok (r', false) ∧ r'.Holds [] ∧ r'.crcount = r.crcount := by
  have hset := set_append [] k b
  simp only [List.nil_append, List.length_nil] at hset
  have hroom : r.ptr < r.mbuf.length := by
    rw [h.ptr, hk]
    simp
  refine ⟨{ r with mbuf := List.replicate (k + 2) 0, ptr := 0, bytes := 0 }, ?_,
    ⟨⟨k + 1, rfl⟩, rfl, rfl, h.first⟩, rfl⟩
  rw [accept, if_pos hroom]
  simp only [hk, h.ptr, List.length_nil, hset, List.head?_cons, Option.any_some, hb, if_true,
    List.set_cons_zero, pure_eq_ok]
  rfl

/-- Any other byte is kept. -/
theorem Holds.accept_byte {k : ℕ} (h : r.Holds got) (hk : r.mbuf = got ++ List.replicate (k + 2) 0)
    (hb : ∀ c ∈ (got ++ [b]).head?, isEol c = false) :
    ∃ r', r.accept b = .ok (r', decide (r'.crcount = 2)) ∧ r'.Holds (got ++ [b]) ∧
      r'.crcount = if EVTSKT_MAX_LEN ≤ got.length + 1 then 2 else countEol r.crcount b := by
  have hset := set_append got k b
  have hroom : r.ptr < r.mbuf.length := by
    rw [h.ptr, hk]
    simp
  have hhead : (got ++ b :: List.replicate (k + 1) 0).head?.any isEol = false := by
    have hcons : (got ++ b :: List.replicate (k + 1) 0).head? = (got ++ [b]).head? := by
      cases got <;> rfl
    rw [hcons, Option.any_eq_false]
    intro c hc
    simpa using hb c hc
  refine ⟨⟨got ++ b :: List.replicate (k + 1) 0, got.length + 1, got.length + 1,
    if EVTSKT_MAX_LEN ≤ got.length + 1 then 2 else countEol r.crcount b⟩, ?_,
    ⟨⟨k, by simp⟩, by simp, by simp, hb⟩, rfl⟩
  rw [accept, if_pos hroom]
  simp only [hk, h.ptr, h.bytes, hset, hhead, Bool.false_eq_true, if_false, pure_eq_ok]

/-- Whatever byte is received, it is stored inside the buffer. -/
theorem Holds.accept {k : ℕ} (h : r.Holds got) (hk : r.mbuf = got ++ List.replicate (k + 2) 0)
    (b : Byte) : ∃ r' complete got', r.accept b = .ok (r', complete) ∧ r'.Holds got' := by
  by_cases hb : ∀ c ∈ (got ++ [b]).head?, isEol c = false
  · obtain ⟨r', hr', hh, -⟩ := h.accept_byte hk hb
    exact ⟨r', _, _, hr', hh⟩
  · -- the bytes that were taken do not start with a line end
    obtain rfl : got = [] := by
      cases got with
      | nil => rfl
      | cons c got => exact absurd h.first hb
    have hb' : isEol b = true := by simpa using hb
    obtain ⟨r', hr', hh, -⟩ := h.accept_eol hk hb'
    exact ⟨r', _, _, hr', hh⟩

/-- The readers of the receiving loop, when the socket is `s` at its start. -/
inductive Reaches (s : Socket) : Socket → Reader → Prop
  | init : Reaches s s Reader.init
  | more {s₁ s₂ r r'} : Reaches s s₁ r → readStep s₁ r = .ok (.more s₂ r') → Reaches s s₂ r'
  | block {s₁ s₂ r r'} : Reaches s s₁ r → readStep s₁ r = .ok (.block s₂ r') → Reaches s s₂ r'

/-- An iteration keeps the form of the buffer. -/
theorem Holds.step {x : ReadStep} (h : r.Holds got) (hx : readStep s r = .ok x) :
    ∀ s' r', x = .more s' r' ∨ x = .block s' r' → ∃ got', r'.Holds got' := by
  obtain ⟨hgrow, -, k, hk⟩ := h.grow
  rcases hrecv : agcSocketRecv 1 s with ⟨status, d, t⟩
  simp only [readStep, hrecv] at hx
  intro s' r' hr'
  split at hx
  · obtain rfl := Except.ok.inj hx
    rcases hr' with hr' | hr' <;> cases hr'
  · -- a byte is received, or none with the socket still open
    cases d with
    | nil =>
      obtain rfl := Except.ok.inj hx
      rcases hr' with hr' | hr'
      · cases hr'
        exact ⟨got, hgrow⟩
      · cases hr'
    | cons b d =>
      obtain ⟨r₁, complete, got', hr₁, hh⟩ := hgrow.accept hk b
      simp only [hr₁, ok_bind] at hx
      obtain rfl := Except.ok.inj hx
      refine ⟨got', ?_⟩
      cases complete with
      | true =>
        rcases hr' with hr' | hr'
        · cases hr'
        · cases hr'
          exact hh
      | false =>
        rcases hr' with hr' | hr'
        · cases hr'
          exact hh
        · cases hr'

/-- **The buffer is NUL-terminated within its allocated length** in every state of the receiving
loop, whatever the socket delivers. -/
theorem reaches_terminated (h : Reaches s s' r) : r.Terminated := by
  have hholds : ∃ got, r.Holds got := by
    induction h with
    | init => exact ⟨[], holds_init⟩
    | more h hstep ih =>
      obtain ⟨got, hgot⟩ := ih
      exact hgot.step hstep _ _ (Or.inl rfl)
    | block h hstep ih =>
      obtain ⟨got, hgot⟩ := ih
      exact hgot.step hstep _ _ (Or.inr rfl)
  obtain ⟨got, hgot⟩ := hholds
  exact hgot.terminated

/-- Counted from `c`, the line ends reach two with the last of the bytes, and not before. -/
def EndsBlock : ℕ → List Byte → Prop
  | _, [] => False
  | c, b :: bs => (countEol c b = 2 ∧ bs = []) ∨ (countEol c b ≠ 2 ∧ EndsBlock (countEol c b) bs)

end Reader

open Reader in
/-- **The block is taken up to its empty line**, however it is received. -/
theorem readBlock_spec {s : Socket} {r : Reader} {got todo tail : List Byte} (hs : .closed ∉ s)
    (hb : s.bytes = todo ++ tail) (h : r.Holds got) (hends : EndsBlock r.crcount todo)
    (hfirst : ∀ b ∈ (got ++ todo).head?, isEol b = false)
    (hmax : (got ++ todo).length < EVTSKT_MAX_LEN) :
    ∃ r' s', Returns (fun fuel => readBlock fuel s r) (some r', s') ∧ r'.Holds (got ++ todo) ∧
      .closed ∉ s' ∧ s'.bytes = tail := by
  induction hn : s.size using Nat.strong_induction_on generalizing s r got todo with
  | _ n ih =>
    subst hn
    obtain ⟨b, todo, rfl⟩ : ∃ b bs, todo = b :: bs := by
      cases todo with
      | nil => exact absurd hends id
      | cons b bs => exact ⟨b, bs, rfl⟩
    obtain ⟨hgrow, hcount, k, hk⟩ := h.grow
    have hne : s.bytes ≠ [] := by
      rw [hb]
      simp
    obtain ⟨status, d, s', hrecv, hstatus, hs', hd, hle, hsize⟩ :=
      agcSocketRecv_spec hs hne Nat.one_pos
    have hgo : ¬ (status ≠ .brk ∧ status ≠ .success) := fun h => hstatus.elim h.1 h.2
    cases d with
    | nil =>
      -- nothing was received
      have hb' : s'.bytes = b :: todo ++ tail := hd.symm.trans hb
      obtain ⟨r'', s'', hret, hrest⟩ :=
        ih s'.size hsize hs' hb' hgrow (hcount ▸ hends) hfirst hmax rfl
      refine ⟨r'', s'', hret.succ fun k => ?_, hrest⟩
      simp only [readBlock, readStep, hrecv, if_neg hgo, pure_eq_ok, ok_bind]
    | cons b' d =>
      obtain rfl : d = [] := by
        cases d with
        | nil => rfl
        | cons c d => simp at hle
      have hcons : b' :: s'.bytes = b :: (todo ++ tail) := hd.symm.trans hb
      obtain ⟨rfl, hb'⟩ := List.cons.inj hcons
      have hsplit : got ++ b' :: todo = got ++ [b'] ++ todo := by simp
      have hfirst' : ∀ c ∈ (got ++ [b']).head?, isEol c = false := by
        have hhead : (got ++ b' :: todo).head? = (got ++ [b']).head? := by cases got <;> rfl
        rw [← hhead]
        exact hfirst
      obtain ⟨r', hr', hh, hcr⟩ := hgrow.accept_byte hk hfirst'
      have hroom : ¬ EVTSKT_MAX_LEN ≤ got.length + 1 := by
        simp only [List.length_append, List.length_cons] at hmax
        omega
      rw [if_neg hroom, hcount] at hcr
      rcases hends with ⟨htwo, rfl⟩ | ⟨htwo, hends⟩
      · refine ⟨r', s', (Returns.const _).succ fun k => ?_, hh, hs', hb'⟩
        simp only [readBlock, readStep, hrecv, if_neg hgo, hr', hcr, htwo, pure_eq_ok, ok_bind,
          decide_true, if_true]
      · rw [hsplit] at hfirst hmax ⊢
        obtain ⟨r'', s'', hret, hrest⟩ := ih s'.size hsize hs' hb' hh (hcr ▸ hends) hfirst hmax rfl
        refine ⟨r'', s'', hret.succ fun k => ?_, hrest⟩
        simp only [readBlock, readStep, hrecv, if_neg hgo, hr', hcr, htwo, pure_eq_ok, ok_bind,
          decide_false, Bool.false_eq_true, if_false]
