import AgcFramework.Mprintf.Model

/-!
# What the formatter returns

`vxprintf` walks over the format once. It returns the number of bytes that it gave to the consumer,
or -1 if the format ends in a directive, has an unknown one, or an allocation fails.

## Main definitions

* `Stops x`: a computation does not run out of its fuel

## Main results

* `loop_ret`: what is returned is the number of bytes given to the consumer, or -1
* `vxprintf_stops`: the formatter comes to its end
-/

open Exec

namespace Mprintf

variable {R : Type}

/-! ## The value returned -/

theorem length_pad (n : ℕ) : (pad n).flatten.length = n := by
  have hdiv := Nat.div_add_mod n etSPACESIZE
  have hfull : ∀ m, (List.replicate m (List.replicate etSPACESIZE (ch ' '))).flatten.length =
      etSPACESIZE * m := by
    intro m
    rw [List.length_flatten, List.map_replicate, List.length_replicate, List.sum_replicate_nat,
      Nat.mul_comm]
  unfold pad
  rw [List.flatten_append, List.length_append, hfull]
  split_ifs with h
  · rw [List.flatten_cons, List.flatten_nil, List.append_nil, List.length_replicate]
    exact hdiv
  · rw [List.flatten_nil, List.length_nil]
    omega

/-- A field is as long as its text, or as its width if that is more. -/
theorem length_field (d : Directive) (t : List Byte) :
    (field d t).flatten.length = max d.width t.length := by
  have htext : (if t = [] then [] else [t]).flatten = t := by
    split_ifs with h
    · exact h.symm
    · exact List.append_nil t
  unfold field
  rw [List.flatten_append, List.flatten_append, htext]
  split_ifs
  · rw [List.flatten_nil, List.nil_append, List.length_append, length_pad]
    omega
  · rw [List.flatten_nil, List.append_nil, List.length_append, length_pad]
    omega

section Ret

variable {useExtended : Bool} {F : Floats R} {malloc : ℕ → Bool}

/-- A text as the calls that give it to the consumer. -/
theorem flatten_calls (t : List Byte) : (if t = [] then [] else [t]).flatten = t := by
  split_ifs with h
  · exact h.symm
  · exact List.append_nil t

/-- A directive counts what it gives to the consumer, if what follows it does. -/
theorem directive_ret {next : List Byte → List (VaArg R) → ℕ → Exec Printed} {m : Bool}
    {fmt : List Byte} {ap : List (VaArg R)} {count : ℕ} {p : Printed}
    (hnext : ∀ s ap count q, next s ap count = .ok q →
      q.ret = -1 ∨ q.ret = count + q.calls.flatten.length)
    (h : directive useExtended F next m fmt ap count = .ok p) :
    p.ret = -1 ∨ p.ret = count + p.calls.flatten.length := by
  unfold directive at h
  split at h
  · cases h
    exact Or.inr (by simp)
  · cases h
    exact Or.inl rfl
  · obtain ⟨⟨d, s, ap'⟩, -, h⟩ := bind_eq_ok.mp h
    simp only at h
    split at h
    · cases h
      exact Or.inl rfl
    · split at h
      · cases h
        exact Or.inl rfl
      · split_ifs at h
        · cases h
          exact Or.inl rfl
        · obtain ⟨⟨converted, ap''⟩, -, h⟩ := bind_eq_ok.mp h
          simp only at h
          split at h
          · cases h
            exact Or.inl rfl
          · obtain ⟨q, hq, h⟩ := bind_eq_ok.mp h
            cases h
            have hret := hnext _ _ _ _ hq
            exact hret
          · obtain ⟨-, -, h⟩ := bind_eq_ok.mp h
            obtain ⟨q, hq, h⟩ := bind_eq_ok.mp h
            cases h
            refine (hnext _ _ _ _ hq).imp id fun hret => ?_
            simp only [Printed.after, hret, List.flatten_append, List.length_append, length_field]
            push_cast
            omega

/-- What has been given to the consumer is counted, unless an error is returned. -/
theorem loop_ret (k : ℕ) (fmt : List Byte) (ap : List (VaArg R)) (count n : ℕ) {p : Printed}
    (h : loop useExtended F malloc k fmt ap count n = .ok p) :
    p.ret = -1 ∨ p.ret = count + p.calls.flatten.length := by
  induction k generalizing fmt ap count n p with
  | zero => cases h
  | succ k ih =>
    rw [loop] at h
    obtain ⟨-, -, h⟩ := bind_eq_ok.mp h
    obtain ⟨q, hq, h⟩ := bind_eq_ok.mp h
    cases h
    refine (directive_ret (fun s ap count q => ih s ap count (n + 1)) hq).imp id fun hret => ?_
    simp only [Printed.after, hret, List.flatten_append, flatten_calls, List.length_append]
    push_cast
    omega

end Ret

/-! ## The end of the loops -/

/-- The computation has enough fuel: it returns or faults. -/
def Stops {α : Type} (x : Exec α) : Prop := x ≠ .error .fuel

theorem Stops.ok {α : Type} (a : α) : Stops (.ok a : Exec α) := by
  rintro ⟨⟩

theorem Stops.fault {α : Type} : Stops (.error .fault : Exec α) := by
  rintro ⟨⟩

/-- A computation that stops without a value faults. -/
theorem Stops.eq_fault {α : Type} {x : Exec α} (h : Stops x) (hno : ¬ ∃ a, x = .ok a) :
    x = .error .fault := by
  cases x with
  | ok a => exact absurd ⟨a, rfl⟩ hno
  | error e =>
    cases e with
    | fault => rfl
    | fuel => exact absurd rfl h

theorem Stops.bind {α β : Type} {x : Exec α} {f : α → Exec β} (hx : Stops x)
    (hf : ∀ a, x = .ok a → Stops (f a)) : Stops (x >>= f) := by
  cases x with
  | ok a => exact hf a rfl
  | error e =>
    cases e with
    | fault => exact Stops.fault
    | fuel => exact absurd rfl hx

theorem Stops.checkInt (n : ℕ) : Stops (checkInt n) := by
  unfold Exec.checkInt
  split_ifs
  · exact Stops.ok ()
  · exact Stops.fault

section Parts

/-- The flags leave the rest of the format. -/
theorem flagLoop_suffix (s : List Byte) (f : Flags) : (flagLoop s f).2 <:+ s := by
  induction s generalizing f with
  | nil => exact List.suffix_refl []
  | cons b s ih =>
    rw [flagLoop]
    split_ifs
    all_goals first
      | exact (ih _).trans (List.suffix_cons b s)
      | exact List.suffix_refl _

theorem numberLoop_suffix (s : List Byte) (n : ℕ) :
    Stops (numberLoop s n) ∧ ∀ m s', numberLoop s n = .ok (m, s') → s' <:+ s := by
  induction s generalizing n with
  | nil =>
    refine ⟨Stops.ok _, fun m s' h => ?_⟩
    cases h
    exact List.suffix_refl []
  | cons b s ih =>
    rw [numberLoop]
    split_ifs
    · refine ⟨(Stops.checkInt _).bind fun _ _ => (ih _).1, fun m s' h => ?_⟩
      obtain ⟨-, -, h⟩ := bind_eq_ok.mp h
      exact ((ih _).2 m s' h).trans (List.suffix_cons b s)
    · refine ⟨Stops.ok _, fun m s' h => ?_⟩
      cases h
      exact List.suffix_refl _

theorem vaInt_stops (ap : List (VaArg R)) : Stops (vaInt ap) := by
  unfold vaInt
  split
  · exact Stops.ok _
  · exact Stops.fault

theorem vaLong_stops (ap : List (VaArg R)) : Stops (vaLong ap) := by
  unfold vaLong
  split
  · exact Stops.ok _
  · exact Stops.fault

theorem vaStr_stops (ap : List (VaArg R)) : Stops (vaStr ap) := by
  unfold vaStr
  split
  · exact Stops.ok _
  · exact Stops.fault

theorem vaReal_stops (ap : List (VaArg R)) : Stops (vaReal ap) := by
  unfold vaReal
  split
  · exact Stops.ok _
  · exact Stops.fault

theorem vaAbs_stops (ap : List (VaArg R)) : Stops (vaAbs ap) :=
  (vaInt_stops ap).bind fun _ _ => (Stops.checkInt _).bind fun _ _ => Stops.ok _

theorem parseWidth_suffix (s : List Byte) (f : Flags) (ap : List (VaArg R)) :
    Stops (parseWidth s f ap) ∧
      ∀ f' n s' ap', parseWidth s f ap = .ok (f', n, s', ap') → s' <:+ s := by
  unfold parseWidth
  split
  · rename_i b s
    split_ifs
    · refine ⟨(vaAbs_stops ap).bind fun _ _ => Stops.ok _, fun f' n s' ap' h => ?_⟩
      obtain ⟨⟨_, _, _⟩, -, h⟩ := bind_eq_ok.mp h
      cases h
      exact List.suffix_cons b s
    · obtain ⟨hstops, hsuffix⟩ := numberLoop_suffix (b :: s) 0
      refine ⟨hstops.bind fun _ _ => Stops.ok _, fun f' n s' ap' h => ?_⟩
      obtain ⟨⟨_, _⟩, hnumber, h⟩ := bind_eq_ok.mp h
      cases h
      exact hsuffix _ _ hnumber
  · refine ⟨Stops.ok _, fun f' n s' ap' h => ?_⟩
    cases h
    exact List.suffix_refl []

theorem parsePrecision_suffix (s : List Byte) (ap : List (VaArg R)) :
    Stops (parsePrecision s ap) ∧
      ∀ n s' ap', parsePrecision s ap = .ok (n, s', ap') → s' <:+ s := by
  unfold parsePrecision
  split
  · rename_i b s
    split_ifs
    · split
      · rename_i b' s
        split_ifs
        · refine ⟨(vaAbs_stops ap).bind fun _ _ => Stops.ok _, fun n s' ap' h => ?_⟩
          obtain ⟨⟨_, _, _⟩, -, h⟩ := bind_eq_ok.mp h
          cases h
          exact (List.suffix_cons b' s).trans (List.suffix_cons b _)
        · obtain ⟨hstops, hsuffix⟩ := numberLoop_suffix (b' :: s) 0
          refine ⟨hstops.bind fun _ _ => Stops.ok _, fun n s' ap' h => ?_⟩
          obtain ⟨⟨_, _⟩, hnumber, h⟩ := bind_eq_ok.mp h
          cases h
          exact (hsuffix _ _ hnumber).trans (List.suffix_cons b _)
      · refine ⟨Stops.ok _, fun n s' ap' h => ?_⟩
        cases h
        exact List.nil_suffix
    · refine ⟨Stops.ok _, fun n s' ap' h => ?_⟩
      cases h
      exact List.suffix_refl _
  · refine ⟨Stops.ok _, fun n s' ap' h => ?_⟩
    cases h
    exact List.suffix_refl []

theorem parseModifier_suffix (s : List Byte) : (parseModifier s).2.2 <:+ s := by
  unfold parseModifier
  split
  · rename_i b s
    split_ifs
    · split
      · rename_i b' s
        split_ifs
        · exact (List.suffix_cons b' s).trans (List.suffix_cons b _)
        · exact List.suffix_cons b _
      · exact List.nil_suffix
    · exact List.suffix_refl _
  · exact List.suffix_refl []

theorem parseDirective_suffix (s : List Byte) (ap : List (VaArg R)) :
    Stops (parseDirective s ap) ∧
      ∀ d s' ap', parseDirective s ap = .ok (d, s', ap') → s' <:+ s := by
  have hflags := flagLoop_suffix s ⟨false, false, false, false, false, false⟩
  unfold parseDirective
  rcases hf : flagLoop s ⟨false, false, false, false, false, false⟩ with ⟨f, s₁⟩
  rw [hf] at hflags
  obtain ⟨hstops₁, hsuffix₁⟩ := parseWidth_suffix s₁ f ap
  refine ⟨hstops₁.bind fun x _ => ?_, fun d s' ap' h => ?_⟩
  · exact (parsePrecision_suffix _ _).1.bind fun _ _ => Stops.ok _
  · obtain ⟨⟨f', n, s₂, ap₂⟩, hwidth, h⟩ := bind_eq_ok.mp h
    obtain ⟨⟨m, s₃, ap₃⟩, hprec, h⟩ := bind_eq_ok.mp h
    cases h
    have h₃ := (parsePrecision_suffix s₂ ap₂).2 _ _ _ hprec
    exact (parseModifier_suffix s₃).trans (h₃.trans ((hsuffix₁ _ _ _ _ hwidth).trans hflags))

end Parts

section Conversions

theorem push_stops (t : List Byte) (b : Byte) : Stops (push t b) := by
  unfold push
  split_ifs
  · exact Stops.ok _
  · exact Stops.fault

/-- A number has as many digits as the fuel allows, at most. -/
theorem radixLoop_stops {charset base : ℕ} (hbase : 0 < base) (k v : ℕ) (t : List Byte)
    (h : v < base ^ (k + 1)) : Stops (radixLoop charset base (k + 1) v t) := by
  induction k generalizing v t with
  | zero =>
    refine (push_stops t _).bind fun t _ => ?_
    rw [if_neg]
    · exact Stops.ok t
    · rw [zero_add, pow_one] at h
      rw [Nat.div_eq_of_lt h]
      exact Nat.lt_irrefl 0
  | succ k ih =>
    refine (push_stops t _).bind fun t _ => ?_
    split_ifs
    · apply ih
      rw [Nat.div_lt_iff_lt_mul hbase]
      rwa [pow_succ] at h
    · exact Stops.ok t

theorem zeroLoop_stops (n : ℕ) (t : List Byte) : Stops (zeroLoop n t) := by
  induction n generalizing t with
  | zero => exact Stops.ok t
  | succ n ih => exact (push_stops t _).bind fun t _ => ih t

theorem pushLoop_stops (bs t : List Byte) : Stops (pushLoop bs t) := by
  induction bs generalizing t with
  | nil => exact Stops.ok t
  | cons b bs ih => exact (push_stops t b).bind fun t _ => ih t

theorem radixText_stops (i : EtInfo) (d : Directive) (sign : Option Byte) {v : ℕ}
    (hbase : 1 < i.base) (hv : v < 2 ^ 64) : Stops (radixText i d sign v) := by
  have hpow : v < i.base ^ (63 + 1) := hv.trans_le (Nat.pow_le_pow_left hbase 64)
  refine (radixLoop_stops (by omega) 63 v [] hpow).bind fun t _ => ?_
  refine (zeroLoop_stops _ t).bind fun t _ => ?_
  refine (pushLoop_stops _ t).bind fun t _ => ?_
  simp only
  split_ifs
  · exact pushLoop_stops _ t
  · exact Stops.ok t

theorem signedValue_stops (d : Directive) {v : ℤ} (hv : -2 ^ 63 ≤ v ∧ v < 2 ^ 63) :
    Stops (signedValue d v) ∧ ∀ sign n, signedValue d v = .ok (sign, n) → n < 2 ^ 64 := by
  unfold signedValue
  rcases Decidable.em (v < 0) with hneg | hneg
  · rw [if_pos hneg]
    split_ifs
    · exact ⟨Stops.fault, fun _ _ h => by cases h⟩
    · refine ⟨Stops.ok _, fun sign n h => ?_⟩
      cases h
      omega
  · rw [if_neg hneg]
    refine ⟨Stops.ok _, fun sign n h => ?_⟩
    obtain ⟨-, rfl⟩ := Prod.mk.inj (Except.ok.inj h)
    omega

theorem radixValue_stops {w : ℕ} (hw : w ≤ 64) (i : EtInfo) (d : Directive) (v : BitVec w) :
    Stops (radixValue i d v) ∧ ∀ sign n, radixValue i d v = .ok (sign, n) → n < 2 ^ 64 := by
  have hpow : 2 ^ w ≤ 2 ^ 64 := Nat.pow_le_pow_right (by decide) hw
  have hlt := v.isLt
  unfold radixValue
  split_ifs
  · apply signedValue_stops
    have hpow' : (2 : ℤ) ^ (w - 1) ≤ 2 ^ 63 := pow_le_pow_right₀ (by decide) (by omega)
    have hge := BitVec.le_toInt v
    have hle := BitVec.toInt_lt (x := v)
    omega
  · refine ⟨Stops.ok _, fun sign n h => ?_⟩
    obtain ⟨-, rfl⟩ := Prod.mk.inj (Except.ok.inj h)
    omega

theorem convertRadix_stops {i : EtInfo} (hbase : 1 < i.base) (d : Directive)
    (ap : List (VaArg R)) : Stops (convertRadix i d ap) := by
  unfold convertRadix
  split_ifs
  · refine (vaLong_stops ap).bind fun x _ => ?_
    obtain ⟨hstops, hlt⟩ := radixValue_stops (by decide) i d x.1
    refine hstops.bind fun y hy => ?_
    exact (radixText_stops i d y.1 hbase (hlt _ _ hy)).bind fun _ _ => Stops.ok _
  · refine (vaInt_stops ap).bind fun x _ => ?_
    obtain ⟨hstops, hlt⟩ := radixValue_stops (by decide) i d x.1
    refine hstops.bind fun y hy => ?_
    exact (radixText_stops i d y.1 hbase (hlt _ _ hy)).bind fun _ _ => Stops.ok _

theorem emit_stops (size : ℕ) (t : List Byte) (b : Byte) : Stops (emit size t b) := by
  unfold emit
  split_ifs
  · exact Stops.ok _
  · exact Stops.fault

theorem escapeLoop_stops (xtype : EtType) (size : ℕ) (s t : List Byte) :
    Stops (escapeLoop xtype size s t) := by
  induction s generalizing t with
  | nil => exact Stops.ok t
  | cons b s ih =>
    refine (emit_stops size t b).bind fun t _ => ?_
    split_ifs
    · exact (emit_stops size t b).bind fun t _ => ih _
    · exact (emit_stops size t b).bind fun t _ => ih _
    · exact ih t

theorem emitQuote_stops (needQuote : Bool) (size : ℕ) (t : List Byte) :
    Stops (emitQuote needQuote size t) := by
  unfold emitQuote
  split_ifs
  · exact emit_stops size t _
  · exact Stops.ok t

theorem escapeText_stops (xtype : EtType) (s : Option CStr) (malloc : Bool) :
    Stops (escapeText xtype s malloc) := by
  refine (Stops.checkInt _).bind fun _ _ => ?_
  split_ifs
  · exact Stops.ok _
  · refine (emitQuote_stops _ _ _).bind fun t _ => ?_
    refine (escapeLoop_stops _ _ _ t).bind fun t _ => ?_
    refine (emitQuote_stops _ _ t).bind fun t _ => ?_
    exact (emit_stops _ t _).bind fun _ _ => Stops.ok _

theorem emitLoop_stops (size : ℕ) (bs t : List Byte) : Stops (emitLoop size bs t) := by
  induction bs generalizing t with
  | nil => exact Stops.ok t
  | cons b bs ih => exact (emit_stops size t b).bind fun t _ => ih t

theorem digitLoop_stops (F : Floats R) (n : ℕ) (t : List Byte) (x : R) (nsd : ℕ) :
    Stops (digitLoop F n t x nsd) := by
  induction n generalizing t x nsd with
  | zero => exact Stops.ok _
  | succ n ih =>
    refine Stops.bind ?_ fun _ _ => (emit_stops _ _ _).bind fun _ _ => ih _ _ _
    unfold etGetdigit
    split_ifs
    · exact Stops.ok _
    · split
      · exact Stops.fault
      · split_ifs
        · exact Stops.ok _
        · exact Stops.fault

theorem leadLoop_stops (p : ℕ) (e2 : ℤ) (t : List Byte) : Stops (leadLoop p e2 t) := by
  induction p generalizing e2 t with
  | zero => exact Stops.ok _
  | succ p ih =>
    rw [leadLoop]
    split_ifs
    · exact (emit_stops _ _ _).bind fun _ _ => ih _ _
    · exact Stops.ok _

theorem realDigits_stops (F : Floats R) (sign : Option Byte) (dp : Bool) (e2 : ℤ)
    (precision : ℕ) (x : R) : Stops (realDigits F sign dp e2 precision x) := by
  refine (emitLoop_stops _ _ _).bind fun t _ => ?_
  refine Stops.bind ?_ fun _ _ => Stops.bind ?_ fun _ _ => ?_
  · unfold intDigits
    split_ifs
    · exact (emit_stops _ _ _).bind fun _ _ => Stops.ok _
    · exact digitLoop_stops F _ _ _ _
  · unfold emitPoint
    split_ifs
    · exact emit_stops _ _ _
    · exact Stops.ok _
  · exact (leadLoop_stops _ _ _).bind fun _ _ =>
      (digitLoop_stops F _ _ _ _).bind fun _ _ => Stops.ok _

theorem trimLoop_stops (t : List Byte) : Stops (trimLoop t) := by
  induction t with
  | nil => exact Stops.fault
  | cons b t ih =>
    rw [trimLoop]
    split_ifs
    · exact ih
    · exact Stops.ok _

theorem trimZeros_stops (rtz altform2 : Bool) (t : List Byte) :
    Stops (trimZeros rtz altform2 t) := by
  cases rtz with
  | false => exact Stops.ok t
  | true =>
    refine (trimLoop_stops _).bind fun r _ => ?_
    split_ifs
    · exact emit_stops _ _ _
    · exact Stops.ok _
    · exact Stops.ok _

/-- The scaling of a number ends, and so do the loops that write its text. -/
theorem realText_stops (F : Floats R) (i : EtInfo) (d : Directive) (x : R) :
    Stops (realText F i d x) := by
  obtain ⟨r, hr⟩ := scaled_ok F i (realPrecision i d) (realSign F d x).2
  unfold realText
  simp only [hr, ok_bind]
  cases r with
  | none => exact Stops.ok _
  | some r =>
    refine (realDigits_stops F _ _ _ _ _).bind fun t _ => ?_
    refine (trimZeros_stops _ _ t).bind fun t _ => ?_
    refine Stops.bind ?_ fun t _ => (emit_stops _ t 0).bind fun _ _ => Stops.ok _
    unfold emitExponent
    split_ifs
    · exact emitLoop_stops _ _ _
    · exact Stops.ok t

/-- The bases of the table. -/
theorem one_lt_base {i : EtInfo} (hi : i ∈ fmtinfo) :
    i.type = .radix ∨ i.type = .pointer → 1 < i.base := by
  revert i
  decide

theorem convert_stops (F : Floats R) {i : EtInfo}
    (hi : i ∈ fmtinfo) (d : Directive) (ap : List (VaArg R)) (malloc : Bool) :
    Stops (convert F i d ap malloc) := by
  have hbase := one_lt_base hi
  unfold convert
  simp only
  split
  · rename_i ht
    exact (convertRadix_stops (hbase (Or.inr ht)) _ ap).bind fun _ _ => Stops.ok _
  · rename_i ht
    exact (convertRadix_stops (hbase (Or.inl ht)) _ ap).bind fun _ _ => Stops.ok _
  iterate 3
    · exact Stops.bind ((vaReal_stops ap).bind fun _ _ =>
        (realText_stops F _ _ _).bind fun _ _ => Stops.ok _) fun _ _ => Stops.ok _
  · unfold convertSize
    split
    · exact Stops.ok _
    · exact Stops.fault
  · exact Stops.ok _
  · refine Stops.bind ?_ fun _ _ => Stops.ok _
    refine (vaInt_stops ap).bind fun x _ => ?_
    simp only
    split_ifs
    all_goals first
      | exact Stops.ok _
      | exact Stops.fault
  all_goals first
    | exact Stops.bind ((vaStr_stops ap).bind fun _ _ =>
        (Stops.checkInt _).bind fun _ _ => Stops.ok _) fun _ _ => Stops.ok _
    | exact (vaStr_stops ap).bind fun _ _ => (escapeText_stops _ _ _).bind fun _ _ => Stops.ok _

end Conversions

section Walk

variable {useExtended : Bool} {F : Floats R} {malloc : ℕ → Bool}

theorem directive_stops {next : List Byte → List (VaArg R) → ℕ → Exec Printed} (m : Bool)
    (fmt : List Byte) (ap : List (VaArg R)) (count : ℕ)
    (hnext : ∀ s ap count, s.length < fmt.length → Stops (next s ap count)) :
    Stops (directive useExtended F next m fmt ap count) := by
  unfold directive
  split
  · exact Stops.ok _
  · exact Stops.ok _
  · rename_i b s _
    obtain ⟨hstops, hsuffix⟩ := parseDirective_suffix s ap
    refine hstops.bind fun x hx => ?_
    obtain ⟨d, s', ap'⟩ := x
    have hlen := (hsuffix d s' ap' hx).length_le
    simp only
    split
    · exact Stops.ok _
    · rename_i c s'
      have hlt : s'.length < (b :: s).length := by
        rw [List.length_cons] at hlen ⊢
        omega
      split
      · exact Stops.ok _
      · rename_i i hi
        split_ifs
        · exact Stops.ok _
        · refine (convert_stops F (List.mem_of_find?_eq_some hi) d ap' m).bind fun y _ => ?_
          obtain ⟨converted, ap''⟩ := y
          simp only
          split
          · exact Stops.ok _
          · exact (hnext _ _ _ hlt).bind fun _ _ => Stops.ok _
          · refine (Stops.checkInt _).bind fun _ _ => ?_
            exact (hnext _ _ _ hlt).bind fun _ _ => Stops.ok _

/-- Each turn of the loop leaves less of the format. -/
theorem loop_stops (k : ℕ) (fmt : List Byte) (ap : List (VaArg R)) (count n : ℕ)
    (h : fmt.length < k) : Stops (loop useExtended F malloc k fmt ap count n) := by
  induction k generalizing fmt ap count n with
  | zero => exact absurd h (Nat.not_lt_zero _)
  | succ k ih =>
    refine (Stops.checkInt _).bind fun _ _ => ?_
    refine Stops.bind ?_ fun _ _ => Stops.ok _
    refine directive_stops _ _ _ _ fun s ap count hs => ih s ap count (n + 1) ?_
    have := (List.dropWhile_suffix (l := fmt) (· ≠ ch '%')).length_le
    omega

/-- The fuel of the formatter is enough. -/
theorem vxprintf_stops (useExtended : Bool) (F : Floats R) (malloc : ℕ → Bool) (fmt : CStr)
    (ap : List (VaArg R)) : Stops (vxprintf useExtended F malloc fmt ap) :=
  (loop_stops _ _ _ _ _ (Nat.lt_succ_self _)).bind fun _ _ => Stops.ok _

end Walk

end Mprintf
