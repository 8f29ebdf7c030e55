import AgcFramework.Lib.Buffer
import AgcFramework.Lib.Lanes

/-!
# Case mapping, a word at a time

`agc_toupper_max` and `agc_tolower_max` change the case of a string in place. They take words of
eight bytes, or of four where pointers have 32 bits, while more than one word is left, and single
characters behind that. The computation on a word finds the letters of all bytes at once with two
additions.

## Main definitions

* `agcToupper`, `agcTolower`, `agcToupper64`, `agcTolower64`: the case of the bytes of a word
* `agcToupperMax`, `agcTolowerMax`: the case of a string, where pointers have 64 bits
* `agcToupperMax32`, `agcTolowerMax32`: the same where they have 32 bits

## Main results

* `letterBits_lanewise`: the computation works on each byte by itself
* `case_mapping_bytewise`: words and strings are mapped byte by byte
-/

open Exec Lanes

namespace Case

/-! ## Words -/

/-- The bit `0x20` in the bytes that are letters. The constants of the source are `unsigned long`;
what is above the width of the word is cut off by each assignment. -/
def letterBits {k : ℕ} (eax mask first last bit : BitVec k) : BitVec k :=
  let ebx := (mask &&& eax) + first
  let ebx := (mask &&& ebx) + last
  ((ebx &&& ~~~eax) >>> 2) &&& bit

/-- `agc_toupper`. -/
def agcToupper (eax : BitVec 32) : BitVec 32 :=
  eax - letterBits eax 0x7f7f7f7f 0x05050505 0x1a1a1a1a 0x20202020

/-- `agc_tolower`. -/
def agcTolower (eax : BitVec 32) : BitVec 32 :=
  eax + letterBits eax 0x7f7f7f7f 0x25252525 0x1a1a1a1a 0x20202020

/-- `agc_toupper64`. -/
def agcToupper64 (eax : BitVec 64) : BitVec 64 :=
  eax - letterBits eax 0x7f7f7f7f7f7f7f7f 0x0505050505050505 0x1a1a1a1a1a1a1a1a 0x2020202020202020

/-- `agc_tolower64`. -/
def agcTolower64 (eax : BitVec 64) : BitVec 64 :=
  eax + letterBits eax 0x7f7f7f7f7f7f7f7f 0x2525252525252525 0x1a1a1a1a1a1a1a1a 0x2020202020202020

/-! ## Strings -/

/-- The order of the bytes of a word in memory. -/
inductive ByteOrder
  | little
  | big
  deriving DecidableEq

/-- The bytes in memory from those of a word with the lowest one first, and back. -/
def ByteOrder.arrange (order : ByteOrder) (bs : List Byte) : List Byte :=
  match order with
  | .little => bs
  | .big => bs.reverse

variable {n : ℕ}

/-- A byte of a word. -/
def byte (x : BitVec (8 * n)) (i : ℕ) : Byte := UInt8.ofBitVec (lane x i)

/-- The word that stands in memory as `bs`. -/
def wordOf (order : ByteOrder) (bs : List Byte) : BitVec (8 * n) :=
  pack ((order.arrange bs).map UInt8.toBitVec)

/-- How a word stands in memory. -/
def bytesOf (order : ByteOrder) (x : BitVec (8 * n)) : List Byte :=
  order.arrange ((lanes x).map UInt8.ofBitVec)

/-- The loop over words of `n` bytes, at `p` with `l` bytes left. -/
def mapWords (order : ByteOrder) (f : BitVec (8 * n) → BitVec (8 * n)) :
    ℕ → List Byte → ℕ → ℕ → Exec (List Byte × ℕ × ℕ)
  | 0, _, _, _ => .error .fuel
  | fuel + 1, buf, p, l =>
    if n < l then do
      let bs ← Buffer.read buf p n
      let buf ← Buffer.copy buf p (bytesOf order (f (wordOf order bs)))
      mapWords order f fuel buf (p + n) (l - n)
    else pure (buf, p, l)

/-- `(char) f(*c)`: the character is widened with its sign, and the result is cut off. -/
def mapChar (f : BitVec 32 → BitVec 32) (c : Byte) : Byte :=
  UInt8.ofBitVec ((f (c.toBitVec.signExtend 32)).setWidth 8)

/-- The loop over characters. -/
def mapChars (f : BitVec 32 → BitVec 32) : ℕ → List Byte → ℕ → ℕ → Exec (List Byte)
  | 0, _, _, _ => .error .fuel
  | fuel + 1, buf, c, l =>
    if 0 < l then do
      let b ← Buffer.get buf c
      let buf ← Buffer.put buf c (mapChar f b)
      mapChars f fuel buf (c + 1) (l - 1)
    else pure buf

/-- The body that the functions on strings share. -/
def mapMax (order : ByteOrder) (word : BitVec (8 * n) → BitVec (8 * n))
    (char : BitVec 32 → BitVec 32) (fuel : ℕ) (s : List Byte) : Exec (List Byte) := do
  let l ← Buffer.strlen s
  let (s, p, l) ← mapWords order word fuel s 0 l
  mapChars char fuel s p l

/-- `agc_toupper_max`. -/
def agcToupperMax (order : ByteOrder) : ℕ → List Byte → Exec (List Byte) :=
  mapMax (n := 8) order agcToupper64 agcToupper

/-- `agc_tolower_max`. -/
def agcTolowerMax (order : ByteOrder) : ℕ → List Byte → Exec (List Byte) :=
  mapMax (n := 8) order agcTolower64 agcTolower

/-- `agc_toupper_max` without `AGC_64BIT`. -/
def agcToupperMax32 (order : ByteOrder) : ℕ → List Byte → Exec (List Byte) :=
  mapMax (n := 4) order agcToupper agcToupper

/-- `agc_tolower_max` without `AGC_64BIT`. -/
def agcTolowerMax32 (order : ByteOrder) : ℕ → List Byte → Exec (List Byte) :=
  mapMax (n := 4) order agcTolower agcTolower

/-- Each byte of `F x` is `f` of the same byte of `x`. -/
def MapsBytes (F : BitVec (8 * n) → BitVec (8 * n)) (f : Byte → Byte) : Prop :=
  ∀ x, ∀ i < n, byte (F x) i = f (byte x i)

/-- A string becomes its map under `f` where it stands, with what is behind it unchanged, and a
second run changes nothing. -/
def MapsString (run : ℕ → List Byte → Exec (List Byte)) (f : Byte → Byte) : Prop :=
  ∀ (s : CStr) (rest : List Byte), ∃ t : CStr,
    t.bytes = s.bytes.map f ∧ t.bytes.length = s.bytes.length ∧
    Returns (fun k => run k (s.bytes ++ 0 :: rest)) (t.bytes ++ 0 :: rest) ∧
    Returns (fun k => run k (t.bytes ++ 0 :: rest)) (t.bytes ++ 0 :: rest)

/-! ## The bytes of a word by themselves -/

section Word

variable {mask first last bit : BitVec (8 * n)} {a : BitVec 8}

/-- The additions do not carry: a byte below `0x80` takes at most `0x80`. -/
theorem and_mask_add_lt (b : BitVec 8) (ha : a.toNat ≤ 0x80) :
    (0x7f#8 &&& b).toNat + a.toNat < 2 ^ 8 := by
  have hle : (0x7f#8 &&& b).toNat ≤ 0x7f := by
    rw [BitVec.toNat_and]
    exact Nat.and_le_left
  omega

theorem letterBits_lanewise (hmask : Splat mask 0x7f) (hfirst : Splat first a)
    (hlast : Splat last 0x1a) (hbit : Splat bit 0x20) (ha : a.toNat ≤ 0x80) :
    Lanewise (fun x => letterBits x mask first last bit)
      fun b => letterBits b 0x7f a 0x1a 0x20 := by
  have hebx := ((Lanewise.splat hmask).and Lanewise.id).add (Lanewise.splat hfirst)
    fun b => and_mask_add_lt b ha
  have hebx' := ((Lanewise.splat hmask).and hebx).add (Lanewise.splat hlast)
    fun b => and_mask_add_lt _ (by decide)
  exact (hebx'.and Lanewise.id.not).shiftAnd (Lanewise.splat hbit) fun _ => by decide

/-- In a single byte, for all values of the byte. -/
theorem sub_letterBits : ∀ b : BitVec 8,
    (letterBits b 0x7f 0x05 0x1a 0x20).toNat ≤ b.toNat ∧
      UInt8.ofBitVec (b - letterBits b 0x7f 0x05 0x1a 0x20) = CStr.toUpper (UInt8.ofBitVec b) := by
  decide +kernel

theorem add_letterBits : ∀ b : BitVec 8,
    b.toNat + (letterBits b 0x7f 0x25 0x1a 0x20).toNat < 2 ^ 8 ∧
      UInt8.ofBitVec (b + letterBits b 0x7f 0x25 0x1a 0x20) = CStr.toLower (UInt8.ofBitVec b) := by
  decide +kernel

theorem mapsBytes_sub (hmask : Splat mask 0x7f) (hfirst : Splat first 0x05)
    (hlast : Splat last 0x1a) (hbit : Splat bit 0x20) :
    MapsBytes (fun x => x - letterBits x mask first last bit) CStr.toUpper := by
  intro x i hi
  have hbits := letterBits_lanewise hmask hfirst hlast hbit (by decide)
  have hsub := Lanewise.id.sub hbits fun b => (sub_letterBits b).1
  rw [byte, byte, hsub x i hi]
  exact (sub_letterBits (lane x i)).2

theorem mapsBytes_add (hmask : Splat mask 0x7f) (hfirst : Splat first 0x25)
    (hlast : Splat last 0x1a) (hbit : Splat bit 0x20) :
    MapsBytes (fun x => x + letterBits x mask first last bit) CStr.toLower := by
  intro x i hi
  have hbits := letterBits_lanewise hmask hfirst hlast hbit (by decide)
  have hadd := Lanewise.id.add hbits fun b => (add_letterBits b).1
  rw [byte, byte, hadd x i hi]
  exact (add_letterBits (lane x i)).2

end Word

theorem mapsBytes_agcToupper : MapsBytes (n := 4) agcToupper CStr.toUpper :=
  mapsBytes_sub (by decide) (by decide) (by decide) (by decide)

theorem mapsBytes_agcTolower : MapsBytes (n := 4) agcTolower CStr.toLower :=
  mapsBytes_add (by decide) (by decide) (by decide) (by decide)

theorem mapsBytes_agcToupper64 : MapsBytes (n := 8) agcToupper64 CStr.toUpper :=
  mapsBytes_sub (by decide) (by decide) (by decide) (by decide)

theorem mapsBytes_agcTolower64 : MapsBytes (n := 8) agcTolower64 CStr.toLower :=
  mapsBytes_add (by decide) (by decide) (by decide) (by decide)

/-- A mapping of bytes that makes no NUL and is its own square. -/
structure Settles (f : Byte → Byte) : Prop where
  eq_zero : ∀ b, f b = 0 → b = 0
  again : ∀ b, f (f b) = f b

theorem Settles.of_bitVec {f : Byte → Byte}
    (h : ∀ b : BitVec 8, (f (UInt8.ofBitVec b) = 0 → UInt8.ofBitVec b = 0) ∧
      f (f (UInt8.ofBitVec b)) = f (UInt8.ofBitVec b)) : Settles f :=
  ⟨fun b => (h b.toBitVec).1, fun b => (h b.toBitVec).2⟩

theorem settles_toUpper : Settles CStr.toUpper := .of_bitVec (by decide +kernel)

theorem settles_toLower : Settles CStr.toLower := .of_bitVec (by decide +kernel)

/-! ## Memory -/

section Memory

variable {F : BitVec (8 * n) → BitVec (8 * n)} {f : Byte → Byte}

theorem ByteOrder.arrange_arrange (order : ByteOrder) (bs : List Byte) :
    order.arrange (order.arrange bs) = bs := by
  cases order with
  | little => rfl
  | big => exact List.reverse_reverse bs

theorem ByteOrder.arrange_map (order : ByteOrder) (bs : List Byte) :
    order.arrange (bs.map f) = (order.arrange bs).map f := by
  cases order with
  | little => rfl
  | big => exact List.map_reverse.symm

@[simp] theorem ByteOrder.length_arrange (order : ByteOrder) (bs : List Byte) :
    (order.arrange bs).length = bs.length := by
  cases order with
  | little => rfl
  | big => exact List.length_reverse

theorem MapsBytes.lanes_map (hF : MapsBytes F f) (x : BitVec (8 * n)) :
    (lanes (F x)).map UInt8.ofBitVec = ((lanes x).map UInt8.ofBitVec).map f := by
  simp only [lanes, List.map_map]
  exact List.map_congr_left fun i hi => hF x i (List.mem_range.mp hi)

theorem lanes_wordOf (order : ByteOrder) {bs : List Byte} (h : bs.length = n) :
    (lanes (wordOf order bs : BitVec (8 * n))).map UInt8.ofBitVec = order.arrange bs := by
  have hlanes := lanes_pack (n := n) (l := (order.arrange bs).map UInt8.toBitVec) (by simp [h])
  rw [wordOf, hlanes, List.map_map]
  exact List.map_id _

/-- A word that is loaded, mapped and stored, in either byte order. -/
theorem MapsBytes.bytesOf_eq (hF : MapsBytes F f) (order : ByteOrder) {bs : List Byte}
    (h : bs.length = n) : bytesOf order (F (wordOf order bs)) = bs.map f := by
  rw [bytesOf, hF.lanes_map, lanes_wordOf order h, ← order.arrange_map, order.arrange_arrange]

/-- What the sign puts above the character does not come back into it. -/
theorem MapsBytes.mapChar_eq {F : BitVec 32 → BitVec 32} (hF : MapsBytes (n := 4) F f) (c : Byte) :
    mapChar F c = f c := by
  have hlow : ∀ x : BitVec 32, UInt8.ofBitVec (x.setWidth 8) = byte (n := 4) x 0 := by
    intro x
    refine congrArg UInt8.ofBitVec (BitVec.eq_of_toNat_eq ?_)
    rw [toNat_lane, BitVec.toNat_setWidth]
    simp
  have hchar : (c.toBitVec.signExtend 32).setWidth 8 = c.toBitVec := by
    apply BitVec.eq_of_getLsbD_eq
    intro i hi
    rw [BitVec.getLsbD_setWidth, BitVec.getLsbD_signExtend]
    simp [hi, show i < 32 by omega]
  rw [mapChar, hlow, hF _ 0 (by decide), ← hlow, hchar]

/-- The words are mapped one by one; what is left is at most one word. -/
theorem MapsBytes.returns_mapWords (hF : MapsBytes F f) (hn : 0 < n) (order : ByteOrder)
    (pre bs post : List Byte) : ∃ front left, bs = front ++ left ∧
      Returns (fun k => mapWords order F k (pre ++ bs ++ post) pre.length bs.length)
        (pre ++ front.map f ++ left ++ post, pre.length + front.length, left.length) := by
  induction hl : bs.length using Nat.strong_induction_on generalizing pre bs with
  | _ l ih =>
    subst hl
    by_cases hlt : n < bs.length
    · have hword : (bs.take n).length = n := by
        rw [List.length_take]
        omega
      obtain ⟨front, left, hdrop, hrun⟩ := ih (bs.drop n).length
        (by rw [List.length_drop]; omega) (pre ++ (bs.take n).map f) (bs.drop n) rfl
      refine ⟨bs.take n ++ front, left, ?_, ?_⟩
      · rw [List.append_assoc, ← hdrop, List.take_append_drop]
      · -- the first word is read, mapped and written back; the induction is on what follows it
        have hbuf : pre ++ bs ++ post = pre ++ bs.take n ++ (bs.drop n ++ post) := by
          rw [List.append_assoc pre, List.append_assoc pre, ← List.append_assoc (bs.take n),
            List.take_append_drop]
        have hread : Buffer.read (pre ++ bs ++ post) pre.length n = .ok (bs.take n) := by
          have h : Buffer.read (pre ++ bs.take n ++ (bs.drop n ++ post)) pre.length
              (bs.take n).length = .ok (bs.take n) := Buffer.read_append rfl
          rwa [hword, ← hbuf] at h
        have hcopy : Buffer.copy (pre ++ bs ++ post) pre.length
            (bytesOf order (F (wordOf order (bs.take n)))) =
              .ok (pre ++ (bs.take n).map f ++ bs.drop n ++ post) := by
          rw [hF.bytesOf_eq order hword, hbuf, Buffer.copy_append rfl (by simp)]
          simp
        have hres : (pre ++ (bs.take n).map f ++ front.map f ++ left ++ post,
            (pre ++ (bs.take n).map f).length + front.length, left.length) =
            (pre ++ (bs.take n ++ front).map f ++ left ++ post,
              pre.length + (bs.take n ++ front).length, left.length) := by
          simp [Nat.add_assoc]
        rw [hres] at hrun
        refine hrun.succ fun k => ?_
        simp only [mapWords, if_pos hlt, hread, ok_bind, hcopy, List.length_append, List.length_map,
          hword, List.length_drop]
    · -- one word or less is left to the loop over the bytes
      refine ⟨[], bs, rfl, ⟨1, fun k hk => ?_⟩⟩
      obtain ⟨k, rfl⟩ : ∃ m, k = m + 1 := ⟨k - 1, by omega⟩
      simp [mapWords, hlt]

theorem MapsBytes.returns_mapChars {F : BitVec 32 → BitVec 32} (hF : MapsBytes (n := 4) F f)
    (pre bs post : List Byte) :
    Returns (fun k => mapChars F k (pre ++ bs ++ post) pre.length bs.length)
      (pre ++ bs.map f ++ post) := by
  induction bs generalizing pre with
  | nil =>
    refine ⟨1, fun k hk => ?_⟩
    obtain ⟨k, rfl⟩ : ∃ m, k = m + 1 := ⟨k - 1, by omega⟩
    simp [mapChars]
  | cons b bs ih =>
    have hrun := ih (pre ++ [f b])
    simp only [List.append_assoc, List.singleton_append, List.length_append, List.length_singleton]
      at hrun
    have hput : Buffer.put (pre ++ b :: (bs ++ post)) pre.length (mapChar F b) =
        .ok (pre ++ mapChar F b :: (bs ++ post)) := Buffer.put_append rfl _
    have hget : Buffer.get (pre ++ b :: (bs ++ post)) pre.length = .ok b := Buffer.get_append rfl
    rw [List.append_assoc, List.map_cons, List.append_assoc, List.cons_append]
    refine hrun.succ fun k => ?_
    rw [List.cons_append, mapChars, if_pos (by simp), hget, ok_bind, hput, ok_bind,
      hF.mapChar_eq, List.length_cons, Nat.add_sub_cancel]

/-- A whole string: the words, then the characters behind them. -/
theorem returns_mapMax (hF : MapsBytes F f) (hn : 0 < n) {char : BitVec 32 → BitVec 32}
    (hchar : MapsBytes (n := 4) char f) (order : ByteOrder) (s : CStr) (rest : List Byte) :
    Returns (fun k => mapMax order F char k (s.bytes ++ 0 :: rest))
      (s.bytes.map f ++ 0 :: rest) := by
  obtain ⟨front, left, hs, hwords⟩ := hF.returns_mapWords hn order [] s.bytes (0 :: rest)
  have hchars := hchar.returns_mapChars (front.map f) left (0 :: rest)
  simp only [List.nil_append, List.length_nil, Nat.zero_add, List.length_map] at hwords hchars
  rw [← List.map_append, ← hs] at hchars
  have hrun := hwords.bind (g := fun k r => mapChars char k r.1 r.2.1 r.2.2) hchars
  refine hrun.congr fun k => ?_
  rw [mapMax, Buffer.strlen_append s.nul_notMem, ok_bind]

theorem mapsString_mapMax (hF : MapsBytes F f) (hn : 0 < n) {char : BitVec 32 → BitVec 32}
    (hchar : MapsBytes (n := 4) char f) (hf : Settles f) (order : ByteOrder) :
    MapsString (mapMax order F char) f := by
  intro s rest
  have hnul : 0 ∉ s.bytes.map f := by
    intro hmem
    obtain ⟨b, hb, hb0⟩ := List.mem_map.mp hmem
    exact s.nul_notMem (hf.eq_zero b hb0 ▸ hb)
  refine ⟨⟨s.bytes.map f, hnul⟩, rfl, List.length_map _, ?_, ?_⟩
  · exact returns_mapMax hF hn hchar order s rest
  · have hagain := returns_mapMax hF hn hchar order ⟨s.bytes.map f, hnul⟩ rest
    have hmap : (s.bytes.map f).map f = s.bytes.map f := by
      rw [List.map_map]
      exact List.map_congr_left fun b _ => hf.again b
    rwa [hmap] at hagain

end Memory

/-- Words of both sizes are mapped byte by byte, and so are strings of every length, in both byte
orders and with both sizes of a word. -/
theorem case_mapping_bytewise :
    (MapsBytes (n := 4) agcToupper CStr.toUpper ∧ MapsBytes (n := 4) agcTolower CStr.toLower ∧
      MapsBytes (n := 8) agcToupper64 CStr.toUpper ∧
      MapsBytes (n := 8) agcTolower64 CStr.toLower) ∧
    ∀ order : ByteOrder,
      MapsString (agcToupperMax order) CStr.toUpper ∧
      MapsString (agcTolowerMax order) CStr.toLower ∧
      MapsString (agcToupperMax32 order) CStr.toUpper ∧
      MapsString (agcTolowerMax32 order) CStr.toLower := by
  refine ⟨⟨mapsBytes_agcToupper, mapsBytes_agcTolower, mapsBytes_agcToupper64,
    mapsBytes_agcTolower64⟩, fun order => ⟨?_, ?_, ?_, ?_⟩⟩
  · exact mapsString_mapMax mapsBytes_agcToupper64 (by decide) mapsBytes_agcToupper
      settles_toUpper order
  · exact mapsString_mapMax mapsBytes_agcTolower64 (by decide) mapsBytes_agcTolower
      settles_toLower order
  · exact mapsString_mapMax mapsBytes_agcToupper (by decide) mapsBytes_agcToupper
      settles_toUpper order
  · exact mapsString_mapMax mapsBytes_agcTolower (by decide) mapsBytes_agcTolower
      settles_toLower order

end Case
