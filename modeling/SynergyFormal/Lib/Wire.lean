import Mathlib.Data.Nat.Digits.Lemmas

/-!
# Self-delimiting byte encodings

An encoding is self-delimiting on a set of values when the bytes of one value can
be cut off the front of any stream in one way only.  The combinators below carry
the property from fixed-width little-endian integers and length prefixes to records
and counted lists, so that injectivity of a serialization is assembled field by
field and no decoder is needed.
-/

set_option autoImplicit false

namespace SynergyLib.Wire

open List

abbrev Bytes := List UInt8

def SelfDelimiting {A : Type} (encode : A → Bytes) (fits : A → Prop) : Prop :=
  ∀ (a b : A) (s t : Bytes), fits a → fits b →
    encode a ++ s = encode b ++ t → a = b ∧ s = t

def leBytes : Nat → Nat → Bytes
  | 0, _ => []
  | width + 1, value => UInt8.ofNat value :: leBytes width (value / 256)

@[simp] theorem leBytes_length (width value : Nat) : (leBytes width value).length = width := by
  induction width generalizing value with
  | zero => rfl
  | succ width ih => simp [leBytes, ih]

variable {width : Nat} {bytes : Bytes}

theorem leBytes_cancel : ∀ (a b : Nat) (s t : Bytes), a < 256 ^ width → b < 256 ^ width →
      leBytes width a ++ s = leBytes width b ++ t → a = b ∧ s = t := by
  induction width with
  | zero =>
    intro a b s t aFits bFits same
    exact ⟨by omega, by simpa [leBytes] using same⟩
  | succ width ih =>
    intro a b s t aFits bFits same
    simp only [leBytes, cons_append, cons.injEq] at same
    obtain ⟨low, high⟩ := same
    have power : 256 ^ (width + 1) = 256 * 256 ^ width := by ring
    obtain ⟨quotients, rests⟩ := ih (a / 256) (b / 256) s t (by omega) (by omega) high
    have lowNat : a % 256 = b % 256 := by simpa using congrArg UInt8.toNat low
    exact ⟨by omega, rests⟩

section Combinators
variable {A B : Type}

variable {encode : A → Bytes} {fits : A → Prop}

theorem SelfDelimiting.flatMap (delimiting : SelfDelimiting encode fits) :
    ∀ (xs ys : List A) (s t : Bytes), xs.length = ys.length →
      (∀ x ∈ xs, fits x) → (∀ y ∈ ys, fits y) →
      xs.flatMap encode ++ s = ys.flatMap encode ++ t → xs = ys ∧ s = t := by
  intro xs
  induction xs with
  | nil =>
    intro ys s t sameLength _ _ same
    have empty : ys = [] := eq_nil_of_length_eq_zero sameLength.symm
    subst empty
    exact ⟨rfl, by simpa using same⟩
  | cons x xs ih =>
    intro ys s t sameLength xsFit ysFit same
    cases ys with
    | nil => simp at sameLength
    | cons y ys =>
      simp only [flatMap_cons, append_assoc] at same
      obtain ⟨heads, rest⟩ := delimiting x y _ _ (xsFit x mem_cons_self)
        (ysFit y mem_cons_self) same
      obtain ⟨tails, ends⟩ := ih ys s t (by simpa using sameLength)
        (fun z member => xsFit z (mem_cons_of_mem _ member))
        (fun z member => ysFit z (mem_cons_of_mem _ member)) rest
      exact ⟨by rw [heads, tails], ends⟩

theorem SelfDelimiting.counted {count : Nat → Bytes} {countFits : Nat → Prop}
    (delimiting : SelfDelimiting encode fits) (counts : SelfDelimiting count countFits) :
    SelfDelimiting (fun xs : List A => count xs.length ++ xs.flatMap encode)
      (fun xs => countFits xs.length ∧ ∀ x ∈ xs, fits x) := by
  intro xs ys s t xsFit ysFit same
  simp only [append_assoc] at same
  obtain ⟨lengths, rest⟩ := counts xs.length ys.length _ _ xsFit.1 ysFit.1 same
  exact delimiting.flatMap xs ys s t lengths xsFit.2 ysFit.2 rest

end Combinators

/-! ## Length prefixes of one, three, five or nine bytes -/

def compactSize (nSize : Nat) : Bytes :=
  if nSize < 253 then [UInt8.ofNat nSize]
  else if nSize ≤ 0xffff then 253 :: leBytes 2 nSize
  else if nSize ≤ 0xffffffff then 254 :: leBytes 4 nSize
  else 255 :: leBytes 8 nSize

theorem selfDelimiting_compactSize : SelfDelimiting compactSize (fun nSize => nSize < 256 ^ 8) := by
  intro a b s t aFits bFits same
  have small : ∀ n : Nat, n < 253 → (UInt8.ofNat n).toNat = n := fun n bound =>
    UInt8.toNat_ofNat_of_lt (by show n < 256; omega)
  have marker : ∀ (n : Nat) (byte : UInt8), n < 253 → 253 ≤ byte.toNat → UInt8.ofNat n ≠ byte := by
    intro n byte bound large equal
    have value := small n bound
    rw [equal] at value
    omega
  unfold compactSize at same
  split_ifs at same with a1 b1 b2 b3 a2 b1 b2 b3 a3 b1 b2 b3 b1 b2 b3 <;>
    simp only [cons_append, nil_append, cons.injEq] at same
  · have values := congrArg UInt8.toNat same.1
    rw [small a a1, small b b1] at values
    exact ⟨values, same.2⟩
  · exact (marker a _ a1 (by decide) same.1).elim
  · exact (marker a _ a1 (by decide) same.1).elim
  · exact (marker a _ a1 (by decide) same.1).elim
  · exact (marker b _ b1 (by decide) same.1.symm).elim
  · exact leBytes_cancel a b s t (by omega) (by omega) same.2
  · exact absurd same.1 (by decide)
  · exact absurd same.1 (by decide)
  · exact (marker b _ b1 (by decide) same.1.symm).elim
  · exact absurd same.1 (by decide)
  · exact leBytes_cancel a b s t (by omega) (by omega) same.2
  · exact absurd same.1 (by decide)
  · exact (marker b _ b1 (by decide) same.1.symm).elim
  · exact absurd same.1 (by decide)
  · exact absurd same.1 (by decide)
  · exact leBytes_cancel a b s t aFits bFits same.2

theorem one_le_compactSize_length (nSize : Nat) : 1 ≤ (compactSize nSize).length := by
  unfold compactSize
  split_ifs <;> simp

/-- A length-prefixed byte string. -/
def byteString (bytes : Bytes) : Bytes := compactSize bytes.length ++ bytes

theorem selfDelimiting_byteString :
    SelfDelimiting byteString (fun bytes => bytes.length < 256 ^ 8) := by
  intro a b s t aFits bFits same
  simp only [byteString, append_assoc] at same
  obtain ⟨lengths, rest⟩ := selfDelimiting_compactSize a.length b.length _ _ aFits bFits same
  exact append_inj rest lengths

/-! ## Variable-width little-endian integers -/

/-- The shortest little-endian digits of a number; zero has none. -/
def minimalBytes (value : Nat) : Bytes := (Nat.digits 256 value).map UInt8.ofNat

def readBytes (bytes : Bytes) : Nat := Nat.ofDigits 256 (bytes.map UInt8.toNat)

theorem readBytes_minimalBytes (value : Nat) : readBytes (minimalBytes value) = value := by
  have mapped : (minimalBytes value).map UInt8.toNat = Nat.digits 256 value := by
    rw [minimalBytes, List.map_map]
    conv_rhs => rw [← List.map_id (Nat.digits 256 value)]
    refine map_congr_left fun digit member => ?_
    have small : digit < 256 := Nat.digits_lt_base (by norm_num) member
    exact UInt8.toNat_ofNat_of_lt small
  rw [readBytes, mapped, Nat.ofDigits_digits]

theorem readBytes_leBytes : ∀ value : Nat, value < 256 ^ width →
    readBytes (leBytes width value) = value := by
  induction width with
  | zero =>
    intro value fits
    simp only [Nat.pow_zero, Nat.lt_one_iff] at fits
    simp [leBytes, readBytes, fits]
  | succ width ih =>
    intro value fits
    have power : 256 ^ (width + 1) = 256 * 256 ^ width := by ring
    have rest := ih (value / 256) (by omega)
    rw [readBytes] at rest
    rw [leBytes, readBytes, map_cons, Nat.ofDigits_cons, rest, UInt8.toNat_ofNat']
    omega

theorem readBytes_append_zero (bytes : Bytes) : readBytes (bytes ++ [0]) = readBytes bytes := by
  simp [readBytes, Nat.ofDigits_append]

theorem readBytes_lt : readBytes bytes < 256 ^ bytes.length := by
  have digits := Nat.ofDigits_lt_base_pow_length (b := 256) (l := bytes.map UInt8.toNat)
    (by decide) (by
      intro digit member
      obtain ⟨byte, _, rfl⟩ := List.mem_map.mp member
      exact byte.toNat_lt)
  rwa [length_map] at digits

theorem minimalBytes_length {value : Nat} (fits : value < 256 ^ width) :
    (minimalBytes value).length ≤ width := by
  rw [minimalBytes, length_map]
  exact (Nat.digits_length_le_iff (by norm_num) value).mpr fits

end SynergyLib.Wire
