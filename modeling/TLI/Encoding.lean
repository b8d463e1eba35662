import TLI.Library.Lexicographic
import TLI.Library.MachineInt

/-!
# Encoding — the byte strings of `util::convert2String`

* `uint32_t`, `uint64_t` — the bytes swapped, then read from memory: the most significant first.
* `std::string` without NUL bytes — the bytes followed by a zero.

`LawfulKeyType` states what the radix trees rely on: encodings compare like the keys, and none is a
prefix of another.
-/

namespace TLI

open List Lexicographic

/-- A key type with its `convert2String`. -/
class KeyType (K : Type) where
  convert2String : K → List UInt8

export KeyType (convert2String)

class LawfulKeyType (K : Type) [LinearOrder K] [KeyType K] : Prop where
  convert2String_lt : ∀ {a b : K}, a < b → convert2String a < convert2String b
  eq_of_initial : ∀ {a b : K}, convert2String a <+: convert2String b → a = b

export LawfulKeyType (convert2String_lt eq_of_initial)

section Lawful

variable {K : Type} [LinearOrder K] [KeyType K] [LawfulKeyType K]

theorem convert2String_inj {a b : K} : convert2String a = convert2String b ↔ a = b :=
  ⟨fun h => eq_of_initial (h ▸ prefix_rfl), congrArg _⟩

theorem convert2String_lt_iff {a b : K} : convert2String a < convert2String b ↔ a < b := by
  refine ⟨fun h => ?_, convert2String_lt⟩
  rcases lt_trichotomy a b with hlt | heq | hgt
  · exact hlt
  · exact absurd h (heq ▸ lt_irrefl _)
  · exact absurd h (lt_asymm (convert2String_lt hgt))

theorem convert2String_le_iff {a b : K} : convert2String a ≤ convert2String b ↔ a ≤ b := by
  rw [← not_lt, convert2String_lt_iff, not_lt]

theorem convert2String_prefixFree (a b : K) :
    PrefixFree (convert2String a) (convert2String b) := by
  rintro (h | h)
  · rw [eq_of_initial h]
  · rw [eq_of_initial h]

end Lawful

/-! ## Unsigned integers -/

namespace Util

/-- The bytes of an unsigned integer in the memory of a little-endian host. -/
def memoryBytes : Nat → Nat → List UInt8
  | 0, _ => []
  | width + 1, n => UInt8.ofNat n :: memoryBytes width (n / 256)

/-- The unsigned integer with these bytes in memory. -/
def ofMemoryBytes : List UInt8 → Nat
  | [] => 0
  | b :: bs => b.toNat + 256 * ofMemoryBytes bs

/-- `__builtin_bswap32` -/
def bswap32 (x : UInt32) : UInt32 :=
  UInt32.ofNat (ofMemoryBytes (memoryBytes 4 x.toNat).reverse)

/-- `__builtin_bswap64` -/
def bswap64 (x : UInt64) : UInt64 :=
  UInt64.ofNat (ofMemoryBytes (memoryBytes 8 x.toNat).reverse)

theorem length_memoryBytes (width n : Nat) : (memoryBytes width n).length = width := by
  induction width generalizing n with
  | zero => rfl
  | succ width ih => rw [memoryBytes, length_cons, ih]

theorem ofMemoryBytes_lt (bs : List UInt8) : ofMemoryBytes bs < 256 ^ bs.length := by
  induction bs with
  | nil => exact Nat.one_pos
  | cons b bs ih =>
      have hb := b.toNat_lt
      rw [ofMemoryBytes, length_cons, Nat.pow_succ]
      omega

/-- Memory keeps the low bytes of a number. -/
theorem ofMemoryBytes_memoryBytes (width n : Nat) :
    ofMemoryBytes (memoryBytes width n) = n % 256 ^ width := by
  induction width generalizing n with
  | zero => rw [memoryBytes, ofMemoryBytes, Nat.pow_zero, Nat.mod_one]
  | succ width ih =>
      calc
        ofMemoryBytes (memoryBytes (width + 1) n)
            = n % 256 + 256 * (n / 256 % 256 ^ width) := by
              rw [memoryBytes, ofMemoryBytes, ih, UInt8.toNat_ofNat']
        _ = n % (256 * 256 ^ width) := Nat.mod_mul.symm
        _ = n % 256 ^ (width + 1) := by rw [Nat.pow_succ']

theorem memoryBytes_ofMemoryBytes (bs : List UInt8) :
    memoryBytes bs.length (ofMemoryBytes bs) = bs := by
  induction bs with
  | nil => rfl
  | cons b bs ih =>
      have hb := b.toNat_lt
      rw [length_cons, memoryBytes, ofMemoryBytes]
      refine congrArg₂ cons ?_ ?_
      · rw [← UInt8.toNat_inj, UInt8.toNat_ofNat']
        omega
      · rwa [show (b.toNat + 256 * ofMemoryBytes bs) / 256 = ofMemoryBytes bs by omega]

/-- The bytes of a number of full width, the most significant first. -/
theorem memoryBytes_swap {width n : Nat} :
    memoryBytes width (ofMemoryBytes (memoryBytes width n).reverse) =
      (memoryBytes width n).reverse := by
  have h := memoryBytes_ofMemoryBytes (memoryBytes width n).reverse
  rwa [length_reverse, length_memoryBytes] at h

theorem memoryBytes_reverse_lt {width n m : Nat} (hlt : n < m) (hm : m < 256 ^ width) :
    (memoryBytes width n).reverse < (memoryBytes width m).reverse := by
  induction width generalizing n m with
  | zero =>
      rw [Nat.pow_zero] at hm
      omega
  | succ width ih =>
      rw [Nat.pow_succ] at hm
      rw [memoryBytes, memoryBytes, reverse_cons, reverse_cons]
      rcases Nat.lt_or_ge (n / 256) (m / 256) with hhigh | hlow
      · have hlt := ih hhigh (by omega)
        refine append_lt_append hlt (fun hpre => ne_of_lt hlt (hpre.eq_of_length ?_)) _ _
        simp only [length_reverse, length_memoryBytes]
      · -- The higher bytes agree, so the lowest ones decide.
        rw [show n / 256 = m / 256 by omega]
        refine Lex.append_left _ (Lex.rel ?_) _
        rw [UInt8.lt_iff_toNat_lt, UInt8.toNat_ofNat', UInt8.toNat_ofNat']
        omega

end Util

open Util

instance : KeyType UInt32 where
  convert2String key := memoryBytes 4 (bswap32 key).toNat

instance : KeyType UInt64 where
  convert2String key := memoryBytes 8 (bswap64 key).toNat

theorem convert2String_uint32 (key : UInt32) :
    convert2String key = (memoryBytes 4 key.toNat).reverse := by
  have hlt := ofMemoryBytes_lt (memoryBytes 4 key.toNat).reverse
  rw [length_reverse, length_memoryBytes] at hlt
  change memoryBytes 4 (bswap32 key).toNat = _
  rw [bswap32, UInt32.toNat_ofNat_of_lt' hlt, memoryBytes_swap]

theorem convert2String_uint64 (key : UInt64) :
    convert2String key = (memoryBytes 8 key.toNat).reverse := by
  have hlt := ofMemoryBytes_lt (memoryBytes 8 key.toNat).reverse
  rw [length_reverse, length_memoryBytes] at hlt
  change memoryBytes 8 (bswap64 key).toNat = _
  rw [bswap64, UInt64.toNat_ofNat_of_lt' hlt, memoryBytes_swap]

/-- Encodings of one length are lawful as soon as they are in order. -/
theorem lawful_of_length {K : Type} [LinearOrder K] [KeyType K] (width : Nat)
    (hlength : ∀ a : K, (convert2String a).length = width)
    (hlt : ∀ {a b : K}, a < b → convert2String a < convert2String b) : LawfulKeyType K := by
  refine ⟨hlt, fun {a b} hpre => ?_⟩
  have heq := hpre.eq_of_length ((hlength a).trans (hlength b).symm)
  rcases lt_trichotomy a b with h | h | h
  · exact absurd heq (ne_of_lt (hlt h))
  · exact h
  · exact absurd heq.symm (ne_of_lt (hlt h))

instance : LawfulKeyType UInt32 := by
  refine lawful_of_length 4 (fun a => ?_) fun {a b} hab => ?_
  · rw [convert2String_uint32, length_reverse, length_memoryBytes]
  · rw [convert2String_uint32, convert2String_uint32]
    exact memoryBytes_reverse_lt (UInt32.lt_iff_toNat_lt.1 hab) b.toNat_lt

instance : LawfulKeyType UInt64 := by
  refine lawful_of_length 8 (fun a => ?_) fun {a b} hab => ?_
  · rw [convert2String_uint64, length_reverse, length_memoryBytes]
  · rw [convert2String_uint64, convert2String_uint64]
    exact memoryBytes_reverse_lt (UInt64.lt_iff_toNat_lt.1 hab) b.toNat_lt

/-! ## Strings -/

/-- A `std::string` without NUL bytes. -/
def NulFree : Type :=
  { s : List UInt8 // 0 ∉ s }

instance : LinearOrder NulFree :=
  inferInstanceAs (LinearOrder { s : List UInt8 // 0 ∉ s })

instance : KeyType NulFree where
  convert2String key := key.1 ++ [0]

theorem convert2String_nulFree (key : NulFree) : convert2String key = key.1 ++ [0] := rfl

instance : LawfulKeyType NulFree where
  convert2String_lt {a b} hab := by
    have hlt : a.1 < b.1 := hab
    rw [convert2String_nulFree, convert2String_nulFree]
    by_cases hpre : a.1 <+: b.1
    · -- The longer string goes on with a byte that is not zero.
      obtain ⟨c, hc⟩ := exists_next hpre fun h => ne_of_lt hlt (hpre.eq_of_length_le h.length_le)
      have hpos : 0 < c := by
        refine UInt8.pos_iff_ne_zero.2 ?_
        rintro rfl
        exact b.2 (hc.subset (by simp))
      have hparts : Parts a.1 (a.1 ++ [0]) (b.1 ++ [0]) 0 c :=
        ⟨prefix_rfl, hc.trans (prefix_append _ _), ne_of_lt hpos⟩
      exact hparts.lt hpos
    · exact append_lt_append hlt hpre _ _
  eq_of_initial {a b} hpre := by
    rw [convert2String_nulFree, convert2String_nulFree, prefix_concat_iff] at hpre
    rcases hpre with heq | hpre
    · exact Subtype.ext (append_cancel_right heq)
    · exact absurd (hpre.subset (by simp)) b.2

/-! ## The encoding of each key type -/

/-- Encodings compare like the keys, and those of different keys are no prefixes of each other. -/
structure Encodes (K : Type) [LinearOrder K] [KeyType K] : Prop where
  lt_iff : ∀ a b : K, convert2String a < convert2String b ↔ a < b
  injective : ∀ a b : K, convert2String a = convert2String b → a = b
  free : ∀ a b : K, a ≠ b →
    ¬ convert2String a <+: convert2String b ∧ ¬ convert2String b <+: convert2String a

theorem encodes_of_lawful (K : Type) [LinearOrder K] [KeyType K] [LawfulKeyType K] : Encodes K where
  lt_iff _ _ := convert2String_lt_iff
  injective _ _ := convert2String_inj.1
  free _ _ hne := ⟨fun hpre => hne (eq_of_initial hpre), fun hpre => hne (eq_of_initial hpre).symm⟩

theorem convert2String_encodes : Encodes UInt32 ∧ Encodes UInt64 ∧ Encodes NulFree :=
  ⟨encodes_of_lawful UInt32, encodes_of_lawful UInt64, encodes_of_lawful NulFree⟩

end TLI
