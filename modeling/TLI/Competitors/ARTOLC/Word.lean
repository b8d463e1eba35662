import Mathlib.Data.Nat.Bitwise
import Mathlib.Data.UInt
import TLI.Library.MachineInt

/-!
# Word — `typeVersionLockObsolete`, the word that guards a node

Two bits for the type, 60 for the version, one for the lock and one for obsolete nodes.  Locking and
unlocking only add to the word: as long as the version does not overflow into the type, a word that
is seen twice was not changed in between.
-/

namespace TLI
namespace ARTOLC

inductive NTypes
  | N4
  | N16
  | N48
  | N256
  deriving DecidableEq, Repr

/-- `static_cast<uint64_t>(type)` -/
def NTypes.toNat : NTypes → Nat
  | .N4 => 0
  | .N16 => 1
  | .N48 => 2
  | .N256 => 3

def convertTypeToVersion (type : NTypes) : UInt64 :=
  UInt64.ofNat type.toNat <<< 62

/-- The word of a node that the constructor leaves behind: version 1, unlocked, not obsolete. -/
def initialWord (type : NTypes) : UInt64 :=
  0b100 + convertTypeToVersion type

/-- `static_cast<NTypes>(typeVersionLockObsolete >> 62)` -/
def getType (word : UInt64) : NTypes :=
  if word >>> 62 = 0 then .N4
  else if word >>> 62 = 1 then .N16
  else if word >>> 62 = 2 then .N48
  else .N256

def isLocked (version : UInt64) : Bool :=
  version &&& 0b10 == 0b10

def isObsolete (version : UInt64) : Bool :=
  version &&& 1 == 1

/-- Neither locked nor obsolete: `readLockOrRestart` does not ask for a restart. -/
def Free (version : UInt64) : Prop :=
  isLocked version = false ∧ isObsolete version = false

instance (version : UInt64) : Decidable (Free version) :=
  inferInstanceAs (Decidable (_ ∧ _))

/-- The version field of a word. -/
def version (word : UInt64) : Nat :=
  word.toNat / 4 % 2 ^ 60

/-! ## The fields of a word -/

theorem isLocked_iff (w : UInt64) : isLocked w = true ↔ w.toNat / 2 % 2 = 1 := by
  have hand : w.toNat &&& 2 = w.toNat / 2 % 2 * 2 := by
    have hbit := Nat.and_two_pow w.toNat 1
    rw [Nat.testBit_eq_decide_div_mod_eq] at hbit
    rcases Nat.mod_two_eq_zero_or_one (w.toNat / 2) with h | h <;> simpa [h] using hbit
  rw [isLocked, beq_iff_eq, ← UInt64.toNat_inj, UInt64.toNat_and]
  change w.toNat &&& 2 = 2 ↔ _
  omega

theorem isObsolete_iff (w : UInt64) : isObsolete w = true ↔ w.toNat % 2 = 1 := by
  rw [isObsolete, beq_iff_eq, ← UInt64.toNat_inj, UInt64.toNat_and]
  change w.toNat &&& 1 = 1 ↔ _
  rw [Nat.and_one_is_mod]

theorem free_iff (w : UInt64) : Free w ↔ w.toNat % 4 = 0 := by
  rw [Free, ← Bool.not_eq_true, ← Bool.not_eq_true, isLocked_iff, isObsolete_iff]
  omega

theorem toNat_shift (w : UInt64) : (w >>> 62).toNat = w.toNat / 2 ^ 62 := by
  rw [UInt64.toNat_shiftRight, Nat.shiftRight_eq_div_pow]
  rfl

/-- Words with the same two upper bits have the same type. -/
theorem getType_congr {w w' : UInt64} (h : w.toNat / 2 ^ 62 = w'.toNat / 2 ^ 62) :
    getType w = getType w' := by
  have hsame : w >>> 62 = w' >>> 62 := by
    rw [← UInt64.toNat_inj, toNat_shift, toNat_shift, h]
  rw [getType, getType, hsame]

theorem getType_initialWord (type : NTypes) : getType (initialWord type) = type := by
  cases type <;> decide

theorem free_initialWord (type : NTypes) : Free (initialWord type) := by
  cases type <;> decide

theorem version_initialWord (type : NTypes) : version (initialWord type) = 1 := by
  cases type <;> decide

/-! ## Locking and unlocking -/

/-- An addition that stays inside the version field. -/
theorem toNat_add_small {w d : UInt64} (hd : d.toNat ≤ 3) (hroom : version w + 1 < 2 ^ 60) :
    (w + d).toNat = w.toNat + d.toNat := by
  have hlt := w.toNat_lt
  rw [version] at hroom
  rw [UInt64.toNat_add, Nat.mod_eq_of_lt (by omega)]

theorem getType_add_small {w d : UInt64} (hd : d.toNat ≤ 3) (hroom : version w + 1 < 2 ^ 60) :
    getType (w + d) = getType w := by
  refine getType_congr ?_
  rw [toNat_add_small hd hroom]
  rw [version] at hroom
  omega

/-- Every addition makes the word larger. -/
theorem lt_add_small {w d : UInt64} (hpos : 0 < d.toNat) (hd : d.toNat ≤ 3)
    (hroom : version w + 1 < 2 ^ 60) : w < w + d := by
  rw [UInt64.lt_iff_toNat_lt, toNat_add_small hd hroom]
  omega

theorem version_add_small {w d : UInt64} (hd : d.toNat ≤ 3) (hroom : version w + 1 < 2 ^ 60) :
    version (w + d) ≤ version w + 1 := by
  rw [version, toNat_add_small hd hroom, version]
  omega

/-- `version + 0b10` in `upgradeToWriteLockOrRestart` -/
theorem isLocked_lock {w : UInt64} (hfree : Free w) (hroom : version w + 1 < 2 ^ 60) :
    isLocked (w + 0b10) = true := by
  rw [free_iff] at hfree
  rw [isLocked_iff, toNat_add_small (by decide) hroom]
  change (w.toNat + 2) / 2 % 2 = 1
  omega

/-- `typeVersionLockObsolete.fetch_add(0b10)` in `writeUnlock` -/
theorem isLocked_unlock {w : UInt64} (hlocked : isLocked w = true)
    (hroom : version w + 1 < 2 ^ 60) : isLocked (w + 0b10) = false := by
  rw [isLocked_iff] at hlocked
  rw [← Bool.not_eq_true, isLocked_iff, toNat_add_small (by decide) hroom]
  change ¬ (w.toNat + 2) / 2 % 2 = 1
  omega

theorem isLocked_unlockObsolete {w : UInt64} (hlocked : isLocked w = true)
    (hobsolete : isObsolete w = false) (hroom : version w + 1 < 2 ^ 60) :
    isLocked (w + 0b11) = false := by
  rw [isLocked_iff] at hlocked
  rw [← Bool.not_eq_true, isObsolete_iff] at hobsolete
  rw [← Bool.not_eq_true, isLocked_iff, toNat_add_small (by decide) hroom]
  change ¬ (w.toNat + 3) / 2 % 2 = 1
  omega

/-- `typeVersionLockObsolete.fetch_add(0b11)` in `writeUnlockObsolete` -/
theorem isObsolete_unlockObsolete {w : UInt64} (hobsolete : isObsolete w = false)
    (hroom : version w + 1 < 2 ^ 60) : isObsolete (w + 0b11) = true := by
  rw [← Bool.not_eq_true, isObsolete_iff] at hobsolete
  rw [isObsolete_iff, toNat_add_small (by decide) hroom]
  change (w.toNat + 3) % 2 = 1
  omega

/-- Only `writeUnlockObsolete` makes a node obsolete. -/
theorem isObsolete_add_two {w : UInt64} (hroom : version w + 1 < 2 ^ 60) :
    isObsolete (w + 0b10) = isObsolete w := by
  rw [Bool.eq_iff_iff, isObsolete_iff, isObsolete_iff, toNat_add_small (by decide) hroom]
  change (w.toNat + 2) % 2 = 1 ↔ _
  omega

end ARTOLC
end TLI
