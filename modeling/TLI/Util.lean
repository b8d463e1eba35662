import TLI.Library.MachineInt
import TLI.Library.Multimap

/-!
# Util — the records, constants and encodings of `util.h`

Keys are generic; values are 64-bit words, so every sum of values wraps modulo `2^64`.
-/

namespace TLI

/-- Dataset key-value pair. -/
structure KeyValue (K : Type*) where
  key : K
  value : UInt64
  deriving DecidableEq, Repr

/-- The kinds of operations, `util::LOOKUP = 0`, `RANGE_QUERY = 1` and `INSERT = 2`. -/
inductive OpCode
  | lookup
  | rangeQuery
  | insert
  deriving DecidableEq, Repr

/-- Workload operation. -/
structure Operation (K : Type*) where
  op : OpCode
  loKey : K
  hiKey : K
  result : UInt64
  deriving DecidableEq, Repr

namespace Util

/-- `std::numeric_limits<uint64_t>::max()`, the answer of a lookup that finds nothing. -/
def NOT_FOUND : UInt64 := 0xFFFFFFFFFFFFFFFF

/-- `std::numeric_limits<size_t>::max()`, the position an index reports for a missing key. -/
def OVERFLOW : Nat := 2 ^ 64 - 1

end Util

variable {K : Type*}

def KeyValue.toPair (kv : KeyValue K) : K × UInt64 :=
  (kv.key, kv.value)

@[simp] theorem KeyValue.toPair_fst (kv : KeyValue K) : kv.toPair.1 = kv.key := rfl

@[simp] theorem KeyValue.toPair_snd (kv : KeyValue K) : kv.toPair.2 = kv.value := rfl

/-- The multimap a vector of key-value pairs holds. -/
def pairs (data : List (KeyValue K)) : Multimap K UInt64 :=
  ((data.map KeyValue.toPair : List (K × UInt64)) : Multimap K UInt64)

@[simp] theorem pairs_nil : pairs ([] : List (KeyValue K)) = 0 := rfl

@[simp] theorem pairs_cons (kv : KeyValue K) (data : List (KeyValue K)) :
    pairs (kv :: data) = kv.toPair ::ₘ pairs data := rfl

@[simp] theorem pairs_append (data data' : List (KeyValue K)) :
    pairs (data ++ data') = pairs data + pairs data' := by
  simp [pairs]

/-- Generate deterministic values for keys: the position in the key file. -/
def addValues (keys : List K) : List (KeyValue K) :=
  keys.mapIdx fun i key => { key := key, value := UInt64.ofNat i }

theorem map_key_addValues (keys : List K) : (addValues keys).map KeyValue.key = keys := by
  exact List.ext_getElem (by simp [addValues]) (by simp [addValues])

end TLI
