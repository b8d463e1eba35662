import TLI.Encoding
import TLI.Library.ByteStream
import TLI.Util

/-!
# FileFormat — `in_data` and `out_data`, the binary files of `util.h`

A file holds the number of elements and then the elements.  Elements with strings are written field
by field, each string behind its length; the other element types are `packed` and go through one
block of memory.  A multi-threaded workload is the number of threads and then one such file after
the other, so the format has to delimit itself.
-/

namespace TLI
namespace FileFormat

open ByteStream Util

/-! ## Element types -/

/-- `enum DataType` -/
inductive DataType
  | UINT32
  | UINT64
  | STRING
  deriving DecidableEq, Repr

/-- The key type; a `std::string` is any list of bytes. -/
def DataType.KeyType : DataType → Type
  | .UINT32 => UInt32
  | .UINT64 => UInt64
  | .STRING => List UInt8

/-- `Operation`, with the operation code as the byte it is stored as. -/
structure RawOperation (K : Type) where
  op : UInt8
  lo_key : K
  hi_key : K
  result : UInt64
  deriving DecidableEq, Repr

/-- The element types of the files. -/
inductive ElementType
  | key (t : DataType)
  | operation (t : DataType)
  | keyValue (t : DataType)
  deriving DecidableEq, Repr

def ElementType.Element : ElementType → Type
  | .key t => t.KeyType
  | .operation t => RawOperation t.KeyType
  | .keyValue t => KeyValue t.KeyType

/-- A `std::vector`, whose size is a `uint64_t`. -/
def Vector (T : Type) : Type :=
  { data : List T // data.length < 2 ^ 64 }

/-! ## Packed elements -/

/-- A fixed-size type: the bytes of its values in memory. -/
class Packed (T : Type) where
  sizeof : Nat
  image : T → List UInt8
  ofImage : List UInt8 → T

instance : Packed UInt32 where
  sizeof := 4
  image x := memoryBytes 4 x.toNat
  ofImage bytes := UInt32.ofNat (ofMemoryBytes bytes)

instance : Packed UInt64 where
  sizeof := 8
  image x := memoryBytes 8 x.toNat
  ofImage bytes := UInt64.ofNat (ofMemoryBytes bytes)

section Records

variable {K : Type} [Packed K]

/-- `op`, `lo_key`, `hi_key`, `result` without padding. -/
instance : Packed (RawOperation K) where
  sizeof := 1 + Packed.sizeof K + Packed.sizeof K + 8
  image x :=
    memoryBytes 1 x.op.toNat ++ (Packed.image x.lo_key ++ (Packed.image x.hi_key ++
      Packed.image x.result))
  ofImage bytes :=
    { op := UInt8.ofNat (ofMemoryBytes (bytes.take 1))
      lo_key := Packed.ofImage ((bytes.drop 1).take (Packed.sizeof K))
      hi_key := Packed.ofImage ((bytes.drop (1 + Packed.sizeof K)).take (Packed.sizeof K))
      result := Packed.ofImage ((bytes.drop (1 + Packed.sizeof K + Packed.sizeof K)).take 8) }

/-- `key`, `value` without padding. -/
instance : Packed (KeyValue K) where
  sizeof := Packed.sizeof K + 8
  image x := Packed.image x.key ++ Packed.image x.value
  ofImage bytes :=
    { key := Packed.ofImage (bytes.take (Packed.sizeof K))
      value := Packed.ofImage ((bytes.drop (Packed.sizeof K)).take 8) }

end Records

/-! ## Writing -/

/-- `out.write(reinterpret_cast<const char*>(&x), width)` -/
def writeUnsigned (width x : Nat) : List UInt8 :=
  memoryBytes width x

/-- The length as a `uint32_t`, then as many bytes. -/
def writeString (str : List UInt8) : List UInt8 :=
  let len := UInt32.ofNat str.length
  writeUnsigned 4 len.toNat ++ str.take len.toNat

def writeOperation (x : RawOperation (List UInt8)) : List UInt8 :=
  writeUnsigned 1 x.op.toNat ++ (writeUnsigned 8 x.result.toNat ++
    (writeString x.lo_key ++ writeString x.hi_key))

def writeKeyValue (x : KeyValue (List UInt8)) : List UInt8 :=
  writeUnsigned 8 x.value.toNat ++ writeString x.key

/-- `out.write(data.data(), size * sizeof(T))` -/
def writeBlock {T : Type} [Packed T] (data : List T) : List UInt8 :=
  data.flatMap Packed.image

def out_elements : (t : ElementType) → List t.Element → List UInt8
  | .key .STRING, data => data.flatMap writeString
  | .operation .STRING, data => data.flatMap writeOperation
  | .keyValue .STRING, data => data.flatMap writeKeyValue
  | .key .UINT32, data => writeBlock (T := UInt32) data
  | .key .UINT64, data => writeBlock (T := UInt64) data
  | .operation .UINT32, data => writeBlock (T := RawOperation UInt32) data
  | .operation .UINT64, data => writeBlock (T := RawOperation UInt64) data
  | .keyValue .UINT32, data => writeBlock (T := KeyValue UInt32) data
  | .keyValue .UINT64, data => writeBlock (T := KeyValue UInt64) data

def out_data (t : ElementType) (data : Vector t.Element) : List UInt8 :=
  writeUnsigned 8 data.1.length ++ out_elements t data.1

/-- The number of threads, then the operations of each. -/
def write_data_multithread (t : ElementType) (data : Vector (Vector t.Element)) : List UInt8 :=
  writeUnsigned 8 data.1.length ++ data.1.flatMap (out_data t)

/-! ## Reading -/

def readUnsigned (width : Nat) : Reader Nat := do
  let bytes ← readBytes width
  return ofMemoryBytes bytes

def readString : Reader (List UInt8) := do
  let len ← readUnsigned 4
  readBytes len

def readOperation : Reader (RawOperation (List UInt8)) := do
  let op ← readUnsigned 1
  let result ← readUnsigned 8
  let lo_key ← readString
  let hi_key ← readString
  return { op := UInt8.ofNat op, lo_key, hi_key, result := UInt64.ofNat result }

def readKeyValue : Reader (KeyValue (List UInt8)) := do
  let value ← readUnsigned 8
  let key ← readString
  return { key, value := UInt64.ofNat value }

/-- `in.read(data.data(), size * sizeof(T))` -/
def readBlock (T : Type) [Packed T] (size : Nat) : Reader (List T) := do
  let bytes ← readBytes (size * Packed.sizeof T)
  return (List.range size).map fun i => Packed.ofImage (block (Packed.sizeof T) bytes i)

def in_elements : (t : ElementType) → Nat → Reader (List t.Element)
  | .key .STRING, size => readMany readString size
  | .operation .STRING, size => readMany readOperation size
  | .keyValue .STRING, size => readMany readKeyValue size
  | .key .UINT32, size => readBlock UInt32 size
  | .key .UINT64, size => readBlock UInt64 size
  | .operation .UINT32, size => readBlock (RawOperation UInt32) size
  | .operation .UINT64, size => readBlock (RawOperation UInt64) size
  | .keyValue .UINT32, size => readBlock (KeyValue UInt32) size
  | .keyValue .UINT64, size => readBlock (KeyValue UInt64) size

def in_data (t : ElementType) : Reader (List t.Element) := do
  let size ← readUnsigned 8
  in_elements t size

def load_data_multithread (t : ElementType) : Reader (List (List t.Element)) := do
  let len ← readUnsigned 8
  readMany (in_data t) len

/-! ## Packed elements have an image of fixed size that determines them -/

class LawfulPacked (T : Type) [Packed T] : Prop where
  length_image : ∀ x : T, (Packed.image x).length = Packed.sizeof T
  ofImage_image : ∀ x : T, Packed.ofImage (Packed.image x) = x

instance : LawfulPacked UInt32 where
  length_image _ := length_memoryBytes 4 _
  ofImage_image x := by
    change UInt32.ofNat (ofMemoryBytes (memoryBytes 4 x.toNat)) = x
    have hlt : x.toNat < 256 ^ 4 := x.toNat_lt
    rw [ofMemoryBytes_memoryBytes, Nat.mod_eq_of_lt hlt, UInt32.ofNat_toNat]

instance : LawfulPacked UInt64 where
  length_image _ := length_memoryBytes 8 _
  ofImage_image x := by
    change UInt64.ofNat (ofMemoryBytes (memoryBytes 8 x.toNat)) = x
    have hlt : x.toNat < 256 ^ 8 := x.toNat_lt
    rw [ofMemoryBytes_memoryBytes, Nat.mod_eq_of_lt hlt, UInt64.ofNat_toNat]

section Records

variable {K : Type} [Packed K]

theorem image_operation (x : RawOperation K) :
    Packed.image x = memoryBytes 1 x.op.toNat ++ (Packed.image x.lo_key ++
      (Packed.image x.hi_key ++ Packed.image x.result)) := rfl

theorem image_keyValue (x : KeyValue K) :
    Packed.image x = Packed.image x.key ++ Packed.image x.value := rfl

variable [LawfulPacked K]

instance : LawfulPacked (RawOperation K) where
  length_image x := by
    rw [image_operation]
    simp only [List.length_append, length_memoryBytes, LawfulPacked.length_image]
    change 1 + (Packed.sizeof K + (Packed.sizeof K + 8)) = 1 + Packed.sizeof K + Packed.sizeof K + 8
    omega
  ofImage_image x := by
    have hop : x.op.toNat < 256 ^ 1 := x.op.toNat_lt
    have hlo := LawfulPacked.length_image x.lo_key
    have hhi := LawfulPacked.length_image x.hi_key
    have hresult : (Packed.image x.result).length = 8 := LawfulPacked.length_image x.result
    -- Each field is cut out of the image at the sum of the widths in front of it.
    have h₀ : (Packed.image x).take 1 = memoryBytes 1 x.op.toNat :=
      List.take_left' (length_memoryBytes 1 _)
    have h₁ : (Packed.image x).drop 1 =
        Packed.image x.lo_key ++ (Packed.image x.hi_key ++ Packed.image x.result) :=
      List.drop_left' (length_memoryBytes 1 _)
    have h₂ : (Packed.image x).drop (1 + Packed.sizeof K) =
        Packed.image x.hi_key ++ Packed.image x.result := by
      rw [← List.drop_drop, h₁, List.drop_left' hlo]
    have h₃ : (Packed.image x).drop (1 + Packed.sizeof K + Packed.sizeof K) =
        Packed.image x.result := by
      rw [← List.drop_drop, h₂, List.drop_left' hhi]
    change RawOperation.mk (UInt8.ofNat (ofMemoryBytes ((Packed.image x).take 1)))
      (Packed.ofImage (((Packed.image x).drop 1).take (Packed.sizeof K)))
      (Packed.ofImage (((Packed.image x).drop (1 + Packed.sizeof K)).take (Packed.sizeof K)))
      (Packed.ofImage (((Packed.image x).drop (1 + Packed.sizeof K + Packed.sizeof K)).take 8)) = x
    rw [h₀, h₁, h₂, h₃, List.take_left' hlo, List.take_left' hhi, List.take_of_length_le hresult.le,
      ofMemoryBytes_memoryBytes, Nat.mod_eq_of_lt hop, UInt8.ofNat_toNat,
      LawfulPacked.ofImage_image, LawfulPacked.ofImage_image, LawfulPacked.ofImage_image]

instance : LawfulPacked (KeyValue K) where
  length_image x := by
    rw [image_keyValue, List.length_append, LawfulPacked.length_image, LawfulPacked.length_image]
    rfl
  ofImage_image x := by
    have hkey := LawfulPacked.length_image x.key
    have hvalue : (Packed.image x.value).length = 8 := LawfulPacked.length_image x.value
    change KeyValue.mk (Packed.ofImage ((Packed.image x).take (Packed.sizeof K)))
      (Packed.ofImage (((Packed.image x).drop (Packed.sizeof K)).take 8)) = x
    rw [image_keyValue, List.take_left' hkey, List.drop_left' hkey,
      List.take_of_length_le hvalue.le, LawfulPacked.ofImage_image, LawfulPacked.ofImage_image]

end Records

/-! ## Round trips -/

theorem reads_unsigned {width n : Nat} (h : n < 256 ^ width) :
    Reads (readUnsigned width) (writeUnsigned width n) n := by
  have hread := Reads.readBytes (memoryBytes width n)
  rw [length_memoryBytes] at hread
  exact hread.map (by rw [ofMemoryBytes_memoryBytes, Nat.mod_eq_of_lt h])

theorem reads_string {str : List UInt8} (h : str.length < 2 ^ 32) :
    Reads readString (writeString str) str := by
  have hlen : (UInt32.ofNat str.length).toNat = str.length := UInt32.toNat_ofNat_of_lt' h
  rw [writeString, hlen, List.take_length]
  exact (reads_unsigned h).bind (Reads.readBytes str)

theorem reads_operation {x : RawOperation (List UInt8)}
    (h : x.lo_key.length < 2 ^ 32 ∧ x.hi_key.length < 2 ^ 32) :
    Reads readOperation (writeOperation x) x := by
  have hop : x.op.toNat < 256 ^ 1 := x.op.toNat_lt
  exact (reads_unsigned hop).bind ((reads_unsigned x.result.toNat_lt).bind
    ((reads_string h.1).bind ((reads_string h.2).map (by simp))))

theorem reads_keyValue {x : KeyValue (List UInt8)} (h : x.key.length < 2 ^ 32) :
    Reads readKeyValue (writeKeyValue x) x :=
  (reads_unsigned x.value.toNat_lt).bind ((reads_string h).map (by simp))

theorem reads_block {T : Type} [Packed T] [LawfulPacked T] (xs : List T) :
    Reads (readBlock T xs.length) (writeBlock xs) xs := by
  have hread := Reads.readBytes (writeBlock xs)
  have hlen : (writeBlock xs).length = xs.length * Packed.sizeof T :=
    length_flatMap_of_width LawfulPacked.length_image xs
  rw [hlen] at hread
  refine hread.map (List.ext_getElem (by simp) fun i hi hi' => ?_)
  rw [List.getElem_map, List.getElem_range, writeBlock,
    block_flatMap LawfulPacked.length_image xs i hi', LawfulPacked.ofImage_image]

theorem reads_many {T : Type} {p : Reader T} {encode : T → List UInt8} {xs : List T}
    (h : ∀ x ∈ xs, Reads p (encode x) x) :
    Reads (readMany p xs.length) (xs.flatMap encode) xs := by
  have hmany := @Reads.readMany T T p encode id xs h
  rwa [List.map_id] at hmany

/-- Every string of the element is shorter than `2^32` bytes. -/
def ElementType.Short : (t : ElementType) → t.Element → Prop
  | .key .STRING, str => List.length (α := UInt8) str < 2 ^ 32
  | .operation .STRING, x =>
      List.length (α := UInt8) x.lo_key < 2 ^ 32 ∧ List.length (α := UInt8) x.hi_key < 2 ^ 32
  | .keyValue .STRING, x => List.length (α := UInt8) x.key < 2 ^ 32
  | _, _ => True

theorem reads_elements (t : ElementType) {xs : List t.Element} (h : ∀ x ∈ xs, t.Short x) :
    Reads (in_elements t xs.length) (out_elements t xs) xs := by
  match t with
  | .key .STRING => exact reads_many fun x hx => reads_string (h x hx)
  | .operation .STRING => exact reads_many fun x hx => reads_operation (h x hx)
  | .keyValue .STRING => exact reads_many fun x hx => reads_keyValue (h x hx)
  | .key .UINT32 => exact reads_block (T := UInt32) xs
  | .key .UINT64 => exact reads_block (T := UInt64) xs
  | .operation .UINT32 => exact reads_block (T := RawOperation UInt32) xs
  | .operation .UINT64 => exact reads_block (T := RawOperation UInt64) xs
  | .keyValue .UINT32 => exact reads_block (T := KeyValue UInt32) xs
  | .keyValue .UINT64 => exact reads_block (T := KeyValue UInt64) xs

theorem reads_data (t : ElementType) {xs : Vector t.Element} (h : ∀ x ∈ xs.1, t.Short x) :
    Reads (in_data t) (out_data t xs) xs.1 :=
  (reads_unsigned xs.2).bind (reads_elements t h)

theorem reads_multithread (t : ElementType) {xss : Vector (Vector t.Element)}
    (h : ∀ xs ∈ xss.1, ∀ x ∈ xs.1, t.Short x) :
    Reads (load_data_multithread t) (write_data_multithread t xss) (xss.1.map Subtype.val) :=
  (reads_unsigned xss.2).bind (Reads.readMany fun xs hxs => reads_data t (h xs hxs))

/-- Whatever follows in the file, `in_data` returns the elements `out_data` has written and stops
behind them; so a multi-threaded file gives back the vectors of all threads. -/
theorem files_round_trip (t : ElementType) :
    (∀ xs : Vector t.Element, (∀ x ∈ xs.1, t.Short x) → ∀ suffix,
      (in_data t).run (out_data t xs ++ suffix) = some (xs.1, suffix)) ∧
    ∀ xss : Vector (Vector t.Element), (∀ xs ∈ xss.1, ∀ x ∈ xs.1, t.Short x) → ∀ suffix,
      (load_data_multithread t).run (write_data_multithread t xss ++ suffix) =
        some (xss.1.map Subtype.val, suffix) :=
  ⟨fun _ h => reads_data t h, fun _ h => reads_multithread t h⟩

/-- Two threads; the first inserts an empty string and asks for one with a NUL byte. -/
theorem files_round_trip_twoThreads :
    (load_data_multithread (.operation .STRING)).run
      (write_data_multithread (.operation .STRING)
        ⟨[⟨[⟨2, [], [], 7⟩, ⟨0, [97, 0, 98], [], 0⟩], by decide⟩, ⟨[], by decide⟩], by decide⟩ ++
          [255]) =
      some ([[⟨2, [], [], 7⟩, ⟨0, [97, 0, 98], [], 0⟩], []], [255]) :=
  (files_round_trip (.operation .STRING)).2 _ (by simp only [ElementType.Short]; decide) [255]

end FileFormat
end TLI
