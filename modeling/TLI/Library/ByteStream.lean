import Mathlib.Data.List.Basic
import Mathlib.Data.Nat.Notation

/-!
# ByteStream — reading values back from a stream of bytes

A reader takes a value off the front of a byte list and leaves the rest.  `Reads p bytes a` says
that the reader `p`, started in front of `bytes`, returns `a` and stops right behind them, whatever
follows.  Such facts compose along the reader's structure, so a decoder is verified against its
encoder step by step.
-/

namespace TLI
namespace ByteStream

variable {α β : Type}

abbrev Reader (α : Type) : Type :=
  StateT (List UInt8) Option α

/-- `in.read(buffer, n)`: fails when fewer than `n` bytes are left. -/
def readBytes (n : Nat) : Reader (List UInt8) := fun stream =>
  if n ≤ stream.length then some (stream.take n, stream.drop n) else none

/-- `n` values, one after the other. -/
def readMany (p : Reader α) : Nat → Reader (List α)
  | 0 => pure []
  | n + 1 => do
      let x ← p
      let xs ← readMany p n
      return x :: xs

def Reads (p : Reader α) (bytes : List UInt8) (a : α) : Prop :=
  ∀ rest, p.run (bytes ++ rest) = some (a, rest)

namespace Reads

theorem pure (a : α) : Reads (Pure.pure a) [] a :=
  fun _ => rfl

theorem bind {p : Reader α} {f : α → Reader β} {bytes bytes' : List UInt8} {a : α} {b : β}
    (hp : Reads p bytes a) (hf : Reads (f a) bytes' b) : Reads (p >>= f) (bytes ++ bytes') b := by
  intro rest
  rw [StateT.run_bind, List.append_assoc, hp (bytes' ++ rest)]
  exact hf rest

/-- A last step that only computes. -/
theorem map {p : Reader α} {f : α → β} {bytes : List UInt8} {a : α} {b : β}
    (hp : Reads p bytes a) (hf : f a = b) :
    Reads (p >>= fun a => Pure.pure (f a)) bytes b := by
  have h : Reads (p >>= fun a => Pure.pure (f a)) (bytes ++ []) b :=
    hp.bind (f := fun a => Pure.pure (f a)) (hf ▸ pure (f a))
  rwa [List.append_nil] at h

theorem readBytes (bytes : List UInt8) : Reads (readBytes bytes.length) bytes bytes := by
  intro rest
  change ByteStream.readBytes bytes.length (bytes ++ rest) = _
  simp [ByteStream.readBytes]

/-- A run of values is read back if each of them is. -/
theorem readMany {γ : Type} {p : Reader α} {encode : γ → List UInt8} {value : γ → α} :
    ∀ {xs : List γ}, (∀ x ∈ xs, Reads p (encode x) (value x)) →
      Reads (readMany p xs.length) (xs.flatMap encode) (xs.map value) := by
  intro xs
  induction xs with
  | nil => exact fun _ => pure []
  | cons x xs ih =>
      intro h
      have hrest := ih fun y hy => h y (List.mem_cons_of_mem x hy)
      rw [List.flatMap_cons]
      exact (h x List.mem_cons_self).bind (hrest.map rfl)

end Reads

/-! ## Blocks of equal width -/

/-- The block with index `i` among blocks of `width` bytes. -/
def block (width : Nat) (bytes : List UInt8) (i : Nat) : List UInt8 :=
  (bytes.drop (i * width)).take width

theorem block_flatMap {encode : α → List UInt8} {width : Nat}
    (hwidth : ∀ x, (encode x).length = width) :
    ∀ (xs : List α) (i : Nat) (hi : i < xs.length),
      block width (xs.flatMap encode) i = encode xs[i] := by
  intro xs
  induction xs with
  | nil => exact fun i hi => absurd hi (Nat.not_lt_zero i)
  | cons x xs ih =>
      intro i hi
      cases i with
      | zero => simp [block, ← hwidth x]
      | succ i =>
          have hrest := ih i (Nat.lt_of_succ_lt_succ hi)
          rw [block] at hrest ⊢
          rw [List.flatMap_cons, Nat.succ_mul, Nat.add_comm, ← List.drop_drop, ← hwidth x,
            List.drop_left, hwidth x, hrest, List.getElem_cons_succ]

theorem length_flatMap_of_width {encode : α → List UInt8} {width : Nat}
    (hwidth : ∀ x, (encode x).length = width) (xs : List α) :
    (xs.flatMap encode).length = xs.length * width := by
  induction xs with
  | nil => simp
  | cons x xs ih => rw [List.flatMap_cons, List.length_append, ih, hwidth, List.length_cons,
      Nat.succ_mul, Nat.add_comm]

end ByteStream
end TLI
