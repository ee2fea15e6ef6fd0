/-!
# Byte strings

A byte string is a list of bytes and is ordered as one: the first byte that differs decides, and a
proper beginning of a string precedes it. A number of fixed width is written most significant byte
first, so that numbers of one width and their byte strings are in the same order.
-/
namespace ByteIndex

abbrev Bytes := List UInt8

namespace Bytes

/-- The low `width` base-256 digits of a number, most significant first. -/
def bigEndian : Nat → Nat → Bytes
  | 0, _ => []
  | width + 1, n => UInt8.ofNat (n >>> (8 * width)) :: bigEndian width n

/-- The number whose base-256 digits are the given bytes, most significant first. -/
def toNat (bytes : Bytes) : Nat :=
  bytes.foldl (fun n byte => 256 * n + byte.toNat) 0

/-- One piece of what a hasher is fed: how many bytes are to come, or the bytes. -/
inductive HashInput where
  | count (length : Nat)
  | content (bytes : Bytes)
deriving DecidableEq

/-- A byte string is fed to a hasher behind its length, so that it cannot run into what follows. -/
def hashInputs (bytes : Bytes) : List HashInput :=
  [.count bytes.length, .content bytes]

theorem length_bigEndian (width n : Nat) : (bigEndian width n).length = width := by
  induction width with
  | zero => rfl
  | succ width ih => simp [bigEndian, ih]

end Bytes
end ByteIndex
