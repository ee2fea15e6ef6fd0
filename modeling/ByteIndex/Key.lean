import ByteIndex.Text
/-!
# Keys

A key is a byte string. Eight bytes whose first one has a non-zero low bit pair are held as one
word, most significant byte first; every other key owns its bytes. The form of a key never shows in
its order, its equality or its hash, which all follow the content.
-/
namespace ByteIndex

inductive Key where
  | inline (word : UInt64)
  | owned (content : Bytes)

namespace Key

/-- Number of bytes in a key that is held as a word. -/
def wordBytes : Nat := 8

/-- Whether a byte string is held as a word. -/
def fitsWord (bytes : Bytes) : Bool :=
  bytes.length == wordBytes && bytes.head?.any (fun first => first &&& 0b11 != 0)

def ofBytes (bytes : Bytes) : Key :=
  if fitsWord bytes then .inline (UInt64.ofNat (Bytes.toNat bytes)) else .owned bytes

def bytes : Key → Bytes
  | .inline word => Bytes.bigEndian wordBytes word.toNat
  | .owned content => content

/-- A copy in its own storage; owned bytes choose their form anew. -/
def copy : Key → Key
  | .inline word => .inline word
  | .owned content => ofBytes content

/-- A copy in its own storage that keeps its form. -/
def clone : Key → Key
  | .inline word => .inline word
  | .owned content => .owned content

def isInline : Key → Bool
  | .inline _ => true
  | .owned _ => false

def size : Key → Nat
  | .inline _ => wordBytes
  | .owned content => content.length

def isEmpty (key : Key) : Bool :=
  key.size == 0

/-- Bytes held outside the key itself. -/
def ownedBytes : Key → Nat
  | .inline _ => 0
  | .owned content => content.length

/-- The word of all ones, which stands where a key was moved away. -/
def vacated : Key :=
  .inline 0xFFFFFFFFFFFFFFFF

def isVacated : Key → Bool
  | .inline word => word == 0xFFFFFFFFFFFFFFFF
  | .owned _ => false

/-- Move a key away: what was there, and what stays behind. -/
def take (key : Key) : Key × Key :=
  (key, vacated)

/-- Two words compare as numbers, which is the order of their bytes; all else compares by content. -/
instance : Ord Key where
  compare
    | .inline a, .inline b => compare a b
    | a, b => compare a.bytes b.bytes

/-- The order as one that could leave two keys apart; it leaves none apart. -/
def partialCompare (a b : Key) : Option Ordering :=
  some (compare a b)

instance : LT Key := ltOfOrd

instance : LE Key := leOfOrd

instance : DecidableLT Key := fun a b => inferInstanceAs (Decidable (compare a b = .lt))

instance : DecidableLE Key := fun a b => inferInstanceAs (Decidable ((compare a b).isLE = true))

/-- The greater of two keys, and the second of two equal ones. -/
instance : Max Key where
  max a b := if b < a then a else b

instance : BEq Key where
  beq a b := a.bytes == b.bytes

instance : Hashable Key where
  hash key := hash key.bytes

/-- What a key feeds to a hasher. -/
def hashInputs (key : Key) : List Bytes.HashInput :=
  key.bytes.hashInputs

/-- Keys in ascending order; equal keys keep their places. -/
def sort (keys : List Key) : List Key :=
  keys.mergeSort fun a b => decide (a ≤ b)

/-- Keys in ascending order, each content once. -/
def distinct (keys : List Key) : List Key :=
  (sort keys).eraseReps

/-- The form and the content of a key, for a reader. -/
def describe (key : Key) : String :=
  (if key.isInline then "Inline(" else "Owned(") ++ Text.literal key.bytes ++ ")"

theorem size_eq_length_bytes (key : Key) : key.size = key.bytes.length := by
  cases key with
  | inline word => simp [size, bytes, Bytes.length_bigEndian]
  | owned content => rfl

theorem ownedBytes_eq (key : Key) : key.ownedBytes = if key.isInline then 0 else key.size := by
  cases key <;> rfl

theorem isInline_ofBytes (bytes : Bytes) : (ofBytes bytes).isInline = fitsWord bytes := by
  unfold ofBytes
  split <;> simp_all [isInline]

end Key
end ByteIndex
