import ByteIndex.Text
/-!
# Handles

A handle is one 64-bit word that names a resource: the kind of table in the top byte, the generation
of a slot in the next 24 bits and the index of the slot in the low 32 bits. A generation counts from
one, so the word zero is never issued.
-/
namespace ByteIndex

structure Handle where
  raw : UInt64
deriving DecidableEq, Repr

namespace Handle

/-- The word that names nothing. -/
def null : Handle := ⟨0⟩

/-- The last generation that fits its field. -/
def lastGeneration : Nat := 0xFFFFFF

/-- How many indices fit their field. -/
def indexCount : Nat := 0x100000000

def pack (tag : UInt8) (generation index : Nat) : Handle :=
  ⟨tag.toUInt64 <<< 56 ||| UInt64.ofNat generation <<< 32 ||| UInt64.ofNat index⟩

def tag (handle : Handle) : UInt8 :=
  (handle.raw >>> 56).toUInt8

def generation (handle : Handle) : Nat :=
  (handle.raw >>> 32 &&& 0xFFFFFF).toNat

def index (handle : Handle) : Nat :=
  (handle.raw &&& 0xFFFFFFFF).toNat

def describe (handle : Handle) : String :=
  "0x" ++ Text.hex 16 handle.raw.toNat

end Handle
end ByteIndex
