import ByteIndex.Key
/-!
# Entry lists

The entries of a map stand in a list in ascending key order. A look-up compares byte strings; an
insertion compares keys, whose order is that of their bytes.
-/
namespace ByteIndex

structure Entry where
  key : Key
  value : UInt64

namespace Entry

def bytes (entry : Entry) : Bytes :=
  entry.key.bytes

def describe (entry : Entry) : String :=
  entry.key.describe ++ ": " ++ Text.decimal entry.value.toNat

end Entry

namespace Entries

/-- The entry of a key. -/
def find? (key : Bytes) (entries : List Entry) : Option Entry :=
  entries.find? (·.bytes == key)

/-- Add an entry at its place; under an equal key only the value changes. -/
def insert (new : Entry) : List Entry → List Entry
  | [] => [new]
  | entry :: rest =>
    match compare new.key entry.key with
    | .lt => new :: entry :: rest
    | .eq => { entry with value := new.value } :: rest
    | .gt => entry :: insert new rest

/-- Give the entry of a key another value and keep its stored key. -/
def overwrite (key : Bytes) (value : UInt64) (entries : List Entry) : List Entry :=
  entries.map fun entry => if entry.bytes == key then { entry with value } else entry

/-- Drop the entry of a key. -/
def remove (key : Bytes) (entries : List Entry) : List Entry :=
  entries.filter (·.bytes != key)

/-- Keys strictly ascending, as byte strings. -/
def Sorted (entries : List Entry) : Prop :=
  entries.Pairwise fun first second => first.bytes < second.bytes

theorem map_bytes_overwrite (key : Bytes) (value : UInt64) (entries : List Entry) :
    (overwrite key value entries).map Entry.bytes = entries.map Entry.bytes := by
  simp only [overwrite, List.map_map, List.map_inj_left, Function.comp_apply]
  intro entry _
  split <;> rfl

theorem sorted_remove (key : Bytes) {entries : List Entry} (h : Sorted entries) :
    Sorted (remove key entries) :=
  h.filter _

end Entries
end ByteIndex
