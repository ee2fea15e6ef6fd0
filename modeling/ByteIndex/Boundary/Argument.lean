import ByteIndex.Cursor
import ByteIndex.Error
/-!
# Arguments and answers at the boundary

Callers outside hand over keys as a pointer with a length and name by pointers where answers go. Any
of these pointers may be null. A null key of length zero is the empty key.
-/
namespace ByteIndex.Boundary

inductive KeyArgument where
  | bytes (content : Bytes)
  | null (length : Nat)

/-- A place for an answer. -/
inductive Place where
  | given
  | null
deriving DecidableEq

def KeyArgument.read : KeyArgument → Except Error Bytes
  | .bytes content => .ok content
  | .null 0 => .ok []
  | .null (_ + 1) => .error (.nullPointer "key")

/-- Refuses the first null place, under the name of its argument. -/
def requireAll : List (String × Place) → Except Error Unit
  | [] => .ok ()
  | (_, .given) :: rest => requireAll rest
  | (argument, .null) :: _ => .error (.nullPointer argument)

/-- The key of a call whose places are all given. -/
def readWith (places : List (String × Place)) (key : KeyArgument) : Except Error Bytes :=
  match key.read with
  | .error error => .error error
  | .ok bytes =>
    match requireAll places with
    | .error error => .error error
    | .ok () => .ok bytes

/-- An entry as callers read it; without an entry all fields are zero. -/
structure Record where
  /-- The key's bytes, or none where the key pointer is null. -/
  key : Option Bytes
  keyLength : Nat
  value : UInt64
  isValid : Bool
deriving DecidableEq

namespace Record

def blank : Record := ⟨none, 0, 0, false⟩

def ofFound : Option Entry → Record
  | some entry => ⟨some entry.bytes, entry.bytes.length, entry.value, true⟩
  | none => blank

end Record

/-- One answer that a call writes to a place. -/
inductive Write where
  | map (handle : Handle)
  | cursor (handle : Handle)
  | oldValue (value : UInt64)
  | existed (flag : Bool)
  | value (value : UInt64)
  | found (flag : Bool)
  | record (record : Record)
deriving DecidableEq

end ByteIndex.Boundary
