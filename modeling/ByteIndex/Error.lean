import ByteIndex.Handle
/-!
# Errors

The causes for which an operation is refused. An absent key is not among them: look-ups answer it
with a flag. Each cause has a message for people and a description that spells out its data.
-/
namespace ByteIndex

inductive Error where
  /-- The handle names another kind of resource, an unknown slot or a generation yet to come. -/
  | invalidHandle (handle : Handle)
  /-- The slot of the handle stands empty or has passed its generation. -/
  | staleHandle (handle : Handle)
  /-- The cursor was to be moved on a map that it does not belong to. -/
  | foreignCursor (cursor owner given : Handle)
  | keyTooLong (length limit : Nat)
  | outOfMemory (bytes : Nat)
  /-- A required argument was a null pointer. -/
  | nullPointer (argument : String)
  | invalidConfig (reason : String)
deriving DecidableEq

namespace Error

def message : Error → String
  | .invalidHandle handle => "invalid handle " ++ handle.describe
  | .staleHandle handle =>
    "stale handle " ++ handle.describe ++ ": resource was already destroyed"
  | .foreignCursor cursor owner given =>
    "cursor " ++ cursor.describe ++ " belongs to map " ++ owner.describe ++ ", not "
      ++ given.describe
  | .keyTooLong length limit =>
    "key of " ++ Text.decimal length ++ " bytes exceeds limit of " ++ Text.decimal limit
      ++ " bytes"
  | .outOfMemory bytes => "out of memory allocating " ++ Text.decimal bytes ++ " bytes"
  | .nullPointer argument => "null pointer passed for " ++ argument
  | .invalidConfig reason => "invalid configuration: " ++ reason

/-- The name of the cause, without its data. -/
def name : Error → String
  | .invalidHandle _ => "InvalidHandle"
  | .staleHandle _ => "StaleHandle"
  | .foreignCursor .. => "CursorMapMismatch"
  | .keyTooLong .. => "KeyTooLong"
  | .outOfMemory _ => "OutOfMemory"
  | .nullPointer _ => "NullPointer"
  | .invalidConfig _ => "InvalidConfig"

/-- Text between quotes, as it is. -/
private def quoted (text : String) : String :=
  "\"" ++ text ++ "\""

/-- The cause and its data, numbers in base ten. -/
def describe (layout : Text.Layout) (error : Error) : String :=
  match error with
  | .invalidHandle handle | .staleHandle handle =>
    layout.render (.arguments error.name) [Text.decimal handle.raw.toNat]
  | .foreignCursor cursor owner given =>
    layout.render (.fields error.name)
      ["cursor: " ++ Text.decimal cursor.raw.toNat, "owner: " ++ Text.decimal owner.raw.toNat,
        "given: " ++ Text.decimal given.raw.toNat]
  | .keyTooLong length limit =>
    layout.render (.fields error.name)
      ["len: " ++ Text.decimal length, "max: " ++ Text.decimal limit]
  | .outOfMemory bytes =>
    layout.render (.fields error.name) ["bytes: " ++ Text.decimal bytes]
  | .nullPointer text | .invalidConfig text =>
    layout.render (.arguments error.name) [quoted text]

end Error
end ByteIndex
