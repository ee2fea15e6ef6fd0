import ByteIndex.Error
/-!
# Status codes

A call answers with a small number: zero for success, and one number for each cause of an error.
-/
namespace ByteIndex

inductive Status where
  | ok
  | invalidHandle
  | staleHandle
  | foreignCursor
  | keyTooLong
  | outOfMemory
  | nullPointer
  | invalidConfig
deriving DecidableEq

namespace Status

def code : Status → Int
  | .ok => 0
  | .invalidHandle => 1
  | .staleHandle => 2
  | .foreignCursor => 3
  | .keyTooLong => 4
  | .outOfMemory => 5
  | .nullPointer => 6
  | .invalidConfig => 7

def all : List Status :=
  [.ok, .invalidHandle, .staleHandle, .foreignCursor, .keyTooLong, .outOfMemory, .nullPointer,
    .invalidConfig]

def ofCode? (code : Int) : Option Status :=
  all.find? (·.code == code)

def message : Status → String
  | .ok => "ok"
  | .invalidHandle => "invalid handle"
  | .staleHandle => "stale handle"
  | .foreignCursor => "cursor belongs to a different map"
  | .keyTooLong => "key too long"
  | .outOfMemory => "out of memory"
  | .nullPointer => "null pointer"
  | .invalidConfig => "invalid configuration"

/-- What a number means as a status, for any number. -/
def messageOfCode (code : Int) : String :=
  match ofCode? code with
  | some status => status.message
  | none => "unknown status"

end Status

/-- The status that reports an error. -/
def Error.status : Error → Status
  | .invalidHandle _ => .invalidHandle
  | .staleHandle _ => .staleHandle
  | .foreignCursor .. => .foreignCursor
  | .keyTooLong .. => .keyTooLong
  | .outOfMemory _ => .outOfMemory
  | .nullPointer _ => .nullPointer
  | .invalidConfig _ => .invalidConfig

end ByteIndex
