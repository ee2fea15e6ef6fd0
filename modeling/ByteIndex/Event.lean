import ByteIndex.Error
/-!
# Events

What a catalog and its calls report as they work. An event has a level, a message and named fields.
-/
namespace ByteIndex

inductive Event where
  | createdMap (map : Handle) (maxKeyLength : Nat)
  | destroyedMap (map : Handle) (entries : Nat)
  | createdCursor (map cursor : Handle) (exhausted : Bool)
  | destroyedCursor (cursor : Handle)
  | callRejected (call : String) (error : Error)
deriving DecidableEq

namespace Event

inductive Level where
  | trace
  | debug
  | warn
deriving DecidableEq

def Level.name : Level → String
  | .trace => "TRACE"
  | .debug => "DEBUG"
  | .warn => "WARN"

/-- The value of one field. -/
inductive Field where
  | handle (value : Handle)
  | count (value : Nat)
  | flag (value : Bool)
  | text (value : String)
deriving DecidableEq

def level : Event → Level
  | .createdMap .. | .destroyedMap .. => .debug
  | .createdCursor .. | .destroyedCursor _ => .trace
  | .callRejected .. => .warn

def message : Event → String
  | .createdMap .. => "created map"
  | .destroyedMap .. => "destroyed map"
  | .createdCursor .. => "created cursor"
  | .destroyedCursor _ => "destroyed cursor"
  | .callRejected .. => "tagmap call rejected"

def fields : Event → List (String × Field)
  | .createdMap map limit => [("map", .handle map), ("max_key_len", .count limit)]
  | .destroyedMap map entries => [("map", .handle map), ("entries", .count entries)]
  | .createdCursor map cursor exhausted =>
    [("map", .handle map), ("cursor", .handle cursor), ("exhausted", .flag exhausted)]
  | .destroyedCursor cursor => [("cursor", .handle cursor)]
  | .callRejected call error => [("op", .text call), ("error", .text error.message)]

end Event
end ByteIndex
