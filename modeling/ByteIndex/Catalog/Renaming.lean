import ByteIndex.Catalog.Request
/-!
# Renaming handles

Handles are names that a catalog gives out. Two catalogs that were used differently give different
names to what callers use in the same way; renaming compares what they answer. A caller that writes
its requests in advance cannot know the names, so it numbers the handles as it will be issued them.
-/
namespace ByteIndex

/-- The handle that a label stands for: the label n stands for the handle that was issued after n
others, and for nothing until then. -/
def Handle.ofLabel (issued : List Handle) (label : Handle) : Handle :=
  issued.getD label.raw.toNat .null

namespace Request

variable (naming : Handle → Handle)

/-- The handles that a request is given. -/
def handles : Request → List Handle
  | .createMap _ => []
  | .destroyMap map | .get map _ | .put map _ _ | .set map _ _ | .erase map _ | .clear map
  | .seekFirst map | .seek map _ => [map]
  | .advance map cursor _ => [map, cursor]
  | .destroyCursor cursor => [cursor]

def rename : Request → Request
  | .createMap config => .createMap config
  | .destroyMap map => .destroyMap (naming map)
  | .get map key => .get (naming map) key
  | .put map key value => .put (naming map) key value
  | .set map key value => .set (naming map) key value
  | .erase map key => .erase (naming map) key
  | .clear map => .clear (naming map)
  | .seekFirst map => .seekFirst (naming map)
  | .seek map key => .seek (naming map) key
  | .advance map cursor direction => .advance (naming map) (naming cursor) direction
  | .destroyCursor cursor => .destroyCursor (naming cursor)

theorem handles_rename (request : Request) :
    (request.rename naming).handles = request.handles.map naming := by
  cases request <;> rfl

end Request

section

variable (naming : Handle → Handle)

def Answer.rename : Answer → Answer
  | .issued handle => .issued (naming handle)
  | answer => answer

def Error.rename : Error → Error
  | .invalidHandle handle => .invalidHandle (naming handle)
  | .staleHandle handle => .staleHandle (naming handle)
  | .foreignCursor cursor owner given => .foreignCursor (naming cursor) (naming owner) (naming given)
  | error => error

def Event.rename : Event → Event
  | .createdMap map limit => .createdMap (naming map) limit
  | .destroyedMap map entries => .destroyedMap (naming map) entries
  | .createdCursor map cursor exhausted => .createdCursor (naming map) (naming cursor) exhausted
  | .destroyedCursor cursor => .destroyedCursor (naming cursor)
  | .callRejected call error => .callRejected call (error.rename naming)

end

/-- What the caller of a request sees: its result and what it reports, without the catalog. -/
structure Response where
  result : Except Error Answer
  events : List Event

def Response.rename (naming : Handle → Handle) (response : Response) : Response where
  result :=
    match response.result with
    | .ok answer => .ok (answer.rename naming)
    | .error error => .error (error.rename naming)
  events := response.events.map (Event.rename naming)

def Reply.response (reply : Reply Answer) : Response :=
  ⟨reply.result, reply.events⟩

end ByteIndex
