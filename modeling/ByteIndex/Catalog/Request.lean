import ByteIndex.Catalog.Basic
/-!
# Requests

The operations of a catalog as data, and runs of them. A run performs its requests in order and goes
on after a refusal.
-/
namespace ByteIndex

inductive Request where
  | createMap (config : Config)
  | destroyMap (map : Handle)
  | get (map : Handle) (key : Bytes)
  | put (map : Handle) (key : Bytes) (value : UInt64)
  | set (map : Handle) (key : Bytes) (value : UInt64)
  | erase (map : Handle) (key : Bytes)
  | clear (map : Handle)
  | seekFirst (map : Handle)
  | seek (map : Handle) (key : Bytes)
  | advance (map cursor : Handle) (direction : Direction)
  | destroyCursor (cursor : Handle)

inductive Answer where
  | done
  | issued (handle : Handle)
  | value (value : Option UInt64)
  | replaced (old : UInt64) (existed : Bool)
  | entry (entry : Option Entry)

namespace Reply

variable {α β : Type}

/-- The reply with its success read in another way. -/
def map (f : α → β) (reply : Reply α) : Reply β :=
  { reply with result := reply.result.map f }

end Reply

namespace Catalog

def perform (catalog : Catalog) : Request → Reply Answer
  | .createMap config => (catalog.createMap config).map .issued
  | .destroyMap map => (catalog.destroyMap map).map fun () => .done
  | .get map key => (catalog.get map key).map .value
  | .put map key value => (catalog.put map key value).map fun (old, existed) => .replaced old existed
  | .set map key value => (catalog.set map key value).map fun () => .done
  | .erase map key => (catalog.erase map key).map fun () => .done
  | .clear map => (catalog.clear map).map fun () => .done
  | .seekFirst map => (catalog.seekFirst map).map .issued
  | .seek map key => (catalog.seek map key).map .issued
  | .advance map cursor direction => (catalog.advance map cursor direction).map .entry
  | .destroyCursor cursor => (catalog.destroyCursor cursor).map fun () => .done

/-- The replies to a list of requests, each performed on what the one before left. -/
def replies (catalog : Catalog) : List Request → List (Reply Answer)
  | [] => []
  | request :: rest =>
    let reply := catalog.perform request
    reply :: reply.catalog.replies rest

/-- The catalog that a list of requests leaves. -/
def run (catalog : Catalog) (requests : List Request) : Catalog :=
  requests.foldl (fun catalog request => (catalog.perform request).catalog) catalog

theorem run_append (catalog : Catalog) (first second : List Request) :
    catalog.run (first ++ second) = (catalog.run first).run second := by
  simp [run]

end Catalog
end ByteIndex
