import ByteIndex.Boundary.Argument
import ByteIndex.Catalog.Basic
import ByteIndex.Status
/-!
# Calls at the boundary

A call checks its key and then its places in the order of its arguments before it consults the
catalog. It answers with a status; what it found goes to the places, which are written on success
only. The two cursor steps blank their record first, so that no earlier record outlives a failure.
Every rejected call is reported once.
-/
namespace ByteIndex.Boundary

inductive Call where
  | create
  | createLimited (limit : Nat) (map : Place)
  | destroy (map : Handle)
  | put (map : Handle) (key : KeyArgument) (value : UInt64) (oldValue existed : Place)
  | set (map : Handle) (key : KeyArgument) (value : UInt64)
  | erase (map : Handle) (key : KeyArgument)
  | get (map : Handle) (key : KeyArgument) (value found : Place)
  | seek (map : Handle) (key : KeyArgument) (cursor : Place)
  | seekFirst (map : Handle) (cursor : Place)
  | next (map cursor : Handle) (record : Place)
  | prev (map cursor : Handle) (record : Place)
  | destroyCursor (cursor : Handle)

/-- What a call returns: a new handle from the plain creation, a status from all else. -/
inductive Returned where
  | handle (handle : Handle)
  | status (status : Status)
deriving DecidableEq

structure Outcome where
  returned : Returned
  catalog : Catalog
  events : List Event
  /-- The answers in the order in which they are written. -/
  writes : List Write

variable {α : Type}

/-- Report a reply under the name of a call by its status, and write its answer if there is one. -/
def report (call : String) (reply : Reply α) (writes : α → List Write) : Outcome :=
  match reply.result with
  | .ok value => ⟨.status .ok, reply.catalog, reply.events, writes value⟩
  | .error error =>
    ⟨.status error.status, reply.catalog, reply.events ++ [.callRejected call error], []⟩

/-- Reject a call for its arguments. -/
def reject (call : String) (catalog : Catalog) (error : Error) : Outcome :=
  report call (catalog.refuse error : Reply Unit) fun () => []

/-- Move a cursor in a direction and write the entry that it stood on. -/
def step (call : String) (direction : Direction) (map cursor : Handle) (record : Place)
    (catalog : Catalog) : Outcome :=
  match requireAll [("out_record", record)] with
  | .error error => reject call catalog error
  | .ok () =>
    let outcome := report call (catalog.advance map cursor direction) fun entry =>
      [.record (.ofFound entry)]
    { outcome with writes := .record .blank :: outcome.writes }

def Call.perform (call : Call) (catalog : Catalog) : Outcome :=
  match call with
  | .create =>
    let reply := catalog.createMap .unbounded
    match reply.result with
    | .ok handle => ⟨.handle handle, reply.catalog, reply.events, []⟩
    | .error error =>
      ⟨.handle .null, reply.catalog, reply.events ++ [.callRejected "create" error], []⟩
  | .createLimited limit map =>
    match requireAll [("out_map", map)] with
    | .error error => reject "create_with_max_key_len" catalog error
    | .ok () =>
      report "create_with_max_key_len" (catalog.createMap ⟨limit⟩) fun handle => [.map handle]
  | .destroy map => report "destroy" (catalog.destroyMap map) fun () => []
  | .put map key value oldValue existed =>
    match readWith [("old_value", oldValue), ("existed", existed)] key with
    | .error error => reject "put_new_and_get_old" catalog error
    | .ok key =>
      report "put_new_and_get_old" (catalog.put map key value) fun (old, present) =>
        [.oldValue old, .existed present]
  | .set map key value =>
    match key.read with
    | .error error => reject "set" catalog error
    | .ok key => report "set" (catalog.set map key value) fun () => []
  | .erase map key =>
    match key.read with
    | .error error => reject "erase" catalog error
    | .ok key => report "erase" (catalog.erase map key) fun () => []
  | .get map key value found =>
    match readWith [("value", value), ("found", found)] key with
    | .error error => reject "get" catalog error
    | .ok key =>
      report "get" (catalog.get map key) fun answer =>
        [.value (answer.getD 0), .found answer.isSome]
  | .seek map key cursor =>
    match readWith [("out_cursor", cursor)] key with
    | .error error => reject "seek" catalog error
    | .ok key => report "seek" (catalog.seek map key) fun handle => [.cursor handle]
  | .seekFirst map cursor =>
    match requireAll [("out_cursor", cursor)] with
    | .error error => reject "seek_first" catalog error
    | .ok () => report "seek_first" (catalog.seekFirst map) fun handle => [.cursor handle]
  | .next map cursor record => step "cursor_next" .forward map cursor record catalog
  | .prev map cursor record => step "cursor_prev" .backward map cursor record catalog
  | .destroyCursor cursor => report "cursor_destroy" (catalog.destroyCursor cursor) fun () => []

/-! ## Sessions

A session performs calls in order, each on the catalog that the one before left, and goes on after a
rejected one. -/

/-- The outcomes of calls, each performed on what the one before left. -/
def outcomes (catalog : Catalog) : List Call → List Outcome
  | [] => []
  | call :: rest =>
    let outcome := call.perform catalog
    outcome :: outcomes outcome.catalog rest

/-- The catalog that a session leaves. -/
def session (catalog : Catalog) (calls : List Call) : Catalog :=
  calls.foldl (fun catalog call => (call.perform catalog).catalog) catalog

theorem session_cons (catalog : Catalog) (call : Call) (rest : List Call) :
    session catalog (call :: rest) = session (call.perform catalog).catalog rest := rfl

end ByteIndex.Boundary
