import ByteIndex.Boundary.Call
import ByteIndex.Proofs.HandleLifetime
/-!
# Calls and the requests behind them

A call first looks at its pointers, the key before the places. If one is missing, the call is
rejected under its name and the catalog is not consulted. If all are there, the call makes one request
and reports the reply, with one warning if it is an error. A session is therefore a run of requests.
-/
namespace ByteIndex.Boundary

/-- Whether a key argument lacks the bytes that its length promises. -/
def KeyArgument.isMissing : KeyArgument → Bool
  | .bytes _ => false
  | .null length => length != 0

def KeyArgument.content : KeyArgument → Bytes
  | .bytes content => content
  | .null _ => []

def Place.isMissing : Place → Bool
  | .given => false
  | .null => true

def firstMissing (pointers : List (String × Bool)) : Option String :=
  (pointers.find? (·.2)).map (·.1)

/-- The number that stands for the cause of an error. -/
def codeOf : Error → Int
  | .invalidHandle _ => 1
  | .staleHandle _ => 2
  | .foreignCursor .. => 3
  | .keyTooLong .. => 4
  | .outOfMemory _ => 5
  | .nullPointer _ => 6
  | .invalidConfig _ => 7

/-- A returned handle fails by naming nothing, and a status by not being the one for success. -/
def Returned.Fails : Returned → Prop
  | .handle issued => issued = .null
  | .status code => code ≠ .ok

namespace Call

/-- The pointers of a call under their names, the key first and then the places as they are passed,
each with whether it is missing. -/
def pointers : Call → List (String × Bool)
  | .create | .destroy _ | .destroyCursor _ => []
  | .createLimited _ map => [("out_map", map.isMissing)]
  | .put _ key _ oldValue existed =>
    [("key", key.isMissing), ("old_value", oldValue.isMissing), ("existed", existed.isMissing)]
  | .set _ key _ | .erase _ key => [("key", key.isMissing)]
  | .get _ key value found =>
    [("key", key.isMissing), ("value", value.isMissing), ("found", found.isMissing)]
  | .seek _ key cursor => [("key", key.isMissing), ("out_cursor", cursor.isMissing)]
  | .seekFirst _ cursor => [("out_cursor", cursor.isMissing)]
  | .next _ _ record | .prev _ _ record => [("out_record", record.isMissing)]

def missing? (call : Call) : Option String :=
  firstMissing call.pointers

/-- The name under which the log knows a call. -/
def name : Call → String
  | .create => "create"
  | .createLimited .. => "create_with_max_key_len"
  | .destroy _ => "destroy"
  | .put .. => "put_new_and_get_old"
  | .set .. => "set"
  | .erase .. => "erase"
  | .get .. => "get"
  | .seek .. => "seek"
  | .seekFirst .. => "seek_first"
  | .next .. => "cursor_next"
  | .prev .. => "cursor_prev"
  | .destroyCursor _ => "cursor_destroy"

/-- The request that a call makes once its pointers are there. -/
def request : Call → Request
  | .create => .createMap .unbounded
  | .createLimited limit _ => .createMap ⟨limit⟩
  | .destroy map => .destroyMap map
  | .put map key value _ _ => .put map key.content value
  | .set map key value => .set map key.content value
  | .erase map key => .erase map key.content
  | .get map key _ _ => .get map key.content
  | .seek map key _ => .seek map key.content
  | .seekFirst map _ => .seekFirst map
  | .next map cursor _ => .advance map cursor .forward
  | .prev map cursor _ => .advance map cursor .backward
  | .destroyCursor cursor => .destroyCursor cursor

/-- What a call returns for a success: the plain creation hands over the handle itself. -/
def accepted : Call → Answer → Returned
  | .create, .issued handle => .handle handle
  | _, _ => .status .ok

def rejected : Call → Error → Returned
  | .create, _ => .handle .null
  | _, error => .status error.status

/-- The plain creation gives its caller a word, and any other call the number of a status. -/
def Gives (call : Call) (returned : Returned) (number : Int) : Prop :=
  match call with
  | .create => ∃ handle, returned = .handle handle ∧ number = handle.raw.toNat
  | _ => ∃ status, returned = .status status ∧ number = status.code

/-- The number that a call gives for a success: the plain creation gives the word of its handle. -/
def granted : Call → Answer → Int
  | .create, .issued handle => handle.raw.toNat
  | _, _ => 0

/-- The number that a call gives for an error: the plain creation gives the word that names nothing. -/
def refused : Call → Error → Int
  | .create, _ => 0
  | _, error => codeOf error

/-- The error with which a call fails. -/
def error? (call : Call) (catalog : Catalog) : Option Error :=
  match call.missing? with
  | some argument => some (.nullPointer argument)
  | none =>
    match (catalog.perform call.request).result with
    | .ok _ => none
    | .error error => some error

/-- What a call writes before it consults the catalog. -/
def cleared : Call → List Write
  | .next .. | .prev .. => [.record .blank]
  | _ => []

def delivered : Call → Answer → List Write
  | .createLimited .., .issued handle => [.map handle]
  | .put .., .replaced old existed => [.oldValue old, .existed existed]
  | .get .., .value answer => [.value (answer.getD 0), .found answer.isSome]
  | .seek .., .issued handle | .seekFirst .., .issued handle => [.cursor handle]
  | .next .., .entry entry | .prev .., .entry entry => [.record (.ofFound entry)]
  | _, _ => []

/-- The outcome of a call whose pointers are all there. -/
def conclude (call : Call) (reply : Reply Answer) : Outcome :=
  match reply.result with
  | .ok answer =>
    ⟨call.accepted answer, reply.catalog, reply.events, call.cleared ++ call.delivered answer⟩
  | .error error =>
    ⟨call.rejected error, reply.catalog, reply.events ++ [.callRejected call.name error],
      call.cleared⟩

end Call

/-! ## What one call does -/

private theorem requireAll_eq (places : List (String × Place)) :
    requireAll places =
      match firstMissing (places.map fun place => (place.1, place.2.isMissing)) with
      | some argument => .error (.nullPointer argument)
      | none => .ok () := by
  induction places with
  | nil => rfl
  | cons place rest ih =>
    obtain ⟨argument, place⟩ := place
    cases place with
    | given => exact ih
    | null => rfl

private theorem read_eq (key : KeyArgument) :
    key.read =
      match firstMissing [("key", key.isMissing)] with
      | some argument => .error (.nullPointer argument)
      | none => .ok key.content := by
  cases key with
  | bytes content => rfl
  | null length => cases length <;> rfl

private theorem readWith_eq (places : List (String × Place)) (key : KeyArgument) :
    readWith places key =
      match firstMissing
        (("key", key.isMissing) :: places.map fun place => (place.1, place.2.isMissing)) with
      | some argument => .error (.nullPointer argument)
      | none => .ok key.content := by
  rw [readWith, read_eq, requireAll_eq]
  cases hkey : key.isMissing with
  | true => rfl
  | false =>
    have hskip : firstMissing
        (("key", false) :: places.map fun place => (place.1, place.2.isMissing)) =
          firstMissing (places.map fun place => (place.1, place.2.isMissing)) := rfl
    rw [hskip]
    cases firstMissing (places.map fun place => (place.1, place.2.isMissing)) <;> rfl

namespace Call

variable {α : Type} {call : Call} {catalog : Catalog}

private theorem conclude_map (call : Call) (reply : Reply α) (read : α → Answer)
    (haccepted : ∀ value, call.accepted (read value) = .status .ok)
    (hrejected : ∀ error, call.rejected error = .status error.status) :
    call.conclude (reply.map read) =
      let outcome := report call.name reply fun value => call.delivered (read value)
      { outcome with writes := call.cleared ++ outcome.writes } := by
  obtain ⟨result, catalog, events⟩ := reply
  cases result with
  | ok value => simp [report, conclude, Reply.map, Except.map, haccepted]
  | error error => simp [report, conclude, Reply.map, Except.map, hrejected]

private theorem report_eq (call : Call) (reply : Reply α) (read : α → Answer)
    {writes : α → List Write}
    (haccepted : ∀ value, call.accepted (read value) = .status .ok := by intro _; rfl)
    (hrejected : ∀ error, call.rejected error = .status error.status := by intro _; rfl)
    (hcleared : call.cleared = [] := by rfl)
    (hwrites : ∀ value, call.delivered (read value) = writes value := by intro _; rfl) :
    report call.name reply writes = call.conclude (reply.map read) := by
  rw [conclude_map call reply read haccepted hrejected, hcleared, funext hwrites]
  rfl

private theorem step_eq (call : Call) (direction : Direction) (map cursor : Handle) (record : Place)
    (haccepted : ∀ entry, call.accepted (.entry entry) = .status .ok := by intro _; rfl)
    (hrejected : ∀ error, call.rejected error = .status error.status := by intro _; rfl)
    (hcleared : call.cleared = [.record .blank] := by rfl)
    (hwrites : ∀ entry, call.delivered (.entry entry) = [.record (.ofFound entry)] := by
      intro _; rfl) :
    step call.name direction map cursor record catalog =
      match firstMissing [("out_record", record.isMissing)] with
      | some argument =>
        ⟨.status .nullPointer, catalog, [.callRejected call.name (.nullPointer argument)], []⟩
      | none => call.conclude ((catalog.advance map cursor direction).map .entry) := by
  simp only [step, requireAll_eq, List.map_cons, List.map_nil]
  cases firstMissing [("out_record", record.isMissing)] with
  | some argument => rfl
  | none =>
    dsimp only
    rw [conclude_map call _ .entry haccepted hrejected, hcleared, funext hwrites]
    rfl

theorem perform_eq (call : Call) (catalog : Catalog) :
    call.perform catalog =
      match call.missing? with
      | some argument =>
        ⟨.status .nullPointer, catalog, [.callRejected call.name (.nullPointer argument)], []⟩
      | none => call.conclude (catalog.perform call.request) := by
  rw [missing?]
  cases call with
  | create =>
    change _ = conclude .create ((catalog.createMap .unbounded).map .issued)
    rw [perform]
    generalize catalog.createMap .unbounded = reply
    obtain ⟨result, next, events⟩ := reply
    cases result <;> rfl
  | destroy map => exact report_eq (.destroy map) _ _
  | destroyCursor cursor => exact report_eq (.destroyCursor cursor) _ _
  | createLimited limit map =>
    simp only [perform, pointers, requireAll_eq, List.map_cons, List.map_nil]
    cases firstMissing [("out_map", map.isMissing)] with
    | some argument => rfl
    | none => exact report_eq (.createLimited limit map) _ _
  | put map key value oldValue existed =>
    simp only [perform, pointers, readWith_eq, List.map_cons, List.map_nil]
    cases firstMissing [("key", key.isMissing), ("old_value", oldValue.isMissing),
        ("existed", existed.isMissing)] with
    | some argument => rfl
    | none => exact report_eq (.put map key value oldValue existed) _ _
  | set map key value =>
    simp only [perform, pointers, read_eq]
    cases firstMissing [("key", key.isMissing)] with
    | some argument => rfl
    | none => exact report_eq (.set map key value) _ _
  | erase map key =>
    simp only [perform, pointers, read_eq]
    cases firstMissing [("key", key.isMissing)] with
    | some argument => rfl
    | none => exact report_eq (.erase map key) _ _
  | get map key value found =>
    simp only [perform, pointers, readWith_eq, List.map_cons, List.map_nil]
    cases firstMissing [("key", key.isMissing), ("value", value.isMissing),
        ("found", found.isMissing)] with
    | some argument => rfl
    | none => exact report_eq (.get map key value found) _ _
  | seek map key cursor =>
    simp only [perform, pointers, readWith_eq, List.map_cons, List.map_nil]
    cases firstMissing [("key", key.isMissing), ("out_cursor", cursor.isMissing)] with
    | some argument => rfl
    | none => exact report_eq (.seek map key cursor) _ _
  | seekFirst map cursor =>
    simp only [perform, pointers, requireAll_eq, List.map_cons, List.map_nil]
    cases firstMissing [("out_cursor", cursor.isMissing)] with
    | some argument => rfl
    | none => exact report_eq (.seekFirst map cursor) _ _
  | next map cursor record => exact step_eq (.next map cursor record) .forward map cursor record
  | prev map cursor record => exact step_eq (.prev map cursor record) .backward map cursor record

private theorem perform_of_missing {argument : String} (h : call.missing? = some argument)
    (catalog : Catalog) :
    call.perform catalog =
      ⟨.status .nullPointer, catalog, [.callRejected call.name (.nullPointer argument)], []⟩ := by
  rw [perform_eq, h]

theorem perform_of_ok (h : call.missing? = none) {answer : Answer}
    (hresult : (catalog.perform call.request).result = .ok answer) :
    call.perform catalog =
      ⟨call.accepted answer, (catalog.perform call.request).catalog,
        (catalog.perform call.request).events, call.cleared ++ call.delivered answer⟩ := by
  rw [perform_eq, h]
  simp only [conclude, hresult]

private theorem perform_of_error (h : call.missing? = none) {error : Error}
    (hresult : (catalog.perform call.request).result = .error error) :
    call.perform catalog =
      ⟨call.rejected error, catalog, [.callRejected call.name error], call.cleared⟩ := by
  rw [perform_eq, h]
  simp only [conclude, Catalog.perform_of_error hresult, Catalog.refuse, List.nil_append]

/-- The three ways of a call: its pointers are not all there, its request fails, or it succeeds. -/
theorem perform_cases (call : Call) (catalog : Catalog) :
    (∃ argument, call.missing? = some argument ∧
        call.error? catalog = some (.nullPointer argument) ∧ call.perform catalog =
          ⟨.status .nullPointer, catalog, [.callRejected call.name (.nullPointer argument)], []⟩) ∨
      (∃ error, call.missing? = none ∧ (catalog.perform call.request).result = .error error ∧
        call.error? catalog = some error ∧ call.perform catalog =
          ⟨call.rejected error, catalog, [.callRejected call.name error], call.cleared⟩) ∨
      ∃ answer, call.missing? = none ∧ (catalog.perform call.request).result = .ok answer ∧
        call.error? catalog = none ∧ call.perform catalog =
          ⟨call.accepted answer, (catalog.perform call.request).catalog,
            (catalog.perform call.request).events, call.cleared ++ call.delivered answer⟩ := by
  cases hmissing : call.missing? with
  | some argument =>
    exact .inl ⟨argument, rfl, by rw [error?, hmissing], perform_of_missing hmissing catalog⟩
  | none =>
    cases hresult : (catalog.perform call.request).result with
    | error error =>
      refine .inr (.inl ⟨error, rfl, rfl, ?_, perform_of_error hmissing hresult⟩)
      simp only [error?, hmissing, hresult]
    | ok answer =>
      refine .inr (.inr ⟨answer, rfl, rfl, ?_, perform_of_ok hmissing hresult⟩)
      simp only [error?, hmissing, hresult]

private theorem code_status (error : Error) : error.status.code = codeOf error := by
  cases error <;> rfl

private theorem status_ne_ok (error : Error) : error.status ≠ .ok := by
  cases error <;> exact nofun

private theorem gives_accepted {answer : Answer}
    (hresult : (catalog.perform call.request).result = .ok answer) :
    call.Gives (call.accepted answer) (call.granted answer) := by
  cases call with
  | create =>
    rw [request, Catalog.perform, Reply.map] at hresult
    cases hcreated : (catalog.createMap .unbounded).result with
    | error error =>
      rw [hcreated] at hresult
      cases hresult
    | ok handle =>
      rw [hcreated] at hresult
      cases hresult
      exact ⟨handle, rfl, rfl⟩
  | _ => exact ⟨.ok, rfl, rfl⟩

private theorem gives_rejected (call : Call) (error : Error) :
    call.Gives (call.rejected error) (call.refused error) := by
  cases call with
  | create => exact ⟨.null, rfl, rfl⟩
  | _ => exact ⟨error.status, rfl, (code_status error).symm⟩

private theorem gives_of_missing {argument : String} (h : call.missing? = some argument) :
    call.Gives (.status .nullPointer) 6 := by
  cases call with
  | create => cases h
  | _ => exact ⟨.nullPointer, rfl, rfl⟩

theorem fails_rejected (call : Call) (error : Error) : (call.rejected error).Fails := by
  cases call with
  | create => rfl
  | _ => exact status_ne_ok error

theorem not_fails_accepted (hmaps : catalog.maps.WellFormed) (hcursors : catalog.cursors.WellFormed)
    {answer : Answer} (hresult : (catalog.perform call.request).result = .ok answer) :
    ¬ (call.accepted answer).Fails := by
  cases call with
  | create =>
    cases answer with
    | issued handle =>
      have hissued := (Catalog.fresh_of_issued hmaps hcursors hresult).2
      exact Catalog.ne_null_of_issued hissued
    | done | value | replaced | entry => exact fun hfails => hfails rfl
  | _ => exact fun hfails => hfails rfl

theorem perform_of_error? {error : Error} (h : call.error? catalog = some error) :
    (call.perform catalog).returned.Fails ∧ (call.perform catalog).catalog = catalog ∧
      (call.perform catalog).events = [.callRejected call.name error] := by
  rcases call.perform_cases catalog with
    ⟨_, _, herror, hperform⟩ | ⟨_, _, _, herror, hperform⟩ | ⟨_, _, _, herror, _⟩
  · rw [herror] at h
    cases h
    rw [hperform]
    exact ⟨nofun, rfl, rfl⟩
  · rw [herror] at h
    cases h
    rw [hperform]
    exact ⟨fails_rejected call error, rfl, rfl⟩
  · rw [herror] at h
    cases h

theorem perform_of_no_error? (h : call.error? catalog = none) :
    ∃ answer, call.missing? = none ∧ (catalog.perform call.request).result = .ok answer ∧
      call.perform catalog =
        ⟨call.accepted answer, (catalog.perform call.request).catalog,
          (catalog.perform call.request).events, call.cleared ++ call.delivered answer⟩ := by
  rcases call.perform_cases catalog with
    ⟨_, _, herror, _⟩ | ⟨_, _, _, herror, _⟩ | ⟨answer, hmissing, hresult, _, hperform⟩
  · rw [herror] at h
    cases h
  · rw [herror] at h
    cases h
  · exact ⟨answer, hmissing, hresult, hperform⟩

theorem fails_iff (hmaps : catalog.maps.WellFormed) (hcursors : catalog.cursors.WellFormed) :
    (call.perform catalog).returned.Fails ↔ call.error? catalog ≠ none := by
  cases herror : call.error? catalog with
  | some error => exact iff_of_true (perform_of_error? herror).1 nofun
  | none =>
    obtain ⟨answer, _, hresult, hperform⟩ := perform_of_no_error? herror
    rw [hperform]
    exact iff_of_false (not_fails_accepted hmaps hcursors hresult) (not_not_intro rfl)

end Call

/-! ## Sessions -/

/-- The requests that the calls of a session make: a call without its pointers makes none. -/
def requests (calls : List Call) : List Request :=
  calls.filterMap fun call => if call.missing? = none then some call.request else none

theorem catalog_perform (call : Call) (catalog : Catalog) :
    (call.perform catalog).catalog = catalog.run (requests [call]) := by
  cases hmissing : call.missing? with
  | some argument =>
    rw [Call.perform_of_missing hmissing]
    simp [requests, hmissing, Catalog.run]
  | none =>
    rw [Call.perform_eq, hmissing]
    simp only [requests, hmissing, List.filterMap_cons, List.filterMap_nil, if_true, Call.conclude]
    split <;> rfl

theorem session_eq_run (catalog : Catalog) (calls : List Call) :
    session catalog calls = catalog.run (requests calls) := by
  induction calls generalizing catalog with
  | nil => rfl
  | cons call rest ih =>
    have hsplit : requests (call :: rest) = requests [call] ++ requests rest := by
      rw [requests, requests, requests, ← List.filterMap_append]
      rfl
    rw [session_cons, ih, catalog_perform, hsplit, Catalog.run_append]

/-- The warnings among events, as a reader of the log meets them. -/
def warnings (events : List Event) : List (String × List (String × Event.Field)) :=
  (events.filter (·.level == .warn)).map fun event => (event.message, event.fields)

theorem warnings_of_perform (catalog : Catalog) (request : Request) :
    warnings (catalog.perform request).events = [] := by
  have hnone : (catalog.perform request).events.filter (·.level == .warn) = [] := by
    rw [List.filter_eq_nil_iff]
    intro event hmem
    rcases Catalog.level_of_perform hmem with hlevel | hlevel
    · simp [hlevel]
    · simp [hlevel]
  rw [warnings, hnone]
  rfl

theorem Call.warnings_eq (call : Call) (catalog : Catalog) :
    warnings (call.perform catalog).events =
      (call.error? catalog).toList.map fun error =>
        ("tagmap call rejected", [("op", .text call.name), ("error", .text error.message)]) := by
  cases herror : call.error? catalog with
  | some error =>
    rw [(perform_of_error? herror).2.2]
    rfl
  | none =>
    obtain ⟨_, _, _, hperform⟩ := perform_of_no_error? herror
    rw [hperform]
    exact warnings_of_perform catalog call.request

/-- After any session, a call without one of its pointers is rejected for the first of them,
whatever the catalog holds. Every other call makes the step of its request, gives zero or its handle
for a success and the number of the cause for an error, and reports the events of the step. A call
that fails adds one warning under its name, and no other call adds any. -/
theorem call_simulates_request (calls : List Call) (call : Call) :
    let catalog := session .empty calls
    let outcome := call.perform catalog
    let reply := catalog.perform call.request
    catalog = Catalog.empty.run (requests calls) ∧
    (∀ argument, call.missing? = some argument →
      call.Gives outcome.returned 6 ∧ outcome.catalog = catalog ∧
        outcome.events = [.callRejected call.name (.nullPointer argument)]) ∧
    (call.missing? = none →
      outcome.catalog = reply.catalog ∧
      (∀ answer, reply.result = .ok answer →
        call.Gives outcome.returned (call.granted answer) ∧ outcome.events = reply.events) ∧
      ∀ error, reply.result = .error error →
        call.Gives outcome.returned (call.refused error) ∧
          outcome.events = reply.events ++ [.callRejected call.name error]) ∧
    (outcome.returned.Fails ↔ call.error? catalog ≠ none) ∧
    warnings outcome.events = (call.error? catalog).toList.map fun error =>
      ("tagmap call rejected", [("op", .text call.name), ("error", .text error.message)]) := by
  intro catalog outcome reply
  have hrun : catalog = Catalog.empty.run (requests calls) := session_eq_run .empty calls
  have hmaps : catalog.maps.WellFormed := by
    rw [hrun]
    exact (Catalog.accounts_maps _).wellFormed
  have hcursors : catalog.cursors.WellFormed := by
    rw [hrun]
    exact (Catalog.accounts_cursors _).wellFormed
  refine ⟨hrun, ?_, ?_, Call.fails_iff hmaps hcursors, call.warnings_eq catalog⟩
  · intro argument hmissing
    have houtcome : outcome = _ := Call.perform_of_missing hmissing catalog
    rw [houtcome]
    exact ⟨Call.gives_of_missing hmissing, rfl, rfl⟩
  · intro hmissing
    have houtcome : outcome = call.conclude reply := by
      have hperform := call.perform_eq catalog
      rw [hmissing] at hperform
      exact hperform
    rw [houtcome, Call.conclude]
    cases hresult : reply.result with
    | ok answer =>
      refine ⟨rfl, ?_, nofun⟩
      intro _ hsame
      cases hsame
      exact ⟨Call.gives_accepted hresult, rfl⟩
    | error error =>
      refine ⟨rfl, nofun, ?_⟩
      intro _ hsame
      cases hsame
      exact ⟨call.gives_rejected error, rfl⟩

end ByteIndex.Boundary
