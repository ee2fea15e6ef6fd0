import ByteIndex.Catalog.Request
import ByteIndex.Proofs.TableLedger
/-!
# What a request does

A request is refused and changes nothing, or it acts on one map or one cursor: the one that it names
or the one that it makes. Everything that holds of all runs rests on this list of effects.
-/
namespace ByteIndex

private theorem SortedMap.put_eq_error {map : SortedMap} {key : Bytes} {value : UInt64}
    {error : Error} (h : map.put key value = .error error) :
    error = .keyTooLong key.length map.config.maxKeyLength := by
  unfold put at h
  split at h
  · cases h
  split at h
  · rename_i hallow
    unfold Config.allow at hallow
    split at hallow <;> cases hallow
    exact (Except.error.inj h).symm
  · cases h

/-- The two kinds of resource that a catalog owns. -/
inductive Kind where
  | map
  | cursor
deriving DecidableEq

/-- The tag of the handles of a kind. -/
def Kind.tag : Kind → UInt8
  | .map => mapTag
  | .cursor => cursorTag

namespace Request

variable {catalog : Catalog} {request : Request} {handle : Handle}

/-- A change to the entries of a map, with what it answers. -/
abbrev Change := SortedMap → Except Error (Answer × SortedMap)

/-- The map whose entries a request changes, and the change. -/
def edit : Request → Option (Handle × Change)
  | .put map key value => some (map, fun stored =>
      (stored.put key value).map fun (old, next) => (.replaced (old.getD 0) old.isSome, next))
  | .set map key value => some (map, fun stored => (stored.set key value).map fun next => (.done, next))
  | .erase map key => some (map, fun stored => .ok (.done, (stored.erase key).2))
  | .clear map => some (map, fun stored => .ok (.done, stored.clear))
  | _ => none

/-- The map on which a request places a new cursor, and the place. -/
def opening : Request → Option (Handle × (SortedMap → Cursor))
  | .seekFirst map => some (map, fun stored => stored.seekFirst)
  | .seek map key => some (map, fun stored => stored.seek key)
  | _ => none

/-- What a request makes of the map under a handle, which only a request given that handle changes. -/
def revise (handle : Handle) (stored : SortedMap) (request : Request) : SortedMap :=
  match request.edit with
  | some (target, change) =>
    if target = handle then ((change stored).toOption.map (·.2)).getD stored else stored
  | none => stored

/-- What a request makes of the cursor under a handle, which only moves on the map of its owner. -/
def carry (handle : Handle) (catalog : Catalog) (owned : OwnedCursor) : Request → OwnedCursor
  | .advance owner cursor direction =>
    if cursor = handle ∧ owner = owned.owner then
      match catalog.map owner with
      | .ok map => { owned with cursor := (owned.cursor.advance map direction).2 }
      | .error _ => owned
    else owned
  | _ => owned

/-- What a request with a given result leaves in the ledger of a kind. -/
def marks (kind : Kind) (request : Request) (result : Except Error Answer) : Ledger :=
  match kind, request, result with
  | .map, .createMap _, .ok (.issued handle) => [.issued handle]
  | .map, .destroyMap handle, .ok _ => [.destroyed handle]
  | .cursor, .seekFirst _, .ok (.issued handle) => [.issued handle]
  | .cursor, .seek _ _, .ok (.issued handle) => [.issued handle]
  | .cursor, .destroyCursor handle, .ok _ => [.destroyed handle]
  | _, _, _ => []

/-- Whether a request looks a handle up among the resources of a kind. An advance comes to its map
only with a live cursor that belongs to it. -/
def LooksUp (catalog : Catalog) (kind : Kind) (handle : Handle) (request : Request) : Prop :=
  match kind, request with
  | .map, .destroyMap map | .map, .get map _ | .map, .put map _ _ | .map, .set map _ _
  | .map, .erase map _ | .map, .clear map | .map, .seekFirst map | .map, .seek map _ => map = handle
  | .map, .advance map cursor _ =>
    map = handle ∧ ∃ owned, catalog.cursors.get cursor = .ok owned ∧ owned.owner = handle
  | .cursor, .advance _ cursor _ | .cursor, .destroyCursor cursor => cursor = handle
  | _, _ => False

private theorem looksUp_target {target : Handle} {change : Change}
    (h : request.edit = some (target, change)) : request.LooksUp catalog .map target := by
  cases request <;> cases h <;> rfl

private theorem looksUp_owner {owner : Handle} {place : SortedMap → Cursor}
    (h : request.opening = some (owner, place)) : request.LooksUp catalog .map owner := by
  cases request <;> cases h <;> rfl

private theorem looksUp_of_edit {target : Handle} {change : Change}
    (hedit : request.edit = some (target, change)) {kind : Kind}
    (hlook : request.LooksUp catalog kind handle) : kind = .map ∧ target = handle := by
  cases kind <;> cases request <;> cases hedit <;> cases hlook <;> exact ⟨rfl, rfl⟩

theorem marks_error (kind : Kind) (request : Request) (error : Error) :
    request.marks kind (.error error) = [] := by
  cases kind <;> cases request <;> rfl

theorem result_of_issued {kind : Kind} {result : Except Error Answer}
    (h : .issued handle ∈ request.marks kind result) : result = .ok (.issued handle) := by
  unfold marks at h
  split at h <;> simp_all

theorem create_of_issued {result : Except Error Answer}
    (h : .issued handle ∈ request.marks .map result) : ∃ config, request = .createMap config := by
  unfold marks at h
  split at h <;> simp_all

theorem opening_of_issued {result : Except Error Answer}
    (h : .issued handle ∈ request.marks .cursor result) :
    ∃ owner place, request.opening = some (owner, place) := by
  unfold marks at h
  split at h <;> simp_all [opening]

theorem marks_of_edit {target : Handle} {change : Change}
    (h : request.edit = some (target, change)) (kind : Kind) (result : Except Error Answer) :
    request.marks kind result = [] := by
  cases kind <;> cases request <;> cases h <;> rfl

theorem answer_of_edit {target : Handle} {change : Change} (h : request.edit = some (target, change))
    {stored next : SortedMap} {answer : Answer} (hchange : change stored = .ok (answer, next))
    (handle : Handle) : answer ≠ .issued handle := by
  rintro rfl
  cases request <;> cases h
  case put key value =>
    dsimp only at hchange
    cases hput : stored.put key value <;> rw [hput] at hchange <;> cases hchange
  case set key value =>
    dsimp only at hchange
    cases hset : stored.set key value <;> rw [hset] at hchange <;> cases hchange
  all_goals cases hchange

theorem error_of_edit {target : Handle} {change : Change} (h : request.edit = some (target, change))
    {stored : SortedMap} {error : Error} (hchange : change stored = .error error) :
    ∃ length limit, error = .keyTooLong length limit := by
  cases request <;> cases h
  case put key value =>
    dsimp only at hchange
    cases hput : stored.put key value <;> rw [hput] at hchange <;> cases hchange
    exact ⟨_, _, SortedMap.put_eq_error hput⟩
  case set key value =>
    dsimp only [SortedMap.set] at hchange
    cases hput : stored.put key value <;> rw [hput] at hchange <;> cases hchange
    exact ⟨_, _, SortedMap.put_eq_error hput⟩
  all_goals cases hchange

theorem marks_of_opening {owner : Handle} {place : SortedMap → Cursor}
    (h : request.opening = some (owner, place)) (handle : Handle) :
    request.marks .map (.ok (.issued handle)) = [] ∧
      request.marks .cursor (.ok (.issued handle)) = [.issued handle] := by
  cases request <;> cases h <;> exact ⟨rfl, rfl⟩

end Request

namespace Catalog

/-- A look-up among the resources of a kind fails. -/
def Refuses (catalog : Catalog) (kind : Kind) (handle : Handle) (error : Error) : Prop :=
  match kind with
  | .map => catalog.maps.get handle = .error error
  | .cursor => catalog.cursors.get handle = .error error

/-- The causes for which a request is refused. -/
inductive Refusal (catalog : Catalog) : Request → Error → Prop where
  | lookUp {request : Request} {kind : Kind} {handle : Handle} {error : Error} :
      request.LooksUp catalog kind handle → catalog.Refuses kind handle error →
      Refusal catalog request error
  | foreign {map cursor : Handle} {direction : Direction} {owned : OwnedCursor} :
      catalog.cursors.get cursor = .ok owned → owned.owner ≠ map →
      Refusal catalog (.advance map cursor direction) (.foreignCursor cursor owned.owner map)
  | configured {config : Config} {error : Error} :
      config.validate = .error error → Refusal catalog (.createMap config) error
  | rejected {request : Request} {target : Handle} {change : Request.Change}
      {stored : SortedMap} {error : Error} :
      request.edit = some (target, change) → catalog.map target = .ok stored →
      change stored = .error error → Refusal catalog request error
  | mapsFull {config : Config} :
      catalog.maps.insert (.emptyWith config) = none →
      Refusal catalog (.createMap config) (.outOfMemory mapSlotBytes)
  | cursorsFull {request : Request} {owner : Handle} {place : SortedMap → Cursor}
      {stored : SortedMap} :
      request.opening = some (owner, place) → catalog.map owner = .ok stored →
      catalog.cursors.insert ⟨owner, place stored⟩ = none →
      Refusal catalog request (.outOfMemory cursorSlotBytes)

/-- What a catalog makes of a request, with its reply. -/
inductive Effect (catalog : Catalog) : Request → Reply Answer → Prop where
  | refused {request : Request} {error : Error} :
      Refusal catalog request error → Effect catalog request (catalog.refuse error)
  | read {handle : Handle} {key : Bytes} {stored : SortedMap} :
      catalog.map handle = .ok stored →
      Effect catalog (.get handle key) (catalog.answer (.value (stored.get? key)))
  | created {config : Config} {handle : Handle} {maps : SlotTable mapTag SortedMap} :
      catalog.maps.insert (.emptyWith config) = some (handle, maps) →
      Effect catalog (.createMap config)
        ⟨.ok (.issued handle), { catalog with maps }, [.createdMap handle config.maxKeyLength]⟩
  | dropped {handle : Handle} {stored : SortedMap} {maps : SlotTable mapTag SortedMap} :
      catalog.maps.remove handle = .ok (stored, maps) →
      Effect catalog (.destroyMap handle)
        ⟨.ok .done, { catalog with maps }, [.destroyedMap handle stored.size]⟩
  | edited {request : Request} {target : Handle} {change : Request.Change}
      {stored next : SortedMap} {answer : Answer} :
      request.edit = some (target, change) → catalog.map target = .ok stored →
      change stored = .ok (answer, next) →
      Effect catalog request ((catalog.withMap target next).answer answer)
  | opened {request : Request} {owner : Handle} {place : SortedMap → Cursor} {stored : SortedMap}
      {handle : Handle} {cursors : SlotTable cursorTag OwnedCursor} :
      request.opening = some (owner, place) → catalog.map owner = .ok stored →
      catalog.cursors.insert ⟨owner, place stored⟩ = some (handle, cursors) →
      Effect catalog request
        ⟨.ok (.issued handle), { catalog with cursors },
          [.createdCursor owner handle (place stored).isExhausted]⟩
  | moved {cursor : Handle} {direction : Direction} {owned : OwnedCursor} {stored : SortedMap} :
      catalog.cursors.get cursor = .ok owned → catalog.map owned.owner = .ok stored →
      Effect catalog (.advance owned.owner cursor direction)
        ({ catalog with
            cursors := catalog.cursors.replace cursor.index
              { owned with cursor := (owned.cursor.advance stored direction).2 } }.answer
          (.entry (owned.cursor.advance stored direction).1))
  | closed {handle : Handle} {owned : OwnedCursor} {cursors : SlotTable cursorTag OwnedCursor} :
      catalog.cursors.remove handle = .ok (owned, cursors) →
      Effect catalog (.destroyCursor handle)
        ⟨.ok .done, { catalog with cursors }, [.destroyedCursor handle]⟩

variable {catalog : Catalog} {request : Request} {reply : Reply Answer} {handle : Handle}
  {kind : Kind} {error : Error}

theorem perform_of_edit {target : Handle} {change : Request.Change}
    (h : request.edit = some (target, change)) :
    catalog.perform request =
      match catalog.map target with
      | .error error => catalog.refuse error
      | .ok stored =>
        match change stored with
        | .error error => catalog.refuse error
        | .ok (answer, next) => (catalog.withMap target next).answer answer := by
  cases request <;> cases h
  case put key value =>
    simp only [perform, put]
    cases catalog.map target with
    | error error => rfl
    | ok stored =>
      dsimp only
      cases stored.put key value <;> rfl
  case set key value =>
    simp only [perform, set]
    cases catalog.map target with
    | error error => rfl
    | ok stored =>
      dsimp only
      cases stored.set key value <;> rfl
  case erase key =>
    simp only [perform, erase]
    cases catalog.map target <;> rfl
  case clear =>
    simp only [perform, clear]
    cases catalog.map target <;> rfl

theorem perform_of_opening {owner : Handle} {place : SortedMap → Cursor}
    (h : request.opening = some (owner, place)) :
    catalog.perform request =
      match catalog.map owner with
      | .error error => catalog.refuse error
      | .ok stored => (catalog.addCursor owner (place stored)).map .issued := by
  cases request <;> cases h
  case seekFirst =>
    simp only [perform, seekFirst]
    cases catalog.map owner <;> rfl
  case seek key =>
    simp only [perform, seek]
    cases catalog.map owner <;> rfl

private theorem refused_map (hlook : request.LooksUp catalog .map handle)
    (h : catalog.map handle = .error error) : catalog.Effect request (catalog.refuse error) :=
  .refused (.lookUp hlook h)

private theorem refused_cursor (hlook : request.LooksUp catalog .cursor handle)
    (h : catalog.cursors.get handle = .error error) :
    catalog.Effect request (catalog.refuse error) :=
  .refused (.lookUp hlook h)

private theorem edit_effect {target : Handle} {change : Request.Change}
    (h : request.edit = some (target, change)) :
    catalog.Effect request (catalog.perform request) := by
  rw [perform_of_edit h]
  cases hmap : catalog.map target with
  | error error => exact refused_map (Request.looksUp_target h) hmap
  | ok stored =>
    dsimp only
    cases hchange : change stored with
    | error error => exact .refused (.rejected h hmap hchange)
    | ok changed => exact .edited h hmap hchange

private theorem opening_effect {owner : Handle} {place : SortedMap → Cursor}
    (h : request.opening = some (owner, place)) :
    catalog.Effect request (catalog.perform request) := by
  rw [perform_of_opening h]
  cases hmap : catalog.map owner with
  | error error => exact refused_map (Request.looksUp_owner h) hmap
  | ok stored =>
    simp only [addCursor]
    cases hinsert : catalog.cursors.insert ⟨owner, place stored⟩ with
    | none => exact .refused (.cursorsFull h hmap hinsert)
    | some filled => exact .opened h hmap hinsert

theorem perform_effect (catalog : Catalog) (request : Request) :
    catalog.Effect request (catalog.perform request) := by
  cases request with
  | createMap config =>
    simp only [perform, createMap, SortedMap.create]
    cases hvalid : config.validate with
    | error error => exact .refused (.configured hvalid)
    | ok =>
      dsimp only
      split
      · rename_i hinsert
        exact .refused (.mapsFull hinsert)
      · rename_i hinsert
        exact .created hinsert
  | destroyMap map =>
    simp only [perform, destroyMap]
    split
    · rename_i hremove
      exact refused_map rfl ((SlotTable.remove_eq_error_iff _ _ _).mp hremove)
    · rename_i hremove
      exact .dropped hremove
  | get map key =>
    simp only [perform, get]
    split
    · rename_i hmap
      exact refused_map rfl hmap
    · rename_i hmap
      exact .read hmap
  | put | set | erase | clear => exact edit_effect rfl
  | seekFirst | seek => exact opening_effect rfl
  | advance map cursor direction =>
    simp only [perform, advance]
    split
    · rename_i hcursor
      exact refused_cursor rfl hcursor
    rename_i owned hcursor
    split
    · rename_i howner
      exact .refused (.foreign hcursor howner)
    rename_i howner
    obtain rfl := Classical.not_not.mp howner
    split
    · rename_i hmap
      exact refused_map ⟨rfl, owned, hcursor, rfl⟩ hmap
    · rename_i hmap
      exact .moved hcursor hmap
  | destroyCursor cursor =>
    simp only [perform, destroyCursor]
    split
    · rename_i hremove
      exact refused_cursor rfl ((SlotTable.remove_eq_error_iff _ _ _).mp hremove)
    · rename_i hremove
      exact .closed hremove

theorem result_of_refuses (hlook : request.LooksUp catalog kind handle)
    (h : catalog.Refuses kind handle error) : (catalog.perform request).result = .error error := by
  cases kind with
  | map =>
    have hmap : catalog.map handle = .error error := h
    have hmaps : catalog.maps.remove handle = .error error :=
      (SlotTable.remove_eq_error_iff _ _ _).mpr h
    cases request with
    | createMap | destroyCursor => cases hlook
    | destroyMap | get | put | set | erase | clear | seekFirst | seek =>
      cases hlook
      simp [perform, destroyMap, get, put, set, erase, clear, seekFirst, seek, Reply.map, refuse,
        Except.map, hmap, hmaps]
    | advance map cursor direction =>
      obtain ⟨rfl, owned, hcursor, rfl⟩ := hlook
      simp [perform, advance, Reply.map, refuse, Except.map, hcursor, hmap]
  | cursor =>
    have hcursor : catalog.cursors.get handle = .error error := h
    have hcursors : catalog.cursors.remove handle = .error error :=
      (SlotTable.remove_eq_error_iff _ _ _).mpr h
    cases request <;> cases hlook <;>
      simp [perform, advance, destroyCursor, Reply.map, refuse, Except.map, hcursor, hcursors]

namespace Refusal

private theorem revise_eq (h : catalog.Refusal request error) {stored : SortedMap}
    (hmap : catalog.map handle = .ok stored) : request.revise handle stored = stored := by
  rw [Request.revise]
  rcases hedit : request.edit with _ | ⟨target, change⟩
  · rfl
  dsimp only
  split
  · rename_i heq
    rw [← heq] at hmap
    cases h with
    | lookUp hlook href =>
      obtain ⟨rfl, rfl⟩ := Request.looksUp_of_edit hedit hlook
      have hfail : catalog.map _ = .error _ := href
      rw [hfail] at hmap
      cases hmap
    | rejected hsame hbefore hchange =>
      rw [hedit] at hsame
      cases hsame
      rw [hmap] at hbefore
      cases hbefore
      rw [hchange]
      rfl
    | cursorsFull hopening => cases request <;> cases hopening <;> cases hedit
    | foreign | configured | mapsFull => cases hedit
  · rfl

private theorem carry_eq (h : catalog.Refusal request error) {owned : OwnedCursor}
    (hcursor : catalog.cursors.get handle = .ok owned) :
    request.carry handle catalog owned = owned := by
  cases request with
  | advance map cursor direction =>
    rw [Request.carry]
    split
    · rename_i hgiven
      obtain ⟨rfl, rfl⟩ := hgiven
      cases h with
      | @lookUp _ kind _ _ hlook href =>
        cases kind with
        | map =>
          have hfail : catalog.map _ = .error _ := href
          rw [hlook.1, hfail]
        | cursor =>
          have hfail : catalog.cursors.get _ = .error _ := href
          rw [← (show cursor = _ from hlook), hcursor] at hfail
          cases hfail
      | foreign hheld howner =>
        rw [hcursor] at hheld
        cases hheld
        exact absurd rfl howner
      | rejected hedit => cases hedit
      | cursorsFull hopening => cases hopening
    · rfl
  | _ => rfl

end Refusal

/-- A request answers with a new handle only after it stored a new map or a new cursor. -/
theorem stored_of_issued (h : (catalog.perform request).result = .ok (.issued handle)) :
    (∃ config maps, request = .createMap config ∧
      catalog.maps.insert (.emptyWith config) = some (handle, maps) ∧
      (catalog.perform request).catalog = { catalog with maps }) ∨
    ∃ owner place stored cursors, request.opening = some (owner, place) ∧
      catalog.map owner = .ok stored ∧
      catalog.cursors.insert ⟨owner, place stored⟩ = some (handle, cursors) ∧
      (catalog.perform request).catalog = { catalog with cursors } := by
  have heffect := catalog.perform_effect request
  generalize catalog.perform request = reply at h heffect
  cases heffect with
  | refused | read | dropped | moved | closed => cases h
  | created hinsert =>
    cases h
    exact .inl ⟨_, _, rfl, hinsert, rfl⟩
  | edited hedit _ hchange =>
    cases h
    exact absurd rfl (Request.answer_of_edit hedit hchange handle)
  | opened hopening hmap hinsert =>
    cases h
    exact .inr ⟨_, _, _, _, hopening, hmap, hinsert, rfl⟩

theorem refuses_of_stale (h : (catalog.perform request).result = .error (.staleHandle handle)) :
    ∃ kind, request.LooksUp catalog kind handle ∧
      catalog.Refuses kind handle (.staleHandle handle) := by
  have heffect := catalog.perform_effect request
  generalize catalog.perform request = reply at h heffect
  cases heffect with
  | refused hrefusal =>
    cases h
    cases hrefusal with
    | @lookUp _ kind other _ hlook href =>
      have heq : other = handle := by
        cases kind with
        | map =>
          have hget := SlotTable.get_eq_error href
          simpa [eq_comm] using hget
        | cursor =>
          have hget := SlotTable.get_eq_error href
          simpa [eq_comm] using hget
      rw [heq] at hlook href
      exact ⟨kind, hlook, href⟩
    | configured hvalid =>
      unfold Config.validate at hvalid
      split at hvalid <;> cases hvalid
    | rejected hedit _ hchange =>
      obtain ⟨length, limit, herror⟩ := Request.error_of_edit hedit hchange
      cases herror
  | read | created | dropped | edited | opened | moved | closed => cases h

/-- A request that fails is refused: nothing changes and nothing is reported. -/
theorem perform_of_error (h : (catalog.perform request).result = .error error) :
    catalog.perform request = catalog.refuse error := by
  have heffect := catalog.perform_effect request
  generalize catalog.perform request = reply at h heffect
  cases heffect with
  | refused =>
    cases h
    rfl
  | read | created | dropped | edited | opened | moved | closed => cases h

theorem level_of_perform {event : Event} (h : event ∈ (catalog.perform request).events) :
    event.level = .debug ∨ event.level = .trace := by
  have heffect := catalog.perform_effect request
  generalize catalog.perform request = reply at h heffect
  cases heffect with
  | refused | read | edited | moved => cases h
  | created | dropped =>
    rw [List.mem_singleton.mp h]
    exact .inl rfl
  | opened | closed =>
    rw [List.mem_singleton.mp h]
    exact .inr rfl

namespace Effect

theorem maps_step (h : catalog.Effect request reply) :
    catalog.maps.Step (request.marks .map reply.result) reply.catalog.maps := by
  cases h with
  | refused =>
    rw [show (catalog.refuse _ : Reply Answer).result = .error _ from rfl, Request.marks_error]
    exact .keep
  | read => exact .keep
  | created hinsert => exact .insert hinsert
  | dropped hremove => exact .remove hremove
  | edited hedit hmap =>
    rw [Request.marks_of_edit hedit]
    exact .replace _ hmap
  | opened hopening =>
    rw [(Request.marks_of_opening hopening _).1]
    exact .keep
  | moved => exact .keep
  | closed => exact .keep

theorem cursors_step (h : catalog.Effect request reply) :
    catalog.cursors.Step (request.marks .cursor reply.result) reply.catalog.cursors := by
  cases h with
  | refused =>
    rw [show (catalog.refuse _ : Reply Answer).result = .error _ from rfl, Request.marks_error]
    exact .keep
  | read => exact .keep
  | created => exact .keep
  | dropped => exact .keep
  | edited hedit =>
    rw [Request.marks_of_edit hedit]
    exact .keep
  | opened hopening _ hinsert =>
    rw [(Request.marks_of_opening hopening _).2]
    exact .insert hinsert
  | moved hcursor => exact .replace _ hcursor
  | closed hremove => exact .remove hremove

/-- A map that a request does not destroy is afterwards what the request makes of it. -/
theorem map_eq (h : catalog.Effect request reply) (hw : catalog.maps.WellFormed)
    {stored : SortedMap} (hmap : catalog.map handle = .ok stored)
    (hkept : .destroyed handle ∉ request.marks .map reply.result) :
    reply.catalog.map handle = .ok (request.revise handle stored) := by
  cases h with
  | refused hrefusal =>
    rw [hrefusal.revise_eq hmap]
    exact hmap
  | read => exact hmap
  | created hinsert =>
    exact SlotTable.get_filled_of_get hw (SlotTable.filled_of_insert hw hinsert) hmap
  | dropped hremove =>
    obtain ⟨hget, hempty⟩ := SlotTable.emptied_of_remove hremove
    refine (SlotTable.get_emptied_eq_ok_iff hget hempty).mpr ⟨?_, hmap⟩
    rintro rfl
    exact hkept List.mem_cons_self
  | @edited _ target change before next _ hedit htarget hchange =>
    change (catalog.maps.replace target.index next).get handle = _
    rw [SlotTable.get_replace htarget, Request.revise, hedit]
    dsimp only
    by_cases heq : handle = target
    · rw [if_pos heq, if_pos heq.symm]
      rw [heq, htarget] at hmap
      cases hmap
      rw [hchange]
      rfl
    · rw [if_neg heq, if_neg (Ne.symm heq)]
      exact hmap
  | opened hopening =>
    cases request <;> cases hopening <;> exact hmap
  | moved => exact hmap
  | closed => exact hmap

theorem cursor_eq (h : catalog.Effect request reply) (hw : catalog.cursors.WellFormed)
    {owned : OwnedCursor} (hcursor : catalog.cursors.get handle = .ok owned)
    (hkept : .destroyed handle ∉ request.marks .cursor reply.result) :
    reply.catalog.cursors.get handle = .ok (request.carry handle catalog owned) := by
  cases h with
  | refused hrefusal =>
    rw [hrefusal.carry_eq hcursor]
    exact hcursor
  | read => exact hcursor
  | created => exact hcursor
  | dropped => exact hcursor
  | edited hedit =>
    cases request <;> cases hedit <;> exact hcursor
  | opened hopening _ hinsert =>
    have hnext :=
      SlotTable.get_filled_of_get hw (SlotTable.filled_of_insert hw hinsert) hcursor
    cases request <;> cases hopening <;> exact hnext
  | @moved cursor direction before stored htarget hmap =>
    change (catalog.cursors.replace cursor.index _).get handle = _
    rw [SlotTable.get_replace htarget, Request.carry]
    by_cases heq : handle = cursor
    · rw [heq, htarget] at hcursor
      cases hcursor
      rw [if_pos heq, if_pos ⟨heq.symm, rfl⟩, hmap]
    · rw [if_neg heq, if_neg (fun hgiven => heq hgiven.1.symm)]
      exact hcursor
  | closed hremove =>
    obtain ⟨hget, hempty⟩ := SlotTable.emptied_of_remove hremove
    refine (SlotTable.get_emptied_eq_ok_iff hget hempty).mpr ⟨?_, hcursor⟩
    rintro rfl
    exact hkept List.mem_cons_self

end Effect

end Catalog
end ByteIndex
