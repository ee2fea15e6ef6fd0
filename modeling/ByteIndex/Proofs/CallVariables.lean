import ByteIndex.Proofs.CallSimulation
import ByteIndex.Proofs.MapUpdate
/-!
# Variables behind the places of a call

A call that succeeds writes all of its variables, and what it writes does not depend on what they
held before. A call that fails writes none, but for a step, which has blanked its record by then.
-/
namespace ByteIndex.Boundary

/-- The variables that a caller may pass. A flag is a whole number. -/
structure Variables where
  map : Handle
  cursor : Handle
  oldValue : UInt64
  existed : Int
  value : UInt64
  found : Int
  record : Record

namespace Variables

def store (old : Variables) : Write → Variables
  | .map handle => { old with map := handle }
  | .cursor handle => { old with cursor := handle }
  | .oldValue value => { old with oldValue := value }
  | .existed flag => { old with existed := flag.toInt }
  | .value value => { old with value }
  | .found flag => { old with found := flag.toInt }
  | .record record => { old with record }

/-- The variables once the answers of a call are written. -/
def after (old : Variables) (outcome : Outcome) : Variables :=
  outcome.writes.foldl store old

end Variables

/-- No request of the run has issued the handle, to a map or to a cursor. -/
def Unissued (requests : List Request) (handle : Handle) : Prop :=
  ∀ kind, ¬ (Catalog.empty.ledger kind requests).Issued handle

/-- The entry of a key, or none where no entry has this key. -/
def Holds (entries : List Entry) (key : Bytes) : Option Entry → Prop
  | some entry => entry ∈ entries ∧ entry.bytes = key
  | none => ∀ entry ∈ entries, entry.bytes ≠ key

/-- The entry of the key that a cursor stands on, or none where there is no such key or entry. -/
def Faces (entries : List Entry) (found : Option Entry) : Cursor → Prop
  | .positioned key => Holds entries key.bytes found
  | .exhausted => found = none

/-- The cursor stands on the key of an entry, or is exhausted where there is none. -/
def StandsOn (cursor : Cursor) : Option Entry → Prop
  | some entry => ∃ key, cursor = .positioned key ∧ key.bytes = entry.bytes
  | none => cursor = .exhausted

/-- What a successful call on the catalog that requests lead to puts into its variables. -/
def Call.Delivers (call : Call) (requests : List Request) (outcome : Outcome)
    (old new : Variables) : Prop :=
  let catalog := Catalog.empty.run requests
  match call with
  | .create =>
    ∃ handle, outcome.returned = .handle handle ∧ Unissued requests handle ∧
      outcome.catalog.map handle = .ok (.emptyWith .unbounded) ∧ new = old
  | .createLimited limit _ =>
    ∃ handle, Unissued requests handle ∧
      outcome.catalog.map handle = .ok (.emptyWith ⟨limit⟩) ∧ new = { old with map := handle }
  | .seek map key _ =>
    ∃ handle stored found cursor, Unissued requests handle ∧ catalog.map map = .ok stored ∧
      outcome.catalog.cursors.get handle = .ok ⟨map, cursor⟩ ∧
      Holds stored.entries key.content found ∧ StandsOn cursor found ∧
      new = { old with cursor := handle }
  | .seekFirst map _ =>
    ∃ handle stored cursor, Unissued requests handle ∧ catalog.map map = .ok stored ∧
      outcome.catalog.cursors.get handle = .ok ⟨map, cursor⟩ ∧
      StandsOn cursor stored.entries.head? ∧ new = { old with cursor := handle }
  | .put map key _ _ _ =>
    ∃ stored found, catalog.map map = .ok stored ∧ Holds stored.entries key.content found ∧
      new = { old with
        oldValue := found.elim 0 (·.value)
        existed := found.elim 0 fun _ => 1 }
  | .get map key _ _ =>
    ∃ stored found, catalog.map map = .ok stored ∧ Holds stored.entries key.content found ∧
      new = { old with
        value := found.elim 0 (·.value)
        found := found.elim 0 fun _ => 1 }
  | .next map cursor _ | .prev map cursor _ =>
    ∃ owned stored found, catalog.cursors.get cursor = .ok owned ∧ catalog.map map = .ok stored ∧
      Faces stored.entries found owned.cursor ∧
      new = { old with
        record := found.elim ⟨none, 0, 0, false⟩ fun entry =>
          ⟨some entry.bytes, entry.bytes.length, entry.value, true⟩ }
  | .destroy _ | .set .. | .erase .. | .destroyCursor _ => new = old

variable {requests : List Request} {call : Call} {handle : Handle}

private theorem unissued_of_issued {request : Request}
    (h : ((Catalog.empty.run requests).perform request).result = .ok (.issued handle)) :
    Unissued requests handle := by
  have hmaps := Catalog.accounts_maps requests
  have hcursors := Catalog.accounts_cursors requests
  have hfresh := (Catalog.fresh_of_issued hmaps.wellFormed hcursors.wellFormed h).1
  intro kind hissued
  cases kind with
  | map => exact hfresh (.inl ((hmaps.issued_iff handle).mp hissued))
  | cursor => exact hfresh (.inr ((hcursors.issued_iff handle).mp hissued))

private theorem holds_entry? (stored : SortedMap) (key : Bytes) :
    Holds stored.entries key (stored.entry? key) := by
  rw [SortedMap.entry?]
  cases hfound : Entries.find? key stored.entries with
  | some entry => exact Entries.mem_of_find? hfound
  | none => exact Entries.find?_eq_none_iff.mp hfound

private theorem standsOn_placeOn (found : Option Entry) :
    StandsOn (.placeOn (found.map (·.key))) found := by
  cases found with
  | some entry => exact ⟨_, rfl, Key.bytes_copy entry.key⟩
  | none => rfl

private theorem faces_peek (stored : SortedMap) (cursor : Cursor) :
    Faces stored.entries (cursor.peek stored) cursor := by
  cases cursor with
  | positioned key => exact holds_entry? stored key.bytes
  | exhausted => rfl

/-! ## What an answer tells about the catalog before it -/

section Answers

variable {catalog : Catalog} {map cursor : Handle} {key : Bytes} {answer : Answer}

private theorem answer_of_put {value : UInt64}
    (h : (catalog.perform (.put map key value)).result = .ok answer) :
    ∃ stored found, catalog.map map = .ok stored ∧ Holds stored.entries key found ∧
      answer = .replaced (found.elim 0 (·.value)) found.isSome := by
  simp only [Catalog.perform, Catalog.put, Reply.map] at h
  cases hmap : catalog.map map with
  | error error =>
    rw [hmap] at h
    cases h
  | ok stored =>
    refine ⟨stored, stored.entry? key, rfl, holds_entry? stored key, ?_⟩
    rw [hmap] at h
    dsimp only at h
    cases hput : stored.put key value with
    | error error =>
      rw [hput] at h
      cases h
    | ok changed =>
      obtain ⟨old, next⟩ := changed
      rw [hput] at h
      cases h
      rw [SortedMap.former_put hput, SortedMap.get?]
      cases stored.entry? key <;> rfl

private theorem answer_of_get (h : (catalog.perform (.get map key)).result = .ok answer) :
    ∃ stored found, catalog.map map = .ok stored ∧ Holds stored.entries key found ∧
      answer = .value (found.map (·.value)) := by
  simp only [Catalog.perform, Catalog.get, Reply.map] at h
  cases hmap : catalog.map map with
  | error error =>
    rw [hmap] at h
    cases h
  | ok stored =>
    rw [hmap] at h
    cases h
    exact ⟨stored, stored.entry? key, rfl, holds_entry? stored key, rfl⟩

private theorem answer_of_advance {direction : Direction}
    (h : (catalog.perform (.advance map cursor direction)).result = .ok answer) :
    ∃ owned stored found, catalog.cursors.get cursor = .ok owned ∧
      catalog.map map = .ok stored ∧ Faces stored.entries found owned.cursor ∧
      answer = .entry found := by
  have heffect := catalog.perform_effect (.advance map cursor direction)
  generalize catalog.perform (.advance map cursor direction) = reply at h heffect
  cases heffect with
  | refused => cases h
  | edited hedit => cases hedit
  | opened hopening => cases hopening
  | @moved _ _ owned stored hcursor hmap =>
    cases h
    exact ⟨owned, stored, owned.cursor.peek stored, hcursor, hmap, faces_peek stored owned.cursor,
      by rw [Cursor.advance_fst]⟩

private theorem issued_of_ok {request : Request}
    (hmaker : (∃ config, request = .createMap config) ∨
      ∃ owner place, request.opening = some (owner, place))
    (h : (catalog.perform request).result = .ok answer) : ∃ handle, answer = .issued handle := by
  have heffect := catalog.perform_effect request
  generalize catalog.perform request = reply at h heffect
  cases heffect with
  | refused => cases h
  | created | opened =>
    cases h
    exact ⟨_, rfl⟩
  | edited hedit =>
    rcases hmaker with ⟨config, rfl⟩ | ⟨owner, place, hopening⟩
    · cases hedit
    · cases request <;> cases hopening <;> cases hedit
  | read | dropped | moved | closed =>
    rcases hmaker with ⟨config, hcreate⟩ | ⟨owner, place, hopening⟩
    · cases hcreate
    · cases hopening

end Answers

private theorem created_of_ok {config : Config} {answer : Answer}
    (h : ((Catalog.empty.run requests).perform (.createMap config)).result = .ok answer) :
    ∃ handle, answer = .issued handle ∧ Unissued requests handle ∧
      ((Catalog.empty.run requests).perform (.createMap config)).catalog.map handle =
        .ok (.emptyWith config) := by
  obtain ⟨handle, rfl⟩ := issued_of_ok (.inl ⟨config, rfl⟩) h
  have hmaps := (Catalog.accounts_maps requests).wellFormed
  have hcursors := (Catalog.accounts_cursors requests).wellFormed
  refine ⟨handle, rfl, unissued_of_issued h, ?_⟩
  rcases Catalog.held_of_issued hmaps hcursors h with ⟨_, hsame, _, hmap⟩ | ⟨_, _, _, hopening, _⟩
  · cases hsame
    exact hmap
  · cases hopening

private theorem opened_of_ok {request : Request} {owner : Handle} {place : SortedMap → Cursor}
    (hopening : request.opening = some (owner, place)) {answer : Answer}
    (h : ((Catalog.empty.run requests).perform request).result = .ok answer) :
    ∃ handle stored, answer = .issued handle ∧ Unissued requests handle ∧
      (Catalog.empty.run requests).map owner = .ok stored ∧
      ((Catalog.empty.run requests).perform request).catalog.cursors.get handle =
        .ok ⟨owner, place stored⟩ := by
  obtain ⟨handle, rfl⟩ := issued_of_ok (.inr ⟨owner, place, hopening⟩) h
  have hmaps := (Catalog.accounts_maps requests).wellFormed
  have hcursors := (Catalog.accounts_cursors requests).wellFormed
  rcases Catalog.held_of_issued hmaps hcursors h with
    ⟨_, rfl, _⟩ | ⟨_, _, stored, hsame, hmap, _, hcursor⟩
  · cases hopening
  · rw [hopening] at hsame
    cases hsame
    exact ⟨handle, stored, rfl, unissued_of_issued h, hmap, hcursor⟩

private theorem delivers_of_ok (hmissing : call.missing? = none) {answer : Answer}
    (hresult : ((Catalog.empty.run requests).perform call.request).result = .ok answer)
    (old : Variables) :
    call.Delivers requests (call.perform (Catalog.empty.run requests)) old
      (old.after (call.perform (Catalog.empty.run requests))) := by
  rw [Call.perform_of_ok hmissing hresult]
  cases call with
  | create =>
    obtain ⟨handle, rfl, hnew, hmap⟩ := created_of_ok hresult
    exact ⟨handle, rfl, hnew, hmap, rfl⟩
  | createLimited limit map =>
    obtain ⟨handle, rfl, hnew, hmap⟩ := created_of_ok hresult
    exact ⟨handle, hnew, hmap, rfl⟩
  | seek map key cursor =>
    obtain ⟨handle, stored, rfl, hnew, hmap, hcursor⟩ := opened_of_ok rfl hresult
    exact ⟨handle, stored, stored.entry? key.content, _, hnew, hmap, hcursor,
      holds_entry? stored key.content, standsOn_placeOn _, rfl⟩
  | seekFirst map cursor =>
    obtain ⟨handle, stored, rfl, hnew, hmap, hcursor⟩ := opened_of_ok rfl hresult
    exact ⟨handle, stored, _, hnew, hmap, hcursor, standsOn_placeOn stored.entries.head?, rfl⟩
  | put map key value oldValue existed =>
    obtain ⟨stored, found, hmap, hfound, rfl⟩ := answer_of_put hresult
    refine ⟨stored, found, hmap, hfound, ?_⟩
    cases found <;> rfl
  | get map key value found =>
    obtain ⟨stored, found, hmap, hfound, rfl⟩ := answer_of_get hresult
    refine ⟨stored, found, hmap, hfound, ?_⟩
    cases found <;> rfl
  | next map cursor record | prev map cursor record =>
    obtain ⟨owned, stored, found, hcursor, hmap, hfound, rfl⟩ := answer_of_advance hresult
    refine ⟨owned, stored, found, hcursor, hmap, hfound, ?_⟩
    cases found <;> rfl
  | destroy | set | erase | destroyCursor => rfl

/-- A cursor step that is given a place for its record. -/
def Call.Clears (call : Call) : Prop :=
  ∃ map cursor, call = .next map cursor .given ∨ call = .prev map cursor .given

private theorem Call.missing?_of_clears (h : call.Clears) : call.missing? = none := by
  obtain ⟨map, cursor, rfl | rfl⟩ := h
  · rfl
  · rfl

private theorem Call.cleared_of_clears (h : call.Clears) : call.cleared = [.record .blank] := by
  obtain ⟨map, cursor, rfl | rfl⟩ := h
  · rfl
  · rfl

private theorem Call.cleared_of_not_clears (h : ¬ call.Clears) (hmissing : call.missing? = none) :
    call.cleared = [] := by
  cases call with
  | next map cursor record =>
    cases record with
    | given => exact absurd ⟨map, cursor, .inl rfl⟩ h
    | null => cases hmissing
  | prev map cursor record =>
    cases record with
    | given => exact absurd ⟨map, cursor, .inr rfl⟩ h
    | null => cases hmissing
  | _ => rfl

/-- On every catalog that requests lead to, a call that succeeds leaves in its variables what it was
asked for, and one that fails writes nothing, except that a step with a record leaves it blank. -/
theorem variables_after_call (requests : List Request) (call : Call) (old : Variables) :
    let outcome := call.perform (Catalog.empty.run requests)
    (¬ outcome.returned.Fails → call.Delivers requests outcome old (old.after outcome)) ∧
    (outcome.returned.Fails →
      (call.Clears → old.after outcome = { old with record := ⟨none, 0, 0, false⟩ }) ∧
      (¬ call.Clears → outcome.writes = [])) := by
  intro outcome
  have hmaps := (Catalog.accounts_maps requests).wellFormed
  have hcursors := (Catalog.accounts_cursors requests).wellFormed
  rcases call.perform_cases (Catalog.empty.run requests) with
    ⟨argument, hmissing, _, hperform⟩ | ⟨error, hmissing, _, _, hperform⟩ |
      ⟨answer, hmissing, hresult, _, hperform⟩
  · have houtcome : outcome = _ := hperform
    rw [houtcome]
    refine ⟨fun hsucceeds => absurd nofun hsucceeds, fun _ => ⟨?_, fun _ => rfl⟩⟩
    intro hclears
    rw [Call.missing?_of_clears hclears] at hmissing
    cases hmissing
  · have houtcome : outcome = _ := hperform
    rw [houtcome]
    refine ⟨fun hsucceeds => absurd (call.fails_rejected error) hsucceeds, fun _ => ⟨?_, ?_⟩⟩
    · intro hclears
      rw [Variables.after, Call.cleared_of_clears hclears]
      rfl
    · intro hclears
      exact Call.cleared_of_not_clears hclears hmissing
  · have houtcome : outcome = _ := hperform
    have hsucceeds : ¬ outcome.returned.Fails := by
      rw [houtcome]
      exact Call.not_fails_accepted hmaps hcursors hresult
    exact ⟨fun _ => delivers_of_ok hmissing hresult old, fun hfails => absurd hfails hsucceeds⟩

end ByteIndex.Boundary
