import ByteIndex.Proofs.HandleLifetime
/-!
# Cursors and their maps

A cursor keeps the handle of the map that it was made from for life, and this handle was issued before
the cursor. An advance therefore reads the map that this handle was issued for or no map at all.
-/
namespace ByteIndex

private theorem SortedMap.mem_entries_of_advance {map : SortedMap} {direction : Direction}
    {cursor : Cursor}
    {entry : Entry} (h : (cursor.advance map direction).1 = some entry) : entry ∈ map.entries := by
  rw [Cursor.advance_fst] at h
  cases cursor with
  | positioned key => exact List.mem_of_find?_eq_some h
  | exhausted => cases h

namespace Catalog

variable {requests : List Request} {owner cursor handle : Handle}

/-- The run issued the cursor to a request that placed it on the map of the owner. -/
def OpenedOn (requests : List Request) (owner cursor : Handle) : Prop :=
  ∃ before request after place, requests = before ++ request :: after ∧
    request.opening = some (owner, place) ∧
    ((empty.run before).perform request).result = .ok (.issued cursor)

/-- The run created the map under the handle, and the later requests given the handle made this of
it. -/
def CreatedAs (requests : List Request) (handle : Handle) (stored : SortedMap) : Prop :=
  ∃ before config after, requests = before ++ .createMap config :: after ∧
    ((empty.run before).perform (.createMap config)).result = .ok (.issued handle) ∧
    stored = after.foldl (Request.revise handle) (.emptyWith config)

private theorem owner_carry (handle : Handle) (catalog : Catalog) (owned : OwnedCursor)
    (request : Request) : (request.carry handle catalog owned).owner = owned.owner := by
  cases request with
  | advance map cursor direction =>
    rw [Request.carry]
    split
    · split <;> rfl
    · rfl
  | _ => rfl

private theorem owner_follow (handle : Handle) (catalog : Catalog) (requests : List Request)
    (owned : OwnedCursor) : (catalog.follow handle requests owned).owner = owned.owner := by
  induction requests generalizing catalog owned with
  | nil => rfl
  | cons request rest ih =>
    rw [follow, ih]
    exact owner_carry handle catalog owned request

private theorem openedOn_of_live (h : (empty.ledger .cursor requests).Live cursor) :
    ∃ owner, OpenedOn requests owner cursor := by
  obtain ⟨before, request, after, hsplit, hmark⟩ := exists_of_issued h.1
  obtain ⟨owner, place, hopening⟩ := Request.opening_of_issued hmark
  exact ⟨owner, before, request, after, place, hsplit, hopening, Request.result_of_issued hmark⟩

private theorem createdAs_of_live (h : (empty.ledger .map requests).Live handle) :
    ∃ stored, CreatedAs requests handle stored ∧ (empty.run requests).map handle = .ok stored := by
  obtain ⟨before, request, after, rfl, hmark⟩ := exists_of_issued h.1
  obtain ⟨config, rfl⟩ := Request.create_of_issued hmark
  have hissued := Request.result_of_issued hmark
  obtain ⟨hkept, hdestroyed⟩ := map_lifetime after hissued
  refine ⟨_, ⟨before, config, after, rfl, hissued, rfl⟩, ?_⟩
  rw [run_append, run_cons]
  exact hkept fun hmem => h.2 (hdestroyed hmem)

/-- The owner of a cursor was issued as a map, and a live cursor still has it as its owner. -/
theorem owner_of_openedOn (h : OpenedOn requests owner cursor) :
    (empty.ledger .map requests).Issued owner ∧
      ((empty.ledger .cursor requests).Live cursor →
        ∃ owned, (empty.run requests).cursors.get cursor = .ok owned ∧ owned.owner = owner) := by
  obtain ⟨before, request, after, place, rfl, hopening, hissued⟩ := h
  obtain ⟨stored, hmap, hkept, hdestroyed⟩ := cursor_lifetime after hopening hissued
  constructor
  · have haccounts := accounts_maps before
    rw [ledger_append, Ledger.issued_append, haccounts.issued_iff]
    exact .inl (SlotTable.issued_of_get haccounts.wellFormed hmap)
  · intro hlive
    rw [run_append, run_cons]
    exact ⟨_, hkept fun hmem => hlive.2 (hdestroyed hmem), owner_follow ..⟩

/-! ## Advances -/

private theorem advance_of_refused {catalog : Catalog} {error : Error}
    (h : catalog.cursors.get cursor = .error error) (map : Handle) (direction : Direction) :
    (catalog.advance map cursor direction).result = .error error := by
  rw [advance, h]
  rfl

private theorem advance_of_foreign {catalog : Catalog} {owned : OwnedCursor}
    (h : catalog.cursors.get cursor = .ok owned) {map : Handle} (hne : map ≠ owned.owner)
    (direction : Direction) :
    (catalog.advance map cursor direction).result =
      .error (.foreignCursor cursor owned.owner map) := by
  rw [advance, h]
  dsimp only
  rw [if_pos (Ne.symm hne)]
  rfl

theorem advance_of_owner {catalog : Catalog} {owned : OwnedCursor}
    (h : catalog.cursors.get cursor = .ok owned) (direction : Direction) :
    (catalog.advance owned.owner cursor direction).result =
      (catalog.map owned.owner).map fun stored => (owned.cursor.advance stored direction).1 := by
  rw [advance, h]
  dsimp only
  rw [if_neg (not_not_intro rfl)]
  cases catalog.map owned.owner <;> rfl

theorem advance_elsewhere (hopened : OpenedOn requests owner cursor)
    (hlive : (empty.ledger .cursor requests).Live cursor) {map : Handle} (hne : map ≠ owner)
    (direction : Direction) :
    ((empty.run requests).advance map cursor direction).result =
      .error (.foreignCursor cursor owner map) := by
  obtain ⟨owned, hget, rfl⟩ := (owner_of_openedOn hopened).2 hlive
  exact advance_of_foreign hget hne direction

private theorem advance_destroyed (hopened : OpenedOn requests owner cursor)
    (hlive : (empty.ledger .cursor requests).Live cursor)
    (hdestroyed : (empty.ledger .map requests).Destroyed owner) (direction : Direction) :
    ((empty.run requests).advance owner cursor direction).result =
      .error (.staleHandle owner) := by
  obtain ⟨owned, hget, rfl⟩ := (owner_of_openedOn hopened).2 hlive
  have hmap : (empty.run requests).map owned.owner = .error (.staleHandle owned.owner) :=
    (denies_of_destroyed hdestroyed).refuses
  rw [advance_of_owner hget, hmap]
  rfl

private theorem advance_stored (hopened : OpenedOn requests owner cursor)
    (hlive : (empty.ledger .cursor requests).Live cursor)
    (hkept : ¬ (empty.ledger .map requests).Destroyed owner) (direction : Direction) :
    ∃ stored entry, CreatedAs requests owner stored ∧
      (empty.run requests).map owner = .ok stored ∧
      ((empty.run requests).advance owner cursor direction).result = .ok entry ∧
      ∀ found ∈ entry, found ∈ stored.entries := by
  obtain ⟨hissued, howner⟩ := owner_of_openedOn hopened
  obtain ⟨owned, hget, rfl⟩ := howner hlive
  obtain ⟨stored, hcreated, hmap⟩ := createdAs_of_live ⟨hissued, hkept⟩
  refine ⟨stored, (owned.cursor.advance stored direction).1, hcreated, hmap, ?_, ?_⟩
  · rw [advance_of_owner hget, hmap]
    rfl
  · intro found hfound
    exact SortedMap.mem_entries_of_advance hfound

/-- An advance reads the entries of the map that the cursor was opened on, as that map stands now,
and is refused in every other case. -/
theorem advance_outcome (requests : List Request) (map cursor : Handle) (direction : Direction) :
    let catalog := empty.run requests
    let result := (catalog.advance map cursor direction).result
    (¬ (empty.ledger .cursor requests).Live cursor →
      ∃ error, catalog.cursors.get cursor = .error error ∧
        (error = .invalidHandle cursor ∨ error = .staleHandle cursor) ∧ result = .error error) ∧
    ((empty.ledger .cursor requests).Live cursor →
      (∃ owner, OpenedOn requests owner cursor) ∧
      (∀ owner, OpenedOn requests owner cursor →
        (map ≠ owner → result = .error (.foreignCursor cursor owner map)) ∧
        (map = owner → (empty.ledger .map requests).Destroyed owner →
          result = .error (.staleHandle owner)) ∧
        (map = owner → ¬ (empty.ledger .map requests).Destroyed owner →
          ∃ stored entry, CreatedAs requests owner stored ∧ catalog.map owner = .ok stored ∧
            result = .ok entry ∧ ∀ found ∈ entry, found ∈ stored.entries)) ∧
      ∀ handle, result ≠ .error (.invalidHandle handle)) := by
  intro catalog result
  have haccounts := accounts_cursors requests
  refine ⟨fun hdead => ?_, fun hlive => ⟨openedOn_of_live hlive, fun owner hopened => ?_, ?_⟩⟩
  · cases hget : catalog.cursors.get cursor with
    | error error =>
      exact ⟨error, rfl, SlotTable.get_eq_error hget, advance_of_refused hget map direction⟩
    | ok owned => exact absurd ((haccounts.live_iff cursor).mpr ⟨owned, hget⟩) hdead
  · refine ⟨fun hne => advance_elsewhere hopened hlive hne direction, ?_, ?_⟩
    · intro hsame hdestroyed
      subst hsame
      exact advance_destroyed hopened hlive hdestroyed direction
    · intro hsame hkept
      subst hsame
      exact advance_stored hopened hlive hkept direction
  · intro handle hinvalid
    obtain ⟨owner, hopened⟩ := openedOn_of_live hlive
    by_cases hmap : map = owner
    · subst hmap
      by_cases hdestroyed : (empty.ledger .map requests).Destroyed map
      · cases (advance_destroyed hopened hlive hdestroyed direction).symm.trans hinvalid
      · obtain ⟨_, _, _, _, hresult, _⟩ := advance_stored hopened hlive hdestroyed direction
        cases hresult.symm.trans hinvalid
    · cases (advance_elsewhere hopened hlive hmap direction).symm.trans hinvalid

end Catalog
end ByteIndex
