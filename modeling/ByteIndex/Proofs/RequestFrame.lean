import ByteIndex.Proofs.RunLedger
/-!
# What a request leaves alone

All maps share one table and all cursors another, but a request acts on one handle: the one that it
names or the one that it is answered with. Every other handle reaches afterwards what it reached
before, and of a resource that the request changes only the part changes that the request is about.
-/
namespace ByteIndex

namespace SlotTable

variable {α : Type} {tag : UInt8} {table next : SlotTable tag α} {handle : Handle} {value : α}

/-- Every other handle reaches the same value in both tables, or none in either. -/
def SameBut (table : SlotTable tag α) (handle : Handle) (next : SlotTable tag α) : Prop :=
  ∀ other, other ≠ handle → ∀ value, next.get other = .ok value ↔ table.get other = .ok value

/-- The handle reached nothing and is made to reach a value. -/
structure Gains (table : SlotTable tag α) (handle : Handle) (value : α)
    (next : SlotTable tag α) : Prop where
  sameBut : table.SameBut handle next
  before : ∀ held, table.get handle ≠ .ok held
  after : next.get handle = .ok value

/-- The handle reached a value and is made to reach none. -/
structure Loses (table : SlotTable tag α) (handle : Handle) (value : α)
    (next : SlotTable tag α) : Prop where
  sameBut : table.SameBut handle next
  before : table.get handle = .ok value
  after : ∀ held, next.get handle ≠ .ok held

/-- The handle reached one value and is made to reach another. -/
structure Alters (table : SlotTable tag α) (handle : Handle) (old new : α)
    (next : SlotTable tag α) : Prop where
  sameBut : table.SameBut handle next
  before : table.get handle = .ok old
  after : next.get handle = .ok new

private theorem gains_of_insert (hw : WellFormed table)
    (h : table.insert value = some (handle, next)) :
    table.Gains handle value next := by
  have hfilled := filled_of_insert hw h
  refine ⟨?_, ?_, ?_⟩
  · intro other hne held
    rw [get_filled hfilled, if_neg hne]
  · intro held hget
    exact not_issued_of_filled hfilled (issued_of_get hw hget)
  · rw [get_filled hfilled, if_pos rfl]

private theorem loses_of_remove (h : table.remove handle = .ok (value, next)) :
    table.Loses handle value next := by
  obtain ⟨hget, hemptied⟩ := emptied_of_remove h
  refine ⟨?_, hget, ?_⟩
  · intro other hne held
    rw [get_emptied_eq_ok_iff hget hemptied]
    exact and_iff_right hne
  · intro held hlive
    exact ((get_emptied_eq_ok_iff hget hemptied).mp hlive).1 rfl

private theorem alters_of_replace (h : table.get handle = .ok value) (new : α) :
    table.Alters handle value new (table.replace handle.index new) := by
  refine ⟨?_, h, ?_⟩
  · intro other hne held
    rw [get_replace h, if_neg hne]
  · rw [get_replace h, if_pos rfl]

end SlotTable

namespace Request

variable {request : Request}

section

variable {P : SortedMap → Prop}
  (hput : ∀ {stored key value old next}, SortedMap.put stored key value = .ok (old, next) →
    P stored → P next)
  (herase : ∀ {stored} key, P stored → P (SortedMap.erase stored key).2)
  (hclear : ∀ {stored}, P stored → P (SortedMap.clear stored))

include hput herase hclear

private theorem keeps_of_edit {target : Handle} {change : Change}
    (h : request.edit = some (target, change))
    {stored next : SortedMap} {answer : Answer} (hchange : change stored = .ok (answer, next))
    (hstored : P stored) : P next := by
  cases request <;> cases h
  case put key value =>
    dsimp only at hchange
    cases hresult : stored.put key value <;> rw [hresult] at hchange <;> cases hchange
    exact hput hresult hstored
  case set key value =>
    dsimp only [SortedMap.set] at hchange
    cases hresult : stored.put key value <;> rw [hresult] at hchange <;> cases hchange
    exact hput hresult hstored
  case erase key =>
    cases hchange
    exact herase key hstored
  case clear =>
    cases hchange
    exact hclear hstored

end

private theorem config_of_edit {target : Handle} {change : Change}
    (h : request.edit = some (target, change))
    {stored next : SortedMap} {answer : Answer} (hchange : change stored = .ok (answer, next)) :
    next.config = stored.config := by
  refine keeps_of_edit (P := fun map => map.config = stored.config) ?_ ?_ id h hchange rfl
  · intro _ _ _ _ _ hput hconfig
    exact (SortedMap.config_put hput).trans hconfig
  · intro _ key hconfig
    exact (SortedMap.config_erase _ key).trans hconfig

/-- The change that a request with a given answer may make, and no other. -/
def Confined (request : Request) (answer : Answer) (catalog next : Catalog) : Prop :=
  match request with
  | .createMap config =>
    next.cursors = catalog.cursors ∧ ∃ handle, answer = .issued handle ∧
      catalog.maps.Gains handle (.emptyWith config) next.maps
  | .destroyMap map =>
    next.cursors = catalog.cursors ∧ ∃ stored, catalog.maps.Loses map stored next.maps
  | .get .. => next = catalog
  | .put map .. | .set map .. | .erase map _ | .clear map =>
    next.cursors = catalog.cursors ∧ ∃ old new, catalog.maps.Alters map old new next.maps ∧
      new.config = old.config
  | .seekFirst map =>
    next.maps = catalog.maps ∧ ∃ handle stored, answer = .issued handle ∧
      catalog.map map = .ok stored ∧
      catalog.cursors.Gains handle ⟨map, stored.seekFirst⟩ next.cursors
  | .seek map key =>
    next.maps = catalog.maps ∧ ∃ handle stored, answer = .issued handle ∧
      catalog.map map = .ok stored ∧
      catalog.cursors.Gains handle ⟨map, stored.seek key⟩ next.cursors
  | .advance _ cursor _ =>
    next.maps = catalog.maps ∧ ∃ old new, catalog.cursors.Alters cursor old new next.cursors ∧
      new.owner = old.owner
  | .destroyCursor cursor =>
    next.maps = catalog.maps ∧ ∃ owned, catalog.cursors.Loses cursor owned next.cursors

end Request

namespace Catalog

variable {catalog : Catalog} {request : Request} {reply : Reply Answer}

theorem Effect.confined (h : catalog.Effect request reply) (hmaps : catalog.maps.WellFormed)
    (hcursors : catalog.cursors.WellFormed) {answer : Answer} (hresult : reply.result = .ok answer) :
    request.Confined answer catalog reply.catalog := by
  cases h with
  | refused => cases hresult
  | read => rfl
  | created hinsert =>
    cases hresult
    exact ⟨rfl, _, rfl, SlotTable.gains_of_insert hmaps hinsert⟩
  | dropped hremove => exact ⟨rfl, _, SlotTable.loses_of_remove hremove⟩
  | @edited _ _ _ _ next _ hedit hmap hchange =>
    have haltered := SlotTable.alters_of_replace hmap next
    have hconfig := Request.config_of_edit hedit hchange
    cases request <;> cases hedit <;> exact ⟨rfl, _, _, haltered, hconfig⟩
  | opened hopening hmap hinsert =>
    cases hresult
    have hgained := SlotTable.gains_of_insert hcursors hinsert
    cases request <;> cases hopening <;> exact ⟨rfl, _, _, rfl, hmap, hgained⟩
  | moved hcursor => exact ⟨rfl, _, _, SlotTable.alters_of_replace hcursor _, rfl⟩
  | closed hremove => exact ⟨rfl, _, SlotTable.loses_of_remove hremove⟩

/-- In every catalog that a run leaves, a request that succeeds makes the one change that it names. -/
theorem success_confined (requests : List Request) (request : Request) (answer : Answer)
    (h : ((empty.run requests).perform request).result = .ok answer) :
    request.Confined answer (empty.run requests)
      ((empty.run requests).perform request).catalog := by
  have hmaps := (accounts_maps requests).wellFormed
  have hcursors := (accounts_cursors requests).wellFormed
  exact (perform_effect _ request).confined hmaps hcursors h

theorem erase_confined_under_cursor :
    let requests : List Request :=
      [.createMap .unbounded, .createMap .bounded, .set ⟨0x4D00000100000000⟩ [7] 1,
        .seekFirst ⟨0x4D00000100000000⟩]
    let request : Request := .erase ⟨0x4D00000100000000⟩ [7]
    ((empty.run requests).perform request).result = .ok .done ∧
      request.Confined .done (empty.run requests)
        ((empty.run requests).perform request).catalog :=
  ⟨rfl, success_confined _ _ _ rfl⟩

end Catalog
end ByteIndex
