import ByteIndex.Proofs.SlotAccounting
/-!
# Handles lead back to their slots

Kind, generation and index go into one word without loss as long as each fits its field. In a table
they always do: a slot that has spent the last generation is not filled again, and there are no more
slots than indices. So the handle of a new value is found at the slot that the value was put into.
-/
namespace ByteIndex.SlotTable

variable {α : Type} {tag : UInt8} {table next : SlotTable tag α} {handle : Handle} {value : α}

private theorem locate_of_get (h : table.get handle = .ok value) :
    table.locate handle = .ok handle.index := by
  rcases table.get_eq_locate handle with ⟨_, hlocate, _⟩ | ⟨error, _, hget⟩
  · exact hlocate
  · rw [hget] at h
    cases h

/-- The index of the slot that the next value goes into. -/
def vacancy (table : SlotTable tag α) : Nat :=
  table.free.headD table.slots.size

private theorem WellFormed.insert_eq_none_iff_vacancy (hw : WellFormed table) (value : α) :
    table.insert value = none ↔ table.vacancy = Handle.indexCount := by
  rw [hw.insert_eq_none_iff, vacancy]
  cases hfree : table.free with
  | nil => exact and_iff_right rfl
  | cons index free =>
    obtain ⟨_, hslot⟩ := hw.vacant_of_free (hfree ▸ List.mem_cons_self)
    have hindex : index < table.slots.size := (Array.getElem?_eq_some_iff.mp hslot).1
    have hne : index ≠ Handle.indexCount := Nat.ne_of_lt (Nat.lt_of_lt_of_le hindex hw.size_le)
    exact iff_of_false (fun h => List.cons_ne_nil _ _ h.1) hne

/-- No slot is left out: a new slot takes the first index that is not in use. -/
theorem Filled.index_eq_size (h : Filled table value handle next)
    (hnew : table.slots[handle.index]? = none) : handle.index = table.slots.size := by
  refine Nat.le_antisymm (Nat.le_of_not_lt fun hlt => ?_) (Array.getElem?_eq_none_iff.mp hnew)
  have hsize : next.slots[table.slots.size]? = none := by
    rw [h.slots, if_neg (Nat.ne_of_lt hlt), Array.getElem?_eq_none (Nat.le_refl _)]
  have hindex : next.slots[handle.index]? = none :=
    Array.getElem?_eq_none (Nat.le_trans (Array.getElem?_eq_none_iff.mp hsize) (Nat.le_of_lt hlt))
  rw [h.slots, if_pos rfl] at hindex
  cases hindex

private theorem Filled.index_eq_vacancy (h : Filled table value handle next) :
    handle.index = table.vacancy := by
  rw [vacancy]
  rcases h.source with ⟨hfree, _⟩ | ⟨hfree, _, hnew, _⟩
  · rw [hfree]
    rfl
  · rw [hfree]
    exact h.index_eq_size hnew

private theorem Filled.vacant_before (h : Filled table value handle next) :
    (table.slots[handle.index]?).bind Slot.occupant = none := by
  rcases h.source with ⟨_, hslot⟩ | ⟨_, _, hslot, _⟩
  · rw [hslot]
    rfl
  · rw [hslot]
    rfl

/-- Packing and reading the fields of a handle are inverse, for every kind and within the fields. After
any operations a value gets a handle as long as there is an index for it. The handle is found at the
slot that the value was put into: one that stood empty or was not there, at the generation that the
handle carries, with all others as before. -/
theorem handle_leads_to_slot (tag : UInt8) :
    (∀ generation index, generation ≤ Handle.lastGeneration → index < Handle.indexCount →
      (Handle.pack tag generation index).tag = tag ∧
      (Handle.pack tag generation index).generation = generation ∧
      (Handle.pack tag generation index).index = index) ∧
    (∀ handle : Handle, handle.tag = tag →
      Handle.pack tag handle.generation handle.index = handle) ∧
    (∀ other generation generation' index index', generation ≤ Handle.lastGeneration →
      generation' ≤ Handle.lastGeneration → index < Handle.indexCount →
      index' < Handle.indexCount →
      Handle.pack tag generation index = Handle.pack other generation' index' →
      tag = other ∧ generation = generation' ∧ index = index') ∧
    ∀ (operations : List (Operation α)) (value : α),
      let table := ((empty : SlotTable tag α).run operations).2
      (table.insert value = none ↔ table.vacancy = Handle.indexCount) ∧
      ∀ handle next, table.insert value = some (handle, next) →
        next.locate handle = .ok table.vacancy ∧
        next.get handle = .ok value ∧
        (table.slots[table.vacancy]?).bind Slot.occupant = none ∧
        ∀ index, next.slots[index]? =
          if index = table.vacancy then some ⟨handle.generation, some value⟩
          else table.slots[index]? := by
  refine ⟨?_, ?_, ?_, ?_⟩
  · intro generation index hg hi
    exact ⟨Handle.tag_pack tag hg hi, Handle.generation_pack tag hg hi,
      Handle.index_pack tag hg hi⟩
  · rintro handle rfl
    exact handle.pack_fields
  · intro other generation generation' index index' hg hg' hi hi' h
    exact Handle.pack_inj hg hi hg' hi' h
  · intro operations value table
    have hreach : Reachable _ table := Reachable.empty.run operations
    have hw := hreach.accounts.wellFormed
    refine ⟨hw.insert_eq_none_iff_vacancy value, ?_⟩
    intro handle next hinsert
    have hfilled := filled_of_insert hw hinsert
    have hget : next.get handle = .ok value := by rw [get_filled hfilled, if_pos rfl]
    rw [← hfilled.index_eq_vacancy]
    exact ⟨locate_of_get hget, hget, hfilled.vacant_before, hfilled.slots⟩

theorem second_life_located :
    let operations : List (Operation Nat) := [.insert 5, .insert 6, .remove (.pack 77 1 0)]
    let table := ((empty : SlotTable 77 Nat).run operations).2
    ∃ handle next, table.insert 7 = some (handle, next) ∧ handle = .pack 77 2 0 ∧
      next.locate handle = .ok 0 := by
  intro operations table
  have hinsert := ((handle_leads_to_slot 77).2.2.2 operations 7).2
  exact ⟨_, _, rfl, rfl, (hinsert _ _ rfl).1⟩

end ByteIndex.SlotTable
