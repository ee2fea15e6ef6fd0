import ByteIndex.Error
/-!
# Slot tables

A table keeps values in numbered slots and issues a handle for each. A slot that is emptied counts
its generation up and waits on a stack to be filled again, so an old handle differs from every later
one. A slot that is emptied at the last generation is retired: it keeps its number and is not filled
again, since counting on would repeat old handles.
-/
namespace ByteIndex

structure Slot (α : Type) where
  generation : Nat
  occupant : Option α

/-- Slots of one kind; the kind is the tag that all handles of the table carry. -/
structure SlotTable (tag : UInt8) (α : Type) where
  slots : Array (Slot α)
  /-- Indices of the slots to fill next, the last one emptied first. -/
  free : List Nat
  live : Nat

namespace SlotTable

variable {α : Type} {tag : UInt8}

def empty : SlotTable tag α :=
  ⟨#[], [], 0⟩

/-- Put a value into an existing slot and issue its handle. -/
def fill (table : SlotTable tag α) (index : Nat) (generation : Nat) (value : α) :
    Handle × SlotTable tag α :=
  (.pack tag generation index,
    { table with
      slots := table.slots.setIfInBounds index ⟨generation, some value⟩
      live := table.live + 1 })

/-- Store a value under a new handle; none if all indices are in use. -/
def insert (table : SlotTable tag α) (value : α) : Option (Handle × SlotTable tag α) :=
  match table.free with
  | index :: free =>
    match table.slots[index]? with
    | some slot => some ({ table with free }.fill index slot.generation value)
    | none => none
  | [] =>
    if table.slots.size < Handle.indexCount then
      some ({ table with slots := table.slots.push ⟨1, none⟩ }.fill table.slots.size 1 value)
    else none

/-- The index of the slot that a handle points at, if this slot holds a value of its generation. A
handle is invalid if its kind, its slot or its generation is not one of this table, and stale if its
slot has passed that generation or stands empty. -/
def locate (table : SlotTable tag α) (handle : Handle) : Except Error Nat :=
  if handle.tag ≠ tag ∨ handle.generation = 0 then .error (.invalidHandle handle)
  else
    match table.slots[handle.index]? with
    | none => .error (.invalidHandle handle)
    | some slot =>
      if slot.generation < handle.generation then .error (.invalidHandle handle)
      else if handle.generation ≠ slot.generation ∨ slot.occupant.isNone then
        .error (.staleHandle handle)
      else .ok handle.index

/-- The value in a slot. -/
def occupant? (table : SlotTable tag α) (index : Nat) : Option α :=
  (table.slots[index]?).bind Slot.occupant

/-- The value under a handle. -/
def get (table : SlotTable tag α) (handle : Handle) : Except Error α :=
  match table.locate handle with
  | .error error => .error error
  | .ok index =>
    match table.occupant? index with
    | none => .error (.staleHandle handle)
    | some value => .ok value

/-- Replace the value in a slot. -/
def replace (table : SlotTable tag α) (index : Nat) (value : α) : SlotTable tag α :=
  { table with
    slots := table.slots.modify index fun slot => { slot with occupant := some value } }

/-- Empty a slot, for its next generation or for good. -/
def vacate (table : SlotTable tag α) (index : Nat) : SlotTable tag α :=
  match table.slots[index]? with
  | none => table
  | some slot =>
    if slot.generation < Handle.lastGeneration then
      { slots := table.slots.setIfInBounds index ⟨slot.generation + 1, none⟩
        free := index :: table.free
        live := table.live - 1 }
    else
      { table with
        slots := table.slots.setIfInBounds index ⟨slot.generation, none⟩
        live := table.live - 1 }

/-- Take the value under a handle out of the table. -/
def remove (table : SlotTable tag α) (handle : Handle) : Except Error (α × SlotTable tag α) :=
  match table.locate handle with
  | .error error => .error error
  | .ok index =>
    match table.occupant? index with
    | none => .error (.staleHandle handle)
    | some value => .ok (value, table.vacate index)

/-- Set the generation of one slot by hand, which stands for as many lives spent. -/
def setGeneration (table : SlotTable tag α) (index generation : Nat) : SlotTable tag α :=
  { table with slots := table.slots.modify index fun slot => { slot with generation } }

theorem slot_of_locate {table : SlotTable tag α} {handle : Handle} {index : Nat}
    (h : table.locate handle = .ok index) :
    index = handle.index ∧
      ∃ value, table.slots[handle.index]? = some ⟨handle.generation, some value⟩ := by
  unfold locate at h
  split at h
  · cases h
  cases hslot : table.slots[handle.index]? with
  | none =>
    rw [hslot] at h
    cases h
  | some slot =>
    obtain ⟨generation, occupant⟩ := slot
    rw [hslot] at h
    dsimp only at h
    split at h
    · cases h
    split at h
    · cases h
    rename_i hheld
    obtain ⟨hgeneration, hoccupied⟩ := not_or.mp hheld
    cases occupant with
    | none => exact absurd rfl hoccupied
    | some value =>
      cases h
      exact ⟨rfl, value, by rw [Decidable.not_not.mp hgeneration]⟩

theorem remove_eq (table : SlotTable tag α) (handle : Handle) :
    table.remove handle = (table.get handle).map fun value => (value, table.vacate handle.index) := by
  rw [remove, get]
  cases hlocate : table.locate handle with
  | error error => rfl
  | ok index =>
    obtain ⟨rfl, value, hslot⟩ := slot_of_locate hlocate
    simp [occupant?, hslot, Except.map]

theorem remove_eq_ok_iff {table next : SlotTable tag α} {handle : Handle} {value : α} :
    table.remove handle = .ok (value, next) ↔
      table.get handle = .ok value ∧ table.vacate handle.index = next := by
  rw [remove_eq]
  cases table.get handle <;> simp [Except.map]

theorem remove_of_get {table : SlotTable tag α} {handle : Handle} {value : α}
    (h : table.get handle = .ok value) :
    table.remove handle = .ok (value, table.vacate handle.index) :=
  remove_eq_ok_iff.mpr ⟨h, rfl⟩

theorem remove_eq_error_iff (table : SlotTable tag α) (handle : Handle) (error : Error) :
    table.remove handle = .error error ↔ table.get handle = .error error := by
  rw [remove_eq]
  cases table.get handle <;> simp [Except.map]

end SlotTable
end ByteIndex
