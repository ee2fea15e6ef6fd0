import ByteIndex.Cursor
import ByteIndex.Event
import ByteIndex.SlotTable
/-!
# Catalogs

A catalog owns maps and cursors and lets callers reach them through handles. A cursor records the map
handle that it was made from and moves on that map only. Every operation replies with a result, the
catalog afterwards and the events in order; a refused operation changes nothing and reports nothing.
-/
namespace ByteIndex

/-- A cursor with the handle of the map that it was made from. -/
structure OwnedCursor where
  owner : Handle
  cursor : Cursor

/-- The letter M. -/
def mapTag : UInt8 := 0x4D

/-- The letter C. -/
def cursorTag : UInt8 := 0x43

structure Catalog where
  maps : SlotTable mapTag SortedMap
  cursors : SlotTable cursorTag OwnedCursor

structure Reply (α : Type) where
  result : Except Error α
  catalog : Catalog
  events : List Event

namespace Reply

variable {α β : Type}

/-- Go on after a success; an error ends the work with the events so far. -/
def andThen (reply : Reply α) (next : α → Catalog → Reply β) : Reply β :=
  match reply.result with
  | .error error => ⟨.error error, reply.catalog, reply.events⟩
  | .ok value =>
    let later := next value reply.catalog
    { later with events := reply.events ++ later.events }

end Reply

namespace Catalog

variable {α : Type}

def empty : Catalog :=
  ⟨.empty, .empty⟩

/-- Reply that nothing was done. -/
def refuse (catalog : Catalog) (error : Error) : Reply α :=
  ⟨.error error, catalog, []⟩

/-- Reply without an event. -/
def answer (catalog : Catalog) (value : α) : Reply α :=
  ⟨.ok value, catalog, []⟩

/-- Size of one slot in the table of maps. -/
def mapSlotBytes : Nat := 64

/-- Size of one slot in the table of cursors. -/
def cursorSlotBytes : Nat := 40

def liveMaps (catalog : Catalog) : Nat :=
  catalog.maps.live

def liveCursors (catalog : Catalog) : Nat :=
  catalog.cursors.live

/-- The map under a handle. -/
def map (catalog : Catalog) (handle : Handle) : Except Error SortedMap :=
  catalog.maps.get handle

/-- The catalog with another map under a live handle. -/
def withMap (catalog : Catalog) (handle : Handle) (map : SortedMap) : Catalog :=
  { catalog with maps := catalog.maps.replace handle.index map }

def createMap (catalog : Catalog) (config : Config) : Reply Handle :=
  match SortedMap.create config with
  | .error error => catalog.refuse error
  | .ok map =>
    match catalog.maps.insert map with
    | none => catalog.refuse (.outOfMemory mapSlotBytes)
    | some (handle, maps) =>
      ⟨.ok handle, { catalog with maps }, [.createdMap handle config.maxKeyLength]⟩

/-- Drop a map with all its keys; its cursors stay and can move no more. -/
def destroyMap (catalog : Catalog) (handle : Handle) : Reply Unit :=
  match catalog.maps.remove handle with
  | .error error => catalog.refuse error
  | .ok (map, maps) => ⟨.ok (), { catalog with maps }, [.destroyedMap handle map.size]⟩

def get (catalog : Catalog) (handle : Handle) (key : Bytes) : Reply (Option UInt64) :=
  match catalog.map handle with
  | .error error => catalog.refuse error
  | .ok map => catalog.answer (map.get? key)

/-- Bind a key; the answer is the value that it had, or zero, and whether it had one. -/
def put (catalog : Catalog) (handle : Handle) (key : Bytes) (value : UInt64) :
    Reply (UInt64 × Bool) :=
  match catalog.map handle with
  | .error error => catalog.refuse error
  | .ok map =>
    match map.put key value with
    | .error error => catalog.refuse error
    | .ok (old, next) => (catalog.withMap handle next).answer (old.getD 0, old.isSome)

def set (catalog : Catalog) (handle : Handle) (key : Bytes) (value : UInt64) : Reply Unit :=
  match catalog.map handle with
  | .error error => catalog.refuse error
  | .ok map =>
    match map.set key value with
    | .error error => catalog.refuse error
    | .ok next => (catalog.withMap handle next).answer ()

def erase (catalog : Catalog) (handle : Handle) (key : Bytes) : Reply Unit :=
  match catalog.map handle with
  | .error error => catalog.refuse error
  | .ok map => (catalog.withMap handle (map.erase key).2).answer ()

def clear (catalog : Catalog) (handle : Handle) : Reply Unit :=
  match catalog.map handle with
  | .error error => catalog.refuse error
  | .ok map => (catalog.withMap handle map.clear).answer ()

/-- Store a cursor that was made from a map. -/
def addCursor (catalog : Catalog) (owner : Handle) (cursor : Cursor) : Reply Handle :=
  match catalog.cursors.insert ⟨owner, cursor⟩ with
  | none => catalog.refuse (.outOfMemory cursorSlotBytes)
  | some (handle, cursors) =>
    ⟨.ok handle, { catalog with cursors }, [.createdCursor owner handle cursor.isExhausted]⟩

def seekFirst (catalog : Catalog) (handle : Handle) : Reply Handle :=
  match catalog.map handle with
  | .error error => catalog.refuse error
  | .ok map => catalog.addCursor handle map.seekFirst

def seek (catalog : Catalog) (handle : Handle) (key : Bytes) : Reply Handle :=
  match catalog.map handle with
  | .error error => catalog.refuse error
  | .ok map => catalog.addCursor handle (map.seek key)

/-- Move a cursor on the map that it was made from; the answer is the entry that it stood on. -/
def advance (catalog : Catalog) (handle cursor : Handle) (direction : Direction) :
    Reply (Option Entry) :=
  match catalog.cursors.get cursor with
  | .error error => catalog.refuse error
  | .ok owned =>
    if owned.owner ≠ handle then catalog.refuse (.foreignCursor cursor owned.owner handle)
    else
      match catalog.map handle with
      | .error error => catalog.refuse error
      | .ok map =>
        let (entry, moved) := owned.cursor.advance map direction
        let cursors := catalog.cursors.replace cursor.index { owned with cursor := moved }
        { catalog with cursors }.answer entry

def destroyCursor (catalog : Catalog) (handle : Handle) : Reply Unit :=
  match catalog.cursors.remove handle with
  | .error error => catalog.refuse error
  | .ok (_, cursors) => ⟨.ok (), { catalog with cursors }, [.destroyedCursor handle]⟩

/-! ## Churn

A resource that is created and destroyed over and over wears its slot: every round issues the next
generation, and a worn-out slot gives way to a new one. A churn answers with the last handle that it
issued. -/

/-- Create and destroy a resource, a given number of times. -/
def churn (create : Catalog → Reply Handle) (destroy : Catalog → Handle → Reply Unit) :
    Nat → Handle → Catalog → Reply Handle
  | 0, last, catalog => catalog.answer last
  | times + 1, _, catalog =>
    (create catalog).andThen fun handle catalog =>
      (destroy catalog handle).andThen fun () catalog => churn create destroy times handle catalog

/-- Churn unlimited maps. -/
def churnMaps : Nat → Handle → Catalog → Reply Handle :=
  churn (·.createMap .unbounded) destroyMap

/-- Churn cursors at the start of one map. -/
def churnCursors (map : Handle) : Nat → Handle → Catalog → Reply Handle :=
  churn (·.seekFirst map) destroyCursor

end Catalog
end ByteIndex
