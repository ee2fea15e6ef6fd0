import ByteIndex.Cursor
/-!
# Walks

A walk advances one cursor any number of times. Each advance is given a map of its own, so the map may
change in any way between two of them, or be another map altogether. Beside it stands a walk that is
not a cursor's: it goes over the entries of one list by index.
-/
namespace ByteIndex

namespace Direction

/-- Whether a key lies before another one on the way. -/
def Precedes : Direction → Bytes → Bytes → Prop
  | .forward, first, second => first < second
  | .backward, first, second => second < first

/-- Whether a key lies at a place or on the way from it. -/
def Reaches : Direction → Bytes → Bytes → Prop
  | .forward, place, key => place ≤ key
  | .backward, place, key => key ≤ place

/-- The index next to a given one, if it is below `length`. -/
def nextIndex? (length : Nat) : Direction → Nat → Option Nat
  | .forward, index => if index + 1 < length then some (index + 1) else none
  | .backward, 0 => none
  | .backward, index + 1 => some index

end Direction

/-- One advance of a cursor, with the map and the direction that it was given. -/
structure Visit where
  map : SortedMap
  direction : Direction
  start : Cursor

namespace Visit

def answer (visit : Visit) : Option Entry :=
  (visit.start.advance visit.map visit.direction).1

/-- The cursor after the advance. -/
def stop (visit : Visit) : Cursor :=
  (visit.start.advance visit.map visit.direction).2

/-- The keys that were yielded, in order. -/
def keys (visits : List Visit) : List Bytes :=
  (visits.filterMap answer).map Entry.bytes

end Visit

namespace Cursor

/-- Advance a cursor on each of the given maps in turn. -/
def walk (cursor : Cursor) : List (SortedMap × Direction) → List Visit
  | [] => []
  | (map, direction) :: rest =>
    let visit : Visit := ⟨map, direction, cursor⟩
    visit :: walk visit.stop rest

/-- Advanced on one map in one direction until there is no entry, a cursor yields these. -/
def DrainsTo (map : SortedMap) (direction : Direction) (cursor : Cursor)
    (entries : List Entry) : Prop :=
  (cursor.walk (List.replicate (entries.length + 1) (map, direction))).map Visit.answer =
    entries.map some ++ [none]

/-- One pass of a cursor over the versions of a map: at every call the version at hand has the key that
the cursor holds, and the last call is the first one to leave the cursor exhausted. -/
structure Passes (direction : Direction) (versions : List SortedMap) (cursor : Cursor) : Prop where
  held : ∀ visit ∈ cursor.walk (versions.map (·, direction)), ∃ key,
    visit.start = .positioned key ∧ visit.map.contains key.bytes = true
  ends : ∃ before last, cursor.walk (versions.map (·, direction)) = before ++ [last] ∧
    last.stop = .exhausted ∧ ∀ visit ∈ before, visit.stop ≠ .exhausted

end Cursor

/-- Go over a list by index, or over nothing once the index has left the list: what stands at the
index, and the index one step further. -/
def Entries.walk (entries : List Entry) (index : Option Nat) :
    List Direction → List (Option Entry × Option Nat)
  | [] => []
  | direction :: rest =>
    let next := index.bind (direction.nextIndex? entries.length)
    (index.bind (entries[·]?), next) :: walk entries next rest

end ByteIndex
