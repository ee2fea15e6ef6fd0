import ByteIndex.SortedMap.Basic
/-!
# Cursors

A cursor remembers the key that it stands on, or that it is exhausted. It holds no part of a map:
every step is given one and looks its key up again, so a map may change between two steps. A cursor
whose key is gone becomes exhausted at its next step, and an exhausted cursor stays so.
-/
namespace ByteIndex

inductive Direction where
  /-- Towards greater keys. -/
  | forward
  /-- Towards smaller keys. -/
  | backward
deriving DecidableEq

/-- The key next to a given one. -/
def SortedMap.neighbour? (map : SortedMap) (direction : Direction) (key : Bytes) : Option Key :=
  match direction with
  | .forward => map.successor? key
  | .backward => map.predecessor? key

inductive Cursor where
  | positioned (key : Key)
  | exhausted

namespace Cursor

/-- A cursor on a copy of the given key. -/
def placeOn : Option Key → Cursor
  | some key => .positioned key.copy
  | none => .exhausted

def isExhausted : Cursor → Bool
  | .positioned _ => false
  | .exhausted => true

/-- The entry under a cursor. -/
def peek (map : SortedMap) : Cursor → Option Entry
  | .positioned key => map.entry? key.bytes
  | .exhausted => none

/-- The entry under a cursor, and the cursor one step further. -/
def advance (map : SortedMap) (direction : Direction) (cursor : Cursor) : Option Entry × Cursor :=
  match cursor with
  | .exhausted => (none, .exhausted)
  | .positioned key =>
    match map.entry? key.bytes with
    | none => (none, .exhausted)
    | some entry => (some entry, placeOn (map.neighbour? direction entry.bytes))

/-- Advance at most `fuel` times, as long as there are entries. -/
def drainWithin (map : SortedMap) (direction : Direction) : Nat → Cursor → List Entry × Cursor
  | 0, cursor => ([], cursor)
  | fuel + 1, cursor =>
    match cursor.advance map direction with
    | (some entry, next) =>
      let (entries, last) := drainWithin map direction fuel next
      (entry :: entries, last)
    | (none, next) => ([], next)

/-- Advance until there is no entry; one step more than the map has entries suffices. -/
def drain (map : SortedMap) (direction : Direction) (cursor : Cursor) : List Entry × Cursor :=
  drainWithin map direction (map.size + 1) cursor

/-- Where a cursor stands, for a reader. -/
def position : Cursor → String
  | .positioned key => "At(" ++ key.describe ++ ")"
  | .exhausted => "Exhausted"

def describe (cursor : Cursor) : String :=
  Text.Layout.compact.render (.fields "Cursor") ["position: " ++ cursor.position]

theorem advance_eq (map : SortedMap) (direction : Direction) (cursor : Cursor) :
    cursor.advance map direction =
      match cursor.peek map with
      | some entry => (some entry, placeOn (map.neighbour? direction entry.bytes))
      | none => (none, .exhausted) := by
  cases cursor with
  | exhausted => rfl
  | positioned key =>
    rw [advance, peek]
    cases map.entry? key.bytes <;> rfl

theorem advance_fst (map : SortedMap) (direction : Direction) (cursor : Cursor) :
    (cursor.advance map direction).1 = cursor.peek map := by
  rw [advance_eq]
  cases cursor.peek map <;> rfl

theorem advance_snd_of_none {map : SortedMap} {direction : Direction} {cursor : Cursor}
    (h : (cursor.advance map direction).1 = none) :
    (cursor.advance map direction).2 = exhausted := by
  rw [advance_fst] at h
  rw [advance_eq, h]

end Cursor

/-- A cursor on the smallest key, exhausted in an empty map. -/
def SortedMap.seekFirst (map : SortedMap) : Cursor :=
  .placeOn map.least?

/-- A cursor on exactly the given key, exhausted if the map does not have it. -/
def SortedMap.seek (map : SortedMap) (key : Bytes) : Cursor :=
  .placeOn ((map.entry? key).map (·.key))

end ByteIndex
