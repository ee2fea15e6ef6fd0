import ByteIndex.SortedMap.Basic
/-!
# Traversals from both ends

A traversal holds the entries that have not been taken yet and gives them up from either end. The two
ends share one list, so that no entry is taken twice.
-/
namespace ByteIndex

/-- The end of a traversal at which the next entry is taken. -/
inductive Side where
  | front
  | back
deriving DecidableEq

structure Traversal where
  pending : List Entry

namespace Traversal

def size (traversal : Traversal) : Nat :=
  traversal.pending.length

/-- Take one entry; none once all are taken. -/
def take (traversal : Traversal) : Side → Option Entry × Traversal
  | .front => (traversal.pending.head?, ⟨traversal.pending.tail⟩)
  | .back => (traversal.pending.getLast?, ⟨traversal.pending.dropLast⟩)

/-- Take an entry at each of the given sides in turn. -/
def takes (traversal : Traversal) : List Side → List (Option Entry)
  | [] => []
  | side :: rest =>
    let (entry, left) := traversal.take side
    entry :: left.takes rest

/-- What is left after an entry was taken at each of the given sides. -/
def leave (traversal : Traversal) (sides : List Side) : Traversal :=
  sides.foldl (fun traversal side => (traversal.take side).2) traversal

/-- The entries that the takes at one side give, in order, when entries are taken at the given
sides. -/
def given (traversal : Traversal) (side : Side) (sides : List Side) : List Entry :=
  (sides.zip (traversal.takes sides)).filterMap fun (taken, entry) =>
    if taken = side then entry else none

/-- From its two ends the traversal gives up a list, in any mixture of takes. -/
structure Views (traversal : Traversal) (entries : List Entry) : Prop where
  /-- A take gives the entry whose place, counted from its own side, is the number of takes at that
  side so far; behind as many takes as there are entries it gives none. -/
  answer : ∀ before side after,
    (traversal.takes (before ++ side :: after))[before.length]? =
      some (if before.length < entries.length then
        match side with
        | .front => entries[before.count .front]?
        | .back => entries.reverse[before.count .back]?
      else none)
  parts : ∀ sides, traversal.given .front sides ++ (traversal.leave sides).pending ++
    (traversal.given .back sides).reverse = entries
  size : ∀ sides, (traversal.leave sides).size = entries.length - sides.length

theorem size_take (traversal : Traversal) (side : Side) :
    (traversal.take side).2.size = traversal.size - 1 := by
  cases side <;> simp [take, size]

end Traversal

/-- All entries of a map. -/
def SortedMap.traverse (map : SortedMap) : Traversal :=
  ⟨map.entries⟩

/-- The entries of a map from `start` up to but not including `stop`. -/
def SortedMap.traverseRange (map : SortedMap) (start stop : Bytes) : Traversal :=
  ⟨map.range start stop⟩

end ByteIndex
