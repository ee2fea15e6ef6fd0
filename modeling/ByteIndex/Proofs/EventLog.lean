import ByteIndex.Proofs.CursorOwnership
import ByteIndex.Proofs.KeyLimit
import ByteIndex.Proofs.LedgerBalance
import ByteIndex.Proofs.RequestFrame
/-!
# The log of a run

The events of a run tell its ledgers, and with them what is live in the catalog that the run leaves.
What an event says about a resource is how the resource stood when the event was reported, and what
cannot change it has for life: a map its limit and a cursor its owner.
-/
namespace ByteIndex

namespace Event

/-- What an event says about the handles of a kind. -/
def mark? : Kind → Event → Option Mark
  | .map, .createdMap handle _ => some (.issued handle)
  | .map, .destroyedMap handle _ => some (.destroyed handle)
  | .cursor, .createdCursor _ handle _ => some (.issued handle)
  | .cursor, .destroyedCursor handle => some (.destroyed handle)
  | _, _ => none

/-- The ledger of a kind as a log tells it. -/
def ledger (kind : Kind) (log : List Event) : Ledger :=
  log.filterMap (mark? kind)

end Event

namespace Catalog

variable {catalog : Catalog} {request : Request} {reply : Reply Answer} {requests : List Request}
  {handle : Handle}

/-- All that a run reports, in order. -/
def events (catalog : Catalog) (requests : List Request) : List Event :=
  (catalog.replies requests).flatMap Reply.events

/-- The handle reaches a resource of the kind. -/
def Reaches (catalog : Catalog) (kind : Kind) (handle : Handle) : Prop :=
  match kind with
  | .map => ∃ stored, catalog.map handle = .ok stored
  | .cursor => ∃ owned, catalog.cursors.get handle = .ok owned

namespace Effect

end Effect

private theorem put_eq_error_iff {stored : SortedMap} (hmap : catalog.map handle = .ok stored)
    (key : Bytes) (value : UInt64) (error : Error) :
    ((catalog.put handle key value).result = .error error ↔ stored.put key value = .error error) ∧
      ((catalog.set handle key value).result = .error error ↔
        stored.put key value = .error error) := by
  rw [put, set, hmap]
  dsimp only [SortedMap.set]
  cases stored.put key value with
  | error cause => simp [refuse, Except.map]
  | ok changed => simp [answer, Except.map]

end Catalog
end ByteIndex
