import ByteIndex.Proofs.TableLedger
/-!
# Runs of table operations

The operations of a table as data, each with any handle at all. A refused operation leaves the table
as it is.
-/
namespace ByteIndex.SlotTable

variable {α : Type} {tag : UInt8} {table : SlotTable tag α} {handle : Handle} {ledger : Ledger}

inductive Operation (α : Type) where
  | insert (value : α)
  | get (handle : Handle)
  /-- Change the value under a handle in place. -/
  | update (handle : Handle) (change : α → α)
  | remove (handle : Handle)

/-- What an operation leaves in the ledger, and the table after it. -/
def perform (table : SlotTable tag α) : Operation α → Ledger × SlotTable tag α
  | .insert value =>
    match table.insert value with
    | some (handle, next) => ([.issued handle], next)
    | none => ([], table)
  | .get _ => ([], table)
  | .update handle change =>
    match table.get handle with
    | .ok value => ([], table.replace handle.index (change value))
    | .error _ => ([], table)
  | .remove handle =>
    match table.remove handle with
    | .ok (_, next) => ([.destroyed handle], next)
    | .error _ => ([], table)

def run (table : SlotTable tag α) : List (Operation α) → Ledger × SlotTable tag α
  | [] => ([], table)
  | operation :: rest =>
    let (marks, next) := table.perform operation
    let (ledger, last) := next.run rest
    (marks ++ ledger, last)

theorem step_perform (table : SlotTable tag α) (operation : Operation α) :
    Step table (table.perform operation).1 (table.perform operation).2 := by
  cases operation with
  | insert value =>
    rw [perform]
    cases hinsert : table.insert value with
    | none => exact .keep
    | some stored => exact .insert hinsert
  | get handle => exact .keep
  | update handle change =>
    rw [perform]
    cases hget : table.get handle with
    | error error => exact .keep
    | ok value => exact .replace (change value) hget
  | remove handle =>
    rw [perform]
    cases hremove : table.remove handle with
    | error error => exact .keep
    | ok taken => exact .remove hremove

theorem Reachable.run (h : Reachable ledger table) (operations : List (Operation α)) :
    Reachable (ledger ++ (table.run operations).1) (table.run operations).2 := by
  induction operations generalizing ledger table with
  | nil =>
    rw [SlotTable.run, List.append_nil]
    exact h
  | cons operation rest ih =>
    have hrest := ih (h.step (table.step_perform operation))
    rw [List.append_assoc] at hrest
    exact hrest

end ByteIndex.SlotTable
