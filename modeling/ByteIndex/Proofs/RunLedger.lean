import ByteIndex.Proofs.RequestEffect
/-!
# Ledgers of runs

The ledger of a run lists the handles of one kind that the run issued and destroyed. The tables of
the catalog that a run leaves agree with its ledgers, and a resource that is not destroyed is what the
requests made of it one after another.
-/
namespace ByteIndex.Catalog

variable {catalog : Catalog} {kind : Kind} {handle : Handle}

/-- What a run leaves in the ledger of a kind. -/
def ledger (kind : Kind) (catalog : Catalog) : List Request → Ledger
  | [] => []
  | request :: rest =>
    let reply := catalog.perform request
    request.marks kind reply.result ++ reply.catalog.ledger kind rest

/-- What the requests of a run make of the cursor under a handle. -/
def follow (handle : Handle) (catalog : Catalog) : List Request → OwnedCursor → OwnedCursor
  | [], owned => owned
  | request :: rest, owned =>
    (catalog.perform request).catalog.follow handle rest (request.carry handle catalog owned)

theorem run_cons (catalog : Catalog) (request : Request) (rest : List Request) :
    catalog.run (request :: rest) = (catalog.perform request).catalog.run rest := rfl

theorem ledger_append (kind : Kind) (catalog : Catalog) (first second : List Request) :
    catalog.ledger kind (first ++ second) =
      catalog.ledger kind first ++ (catalog.run first).ledger kind second := by
  induction first generalizing catalog with
  | nil => rfl
  | cons request rest ih => simp [ledger, run_cons, ih]

/-- A run of requests is a run of table operations on both tables. -/
theorem reachable_run (catalog : Catalog) (requests : List Request) {maps cursors : Ledger}
    (hmaps : SlotTable.Reachable maps catalog.maps)
    (hcursors : SlotTable.Reachable cursors catalog.cursors) :
    SlotTable.Reachable (maps ++ catalog.ledger .map requests) (catalog.run requests).maps ∧
      SlotTable.Reachable (cursors ++ catalog.ledger .cursor requests)
        (catalog.run requests).cursors := by
  induction requests generalizing catalog maps cursors with
  | nil =>
    simp only [ledger, List.append_nil]
    exact ⟨hmaps, hcursors⟩
  | cons request rest ih =>
    have heffect := catalog.perform_effect request
    simp only [ledger, ← List.append_assoc]
    exact ih _ (hmaps.step heffect.maps_step) (hcursors.step heffect.cursors_step)

theorem accounts_maps (requests : List Request) :
    SlotTable.Accounts (empty.ledger .map requests) (empty.run requests).maps := by
  have hreachable := reachable_run empty requests .empty .empty
  exact hreachable.1.accounts

theorem accounts_cursors (requests : List Request) :
    SlotTable.Accounts (empty.ledger .cursor requests) (empty.run requests).cursors := by
  have hreachable := reachable_run empty requests .empty .empty
  exact hreachable.2.accounts

theorem map_run (hw : catalog.maps.WellFormed) {stored : SortedMap}
    (hmap : catalog.map handle = .ok stored) (requests : List Request)
    (hkept : .destroyed handle ∉ catalog.ledger .map requests) :
    (catalog.run requests).map handle = .ok (requests.foldl (Request.revise handle) stored) := by
  induction requests generalizing catalog stored with
  | nil => exact hmap
  | cons request rest ih =>
    have heffect := catalog.perform_effect request
    rw [ledger, List.mem_append, not_or] at hkept
    exact ih (heffect.maps_step.wellFormed hw) (heffect.map_eq hw hmap hkept.1) hkept.2

theorem cursor_run (hw : catalog.cursors.WellFormed) {owned : OwnedCursor}
    (hcursor : catalog.cursors.get handle = .ok owned) (requests : List Request)
    (hkept : .destroyed handle ∉ catalog.ledger .cursor requests) :
    (catalog.run requests).cursors.get handle = .ok (catalog.follow handle requests owned) := by
  induction requests generalizing catalog owned with
  | nil => exact hcursor
  | cons request rest ih =>
    have heffect := catalog.perform_effect request
    rw [ledger, List.mem_append, not_or] at hkept
    exact ih (heffect.cursors_step.wellFormed hw) (heffect.cursor_eq hw hcursor hkept.1) hkept.2

theorem exists_of_issued {requests : List Request}
    (h : Ledger.Issued (catalog.ledger kind requests) handle) :
    ∃ before request after, requests = before ++ request :: after ∧
      .issued handle ∈ request.marks kind ((catalog.run before).perform request).result := by
  induction requests generalizing catalog with
  | nil => cases h
  | cons request rest ih =>
    rw [ledger, Ledger.issued_append] at h
    rcases h with h | h
    · exact ⟨[], request, rest, rfl, h⟩
    · obtain ⟨before, later, after, hsplit, hissued⟩ := ih h
      exact ⟨request :: before, later, after, by rw [hsplit]; rfl, hissued⟩

end ByteIndex.Catalog
