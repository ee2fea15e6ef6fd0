import ByteIndex.Proofs.CallSimulation
/-!
# Failures leave no trace

A request that is refused and a call that fails leave the catalog as it was: every slot, both free
stacks, every map and every cursor. They report no creation and no destruction, so whatever lives in
a catalog was handed to a caller.
-/
namespace ByteIndex

namespace Catalog

variable {catalog : Catalog} {handle : Handle}

/-- The handle reaches a map or a cursor. -/
def Live (catalog : Catalog) (handle : Handle) : Prop :=
  (∃ stored, catalog.map handle = .ok stored) ∨ ∃ owned, catalog.cursors.get handle = .ok owned

private theorem live_perform (hmaps : catalog.maps.WellFormed)
    (hcursors : catalog.cursors.WellFormed)
    {request : Request} (h : (catalog.perform request).catalog.Live handle) :
    catalog.Live handle ∨ (catalog.perform request).result = .ok (.issued handle) := by
  have heffect := catalog.perform_effect request
  rcases h with ⟨stored, hmap⟩ | ⟨owned, hcursor⟩
  · rcases heffect.maps_step.live_before hmaps hmap with hissued | hbefore
    · exact .inr (Request.result_of_issued hissued)
    · exact .inl (.inl hbefore)
  · rcases heffect.cursors_step.live_before hcursors hcursor with hissued | hbefore
    · exact .inr (Request.result_of_issued hissued)
    · exact .inl (.inr hbefore)

end Catalog

namespace Boundary

variable {catalog : Catalog} {call : Call} {handle : Handle}

/-- The handles that a caller is given, as the return value or in a variable. -/
def Outcome.handles (outcome : Outcome) : List Handle :=
  (match outcome.returned with
    | .handle issued => [issued]
    | .status _ => []) ++
  outcome.writes.filterMap fun
    | .map issued | .cursor issued => some issued
    | _ => none

private theorem wellFormed_perform (hmaps : catalog.maps.WellFormed)
    (hcursors : catalog.cursors.WellFormed) (call : Call) :
    (call.perform catalog).catalog.maps.WellFormed ∧
      (call.perform catalog).catalog.cursors.WellFormed := by
  cases herror : call.error? catalog with
  | some error =>
    rw [(Call.perform_of_error? herror).2.1]
    exact ⟨hmaps, hcursors⟩
  | none =>
    have heffect := catalog.perform_effect call.request
    obtain ⟨_, _, _, hperform⟩ := Call.perform_of_no_error? herror
    rw [hperform]
    exact ⟨heffect.maps_step.wellFormed hmaps, heffect.cursors_step.wellFormed hcursors⟩

private theorem mem_handles_of_issued (hmissing : call.missing? = none)
    (hissued : (catalog.perform call.request).result = .ok (.issued handle)) :
    handle ∈ (call.perform catalog).handles := by
  have hmaker : (∃ config, call.request = .createMap config) ∨
      ∃ owner place, call.request.opening = some (owner, place) := by
    rcases Catalog.stored_of_issued hissued with
      ⟨config, _, hrequest, _⟩ | ⟨owner, place, _, _, h, _⟩
    · exact .inl ⟨config, hrequest⟩
    · exact .inr ⟨owner, place, h⟩
  rw [Call.perform_of_ok hmissing hissued]
  cases call with
  | create | createLimited | seek | seekFirst => exact List.mem_cons_self
  | destroy | put | set | erase | get | next | prev | destroyCursor =>
    rcases hmaker with ⟨_, hcreate⟩ | ⟨_, _, hopening⟩
    · cases hcreate
    · cases hopening

theorem live_call (hmaps : catalog.maps.WellFormed) (hcursors : catalog.cursors.WellFormed)
    (h : (call.perform catalog).catalog.Live handle) :
    catalog.Live handle ∨
      ¬ (call.perform catalog).returned.Fails ∧ handle ∈ (call.perform catalog).handles := by
  cases herror : call.error? catalog with
  | some error =>
    rw [(Call.perform_of_error? herror).2.1] at h
    exact .inl h
  | none =>
    obtain ⟨answer, hmissing, hresult, hperform⟩ := Call.perform_of_no_error? herror
    have hsucceeds : ¬ (call.perform catalog).returned.Fails := by
      rw [hperform]
      exact Call.not_fails_accepted hmaps hcursors hresult
    rw [hperform] at h
    rcases Catalog.live_perform hmaps hcursors h with hbefore | hissued
    · exact .inl hbefore
    · exact .inr ⟨hsucceeds, mem_handles_of_issued hmissing hissued⟩

theorem live_session (hmaps : catalog.maps.WellFormed) (hcursors : catalog.cursors.WellFormed)
    (calls : List Call) (h : (session catalog calls).Live handle) :
    catalog.Live handle ∨
      ∃ outcome ∈ outcomes catalog calls, ¬ outcome.returned.Fails ∧ handle ∈ outcome.handles := by
  induction calls generalizing catalog with
  | nil => exact .inl h
  | cons call rest ih =>
    obtain ⟨hnextMaps, hnextCursors⟩ := wellFormed_perform hmaps hcursors call
    rw [session_cons] at h
    rcases ih hnextMaps hnextCursors h with hlive | ⟨outcome, hmem, hgiven⟩
    · rcases live_call hmaps hcursors hlive with hbefore | hgiven
      · exact .inl hbefore
      · exact .inr ⟨_, List.mem_cons_self, hgiven⟩
    · exact .inr ⟨outcome, List.mem_cons_of_mem _ hmem, hgiven⟩

/-- In every catalog that requests lead to, failing requests and failing calls change nothing and
report neither a creation nor a destruction, and no call makes a resource without handing over its
handle. -/
theorem failure_changes_nothing (requests : List Request) :
    let catalog := Catalog.empty.run requests
    (∀ request error, (catalog.perform request).result = .error error →
      (catalog.perform request).catalog = catalog ∧ (catalog.perform request).events = []) ∧
    (∀ call : Call, (call.perform catalog).returned.Fails →
      (call.perform catalog).catalog = catalog ∧
        ∀ event ∈ (call.perform catalog).events, event.level ≠ .debug ∧ event.level ≠ .trace) ∧
    ∀ calls handle, (session catalog calls).Live handle →
      catalog.Live handle ∨
        ∃ outcome ∈ outcomes catalog calls,
          ¬ outcome.returned.Fails ∧ handle ∈ outcome.handles := by
  intro catalog
  have hmaps := (Catalog.accounts_maps requests).wellFormed
  have hcursors := (Catalog.accounts_cursors requests).wellFormed
  refine ⟨?_, ?_, ?_⟩
  · intro request error hresult
    rw [Catalog.perform_of_error hresult]
    exact ⟨rfl, rfl⟩
  · intro call hfails
    have herror := (Call.fails_iff hmaps hcursors).mp hfails
    obtain ⟨error, herror⟩ := Option.ne_none_iff_exists'.mp herror
    obtain ⟨_, hcatalog, hevents⟩ := Call.perform_of_error? herror
    refine ⟨hcatalog, ?_⟩
    intro event hmem
    rw [hevents] at hmem
    rw [List.mem_singleton.mp hmem]
    exact ⟨nofun, nofun⟩
  · intro calls handle hlive
    exact live_session hmaps hcursors calls hlive

end Boundary
end ByteIndex
