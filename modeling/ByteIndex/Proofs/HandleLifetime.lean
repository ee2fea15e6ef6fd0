import ByteIndex.Proofs.RunLedger
/-!
# The life of a handle

Over any run a handle is issued at most once. From then on it reaches the one resource that it was
issued for until it is destroyed, and nothing after that.
-/
namespace ByteIndex

/-- The handle that a reply issues. -/
def Reply.issued? (reply : Reply Answer) : Option Handle :=
  match reply.result with
  | .ok (.issued handle) => some handle
  | _ => none

theorem Reply.result_of_issued? {reply : Reply Answer} {handle : Handle}
    (h : reply.issued? = some handle) : reply.result = .ok (.issued handle) := by
  unfold issued? at h
  split at h <;> simp_all

namespace Catalog

variable {catalog : Catalog} {request : Request} {handle : Handle}

/-- A table of the catalog has issued the handle. -/
def Issued (catalog : Catalog) (handle : Handle) : Prop :=
  catalog.maps.Issued handle ∨ catalog.cursors.Issued handle

theorem ne_null_of_issued (h : catalog.Issued handle) : handle ≠ .null := by
  rintro rfl
  rcases h with h | h
  · exact absurd h.1.2 (by decide)
  · exact absurd h.1.2 (by decide)

theorem issued_perform (hmaps : catalog.maps.WellFormed) (hcursors : catalog.cursors.WellFormed)
    (request : Request) (h : catalog.Issued handle) :
    (catalog.perform request).catalog.Issued handle := by
  have heffect := catalog.perform_effect request
  rcases h with h | h
  · exact .inl ((heffect.maps_step.issued_iff hmaps handle).mpr (.inl h))
  · exact .inr ((heffect.cursors_step.issued_iff hcursors handle).mpr (.inl h))

/-- Tables of different tags share no handle, so what is new to its own table is new. -/
theorem fresh_of_issued (hmaps : catalog.maps.WellFormed) (hcursors : catalog.cursors.WellFormed)
    (h : (catalog.perform request).result = .ok (.issued handle)) :
    ¬ catalog.Issued handle ∧ (catalog.perform request).catalog.Issued handle := by
  rcases stored_of_issued h with ⟨_, _, _, hinsert, hnext⟩ | ⟨_, _, _, _, _, _, hinsert, hnext⟩
  · have hfilled := SlotTable.filled_of_insert hmaps hinsert
    refine ⟨?_, ?_⟩
    · rintro (hissued | hissued)
      · exact SlotTable.not_issued_of_filled hfilled hissued
      · exact absurd (hfilled.names.1.symm.trans hissued.1.1) (by decide)
    · rw [hnext]
      exact .inl ((SlotTable.issued_filled_iff hmaps hfilled handle).mpr (.inl rfl))
  · have hfilled := SlotTable.filled_of_insert hcursors hinsert
    refine ⟨?_, ?_⟩
    · rintro (hissued | hissued)
      · exact absurd (hfilled.names.1.symm.trans hissued.1.1) (by decide)
      · exact SlotTable.not_issued_of_filled hfilled hissued
    · rw [hnext]
      exact .inr ((SlotTable.issued_filled_iff hcursors hfilled handle).mpr (.inl rfl))

theorem nodup_issued (catalog : Catalog) (requests : List Request)
    (hmaps : catalog.maps.WellFormed) (hcursors : catalog.cursors.WellFormed) :
    ((catalog.replies requests).filterMap Reply.issued?).Nodup ∧
      ∀ handle ∈ (catalog.replies requests).filterMap Reply.issued?,
        ¬ catalog.Issued handle ∧ handle ≠ .null := by
  induction requests generalizing catalog with
  | nil => simp [replies]
  | cons request rest ih =>
    have heffect := catalog.perform_effect request
    obtain ⟨hnodup, hfresh⟩ := ih _ (heffect.maps_step.wellFormed hmaps)
      (heffect.cursors_step.wellFormed hcursors)
    -- what is new after this request was new before it, since tables never forget what they issued
    have hlater : ∀ handle ∈ ((catalog.perform request).catalog.replies rest).filterMap
        Reply.issued?, ¬ catalog.Issued handle ∧ handle ≠ .null := fun handle hmem =>
      ⟨fun h => (hfresh handle hmem).1 (issued_perform hmaps hcursors request h),
        (hfresh handle hmem).2⟩
    rw [replies, List.filterMap_cons]
    split
    · exact ⟨hnodup, hlater⟩
    · rename_i first hfirst
      obtain ⟨hnew, hissued⟩ :=
        fresh_of_issued hmaps hcursors (Reply.result_of_issued? hfirst)
      refine ⟨List.nodup_cons.mpr ⟨fun hmem => (hfresh first hmem).1 hissued, hnodup⟩, ?_⟩
      intro handle hmem
      rcases List.mem_cons.mp hmem with rfl | hmem
      · exact ⟨hnew, ne_null_of_issued hissued⟩
      · exact hlater handle hmem

/-- All words that a run issues, to maps and cursors together, differ from each other and from
zero. -/
theorem issued_words_distinct (requests : List Request) :
    let words := ((empty.replies requests).filterMap Reply.issued?).map Handle.raw
    words.Nodup ∧ 0 ∉ words := by
  obtain ⟨hnodup, hfresh⟩ :=
    nodup_issued empty requests SlotTable.wellFormed_empty SlotTable.wellFormed_empty
  refine ⟨List.pairwise_map.mpr (hnodup.imp fun hne hraw => hne (Handle.eq_of_raw hraw)), ?_⟩
  intro hzero
  obtain ⟨handle, hmem, hraw⟩ := List.mem_map.mp hzero
  have hnull : handle = .null := Handle.eq_of_raw hraw
  exact (hfresh handle hmem).2 hnull

/-- A new handle is in the ledger of its kind and reaches what was stored with it. -/
theorem held_of_issued (hmaps : catalog.maps.WellFormed) (hcursors : catalog.cursors.WellFormed)
    (h : (catalog.perform request).result = .ok (.issued handle)) :
    (∃ config, request = .createMap config ∧
      .issued handle ∈ request.marks .map (catalog.perform request).result ∧
      (catalog.perform request).catalog.map handle = .ok (.emptyWith config)) ∨
    ∃ owner place stored, request.opening = some (owner, place) ∧
      catalog.map owner = .ok stored ∧
      .issued handle ∈ request.marks .cursor (catalog.perform request).result ∧
      (catalog.perform request).catalog.cursors.get handle = .ok ⟨owner, place stored⟩ := by
  rcases stored_of_issued h with
    ⟨config, maps, rfl, hinsert, hnext⟩ |
      ⟨owner, place, stored, cursors, hopening, hmap, hinsert, hnext⟩
  · have hfilled := SlotTable.filled_of_insert hmaps hinsert
    refine .inl ⟨config, rfl, ?_, ?_⟩
    · rw [h]
      exact List.mem_cons_self
    · rw [map, hnext, SlotTable.get_filled hfilled, if_pos rfl]
  · have hfilled := SlotTable.filled_of_insert hcursors hinsert
    refine .inr ⟨owner, place, stored, hopening, hmap, ?_, ?_⟩
    · rw [h, (Request.marks_of_opening hopening handle).2]
      exact List.mem_cons_self
    · rw [hnext, SlotTable.get_filled hfilled, if_pos rfl]

/-- Whoever looks the handle up among the resources of a kind is told that it is stale. -/
structure Denies (catalog : Catalog) (kind : Kind) (handle : Handle) : Prop where
  refuses : catalog.Refuses kind handle (.staleHandle handle)
  result {request : Request} : request.LooksUp catalog kind handle →
    (catalog.perform request).result = .error (.staleHandle handle)

theorem denies_of_refuses {kind : Kind} (h : catalog.Refuses kind handle (.staleHandle handle)) :
    catalog.Denies kind handle :=
  ⟨h, fun hlook => result_of_refuses hlook h⟩

private theorem refuses_stale_iff (requests : List Request) (kind : Kind) (handle : Handle) :
    (empty.run requests).Refuses kind handle (.staleHandle handle) ↔
      (empty.ledger kind requests).Destroyed handle ∨
        ¬ (empty.ledger kind requests).Issued handle ∧ handle.tag = kind.tag ∧
          (empty.ledger kind requests).Destroyed handle.previous := by
  cases kind with
  | map =>
    have haccounts := accounts_maps requests
    rw [haccounts.destroyed_iff, haccounts.destroyed_iff, haccounts.issued_iff]
    exact SlotTable.get_eq_stale_iff_spent haccounts.wellFormed handle
  | cursor =>
    have haccounts := accounts_cursors requests
    rw [haccounts.destroyed_iff, haccounts.destroyed_iff, haccounts.issued_iff]
    exact SlotTable.get_eq_stale_iff_spent haccounts.wellFormed handle

private theorem refuses_of_not_issued {requests : List Request} {kind : Kind}
    (h : ¬ (empty.ledger kind requests).Issued handle) :
    (empty.run requests).Refuses kind handle (.invalidHandle handle) ∨
      (empty.run requests).Refuses kind handle (.staleHandle handle) := by
  cases kind with
  | map =>
    have haccounts := accounts_maps requests
    rw [haccounts.issued_iff] at h
    exact SlotTable.get_of_not_issued haccounts.wellFormed h
  | cursor =>
    have haccounts := accounts_cursors requests
    rw [haccounts.issued_iff] at h
    exact SlotTable.get_of_not_issued haccounts.wellFormed h

theorem denies_of_destroyed {requests : List Request} {kind : Kind}
    (h : (empty.ledger kind requests).Destroyed handle) :
    (empty.run requests).Denies kind handle :=
  denies_of_refuses ((refuses_stale_iff requests kind handle).mpr (.inl h))

private theorem destroyed_of_mem {before after : List Request} {kind : Kind}
    (hissued : .issued handle ∈ request.marks kind ((empty.run before).perform request).result)
    (hdestroyed : .destroyed handle ∈
      ((empty.run before).perform request).catalog.ledger kind after) :
    (empty.ledger kind (before ++ request :: after)).Destroyed handle := by
  rw [ledger_append, ledger, ← List.append_assoc]
  exact Ledger.destroyed_append_of_mem ((Ledger.issued_append _ _ _).mpr (.inr hissued)) hdestroyed

theorem map_lifetime {before : List Request} {config : Config} (after : List Request)
    (hissued : ((empty.run before).perform (.createMap config)).result = .ok (.issued handle)) :
    let start := ((empty.run before).perform (.createMap config)).catalog
    (.destroyed handle ∉ start.ledger .map after →
      (start.run after).map handle =
        .ok (after.foldl (Request.revise handle) (.emptyWith config))) ∧
    (.destroyed handle ∈ start.ledger .map after →
      (empty.ledger .map (before ++ .createMap config :: after)).Destroyed handle) := by
  intro start
  have hmaps := (accounts_maps before).wellFormed
  have hcursors := (accounts_cursors before).wellFormed
  have heffect := (empty.run before).perform_effect (.createMap config)
  rcases held_of_issued hmaps hcursors hissued with
    ⟨_, hrequest, hmark, hstart⟩ | ⟨_, _, _, hopening, _⟩
  · cases hrequest
    exact ⟨map_run (heffect.maps_step.wellFormed hmaps) hstart after, destroyed_of_mem hmark⟩
  · cases hopening

theorem cursor_lifetime {before : List Request} {owner : Handle} {place : SortedMap → Cursor}
    (after : List Request) (hopening : request.opening = some (owner, place))
    (hissued : ((empty.run before).perform request).result = .ok (.issued handle)) :
    let start := ((empty.run before).perform request).catalog
    ∃ stored, (empty.run before).map owner = .ok stored ∧
      (.destroyed handle ∉ start.ledger .cursor after →
        (start.run after).cursors.get handle =
          .ok (start.follow handle after ⟨owner, place stored⟩)) ∧
      (.destroyed handle ∈ start.ledger .cursor after →
        (empty.ledger .cursor (before ++ request :: after)).Destroyed handle) := by
  intro start
  have hmaps := (accounts_maps before).wellFormed
  have hcursors := (accounts_cursors before).wellFormed
  have heffect := (empty.run before).perform_effect request
  rcases held_of_issued hmaps hcursors hissued with
    ⟨_, rfl, _⟩ | ⟨_, _, stored, hsame, hmap, hmark, hstart⟩
  · cases hopening
  · rw [hopening] at hsame
    cases hsame
    exact ⟨stored, hmap, cursor_run (heffect.cursors_step.wellFormed hcursors) hstart after,
      destroyed_of_mem hmark⟩

/-- A handle reaches the resource that it was issued for, as the requests given that handle have
changed it since. Once the resource is destroyed, every request that looks the handle up learns that
it is stale, whatever its slot holds by then. -/
theorem handle_lifetime (before after : List Request) (request : Request) (handle : Handle)
    (hissued : ((empty.run before).perform request).result = .ok (.issued handle)) :
    let earlier := empty.run before
    let start := (earlier.perform request).catalog
    let final := start.run after
    (∃ config, request = .createMap config ∧
      (.destroyed handle ∉ start.ledger .map after →
        final.map handle = .ok (after.foldl (Request.revise handle) (.emptyWith config))) ∧
      (.destroyed handle ∈ start.ledger .map after → final.Denies .map handle)) ∨
    ∃ owner place stored, request.opening = some (owner, place) ∧
      earlier.map owner = .ok stored ∧
      (.destroyed handle ∉ start.ledger .cursor after →
        final.cursors.get handle = .ok (start.follow handle after ⟨owner, place stored⟩)) ∧
      (.destroyed handle ∈ start.ledger .cursor after → final.Denies .cursor handle) := by
  intro earlier start final
  have hfinal : final = empty.run (before ++ request :: after) := by
    rw [run_append, run_cons]
  rcases stored_of_issued hissued with
    ⟨config, _, rfl, _⟩ | ⟨owner, place, _, _, hopening, _⟩
  · obtain ⟨hkept, hdestroyed⟩ := map_lifetime after hissued
    refine .inl ⟨config, rfl, hkept, fun hmem => ?_⟩
    rw [hfinal]
    exact denies_of_destroyed (hdestroyed hmem)
  · obtain ⟨stored, hmap, hkept, hdestroyed⟩ := cursor_lifetime after hopening hissued
    refine .inr ⟨owner, place, stored, hopening, hmap, hkept, fun hmem => ?_⟩
    rw [hfinal]
    exact denies_of_destroyed (hdestroyed hmem)

theorem first_cursor_denied_after_reuse :
    ((empty.run [.createMap .unbounded]).perform (.seekFirst ⟨0x4D00000100000000⟩)).result =
        .ok (.issued ⟨0x4300000100000000⟩) ∧
      (empty.run [.createMap .unbounded, .seekFirst ⟨0x4D00000100000000⟩,
        .destroyCursor ⟨0x4300000100000000⟩, .seekFirst ⟨0x4D00000100000000⟩]).Denies
          .cursor ⟨0x4300000100000000⟩ := by
  have hissued : ((empty.run [.createMap .unbounded]).perform
      (.seekFirst ⟨0x4D00000100000000⟩)).result = .ok (.issued ⟨0x4300000100000000⟩) := rfl
  refine ⟨hissued, ?_⟩
  rcases handle_lifetime [.createMap .unbounded]
      [.destroyCursor ⟨0x4300000100000000⟩, .seekFirst ⟨0x4D00000100000000⟩]
      (.seekFirst ⟨0x4D00000100000000⟩) ⟨0x4300000100000000⟩ hissued with
    ⟨config, hrequest, _⟩ | ⟨_, _, _, _, _, _, hdenies⟩
  · cases hrequest
  · exact hdenies (by decide)

/-- Whether a look-up learns that a handle is stale. A handle that was never issued is stale too when
it is next in its slot, behind a handle that was destroyed. -/
theorem stale_lookup_iff (requests : List Request) (request : Request) (handle : Handle) :
    let catalog := empty.run requests
    let result := (catalog.perform request).result
    (result = .error (.staleHandle handle) ↔ ∃ kind, request.LooksUp catalog kind handle ∧
      ((empty.ledger kind requests).Destroyed handle ∨
        ¬ (empty.ledger kind requests).Issued handle ∧ handle.tag = kind.tag ∧
          (empty.ledger kind requests).Destroyed handle.previous)) ∧
    ∀ kind, request.LooksUp catalog kind handle → ¬ (empty.ledger kind requests).Issued handle →
      (result = .error (.invalidHandle handle) ↔
        ¬ (handle.tag = kind.tag ∧ (empty.ledger kind requests).Destroyed handle.previous)) := by
  intro catalog result
  refine ⟨⟨fun hresult => ?_, ?_⟩, fun kind hlook hissued => ?_⟩
  · obtain ⟨kind, hlook, hrefuses⟩ := refuses_of_stale hresult
    exact ⟨kind, hlook, (refuses_stale_iff requests kind handle).mp hrefuses⟩
  · intro ⟨kind, hlook, hledger⟩
    exact result_of_refuses hlook ((refuses_stale_iff requests kind handle).mpr hledger)
  · have hstale := refuses_stale_iff requests kind handle
    rcases refuses_of_not_issued hissued with hrefuses | hrefuses
    · have hresult : result = .error (.invalidHandle handle) := result_of_refuses hlook hrefuses
      refine iff_of_true hresult fun hnext => ?_
      have hother : result = .error (.staleHandle handle) :=
        result_of_refuses hlook (hstale.mpr (.inr ⟨hissued, hnext⟩))
      rw [hresult] at hother
      cases hother
    · have hresult : result = .error (.staleHandle handle) := result_of_refuses hlook hrefuses
      rcases hstale.mp hrefuses with hdestroyed | ⟨_, hnext⟩
      · exact absurd (Ledger.mem_of_destroyed hdestroyed).1 hissued
      · refine iff_of_false (fun hinvalid => ?_) (not_not_intro hnext)
        rw [hresult] at hinvalid
        cases hinvalid

/-- The slot that this run empties waits with a handle that the run has not issued. -/
theorem unissued_handle_stale :
    ¬ (empty.ledger .map [.createMap .unbounded, .destroyMap ⟨0x4D00000100000000⟩]).Issued
        ⟨0x4D00000200000000⟩ ∧
      ((empty.run [.createMap .unbounded, .destroyMap ⟨0x4D00000100000000⟩]).perform
        (.get ⟨0x4D00000200000000⟩ [])).result =
          .error (.staleHandle ⟨0x4D00000200000000⟩) :=
  ⟨by decide, rfl⟩

end Catalog
end ByteIndex
