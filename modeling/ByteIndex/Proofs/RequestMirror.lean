import ByteIndex.Proofs.HandleLifetime
import ByteIndex.Proofs.TableMirror
/-!
# Catalogs that mirror each other

A catalog that one client has for itself mirrors a catalog that it shares: handles that the client was
issued for the same request are linked. The same request on linked handles is answered alike by both
and links the handles that it issues; a request on other handles is noticed by no one who holds a
linked one.
-/
namespace ByteIndex

namespace Request

variable {request : Request} {naming : Handle → Handle}

private theorem edit_rename {target : Handle} {change : Change}
    (h : request.edit = some (target, change)) :
    (request.rename naming).edit = some (naming target, change) := by
  cases request <;> cases h <;> rfl

private theorem opening_rename {owner : Handle} {place : SortedMap → Cursor}
    (h : request.opening = some (owner, place)) :
    (request.rename naming).opening = some (naming owner, place) := by
  cases request <;> cases h <;> rfl

private theorem mem_handles_of_edit {target : Handle} {change : Change}
    (h : request.edit = some (target, change)) : target ∈ request.handles := by
  cases request <;> cases h <;> exact List.mem_singleton_self _

end Request

/-- Both cursors stand at the same place of maps that stand for each other. -/
def OwnedCursor.Matches (link : Link) (first second : OwnedCursor) : Prop :=
  link first.owner second.owner ∧ first.cursor = second.cursor

namespace Catalog

/-- Both tables have an index that was never in use. -/
def HasRoom (catalog : Catalog) : Prop :=
  catalog.maps.slots.size < Handle.indexCount ∧ catalog.cursors.slots.size < Handle.indexCount

instance (catalog : Catalog) : Decidable catalog.HasRoom :=
  inferInstanceAs (Decidable (_ ∧ _))

/-- Linked handles reach equal maps and matching cursors, and the null word stands for itself. -/
structure Mirrors (link : Link) (first second : Catalog) : Prop where
  biUnique : Relator.BiUnique link
  null : link .null .null
  maps : first.maps.Mirrors link Eq second.maps
  cursors : first.cursors.Mirrors link (OwnedCursor.Matches link) second.cursors

end Catalog

/-- Two replies leave mirroring catalogs and say the same of linked handles, issued ones included. -/
structure Reply.Mirrors (link : Link) (first second : Reply Answer) : Prop where
  catalog : first.catalog.Mirrors (link.extend first.issued? second.issued?) second.catalog
  response : ∀ ⦃naming⦄, (link.extend first.issued? second.issued?).Follows naming →
    second.response = first.response.rename naming

namespace Catalog

variable {link : Link} {first second : Catalog}

theorem mirrors_empty : empty.Mirrors .initial empty := by
  refine ⟨⟨?_, ?_⟩, ⟨rfl, rfl⟩, SlotTable.mirrors_empty _, SlotTable.mirrors_empty _⟩
  · rintro _ _ _ ⟨rfl, _⟩ ⟨rfl, _⟩
    rfl
  · rintro _ _ _ ⟨_, rfl⟩ ⟨_, rfl⟩
    rfl

/-! ## Replies -/

private theorem mirrors_of_not_issued {reply answer : Reply Answer} (hissued : reply.issued? = none)
    (h : reply.catalog.Mirrors link answer.catalog) (hresponse : ∀ ⦃naming⦄, link.Follows naming →
      answer.response = reply.response.rename naming) : Reply.Mirrors link reply answer := by
  have hlink : link.extend reply.issued? answer.issued? = link := by
    rw [hissued, Link.extend_none]
  exact ⟨hlink.symm ▸ h, hlink.symm ▸ hresponse⟩

private theorem mirrors_refuse (h : first.Mirrors link second) {error refusal : Error}
    (herror : ∀ ⦃naming⦄, link.Follows naming → refusal = error.rename naming) :
    Reply.Mirrors link (first.refuse error) (second.refuse refusal) := by
  refine mirrors_of_not_issued rfl h fun naming hnaming => ?_
  rw [herror hnaming]
  rfl

private theorem mirrors_reply {firstNext secondNext : Catalog} {answer : Answer}
    {reports notices : List Event} (h : firstNext.Mirrors link secondNext)
    (hanswer : ∀ handle, answer ≠ .issued handle)
    (hevents : ∀ ⦃naming⦄, link.Follows naming → notices = reports.map (Event.rename naming)) :
    Reply.Mirrors link ⟨.ok answer, firstNext, reports⟩ ⟨.ok answer, secondNext, notices⟩ := by
  have hissued : (⟨.ok answer, firstNext, reports⟩ : Reply Answer).issued? = none := by
    cases answer with
    | issued handle => exact absurd rfl (hanswer handle)
    | _ => rfl
  refine mirrors_of_not_issued hissued h fun naming hnaming => ?_
  have hsame : answer.rename naming = answer := by
    cases answer with
    | issued handle => exact absurd rfl (hanswer handle)
    | _ => rfl
  simp only [Reply.response, Response.rename, hsame, hevents hnaming]

/-! ## A request of the client -/

namespace Mirrors

variable (h : first.Mirrors link second)
include h

private theorem stored {one other : Handle} {maps others : SlotTable mapTag SortedMap}
    {value : SortedMap} (hfirst : first.maps.insert value = some (one, maps))
    (hsecond : second.maps.insert value = some (other, others)) :
    Mirrors (link.extend (some one) (some other)) { first with maps }
      { second with maps := others } := by
  have hone := SlotTable.filled_of_insert h.maps.first_wellFormed hfirst
  have hother := SlotTable.filled_of_insert h.maps.second_wellFormed hsecond
  have hnew := h.maps.ne_of_filled hone hother
  have hforeign := h.cursors.foreign (SlotTable.not_names_of_ne hone.names (by decide))
    (SlotTable.not_names_of_ne hother.names (by decide)) hnew
  refine ⟨Link.biUnique_extend h.biUnique hnew, .inl h.null, h.maps.filled hone hother rfl, ?_⟩
  exact hforeign.imp fun _ _ hmatches => ⟨.inl hmatches.1, hmatches.2⟩

private theorem placed {one other owner host : Handle}
    {cursors others : SlotTable cursorTag OwnedCursor} {cursor : Cursor} (howner : link owner host)
    (hfirst : first.cursors.insert ⟨owner, cursor⟩ = some (one, cursors))
    (hsecond : second.cursors.insert ⟨host, cursor⟩ = some (other, others)) :
    Mirrors (link.extend (some one) (some other)) { first with cursors }
      { second with cursors := others } := by
  have hone := SlotTable.filled_of_insert h.cursors.first_wellFormed hfirst
  have hother := SlotTable.filled_of_insert h.cursors.second_wellFormed hsecond
  have hnew := h.cursors.ne_of_filled hone hother
  have hforeign := h.maps.foreign (SlotTable.not_names_of_ne hone.names (by decide))
    (SlotTable.not_names_of_ne hother.names (by decide)) hnew
  refine ⟨Link.biUnique_extend h.biUnique hnew, .inl h.null, hforeign, ?_⟩
  exact (h.cursors.filled hone hother ⟨howner, rfl⟩).imp
    fun _ _ hmatches => ⟨.inl hmatches.1, hmatches.2⟩

private theorem createMap (hfirst : first.HasRoom) (hsecond : second.HasRoom) (config : Config) :
    Reply.Mirrors link (first.perform (.createMap config)) (second.perform (.createMap config)) := by
  obtain ⟨one, maps, hone⟩ :=
    SlotTable.exists_insert h.maps.first_wellFormed hfirst.1 (.emptyWith config)
  obtain ⟨other, others, hother⟩ :=
    SlotTable.exists_insert h.maps.second_wellFormed hsecond.1 (.emptyWith config)
  simp only [perform, Catalog.createMap, SortedMap.create]
  cases hvalid : config.validate with
  | error error =>
    refine mirrors_refuse h fun _ _ => ?_
    unfold Config.validate at hvalid
    split at hvalid <;> cases hvalid
    rfl
  | ok =>
    dsimp only
    rw [hone, hother]
    refine ⟨h.stored hone hother, fun naming hnaming => ?_⟩
    have hissued : naming one = other := hnaming (.inr ⟨rfl, rfl⟩)
    simp [Reply.response, Response.rename, Reply.map, Except.map, Answer.rename, Event.rename,
      hissued]

private theorem opening {request : Request} {owner host : Handle} {place : SortedMap → Cursor}
    {response : Request} (hfirst : first.HasRoom) (hsecond : second.HasRoom)
    (hlink : link owner host) (hone : request.opening = some (owner, place))
    (hother : response.opening = some (host, place)) :
    Reply.Mirrors link (first.perform request) (second.perform response) := by
  rw [perform_of_opening hone, perform_of_opening hother]
  rcases h.maps.lookUp hlink with ⟨map, _, hmap, hhost, rfl⟩ | ⟨error, refusal, hmap, hhost, herror⟩
  · obtain ⟨one, cursors, hone⟩ :=
      SlotTable.exists_insert h.cursors.first_wellFormed hfirst.2 ⟨owner, place map⟩
    obtain ⟨other, others, hother⟩ :=
      SlotTable.exists_insert h.cursors.second_wellFormed hsecond.2 ⟨host, place map⟩
    simp only [Catalog.map, hmap, hhost, addCursor, hone, hother]
    refine ⟨h.placed hlink hone hother, fun naming hnaming => ?_⟩
    have hissued : naming one = other := hnaming (.inr ⟨rfl, rfl⟩)
    have howner : naming owner = host := hnaming (.inl hlink)
    simp [Reply.response, Response.rename, Reply.map, Except.map, Answer.rename, Event.rename,
      hissued, howner]
  · simp only [Catalog.map, hmap, hhost]
    exact mirrors_refuse h herror

private theorem edit {request response : Request} {target aim : Handle} {change : Request.Change}
    (hlink : link target aim) (hone : request.edit = some (target, change))
    (hother : response.edit = some (aim, change)) :
    Reply.Mirrors link (first.perform request) (second.perform response) := by
  rw [perform_of_edit hone, perform_of_edit hother]
  rcases h.maps.lookUp hlink with ⟨map, _, hmap, haim, rfl⟩ | ⟨error, refusal, hmap, haim, herror⟩
  · simp only [Catalog.map, hmap, haim]
    cases hchange : change map with
    | error error =>
      obtain ⟨length, limit, rfl⟩ := Request.error_of_edit hone hchange
      exact mirrors_refuse h fun _ _ => rfl
    | ok changed =>
      have hmaps := h.maps.replace h.biUnique hlink hmap haim (rfl : changed.2 = changed.2)
      simp only [answer, withMap]
      exact mirrors_reply ⟨h.biUnique, h.null, hmaps, h.cursors⟩
        (Request.answer_of_edit hone hchange) fun _ _ => rfl
  · simp only [Catalog.map, hmap, haim]
    exact mirrors_refuse h herror

private theorem destroyMap {one other : Handle} (hlink : link one other) :
    Reply.Mirrors link (first.perform (.destroyMap one)) (second.perform (.destroyMap other)) := by
  rcases h.maps.lookUp hlink with ⟨map, _, hone, hother, rfl⟩ | ⟨error, refusal, hone, hother, herror⟩
  · have hmaps := h.maps.vacate h.biUnique hlink hone hother
    simp only [perform, Catalog.destroyMap, SlotTable.remove_of_get hone,
      SlotTable.remove_of_get hother, Reply.map, Except.map]
    refine mirrors_reply ⟨h.biUnique, h.null, hmaps, h.cursors⟩ (by rintro _ ⟨⟩)
      fun naming hnaming => ?_
    simp [Event.rename, hnaming hlink]
  · simp only [perform, Catalog.destroyMap, (SlotTable.remove_eq_error_iff _ _ _).mpr hone,
      (SlotTable.remove_eq_error_iff _ _ _).mpr hother]
    exact mirrors_refuse h herror

private theorem destroyCursor {one other : Handle} (hlink : link one other) :
    Reply.Mirrors link (first.perform (.destroyCursor one))
      (second.perform (.destroyCursor other)) := by
  rcases h.cursors.lookUp hlink with
    ⟨owned, held, hone, hother, _⟩ | ⟨error, refusal, hone, hother, herror⟩
  · have hcursors := h.cursors.vacate h.biUnique hlink hone hother
    simp only [perform, Catalog.destroyCursor, SlotTable.remove_of_get hone,
      SlotTable.remove_of_get hother, Reply.map, Except.map]
    refine mirrors_reply ⟨h.biUnique, h.null, h.maps, hcursors⟩ (by rintro _ ⟨⟩)
      fun naming hnaming => ?_
    simp [Event.rename, hnaming hlink]
  · simp only [perform, Catalog.destroyCursor, (SlotTable.remove_eq_error_iff _ _ _).mpr hone,
      (SlotTable.remove_eq_error_iff _ _ _).mpr hother]
    exact mirrors_refuse h herror

private theorem get {one other : Handle} (hlink : link one other) (key : Bytes) :
    Reply.Mirrors link (first.perform (.get one key)) (second.perform (.get other key)) := by
  rcases h.maps.lookUp hlink with ⟨map, _, hone, hother, rfl⟩ | ⟨error, refusal, hone, hother, herror⟩
  · simp only [perform, Catalog.get, Catalog.map, hone, hother, answer, Reply.map, Except.map]
    exact mirrors_reply h (by rintro _ ⟨⟩) fun _ _ => rfl
  · simp only [perform, Catalog.get, Catalog.map, hone, hother]
    exact mirrors_refuse h herror

private theorem advance {one other cursor pointer : Handle} (hlink : link one other)
    (hcursor : link cursor pointer) (direction : Direction) :
    Reply.Mirrors link (first.perform (.advance one cursor direction))
      (second.perform (.advance other pointer direction)) := by
  rcases h.cursors.lookUp hcursor with
    ⟨⟨owner, place⟩, ⟨host, _⟩, hone, hother, howner, rfl⟩ |
      ⟨error, refusal, hone, hother, herror⟩
  · -- links are one to one, so both owners are the given handle or neither is
    have hsame : owner = one ↔ host = other :=
      ⟨fun heq => h.biUnique.2 (heq ▸ howner) hlink, fun heq => h.biUnique.1 (heq ▸ howner) hlink⟩
    by_cases hgiven : owner = one
    · obtain rfl := hgiven
      obtain rfl := hsame.mp rfl
      rcases h.maps.lookUp hlink with
        ⟨map, _, hmap, hhost, rfl⟩ | ⟨error, refusal, hmap, hhost, herror⟩
      · have hcursors := h.cursors.replace h.biUnique hcursor hone hother
          (⟨hlink, rfl⟩ : OwnedCursor.Matches link
            ⟨owner, (place.advance map direction).2⟩ ⟨host, (place.advance map direction).2⟩)
        simp only [perform, Catalog.advance, Catalog.map, hone, hother, hmap, hhost, ne_eq,
          not_true_eq_false, if_false, answer, Reply.map, Except.map]
        exact mirrors_reply ⟨h.biUnique, h.null, h.maps, hcursors⟩ (by rintro _ ⟨⟩) fun _ _ => rfl
      · simp only [perform, Catalog.advance, Catalog.map, hone, hother, hmap, hhost, ne_eq,
          not_true_eq_false, if_false]
        exact mirrors_refuse h herror
    · have hforeign : host ≠ other := fun heq => hgiven (hsame.mpr heq)
      simp only [perform, Catalog.advance, hone, hother, ne_eq, hgiven, hforeign,
        not_false_eq_true, if_true]
      refine mirrors_refuse h fun naming hnaming => ?_
      simp only [Error.rename, hnaming hcursor, hnaming howner, hnaming hlink]
  · simp only [perform, Catalog.advance, hone, hother]
    exact mirrors_refuse h herror

theorem perform (hfirst : first.HasRoom) (hsecond : second.HasRoom) (request : Request)
    {naming calling : Handle → Handle} (hlink : ∀ label, link (naming label) (calling label)) :
    Reply.Mirrors link (first.perform (request.rename naming))
      (second.perform (request.rename calling)) := by
  cases request with
  | createMap config => exact h.createMap hfirst hsecond config
  | destroyMap map => exact h.destroyMap (hlink map)
  | get map key => exact h.get (hlink map) key
  | put map | set map | erase map | clear map =>
    exact h.edit (hlink map) (Request.edit_rename rfl) (Request.edit_rename rfl)
  | seekFirst map | seek map =>
    exact h.opening hfirst hsecond (hlink map) (Request.opening_rename rfl)
      (Request.opening_rename rfl)
  | advance map cursor direction => exact h.advance (hlink map) (hlink cursor) direction
  | destroyCursor cursor => exact h.destroyCursor (hlink cursor)

theorem not_linked {next : Catalog} {handle : Handle} (hbefore : ¬ second.Issued handle)
    (hafter : next.Issued handle) (one : Handle) : ¬ link one handle := by
  intro hlink
  rcases hafter with hafter | hafter
  · rcases h.maps.second_known hlink with hissued | hforeign
    · exact hbefore (.inl hissued)
    · exact hforeign hafter.1
  · rcases h.cursors.second_known hlink with hissued | hforeign
    · exact hbefore (.inr hissued)
    · exact hforeign hafter.1

theorem aside {request : Request}
    (hgiven : ∀ handle ∈ request.handles, handle = .null ∨ ∀ one, ¬ link one handle) :
    first.Mirrors link (second.perform request).catalog := by
  have hfree {α : Type} {tag : UInt8} {table : SlotTable tag α} {handle : Handle} {value : α}
      (hmem : handle ∈ request.handles) (hget : table.get handle = .ok value) :
      ∀ one, ¬ link one handle := by
    refine (hgiven handle hmem).resolve_left ?_
    rintro rfl
    exact SlotTable.not_names_null tag (SlotTable.get_eq_ok_iff.mp hget).1
  have heffect := second.perform_effect request
  generalize second.perform request = reply at heffect
  cases heffect with
  | refused | read => exact h
  | created hinsert => exact { h with maps := h.maps.aside_insert hinsert }
  | dropped hremove =>
    have hunlinked := hfree List.mem_cons_self (SlotTable.emptied_of_remove hremove).1
    exact { h with maps := h.maps.aside_remove hunlinked hremove }
  | @edited _ _ _ _ next _ hedit hmap =>
    have htouches := SlotTable.touches_replace h.maps.second_wellFormed hmap next
    have hunlinked := hfree (Request.mem_handles_of_edit hedit) hmap
    exact { h with maps := h.maps.aside htouches hunlinked }
  | opened _ _ hinsert => exact { h with cursors := h.cursors.aside_insert hinsert }
  | moved hcursor =>
    have htouches := SlotTable.touches_replace h.cursors.second_wellFormed hcursor
    have hunlinked := hfree (List.mem_cons_of_mem _ List.mem_cons_self) hcursor
    exact { h with cursors := h.cursors.aside (htouches _) hunlinked }
  | closed hremove =>
    have hunlinked := hfree List.mem_cons_self (SlotTable.emptied_of_remove hremove).1
    exact { h with cursors := h.cursors.aside_remove hunlinked hremove }

end Mirrors

end Catalog
end ByteIndex
