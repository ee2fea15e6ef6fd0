import Mathlib.Data.List.Forall2
import Mathlib.Data.Set.Function
import ByteIndex.Proofs.RequestMirror
/-!
# Clients of one catalog

Several clients use one catalog, each with the handles that it was issued and no others. Slots that
one of them empties are filled for another, so a client is issued other words than it would be issued
by a catalog of its own. That is all that it can notice of the others.
-/
namespace ByteIndex

private theorem Handle.ofLabel_mem (issued : List Handle) (label : Handle) :
    Handle.ofLabel issued label = .null ∨ Handle.ofLabel issued label ∈ issued := by
  unfold ofLabel
  rw [List.getD_eq_getElem?_getD]
  cases hplace : issued[label.raw.toNat]? with
  | none => exact .inl rfl
  | some handle => exact .inr (List.mem_of_getElem? hplace)

namespace Link

variable {link : Link}

private theorem linked_ofLabel (hnull : link .null .null) {mine theirs : List Handle}
    (h : List.Forall₂ link mine theirs) (label : Handle) :
    link (.ofLabel mine label) (.ofLabel theirs label) := by
  unfold Handle.ofLabel
  generalize label.raw.toNat = place
  induction h generalizing place with
  | nil => exact hnull
  | cons hhead _ ih =>
    cases place with
    | zero => exact hhead
    | succ place => exact ih place

private theorem exists_follows (h : Relator.BiUnique link) : ∃ naming, link.Follows naming := by
  classical
  refine ⟨fun one => if hone : ∃ other, link one other then hone.choose else .null, ?_⟩
  intro one other hlink
  have hone : ∃ other, link one other := ⟨other, hlink⟩
  dsimp only
  rw [dif_pos hone]
  exact h.2 hone.choose_spec hlink

end Link

namespace Reply

variable {link : Link} {first second : Reply Answer}

private theorem issued?_of_response {naming : Handle → Handle}
    (h : second.response = first.response.rename naming) :
    second.issued? = first.issued?.map naming := by
  have hresult : second.result = (first.response.rename naming).result :=
    congrArg Response.result h
  unfold issued?
  rw [hresult]
  obtain ⟨result, catalog, events⟩ := first
  rcases result with error | answer
  · rfl
  · cases answer <;> rfl

private theorem Mirrors.issued (h : Mirrors link first second) :
    List.Forall₂ (link.extend first.issued? second.issued?) first.issued?.toList
      second.issued?.toList := by
  obtain ⟨naming, hnaming⟩ := Link.exists_follows h.catalog.biUnique
  have hissued := issued?_of_response (h.response hnaming)
  cases hfirst : first.issued? with
  | none =>
    rw [hfirst] at hissued
    rw [hissued]
    exact .nil
  | some handle =>
    rw [hfirst] at hissued
    rw [hissued]
    exact .cons (.inr ⟨rfl, rfl⟩) .nil

end Reply

/-- Two replies say the same of linked handles, and what the first one issues is linked. -/
structure Reply.Matches (link : Link) (first second : Reply Answer) : Prop where
  issued : ∀ ⦃handle⦄, first.issued? = some handle → ∃ other, link handle other
  response : ∀ ⦃naming⦄, link.Follows naming → second.response = first.response.rename naming

private theorem Reply.Mirrors.matches {link wider : Link} {first second : Reply Answer}
    (h : Mirrors link first second)
    (hwider : ∀ ⦃one other⦄, link.extend first.issued? second.issued? one other → wider one other) :
    Matches wider first second := by
  refine ⟨fun handle hissued => ?_, fun naming hnaming => ?_⟩
  · have hlinked := h.issued
    rw [hissued] at hlinked
    cases hsecond : second.issued? with
    | none =>
      rw [hsecond] at hlinked
      cases hlinked
    | some other => exact ⟨other, hwider (.inr ⟨hissued, hsecond⟩)⟩
  · exact h.response fun _ _ hlink => hnaming (hwider hlink)

private theorem Reply.responses_of_matches {ι : Type} {link : Link} {naming : Handle → Handle}
    (hnaming : link.Follows naming) {alone shared : List (ι × Reply Answer)}
    (h : List.Forall₂ (fun one other => one.2.Matches link other.2) alone shared) :
    shared.map (·.2.response) = alone.map (·.2.response.rename naming) := by
  induction h with
  | nil => rfl
  | cons hmatch _ ih => rw [List.map_cons, List.map_cons, hmatch.response hnaming, ih]

/-- The entries of one client. -/
def entriesOf {ι α : Type} [DecidableEq ι] (client : ι) (entries : List (ι × α)) : List (ι × α) :=
  entries.filter (·.1 = client)

private theorem entriesOf_cons_self {ι α : Type} [DecidableEq ι] (client : ι) (entry : α)
    (entries : List (ι × α)) :
    entriesOf client ((client, entry) :: entries) = (client, entry) :: entriesOf client entries := by
  simp [entriesOf]

private theorem entriesOf_cons_of_ne {ι α : Type} [DecidableEq ι] {client other : ι}
    (h : other ≠ client) (entry : α) (entries : List (ι × α)) :
    entriesOf client ((other, entry) :: entries) = entriesOf client entries := by
  simp [entriesOf, h]

namespace Catalog

variable {ι : Type}

/-- What holds between two requests of a catalog that one client has for itself and a catalog that it
shares: what the client holds is linked, what the others hold is not. -/
structure Apart (client : ι) (link : Link) (first second : Catalog) (mine held : ι → List Handle) :
    Prop where
  mirrors : first.Mirrors link second
  paired : List.Forall₂ link (mine client) (held client)
  separate : ∀ ⦃other⦄, other ≠ client → ∀ handle ∈ held other,
    second.Issued handle ∧ ∀ one, ¬ link one handle

private theorem apart_empty (client : ι) :
    Apart client .initial empty empty (fun _ => []) fun _ => [] :=
  ⟨mirrors_empty, .nil, fun _ _ _ => nofun⟩

variable [DecidableEq ι]

/-- Perform the requests of several clients in the order in which they come in. The handles of a
request are labels for those that its client holds. -/
def serveFrom (catalog : Catalog) (held : ι → List Handle) :
    List (ι × Request) → List (ι × Reply Answer)
  | [] => []
  | (client, request) :: rest =>
    let reply := catalog.perform (request.rename (.ofLabel (held client)))
    let held := Function.update held client (held client ++ reply.issued?.toList)
    (client, reply) :: reply.catalog.serveFrom held rest

/-- Serve clients from the start. -/
def serve (schedule : List (ι × Request)) : List (ι × Reply Answer) :=
  empty.serveFrom (fun _ => []) schedule

variable {client other : ι} {link : Link} {first second : Catalog} {mine held : ι → List Handle}

namespace Apart

private theorem own (h : Apart client link first second mine held) (hfirst : first.HasRoom)
    (hsecond : second.HasRoom) (request : Request) :
    let one := first.perform (request.rename (.ofLabel (mine client)))
    let other := second.perform (request.rename (.ofLabel (held client)))
    Reply.Mirrors link one other ∧
      Apart client (link.extend one.issued? other.issued?) one.catalog other.catalog
        (Function.update mine client (mine client ++ one.issued?.toList))
        (Function.update held client (held client ++ other.issued?.toList)) := by
  intro one other
  have hmaps := h.mirrors.maps.second_wellFormed
  have hcursors := h.mirrors.cursors.second_wellFormed
  have hreplies : Reply.Mirrors link one other :=
    h.mirrors.perform hfirst hsecond request (Link.linked_ofLabel h.mirrors.null h.paired)
  refine ⟨hreplies, hreplies.catalog, ?_, fun neighbour hne handle hmem => ?_⟩
  · rw [Function.update_self, Function.update_self]
    exact List.rel_append (h.paired.imp fun _ _ => .inl) hreplies.issued
  · rw [Function.update_of_ne hne] at hmem
    obtain ⟨hissued, hunlinked⟩ := h.separate hne handle hmem
    refine ⟨issued_perform hmaps hcursors _ hissued, ?_⟩
    rintro left (hold | ⟨_, hnew⟩)
    · exact hunlinked left hold
    · exact (fresh_of_issued hmaps hcursors (Reply.result_of_issued? hnew)).1 hissued

private theorem aside (h : Apart client link first second mine held) (hne : other ≠ client)
    (request : Request) :
    let reply := second.perform (request.rename (.ofLabel (held other)))
    Apart client link first reply.catalog mine
      (Function.update held other (held other ++ reply.issued?.toList)) := by
  intro reply
  have hmaps := h.mirrors.maps.second_wellFormed
  have hcursors := h.mirrors.cursors.second_wellFormed
  have hnew {handle : Handle} (hissued : reply.issued? = some handle) :
      reply.catalog.Issued handle ∧ ∀ one, ¬ link one handle := by
    obtain ⟨hbefore, hafter⟩ := fresh_of_issued hmaps hcursors (Reply.result_of_issued? hissued)
    exact ⟨hafter, h.mirrors.not_linked hbefore hafter⟩
  have hold {neighbour : ι} (hneighbour : neighbour ≠ client) {handle : Handle}
      (hmem : handle ∈ held neighbour) : reply.catalog.Issued handle ∧ ∀ one, ¬ link one handle :=
    (h.separate hneighbour handle hmem).imp_left (issued_perform hmaps hcursors _)
  refine ⟨h.mirrors.aside fun handle hmem => ?_, ?_, fun neighbour hneighbour handle hmem => ?_⟩
  · rw [Request.handles_rename] at hmem
    obtain ⟨label, _, rfl⟩ := List.mem_map.mp hmem
    exact (Handle.ofLabel_mem (held other) label).imp_right fun hheld => (h.separate hne _ hheld).2
  · rw [Function.update_of_ne hne.symm]
    exact h.paired
  · by_cases heq : neighbour = other
    · subst heq
      rw [Function.update_self, List.mem_append, Option.mem_toList] at hmem
      rcases hmem with hheld | hissued
      · exact hold hne hheld
      · exact hnew hissued
    · rw [Function.update_of_ne heq] at hmem
      exact hold hneighbour hmem

/-- Over any schedule the client gets matching replies from both catalogs. -/
theorem matches_serveFrom (h : Apart client link first second mine held) (schedule : List (ι × Request))
    (hfirst : first.HasRoom) (hsecond : second.HasRoom)
    (halone : ∀ entry ∈ first.serveFrom mine (entriesOf client schedule), entry.2.catalog.HasRoom)
    (hshared : ∀ entry ∈ second.serveFrom held schedule, entry.2.catalog.HasRoom) :
    ∃ wider : Link, Relator.BiUnique wider ∧ (∀ ⦃one other⦄, link one other → wider one other) ∧
      List.Forall₂ (fun one other => one.2.Matches wider other.2)
        (first.serveFrom mine (entriesOf client schedule))
        (entriesOf client (second.serveFrom held schedule)) := by
  -- the client's own requests widen the link, which the rest of the schedule only adds to
  induction schedule generalizing link first second mine held with
  | nil => exact ⟨link, h.mirrors.biUnique, fun _ _ hlink => hlink, .nil⟩
  | cons entry rest ih =>
    obtain ⟨caller, request⟩ := entry
    have hlater := List.forall_mem_cons.mp hshared
    by_cases heq : caller = client
    · subst heq
      rw [entriesOf_cons_self] at halone ⊢
      have hrest := List.forall_mem_cons.mp halone
      obtain ⟨hreplies, hnext⟩ := h.own hfirst hsecond request
      obtain ⟨wider, hunique, hwider, hmatches⟩ := ih hnext hrest.1 hlater.1 hrest.2 hlater.2
      refine ⟨wider, hunique, fun _ _ hlink => hwider (.inl hlink), ?_⟩
      rw [Catalog.serveFrom, Catalog.serveFrom, entriesOf_cons_self]
      exact .cons (hreplies.matches hwider) hmatches
    · rw [entriesOf_cons_of_ne heq] at halone ⊢
      rw [Catalog.serveFrom, entriesOf_cons_of_ne heq]
      exact ih (h.aside heq request) hfirst hlater.1 halone hlater.2

end Apart

/-- However the requests of several clients are interleaved, each client is answered as if it were
alone, but for the words of its handles: one renaming, which keeps them apart, explains every result
and every report. -/
theorem served_as_if_alone (client : ι) (schedule : List (ι × Request))
    (hshared : ∀ entry ∈ serve schedule, entry.2.catalog.HasRoom)
    (halone : ∀ entry ∈ serve (entriesOf client schedule), entry.2.catalog.HasRoom) :
    let shared := entriesOf client (serve schedule)
    let alone := serve (entriesOf client schedule)
    ∃ naming : Handle → Handle,
      Set.InjOn naming {handle | ∃ entry ∈ alone, entry.2.issued? = some handle} ∧
        shared.map (·.2.response) = alone.map (·.2.response.rename naming) := by
  intro shared alone
  obtain ⟨link, hunique, _, hmatches⟩ :=
    (apart_empty client).matches_serveFrom schedule (by decide) (by decide) halone hshared
  obtain ⟨naming, hnaming⟩ := Link.exists_follows hunique
  have hlinked : ∀ entry ∈ alone, ∀ ⦃handle⦄, entry.2.issued? = some handle →
      link handle (naming handle) := by
    have hboth := hmatches.imp fun one _ hmatch => And.intro hmatch.issued hmatch
    intro entry hmem handle hissued
    obtain ⟨other, hlink⟩ := ((List.forall₂_and_left _ _).mp hboth).1 entry hmem hissued
    rw [hnaming hlink]
    exact hlink
  refine ⟨naming, ?_, Reply.responses_of_matches hnaming hmatches⟩
  rintro one ⟨entry, hentry, hone⟩ next ⟨later, hlater, hnext⟩ heq
  exact hunique.1 (heq ▸ hlinked entry hentry hone) (hlinked later hlater hnext)

/-- Someone else fills the slot of the map that this client destroyed, so its next map has another
word than it would have alone. Its cursor on the first map is refused either way. -/
theorem served_around_reused_slot :
    let schedule : List (Bool × Request) :=
      [(true, .createMap .unbounded), (true, .seekFirst ⟨0⟩), (true, .destroyMap ⟨0⟩),
        (false, .createMap .bounded), (true, .createMap .unbounded), (false, .seekFirst ⟨0⟩),
        (true, .advance ⟨0⟩ ⟨1⟩ .forward), (true, .advance ⟨2⟩ ⟨1⟩ .forward), (false, .destroyMap ⟨0⟩)]
    ((serve schedule)[4]?.bind (·.2.issued?) = some ⟨0x4D00000100000001⟩ ∧
      (serve (entriesOf true schedule))[3]?.bind (·.2.issued?) = some ⟨0x4D00000200000000⟩) ∧
    (∀ entry ∈ serve schedule, entry.2.catalog.HasRoom) ∧
    (∀ entry ∈ serve (entriesOf true schedule), entry.2.catalog.HasRoom) ∧
    ∃ naming : Handle → Handle,
      Set.InjOn naming
          {handle | ∃ entry ∈ serve (entriesOf true schedule), entry.2.issued? = some handle} ∧
        (entriesOf true (serve schedule)).map (·.2.response) =
          (serve (entriesOf true schedule)).map (·.2.response.rename naming) := by
  intro schedule
  have hshared : ∀ entry ∈ serve schedule, entry.2.catalog.HasRoom := by decide
  have halone : ∀ entry ∈ serve (entriesOf true schedule), entry.2.catalog.HasRoom := by decide
  exact ⟨⟨rfl, rfl⟩, hshared, halone, served_as_if_alone true schedule hshared halone⟩

end Catalog
end ByteIndex
