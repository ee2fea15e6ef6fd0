import Mathlib.Logic.Relator
import ByteIndex.Catalog.Renaming
import ByteIndex.Proofs.TableLedger
/-!
# Tables that mirror each other

Two tables that took different values in a different order put the same resource under different
handles. A link pairs the handle of one table with that of the other. The tables mirror each other if
linked handles are answered alike, and they go on doing so when both perform the same operation on
linked handles, or when one of them performs an operation on a handle without a link.
-/
namespace ByteIndex

/-- Which handle of one catalog stands for which handle of another. -/
abbrev Link := Handle → Handle → Prop

namespace Link

variable {link : Link} {one other : Handle}

/-- The link before any handle is issued. -/
def initial : Link :=
  fun one other => one = .null ∧ other = .null

/-- The link with one more pair, if there is one. -/
def extend (link : Link) (first second : Option Handle) : Link :=
  fun one other => link one other ∨ first = some one ∧ second = some other

/-- The renaming takes each handle to the one that stands for it. -/
def Follows (link : Link) (naming : Handle → Handle) : Prop :=
  ∀ ⦃one other⦄, link one other → naming one = other

@[simp] theorem extend_none (link : Link) (second : Option Handle) :
    link.extend none second = link := by
  funext one other
  simp [extend]

theorem biUnique_extend (h : Relator.BiUnique link)
    (hnew : ∀ ⦃first second⦄, link first second → first ≠ one ∧ second ≠ other) :
    Relator.BiUnique (link.extend (some one) (some other)) := by
  refine ⟨?_, ?_⟩
  · rintro first next second (hfirst | ⟨⟨⟩, ⟨⟩⟩) (hnext | ⟨⟨⟩, hsecond⟩)
    · exact h.1 hfirst hnext
    · cases hsecond
      exact absurd rfl (hnew hfirst).2
    · exact absurd rfl (hnew hnext).2
    · rfl
  · rintro first second next (hsecond | ⟨⟨⟩, ⟨⟩⟩) (hnext | ⟨hfirst, ⟨⟩⟩)
    · exact h.2 hsecond hnext
    · cases hfirst
      exact absurd rfl (hnew hsecond).1
    · exact absurd rfl (hnew hnext).1
    · rfl

end Link

namespace SlotTable

variable {α : Type} {tag : UInt8} {table next : SlotTable tag α} {handle : Handle} {value : α}

theorem not_names_null (tag : UInt8) : ¬ Names tag .null := fun h => absurd h.2 (by decide)

theorem not_names_of_ne {foreign : UInt8} (h : Names tag handle) (hne : tag ≠ foreign) :
    ¬ Names foreign handle := fun hother =>
  hne (h.1.symm.trans hother.1)

/-- The handle was issued by the table or can never be. -/
def Known (table : SlotTable tag α) (handle : Handle) : Prop :=
  table.Issued handle ∨ ¬ Names tag handle

private theorem ne_of_filled (h : Filled table value handle next) {other : Handle}
    (hknown : table.Known other) : other ≠ handle := by
  rintro rfl
  rcases hknown with hissued | hforeign
  · exact not_issued_of_filled h hissued
  · exact hforeign h.names

/-- An operation on one handle: every other handle that is known is answered as before, errors
included. -/
structure Touches (table : SlotTable tag α) (handle : Handle) (next : SlotTable tag α) : Prop where
  wellFormed : WellFormed next
  known : next.Known handle
  known_of : ∀ ⦃other⦄, table.Known other → next.Known other
  get_eq : ∀ ⦃other⦄, table.Known other → other ≠ handle → next.get other = table.get other

private theorem touches_self (hw : WellFormed table) (h : table.Known handle) :
    table.Touches handle table :=
  ⟨hw, h, fun _ hknown => hknown, fun _ _ _ => rfl⟩

private theorem touches_filled (hw : WellFormed table) (h : Filled table value handle next) :
    table.Touches handle next := by
  have hissued := issued_filled_iff hw h
  refine ⟨hw.filled h, .inl ((hissued handle).mpr (.inl rfl)), ?_, ?_⟩
  · exact fun other => Or.imp_left fun hbefore => (hissued other).mpr (.inr hbefore)
  · intro other _ hne
    rw [get_filled h, if_neg hne]

theorem touches_replace (hw : WellFormed table) (h : table.get handle = .ok value) (new : α) :
    table.Touches handle (table.replace handle.index new) := by
  have hissued := issued_replace_iff h new
  refine ⟨hw.replace h new, .inl ((hissued handle).mpr (issued_of_get hw h)), ?_, ?_⟩
  · exact fun other => Or.imp_left (hissued other).mpr
  · intro other _ hne
    rw [get_replace h, if_neg hne]

private theorem touches_emptied (hw : WellFormed table) (hget : table.get handle = .ok value)
    (h : Emptied table handle next) : table.Touches handle next := by
  have hissued := issued_emptied_iff hw hget h
  refine ⟨hw.emptied hget h, .inl ((hissued handle).mpr (issued_of_get hw hget)), ?_, ?_⟩
  · exact fun other => Or.imp_left (hissued other).mpr
  · intro other hknown hne
    rcases hknown with hissued | hforeign
    · rcases get_eq_ok_or_spent hissued with ⟨held, hlive⟩ | hspent
      · rw [hlive, get_emptied_eq_ok_iff hget h]
        exact ⟨hne, hlive⟩
      · rw [get_of_spent hspent, get_of_spent ((spent_emptied_iff hw hget h other).mpr (.inr hspent))]
    · rw [get_of_not_names next hforeign, get_of_not_names table hforeign]

private theorem get_emptied_self (hw : WellFormed table) (hget : table.get handle = .ok value)
    (h : Emptied table handle next) : next.get handle = .error (.staleHandle handle) :=
  get_of_spent ((spent_emptied_iff hw hget h handle).mpr (.inl rfl))

/-- Two look-ups are answered alike: with related values, or with the same cause. -/
inductive Alike (related : α → α → Prop) (one other : Handle) :
    Except Error α → Except Error α → Prop where
  | found {value held : α} : related value held → Alike related one other (.ok value) (.ok held)
  | invalid : Alike related one other (.error (.invalidHandle one)) (.error (.invalidHandle other))
  | stale : Alike related one other (.error (.staleHandle one)) (.error (.staleHandle other))

structure Mirrors (link : Link) (related : α → α → Prop) (first second : SlotTable tag α) :
    Prop where
  first_wellFormed : WellFormed first
  second_wellFormed : WellFormed second
  first_known : ∀ ⦃one other⦄, link one other → first.Known one
  second_known : ∀ ⦃one other⦄, link one other → second.Known other
  alike : ∀ ⦃one other⦄, link one other →
    Alike related one other (first.get one) (second.get other)

theorem mirrors_empty (related : α → α → Prop) :
    Mirrors .initial related (empty : SlotTable tag α) empty := by
  refine ⟨wellFormed_empty, wellFormed_empty, ?_, ?_, ?_⟩
  · rintro _ _ ⟨rfl, _⟩
    exact .inr (not_names_null tag)
  · rintro _ _ ⟨_, rfl⟩
    exact .inr (not_names_null tag)
  · rintro _ _ ⟨rfl, rfl⟩
    rw [get_of_not_names _ (not_names_null tag)]
    exact .invalid

namespace Mirrors

variable {link : Link} {related : α → α → Prop} {first second firstNext secondNext : SlotTable tag α}
  {one other : Handle} {held : α}

theorem imp {wider : α → α → Prop} (h : Mirrors link related first second)
    (hwider : ∀ ⦃value held⦄, related value held → wider value held) :
    Mirrors link wider first second := by
  refine { h with alike := fun one other hlink => ?_ }
  have halike := h.alike hlink
  generalize first.get one = left at halike ⊢
  generalize second.get other = right at halike ⊢
  cases halike with
  | found hrelated => exact .found (hwider hrelated)
  | invalid => exact .invalid
  | stale => exact .stale

/-- A look-up finds related values, or fails with errors that differ in the handle only. -/
theorem lookUp (h : Mirrors link related first second) (hlink : link one other) :
    (∃ value held, first.get one = .ok value ∧ second.get other = .ok held ∧ related value held) ∨
      ∃ error refusal, first.get one = .error error ∧ second.get other = .error refusal ∧
        ∀ ⦃naming⦄, link.Follows naming → refusal = error.rename naming := by
  have halike := h.alike hlink
  generalize first.get one = left at halike
  generalize second.get other = right at halike
  cases halike with
  | found hrelated => exact .inl ⟨_, _, rfl, rfl, hrelated⟩
  | invalid => exact .inr ⟨_, _, rfl, rfl, fun _ hnaming => by rw [Error.rename, hnaming hlink]⟩
  | stale => exact .inr ⟨_, _, rfl, rfl, fun _ hnaming => by rw [Error.rename, hnaming hlink]⟩

private theorem extend (h : Mirrors link related first second)
    (hfirst : first.Touches one firstNext) (hsecond : second.Touches other secondNext)
    (hlink : ∀ ⦃left right⦄, link left right → (left = one ↔ right = other))
    (halike : Alike related one other (firstNext.get one) (secondNext.get other)) :
    Mirrors (link.extend (some one) (some other)) related firstNext secondNext := by
  refine ⟨hfirst.wellFormed, hsecond.wellFormed, ?_, ?_, ?_⟩
  · rintro left right (hold | ⟨⟨⟩, _⟩)
    · exact hfirst.known_of (h.first_known hold)
    · exact hfirst.known
  · rintro left right (hold | ⟨_, ⟨⟩⟩)
    · exact hsecond.known_of (h.second_known hold)
    · exact hsecond.known
  · rintro left right (hold | ⟨⟨⟩, ⟨⟩⟩)
    · by_cases hacted : left = one
      · rw [hacted, (hlink hold).mp hacted]
        exact halike
      · have hother : right ≠ other := fun heq => hacted ((hlink hold).mpr heq)
        rw [hfirst.get_eq (h.first_known hold) hacted,
          hsecond.get_eq (h.second_known hold) hother]
        exact h.alike hold
    · exact halike

private theorem touch (h : Mirrors link related first second) (hunique : Relator.BiUnique link)
    (hlink : link one other) (hfirst : first.Touches one firstNext)
    (hsecond : second.Touches other secondNext)
    (halike : Alike related one other (firstNext.get one) (secondNext.get other)) :
    Mirrors link related firstNext secondNext := by
  have hextended := h.extend hfirst hsecond
    (fun left right hold => ⟨fun heq => hunique.2 (heq ▸ hold) hlink,
      fun heq => hunique.1 (heq ▸ hold) hlink⟩) halike
  exact ⟨hextended.first_wellFormed, hextended.second_wellFormed,
    fun _ _ hold => hextended.first_known (.inl hold),
    fun _ _ hold => hextended.second_known (.inl hold),
    fun _ _ hold => hextended.alike (.inl hold)⟩

theorem ne_of_filled (h : Mirrors link related first second)
    (hfirst : Filled first value one firstNext) (hsecond : Filled second held other secondNext)
    ⦃left right : Handle⦄ (hlink : link left right) : left ≠ one ∧ right ≠ other :=
  ⟨SlotTable.ne_of_filled hfirst (h.first_known hlink),
    SlotTable.ne_of_filled hsecond (h.second_known hlink)⟩

theorem filled (h : Mirrors link related first second)
    (hfirst : Filled first value one firstNext) (hsecond : Filled second held other secondNext)
    (hrelated : related value held) :
    Mirrors (link.extend (some one) (some other)) related firstNext secondNext := by
  refine h.extend (touches_filled h.first_wellFormed hfirst)
    (touches_filled h.second_wellFormed hsecond) ?_ ?_
  · intro left right hlink
    have hne := h.ne_of_filled hfirst hsecond hlink
    exact iff_of_false hne.1 hne.2
  · rw [get_filled hfirst, if_pos rfl, get_filled hsecond, if_pos rfl]
    exact .found hrelated

theorem foreign (h : Mirrors link related first second) (hone : ¬ Names tag one)
    (hother : ¬ Names tag other)
    (hnew : ∀ ⦃left right⦄, link left right → left ≠ one ∧ right ≠ other) :
    Mirrors (link.extend (some one) (some other)) related first second := by
  refine h.extend (touches_self h.first_wellFormed (.inr hone))
    (touches_self h.second_wellFormed (.inr hother)) ?_ ?_
  · intro left right hlink
    exact iff_of_false (hnew hlink).1 (hnew hlink).2
  · rw [get_of_not_names first hone, get_of_not_names second hother]
    exact .invalid

theorem replace (h : Mirrors link related first second) (hunique : Relator.BiUnique link)
    (hlink : link one other) (hfirst : first.get one = .ok value)
    (hsecond : second.get other = .ok held) {new renewed : α} (hrelated : related new renewed) :
    Mirrors link related (first.replace one.index new) (second.replace other.index renewed) := by
  refine h.touch hunique hlink (touches_replace h.first_wellFormed hfirst new)
    (touches_replace h.second_wellFormed hsecond renewed) ?_
  rw [get_replace hfirst, if_pos rfl, get_replace hsecond, if_pos rfl]
  exact .found hrelated

theorem vacate (h : Mirrors link related first second) (hunique : Relator.BiUnique link)
    (hlink : link one other) (hfirst : first.get one = .ok value)
    (hsecond : second.get other = .ok held) :
    Mirrors link related (first.vacate one.index) (second.vacate other.index) := by
  have hone := (emptied_of_remove (remove_of_get hfirst)).2
  have hother := (emptied_of_remove (remove_of_get hsecond)).2
  refine h.touch hunique hlink (touches_emptied h.first_wellFormed hfirst hone)
    (touches_emptied h.second_wellFormed hsecond hother) ?_
  rw [get_emptied_self h.first_wellFormed hfirst hone,
    get_emptied_self h.second_wellFormed hsecond hother]
  exact .stale

/-- The second table alone performs an operation, on a handle without a link. -/
theorem aside (h : Mirrors link related first second) (hsecond : second.Touches other secondNext)
    (hfree : ∀ one, ¬ link one other) : Mirrors link related first secondNext := by
  refine ⟨h.first_wellFormed, hsecond.wellFormed, h.first_known, ?_, ?_⟩
  · exact fun _ _ hlink => hsecond.known_of (h.second_known hlink)
  · intro left right hlink
    have hne : right ≠ other := by
      rintro rfl
      exact hfree left hlink
    rw [hsecond.get_eq (h.second_known hlink) hne]
    exact h.alike hlink

theorem aside_insert (h : Mirrors link related first second)
    (hinsert : second.insert value = some (other, secondNext)) :
    Mirrors link related first secondNext := by
  have hfilled := filled_of_insert h.second_wellFormed hinsert
  refine h.aside (touches_filled h.second_wellFormed hfilled) fun one hlink => ?_
  exact SlotTable.ne_of_filled hfilled (h.second_known hlink) rfl

theorem aside_remove (h : Mirrors link related first second) (hfree : ∀ one, ¬ link one other)
    (hremove : second.remove other = .ok (held, secondNext)) :
    Mirrors link related first secondNext := by
  obtain ⟨hget, hemptied⟩ := emptied_of_remove hremove
  exact h.aside (touches_emptied h.second_wellFormed hget hemptied) hfree

end Mirrors

theorem exists_insert (hw : WellFormed table) (h : table.slots.size < Handle.indexCount)
    (value : α) : ∃ handle next, table.insert value = some (handle, next) := by
  unfold insert
  split
  · rename_i index free hfree
    obtain ⟨slot, hslot, _⟩ := hw.vacant index (by rw [hfree]; exact List.mem_cons_self)
    rw [hslot]
    exact ⟨_, _, rfl⟩
  · rw [if_pos h]
    exact ⟨_, _, rfl⟩

end SlotTable
end ByteIndex
