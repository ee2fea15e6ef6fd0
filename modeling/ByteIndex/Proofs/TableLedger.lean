import ByteIndex.Proofs.SlotTable
/-!
# The ledger of a slot table

A ledger lists the handles that a table issued and destroyed, in order. The table keeps no such list,
but its slots and its free stack determine it: a slot has issued every generation below its own, and
its own one unless it waits for it.
-/
namespace ByteIndex

/-- What one operation leaves in the ledger of a table. -/
inductive Mark where
  | issued (handle : Handle)
  | destroyed (handle : Handle)
deriving DecidableEq

abbrev Ledger := List Mark

namespace Ledger

def Issued (ledger : Ledger) (handle : Handle) : Prop :=
  .issued handle ∈ ledger

/-- The handle was issued, and destroyed after that. -/
def Destroyed (ledger : Ledger) (handle : Handle) : Prop :=
  [.issued handle, .destroyed handle].Sublist ledger

def Live (ledger : Ledger) (handle : Handle) : Prop :=
  ledger.Issued handle ∧ ¬ ledger.Destroyed handle

instance (ledger : Ledger) (handle : Handle) : Decidable (ledger.Issued handle) :=
  inferInstanceAs (Decidable (_ ∈ ledger))

instance (ledger : Ledger) (handle : Handle) : Decidable (ledger.Destroyed handle) :=
  inferInstanceAs (Decidable (List.Sublist _ ledger))

instance (ledger : Ledger) (handle : Handle) : Decidable (ledger.Live handle) :=
  inferInstanceAs (Decidable (_ ∧ _))

theorem issued_append (first second : Ledger) (handle : Handle) :
    Issued (first ++ second) handle ↔ first.Issued handle ∨ second.Issued handle :=
  List.mem_append

theorem destroyed_append_of_mem {first second : Ledger} {handle : Handle}
    (hissued : first.Issued handle) (hdestroyed : .destroyed handle ∈ second) :
    Destroyed (first ++ second) handle :=
  (List.singleton_sublist.mpr hissued).append (List.singleton_sublist.mpr hdestroyed)

theorem destroyed_concat (ledger : Ledger) (mark : Mark) (handle : Handle) :
    Destroyed (ledger ++ [mark]) handle ↔
      ledger.Destroyed handle ∨ mark = .destroyed handle ∧ ledger.Issued handle := by
  unfold Destroyed Issued
  rw [← List.reverse_sublist, ← @List.reverse_sublist _ _ ledger]
  simp only [List.reverse_cons, List.reverse_append, List.reverse_nil, List.nil_append,
    List.cons_append, List.sublist_cons_iff, List.cons.injEq]
  refine or_congr_right ⟨?_, ?_⟩
  · intro ⟨rest, ⟨hmark, hrest⟩, hsublist⟩
    rw [← hrest, List.singleton_sublist, List.mem_reverse] at hsublist
    exact ⟨hmark.symm, hsublist⟩
  · intro ⟨hmark, hissued⟩
    exact ⟨_, ⟨hmark.symm, rfl⟩, List.singleton_sublist.mpr (List.mem_reverse.mpr hissued)⟩

theorem mem_of_destroyed {ledger : Ledger} {handle : Handle} (h : ledger.Destroyed handle) :
    ledger.Issued handle ∧ .destroyed handle ∈ ledger :=
  ⟨h.subset (by simp), h.subset (by simp)⟩

end Ledger

namespace SlotTable

variable {α : Type} {tag : UInt8} {table next : SlotTable tag α} {handle : Handle} {value : α}

/-- The slot of the handle has passed its generation, or is at it and does not wait to issue it. -/
def Issued (table : SlotTable tag α) (handle : Handle) : Prop :=
  Names tag handle ∧ ∃ slot, table.slots[handle.index]? = some slot ∧
    (handle.generation < slot.generation ∨
      handle.generation = slot.generation ∧ handle.index ∉ table.free)

/-- The handle was issued and reaches nothing any more. -/
def Spent (table : SlotTable tag α) (handle : Handle) : Prop :=
  table.Issued handle ∧ ∀ value, table.get handle ≠ .ok value

theorem issued_of_get (hw : WellFormed table) (h : table.get handle = .ok value) :
    table.Issued handle := by
  obtain ⟨hnames, hslot⟩ := get_eq_ok_iff.mp h
  exact ⟨hnames, _, hslot, .inr ⟨rfl, hw.not_mem_free h⟩⟩

private theorem not_issued_empty (handle : Handle) : ¬ (empty : SlotTable tag α).Issued handle := by
  intro ⟨_, slot, hslot, _⟩
  simp [empty] at hslot

theorem not_issued_of_filled (h : Filled table value handle next) : ¬ table.Issued handle := by
  intro ⟨_, slot, hslot, hissued⟩
  rcases h.source with ⟨hfree, hvacant⟩ | ⟨_, _, hnone, _⟩
  · rw [hvacant] at hslot
    cases hslot
    rcases hissued with hlt | ⟨_, hmem⟩
    · exact Nat.lt_irrefl _ hlt
    · exact hmem (by rw [hfree]; exact List.mem_cons_self)
  · rw [hnone] at hslot
    cases hslot

theorem get_filled_of_get (hw : WellFormed table) (h : Filled table value handle next)
    {other : Handle} {held : α} (hget : table.get other = .ok held) :
    next.get other = .ok held := by
  have hne : other ≠ handle := by
    rintro rfl
    exact not_issued_of_filled h (issued_of_get hw hget)
  rw [get_filled h, if_neg hne, hget]

private theorem issued_congr {other : Handle}
    (hslot : next.slots[other.index]? = table.slots[other.index]?)
    (hfree : other.index ∈ next.free ↔ other.index ∈ table.free) :
    next.Issued other ↔ table.Issued other := by
  unfold Issued
  rw [hslot, hfree]

theorem mem_free_filled_iff (h : Filled table value handle next) {index : Nat}
    (hne : index ≠ handle.index) : index ∈ next.free ↔ index ∈ table.free := by
  rcases h.source with ⟨hfree, _⟩ | ⟨hfree, hnext, _⟩
  · rw [hfree, List.mem_cons]
    exact ⟨.inr, fun hmem => hmem.resolve_left hne⟩
  · rw [hfree, hnext]

theorem mem_free_emptied_iff (h : Emptied table handle next) {index : Nat}
    (hne : index ≠ handle.index) : index ∈ next.free ↔ index ∈ table.free := by
  obtain ⟨_, _, ⟨_, _, hfree⟩ | ⟨_, _, hfree⟩⟩ := h.after
  · rw [hfree, List.mem_cons]
    exact ⟨fun hmem => hmem.resolve_left hne, .inr⟩
  · rw [hfree]

theorem issued_filled_iff (hw : WellFormed table) (h : Filled table value handle next)
    (other : Handle) : next.Issued other ↔ other = handle ∨ table.Issued other := by
  have hlive : next.get handle = .ok value := by rw [get_filled h, if_pos rfl]
  by_cases hindex : other.index = handle.index
  · constructor
    · intro ⟨hnames, slot, hslot, hissued⟩
      rw [h.slots, if_pos hindex] at hslot
      cases hslot
      rcases hissued with hlt | ⟨heq, _⟩
      · rcases h.source with ⟨_, hvacant⟩ | ⟨_, _, _, hone⟩
        · rw [← hindex] at hvacant
          exact .inr ⟨hnames, _, hvacant, .inl hlt⟩
        · have hpos := hnames.2
          dsimp only at hlt
          omega
      · exact .inl (Handle.eq_of_fields (hnames.1.trans h.names.1.symm) heq hindex)
    · rintro (rfl | ⟨hnames, slot, hslot, hissued⟩)
      · exact issued_of_get (hw.filled h) hlive
      rw [hindex] at hslot hissued
      rcases h.source with ⟨hfree, hvacant⟩ | ⟨_, _, hnone, _⟩
      · rw [hvacant] at hslot
        cases hslot
        have hmem : handle.index ∈ table.free := by
          rw [hfree]
          exact List.mem_cons_self
        have hlt : other.generation < handle.generation :=
          hissued.resolve_right fun hwaits => hwaits.2 hmem
        exact ⟨hnames, ⟨handle.generation, some value⟩, by rw [h.slots, if_pos hindex], .inl hlt⟩
      · rw [hnone] at hslot
        cases hslot
  · have hne : other ≠ handle := fun heq => hindex (congrArg Handle.index heq)
    rw [issued_congr (by rw [h.slots, if_neg hindex]) (mem_free_filled_iff h hindex)]
    exact ⟨.inr, fun hissued => hissued.resolve_left hne⟩

theorem issued_emptied_iff (hw : WellFormed table) (hget : table.get handle = .ok value)
    (h : Emptied table handle next) (other : Handle) : next.Issued other ↔ table.Issued other := by
  obtain ⟨generation, hslots, hnext⟩ := h.after
  by_cases hindex : other.index = handle.index
  · have hoccupied := hw.not_mem_free hget
    refine and_congr_right fun _ => ?_
    rw [hslots, if_pos hindex, hindex, (get_eq_ok_iff.mp hget).2]
    simp only [Option.some.injEq, exists_eq_left', hoccupied, not_false_eq_true, and_true]
    rcases hnext with ⟨_, hgeneration, hpush⟩ | ⟨_, hgeneration, hkeep⟩
    · rw [hpush]
      simp only [List.mem_cons_self, not_true_eq_false, and_false, or_false]
      omega
    · rw [hkeep, hgeneration]
      simp only [hoccupied, not_false_eq_true, and_true]
  · exact issued_congr (by rw [hslots, if_neg hindex]) (mem_free_emptied_iff h hindex)

theorem issued_replace_iff (hget : table.get handle = .ok value) (new : α) (other : Handle) :
    (table.replace handle.index new).Issued other ↔ table.Issued other := by
  refine and_congr_right fun _ => ?_
  rw [slots_replace hget]
  by_cases hindex : other.index = handle.index
  · rw [if_pos hindex, hindex, (get_eq_ok_iff.mp hget).2]
    simp [replace]
  · rw [if_neg hindex]
    rfl

theorem spent_filled_iff (hw : WellFormed table) (h : Filled table value handle next)
    (other : Handle) : next.Spent other ↔ table.Spent other := by
  unfold Spent
  rw [issued_filled_iff hw h, get_filled h]
  by_cases heq : other = handle
  · rw [heq, if_pos rfl]
    simp [not_issued_of_filled h]
  · rw [if_neg heq]
    simp [heq]

private theorem spent_replace_iff (hget : table.get handle = .ok value) (new : α) (other : Handle) :
    (table.replace handle.index new).Spent other ↔ table.Spent other := by
  unfold Spent
  rw [issued_replace_iff hget, get_replace hget]
  by_cases heq : other = handle
  · rw [heq, if_pos rfl, hget]
    simp
  · rw [if_neg heq]

theorem spent_emptied_iff (hw : WellFormed table) (hget : table.get handle = .ok value)
    (h : Emptied table handle next) (other : Handle) :
    next.Spent other ↔ other = handle ∨ table.Spent other := by
  unfold Spent
  simp only [issued_emptied_iff hw hget h, ne_eq, get_emptied_eq_ok_iff hget h]
  by_cases heq : other = handle
  · rw [heq]
    simp [issued_of_get hw hget]
  · simp [heq]

theorem get_of_spent (h : table.Spent handle) :
    table.get handle = .error (.staleHandle handle) := by
  obtain ⟨⟨hnames, slot, hslot, hissued⟩, hdead⟩ := h
  refine get_eq_stale_iff.mpr ⟨hnames, slot, hslot, hissued.imp_right fun ⟨heq, _⟩ => ⟨heq, ?_⟩⟩
  obtain ⟨generation, occupant⟩ := slot
  cases occupant with
  | none => rfl
  | some held =>
    rw [← (show handle.generation = generation from heq)] at hslot
    exact absurd (get_eq_ok_iff.mpr ⟨hnames, hslot⟩) (hdead held)

/-- The handle is the one that its empty slot issues next. -/
def Waits (table : SlotTable tag α) (handle : Handle) : Prop :=
  Names tag handle ∧ handle.index ∈ table.free ∧
    table.slots[handle.index]? = some ⟨handle.generation, none⟩

private theorem get_eq_stale_iff_waits (table : SlotTable tag α) (handle : Handle) :
    table.get handle = .error (.staleHandle handle) ↔ table.Spent handle ∨ table.Waits handle := by
  constructor
  · intro hstale
    obtain ⟨hnames, slot, hslot, hpassed⟩ := get_eq_stale_iff.mp hstale
    by_cases hissued : table.Issued handle
    · refine .inl ⟨hissued, fun value hlive => ?_⟩
      rw [hstale] at hlive
      cases hlive
    · rcases hpassed with hlt | ⟨heq, hvacant⟩
      · exact absurd ⟨hnames, slot, hslot, .inl hlt⟩ hissued
      · refine .inr ⟨hnames, Classical.not_not.mp fun hmem => hissued ?_, ?_⟩
        · exact ⟨hnames, slot, hslot, .inr ⟨heq, hmem⟩⟩
        · rw [hslot, heq, ← hvacant]
  · intro h
    rcases h with hspent | ⟨hnames, _, hslot⟩
    · exact get_of_spent hspent
    · exact get_eq_stale_iff.mpr ⟨hnames, _, hslot, .inr ⟨rfl, rfl⟩⟩

private theorem not_issued_of_waits (h : table.Waits handle) : ¬ table.Issued handle := by
  intro ⟨_, slot, hslot, hissued⟩
  rw [h.2.2] at hslot
  cases hslot
  rcases hissued with hlt | ⟨_, hmem⟩
  · exact Nat.lt_irrefl _ hlt
  · exact hmem h.2.1

private theorem spent_previous_of_waits (hw : WellFormed table) (h : table.Waits handle) :
    table.Spent handle.previous := by
  obtain ⟨hnames, hfree, hslot⟩ := h
  have hg := handle.generation_previous
  have hi := handle.index_previous
  obtain ⟨waiting, hwaiting, _, hsecond⟩ := hw.vacant _ hfree
  rw [hslot] at hwaiting
  cases hwaiting
  dsimp only at hsecond
  refine ⟨⟨⟨handle.tag_previous.trans hnames.1, by omega⟩, _, by rw [hi, hslot], .inl ?_⟩, ?_⟩
  · dsimp only
    omega
  · intro value hlive
    have hheld := (get_eq_ok_iff.mp hlive).2
    rw [hi, hslot] at hheld
    cases congrArg Slot.occupant (Option.some.inj hheld)

private theorem waits_of_spent_previous (hw : WellFormed table) (hissued : ¬ table.Issued handle)
    (htag : handle.tag = tag) (hspent : table.Spent handle.previous) : table.Waits handle := by
  have hg := handle.generation_previous
  have hi := handle.index_previous
  obtain ⟨⟨⟨_, hpos⟩, slot, hslot, hpassed⟩, hdead⟩ := hspent
  rw [hi] at hslot hpassed
  have hnames : Names tag handle := ⟨htag, by omega⟩
  have hfree : handle.generation = slot.generation → handle.index ∈ table.free := fun heq =>
    Classical.not_not.mp fun hmem => hissued ⟨hnames, slot, hslot, .inr ⟨heq, hmem⟩⟩
  rcases hpassed with hlt | ⟨heq, hretired⟩
  · have hnot : ¬ handle.generation < slot.generation := fun hlater =>
      hissued ⟨hnames, slot, hslot, .inl hlater⟩
    have hreached : handle.generation = slot.generation := by omega
    obtain ⟨waiting, hwaiting, hvacant, _⟩ := hw.vacant _ (hfree hreached)
    rw [hslot] at hwaiting
    cases hwaiting
    exact ⟨hnames, hfree hreached, by rw [hslot, hreached, ← hvacant]⟩
  · -- the slot stands empty at a generation that it has issued, so it is retired and has no next one
    obtain ⟨generation, occupant⟩ := slot
    cases occupant with
    | none =>
      have hlast := hw.retired hslot rfl hretired
      have hle := handle.generation_le
      dsimp only at heq hlast
      omega
    | some value =>
      refine absurd (get_eq_ok_iff.mpr ⟨⟨handle.tag_previous.trans htag, hpos⟩, ?_⟩) (hdead value)
      rw [hi, hslot, heq]

/-- A stale answer speaks of a handle that was issued and destroyed, or of the one that follows it in
its slot: an emptied slot already carries the generation that it will issue next. -/
theorem get_eq_stale_iff_spent (hw : WellFormed table) (handle : Handle) :
    table.get handle = .error (.staleHandle handle) ↔
      table.Spent handle ∨
        ¬ table.Issued handle ∧ handle.tag = tag ∧ table.Spent handle.previous := by
  rw [get_eq_stale_iff_waits]
  refine or_congr_right ⟨fun h => ?_, fun ⟨hissued, htag, hspent⟩ => ?_⟩
  · exact ⟨not_issued_of_waits h, h.1.1, spent_previous_of_waits hw h⟩
  · exact waits_of_spent_previous hw hissued htag hspent

theorem get_eq_ok_or_spent (h : table.Issued handle) :
    (∃ value, table.get handle = .ok value) ∨ table.Spent handle := by
  by_cases hlive : ∃ value, table.get handle = .ok value
  · exact .inl hlive
  · exact .inr ⟨h, fun value hget => hlive ⟨value, hget⟩⟩

theorem get_of_not_issued (hw : WellFormed table) (h : ¬ table.Issued handle) :
    table.get handle = .error (.invalidHandle handle) ∨
      table.get handle = .error (.staleHandle handle) := by
  cases hget : table.get handle with
  | error error =>
    rcases get_eq_error hget with rfl | rfl
    · exact .inl rfl
    · exact .inr rfl
  | ok value => exact absurd (issued_of_get hw hget) h

/-! ## Runs of table operations -/

/-- One operation on a table, with the marks that it leaves. -/
inductive Step (table : SlotTable tag α) : Ledger → SlotTable tag α → Prop where
  | keep : Step table [] table
  | insert {value : α} {handle : Handle} {next : SlotTable tag α} :
      table.insert value = some (handle, next) → Step table [.issued handle] next
  | replace {handle : Handle} {old : α} (new : α) :
      table.get handle = .ok old → Step table [] (table.replace handle.index new)
  | remove {handle : Handle} {value : α} {next : SlotTable tag α} :
      table.remove handle = .ok (value, next) → Step table [.destroyed handle] next

/-- The tables that operations make out of the empty one, with their ledgers. -/
inductive Reachable : Ledger → SlotTable tag α → Prop where
  | empty : Reachable [] .empty
  | step {ledger marks : Ledger} {table next : SlotTable tag α} :
      Reachable ledger table → Step table marks next → Reachable (ledger ++ marks) next

/-- The slots and the free stack agree with the ledger. -/
structure Accounts (ledger : Ledger) (table : SlotTable tag α) : Prop where
  wellFormed : WellFormed table
  issued_iff : ∀ handle, ledger.Issued handle ↔ table.Issued handle
  destroyed_iff : ∀ handle, ledger.Destroyed handle ↔ table.Spent handle

theorem Accounts.live_iff {ledger : Ledger} (h : Accounts ledger table) (handle : Handle) :
    ledger.Live handle ↔ ∃ value, table.get handle = .ok value := by
  unfold Ledger.Live
  rw [h.issued_iff, h.destroyed_iff]
  constructor
  · intro ⟨hissued, hspent⟩
    exact (get_eq_ok_or_spent hissued).resolve_right hspent
  · intro ⟨value, hget⟩
    exact ⟨issued_of_get h.wellFormed hget, fun hspent => hspent.2 value hget⟩

theorem Step.wellFormed {marks : Ledger} (h : Step table marks next) (hw : WellFormed table) :
    WellFormed next := by
  cases h with
  | keep => exact hw
  | insert h => exact hw.filled (filled_of_insert hw h)
  | replace new h => exact hw.replace h new
  | remove h =>
    obtain ⟨hget, hempty⟩ := emptied_of_remove h
    exact hw.emptied hget hempty

theorem Step.issued_iff {marks : Ledger} (h : Step table marks next) (hw : WellFormed table)
    (other : Handle) : next.Issued other ↔ table.Issued other ∨ marks.Issued other := by
  cases h with
  | keep => simp [Ledger.Issued]
  | insert h =>
    rw [issued_filled_iff hw (filled_of_insert hw h)]
    simp [Ledger.Issued, or_comm]
  | replace new h =>
    rw [issued_replace_iff h]
    simp [Ledger.Issued]
  | remove h =>
    obtain ⟨hget, hempty⟩ := emptied_of_remove h
    rw [issued_emptied_iff hw hget hempty]
    simp [Ledger.Issued]

theorem Step.live_before {marks : Ledger} (h : Step table marks next) (hw : WellFormed table)
    {other : Handle} (hlive : next.get other = .ok value) :
    .issued other ∈ marks ∨ ∃ held, table.get other = .ok held := by
  cases h with
  | keep => exact .inr ⟨value, hlive⟩
  | @insert stored handle _ h =>
    by_cases heq : other = handle
    · rw [heq]
      exact .inl List.mem_cons_self
    · rw [get_filled (filled_of_insert hw h), if_neg heq] at hlive
      exact .inr ⟨value, hlive⟩
  | @replace handle old new h =>
    by_cases heq : other = handle
    · rw [heq]
      exact .inr ⟨old, h⟩
    · rw [get_replace h, if_neg heq] at hlive
      exact .inr ⟨value, hlive⟩
  | remove h =>
    obtain ⟨hget, hempty⟩ := emptied_of_remove h
    exact .inr ⟨value, ((get_emptied_eq_ok_iff hget hempty).mp hlive).2⟩

theorem Step.accounts {ledger marks : Ledger} (h : Step table marks next)
    (ha : Accounts ledger table) : Accounts (ledger ++ marks) next := by
  have hw := ha.wellFormed
  refine ⟨h.wellFormed hw, fun other => ?_, fun other => ?_⟩
  · rw [Ledger.issued_append, ha.issued_iff, h.issued_iff hw]
  · cases h with
    | keep => rw [List.append_nil, ha.destroyed_iff]
    | insert h =>
      rw [Ledger.destroyed_concat, ha.destroyed_iff, spent_filled_iff hw (filled_of_insert hw h)]
      simp
    | replace new h => rw [List.append_nil, ha.destroyed_iff, spent_replace_iff h]
    | @remove handle _ _ h =>
      obtain ⟨hget, hempty⟩ := emptied_of_remove h
      rw [Ledger.destroyed_concat, ha.destroyed_iff, ha.issued_iff,
        spent_emptied_iff hw hget hempty, or_comm]
      refine or_congr_left ⟨?_, ?_⟩
      · intro ⟨hmark, _⟩
        exact (Mark.destroyed.inj hmark).symm
      · rintro rfl
        exact ⟨rfl, issued_of_get hw hget⟩

theorem Reachable.accounts {ledger : Ledger} (h : Reachable ledger table) :
    Accounts ledger table := by
  induction h with
  | empty =>
    refine ⟨wellFormed_empty, fun handle => ?_, fun handle => ?_⟩
    · simp [Ledger.Issued, not_issued_empty]
    · simp [Ledger.Destroyed, Spent, not_issued_empty]
  | step _ hstep ih => exact hstep.accounts ih

end SlotTable
end ByteIndex
