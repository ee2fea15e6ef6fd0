import ByteIndex.Proofs.LedgerBalance
import ByteIndex.Proofs.TableRun
/-!
# Slot accounting

Every slot of a table is occupied, waits on the free stack or is retired. A slot issues its
generations one after another from the first one on, and a new slot is added only when all others are
occupied or retired; so a table has no more slots than it held values at once, the retired ones apart.
-/
namespace ByteIndex

/-- The generations that the slot of an index issued, in order. -/
def Ledger.generations (ledger : Ledger) (index : Nat) : List Nat :=
  (ledger.handles.filter (·.index = index)).map Handle.generation

namespace SlotTable

variable {α : Type} {tag : UInt8} {table next : SlotTable tag α} {handle : Handle} {value : α}
  {ledger marks : Ledger} {index : Nat}

/-- The indices of the slots with a property. -/
def indices (table : SlotTable tag α) (p : Nat → Slot α → Bool) : List Nat :=
  (List.range table.slots.size).filter fun index => table.slots[index]?.any (p index)

/-- The indices of the slots that hold a value. -/
def occupied (table : SlotTable tag α) : List Nat :=
  table.indices fun _ slot => slot.occupant.isSome

/-- The indices of the empty slots that do not wait to be filled again. -/
def retired (table : SlotTable tag α) : List Nat :=
  table.indices fun index slot => slot.occupant.isNone && decide (index ∉ table.free)

/-- The largest number of values that a table holds at once, before, between and after operations. -/
def peak (table : SlotTable tag α) : List (Operation α) → Nat
  | [] => table.occupied.length
  | operation :: rest => max table.occupied.length ((table.perform operation).2.peak rest)

private theorem mem_indices {p : Nat → Slot α → Bool} :
    index ∈ table.indices p ↔ ∃ slot, table.slots[index]? = some slot ∧ p index slot = true := by
  rw [indices, List.mem_filter, List.mem_range, Option.any_eq_true]
  refine and_iff_right_of_imp fun ⟨_, hslot, _⟩ => ?_
  exact (Array.getElem?_eq_some_iff.mp hslot).1

private theorem nodup_indices (p : Nat → Slot α → Bool) : (table.indices p).Nodup :=
  List.nodup_range.filter _

private theorem mem_occupied :
    index ∈ table.occupied ↔
      ∃ generation value, table.slots[index]? = some ⟨generation, some value⟩ := by
  rw [occupied, mem_indices]
  constructor
  · rintro ⟨⟨generation, _ | value⟩, hslot, hoccupied⟩
    · cases hoccupied
    · exact ⟨generation, value, hslot⟩
  · rintro ⟨generation, value, hslot⟩
    exact ⟨_, hslot, rfl⟩

private theorem mem_retired :
    index ∈ table.retired ↔
      index ∉ table.free ∧ ∃ generation, table.slots[index]? = some ⟨generation, none⟩ := by
  rw [retired, mem_indices]
  constructor
  · rintro ⟨⟨generation, _ | value⟩, hslot, hretired⟩
    · exact ⟨by simpa using hretired, generation, hslot⟩
    · cases hretired
  · rintro ⟨hfree, generation, hslot⟩
    exact ⟨_, hslot, by simpa using hfree⟩

/-! ## How many slots there are of each kind -/

private theorem Accounts.mem_occupied_iff (h : Accounts ledger table) :
    index ∈ table.occupied ↔ ∃ handle, ledger.Live handle ∧ handle.index = index := by
  rw [mem_occupied]
  constructor
  · intro ⟨generation, value, hslot⟩
    obtain ⟨handle, hnames, hgeneration, hindex⟩ :=
      h.wellFormed.exists_handle hslot (h.wellFormed.generation hslot).1 (Nat.le_refl _)
    refine ⟨handle, (h.live_iff _).mpr ⟨value, get_eq_ok_iff.mpr ⟨hnames, ?_⟩⟩, hindex⟩
    rw [hindex, hslot, hgeneration]
  · rintro ⟨handle, hlive, rfl⟩
    obtain ⟨value, hget⟩ := (h.live_iff handle).mp hlive
    exact ⟨_, value, (get_eq_ok_iff.mp hget).2⟩

private theorem Accounts.eq_of_index (h : Accounts ledger table) {first second : Handle}
    (hfirst : ledger.Live first) (hsecond : ledger.Live second)
    (hindex : first.index = second.index) : first = second := by
  obtain ⟨_, hget⟩ := (h.live_iff first).mp hfirst
  obtain ⟨_, hother⟩ := (h.live_iff second).mp hsecond
  obtain ⟨hnames, hslot⟩ := get_eq_ok_iff.mp hget
  obtain ⟨hnames', hslot'⟩ := get_eq_ok_iff.mp hother
  rw [hindex, hslot'] at hslot
  have hgeneration := congrArg Slot.generation (Option.some.inj hslot)
  exact Handle.eq_of_fields (hnames.1.trans hnames'.1.symm) hgeneration.symm hindex

private theorem Reachable.live_eq (h : Reachable ledger table) :
    table.live = table.occupied.length := by
  obtain ⟨hbalanced, hlive⟩ := h.balanced
  have haccounts := h.accounts
  have hnodup : (ledger.outstanding.map Handle.index).Nodup := by
    refine List.Nodup.map_on ?_ hbalanced.nodup_outstanding
    intro first hfirst second hsecond hindex
    exact haccounts.eq_of_index (hbalanced.mem_outstanding_iff.mp hfirst)
      (hbalanced.mem_outstanding_iff.mp hsecond) hindex
  have hoccupied : table.occupied.Nodup := nodup_indices _
  have hperm : (ledger.outstanding.map Handle.index).Perm table.occupied := by
    refine (List.perm_ext_iff_of_nodup hnodup hoccupied).mpr fun index => ?_
    rw [haccounts.mem_occupied_iff, List.mem_map]
    simp only [hbalanced.mem_outstanding_iff]
  rw [hlive, ← hperm.length_eq, List.length_map]

theorem WellFormed.vacant_of_free (hw : WellFormed table) (h : index ∈ table.free) :
    ∃ generation, table.slots[index]? = some ⟨generation, none⟩ := by
  obtain ⟨⟨generation, _⟩, hslot, hvacant, _⟩ := hw.vacant index h
  cases hvacant
  exact ⟨generation, hslot⟩

private theorem WellFormed.lt_size_iff (hw : WellFormed table) (index : Nat) :
    index < table.slots.size ↔
      index ∈ table.occupied ∨ index ∈ table.free ∨ index ∈ table.retired := by
  constructor
  · intro hbound
    cases hslot : table.slots[index] with
    | mk generation occupant =>
      have hsome : table.slots[index]? = some ⟨generation, occupant⟩ := by
        rw [Array.getElem?_eq_getElem hbound, hslot]
      cases occupant with
      | some value => exact .inl (mem_occupied.mpr ⟨generation, value, hsome⟩)
      | none =>
        by_cases hfree : index ∈ table.free
        · exact .inr (.inl hfree)
        · exact .inr (.inr (mem_retired.mpr ⟨hfree, generation, hsome⟩))
  · have hbound {slot : Slot α} (hslot : table.slots[index]? = some slot) :
        index < table.slots.size := (Array.getElem?_eq_some_iff.mp hslot).1
    rintro (hoccupied | hfree | hretired)
    · obtain ⟨_, _, hslot⟩ := mem_occupied.mp hoccupied
      exact hbound hslot
    · obtain ⟨_, hslot⟩ := hw.vacant_of_free hfree
      exact hbound hslot
    · obtain ⟨_, _, hslot⟩ := mem_retired.mp hretired
      exact hbound hslot

private theorem WellFormed.nodup_parts (hw : WellFormed table) :
    (table.occupied ++ (table.free ++ table.retired)).Nodup := by
  refine List.nodup_append.mpr ⟨nodup_indices _, List.nodup_append.mpr
    ⟨hw.free_nodup, nodup_indices _, ?_⟩, ?_⟩
  · rintro index hfree _ hretired rfl
    exact (mem_retired.mp hretired).1 hfree
  · rintro index hoccupied _ hvacant rfl
    obtain ⟨_, _, hslot⟩ := mem_occupied.mp hoccupied
    rcases List.mem_append.mp hvacant with hfree | hretired
    · obtain ⟨_, hempty⟩ := hw.vacant_of_free hfree
      rw [hslot] at hempty
      cases hempty
    · obtain ⟨_, _, hempty⟩ := mem_retired.mp hretired
      rw [hslot] at hempty
      cases hempty

private theorem WellFormed.size_eq (hw : WellFormed table) :
    table.slots.size = table.occupied.length + table.free.length + table.retired.length := by
  have hparts : (List.range table.slots.size).Perm
      (table.occupied ++ (table.free ++ table.retired)) := by
    refine (List.perm_ext_iff_of_nodup List.nodup_range hw.nodup_parts).mpr fun index => ?_
    rw [List.mem_range, hw.lt_size_iff, List.mem_append, List.mem_append]
  have hlength := hparts.length_eq
  rw [List.length_range, List.length_append, List.length_append] at hlength
  omega

/-! ## The generations that a slot issued -/

/-- How many generations the slot of an index has issued. -/
def issuedCount (table : SlotTable tag α) (index : Nat) : Nat :=
  match table.slots[index]? with
  | none => 0
  | some slot => if index ∈ table.free then slot.generation - 1 else slot.generation

private theorem issuedCount_filled (hw : WellFormed table) (h : Filled table value handle next)
    (index : Nat) :
    next.issuedCount index =
      if index = handle.index then table.issuedCount index + 1 else table.issuedCount index := by
  by_cases hindex : index = handle.index
  · rw [if_pos hindex, hindex]
    have hpos := h.names.2
    have hlive : next.get handle = .ok value := by rw [get_filled h, if_pos rfl]
    have hafter : next.issuedCount handle.index = handle.generation := by
      simp [issuedCount, h.slots, (hw.filled h).not_mem_free hlive]
    have hbefore : table.issuedCount handle.index = handle.generation - 1 := by
      rcases h.source with ⟨hfree, hslot⟩ | ⟨_, _, hslot, hone⟩
      · simp [issuedCount, hslot, hfree]
      · simp [issuedCount, hslot, hone]
    omega
  · rw [if_neg hindex, issuedCount, issuedCount, h.slots, if_neg hindex]
    simp only [mem_free_filled_iff h hindex]

private theorem issuedCount_emptied (hw : WellFormed table) (hget : table.get handle = .ok value)
    (h : Emptied table handle next) (index : Nat) :
    next.issuedCount index = table.issuedCount index := by
  obtain ⟨generation, hslots, hnext⟩ := h.after
  by_cases hindex : index = handle.index
  · have hoccupied := hw.not_mem_free hget
    rw [issuedCount, issuedCount, hslots, if_pos hindex, hindex, (get_eq_ok_iff.mp hget).2]
    rcases hnext with ⟨_, hgeneration, hfree⟩ | ⟨_, hgeneration, hfree⟩
    · simp [hfree, hgeneration, hoccupied]
    · simp [hfree, hgeneration, hoccupied]
  · rw [issuedCount, issuedCount, hslots, if_neg hindex]
    simp only [mem_free_emptied_iff h hindex]

private theorem issuedCount_replace (hget : table.get handle = .ok value) (new : α) (index : Nat) :
    (table.replace handle.index new).issuedCount index = table.issuedCount index := by
  rw [issuedCount, issuedCount, slots_replace hget]
  by_cases hindex : index = handle.index
  · rw [if_pos hindex, hindex, (get_eq_ok_iff.mp hget).2]
    rfl
  · rw [if_neg hindex]
    rfl

private theorem generation_of_filled (hw : WellFormed table) (h : Filled table value handle next) :
    handle.generation = table.issuedCount handle.index + 1 := by
  have hlive : next.get handle = .ok value := by rw [get_filled h, if_pos rfl]
  have hcount := issuedCount_filled hw h handle.index
  rw [if_pos rfl] at hcount
  rw [← hcount, issuedCount, h.slots, if_pos rfl]
  simp [(hw.filled h).not_mem_free hlive]

private theorem generations_append (first second : Ledger) (index : Nat) :
    Ledger.generations (first ++ second) index =
      first.generations index ++ second.generations index := by
  simp [Ledger.generations, Ledger.handles_append]

/-- A slot issues its generations in order, without a gap. -/
theorem Reachable.generations_eq (h : Reachable ledger table) (index : Nat) :
    ledger.generations index = List.range' 1 (table.issuedCount index) := by
  induction h with
  | empty => simp [Ledger.generations, Ledger.handles, issuedCount, SlotTable.empty]
  | @step ledger marks table next hreach hstep ih =>
    have hw := hreach.accounts.wellFormed
    rw [generations_append, ih]
    cases hstep with
    | keep => exact List.append_nil _
    | replace new hget =>
      rw [issuedCount_replace hget]
      exact List.append_nil _
    | remove hremove =>
      obtain ⟨hget, hempty⟩ := emptied_of_remove hremove
      rw [issuedCount_emptied hw hget hempty]
      exact List.append_nil _
    | @insert stored handle _ hinsert =>
      have hfilled := filled_of_insert hw hinsert
      rw [issuedCount_filled hw hfilled]
      by_cases hindex : index = handle.index
      · rw [if_pos hindex, List.range'_1_concat, hindex, Nat.add_comm,
          ← generation_of_filled hw hfilled]
        simp [Ledger.generations, Ledger.handles]
      · rw [if_neg hindex]
        simp [Ledger.generations, Ledger.handles, Ne.symm hindex]

/-! ## Retired slots and the number of slots -/

private theorem ne_index_of_empty (hget : table.get handle = .ok value) {generation : Nat}
    (hslot : table.slots[index]? = some ⟨generation, none⟩) : index ≠ handle.index := by
  rintro rfl
  cases hslot.symm.trans (get_eq_ok_iff.mp hget).2

private theorem Step.retired (h : Step table marks next) (hw : WellFormed table)
    (hretired : index ∈ table.retired) :
    next.slots[index]? = table.slots[index]? ∧ index ∈ next.retired := by
  obtain ⟨hfree, generation, hslot⟩ := mem_retired.mp hretired
  suffices hkept : next.slots[index]? = table.slots[index]? ∧ index ∉ next.free from
    ⟨hkept.1, mem_retired.mpr ⟨hkept.2, generation, hkept.1.trans hslot⟩⟩
  cases h with
  | keep => exact ⟨rfl, hfree⟩
  | @insert stored handle _ hinsert =>
    have hfilled := filled_of_insert hw hinsert
    have hne : index ≠ handle.index := by
      rintro rfl
      rcases hfilled.source with ⟨hpopped, _⟩ | ⟨_, _, hnone, _⟩
      · exact hfree (by rw [hpopped]; exact List.mem_cons_self)
      · rw [hslot] at hnone
        cases hnone
    rw [hfilled.slots, if_neg hne, mem_free_filled_iff hfilled hne]
    exact ⟨rfl, hfree⟩
  | replace new hget =>
    have hne := ne_index_of_empty hget hslot
    rw [slots_replace hget, if_neg hne]
    exact ⟨rfl, hfree⟩
  | remove hremove =>
    obtain ⟨hget, hempty⟩ := emptied_of_remove hremove
    have hne := ne_index_of_empty hget hslot
    obtain ⟨_, hslots, _⟩ := hempty.after
    rw [hslots, if_neg hne, mem_free_emptied_iff hempty hne]
    exact ⟨rfl, hfree⟩

theorem retired_run (hw : WellFormed table) (hretired : index ∈ table.retired)
    (operations : List (Operation α)) :
    (table.run operations).2.slots[index]? = table.slots[index]? := by
  induction operations generalizing table with
  | nil => rfl
  | cons operation rest ih =>
    have hstep := table.step_perform operation
    obtain ⟨hslot, hnext⟩ := hstep.retired hw hretired
    exact (ih (hstep.wellFormed hw) hnext).trans hslot

/-- A step that adds a slot finds no other one to fill. -/
theorem Step.size_le (h : Step table marks next) (hw : WellFormed table) :
    next.slots.size ≤ table.slots.size ∨ next.free = [] := by
  cases h with
  | keep => exact .inl (Nat.le_refl _)
  | @insert stored handle _ hinsert =>
    have hfilled := filled_of_insert hw hinsert
    rcases hfilled.source with ⟨_, hslot⟩ | ⟨_, hfree, _⟩
    · refine .inl (Array.getElem?_eq_none_iff.mp ?_)
      have hbound := (Array.getElem?_eq_some_iff.mp hslot).1
      rw [hfilled.slots, if_neg (Nat.ne_of_gt hbound)]
      exact Array.getElem?_eq_none (Nat.le_refl _)
    · exact .inr hfree
  | replace new hget => exact .inl (by simp [SlotTable.replace])
  | remove hremove => exact .inl (Nat.le_of_eq (emptied_of_remove hremove).2.size_eq)

theorem occupied_le_peak (table : SlotTable tag α) (operations : List (Operation α)) :
    table.occupied.length ≤ table.peak operations := by
  cases operations with
  | nil => exact Nat.le_refl _
  | cons operation rest => exact Nat.le_max_left _ _

/-- Slots beyond a bound are added for values that the table holds at once. -/
theorem size_run_le (hw : WellFormed table) (bound : Nat)
    (hsize : table.slots.size ≤ bound + table.retired.length) (operations : List (Operation α)) :
    (table.run operations).2.slots.size ≤
      max bound (table.peak operations) + (table.run operations).2.retired.length := by
  induction operations generalizing table bound with
  | nil => exact Nat.le_trans hsize (Nat.add_le_add_right (Nat.le_max_left _ _) _)
  | cons operation rest ih =>
    have hstep := table.step_perform operation
    have hnext := hstep.wellFormed hw
    have hretired : table.retired.length ≤ (table.perform operation).2.retired.length :=
      (nodup_indices _).length_le_of_subset fun _ hmem => (hstep.retired hw hmem).2
    have hpeak := occupied_le_peak (table.perform operation).2 rest
    have hgrown : (table.perform operation).2.slots.size ≤
        max bound (table.perform operation).2.occupied.length +
          (table.perform operation).2.retired.length := by
      rcases hstep.size_le hw with hsame | hfree
      · omega
      · rw [hnext.size_eq, hfree, List.length_nil]
        omega
    have hrest := ih hnext _ hgrown
    rw [peak]
    change ((table.perform operation).2.run rest).2.slots.size ≤
      _ + ((table.perform operation).2.run rest).2.retired.length
    omega

/-! ## The accounts of a run -/

/-- The slots of a table, checked against what its operations issued and how many values it held at
most. -/
structure Accounted (ledger : Ledger) (peak : Nat) (table : SlotTable tag α) : Prop where
  live_eq : table.live = table.occupied.length
  free_nodup : table.free.Nodup
  vacant : ∀ index ∈ table.free, ∃ generation, table.slots[index]? = some ⟨generation, none⟩
  retired : ∀ index ∈ table.retired,
    table.slots[index]? = some ⟨Handle.lastGeneration, none⟩
  size_eq : table.slots.size = table.live + table.free.length + table.retired.length
  generation : ∀ {index : Nat} {slot : Slot α}, table.slots[index]? = some slot →
    1 ≤ slot.generation ∧ slot.generation ≤ Handle.lastGeneration
  /-- A slot that waits has not issued its own generation yet. -/
  issued : ∀ {index : Nat} {slot : Slot α}, table.slots[index]? = some slot →
    ledger.generations index =
      List.range' 1 (if index ∈ table.free then slot.generation - 1 else slot.generation)
  size_le : table.slots.size ≤ peak + table.retired.length

/-- The operations of a table run into none of their cases that nothing should reach. -/
structure Guarded (table : SlotTable tag α) : Prop where
  located : ∀ {handle : Handle} {index : Nat}, table.locate handle = .ok index →
    ∃ generation value, table.slots[index]? = some ⟨generation, some value⟩ ∧
      table.get handle = .ok value ∧ table.remove handle = .ok (value, table.vacate index)
  refused : ∀ {handle : Handle} {error : Error}, table.locate handle = .error error →
    table.get handle = .error error ∧ table.remove handle = .error error
  stored : ∀ {value : α} {handle : Handle} {next : SlotTable tag α},
    table.insert value = some (handle, next) → handle.index ∉ table.occupied
  full_iff : ∀ value, table.insert value = none ↔
    table.free = [] ∧ table.slots.size = Handle.indexCount
  taken : ∀ {handle : Handle} {value : α} {next : SlotTable tag α},
    table.remove handle = .ok (value, next) → table.live = next.live + 1

private theorem Reachable.accounted (h : Reachable ledger table) {peak : Nat}
    (hpeak : table.slots.size ≤ peak + table.retired.length) : Accounted ledger peak table where
  live_eq := h.live_eq
  free_nodup := h.accounts.wellFormed.free_nodup
  vacant _ hfree := h.accounts.wellFormed.vacant_of_free hfree
  retired index hretired := by
    obtain ⟨hfree, generation, hslot⟩ := mem_retired.mp hretired
    rw [hslot, ← h.accounts.wellFormed.retired hslot rfl hfree]
  size_eq := by rw [h.accounts.wellFormed.size_eq, h.live_eq]
  generation := h.accounts.wellFormed.generation
  issued hslot := by rw [h.generations_eq, issuedCount, hslot]
  size_le := hpeak

theorem WellFormed.insert_eq_none_iff (hw : WellFormed table) (value : α) :
    table.insert value = none ↔ table.free = [] ∧ table.slots.size = Handle.indexCount := by
  unfold insert
  cases hfree : table.free with
  | nil =>
    have hsize := hw.size_le
    dsimp only
    split <;> simp <;> omega
  | cons index free =>
    obtain ⟨generation, hslot⟩ := hw.vacant_of_free (hfree ▸ List.mem_cons_self)
    simp [hslot]

private theorem Reachable.guarded (h : Reachable ledger table) : Guarded table where
  located {handle index} hlocated := by
    rcases table.get_eq_locate handle with ⟨value, hfound, hslot, hget⟩ | ⟨error, hfailed, _⟩
    · cases hlocated.symm.trans hfound
      exact ⟨_, value, hslot, hget, remove_of_get hget⟩
    · cases hlocated.symm.trans hfailed
  refused {handle error} hrefused := by
    rcases table.get_eq_locate handle with ⟨_, hfound, _⟩ | ⟨_, hfailed, hget⟩
    · cases hrefused.symm.trans hfound
    · cases hrefused.symm.trans hfailed
      exact ⟨hget, (table.remove_eq_error_iff handle error).mpr hget⟩
  stored hinsert hoccupied := by
    obtain ⟨_, _, hslot⟩ := mem_occupied.mp hoccupied
    rcases (filled_of_insert h.accounts.wellFormed hinsert).source with
      ⟨_, hvacant⟩ | ⟨_, _, hnone, _⟩
    · cases hslot.symm.trans hvacant
    · cases hslot.symm.trans hnone
  full_iff := h.accounts.wellFormed.insert_eq_none_iff
  taken {handle _ _} hremove := by
    have hmem : handle ∈ ledger.outstanding := h.balanced.1.mem_outstanding_iff.mpr
      ((h.accounts.live_iff handle).mpr ⟨_, (emptied_of_remove hremove).1⟩)
    have hpos : 0 < table.live := h.balanced.2 ▸ List.length_pos_of_mem hmem
    rw [live_remove hremove, Nat.sub_add_cancel hpos]

/-- After any operations the occupied, the waiting and the retired slots add up, each slot has issued
its generations one by one, retired slots stay as they are, and no operation meets a slot that it
does not expect. -/
theorem slots_accounted (operations later : List (Operation α)) :
    let table := ((empty : SlotTable tag α).run operations).2
    Accounted ((empty : SlotTable tag α).run operations).1
        ((empty : SlotTable tag α).peak operations) table ∧
      Guarded table ∧
      ∀ index ∈ table.retired, (table.run later).2.slots[index]? = table.slots[index]? := by
  have hreach : Reachable _ ((empty : SlotTable tag α).run operations).2 :=
    Reachable.empty.run operations
  have hpeak := size_run_le (wellFormed_empty : WellFormed (empty : SlotTable tag α)) 0
    (Nat.zero_le _) operations
  rw [Nat.zero_max] at hpeak
  exact ⟨hreach.accounted hpeak, hreach.guarded,
    fun _ hretired => retired_run hreach.accounts.wellFormed hretired later⟩

end SlotTable
end ByteIndex
