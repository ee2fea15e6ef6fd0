import ByteIndex.Proofs.HandleFields
import ByteIndex.SlotTable
/-!
# Well-formed slot tables

What a look-up answers is read off the one slot that the handle points at. Storing, replacing and
removing a value change that slot and the free stack only; between operations the stack holds exactly
the vacant slots that have a generation left.
-/
namespace ByteIndex.SlotTable

variable {α : Type} {tag : UInt8} {table next : SlotTable tag α} {handle : Handle} {value : α}

/-- The handle carries the tag of a table and a generation that slots have. -/
def Names (tag : UInt8) (handle : Handle) : Prop :=
  handle.tag = tag ∧ 0 < handle.generation

theorem get_of_not_names (table : SlotTable tag α) (h : ¬ Names tag handle) :
    table.get handle = .error (.invalidHandle handle) := by
  have hname : handle.tag ≠ tag ∨ handle.generation = 0 := by
    by_cases ht : handle.tag = tag
    · exact .inr (Nat.eq_zero_of_not_pos fun hg => h ⟨ht, hg⟩)
    · exact .inl ht
  rw [get, locate, if_pos hname]

theorem get_of_names (table : SlotTable tag α) (h : Names tag handle) :
    table.get handle =
      match table.slots[handle.index]? with
      | none => .error (.invalidHandle handle)
      | some slot =>
        if slot.generation < handle.generation then .error (.invalidHandle handle)
        else if handle.generation < slot.generation then .error (.staleHandle handle)
        else slot.occupant.elim (.error (.staleHandle handle)) .ok := by
  have hname : ¬ (handle.tag ≠ tag ∨ handle.generation = 0) := by
    rintro (ht | hg)
    · exact ht h.1
    · exact absurd h.2 (by omega)
  rw [get, locate, if_neg hname]
  rcases hslot : table.slots[handle.index]? with _ | ⟨generation, occupant⟩
  · rfl
  · rcases Nat.lt_trichotomy generation handle.generation with hlt | heq | hgt
    · simp [hlt]
    · cases occupant <;> simp [heq, occupant?, hslot]
    · simp [hgt, Nat.lt_asymm hgt, Nat.ne_of_lt hgt]

theorem get_eq_ok_iff :
    table.get handle = .ok value ↔
      Names tag handle ∧ table.slots[handle.index]? = some ⟨handle.generation, some value⟩ := by
  by_cases hname : Names tag handle
  · rw [get_of_names table hname]
    rcases table.slots[handle.index]? with _ | ⟨generation, occupant⟩
    · simp
    · rcases Nat.lt_trichotomy generation handle.generation with hlt | heq | hgt
      · simp [hlt, Nat.ne_of_lt hlt]
      · cases occupant <;> simp [hname, heq]
      · simp [hgt, Nat.lt_asymm hgt, Nat.ne_of_gt hgt]
  · rw [get_of_not_names table hname]
    simp [hname]

theorem get_eq_locate (table : SlotTable tag α) (handle : Handle) :
    (∃ value, table.locate handle = .ok handle.index ∧
        table.slots[handle.index]? = some ⟨handle.generation, some value⟩ ∧
        table.get handle = .ok value) ∨
      ∃ error, table.locate handle = .error error ∧ table.get handle = .error error := by
  cases hlocate : table.locate handle with
  | error error => exact .inr ⟨error, rfl, by rw [get, hlocate]⟩
  | ok index =>
    obtain ⟨rfl, value, hslot⟩ := slot_of_locate hlocate
    refine .inl ⟨value, rfl, hslot, ?_⟩
    rw [get, hlocate]
    simp [occupant?, hslot]

theorem get_eq_stale_iff :
    table.get handle = .error (.staleHandle handle) ↔
      Names tag handle ∧ ∃ slot, table.slots[handle.index]? = some slot ∧
        (handle.generation < slot.generation ∨
          handle.generation = slot.generation ∧ slot.occupant = none) := by
  by_cases hname : Names tag handle
  · rw [get_of_names table hname]
    rcases table.slots[handle.index]? with _ | ⟨generation, occupant⟩
    · simp
    · rcases Nat.lt_trichotomy generation handle.generation with hlt | heq | hgt
      · simp [hlt, Nat.lt_asymm hlt, Nat.ne_of_gt hlt]
      · cases occupant <;> simp [hname, heq]
      · simp [hname, hgt, Nat.lt_asymm hgt]
  · rw [get_of_not_names table hname]
    simp [hname]

theorem get_eq_error {error : Error} (h : table.get handle = .error error) :
    error = .invalidHandle handle ∨ error = .staleHandle handle := by
  by_cases hname : Names tag handle
  · rw [get_of_names table hname] at h
    rcases hslot : table.slots[handle.index]? with _ | ⟨generation, occupant⟩
    · simp_all
    · rcases Nat.lt_trichotomy generation handle.generation with hlt | heq | hgt
      · simp_all
      · cases occupant <;> simp_all
      · simp_all [Nat.lt_asymm hgt]
  · rw [get_of_not_names table hname] at h
    cases h
    exact .inl rfl

/-- What holds of the slots and the free stack between operations. -/
structure WellFormed (table : SlotTable tag α) : Prop where
  size_le : table.slots.size ≤ Handle.indexCount
  generation : ∀ {index : Nat} {slot : Slot α}, table.slots[index]? = some slot →
    0 < slot.generation ∧ slot.generation ≤ Handle.lastGeneration
  free_nodup : table.free.Nodup
  /-- A slot waits only after a life, so it waits with its second generation or a later one. -/
  vacant : ∀ index ∈ table.free, ∃ slot, table.slots[index]? = some slot ∧
    slot.occupant = none ∧ 1 < slot.generation
  retired : ∀ {index : Nat} {slot : Slot α}, table.slots[index]? = some slot →
    slot.occupant = none → index ∉ table.free → slot.generation = Handle.lastGeneration

theorem WellFormed.exists_handle (hw : WellFormed table) {index generation : Nat} {slot : Slot α}
    (hslot : table.slots[index]? = some slot) (hpos : 0 < generation)
    (hle : generation ≤ slot.generation) :
    ∃ handle, Names tag handle ∧ handle.generation = generation ∧ handle.index = index := by
  have hbound : index < Handle.indexCount :=
    Nat.lt_of_lt_of_le (Array.getElem?_eq_some_iff.mp hslot).1 hw.size_le
  have hlast := Nat.le_trans hle (hw.generation hslot).2
  have hgeneration := Handle.generation_pack tag hlast hbound
  exact ⟨.pack tag generation index, ⟨Handle.tag_pack tag hlast hbound, by omega⟩, hgeneration,
    Handle.index_pack tag hlast hbound⟩

/-- The table after a value went into the slot of a handle: the slot stood on top of the free
stack, or it is new. -/
structure Filled (table : SlotTable tag α) (value : α) (handle : Handle)
    (next : SlotTable tag α) : Prop where
  names : Names tag handle
  slots : ∀ index, next.slots[index]? =
    if index = handle.index then some ⟨handle.generation, some value⟩ else table.slots[index]?
  size_le : next.slots.size ≤ Handle.indexCount
  source :
    table.free = handle.index :: next.free ∧
        table.slots[handle.index]? = some ⟨handle.generation, none⟩ ∨
      table.free = [] ∧ next.free = [] ∧ table.slots[handle.index]? = none ∧
        handle.generation = 1

/-- The table after the slot of a handle was emptied: the slot waits for its next generation, or it
is retired at the last one. -/
structure Emptied (table : SlotTable tag α) (handle : Handle) (next : SlotTable tag α) : Prop where
  size_eq : next.slots.size = table.slots.size
  after : ∃ generation,
    (∀ index, next.slots[index]? =
      if index = handle.index then some ⟨generation, none⟩ else table.slots[index]?) ∧
    (handle.generation < Handle.lastGeneration ∧ generation = handle.generation + 1 ∧
        next.free = handle.index :: table.free ∨
      handle.generation = Handle.lastGeneration ∧ generation = handle.generation ∧
        next.free = table.free)

theorem filled_of_insert (hw : WellFormed table) (h : table.insert value = some (handle, next)) :
    Filled table value handle next := by
  unfold insert at h
  rcases hfree : table.free with _ | ⟨index, free⟩
  · rw [hfree] at h
    dsimp only at h
    split at h
    · rename_i hsize
      obtain ⟨rfl, rfl⟩ := Prod.mk.inj (Option.some.inj h)
      have hg : 1 ≤ Handle.lastGeneration := by decide
      have hindex := Handle.index_pack tag hg hsize
      have hgeneration := Handle.generation_pack tag hg hsize
      refine ⟨⟨Handle.tag_pack tag hg hsize, by omega⟩, ?_, ?_,
        .inr ⟨hfree, rfl, ?_, hgeneration⟩⟩
      · intro other
        rw [hindex, hgeneration]
        simp only [Array.getElem?_setIfInBounds, Array.getElem?_push, Array.size_push]
        grind
      · simpa using Nat.succ_le_of_lt hsize
      · rw [hindex]
        simp
    · cases h
  · rw [hfree] at h
    dsimp only at h
    obtain ⟨slot, hslot, hvacant, _⟩ := hw.vacant index (by rw [hfree]; exact List.mem_cons_self)
    rw [hslot] at h
    obtain ⟨rfl, rfl⟩ := Prod.mk.inj (Option.some.inj h)
    obtain ⟨hpos, hg⟩ := hw.generation hslot
    have hbound : index < table.slots.size := (Array.getElem?_eq_some_iff.mp hslot).1
    have hi : index < Handle.indexCount := Nat.lt_of_lt_of_le hbound hw.size_le
    have hindex := Handle.index_pack tag hg hi
    have hgeneration := Handle.generation_pack tag hg hi
    refine ⟨⟨Handle.tag_pack tag hg hi, by omega⟩, ?_, ?_, .inl ⟨?_, ?_⟩⟩
    · intro other
      rw [hindex, hgeneration]
      simp only [Array.getElem?_setIfInBounds]
      grind
    · simpa using hw.size_le
    · rw [hindex, hfree]
    · rw [hindex, hgeneration, hslot, ← hvacant]

theorem emptied_of_remove (h : table.remove handle = .ok (value, next)) :
    table.get handle = .ok value ∧ Emptied table handle next := by
  obtain ⟨hget, rfl⟩ := remove_eq_ok_iff.mp h
  obtain ⟨_, hslot⟩ := get_eq_ok_iff.mp hget
  have hbound : handle.index < table.slots.size := (Array.getElem?_eq_some_iff.mp hslot).1
  refine ⟨hget, ?_⟩
  unfold vacate
  rw [hslot]
  dsimp only
  split
  · rename_i hlt
    refine ⟨by simp, handle.generation + 1, ?_, .inl ⟨hlt, rfl, rfl⟩⟩
    intro other
    simp only [Array.getElem?_setIfInBounds]
    grind
  · rename_i hlast
    have hg : handle.generation = Handle.lastGeneration :=
      Nat.le_antisymm handle.generation_le (Nat.not_lt.mp hlast)
    refine ⟨by simp, handle.generation, ?_, .inr ⟨hg, rfl, rfl⟩⟩
    intro other
    simp only [Array.getElem?_setIfInBounds]
    grind

theorem slots_replace {old : α} (h : table.get handle = .ok old) (new : α) (index : Nat) :
    (table.replace handle.index new).slots[index]? =
      if index = handle.index then some ⟨handle.generation, some new⟩
      else table.slots[index]? := by
  obtain ⟨_, hslot⟩ := get_eq_ok_iff.mp h
  simp only [replace, Array.getElem?_modify]
  grind

/-! ## The operations keep a table well-formed -/

private theorem forall_slot_of_update {P : Slot α → Prop} {place : Nat} {new : Slot α}
    (hslots : ∀ index, next.slots[index]? =
      if index = place then some new else table.slots[index]?)
    (hold : ∀ {index : Nat} {slot : Slot α}, table.slots[index]? = some slot → P slot)
    (hnew : P new) {index : Nat} {slot : Slot α} (h : next.slots[index]? = some slot) : P slot := by
  rw [hslots] at h
  split at h
  · cases h
    exact hnew
  · exact hold h

theorem wellFormed_empty : WellFormed (empty : SlotTable tag α) := by
  refine ⟨Nat.zero_le _, ?_, List.nodup_nil, ?_, ?_⟩ <;> simp [empty]

theorem WellFormed.filled (hw : WellFormed table) (h : Filled table value handle next) :
    WellFormed next := by
  refine ⟨h.size_le, ?_, ?_, ?_, ?_⟩
  · exact forall_slot_of_update h.slots hw.generation ⟨h.names.2, handle.generation_le⟩
  · rcases h.source with ⟨hfree, _⟩ | ⟨_, hnext, _⟩
    · have hnodup := hw.free_nodup
      rw [hfree] at hnodup
      exact (List.nodup_cons.mp hnodup).2
    · rw [hnext]
      exact List.nodup_nil
  · intro index hindex
    rcases h.source with ⟨hfree, _⟩ | ⟨_, hnext, _⟩
    · have hnodup := hw.free_nodup
      rw [hfree] at hnodup
      have hne : index ≠ handle.index := by
        rintro rfl
        exact (List.nodup_cons.mp hnodup).1 hindex
      rw [h.slots, if_neg hne]
      exact hw.vacant index (by rw [hfree]; exact List.mem_cons_of_mem _ hindex)
    · rw [hnext] at hindex
      cases hindex
  · intro index slot hslot hvacant hindex
    rw [h.slots] at hslot
    split at hslot
    · cases hslot
      cases hvacant
    · rename_i hne
      apply hw.retired hslot hvacant
      rcases h.source with ⟨hfree, _⟩ | ⟨hfree, _⟩
      · rw [hfree, List.mem_cons, not_or]
        exact ⟨hne, hindex⟩
      · rw [hfree]
        exact List.not_mem_nil

theorem WellFormed.not_mem_free (hw : WellFormed table) (h : table.get handle = .ok value) :
    handle.index ∉ table.free := by
  intro hindex
  obtain ⟨slot, hslot, hvacant, _⟩ := hw.vacant _ hindex
  rw [(get_eq_ok_iff.mp h).2] at hslot
  cases hslot
  cases hvacant

theorem WellFormed.emptied (hw : WellFormed table) (hget : table.get handle = .ok value)
    (h : Emptied table handle next) : WellFormed next := by
  obtain ⟨generation, hslots, hnext⟩ := h.after
  have hpos := (get_eq_ok_iff.mp hget).1.2
  have hoccupied := hw.not_mem_free hget
  refine ⟨by rw [h.size_eq]; exact hw.size_le, ?_, ?_, ?_, ?_⟩
  · exact forall_slot_of_update hslots hw.generation ⟨by dsimp only; omega, by dsimp only; omega⟩
  · rcases hnext with ⟨_, _, hfree⟩ | ⟨_, _, hfree⟩
    · rw [hfree]
      exact List.nodup_cons.mpr ⟨hoccupied, hw.free_nodup⟩
    · rw [hfree]
      exact hw.free_nodup
  · intro index hindex
    rw [hslots]
    by_cases heq : index = handle.index
    · rw [if_pos heq]
      refine ⟨_, rfl, rfl, ?_⟩
      rcases hnext with ⟨_, hgeneration, _⟩ | ⟨_, _, hfree⟩
      · dsimp only
        omega
      · rw [hfree, heq] at hindex
        exact absurd hindex hoccupied
    · rw [if_neg heq]
      apply hw.vacant
      rcases hnext with ⟨_, _, hfree⟩ | ⟨_, _, hfree⟩
      · rw [hfree] at hindex
        exact (List.mem_cons.mp hindex).resolve_left heq
      · rw [hfree] at hindex
        exact hindex
  · intro index slot hslot hvacant hindex
    rw [hslots] at hslot
    split at hslot
    · rename_i heq
      cases hslot
      rcases hnext with ⟨_, _, hfree⟩ | ⟨hlast, hgeneration, _⟩
      · rw [hfree, heq] at hindex
        exact absurd List.mem_cons_self hindex
      · exact hgeneration.trans hlast
    · apply hw.retired hslot hvacant
      rcases hnext with ⟨_, _, hfree⟩ | ⟨_, _, hfree⟩
      · rw [hfree] at hindex
        exact fun hmem => hindex (List.mem_cons_of_mem _ hmem)
      · rw [hfree] at hindex
        exact hindex

theorem WellFormed.replace (hw : WellFormed table) (hget : table.get handle = .ok value) (new : α) :
    WellFormed (table.replace handle.index new) := by
  have hslots := slots_replace hget new
  have hnames := (get_eq_ok_iff.mp hget).1
  refine ⟨?_, ?_, hw.free_nodup, ?_, ?_⟩
  · simpa [SlotTable.replace] using hw.size_le
  · exact forall_slot_of_update hslots hw.generation ⟨hnames.2, handle.generation_le⟩
  · intro index hindex
    have hne : index ≠ handle.index := by
      rintro rfl
      exact hw.not_mem_free hget hindex
    rw [hslots, if_neg hne]
    exact hw.vacant index hindex
  · intro index slot hslot hvacant hindex
    rw [hslots] at hslot
    split at hslot
    · cases hslot
      cases hvacant
    · exact hw.retired hslot hvacant hindex

/-! ## Look-ups after an operation -/

/-- A value written at the generation of the handle shows under that handle and nowhere else. -/
private theorem get_of_slots (hnames : Names tag handle)
    (hslots : ∀ index, next.slots[index]? =
      if index = handle.index then some ⟨handle.generation, some value⟩ else table.slots[index]?)
    (hbefore : (∃ occupant, table.slots[handle.index]? = some ⟨handle.generation, occupant⟩) ∨
      table.slots[handle.index]? = none ∧ handle.generation = 1) (other : Handle) :
    next.get other = if other = handle then .ok value else table.get other := by
  by_cases heq : other = handle
  · rw [if_pos heq, heq, get_eq_ok_iff]
    exact ⟨hnames, by rw [hslots, if_pos rfl]⟩
  rw [if_neg heq]
  by_cases hother : Names tag other
  · rw [get_of_names next hother, get_of_names table hother, hslots]
    by_cases hindex : other.index = handle.index
    · have hne : other.generation ≠ handle.generation := fun hg =>
        heq (Handle.eq_of_fields (hother.1.trans hnames.1.symm) hg hindex)
      rw [if_pos hindex, hindex]
      rcases hbefore with ⟨occupant, hslot⟩ | ⟨hslot, hone⟩
      · rw [hslot]
        dsimp only
        split
        · rfl
        · rw [if_pos (by omega), if_pos (by omega)]
      · have hpos := hother.2
        rw [hslot]
        exact if_pos (by dsimp only; omega)
    · rw [if_neg hindex]
  · rw [get_of_not_names next hother, get_of_not_names table hother]

theorem get_filled (h : Filled table value handle next) (other : Handle) :
    next.get other = if other = handle then .ok value else table.get other := by
  apply get_of_slots h.names h.slots
  rcases h.source with ⟨_, hslot⟩ | ⟨_, _, hslot⟩
  · exact .inl ⟨none, hslot⟩
  · exact .inr hslot

theorem get_replace (h : table.get handle = .ok value) (new : α) (other : Handle) :
    (table.replace handle.index new).get other =
      if other = handle then .ok new else table.get other := by
  obtain ⟨hnames, hslot⟩ := get_eq_ok_iff.mp h
  exact get_of_slots hnames (slots_replace h new) (.inl ⟨_, hslot⟩) other

theorem get_emptied_eq_ok_iff (hget : table.get handle = .ok value)
    (h : Emptied table handle next) {other : Handle} {held : α} :
    next.get other = .ok held ↔ other ≠ handle ∧ table.get other = .ok held := by
  obtain ⟨generation, hslots, _⟩ := h.after
  obtain ⟨hnames, hslot⟩ := get_eq_ok_iff.mp hget
  rw [get_eq_ok_iff, get_eq_ok_iff, hslots]
  by_cases hindex : other.index = handle.index
  · rw [if_pos hindex, hindex, hslot]
    constructor
    · intro ⟨_, hnone⟩
      cases hnone
    · intro ⟨hne, hother, hsome⟩
      have hg := congrArg Slot.generation (Option.some.inj hsome)
      exact absurd (Handle.eq_of_fields (hother.1.trans hnames.1.symm) hg.symm hindex) hne
  · rw [if_neg hindex]
    have hne : other ≠ handle := fun heq => hindex (congrArg Handle.index heq)
    simp [hne]

end ByteIndex.SlotTable
