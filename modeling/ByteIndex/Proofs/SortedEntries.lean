import ByteIndex.Proofs.KeyOrder
import ByteIndex.SortedMap.Entries
/-!
# Sorted entry lists

Each operation on an entry list changes the look-up of its own key only, and keeps the keys in
ascending order. A sorted list may be searched by order and holds a key at most once.
-/
namespace ByteIndex.Entries

variable {entries before after : List Entry} {new entry : Entry} {key : Bytes}

/-- Look a key up by order: pass the smaller ones and stop at the first that is not. -/
def search (key : Bytes) : List Entry → Option Entry
  | [] => none
  | entry :: rest =>
    match compare key entry.bytes with
    | .lt => none
    | .eq => some entry
    | .gt => search key rest

theorem find?_cons (key : Bytes) (entry : Entry) (rest : List Entry) :
    find? key (entry :: rest) = if entry.bytes = key then some entry else find? key rest := by
  rw [find?, List.find?_cons]
  by_cases h : entry.bytes = key
  · simp [h]
  · rw [if_neg h, beq_false_of_ne h]
    rfl

theorem mem_of_find? (h : find? key entries = some entry) :
    entry ∈ entries ∧ entry.bytes = key :=
  ⟨List.mem_of_find?_eq_some h, by simpa using List.find?_some h⟩

theorem find?_eq_none_iff : find? key entries = none ↔ ∀ entry ∈ entries, entry.bytes ≠ key := by
  simp [find?]

theorem find?_overwrite (key other : Bytes) (value : UInt64) (entries : List Entry) :
    find? other (overwrite key value entries) =
      if other = key then (find? other entries).map ({ · with value })
      else find? other entries := by
  induction entries with
  | nil => simp [overwrite, find?]
  | cons entry rest ih =>
    have hcons : overwrite key value (entry :: rest) =
        (if entry.bytes = key then { entry with value } else entry) ::
          overwrite key value rest := by
      simp [overwrite]
    rw [hcons, find?_cons, find?_cons, ih]
    by_cases hkey : entry.bytes = key
    · rw [if_pos hkey]
      change (if entry.bytes = other then _ else _) = _
      by_cases hother : other = key
      · simp [hkey, hother]
      · simp [hkey, hother, Ne.symm hother]
    · rw [if_neg hkey]
      by_cases hother : other = key
      · simp [hother, hkey]
      · simp [hother]

theorem find?_remove (key other : Bytes) (entries : List Entry) :
    find? other (remove key entries) = if other = key then none else find? other entries := by
  induction entries with
  | nil => simp [remove, find?]
  | cons entry rest ih =>
    by_cases hkey : entry.bytes = key
    · have hcons : remove key (entry :: rest) = remove key rest := by simp [remove, hkey]
      rw [hcons, ih, find?_cons, hkey]
      by_cases hother : other = key
      · simp [hother]
      · simp [hother, Ne.symm hother]
    · have hcons : remove key (entry :: rest) = entry :: remove key rest := by simp [remove, hkey]
      rw [hcons, find?_cons, find?_cons, ih]
      by_cases hother : other = key
      · simp [hother, hkey]
      · simp [hother]

theorem insert_cons (habsent : find? new.bytes (entry :: entries) = none) :
    new.bytes < entry.bytes ∧ insert new (entry :: entries) = new :: entry :: entries ∨
      entry.bytes < new.bytes ∧ find? new.bytes entries = none ∧
        insert new (entry :: entries) = entry :: insert new entries := by
  rw [find?_cons] at habsent
  split at habsent
  · cases habsent
  rename_i hne
  rw [insert]
  split
  · rename_i hlt
    exact .inl ⟨(Key.compare_eq_lt_iff _ _).mp hlt, rfl⟩
  · rename_i heq
    exact absurd ((Key.compare_eq_eq_iff _ _).mp heq).symm hne
  · rename_i hgt
    exact .inr ⟨(Key.compare_eq_gt_iff _ _).mp hgt, habsent, rfl⟩

theorem insert_perm (habsent : find? new.bytes entries = none) :
    (insert new entries).Perm (new :: entries) := by
  induction entries with
  | nil => exact .refl _
  | cons entry rest ih =>
    rcases insert_cons habsent with ⟨_, hinsert⟩ | ⟨_, hrest, hinsert⟩
    · rw [hinsert]
    · rw [hinsert]
      exact ((ih hrest).cons entry).trans (.swap new entry rest)

theorem find?_insert (habsent : find? new.bytes entries = none) (other : Bytes) :
    find? other (insert new entries) =
      if other = new.bytes then some new else find? other entries := by
  induction entries with
  | nil =>
    rw [insert, find?_cons]
    simp only [eq_comm]
  | cons entry rest ih =>
    rcases insert_cons habsent with ⟨_, hinsert⟩ | ⟨hlt, hrest, hinsert⟩
    · rw [hinsert, find?_cons]
      simp only [eq_comm]
    · have hne : entry.bytes ≠ new.bytes := by
        intro heq
        rw [heq] at hlt
        exact List.lt_irrefl _ hlt
      rw [hinsert, find?_cons, find?_cons, ih hrest]
      by_cases hother : other = new.bytes
      · simp [hother, hne]
      · simp [hother]

theorem sorted_nil : Sorted [] := List.Pairwise.nil

theorem sorted_overwrite (key : Bytes) (value : UInt64) (h : Sorted entries) :
    Sorted (overwrite key value entries) := by
  have hbytes := map_bytes_overwrite key value entries
  have hkeys : (entries.map Entry.bytes).Pairwise (· < ·) := List.pairwise_map.mpr h
  rw [← hbytes] at hkeys
  exact List.pairwise_map.mp hkeys

theorem sorted_insert (habsent : find? new.bytes entries = none) (h : Sorted entries) :
    Sorted (insert new entries) := by
  induction entries with
  | nil => exact List.pairwise_singleton _ _
  | cons entry rest ih =>
    obtain ⟨hhead, htail⟩ := List.pairwise_cons.mp h
    rcases insert_cons habsent with ⟨hlt, hinsert⟩ | ⟨hlt, hrest, hinsert⟩
    · rw [hinsert]
      refine List.pairwise_cons.mpr ⟨?_, h⟩
      intro other hother
      rcases List.mem_cons.mp hother with rfl | hother
      · exact hlt
      · exact List.lt_trans hlt (hhead other hother)
    · rw [hinsert]
      refine List.pairwise_cons.mpr ⟨?_, ih hrest htail⟩
      intro other hother
      rcases List.mem_cons.mp ((insert_perm hrest).mem_iff.mp hother) with rfl | hother
      · exact hlt
      · exact hhead other hother

theorem sorted_nodup (h : Sorted entries) : (entries.map Entry.bytes).Nodup := by
  refine List.pairwise_map.mpr (h.imp ?_)
  intro first second hlt heq
  rw [heq] at hlt
  exact List.lt_irrefl _ hlt

theorem find?_eq_some_iff (h : Sorted entries) :
    find? key entries = some entry ↔ entry ∈ entries ∧ entry.bytes = key := by
  refine ⟨mem_of_find?, ?_⟩
  intro ⟨hmem, hkey⟩
  induction entries with
  | nil => cases hmem
  | cons head rest ih =>
    obtain ⟨hhead, htail⟩ := List.pairwise_cons.mp h
    rw [find?_cons]
    rcases List.mem_cons.mp hmem with rfl | hmem
    · rw [if_pos hkey]
    · have hlt := hhead entry hmem
      have hne : head.bytes ≠ key := by
        rintro rfl
        rw [hkey] at hlt
        exact List.lt_irrefl _ hlt
      rw [if_neg hne, ih htail hmem]

/-- A search by order finds what a search by equality does. -/
theorem search_eq_find? (key : Bytes) (h : Sorted entries) :
    search key entries = find? key entries := by
  induction entries with
  | nil => rfl
  | cons entry rest ih =>
    obtain ⟨hhead, htail⟩ := List.pairwise_cons.mp h
    rw [search, find?_cons]
    split
    · rename_i hlt
      rw [Bytes.compare_eq_lt_iff] at hlt
      have hne : entry.bytes ≠ key := by
        rintro rfl
        exact List.lt_irrefl _ hlt
      have hrest : find? key rest = none := by
        rw [find?_eq_none_iff]
        rintro other hother rfl
        exact List.lt_irrefl _ (List.lt_trans hlt (hhead other hother))
      rw [if_neg hne, hrest]
    · rename_i heq
      rw [Std.compare_eq_iff_eq] at heq
      rw [if_pos heq.symm]
    · rename_i hgt
      have hne : entry.bytes ≠ key := by
        rintro rfl
        simp at hgt
      rw [if_neg hne, ih htail]

theorem sorted_split (h : Sorted (before ++ entry :: after)) :
    (∀ other ∈ before, other.bytes < entry.bytes) ∧
      ∀ other ∈ after, entry.bytes < other.bytes := by
  obtain ⟨_, hrest, hbefore⟩ := List.pairwise_append.mp h
  exact ⟨fun other hother => hbefore other hother entry List.mem_cons_self,
    (List.pairwise_cons.mp hrest).1⟩

theorem filter_behind {p : Entry → Bool} (hbefore : ∀ other ∈ before, p other = false)
    (hafter : ∀ other ∈ after, p other = true) : (before ++ after).filter p = after := by
  have hnone : before.filter p = [] := by
    refine List.filter_eq_nil_iff.mpr fun other hother => ?_
    rw [hbefore other hother]
    exact Bool.false_ne_true
  rw [List.filter_append, hnone, List.filter_eq_self.mpr hafter, List.nil_append]

theorem filter_before {p : Entry → Bool} (hbefore : ∀ other ∈ before, p other = true)
    (hafter : ∀ other ∈ after, p other = false) : (before ++ after).filter p = before := by
  have hnone : after.filter p = [] := by
    refine List.filter_eq_nil_iff.mpr fun other hother => ?_
    rw [hafter other hother]
    exact Bool.false_ne_true
  rw [List.filter_append, List.filter_eq_self.mpr hbefore, hnone, List.append_nil]

section

variable (h : Sorted (before ++ entry :: after))

include h

theorem filter_gt :
    (before ++ entry :: after).filter (fun other => decide (entry.bytes < other.bytes)) = after := by
  obtain ⟨hbefore, hafter⟩ := sorted_split h
  rw [List.append_cons]
  refine filter_behind ?_ fun other hother => decide_eq_true (hafter other hother)
  intro other hother
  rcases List.mem_append.mp hother with hother | hother
  · exact decide_eq_false (List.lt_asymm (hbefore other hother))
  · rw [List.mem_singleton.mp hother]
    exact decide_eq_false (List.lt_irrefl _)

theorem filter_ge :
    (before ++ entry :: after).filter (fun other => decide (entry.bytes ≤ other.bytes)) =
      entry :: after := by
  obtain ⟨hbefore, hafter⟩ := sorted_split h
  refine filter_behind ?_ ?_
  · intro other hother
    exact decide_eq_false (List.not_le.mpr (hbefore other hother))
  · intro other hother
    rcases List.mem_cons.mp hother with rfl | hother
    · exact decide_eq_true (List.le_refl _)
    · exact decide_eq_true (List.le_of_lt (hafter other hother))

theorem filter_lt :
    (before ++ entry :: after).filter (fun other => decide (other.bytes < entry.bytes)) =
      before := by
  obtain ⟨hbefore, hafter⟩ := sorted_split h
  refine filter_before (fun other hother => decide_eq_true (hbefore other hother)) ?_
  intro other hother
  rcases List.mem_cons.mp hother with rfl | hother
  · exact decide_eq_false (List.lt_irrefl _)
  · exact decide_eq_false (List.lt_asymm (hafter other hother))

theorem filter_le :
    (before ++ entry :: after).filter (fun other => decide (other.bytes ≤ entry.bytes)) =
      before ++ [entry] := by
  obtain ⟨hbefore, hafter⟩ := sorted_split h
  rw [List.append_cons]
  refine filter_before ?_ ?_
  · intro other hother
    rcases List.mem_append.mp hother with hother | hother
    · exact decide_eq_true (List.le_of_lt (hbefore other hother))
    · rw [List.mem_singleton.mp hother]
      exact decide_eq_true (List.le_refl _)
  · intro other hother
    exact decide_eq_false (List.not_le.mpr (hafter other hother))

end

theorem split_of_find? (h : find? key entries = some entry) :
    ∃ before after, entries = before ++ entry :: after ∧
      entries.findIdx? (·.bytes == key) = some before.length := by
  obtain ⟨hkey, before, after, rfl, hbefore⟩ := List.find?_eq_some_iff_append.mp h
  have hnone : before.findIdx? (·.bytes == key) = none := by
    refine List.findIdx?_eq_none_iff.mpr fun other hother => ?_
    simpa using hbefore other hother
  refine ⟨before, after, rfl, ?_⟩
  rw [List.findIdx?_append, hnone, List.findIdx?_cons, if_pos hkey]
  simp

end ByteIndex.Entries
