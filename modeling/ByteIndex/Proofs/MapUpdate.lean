import ByteIndex.Proofs.SortedEntries
import ByteIndex.SortedMap.Edit
/-!
# Updates of sorted maps

A put overwrites a present key, refuses a new one over the limit and adopts every other. An update
tells the value that its key had, changes no other look-up and keeps the entries sorted.
-/
namespace ByteIndex.SortedMap

variable {map next : SortedMap} {key : Bytes} {value : UInt64} {old : Option UInt64}

theorem get?_eq_none_iff : map.get? key = none ↔ map.entry? key = none := by
  simp [get?]

theorem put_eq_error_iff {error : Error} :
    map.put key value = .error error ↔
      map.get? key = none ∧ map.config.maxKeyLength < key.length ∧
        error = .keyTooLong key.length map.config.maxKeyLength := by
  rw [get?_eq_none_iff, put]
  cases hentry : map.entry? key with
  | some entry => simp
  | none =>
    by_cases hlimit : map.config.maxKeyLength < key.length
    · simp [Config.allow, hlimit, eq_comm]
    · simp [Config.allow, hlimit]

theorem put_eq_ok (h : map.put key value = .ok (old, next)) :
    (∃ entry, map.entry? key = some entry ∧ old = some entry.value ∧
        next = { map with entries := Entries.overwrite key value map.entries }) ∨
      map.entry? key = none ∧ key.length ≤ map.config.maxKeyLength ∧ old = none ∧
        next = map.adopt ⟨.ofBytes key, value⟩ := by
  rw [put] at h
  cases hentry : map.entry? key with
  | some entry =>
    rw [hentry] at h
    cases h
    exact .inl ⟨entry, rfl, rfl, rfl⟩
  | none =>
    by_cases hlimit : map.config.maxKeyLength < key.length
    · simp [hentry, Config.allow, hlimit] at h
    · simp only [hentry, Config.allow, hlimit, if_false] at h
      cases h
      exact .inr ⟨rfl, Nat.not_lt.mp hlimit, rfl, rfl⟩

theorem former_put (h : map.put key value = .ok (old, next)) : old = map.get? key := by
  rcases put_eq_ok h with ⟨entry, hentry, rfl, _⟩ | ⟨hentry, _, rfl, _⟩
  · simp [get?, hentry]
  · simp [get?, hentry]

theorem absent_new (hentry : map.entry? key = none) (value : UInt64) :
    Entries.find? (Entry.bytes ⟨.ofBytes key, value⟩) map.entries = none := by
  rw [show Entry.bytes ⟨.ofBytes key, value⟩ = key from Key.bytes_ofBytes key]
  exact hentry

theorem get?_put (h : map.put key value = .ok (old, next)) (other : Bytes) :
    next.get? other = if other = key then some value else map.get? other := by
  rcases put_eq_ok h with ⟨entry, hentry, _, rfl⟩ | ⟨hentry, _, _, rfl⟩
  · simp only [get?, entry?] at hentry ⊢
    rw [Entries.find?_overwrite]
    by_cases hother : other = key
    · simp [hother, hentry]
    · simp [hother]
  · have hbytes : Entry.bytes ⟨.ofBytes key, value⟩ = key := Key.bytes_ofBytes key
    simp only [get?, entry?, adopt]
    rw [Entries.find?_insert (absent_new hentry value), hbytes]
    by_cases hother : other = key
    · simp [hother]
    · simp [hother]

theorem sorted_put (h : map.put key value = .ok (old, next)) (hs : Entries.Sorted map.entries) :
    Entries.Sorted next.entries := by
  rcases put_eq_ok h with ⟨_, _, _, rfl⟩ | ⟨hentry, _, _, rfl⟩
  · exact Entries.sorted_overwrite key value hs
  · exact Entries.sorted_insert (absent_new hentry value) hs

theorem former_erase (map : SortedMap) (key : Bytes) : (map.erase key).1 = map.get? key := by
  unfold erase get?
  split <;> simp_all

theorem entries_erase (map : SortedMap) (key : Bytes) :
    (map.erase key).2.entries = Entries.remove key map.entries := by
  unfold erase
  split
  · rename_i entry hentry
    rw [release, (Entries.mem_of_find? hentry).2]
  · rename_i hentry
    have habsent := Entries.find?_eq_none_iff.mp hentry
    refine (List.filter_eq_self.mpr ?_).symm
    intro entry hmem
    simpa using habsent entry hmem

theorem get?_erase (map : SortedMap) (key other : Bytes) :
    (map.erase key).2.get? other = if other = key then none else map.get? other := by
  simp only [get?, entry?]
  rw [entries_erase, Entries.find?_remove]
  split <;> simp

theorem sorted_erase (key : Bytes) (hs : Entries.Sorted map.entries) :
    Entries.Sorted (map.erase key).2.entries := by
  rw [entries_erase]
  exact Entries.sorted_remove key hs

theorem sorted_apply (hs : Entries.Sorted map.entries) (edit : Edit) :
    Entries.Sorted (map.apply edit).2.entries :=
  keeps_apply hs (sorted_put · hs) (sorted_erase · hs) Entries.sorted_nil edit

theorem Reachable.sorted (h : Reachable map) : Entries.Sorted map.entries :=
  h.induction (P := fun map => Entries.Sorted map.entries) (fun _ => Entries.sorted_nil)
    sorted_apply

end ByteIndex.SortedMap
