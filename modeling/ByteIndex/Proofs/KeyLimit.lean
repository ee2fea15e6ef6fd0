import ByteIndex.Cursor
import ByteIndex.Proofs.MapUpdate
/-!
# The key limit

A map measures a key against its limit only when the key is new. No stored key is over the limit, so
this refuses exactly the keys that are, and a map that measured each key before looking it up would
answer no call differently. The limit itself never changes, in a map or in its copies.
-/
namespace ByteIndex.SortedMap

variable {map next : SortedMap} {key : Bytes} {value : UInt64} {old : Option UInt64}

/-- Every stored key is within the limit. -/
def WithinLimit (map : SortedMap) : Prop :=
  ∀ entry ∈ map.entries, entry.bytes.length ≤ map.config.maxKeyLength

private theorem withinLimit_emptyWith (config : Config) : (emptyWith config).WithinLimit := nofun

private theorem withinLimit_clear (map : SortedMap) : map.clear.WithinLimit := nofun

private theorem withinLimit_put (hput : map.put key value = .ok (old, next)) (h : map.WithinLimit) :
    next.WithinLimit := by
  rcases put_eq_ok hput with ⟨_, _, _, rfl⟩ | ⟨hentry, hlength, _, rfl⟩
  · intro entry hmem
    have hkey : entry.bytes ∈ (Entries.overwrite key value map.entries).map Entry.bytes :=
      List.mem_map_of_mem hmem
    rw [Entries.map_bytes_overwrite] at hkey
    obtain ⟨before, hbefore, hbytes⟩ := List.mem_map.mp hkey
    rw [← hbytes]
    exact h before hbefore
  · intro entry hmem
    rcases List.mem_cons.mp ((Entries.insert_perm (absent_new hentry value)).mem_iff.mp hmem) with
      rfl | hmem
    · rw [show Entry.bytes ⟨.ofBytes key, value⟩ = key from Key.bytes_ofBytes key]
      exact hlength
    · exact h entry hmem

private theorem withinLimit_erase (key : Bytes) (h : map.WithinLimit) :
    (map.erase key).2.WithinLimit := by
  intro entry hmem
  rw [entries_erase] at hmem
  rw [config_erase]
  exact h entry (List.mem_filter.mp hmem).1

private theorem entry_of_long (h : map.WithinLimit) (hlong : map.config.maxKeyLength < key.length) :
    map.entry? key = none := by
  refine Entries.find?_eq_none_iff.mpr ?_
  rintro entry hmem rfl
  exact absurd hlong (Nat.not_lt.mpr (h entry hmem))

/-- A key over the limit is refused although a present key is not measured, as none is present. -/
theorem put_eq_error_iff_length (h : map.WithinLimit) {error : Error} :
    map.put key value = .error error ↔
      map.config.maxKeyLength < key.length ∧
        error = .keyTooLong key.length map.config.maxKeyLength := by
  rw [put_eq_error_iff]
  refine and_iff_right_of_imp fun ⟨hlong, _⟩ => ?_
  exact get?_eq_none_iff.mpr (entry_of_long h hlong)

private theorem put_of_length_le (h : map.WithinLimit)
    (hlength : key.length ≤ map.config.maxKeyLength) :
    ∃ next, map.put key value = .ok (map.get? key, next) ∧ next.get? key = some value := by
  cases hput : map.put key value with
  | error error =>
    obtain ⟨hlong, _⟩ := (put_eq_error_iff_length h).mp hput
    exact absurd hlong (Nat.not_lt.mpr hlength)
  | ok changed =>
    obtain ⟨old, next⟩ := changed
    refine ⟨next, by rw [former_put hput], ?_⟩
    rw [get?_put hput, if_pos rfl]

private theorem set_eq_error_iff {error : Error} :
    map.set key value = .error error ↔ map.put key value = .error error := by
  rw [set]
  cases map.put key value <;> simp [Except.map]

private theorem set_of_put (h : map.put key value = .ok (old, next)) :
    map.set key value = .ok next := by
  rw [set, h]
  rfl

/-- Bind a key to a value, where the key is measured before it is looked up. -/
def putMeasured (map : SortedMap) (key : Bytes) (value : UInt64) :
    Except Error (Option UInt64 × SortedMap) :=
  match map.config.allow key with
  | .error error => .error error
  | .ok () =>
    match map.entry? key with
    | some entry =>
      .ok (some entry.value, { map with entries := Entries.overwrite key value map.entries })
    | none => .ok (none, map.adopt ⟨.ofBytes key, value⟩)

theorem put_eq_putMeasured (h : map.WithinLimit) (key : Bytes) (value : UInt64) :
    map.put key value = map.putMeasured key value := by
  rw [put, putMeasured]
  cases hentry : map.entry? key with
  | none => cases map.config.allow key <;> rfl
  | some entry =>
    have hallow : map.config.allow key = .ok () := by
      obtain ⟨hmem, hkey⟩ := Entries.mem_of_find? hentry
      exact if_neg (Nat.not_lt.mpr (hkey ▸ h entry hmem))
    rw [hallow]

/-- The limit of the map is the given one, and no stored key is over it. -/
structure KeepsLimit (limit : Nat) (map : SortedMap) : Prop where
  limit_eq : map.config.maxKeyLength = limit
  within : map.WithinLimit

/-- Over the limit there is nothing to find and nothing can be bound; up to the limit everything can. -/
structure Enforces (limit : Nat) (map : SortedMap) : Prop where
  limit_eq : map.config.maxKeyLength = limit
  stored : ∀ entry ∈ map.entries, entry.bytes.length ≤ limit
  put_refused : ∀ key value error, map.put key value = .error error ↔
    limit < key.length ∧ error = .keyTooLong key.length limit
  set_refused : ∀ key value error, map.set key value = .error error ↔
    limit < key.length ∧ error = .keyTooLong key.length limit
  bound : ∀ key value, key.length ≤ limit → ∃ next,
    map.put key value = .ok (map.get? key, next) ∧ map.set key value = .ok next ∧
      next.get? key = some value
  put_measured : ∀ key value, map.put key value = map.putMeasured key value
  set_measured : ∀ key value, map.set key value = (map.putMeasured key value).map (·.2)
  absent : ∀ key, limit < key.length →
    map.get? key = none ∧ map.contains key = false ∧ map.erase key = (none, map) ∧
      map.seek key = .exhausted

namespace KeepsLimit

variable {limit : Nat}

theorem emptyWith (config : Config) : KeepsLimit config.maxKeyLength (emptyWith config) :=
  ⟨rfl, withinLimit_emptyWith config⟩

theorem put (h : KeepsLimit limit map) (hput : map.put key value = .ok (old, next)) :
    KeepsLimit limit next := by
  refine ⟨?_, withinLimit_put hput h.within⟩
  rw [config_put hput, h.limit_eq]

theorem erase (h : KeepsLimit limit map) (key : Bytes) : KeepsLimit limit (map.erase key).2 := by
  refine ⟨?_, withinLimit_erase key h.within⟩
  rw [config_erase, h.limit_eq]

theorem clear (h : KeepsLimit limit map) : KeepsLimit limit map.clear :=
  ⟨h.limit_eq, withinLimit_clear map⟩

theorem apply (h : KeepsLimit limit map) (edit : Edit) : KeepsLimit limit (map.apply edit).2 :=
  keeps_apply h h.put h.erase h.clear edit

private theorem put_refused (h : KeepsLimit limit map) {error : Error} :
    map.put key value = .error error ↔
      limit < key.length ∧ error = .keyTooLong key.length limit := by
  rw [put_eq_error_iff_length h.within, h.limit_eq]

private theorem enforces (h : KeepsLimit limit map) : Enforces limit map where
  limit_eq := h.limit_eq
  stored := h.limit_eq ▸ h.within
  put_refused _ _ _ := h.put_refused
  set_refused _ _ _ := set_eq_error_iff.trans h.put_refused
  bound key value hlength := by
    obtain ⟨next, hput, hget⟩ := put_of_length_le h.within (h.limit_eq.symm ▸ hlength)
    exact ⟨next, hput, set_of_put hput, hget⟩
  put_measured := put_eq_putMeasured h.within
  set_measured key value := by rw [set, put_eq_putMeasured h.within]
  absent key hlong := by
    have hentry := entry_of_long h.within (h.limit_eq.symm ▸ hlong)
    simp [get?, contains, SortedMap.erase, seek, Cursor.placeOn, hentry]

end KeepsLimit

/-- Whatever commands a family grows by, every member has the limit that the first map was made with
and enforces it. -/
theorem limit_enforced (config : Config) (start : SortedMap)
    (hstart : SortedMap.create config = .ok start) (commands : List Command) :
    1 ≤ config.maxKeyLength ∧
      ∀ map ∈ (Family.run SortedMap.apply [start] commands).2,
        Enforces config.maxKeyLength map := by
  obtain ⟨hlimit, rfl⟩ := create_eq_ok_iff.mp hstart
  refine ⟨hlimit, fun map hmem => ?_⟩
  have hfirst : ∀ member ∈ [emptyWith config], KeepsLimit config.maxKeyLength member := by
    intro member hmember
    rw [List.mem_singleton.mp hmember]
    exact .emptyWith config
  exact (Family.forall_run KeepsLimit.apply hfirst commands map hmem).enforces

theorem limit_enforced_in_copy :
    let commands : List Command :=
      [.edit 0 (.put [97, 98, 99, 100] 1), .edit 0 (.set [97, 98, 99, 100, 101] 2),
        .edit 0 (.set [] 3), .copy 0, .edit 0 .clear, .edit 1 (.put [97, 98, 99, 100] 4)]
    ∃ start map, SortedMap.create ⟨4⟩ = .ok start ∧
      (Family.run SortedMap.apply [start] commands).1 =
        [some (.former none), some (.refused (.keyTooLong 5 4)), some .done, some .done, some .done,
          some (.former (some 1))] ∧
      (Family.run SortedMap.apply [start] commands).2[1]? = some map ∧ 1 ≤ 4 ∧
      Enforces 4 map := by
  intro commands
  obtain ⟨hlimit, henforces⟩ := limit_enforced ⟨4⟩ (emptyWith ⟨4⟩) rfl commands
  refine ⟨emptyWith ⟨4⟩, ⟨⟨4⟩, [⟨.owned [], 3⟩, ⟨.owned [97, 98, 99, 100], 4⟩], 0, 4⟩, rfl,
    by decide, rfl, hlimit, ?_⟩
  exact henforces _ (List.mem_of_getElem? (i := 1) rfl)

end ByteIndex.SortedMap
