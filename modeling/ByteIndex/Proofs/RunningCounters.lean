import ByteIndex.Proofs.MapUpdate
import ByteIndex.SortedMap.Edit
import ByteIndex.SortedMap.Footprint
/-!
# Running counters

A map counts its keys as they come and go and never counts them anew. The counters still are what a
count over the stored keys would give, so the footprint of a map is a function of its keys and holds
nothing of its past.
-/
namespace ByteIndex

namespace Key

/-- The form that a key made from its bytes would have. -/
def Canonical (key : Key) : Prop :=
  key.isInline = fitsWord key.bytes

theorem fitsWord_iff (bytes : Bytes) :
    fitsWord bytes = true ↔
      bytes.length = 8 ∧ ∃ first ∈ bytes.head?, first &&& 0b11 ≠ 0 := by
  simp [fitsWord, wordBytes, Option.any_eq_true]

theorem canonical_ofBytes (bytes : Bytes) : (ofBytes bytes).Canonical := by
  rw [Canonical, isInline_ofBytes, bytes_ofBytes]

private theorem ownedBytes_of_inline {key : Key} (h : key.isInline = true) :
    key.ownedBytes = 0 := by
  rw [ownedBytes_eq, if_pos h]

variable {keys : List Key}

private theorem countP_isInline (h : ∀ key ∈ keys, key.Canonical) :
    keys.countP isInline = (keys.map bytes).countP fitsWord := by
  rw [List.countP_map]
  refine List.countP_congr fun key hmem => ?_
  rw [Function.comp_apply, h key hmem]

private theorem sum_ownedBytes (h : ∀ key ∈ keys, key.Canonical) :
    (keys.map ownedBytes).sum =
      (((keys.map bytes).filter (!fitsWord ·)).map List.length).sum := by
  induction keys with
  | nil => rfl
  | cons key rest ih =>
    have hrest := ih fun other hmem => h other (List.mem_cons_of_mem _ hmem)
    have hkey : key.isInline = fitsWord key.bytes := h key List.mem_cons_self
    rw [List.map_cons, List.sum_cons, hrest, List.map_cons, List.filter_cons, ownedBytes_eq, hkey]
    by_cases hfits : fitsWord key.bytes = true
    · simp [hfits]
    · simp [hfits, size_eq_length_bytes]

end Key

namespace Footprint

/-- The footprint of a map with the given keys, by counting. -/
def ofKeys (keys : List Bytes) : Footprint :=
  let owned := keys.filter fun key => !Key.fitsWord key
  { keyCount := keys.length
    inlineCount := keys.countP Key.fitsWord
    ownedCount := owned.length
    ownedBytes := (owned.map List.length).sum
    totalBytes := 24 * keys.length + (owned.map List.length).sum }

end Footprint

namespace Entries

variable {entries : List Entry} {entry : Entry}

private theorem map_key_overwrite (key : Bytes) (value : UInt64) (entries : List Entry) :
    (overwrite key value entries).map Entry.key = entries.map Entry.key := by
  simp only [overwrite, List.map_map, List.map_inj_left, Function.comp_apply]
  intro entry _
  split <;> rfl

private theorem perm_remove (hs : Sorted entries) (hmem : entry ∈ entries) :
    entries.Perm (entry :: remove entry.bytes entries) := by
  induction entries with
  | nil => cases hmem
  | cons head rest ih =>
    obtain ⟨hhead, htail⟩ := List.pairwise_cons.mp hs
    rcases List.mem_cons.mp hmem with rfl | hmem
    · have hrest : remove entry.bytes rest = rest := by
        refine List.filter_eq_self.mpr fun other hother => ?_
        have hne : other.bytes ≠ entry.bytes := fun heq =>
          List.lt_irrefl _ (heq ▸ hhead other hother)
        simpa using hne
      have hcons : remove entry.bytes (entry :: rest) = remove entry.bytes rest := by simp [remove]
      rw [hcons, hrest]
    · have hne : head.bytes ≠ entry.bytes := fun heq =>
        List.lt_irrefl _ (heq ▸ hhead entry hmem)
      have hcons : remove entry.bytes (head :: rest) = head :: remove entry.bytes rest := by
        simp [remove, hne]
      rw [hcons]
      exact ((ih htail hmem).cons head).trans (.swap entry head _)

end Entries

namespace SortedMap

variable {map next : SortedMap} {key : Bytes} {value : UInt64} {entry : Entry}

/-- The stored keys, in the form in which they are stored. -/
def keys (map : SortedMap) : List Key :=
  map.entries.map Entry.key

/-- Every stored key has the form that its bytes choose, and the counters count these keys. -/
structure Tallied (map : SortedMap) : Prop where
  sorted : Entries.Sorted map.entries
  canonical : ∀ key ∈ map.keys, key.Canonical
  inlineCount : map.inlineCount = map.keys.countP Key.isInline
  ownedBytes : map.ownedBytes = (map.keys.map Key.ownedBytes).sum

namespace Tallied

theorem emptyWith (config : Config) : Tallied (emptyWith config) :=
  ⟨Entries.sorted_nil, nofun, rfl, rfl⟩

private theorem clear (map : SortedMap) : Tallied map.clear :=
  ⟨Entries.sorted_nil, nofun, rfl, rfl⟩

private theorem of_keys (h : Tallied map) (hs : Entries.Sorted next.entries)
    (hkeys : next.keys = map.keys)
    (hinline : next.inlineCount = map.inlineCount) (howned : next.ownedBytes = map.ownedBytes) :
    Tallied next := by
  refine ⟨hs, ?_, ?_, ?_⟩
  · rw [hkeys]
    exact h.canonical
  · rw [hkeys, hinline, h.inlineCount]
  · rw [hkeys, howned, h.ownedBytes]

private theorem adopt (h : Tallied map) (hcanonical : entry.key.Canonical)
    (habsent : Entries.find? entry.bytes map.entries = none) : Tallied (map.adopt entry) := by
  have hperm : (map.adopt entry).keys.Perm (entry.key :: map.keys) :=
    (Entries.insert_perm habsent).map Entry.key
  refine ⟨Entries.sorted_insert habsent h.sorted, ?_, ?_, ?_⟩
  · intro key hmem
    rcases List.mem_cons.mp (hperm.mem_iff.mp hmem) with rfl | hmem
    · exact hcanonical
    · exact h.canonical key hmem
  · rw [hperm.countP_eq, List.countP_cons, ← h.inlineCount]
    change (if entry.key.isInline then map.inlineCount + 1 else map.inlineCount) = _
    split <;> rfl
  · rw [(hperm.map _).sum_nat, List.map_cons, List.sum_cons, ← h.ownedBytes]
    change (if entry.key.isInline then map.ownedBytes else _) = _
    split
    · rename_i hinline
      rw [Key.ownedBytes_of_inline hinline, Nat.zero_add]
    · exact Nat.add_comm _ _

private theorem perm_release (h : Tallied map) (hentry : map.entry? key = some entry) :
    map.keys.Perm (entry.key :: (map.release entry).keys) :=
  (Entries.perm_remove h.sorted (Entries.mem_of_find? hentry).1).map Entry.key

/-- What a release takes off a counter is in it. -/
theorem counted (h : Tallied map) (hentry : map.entry? key = some entry) :
    (entry.key.isInline = true → 0 < map.inlineCount) ∧ entry.key.ownedBytes ≤ map.ownedBytes := by
  have hperm := h.perm_release hentry
  constructor
  · intro hinline
    rw [h.inlineCount, hperm.countP_eq, List.countP_cons_of_pos hinline]
    exact Nat.succ_pos _
  · rw [h.ownedBytes, (hperm.map _).sum_nat, List.map_cons, List.sum_cons]
    exact Nat.le_add_right _ _

private theorem release (h : Tallied map) (hentry : map.entry? key = some entry) :
    Tallied (map.release entry) := by
  have hperm := h.perm_release hentry
  have hinlineCount := h.inlineCount
  have hownedBytes := h.ownedBytes
  rw [hperm.countP_eq, List.countP_cons] at hinlineCount
  rw [(hperm.map _).sum_nat, List.map_cons, List.sum_cons] at hownedBytes
  refine ⟨Entries.sorted_remove _ h.sorted, ?_, ?_, ?_⟩
  · intro key hmem
    exact h.canonical key (hperm.mem_iff.mpr (List.mem_cons_of_mem _ hmem))
  · change (if entry.key.isInline then map.inlineCount - 1 else map.inlineCount) = _
    split <;> simp_all
  · change (if entry.key.isInline then map.ownedBytes else map.ownedBytes - _) = _
    split
    · rename_i hinline
      rw [hownedBytes, Key.ownedBytes_of_inline hinline, Nat.zero_add]
    · rw [hownedBytes, Nat.add_sub_cancel_left]

private theorem put (h : Tallied map) {old : Option UInt64}
    (hput : map.put key value = .ok (old, next)) :
    Tallied next := by
  have hs := sorted_put hput h.sorted
  rcases put_eq_ok hput with ⟨_, _, _, rfl⟩ | ⟨hentry, _, _, rfl⟩
  · exact h.of_keys hs (Entries.map_key_overwrite key value map.entries) rfl rfl
  · exact h.adopt (Key.canonical_ofBytes key) (absent_new hentry value)

private theorem erase (h : Tallied map) (key : Bytes) : Tallied (map.erase key).2 := by
  rw [SortedMap.erase]
  cases hentry : map.entry? key with
  | none => exact h
  | some entry => exact h.release hentry

theorem apply (h : Tallied map) (edit : Edit) : Tallied (map.apply edit).2 :=
  keeps_apply h h.put h.erase (clear map) edit

private theorem inlineCount_eq (h : Tallied map) :
    map.inlineCount = (map.entries.map Entry.bytes).countP Key.fitsWord := by
  rw [h.inlineCount, Key.countP_isInline h.canonical, keys, List.map_map]
  rfl

private theorem ownedBytes_eq (h : Tallied map) :
    map.ownedBytes =
      (((map.entries.map Entry.bytes).filter (!Key.fitsWord ·)).map List.length).sum := by
  rw [h.ownedBytes, Key.sum_ownedBytes h.canonical, keys, List.map_map]
  rfl

private theorem inlineCount_le (h : Tallied map) : map.inlineCount ≤ map.size := by
  have hle := List.countP_le_length (p := Key.isInline) (l := map.keys)
  rw [← h.inlineCount, keys, List.length_map] at hle
  exact hle

/-- The footprint by the running counters is the footprint by counting over the keys. -/
theorem footprint_eq (h : Tallied map) :
    map.footprint = .ofKeys (map.entries.map Entry.bytes) := by
  have hsize : map.size = (map.entries.map Entry.bytes).length := (List.length_map ..).symm
  have hsplit := List.length_eq_countP_add_countP Key.fitsWord (l := map.entries.map Entry.bytes)
  have howned : map.size - map.inlineCount =
      ((map.entries.map Entry.bytes).filter (!Key.fitsWord ·)).length := by
    rw [hsize, h.inlineCount_eq, hsplit, Nat.add_sub_cancel_left, List.countP_eq_length_filter]
    simp
  rw [SortedMap.footprint, Footprint.ofKeys, howned, hsize, h.inlineCount_eq, h.ownedBytes_eq,
    Footprint.entryBytes, Nat.mul_comm]

end Tallied

/-- The form of the stored keys and the counters are those of the contents, and no counter is ever
asked for more than it holds. -/
structure Accurate (map : SortedMap) : Prop where
  form : ∀ entry ∈ map.entries, entry.key.isInline = true ↔
    entry.bytes.length = 8 ∧ ∃ first ∈ entry.bytes.head?, first &&& 0b11 ≠ 0
  inlineCount : map.inlineCount = (map.entries.map Entry.bytes).countP Key.fitsWord
  ownedBytes : map.ownedBytes =
    (((map.entries.map Entry.bytes).filter (!Key.fitsWord ·)).map List.length).sum
  footprint : map.footprint = .ofKeys (map.entries.map Entry.bytes)
  report : map.footprint.keyCount = map.size ∧
    map.footprint.ownedCount + map.inlineCount = map.size ∧
    map.footprint.totalBytes = 24 * map.size + map.ownedBytes
  release : ∀ key entry, map.entry? key = some entry →
    (entry.key.isInline = true → 0 < map.inlineCount) ∧ entry.key.ownedBytes ≤ map.ownedBytes

theorem Tallied.accurate (h : Tallied map) : Accurate map where
  form entry hmem := by
    rw [h.canonical entry.key (List.mem_map_of_mem hmem)]
    exact Key.fitsWord_iff entry.bytes
  inlineCount := h.inlineCount_eq
  ownedBytes := h.ownedBytes_eq
  footprint := h.footprint_eq
  report := by
    refine ⟨rfl, Nat.sub_add_cancel h.inlineCount_le, ?_⟩
    rw [SortedMap.footprint, Footprint.entryBytes, Nat.mul_comm]
  release _ _ hentry := h.counted hentry

private theorem tallied_start {config : Config} {start : SortedMap}
    (h : start = .empty ∨ SortedMap.create config = .ok start) : Tallied start := by
  rcases h with rfl | hcreate
  · exact .emptyWith .unbounded
  · rw [(create_eq_ok_iff.mp hcreate).2]
    exact .emptyWith config

/-- Whatever commands a family grows by, the statistics of each member follow from its keys. -/
theorem statistics_follow_keys (config : Config) (start : SortedMap)
    (hstart : start = .empty ∨ SortedMap.create config = .ok start) (commands : List Command) :
    ∀ map ∈ (Family.run SortedMap.apply [start] commands).2, Accurate map := by
  intro map hmem
  have hfirst : ∀ member ∈ [start], Tallied member := fun member hmember =>
    List.mem_singleton.mp hmember ▸ tallied_start hstart
  exact (Family.forall_run Tallied.apply hfirst commands map hmem).accurate

theorem statistics_of_copy :
    let commands : List Command :=
      [.edit 0 (.put [1, 0, 0, 0, 0, 0, 0, 2] 5), .edit 0 (.put [7] 6), .edit 0 (.set [7] 7),
        .edit 0 (.set [0, 0, 0, 0, 0, 0, 0, 0, 0] 1), .edit 0 (.put [0, 1, 1, 1, 1, 1, 1, 1] 3),
        .copy 0, .edit 1 (.erase [1, 0, 0, 0, 0, 0, 0, 2]), .edit 1 (.erase [9])]
    ∃ start map, SortedMap.create ⟨8⟩ = .ok start ∧
      (Family.run SortedMap.apply [start] commands).2[1]? = some map ∧
      map.footprint = ⟨2, 0, 2, 9, 57⟩ ∧ Accurate map := by
  intro commands
  refine ⟨emptyWith ⟨8⟩, ⟨⟨8⟩, [⟨.owned [0, 1, 1, 1, 1, 1, 1, 1], 3⟩, ⟨.owned [7], 7⟩], 0, 9⟩,
    rfl, rfl, rfl, ?_⟩
  exact statistics_follow_keys ⟨8⟩ _ (.inr rfl) commands _ (List.mem_of_getElem? (i := 1) rfl)

end SortedMap
end ByteIndex
