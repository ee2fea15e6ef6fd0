import ByteIndex.Cursor
import ByteIndex.Proofs.MapUpdate
import ByteIndex.SortedMap.Edit
import ByteIndex.Traversal
import Mathlib.Data.Finmap
/-!
# Maps as dictionaries

A dictionary is a finite partial function from byte strings to values. It knows nothing of the form
of a key, of entries in order or of counters. A family of sorted maps answers every command as a
family of dictionaries does, and all that can be read from a member is what its dictionary says.
-/
namespace ByteIndex

abbrev Dictionary := Finmap fun _ : Bytes => UInt64

namespace Dictionary

/-- Bind a key to a value; a new key over the limit is refused. -/
def bind (limit : Nat) (dictionary : Dictionary) (key : Bytes) (value : UInt64) :
    Except Error Dictionary :=
  if key ∉ dictionary ∧ limit < key.length then .error (.keyTooLong key.length limit)
  else .ok (dictionary.insert key value)

def apply (limit : Nat) (dictionary : Dictionary) : Edit → Edit.Answer × Dictionary
  | .put key value =>
    match dictionary.bind limit key value with
    | .error error => (.refused error, dictionary)
    | .ok next => (.former (dictionary.lookup key), next)
  | .set key value =>
    match dictionary.bind limit key value with
    | .error error => (.refused error, dictionary)
    | .ok next => (.done, next)
  | .erase key => (.former (dictionary.lookup key), dictionary.erase key)
  | .clear => (.done, ∅)

private theorem lookup_insert_eq (dictionary : Dictionary) (key other : Bytes) (value : UInt64) :
    (dictionary.insert key value).lookup other =
      if other = key then some value else dictionary.lookup other := by
  by_cases hother : other = key
  · rw [if_pos hother, hother, Finmap.lookup_insert]
  · rw [if_neg hother, Finmap.lookup_insert_of_ne _ hother]

private theorem lookup_erase_eq (dictionary : Dictionary) (key other : Bytes) :
    (dictionary.erase key).lookup other =
      if other = key then none else dictionary.lookup other := by
  by_cases hother : other = key
  · rw [if_pos hother, hother, Finmap.lookup_erase]
  · rw [if_neg hother, Finmap.lookup_erase_ne hother]

end Dictionary

namespace SortedMap

/-- The map holds the bindings of the dictionary, in ascending order and under the limit. -/
structure Represents (limit : Nat) (map : SortedMap) (dictionary : Dictionary) : Prop where
  limit_eq : map.config.maxKeyLength = limit
  sorted : Entries.Sorted map.entries
  get? : ∀ key, map.get? key = dictionary.lookup key

/-- All that can be read from the map is what the dictionary says. -/
structure ReadsAs (map : SortedMap) (dictionary : Dictionary) : Prop where
  get? : ∀ key, map.get? key = dictionary.lookup key
  contains : ∀ key, map.contains key = true ↔ key ∈ dictionary
  size : map.size = dictionary.keys.card
  isEmpty : map.isEmpty = true ↔ dictionary = ∅
  /-- A search by byte strings meets the entries in an order that it can rely on. -/
  search : ∀ key, Entries.search key map.entries = map.entry? key
  ascending : map.entries.Pairwise fun first second => first.bytes < second.bytes
  binding : ∀ key value,
    (∃ entry ∈ map.entries, entry.bytes = key ∧ entry.value = value) ↔
      dictionary.lookup key = some value
  forward : ∀ count, map.traverse.takes (.replicate count .front) =
    (List.range count).map (map.entries[·]?)
  backward : ∀ count, map.traverse.takes (.replicate count .back) =
    (List.range count).map (map.entries.reverse[·]?)
  seek : ∀ key, (map.seek key).isExhausted = true ↔ key ∉ dictionary
  peek : ∀ key, ((map.seek key).peek map).map (fun entry => (entry.bytes, entry.value)) =
    (dictionary.lookup key).map (key, ·)

end SortedMap

namespace Traversal

/-- The entries not taken yet, in the order in which one end gives them up. -/
def ahead (traversal : Traversal) : Side → List Entry
  | .front => traversal.pending
  | .back => traversal.pending.reverse

private theorem take_ahead (traversal : Traversal) (side : Side) :
    (traversal.take side).1 = (traversal.ahead side).head? ∧
      (traversal.take side).2.ahead side = (traversal.ahead side).tail := by
  cases side with
  | front => exact ⟨rfl, rfl⟩
  | back => simp [take, ahead, List.tail_reverse]

private theorem takes_replicate (traversal : Traversal) (side : Side) (count : Nat) :
    traversal.takes (.replicate count side) =
      (List.range count).map ((traversal.ahead side)[·]?) := by
  induction count generalizing traversal with
  | zero => rfl
  | succ count ih =>
    obtain ⟨hfirst, hrest⟩ := traversal.take_ahead side
    simp only [List.replicate_succ, takes, ih, hfirst, hrest, List.range_succ_eq_map, List.map_cons,
      List.map_map, List.head?_eq_getElem?, List.getElem?_tail, Function.comp_def]

end Traversal

namespace SortedMap

variable {limit : Nat} {map next : SortedMap} {dictionary : Dictionary}

private theorem represents_emptyWith (limit : Nat) : Represents limit (emptyWith ⟨limit⟩) ∅ :=
  ⟨rfl, Entries.sorted_nil, fun _ => rfl⟩

namespace Represents

private theorem mem_iff (h : Represents limit map dictionary) (key : Bytes) :
    key ∈ dictionary ↔ map.entry? key ≠ none := by
  rw [ne_eq, ← get?_eq_none_iff, h.get? key, Finmap.lookup_eq_none, not_not]

private theorem bind_ok (h : Represents limit map dictionary) {key : Bytes} {value : UInt64}
    {old : Option UInt64} (hput : map.put key value = .ok (old, next)) :
    ∃ bound, dictionary.bind limit key value = .ok bound ∧ Represents limit next bound := by
  have hallowed : ¬ (key ∉ dictionary ∧ limit < key.length) := by
    intro ⟨habsent, hlong⟩
    have hget : map.get? key = none := by rw [h.get?, Finmap.lookup_eq_none.mpr habsent]
    rw [← h.limit_eq] at hlong
    rw [put_eq_error_iff.mpr ⟨hget, hlong, rfl⟩] at hput
    cases hput
  refine ⟨_, if_neg hallowed, ?_, ?_, ?_⟩
  · rw [config_put hput, h.limit_eq]
  · exact sorted_put hput h.sorted
  · intro other
    rw [get?_put hput, Dictionary.lookup_insert_eq, h.get?]

private theorem bind_error (h : Represents limit map dictionary) {key : Bytes} {value : UInt64}
    {error : Error} (hput : map.put key value = .error error) :
    dictionary.bind limit key value = .error error := by
  obtain ⟨hget, hlong, rfl⟩ := put_eq_error_iff.mp hput
  rw [h.get?, Finmap.lookup_eq_none] at hget
  rw [h.limit_eq] at hlong ⊢
  exact if_pos ⟨hget, hlong⟩

private theorem erase (h : Represents limit map dictionary) (key : Bytes) :
    Represents limit (map.erase key).2 (dictionary.erase key) := by
  refine ⟨?_, sorted_erase key h.sorted, ?_⟩
  · rw [config_erase, h.limit_eq]
  · intro other
    rw [get?_erase, Dictionary.lookup_erase_eq, h.get?]

private theorem apply (h : Represents limit map dictionary) (edit : Edit) :
    (map.apply edit).1 = (dictionary.apply limit edit).1 ∧
      Represents limit (map.apply edit).2 (dictionary.apply limit edit).2 := by
  cases edit with
  | put key value =>
    rw [SortedMap.apply, Dictionary.apply]
    cases hput : map.put key value with
    | error error =>
      rw [h.bind_error hput]
      exact ⟨rfl, h⟩
    | ok changed =>
      obtain ⟨old, next⟩ := changed
      obtain ⟨bound, hbind, hnext⟩ := h.bind_ok hput
      rw [hbind, former_put hput, h.get?]
      exact ⟨rfl, hnext⟩
  | set key value =>
    rw [SortedMap.apply, Dictionary.apply, SortedMap.set]
    cases hput : map.put key value with
    | error error =>
      rw [h.bind_error hput]
      exact ⟨rfl, h⟩
    | ok changed =>
      obtain ⟨old, next⟩ := changed
      obtain ⟨bound, hbind, hnext⟩ := h.bind_ok hput
      rw [hbind]
      exact ⟨rfl, hnext⟩
  | erase key =>
    refine ⟨?_, h.erase key⟩
    change Edit.Answer.former (map.erase key).1 = .former (dictionary.lookup key)
    rw [former_erase, h.get?]
  | clear => exact ⟨rfl, h.limit_eq, Entries.sorted_nil, fun _ => rfl⟩

private theorem binding (h : Represents limit map dictionary) (key : Bytes) (value : UInt64) :
    (∃ entry ∈ map.entries, entry.bytes = key ∧ entry.value = value) ↔
      dictionary.lookup key = some value := by
  rw [← h.get?, SortedMap.get?, Option.map_eq_some_iff]
  simp only [Entries.find?_eq_some_iff h.sorted, entry?, and_assoc]

private theorem size (h : Represents limit map dictionary) : map.size = dictionary.keys.card := by
  have hkeys : dictionary.keys = (map.entries.map Entry.bytes).toFinset := by
    ext key
    rw [Finmap.mem_keys, h.mem_iff, entry?, ne_eq, Entries.find?_eq_none_iff]
    simp
  rw [hkeys, List.toFinset_card_of_nodup (Entries.sorted_nodup h.sorted), List.length_map]
  rfl

private theorem isEmpty (h : Represents limit map dictionary) :
    map.isEmpty = true ↔ dictionary = ∅ := by
  have hempty : dictionary = ∅ ↔ dictionary.keys.card = 0 := by
    rw [Finset.card_eq_zero]
    constructor
    · rintro rfl
      exact Finmap.keys_empty
    · intro hkeys
      refine Finmap.ext_lookup fun key => ?_
      rw [Finmap.lookup_empty, Finmap.lookup_eq_none, ← Finmap.mem_keys, hkeys]
      exact Finset.notMem_empty key
  rw [hempty, ← h.size, SortedMap.isEmpty, SortedMap.size, List.isEmpty_iff,
    List.length_eq_zero_iff]

private theorem peek (h : Represents limit map dictionary) (key : Bytes) :
    ((map.seek key).peek map).map (fun entry => (entry.bytes, entry.value)) =
      (dictionary.lookup key).map (key, ·) := by
  rw [← h.get?, SortedMap.get?]
  cases hentry : map.entry? key with
  | none => simp [SortedMap.seek, hentry, Cursor.placeOn, Cursor.peek]
  | some entry =>
    have hkey : entry.bytes = key := (Entries.mem_of_find? hentry).2
    have hcopy : entry.key.copy.bytes = key := (Key.bytes_copy entry.key).trans hkey
    simp [SortedMap.seek, hentry, Cursor.placeOn, Cursor.peek, hcopy, hkey]

private theorem seek (h : Represents limit map dictionary) (key : Bytes) :
    (map.seek key).isExhausted = true ↔ key ∉ dictionary := by
  rw [h.mem_iff, not_not, SortedMap.seek]
  cases map.entry? key <;> simp [Cursor.placeOn, Cursor.isExhausted]

theorem readsAs (h : Represents limit map dictionary) : ReadsAs map dictionary where
  get? := h.get?
  contains key := by rw [h.mem_iff, contains, Option.isSome_iff_ne_none]
  size := h.size
  isEmpty := h.isEmpty
  search key := Entries.search_eq_find? key h.sorted
  ascending := h.sorted
  binding := h.binding
  forward count := map.traverse.takes_replicate .front count
  backward count := map.traverse.takes_replicate .back count
  seek := h.seek
  peek := h.peek

end Represents
end SortedMap

namespace Family

variable {σ τ : Type} {related : σ → τ → Prop} {first : σ → Edit → Edit.Answer × σ}
  {second : τ → Edit → Edit.Answer × τ} {members : List σ} {others : List τ}

private theorem related_getElem? (h : List.Forall₂ related members others) (place : Nat) :
    members[place]? = none ∧ others[place]? = none ∨
      ∃ member other, members[place]? = some member ∧ others[place]? = some other ∧
        related member other := by
  induction h generalizing place with
  | nil => exact .inl ⟨rfl, rfl⟩
  | @cons member other _ _ hmember _ ih =>
    cases place with
    | zero => exact .inr ⟨member, other, rfl, rfl, hmember⟩
    | succ place => simpa using ih place

private theorem related_set (h : List.Forall₂ related members others) {member : σ} {other : τ}
    (hmember : related member other) (place : Nat) :
    List.Forall₂ related (members.set place member) (others.set place other) := by
  induction h generalizing place with
  | nil => exact .nil
  | cons hhead hrest ih =>
    cases place with
    | zero => exact .cons hmember hrest
    | succ place => exact .cons hhead (ih place)

theorem perform_related
    (hstep : ∀ {member other}, related member other → ∀ edit,
      (first member edit).1 = (second other edit).1 ∧
        related (first member edit).2 (second other edit).2)
    (h : List.Forall₂ related members others) (command : Command) :
    (perform first members command).1 = (perform second others command).1 ∧
      List.Forall₂ related (perform first members command).2 (perform second others command).2 := by
  cases command with
  | edit place edit =>
    rcases related_getElem? h place with
      ⟨hnone, hempty⟩ | ⟨member, other, hmember, hother, hrelated⟩
    · simp only [perform, hnone, hempty]
      exact ⟨trivial, h⟩
    · obtain ⟨hanswer, hnext⟩ := hstep hrelated edit
      simp only [perform, hmember, hother, hanswer]
      exact ⟨trivial, related_set h hnext place⟩
  | copy place =>
    rcases related_getElem? h place with
      ⟨hnone, hempty⟩ | ⟨member, other, hmember, hother, hrelated⟩
    · simp only [perform, hnone, hempty]
      exact ⟨trivial, h⟩
    · simp only [perform, hmember, hother]
      exact ⟨trivial, List.rel_append h (.cons hrelated .nil)⟩

/-- Families whose members stay related under edits stay so under commands, and answer alike. -/
theorem run_related
    (hstep : ∀ {member other}, related member other → ∀ edit,
      (first member edit).1 = (second other edit).1 ∧
        related (first member edit).2 (second other edit).2)
    (h : List.Forall₂ related members others) (commands : List Command) :
    (run first members commands).1 = (run second others commands).1 ∧
      List.Forall₂ related (run first members commands).2 (run second others commands).2 := by
  induction commands generalizing members others with
  | nil => exact ⟨rfl, h⟩
  | cons command rest ih =>
    obtain ⟨hanswer, hnext⟩ := perform_related hstep h command
    obtain ⟨hanswers, hlast⟩ := ih hnext
    simp only [run, hanswer, hanswers]
    exact ⟨trivial, hlast⟩

end Family

/-- A family that grows out of an empty map answers as one that grows out of the empty dictionary,
and every member reads as its dictionary. -/
theorem SortedMap.family_reads_as_dictionaries (limit : Nat) (hlimit : 0 < limit)
    (commands : List Command) :
    ∃ start, SortedMap.create ⟨limit⟩ = .ok start ∧
      let maps := Family.run SortedMap.apply [start] commands
      let dictionaries := Family.run (Dictionary.apply limit) [∅] commands
      maps.1 = dictionaries.1 ∧ List.Forall₂ ReadsAs maps.2 dictionaries.2 := by
  have hvalid : (Config.mk limit).validate = .ok () := if_neg (Nat.ne_of_gt hlimit)
  refine ⟨emptyWith ⟨limit⟩, by rw [create, hvalid], ?_⟩
  have hstart : List.Forall₂ (Represents limit) [emptyWith ⟨limit⟩] [∅] :=
    .cons (represents_emptyWith limit) .nil
  obtain ⟨hanswers, hmembers⟩ := Family.run_related Represents.apply hstart commands
  refine ⟨hanswers, hmembers.imp ?_⟩
  intro map dictionary hmap
  exact hmap.readsAs

/-- A key in a word, a short one, one over the limit, and a copy that parts from the map it was made
from. -/
theorem SortedMap.copied_family_reads_as_dictionaries :
    let commands : List Command :=
      [.edit 0 (.put [1, 0, 0, 0, 0, 0, 0, 2] 5), .edit 0 (.put [7] 6),
        .edit 0 (.set [0, 0, 0, 0, 0, 0, 0, 0, 0] 1), .copy 0, .edit 1 (.erase [7]),
        .edit 0 (.put [7] 8), .edit 1 (.put [7] 9)]
    let maps := Family.run SortedMap.apply [emptyWith ⟨8⟩] commands
    0 < 8 ∧
      maps.1 = [some (.former none), some (.former none), some (.refused (.keyTooLong 9 8)),
        some .done, some (.former (some 6)), some (.former (some 6)), some (.former none)] ∧
      List.Forall₂ ReadsAs maps.2 (Family.run (Dictionary.apply 8) [∅] commands).2 := by
  intro commands maps
  obtain ⟨start, hstart, hanswers, hmembers⟩ := family_reads_as_dictionaries 8 (by decide) commands
  cases hstart
  exact ⟨by decide, hanswers.trans (by decide), hmembers⟩

end ByteIndex
