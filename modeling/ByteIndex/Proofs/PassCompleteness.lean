import ByteIndex.Proofs.MapUpdate
import ByteIndex.Proofs.WalkSafety
/-!
# Completeness of a pass

A cursor steps to the nearest key there is. Keys may come and go around it between two steps, but it
never moves past a key that stays in the map: until such a key is yielded, it lies on the way from the
key that the cursor holds. So a pass yields it before it ends.
-/
namespace ByteIndex

variable {direction : Direction} {key : Bytes}

private theorem Direction.eq_or_precedes_of_reaches {place : Bytes}
    (h : direction.Reaches place key) :
    place = key ∨ direction.Precedes place key := by
  cases direction with
  | forward =>
    by_cases hlt : place < key
    · exact .inr hlt
    · exact .inl (List.le_antisymm h (List.not_lt.mp hlt))
  | backward =>
    by_cases hlt : key < place
    · exact .inr hlt
    · exact .inl (List.le_antisymm (List.not_lt.mp hlt) h)

/-- The neighbour of a place is the nearest key that lies beyond it. -/
theorem SortedMap.neighbour_reaches {map : SortedMap} (hs : Entries.Sorted map.entries)
    {place : Bytes} {entry : Entry} (hmem : entry ∈ map.entries)
    (hbeyond : direction.Precedes place entry.bytes) :
    ∃ next, map.neighbour? direction place = some next ∧
      direction.Reaches next.bytes entry.bytes := by
  cases direction with
  | forward =>
    have hwithin : entry ∈ map.within (.above place) :=
      List.mem_filter.mpr ⟨hmem, by rw [Interval.contains_above]; exact decide_eq_true hbeyond⟩
    have hsorted : Entries.Sorted (map.within (.above place)) := hs.filter _
    cases hlist : map.within (.above place) with
    | nil =>
      rw [hlist] at hwithin
      cases hwithin
    | cons first rest =>
      rw [hlist] at hwithin hsorted
      refine ⟨first.key, by rw [neighbour?, successor?, hlist]; rfl, ?_⟩
      rcases List.mem_cons.mp hwithin with rfl | hrest
      · exact List.le_refl _
      · exact List.le_of_lt ((List.pairwise_cons.mp hsorted).1 entry hrest)
  | backward =>
    have hwithin : entry ∈ map.within (.below place) :=
      List.mem_filter.mpr ⟨hmem, by rw [Interval.contains_below]; exact decide_eq_true hbeyond⟩
    have hsorted : Entries.Sorted (map.within (.below place)) := hs.filter _
    rcases List.eq_nil_or_concat (map.within (.below place)) with hlist | ⟨front, last, hlist⟩
    · rw [hlist] at hwithin
      cases hwithin
    · rw [hlist] at hwithin hsorted
      refine ⟨last.key, by simp [neighbour?, predecessor?, hlist], ?_⟩
      rw [List.concat_eq_append] at hwithin hsorted
      rcases List.mem_append.mp hwithin with hfront | hlast
      · exact List.le_of_lt ((List.pairwise_append.mp hsorted).2.2 entry hfront last (by simp))
      · rw [List.mem_singleton.mp hlast]
        exact List.le_refl _

private theorem SortedMap.exists_entry_of_contains {map : SortedMap} (h : map.contains key = true) :
    ∃ entry, map.entry? key = some entry ∧ entry ∈ map.entries ∧ entry.bytes = key := by
  obtain ⟨entry, hentry⟩ := Option.isSome_iff_exists.mp h
  exact ⟨entry, hentry, Entries.mem_of_find? hentry⟩

private theorem Visit.stop_reaches {visit : Visit} {entry : Entry}
    (hs : Entries.Sorted visit.map.entries) (hkey : visit.map.contains key = true)
    (hanswer : visit.answer = some entry) (hbeyond : visit.direction.Precedes entry.bytes key) :
    ∃ held, visit.stop = .positioned held ∧ visit.direction.Reaches held.bytes key := by
  obtain ⟨target, _, hmem, rfl⟩ := SortedMap.exists_entry_of_contains hkey
  obtain ⟨next, hnext, hreaches⟩ := SortedMap.neighbour_reaches hs hmem hbeyond
  have hpeek := visit.answer_eq_peek
  rw [hanswer] at hpeek
  refine ⟨next.copy, ?_, ?_⟩
  · rw [stop, Cursor.advance_eq, ← hpeek]
    simp only [hnext, Cursor.placeOn]
  · rw [Key.bytes_copy]
    exact hreaches

namespace Cursor

private theorem direction_of_walk (cursor : Cursor) (versions : List SortedMap)
    (direction : Direction) :
    ∀ visit ∈ cursor.walk (versions.map (·, direction)), visit.direction = direction := by
  intro visit hmem
  have hstep := List.mem_map_of_mem (f := fun visit => (visit.map, visit.direction)) hmem
  rw [steps_of_walk] at hstep
  obtain ⟨_, _, heq⟩ := List.mem_map.mp hstep
  exact (Prod.mk.inj heq).2.symm

/-- Over versions that all have a key, a walk yields this key once or leaves the cursor, at every call,
at a place from which the key lies ahead. -/
theorem yielded_or_ahead {versions : List SortedMap} {first : Key}
    (hsorted : ∀ version ∈ versions, Entries.Sorted version.entries)
    (hstable : ∀ version ∈ versions, version.contains key = true)
    (hheld : ∀ visit ∈ (positioned first).walk (versions.map (·, direction)), ∃ held,
      visit.start = .positioned held ∧ visit.map.contains held.bytes = true)
    (hreaches : direction.Reaches first.bytes key) :
    (Visit.keys ((positioned first).walk (versions.map (·, direction)))).count key = 1 ∨
      ∀ visit ∈ (positioned first).walk (versions.map (·, direction)), ∃ held,
        visit.stop = .positioned held ∧ direction.Reaches held.bytes key := by
  induction versions generalizing first with
  | nil => exact .inr nofun
  | cons version rest ih =>
    obtain ⟨hs, hsorted⟩ := List.forall_mem_cons.mp hsorted
    obtain ⟨hkey, hstable⟩ := List.forall_mem_cons.mp hstable
    rw [List.map_cons, walk_cons] at hheld ⊢
    obtain ⟨⟨_, hstart, hcontains⟩, hheld⟩ := List.forall_mem_cons.mp hheld
    cases hstart
    obtain ⟨entry, hentry, _, hbytes⟩ := SortedMap.exists_entry_of_contains hcontains
    have hanswer : (Visit.mk version direction (positioned first)).answer = some entry := by
      rw [Visit.answer_eq_peek]
      exact hentry
    have hkeys (visits : List Visit) :
        Visit.keys (⟨version, direction, positioned first⟩ :: visits) =
          entry.bytes :: Visit.keys visits := by
      rw [Visit.keys, List.filterMap_cons_some hanswer]
      rfl
    rw [hkeys, hbytes]
    rcases Direction.eq_or_precedes_of_reaches hreaches with rfl | hbeyond
    · -- the key is yielded now, and what comes later lies beyond it
      refine .inl ?_
      have hlater := walk_beyond (direction_of_walk _ rest direction) fun held hstop =>
        Visit.precedes_of_stop hanswer hstop
      rw [List.count_cons_self, List.count_eq_zero.mpr]
      intro hmem
      obtain ⟨later, hmem, heq⟩ := List.mem_map.mp hmem
      have hprecedes := hlater later hmem
      rw [heq, hbytes] at hprecedes
      exact direction.not_precedes_self _ hprecedes
    · have hne : first.bytes ≠ key := by
        rintro rfl
        exact direction.not_precedes_self _ hbeyond
      rw [← hbytes] at hbeyond
      obtain ⟨held, hstop, hahead⟩ := Visit.stop_reaches hs hkey hanswer hbeyond
      rw [List.count_cons_of_ne hne]
      rw [hstop] at hheld ⊢
      refine (ih hsorted hstable hheld hahead).imp_right fun hrest => ?_
      exact List.forall_mem_cons.mpr ⟨⟨held, hstop, hahead⟩, hrest⟩

/-- Whatever edits are made to a map between the calls of a pass, as long as each call finds the key
that the cursor holds, every key on the way from the first one that the map has at every call is
yielded exactly once. -/
theorem pass_yields_stable_keys {map : SortedMap} (hmap : map.Reachable)
    (batches : List (List Edit)) (direction : Direction) {first : Key}
    (hpass : (positioned first).Passes direction (map.versions batches)) (key : Bytes)
    (hreaches : direction.Reaches first.bytes key)
    (hstable : ∀ version ∈ map.versions batches, version.contains key = true) :
    let visits := (positioned first).walk ((map.versions batches).map (·, direction))
    (Visit.keys visits).count key = 1 := by
  intro visits
  have hsorted := SortedMap.forall_versions (P := fun map => Entries.Sorted map.entries)
    SortedMap.sorted_apply hmap.sorted batches
  refine (yielded_or_ahead hsorted hstable hpass.held hreaches).resolve_right fun hahead => ?_
  obtain ⟨before, last, hwalk, hexhausted, _⟩ := hpass.ends
  have hlast : last ∈ visits := by
    rw [show visits = before ++ [last] from hwalk]
    exact List.mem_append_right before List.mem_cons_self
  obtain ⟨held, hstop, _⟩ := hahead last hlast
  rw [hexhausted] at hstop
  cases hstop

/-- Between the calls of this pass keys are erased behind the cursor, put before and behind it and
overwritten, and the map is cleared and filled again. -/
theorem last_key_yielded_once :
    let map : SortedMap := ⟨⟨8⟩, [⟨.owned [1], 1⟩, ⟨.owned [3], 3⟩, ⟨.owned [5], 5⟩], 0, 3⟩
    let batches : List (List Edit) :=
      [[], [.erase [1], .put [2] 9, .put [4] 8], [.set [4] 0, .erase [3]], [.clear, .put [5] 7]]
    let visits := (positioned (.owned [1])).walk ((map.versions batches).map (·, .forward))
    map.Reachable ∧ (positioned (.owned [1])).Passes .forward (map.versions batches) ∧
      Direction.forward.Reaches [1] [5] ∧
      (∀ version ∈ map.versions batches, version.contains [5] = true) ∧
      Visit.keys visits = [[1], [3], [4], [5]] ∧ (Visit.keys visits).count [5] = 1 := by
  intro map batches visits
  have hmap : map.Reachable :=
    ⟨⟨8⟩, .emptyWith ⟨8⟩, [.edit 0 (.put [3] 3), .edit 0 (.put [1] 1), .edit 0 (.set [5] 5)], .inr rfl,
      List.mem_of_getElem? (i := 0) rfl⟩
  have hstable : ∀ version ∈ map.versions batches, version.contains [5] = true := by decide
  have hreaches : Direction.forward.Reaches [1] [5] := by
    rw [Direction.Reaches]
    decide
  let earlier : List Visit :=
    [⟨map, .forward, .positioned (.owned [1])⟩,
      ⟨⟨⟨8⟩, [⟨.owned [2], 9⟩, ⟨.owned [3], 3⟩, ⟨.owned [4], 8⟩, ⟨.owned [5], 5⟩], 0, 4⟩, .forward,
        .positioned (.owned [3])⟩,
      ⟨⟨⟨8⟩, [⟨.owned [2], 9⟩, ⟨.owned [4], 0⟩, ⟨.owned [5], 5⟩], 0, 3⟩, .forward,
        .positioned (.owned [4])⟩]
  let last : Visit := ⟨⟨⟨8⟩, [⟨.owned [5], 7⟩], 0, 1⟩, .forward, .positioned (.owned [5])⟩
  have hwalk : visits = earlier ++ [last] := rfl
  have hheld : ∀ visit ∈ visits, ∃ key,
      visit.start = .positioned key ∧ visit.map.contains key.bytes = true := by
    rw [hwalk]
    simp only [earlier, List.cons_append, List.nil_append, List.forall_mem_cons]
    exact ⟨⟨_, rfl, rfl⟩, ⟨_, rfl, rfl⟩, ⟨_, rfl, rfl⟩, ⟨_, rfl, rfl⟩, nofun⟩
  have hearlier : ∀ visit ∈ earlier, visit.stop ≠ .exhausted := by
    simp only [earlier, List.forall_mem_cons]
    exact ⟨nofun, nofun, nofun, nofun⟩
  have hpass : (positioned (.owned [1])).Passes .forward (map.versions batches) :=
    ⟨hheld, earlier, last, hwalk, rfl, hearlier⟩
  have hkeys : Visit.keys visits = [[1], [3], [4], [5]] := by
    rw [hwalk]
    rfl
  exact ⟨hmap, hpass, hreaches, hstable, hkeys,
    pass_yields_stable_keys hmap batches .forward hpass [5] hreaches hstable⟩

end Cursor
end ByteIndex
