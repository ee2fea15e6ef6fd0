import ByteIndex.Catalog.Basic
import ByteIndex.Proofs.HandleLifetime
/-!
# Handle churn

A table that holds one value at a time uses its slots up one after another: it issues every generation
of a slot before it adds the next slot. So the number of a round determines the handle that a churn
issues in it, as long as there are indices left.
-/
namespace ByteIndex

namespace Handle

/-- The handle that a churn issues in a round, counted from zero. -/
def ofRound (tag : UInt8) (round : Nat) : Handle :=
  .pack tag (round % lastGeneration + 1) (round / lastGeneration)

variable {round : Nat}

private theorem generation_of_round_le (round : Nat) :
    round % lastGeneration + 1 ≤ lastGeneration :=
  Nat.mod_lt round (by decide)

private theorem index_of_round_lt (h : round < indexCount * lastGeneration) :
    round / lastGeneration < indexCount :=
  Nat.div_lt_of_lt_mul (by rwa [Nat.mul_comm])

private theorem tag_ofRound (tag : UInt8) (h : round < indexCount * lastGeneration) :
    (ofRound tag round).tag = tag :=
  tag_pack tag (generation_of_round_le round) (index_of_round_lt h)

private theorem generation_ofRound (tag : UInt8) (h : round < indexCount * lastGeneration) :
    (ofRound tag round).generation = round % lastGeneration + 1 :=
  generation_pack tag (generation_of_round_le round) (index_of_round_lt h)

private theorem index_ofRound (tag : UInt8) (h : round < indexCount * lastGeneration) :
    (ofRound tag round).index = round / lastGeneration :=
  index_pack tag (generation_of_round_le round) (index_of_round_lt h)

private theorem next_round_of_lt (h : round % lastGeneration + 1 < lastGeneration) :
    (round + 1) / lastGeneration = round / lastGeneration ∧
      (round + 1) % lastGeneration = round % lastGeneration + 1 := by
  rw [lastGeneration] at *
  omega

private theorem next_round_of_eq (h : round % lastGeneration + 1 = lastGeneration) :
    (round + 1) / lastGeneration = round / lastGeneration + 1 ∧
      (round + 1) % lastGeneration = 0 := by
  rw [lastGeneration] at *
  omega

end Handle

/-! ## Rounds of one table -/

namespace SlotTable

variable {α : Type} {tag : UInt8} {table : SlotTable tag α} {ledger : Ledger} {rounds : Nat}

/-- A table that stored one value a round and gave it back, through some rounds. -/
structure Worn (rounds : Nat) (table : SlotTable tag α) : Prop where
  wellFormed : WellFormed table
  spent : ∀ round < rounds, table.Spent (.ofRound tag round)
  /-- The slot in use waits for the next round, unless the last round has used it up. -/
  waiting :
    rounds % Handle.lastGeneration = 0 ∧ table.free = [] ∧
        table.slots.size = rounds / Handle.lastGeneration ∨
      table.free = [rounds / Handle.lastGeneration] ∧
        table.slots.size = rounds / Handle.lastGeneration + 1 ∧
        table.slots[rounds / Handle.lastGeneration]? =
          some ⟨rounds % Handle.lastGeneration + 1, none⟩

private theorem Accounts.worn_of_fresh (h : Accounts ledger table)
    (hfresh : ∀ handle, ¬ ledger.Issued handle) : Worn 0 table := by
  have hw := h.wellFormed
  have hnone : ∀ index : Nat, table.slots[index]? = none := by
    intro index
    refine Option.eq_none_iff_forall_ne_some.mpr fun slot hslot => ?_
    have hpos := (hw.generation hslot).1
    obtain ⟨handle, hnames, hgeneration, hindex⟩ := hw.exists_handle hslot Nat.one_pos hpos
    refine hfresh handle ((h.issued_iff handle).mpr ⟨hnames, slot, ?_, ?_⟩)
    · rw [hindex, hslot]
    · rw [hgeneration, hindex]
      rcases Nat.eq_or_lt_of_le hpos with hfirst | hlater
      · refine .inr ⟨hfirst, fun hfree => ?_⟩
        obtain ⟨waiting, hwaiting, _, hsecond⟩ := hw.vacant index hfree
        cases hslot.symm.trans hwaiting
        exact Nat.ne_of_lt hsecond hfirst
      · exact .inl hlater
  refine ⟨hw, nofun, .inl ⟨rfl, ?_, ?_⟩⟩
  · refine List.eq_nil_iff_forall_not_mem.mpr fun index hfree => ?_
    obtain ⟨_, hslot, _⟩ := hw.vacant index hfree
    cases (hnone index).symm.trans hslot
  · exact Nat.le_zero.mp (Array.getElem?_eq_none_iff.mp (hnone 0))

/-- The next value goes into the slot in use, or into a new one once that slot is used up. -/
theorem Worn.insert (h : Worn rounds table)
    (hrounds : rounds < Handle.indexCount * Handle.lastGeneration) (value : α) :
    ∃ next, table.insert value = some (.ofRound tag rounds, next) ∧ next.free = [] ∧
      next.slots.size = rounds / Handle.lastGeneration + 1 := by
  rcases h.waiting with ⟨hmod, hfree, hsize⟩ | ⟨hfree, hsize, hslot⟩
  · have hleft : table.slots.size < Handle.indexCount := hsize ▸ Handle.index_of_round_lt hrounds
    have hinsert : table.insert value =
        some (fill ⟨table.slots.push ⟨1, none⟩, [], table.live⟩ (rounds / Handle.lastGeneration)
          (rounds % Handle.lastGeneration + 1) value) := by
      rw [SlotTable.insert, hfree]
      dsimp only
      rw [if_pos hleft, hsize, hmod]
    exact ⟨_, hinsert, rfl, by simp [hsize]⟩
  · have hinsert : table.insert value =
        some (fill { table with free := [] } (rounds / Handle.lastGeneration)
          (rounds % Handle.lastGeneration + 1) value) := by
      rw [SlotTable.insert, hfree]
      dsimp only
      rw [hslot]
    exact ⟨_, hinsert, rfl, by simp [hsize]⟩

theorem Worn.step (h : Worn rounds table)
    (hrounds : rounds < Handle.indexCount * Handle.lastGeneration) (value : α) :
    ∃ next cleared, table.insert value = some (.ofRound tag rounds, next) ∧
      (∀ round < rounds, next.Spent (.ofRound tag round)) ∧
      next.remove (.ofRound tag rounds) = .ok (value, cleared) ∧ Worn (rounds + 1) cleared := by
  obtain ⟨next, hinsert, hnext, hsize⟩ := h.insert hrounds value
  have hfilled := filled_of_insert h.wellFormed hinsert
  have hw := h.wellFormed.filled hfilled
  have hget : next.get (.ofRound tag rounds) = .ok value := by
    rw [get_filled hfilled, if_pos rfl]
  obtain ⟨cleared, hremove⟩ : ∃ cleared, next.remove (.ofRound tag rounds) = .ok (value, cleared) :=
    ⟨_, remove_of_get hget⟩
  have hempty := (emptied_of_remove hremove).2
  have hspent : ∀ round < rounds, next.Spent (.ofRound tag round) := fun round hround =>
    (spent_filled_iff h.wellFormed hfilled _).mpr (h.spent round hround)
  refine ⟨next, cleared, hinsert, hspent, hremove, hw.emptied hget hempty,
    fun round hround => ?_, ?_⟩
  · rw [spent_emptied_iff hw hget hempty]
    rcases Nat.lt_succ_iff_lt_or_eq.mp hround with hbefore | rfl
    · exact .inr (hspent round hbefore)
    · exact .inl rfl
  · obtain ⟨generation, hslots, hafter⟩ := hempty.after
    rw [Handle.generation_ofRound tag hrounds, Handle.index_ofRound tag hrounds, hnext] at hafter
    rw [Handle.index_ofRound tag hrounds] at hslots
    rw [hempty.size_eq, hsize]
    rcases hafter with ⟨hleft, hgeneration, hfree⟩ | ⟨hlast, _, hfree⟩
    · obtain ⟨hdiv, hmod⟩ := Handle.next_round_of_lt hleft
      rw [hdiv, hmod, hslots, if_pos rfl, hgeneration]
      exact .inr ⟨hfree, rfl, rfl⟩
    · obtain ⟨hdiv, hmod⟩ := Handle.next_round_of_eq hlast
      rw [hdiv]
      exact .inl ⟨hmod, hfree, rfl⟩

end SlotTable

/-! ## Rounds of a catalog -/

namespace Catalog

variable {kind : Kind} {create : Catalog → Reply Handle} {destroy : Catalog → Handle → Reply Unit}
  {opening closing : Handle → Event} {After : Nat → Catalog → Prop} {catalog : Catalog}

/-- A round succeeds on every catalog that earlier rounds leave, issues the handle of its number and
leaves the catalog to the next round. While its resource exists, all earlier handles are denied. -/
structure Wears (kind : Kind) (create : Catalog → Reply Handle)
    (destroy : Catalog → Handle → Reply Unit) (opening closing : Handle → Event)
    (After : Nat → Catalog → Prop) : Prop where
  round : ∀ {round : Nat} {catalog : Catalog}, After round catalog →
    round < Handle.indexCount * Handle.lastGeneration →
      ∃ opened closed,
        create catalog =
          ⟨.ok (.ofRound kind.tag round), opened, [opening (.ofRound kind.tag round)]⟩ ∧
        (∀ earlier < round, opened.Denies kind (.ofRound kind.tag earlier)) ∧
        destroy opened (.ofRound kind.tag round) =
          ⟨.ok (), closed, [closing (.ofRound kind.tag round)]⟩ ∧
        After (round + 1) closed

private theorem Wears.churn (h : Wears kind create destroy opening closing After) {start : Nat}
    (hstart : After start catalog) (rounds : Nat) (last : Handle)
    (hrounds : start + rounds ≤ Handle.indexCount * Handle.lastGeneration) :
    ∃ answer final,
      churn create destroy rounds last catalog =
        ⟨.ok answer, final, (List.range' start rounds).flatMap fun round =>
          [opening (.ofRound kind.tag round), closing (.ofRound kind.tag round)]⟩ ∧
      After (start + rounds) final := by
  induction rounds generalizing start catalog last with
  | zero => exact ⟨last, catalog, rfl, hstart⟩
  | succ rounds ih =>
    obtain ⟨opened, closed, hcreate, _, hdestroy, hafter⟩ := h.round hstart (by omega)
    obtain ⟨answer, final, hchurn, hfinal⟩ :=
      ih hafter (.ofRound kind.tag start) (by omega)
    refine ⟨answer, final, ?_, by rwa [Nat.add_right_comm, Nat.add_assoc] at hfinal⟩
    rw [Catalog.churn, hcreate]
    simp only [Reply.andThen, hdestroy, hchurn, List.range'_succ, List.flatMap_cons,
      List.cons_append, List.nil_append]

/-- All rounds of a churn go through and leave their events. One more resource after that gets the
handle of the next round, and all earlier handles are denied. -/
structure Churned (kind : Kind) (rounds : Nat) (opening closing : Handle → Event)
    (churned next : Reply Handle) : Prop where
  completed : ∃ last, churned.result = .ok last
  events : churned.events = (List.range rounds).flatMap fun round =>
    [opening (.ofRound kind.tag round), closing (.ofRound kind.tag round)]
  issued : next.result = .ok (.ofRound kind.tag rounds)
  tag : (Handle.ofRound kind.tag rounds).tag = kind.tag
  index : (Handle.ofRound kind.tag rounds).index = rounds / Handle.lastGeneration
  generation : (Handle.ofRound kind.tag rounds).generation = rounds % Handle.lastGeneration + 1
  denied : ∀ round < rounds, next.catalog.Denies kind (.ofRound kind.tag round)

theorem Wears.churned (h : Wears kind create destroy opening closing After)
    (hstart : After 0 catalog) {rounds : Nat} (last : Handle)
    (hrounds : rounds < Handle.indexCount * Handle.lastGeneration) :
    Churned kind rounds opening closing (Catalog.churn create destroy rounds last catalog)
      (create (Catalog.churn create destroy rounds last catalog).catalog) := by
  obtain ⟨answer, final, hchurn, hfinal⟩ := h.churn hstart rounds last (by omega)
  rw [Nat.zero_add] at hfinal
  obtain ⟨opened, _, hcreate, hdenied, _⟩ := h.round hfinal hrounds
  rw [hchurn, hcreate]
  exact {
    completed := ⟨answer, rfl⟩
    events := by rw [List.range_eq_range']
    issued := rfl
    tag := Handle.tag_ofRound _ hrounds
    index := Handle.index_ofRound _ hrounds
    generation := Handle.generation_ofRound _ hrounds
    denied := hdenied }

private theorem wears_maps :
    Wears .map (·.createMap .unbounded) destroyMap
      (.createdMap · Config.unbounded.maxKeyLength) (.destroyedMap · 0)
      fun round catalog => catalog.maps.Worn round := by
  refine ⟨fun {round catalog} hworn hround => ?_⟩
  obtain ⟨opened, closed, hinsert, hspent, hremove, hnext⟩ :=
    hworn.step hround (SortedMap.emptyWith .unbounded)
  refine ⟨{ catalog with maps := opened }, { catalog with maps := closed }, ?_, ?_, ?_, hnext⟩
  · have hcreate : SortedMap.create .unbounded = .ok (.emptyWith .unbounded) := rfl
    simp only [createMap, hcreate, hinsert]
    rfl
  · intro earlier hearlier
    exact denies_of_refuses (SlotTable.get_of_spent (hspent earlier hearlier))
  · simp only [destroyMap, Kind.tag, hremove]
    rfl

private theorem wears_cursors (map : Handle) (stored : SortedMap) :
    Wears .cursor (·.seekFirst map) destroyCursor
      (.createdCursor map · stored.seekFirst.isExhausted) .destroyedCursor
      fun round catalog => catalog.map map = .ok stored ∧ catalog.cursors.Worn round := by
  refine ⟨fun {round catalog} ⟨hmap, hworn⟩ hround => ?_⟩
  obtain ⟨opened, closed, hinsert, hspent, hremove, hnext⟩ :=
    hworn.step hround ⟨map, stored.seekFirst⟩
  refine ⟨{ catalog with cursors := opened }, { catalog with cursors := closed }, ?_, ?_, ?_,
    hmap, hnext⟩
  · simp only [seekFirst, hmap, addCursor, hinsert]
    rfl
  · intro earlier hearlier
    exact denies_of_refuses (SlotTable.get_of_spent (hspent earlier hearlier))
  · simp only [destroyCursor, Kind.tag, hremove]

/-- Maps churned from the start, and cursors churned on one map where there were none before, get
every generation of an index and then those of the next one, until all indices are used up. -/
theorem churn_issues_in_order {rounds : Nat}
    (hrounds : rounds < Handle.indexCount * Handle.lastGeneration) (last : Handle) :
    let maps := churnMaps rounds last empty
    Churned .map rounds (.createdMap · Config.unbounded.maxKeyLength) (.destroyedMap · 0)
        maps (maps.catalog.createMap .unbounded) ∧
      ∀ (requests : List Request) (map : Handle) (stored : SortedMap),
        (∀ handle, ¬ (empty.ledger .cursor requests).Issued handle) →
        (empty.run requests).map map = .ok stored →
        let cursors := churnCursors map rounds last (empty.run requests)
        Churned .cursor rounds (.createdCursor map · stored.seekFirst.isExhausted)
          .destroyedCursor cursors (cursors.catalog.seekFirst map) := by
  refine ⟨?_, fun requests map stored hfresh hmap => ?_⟩
  · have hstart : (empty.maps).Worn 0 := (accounts_maps []).worn_of_fresh nofun
    exact wears_maps.churned hstart last hrounds
  · have hstart := (accounts_cursors requests).worn_of_fresh hfresh
    exact (wears_cursors map stored).churned ⟨hmap, hstart⟩ last hrounds

theorem second_slot_after_churn :
    Handle.lastGeneration < Handle.indexCount * Handle.lastGeneration ∧
      ((churnMaps Handle.lastGeneration .null empty).catalog.createMap .unbounded).result =
        .ok ⟨0x4D00000100000001⟩ ∧
      ((churnCursors ⟨0x4D00000100000000⟩ Handle.lastGeneration .null
          (empty.run [.createMap .unbounded])).catalog.seekFirst ⟨0x4D00000100000000⟩).result =
        .ok ⟨0x4300000100000001⟩ := by
  have hrounds : Handle.lastGeneration < Handle.indexCount * Handle.lastGeneration := by decide
  obtain ⟨hmaps, hcursors⟩ := churn_issues_in_order hrounds .null
  have hfresh : ∀ handle, ¬ (empty.ledger .cursor [.createMap .unbounded]).Issued handle := by
    intro handle hissued
    cases hissued
  exact ⟨hrounds, hmaps.issued,
    (hcursors [.createMap .unbounded] ⟨0x4D00000100000000⟩ _ hfresh rfl).issued⟩

end Catalog
end ByteIndex
