import ByteIndex.Proofs.MapUpdate
import ByteIndex.Proofs.WalkSafety
/-!
# Walks by index

A cursor holds a copy of a key and looks it up anew at every step, but on a map that does not change
it goes over the sorted entries as an index would: the neighbours of a stored key are the keys of the
entries before and behind its own. Draining a cursor therefore yields the entries from its key on.
-/
namespace ByteIndex

variable {map : SortedMap} {before after : List Entry} {entry : Entry} {key : Key}
  {cursor : Cursor} {index : Option Nat} {direction : Direction}

namespace Direction

/-- What lies on the way from a place, where `before` and `after` are what the list has there. -/
def beyond (before after : List Entry) : Direction → List Entry
  | .forward => after
  | .backward => before.reverse

private theorem nextIndex?_lt (direction : Direction) {length index next : Nat}
    (hindex : index < length)
    (h : direction.nextIndex? length index = some next) : next < length := by
  cases direction with
  | forward =>
    rw [nextIndex?] at h
    split at h
    · rename_i hnext
      cases h
      exact hnext
    · cases h
  | backward =>
    cases index with
    | zero => cases h
    | succ index =>
      cases h
      exact Nat.lt_of_succ_lt hindex

private theorem getElem?_nextIndex? (direction : Direction) (before after : List Entry)
    (entry : Entry) :
    (direction.nextIndex? (before ++ entry :: after).length before.length).bind
        ((before ++ entry :: after)[·]?) = (direction.beyond before after).head? := by
  cases direction with
  | forward =>
    rw [nextIndex?, beyond]
    cases after with
    | nil => simp
    | cons next rest => simp
  | backward =>
    rcases List.eq_nil_or_concat before with rfl | ⟨front, last, rfl⟩
    · rfl
    · simp [nextIndex?, beyond]

private theorem split_of_beyond {next : Entry} {rest : List Entry}
    (h : direction.beyond before after = next :: rest) (entry : Entry) :
    ∃ before' after', before ++ entry :: after = before' ++ next :: after' ∧
      direction.beyond before' after' = rest := by
  cases direction with
  | forward =>
    rw [beyond] at h
    subst h
    exact ⟨before ++ [entry], rest, List.append_cons before entry _, rfl⟩
  | backward =>
    rw [beyond, List.reverse_eq_cons_iff] at h
    subst h
    exact ⟨rest.reverse, entry :: after, by simp, List.reverse_reverse rest⟩

end Direction

namespace SortedMap

private theorem neighbour_of_split (hs : Entries.Sorted map.entries)
    (hsplit : map.entries = before ++ entry :: after) (direction : Direction) :
    map.neighbour? direction entry.bytes = (direction.beyond before after).head?.map (·.key) := by
  rw [hsplit] at hs
  cases direction with
  | forward =>
    simp only [neighbour?, successor?, within, Interval.contains_above, hsplit,
      Entries.filter_gt hs, Direction.beyond]
  | backward =>
    simp only [neighbour?, predecessor?, within, Interval.contains_below, hsplit,
      Entries.filter_lt hs, Direction.beyond, List.head?_reverse]

/-- The entries from a key on, in the order in which a direction meets them. -/
def onward (map : SortedMap) (direction : Direction) (key : Bytes) : List Entry :=
  match direction with
  | .forward => map.entries.filter (key ≤ ·.bytes)
  | .backward => (map.entries.filter (·.bytes ≤ key)).reverse

private theorem onward_of_split (hs : Entries.Sorted map.entries)
    (hsplit : map.entries = before ++ entry :: after) (direction : Direction) :
    map.onward direction entry.bytes = entry :: direction.beyond before after := by
  rw [hsplit] at hs
  cases direction with
  | forward =>
    rw [onward, hsplit]
    exact Entries.filter_ge hs
  | backward =>
    rw [onward, hsplit, Entries.filter_le hs, List.reverse_append]
    rfl

private theorem length_onward_le (map : SortedMap) (direction : Direction) (key : Bytes) :
    (map.onward direction key).length ≤ map.size := by
  cases direction with
  | forward => exact List.length_filter_le _ _
  | backward =>
    rw [onward, List.length_reverse]
    exact List.length_filter_le _ _

private theorem entry_of_split (hs : Entries.Sorted map.entries)
    (hsplit : map.entries = before ++ entry :: after) : map.entry? entry.bytes = some entry := by
  refine (Entries.find?_eq_some_iff hs).mpr ⟨?_, rfl⟩
  rw [hsplit]
  exact List.mem_append_right before List.mem_cons_self

end SortedMap

namespace Cursor

/-- The cursor holds the key of the entry at the index, or is exhausted where there is no index. -/
inductive StandsAt (entries : List Entry) : Cursor → Option Nat → Prop where
  | positioned {before after : List Entry} {entry : Entry} {key : Key}
      (hsplit : entries = before ++ entry :: after) (hkey : key.bytes = entry.bytes) :
      StandsAt entries (.positioned key) (some before.length)
  | exhausted : StandsAt entries .exhausted none

private theorem standsAt_placeOn (entries : List Entry)
    (hindex : ∀ place ∈ index, place < entries.length) :
    StandsAt entries (placeOn ((index.bind (entries[·]?)).map (·.key))) index := by
  cases index with
  | none => exact .exhausted
  | some place =>
    have hlt : place < entries.length := hindex place rfl
    have hsplit : entries = entries.take place ++ entries[place] :: entries.drop (place + 1) := by
      rw [List.getElem_cons_drop, List.take_append_drop]
    have hstands := StandsAt.positioned hsplit (Key.bytes_copy entries[place].key)
    rw [List.length_take_of_le (Nat.le_of_lt hlt)] at hstands
    simpa [placeOn, hlt] using hstands

private theorem isExhausted_of_standsAt {entries : List Entry} (h : StandsAt entries cursor index) :
    cursor.isExhausted = index.isNone := by
  cases h <;> rfl

private theorem advance_of_split (hs : Entries.Sorted map.entries)
    (hsplit : map.entries = before ++ entry :: after) (hkey : key.bytes = entry.bytes)
    (direction : Direction) :
    (positioned key).advance map direction =
      (some entry, placeOn ((direction.beyond before after).head?.map (·.key))) := by
  have hpeek : (positioned key).peek map = some entry := by
    rw [peek, hkey]
    exact SortedMap.entry_of_split hs hsplit
  rw [advance_eq, hpeek, ← SortedMap.neighbour_of_split hs hsplit]

theorem standsAt_advance (hs : Entries.Sorted map.entries)
    (h : StandsAt map.entries cursor index) (direction : Direction) :
    (Visit.mk map direction cursor).answer = index.bind (map.entries[·]?) ∧
      StandsAt map.entries (Visit.mk map direction cursor).stop
        (index.bind (direction.nextIndex? map.entries.length)) := by
  cases h with
  | exhausted => exact ⟨rfl, .exhausted⟩
  | @positioned before after entry key hsplit hkey =>
    have hlt : before.length < map.entries.length := by simp [hsplit]
    have hstands := standsAt_placeOn map.entries fun _ => direction.nextIndex?_lt hlt
    rw [Visit.answer, Visit.stop, advance_of_split hs hsplit hkey]
    rw [hsplit, Direction.getElem?_nextIndex?] at hstands
    rw [hsplit]
    exact ⟨by simp, hstands⟩

/-- On one map the cursor is exhausted where there is no index, answers every walk as the index does,
and is exhausted after an advance just when the index has left the list. -/
def Follows (map : SortedMap) (cursor : Cursor) (index : Option Nat) : Prop :=
  cursor.isExhausted = index.isNone ∧
    ∀ directions : List Direction,
      (cursor.walk (directions.map (map, ·))).map
          (fun visit => (visit.answer, visit.stop.isExhausted)) =
        (Entries.walk map.entries index directions).map fun pair => (pair.1, pair.2.isNone)

private theorem follows_of_standsAt (hs : Entries.Sorted map.entries)
    (h : StandsAt map.entries cursor index) : Follows map cursor index := by
  refine ⟨isExhausted_of_standsAt h, fun directions => ?_⟩
  induction directions generalizing cursor index with
  | nil => rfl
  | cons direction rest ih =>
    obtain ⟨hanswer, hstop⟩ := standsAt_advance hs h direction
    rw [List.map_cons, walk_cons, List.map_cons, ih hstop, Entries.walk, List.map_cons, hanswer,
      isExhausted_of_standsAt hstop]

private theorem standsAt_seekFirst (map : SortedMap) :
    StandsAt map.entries map.seekFirst (if map.isEmpty then none else some 0) := by
  rw [SortedMap.seekFirst, SortedMap.least?, SortedMap.isEmpty]
  cases hentries : map.entries with
  | nil => exact .exhausted
  | cons entry rest => exact .positioned (List.nil_append _).symm (Key.bytes_copy entry.key)

private theorem standsAt_seek (map : SortedMap) (key : Bytes) :
    StandsAt map.entries (map.seek key) (map.entries.findIdx? (·.bytes == key)) := by
  rw [SortedMap.seek]
  cases hentry : map.entry? key with
  | none =>
    have hnone : map.entries.findIdx? (·.bytes == key) = none := by
      refine List.findIdx?_eq_none_iff.mpr fun entry hmem => ?_
      simpa using Entries.find?_eq_none_iff.mp hentry entry hmem
    rw [hnone]
    exact .exhausted
  | some entry =>
    obtain ⟨before, after, hsplit, hindex⟩ := Entries.split_of_find? hentry
    rw [hindex]
    exact .positioned hsplit (Key.bytes_copy entry.key)

/-- The entries that a cursor has before it in a direction, its own first. -/
def ahead (map : SortedMap) (direction : Direction) : Cursor → List Entry
  | .exhausted => []
  | .positioned key => if map.contains key.bytes then map.onward direction key.bytes else []

private theorem ahead_of_split (hs : Entries.Sorted map.entries)
    (hsplit : map.entries = before ++ entry :: after) (hkey : key.bytes = entry.bytes)
    (direction : Direction) :
    (positioned key).ahead map direction = entry :: direction.beyond before after := by
  have hcontains : map.contains entry.bytes = true := by
    rw [SortedMap.contains, SortedMap.entry_of_split hs hsplit]
    rfl
  rw [ahead, hkey, if_pos hcontains, SortedMap.onward_of_split hs hsplit]

private theorem ahead_placeOn (hs : Entries.Sorted map.entries)
    (hsplit : map.entries = before ++ entry :: after) (direction : Direction) :
    (placeOn ((direction.beyond before after).head?.map (·.key))).ahead map direction =
      direction.beyond before after := by
  cases hbeyond : direction.beyond before after with
  | nil => rfl
  | cons next rest =>
    obtain ⟨before', after', hsplit', hrest⟩ := Direction.split_of_beyond hbeyond entry
    rw [← hrest]
    exact ahead_of_split hs (hsplit.trans hsplit') (Key.bytes_copy next.key) direction

/-- One advance answers the first of the entries ahead and leaves the others ahead. -/
theorem ahead_advance (hs : Entries.Sorted map.entries) (direction : Direction) (cursor : Cursor) :
    (cursor.advance map direction).1 = (cursor.ahead map direction).head? ∧
      (cursor.advance map direction).2.ahead map direction =
        (cursor.ahead map direction).tail := by
  cases cursor with
  | exhausted => exact ⟨rfl, rfl⟩
  | positioned key =>
    cases hentry : map.entry? key.bytes with
    | none => simp [advance, ahead, SortedMap.contains, hentry]
    | some entry =>
      obtain ⟨before, after, hsplit, _⟩ := Entries.split_of_find? hentry
      have hkey : key.bytes = entry.bytes := (Entries.mem_of_find? hentry).2.symm
      rw [advance_of_split hs hsplit hkey, ahead_of_split hs hsplit hkey]
      exact ⟨rfl, ahead_placeOn hs hsplit direction⟩

private theorem length_ahead_le (map : SortedMap) (direction : Direction) (cursor : Cursor) :
    (cursor.ahead map direction).length ≤ map.size := by
  cases cursor with
  | exhausted => exact Nat.zero_le _
  | positioned key =>
    rw [ahead]
    split
    · exact map.length_onward_le direction key.bytes
    · exact Nat.zero_le _

private theorem drainsTo_ahead (hs : Entries.Sorted map.entries) (direction : Direction)
    (cursor : Cursor) :
    cursor.DrainsTo map direction (cursor.ahead map direction) := by
  generalize hahead : cursor.ahead map direction = entries
  induction entries generalizing cursor with
  | nil =>
    have hnone : (cursor.advance map direction).1 = none := by
      rw [(ahead_advance hs direction cursor).1, hahead, List.head?_nil]
    exact congrArg ([·]) hnone
  | cons entry rest ih =>
    obtain ⟨hanswer, hstop⟩ := ahead_advance hs direction cursor
    rw [hahead] at hanswer hstop
    have hrest := ih (cursor.advance map direction).2 hstop
    rw [DrainsTo] at hrest ⊢
    rw [List.length_cons, List.replicate_succ, walk_cons, List.map_cons, Visit.stop, hrest,
      Visit.answer, hanswer]
    rfl

private theorem drainWithin_eq (hs : Entries.Sorted map.entries) {fuel : Nat} {cursor : Cursor}
    (hfuel : (cursor.ahead map direction).length < fuel) :
    drainWithin map direction fuel cursor = (cursor.ahead map direction, .exhausted) := by
  induction fuel generalizing cursor with
  | zero => exact absurd hfuel (Nat.not_lt_zero _)
  | succ fuel ih =>
    obtain ⟨hanswer, hstop⟩ := ahead_advance hs direction cursor
    rw [drainWithin]
    cases hahead : cursor.ahead map direction with
    | nil =>
      rw [hahead] at hanswer
      have hexhausted := advance_snd_of_none hanswer
      rw [← Prod.eta (cursor.advance map direction), hanswer, hexhausted]
      rfl
    | cons entry rest =>
      rw [hahead] at hanswer hstop hfuel
      have hless : ((cursor.advance map direction).2.ahead map direction).length < fuel := by
        rw [hstop]
        exact Nat.lt_of_succ_lt_succ hfuel
      rw [← Prod.eta (cursor.advance map direction), hanswer, List.head?_cons]
      change (entry :: (drainWithin map direction fuel _).1, _) = _
      rw [ih hless, hstop]
      rfl

theorem drain_eq (hs : Entries.Sorted map.entries) (direction : Direction) (cursor : Cursor) :
    cursor.drain map direction = (cursor.ahead map direction, .exhausted) :=
  drainWithin_eq hs (Nat.lt_succ_of_le (length_ahead_le map direction cursor))

private theorem ahead_seek {bound : Bytes} (h : map.contains bound = true) (direction : Direction) :
    (map.seek bound).ahead map direction = map.onward direction bound := by
  obtain ⟨entry, hentry⟩ := Option.isSome_iff_exists.mp h
  have hkey : entry.key.copy.bytes = bound :=
    (Key.bytes_copy entry.key).trans (Entries.mem_of_find? hentry).2
  rw [SortedMap.seek, hentry, Option.map_some, placeOn, ahead, hkey, if_pos h]

private theorem ahead_seekFirst (hs : Entries.Sorted map.entries) :
    map.seekFirst.ahead map .forward = map.entries := by
  rw [SortedMap.seekFirst, SortedMap.least?]
  cases hentries : map.entries with
  | nil => rfl
  | cons entry rest =>
    exact ahead_of_split hs (hentries.trans (List.nil_append _).symm) (Key.bytes_copy entry.key)
      .forward

end Cursor

/-- On a map that does not change, a cursor is an index into the sorted entries: it starts at the first
one or at the one of the sought key, answers every walk as the index does, and drains to the entries
from its key on. A drain is what a walk in one direction yields until it yields nothing, at the latest
at the call after as many as there are entries. -/
theorem SortedMap.walks_by_index (h : map.Reachable) :
    Entries.Sorted map.entries ∧
      map.seekFirst.Follows map (if map.isEmpty then none else some 0) ∧
      (∀ key, (map.seek key).Follows map (map.entries.findIdx? (·.bytes == key))) ∧
      (∀ key, map.contains key = true →
        (map.seek key).drain map .forward =
            (map.entries.filter (key ≤ ·.bytes), .exhausted) ∧
          (map.seek key).drain map .backward =
            ((map.entries.filter (·.bytes ≤ key)).reverse, .exhausted)) ∧
      map.seekFirst.drain map .forward = (map.entries, .exhausted) ∧
      ∀ cursor direction,
        Cursor.DrainsTo map direction cursor (cursor.drain map direction).1 ∧
          (cursor.drain map direction).1.length ≤ map.size := by
  have hs := h.sorted
  refine ⟨hs, Cursor.follows_of_standsAt hs (Cursor.standsAt_seekFirst map), ?seek, ?onward, ?first,
    ?drain⟩
  case seek =>
    intro key
    exact Cursor.follows_of_standsAt hs (Cursor.standsAt_seek map key)
  case onward =>
    intro key hcontains
    rw [Cursor.drain_eq hs, Cursor.drain_eq hs, Cursor.ahead_seek hcontains,
      Cursor.ahead_seek hcontains]
    exact ⟨rfl, rfl⟩
  case first => rw [Cursor.drain_eq hs, Cursor.ahead_seekFirst hs]
  case drain =>
    intro cursor direction
    rw [Cursor.drain_eq hs]
    exact ⟨Cursor.drainsTo_ahead hs direction cursor,
      Cursor.length_ahead_le map direction cursor⟩

/-- The empty key, a word and a short key: a walk that turns back and leaves the list at its end, and
a drain backward from the word. -/
theorem SortedMap.three_keys_walked :
    let word : Entry := ⟨.inline 0x0100000000000002, 5⟩
    let map : SortedMap := ⟨⟨8⟩, [⟨.owned [], 1⟩, word, ⟨.owned [7], 6⟩], 1, 1⟩
    map.Reachable ∧ map.contains word.bytes = true ∧
      (map.seek word.bytes).Follows map (some 1) ∧
      (Entries.walk map.entries (some 1) [.backward, .forward, .forward, .forward, .backward]).map
          (fun pair => (pair.1.map (·.value), pair.2)) =
        [(some 5, some 0), (some 1, some 1), (some 5, some 2), (some 6, none), (none, none)] ∧
      (map.seek word.bytes).drain map .backward = ([word, ⟨.owned [], 1⟩], .exhausted) := by
  intro word map
  have hreachable : map.Reachable :=
    ⟨⟨8⟩, .emptyWith ⟨8⟩,
      [.edit 0 (.put [7] 6), .edit 0 (.put [1, 0, 0, 0, 0, 0, 0, 2] 5), .edit 0 (.set [] 1)],
      .inr rfl, List.mem_of_getElem? (i := 0) rfl⟩
  have hcontains : map.contains word.bytes = true := by decide
  obtain ⟨_, _, hseek, honward, _⟩ := walks_by_index hreachable
  exact ⟨hreachable, hcontains, hseek word.bytes, by decide, (honward word.bytes hcontains).2⟩

end ByteIndex
