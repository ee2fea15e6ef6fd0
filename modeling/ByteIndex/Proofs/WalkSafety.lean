import ByteIndex.Proofs.KeyOrder
import ByteIndex.Walk
/-!
# Walks over maps that change

Whatever maps a cursor is advanced on, an entry that it yields is stored in the map at hand, a stretch
in one direction yields keys in strict order, and after the first call without an entry there is none
any more. All of this follows from the key that the cursor holds: a step yields this key or nothing,
and goes on to a key beyond it or to none.
-/
namespace ByteIndex

namespace Direction

variable {direction : Direction} {first second third : Bytes}

private theorem Precedes.trans (h : direction.Precedes first second)
    (h' : direction.Precedes second third) : direction.Precedes first third := by
  cases direction with
  | forward => exact List.lt_trans h h'
  | backward => exact List.lt_trans h' h

theorem not_precedes_self (direction : Direction) (key : Bytes) :
    ¬ direction.Precedes key key := by
  cases direction <;> exact List.lt_irrefl key

end Direction

namespace SortedMap

private theorem precedes_of_neighbour {map : SortedMap} {direction : Direction} {key : Bytes}
    {next : Key}
    (h : map.neighbour? direction key = some next) : direction.Precedes key next.bytes := by
  cases direction with
  | forward =>
    obtain ⟨entry, hentry, rfl⟩ := Option.map_eq_some_iff.mp h
    have hwithin := (List.mem_filter.mp (List.mem_of_mem_head? hentry)).2
    rw [Interval.contains_above, decide_eq_true_eq] at hwithin
    exact hwithin
  | backward =>
    obtain ⟨entry, hentry, rfl⟩ := Option.map_eq_some_iff.mp h
    have hwithin := (List.mem_filter.mp (List.mem_of_getLast? hentry)).2
    rw [Interval.contains_below, decide_eq_true_eq] at hwithin
    exact hwithin

end SortedMap

namespace Visit

variable {visit : Visit} {entry : Entry} {key : Key}

theorem answer_eq_peek (visit : Visit) : visit.answer = visit.start.peek visit.map :=
  Cursor.advance_fst visit.map visit.direction visit.start

private theorem stop_of_none (h : visit.answer = none) : visit.stop = .exhausted :=
  Cursor.advance_snd_of_none h

private theorem start_of_answer (h : visit.answer = some entry) :
    ∃ key, visit.start = .positioned key ∧ visit.map.entry? key.bytes = some entry := by
  rw [answer_eq_peek] at h
  cases hstart : visit.start with
  | positioned key =>
    rw [hstart] at h
    exact ⟨key, rfl, h⟩
  | exhausted =>
    rw [hstart] at h
    cases h

private theorem bytes_of_answer (h : visit.answer = some entry)
    (hstart : visit.start = .positioned key) :
    entry.bytes = key.bytes := by
  obtain ⟨held, hheld, hentry⟩ := start_of_answer h
  rw [hstart] at hheld
  cases hheld
  simpa using List.find?_some hentry

private theorem bound_of_answer (h : visit.answer = some entry) :
    entry ∈ visit.map.entries ∧ visit.map.get? entry.bytes = some entry.value := by
  obtain ⟨key, hstart, hentry⟩ := start_of_answer h
  refine ⟨List.mem_of_find?_eq_some hentry, ?_⟩
  rw [bytes_of_answer h hstart, SortedMap.get?, hentry]
  rfl

theorem precedes_of_stop (h : visit.answer = some entry) (hstop : visit.stop = .positioned key) :
    visit.direction.Precedes entry.bytes key.bytes := by
  have hpeek := visit.answer_eq_peek
  rw [h] at hpeek
  rw [stop, Cursor.advance_eq, ← hpeek] at hstop
  cases hnext : visit.map.neighbour? visit.direction entry.bytes with
  | none => simp [hnext, Cursor.placeOn] at hstop
  | some next =>
    simp only [hnext, Cursor.placeOn, Cursor.positioned.injEq] at hstop
    rw [← hstop, Key.bytes_copy]
    exact SortedMap.precedes_of_neighbour hnext

end Visit

namespace Cursor

variable {cursor : Cursor} {steps : List (SortedMap × Direction)} {direction : Direction}
  {visits : List Visit}

theorem walk_cons (cursor : Cursor) (map : SortedMap) (direction : Direction)
    (rest : List (SortedMap × Direction)) :
    cursor.walk ((map, direction) :: rest) =
      ⟨map, direction, cursor⟩ :: (Visit.mk map direction cursor).stop.walk rest := rfl

theorem steps_of_walk (cursor : Cursor) (steps : List (SortedMap × Direction)) :
    (cursor.walk steps).map (fun visit => (visit.map, visit.direction)) = steps := by
  induction steps generalizing cursor with
  | nil => rfl
  | cons step rest ih => rw [walk_cons, List.map_cons, ih]

private theorem walk_take (cursor : Cursor) (steps : List (SortedMap × Direction)) (count : Nat) :
    (cursor.walk steps).take count = cursor.walk (steps.take count) := by
  induction steps generalizing cursor count with
  | nil => cases count <;> rfl
  | cons step rest ih =>
    cases count with
    | zero => rfl
    | succ count => rw [walk_cons, List.take_succ_cons, ih, List.take_succ_cons, walk_cons]

private theorem walk_drop (cursor : Cursor) (steps : List (SortedMap × Direction)) (count : Nat) :
    ∃ later : Cursor, (cursor.walk steps).drop count = later.walk (steps.drop count) := by
  induction steps generalizing cursor count with
  | nil => exact ⟨cursor, by cases count <;> rfl⟩
  | cons step rest ih =>
    cases count with
    | zero => exact ⟨cursor, rfl⟩
    | succ count => exact ih _ count

private theorem walk_of_infix (h : visits <:+: cursor.walk steps) :
    ∃ (later : Cursor) (stretch : List (SortedMap × Direction)), visits = later.walk stretch := by
  obtain ⟨before, after, hsplit⟩ := h
  obtain ⟨later, hlater⟩ := walk_drop cursor steps before.length
  rw [← hsplit, List.append_assoc, List.drop_left] at hlater
  refine ⟨later, (steps.drop before.length).take visits.length, ?_⟩
  rw [← walk_take, ← hlater, List.take_left]

private theorem start_of_walk_exhausted (steps : List (SortedMap × Direction)) :
    ∀ visit ∈ exhausted.walk steps, visit.start = .exhausted := by
  induction steps with
  | nil => nofun
  | cons step rest ih =>
    intro visit hmem
    rcases List.mem_cons.mp hmem with rfl | hmem
    · rfl
    · exact ih visit hmem

theorem walk_ends (cursor : Cursor) (steps : List (SortedMap × Direction)) :
    (cursor.walk steps).Pairwise fun earlier later =>
      earlier.answer = none → later.answer = none ∧ later.stop = .exhausted := by
  induction steps generalizing cursor with
  | nil => exact .nil
  | cons step rest ih =>
    refine List.pairwise_cons.mpr ⟨?_, ih _⟩
    intro later hmem hnone
    rw [Visit.stop_of_none hnone] at hmem
    have hlater : later.answer = none := by
      rw [Visit.answer_eq_peek, start_of_walk_exhausted rest later hmem]
      rfl
    exact ⟨hlater, Visit.stop_of_none hlater⟩

/-- Of a cursor that stands beyond a key, a walk in one direction yields keys beyond that key. -/
theorem walk_beyond {key : Bytes} (hdirection : ∀ visit ∈ cursor.walk steps,
      visit.direction = direction)
    (hbeyond : ∀ held, cursor = .positioned held → direction.Precedes key held.bytes) :
    ∀ entry ∈ (cursor.walk steps).filterMap Visit.answer, direction.Precedes key entry.bytes := by
  -- nothing is asked of the maps: the invariant is on the key that the cursor holds
  induction steps generalizing cursor with
  | nil => nofun
  | cons step rest ih =>
    rw [walk_cons] at hdirection ⊢
    obtain ⟨rfl, hrest⟩ := List.forall_mem_cons.mp hdirection
    cases hanswer : (Visit.mk step.1 step.2 cursor).answer with
    | none =>
      rw [List.filterMap_cons_none hanswer]
      refine ih hrest fun held hstop => ?_
      rw [Visit.stop_of_none hanswer] at hstop
      cases hstop
    | some entry =>
      obtain ⟨held, hstart, _⟩ := Visit.start_of_answer hanswer
      have hentry : step.2.Precedes key entry.bytes := by
        rw [Visit.bytes_of_answer hanswer hstart]
        exact hbeyond held hstart
      rw [List.filterMap_cons_some hanswer]
      refine List.forall_mem_cons.mpr ⟨hentry, ih hrest fun held hstop => ?_⟩
      exact hentry.trans (Visit.precedes_of_stop hanswer hstop)

theorem walk_ordered (hdirection : ∀ visit ∈ cursor.walk steps, visit.direction = direction) :
    ((cursor.walk steps).filterMap Visit.answer).Pairwise fun first second =>
      direction.Precedes first.bytes second.bytes := by
  induction steps generalizing cursor with
  | nil => exact .nil
  | cons step rest ih =>
    rw [walk_cons] at hdirection ⊢
    obtain ⟨rfl, hrest⟩ := List.forall_mem_cons.mp hdirection
    cases hanswer : (Visit.mk step.1 step.2 cursor).answer with
    | none =>
      rw [List.filterMap_cons_none hanswer]
      exact ih hrest
    | some entry =>
      rw [List.filterMap_cons_some hanswer]
      exact List.pairwise_cons.mpr ⟨walk_beyond hrest fun held hstop =>
        Visit.precedes_of_stop hanswer hstop, ih hrest⟩

/-- A cursor may be advanced on any maps at all: what it yields is bound in the map at hand and is what
a peek shows just before, every stretch in one direction yields its keys in strict order and none of
them twice, and the first call without an entry is followed by no call with one. -/
theorem walk_is_safe (cursor : Cursor) (steps : List (SortedMap × Direction)) :
    (cursor.walk steps).map (fun visit => (visit.map, visit.direction)) = steps ∧
      (∀ visit ∈ cursor.walk steps, visit.answer = visit.start.peek visit.map ∧
        (visit.answer = none → visit.stop = .exhausted) ∧
        ∀ entry, visit.answer = some entry →
          entry ∈ visit.map.entries ∧ visit.map.get? entry.bytes = some entry.value) ∧
      (∀ stretch direction, stretch <:+: cursor.walk steps →
        (∀ visit ∈ stretch, visit.direction = direction) →
        let keys := (stretch.filterMap Visit.answer).map Entry.bytes
        keys.Pairwise direction.Precedes ∧ keys.Nodup) ∧
      (cursor.walk steps).Pairwise fun earlier later =>
        earlier.answer = none → later.answer = none ∧ later.stop = .exhausted := by
  refine ⟨steps_of_walk cursor steps, ?bound, ?ordered, walk_ends cursor steps⟩
  case bound =>
    intro visit _
    exact ⟨visit.answer_eq_peek, Visit.stop_of_none, fun _ => Visit.bound_of_answer⟩
  case ordered =>
    intro stretch direction hstretch hdirection keys
    obtain ⟨later, taken, rfl⟩ := walk_of_infix hstretch
    have hkeys : keys.Pairwise direction.Precedes :=
      List.pairwise_map.mpr (walk_ordered hdirection)
    refine ⟨hkeys, hkeys.imp ?_⟩
    rintro first _ hprecedes rfl
    exact direction.not_precedes_self first hprecedes

/-- A key that comes back does not bring back the cursor that has missed it. -/
example :
    let map : SortedMap := ⟨.unbounded, [⟨.owned [7], 6⟩], 0, 1⟩
    ((map.seek [7]).walk [(map.clear, .forward), (map, .forward)]).map Visit.answer =
      [none, none] := rfl

end Cursor
end ByteIndex
