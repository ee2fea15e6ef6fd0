import ByteIndex.Proofs.MapUpdate
import ByteIndex.Traversal
/-!
# What traversals go over

The two ends of a traversal take from one list, so whatever is taken at one end is gone for the other.
An ordered search cuts the entries of a proper interval out of a sorted list at two places; this gives
the entries that the interval contains, and clamping a half-open interval makes it proper.
-/
namespace ByteIndex

namespace Traversal

variable {traversal : Traversal} {side : Side} {sides : List Side}

private theorem count_front_add_count_back (sides : List Side) :
    sides.count .front + sides.count .back = sides.length := by
  induction sides with
  | nil => rfl
  | cons side rest ih =>
    cases side with
    | front =>
      rw [List.count_cons_self, List.count_cons_of_ne (by decide), List.length_cons]
      omega
    | back =>
      rw [List.count_cons_self, List.count_cons_of_ne (by decide), List.length_cons]
      omega

private theorem leave_cons (traversal : Traversal) (side : Side) (rest : List Side) :
    traversal.leave (side :: rest) = (traversal.take side).2.leave rest := rfl

private theorem given_cons (traversal : Traversal) (side taken : Side) (rest : List Side) :
    traversal.given side (taken :: rest) =
      (if taken = side then (traversal.take taken).1 else none).toList ++
        (traversal.take taken).2.given side rest := by
  rw [given, takes, List.zip_cons_cons]
  cases hentry : (if taken = side then (traversal.take taken).1 else none) with
  | none =>
    simp only [List.filterMap_cons, hentry]
    rfl
  | some entry =>
    simp only [List.filterMap_cons, hentry]
    rfl

private theorem getElem?_takes (traversal : Traversal) (before : List Side) (side : Side)
    (after : List Side) :
    (traversal.takes (before ++ side :: after))[before.length]? =
      some ((traversal.leave before).take side).1 := by
  induction before generalizing traversal with
  | nil => rfl
  | cons first rest ih =>
    rw [leave_cons, ← ih]
    rfl

private theorem pending_leave (traversal : Traversal) (sides : List Side) :
    (traversal.leave sides).pending =
      (traversal.pending.take (traversal.size - sides.count .back)).drop (sides.count .front) := by
  induction sides generalizing traversal with
  | nil => simp [leave, size]
  | cons side rest ih =>
    rw [leave_cons, ih, size_take]
    cases side with
    | front =>
      rw [List.count_cons_self, List.count_cons_of_ne (by decide), List.drop_take, List.drop_take,
        take, List.drop_tail]
      congr 1
      omega
    | back =>
      rw [List.count_cons_self, List.count_cons_of_ne (by decide), take, List.dropLast_eq_take,
        List.take_take, size]
      congr 2
      omega

/-- What was taken in front, what is left and what was taken at the back are the whole list. -/
theorem given_append_pending (traversal : Traversal) (sides : List Side) :
    traversal.given .front sides ++ (traversal.leave sides).pending ++
      (traversal.given .back sides).reverse = traversal.pending := by
  induction sides generalizing traversal with
  | nil => simp [given, leave]
  | cons side rest ih =>
    rw [given_cons, given_cons, leave_cons]
    cases side with
    | front =>
      have hrest := ih (traversal.take .front).2
      cases hpending : traversal.pending with
      | nil => simpa [take, hpending] using hrest
      | cons entry others => simpa [take, hpending] using hrest
    | back =>
      have hrest := ih (traversal.take .back).2
      rcases List.eq_nil_or_concat traversal.pending with hpending | ⟨others, entry, hpending⟩
      · simpa [take, hpending] using hrest
      · simpa [take, hpending] using congrArg (· ++ [entry]) hrest

theorem views (traversal : Traversal) : traversal.Views traversal.pending where
  answer before side after := by
    have hcount := count_front_add_count_back before
    rw [getElem?_takes]
    congr 1
    cases side with
    | front =>
      change (traversal.leave before).pending.head? = _
      rw [pending_leave, List.head?_drop, List.getElem?_take, size]
      refine if_congr ?_ rfl rfl
      omega
    | back =>
      change (traversal.leave before).pending.getLast? = _
      rw [← List.head?_reverse, pending_leave, List.reverse_drop, List.reverse_take,
        List.head?_take, List.head?_drop, size, List.length_take]
      by_cases hleft : before.length < traversal.pending.length
      · have hplace : traversal.pending.length -
            (traversal.pending.length - before.count .back) = before.count .back := by omega
        rw [if_pos hleft, if_neg (by omega), hplace]
      · rw [if_neg hleft, if_pos (by omega)]
  parts := traversal.given_append_pending
  size sides := by
    have hcount := count_front_add_count_back sides
    rw [size, pending_leave, List.length_drop, List.length_take, size]
    omega

end Traversal

namespace Interval

variable {interval : Interval} {first second : Bytes}

/-- Whether a string lies behind the lower bound. -/
def isAbove (interval : Interval) (key : Bytes) : Bool :=
  (mk interval.lower .unbounded).contains key

/-- Whether a string lies before the upper bound. -/
def isBelow (interval : Interval) (key : Bytes) : Bool :=
  (mk .unbounded interval.upper).contains key

private theorem contains_eq (interval : Interval) (key : Bytes) :
    interval.contains key = (interval.isAbove key && interval.isBelow key) := by
  obtain ⟨lower, upper⟩ := interval
  simp [isAbove, isBelow, contains]

private theorem isAbove_of_lt (hlt : first < second) (h : interval.isAbove first = true) :
    interval.isAbove second = true := by
  obtain ⟨lower, upper⟩ := interval
  cases lower with
  | included lower =>
    simp only [isAbove, contains, Bool.and_true, decide_eq_true_eq] at h ⊢
    exact List.le_trans h (List.le_of_lt hlt)
  | excluded lower =>
    simp only [isAbove, contains, Bool.and_true, decide_eq_true_eq] at h ⊢
    exact List.lt_trans h hlt
  | unbounded => rfl

private theorem isBelow_of_lt (hlt : first < second) (h : interval.isBelow second = true) :
    interval.isBelow first = true := by
  obtain ⟨lower, upper⟩ := interval
  cases upper with
  | included upper =>
    simp only [isBelow, contains, Bool.true_and, decide_eq_true_eq] at h ⊢
    exact List.le_trans (List.le_of_lt hlt) h
  | excluded upper =>
    simp only [isBelow, contains, Bool.true_and, decide_eq_true_eq] at h ⊢
    exact List.lt_trans hlt h
  | unbounded => rfl

end Interval

namespace Entries

variable {entries : List Entry} {p : Entry → Bool}

/-- Pass the entries that lie below an interval and stop at the first one above it; there is no such
search for an interval that is not proper. -/
def between? (interval : Interval) (entries : List Entry) : Option (List Entry) :=
  if interval.isProper then
    some ((entries.dropWhile fun entry => !interval.isAbove entry.bytes).takeWhile fun entry =>
      interval.isBelow entry.bytes)
  else none

private theorem dropWhile_eq_filter (h : entries.Pairwise fun first second => p first → p second) :
    entries.dropWhile (fun entry => !p entry) = entries.filter p := by
  induction entries with
  | nil => rfl
  | cons entry rest ih =>
    obtain ⟨hhead, hrest⟩ := List.pairwise_cons.mp h
    by_cases hentry : p entry = true
    · have hall : rest.filter p = rest :=
        List.filter_eq_self.mpr fun other hother => hhead other hother hentry
      rw [List.dropWhile_cons_of_neg (by simp [hentry]), List.filter_cons_of_pos hentry, hall]
    · rw [List.dropWhile_cons_of_pos (by simp [hentry]), List.filter_cons_of_neg hentry, ih hrest]

private theorem takeWhile_eq_filter (h : entries.Pairwise fun first second => p second → p first) :
    entries.takeWhile p = entries.filter p := by
  induction entries with
  | nil => rfl
  | cons entry rest ih =>
    obtain ⟨hhead, hrest⟩ := List.pairwise_cons.mp h
    by_cases hentry : p entry = true
    · rw [List.takeWhile_cons_of_pos hentry, List.filter_cons_of_pos hentry, ih hrest]
    · have hnone : rest.filter p = [] :=
        List.filter_eq_nil_iff.mpr fun other hother h => hentry (hhead other hother h)
      rw [List.takeWhile_cons_of_neg hentry, List.filter_cons_of_neg hentry, hnone]

/-- On a sorted list a search between the bounds of a proper interval finds what the interval
contains. -/
theorem between?_eq {interval : Interval} (hproper : interval.isProper = true)
    (hs : Sorted entries) :
    between? interval entries =
      some (entries.filter fun entry => interval.contains entry.bytes) := by
  have habove : entries.Pairwise fun first second =>
      interval.isAbove first.bytes = true → interval.isAbove second.bytes = true :=
    hs.imp Interval.isAbove_of_lt
  have hbelow : (entries.filter fun entry => interval.isAbove entry.bytes).Pairwise
      fun first second =>
        interval.isBelow second.bytes = true → interval.isBelow first.bytes = true :=
    (hs.filter _).imp Interval.isBelow_of_lt
  rw [between?, if_pos hproper, dropWhile_eq_filter habove, takeWhile_eq_filter hbelow,
    List.filter_filter]
  simp only [Interval.contains_eq, Bool.and_comm]

end Entries

namespace SortedMap

theorem range_eq_filter (map : SortedMap) (start stop : Bytes) :
    map.range start stop =
      map.entries.filter fun entry => decide (start ≤ entry.bytes ∧ entry.bytes < stop) := by
  simp only [range, within, Interval.contains_halfOpen, Bool.decide_and]

private theorem range_eq_nil {start stop : Bytes} (h : stop ≤ start) (map : SortedMap) :
    map.range start stop = [] := by
  rw [range_eq_filter]
  refine List.filter_eq_nil_iff.mpr fun entry _ => ?_
  rw [decide_eq_true_eq]
  intro ⟨hstart, hstop⟩
  exact List.not_lt.mpr (List.le_trans h hstart) hstop

/-- The traversal of a map goes over its sorted entries from both ends, and that of a range over those
with `start ≤ key < stop`. The bounds that a range is searched with are always proper, whatever the
order of its ends, and there is nothing in it if they are out of order. -/
theorem traversals_view_entries {map : SortedMap} (h : map.Reachable) :
    Entries.Sorted map.entries ∧ map.traverse.Views map.entries ∧
      ∀ start stop,
        let denoted := map.entries.filter fun entry =>
          decide (start ≤ entry.bytes ∧ entry.bytes < stop)
        (Interval.halfOpen start stop).isProper = true ∧
          Entries.between? (.halfOpen start stop) map.entries = some denoted ∧
          (map.traverseRange start stop).Views denoted ∧
          Entries.Sorted denoted ∧
          (stop ≤ start → denoted = []) := by
  have hs := h.sorted
  refine ⟨hs, map.traverse.views, fun start stop => ?_⟩
  intro denoted
  have hproper := Interval.isProper_halfOpen start stop
  have hrange : map.range start stop = denoted := map.range_eq_filter start stop
  refine ⟨hproper, ?between, ?views, hs.filter _, ?empty⟩
  case between =>
    rw [Entries.between?_eq hproper hs, ← hrange]
    rfl
  case views =>
    rw [← hrange]
    exact (map.traverseRange start stop).views
  case empty =>
    intro hstop
    rw [← hrange]
    exact range_eq_nil hstop map

theorem range_taken_from_both_ends :
    let word : Entry := ⟨.inline 0x0100000000000002, 5⟩
    let map : SortedMap := ⟨⟨8⟩, [⟨.owned [], 1⟩, ⟨.owned [1, 0], 2⟩, word, ⟨.owned [7], 6⟩], 1, 3⟩
    let sides : List Side := [.back, .front, .back, .front]
    map.Reachable ∧
      Entries.between? (.halfOpen [1] [7]) map.entries = some [⟨.owned [1, 0], 2⟩, word] ∧
      (map.traverseRange [1] [7]).Views [⟨.owned [1, 0], 2⟩, word] ∧
      (map.traverseRange [1] [7]).takes sides = [some word, some ⟨.owned [1, 0], 2⟩, none, none] ∧
      (map.traverseRange [7] [1]).Views [] := by
  intro word map sides
  have hreachable : map.Reachable :=
    ⟨⟨8⟩, .emptyWith ⟨8⟩,
      [.edit 0 (.put [7] 6), .edit 0 (.put [1, 0, 0, 0, 0, 0, 0, 2] 5), .edit 0 (.set [] 1),
        .edit 0 (.put [1, 0] 2)],
      .inr rfl, List.mem_of_getElem? (i := 0) rfl⟩
  obtain ⟨_, _, hranges⟩ := traversals_view_entries hreachable
  obtain ⟨_, hbetween, hviews, _, _⟩ := hranges [1] [7]
  obtain ⟨_, _, hnothing, _, hempty⟩ := hranges [7] [1]
  rw [hempty (by decide)] at hnothing
  exact ⟨hreachable, hbetween, hviews, rfl, hnothing⟩

end SortedMap
end ByteIndex
