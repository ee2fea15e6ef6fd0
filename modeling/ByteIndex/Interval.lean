import ByteIndex.Bytes
/-!
# Intervals of byte strings

An interval has two bounds, each of which takes part in it, does not, or is missing. An interval is
proper if its bounds are in order and do not exclude the same string from both sides. A half-open
interval whose end is not after its start is clamped to an empty one at the start, which is proper.
-/
namespace ByteIndex

inductive Bound where
  | included (key : Bytes)
  | excluded (key : Bytes)
  | unbounded
deriving DecidableEq

structure Interval where
  lower : Bound
  upper : Bound
deriving DecidableEq

namespace Interval

def contains (interval : Interval) (key : Bytes) : Bool :=
  (match interval.lower with
    | .included lower => decide (lower ≤ key)
    | .excluded lower => decide (lower < key)
    | .unbounded => true) &&
  (match interval.upper with
    | .included upper => decide (key ≤ upper)
    | .excluded upper => decide (key < upper)
    | .unbounded => true)

def isProper (interval : Interval) : Bool :=
  match interval.lower, interval.upper with
  | .unbounded, _ | _, .unbounded => true
  | .excluded lower, .excluded upper => decide (lower < upper)
  | .included lower, .included upper | .included lower, .excluded upper
  | .excluded lower, .included upper => decide (lower ≤ upper)

/-- The strings from `start` up to but not including `stop`, or none if these are out of order. -/
def halfOpen (start stop : Bytes) : Interval :=
  ⟨.included start, .excluded (if start < stop then stop else start)⟩

/-- The strings after a given one. -/
def above (key : Bytes) : Interval :=
  ⟨.excluded key, .unbounded⟩

/-- The strings before a given one. -/
def below (key : Bytes) : Interval :=
  ⟨.unbounded, .excluded key⟩

theorem contains_above (key other : Bytes) : (above key).contains other = decide (key < other) := by
  simp [contains, above]

theorem contains_below (key other : Bytes) : (below key).contains other = decide (other < key) := by
  simp [contains, below]

theorem isProper_halfOpen (start stop : Bytes) : (halfOpen start stop).isProper = true := by
  by_cases h : start < stop
  · simpa [isProper, halfOpen, h] using List.le_of_lt h
  · simp [isProper, halfOpen, h]

theorem contains_halfOpen (start stop key : Bytes) :
    (halfOpen start stop).contains key = (decide (start ≤ key) && decide (key < stop)) := by
  by_cases h : start < stop
  · simp [contains, halfOpen, h]
  · have hs : stop ≤ start := List.not_lt.mp h
    by_cases hk : start ≤ key
    · have hl : ¬ key < start := List.not_lt.mpr hk
      have hu : ¬ key < stop := List.not_lt.mpr (List.le_trans hs hk)
      simp [contains, halfOpen, h, hl, hu]
    · simp [contains, halfOpen, h, hk]

end Interval
end ByteIndex
