import ByteIndex.Config
import ByteIndex.Interval
import ByteIndex.SortedMap.Entries
/-!
# Sorted maps

A map from byte strings to 64-bit values keeps its entries in ascending key order, together with two
running counters: how many of its keys are held as words, and how many bytes the others own. The
length limit of its configuration is checked when a key is new; an overwrite keeps the stored key.
-/
namespace ByteIndex

structure SortedMap where
  config : Config
  entries : List Entry
  inlineCount : Nat
  ownedBytes : Nat

namespace SortedMap

/-- The empty map of a configuration that has not been checked. -/
def emptyWith (config : Config) : SortedMap :=
  ⟨config, [], 0, 0⟩

/-- The empty map without a limit on its keys. -/
def empty : SortedMap :=
  emptyWith .unbounded

/-- The empty map of a valid configuration. -/
def create (config : Config) : Except Error SortedMap :=
  match config.validate with
  | .error error => .error error
  | .ok () => .ok (emptyWith config)

def size (map : SortedMap) : Nat :=
  map.entries.length

def isEmpty (map : SortedMap) : Bool :=
  map.entries.isEmpty

/-- The entry under a key. -/
def entry? (map : SortedMap) (key : Bytes) : Option Entry :=
  Entries.find? key map.entries

def get? (map : SortedMap) (key : Bytes) : Option UInt64 :=
  (map.entry? key).map (·.value)

def contains (map : SortedMap) (key : Bytes) : Bool :=
  (map.entry? key).isSome

/-- Take a new entry in and count its key. -/
def adopt (map : SortedMap) (entry : Entry) : SortedMap :=
  { map with
    entries := Entries.insert entry map.entries
    inlineCount := if entry.key.isInline then map.inlineCount + 1 else map.inlineCount
    ownedBytes :=
      if entry.key.isInline then map.ownedBytes
      else map.ownedBytes + entry.key.ownedBytes }

/-- Let a stored entry go and discount its key. -/
def release (map : SortedMap) (entry : Entry) : SortedMap :=
  { map with
    entries := Entries.remove entry.bytes map.entries
    inlineCount := if entry.key.isInline then map.inlineCount - 1 else map.inlineCount
    ownedBytes :=
      if entry.key.isInline then map.ownedBytes
      else map.ownedBytes - entry.key.ownedBytes }

/-- Bind a key to a value; the answer is the value that it had. -/
def put (map : SortedMap) (key : Bytes) (value : UInt64) :
    Except Error (Option UInt64 × SortedMap) :=
  match map.entry? key with
  | some entry =>
    .ok (some entry.value, { map with entries := Entries.overwrite key value map.entries })
  | none =>
    match map.config.allow key with
    | .error error => .error error
    | .ok () => .ok (none, map.adopt ⟨.ofBytes key, value⟩)

/-- Bind a key to a value. -/
def set (map : SortedMap) (key : Bytes) (value : UInt64) : Except Error SortedMap :=
  (map.put key value).map (·.2)

/-- Unbind a key; the answer is the value that it had. -/
def erase (map : SortedMap) (key : Bytes) : Option UInt64 × SortedMap :=
  match map.entry? key with
  | some entry => (some entry.value, map.release entry)
  | none => (none, map)

/-- Unbind every key. -/
def clear (map : SortedMap) : SortedMap :=
  { map with entries := [], inlineCount := 0, ownedBytes := 0 }

/-- The entries whose keys lie in an interval, in ascending order. -/
def within (map : SortedMap) (interval : Interval) : List Entry :=
  map.entries.filter fun entry => interval.contains entry.bytes

/-- The entries from `start` up to but not including `stop`. -/
def range (map : SortedMap) (start stop : Bytes) : List Entry :=
  map.within (.halfOpen start stop)

/-- The smallest key. -/
def least? (map : SortedMap) : Option Key :=
  map.entries.head?.map (·.key)

/-- The smallest key after a given one. -/
def successor? (map : SortedMap) (key : Bytes) : Option Key :=
  (map.within (.above key)).head?.map (·.key)

/-- The greatest key before a given one. -/
def predecessor? (map : SortedMap) (key : Bytes) : Option Key :=
  (map.within (.below key)).getLast?.map (·.key)

/-- A map is described by its entries in order between braces. -/
def describe (layout : Text.Layout) (map : SortedMap) : String :=
  layout.render .braces (map.entries.map Entry.describe)

theorem create_eq_ok_iff {config : Config} {map : SortedMap} :
    create config = .ok map ↔ 0 < config.maxKeyLength ∧ map = emptyWith config := by
  rw [create, Config.validate]
  split
  · rename_i hvalid
    split at hvalid <;> simp_all
  · rename_i hvalid
    split at hvalid
    · cases hvalid
    · rename_i hlimit
      simp [Nat.pos_of_ne_zero hlimit, eq_comm]

theorem config_put {map next : SortedMap} {key : Bytes} {value : UInt64} {old : Option UInt64}
    (h : map.put key value = .ok (old, next)) : next.config = map.config := by
  unfold put at h
  split at h
  · cases h
    rfl
  · split at h
    · cases h
    · cases h
      rfl

theorem config_erase (map : SortedMap) (key : Bytes) : (map.erase key).2.config = map.config := by
  unfold erase
  split <;> rfl

end SortedMap
end ByteIndex
