import ByteIndex.SortedMap.Basic
/-!
# Memory footprint

What a map says about its memory: how many keys have which form, the bytes that keys own, and a total
that counts one fixed slot per entry besides. The structure that orders the entries is not counted.
-/
namespace ByteIndex

structure Footprint where
  keyCount : Nat
  inlineCount : Nat
  ownedCount : Nat
  ownedBytes : Nat
  totalBytes : Nat

namespace Footprint

/-- Bytes of one entry without what its key owns: sixteen for the key and eight for the value. -/
def entryBytes : Nat := 24

/-- The mean over all keys; zero where there is none. -/
def meanBytes (footprint : Footprint) : Float :=
  if footprint.keyCount = 0 then 0.0
  else Float.ofNat footprint.totalBytes / Float.ofNat footprint.keyCount

end Footprint

/-- The footprint by the running counters. -/
def SortedMap.footprint (map : SortedMap) : Footprint where
  keyCount := map.size
  inlineCount := map.inlineCount
  ownedCount := map.size - map.inlineCount
  ownedBytes := map.ownedBytes
  totalBytes := map.size * Footprint.entryBytes + map.ownedBytes

end ByteIndex
