import ByteIndex.Proofs.KeyComparison
import ByteIndex.Proofs.RunningCounters
import ByteIndex.Proofs.SelfDelimiting
/-!
# Descriptions tell maps apart

The description of a key tells its form and its bytes and shows where it ends, so no bytes that a key
may hold pass for the end of it. The description of a map is therefore read back entry by entry: it is
that of another map if and only if both bind the same keys to the same values.
-/
namespace ByteIndex

namespace Key

variable {first second : Key} {rest others : String}

private theorem describe_append (key : Key) (rest : String) :
    key.describe ++ rest =
      (if key.isInline then "Inline(" else "Owned(") ++ (Text.literal key.bytes ++ (")" ++ rest)) := by
  simp only [describe, String.append_assoc]

private theorem describe_append_inj (h : first.describe ++ rest = second.describe ++ others) :
    first = second ∧ rest = others := by
  rw [describe_append, describe_append] at h
  have hform : first.isInline = second.isInline := by
    have hinitial := congrArg (·.toList.head?) h
    cases hfirst : first.isInline <;> cases hsecond : second.isInline <;>
      simp [hfirst, hsecond] at hinitial ⊢
  rw [hform] at h
  obtain ⟨hbytes, hrest⟩ := Text.literal_append_inj ((String.append_right_inj _).mp h)
  exact ⟨eq_of_form hform hbytes, (String.append_right_inj _).mp hrest⟩

private theorem Canonical.eq_ofBytes {key : Key} (h : key.Canonical) : key = ofBytes key.bytes :=
  eq_of_form (by rw [h, isInline_ofBytes]) (bytes_ofBytes _).symm

private theorem describe_ofBytes_append_inj {left right : Bytes}
    (h : (ofBytes left).describe ++ rest = (ofBytes right).describe ++ others) :
    left = right ∧ rest = others := by
  obtain ⟨hkeys, hrest⟩ := describe_append_inj h
  exact ⟨by rw [← bytes_ofBytes left, hkeys, bytes_ofBytes], hrest⟩

private theorem describe_ofBytes_eq_iff (left right : Bytes) :
    (ofBytes left).describe = (ofBytes right).describe ↔ left = right := by
  refine ⟨fun h => ?_, fun h => by rw [h]⟩
  exact (describe_ofBytes_append_inj (congrArg (· ++ "") h)).1

end Key

namespace Entry

private theorem selfDelimiting_describe : Text.SelfDelimiting describe := by
  intro first second rest others hrest hothers h
  simp only [describe, String.append_assoc] at h
  obtain ⟨hkey, hbehind⟩ := Key.describe_append_inj h
  obtain ⟨hvalue, hsame⟩ :=
    Text.selfDelimiting_decimal hrest hothers ((String.append_right_inj _).mp hbehind)
  refine ⟨?_, hsame⟩
  cases first
  cases second
  rw [Entry.mk.injEq]
  exact ⟨hkey, UInt64.toNat_inj.mp hvalue⟩

private theorem describe_append_ne_brace (entry : Entry) (rest : String) :
    entry.describe ++ rest ≠ "\x7d" := by
  intro h
  rw [describe, String.append_assoc, String.append_assoc, Key.describe_append] at h
  have hinitial := congrArg (·.toList.head?) h
  cases hform : entry.key.isInline <;> simp [hform] at hinitial

end Entry

namespace SortedMap

variable {map first second : SortedMap} {key : Bytes} {value : UInt64}

/-- The description of a map tells its entries, with the forms of their keys. -/
theorem describe_eq_iff (layout : Text.Layout) (first second : SortedMap) :
    first.describe layout = second.describe layout ↔ first.entries = second.entries := by
  refine ⟨fun h => ?_, fun h => by rw [describe, describe, h]⟩
  exact layout.render_braces_inj Entry.selfDelimiting_describe Entry.describe_append_ne_brace h

/-- The keys of a map with their values, in ascending order. -/
def bindings (map : SortedMap) : List (Bytes × UInt64) :=
  map.entries.map fun entry => (entry.bytes, entry.value)

private theorem mem_bindings_iff (h : Entries.Sorted map.entries) :
    (key, value) ∈ map.bindings ↔ map.get? key = some value := by
  rw [bindings, List.mem_map, get?, entry?, Option.map_eq_some_iff]
  simp only [Entries.find?_eq_some_iff h, Prod.mk.injEq, and_assoc]

theorem bindings_eq_iff (hfirst : Entries.Sorted first.entries)
    (hsecond : Entries.Sorted second.entries) :
    first.bindings = second.bindings ↔ ∀ key, first.get? key = second.get? key := by
  constructor
  · intro h key
    refine Option.ext fun value => ?_
    rw [← mem_bindings_iff hfirst, ← mem_bindings_iff hsecond, h]
  · intro h
    have hascending {map : SortedMap} (hs : Entries.Sorted map.entries) :
        map.bindings.Pairwise fun before after => before.1 < after.1 := List.pairwise_map.mpr hs
    have hnodup {map : SortedMap} (hs : Entries.Sorted map.entries) : map.bindings.Nodup := by
      refine (hascending hs).imp ?_
      rintro before _ hlt rfl
      exact List.lt_irrefl _ hlt
    have hperm : first.bindings.Perm second.bindings := by
      refine (List.perm_ext_iff_of_nodup (hnodup hfirst) (hnodup hsecond)).mpr fun binding => ?_
      rw [mem_bindings_iff hfirst, mem_bindings_iff hsecond, h]
    refine hperm.eq_of_pairwise ?_ (hascending hfirst) (hascending hsecond)
    intro before after _ _ hlt hgt
    exact absurd hgt (List.lt_asymm hlt)

private theorem Reachable.tallied (h : Reachable map) : Tallied map :=
  h.induction Tallied.emptyWith Tallied.apply

/-- The entries of a reachable map are its bindings, as each key has the form that its bytes choose. -/
theorem Reachable.entries_eq (h : Reachable map) :
    map.entries = map.bindings.map fun binding => ⟨.ofBytes binding.1, binding.2⟩ := by
  have hentry : ∀ entry ∈ map.entries, entry = ⟨.ofBytes entry.bytes, entry.value⟩ := by
    intro entry hmem
    have hkey : entry.key = .ofBytes entry.bytes :=
      (h.tallied.canonical entry.key (List.mem_map_of_mem hmem)).eq_ofBytes
    rw [← hkey]
  calc map.entries = map.entries.map id := (List.map_id _).symm
    _ = map.entries.map fun entry => ⟨.ofBytes entry.bytes, entry.value⟩ :=
      List.map_congr_left hentry
    _ = map.bindings.map fun binding => ⟨.ofBytes binding.1, binding.2⟩ := by
      rw [bindings, List.map_map]
      rfl

/-- The description of a map determines its bindings and is determined by them, in either layout and
whatever limits and pasts two maps have. That of a key determines its bytes, and no bytes run on into
what stands behind the key. -/
theorem description_determines_bindings (hfirst : Reachable first) (hsecond : Reachable second) :
    (∀ layout, first.describe layout = second.describe layout ↔
      first.bindings = second.bindings) ∧
    (first.bindings = second.bindings ↔ ∀ key, first.get? key = second.get? key) ∧
    (∀ left right, (Key.ofBytes left).describe = (Key.ofBytes right).describe ↔ left = right) ∧
    ∀ left right rest others,
      (Key.ofBytes left).describe ++ rest = (Key.ofBytes right).describe ++ others →
        left = right ∧ rest = others := by
  refine ⟨fun layout => ?_, bindings_eq_iff hfirst.sorted hsecond.sorted,
    Key.describe_ofBytes_eq_iff, fun _ _ _ _ => Key.describe_ofBytes_append_inj⟩
  rw [describe_eq_iff]
  constructor
  · intro h
    rw [bindings, bindings, h]
  · intro h
    rw [hfirst.entries_eq, hsecond.entries_eq, h]

/-- A key whose bytes are those of a whole description, closing quote, comma and a second entry
included, against the two keys that it imitates; and these two once more, in a map with another limit
and another past. -/
theorem imitation_described_apart :
    let imitation : Bytes :=
      [97, 34, 41, 58, 32, 49, 44, 32, 79, 119, 110, 101, 100, 40, 98, 34, 98]
    let lone : SortedMap := ⟨.unbounded, [⟨.owned imitation, 7⟩], 0, 17⟩
    let pair : SortedMap := ⟨.unbounded, [⟨.owned [97], 1⟩, ⟨.owned [98], 7⟩], 0, 2⟩
    let twin : SortedMap := ⟨⟨1⟩, [⟨.owned [97], 1⟩, ⟨.owned [98], 7⟩], 0, 2⟩
    lone.Reachable ∧ pair.Reachable ∧ twin.Reachable ∧
      ∀ layout, lone.describe layout ≠ pair.describe layout ∧
        pair.describe layout = twin.describe layout := by
  intro imitation lone pair twin
  have hlone : lone.Reachable :=
    ⟨.unbounded, empty, [.edit 0 (.put imitation 7)], .inl rfl, List.mem_of_getElem? (i := 0) rfl⟩
  have hpair : pair.Reachable :=
    ⟨.unbounded, empty, [.edit 0 (.put [98] 7), .edit 0 (.put [97] 1)], .inl rfl,
      List.mem_of_getElem? (i := 0) rfl⟩
  have htwin : twin.Reachable :=
    ⟨⟨1⟩, .emptyWith ⟨1⟩,
      [.edit 0 (.put [97] 2), .edit 0 (.set [99] 3), .edit 0 (.erase [99]), .edit 0 (.put [98] 7),
        .edit 0 (.set [97] 1)],
      .inr rfl, List.mem_of_getElem? (i := 0) rfl⟩
  refine ⟨hlone, hpair, htwin, fun layout => ⟨?_, ?_⟩⟩
  · rw [Ne, (description_determines_bindings hlone hpair).1 layout]
    decide
  · exact ((description_determines_bindings hpair htwin).1 layout).mpr rfl

end SortedMap
end ByteIndex
