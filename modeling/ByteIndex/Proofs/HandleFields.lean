import ByteIndex.Handle
/-!
# Fields of a handle

The word of a handle is read as a number with three digits of mixed width. Packing and reading the
fields are inverse, so a handle is determined by its kind, its generation and its index.
-/
namespace ByteIndex.Handle

theorem eq_of_raw {first second : Handle} (h : first.raw = second.raw) : first = second := by
  cases first
  cases second
  exact congrArg Handle.mk h

theorem toNat_tag (handle : Handle) :
    handle.tag.toNat = handle.raw.toNat / indexCount / (lastGeneration + 1) := by
  have hraw := handle.raw.toNat_lt
  rw [tag, UInt64.toNat_toUInt8, UInt64.toNat_shiftRight, Nat.shiftRight_eq_div_pow,
    Nat.div_div_eq_div_mul]
  exact Nat.mod_eq_of_lt (by change handle.raw.toNat / 2 ^ 56 < 2 ^ 8; omega)

theorem generation_eq (handle : Handle) :
    handle.generation = handle.raw.toNat / indexCount % (lastGeneration + 1) := by
  rw [generation, UInt64.toNat_and, UInt64.toNat_shiftRight, Nat.shiftRight_eq_div_pow]
  exact Nat.and_two_pow_sub_one_eq_mod (handle.raw.toNat / 2 ^ 32) 24

theorem index_eq (handle : Handle) : handle.index = handle.raw.toNat % indexCount := by
  rw [index, UInt64.toNat_and]
  exact Nat.and_two_pow_sub_one_eq_mod handle.raw.toNat 32

theorem generation_le (handle : Handle) : handle.generation ≤ lastGeneration := by
  rw [generation_eq]
  exact Nat.lt_succ_iff.mp (Nat.mod_lt _ (Nat.succ_pos lastGeneration))

theorem index_lt (handle : Handle) : handle.index < indexCount := by
  rw [index_eq]
  exact Nat.mod_lt _ (by decide)

theorem toNat_raw_pack (tag : UInt8) {generation index : Nat}
    (hg : generation ≤ lastGeneration) (hi : index < indexCount) :
    (pack tag generation index).raw.toNat =
      ((lastGeneration + 1) * tag.toNat + generation) * indexCount + index := by
  have htag := tag.toNat_lt
  rw [lastGeneration] at hg ⊢
  rw [indexCount] at hi ⊢
  have hhigh : (tag.toUInt64 <<< 56).toNat = 2 ^ 56 * tag.toNat := by
    rw [UInt64.toNat_shiftLeft, UInt8.toNat_toUInt64, Nat.shiftLeft_eq]
    change tag.toNat * 2 ^ 56 % 2 ^ 64 = _
    omega
  have hmiddle : (UInt64.ofNat generation <<< 32).toNat = 2 ^ 32 * generation := by
    rw [UInt64.toNat_shiftLeft, UInt64.toNat_ofNat', Nat.shiftLeft_eq]
    change generation % 2 ^ 64 * 2 ^ 32 % 2 ^ 64 = _
    omega
  have hlow : (UInt64.ofNat index).toNat = index := by
    rw [UInt64.toNat_ofNat']
    omega
  have hfactor : 2 ^ 56 * tag.toNat + 2 ^ 32 * generation =
      2 ^ 32 * (2 ^ 24 * tag.toNat + generation) := by omega
  rw [pack, UInt64.toNat_or, UInt64.toNat_or, hhigh, hmiddle, hlow,
    ← Nat.two_pow_add_eq_or_of_lt (by omega : 2 ^ 32 * generation < 2 ^ 56), hfactor,
    ← Nat.two_pow_add_eq_or_of_lt (by omega : index < 2 ^ 32)]
  omega

theorem tag_pack (tag : UInt8) {generation index : Nat}
    (hg : generation ≤ lastGeneration) (hi : index < indexCount) :
    (pack tag generation index).tag = tag := by
  apply UInt8.toNat_inj.mp
  rw [toNat_tag, toNat_raw_pack tag hg hi]
  rw [lastGeneration] at hg ⊢
  rw [indexCount] at hi ⊢
  omega

theorem generation_pack (tag : UInt8) {generation index : Nat}
    (hg : generation ≤ lastGeneration) (hi : index < indexCount) :
    (pack tag generation index).generation = generation := by
  rw [generation_eq, toNat_raw_pack tag hg hi]
  rw [lastGeneration] at hg ⊢
  rw [indexCount] at hi ⊢
  omega

theorem index_pack (tag : UInt8) {generation index : Nat}
    (hg : generation ≤ lastGeneration) (hi : index < indexCount) :
    (pack tag generation index).index = index := by
  rw [index_eq, toNat_raw_pack tag hg hi, Nat.mul_add_mod_of_lt hi]

theorem pack_inj {first second : UInt8} {generation generation' index index' : Nat}
    (hg : generation ≤ lastGeneration) (hi : index < indexCount)
    (hg' : generation' ≤ lastGeneration) (hi' : index' < indexCount)
    (h : pack first generation index = pack second generation' index') :
    first = second ∧ generation = generation' ∧ index = index' := by
  refine ⟨?_, ?_, ?_⟩
  · rw [← tag_pack first hg hi, h, tag_pack second hg' hi']
  · rw [← generation_pack first hg hi, h, generation_pack second hg' hi']
  · rw [← index_pack first hg hi, h, index_pack second hg' hi']

theorem eq_of_fields {first second : Handle} (ht : first.tag = second.tag)
    (hg : first.generation = second.generation) (hi : first.index = second.index) :
    first = second := by
  have htag := congrArg UInt8.toNat ht
  simp only [toNat_tag, generation_eq, index_eq, indexCount, lastGeneration] at htag hg hi
  exact eq_of_raw (UInt64.toNat_inj.mp (by omega))

theorem pack_fields (handle : Handle) :
    pack handle.tag handle.generation handle.index = handle := by
  have hg := handle.generation_le
  have hi := handle.index_lt
  exact eq_of_fields (tag_pack _ hg hi) (generation_pack _ hg hi) (index_pack _ hg hi)

/-- The handle that the same slot issued one generation earlier. -/
def previous (handle : Handle) : Handle :=
  pack handle.tag (handle.generation - 1) handle.index

theorem tag_previous (handle : Handle) : handle.previous.tag = handle.tag :=
  tag_pack _ (Nat.le_trans (Nat.sub_le _ _) handle.generation_le) handle.index_lt

theorem generation_previous (handle : Handle) :
    handle.previous.generation = handle.generation - 1 :=
  generation_pack _ (Nat.le_trans (Nat.sub_le _ _) handle.generation_le) handle.index_lt

theorem index_previous (handle : Handle) : handle.previous.index = handle.index :=
  index_pack _ (Nat.le_trans (Nat.sub_le _ _) handle.generation_le) handle.index_lt

end ByteIndex.Handle
