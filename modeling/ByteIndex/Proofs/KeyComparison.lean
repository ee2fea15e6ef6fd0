import ByteIndex.Proofs.KeyOrder
/-!
# Keys compare as byte strings

Whatever the forms of two keys are, and whether their bytes would choose these forms or not, every
comparison of the keys is the same comparison of their bytes: the order and the operators that rest on
it, equality, and what a hasher is fed. A key may therefore be compared with a byte string as with any
key that holds it.
-/
namespace ByteIndex.Key

variable {key first second : Key} {left right bytes : Bytes}

theorem lt_iff : first < second ↔ first.bytes < second.bytes :=
  compare_eq_lt_iff first second

theorem le_iff : first ≤ second ↔ first.bytes ≤ second.bytes := by
  change (compare first second).isLE = true ↔ _
  rw [Ordering.isLE_iff_ne_gt, compare_eq_gt_iff, List.not_lt]

theorem beq_iff : (first == second) = true ↔ first.bytes = second.bytes :=
  beq_iff_eq (a := first.bytes)

private theorem bytes_clone (key : Key) : key.clone.bytes = key.bytes := by
  cases key <;> rfl

theorem eq_of_form (hform : first.isInline = second.isInline)
    (hbytes : first.bytes = second.bytes) : first = second := by
  cases first with
  | inline word =>
    cases second with
    | inline other =>
      have heq : compare (Key.inline word) (.inline other) = .eq := (compare_eq_eq_iff _ _).mpr hbytes
      exact congrArg Key.inline (Std.compare_eq_iff_eq.mp heq)
    | owned content => cases hform
  | owned content =>
    cases second with
    | inline other => cases hform
    | owned others => exact congrArg Key.owned hbytes

private theorem existsUnique_word (h : bytes.length = wordBytes) :
    ∃! word, (Key.inline word).bytes = bytes := by
  refine ⟨_, bytes_word h, ?_⟩
  intro other hother
  exact Key.inline.inj (eq_of_form rfl (hother.trans (bytes_word h).symm))

/-- Made of the given bytes: built from them, or copied in either way from a key that holds them. -/
inductive MadeFrom (bytes : Bytes) : Key → Prop where
  | build : MadeFrom bytes (ofBytes bytes)
  | copy (key : Key) (h : key.bytes = bytes) : MadeFrom bytes key.copy
  | clone (key : Key) (h : key.bytes = bytes) : MadeFrom bytes key.clone

private theorem MadeFrom.bytes_eq (h : MadeFrom bytes key) : key.bytes = bytes := by
  cases h with
  | build => exact bytes_ofBytes bytes
  | copy key h => exact (bytes_copy key).trans h
  | clone key h => exact (bytes_clone key).trans h

/-- Two keys stand to each other as two byte strings do, by every comparison that there is. -/
structure ComparesAs (first second : Key) (left right : Bytes) : Prop where
  order : compare first second = compare left right
  converse : compare second first = compare right left
  partialOrder : first.partialCompare second = some (compare left right)
  lt : first < second ↔ left < right
  le : first ≤ second ↔ left ≤ right
  gt : first > second ↔ left > right
  ge : first ≥ second ↔ left ≥ right
  equal : (first == second) = (left == right)
  unequal : (first != second) = (left != right)
  hashed : hash first = hash left ∧ hash second = hash right
  fed : first.hashInputs = left.hashInputs ∧ second.hashInputs = right.hashInputs

private theorem comparesAs (hfirst : first.bytes = left) (hsecond : second.bytes = right) :
    ComparesAs first second left right := by
  subst hfirst hsecond
  exact {
    order := compare_eq first second
    converse := compare_eq second first
    partialOrder := congrArg some (compare_eq first second)
    lt := lt_iff
    le := le_iff
    gt := lt_iff
    ge := le_iff
    equal := rfl
    unequal := rfl
    hashed := ⟨rfl, rfl⟩
    fed := ⟨rfl, rfl⟩ }

private theorem hashInputs_eq_iff :
    first.hashInputs = second.hashInputs ↔ (first == second) = true := by
  rw [beq_iff]
  constructor
  · intro h
    simp only [hashInputs, Bytes.hashInputs, List.cons.injEq, Bytes.HashInput.content.injEq] at h
    exact h.2.1
  · intro h
    rw [hashInputs, hashInputs, h]

/-- The order of keys is a total order up to equal content, and it is the order of byte strings: for
two keys of any form, for a key and the bytes that another one holds, and for all keys made of two
byte strings. -/
theorem order_is_byte_order (first second third : Key) :
    ComparesAs first second first.bytes second.bytes ∧
      (first ≤ second ∨ second ≤ first) ∧
      (first ≤ second → second ≤ third → first ≤ third) ∧
      (first ≤ second → second ≤ first → (first == second) = true) ∧
      ((first == second) = true ↔ compare first second = .eq) ∧
      ((first == second) = true ↔ first.hashInputs = second.hashInputs) ∧
      (∀ slice, second.bytes = slice → ComparesAs first second first.bytes slice) ∧
      (∀ left right, MadeFrom left first → MadeFrom right second →
        ComparesAs first second left right) ∧
      ∀ word : Bytes, word.length = 8 → ∃! number, (Key.inline number).bytes = word := by
  refine ⟨comparesAs rfl rfl, ?total, ?trans, ?antisymm, ?equal, hashInputs_eq_iff.symm, ?slice,
    ?made, fun _ => existsUnique_word⟩
  case total =>
    rw [le_iff, le_iff]
    exact List.le_total first.bytes second.bytes
  case trans =>
    simp only [le_iff]
    exact List.le_trans
  case antisymm =>
    rw [le_iff, le_iff, beq_iff]
    exact List.le_antisymm
  case equal => rw [beq_iff, compare_eq_eq_iff]
  case slice =>
    intro slice hslice
    exact comparesAs rfl hslice
  case made =>
    intro left right hleft hright
    exact comparesAs hleft.bytes_eq hright.bytes_eq

/-- A word that its bytes would not choose comes before owned bytes that would choose a word, and a
copy of the latter takes that form and keeps its place. -/
theorem odd_forms_in_byte_order :
    let word := Key.inline 0x0041414141414141
    let owned := Key.owned [1, 65, 65, 65, 65, 65, 65, 65]
    word.isInline ≠ fitsWord word.bytes ∧ owned.isInline ≠ fitsWord owned.bytes ∧
      word ≤ owned ∧ owned ≤ owned.copy ∧ word ≤ owned.copy ∧
      ComparesAs word owned.copy [0, 65, 65, 65, 65, 65, 65, 65] owned.bytes := by
  intro word owned
  have hword : word ≤ owned := by decide
  have howned : owned ≤ owned.copy := by decide
  obtain ⟨_, _, htrans, _⟩ := order_is_byte_order word owned owned.copy
  obtain ⟨_, _, _, _, _, _, _, hmade, _⟩ := order_is_byte_order word owned.copy owned
  exact ⟨by decide, by decide, hword, howned, htrans hword howned,
    hmade _ _ (.clone word (by decide)) (.copy owned rfl)⟩

end ByteIndex.Key
