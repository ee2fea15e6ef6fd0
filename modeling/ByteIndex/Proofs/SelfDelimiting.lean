import ByteIndex.Text
import Mathlib.Algebra.Order.Ring.Nat
/-!
# Texts that show where they end

A value can be read back from its text if the text shows where it ends, whatever stands behind it. A
numeral of fixed width and a byte literal always do; a numeral in base ten does where no digit follows.
A bracketed list of items that do is read back item by item, in either layout.
-/
namespace ByteIndex.Text

variable {α : Type} {rest others : String}

/-- The text begins with something that does not go on with a numeral. -/
def EndsNumeral (text : String) : Prop :=
  text.toList.head?.any (!·.isDigit) = true

private theorem EndsNumeral.exists_cons {text : String} (h : EndsNumeral text) :
    ∃ char chars, text.toList = char :: chars ∧ char.isDigit = false := by
  rw [EndsNumeral] at h
  cases hchars : text.toList with
  | nil => simp [hchars] at h
  | cons char chars => exact ⟨char, chars, rfl, by simpa [hchars] using h⟩

theorem EndsNumeral.append {text : String} (h : EndsNumeral text) (rest : String) :
    EndsNumeral (text ++ rest) := by
  obtain ⟨char, chars, hchars, hdigit⟩ := h.exists_cons
  simp [EndsNumeral, hchars, hdigit]

/-- The text of a value tells the value and shows where it ends, if what follows begins with something
other than a digit. -/
def SelfDelimiting (write : α → String) : Prop :=
  ∀ ⦃first second : α⦄ ⦃rest others : String⦄, EndsNumeral rest → EndsNumeral others →
    write first ++ rest = write second ++ others → first = second ∧ rest = others

/-! ## Numerals -/

private theorem takeWhile_decimal (n : Nat) (h : EndsNumeral rest) :
    (decimal n ++ rest).toList.takeWhile Char.isDigit = Nat.toDigits 10 n := by
  have hdigits : ∀ char ∈ Nat.toDigits 10 n, char.isDigit = true := fun _ hmem =>
    Nat.isDigit_of_mem_toDigits (by decide) (Nat.le_refl 10) hmem
  obtain ⟨char, chars, hchars, hchar⟩ := h.exists_cons
  simp [decimal, hchars, hchar, List.takeWhile_append_of_pos hdigits]

theorem selfDelimiting_decimal : SelfDelimiting decimal := by
  intro first second rest others hrest hothers h
  have hdigits : Nat.toDigits 10 first = Nat.toDigits 10 second := by
    rw [← takeWhile_decimal first hrest, h, takeWhile_decimal second hothers]
  have hnumber : first = second := by
    calc first = Nat.ofDigitChars 10 (Nat.toDigits 10 first) 0 := Nat.ofDigitChars_ten_toDigits.symm
      _ = Nat.ofDigitChars 10 (Nat.toDigits 10 second) 0 := by rw [hdigits]
      _ = second := Nat.ofDigitChars_ten_toDigits
  subst hnumber
  exact ⟨rfl, (String.append_right_inj _).mp h⟩

private theorem digitChar_inj : ∀ first < 16, ∀ second < 16,
    Nat.digitChar first = Nat.digitChar second → first = second := by
  decide

private theorem mod_of_hexDigits {width first second : Nat}
    (h : hexDigits width first = hexDigits width second) :
    first % 16 ^ width = second % 16 ^ width := by
  induction width with
  | zero => simp [Nat.mod_one]
  | succ width ih =>
    obtain ⟨hhead, htail⟩ := List.cons.inj h
    have hshift (n : Nat) : n >>> (4 * width) = n / 16 ^ width := by
      rw [Nat.shiftRight_eq_div_pow, Nat.pow_mul]
    have hdigit := digitChar_inj _ (Nat.mod_lt _ (by decide)) _ (Nat.mod_lt _ (by decide)) hhead
    rw [hshift, hshift] at hdigit
    rw [Nat.pow_succ, Nat.mod_mul, Nat.mod_mul, ih htail, hdigit]

theorem hex_append_inj {width first second : Nat}
    (h : hex width first ++ rest = hex width second ++ others) :
    first % 16 ^ width = second % 16 ^ width ∧ rest = others := by
  have hchars := congrArg String.toList h
  rw [String.toList_append, String.toList_append, hex, hex, String.toList_ofList,
    String.toList_ofList] at hchars
  obtain ⟨hdigits, hrest⟩ := List.append_inj hchars (by rw [length_hexDigits, length_hexDigits])
  exact ⟨mod_of_hexDigits hdigits, String.toList_inj.mp hrest⟩

/-! ## Byte literals -/

/-- The bytes with a short escape, each with the character that stands for it. -/
def shortEscapes : List (UInt8 × Char) :=
  [(0x09, 't'), (0x0A, 'n'), (0x0D, 'r'), (0x22, '"'), (0x27, '\''), (0x5C, '\\')]

/-- The characters that a byte is written with: itself, a short escape or two digits. -/
inductive Escaped (byte : UInt8) : List Char → Prop where
  | plain (hescape : Char.ofUInt8 byte ≠ '\\') (hquote : Char.ofUInt8 byte ≠ '"') :
    Escaped byte [Char.ofUInt8 byte]
  | short (mark : Char) (hmark : (byte, mark) ∈ shortEscapes) : Escaped byte ['\\', mark]
  | coded : Escaped byte ('\\' :: 'x' :: hexDigits 2 byte.toNat)

private theorem escaped_escapeByte (byte : UInt8) : Escaped byte (escapeByte byte).toList := by
  unfold escapeByte
  split_ifs with htab hline hreturn hquote hmark hescape hplain
  · subst htab
    exact .short 't' (by decide)
  · subst hline
    exact .short 'n' (by decide)
  · subst hreturn
    exact .short 'r' (by decide)
  · subst hquote
    exact .short '"' (by decide)
  · subst hmark
    exact .short '\'' (by decide)
  · subst hescape
    exact .short '\\' (by decide)
  · have hchar (char : Char) (h : Char.ofUInt8 byte = char) : byte.toNat = char.toNat := by
      rw [← h]
      rfl
    rw [String.toList_singleton]
    refine .plain (fun h => hescape ?_) (fun h => hquote ?_)
    · exact UInt8.toNat_inj.mp (hchar _ h)
    · exact UInt8.toNat_inj.mp (hchar _ h)
  · rw [String.toList_append, hex, String.toList_ofList, String.toList_ofList]
    exact .coded

private theorem ofUInt8_inj {first second : UInt8} (h : Char.ofUInt8 first = Char.ofUInt8 second) :
    first = second :=
  UInt8.toNat_inj.mp (congrArg Char.toNat h)

private theorem shortEscapes_inj : ∀ first ∈ shortEscapes, ∀ second ∈ shortEscapes,
    first.2 = second.2 → first.1 = second.1 := by
  decide

private theorem mark_ne_of_short : ∀ short ∈ shortEscapes, short.2 ≠ 'x' := by
  decide

namespace Escaped

variable {first second : UInt8} {chars others rest more : List Char}

/-- The first two characters tell how a byte is written, so they tell where it ends. -/
theorem append_inj (hfirst : Escaped first chars) (hsecond : Escaped second others)
    (h : chars ++ rest = others ++ more) : first = second ∧ rest = more := by
  cases hfirst with
  | plain hescape =>
    cases hsecond with
    | plain => exact (List.cons.inj h).imp_left ofUInt8_inj
    | short | coded => exact absurd (List.cons.inj h).1 hescape
  | short mark hmark =>
    cases hsecond with
    | plain hescape => exact absurd (List.cons.inj h).1.symm hescape
    | short other hother =>
      obtain ⟨hsame, hrest⟩ := List.cons.inj (List.cons.inj h).2
      exact ⟨shortEscapes_inj _ hmark _ hother hsame, hrest⟩
    | coded =>
      obtain ⟨hsame, _⟩ := List.cons.inj (List.cons.inj h).2
      exact absurd hsame (mark_ne_of_short _ hmark)
  | coded =>
    cases hsecond with
    | plain hescape => exact absurd (List.cons.inj h).1.symm hescape
    | short other hother =>
      obtain ⟨hsame, _⟩ := List.cons.inj (List.cons.inj h).2
      exact absurd hsame.symm (mark_ne_of_short _ hother)
    | coded =>
      obtain ⟨_, hdigits⟩ := List.cons.inj (List.cons.inj h).2
      obtain ⟨hsame, hrest⟩ := List.append_inj hdigits (by rw [length_hexDigits, length_hexDigits])
      have hlow (byte : UInt8) : byte.toNat % 16 ^ 2 = byte.toNat := Nat.mod_eq_of_lt byte.toNat_lt
      have hmod := mod_of_hexDigits hsame
      rw [hlow, hlow] at hmod
      exact ⟨UInt8.toNat_inj.mp hmod, hrest⟩

private theorem ne_quote (h : Escaped first chars) : chars ++ rest ≠ '"' :: more := by
  cases h with
  | plain _ hquote => exact fun heq => hquote (List.cons.inj heq).1
  | short | coded => exact fun heq => absurd (List.cons.inj heq).1 (by decide)

end Escaped

private theorem escape_cons (byte : UInt8) (bytes : Bytes) :
    escape (byte :: bytes) = escapeByte byte ++ escape bytes := by
  rw [escape, List.map_cons, String.join_cons, ← escape]

theorem escapeByte_append_inj {first second : UInt8}
    (h : escapeByte first ++ rest = escapeByte second ++ others) :
    first = second ∧ rest = others := by
  have hchars := congrArg String.toList h
  rw [String.toList_append, String.toList_append] at hchars
  have hinj := (escaped_escapeByte first).append_inj (escaped_escapeByte second) hchars
  exact hinj.imp_right String.toList_inj.mp

private theorem escapeByte_append_ne_quote (byte : UInt8) :
    escapeByte byte ++ rest ≠ "\"" ++ others := by
  intro h
  have hchars := congrArg String.toList h
  rw [String.toList_append, String.toList_append] at hchars
  exact (escaped_escapeByte byte).ne_quote hchars

theorem escape_quote_append_inj {first second : Bytes}
    (h : escape first ++ ("\"" ++ rest) = escape second ++ ("\"" ++ others)) :
    first = second ∧ rest = others := by
  induction first generalizing second with
  | nil =>
    cases second with
    | nil => exact ⟨rfl, (String.append_right_inj _).mp ((String.append_right_inj _).mp h)⟩
    | cons byte bytes =>
      rw [escape_cons, String.append_assoc] at h
      exact absurd h.symm (escapeByte_append_ne_quote byte)
  | cons byte bytes ih =>
    cases second with
    | nil =>
      rw [escape_cons, String.append_assoc] at h
      exact absurd h (escapeByte_append_ne_quote byte)
    | cons other more =>
      rw [escape_cons, escape_cons, String.append_assoc, String.append_assoc] at h
      obtain ⟨rfl, htail⟩ := escapeByte_append_inj h
      exact (ih htail).imp_left (congrArg (byte :: ·))

theorem literal_append_inj {first second : Bytes}
    (h : literal first ++ rest = literal second ++ others) : first = second ∧ rest = others := by
  simp only [literal, String.append_assoc] at h
  exact escape_quote_append_inj ((String.append_right_inj _).mp h)

/-! ## Lists between braces -/

namespace Layout

/-- What stands between the opening brace and the first item. -/
def lead : Layout → String
  | .compact => ""
  | .indented => "\n    "

/-- What stands between two items. -/
def between : Layout → String
  | .compact => ", "
  | .indented => ",\n    "

/-- What stands behind the last item. -/
def ending : Layout → String
  | .compact => "\x7d"
  | .indented => ",\n\x7d"

/-- What stands behind the first item of a list with the given other items. -/
def behind (layout : Layout) : List String → String
  | [] => layout.ending
  | item :: items => layout.between ++ item ++ layout.behind items

private theorem intercalate_append_ending (item : String) (items : List String) :
    ", ".intercalate (item :: items) ++ ending .compact = item ++ behind .compact items := by
  induction items generalizing item with
  | nil => rw [String.intercalate_singleton, behind]
  | cons other others ih =>
    rw [String.intercalate_cons_cons, String.append_assoc, ih, behind, between]
    simp only [String.append_assoc]

theorem join_append_brace (item : String) (items : List String) :
    "\n" ++ (String.join ((item :: items).map fun item => "    " ++ item ++ ",\n") ++ "\x7d") =
      lead .indented ++ (item ++ behind .indented items) := by
  induction items generalizing item with
  | nil => simp [← String.toList_inj, behind, ending, lead]
  | cons other others ih =>
    have hlead : lead .indented = "\n" ++ "    " := rfl
    have hbetween : between .indented = "," ++ lead .indented := rfl
    have hcomma : ",\n" = "," ++ "\n" := rfl
    rw [List.map_cons, String.join_cons, behind, hbetween, hcomma]
    simp only [String.append_assoc]
    rw [← ih other, hlead]
    simp only [String.append_assoc, hcomma]

private theorem render_cons (layout : Layout) (item : String) (items : List String) :
    layout.render .braces (item :: items) =
      "\x7b" ++ (layout.lead ++ (item ++ layout.behind items)) := by
  cases layout with
  | compact =>
    rw [← intercalate_append_ending]
    simp [render, Brackets.braces, String.append_assoc, lead, ending]
  | indented =>
    rw [← join_append_brace]
    simp [← String.toList_inj, render, Brackets.braces]

private theorem render_nil (layout : Layout) :
    layout.render .braces [] = "\x7b" ++ "\x7d" := by
  cases layout <;> rfl

private theorem endsNumeral_behind (layout : Layout) (items : List String) :
    EndsNumeral (layout.behind items) := by
  cases items with
  | nil => cases layout <;> exact rfl
  | cons item items =>
    rw [behind, String.append_assoc]
    refine EndsNumeral.append ?_ _
    cases layout <;> exact rfl

private theorem ending_ne_between (layout : Layout) (rest : String) :
    layout.ending ≠ layout.between ++ rest := by
  intro h
  cases layout <;> simpa [ending, between] using congrArg String.toList h

private theorem behind_inj {write : α → String} (hwrite : SelfDelimiting write) (layout : Layout)
    {first second : List α}
    (h : layout.behind (first.map write) = layout.behind (second.map write)) : first = second := by
  induction first generalizing second with
  | nil =>
    cases second with
    | nil => rfl
    | cons other others =>
      simp only [List.map_cons, List.map_nil, behind, String.append_assoc] at h
      exact absurd h (layout.ending_ne_between _)
  | cons item items ih =>
    cases second with
    | nil =>
      simp only [List.map_cons, List.map_nil, behind, String.append_assoc] at h
      exact absurd h.symm (layout.ending_ne_between _)
    | cons other others =>
      simp only [List.map_cons, behind, String.append_assoc] at h
      obtain ⟨rfl, hrest⟩ := hwrite (layout.endsNumeral_behind _) (layout.endsNumeral_behind _)
        ((String.append_right_inj layout.between).mp h)
      rw [ih hrest]

private theorem brace_ne_lead {write : α → String}
    (hopen : ∀ item rest, write item ++ rest ≠ "\x7d")
    (layout : Layout) (item : α) (rest : String) :
    "\x7d" ≠ layout.lead ++ (write item ++ rest) := by
  intro h
  cases layout with
  | compact => exact hopen item rest (by simpa [lead] using h.symm)
  | indented => simpa [lead] using congrArg String.toList h

/-- A list between braces is read back from its text, in either layout. -/
theorem render_braces_inj {write : α → String} (hwrite : SelfDelimiting write)
    (hopen : ∀ item rest, write item ++ rest ≠ "\x7d") (layout : Layout) {first second : List α}
    (h : layout.render .braces (first.map write) = layout.render .braces (second.map write)) :
    first = second := by
  cases first with
  | nil =>
    cases second with
    | nil => rfl
    | cons other others =>
      rw [List.map_nil, List.map_cons, render_nil, render_cons] at h
      exact absurd ((String.append_right_inj _).mp h) (brace_ne_lead hopen layout other _)
  | cons item items =>
    cases second with
    | nil =>
      rw [List.map_nil, List.map_cons, render_nil, render_cons] at h
      exact absurd ((String.append_right_inj _).mp h).symm (brace_ne_lead hopen layout item _)
    | cons other others =>
      rw [List.map_cons, List.map_cons, render_cons, render_cons] at h
      have hitems := (String.append_right_inj _).mp ((String.append_right_inj _).mp h)
      obtain ⟨rfl, hrest⟩ :=
        hwrite (layout.endsNumeral_behind _) (layout.endsNumeral_behind _) hitems
      rw [layout.behind_inj hwrite hrest]

end Layout
end ByteIndex.Text
