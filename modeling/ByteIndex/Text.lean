import ByteIndex.Bytes
/-!
# Texts

Counts are written in base ten without padding. Handles and unprintable bytes are written in base
sixteen with a fixed number of digits, so that equal width makes the text unambiguous. A byte string
is written between quotes with one escape per byte that would be unclear: the usual short forms, and
two hexadecimal digits for every other byte outside printable ASCII. A list of items is written either
on one line, with commas between the items, or with each item on an indented line of its own that a
comma closes.
-/
namespace ByteIndex.Text

/-! ## Numerals -/

/-- A number in base ten, without padding. -/
def decimal (n : Nat) : String :=
  String.ofList (Nat.toDigits 10 n)

/-- The low `width` base-16 digits of a number, most significant first. -/
def hexDigits : Nat → Nat → List Char
  | 0, _ => []
  | width + 1, n => Nat.digitChar (n >>> (4 * width) % 16) :: hexDigits width n

/-- A number in base 16 with exactly `width` lower-case digits. -/
def hex (width n : Nat) : String :=
  String.ofList (hexDigits width n)

theorem length_hexDigits (width n : Nat) : (hexDigits width n).length = width := by
  induction width with
  | zero => rfl
  | succ width ih => simp [hexDigits, ih]

/-! ## Byte literals -/

/-- How one byte is written inside a literal. -/
def escapeByte (byte : UInt8) : String :=
  if byte = 0x09 then "\\t"
  else if byte = 0x0A then "\\n"
  else if byte = 0x0D then "\\r"
  else if byte = 0x22 then "\\\""
  else if byte = 0x27 then "\\'"
  else if byte = 0x5C then "\\\\"
  else if 0x20 ≤ byte && byte ≤ 0x7E then String.singleton (Char.ofUInt8 byte)
  else "\\x" ++ hex 2 byte.toNat

/-- The inside of a byte literal. -/
def escape (bytes : Bytes) : String :=
  String.join (bytes.map escapeByte)

/-- A byte literal with its quotes. -/
def literal (bytes : Bytes) : String :=
  "b\"" ++ escape bytes ++ "\""

/-! ## Lists between brackets -/

inductive Layout where
  | compact
  | indented
deriving DecidableEq

structure Brackets where
  opening : String
  closing : String
  /-- Whether a one-line list has a blank inside each bracket. -/
  spaced : Bool

namespace Brackets

/-- Braces without a name. -/
def braces : Brackets := ⟨"\x7b", "\x7d", false⟩

/-- Braces after a name, for items that are named fields. -/
def fields (name : String) : Brackets := ⟨name ++ " \x7b", "\x7d", true⟩

/-- Parentheses after a name, for items without names. -/
def arguments (name : String) : Brackets := ⟨name ++ "(", ")", false⟩

end Brackets

namespace Layout

/-- A bracketed list in a given layout; without items the brackets stand together. -/
def render (layout : Layout) (brackets : Brackets) (items : List String) : String :=
  match items, layout with
  | [], _ => brackets.opening ++ brackets.closing
  | _, .compact =>
    let blank := if brackets.spaced then " " else ""
    brackets.opening ++ blank ++ ", ".intercalate items ++ blank ++ brackets.closing
  | _, .indented =>
    brackets.opening ++ "\n" ++ String.join (items.map fun item => "    " ++ item ++ ",\n")
      ++ brackets.closing

end Layout
end ByteIndex.Text
