import Mathlib.Data.List.DropRight

/-! # C strings

What a `const char*` points to, up to the terminating null character, and the character classes of
`isspace` and `isdigit` in the C locale. The scanners of the source pass over spaces on both sides of
a text (`CString.trim`).
-/

namespace Agouti

open List

def isSpace (c : UInt8) : Bool := c == 0x20 || (decide (0x09 ≤ c) && decide (c ≤ 0x0d))

def isDigit (c : UInt8) : Bool := decide (0x30 ≤ c) && decide (c ≤ 0x39)

/-- Bytes up to a null. -/
structure CString where
  chars : List UInt8
  noNull : 0 ∉ chars
  deriving DecidableEq

namespace CString

/-- `std::string::c_str`, read up to the first null character. -/
def ofString (str : List UInt8) : CString where
  chars := str.takeWhile (· != 0)
  noNull := by
    intro member
    have here := mem_takeWhile_imp member
    exact absurd here (by decide)

theorem ofString_chars {str : List UInt8} (noNull : 0 ∉ str) : (ofString str).chars = str := by
  rw [ofString, takeWhile_eq_self_iff]
  intro c member
  rw [bne_iff_ne]
  rintro rfl
  exact noNull member

end CString

def skipSpaces (chars : List UInt8) : List UInt8 := chars.dropWhile isSpace

def trimSpaces (chars : List UInt8) : List UInt8 := (chars.dropWhile isSpace).rdropWhile isSpace

variable {text : List UInt8}

theorem skipSpaces_eq_self (filled : ∀ c ∈ text, isSpace c = false) :
    skipSpaces text = text := by
  cases text with
  | nil => rfl
  | cons c text =>
    rw [skipSpaces, dropWhile_cons, filled c mem_cons_self]
    rfl

theorem skipSpaces_eq_nil {chars : List UInt8} :
    skipSpaces chars = [] ↔ ∀ c ∈ chars, isSpace c = true := dropWhile_eq_nil_iff

theorem rdropWhile_spaces {behind : List UInt8} (filled : ∀ c ∈ text, isSpace c = false)
    (spaces : ∀ c ∈ behind, isSpace c = true) :
    (text ++ behind).rdropWhile isSpace = text := by
  induction behind using List.reverseRecOn with
  | nil =>
    rw [append_nil, rdropWhile_eq_self_iff]
    intro some
    rw [filled _ (getLast_mem some)]
    exact Bool.false_ne_true
  | append_singleton behind c ih =>
    have last : isSpace c = true := spaces c (mem_append_right _ (mem_singleton_self c))
    rw [← append_assoc, rdropWhile_concat_pos _ _ _ last]
    exact ih fun other member => spaces other (mem_append_left _ member)

theorem trimSpaces_eq {chars behind : List UInt8} (filled : ∀ c ∈ text, isSpace c = false)
    (spaces : ∀ c ∈ behind, isSpace c = true) (split : skipSpaces chars = text ++ behind) :
    trimSpaces chars = text := by
  rw [trimSpaces, ← skipSpaces, split, rdropWhile_spaces filled spaces]

end Agouti
