/-!
# Blank characters

A character is blank when Unicode gives it the property `White_Space`. Quoted symbols and solver
replies are trimmed of blanks at both ends. The grammar of s-expressions is narrower: between two
tokens it knows space, tab, line feed and carriage return only.
-/

namespace RelSmt.Text

/-- Does a sorted or unsorted list of closed ranges cover `n`? -/
def inRanges (ranges : List (Nat × Nat)) (n : Nat) : Bool :=
  ranges.any fun r => decide (r.1 ≤ n) && decide (n ≤ r.2)

/-- The code points with the property `White_Space`. -/
def blankRanges : List (Nat × Nat) :=
  [(0x09, 0x0D), (0x20, 0x20), (0x85, 0x85), (0xA0, 0xA0), (0x1680, 0x1680), (0x2000, 0x200A),
    (0x2028, 0x2029), (0x202F, 0x202F), (0x205F, 0x205F), (0x3000, 0x3000)]

/-- A blank takes up room and leaves no mark. -/
def isBlank (c : Char) : Bool := inRanges blankRanges c.toNat

/-- The characters from the first to the last that is not blank. -/
def trimChars (cs : List Char) : List Char :=
  ((cs.dropWhile isBlank).reverse.dropWhile isBlank).reverse

/-- Text without the blanks at either end. -/
def trim (s : String) : String := String.ofList (trimChars s.toList)

/-- Does `sought` occur somewhere in the text? -/
def occursIn (sought : List Char) : List Char → Bool
  | [] => sought.isEmpty
  | c :: cs => sought.isPrefixOf (c :: cs) || occursIn sought cs

/-- Text with no blank at either end is left alone. -/
theorem trimChars_eq_self {cs : List Char} (hd : ∀ c ∈ cs.head?, isBlank c = false)
    (hl : ∀ c ∈ cs.getLast?, isBlank c = false) : trimChars cs = cs := by
  cases cs with
  | nil => rfl
  | cons c cs =>
    have h1 : (c :: cs).dropWhile isBlank = c :: cs := by
      simp [List.dropWhile, hd c (by simp)]
    rw [trimChars, h1]
    have h2 : (c :: cs).reverse.dropWhile isBlank = (c :: cs).reverse := by
      cases hr : (c :: cs).reverse with
      | nil => rfl
      | cons d ds =>
        have : (c :: cs).getLast? = some d := by
          rw [List.getLast?_eq_head?_reverse, hr]; rfl
        simp [List.dropWhile, hl d (by simp [this])]
    rw [h2, List.reverse_reverse]

end RelSmt.Text
