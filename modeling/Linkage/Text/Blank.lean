/-!
# Blank characters

Which characters count as blank at the two ends of a name, a line or a pattern: those with the
Unicode property White_Space, and no others. Control characters U+001C to U+001F, the zero width
space and the byte order mark are not blank.

Embeds the trimming of names and lines in `parse_text_events`, `load_class_list` and `EventFilter`.
-/

namespace Linkage.Text

def inRanges (ranges : List (Nat × Nat)) (c : Char) : Bool :=
  ranges.any fun r => r.1 ≤ c.toNat && c.toNat ≤ r.2

/-- The ranges of White_Space, ascending and apart. -/
def blankRanges : List (Nat × Nat) :=
  [(0x9, 0xD), (0x20, 0x20), (0x85, 0x85), (0xA0, 0xA0), (0x1680, 0x1680), (0x2000, 0x200A),
   (0x2028, 0x2029), (0x202F, 0x202F), (0x205F, 0x205F), (0x3000, 0x3000)]

def isBlank (c : Char) : Bool := inRanges blankRanges c

/-- A list without the elements at its two ends that satisfy `p`. -/
def stripEnds {α : Type} (p : α → Bool) (xs : List α) : List α :=
  ((xs.dropWhile p).reverse.dropWhile p).reverse

def trim (s : String) : String := String.ofList (stripEnds isBlank s.toList)

def isAllBlank (s : String) : Bool := s.toList.all isBlank

end Linkage.Text
