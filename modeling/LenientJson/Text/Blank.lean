/-!
# Blank characters

Two sets of blanks matter. Between the parts of a document stand ASCII blanks, and commas count
with them wherever parts may be separated. Around a word and after a bare key every character
with the Unicode property White_Space is dropped.
-/
namespace LenientJson.Text

/-- The ASCII blanks: tab, line feed, form feed, carriage return and space. -/
def isBlank (c : Char) : Bool :=
  c == ' ' || c == '\t' || c == '\n' || c == '\x0c' || c == '\r'

def isSeparator (c : Char) : Bool := isBlank c || c == ','

/-- The code points with the property White_Space, as inclusive ranges. -/
def whiteSpaceRanges : List (Nat × Nat) :=
  [(0x09, 0x0D), (0x20, 0x20), (0x85, 0x85), (0xA0, 0xA0), (0x1680, 0x1680), (0x2000, 0x200A),
    (0x2028, 0x2029), (0x202F, 0x202F), (0x205F, 0x205F), (0x3000, 0x3000)]

def isWhiteSpace (c : Char) : Bool :=
  whiteSpaceRanges.any fun (first, last) => first ≤ c.toNat && c.toNat ≤ last

/-- Every ASCII blank is white space; vertical tab and the characters beyond ASCII are the
difference. -/
theorem isWhiteSpace_of_isBlank {c : Char} (h : isBlank c = true) : isWhiteSpace c = true := by
  simp only [isBlank, Bool.or_eq_true, beq_iff_eq] at h
  rcases h with (((rfl | rfl) | rfl) | rfl) | rfl <;> decide

theorem isSeparator_of_isBlank {c : Char} (h : isBlank c = true) : isSeparator c = true := by
  simp [isSeparator, h]

def trimStart (p : Char → Bool) (cs : List Char) : List Char := cs.dropWhile p

def trimEnd (p : Char → Bool) (cs : List Char) : List Char := (cs.reverse.dropWhile p).reverse

def trim (p : Char → Bool) (cs : List Char) : List Char := trimEnd p (trimStart p cs)

/-- What is trimmed at the end is a run of the given characters. -/
theorem trimEnd_append (p : Char → Bool) (cs : List Char) :
    trimEnd p cs ++ (cs.reverse.takeWhile p).reverse = cs := by
  rw [trimEnd, ← List.reverse_append, List.takeWhile_append_dropWhile, List.reverse_reverse]

/-- Nothing is trimmed before the last character of another kind. -/
theorem trimEnd_append_cons {p : Char → Bool} {c : Char} (front back : List Char)
    (h : p c = false) : trimEnd p (front ++ c :: back) = front ++ c :: trimEnd p back := by
  have hc : ¬p c = true := Bool.eq_false_iff.mp h
  simp only [trimEnd, List.reverse_append, List.reverse_cons, List.append_assoc,
    List.singleton_append, List.dropWhile_append]
  split
  next hempty =>
    rw [List.isEmpty_iff] at hempty
    rw [List.dropWhile_cons_of_neg hc, hempty, List.reverse_cons, List.reverse_reverse]
    simp
  next => simp

theorem trimEnd_cons {p : Char → Bool} {c : Char} (back : List Char) (h : p c = false) :
    trimEnd p (c :: back) = c :: trimEnd p back := trimEnd_append_cons [] back h

theorem trimEnd_append_of_head? {p : Char → Bool} {c : Char} {back : List Char}
    (front : List Char) (hback : back.head? = some c) (h : p c = false) :
    trimEnd p (front ++ back) = front ++ trimEnd p back := by
  obtain ⟨more, rfl⟩ := List.head?_eq_some_iff.mp hback
  rw [trimEnd_append_cons front more h, trimEnd_cons more h]

theorem trimEnd_concat_append {p : Char → Bool} {c : Char} (front back : List Char)
    (h : p c = false) : trimEnd p (front ++ [c] ++ back) = front ++ [c] ++ trimEnd p back := by
  rw [List.append_assoc, List.singleton_append, trimEnd_append_cons front back h,
    List.append_assoc, List.singleton_append]

theorem trimStart_append (p : Char → Bool) (cs : List Char) :
    cs.takeWhile p ++ trimStart p cs = cs := List.takeWhile_append_dropWhile

end LenientJson.Text
