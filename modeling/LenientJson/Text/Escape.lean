/-!
# Escaped text

Seven characters are written with a backslash in front: the backslash itself, both quotes, and
the four brackets. Reading back drops a backslash that stands before one of the seven and keeps
every other one.
-/
namespace LenientJson.Text

def isEscaped (c : Char) : Bool :=
  c == '\\' || c == '"' || c == '\'' || c == '[' || c == ']' || c == '\x7b' || c == '\x7d'

/-- The text of one character. -/
def escapeChar (c : Char) : List Char := if isEscaped c then ['\\', c] else [c]

def escape (cs : List Char) : List Char := cs.flatMap escapeChar

def unescape : List Char → List Char
  | [] => []
  | [c] => [c]
  | c :: d :: rest =>
    if c == '\\' && isEscaped d then d :: unescape rest else c :: unescape (d :: rest)

@[simp] theorem escape_nil : escape [] = [] := rfl

@[simp] theorem escape_cons (c : Char) (cs : List Char) :
    escape (c :: cs) = escapeChar c ++ escape cs := rfl

theorem unescape_escape_append (c : Char) (cs : List Char) :
    unescape (escapeChar c ++ escape cs) = c :: unescape (escape cs) := by
  by_cases hc : isEscaped c = true
  · simp [escapeChar, hc, unescape]
  · have hb : (c == '\\') = false := by
      cases hb : c == '\\' with
      | false => rfl
      | true => simp [isEscaped, hb] at hc
    simp only [escapeChar, hc, Bool.false_eq_true, if_false, List.singleton_append]
    cases he : escape cs with
    | nil => simp [unescape]
    | cons d rest => simp [unescape, hb]

theorem unescape_escape (cs : List Char) : unescape (escape cs) = cs := by
  induction cs with
  | nil => rfl
  | cons c cs ih => rw [escape_cons, unescape_escape_append, ih]

theorem unescape_of_not_mem {cs : List Char} (h : '\\' ∉ cs) : unescape cs = cs := by
  induction cs using unescape.induct with
  | case1 => rfl
  | case2 c => rfl
  | case3 c d rest hpair ih =>
    rw [Bool.and_eq_true, beq_iff_eq] at hpair
    exact absurd List.mem_cons_self (hpair.1 ▸ h)
  | case4 c d rest hpair ih =>
    rw [unescape, if_neg hpair, ih fun hmem => h (List.mem_cons_of_mem c hmem)]

end LenientJson.Text
