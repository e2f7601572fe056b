import LenientJson.Proofs.Offsets.Access
import Mathlib.Data.Prod.Lex

/-!
# Lines and columns

A line and a column name a place of a text. Line feeds are counted in front of the place and
characters from the last of them on, so each character that is passed makes the pair greater, and
two places are never named alike. Counting can be done on the bytes: those that are missing in
front of an offset within a character all continue that character, and none of them counts.
-/
namespace LenientJson

def Location.lineColumn (l : Location) : ℕ ×ₗ ℕ := toLex (l.line, l.column)

namespace Text

/-- What stands on the last line of a front of the text. -/
inductive LastLine : List Char → List Char → Prop
  | only {line : List Char} (h : '\n' ∉ line) : LastLine line line
  | later (head : List Char) {line : List Char} (h : '\n' ∉ line) :
      LastLine (head ++ '\n' :: line) line

theorem before_zero (cs : List Char) : before 0 cs = [] := by
  cases cs <;> simp [before]

theorem before_of_le {cs : List Char} {offset : Nat} (h : byteLength cs ≤ offset) :
    before offset cs = cs := by
  induction cs generalizing offset with
  | nil => rfl
  | cons c cs ih =>
    have hsize := c.utf8Size_pos
    rw [byteLength_cons] at h
    rw [before, if_neg (by omega), ih (by omega)]

def lineColumnBehind (front : List Char) : ℕ ×ₗ ℕ :=
  toLex (front.count '\n' + 1, (front.reverse.takeWhile (· != '\n')).length + 1)

/-- A line feed begins a line, and every other character is one more on its line. -/
theorem lineColumnBehind_lt_concat (front : List Char) (c : Char) :
    lineColumnBehind front < lineColumnBehind (front ++ [c]) := by
  rw [lineColumnBehind, lineColumnBehind, Prod.Lex.toLex_lt_toLex]
  by_cases h : c = '\n'
  · left
    simp [h]
  · right
    simp [h]

theorem lineColumnBehind_lt_append (front : List Char) {more : List Char} (h : more ≠ []) :
    lineColumnBehind front < lineColumnBehind (front ++ more) := by
  induction more using List.reverseRecOn with
  | nil => exact absurd rfl h
  | append_singleton more c ih =>
    have hlast := lineColumnBehind_lt_concat (front ++ more) c
    rw [← List.append_assoc]
    by_cases hmore : more = []
    · simpa [hmore] using hlast
    · exact (ih hmore).trans hlast

/-- The later of two places has more of the text in front of it. -/
theorem exists_between {text : List Char} {first second : Nat} (hfirst : IsBoundary text first)
    (hsecond : IsBoundary text second) (h : first < second) :
    ∃ front more back, text = front ++ more ++ back ∧ more ≠ [] ∧ first = byteLength front ∧
      second = byteLength (front ++ more) := by
  obtain ⟨front, back, rfl, rfl⟩ := hfirst
  obtain ⟨front', back', htext, rfl⟩ := hsecond
  rcases List.append_eq_append_iff.mp htext with ⟨more, rfl, rfl⟩ | ⟨more, rfl, -⟩
  · refine ⟨front, more, back', by simp, ?_, rfl, rfl⟩
    rintro rfl
    simp at h
  · rw [byteLength_append] at h
    omega

/-- The bytes in front of an offset are those of the characters that begin there, less some that
continue the last one. -/
theorem exists_encodeUtf8_before (cs : List Char) (offset : Nat) :
    ∃ cut, encodeUtf8 (before offset cs) = (encodeUtf8 cs).take offset ++ cut ∧
      ∀ byte ∈ cut, Offsets.isContinuation byte = true := by
  induction cs generalizing offset with
  | nil => exact ⟨[], by simp [before, encodeUtf8_nil], by simp⟩
  | cons c cs ih =>
    obtain ⟨lead, rest, hbytes, -, hrest, -⟩ := Offsets.exists_lead c
    have hsize : c.utf8Size = rest.length + 1 := by
      rw [← String.length_utf8EncodeChar, hbytes, List.length_cons]
    have hmin : (lead :: rest).length = c.utf8Size := by rw [hsize, List.length_cons]
    by_cases hzero : offset = 0
    · exact ⟨[], by simp [hzero, before_zero, encodeUtf8_nil], by simp⟩
    · obtain ⟨cut, hcut, hcontinues⟩ := ih (offset - c.utf8Size)
      rw [before, if_neg hzero, encodeUtf8_cons, encodeUtf8_cons, hcut, hbytes,
        List.take_append, hmin]
      by_cases hfits : c.utf8Size ≤ offset
      · refine ⟨cut, ?_, hcontinues⟩
        rw [List.take_of_length_le (hmin.trans_le hfits), List.append_assoc]
      · have hnone : offset - c.utf8Size = 0 := by omega
        rw [hnone, before_zero] at hcut
        obtain ⟨hend, rfl⟩ := List.append_eq_nil_iff.mp hcut.symm
        refine ⟨rest.drop (offset - 1), ?_, ?_⟩
        · obtain ⟨n, rfl⟩ := Nat.exists_eq_succ_of_ne_zero hzero
          simp [hnone]
        · intro byte hbyte
          exact hrest byte (List.mem_of_mem_drop hbyte)

end Text

namespace Location

theorem exists_lastLine_of_front (front back : List Char) : ∃ line, Text.LastLine front line ∧
    Location.of (front ++ back) (Text.byteLength front) =
      ⟨Text.byteLength front, front.count '\n' + 1, line.length + 1⟩ := by
  obtain ⟨line, hline, hlength, hfront⟩ := Offsets.exists_lastLine front
  have hlast : Text.LastLine front line := by
    rcases hfront with rfl | ⟨head, rfl⟩
    · exact .only hline
    · exact .later head hline
  refine ⟨line, hlast, ?_⟩
  rw [Location.of, Text.before_append, hlength, Text.byteLength_append]
  simp

theorem lineColumn_of_front (front back : List Char) :
    (Location.of (front ++ back) (Text.byteLength front)).lineColumn =
      Text.lineColumnBehind front := by
  rw [lineColumn, Location.of, Text.before_append]
  rfl

theorem strictMonoOn_lineColumn (text : List Char) :
    StrictMonoOn (fun offset => (Location.of text offset).lineColumn)
      {offset | Text.IsBoundary text offset} := by
  intro first hfirst second hsecond h
  obtain ⟨front, more, back, rfl, hmore, rfl, rfl⟩ := Text.exists_between hfirst hsecond h
  have hlater := lineColumn_of_front (front ++ more) back
  have hearlier := lineColumn_of_front front (more ++ back)
  rw [← List.append_assoc] at hearlier
  simp only [hearlier, hlater]
  exact Text.lineColumnBehind_lt_append front hmore

theorem of_beyond {text : List Char} {offset : Nat} (h : Text.byteLength text ≤ offset) :
    Location.of text offset = Location.of text (Text.byteLength text) := by
  simp [Location.of, Text.before_of_le h, Text.before_of_le (Nat.le_refl _), h]

end Location

namespace Offsets

def lineStart (front : List UInt8) : Nat := ((findLast? '\n' front).map (· + 1)).getD 0

theorem lineStart_le (front : List UInt8) : lineStart front ≤ front.length := by
  unfold lineStart findLast?
  cases h : front.reverse.findIdx? (asChar · == '\n') with
  | none => simp
  | some i =>
    have hlt := (List.findIdx?_eq_some_iff_findIdx_eq.mp h).1
    rw [List.length_reverse] at hlt
    simp only [Option.map_some, Option.getD_some]
    omega

section Cut

variable {front cut : List UInt8}

theorem asChar_ne_of_isContinuation {byte : UInt8} (h : isContinuation byte = true) :
    (asChar byte == '\n') = false := by
  rw [isContinuation_eq, decide_eq_true_iff] at h
  exact (asciiOnly_beq (by decide)).asChar_eq_false h.1

theorem findLast?_append (h : ∀ byte ∈ cut, isContinuation byte = true) :
    findLast? '\n' (front ++ cut) = findLast? '\n' front := by
  have hcut : cut.reverse.findIdx? (asChar · == '\n') = none := by
    rw [List.findIdx?_eq_none_iff]
    exact fun byte hbyte => asChar_ne_of_isContinuation (h byte (List.mem_reverse.mp hbyte))
  rw [findLast?, findLast?, List.reverse_append, List.findIdx?_append, hcut, Option.none_or,
    Option.map_map]
  congr 1
  funext i
  simp
  omega

theorem countP_newline_append (h : ∀ byte ∈ cut, isContinuation byte = true) :
    (front ++ cut).countP (asChar · == '\n') = front.countP (asChar · == '\n') := by
  rw [List.countP_append, Nat.add_eq_left, List.countP_eq_zero]
  intro byte hbyte
  simp [asChar_ne_of_isContinuation (h byte hbyte)]

theorem countP_character_append (h : ∀ byte ∈ cut, isContinuation byte = true) :
    (front ++ cut).countP (!isContinuation ·) = front.countP (!isContinuation ·) := by
  rw [List.countP_append, Nat.add_eq_left, List.countP_eq_zero]
  intro byte hbyte
  simp [h byte hbyte]

end Cut

/-- No access of the count is out of bounds, whatever the offset. -/
theorem locate_eq_ok (bytes : List UInt8) (offset : Nat) :
    locate bytes offset =
      .ok ⟨min offset bytes.length, (bytes.take offset).countP (asChar · == '\n') + 1,
        ((bytes.take offset).drop (lineStart (bytes.take offset))).countP
          (!isContinuation ·) + 1⟩ := by
  have htake : bytes.take (min offset bytes.length) = bytes.take offset := by
    rw [← List.take_eq_take_min]
  have hfront : window bytes 0 (min offset bytes.length) = .ok (bytes.take offset) := by
    rw [window, if_pos ⟨Nat.zero_le _, Nat.min_le_right _ _⟩, htake, List.drop_zero]
  have hline : window (bytes.take offset) (lineStart (bytes.take offset))
      (bytes.take offset).length =
        .ok ((bytes.take offset).drop (lineStart (bytes.take offset))) := by
    rw [window, if_pos ⟨lineStart_le _, Nat.le_refl _⟩, List.take_length]
  rw [lineStart] at hline
  simp only [locate, hfront, bind, Except.bind, hline]
  rfl

/-- Counting bytes gives the location of every offset, also within a character and beyond the
end. -/
theorem locate_encodeUtf8 (text : List Char) (offset : Nat) :
    locate (Text.encodeUtf8 text) offset = .ok (.of text offset) := by
  obtain ⟨cut, hcut, hcontinues⟩ := Text.exists_encodeUtf8_before text offset
  have hwhole : Text.before (Text.byteLength (Text.before offset text)) (Text.before offset text) =
      Text.before offset text := Text.before_of_le (Nat.le_refl _)
  have hfront := locate_eq ⟨Text.before offset text, [], (List.append_nil _).symm, rfl⟩
  rw [locate_eq_ok, List.take_of_length_le (Text.length_encodeUtf8 _).le, hcut,
    lineStart, findLast?_append hcontinues, ← lineStart, countP_newline_append hcontinues,
    List.drop_append_of_le_length (lineStart_le _), countP_character_append hcontinues,
    Location.of, hwhole, Except.ok.injEq, Location.mk.injEq] at hfront
  rw [locate_eq_ok, Location.of, Text.length_encodeUtf8, hfront.2.1, hfront.2.2]

end Offsets

/-- How the places of a text are named. -/
structure Location.NamesPlaces (text : List Char) : Prop where
  counted : ∀ offset, Offsets.locate (Text.encodeUtf8 text) offset = .ok (.of text offset)
  exact : ∀ front back, text = front ++ back → ∃ line, Text.LastLine front line ∧
    Location.of text (Text.byteLength front) =
      ⟨Text.byteLength front, front.count '\n' + 1, line.length + 1⟩
  increasing : StrictMonoOn (fun offset => (Location.of text offset).lineColumn)
    {offset | Text.IsBoundary text offset}
  distinct : Set.InjOn (fun offset => (Location.of text offset).lineColumn)
    {offset | Text.IsBoundary text offset}
  beyond : ∀ offset, Text.byteLength text ≤ offset →
    Location.of text offset = Location.of text (Text.byteLength text)

/-- The line and the column grow from each place of a text to the next. They are the line feeds in
front of it and the characters on its line, as counted in bytes, and beyond the end there is only
the end. -/
theorem namesPlaces_location (text : List Char) : Location.NamesPlaces text where
  counted := Offsets.locate_encodeUtf8 text
  exact := by
    rintro front back rfl
    exact Location.exists_lastLine_of_front front back
  increasing := Location.strictMonoOn_lineColumn text
  distinct := (Location.strictMonoOn_lineColumn text).injOn
  beyond _ h := Location.of_beyond h

/-- Two characters of several bytes, a line feed between them. -/
example : Location.of ['é', '\n', '€', 'a'] 3 = ⟨3, 2, 1⟩ ∧
    Location.of ['é', '\n', '€', 'a'] 4 = ⟨4, 2, 2⟩ ∧
    Location.of ['é', '\n', '€', 'a'] 99 = ⟨7, 2, 3⟩ := by
  decide

end LenientJson
