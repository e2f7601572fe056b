import LenientJson.Offsets.Cursor
import LenientJson.Proofs.Offsets.Utf8
import LenientJson.Proofs.Reading.Positions

/-!
# Access within a text

A span that stands in the text gives a cursor. The windows and slices between the ends of such
spans are within the bytes and between characters, and each step of the cursor is one of the span.
-/
namespace LenientJson.Offsets

section Bytes

variable (front mid back : List Char)

theorem window_encodeUtf8 : window (Text.encodeUtf8 (front ++ mid ++ back))
    (Text.byteLength front) (Text.byteLength front + Text.byteLength mid) =
      .ok (Text.encodeUtf8 mid) := by
  rw [window, if_pos]
  · rw [Text.encodeUtf8_append, Text.encodeUtf8_append, ← Text.length_encodeUtf8 front,
      ← Text.length_encodeUtf8 mid, ← List.length_append, List.take_left, List.drop_left]
  · rw [Text.length_encodeUtf8, Text.byteLength_append, Text.byteLength_append]
    omega

theorem getElem?_encodeUtf8 (c : Char) : ∃ lead,
    (Text.encodeUtf8 (front ++ c :: back))[Text.byteLength front]? = some lead ∧
      isContinuation lead = false ∧ ∀ p, AsciiOnly p → p (asChar lead) = p c := by
  obtain ⟨lead, rest, hbytes, hlead, -, hp⟩ := exists_lead c
  refine ⟨lead, ?_, hlead, hp⟩
  rw [Text.encodeUtf8_append, Text.encodeUtf8_cons, hbytes, ← Text.length_encodeUtf8 front,
    List.getElem?_append_right (le_refl _), Nat.sub_self]
  rfl

theorem isCharBoundary_encodeUtf8 :
    isCharBoundary (Text.encodeUtf8 (front ++ back)) (Text.byteLength front) = true := by
  rw [isCharBoundary]
  cases back with
  | nil => simp [Text.length_encodeUtf8]
  | cons c cs =>
    obtain ⟨lead, hget, hlead, -⟩ := getElem?_encodeUtf8 front cs c
    simp [hget, hlead]

/-- Between two characters a slice holds the characters that stand there. -/
theorem slice_append : slice (front ++ mid ++ back)
    (Text.byteLength front) (Text.byteLength front + Text.byteLength mid) = .ok mid := by
  have hstart := isCharBoundary_encodeUtf8 front (mid ++ back)
  have hstop := isCharBoundary_encodeUtf8 (front ++ mid) back
  rw [← List.append_assoc] at hstart
  rw [Text.byteLength_append] at hstop
  have hbefore := Text.before_append front (mid ++ back)
  have hupTo := Text.before_append (front ++ mid) back
  rw [← List.append_assoc] at hbefore
  rw [Text.byteLength_append] at hupTo
  simp only [slice]
  rw [if_pos, hbefore, hupTo, List.drop_left]
  refine ⟨Nat.le_add_right _ _, ?_, hstart, hstop⟩
  rw [Text.length_encodeUtf8, Text.byteLength_append, Text.byteLength_append]
  omega

example : slice ['a', 'é'] 0 1 = .ok ['a'] ∧ slice ['a', 'é'] 0 2 = .error (.slice 0 2) := by
  cbv

end Bytes

section Within

variable {text : List Char} {s : Span} {c : Char}

theorem byteAt_first {rest : List Char} (h : s.Within text) (hs : s.chars = c :: rest) :
    ∃ byte, byteAt (Text.encodeUtf8 text) s.offset = .ok byte ∧
      ∀ p, AsciiOnly p → p (asChar byte) = p c := by
  obtain ⟨front, back, rfl, hoffset⟩ := h
  obtain ⟨lead, hget, -, hlead⟩ := getElem?_encodeUtf8 front (rest ++ back) c
  refine ⟨lead, ?_, hlead⟩
  rw [byteAt, hs, hoffset, List.append_assoc, List.cons_append, hget]

theorem byteAt_last {rest : List Char} (h : s.Within text) (hs : s.chars = rest ++ [c]) :
    ∃ byte, byteAt (Text.encodeUtf8 text) (s.offset + Text.byteLength s.chars - 1) = .ok byte ∧
      ∀ p, AsciiOnly p → p (asChar byte) = p c := by
  obtain ⟨front, back, rfl, hoffset⟩ := h
  obtain ⟨before, last, hbytes, hlast⟩ := exists_last c
  have hsize : c.utf8Size = before.length + 1 := by
    rw [← String.length_utf8EncodeChar, hbytes, List.length_append, List.length_singleton]
  have hget : (Text.encodeUtf8 (front ++ s.chars ++ back))[
      s.offset + Text.byteLength s.chars - 1]? = some last := by
    have htext : Text.encodeUtf8 (front ++ s.chars ++ back) =
        Text.encodeUtf8 (front ++ rest) ++ before ++ last :: Text.encodeUtf8 back := by
      simp [hs, Text.encodeUtf8_append, Text.encodeUtf8_cons, hbytes]
    have hindex : s.offset + Text.byteLength s.chars - 1 =
        (Text.encodeUtf8 (front ++ rest) ++ before).length := by
      rw [List.length_append, Text.length_encodeUtf8, hs, hoffset]
      simp only [Text.byteLength_append, Text.byteLength_cons, Text.byteLength_nil, hsize]
      omega
    rw [htext, hindex, List.getElem?_append_right (le_refl _), Nat.sub_self]
    rfl
  exact ⟨last, by rw [byteAt, hget], hlast⟩

/-- A scan may begin where its opener stands. -/
theorem expectOpener_within {rest : List Char} (h : s.Within text) (hc : c.toNat < 0x80)
    (hs : s.chars = c :: rest) :
    expectOpener (Text.encodeUtf8 text) s.offset c = .ok () := by
  obtain ⟨front, back, rfl, hoffset⟩ := h
  obtain ⟨lead, hget, -, hlead⟩ := getElem?_encodeUtf8 front (rest ++ back) c
  have hopener := hlead _ (asciiOnly_beq hc)
  rw [hs, hoffset, List.append_assoc, List.cons_append, expectOpener, hget, if_pos]
  exact congrArg some (beq_iff_eq.mp (hopener.trans (beq_self_eq_true c)))

end Within

section Location

theorem findLast?_of_not_mem {c : Char} (hc : c.toNat < 0x80) {cs : List Char} (h : c ∉ cs) :
    findLast? c (Text.encodeUtf8 cs) = none := by
  have hnone := findIdx?_encodeUtf8 (asciiOnly_beq hc) cs
  rw [if_neg] at hnone
  · rw [List.findIdx?_eq_none_iff] at hnone
    rw [findLast?, Option.map_eq_none_iff, List.findIdx?_eq_none_iff]
    exact fun byte hbyte => hnone byte (List.mem_reverse.mp hbyte)
  · rw [List.any_eq_true]
    rintro ⟨d, hd, heq⟩
    exact h (beq_iff_eq.mp heq ▸ hd)

theorem findLast?_append_cons {c : Char} (hc : c.toNat < 0x80) (front : List Char)
    {line : List Char} (h : c ∉ line) :
    findLast? c (Text.encodeUtf8 (front ++ c :: line)) = some (Text.byteLength front) := by
  have hnone := findLast?_of_not_mem hc h
  rw [findLast?, Option.map_eq_none_iff] at hnone
  rw [findLast?, Text.encodeUtf8_append, Text.encodeUtf8_cons, utf8EncodeChar_of_ascii hc]
  simp only [List.reverse_append, List.reverse_cons, List.append_assoc, List.singleton_append,
    List.findIdx?_append, hnone, Option.none_or, List.findIdx?_cons, asChar_ofNat hc,
    beq_self_eq_true, if_true, Option.map_some, List.length_reverse, List.length_append,
    List.length_cons, Text.length_encodeUtf8]
  congr 1
  omega

/-- The last line of a text. -/
theorem exists_lastLine (front : List Char) : ∃ line, '\n' ∉ line ∧
    (front.reverse.takeWhile (· != '\n')).length = line.length ∧
      (front = line ∨ ∃ head, front = head ++ '\n' :: line) := by
  obtain ⟨hsplit, hline, hhead⟩ := Reader.takeWhile_dropWhile_iff.mp
    ⟨(rfl : front.reverse.takeWhile (· != '\n') = _), rfl⟩
  refine ⟨(front.reverse.takeWhile (· != '\n')).reverse, ?_, List.length_reverse.symm, ?_⟩
  · intro hmem
    simpa using hline '\n' (List.mem_reverse.mp hmem)
  · have hfront := congrArg List.reverse hsplit
    rw [List.reverse_reverse, List.reverse_append] at hfront
    cases hrest : front.reverse.dropWhile (· != '\n') with
    | nil =>
      rw [hrest] at hfront
      exact .inl hfront
    | cons c rest =>
      obtain rfl : c = '\n' := by simpa using hhead c (by rw [hrest]; rfl)
      rw [hrest, List.reverse_cons, List.append_assoc] at hfront
      exact .inr ⟨rest.reverse, hfront⟩

/-- Lines and columns counted in bytes are those of the text. -/
theorem locate_eq {text : List Char} {offset : Nat} (h : Text.IsBoundary text offset) :
    locate (Text.encodeUtf8 text) offset = .ok (.of text offset) := by
  obtain ⟨front, back, rfl, rfl⟩ := h
  have hmin : min (Text.byteLength front) (Text.encodeUtf8 (front ++ back)).length =
      Text.byteLength front := by
    rw [Text.length_encodeUtf8, Text.byteLength_append]
    exact Nat.min_eq_left (Nat.le_add_right _ _)
  have hfront : window (Text.encodeUtf8 (front ++ back)) 0 (Text.byteLength front) =
      .ok (Text.encodeUtf8 front) := by
    have hwindow := window_encodeUtf8 [] front back
    rwa [List.nil_append, Text.byteLength_nil, Nat.zero_add] at hwindow
  obtain ⟨line, hmem, hlength, hline⟩ := exists_lastLine front
  have hwindow : window (Text.encodeUtf8 front)
      (((findLast? '\n' (Text.encodeUtf8 front)).map (· + 1)).getD 0)
      (Text.encodeUtf8 front).length = .ok (Text.encodeUtf8 line) := by
    rw [Text.length_encodeUtf8]
    rcases hline with rfl | ⟨head, rfl⟩
    · have hall := window_encodeUtf8 [] front []
      rw [List.nil_append, List.append_nil, Text.byteLength_nil, Nat.zero_add] at hall
      rw [findLast?_of_not_mem (by decide) hmem]
      exact hall
    · have hlast := window_encodeUtf8 (head ++ ['\n']) line []
      rw [List.append_nil, List.append_assoc, List.singleton_append, Text.byteLength_append]
        at hlast
      rw [findLast?_append_cons (by decide) head hmem, Text.byteLength_append,
        Text.byteLength_cons, ← Nat.add_assoc]
      exact hlast
  have hcount : (Text.encodeUtf8 front).countP (asChar · == '\n') = front.count '\n' :=
    countP_encodeUtf8 (asciiOnly_beq (by decide)) front
  rw [locate, hmin, hfront, Location.of, Text.before_append]
  simp only [bind, Except.bind, hwindow, hcount, countP_not_isContinuation, hlength,
    Text.byteLength_append]
  rw [Nat.min_eq_left (Nat.le_add_right _ _)]
  rfl

end Location

end LenientJson.Offsets
