import LenientJson.Offsets.Scan
import LenientJson.Proofs.Offsets.Access
import LenientJson.Proofs.Scan.Balance

/-!
# Scans over bytes and over characters

What a scan over bytes finds is where the scan over characters splits its text. Whether a byte is
escaped depends on the bytes before it, as far back as the text goes, but a run of backslashes is
cut by the opener behind which the scan over characters begins.
-/
namespace LenientJson.Offsets

open Reader

variable {mode : ScanMode} {bracket : Bracket}

section Escaped

theorem escapedBehind_append (a b : List Char) :
    escapedBehind (a ++ b) = b.foldl escapesNext (escapedBehind a) := by
  rw [← foldl_escapesNext, ← foldl_escapesNext, List.foldl_append]

theorem escapedBehind_concat (a : List Char) {c : Char} (hc : c ≠ '\\') :
    escapedBehind (a ++ [c]) = false := by
  rw [escapedBehind_append]
  simp [escapesNext, hc]

theorem isEscaped_encodeUtf8 (front back : List Char) :
    isEscaped (Text.encodeUtf8 (front ++ back)) (Text.byteLength front) =
      .ok (escapedBehind front) := by
  have hwindow := window_encodeUtf8 [] front back
  rw [List.nil_append, Text.byteLength_nil, Nat.zero_add] at hwindow
  rw [isEscaped, hwindow]
  simp only [bind, Except.bind, length_takeWhile_backslash]
  rfl

theorem exists_isEscaped {bytes : List UInt8} {i : Nat} (h : i ≤ bytes.length) :
    ∃ escaped, isEscaped bytes i = .ok escaped := by
  rw [isEscaped, window, if_pos ⟨Nat.zero_le i, h⟩]
  exact ⟨_, rfl⟩

end Escaped

section Quotes

theorem splitQuoted_append_of_not_mem (escaped : Bool) {a : List Char} (rest : List Char)
    (h : '"' ∉ a) : splitQuoted escaped (a ++ rest) =
      (splitQuoted (a.foldl escapesNext escaped) rest).map fun (inside, behind) =>
        (a ++ inside, behind) := by
  induction a generalizing escaped with
  | nil => simp
  | cons c a ih =>
    rw [List.mem_cons, not_or] at h
    rw [List.cons_append, splitQuoted_cons fun hc => absurd hc.symm h.1, ih _ h.2, Option.map_map]
    rfl

theorem splitQuoted_append_quote {escaped : Bool} {a : List Char} (b : List Char) (h : '"' ∉ a) :
    splitQuoted escaped (a ++ '"' :: b) =
      if a.foldl escapesNext escaped then
        (splitQuoted false b).map fun (inside, behind) => (a ++ '"' :: inside, behind)
      else some (a, b) := by
  rw [splitQuoted_append_of_not_mem _ _ h]
  cases a.foldl escapesNext escaped with
  | false => simp [splitQuoted_cons_quote]
  | true =>
    rw [splitQuoted_cons fun _ => rfl, Option.map_map]
    rfl

theorem findIdx?_quote (cs : List Char) :
    (Text.encodeUtf8 cs).findIdx? (asChar · == '"') =
      if cs.any (· == '"') then some (Text.byteLength (cs.takeWhile (· != '"'))) else none :=
  findIdx?_encodeUtf8 (asciiOnly_beq (by decide)) cs

theorem findClosingQuote_of_not_mem (front back : List Char) {cs : List Char} (h : '"' ∉ cs) :
    findClosingQuote (Text.encodeUtf8 (front ++ cs ++ back)) (Text.byteLength front)
      (Text.byteLength front + Text.byteLength cs) = .ok none := by
  rw [findClosingQuote]
  split
  · simp only [window_encodeUtf8, bind, Except.bind, findIdx?_quote]
    rw [if_neg (by simpa using h)]
    rfl
  · rfl

/-- The search ends at the first quote, or goes on behind it if that one is escaped. -/
theorem findClosingQuote_quote (front b back : List Char) {a : List Char} (h : '"' ∉ a) :
    findClosingQuote (Text.encodeUtf8 (front ++ (a ++ '"' :: b) ++ back)) (Text.byteLength front)
        (Text.byteLength front + Text.byteLength (a ++ '"' :: b)) =
      if escapedBehind (front ++ a) then
        findClosingQuote (Text.encodeUtf8 (front ++ (a ++ '"' :: b) ++ back))
          (Text.byteLength front + Text.byteLength a + 1)
          (Text.byteLength front + Text.byteLength (a ++ '"' :: b))
      else .ok (some (Text.byteLength front + Text.byteLength a)) := by
  have hinside : Text.byteLength front <
      Text.byteLength front + Text.byteLength (a ++ '"' :: b) := by
    rw [Text.byteLength_append, Text.byteLength_cons, show ('"' : Char).utf8Size = 1 from rfl]
    omega
  have hescaped := isEscaped_encodeUtf8 (front ++ a) ('"' :: b ++ back)
  rw [Text.byteLength_append, ← List.append_assoc, List.append_assoc front] at hescaped
  rw [findClosingQuote, if_pos hinside]
  simp only [window_encodeUtf8, bind, Except.bind, findIdx?_quote]
  rw [if_pos (by simp), takeWhile_ne_append_cons b h]
  simp only [hescaped]
  rfl

theorem findClosingQuote_eq (front cs back : List Char) :
    findClosingQuote (Text.encodeUtf8 (front ++ cs ++ back)) (Text.byteLength front)
        (Text.byteLength front + Text.byteLength cs) =
      .ok ((splitQuoted (escapedBehind front) cs).map fun (inside, _) =>
        Text.byteLength front + Text.byteLength inside) := by
  induction hn : cs.length using Nat.strong_induction_on generalizing front cs with
  | _ n ih =>
    subst hn
    by_cases hquote : '"' ∈ cs
    · obtain ⟨a, b, rfl, hmem⟩ := List.eq_append_cons_of_mem hquote
      rw [findClosingQuote_quote front b back hmem, splitQuoted_append_quote b hmem,
        ← escapedBehind_append]
      cases escapedBehind (front ++ a) with
      | false => rfl
      | true =>
        have hlength : b.length < (a ++ '"' :: b).length := by
          rw [List.length_append, List.length_cons]
          omega
        have hrest := ih b.length hlength (front ++ a ++ ['"']) b rfl
        rw [escapedBehind_concat _ (by decide)] at hrest
        simp only [Text.byteLength_append, Text.byteLength_cons, Text.byteLength_nil,
          List.append_assoc, List.cons_append, List.nil_append,
          show ('"' : Char).utf8Size = 1 from rfl, Nat.add_assoc, Nat.add_zero]
          at hrest ⊢
        rw [if_pos trivial, if_pos trivial, hrest, Option.map_map]
        simp only [Function.comp_def, Text.byteLength_append, Text.byteLength_cons]
        rfl
    · have hnone := splitQuoted_append_of_not_mem (escapedBehind front) [] hquote
      rw [List.append_nil] at hnone
      rw [findClosingQuote_of_not_mem front back hquote, hnone]
      rfl

/-- The quote that is found is where the text behind an opening quote is split. -/
theorem findClosingQuote_within {text cs : List Char} {s : Span} (h : s.Within text)
    (hs : s.chars = '"' :: cs) :
    findClosingQuote (Text.encodeUtf8 text) (s.offset + 1) (s.offset + Text.byteLength s.chars) =
      .ok ((splitQuoted false cs).map fun (inside, _) =>
        s.offset + 1 + Text.byteLength inside) := by
  obtain ⟨front, back, rfl, hoffset⟩ := h
  have hfind := findClosingQuote_eq (front ++ ['"']) cs back
  rw [escapedBehind_concat _ (by decide)] at hfind
  rw [hs, hoffset]
  simpa [show ('"' : Char).utf8Size = 1 from rfl, Nat.add_assoc] using hfind

end Quotes

section Brackets

variable {s : Scan} {c : Char}

theorem toNat_opener_lt (bracket : Bracket) : bracket.opener.toNat < 0x80 := by
  cases bracket <;> decide

theorem toNat_closer_lt (bracket : Bracket) : bracket.closer.toNat < 0x80 := by
  cases bracket <;> decide

/-- A byte that is not escaped counts as in the scan over characters, with the first bracket on
top. -/
theorem tally_eq (hs : s.escaped = false) :
    tally mode bracket.opener bracket.closer c (s.depth + 1) s.quoted =
      .ok ((s.step mode bracket c).map fun next => (next.depth + 1, next.quoted)) := by
  unfold tally Scan.step
  simp only [hs]
  rw [if_neg Bool.false_ne_true]
  split
  · rfl
  · split
    · rfl
    · split
      · rfl
      · split
        · cases s.depth <;> rfl
        · rfl

/-- Only three characters are told apart, and they are ASCII. -/
theorem tally_congr {d : Char} (h : ∀ p, AsciiOnly p → p d = p c) (depth : Nat) (quoted : Bool) :
    tally mode bracket.opener bracket.closer d depth quoted =
      tally mode bracket.opener bracket.closer c depth quoted := by
  have hquote := eq_iff_of_asciiOnly h (show '"'.toNat < 0x80 by decide)
  unfold tally
  simp only [hquote, eq_iff_of_asciiOnly h (toNat_opener_lt bracket),
    eq_iff_of_asciiOnly h (toNat_closer_lt bracket)]

/-- What a scan over bytes knows at a position: the brackets that are open and whether it is in a
string. -/
structure ByteScan where
  position : Nat
  depth : Nat
  quoted : Bool

inductive ByteScan.Round (mode : ScanMode) (opener closer : Char) (bytes : List UInt8) :
    ByteScan → ByteScan → Prop where
  | escaped {i depth : Nat} {quoted : Bool} (hi : i < bytes.length)
      (hescaped : isEscaped bytes i = .ok true) :
      Round mode opener closer bytes ⟨i, depth, quoted⟩ ⟨i + 1, depth, quoted⟩
  | tallied {i depth depth' : Nat} {quoted quoted' : Bool} {byte : UInt8}
      (hget : bytes[i]? = some byte) (hescaped : isEscaped bytes i = .ok false)
      (htally : tally mode opener closer (asChar byte) depth quoted =
        .ok (some (depth', quoted'))) :
      Round mode opener closer bytes ⟨i, depth, quoted⟩ ⟨i + 1, depth', quoted'⟩

abbrev ByteScan.Rounds (mode : ScanMode) (opener closer : Char) (bytes : List UInt8) :=
  Relation.ReflTransGen (ByteScan.Round mode opener closer bytes)

section Rounds

variable {opener closer : Char} {bytes : List UInt8} {a b : ByteScan} {stop : Nat}

theorem ByteScan.Round.position (h : Round mode opener closer bytes a b) :
    b.position = a.position + 1 := by
  cases h <;> rfl

theorem matchFrom_of_round (h : ByteScan.Round mode opener closer bytes a b)
    (hstop : b.position ≤ stop) :
    matchFrom mode opener closer bytes stop a.position a.depth a.quoted =
      matchFrom mode opener closer bytes stop b.position b.depth b.quoted := by
  have hinside : a.position < stop := by
    rw [h.position] at hstop
    omega
  rw [matchFrom, if_pos hinside]
  cases h with
  | escaped hi hescaped =>
    rw [List.getElem?_eq_getElem hi]
    simp only [bind, Except.bind, hescaped, if_true]
  | tallied hget hescaped htally =>
    rw [hget]
    simp only [bind, Except.bind, hescaped, htally, Bool.false_eq_true, if_false]

/-- What a scan finds is found from any state on to which its rounds lead. -/
theorem matchFrom_of_rounds (h : ByteScan.Rounds mode opener closer bytes a b)
    (hstop : b.position ≤ stop) :
    matchFrom mode opener closer bytes stop a.position a.depth a.quoted =
      matchFrom mode opener closer bytes stop b.position b.depth b.quoted := by
  induction h with
  | refl => rfl
  | tail _ hround ih =>
    rw [ih (by rw [hround.position] at hstop; omega), matchFrom_of_round hround hstop]

end Rounds

/-- A byte of no ASCII character does not matter. -/
theorem round_wide {bytes : List UInt8} {i depth : Nat} {quoted : Bool} {byte : UInt8}
    (hget : bytes[i]? = some byte) (hbyte : 0x80 ≤ byte.toNat) :
    ByteScan.Round mode bracket.opener bracket.closer bytes ⟨i, depth, quoted⟩
      ⟨i + 1, depth, quoted⟩ := by
  have hne {e : Char} (he : e.toNat < 0x80) : asChar byte ≠ e := by
    rintro rfl
    rw [toNat_asChar] at he
    omega
  have htally : tally mode bracket.opener bracket.closer (asChar byte) depth quoted =
      .ok (some (depth, quoted)) := by
    unfold tally
    rw [if_neg fun hq => hne (by decide) hq.2]
    split
    · rfl
    · rw [if_neg (hne (toNat_opener_lt bracket)), if_neg (hne (toNat_closer_lt bracket))]
      rfl
  obtain ⟨hlength, -⟩ := List.getElem?_eq_some_iff.mp hget
  obtain ⟨escaped, hescaped⟩ := exists_isEscaped hlength.le
  cases escaped with
  | true => exact .escaped hlength hescaped
  | false => exact .tallied hget hescaped htally

variable (mode bracket) in
theorem rounds_wides (front back : List UInt8) {rest : List UInt8} (depth : Nat) (quoted : Bool)
    (hrest : ∀ byte ∈ rest, 0x80 ≤ byte.toNat) :
    ByteScan.Rounds mode bracket.opener bracket.closer (front ++ rest ++ back)
      ⟨front.length, depth, quoted⟩ ⟨front.length + rest.length, depth, quoted⟩ := by
  induction rest generalizing front with
  | nil => exact .refl
  | cons byte rest ih =>
    have hget : (front ++ byte :: rest ++ back)[front.length]? = some byte := by simp
    have hlater := ih (front ++ [byte]) fun b hb => hrest b (List.mem_cons_of_mem byte hb)
    apply Relation.ReflTransGen.head (round_wide hget (hrest byte List.mem_cons_self))
    simpa [Nat.add_assoc, Nat.add_comm rest.length 1] using hlater

section Step

variable (front back : List Char) (hs : s.escaped = escapedBehind front)
include hs

/-- The first byte of a character decides, and behind it the scan goes on with the next
character. -/
theorem rounds_step {next : Scan} (hstep : s.step mode bracket c = some next) :
    ByteScan.Rounds mode bracket.opener bracket.closer (Text.encodeUtf8 (front ++ c :: back))
      ⟨Text.byteLength front, s.depth + 1, s.quoted⟩
      ⟨Text.byteLength (front ++ [c]), next.depth + 1, next.quoted⟩ := by
  obtain ⟨lead, rest, htext, hsize, hwide, hlead⟩ := exists_bytes front c back
  have hget : (Text.encodeUtf8 (front ++ c :: back))[Text.byteLength front]? = some lead := by
    rw [htext, ← Text.length_encodeUtf8 front]
    simp
  have hescaped := isEscaped_encodeUtf8 front (c :: back)
  have hfront : (Text.encodeUtf8 front ++ [lead]).length = Text.byteLength front + 1 := by
    rw [List.length_append, Text.length_encodeUtf8, List.length_singleton]
  have hbehind : (Text.encodeUtf8 front ++ [lead]).length + rest.length =
      Text.byteLength (front ++ [c]) := by
    rw [hfront, Text.byteLength_append, Text.byteLength_cons, Text.byteLength_nil, hsize]
    omega
  have hpass := rounds_wides mode bracket (Text.encodeUtf8 front ++ [lead]) (Text.encodeUtf8 back)
    (next.depth + 1) next.quoted hwide
  rw [← htext, hbehind, hfront] at hpass
  apply Relation.ReflTransGen.head ?_ hpass
  rw [← hs] at hescaped
  cases hbackslash : s.escaped with
  | true =>
    obtain rfl : { s with escaped := escapesNext s.escaped c } = next := by
      simpa [Scan.step, hbackslash] using hstep
    rw [hbackslash] at hescaped
    exact .escaped (List.getElem?_eq_some_iff.mp hget).choose hescaped
  | false =>
    rw [hbackslash] at hescaped
    apply ByteScan.Round.tallied hget hescaped
    rw [tally_congr hlead, tally_eq hbackslash, hstep]
    rfl

theorem matchFrom_stop {stop : Nat} (hstop : Text.byteLength front < stop)
    (hstep : s.step mode bracket c = none) :
    matchFrom mode bracket.opener bracket.closer (Text.encodeUtf8 (front ++ c :: back)) stop
        (Text.byteLength front) (s.depth + 1) s.quoted = .ok (some (Text.byteLength front)) := by
  obtain ⟨lead, rest, htext, -, -, hlead⟩ := exists_bytes front c back
  have hget : (Text.encodeUtf8 (front ++ c :: back))[Text.byteLength front]? = some lead := by
    rw [htext, ← Text.length_encodeUtf8 front]
    simp
  have hescaped : s.escaped = false := by
    cases hbackslash : s.escaped with
    | true => simp [Scan.step, hbackslash] at hstep
    | false => rfl
  rw [matchFrom, if_pos hstop, hget]
  simp only [bind, Except.bind, isEscaped_encodeUtf8, ← hs, hescaped]
  rewrite [tally_congr hlead, tally_eq hescaped, hstep]
  rfl

end Step

theorem escaped_of_step {next : Scan} (h : s.step mode bracket c = some next) :
    next.escaped = escapesNext s.escaped c := by
  unfold Scan.step at h
  simp only at h
  repeat' split at h
  all_goals cases h
  all_goals rfl

theorem escaped_of_step_behind {next : Scan} {front : List Char}
    (hs : s.escaped = escapedBehind front) (h : s.step mode bracket c = some next) :
    next.escaped = escapedBehind (front ++ [c]) := by
  rw [escapedBehind_append, ← hs]
  exact escaped_of_step h

variable (mode bracket) in
theorem matchFrom_eq (front cs back : List Char) (hs : s.escaped = escapedBehind front) :
    matchFrom mode bracket.opener bracket.closer (Text.encodeUtf8 (front ++ cs ++ back))
        (Text.byteLength front + Text.byteLength cs) (Text.byteLength front) (s.depth + 1)
        s.quoted =
      .ok ((splitEnclosed mode bracket s cs).map fun (inside, _) =>
        Text.byteLength front + Text.byteLength inside) := by
  induction cs generalizing front s with
  | nil =>
    rw [matchFrom, if_neg (by simp)]
    rfl
  | cons c cs ih =>
    have hpos := c.utf8Size_pos
    have hstop : Text.byteLength (front ++ [c]) ≤
        Text.byteLength front + Text.byteLength (c :: cs) := by
      rw [Text.byteLength_append, Text.byteLength_cons, Text.byteLength_cons, Text.byteLength_nil]
      omega
    rw [List.append_assoc, List.cons_append, splitEnclosed]
    cases hstep : s.step mode bracket c with
    | none =>
      have hinside : Text.byteLength front < Text.byteLength front + Text.byteLength (c :: cs) := by
        rw [Text.byteLength_cons]
        omega
      rw [matchFrom_stop front _ hs hinside hstep]
      rfl
    | some next =>
      have hrounds := rounds_step front (cs ++ back) hs hstep
      have hlater := ih (front ++ [c]) (escaped_of_step_behind hs hstep)
      rw [matchFrom_of_rounds hrounds hstop, Option.map_map]
      simp only [Text.byteLength_append, Text.byteLength_cons, Text.byteLength_nil,
        List.append_assoc, List.cons_append, List.nil_append, Nat.add_assoc, Nat.add_zero]
        at hlater ⊢
      exact hlater

/-- A scan that passes a text is behind it in the state in which the text leaves it. -/
theorem rounds_run {next : Scan} (front mid back : List Char) (hs : s.escaped = escapedBehind front)
    (hrun : s.run mode bracket mid = some next) :
    ByteScan.Rounds mode bracket.opener bracket.closer (Text.encodeUtf8 (front ++ mid ++ back))
      ⟨Text.byteLength front, s.depth + 1, s.quoted⟩
      ⟨Text.byteLength (front ++ mid), next.depth + 1, next.quoted⟩ := by
  induction mid generalizing front s with
  | nil =>
    obtain rfl : s = next := Option.some.inj hrun
    rw [List.append_nil]
  | cons c mid ih =>
    obtain ⟨first, hstep, hrest⟩ := Option.bind_eq_some_iff.mp hrun
    have hfirst := rounds_step front (mid ++ back) hs hstep
    have hlater := ih (front ++ [c]) (escaped_of_step_behind hs hstep) hrest
    rw [List.append_assoc front, List.singleton_append, List.append_assoc,
      List.cons_append] at hlater
    rw [List.append_assoc, List.cons_append]
    exact hfirst.trans hlater

/-- The closer that is found is where the text behind the opener is split. -/
theorem findMatching_within {text cs : List Char} {s : Span} (h : s.Within text)
    (hs : s.chars = bracket.opener :: cs) :
    findMatching mode bracket.opener bracket.closer (Text.encodeUtf8 text) s.offset
        (s.offset + Text.byteLength s.chars) =
      .ok ((splitEnclosed mode bracket {} cs).map fun (inside, _) =>
        s.offset + 1 + Text.byteLength inside) := by
  have hopener := expectOpener_within h (toNat_opener_lt bracket) hs
  obtain ⟨front, back, rfl, hoffset⟩ := h
  have hsize : bracket.opener.utf8Size = 1 := utf8Size_of_ascii (toNat_opener_lt bracket)
  have hne : bracket.opener ≠ '\\' := by cases bracket <;> decide
  have hmatch := matchFrom_eq mode bracket (s := {}) (front ++ [bracket.opener]) cs back
    (escapedBehind_concat front hne).symm
  rw [findMatching, hopener, hs, hoffset]
  simpa [hsize, Nat.add_assoc, bind, Except.bind] using hmatch

end Brackets

section Blanks

variable {text : List Char} {s : Span}

theorem skipBlanks_within (h : s.Within text) :
    skipBlanks (Text.encodeUtf8 text) s.offset (s.offset + Text.byteLength s.chars) =
      .ok (s.skipWhile Text.isBlank).offset := by
  obtain ⟨offset, chars⟩ := s
  induction chars generalizing offset with
  | nil =>
    rw [skipBlanks, if_neg (by simp)]
    rfl
  | cons c cs ih =>
    obtain ⟨byte, hbyte, hp⟩ := byteAt_first h rfl
    have hblank := hp _ asciiOnly_isBlank
    have hpos := c.utf8Size_pos
    rw [skipBlanks, if_pos (by simp only [Text.byteLength_cons]; omega)]
    simp only [bind, Except.bind, hbyte, hblank]
    cases hc : Text.isBlank c with
    | false => simp [Span.skipWhile, Span.advance, hc, pure, Except.pure]
    | true =>
      have hsize := utf8Size_of_ascii (asciiOnly_isBlank c hc)
      have hwithin : Span.Within text ⟨offset + 1, cs⟩ := by
        have hadvance := h.advance (show (⟨offset, c :: cs⟩ : Span).chars = [c] ++ cs from rfl)
        simpa [Span.advance, hsize] using hadvance
      have hrest := ih (offset + 1) hwithin
      simp only [Text.byteLength_cons, hsize, ← Nat.add_assoc]
      rw [if_pos trivial, hrest]
      simp [Span.skipWhile, Span.advance, hc, hsize, Nat.add_assoc]

theorem dropBlanks_within (h : s.Within text) :
    dropBlanks (Text.encodeUtf8 text) s.offset (s.offset + Text.byteLength s.chars) =
      .ok (s.offset + Text.byteLength (Text.trimEnd Text.isBlank s.chars)) := by
  obtain ⟨offset, chars⟩ := s
  induction chars using List.reverseRecOn with
  | nil => cases offset <;> simp [dropBlanks, Text.trimEnd, pure, Except.pure]
  | append_singleton front c ih =>
    obtain ⟨byte, hbyte, hp⟩ := byteAt_last h rfl
    have hblank := hp _ asciiOnly_isBlank
    obtain ⟨last, hlast⟩ : ∃ last, offset + Text.byteLength (front ++ [c]) = last + 1 := by
      refine Nat.exists_eq_add_one.mpr ?_
      have hpos := c.utf8Size_pos
      simp only [Text.byteLength_append, Text.byteLength_cons]
      omega
    have hlt : offset < last + 1 := by
      have hpos := c.utf8Size_pos
      rw [← hlast, Text.byteLength_append, Text.byteLength_cons]
      omega
    simp only [hlast, Nat.add_sub_cancel] at hbyte ⊢
    rw [dropBlanks, if_pos hlt]
    simp only [bind, Except.bind, hbyte, hblank]
    cases hc : Text.isBlank c with
    | false =>
      rw [if_neg Bool.false_ne_true, Text.trimEnd_append_cons front [] hc, ← hlast]
      rfl
    | true =>
      have hsize := utf8Size_of_ascii (asciiOnly_isBlank c hc)
      have hend : Text.trimEnd Text.isBlank (front ++ [c]) = Text.trimEnd Text.isBlank front := by
        simp [Text.trimEnd, hc]
      have hfront : last = offset + Text.byteLength front := by
        simp only [Text.byteLength_append, Text.byteLength_cons, Text.byteLength_nil, hsize]
          at hlast
        omega
      rw [if_pos rfl, hend, hfront, ih (h.front rfl)]

theorem trimSpan_within (h : s.Within text) :
    trimSpan (Text.encodeUtf8 text) s.offset (s.offset + Text.byteLength s.chars) =
      .ok (s.trim.offset, s.trim.offset + Text.byteLength s.trim.chars) := by
  have hstop : s.offset + Text.byteLength s.chars = (s.skipWhile Text.isBlank).offset +
      Text.byteLength (s.skipWhile Text.isBlank).chars := by
    simp only [Span.skipWhile, Span.advance]
    rw [Nat.add_assoc, ← Text.byteLength_append, List.takeWhile_append_dropWhile]
  have hdrop := dropBlanks_within (h.skipWhile Text.isBlank)
  rw [← hstop] at hdrop
  rw [trimSpan, skipBlanks_within h]
  simp only [bind, Except.bind, hdrop]
  rfl

end Blanks

end LenientJson.Offsets
