import LenientJson.Offsets.Escape
import LenientJson.Proofs.Offsets.Access

/-!
# Escaping by slices

At each position the text is what has been done, what is pending to be copied, and the rest. The
pending characters are copied as they stand, so all that matters is what becomes of the rest.
-/
namespace LenientJson.Offsets

variable {text out done pending rest : List Char}

/-- The pending characters can be copied. -/
theorem slice_pending (htext : text = done ++ pending ++ rest) :
    slice text (Text.byteLength done) (Text.byteLength (done ++ pending)) = .ok pending := by
  rw [htext, Text.byteLength_append]
  exact slice_append done pending rest

section Escape

theorem pending_eq_nil (h : ¬Text.byteLength done < Text.byteLength (done ++ pending)) :
    pending = [] := by
  rw [Text.byteLength_append] at h
  exact Text.byteLength_eq_zero_iff.mp (by omega)

theorem escapeFrom_append {bytes behind : List UInt8} (start i : Nat)
    (h : ∀ byte ∈ bytes, Text.isEscaped (asChar byte) = false) :
    escapeFrom text out start i (bytes ++ behind) =
      escapeFrom text out start (i + bytes.length) behind := by
  induction bytes generalizing i with
  | nil => rfl
  | cons byte bytes ih =>
    have hbyte := h byte List.mem_cons_self
    rw [List.cons_append, escapeFrom, hbyte, if_neg Bool.false_ne_true,
      ih _ fun b hb => h b (List.mem_cons_of_mem byte hb), List.length_cons, Nat.add_assoc,
      Nat.add_comm 1]

theorem escapeFrom_eq (htext : text = done ++ pending ++ rest) :
    escapeFrom text out (Text.byteLength done) (Text.byteLength (done ++ pending))
        (Text.encodeUtf8 rest) =
      .ok (out ++ pending ++ Text.escape rest) := by
  induction rest generalizing out done pending with
  | nil =>
    have hlength : (Text.encodeUtf8 text).length = Text.byteLength (done ++ pending) := by
      rw [Text.length_encodeUtf8, htext, List.append_nil]
    rw [Text.encodeUtf8_nil, escapeFrom, hlength, Text.escape_nil, List.append_nil]
    split
    next => rw [slice_pending htext]; rfl
    next hlt => rw [pending_eq_nil hlt, List.append_nil]; rfl
  | cons c rest ih =>
    rw [Text.encodeUtf8_cons, Text.escape_cons, Text.escapeChar]
    cases hc : Text.isEscaped c with
    | true =>
      have hascii := asciiOnly_isEscaped c hc
      have htext' : text = (done ++ pending ++ [c]) ++ [] ++ rest := by simp [htext]
      have hrest := @ih (out ++ pending ++ ['\\', c]) _ _ htext'
      rw [List.append_nil, List.append_nil, Text.byteLength_append, Text.byteLength_cons,
        Text.byteLength_nil, utf8Size_of_ascii hascii] at hrest
      rw [utf8EncodeChar_of_ascii hascii, List.singleton_append, escapeFrom, asChar_ofNat hascii,
        hc, if_pos rfl]
      have hbehind : escapeFrom text (out ++ pending ++ ['\\', c])
          (Text.byteLength (done ++ pending) + 1) (Text.byteLength (done ++ pending) + 1)
          (Text.encodeUtf8 rest) = .ok (out ++ pending ++ (['\\', c] ++ Text.escape rest)) := by
        rw [hrest, List.append_assoc (out ++ pending)]
      split
      next => rw [slice_pending htext]; exact hbehind
      next hlt => rw [pending_eq_nil hlt] at hbehind ⊢; exact hbehind
    | false =>
      have htext' : text = done ++ (pending ++ [c]) ++ rest := by simp [htext]
      have hrest := @ih out _ _ htext'
      rw [← List.append_assoc, Text.byteLength_append, Text.byteLength_cons, Text.byteLength_nil]
        at hrest
      rw [escapeFrom_append _ _ fun byte => asChar_eq_false_of_mem asciiOnly_isEscaped hc,
        String.length_utf8EncodeChar]
      exact hrest.trans (by simp)

/-- Escaping by slices is escaping. -/
theorem escape_eq (text : List Char) : escape text = .ok (Text.escape text) := by
  have htext : text = [] ++ [] ++ text := rfl
  exact escapeFrom_eq htext

end Escape

section Unescape

theorem isEscapePair_eq (front : List Char) (c : Char) (rest : List Char) :
    isEscapePair (Text.encodeUtf8 (front ++ c :: rest)) (Text.byteLength front) =
      .ok (c == '\\' && rest.head?.any Text.isEscaped) := by
  obtain ⟨byte, hget, -, hp⟩ := getElem?_encodeUtf8 front rest c
  have hbackslash : (asChar byte == '\\') = (c == '\\') := hp _ (asciiOnly_beq (by decide))
  rw [isEscapePair, byteAt, hget]
  simp only [bind, Except.bind]
  by_cases hc : c = '\\'
  · have hbyte : asChar byte = '\\' := by rwa [← beq_iff_eq, hbackslash, beq_iff_eq]
    have hnext : Text.byteLength front + 1 = Text.byteLength (front ++ [c]) := by
      rw [Text.byteLength_append, hc]
      rfl
    cases rest with
    | nil =>
      rw [if_neg (by rw [hnext, Text.length_encodeUtf8]; simp)]
      simp [pure, Except.pure]
    | cons d rest =>
      obtain ⟨second, hsecond, -, hd⟩ := getElem?_encodeUtf8 (front ++ [c]) rest d
      rw [List.append_assoc, List.singleton_append, ← hnext] at hsecond
      obtain ⟨hlt, -⟩ := List.getElem?_eq_some_iff.mp hsecond
      rw [if_pos ⟨hbyte, hlt⟩, byteAt, hsecond]
      simp [pure, Except.pure, hd _ asciiOnly_isEscaped, hc]
  · have hbyte : asChar byte ≠ '\\' := by
      rwa [← beq_eq_false_iff_ne, hbackslash, beq_eq_false_iff_ne]
    rw [if_neg fun h => hbyte h.1, beq_eq_false_iff_ne.mpr hc]
    rfl

theorem isEscapePair_wide {bytes : List UInt8} {i : Nat} {byte : UInt8}
    (hget : bytes[i]? = some byte) (hbyte : 0x80 ≤ byte.toNat) :
    isEscapePair bytes i = .ok false := by
  have hne : asChar byte ≠ '\\' := by
    intro heq
    rw [← toNat_asChar, heq] at hbyte
    exact absurd hbyte (by decide)
  rw [isEscapePair, byteAt, hget]
  simp only [bind, Except.bind]
  rw [if_neg fun h => hne h.1]
  rfl

theorem unescapeFrom_step {start i : Nat} (hi : i < (Text.encodeUtf8 text).length)
    (h : isEscapePair (Text.encodeUtf8 text) i = .ok false) :
    unescapeFrom text out start i = unescapeFrom text out start (i + 1) := by
  rw [unescapeFrom, if_pos hi, h]
  rfl

variable (out) in
theorem unescapeFrom_wides {front bytes back : List UInt8} (start : Nat)
    (htext : Text.encodeUtf8 text = front ++ bytes ++ back)
    (hbytes : ∀ byte ∈ bytes, 0x80 ≤ byte.toNat) :
    unescapeFrom text out start front.length =
      unescapeFrom text out start (front.length + bytes.length) := by
  induction bytes generalizing front with
  | nil => rfl
  | cons byte bytes ih =>
    have hget : (Text.encodeUtf8 text)[front.length]? = some byte := by simp [htext]
    obtain ⟨hlt, -⟩ := List.getElem?_eq_some_iff.mp hget
    have hrest := @ih (front ++ [byte]) (by simp [htext])
      fun b hb => hbytes b (List.mem_cons_of_mem byte hb)
    rw [unescapeFrom_step hlt (isEscapePair_wide hget (hbytes byte List.mem_cons_self))]
    simpa [Nat.add_assoc, Nat.add_comm bytes.length 1] using hrest

/-- A character that does not begin an escape is passed with all its bytes. -/
theorem unescapeFrom_cons {c : Char} (start : Nat) (htext : text = done ++ c :: rest)
    (h : (c == '\\' && rest.head?.any Text.isEscaped) = false) :
    unescapeFrom text out start (Text.byteLength done) =
      unescapeFrom text out start (Text.byteLength (done ++ [c])) := by
  obtain ⟨lead, bytes, hbytes, hsize, hwide, -⟩ := exists_bytes done c rest
  have hlt : Text.byteLength done < (Text.encodeUtf8 text).length := by
    have hpos := c.utf8Size_pos
    rw [Text.length_encodeUtf8, htext, Text.byteLength_append, Text.byteLength_cons]
    omega
  have hpair := isEscapePair_eq done c rest
  have hpass := unescapeFrom_wides out start (htext ▸ hbytes) hwide
  rw [← htext, h] at hpair
  rw [List.length_append, Text.length_encodeUtf8, List.length_singleton] at hpass
  rw [unescapeFrom_step hlt hpair, hpass, Text.byteLength_append, Text.byteLength_cons,
    Text.byteLength_nil, hsize, Nat.add_zero, Nat.add_assoc _ 1, Nat.add_comm 1]

theorem unescapeFrom_nil (htext : text = done ++ pending) :
    unescapeFrom text out (Text.byteLength done) (Text.byteLength (done ++ pending)) =
      .ok (out ++ pending) := by
  have hslice : slice text (Text.byteLength done) (Text.byteLength (done ++ pending)) =
      .ok pending := slice_pending (by rw [htext, List.append_nil])
  have hlength : (Text.encodeUtf8 text).length = Text.byteLength (done ++ pending) := by
    rw [Text.length_encodeUtf8, htext]
  rw [unescapeFrom, hlength, if_neg (lt_irrefl _), hslice]
  rfl

theorem unescapeFrom_eq (htext : text = done ++ pending ++ rest) :
    unescapeFrom text out (Text.byteLength done) (Text.byteLength (done ++ pending)) =
      .ok (out ++ pending ++ Text.unescape rest) := by
  induction rest using Text.unescape.induct generalizing out done pending with
  | case1 =>
    rw [List.append_nil] at htext
    rw [unescapeFrom_nil htext, Text.unescape, List.append_nil]
  | case2 c =>
    rw [unescapeFrom_cons _ htext (by simp), List.append_assoc,
      unescapeFrom_nil (by rw [htext, List.append_assoc]), Text.unescape, List.append_assoc]
  | case3 c d rest hpair ih =>
    have hlt : Text.byteLength (done ++ pending) < (Text.encodeUtf8 text).length := by
      have hpos := c.utf8Size_pos
      rw [Text.length_encodeUtf8, htext]
      simp only [Text.byteLength_append, Text.byteLength_cons]
      omega
    obtain ⟨hc, hd⟩ := Bool.and_eq_true_iff.mp hpair
    have hsize : c.utf8Size = 1 := by rw [beq_iff_eq.mp hc]; rfl
    have hdsize := utf8Size_of_ascii (asciiOnly_isEscaped d hd)
    have hrest := @ih (out ++ pending) (done ++ pending ++ [c]) [d] (by simp [htext])
    rw [Text.byteLength_append _ [d], Text.byteLength_append _ [c], Text.byteLength_cons,
      Text.byteLength_cons, Text.byteLength_nil, hsize, hdsize, List.append_assoc _ [d]] at hrest
    have hescape := isEscapePair_eq (done ++ pending) c (d :: rest)
    rw [← htext, List.head?_cons, Option.any_some, hpair] at hescape
    rw [unescapeFrom, if_pos hlt, hescape, slice_pending htext, Text.unescape, if_pos hpair]
    exact hrest
  | case4 c d rest hpair ih =>
    rw [unescapeFrom_cons _ htext (by simpa using hpair), List.append_assoc,
      ih (by rw [htext]; simp), Text.unescape, if_neg hpair]
    simp

/-- Unescaping by slices is unescaping. -/
theorem unescape_eq (text : List Char) : unescape text = .ok (Text.unescape text) := by
  rw [unescape, any_encodeUtf8 (asciiOnly_beq (by decide))]
  split
  next =>
    have htext : text = [] ++ [] ++ text := rfl
    exact unescapeFrom_eq htext
  next hany =>
    rw [Text.unescape_of_not_mem]
    · rfl
    · simpa using hany

end Unescape

end LenientJson.Offsets
