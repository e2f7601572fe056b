import LenientJson.Proofs.Offsets.Scans
import LenientJson.Proofs.Reading.Outcome

/-!
# Balance points

What a scan for a closer finds can be said without a scan. Behind the opener the closers that count
outnumber the openers that count by one for the first time at the closer sought. A bracket counts
if it is not escaped and, where strings are skipped, if the quotes before it are paired.
-/
namespace LenientJson.Offsets

open Reader

section Counting

variable (mode : ScanMode) (bytes : List UInt8) (start : Nat)

/-- The character stands at a position, and no odd run of backslashes directly before it. -/
def BareAt (c : Char) (i : Nat) : Prop :=
  bytes[i]?.map asChar = some c ∧ escapedBehind ((bytes.take i).map asChar) = false

instance (c : Char) : DecidablePred (BareAt bytes c) :=
  fun _ => inferInstanceAs (Decidable (_ ∧ _))

/-- The number of bare quotes between two positions. -/
def quotesBetween (i : Nat) : Nat := {j ∈ Finset.Ioo start i | BareAt bytes '"' j}.card

/-- A scan that begins at `start` counts the character at a position. If it skips strings, a quote
is not counted, and nothing behind an open one. -/
def CountsAt (c : Char) (i : Nat) : Prop :=
  BareAt bytes c i ∧ (mode = .stringAware → c ≠ '"' ∧ quotesBetween bytes start i % 2 = 0)

instance (c : Char) : DecidablePred (CountsAt mode bytes start c) :=
  fun _ => inferInstanceAs (Decidable (_ ∧ _))

/-- How often the character counts behind `start` and up to a position. -/
def countUpTo (c : Char) (i : Nat) : Nat :=
  {j ∈ Finset.Ioc start i | CountsAt mode bytes start c j}.card

/-- Up to a position the closers outnumber the openers by exactly one. -/
def IsBalancePoint (opener closer : Char) (i : Nat) : Prop :=
  countUpTo mode bytes start closer i = countUpTo mode bytes start opener i + 1

end Counting

/-- The answer of a search between two positions for the first with a property. -/
def IsFirst (P : Nat → Prop) (start stop : Nat) : Option Nat → Prop
  | some i => IsLeast {j | start < j ∧ j < stop ∧ P j} i
  | none => ∀ j, start < j → j < stop → ¬P j

section IsFirst

variable {P : Nat → Prop} {start stop i : Nat} {found : Option Nat}

/-- A search goes on behind positions without the property. -/
theorem IsFirst.behind {mid : Nat} (h : IsFirst P mid stop found)
    (hnot : ∀ j, start < j → j ≤ mid → ¬P j) (hmid : start ≤ mid) :
    IsFirst P start stop found := by
  have hlater {j : Nat} (hj : start < j) (hP : P j) : mid < j :=
    Nat.lt_of_not_le fun hle => hnot j hj hle hP
  cases found with
  | none => exact fun j hj hstop hP => h j (hlater hj hP) hstop hP
  | some i =>
    obtain ⟨⟨hi, hstop, hP⟩, hleast⟩ := h
    exact ⟨⟨hmid.trans_lt hi, hstop, hP⟩,
      fun j ⟨hj, hjstop, hPj⟩ => hleast ⟨hlater hj hPj, hjstop, hPj⟩⟩

/-- What is found does not depend on where the search would end. -/
theorem IsFirst.eq_some {stop' : Nat} (h : IsFirst P start stop (some i)) (hlt : i < stop')
    (h' : IsFirst P start stop' found) : found = some i := by
  obtain ⟨⟨hi, hstop, hP⟩, hleast⟩ := h
  cases found with
  | none => exact absurd hP (h' i hi hlt)
  | some j =>
    obtain ⟨⟨hj, hjstop, hPj⟩, hleast'⟩ := h'
    have hji : j ≤ i := hleast' ⟨hi, hlt, hP⟩
    have hij : i ≤ j := hleast ⟨hj, hji.trans_lt hstop, hPj⟩
    rw [Nat.le_antisymm hji hij]

end IsFirst

variable {mode : ScanMode} {opener closer c : Char} {bytes : List UInt8} {start stop last : Nat}

section Counting

theorem isEscaped_eq {i : Nat} (h : i ≤ bytes.length) :
    isEscaped bytes i = .ok (escapedBehind ((bytes.take i).map asChar)) := by
  rw [isEscaped, window, if_pos ⟨Nat.zero_le i, h⟩, escapedBehind, backslashRun, ← List.map_reverse,
    List.takeWhile_map, List.length_map]
  rfl

theorem countUpTo_start : countUpTo mode bytes start c start = 0 := by
  simp [countUpTo]

theorem quotesBetween_start : quotesBetween bytes start (start + 1) = 0 := by
  rw [quotesBetween, Finset.card_eq_zero, Finset.filter_eq_empty_iff]
  intro j hj
  rw [Finset.mem_Ioo] at hj
  omega

theorem countUpTo_succ (h : start ≤ last) :
    countUpTo mode bytes start c (last + 1) = countUpTo mode bytes start c last +
      if CountsAt mode bytes start c (last + 1) then 1 else 0 := by
  have hinsert : Finset.Ioc start (last + 1) = insert (last + 1) (Finset.Ioc start last) := by
    ext j
    simp only [Finset.mem_Ioc, Finset.mem_insert]
    omega
  rw [countUpTo, hinsert, Finset.filter_insert]
  split
  · exact Finset.card_insert_of_notMem (by simp)
  · rfl

theorem quotesBetween_succ (h : start ≤ last) :
    quotesBetween bytes start (last + 2) = quotesBetween bytes start (last + 1) +
      if BareAt bytes '"' (last + 1) then 1 else 0 := by
  have hinsert : Finset.Ioo start (last + 2) = insert (last + 1) (Finset.Ioo start (last + 1)) := by
    ext j
    simp only [Finset.mem_Ioo, Finset.mem_insert]
    omega
  rw [quotesBetween, hinsert, Finset.filter_insert]
  split
  · exact Finset.card_insert_of_notMem (by simp)
  · rfl

/-- Beyond the bytes nothing is counted. -/
theorem countUpTo_of_length_le {i : Nat} (hlength : bytes.length ≤ last + 1) (hstart : start ≤ last)
    (h : last ≤ i) : countUpTo mode bytes start c i = countUpTo mode bytes start c last := by
  induction i, h using Nat.le_induction with
  | base => rfl
  | succ i hi ih =>
    rw [countUpTo_succ (hstart.trans hi), if_neg, ih, Nat.add_zero]
    rintro ⟨⟨hbyte, -⟩, -⟩
    rw [List.getElem?_eq_none (by omega)] at hbyte
    cases hbyte

end Counting

section Tally

/-- What a scan knows behind a position: the brackets that are open, the first one included, and
whether it is in a string. -/
structure Tallied (mode : ScanMode) (opener closer : Char) (bytes : List UInt8)
    (start last depth : Nat) (quoted : Bool) : Prop where
  unclosed : 0 < depth
  level : opener ≠ closer →
    depth + countUpTo mode bytes start closer last = countUpTo mode bytes start opener last + 1
  quotes : quoted = (mode == .stringAware && quotesBetween bytes start (last + 1) % 2 == 1)

variable {depth : Nat} {quoted : Bool}

theorem tallied_start : Tallied mode opener closer bytes start start 1 false where
  unclosed := Nat.one_pos
  level _ := by rw [countUpTo_start, countUpTo_start]
  quotes := by simp [quotesBetween_start]

theorem Tallied.not_isBalancePoint (h : Tallied mode opener closer bytes start last depth quoted) :
    ¬IsBalancePoint mode bytes start opener closer last := by
  unfold IsBalancePoint
  by_cases heq : opener = closer
  · subst heq
    omega
  · have := h.level heq
    have := h.unclosed
    omega

/-- A byte at which no bracket counts leaves the brackets that are open. -/
theorem Tallied.uncounted {quoted' : Bool}
    (h : Tallied mode opener closer bytes start last depth quoted) (hstart : start ≤ last)
    (hopener : ¬CountsAt mode bytes start opener (last + 1))
    (hcloser : ¬CountsAt mode bytes start closer (last + 1))
    (hquotes : quoted' = (mode == .stringAware && quotesBetween bytes start (last + 2) % 2 == 1)) :
    Tallied mode opener closer bytes start (last + 1) depth quoted' where
  unclosed := h.unclosed
  level hne := by
    rw [countUpTo_succ hstart, if_neg hcloser, countUpTo_succ hstart, if_neg hopener]
    exact h.level hne
  quotes := hquotes

/-- Behind a bracket that opens one more is open. -/
theorem Tallied.opens (h : Tallied mode opener closer bytes start last depth quoted)
    (hstart : start ≤ last) (hopener : CountsAt mode bytes start opener (last + 1))
    (hcloser : opener ≠ closer → ¬CountsAt mode bytes start closer (last + 1))
    (hquotes : quoted = (mode == .stringAware && quotesBetween bytes start (last + 2) % 2 == 1)) :
    Tallied mode opener closer bytes start (last + 1) (depth + 1) quoted where
  unclosed := Nat.succ_pos depth
  level hne := by
    have hlevel := h.level hne
    rw [countUpTo_succ hstart, if_neg (hcloser hne), countUpTo_succ hstart, if_pos hopener]
    omega
  quotes := hquotes

/-- A bracket that closes is the balance point, or others are left open. -/
theorem Tallied.closes (h : Tallied mode opener closer bytes start last depth quoted)
    (hstart : start ≤ last) (hne : opener ≠ closer)
    (hopener : ¬CountsAt mode bytes start opener (last + 1))
    (hcloser : CountsAt mode bytes start closer (last + 1))
    (hquotes : quoted = (mode == .stringAware && quotesBetween bytes start (last + 2) % 2 == 1)) :
    if depth - 1 = 0 then IsBalancePoint mode bytes start opener closer (last + 1)
    else Tallied mode opener closer bytes start (last + 1) (depth - 1) quoted := by
  have hlevel := h.level hne
  have hunclosed := h.unclosed
  have hclosers : countUpTo mode bytes start closer (last + 1) =
      countUpTo mode bytes start closer last + 1 := by
    rw [countUpTo_succ hstart, if_pos hcloser]
  have hopeners : countUpTo mode bytes start opener (last + 1) =
      countUpTo mode bytes start opener last := by
    rw [countUpTo_succ hstart, if_neg hopener, Nat.add_zero]
  split
  · rw [IsBalancePoint]
    omega
  · exact ⟨by omega, fun _ => by omega, hquotes⟩

/-- A byte that is escaped is passed. -/
theorem Tallied.escaped (h : Tallied mode opener closer bytes start last depth quoted)
    (hstart : start ≤ last) (hescaped : escapedBehind ((bytes.take (last + 1)).map asChar) = true) :
    Tallied mode opener closer bytes start (last + 1) depth quoted := by
  have hbare (c : Char) : ¬BareAt bytes c (last + 1) := by
    rintro ⟨-, hnot⟩
    rw [hescaped] at hnot
    cases hnot
  apply h.uncounted hstart
  · exact fun hcounts => hbare opener hcounts.1
  · exact fun hcounts => hbare closer hcounts.1
  · rw [quotesBetween_succ hstart, if_neg (hbare _), Nat.add_zero]
    exact h.quotes

variable {c : Char} (h : Tallied mode opener closer bytes start last depth quoted)
  (hstart : start ≤ last) (hbyte : bytes[last + 1]?.map asChar = some c)
  (hescaped : escapedBehind ((bytes.take (last + 1)).map asChar) = false)
include hbyte hescaped

omit hbyte in
theorem bareAt_iff {d : Char} (hbyte : bytes[last + 1]?.map asChar = some c) :
    BareAt bytes d (last + 1) ↔ c = d := by
  rw [BareAt, hbyte, Option.some_inj]
  exact and_iff_left hescaped

include h in
/-- A character that is not escaped counts unless it is in a string or a quote of one. -/
theorem Tallied.countsAt_iff {d : Char} : CountsAt mode bytes start d (last + 1) ↔
    c = d ∧ ¬(mode = .stringAware ∧ c = '"') ∧ quoted = false := by
  rw [CountsAt, bareAt_iff hescaped hbyte, h.quotes]
  constructor
  · rintro ⟨rfl, hcounts⟩
    refine ⟨rfl, fun ⟨hmode, hquote⟩ => (hcounts hmode).1 hquote, ?_⟩
    cases mode with
    | legacy => rfl
    | stringAware => simp [(hcounts rfl).2]
  · rintro ⟨rfl, hquote, hquoted⟩
    refine ⟨rfl, ?_⟩
    rintro rfl
    exact ⟨fun hc => hquote ⟨rfl, hc⟩, by simpa using hquoted⟩

include h hstart

theorem Tallied.quotes_eq : (quoted ^^ (mode = .stringAware ∧ c = '"')) =
    (mode == .stringAware && quotesBetween bytes start (last + 2) % 2 == 1) := by
  rw [quotesBetween_succ hstart, if_congr (bareAt_iff hescaped hbyte) rfl rfl, h.quotes]
  cases mode with
  | legacy => rfl
  | stringAware =>
    by_cases hquote : c = '"'
    · rcases Nat.mod_two_eq_zero_or_one (quotesBetween bytes start (last + 1)) with hpar | hpar
      · simp [hquote, hpar, Nat.add_mod]
      · simp [hquote, hpar, Nat.add_mod]
    · simp [hquote]

/-- A byte that is not escaped closes the first bracket, or the scan goes on with new counts. -/
theorem Tallied.tally : ∃ next, tally mode opener closer c depth quoted = .ok next ∧
    match next with
    | none => IsBalancePoint mode bytes start opener closer (last + 1)
    | some (depth, quoted) => Tallied mode opener closer bytes start (last + 1) depth quoted := by
  have hcounts (d : Char) : CountsAt mode bytes start d (last + 1) ↔
      c = d ∧ ¬(mode = .stringAware ∧ c = '"') ∧ quoted = false := h.countsAt_iff hbyte hescaped
  have hquotes := h.quotes_eq hstart hbyte hescaped
  unfold Offsets.tally
  split
  next hquote =>
    have hnone (d : Char) : ¬CountsAt mode bytes start d (last + 1) :=
      fun hd => ((hcounts d).mp hd).2.1 hquote
    rw [decide_eq_true hquote, Bool.xor_true] at hquotes
    exact ⟨_, rfl, h.uncounted hstart (hnone opener) (hnone closer) hquotes⟩
  next hquote =>
    rw [decide_eq_false hquote, Bool.xor_false] at hquotes
    split
    next hquoted =>
      have hnone (d : Char) : ¬CountsAt mode bytes start d (last + 1) := fun hd => by
        rw [((hcounts d).mp hd).2.2] at hquoted
        cases hquoted
      exact ⟨_, rfl, h.uncounted hstart (hnone opener) (hnone closer) hquotes⟩
    next hquoted =>
      have hcounted (d : Char) : CountsAt mode bytes start d (last + 1) ↔ c = d := by
        rw [hcounts, Bool.eq_false_iff.mpr hquoted]
        simp [hquote]
      split
      next hopener =>
        have hcloser (hne : opener ≠ closer) : ¬CountsAt mode bytes start closer (last + 1) :=
          fun hd => hne (hopener.symm.trans ((hcounted closer).mp hd))
        exact ⟨_, rfl, h.opens hstart ((hcounted opener).mpr hopener) hcloser hquotes⟩
      next hopener =>
        have hnot : ¬CountsAt mode bytes start opener (last + 1) :=
          fun hd => hopener ((hcounted opener).mp hd)
        split
        next hcloser =>
          rw [minus, if_pos (show 1 ≤ depth from h.unclosed)]
          have hnext := h.closes hstart (fun heq => hopener (hcloser.trans heq.symm)) hnot
            ((hcounted closer).mpr hcloser) hquotes
          refine ⟨_, rfl, ?_⟩
          by_cases hlast : depth - 1 = 0
          · rw [if_pos hlast] at hnext ⊢
            exact hnext
          · rw [if_neg hlast] at hnext ⊢
            exact hnext
        next hcloser =>
          have hneither : ¬CountsAt mode bytes start closer (last + 1) :=
            fun hd => hcloser ((hcounted closer).mp hd)
          exact ⟨_, rfl, h.uncounted hstart hnot hneither hquotes⟩

end Tally

section Brackets

variable {depth : Nat} {quoted : Bool}

theorem eq_closer_of_tally (h : tally mode opener closer c depth quoted = .ok none) :
    c = closer := by
  by_contra hcloser
  rw [Offsets.tally, if_neg hcloser] at h
  repeat' split at h
  all_goals cases h

variable (stop) in
/-- A scan stops at the first balance point before its end. -/
theorem matchFrom_isFirst (h : Tallied mode opener closer bytes start last depth quoted)
    (hstart : start ≤ last) :
    ∃ found, matchFrom mode opener closer bytes stop (last + 1) depth quoted = .ok found ∧
      IsFirst (IsBalancePoint mode bytes start opener closer) last stop found := by
  induction hn : stop - (last + 1) generalizing last depth quoted with
  | zero =>
    refine ⟨none, ?_, fun j hj hstop => absurd hstop (by omega)⟩
    rw [matchFrom, if_neg (by omega)]
    rfl
  | succ n ih =>
    have hnot := h.not_isBalancePoint
    rw [matchFrom, if_pos (by omega)]
    cases hget : bytes[last + 1]? with
    | none =>
      refine ⟨none, rfl, fun j hj _ => ?_⟩
      have hlength : bytes.length ≤ last + 1 := List.getElem?_eq_none_iff.mp hget
      rw [IsBalancePoint, countUpTo_of_length_le hlength hstart hj.le,
        countUpTo_of_length_le hlength hstart hj.le]
      exact hnot
    | some byte =>
      have hlength : last + 1 ≤ bytes.length :=
        (List.getElem?_eq_some_iff.mp hget).choose.le
      have hescaped := isEscaped_eq hlength
      have hlater {depth : Nat} {quoted : Bool}
          (hnext : Tallied mode opener closer bytes start (last + 1) depth quoted) :
          ∃ found, matchFrom mode opener closer bytes stop (last + 1 + 1) depth quoted =
              .ok found ∧
            IsFirst (IsBalancePoint mode bytes start opener closer) last stop found := by
        obtain ⟨found, hrun, hfirst⟩ := ih hnext (by omega) (by omega)
        refine ⟨found, hrun, hfirst.behind (fun j hj hle => ?_) (Nat.le_succ last)⟩
        obtain rfl : j = last + 1 := by omega
        exact hnext.not_isBalancePoint
      simp only [bind, Except.bind, hescaped]
      split
      next hbackslash => exact hlater (h.escaped hstart hbackslash)
      next hbare =>
        obtain ⟨next, htally, hnext⟩ :=
          h.tally hstart (congrArg (Option.map asChar) hget) (Bool.eq_false_iff.mpr hbare)
        simp only [htally]
        cases next with
        | none =>
          exact ⟨some (last + 1), rfl, ⟨Nat.lt_succ_self last, by omega, hnext⟩, fun _ hj => hj.1⟩
        | some state => exact hlater hnext

/-- The closer that is found is the first balance point. -/
theorem findMatching_isFirst (hopener : bytes[start]?.map asChar = some opener) :
    ∃ found, findMatching mode opener closer bytes start stop = .ok found ∧
      IsFirst (IsBalancePoint mode bytes start opener closer) start stop found := by
  have htallied : Tallied mode opener closer bytes start start 1 false := tallied_start
  obtain ⟨found, hrun, hfirst⟩ := matchFrom_isFirst stop htallied (Nat.le_refl start)
  refine ⟨found, ?_, hfirst⟩
  rw [findMatching, expectOpener, if_pos hopener]
  exact hrun

/-- A scan stops at a closer. -/
theorem found_of_matchFrom {i j : Nat}
    (h : matchFrom mode opener closer bytes stop i depth quoted = .ok (some j)) :
    i ≤ j ∧ bytes[j]?.map asChar = some closer := by
  induction hn : stop - i using Nat.strong_induction_on generalizing i depth quoted with
  | _ n ih =>
    rw [matchFrom] at h
    split at h
    next hlt =>
      have hlater {depth : Nat} {quoted : Bool}
          (h : matchFrom mode opener closer bytes stop (i + 1) depth quoted = .ok (some j)) :
          i ≤ j ∧ bytes[j]?.map asChar = some closer :=
        (ih (stop - (i + 1)) (by omega) h rfl).imp_left (Nat.le_succ i).trans
      split at h
      next => cases h
      next byte hget =>
        obtain ⟨escaped, -, h⟩ := bind_eq_ok_iff.mp h
        split at h
        next => exact hlater h
        next =>
          obtain ⟨next, htally, h⟩ := bind_eq_ok_iff.mp h
          split at h
          next =>
            cases h
            rw [hget]
            exact ⟨le_rfl, congrArg some (eq_closer_of_tally htally)⟩
          next => exact hlater h
    next => cases h

variable {found : Option Nat}

/-- A scan that answers has begun at an opener. -/
theorem opener_of_findMatching (h : findMatching mode opener closer bytes start stop = .ok found) :
    bytes[start]?.map asChar = some opener := by
  by_contra hopener
  rw [findMatching, expectOpener, if_neg hopener] at h
  cases h

theorem isFirst_of_findMatching (h : findMatching mode opener closer bytes start stop = .ok found) :
    IsFirst (IsBalancePoint mode bytes start opener closer) start stop found := by
  obtain ⟨first, hrun, hfirst⟩ := findMatching_isFirst (opener_of_findMatching h)
  rw [h] at hrun
  cases hrun
  exact hfirst

variable {i j stop' : Nat}

theorem closer_of_findMatching
    (h : findMatching mode opener closer bytes start stop = .ok (some i)) :
    bytes[i]?.map asChar = some closer := by
  obtain ⟨-, -, hmatch⟩ := bind_eq_ok_iff.mp h
  exact (found_of_matchFrom hmatch).2

/-- A closer that is found is found with any end behind it. -/
theorem findMatching_stable (hi : i < stop')
    (h : findMatching mode opener closer bytes start stop = .ok (some i)) :
    findMatching mode opener closer bytes start stop' = .ok (some i) := by
  obtain ⟨found, hrun, hfirst⟩ := findMatching_isFirst (opener_of_findMatching h)
  rw [hrun, (isFirst_of_findMatching h).eq_some hi hfirst]

theorem findMatching_unique
    (hi : findMatching mode opener closer bytes start stop = .ok (some i))
    (hj : findMatching mode opener closer bytes start stop' = .ok (some j)) : i = j := by
  have hfound := findMatching_stable (Nat.lt_succ_of_le (Nat.le_max_left i j)) hi
  rw [findMatching_stable (Nat.lt_succ_of_le (Nat.le_max_right i j)) hj] at hfound
  exact (Option.some.inj (Except.ok.inj hfound)).symm

end Brackets

section Quotes

variable (c start) in
/-- A search in a window finds the first position at which the character stands. -/
theorem isFirst_findIdx? (hstop : stop ≤ bytes.length) :
    IsFirst (fun i => bytes[i]?.map asChar = some c) start stop
      ((((bytes.take stop).drop (start + 1)).findIdx? (asChar · == c)).map (start + 1 + ·)) := by
  have hget {ahead : Nat} (h : start + 1 + ahead < stop) :
      ((bytes.take stop).drop (start + 1))[ahead]? = bytes[start + 1 + ahead]? := by
    rw [List.getElem?_drop, List.getElem?_take_of_lt h]
  have hseen {j : Nat} (hj : start < j) (hjstop : j < stop)
      (hc : bytes[j]?.map asChar = some c) : ∃ ahead, j = start + 1 + ahead ∧
        ∃ byte, ((bytes.take stop).drop (start + 1))[ahead]? = some byte ∧ asChar byte = c := by
    obtain ⟨ahead, rfl⟩ := Nat.exists_eq_add_of_le (Nat.succ_le_of_lt hj)
    exact ⟨ahead, rfl, by simpa [hget hjstop] using hc⟩
  cases hfind : ((bytes.take stop).drop (start + 1)).findIdx? (asChar · == c) with
  | none =>
    intro j hj hjstop hc
    obtain ⟨ahead, rfl, byte, hbyte, hchar⟩ := hseen hj hjstop hc
    have hne := List.findIdx?_eq_none_iff.mp hfind byte (List.mem_of_getElem? hbyte)
    simp [hchar] at hne
  | some ahead =>
    obtain ⟨hlength, hchar, hbefore⟩ := List.findIdx?_eq_some_iff_getElem.mp hfind
    have hahead : start + 1 + ahead < stop := by
      rw [List.length_drop, List.length_take] at hlength
      omega
    have hc : bytes[start + 1 + ahead]?.map asChar = some c := by
      rw [← hget hahead, List.getElem?_eq_getElem hlength]
      exact congrArg some (beq_iff_eq.mp hchar)
    refine ⟨⟨by dsimp only; omega, hahead, hc⟩, ?_⟩
    rintro j ⟨hj, hjstop, hjc⟩
    obtain ⟨before, rfl, byte, hbyte, hchar⟩ := hseen hj hjstop hjc
    obtain ⟨hbound, hbyte⟩ := List.getElem?_eq_some_iff.mp hbyte
    have hle : ahead ≤ before := Nat.le_of_not_lt fun hlt =>
      hbefore before hlt (by rw [hbyte]; exact beq_iff_eq.mpr hchar)
    exact Nat.add_le_add_left hle _

/-- The quote that is found is the first bare one. -/
theorem findClosingQuote_isFirst (hstop : stop ≤ bytes.length) :
    ∃ found, findClosingQuote bytes (start + 1) stop = .ok found ∧
      IsFirst (BareAt bytes '"') start stop found := by
  induction hn : stop - start using Nat.strong_induction_on generalizing start with
  | _ n ih =>
    rw [findClosingQuote]
    by_cases hlt : start + 1 < stop
    · have hquote := isFirst_findIdx? '"' start hstop
      rw [if_pos hlt, window, if_pos ⟨hlt.le, hstop⟩]
      simp only [bind, Except.bind]
      cases hfind : ((bytes.take stop).drop (start + 1)).findIdx? (asChar · == '"') with
      | none =>
        rw [hfind] at hquote
        exact ⟨none, rfl, fun j hj hjstop hbare => hquote j hj hjstop hbare.1⟩
      | some ahead =>
        rw [hfind] at hquote
        obtain ⟨⟨hi, histop, hc⟩, hleast⟩ := hquote
        simp only [isEscaped_eq (histop.le.trans hstop)]
        split
        next hescaped =>
          obtain ⟨found, hrun, hfirst⟩ := ih (stop - (start + 1 + ahead)) (by omega) rfl
          refine ⟨found, hrun, hfirst.behind (fun j hj hle hbare => ?_) hi.le⟩
          obtain rfl := Nat.le_antisymm hle (hleast ⟨hj, hle.trans_lt histop, hbare.1⟩)
          rw [hbare.2] at hescaped
          cases hescaped
        next hbare =>
          refine ⟨some (start + 1 + ahead), rfl, ⟨hi, histop, hc, Bool.eq_false_iff.mpr hbare⟩, ?_⟩
          rintro j ⟨hj, hjstop, hjbare⟩
          exact hleast ⟨hj, hjstop, hjbare.1⟩
    · rw [if_neg hlt]
      exact ⟨none, rfl, fun j hj hjstop => absurd hjstop (by omega)⟩

/-- A quote that is found with an end beyond the text is none. -/
theorem isFirst_of_findClosingQuote {found : Option Nat}
    (h : findClosingQuote bytes (start + 1) stop = .ok found) :
    IsFirst (BareAt bytes '"') start stop found := by
  by_cases hstop : stop ≤ bytes.length
  · obtain ⟨first, hrun, hfirst⟩ := findClosingQuote_isFirst hstop
    rw [h] at hrun
    cases hrun
    exact hfirst
  · rw [findClosingQuote] at h
    split at h
    next =>
      obtain ⟨ahead, hwindow, -⟩ := bind_eq_ok_iff.mp h
      rw [window, if_neg fun hbounds => hstop hbounds.2] at hwindow
      cases hwindow
    next hend =>
      cases h
      exact fun j hj hjstop => absurd hjstop (by omega)

end Quotes

end LenientJson.Offsets
