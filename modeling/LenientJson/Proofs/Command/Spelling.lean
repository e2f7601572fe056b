import LenientJson.Command.Arguments
import LenientJson.Proofs.Reading.Pieces

/-!
# Spelling of arguments

What a list of arguments gives can be said without taking it from left to right: each argument
gives flags, a setting with its value, or the name of the input, or leaves the value of a setting
to the next one. The lists that ask for a job are those that can be spelled in this way and whose
options can all be recorded.
-/
namespace LenientJson.Command

inductive Given where
  | flag (flag : Flag)
  | setting (setting : Setting) (value : String)
  | input (name : String)
  deriving DecidableEq

section Names

/-- The name of a flag behind two hyphens. -/
def Flag.name : Flag → String
  | .array => "array"
  | .object => "object"
  | .stringAware => "string-aware"
  | .noDepthLimit => "no-depth-limit"

def Flag.letter? : Flag → Option Char
  | .array => some 'a'
  | _ => none

def Setting.name : Setting → String
  | .output => "output"
  | .format => "format"
  | .maxDepth => "max-depth"

def Setting.letter? : Setting → Option Char
  | .output => some 'o'
  | .format => some 'f'
  | .maxDepth => none

variable {name : String} {letter : Char} {flag : Flag} {setting : Setting}

theorem ofName?_eq_flag_iff : Switch.ofName? name = some (.flag flag) ↔ name = flag.name := by
  constructor
  · intro h
    unfold Switch.ofName? at h
    split at h
    all_goals cases h
    all_goals rfl
  · rintro rfl
    cases flag <;> rfl

theorem ofName?_eq_setting_iff :
    Switch.ofName? name = some (.setting setting) ↔ name = setting.name := by
  constructor
  · intro h
    unfold Switch.ofName? at h
    split at h
    all_goals cases h
    all_goals rfl
  · rintro rfl
    cases setting <;> rfl

theorem ofLetter?_eq_flag_iff :
    Switch.ofLetter? letter = some (.flag flag) ↔ flag.letter? = some letter := by
  constructor
  · intro h
    unfold Switch.ofLetter? at h
    split at h
    all_goals cases h
    all_goals rfl
  · intro h
    cases flag <;> cases h
    rfl

theorem ofLetter?_eq_setting_iff :
    Switch.ofLetter? letter = some (.setting setting) ↔ setting.letter? = some letter := by
  constructor
  · intro h
    unfold Switch.ofLetter? at h
    split at h
    all_goals cases h
    all_goals rfl
  · intro h
    cases setting <;> cases h
    all_goals rfl

end Names

/-- Letters run together, behind one hyphen. Only the last one may take a value, and it may be
awaited in the next argument. -/
inductive Cluster : List Given → Option Setting → List Char → Prop where
  | nil : Cluster [] none []
  | flag {letter : Char} {flag : Flag} {given : List Given} {awaited : Option Setting}
      {rest : List Char} (hletter : flag.letter? = some letter)
      (hrest : Cluster given awaited rest) :
      Cluster (.flag flag :: given) awaited (letter :: rest)
  | equals {letter : Char} {setting : Setting} {value : List Char}
      (hletter : setting.letter? = some letter) :
      Cluster [.setting setting (.ofList value)] none (letter :: '=' :: value)
  | attached {letter : Char} {setting : Setting} {value : List Char}
      (hletter : setting.letter? = some letter) (hne : value ≠ [])
      (hequals : value.head? ≠ some '=') :
      Cluster [.setting setting (.ofList value)] none (letter :: value)
  | awaits {letter : Char} {setting : Setting} (hletter : setting.letter? = some letter) :
      Cluster [] (some setting) [letter]

/-- What one argument gives, and the setting whose value it leaves to the next one. -/
inductive GivenBy (argument : String) : List Given → Option Setting → Prop where
  | flag {flag : Flag} (hspelled : argument = "--" ++ flag.name) :
      GivenBy argument [.flag flag] none
  | setting {value : String} {setting : Setting}
      (hspelled : argument = "--" ++ setting.name ++ "=" ++ value) :
      GivenBy argument [.setting setting value] none
  | awaits {setting : Setting} (hspelled : argument = "--" ++ setting.name) :
      GivenBy argument [] (some setting)
  | letters {given : List Given} {awaited : Option Setting} {letters : List Char}
      (hspelled : argument.toList = '-' :: letters) (hne : letters ≠ [])
      (hletters : Cluster given awaited letters) : GivenBy argument given awaited
  | input (hname : Arguments.isValue argument = true) : GivenBy argument [.input argument] none

/-- What a list of arguments gives. -/
inductive Spells : List Given → List String → Prop where
  | nil : Spells [] []
  | argument {argument : String} {given given' : List Given} {rest : List String}
      (hargument : GivenBy argument given none) (hrest : Spells given' rest) :
      Spells (given ++ given') (argument :: rest)
  | value {argument value : String} {setting : Setting} {given given' : List Given}
      {rest : List String} (hargument : GivenBy argument given (some setting))
      (hvalue : Arguments.isValue value = true) (hrest : Spells given' rest) :
      Spells (given ++ .setting setting value :: given') (argument :: value :: rest)
  | names (names : List String) : Spells (names.map .input) ("--" :: names)

namespace Arguments

def give (a : Arguments) : Given → Option Arguments
  | .flag flag => a.raise flag
  | .setting setting value => a.assign setting value
  | .input name => a.name name

/-- What has been given so far and the setting that awaits its value, unless the end is reached. -/
def Step.state? : Step → Option (Arguments × Option Setting)
  | .next a => some (a, none)
  | .awaits a setting => some (a, some setting)
  | .stop _ => none

variable {a b : Arguments} {given : List Given} {awaited : Option Setting}

theorem step_of_state?_none {step : Step} (h : step.state? = some (a, none)) : step = .next a := by
  cases step <;> cases h
  rfl

theorem step_of_state?_some {step : Step} {setting : Setting}
    (h : step.state? = some (a, some setting)) : step = .awaits a setting := by
  cases step <;> cases h
  rfl

theorem state?_ofOption {x : Option Arguments} :
    (Step.ofOption x).state? = some (b, awaited) ↔ x = some b ∧ awaited = none := by
  cases x with
  | none => simp [Step.ofOption, Step.state?]
  | some a => simp [Step.ofOption, Step.state?, eq_comm]

theorem foldlM_singleton {g : Given} : [g].foldlM give a = some b ↔ a.give g = some b := by
  simp

section Letters

variable {letters : List Char}

theorem state?_of_cluster (h : Cluster given awaited letters)
    (hgiven : given.foldlM give a = some b) :
    (a.takeLetters letters).state? = some (b, awaited) := by
  induction h generalizing a with
  | nil =>
    cases hgiven
    rfl
  | flag hletter hrest ih =>
    obtain ⟨next, hflag, hgiven⟩ := Option.bind_eq_some_iff.mp hgiven
    simp only [takeLetters, ofLetter?_eq_flag_iff.mpr hletter,
      show a.raise _ = some next from hflag]
    exact ih hgiven
  | equals hletter =>
    simp only [takeLetters, ofLetter?_eq_setting_iff.mpr hletter, state?_ofOption]
    exact ⟨foldlM_singleton.mp hgiven, trivial⟩
  | @attached letter setting value hletter hne hequals =>
    have hvalue := foldlM_singleton.mp hgiven
    cases value with
    | nil => exact absurd rfl hne
    | cons c value =>
      have hc : c ≠ '=' := fun hc => hequals (congrArg some hc)
      simp only [takeLetters, ofLetter?_eq_setting_iff.mpr hletter]
      split
      next heq => cases heq
      next heq => exact absurd (List.cons.inj heq).1 hc
      next => exact state?_ofOption.mpr ⟨hvalue, rfl⟩
  | awaits hletter =>
    cases hgiven
    simp [takeLetters, ofLetter?_eq_setting_iff.mpr hletter, Step.state?]

theorem exists_cluster (h : (a.takeLetters letters).state? = some (b, awaited)) :
    ∃ given, Cluster given awaited letters ∧ given.foldlM give a = some b := by
  induction letters generalizing a with
  | nil =>
    cases h
    exact ⟨[], .nil, rfl⟩
  | cons letter rest ih =>
    rw [takeLetters.eq_def] at h
    simp only at h
    split at h
    next setting hswitch =>
      have hletter := ofLetter?_eq_setting_iff.mp hswitch
      split at h
      next =>
        cases h
        exact ⟨[], .awaits hletter, rfl⟩
      next value =>
        obtain ⟨hvalue, rfl⟩ := state?_ofOption.mp h
        exact ⟨_, .equals hletter, foldlM_singleton.mpr hvalue⟩
      next value hne hequals =>
        obtain ⟨hvalue, rfl⟩ := state?_ofOption.mp h
        have hhead : rest.head? ≠ some '=' := by
          intro hhead
          obtain ⟨tail, rfl⟩ := List.head?_eq_some_iff.mp hhead
          exact hequals tail rfl
        exact ⟨_, .attached hletter hne hhead, foldlM_singleton.mpr hvalue⟩
    next flag hswitch =>
      have hletter := ofLetter?_eq_flag_iff.mp hswitch
      split at h
      next next hflag =>
        obtain ⟨given, hcluster, hgiven⟩ := ih h
        exact ⟨_, .flag hletter hcluster, Option.bind_eq_some_iff.mpr ⟨next, hflag, hgiven⟩⟩
      next => cases h
    next => cases h
    next => cases h
    next => cases h

end Letters

section Long

variable {name : String}

theorem notMem_flagName (flag : Flag) : '=' ∉ flag.name.toList := by
  cases flag <;> decide

theorem notMem_settingName (setting : Setting) : '=' ∉ setting.name.toList := by
  cases setting <;> decide

theorem take_long (a : Arguments) (hname : '=' ∉ name.toList) :
    a.take ("--" ++ name) = a.takeLong name none := by
  have hsplit : name.toList.takeWhile (· != '=') = name.toList ∧
      name.toList.dropWhile (· != '=') = [] := by
    rw [Reader.takeWhile_dropWhile_iff]
    refine ⟨(List.append_nil _).symm, fun c hc => ?_, nofun⟩
    exact bne_iff_ne.mpr (ne_of_mem_of_not_mem hc hname)
  simp [take, hsplit]

theorem take_long_value (a : Arguments) (value : String) (hname : '=' ∉ name.toList) :
    a.take ("--" ++ name ++ "=" ++ value) = a.takeLong name (some value) := by
  have hsplit : (name.toList ++ '=' :: value.toList).takeWhile (· != '=') = name.toList ∧
      (name.toList ++ '=' :: value.toList).dropWhile (· != '=') = '=' :: value.toList := by
    rw [Reader.takeWhile_dropWhile_iff]
    refine ⟨rfl, fun c hc => ?_, by simp⟩
    exact bne_iff_ne.mpr (ne_of_mem_of_not_mem hc hname)
  simp [take, hsplit]

end Long

section Argument

variable {argument : String} {c : Char} {rest : List Char}

theorem ne_hyphen_of_cluster (h : Cluster given awaited (c :: rest)) : c ≠ '-' := by
  rintro rfl
  cases h with
  | flag hletter => cases ofLetter?_eq_flag_iff.mpr hletter
  | equals hletter => cases ofLetter?_eq_setting_iff.mpr hletter
  | attached hletter => cases ofLetter?_eq_setting_iff.mpr hletter
  | awaits hletter => cases ofLetter?_eq_setting_iff.mpr hletter

theorem take_letters (a : Arguments) (hc : c ≠ '-') (harg : argument.toList = '-' :: c :: rest) :
    a.take argument = a.takeLetters (c :: rest) := by
  rw [take, harg]
  split
  next heq => exact absurd (List.cons.inj (List.cons.inj heq).2).1 hc
  next heq => cases heq; rfl
  next hshort => exact absurd rfl (hshort c rest)

theorem isValue_iff : isValue argument = true ↔
    argument.toList = ['-'] ∨ argument.toList.head? ≠ some '-' := by
  rw [isValue, isStandard, Bool.or_eq_true, beq_iff_eq, bne_iff_ne, ← String.toList_inj]
  rfl

theorem take_value (a : Arguments) (h : isValue argument = true) :
    a.take argument = .ofOption (a.name argument) := by
  rw [isValue_iff] at h
  rw [take]
  split
  next heq => simp [heq] at h
  next heq => simp [heq] at h
  next => rfl

theorem state?_of_givenBy (h : GivenBy argument given awaited)
    (hgiven : given.foldlM give a = some b) : (a.take argument).state? = some (b, awaited) := by
  cases h with
  | @flag flag hspelled =>
    rw [hspelled, take_long a (notMem_flagName flag)]
    simp only [takeLong, ofName?_eq_flag_iff.mpr rfl, state?_ofOption]
    exact ⟨foldlM_singleton.mp hgiven, trivial⟩
  | @setting value setting hspelled =>
    rw [hspelled, take_long_value a _ (notMem_settingName setting)]
    simp only [takeLong, ofName?_eq_setting_iff.mpr rfl, state?_ofOption]
    exact ⟨foldlM_singleton.mp hgiven, trivial⟩
  | @awaits setting hspelled =>
    rw [hspelled, take_long a (notMem_settingName setting)]
    cases hgiven
    simp only [takeLong, ofName?_eq_setting_iff.mpr rfl, Step.state?]
  | letters hspelled hne hletters =>
    obtain ⟨c, rest, rfl⟩ := List.exists_cons_of_ne_nil hne
    rw [take_letters a (ne_hyphen_of_cluster hletters) hspelled]
    exact state?_of_cluster hletters hgiven
  | input hname =>
    rw [take_value a hname, state?_ofOption]
    exact ⟨foldlM_singleton.mp hgiven, rfl⟩

theorem exists_givenBy_long {name : String} {value : Option String}
    (hspelled : argument = "--" ++ name ++ (value.elim "" ("=" ++ ·)))
    (h : (a.takeLong name value).state? = some (b, awaited)) :
    ∃ given, GivenBy argument given awaited ∧ given.foldlM give a = some b := by
  unfold takeLong at h
  split at h
  next hname =>
    obtain ⟨hvalue, rfl⟩ := state?_ofOption.mp h
    refine ⟨_, .setting ?_, foldlM_singleton.mpr hvalue⟩
    rw [hspelled, Option.elim_some, ← ofName?_eq_setting_iff.mp hname, String.append_assoc]
    simp [String.append_assoc]
  next hname =>
    cases h
    refine ⟨_, .awaits ?_, rfl⟩
    rw [hspelled, ← ofName?_eq_setting_iff.mp hname, Option.elim_none, String.append_empty]
  next hname =>
    obtain ⟨hflag, rfl⟩ := state?_ofOption.mp h
    refine ⟨_, .flag ?_, foldlM_singleton.mpr hflag⟩
    rw [hspelled, ← ofName?_eq_flag_iff.mp hname, Option.elim_none, String.append_empty]
  next => cases h
  next => cases h
  next => cases h

theorem exists_givenBy (h : (a.take argument).state? = some (b, awaited)) :
    ∃ given, GivenBy argument given awaited ∧ given.foldlM give a = some b := by
  rw [take.eq_def] at h
  split at h
  next long hlong =>
    apply exists_givenBy_long ?_ h
    have hsplit : long.takeWhile (· != '=') ++ long.dropWhile (· != '=') = long :=
      List.takeWhile_append_dropWhile
    have hmark := List.head?_dropWhile_not (· != '=') long
    rw [← String.toList_inj, hlong]
    split
    next hend =>
      rw [hend, List.append_nil] at hsplit
      simp [hsplit]
    next c value hvalue =>
      rw [hvalue] at hsplit hmark
      have hc : c = '=' := by simpa using hmark
      subst hc
      simp [hsplit]
  next letter letters hletter hshort =>
    obtain ⟨given, hcluster, hgiven⟩ := exists_cluster h
    exact ⟨given, .letters hshort (List.cons_ne_nil _ _) hcluster, hgiven⟩
  next hlong hshort =>
    obtain ⟨hname, rfl⟩ := state?_ofOption.mp h
    refine ⟨_, .input (isValue_iff.mpr ?_), foldlM_singleton.mpr hname⟩
    cases hargument : argument.toList with
    | nil => exact Or.inr nofun
    | cons c rest =>
      by_cases hc : c = '-'
      · subst hc
        cases rest with
        | nil => exact Or.inl rfl
        | cons letter letters => exact absurd hargument (hshort letter letters)
      · exact Or.inr fun hhead => hc (Option.some.inj hhead)

end Argument

section Lists

variable {job : Job} {argument : String} {arguments : List String}

/-- An option that is refused does not ask for a job. -/
theorem ne_run_of_ofOption {x : Option Arguments} {request : Request}
    (h : Step.ofOption x = .stop request) : request ≠ .run job := by
  cases x with
  | none =>
    cases h
    exact nofun
  | some a => cases h

theorem ne_run_of_takeLong {name : String} {value : Option String} {request : Request}
    (h : a.takeLong name value = .stop request) : request ≠ .run job := by
  unfold takeLong at h
  split at h
  next => exact ne_run_of_ofOption h
  next => cases h
  next => exact ne_run_of_ofOption h
  all_goals
    cases h
    exact nofun

theorem ne_run_of_takeLetters {letters : List Char} {request : Request}
    (h : a.takeLetters letters = .stop request) : request ≠ .run job := by
  induction letters generalizing a with
  | nil => cases h
  | cons letter rest ih =>
    rw [takeLetters.eq_def] at h
    simp only at h
    split at h
    next =>
      split at h
      next => cases h
      next => exact ne_run_of_ofOption h
      next => exact ne_run_of_ofOption h
    next =>
      split at h
      next => exact ih h
      next =>
        cases h
        exact nofun
    all_goals
      cases h
      exact nofun

theorem ne_run_of_take {request : Request} (h : a.take argument = .stop request) :
    request ≠ .run job := by
  rw [take.eq_def] at h
  split at h
  next => exact ne_run_of_takeLong h
  next => exact ne_run_of_takeLetters h
  next => exact ne_run_of_ofOption h

theorem takeNames_eq_run_iff {names : List String} : a.takeNames names = .run job ↔
    ∃ b, (names.map Given.input).foldlM give a = some b ∧ b.finish = .run job := by
  induction names generalizing a with
  | nil => simp [takeNames]
  | cons name names ih =>
    rw [takeNames, List.map_cons, List.foldlM_cons]
    cases hname : a.name name with
    | none => simp [give, hname]
    | some next => simp [give, hname, ih]

theorem ne_dashes_of_state? {x : Arguments × Option Setting}
    (h : (a.take argument).state? = some x) : argument ≠ "--" := by
  rintro rfl
  cases h

/-- What is spelled is taken. -/
theorem takeAll_of_spells (h : Spells given arguments) (hgiven : given.foldlM give a = some b)
    (hfinish : b.finish = .run job) : a.takeAll arguments = .run job := by
  induction h generalizing a with
  | nil =>
    cases hgiven
    rw [takeAll, hfinish]
  | argument hargument hrest ih =>
    rw [List.foldlM_append] at hgiven
    obtain ⟨next, hfirst, hlater⟩ := Option.bind_eq_some_iff.mp hgiven
    have hstate := state?_of_givenBy hargument hfirst
    rw [takeAll, if_neg (by simpa using ne_dashes_of_state? hstate), step_of_state?_none hstate]
    exact ih hlater
  | value hargument hvalue hrest ih =>
    rw [List.foldlM_append] at hgiven
    obtain ⟨next, hfirst, hlater⟩ := Option.bind_eq_some_iff.mp hgiven
    obtain ⟨assigned, hassign, hlater⟩ := Option.bind_eq_some_iff.mp hlater
    have hstate := state?_of_givenBy hargument hfirst
    rw [takeAll, if_neg (by simpa using ne_dashes_of_state? hstate), step_of_state?_some hstate]
    simp only [if_pos hvalue, show next.assign _ _ = some assigned from hassign]
    exact ih hlater
  | names names =>
    rw [takeAll, if_pos (beq_self_eq_true _)]
    exact takeNames_eq_run_iff.mpr ⟨b, hgiven, hfinish⟩

/-- What is taken for a job is spelled. -/
theorem exists_spells (h : a.takeAll arguments = .run job) :
    ∃ given b, Spells given arguments ∧ given.foldlM give a = some b ∧ b.finish = .run job := by
  fun_induction takeAll a arguments with
  | case1 a => exact ⟨[], a, .nil, rfl, h⟩
  | case2 a argument rest hdashes =>
    obtain ⟨b, hgiven, hfinish⟩ := takeNames_eq_run_iff.mp h
    rw [beq_iff_eq.mp hdashes]
    exact ⟨_, b, .names rest, hgiven, hfinish⟩
  | case3 a argument rest _ next hnext ih =>
    obtain ⟨given', b, hrest, hlater, hfinish⟩ := ih h
    have hstate : (a.take argument).state? = some (next, none) := congrArg Step.state? hnext
    obtain ⟨given, hargument, hfirst⟩ := exists_givenBy hstate
    refine ⟨given ++ given', b, .argument hargument hrest, ?_, hfinish⟩
    rw [List.foldlM_append]
    exact Option.bind_eq_some_iff.mpr ⟨next, hfirst, hlater⟩
  | case4 a argument rest _ request hstop => exact absurd h (ne_run_of_take hstop)
  | case6 a argument _ next setting hawaits value rest hvalue assigned hassign ih =>
    obtain ⟨given', b, hrest, hlater, hfinish⟩ := ih h
    have hstate : (a.take argument).state? = some (next, some setting) :=
      congrArg Step.state? hawaits
    obtain ⟨given, hargument, hfirst⟩ := exists_givenBy hstate
    refine ⟨given ++ .setting setting value :: given', b, .value hargument hvalue hrest, ?_,
      hfinish⟩
    rw [List.foldlM_append]
    have hvalued : (.setting setting value :: given' : List Given).foldlM give next = some b :=
      Option.bind_eq_some_iff.mpr ⟨assigned, hassign, hlater⟩
    exact Option.bind_eq_some_iff.mpr ⟨next, hfirst, hvalued⟩
  | case5 | case7 | case8 => cases h

end Lists

end Arguments

end LenientJson.Command
