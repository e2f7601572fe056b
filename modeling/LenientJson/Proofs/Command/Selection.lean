import LenientJson.Proofs.Command.Spelling

/-!
# Selected jobs

Which job is run depends only on what the arguments give, not on their order or spelling. Nothing
may be given twice, a format and a depth have to be ones that exist, and an option that is not
given leaves its default.
-/
namespace LenientJson.Command

inductive Slot where
  | flag (flag : Flag)
  | setting (setting : Setting)
  | input
  deriving DecidableEq

def Given.slot : Given → Slot
  | .flag raised => .flag raised
  | .setting assigned _ => .setting assigned
  | .input _ => .input

section Values

def Format.name : Format → String
  | .compact => "compact"
  | .json => "json"
  | .row => "row"

/-- A depth of 64 bits in digits, perhaps behind a plus. -/
def SpellsDepth (value : String) (depth : Nat) : Prop :=
  depth < 2 ^ 64 ∧ ∃ numeral, (value.toList = numeral ∨ value.toList = '+' :: numeral) ∧
    Digits.isNumeral numeral = true ∧ Digits.value numeral = depth

variable {value : String} {format : Format} {depth : Nat}

theorem ofName?_eq_some_iff : Format.ofName? value = some format ↔ value = format.name := by
  constructor
  · intro h
    unfold Format.ofName? at h
    split at h
    all_goals cases h
    all_goals rfl
  · rintro rfl
    cases format <;> rfl

theorem depth?_eq_some_iff :
    Arguments.depth? value = some depth ↔ SpellsDepth value depth := by
  have hread (numeral : List Char) :
      (if Digits.isNumeral numeral ∧ Digits.value numeral < UInt64.size
        then some (Digits.value numeral) else none) = some depth ↔
      depth < 2 ^ 64 ∧ Digits.isNumeral numeral = true ∧ Digits.value numeral = depth := by
    rw [Option.ite_none_right_eq_some, Option.some_inj]
    constructor
    · rintro ⟨⟨hnumeral, hlt⟩, rfl⟩
      exact ⟨hlt, hnumeral, rfl⟩
    · rintro ⟨hlt, hnumeral, rfl⟩
      exact ⟨⟨hnumeral, hlt⟩, rfl⟩
  unfold Arguments.depth? SpellsDepth
  split
  next rest hplus =>
    rw [hread, hplus]
    constructor
    · rintro ⟨hlt, hrest⟩
      exact ⟨hlt, rest, .inr rfl, hrest⟩
    · rintro ⟨hlt, numeral, rfl | heq, hnumeral⟩
      · cases hnumeral.1
      · rw [(List.cons.inj heq).2]
        exact ⟨hlt, hnumeral⟩
  next hplain =>
    rw [hread]
    constructor
    · rintro ⟨hlt, hvalue⟩
      exact ⟨hlt, _, .inl rfl, hvalue⟩
    · rintro ⟨hlt, numeral, heq | heq, hnumeral⟩
      · rw [heq]
        exact ⟨hlt, hnumeral⟩
      · exact absurd heq (hplain numeral)

end Values

/-- The job that is selected by what is given. -/
structure Selects (given : List Given) (job : Job) : Prop where
  once : given.Pairwise fun x y => x.slot ≠ y.slot
  oneShape : .flag .array ∈ given → .flag .object ∉ given
  oneLimit : .flag .noDepthLimit ∈ given → ∀ value, .setting .maxDepth value ∉ given
  input : ∀ name, job.input = some name ↔ .input name ∈ given
  output : ∀ path, job.output = some path ↔ .setting .output path ∈ given
  shape : job.shape = if .flag .array ∈ given then some .array
    else if .flag .object ∈ given then some .object else none
  format : ∀ value, .setting .format value ∈ given → value = job.format.name
  compact : (∀ value, .setting .format value ∉ given) → job.format = .compact
  mode : job.options.mode = if .flag .stringAware ∈ given then .stringAware else .legacy
  unlimited : .flag .noDepthLimit ∈ given → job.options.maxDepth = none
  maxDepth : ∀ value, .setting .maxDepth value ∈ given →
    ∃ depth, SpellsDepth value depth ∧ job.options.maxDepth = some depth
  defaultDepth : .flag .noDepthLimit ∉ given → (∀ value, .setting .maxDepth value ∉ given) →
    job.options.maxDepth = some 256

namespace Arguments

def holds (a : Arguments) : Slot → Bool
  | .flag flag => a.flags.contains flag
  | .setting .output => a.output.isSome
  | .setting .format => a.format.isSome
  | .setting .maxDepth => a.maxDepth.isSome
  | .input => a.input.isSome

def isKnown : Given → Bool
  | .setting .format value => (Format.ofName? value).isSome
  | .setting .maxDepth value => (depth? value).isSome
  | _ => true

def record (a : Arguments) : Given → Arguments
  | .flag flag => { a with flags := flag :: a.flags }
  | .setting .output value => { a with output := some value }
  | .setting .format value => { a with format := (Format.ofName? value).or a.format }
  | .setting .maxDepth value => { a with maxDepth := (depth? value).or a.maxDepth }
  | .input name => { a with input := some name }

variable {a b : Arguments} {g : Given} {given : List Given}

theorem give_eq_some_iff : a.give g = some b ↔
    a.holds g.slot = false ∧ isKnown g = true ∧ a.record g = b := by
  cases g with
  | flag flag => simp [give, raise, holds, isKnown, record, Given.slot]
  | input name => simp [give, Arguments.name, holds, isKnown, record, Given.slot]
  | setting setting value =>
    cases setting with
    | output => simp [give, assign, holds, isKnown, record, Given.slot]
    | format =>
      cases hvalue : Format.ofName? value <;>
        simp [give, assign, holds, isKnown, record, Given.slot, hvalue]
    | maxDepth =>
      cases hvalue : depth? value <;>
        simp [give, assign, holds, isKnown, record, Given.slot, hvalue]

theorem holds_record (hknown : isKnown g = true) (slot : Slot) :
    (a.record g).holds slot = (a.holds slot || decide (g.slot = slot)) := by
  cases g with
  | flag flag =>
    rcases slot with other | (_ | _ | _) | _
    · simp [holds, record, Given.slot, Bool.or_comm, eq_comm]
    all_goals simp [holds, record, Given.slot]
  | input name => rcases slot with _ | (_ | _ | _) | _ <;> simp [holds, record, Given.slot]
  | setting setting value =>
    cases setting with
    | output => rcases slot with _ | (_ | _ | _) | _ <;> simp [holds, record, Given.slot]
    | format =>
      obtain ⟨format, hvalue⟩ := Option.isSome_iff_exists.mp hknown
      rcases slot with _ | (_ | _ | _) | _ <;> simp [holds, record, Given.slot, hvalue]
    | maxDepth =>
      obtain ⟨depth, hvalue⟩ := Option.isSome_iff_exists.mp hknown
      rcases slot with _ | (_ | _ | _) | _ <;> simp [holds, record, Given.slot, hvalue]

/-- Things can be given one after the other if none of them has been given before and every value
is known. -/
theorem foldlM_give_eq_some_iff : given.foldlM give a = some b ↔
    (given.Pairwise fun x y => x.slot ≠ y.slot) ∧
      (∀ g ∈ given, a.holds g.slot = false ∧ isKnown g = true) ∧ given.foldl record a = b := by
  induction given generalizing a with
  | nil => simp
  | cons g given ih =>
    rw [List.foldlM_cons, List.pairwise_cons, List.forall_mem_cons, List.foldl_cons]
    constructor
    · intro h
      obtain ⟨next, hgive, hrest⟩ := Option.bind_eq_some_iff.mp h
      obtain ⟨hfree, hknown, rfl⟩ := give_eq_some_iff.mp hgive
      obtain ⟨honce, hrest, hfold⟩ := ih.mp hrest
      simp only [holds_record hknown, Bool.or_eq_false_iff, decide_eq_false_iff_not] at hrest
      exact ⟨⟨fun g' hg' => (hrest g' hg').1.2, honce⟩,
        ⟨⟨hfree, hknown⟩, fun g' hg' => ⟨(hrest g' hg').1.1, (hrest g' hg').2⟩⟩, hfold⟩
    · rintro ⟨⟨hslots, honce⟩, ⟨⟨hfree, hknown⟩, hrest⟩, hfold⟩
      have hgive := give_eq_some_iff.mpr ⟨hfree, hknown, rfl⟩
      apply Option.bind_eq_some_iff.mpr
      refine ⟨_, hgive, ih.mpr ⟨honce, fun g' hg' => ⟨?_, (hrest g' hg').2⟩, hfold⟩⟩
      simp [holds_record hknown, (hrest g' hg').1, hslots g' hg']

section Fields

def value? (slot : Slot) : Given → Option String
  | .flag _ => none
  | .setting setting value => if .setting setting = slot then some value else none
  | .input name => if .input = slot then some name else none

theorem slot_of_value? {slot : Slot} {value : String} (h : value? slot g = some value) :
    g.slot = slot := by
  cases g with
  | flag flag => cases h
  | setting setting value => exact (Option.ite_none_right_eq_some.mp h).1
  | input name => exact (Option.ite_none_right_eq_some.mp h).1

theorem value?_input_iff {name : String} : value? .input g = some name ↔ g = .input name := by
  cases g <;> simp [value?]

theorem value?_setting_iff {setting : Setting} {value : String} :
    value? (.setting setting) g = some value ↔ g = .setting setting value := by
  cases g <;> simp [value?]

variable {β : Type} {get : Arguments → Option β} {read : String → Option β} {slot : Slot}

/-- The last value for a field is kept, and it is the only one. -/
theorem get_foldl_record_or
    (hget : ∀ a g, get (a.record g) = ((value? slot g).bind read).or (get a))
    (honce : given.Pairwise fun x y => x.slot ≠ y.slot) (x : β) :
    get (given.foldl record a) = some x ↔ (∃ g ∈ given, (value? slot g).bind read = some x) ∨
      get a = some x ∧ ∀ g ∈ given, (value? slot g).bind read = none := by
  induction given generalizing a with
  | nil => simp
  | cons g given ih =>
    obtain ⟨hslots, honce⟩ := List.pairwise_cons.mp honce
    rw [List.foldl_cons, ih honce, hget, List.forall_mem_cons]
    simp only [List.mem_cons, exists_eq_or_imp]
    cases hg : (value? slot g).bind read with
    | none => simp
    | some y =>
      have hnone (g' : Given) (hg' : g' ∈ given) : (value? slot g').bind read = none := by
        by_contra hsome
        obtain ⟨z, hz⟩ := Option.ne_none_iff_exists'.mp hsome
        obtain ⟨value, hvalue, -⟩ := Option.bind_eq_some_iff.mp hg
        obtain ⟨value', hvalue', -⟩ := Option.bind_eq_some_iff.mp hz
        exact hslots g' hg' ((slot_of_value? hvalue).trans (slot_of_value? hvalue').symm)
      simp +contextual [hnone, or_comm]

theorem get_foldl_record (hnone : get {} = none)
    (hget : ∀ a g, get (a.record g) = ((value? slot g).bind read).or (get a))
    (honce : given.Pairwise fun x y => x.slot ≠ y.slot) (x : β) :
    get (given.foldl record {}) = some x ↔
      ∃ g ∈ given, (value? slot g).bind read = some x := by
  simp [get_foldl_record_or hget honce, hnone]

theorem exists_setting_iff {setting : Setting} {x : β} :
    (∃ g ∈ given, (value? (.setting setting) g).bind read = some x) ↔
      ∃ value, .setting setting value ∈ given ∧ read value = some x := by
  simp only [Option.bind_eq_some_iff, value?_setting_iff]
  constructor
  · rintro ⟨_, hmem, value, rfl, hread⟩
    exact ⟨value, hmem, hread⟩
  · rintro ⟨value, hmem, hread⟩
    exact ⟨_, hmem, value, rfl, hread⟩

theorem mem_flags_foldl_record {flag : Flag} : flag ∈ (given.foldl record a).flags ↔
    .flag flag ∈ given ∨ flag ∈ a.flags := by
  induction given generalizing a with
  | nil => simp
  | cons g given ih =>
    rw [List.foldl_cons, ih, List.mem_cons]
    rcases g with raised | ⟨_ | _ | _, value⟩ | name
    · simp [record, or_left_comm, or_assoc]
    all_goals simp [record]

end Fields

structure Records (given : List Given) (a : Arguments) : Prop where
  flags : ∀ flag, flag ∈ a.flags ↔ .flag flag ∈ given
  input : ∀ name, a.input = some name ↔ .input name ∈ given
  output : ∀ path, a.output = some path ↔ .setting .output path ∈ given
  format : ∀ format, a.format = some format ↔
    ∃ value, .setting .format value ∈ given ∧ Format.ofName? value = some format
  maxDepth : ∀ depth, a.maxDepth = some depth ↔
    ∃ value, .setting .maxDepth value ∈ given ∧ depth? value = some depth

theorem records_foldl (honce : given.Pairwise fun x y => x.slot ≠ y.slot) :
    Records given (given.foldl record {}) where
  flags flag := by simp [mem_flags_foldl_record]
  input name := by
    have hget (a : Arguments) (g : Given) :
        (a.record g).input = ((value? .input g).bind some).or a.input := by
      rcases g with _ | ⟨_ | _ | _, _⟩ | _ <;> rfl
    simp [get_foldl_record rfl hget honce, value?_input_iff]
  output path := by
    have hget (a : Arguments) (g : Given) :
        (a.record g).output = ((value? (.setting .output) g).bind some).or a.output := by
      rcases g with _ | ⟨_ | _ | _, _⟩ | _ <;> rfl
    simp [get_foldl_record rfl hget honce, value?_setting_iff]
  format format := by
    have hget (a : Arguments) (g : Given) : (a.record g).format =
        ((value? (.setting .format) g).bind Format.ofName?).or a.format := by
      rcases g with _ | ⟨_ | _ | _, _⟩ | _ <;> rfl
    rw [get_foldl_record rfl hget honce, exists_setting_iff]
  maxDepth depth := by
    have hget (a : Arguments) (g : Given) : (a.record g).maxDepth =
        ((value? (.setting .maxDepth) g).bind depth?).or a.maxDepth := by
      rcases g with _ | ⟨_ | _ | _, _⟩ | _ <;> rfl
    rw [get_foldl_record rfl hget honce, exists_setting_iff]

section Finish

variable {job : Job}

theorem finish_eq_run_iff : a.finish = .run job ↔ a.conflicting = false ∧
    job = { input := a.input, output := a.output, shape := a.shape?
            format := a.format.getD .compact, options := a.options } := by
  rw [finish]
  cases a.conflicting <;> simp [eq_comm]

variable (records : Records given a)
include records

theorem Records.shape?_eq : a.shape? = if .flag .array ∈ given then some .array
    else if .flag .object ∈ given then some .object else none := by
  simp [shape?, records.flags]

theorem Records.mode_eq : a.options.mode =
    if .flag .stringAware ∈ given then .stringAware else .legacy := by
  simp [options, records.flags]

theorem Records.maxDepth_eq : a.options.maxDepth =
    if .flag .noDepthLimit ∈ given then none else a.maxDepth.or (some 256) := by
  simp [options, records.flags]

theorem Records.format_eq_none (h : ∀ value, .setting .format value ∉ given) : a.format = none := by
  rw [Option.eq_none_iff_forall_ne_some]
  intro format hformat
  obtain ⟨value, hmem, -⟩ := (records.format format).mp hformat
  exact h value hmem

theorem Records.maxDepth_eq_none (h : ∀ value, .setting .maxDepth value ∉ given) :
    a.maxDepth = none := by
  rw [Option.eq_none_iff_forall_ne_some]
  intro depth hdepth
  obtain ⟨value, hmem, -⟩ := (records.maxDepth depth).mp hdepth
  exact h value hmem

theorem Records.conflicting_eq_false_iff : a.conflicting = false ↔
    (.flag .array ∈ given → .flag .object ∉ given) ∧
      (.flag .noDepthLimit ∈ given → a.maxDepth = none) := by
  cases hdepth : a.maxDepth <;> simp [conflicting, records.flags, hdepth]

theorem Records.selects (honce : given.Pairwise fun x y => x.slot ≠ y.slot)
    (hknown : ∀ g ∈ given, isKnown g = true) (hfinish : a.finish = .run job) :
    Selects given job := by
  obtain ⟨hconflicting, rfl⟩ := finish_eq_run_iff.mp hfinish
  obtain ⟨hshape, hlimit⟩ := records.conflicting_eq_false_iff.mp hconflicting
  have hdepth (value : String) (hmem : .setting .maxDepth value ∈ given) :
      ∃ depth, depth? value = some depth ∧ a.maxDepth = some depth := by
    obtain ⟨depth, hvalue⟩ := Option.isSome_iff_exists.mp (hknown _ hmem)
    exact ⟨depth, hvalue, (records.maxDepth depth).mpr ⟨value, hmem, hvalue⟩⟩
  have hunlimited (hflag : .flag .noDepthLimit ∈ given) (value : String) :
      .setting .maxDepth value ∉ given := by
    intro hmem
    obtain ⟨depth, -, hsome⟩ := hdepth value hmem
    rw [hlimit hflag] at hsome
    cases hsome
  constructor
  · exact honce
  · exact hshape
  · exact hunlimited
  · exact records.input
  · exact records.output
  · exact records.shape?_eq
  · intro value hmem
    obtain ⟨format, hvalue⟩ := Option.isSome_iff_exists.mp (hknown _ hmem)
    rw [(records.format format).mpr ⟨value, hmem, hvalue⟩]
    exact ofName?_eq_some_iff.mp hvalue
  · intro hnone
    rw [records.format_eq_none hnone]
    rfl
  · exact records.mode_eq
  · intro hflag
    rw [records.maxDepth_eq, if_pos hflag]
  · intro value hmem
    obtain ⟨depth, hvalue, hsome⟩ := hdepth value hmem
    have hflag : .flag .noDepthLimit ∉ given := fun hflag => hunlimited hflag value hmem
    refine ⟨depth, depth?_eq_some_iff.mp hvalue, ?_⟩
    rw [records.maxDepth_eq, if_neg hflag, hsome]
    rfl
  · intro hflag hnone
    rw [records.maxDepth_eq, if_neg hflag, records.maxDepth_eq_none hnone]
    rfl

theorem Records.options_eq (h : Selects given job) : a.options = job.options := by
  have hdepth : a.options.maxDepth = job.options.maxDepth := by
    rw [records.maxDepth_eq]
    by_cases hflag : .flag .noDepthLimit ∈ given
    · rw [if_pos hflag, h.unlimited hflag]
    · rw [if_neg hflag]
      by_cases hsome : ∃ value, .setting .maxDepth value ∈ given
      · obtain ⟨value, hmem⟩ := hsome
        obtain ⟨depth, hvalue, hjob⟩ := h.maxDepth value hmem
        rw [hjob, (records.maxDepth depth).mpr ⟨value, hmem, depth?_eq_some_iff.mpr hvalue⟩]
        rfl
      · have hnone := not_exists.mp hsome
        rw [h.defaultDepth hflag hnone, records.maxDepth_eq_none hnone]
        rfl
  have hmode : a.options.mode = job.options.mode := records.mode_eq.trans h.mode.symm
  calc a.options = ⟨a.options.mode, a.options.maxDepth⟩ := rfl
    _ = ⟨job.options.mode, job.options.maxDepth⟩ := by rw [hmode, hdepth]
    _ = job.options := rfl

theorem Records.format_eq (h : Selects given job) : a.format.getD .compact = job.format := by
  by_cases hsome : ∃ value, .setting .format value ∈ given
  · obtain ⟨value, hmem⟩ := hsome
    have hvalue := ofName?_eq_some_iff.mpr (h.format value hmem)
    rw [(records.format _).mpr ⟨value, hmem, hvalue⟩]
    rfl
  · have hnone := not_exists.mp hsome
    rw [h.compact hnone, records.format_eq_none hnone]
    rfl

theorem Records.finish_eq (h : Selects given job) : a.finish = .run job := by
  have hconflicting : a.conflicting = false := records.conflicting_eq_false_iff.mpr
    ⟨h.oneShape, fun hflag => records.maxDepth_eq_none (h.oneLimit hflag)⟩
  have hinput : a.input = job.input :=
    Option.ext fun name => (records.input name).trans (h.input name).symm
  have houtput : a.output = job.output :=
    Option.ext fun path => (records.output path).trans (h.output path).symm
  have hshape : a.shape? = job.shape := records.shape?_eq.trans h.shape.symm
  rw [finish_eq_run_iff, hinput, houtput, hshape, records.format_eq h, records.options_eq h]
  exact ⟨hconflicting, rfl⟩

omit records in
theorem isKnown_of_selects (h : Selects given job) (hg : g ∈ given) : isKnown g = true := by
  rcases g with _ | ⟨_ | _ | _, value⟩ | _
  · rfl
  · rfl
  · exact Option.isSome_iff_exists.mpr ⟨_, ofName?_eq_some_iff.mpr (h.format value hg)⟩
  · obtain ⟨depth, hvalue, -⟩ := h.maxDepth value hg
    exact Option.isSome_iff_exists.mpr ⟨depth, depth?_eq_some_iff.mpr hvalue⟩
  · rfl

end Finish

end Arguments

/-- The lists of arguments that run a job are those that spell what selects it. -/
theorem ofArguments_eq_run_iff {arguments : List String} {job : Job} :
    Request.ofArguments arguments = .run job ↔
      ∃ given, Spells given arguments ∧ Selects given job := by
  constructor
  · intro h
    obtain ⟨given, a, hspells, hgiven, hfinish⟩ := Arguments.exists_spells h
    obtain ⟨honce, hknown, rfl⟩ := Arguments.foldlM_give_eq_some_iff.mp hgiven
    exact ⟨given, hspells, (Arguments.records_foldl honce).selects honce
      (fun g hg => (hknown g hg).2) hfinish⟩
  · rintro ⟨given, hspells, hselects⟩
    have hgiven : given.foldlM Arguments.give {} = some (given.foldl Arguments.record {}) := by
      refine Arguments.foldlM_give_eq_some_iff.mpr ⟨hselects.once, fun g hg => ⟨?_, ?_⟩, rfl⟩
      · rcases g with _ | ⟨_ | _ | _, _⟩ | _ <;> rfl
      · exact Arguments.isKnown_of_selects hselects hg
    exact Arguments.takeAll_of_spells hspells hgiven
      ((Arguments.records_foldl hselects.once).finish_eq hselects)

example : Request.ofArguments ["-af", "row", "--string-aware", "--max-depth=+7", "-oout", "in"] =
    .run { input := some "in", output := some "out", shape := some .array, format := .row,
           options := ⟨.stringAware, some 7⟩ } := by cbv

example : Request.ofArguments ["--object", "--no-depth-limit", "--format", "json", "--", "-"] =
    .run { input := some "-", shape := some .object, format := .json,
           options := ⟨.legacy, none⟩ } := by cbv

end LenientJson.Command
