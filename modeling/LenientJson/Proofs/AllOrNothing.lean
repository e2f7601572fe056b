import LenientJson.Command.World
import LenientJson.Command.Run
import LenientJson.Proofs.Command.Documents
import LenientJson.Proofs.Command.Selection

/-!
# All or nothing

A run of the command reads its input, parses it and renders the value before it writes anything.
If one of these stages fails nothing has happened but a report, and otherwise the whole rendering
goes to one place, in whatever order the compact form lists the members of a map.
-/
namespace LenientJson.Command

section Stages

variable (w : World) (job : Job) (order : Document → Document)

def Job.received : Except FileFault (List UInt8) :=
  match job.inputFile? with
  | some path => w.read path
  | none => .ok w.input

/-- All stages succeed: the input can be read and is a text, the text has a value of the shape that
is asked for or detected, and the value has a rendering in the format, in which the members of maps
are listed in some order. -/
inductive Renders : List Char → Prop where
  | intro {bytes : List UInt8} {text : List Char} {shape : Shape} {document : Document}
      {rendering : List Char} (hread : job.received w = .ok bytes)
      (htext : Text.decodeUtf8 bytes = .ok text) (hshape : ShapeOf job.shape text shape)
      (hvalue : ValueOf text job.options shape document)
      (hlisted : document.Reordered (order document))
      (hrender : document.render (order document) job.format = .ok rendering) : Renders rendering

inductive Fails : Prop where
  | reading {fault : FileFault} (hread : job.received w = .error fault)
  | decoding {bytes : List UInt8} {fault : Text.Utf8Fault} (hread : job.received w = .ok bytes)
      (htext : Text.decodeUtf8 bytes = .error fault)
  | parsing {bytes : List UInt8} {text : List Char} {shape : Shape}
      (hread : job.received w = .ok bytes) (htext : Text.decodeUtf8 bytes = .ok text)
      (hshape : ShapeOf job.shape text shape)
      (hvalue : ∀ document, ¬ValueOf text job.options shape document)
  | rendering {bytes : List UInt8} {text : List Char} {shape : Shape} {document : Document}
      {e : Error} (hread : job.received w = .ok bytes) (htext : Text.decodeUtf8 bytes = .ok text)
      (hshape : ShapeOf job.shape text shape) (hvalue : ValueOf text job.options shape document)
      (hrender : document.render (order document) job.format = .error e)

end Stages

/-- The place at which a file with this path is written. -/
def World.LeadsTo (w : World) (path : String) (place : FilePath) : Prop :=
  Route.ofString path >>= w.target = .ok place

def World.Accepts (w : World) (place : FilePath) : Prop :=
  ∀ node, w.node? place = some node → ∃ contents, node = .file contents

/-- What a run for a job does to a world: without a file to be written the rendering is printed, a
file that can be written holds the rendering and nothing else has changed, a device takes the
rendering and no file has changed, and a path that cannot be written is left alone. -/
structure AllOrNothing (w : World) (job : Job) (order : Document → Document) (status : Status)
    (after : World) : Prop where
  stages : Fails w job order ∨ ∃ rendering, Renders w job order rendering
  failed : Fails w job order →
    status.exitCode = 1 ∧ after.printed = w.printed ∧ after.nodes = w.nodes
  printed : ∀ rendering, Renders w job order rendering →
    job.output = none ∨ job.output = some "-" →
      status.exitCode = 0 ∧ after.printed = w.printed ++ rendering ∧ after.nodes = w.nodes
  written : ∀ rendering path place, Renders w job order rendering → job.output = some path →
    path ≠ "-" → w.LeadsTo path place → w.Accepts place →
      status.exitCode = 0 ∧ after.file? place = some (Text.encodeUtf8 rendering) ∧
        ∀ other, other ≠ place → after.node? other = w.node? other
  sent : ∀ rendering path place device, Renders w job order rendering → job.output = some path →
    path ≠ "-" → w.LeadsTo path place → w.node? place = some (.device device) →
      after.nodes = w.nodes
  refused : ∀ rendering path fault, Renders w job order rendering → job.output = some path →
    path ≠ "-" → w.write path rendering = .error fault →
      status.exitCode = 1 ∧ after.printed = w.printed ∧ after.nodes = w.nodes

section Answer

variable {w : World} {job : Job} {order : Document → Document} {rendering : List Char}

theorem answer_of_renders (h : Renders w job order rendering) :
    job.answer order (job.received w) = .ok rendering := by
  obtain ⟨hread, htext, hshape, hvalue, -, hrender⟩ := h
  simp only [Job.answer, Job.render, Reader.bind_eq_ok_iff, Reader.mapError_eq_ok_iff,
    document_parse_eq_ok_iff]
  rw [← shapeOf_iff.mp hshape] at hvalue
  exact ⟨_, hread, _, htext, _, hvalue, hrender⟩

theorem answer_of_fails (h : Fails w job order) :
    ∃ failure, job.answer order (job.received w) = .error failure := by
  cases hanswer : job.answer order (job.received w) with
  | error failure => exact ⟨failure, rfl⟩
  | ok rendering =>
    simp only [Job.answer, Job.render, Reader.bind_eq_ok_iff, Reader.mapError_eq_ok_iff] at hanswer
    obtain ⟨bytes, hread, text, htext, document, hparse, hrender⟩ := hanswer
    cases h with
    | reading hread' =>
      rw [hread] at hread'
      cases hread'
    | decoding hread' htext' =>
      obtain rfl := Except.ok.inj (hread.symm.trans hread')
      rw [htext] at htext'
      cases htext'
    | parsing hread' htext' hshape hvalue =>
      obtain rfl := Except.ok.inj (hread.symm.trans hread')
      obtain rfl := Except.ok.inj (htext.symm.trans htext')
      rw [shapeOf_iff.mp hshape] at hparse
      exact absurd (document_parse_eq_ok_iff.mp hparse) (hvalue document)
    | rendering hread' htext' hshape hvalue hrender' =>
      obtain rfl := Except.ok.inj (hread.symm.trans hread')
      obtain rfl := Except.ok.inj (htext.symm.trans htext')
      rw [shapeOf_iff.mp hshape, document_parse_eq_ok_iff.mpr hvalue] at hparse
      cases hparse
      rw [hrender] at hrender'
      cases hrender'

theorem fails_or_renders (w : World) (job : Job)
    (reorders : ∀ document : Document, document.Reordered (order document)) :
    Fails w job order ∨ ∃ rendering, Renders w job order rendering := by
  cases hread : job.received w with
  | error fault => exact .inl (.reading hread)
  | ok bytes =>
    cases htext : Text.decodeUtf8 bytes with
    | error fault => exact .inl (.decoding hread htext)
    | ok text =>
      have hshape : ShapeOf job.shape text _ := shapeOf_iff.mpr rfl
      by_cases hvalue : ∃ document,
        ValueOf text job.options (job.shape.getD (.detect text)) document
      · obtain ⟨document, hvalue⟩ := hvalue
        cases hrender : document.render (order document) job.format with
        | error e => exact .inl (.rendering hread htext hshape hvalue hrender)
        | ok rendering =>
          exact .inr ⟨rendering, hread, htext, hshape, hvalue, reorders document, hrender⟩
      · exact .inl (.parsing hread htext hshape (not_exists.mp hvalue))

end Answer

section Writing

variable {w next : World} {path : String} {place : FilePath} {text : List Char}

theorem write_of_leadsTo (h : w.LeadsTo path place) : w.write path text =
    match w.node? place with
    | some .directory => .error .isDirectory
    | some (.device device) => w.send text device
    | _ => .ok (w.store place (Text.encodeUtf8 text)) := by
  obtain ⟨route, hroute, htarget⟩ := Reader.bind_eq_ok_iff.mp h
  rw [World.write, hroute]
  change w.target route >>= _ = _
  rw [htarget]
  rfl

theorem write_of_accepts (h : w.LeadsTo path place) (hplace : w.Accepts place) :
    w.write path text = .ok (w.store place (Text.encodeUtf8 text)) := by
  rw [write_of_leadsTo h]
  cases hnode : w.node? place with
  | none => rfl
  | some node =>
    obtain ⟨contents, rfl⟩ := hplace node hnode
    rfl

theorem nodes_of_send {device : Device} (h : w.send text device = .ok next) :
    next.nodes = w.nodes := by
  cases device with
  | full =>
    rw [World.send] at h
    split at h
    · cases h
      rfl
    · cases h
  | null => cases h; rfl
  | input => cases h; rfl
  | output => cases h; rfl

theorem outputFile?_eq_none_iff {job : Job} :
    job.outputFile? = none ↔ job.output = none ∨ job.output = some "-" := by
  cases h : job.output <;> simp [Job.outputFile?, isStandard, h]

theorem outputFile?_eq_some_iff {job : Job} :
    job.outputFile? = some path ↔ job.output = some path ∧ path ≠ "-" := by
  simp [Job.outputFile?, isStandard, Option.filter_eq_some_iff]

end Writing

section Run

variable {arguments : List String} {w next : World} {job : Job} {rendering : List Char}
  {path : String} {order : Document → Document}

/-- A step starts from the world that the step before it has left. -/
theorem bind_apply {α β : Type} (x : StateM World α) (f : α → StateM World β) :
    (x >>= f) w = f (x w).1 (x w).2 := rfl

theorem read_eq : (job.read : StateM World (Except FileFault (List UInt8))) w =
    (job.received w, w) := by
  rw [Job.read, Job.received]
  cases job.inputFile? <;> rfl

theorem deliver_printed (h : job.outputFile? = none) :
    (job.deliver rendering : StateM World (Except Failure Unit)) w =
      (.ok (), { w with printed := w.printed ++ rendering }) := by
  rw [Job.deliver, h]
  rfl

theorem deliver_written (h : job.outputFile? = some path)
    (hwrite : w.write path rendering = .ok next) :
    (job.deliver rendering : StateM World (Except Failure Unit)) w =
      (.ok (), { next with printed := next.printed ++ job.confirmation path }) := by
  have hhost : (Host.writeFile path rendering : StateM World (Except FileFault Unit)) w =
      (.ok (), next) := by
    simp only [Host.writeFile, hwrite]
  simp only [Job.deliver, h, bind_apply, hhost]
  rfl

theorem deliver_refused {fault : FileFault} (h : job.outputFile? = some path)
    (hwrite : w.write path rendering = .error fault) :
    (job.deliver rendering : StateM World (Except Failure Unit)) w =
      (.error (.file fault), w) := by
  have hhost : (Host.writeFile path rendering : StateM World (Except FileFault Unit)) w =
      (.error fault, w) := by
    simp only [Host.writeFile, hwrite]
  simp only [Job.deliver, h, bind_apply, hhost]
  rfl

theorem perform_eq : (job.perform order : StateM World (Except Failure Unit)) w =
    match job.answer order (job.received w) with
    | .error failure => (.error failure, w)
    | .ok rendering => (job.deliver rendering : StateM World (Except Failure Unit)) w := by
  rw [Job.perform, bind_apply, read_eq]
  cases job.answer order (job.received w) <;> rfl

theorem run_eq (h : Request.ofArguments arguments = .run job) :
    (run arguments order : StateM World Status) w =
      match (job.perform order : StateM World (Except Failure Unit)) w with
      | (.ok (), next) => (.done, next)
      | (.error failure, next) =>
        (.failed, { next with reports := next.reports ++ ["ERROR  " ++ failure.message] }) := by
  simp only [run, h, bind_apply]
  rcases (job.perform order : StateM World (Except Failure Unit)) w with ⟨_ | _, next⟩ <;> rfl

theorem run_of_fails (h : Request.ofArguments arguments = .run job) (hfails : Fails w job order) :
    ∃ report, (run arguments order : StateM World Status) w =
      (.failed, { w with reports := w.reports ++ [report] }) := by
  obtain ⟨failure, hanswer⟩ := answer_of_fails hfails
  refine ⟨"ERROR  " ++ failure.message, ?_⟩
  rw [run_eq h, perform_eq, hanswer]

theorem perform_of_renders (h : Renders w job order rendering) :
    (job.perform order : StateM World (Except Failure Unit)) w =
      (job.deliver rendering : StateM World (Except Failure Unit)) w := by
  rw [perform_eq, answer_of_renders h]

theorem run_of_write (h : Request.ofArguments arguments = .run job)
    (hrenders : Renders w job order rendering) (houtput : job.output = some path)
    (hpath : path ≠ "-") (hwrite : w.write path rendering = .ok next) :
    (run arguments order : StateM World Status) w =
      (.done, { next with printed := next.printed ++ job.confirmation path }) := by
  rw [run_eq h, perform_of_renders hrenders,
    deliver_written (outputFile?_eq_some_iff.mpr ⟨houtput, hpath⟩) hwrite]

theorem run_of_write_error {fault : FileFault} (h : Request.ofArguments arguments = .run job)
    (hrenders : Renders w job order rendering) (houtput : job.output = some path)
    (hpath : path ≠ "-") (hwrite : w.write path rendering = .error fault) :
    (run arguments order : StateM World Status) w =
      (.failed, { w with reports := w.reports ++ ["ERROR  " ++ fault.message] }) := by
  rw [run_eq h, perform_of_renders hrenders,
    deliver_refused (outputFile?_eq_some_iff.mpr ⟨houtput, hpath⟩) hwrite]
  rfl

theorem allOrNothing_of_ofArguments (h : Request.ofArguments arguments = .run job)
    (reorders : ∀ document : Document, document.Reordered (order document)) :
    AllOrNothing w job order ((run arguments order : StateM World Status) w).1
      ((run arguments order : StateM World Status) w).2 where
  stages := fails_or_renders w job reorders
  failed hfails := by
    obtain ⟨report, hrun⟩ := run_of_fails h hfails
    rw [hrun]
    exact ⟨rfl, rfl, rfl⟩
  printed rendering hrenders houtput := by
    rw [run_eq h, perform_of_renders hrenders,
      deliver_printed (outputFile?_eq_none_iff.mpr houtput)]
    exact ⟨rfl, rfl, rfl⟩
  written rendering path place hrenders houtput hpath hleads hplace := by
    rw [run_of_write h hrenders houtput hpath (write_of_accepts hleads hplace)]
    refine ⟨rfl, (World.file?_store _ _ _ _).trans (if_pos rfl), fun other hother => ?_⟩
    exact (World.node?_store _ _ _ _).trans (if_neg hother.symm)
  sent rendering path place device hrenders houtput hpath hleads hdevice := by
    have hsend : w.write path rendering = w.send rendering device := by
      rw [write_of_leadsTo hleads, hdevice]
    cases hwrite : w.write path rendering with
    | ok next =>
      have hnodes : next.nodes = w.nodes := nodes_of_send (hsend.symm.trans hwrite)
      rw [run_of_write h hrenders houtput hpath hwrite]
      exact hnodes
    | error fault => rw [run_of_write_error h hrenders houtput hpath hwrite]
  refused rendering path fault hrenders houtput hpath hwrite := by
    rw [run_of_write_error h hrenders houtput hpath hwrite]
    exact ⟨rfl, rfl, rfl⟩

end Run

def oneFile (contents : List Char) : World where
  input := Text.encodeUtf8 "\x7ba:x,b:2\x7d".toList
  nodes := [([], .directory), (["a"], .file (Text.encodeUtf8 contents))]

def inPlace : Job where
  input := some "a"
  output := some "a"
  options := { maxDepth := some 1 }

def inPlaceArguments : List String := ["-o", "a", "--max-depth=1", "a"]

def printedObject : Job where
  shape := some .object
  options := { mode := .stringAware, maxDepth := some 1 }

def printedArguments : List String := ["--object", "--string-aware", "--max-depth", "1"]

example : ((run ["-f", "json", "--max-depth", "1"] : StateM World Status)
    { input := Text.encodeUtf8 "\x7bb:2,a:x\x7d".toList }).2.printed =
      "\x7b\n  \"a\": \"x\",\n  \"b\": 2\n\x7d".toList := by cbv

example : ((run ["--format=row", "--max-depth", "2"] : StateM World Status)
    { input := Text.encodeUtf8 "\x7ba:[],b:2\x7d".toList }).2.printed =
      "[\n  \x7b\n    \"name\": \"b\",\n    \"value\": 2\n  \x7d\n]".toList := by cbv

end LenientJson.Command
