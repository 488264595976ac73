import Caret.Command.Run
import Caret.Proofs.Json.Records
import Caret.Proofs.Tree.SourceOrder

/-!
# What the commands tell of local variables

Four commands tell of the local variables of a file: all of them, those visible from a
cursor, the last visible one of a name, and the names that the fragment at a cursor
lists.  On files that stay as they are the answers fit together.
-/

namespace Caret

theorem LocalReport.toJson_injective : Function.Injective LocalReport.toJson := by
  rintro ⟨name, closurePath, assignment, presence, type⟩
    ⟨name', closurePath', assignment', presence', type'⟩ h
  simp only [toJson, Json.object.injEq, List.cons.injEq, Prod.mk.injEq, Json.string.injEq,
    true_and, and_true] at h
  obtain ⟨rfl, rfl, hassignment, hpresence, rfl⟩ := h
  rw [Json.ofOption_string_injective hassignment, Range.toJson_injective hpresence]

/-- A list of reports as a command prints it. -/
def LocalReport.listToJson (reports : List LocalReport) : Json :=
  .array (reports.map LocalReport.toJson)

theorem LocalReport.listToJson_injective : Function.Injective LocalReport.listToJson := by
  intro reports reports' h
  exact List.map_injective_iff.2 toJson_injective (Json.array.inj h)

/-- No report behind this one in a list has its name. -/
def LocalReport.IsLastIn (r : LocalReport) (reports : List LocalReport) : Prop :=
  ∃ before after, reports = before ++ r :: after ∧ ∀ q ∈ after, q.name ≠ r.name

theorem LocalReport.isLastIn_of_find?_reverse
    {reports : List LocalReport} {name : String} {r : LocalReport}
    (h : reports.reverse.find? (·.name == name) = some r) :
    r.name = name ∧ r.IsLastIn reports := by
  obtain ⟨hname, after, before, hsplit, hafter⟩ := List.find?_eq_some_iff_append.1 h
  rw [beq_iff_eq] at hname
  refine ⟨hname, before.reverse, after.reverse, ?_, ?_⟩
  · rw [← List.reverse_reverse reports, hsplit]
    simp
  · intro q hq
    rw [hname]
    simpa using hafter q (List.mem_reverse.1 hq)

namespace Source

/-- The visible variables are some of the declared ones, in the same order.  The fragment
lists their names, and the reports are about them. -/
theorem exists_visiblePins {s : Source} {offset : Nat} (h : Text.IsBoundary s.text offset) :
    ∃ (fragment : Fragment) (pins : List LocalPin), s.toBuffer.snapshot offset = .ok fragment ∧
      pins.Sublist s.localPins ∧ fragment.visibleLocals = pins.map LocalPin.name ∧
      ∀ samples infer, s.visibleLocals offset samples infer =
        .ok (pins.map fun p => p.report samples infer) := by
  obtain ⟨c, hc⟩ :=
    Buffer.exists_cursor_iff.2 (show Text.IsBoundary s.toBuffer.text offset from h)
  obtain ⟨passes, hvisible⟩ := s.exists_visibleLocals_eq offset
  have hlocals : ((s.localPins.filter passes).map Pin.localVariable).filterMap Pin.localPin? =
      s.localPins.filter passes := by
    rw [List.filterMap_map]
    exact List.filterMap_some
  refine ⟨c.fragment s.toBuffer, s.localPins.filter passes, ?_, List.filter_sublist, ?_,
    fun samples infer => ?_⟩
  · rw [Buffer.snapshot, Buffer.fragment, hc]
    rfl
  · have hoffset := (Buffer.cursor_eq_ok_iff.1 hc).2
    rw [Cursor.fragment, hoffset]
    dsimp only
    rw [hvisible, List.map_map]
    rfl
  · rw [visibleLocals, hc, hvisible, hlocals]
    rfl

theorem snapshot_eq_error {s : Source} {offset : Nat} (h : ¬Text.IsBoundary s.text offset) :
    s.toBuffer.snapshot offset = .error (.invalidOffset offset s.toBuffer.length) := by
  rw [Buffer.snapshot, Buffer.fragment, Buffer.cursor_eq_error_of_not_isBoundary h]
  rfl

theorem visibleLocals_eq_error
    {s : Source} {offset : Nat} (h : ¬Text.IsBoundary s.text offset) (samples : Samples)
    (infer : LocalPin → TypeExpr) :
    s.visibleLocals offset samples infer =
      .error (.invalidOffset offset s.toBuffer.length) := by
  rw [visibleLocals, Buffer.cursor_eq_error_of_not_isBoundary h]
  rfl

end Source

namespace Command

/-! ## Answers about one file -/

/-- A printed answer is the JSON of one value and of no other. -/
def Prints {α : Type} (encode : α → Json) (a : α) (printed : Except Failure Json) : Prop :=
  ∀ b, printed = .ok (encode b) ↔ b = a

theorem prints_of_injective
    {α : Type} {encode : α → Json} (hencode : Function.Injective encode) (a : α) :
    Prints encode a (.ok (encode a)) := by
  intro b
  rw [Except.ok.injEq, hencode.eq_iff, eq_comm]

/-- The answer of an action on files that stay as they are. -/
def answer (files : FileReader Id) (grammar : Grammar) (settings : Settings) (action : Action) :
    Except Failure Json :=
  (perform files grammar settings action).run

theorem run_bind_pure {α β : Type} (x : Except Failure α) (f : α → β) :
    ((ExceptT.mk (pure x) : ExceptT Failure Id α) >>= fun a => pure (f a)).run = x.map f := by
  cases x with
  | ok a => rfl
  | error e => rfl

section Files

variable {files : FileReader Id} {grammar : Grammar} {settings : Settings} {file text : String}
  {source : Source} {place : Place} {offset : Nat} {table : Option String} {samples : Samples}

theorem run_loadSamples
    {path json : String} (hjson : files path = .ok json)
    (hsamples : Samples.parse? json = some samples) :
    (loadSamples files settings (some path)).run = .ok samples := by
  rw [loadSamples, Samples.load, hjson]
  simp only [bind, pure, hsamples]
  rfl

theorem loadTarget_eq
    (htext : files file = .ok text) (hsource : Source.parse? grammar text = some source)
    (hplace : place.offsetIn text.toList = .ok offset) :
    loadTarget files grammar ⟨file, place⟩ = ExceptT.mk (.ok (source, offset)) := by
  have hload : loadText files file = ExceptT.mk (.ok text) := by
    rw [loadText, htext]
    rfl
  have hparse : parseSource grammar text = .ok source := by
    rw [parseSource, hsource]
  rw [loadTarget, hload]
  change (do
    let offset ← loadTarget.liftExcept (place.offsetIn text.toList)
    let source ← loadTarget.liftExcept (parseSource grammar text)
    return (source, offset) : ExceptT Failure Id (Source × Nat)) = _
  rw [hplace, hparse]
  rfl

theorem answer_fragment
    (htarget : loadTarget files grammar ⟨file, place⟩ = ExceptT.mk (.ok (source, offset))) :
    answer files grammar settings (.fragment ⟨file, place⟩) =
      ((source.toBuffer.snapshot offset).mapError .refused).map Fragment.toJson := by
  rw [answer, perform, htarget]
  exact run_bind_pure _ _

theorem answer_locals
    (htarget : loadTarget files grammar ⟨file, place⟩ = ExceptT.mk (.ok (source, offset)))
    (hsamples : loadSamples files settings table = ExceptT.mk (.ok samples)) (all : Bool) :
    answer files grammar settings (.locals ⟨file, place⟩ table all) =
      (listLocals grammar source offset samples all).map LocalReport.listToJson := by
  rw [answer, perform, hsamples, htarget]
  exact run_bind_pure _ _

theorem answer_type
    (htarget : loadTarget files grammar ⟨file, place⟩ = ExceptT.mk (.ok (source, offset)))
    (hsamples : loadSamples files settings table = ExceptT.mk (.ok samples)) (name : String) :
    answer files grammar settings (.type ⟨file, place⟩ name table) =
      (findLocal grammar source offset samples name).map LocalReport.toJson := by
  rw [answer, perform, hsamples, htarget]
  exact run_bind_pure _ _

/-- What is found by name is the last visible variable of the name, if there is one. -/
theorem findLocal_cases
    {reports : List LocalReport}
    (h : source.visibleLocals offset samples (·.assignedType grammar) = .ok reports)
    (name : String) :
    (name ∉ reports.map LocalReport.name ∧
      findLocal grammar source offset samples name = .error (.notVisible name offset)) ∨
    (name ∈ reports.map LocalReport.name ∧ ∃ r,
      findLocal grammar source offset samples name = .ok r ∧ r.name = name ∧
        r.IsLastIn reports) := by
  have hnamed : source.localNamed? offset name samples (·.assignedType grammar) =
      .ok (reports.reverse.find? (·.name == name)) := by
    rw [Source.localNamed?, h]
    rfl
  simp only [findLocal, hnamed]
  cases hfind : reports.reverse.find? (·.name == name) with
  | none =>
      refine Or.inl ⟨fun hname => ?_, rfl⟩
      obtain ⟨r, hr, hrname⟩ := List.mem_map.1 hname
      exact List.find?_eq_none.1 hfind r (List.mem_reverse.2 hr) (beq_iff_eq.2 hrname)
  | some r =>
      obtain ⟨hname, hlast⟩ := LocalReport.isLastIn_of_find?_reverse hfind
      refine Or.inr ⟨?_, r, rfl, hname, hlast⟩
      exact List.mem_map.2 ⟨r, List.mem_reverse.1 (List.mem_of_find?_eq_some hfind), hname⟩

theorem answer_type_of_reports
    (htarget : loadTarget files grammar ⟨file, place⟩ = ExceptT.mk (.ok (source, offset)))
    (hsamples : loadSamples files settings table = ExceptT.mk (.ok samples))
    {reports : List LocalReport}
    (hreports : source.visibleLocals offset samples (·.assignedType grammar) = .ok reports)
    (name : String) :
    ((∃ json, answer files grammar settings (.type ⟨file, place⟩ name table) = .ok json) ↔
        name ∈ reports.map LocalReport.name) ∧
      (name ∈ reports.map LocalReport.name → ∃ r : LocalReport,
        Prints LocalReport.toJson r
            (answer files grammar settings (.type ⟨file, place⟩ name table)) ∧
          r.name = name ∧ r.IsLastIn reports) := by
  rw [answer_type htarget hsamples]
  rcases findLocal_cases hreports name with ⟨hname, herror⟩ | ⟨hname, r, hr, hrest⟩
  · rw [herror]
    refine ⟨⟨?_, fun h => absurd h hname⟩, fun h => absurd h hname⟩
    rintro ⟨json, h⟩
    cases h
  · rw [hr]
    exact ⟨⟨fun _ => hname, fun _ => ⟨_, rfl⟩⟩,
      fun _ => ⟨r, prints_of_injective LocalReport.toJson_injective r, hrest⟩⟩

/-- On a file that is read and parsed, the names of the listed visible variables are those
of the fragment; the list is part of the list of all variables; an answer by name exists
just for the names of the fragment and is the last report of the name.  The list of all
variables is the same at every offset, and the others fail at offsets that are not valid.
All of these can be told from what is printed. -/
theorem localViews_agree
    (htext : files file = .ok text) (hsource : Source.parse? grammar text = some source)
    (hsamples : (loadSamples files settings table).run = .ok samples) :
    ∃ all : List LocalReport, ∀ place offset, place.offsetIn text.toList = .ok offset →
      let ask := answer files grammar settings
      let target : Target := ⟨file, place⟩
      Prints LocalReport.listToJson all (ask (.locals target table true)) ∧
      (Text.IsBoundary text.toList offset →
        ∃ (fragment : Fragment) (reports : List LocalReport),
          Prints Fragment.toJson fragment (ask (.fragment target)) ∧
          Prints LocalReport.listToJson reports (ask (.locals target table false)) ∧
          reports.map LocalReport.name = fragment.visibleLocals ∧
          reports.Sublist all ∧
          ∀ name, ((∃ json, ask (.type target name table) = .ok json) ↔
              name ∈ fragment.visibleLocals) ∧
            (name ∈ fragment.visibleLocals → ∃ r : LocalReport,
              Prints LocalReport.toJson r (ask (.type target name table)) ∧ r.name = name ∧
                r.IsLastIn reports)) ∧
      (¬Text.IsBoundary text.toList offset →
        let length := Text.byteLength text.toList
        ask (.fragment target) = .error (.refused (.invalidOffset offset length)) ∧
        ask (.locals target table false) = .error (.failed (.invalidOffset offset length)) ∧
        ∀ name,
          ask (.type target name table) = .error (.failed (.invalidOffset offset length))) := by
  have hbuffer : source.text = text.toList := by
    obtain ⟨root, -, rfl⟩ := Option.map_eq_some_iff.1 hsource
    rfl
  refine ⟨source.allLocals samples (·.assignedType grammar), fun place offset hplace => ?_⟩
  have htarget := loadTarget_eq htext hsource hplace
  have hlocals := answer_locals htarget hsamples
  refine ⟨?_, ?_, ?_⟩
  · rw [hlocals]
    exact prints_of_injective LocalReport.listToJson_injective _
  · intro hoffset
    rw [← hbuffer] at hoffset
    obtain ⟨fragment, pins, hfragment, hpins, hnames, hreports⟩ :=
      Source.exists_visiblePins hoffset
    specialize hreports samples (·.assignedType grammar)
    have hvisible : (pins.map fun p => p.report samples (·.assignedType grammar)).map
        LocalReport.name = fragment.visibleLocals := by
      rw [hnames, List.map_map]
      rfl
    refine ⟨fragment, _, ?_, ?_, hvisible, hpins.map _, fun name => ?_⟩
    · rw [answer_fragment htarget, hfragment]
      exact prints_of_injective Fragment.toJson_injective fragment
    · rw [hlocals, listLocals, if_neg Bool.false_ne_true, hreports]
      exact prints_of_injective LocalReport.listToJson_injective _
    · rw [← hvisible]
      exact answer_type_of_reports htarget hsamples hreports name
  · intro hoffset
    have hlength : Text.byteLength text.toList = source.toBuffer.length := by
      rw [← hbuffer]
      rfl
    rw [← hbuffer] at hoffset
    have hvisible := Source.visibleLocals_eq_error hoffset samples (·.assignedType grammar)
    dsimp only
    rw [hlength]
    refine ⟨?_, ?_, fun name => ?_⟩
    · rw [answer_fragment htarget, Source.snapshot_eq_error hoffset]
      rfl
    · rw [hlocals, listLocals, if_neg Bool.false_ne_true, hvisible]
      rfl
    · rw [answer_type htarget hsamples, findLocal, Source.localNamed?, hvisible]
      rfl

end Files

/-- A file with two assignments to one variable, and a table with a sample of it. -/
def assignmentFiles : FileReader Id := fun path =>
  if path = "x.rb" then .ok "x = 1\nx = y\nx\n"
  else if path = "samples.json" then .ok "\x7b\"%x\": [\"Float\"]\x7d"
  else .error .missing

/-- The grammar that knows the text of this file. -/
def assignmentGrammar : Grammar := fun text =>
  if text = "x = 1\nx = y\nx\n" then some Source.assignedTwice.root else none

/-- Behind both assignments the answer by name is the last of two reports. -/
theorem localViews_assignmentFiles :
    let text := "x = 1\nx = y\nx\n"
    let table := some "samples.json"
    let ask := answer assignmentFiles assignmentGrammar {}
    let target : Target := ⟨"x.rb", .lineColumn ⟨2, 1⟩⟩
    assignmentFiles "x.rb" = .ok text ∧
      Source.parse? assignmentGrammar text = some Source.assignedTwice ∧
      (loadSamples assignmentFiles {} table).run = .ok ⟨[("%x", ["Float"])]⟩ ∧
      target.place.offsetIn text.toList = .ok 13 ∧ Text.IsBoundary text.toList 13 ∧
      ¬Text.IsBoundary text.toList 15 ∧
      ∃ (fragment : Fragment) (reports all : List LocalReport) (r : LocalReport),
        Prints Fragment.toJson fragment (ask (.fragment target)) ∧
        Prints LocalReport.listToJson reports (ask (.locals target table false)) ∧
        reports.map LocalReport.name = fragment.visibleLocals ∧ reports.Sublist all ∧
        Prints LocalReport.toJson r (ask (.type target "x" table)) ∧ r.name = "x" ∧
        r.IsLastIn reports ∧
        Prints LocalReport.listToJson all (ask (.locals ⟨"x.rb", .offset 15⟩ table true)) ∧
        ask (.type ⟨"x.rb", .offset 15⟩ "x" table) =
          .error (.failed (.invalidOffset 15 14)) := by
  intro text table ask target
  have htext : assignmentFiles "x.rb" = .ok text := rfl
  have hsource : Source.parse? assignmentGrammar text = some Source.assignedTwice := by rfl
  have hsamples : (loadSamples assignmentFiles {} table).run = .ok ⟨[("%x", ["Float"])]⟩ :=
    run_loadSamples rfl (by decide +kernel)
  have hplace : target.place.offsetIn text.toList = .ok 13 := by decide
  have hvalid : Text.IsBoundary text.toList 13 :=
    (Text.splitAt?_isSome_iff text.toList 13).1 (by decide)
  have hinvalid : ¬Text.IsBoundary text.toList 15 := fun h =>
    absurd ((Text.splitAt?_isSome_iff text.toList 15).2 h) (by decide)
  have hlength : Text.byteLength text.toList = 14 := by decide
  obtain ⟨all, hall⟩ := localViews_agree htext hsource hsamples
  obtain ⟨-, hviews, -⟩ := hall _ 13 hplace
  obtain ⟨hlist, -, hfails⟩ := hall (.offset 15) 15 rfl
  have hfailed := (hfails hinvalid).2.2 "x"
  rw [hlength] at hfailed
  obtain ⟨fragment, reports, hfragment, hlocals, hnames, hsublist, hnamed⟩ :=
    hviews hvalid
  have hfound : findLocal assignmentGrammar Source.assignedTwice 13 ⟨[("%x", ["Float"])]⟩ "x" =
      .ok ⟨"x", "", some "y", ⟨⟨1, 0⟩, ⟨3, 0⟩⟩, "Float"⟩ := by
    decide +kernel
  have hanswer : ask (.type target "x" table) = _ :=
    answer_type (loadTarget_eq htext hsource hplace) hsamples "x"
  rw [hfound] at hanswer
  obtain ⟨r, hr, hname, hlast⟩ := (hnamed "x").2 ((hnamed "x").1.1 ⟨_, hanswer⟩)
  exact ⟨htext, hsource, hsamples, hplace, hvalid, hinvalid, fragment, reports, all, r, hfragment,
    hlocals, hnames, hsublist, hr, hname, hlast, hlist, hfailed⟩

end Command

end Caret
