import Caret.Pin.Typing
import Caret.Proofs.Text.Slice
import Caret.Proofs.Tree.Isolation
import Caret.Proofs.Tree.Naming

/-!
# Types of assigned texts

The type of a local variable is found in two ways: from the assigned node as the walk
declares the variable, and later from the text of that node, parsed again.  Both look
at the shape of a tree and at the text of some nodes.  Neither changes when a tree is
moved along with its text, so the two find the same type wherever the second parse
gives the first tree again, moved to the start.
-/

namespace Caret

namespace Node

/-! ## Trees that are moved -/

mutual

/-- A tree with all offsets later by `k`. -/
def movedBy (k : Nat) (n : Node) : Node :=
  match n with
  | ⟨kind, start, stop, named, field, children⟩ =>
    ⟨kind, start + k, stop + k, named, field, eachMovedBy k children⟩
termination_by structural n

def eachMovedBy (k : Nat) (ns : List Node) : List Node :=
  match ns with
  | [] => []
  | n :: rest => n.movedBy k :: eachMovedBy k rest
termination_by structural ns

end

section

variable (k : Nat) (n : Node)

theorem eachMovedBy_eq_map (ns : List Node) : eachMovedBy k ns = ns.map (movedBy k) := by
  induction ns with
  | nil => rfl
  | cons n ns ih => rw [eachMovedBy, ih, List.map_cons]

@[simp] theorem kind_movedBy : (n.movedBy k).kind = n.kind := by
  cases n
  rfl

@[simp] theorem start_movedBy : (n.movedBy k).start = n.start + k := by
  cases n
  rfl

@[simp] theorem stop_movedBy : (n.movedBy k).stop = n.stop + k := by
  cases n
  rfl

@[simp] theorem named_movedBy : (n.movedBy k).named = n.named := by
  cases n
  rfl

@[simp] theorem field_movedBy : (n.movedBy k).field = n.field := by
  cases n
  rfl

@[simp] theorem children_movedBy : (n.movedBy k).children = n.children.map (movedBy k) := by
  cases n
  exact eachMovedBy_eq_map k _

theorem childByField_movedBy (field : String) :
    (n.movedBy k).childByField field = (n.childByField field).map (movedBy k) := by
  rw [childByField, children_movedBy, List.find?_map]
  congr 2
  funext c
  exact congrArg (· == some field) (field_movedBy k c)

theorem soleNamedChild?_eq_some_iff {n c : Node} :
    n.soleNamedChild? = some c ↔ n.namedChildren = [c] := by
  unfold soleNamedChild?
  rcases n.namedChildren with _ | ⟨d, _ | ⟨e, ds⟩⟩ <;> simp

theorem soleNamedChild?_eq_none_iff {n : Node} :
    n.soleNamedChild? = none ↔ n.namedChildren.length ≠ 1 := by
  unfold soleNamedChild?
  rcases n.namedChildren with _ | ⟨d, _ | ⟨e, ds⟩⟩ <;> simp

theorem soleNamedChild?_movedBy :
    (n.movedBy k).soleNamedChild? = n.soleNamedChild?.map (movedBy k) := by
  have hnamed : (n.movedBy k).namedChildren = n.namedChildren.map (movedBy k) := by
    rw [namedChildren, children_movedBy, List.filter_map]
    congr 2
    funext c
    exact named_movedBy k c
  rw [soleNamedChild?, soleNamedChild?, hnamed]
  rcases n.namedChildren with _ | ⟨c, _ | ⟨d, ds⟩⟩ <;> rfl

theorem at?_movedBy (a : List Nat) : (n.movedBy k).at? a = (n.at? a).map (movedBy k) := by
  induction a generalizing n with
  | nil => rfl
  | cons i a ih =>
      rw [at?, at?, children_movedBy, List.getElem?_map]
      cases n.children[i]? with
      | none => rfl
      | some c => exact ih c

end

/-! ## The type of an expression -/

theorem soleExpressionType_eq (source : List Char) (ns : List Node) :
    soleExpressionType source ns =
      match ns.filter (·.named) with
      | [c] => c.expressionType source
      | _ => none := by
  induction ns with
  | nil => rfl
  | cons n ns ih =>
      rw [soleExpressionType, List.filter_cons]
      by_cases hn : n.named = true
      · rw [if_pos hn, if_pos hn]
        cases hrest : ns.filter (·.named) with
        | nil =>
            have hany : ns.any (·.named) = false := by
              rw [List.filter_eq_nil_iff] at hrest
              exact List.any_eq_false.2 hrest
            rw [hany]
            rfl
        | cons c cs =>
            have hany : ns.any (·.named) = true := by
              have hmem : c ∈ ns.filter (·.named) := hrest ▸ List.mem_cons_self
              exact List.any_eq_true.2 ⟨c, List.mem_filter.1 hmem⟩
            rw [hany]
            rfl
      · rw [if_neg hn, if_neg hn, ih]

/-- The type of an expression is that of a literal, of a call, or of the only part of
a pair of parentheses. -/
theorem expressionType_eq (source : List Char) (n : Node) :
    n.expressionType source =
      (literalType n.kind).or
        (if n.kind = "call" then n.constructedType source
        else if n.kind = "parenthesized_statements" then
          n.soleNamedChild?.bind fun c => c.expressionType source
        else none) := by
  obtain ⟨kind, start, stop, named, field, children⟩ := n
  have hsole : soleExpressionType source children =
      (soleNamedChild? ⟨kind, start, stop, named, field, children⟩).bind fun c =>
        c.expressionType source := by
    rw [soleExpressionType_eq, soleNamedChild?, namedChildren]
    dsimp only
    generalize children.filter (·.named) = ns
    rcases ns with _ | ⟨c, _ | ⟨d, ds⟩⟩ <;> rfl
  rw [expressionType, hsole]
  cases literalType kind with
  | some type => rfl
  | none => rfl

theorem expressionType_of_field (source : List Char) (n : Node) (field : Option String) :
    ({ n with field := field } : Node).expressionType source = n.expressionType source := by
  rw [expressionType_eq, expressionType_eq]
  rfl

/-! ## Trees of a part of a text -/

section

variable {before part after : List Char} {n : Node}

theorem text_movedBy (hn : n.stop ≤ Text.byteLength part) :
    (n.movedBy (Text.byteLength before)).text (before ++ (part ++ after)) = n.text part := by
  rw [text, text, start_movedBy, stop_movedBy, Nat.add_comm n.start, Nat.add_comm n.stop,
    Text.slice_part hn]

theorem constructedType_movedBy (hn : ∀ c ∈ n.children, c.stop ≤ Text.byteLength part) :
    (n.movedBy (Text.byteLength before)).constructedType (before ++ (part ++ after)) =
      n.constructedType part := by
  have htext (field : String) {c : Node} (hc : n.childByField field = some c) :
      (c.movedBy (Text.byteLength before)).text (before ++ (part ++ after)) = c.text part :=
    text_movedBy (hn c (List.mem_of_find?_eq_some hc))
  rw [constructedType, constructedType, childByField_movedBy, childByField_movedBy]
  cases hmethod : n.childByField "method" with
  | none => rfl
  | some method =>
      cases hreceiver : n.childByField "receiver" with
      | none => rfl
      | some receiver =>
          simp only [Option.map_some, Option.bind_eq_bind, Option.bind_some, htext _ hmethod,
            htext _ hreceiver, kind_movedBy]

/-- A tree of a part of a text shows the same type as the tree moved to where the part
stands in the text. -/
theorem expressionType_movedBy
    (hn : ∀ a m, n.at? a = some m → m.stop ≤ Text.byteLength part) :
    (n.movedBy (Text.byteLength before)).expressionType (before ++ (part ++ after)) =
      n.expressionType part := by
  induction n using induct with
  | step n ih =>
      have hchildren : ∀ c ∈ n.children, ∀ a m, c.at? a = some m →
          m.stop ≤ Text.byteLength part := by
        intro c hc a m hm
        obtain ⟨i, hi, rfl⟩ := List.getElem_of_mem hc
        exact hn (i :: a) m (at?_cons_eq_some_iff.2 ⟨_, List.getElem?_eq_getElem hi, hm⟩)
      have hcall :
          (n.movedBy (Text.byteLength before)).constructedType (before ++ (part ++ after)) =
            n.constructedType part :=
        constructedType_movedBy fun c hc => hchildren c hc [] c rfl
      have hsole : ((n.soleNamedChild?.map (movedBy (Text.byteLength before))).bind fun c =>
          c.expressionType (before ++ (part ++ after))) =
            n.soleNamedChild?.bind fun c => c.expressionType part := by
        cases hc : n.soleNamedChild? with
        | none => rfl
        | some c =>
            have hnamed : c ∈ n.namedChildren := by
              rw [soleNamedChild?_eq_some_iff.1 hc]
              exact List.mem_cons_self
            have hmem : c ∈ n.children := List.mem_of_mem_filter hnamed
            exact ih c hmem (hchildren c hmem)
      rw [expressionType_eq, expressionType_eq, kind_movedBy, hcall, soleNamedChild?_movedBy, hsole]

end

/-- A copy of a well-nested node that begins at the start of a text of its own, and has
the same shape and the text of the node, shows the same type. -/
theorem expressionType_of_movedBy_eq
    {source : List Char} {v c : Node} (hv : v.wellNested source = true)
    (hc : c.movedBy v.start = { v with field := c.field }) :
    c.expressionType (v.text source) = v.expressionType source := by
  have hspan := wellNested_iff.1 hv
  obtain ⟨before, part, after, rfl, hstart, hstop, hpart⟩ :=
    Text.exists_part_of_isBoundary hspan.start_valid hspan.stop_valid hspan.start_le_stop
  have hwell : ({ v with field := c.field } : Node).wellNested (before ++ (part ++ after)) =
      true := by
    obtain ⟨kind, start, stop, named, field, children⟩ := v
    exact hv
  have hinside : ∀ a m, c.at? a = some m → m.stop ≤ Text.byteLength part := by
    intro a m hm
    have hmoved : ({ v with field := c.field } : Node).at? a = some (m.movedBy v.start) := by
      rw [← hc, at?_movedBy, hm, Option.map_some]
    have hlast : (m.movedBy v.start).stop ≤ v.stop := (wellNested_at? hwell hmoved).2.2
    rw [stop_movedBy] at hlast
    omega
  rw [text, hpart, ← expressionType_movedBy hinside, hstart, hc, expressionType_of_field]

theorem staticType_variablePin
    (source : List Char) (closurePath : String) (nameNode value : Node) :
    (variablePin source closurePath nameNode (some value)).staticType =
      ((value.expressionType source).map TypeExpr.ofName).getD .undefined := by
  rw [variablePin, Option.bind_some]
  cases value.expressionType source <;> rfl

theorem ownEntries_of_isAssignment
    (source : List Char) (frame : Frame) {n left : Node} (hn : n.isAssignment = true)
    (hleft : n.childByField "left" = some left) (hlocal : left.kind = "identifier") :
    n.innerFrame source frame = frame ∧
      n.ownEntries source frame =
        [localEntry source frame (Text.rangeBetween source n.start frame.scopeEnd)
          (n.childByField "right") left] := by
  have henter : enter source frame n = (frame, []) := by
    rcases isAssignment_iff.1 hn with h | h <;> simp [enter, h]
  have hinner : n.innerFrame source frame = frame := by rw [innerFrame, henter]
  refine ⟨hinner, ?_⟩
  rw [ownEntries, hinner, henter, List.nil_append, declarations]
  simp only [Bool.or_eq_true, decide_eq_true_eq, ← isAssignment_iff, hn, if_true, hleft,
    assignmentEntries, if_pos hlocal]

end Node

/-! ## Types found in two ways -/

theorem LocalPin.assignedType_eq
    {p : LocalPin} {assignment : String} (hp : p.declaration.assignment = some assignment)
    (grammar : Grammar) :
    p.assignedType grammar =
      ((grammar.assignedType? assignment).map TypeExpr.ofName).getD p.declaredType := by
  rw [assignedType, hp, Option.bind_some]
  cases grammar.assignedType? assignment <;> rfl

/-- A text gives away what its single expression does. -/
theorem Grammar.assignedType?_of_namedChildren
    {grammar : Grammar} {text : String} {root c : Node} (hroot : grammar text = some root)
    (hsole : root.namedChildren = [c]) :
    grammar.assignedType? text = c.expressionType text.toList := by
  rw [assignedType?, hroot]
  simp [Node.soleNamedChild?_eq_some_iff.2 hsole]

theorem Grammar.assignedType?_eq_none
    {grammar : Grammar} {text : String}
    (h : ∀ root, grammar text = some root → root.namedChildren.length ≠ 1) :
    grammar.assignedType? text = none := by
  rw [assignedType?]
  cases hroot : grammar text with
  | none => rfl
  | some root => simp [Node.soleNamedChild?_eq_none_iff.2 (h root hroot)]

namespace Source

open Node

/-- An assignment to a local variable declares it, and no other, with the assigned node. -/
theorem exists_pin_of_isAssignment
    {s : Source} {a : List Nat} {n left : Node} (hn : s.root.at? a = some n)
    (hassignment : n.isAssignment = true) (hleft : n.childByField "left" = some left)
    (hlocal : left.kind = "identifier") :
    ∃ p ∈ s.localPins, (∀ q, s.Declares a q ↔ q = p) ∧
      p.declaration = variablePin s.text (s.pathAt a) left (n.childByField "right") := by
  obtain ⟨f, hvisit⟩ := exists_visit?_of_at? s.text s.top hn
  obtain ⟨hinner, hentries⟩ := ownEntries_of_isAssignment s.text f hassignment hleft hlocal
  have hpath : s.pathAt a = f.closurePath := by rw [pathAt_eq hvisit, hinner]
  let p : LocalPin :=
    ⟨variablePin s.text f.closurePath left (n.childByField "right"),
      Text.rangeBetween s.text n.start f.scopeEnd⟩
  have hmem : OutlineEntry.localVariable p ∈ n.ownEntries s.text f := by
    rw [hentries]
    exact List.mem_singleton_self _
  refine ⟨p, ?_, fun q => ⟨?_, ?_⟩, by rw [hpath]⟩
  · exact List.mem_filterMap.2 ⟨_, mem_outline_iff.2 ⟨a, f, n, hvisit, hmem⟩, rfl⟩
  · rintro ⟨g, m, hvisit', hq⟩
    obtain ⟨rfl, rfl⟩ := Prod.mk.inj (Option.some.inj (hvisit.symm.trans hvisit'))
    rw [hentries] at hq
    exact OutlineEntry.localVariable.inj (List.mem_singleton.1 hq)
  · rintro rfl
    exact ⟨f, n, hvisit, hmem⟩

/-- The type of a variable that is assigned a node is found again in the text of that
node, if a grammar makes of the text a tree with a single expression that is the node
moved to the start, of whatever shape the node is.  If the grammar makes anything else
of the text than a tree with a single expression, the type of the pin stands. -/
theorem assignedType_eq_declaredType
    {s : Source} (hs : s.root.wellNested s.text = true) {a : List Nat} {n left v : Node}
    (hn : s.root.at? a = some n) (hassignment : n.isAssignment = true)
    (hleft : n.childByField "left" = some left) (hlocal : left.kind = "identifier")
    (hright : n.childByField "right" = some v) (grammar : Grammar) :
    ∃ p ∈ s.localPins, (∀ q, s.Declares a q ↔ q = p) ∧
      p.declaration = variablePin s.text (s.pathAt a) left (some v) ∧
      (∀ root c, grammar (v.name s.text) = some root → root.namedChildren = [c] →
        c.movedBy v.start = { v with field := c.field } →
          p.assignedType grammar = p.declaredType) ∧
      ((∀ root, grammar (v.name s.text) = some root → root.namedChildren.length ≠ 1) →
        p.assignedType grammar = p.declaration.staticType) := by
  obtain ⟨p, hp, hdeclares, hdeclaration⟩ := exists_pin_of_isAssignment hn hassignment hleft hlocal
  rw [hright] at hdeclaration
  have hv : v.wellNested s.text = true := by
    have hwell := wellNested_iff.1 (wellNested_at? hs hn).1
    exact hwell.children_wellNested v (List.mem_of_find?_eq_some hright)
  have htype : p.assignedType grammar =
      ((grammar.assignedType? (v.name s.text)).map TypeExpr.ofName).getD p.declaredType :=
    LocalPin.assignedType_eq (by rw [hdeclaration]; rfl) grammar
  refine ⟨p, hp, hdeclares, hdeclaration, ?_, ?_⟩
  · intro root c hroot hsole hmoved
    have hagain : grammar.assignedType? (v.name s.text) = v.expressionType s.text := by
      rw [Grammar.assignedType?_of_namedChildren hroot hsole, name, String.toList_ofList,
        expressionType_of_movedBy_eq hv hmoved]
    have hdeclared : p.declaredType =
        ((v.expressionType s.text).map TypeExpr.ofName).getD .undefined := by
      rw [LocalPin.declaredType, hdeclaration, staticType_variablePin]
    rw [htype, hagain, hdeclared]
    cases v.expressionType s.text <;> rfl
  · intro hnone
    rw [htype, Grammar.assignedType?_eq_none hnone]
    rfl

/-- The tree of `(A::B.new(2))`. -/
def parenthesizedCall : Node :=
  ⟨"parenthesized_statements", 0, 13, true, none,
    [⟨"(", 0, 1, false, none, []⟩,
      ⟨"call", 1, 12, true, none,
        [⟨"scope_resolution", 1, 5, true, some "receiver",
            [⟨"constant", 1, 2, true, some "scope", []⟩,
              ⟨"::", 2, 4, false, none, []⟩,
              ⟨"constant", 4, 5, true, some "name", []⟩]⟩,
          ⟨".", 5, 6, false, none, []⟩,
          ⟨"identifier", 6, 9, true, some "method", []⟩,
          ⟨"argument_list", 9, 12, true, some "arguments",
            [⟨"(", 9, 10, false, none, []⟩,
              ⟨"integer", 10, 11, true, none, []⟩,
              ⟨")", 11, 12, false, none, []⟩]⟩]⟩,
      ⟨")", 12, 13, false, none, []⟩]⟩

def grammarOfCall : Grammar := fun text =>
  if text = "(A::B.new(2))" then some ⟨"program", 0, 13, true, none, [parenthesizedCall]⟩ else none

/-- A source that assigns the call, behind a character of two bytes. -/
def assignedCall : Source where
  text := "é = 1; x = (A::B.new(2))".toList
  root :=
    ⟨"program", 0, 25, true, none,
      [⟨"assignment", 0, 6, true, none,
          [⟨"identifier", 0, 2, true, some "left", []⟩,
            ⟨"=", 3, 4, false, none, []⟩,
            ⟨"integer", 5, 6, true, some "right", []⟩]⟩,
        ⟨";", 6, 7, false, none, []⟩,
        ⟨"assignment", 8, 25, true, none,
          [⟨"identifier", 8, 9, true, some "left", []⟩,
            ⟨"=", 10, 11, false, none, []⟩,
            { parenthesizedCall.movedBy 12 with field := some "right" }]⟩]⟩

/-- Both ways lead to the constant that is called. -/
theorem types_assignedCall :
    let s := assignedCall
    s.root.wellNested s.text = true ∧
      ∃ p ∈ s.localPins, p.name = "x" ∧ p.assignedType grammarOfCall = p.declaredType ∧
        p.declaredType = TypeExpr.ofName "A::B" := by
  intro s
  have hs : s.root.wellNested s.text = true := by decide
  let v : Node := { parenthesizedCall.movedBy 12 with field := some "right" }
  have hname : v.name s.text = "(A::B.new(2))" := by decide
  obtain ⟨p, hp, -, hdeclaration, hsame, -⟩ :=
    assignedType_eq_declaredType hs (a := [2]) (v := v) rfl rfl rfl rfl rfl grammarOfCall
  refine ⟨hs, p, hp, ?_, ?_, ?_⟩
  · rw [LocalPin.name, hdeclaration]
    decide
  · refine hsame ⟨"program", 0, 13, true, none, [parenthesizedCall]⟩ parenthesizedCall ?_ rfl rfl
    rw [hname]
    exact if_pos rfl
  · rw [LocalPin.declaredType, hdeclaration]
    decide

end Source

end Caret
