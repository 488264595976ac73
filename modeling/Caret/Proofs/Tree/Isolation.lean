import Caret.Proofs.Text.PositionOrder
import Caret.Proofs.Tree.Nearest
import Mathlib.Data.List.Perm.Subperm

/-!
# Which scope keeps a local variable

A local variable is looked up by the path of its definition and by positions,
never by the nodes of the tree.  This module says what that comes to for the
nodes.  The token at the cursor stands in the scope of every variable that is
visible there, or begins where that scope ends.  As far as the construct around
the cursor has a path of its own there, the variable also belongs to the
innermost definition around the cursor.
-/

namespace Caret

/-- A definition that begins before a cursor and ends after it. -/
def Node.definesAround (o : Nat) (n : Node) : Bool :=
  n.isDefinition && decide (n.start < o) && decide (o < n.stop)

/-- A definition that meets the bytes between two offsets. -/
def Node.definesNear (lo hi : Nat) (n : Node) : Bool :=
  n.isDefinition && decide (n.start ≤ hi) && decide (lo ≤ n.stop)

namespace Source

open Node

/-! ## Places of a source -/

/-- The frame handed to the root. -/
def top (s : Source) : Frame :=
  s.root.topFrame s.text

/-- The node at a place declares a local variable. -/
def Declares (s : Source) (a : List Nat) (pin : LocalPin) : Prop :=
  ∃ f n, s.root.visit? s.text s.top a = some (f, n) ∧ .localVariable pin ∈ n.ownEntries s.text f

/-- The path of the local variables declared in the node at a place. -/
def pathAt (s : Source) (a : List Nat) : String :=
  match s.root.visit? s.text s.top a with
  | some (f, n) => (n.innerFrame s.text f).closurePath
  | none => ""

/-- The definitions that meet the token at a cursor, as far as it lies before
the cursor. -/
def definitionsNear (s : Source) (o : Nat) : List (List Nat) :=
  s.root.places.filter fun a => (s.root.at? a).any (definesNear (s.root.tokenStart o) o)

/-- Of the top level and the definitions near a cursor at most one has the path
of the construct around the cursor. -/
def PathsApart (s : Source) (o : Nat) : Prop :=
  ("" :: (s.definitionsNear o).map s.pathAt).count (s.toBuffer.constructAt o).closurePath ≤ 1

instance (s : Source) (o : Nat) : Decidable (s.PathsApart o) :=
  inferInstanceAs (Decidable (_ ≤ _))

/-- A definition around a cursor that lies in every other one. -/
structure IsInnermostDefinition (s : Source) (o : Nat) (d : List Nat) : Prop where
  around : ∃ n, s.root.at? d = some n ∧ n.definesAround o = true
  innermost : ∀ e m n, s.root.at? e = some m → m.definesAround o = true →
    s.root.at? d = some n → m.start ≤ n.start ∧ n.stop ≤ m.stop

theorem pathAt_eq
    {s : Source} {a : List Nat} {f : Frame} {n : Node}
    (h : s.root.visit? s.text s.top a = some (f, n)) :
    s.pathAt a = (n.innerFrame s.text f).closurePath := by
  rw [pathAt, h]

/-- A place has the path of the definition nearest to it. -/
theorem pathAt_cases
    {s : Source} {a : List Nat} {n : Node} (hn : s.root.at? a = some n) :
    (∃ d, IsNearest isDefinition s.root a d ∧ s.pathAt a = s.pathAt d) ∨
      NoneAround isDefinition s.root a ∧ s.pathAt a = "" := by
  obtain ⟨f, hvisit⟩ := exists_visit?_of_at? s.text s.top hn
  have hview (frame : Frame) (n : Node) (h : n.isDefinition = false) :
      (n.innerFrame s.text frame).closurePath = frame.closurePath :=
    closurePath_innerFrame frame h
  rw [pathAt_eq hvisit]
  rcases exists_nearest_or_none Frame.closurePath hview hvisit with
    ⟨d, g, m, hd, hvisit', heq⟩ | ⟨hnone, heq⟩
  · exact Or.inl ⟨d, hd, heq.trans (pathAt_eq hvisit').symm⟩
  · exact Or.inr ⟨hnone, heq⟩

theorem mem_definitionsNear_iff {s : Source} {o : Nat} {a : List Nat} :
    a ∈ s.definitionsNear o ↔
      ∃ n, s.root.at? a = some n ∧ n.definesNear (s.root.tokenStart o) o = true := by
  simp only [definitionsNear, List.mem_filter, mem_places_iff, Option.any_eq_true]
  constructor
  · rintro ⟨-, h⟩
    exact h
  · rintro ⟨n, hn, hnear⟩
    exact ⟨⟨n, hn⟩, n, hn, hnear⟩

/-- The path of the construct around a cursor is that of one definition near it. -/
theorem PathsApart.eq_of_pathAt_eq
    {s : Source} {o : Nat} (h : s.PathsApart o) {a b : List Nat} (ha : a ∈ s.definitionsNear o)
    (hb : b ∈ s.definitionsNear o)
    (hapath : s.pathAt a = (s.toBuffer.constructAt o).closurePath)
    (hbpath : s.pathAt b = (s.toBuffer.constructAt o).closurePath) :
    a = b := by
  by_contra hne
  have hboth : [a, b].Subperm (s.definitionsNear o) :=
    List.subperm_of_subset (by simp [hne]) (by simp [ha, hb])
  have htwo :=
    calc
      2 = [a, b].countP ((· == (s.toBuffer.constructAt o).closurePath) ∘ s.pathAt) := by
        simp [hapath, hbpath]
      _ ≤ (s.definitionsNear o).countP _ := hboth.countP_le _
      _ = ((s.definitionsNear o).map s.pathAt).count _ := List.countP_map.symm
  have hone := List.count_le_count_cons.trans h
  omega

/-- The path of the top level is not that of a definition near the cursor as well. -/
theorem PathsApart.pathAt_ne
    {s : Source} {o : Nat} (h : s.PathsApart o) {a : List Nat} (ha : a ∈ s.definitionsNear o)
    (hroot : (s.toBuffer.constructAt o).closurePath = "") :
    s.pathAt a ≠ "" := by
  intro hempty
  have hpos : 0 < ((s.definitionsNear o).map s.pathAt).count "" :=
    List.count_pos_iff.2 (hempty ▸ List.mem_map_of_mem ha)
  rw [PathsApart, hroot, List.count_cons_self] at h
  omega

/-! ## The construct around a cursor -/

theorem mem_constructs_iff {s : Source} {span : Span} {construct : Construct} :
    (span, construct) ∈ s.toBuffer.constructs ↔
      ∃ a f n pin, s.root.visit? s.text s.top a = some (f, n) ∧
        .definition span construct pin ∈ n.ownEntries s.text f := by
  simp only [toBuffer, List.mem_filterMap, entries, mem_outline_iff]
  constructor
  · rintro ⟨e, ⟨a, f, n, hvisit, he⟩, hconstruct⟩
    cases e with
    | definition span' construct' pin =>
        obtain ⟨rfl, rfl⟩ := Prod.mk.inj (Option.some.inj hconstruct)
        exact ⟨a, f, n, pin, hvisit, he⟩
    | localVariable | sharedVariable => exact absurd hconstruct (by simp [OutlineEntry.construct?])
  · rintro ⟨a, f, n, pin, hvisit, he⟩
    exact ⟨_, ⟨a, f, n, hvisit, he⟩, rfl⟩

theorem exists_place_of_mem_constructs
    {s : Source} {c : Span × Construct} (hc : c ∈ s.toBuffer.constructs) :
    ∃ a n, s.root.at? a = some n ∧ n.isDefinition = true ∧ c.1 = n.span ∧
      c.2.closurePath = s.pathAt a := by
  obtain ⟨a, f, n, pin, hvisit, he⟩ := mem_constructs_iff.1 hc
  rcases mem_ownEntries_cases he with hvariable | ⟨hn, construct, pin', heq, hpath⟩
  · exact hvariable.elim
  · obtain ⟨hspan, hconstruct, -⟩ := OutlineEntry.definition.inj heq
    exact ⟨a, n, at?_of_visit? hvisit, hn, hspan, by rw [hconstruct, hpath, pathAt_eq hvisit]⟩

theorem exists_mem_constructs_of_place
    {s : Source} {a : List Nat} {n : Node} (hn : s.root.at? a = some n)
    (hdefinition : n.isDefinition = true) :
    ∃ c ∈ s.toBuffer.constructs, c.1 = n.span := by
  obtain ⟨f, hvisit⟩ := exists_visit?_of_at? s.text s.top hn
  obtain ⟨construct, pin, he, -⟩ := exists_definition_mem_ownEntries s.text f hdefinition
  exact ⟨(n.span, construct), mem_constructs_iff.2 ⟨a, f, n, pin, hvisit, he⟩, rfl⟩

theorem definesAround_eq
    {o : Nat} {n : Node} (hn : n.start ≤ n.stop) (hdefinition : n.isDefinition = true) :
    n.definesAround o = n.span.surrounds o := by
  simp [definesAround, hdefinition, Node.span, Span.between, Span.surrounds, Nat.max_eq_left hn]

theorem isDefinition_of_definesAround {o : Nat} {n : Node} (h : n.definesAround o = true) :
    n.isDefinition = true := by
  simp only [definesAround, Bool.and_eq_true] at h
  exact h.1.1

theorem length_span {n : Node} (hn : n.start ≤ n.stop) : n.span.length = n.stop - n.start := by
  simp [Node.span, Span.between, Span.length, Nat.max_eq_left hn]

/-- Of two definitions around a cursor one lies in the other. -/
theorem nested_of_definesAround
    {s : Source} {text : List Char} (hs : s.root.wellNested text = true) {o : Nat}
    {a b : List Nat} {n m : Node}
    (hn : s.root.at? a = some n) (hm : s.root.at? b = some m) (han : n.definesAround o = true)
    (ham : m.definesAround o = true) :
    (m.start ≤ n.start ∧ n.stop ≤ m.stop) ∨ (n.start ≤ m.start ∧ m.stop ≤ n.stop) := by
  simp only [definesAround, Bool.and_eq_true, decide_eq_true_eq] at han ham
  by_cases hab : a <+: b
  · exact Or.inr (inside_of_above hs hn hm hab)
  by_cases hba : b <+: a
  · exact Or.inl (inside_of_above hs hm hn hba)
  · have := apart_of_not_above hs hn hm hab hba
    omega

theorem exists_construct_of_definesAround
    {s : Source} {text : List Char} (hs : s.root.wellNested text = true) {o : Nat}
    {a : List Nat} {n : Node}
    (hn : s.root.at? a = some n) (han : n.definesAround o = true) :
    ∃ c ∈ s.toBuffer.constructs, c.1 = n.span ∧ c.1.surrounds o = true := by
  have hdefinition := isDefinition_of_definesAround han
  obtain ⟨c, hc, hspan⟩ := exists_mem_constructs_of_place hn hdefinition
  refine ⟨c, hc, hspan, ?_⟩
  rw [hspan, ← definesAround_eq (start_le_stop_of_at? hs hn) hdefinition, han]

/-- The construct around a cursor is the root if there is no definition around
the cursor, or else comes with a span that is no longer than any of these
definitions. -/
theorem constructAt_root_or_shortest
    {s : Source} {text : List Char} (hs : s.root.wellNested text = true) (o : Nat) :
    ((∀ e m, s.root.at? e = some m → m.definesAround o = false) ∧
        s.toBuffer.constructAt o = Construct.root) ∨
      ∃ c ∈ s.toBuffer.constructs, s.toBuffer.constructAt o = c.2 ∧ c.1.surrounds o = true ∧
        ∀ e m, s.root.at? e = some m → m.definesAround o = true →
          c.1.length ≤ m.stop - m.start := by
  rcases Construct.innermost_cases s.toBuffer.constructs o with
    ⟨hroot, hnone⟩ | ⟨c, hc, heq, hsurrounds, hshortest⟩
  · refine Or.inl ⟨fun e m hm => ?_, hroot⟩
    by_contra ham
    obtain ⟨c, hc, -, hsurrounds⟩ :=
      exists_construct_of_definesAround hs hm (eq_true_of_ne_false ham)
    exact absurd hsurrounds (by simp [hnone c hc])
  · refine Or.inr ⟨c, hc, heq, hsurrounds, fun e m hm ham => ?_⟩
    obtain ⟨c', hc', hspan', hsurrounds'⟩ := exists_construct_of_definesAround hs hm ham
    have hlength := hshortest c' hc' hsurrounds'
    rwa [hspan', length_span (start_le_stop_of_at? hs hm)] at hlength

/-- The construct around a cursor has the path of the innermost definition, if
there is a definition around the cursor. -/
theorem constructAt_cases
    {s : Source} (hs : s.root.wellNested s.text = true) (o : Nat) :
    (∃ d, s.IsInnermostDefinition o d ∧
        (s.toBuffer.constructAt o).closurePath = s.pathAt d) ∨
      (∀ e n, s.root.at? e = some n → n.definesAround o = false) ∧
        (s.toBuffer.constructAt o).closurePath = "" := by
  rcases constructAt_root_or_shortest hs o with
    ⟨hnone, hroot⟩ | ⟨c, hc, heq, hsurrounds, hshortest⟩
  · exact Or.inr ⟨hnone, by rw [hroot]; rfl⟩
  · obtain ⟨d, n, hn, hdefinition, hspan, hpath⟩ := exists_place_of_mem_constructs hc
    have hordered := start_le_stop_of_at? hs hn
    have han : n.definesAround o = true := by
      rw [definesAround_eq hordered hdefinition, ← hspan, hsurrounds]
    refine Or.inl ⟨d, ⟨⟨n, hn, han⟩, ?_⟩, by rw [heq, hpath]⟩
    intro e m n' hm ham hn'
    obtain rfl := Option.some.inj (hn.symm.trans hn')
    have hordered' := start_le_stop_of_at? hs hm
    -- The shortest span need not be the lower place of two, but then they take the same bytes.
    have hlength := hshortest e m hm ham
    rw [hspan, length_span hordered] at hlength
    rcases nested_of_definesAround hs hn hm han ham with hinside | hinside
    · exact hinside
    · omega

/-! ## Visible variables -/

theorem exists_declares_of_visible
    {s : Source} {o : Nat} {pin : Pin} (hpin : pin ∈ s.toBuffer.visibleLocals o) :
    ∃ l, pin = .localVariable l ∧ (∃ a, s.Declares a l) ∧
      l.closurePath = (s.toBuffer.constructAt o).closurePath ∧
        l.presence.contains (Text.positionAt s.text (s.root.tokenStart o)) = true := by
  obtain ⟨hmem, hvisible⟩ := List.mem_filter.1 hpin
  obtain ⟨l, hl, rfl⟩ := List.mem_map.1 hmem
  obtain ⟨e, he, hlocal⟩ := List.mem_filterMap.1 hl
  obtain ⟨a, f, n, hvisit, he⟩ := mem_outline_iff.1 he
  simp only [Bool.and_eq_true, beq_iff_eq] at hvisible
  cases e with
  | localVariable pin =>
      obtain rfl := Option.some.inj hlocal
      exact ⟨pin, rfl, ⟨a, f, n, hvisit, he⟩, hvisible.1, hvisible.2⟩
  | definition | sharedVariable => exact absurd hlocal (by simp [OutlineEntry.localPin?])

/-- What is known of a variable from the place that declares it. -/
theorem Declares.spec
    {s : Source} {a : List Nat} {l : LocalPin} (ha : s.Declares a l) :
    ∃ f n, s.root.visit? s.text s.top a = some (f, n) ∧ l.closurePath = s.pathAt a ∧
      l.presence = Text.rangeBetween s.text n.start (n.innerFrame s.text f).scopeEnd := by
  obtain ⟨f, n, hvisit, he⟩ := ha
  rcases mem_ownEntries_cases he with ⟨hpath, hpresence⟩ | ⟨-, _, _, heq, -⟩
  · exact ⟨f, n, hvisit, hpath.trans (pathAt_eq hvisit).symm, hpresence⟩
  · exact OutlineEntry.noConfusion heq

/-- The token at the cursor stands in the scope of a variable that is visible
from it, or begins where that scope ends. -/
theorem token_in_scope
    {s : Source} (hs : s.root.wellNested s.text = true) {o : Nat}
    (ho : Text.IsBoundary s.text o) {l : LocalPin} {a : List Nat} (ha : s.Declares a l)
    (hl : l.presence.contains (Text.positionAt s.text (s.root.tokenStart o)) = true)
    {d : List Nat} {n : Node} (hd : IsNearest opensScope s.root a d)
    (hn : s.root.at? d = some n) :
    n.start ≤ s.root.tokenStart o ∧ s.root.tokenStart o ≤ n.stop := by
  obtain ⟨f, m, hvisit, -, hpresence⟩ := ha.spec
  have hm := at?_of_visit? hvisit
  rw [hpresence, hd.scopeEnd_eq hn hvisit] at hl
  have hstart := (wellNested_iff.1 (wellNested_at? hs hm).1).start_valid
  have hstop := (wellNested_iff.1 (wellNested_at? hs hn).1).stop_valid
  have hbetween := (Text.contains_rangeBetween_iff hstart hstop (isBoundary_tokenStart hs ho)).1 hl
  have hinside := inside_of_above hs hn hm hd.above
  omega

theorem token_in_definition
    {s : Source} (hs : s.root.wellNested s.text = true) {o : Nat}
    (ho : Text.IsBoundary s.text o) {l : LocalPin} {a : List Nat} (ha : s.Declares a l)
    (hl : l.presence.contains (Text.positionAt s.text (s.root.tokenStart o)) = true)
    {d : List Nat} (hd : IsNearest isDefinition s.root a d) :
    d ∈ s.definitionsNear o := by
  obtain ⟨f, m, hvisit, -, -⟩ := ha.spec
  obtain ⟨n, hn, hdefinition⟩ := hd.holds
  have hscope : n.opensScope = true := by simp [opensScope, hdefinition]
  rcases exists_nearest_or_none (p := opensScope) (fun _ => ()) (fun _ _ _ => rfl) hvisit with
    ⟨e, g, k, he, hvisit', -⟩ | ⟨hnone, -⟩
  · have hk := at?_of_visit? hvisit'
    have htoken := token_in_scope hs ho ha hl he hk
    have hinside := inside_of_above hs hn hk (he.last d n hd.above hn hscope)
    have := tokenStart_le s.root o
    refine mem_definitionsNear_iff.2 ⟨n, hn, ?_⟩
    simp only [definesNear, hdefinition, Bool.true_and, Bool.and_eq_true, decide_eq_true_eq]
    omega
  · exact absurd hscope (by simp [hnone d n hd.above hn])

theorem IsInnermostDefinition.mem_definitionsNear
    {s : Source} {o : Nat} {d : List Nat} (hd : s.IsInnermostDefinition o d) :
    d ∈ s.definitionsNear o := by
  obtain ⟨n, hn, han⟩ := hd.around
  have := tokenStart_le s.root o
  refine mem_definitionsNear_iff.2 ⟨n, hn, ?_⟩
  simp only [definesAround, definesNear, Bool.and_eq_true, decide_eq_true_eq] at han ⊢
  exact ⟨⟨han.1.1, by omega⟩, by omega⟩

/-- A local variable that is visible at a cursor was declared in a scope that
holds the token there, its end included, and in the innermost definition around
the cursor if nothing else near the cursor has the path of that definition. -/
theorem visibleLocals_isolated
    {s : Source} (hs : s.root.wellNested s.text = true) {o : Nat}
    (ho : Text.IsBoundary s.text o) {pin : Pin} (hpin : pin ∈ s.toBuffer.visibleLocals o) :
    ∃ l, pin = .localVariable l ∧ (∃ a, s.Declares a l) ∧ ∀ a, s.Declares a l →
      (∀ d n, IsNearest opensScope s.root a d → s.root.at? d = some n →
        n.start ≤ s.root.tokenStart o ∧ s.root.tokenStart o ≤ n.stop) ∧
      (s.PathsApart o →
        (∃ d, IsNearest isDefinition s.root a d ∧ s.IsInnermostDefinition o d) ∨
          NoneAround isDefinition s.root a ∧
            ∀ e n, s.root.at? e = some n → n.definesAround o = false) := by
  obtain ⟨l, rfl, hdeclared, hpath, hl⟩ := exists_declares_of_visible hpin
  refine ⟨l, rfl, hdeclared, fun a ha => ⟨fun d n hd hn => token_in_scope hs ho ha hl hd hn, ?_⟩⟩
  intro hpaths
  obtain ⟨f, m, hvisit, hplace, -⟩ := ha.spec
  rw [hplace] at hpath
  rcases pathAt_cases (at?_of_visit? hvisit) with ⟨d, hd, hdpath⟩ | ⟨hnone, hempty⟩
  · have hdnear := token_in_definition hs ho ha hl hd
    rw [hdpath] at hpath
    rcases constructAt_cases hs o with ⟨e, he, hepath⟩ | ⟨-, hroot⟩
    · obtain rfl := hpaths.eq_of_pathAt_eq hdnear he.mem_definitionsNear hpath hepath.symm
      exact Or.inl ⟨d, hd, he⟩
    · exact absurd (hpath.trans hroot) (hpaths.pathAt_ne hdnear hroot)
  · have hroot : (s.toBuffer.constructAt o).closurePath = "" := hpath ▸ hempty
    rcases constructAt_cases hs o with ⟨e, he, hepath⟩ | ⟨houtside, -⟩
    · exact absurd (hepath ▸ hroot) (hpaths.pathAt_ne he.mem_definitionsNear hroot)
    · exact Or.inr ⟨hnone, houtside⟩

/-- A method in a block, with one local variable. -/
def methodInBlock : Source where
  text := "Struct.new(:a) do\n def b; c = 1; end\nend".toList
  root :=
    ⟨"program", 0, 40, true, none, [⟨"call", 0, 40, true, none,
      [⟨"constant", 0, 6, true, some "receiver", []⟩,
        ⟨".", 6, 7, false, some "operator", []⟩,
        ⟨"identifier", 7, 10, true, some "method", []⟩,
        ⟨"argument_list", 10, 14, true, some "arguments",
          [⟨"(", 10, 11, false, none, []⟩,
            ⟨"simple_symbol", 11, 13, true, none, []⟩,
            ⟨")", 13, 14, false, none, []⟩]⟩,
        ⟨"do_block", 15, 40, true, some "block",
          [⟨"do", 15, 17, false, none, []⟩,
            ⟨"body_statement", 19, 36, true, some "body", [⟨"method", 19, 36, true, none,
              [⟨"def", 19, 22, false, none, []⟩,
                ⟨"identifier", 23, 24, true, some "name", []⟩,
                ⟨";", 24, 25, false, none, []⟩,
                ⟨"body_statement", 26, 32, true, some "body",
                  [⟨"assignment", 26, 31, true, none,
                    [⟨"identifier", 26, 27, true, some "left", []⟩,
                      ⟨"=", 28, 29, false, none, []⟩,
                      ⟨"integer", 30, 31, true, some "right", []⟩]⟩,
                    ⟨";", 31, 32, false, none, []⟩]⟩,
                ⟨"end", 33, 36, false, none, []⟩]⟩]⟩,
            ⟨"end", 37, 40, false, none, []⟩]⟩]⟩]⟩

/-- The variable of the method is visible behind its assignment, and belongs to
the method. -/
theorem visibleLocals_methodInBlock :
    let l : LocalPin :=
      ⟨⟨"c", "#b", some ⟨⟨1, 8⟩, ⟨1, 9⟩⟩, some "1", .ofName "Integer"⟩, ⟨⟨1, 8⟩, ⟨1, 18⟩⟩⟩
    methodInBlock.root.wellNested methodInBlock.text = true ∧
      Text.IsBoundary methodInBlock.text 31 ∧ methodInBlock.PathsApart 31 ∧
      .localVariable l ∈ methodInBlock.toBuffer.visibleLocals 31 ∧
      methodInBlock.Declares [0, 4, 1, 0, 3, 0] l ∧
      ∃ d, IsNearest isDefinition methodInBlock.root [0, 4, 1, 0, 3, 0] d ∧
        methodInBlock.IsInnermostDefinition 31 d := by
  intro l
  have hs : methodInBlock.root.wellNested methodInBlock.text = true := by decide
  have ho : Text.IsBoundary methodInBlock.text 31 :=
    (Text.splitAt?_isSome_iff _ _).1 (by decide)
  have hpaths : methodInBlock.PathsApart 31 := by decide
  have hvisible : .localVariable l ∈ methodInBlock.toBuffer.visibleLocals 31 := by decide
  have hdeclares : methodInBlock.Declares [0, 4, 1, 0, 3, 0] l := ⟨_, _, rfl, by decide⟩
  obtain ⟨l', heq, -, hisolated⟩ := visibleLocals_isolated hs ho hvisible
  obtain rfl := Pin.localVariable.inj heq
  refine ⟨hs, ho, hpaths, hvisible, hdeclares, ?_⟩
  rcases (hisolated _ hdeclares).2 hpaths with h | ⟨-, houtside⟩
  · exact h
  · exact absurd (houtside [0, 4, 1, 0] _ rfl) (by decide)

/-- A block with a local variable, and nothing behind it. -/
def blockAtEnd : Source where
  text := "loop \x7b break x = 1 \x7d".toList
  root :=
    ⟨"program", 0, 20, true, none, [⟨"call", 0, 20, true, none,
      [⟨"identifier", 0, 4, true, some "method", []⟩,
        ⟨"block", 5, 20, true, some "block",
          [⟨"\x7b", 5, 6, false, none, []⟩,
            ⟨"block_body", 7, 18, true, some "body", [⟨"break", 7, 18, true, none,
              [⟨"break", 7, 12, false, none, []⟩,
                ⟨"argument_list", 13, 18, true, none, [⟨"assignment", 13, 18, true, none,
                  [⟨"identifier", 13, 14, true, some "left", []⟩,
                    ⟨"=", 15, 16, false, none, []⟩,
                    ⟨"integer", 17, 18, true, some "right", []⟩]⟩]⟩]⟩]⟩,
            ⟨"\x7d", 19, 20, false, none, []⟩]⟩]⟩]⟩

/-- Right behind a block its variables are still visible, since both ends of a
range belong to it. -/
theorem visibleLocals_blockAtEnd :
    blockAtEnd.root.wellNested blockAtEnd.text = true ∧ Text.IsBoundary blockAtEnd.text 20 ∧
      ∃ l a d n, .localVariable l ∈ blockAtEnd.toBuffer.visibleLocals 20 ∧
        blockAtEnd.Declares a l ∧ IsNearest opensScope blockAtEnd.root a d ∧
        blockAtEnd.root.at? d = some n ∧ ¬blockAtEnd.root.tokenStart 20 < n.stop := by
  let l : LocalPin :=
    ⟨⟨"x", "", some ⟨⟨0, 13⟩, ⟨0, 14⟩⟩, some "1", .ofName "Integer"⟩, ⟨⟨0, 13⟩, ⟨0, 20⟩⟩⟩
  refine ⟨by decide, (Text.splitAt?_isSome_iff _ _).1 (by decide), l, [0, 1, 1, 0, 1, 0], [0, 1], _,
    by decide, ⟨_, _, rfl, by decide⟩, by decide, rfl, by decide⟩

/-- A method in a method of the same name, which has a local variable too. -/
def methodInNamesake : Source where
  text := "def x; w = 2; def x; z = 1; end; end".toList
  root :=
    ⟨"program", 0, 36, true, none, [⟨"method", 0, 36, true, none,
      [⟨"def", 0, 3, false, none, []⟩,
        ⟨"identifier", 4, 5, true, some "name", []⟩,
        ⟨";", 5, 6, false, none, []⟩,
        ⟨"body_statement", 7, 32, true, some "body",
          [⟨"assignment", 7, 12, true, none,
            [⟨"identifier", 7, 8, true, some "left", []⟩,
              ⟨"=", 9, 10, false, none, []⟩,
              ⟨"integer", 11, 12, true, some "right", []⟩]⟩,
            ⟨";", 12, 13, false, none, []⟩,
            ⟨"method", 14, 31, true, none,
              [⟨"def", 14, 17, false, none, []⟩,
                ⟨"identifier", 18, 19, true, some "name", []⟩,
                ⟨";", 19, 20, false, none, []⟩,
                ⟨"body_statement", 21, 27, true, some "body",
                  [⟨"assignment", 21, 26, true, none,
                    [⟨"identifier", 21, 22, true, some "left", []⟩,
                      ⟨"=", 23, 24, false, none, []⟩,
                      ⟨"integer", 25, 26, true, some "right", []⟩]⟩,
                    ⟨";", 26, 27, false, none, []⟩]⟩,
                ⟨"end", 28, 31, false, none, []⟩]⟩,
            ⟨";", 31, 32, false, none, []⟩]⟩,
        ⟨"end", 33, 36, false, none, []⟩]⟩]⟩

/-- Paths that are not apart let a method see the variables of the method around
it: the inner method is around the cursor, but not around the declaration. -/
theorem visibleLocals_methodInNamesake :
    ¬methodInNamesake.PathsApart 21 ∧
      ∃ l a d n, .localVariable l ∈ methodInNamesake.toBuffer.visibleLocals 21 ∧
        methodInNamesake.Declares a l ∧ methodInNamesake.root.at? d = some n ∧
        n.definesAround 21 = true ∧ ¬d <+: a := by
  let l : LocalPin :=
    ⟨⟨"w", "#x", some ⟨⟨0, 7⟩, ⟨0, 8⟩⟩, some "2", .ofName "Integer"⟩, ⟨⟨0, 7⟩, ⟨0, 36⟩⟩⟩
  refine ⟨by decide, l, [0, 3, 0], [0, 3, 2], _, by decide, ⟨_, _, rfl, by decide⟩, rfl, by decide,
    by decide⟩

end Source

end Caret
