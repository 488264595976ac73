import Caret.Command.Report
import Caret.Proofs.Cursor.Snapshot
import Caret.Proofs.Text.PositionOrder
import Caret.Proofs.Tree.Sites

/-!
# The order of local variables

Local variables are listed one declaration after the other, and a declaration
lists all its names before anything below it is looked at.  That is the order of
the text except where a declaration stands in front of a name of a declaration
above it, as an assignment in the default of a parameter stands in front of the
parameters behind it.
-/

namespace Caret

/-- Whether both pins have a location and that of the first one starts no later. -/
def LocalPin.startsNoLater (p q : LocalPin) : Bool :=
  p.declaration.location.any fun r => q.declaration.location.any fun r' => r.start ≤ r'.start

namespace Source

open Node

/-- No declaration names a variable behind a name of a declaration below it. -/
def NamesInOrder (s : Source) : Prop :=
  ∀ σ ∈ s.localSites, ∀ τ ∈ s.localSites, σ.owner <+: τ.owner → σ.owner ≠ τ.owner →
    s.nameStart σ ≤ s.nameStart τ

instance (s : Source) : Decidable s.NamesInOrder :=
  inferInstanceAs (Decidable (∀ σ ∈ s.localSites, ∀ τ ∈ s.localSites, _ → _ → _))

/-! ## Pins and sites -/

theorem startsNoLater_iff
    {s : Source} (hs : s.root.wellNested s.text = true) {p q : LocalPin} {σ τ : NameSite}
    (hp : ∃ x, s.root.at? σ.place = some x ∧ s.Declares σ.owner p ∧ Names s.text p x)
    (hq : ∃ x, s.root.at? τ.place = some x ∧ s.Declares τ.owner q ∧ Names s.text q x) :
    p.startsNoLater q = true ↔ s.nameStart σ ≤ s.nameStart τ := by
  obtain ⟨x, hx, -, -, hplocation⟩ := hp
  obtain ⟨y, hy, -, -, hqlocation⟩ := hq
  have hxstart := (wellNested_iff.1 (wellNested_at? hs hx).1).start_valid
  have hystart := (wellNested_iff.1 (wellNested_at? hs hy).1).start_valid
  rw [LocalPin.startsNoLater, hplocation, hqlocation, Option.any_some, Option.any_some,
    decide_eq_true_iff, nameStart_of_at? hx, nameStart_of_at? hy]
  exact (Text.strictMonoOn_positionAt s.text).le_iff_le hxstart hystart

theorem pairwise_iff_of_forall₂
    {α β : Type} {R : α → β → Prop} {P : α → α → Prop} {Q : β → β → Prop} {xs : List α}
    {ys : List β} (h : List.Forall₂ R xs ys)
    (hPQ : ∀ {x x' y y'}, R x y → R x' y' → (P x x' ↔ Q y y')) :
    xs.Pairwise P ↔ ys.Pairwise Q := by
  have hlength := h.length_eq
  rw [List.pairwise_iff_getElem, List.pairwise_iff_getElem]
  constructor
  · intro hP i j hi hj hij
    exact (hPQ (h.get (hlength ▸ hi) hi) (h.get (hlength ▸ hj) hj)).1
      (hP i j (hlength ▸ hi) (hlength ▸ hj) hij)
  · intro hQ i j hi hj hij
    exact (hPQ (h.get hi (hlength ▸ hi)) (h.get hj (hlength ▸ hj))).2
      (hQ i j (hlength ▸ hi) (hlength ▸ hj) hij)

/-! ## The order of sites -/

/-- Of two sites in their order the first name starts no later, unless the second
declaration stands below the first. -/
theorem nameStart_le_of_before
    {s : Source} (hs : s.root.wellNested s.text = true) {σ τ : NameSite} (hσ : σ ∈ s.localSites)
    (hτ : τ ∈ s.localSites) (hbefore : σ.Before τ)
    (habove : σ.owner <+: τ.owner → σ.owner = τ.owner) :
    s.nameStart σ ≤ s.nameStart τ := by
  obtain ⟨n, x, hn, -, hx, hxplace⟩ := exists_name_of_mem_localSites hσ
  obtain ⟨m, y, hm, -, hy, hyplace⟩ := exists_name_of_mem_localSites hτ
  rw [nameStart_of_at? hxplace, nameStart_of_at? hyplace]
  obtain ⟨hnwell, -⟩ := wellNested_at? hs hn
  rcases hbefore with hlt | ⟨heq, hlt⟩
  · have hapart := stop_le_start_of_lt hs hn hm hlt fun h =>
      List.lt_irrefl _ (habove h ▸ hlt)
    have hxinside := (wellNested_at? hnwell hx).2
    have hxordered := start_le_stop_of_at? hnwell hx
    have hyinside := (wellNested_at? (wellNested_at? hs hm).1 hy).2
    omega
  · rw [← heq, hn] at hm
    obtain rfl := Option.some.inj hm
    exact start_le_of_lt hnwell hx hy hlt

/-- Names start in the order of their sites if and only if no declaration names a
variable behind a name of a declaration below it. -/
theorem pairwise_nameStart_iff {s : Source} (hs : s.root.wellNested s.text = true) :
    (s.localSites.Pairwise fun σ τ => s.nameStart σ ≤ s.nameStart τ) ↔ s.NamesInOrder := by
  have hbefore : s.localSites.Pairwise NameSite.Before := s.pairwise_sitesOf declaresLocal
  constructor
  · intro hstarts σ hσ τ hτ habove hne
    exact NameSite.rel_of_before hbefore hstarts hσ hτ (Or.inl (lt_of_above habove hne))
  · intro hnames
    refine hbefore.imp_of_mem fun {σ τ} hσ hτ h => ?_
    by_cases habove : σ.owner <+: τ.owner ∧ σ.owner ≠ τ.owner
    · exact hnames σ hσ τ hτ habove.1 habove.2
    · exact nameStart_le_of_before hs hσ hτ h fun hup =>
        by_contra fun hne => habove ⟨hup, hne⟩

theorem pairwise_localPins_iff {s : Source} (hs : s.root.wellNested s.text = true) :
    (s.localPins.Pairwise fun p q => p.startsNoLater q = true) ↔ s.NamesInOrder := by
  rw [pairwise_iff_of_forall₂ s.forall₂_localPins (startsNoLater_iff hs)]
  exact pairwise_nameStart_iff hs

/-! ## The last of a name -/

theorem startsNoLater_self
    {s : Source} (hs : s.root.wellNested s.text = true) {p : LocalPin} (hp : p ∈ s.localPins) :
    p.startsNoLater p = true := by
  obtain ⟨i, hi, rfl⟩ := List.getElem_of_mem hp
  have hsite := s.forall₂_localPins.get hi (s.forall₂_localPins.length_eq ▸ hi)
  exact (startsNoLater_iff hs hsite hsite).2 (Nat.le_refl _)

theorem exists_visibleLocals_eq (s : Source) (o : Nat) :
    ∃ passes : LocalPin → Bool,
      s.toBuffer.visibleLocals o = (s.localPins.filter passes).map Pin.localVariable :=
  ⟨_, List.filter_map⟩

/-- If a pin of a name is visible, the answer for the name is the last visible one. -/
theorem exists_localNamed?_eq
    {s : Source} {o : Nat} (ho : Text.IsBoundary s.text o) {q : LocalPin}
    (hq : .localVariable q ∈ s.toBuffer.visibleLocals o) (samples : Samples)
    (infer : LocalPin → TypeExpr) :
    ∃ before p after, s.toBuffer.visibleLocals o = (before ++ p :: after).map Pin.localVariable ∧
      (before ++ p :: after).Sublist s.localPins ∧ p.name = q.name ∧
        s.localNamed? o q.name samples infer = .ok (some (p.report samples infer)) ∧
          ∀ r ∈ after, r.name ≠ q.name := by
  obtain ⟨passes, hvisible⟩ := s.exists_visibleLocals_eq o
  generalize hpins : s.localPins.filter passes = pins at hvisible
  have hmem : q ∈ pins := by
    rw [hvisible] at hq
    obtain ⟨q', hq', heq⟩ := List.mem_map.1 hq
    exact Pin.localVariable.inj heq ▸ hq'
  obtain ⟨p, hfind⟩ : ∃ p, pins.reverse.find? (·.name == q.name) = some p :=
    Option.isSome_iff_exists.1
      (List.find?_isSome.2 ⟨q, List.mem_reverse.2 hmem, beq_self_eq_true _⟩)
  obtain ⟨hname, after, before, hsplit, hafter⟩ := List.find?_eq_some_iff_append.1 hfind
  have hlist : pins = before.reverse ++ p :: after.reverse := by
    rw [← List.reverse_reverse pins, hsplit]
    simp
  refine ⟨before.reverse, p, after.reverse, hlist ▸ hvisible, ?_, beq_iff_eq.1 hname, ?_, ?_⟩
  · rw [← hlist, ← hpins]
    exact List.filter_sublist
  · obtain ⟨c, hc⟩ := Buffer.exists_cursor_iff.2 (show Text.IsBoundary s.toBuffer.text o from ho)
    have hlocals : (pins.map Pin.localVariable).filterMap Pin.localPin? = pins := by
      rw [List.filterMap_map]
      exact List.filterMap_some
    rw [localNamed?, visibleLocals, hc, hvisible, hlocals]
    simp only [Except.map, Except.ok.injEq]
    rw [← List.map_reverse, List.find?_map]
    exact congrArg (Option.map fun p => p.report samples infer) hfind
  · intro r hr
    simpa using hafter r (List.mem_reverse.1 hr)

/-- In a well-nested source the local variables are listed in the order in which their
names start if and only if no declaration names a variable behind a name of a
declaration below it.  Then the answer for the name of a visible variable is a visible
one of the name than which no other starts later. -/
theorem localPins_inOrder_iff
    {s : Source} (hs : s.root.wellNested s.text = true) :
    ((s.localPins.Pairwise fun p q => p.startsNoLater q = true) ↔ s.NamesInOrder) ∧
      (s.NamesInOrder → ∀ o, Text.IsBoundary s.text o → ∀ samples infer q,
        .localVariable q ∈ s.toBuffer.visibleLocals o →
          ∃ p, .localVariable p ∈ s.toBuffer.visibleLocals o ∧ p.name = q.name ∧
            s.localNamed? o q.name samples infer = .ok (some (p.report samples infer)) ∧
              ∀ r, .localVariable r ∈ s.toBuffer.visibleLocals o → r.name = q.name →
                r.startsNoLater p = true) := by
  refine ⟨pairwise_localPins_iff hs, fun hnames o ho samples infer q hq => ?_⟩
  obtain ⟨before, p, after, hvisible, hsublist, hname, hanswer, hafter⟩ :=
    exists_localNamed?_eq ho hq samples infer
  have hmem {r : LocalPin} :
      .localVariable r ∈ s.toBuffer.visibleLocals o ↔ r ∈ before ++ p :: after := by
    simp [hvisible]
  have hsorted := ((pairwise_localPins_iff hs).2 hnames).sublist hsublist
  have hp : p ∈ before ++ p :: after := List.mem_append_right _ List.mem_cons_self
  refine ⟨p, hmem.2 hp, hname, hanswer, fun r hr hrname => ?_⟩
  rcases List.mem_append.1 (hmem.1 hr) with hr | hr
  · exact (List.pairwise_append.1 hsorted).2.2 r hr p List.mem_cons_self
  · rcases List.mem_cons.1 hr with rfl | hr
    · exact startsNoLater_self hs (hsublist.subset hp)
    · exact absurd hrname (hafter r hr)

def assignedTwice : Source where
  text := "x = 1\nx = y\nx\n".toList
  root :=
    ⟨"program", 0, 14, true, none,
      [⟨"assignment", 0, 5, true, none,
          [⟨"identifier", 0, 1, true, some "left", []⟩,
            ⟨"=", 2, 3, false, none, []⟩,
            ⟨"integer", 4, 5, true, some "right", []⟩]⟩,
        ⟨"assignment", 6, 11, true, none,
          [⟨"identifier", 6, 7, true, some "left", []⟩,
            ⟨"=", 8, 9, false, none, []⟩,
            ⟨"identifier", 10, 11, true, some "right", []⟩]⟩,
        ⟨"identifier", 12, 13, true, none, []⟩]⟩

/-- Behind both assignments the answer is the second one. -/
theorem localPins_assignedTwice :
    let s := assignedTwice
    s.root.wellNested s.text = true ∧ s.NamesInOrder ∧ Text.IsBoundary s.text 13 ∧
      (s.localPins.Pairwise fun p q => p.startsNoLater q = true) ∧
      ∃ p, .localVariable p ∈ s.toBuffer.visibleLocals 13 ∧
        s.localNamed? 13 "x" .empty LocalPin.declaredType =
          .ok (some (p.report .empty LocalPin.declaredType)) ∧
        p.declaration.assignment = some "y" := by
  intro s
  have hs : s.root.wellNested s.text = true := by decide
  have hnames : s.NamesInOrder := by decide
  have ho : Text.IsBoundary s.text 13 := (Text.splitAt?_isSome_iff s.text 13).1 (by decide)
  obtain ⟨horder, hlast⟩ := localPins_inOrder_iff hs
  obtain ⟨p, hp, -, hanswer, -⟩ :=
    hlast hnames 13 ho .empty LocalPin.declaredType (s.localPins.get ⟨0, by decide⟩) (by decide)
  have hsecond : s.localNamed? 13 "x" .empty LocalPin.declaredType =
      .ok (some ⟨"x", "", some "y", ⟨⟨1, 0⟩, ⟨3, 0⟩⟩, "undefined"⟩) := by
    decide
  have hreport := Option.some.inj (Except.ok.inj (hanswer.symm.trans hsecond))
  exact ⟨hs, hnames, ho, horder.2 hnames, p, hp, hanswer, congrArg LocalReport.assignment hreport⟩

/-- A method whose parameters have assignments for defaults. -/
def assignmentInDefault : Source where
  text := "def m(a = (b = 1), c: (d = 2), &e) = f = 3".toList
  root :=
    ⟨"program", 0, 42, true, none,
      [⟨"method", 0, 42, true, none,
          [⟨"def", 0, 3, false, none, []⟩,
            ⟨"identifier", 4, 5, true, some "name", []⟩,
            ⟨"method_parameters", 5, 34, true, some "parameters",
              [⟨"(", 5, 6, false, none, []⟩,
                ⟨"optional_parameter", 6, 17, true, none,
                  [⟨"identifier", 6, 7, true, some "name", []⟩,
                    ⟨"=", 8, 9, false, none, []⟩,
                    ⟨"parenthesized_statements", 10, 17, true, some "value",
                      [⟨"(", 10, 11, false, none, []⟩,
                        ⟨"assignment", 11, 16, true, none,
                          [⟨"identifier", 11, 12, true, some "left", []⟩,
                            ⟨"=", 13, 14, false, none, []⟩,
                            ⟨"integer", 15, 16, true, some "right", []⟩]⟩,
                        ⟨")", 16, 17, false, none, []⟩]⟩]⟩,
                ⟨",", 17, 18, false, none, []⟩,
                ⟨"keyword_parameter", 19, 29, true, none,
                  [⟨"identifier", 19, 20, true, some "name", []⟩,
                    ⟨":", 20, 21, false, none, []⟩,
                    ⟨"parenthesized_statements", 22, 29, true, some "value",
                      [⟨"(", 22, 23, false, none, []⟩,
                        ⟨"assignment", 23, 28, true, none,
                          [⟨"identifier", 23, 24, true, some "left", []⟩,
                            ⟨"=", 25, 26, false, none, []⟩,
                            ⟨"integer", 27, 28, true, some "right", []⟩]⟩,
                        ⟨")", 28, 29, false, none, []⟩]⟩]⟩,
                ⟨",", 29, 30, false, none, []⟩,
                ⟨"block_parameter", 31, 33, true, none,
                  [⟨"&", 31, 32, false, none, []⟩,
                    ⟨"identifier", 32, 33, true, some "name", []⟩]⟩,
                ⟨")", 33, 34, false, none, []⟩]⟩,
            ⟨"=", 35, 36, false, none, []⟩,
            ⟨"assignment", 37, 42, true, some "body",
              [⟨"identifier", 37, 38, true, some "left", []⟩,
                ⟨"=", 39, 40, false, none, []⟩,
                ⟨"integer", 41, 42, true, some "right", []⟩]⟩]⟩]⟩

/-- All parameters are listed in front of the assignments in their defaults. -/
theorem localPins_assignmentInDefault :
    let s := assignmentInDefault
    s.root.wellNested s.text = true ∧
      s.localPins.map LocalPin.name = ["a", "c", "e", "b", "d", "f"] ∧
      ¬s.localPins.Pairwise fun p q => p.startsNoLater q = true := by
  decide

end Source

end Caret
