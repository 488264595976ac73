import Caret.Proofs.Tree.Holes

/-!
# Strings and comments by the nodes around a byte

The deepest layer around a byte decides: the byte belongs to a string if it is a
string, and to code if it is an interpolation or if there is none.  The regions
collected from a tree say the same, at every depth of strings in interpolations
in strings.
-/

namespace Caret.Node

/-! ## What is found at a byte -/

/-- Whether a region covers a byte as part of a string. -/
def Region.coversString (i : Nat) (r : Region) : Bool :=
  r.string?.any (·.covers i)

/-- Whether a region covers a byte as part of a comment. -/
def Region.coversComment (i : Nat) (r : Region) : Bool :=
  r.comment?.any (·.covers i)

/-- A byte may be covered as part of a string or a comment, by the regions of a
node or by those that it adds when it stands in a string, or lie in a hole. -/
inductive Finding where
  | string
  | comment
  | stringInText
  | commentInText
  | hole

/-- What is found at a byte because of a node and what is below it. -/
def finds (i : Nat) (n : Node) : Finding → Prop
  | .string => ∃ r ∈ n.regions, r.coversString i = true
  | .comment => ∃ r ∈ n.regions, r.coversComment i = true
  | .stringInText => ∃ r ∈ n.regionsInText, r.coversString i = true
  | .commentInText => ∃ r ∈ n.regionsInText, r.coversComment i = true
  | .hole => ∃ h ∈ n.outerHoles, h.covers i = true

/-- What is found at a byte because of the children of a node. -/
def findsBelow (i : Nat) (n : Node) (k : Finding) : Prop :=
  ∃ c ∈ n.children, c.finds i k

theorem exists_mem_flatMap_iff {α : Type} {f : Node → List α} {p : α → Prop} {ns : List Node} :
    (∃ x ∈ ns.flatMap f, p x) ↔ ∃ n ∈ ns, ∃ x ∈ f n, p x := by
  constructor
  · rintro ⟨x, hx, hp⟩
    obtain ⟨n, hn, hx⟩ := List.mem_flatMap.1 hx
    exact ⟨n, hn, x, hx, hp⟩
  · rintro ⟨n, hn, x, hx, hp⟩
    exact ⟨x, List.mem_flatMap.2 ⟨n, hn, hx⟩, hp⟩

theorem finds_string_of_regions_eq
    {n : Node} (h : n.regions = n.children.flatMap regions) (i : Nat) :
    n.finds i .string ↔ n.findsBelow i .string := by
  rw [finds, h, exists_mem_flatMap_iff]
  rfl

theorem finds_comment_of_regions_eq
    {n : Node} (h : n.regions = n.children.flatMap regions) (i : Nat) :
    n.finds i .comment ↔ n.findsBelow i .comment := by
  rw [finds, h, exists_mem_flatMap_iff]
  rfl

/-- In a string a node adds what its children add, unless it is an
interpolation. -/
theorem finds_inText_iff
    {n : Node} (hn : n.isInterpolation = false) (hnamed : n.children ≠ [] → n.named = true)
    (i : Nat) :
    (n.finds i .stringInText ↔ n.findsBelow i .stringInText) ∧
      (n.finds i .commentInText ↔ n.findsBelow i .commentInText) ∧
        (n.finds i .hole ↔ n.findsBelow i .hole) := by
  have htext := regionsInText_eq hn hnamed
  refine ⟨?_, ?_, ?_⟩
  · rw [finds, htext, exists_mem_flatMap_iff]
    rfl
  · rw [finds, htext, exists_mem_flatMap_iff]
    rfl
  · rw [finds, outerHoles_eq hn hnamed, exists_mem_flatMap_iff]
    rfl

theorem finds_hole_of_isInterpolation {n : Node} (hn : n.isInterpolation = true) {i : Nat} :
    n.finds i .hole ↔ n.takes i = true := by
  rw [finds, outerHoles_of_isInterpolation hn, takes_iff]
  simp [Span.covers_iff]

/-- A string covers what it takes, holes apart, and what is in the strings of
its holes. -/
theorem finds_string_of_isString
    {source : List Char} {n : Node} (hn : n.wellNested source = true)
    (hstring : n.isString = true) {i : Nat} :
    n.finds i .string ↔
      (n.takes i = true ∧ ¬n.findsBelow i .hole) ∨ n.findsBelow i .stringInText := by
  have hpieces := exists_covers_pieces_iff
    (SpansWithin.flatMap_children (wellNested_iff.1 hn) fun c hc =>
      spansWithin_outerHoles ((wellNested_iff.1 hn).children_wellNested c hc)) (i := i)
  rw [exists_mem_flatMap_iff, ← takes_iff] at hpieces
  have hmap : (∃ r ∈ (pieces n.start n.stop (n.children.flatMap outerHoles)).map Region.string,
      r.coversString i = true) ↔ n.takes i = true ∧ ¬n.findsBelow i .hole := by
    refine Iff.trans ?_ hpieces
    simp [Region.coversString, Region.string?]
  rw [finds, regions_of_isString hstring]
  simp only [List.mem_append, or_and_right, exists_or, hmap, exists_mem_flatMap_iff]
  rfl

theorem finds_comment_of_isString {n : Node} (hstring : n.isString = true) {i : Nat} :
    n.finds i .comment ↔ n.findsBelow i .commentInText := by
  have hmap : ¬∃ r ∈ (pieces n.start n.stop (n.children.flatMap outerHoles)).map Region.string,
      r.coversComment i = true := by
    simp [Region.coversComment, Region.comment?]
  rw [finds, regions_of_isString hstring]
  simp only [List.mem_append, or_and_right, exists_or, hmap, exists_mem_flatMap_iff, false_or]
  rfl

/-! ## What the deepest layer settles -/

/-- A comment at or below the node takes the byte. -/
def InComment (i : Nat) (n : Node) : Prop :=
  ∃ a c, n.at? a = some c ∧ c.kind = "comment" ∧ c.takes i = true

theorem inComment_iff {i : Nat} {n : Node} :
    n.InComment i ↔
      (n.kind = "comment" ∧ n.takes i = true) ∨ ∃ c ∈ n.children, c.InComment i := by
  constructor
  · rintro ⟨_ | ⟨j, a⟩, c, ha, hc⟩
    · obtain rfl := Option.some.inj ha
      exact Or.inl hc
    · obtain ⟨d, hd, ha⟩ := at?_cons_eq_some_iff.1 ha
      exact Or.inr ⟨d, List.mem_of_getElem? hd, a, c, ha, hc⟩
  · rintro (hc | ⟨d, hd, a, c, ha, hc⟩)
    · exact ⟨[], n, rfl, hc⟩
    · obtain ⟨j, hj⟩ := List.getElem?_of_mem hd
      exact ⟨j :: a, c, at?_cons_eq_some_iff.2 ⟨d, hj, ha⟩, hc⟩

/-- What is found at a byte, given the deepest layer over it. -/
structure Settles (layer : Option Node) (inComment : Prop) (finds : Finding → Prop) : Prop where
  string_iff : finds .string ↔ layer.any isString = true
  comment_iff : finds .comment ↔ inComment ∧ layer.any isString = false
  stringInText_iff : finds .stringInText ↔ finds .hole ∧ layer.any isString = true
  commentInText_iff :
    finds .commentInText ↔ finds .hole ∧ inComment ∧ layer.any isString = false
  hole_of_interpolation : layer.any isInterpolation = true → finds .hole
  layer_of_hole : finds .hole → layer.isSome = true

theorem settles_none_iff {finds : Finding → Prop} :
    Settles none False finds ↔ ∀ k, ¬finds k := by
  constructor
  · intro h k
    have hhole : ¬finds .hole := fun hfinds => by simpa using h.layer_of_hole hfinds
    cases k with
    | string => simp [h.string_iff]
    | comment => simp [h.comment_iff]
    | stringInText => simp [h.stringInText_iff]
    | commentInText => simp [h.commentInText_iff]
    | hole => exact hhole
  · intro h
    constructor <;> simp [h]

theorem isInterpolation_of_isString {n : Node} (hn : n.isString = true) :
    n.isInterpolation = false := by
  by_contra h
  simp only [Bool.not_eq_false, isInterpolation, Bool.and_eq_true, beq_iff_eq] at h
  rw [isString, h.2] at hn
  exact absurd hn (by decide)

theorem isString_of_isInterpolation {n : Node} (hn : n.isInterpolation = true) :
    n.isString = false := by
  by_contra h
  rw [Bool.not_eq_false] at h
  simp [isInterpolation_of_isString h] at hn

theorem kind_ne_comment_of_isInterpolation {n : Node} (hn : n.isInterpolation = true) :
    n.kind ≠ "comment" := by
  simp only [isInterpolation, Bool.and_eq_true, beq_iff_eq] at hn
  simp [hn.2]

/-- The code of an interpolation is found in a string as it is anywhere else. -/
theorem finds_inText_of_isInterpolation {n : Node} (hn : n.isInterpolation = true) (i : Nat) :
    (n.finds i .stringInText ↔ n.finds i .string) ∧
      (n.finds i .commentInText ↔ n.finds i .comment) := by
  simp only [finds, regionsInText_of_isInterpolation hn, and_self]

theorem ownLayer_of_isLayer {n : Node} (hn : n.isLayer = true) {i : Nat}
    (hi : n.takes i = true) :
    n.ownLayer i = some n := by
  simp [ownLayer, layerOver, hn, hi]

theorem ownLayer_of_not_isLayer {n : Node} (hn : n.isLayer = false) (i : Nat) :
    n.ownLayer i = none := by
  simp [ownLayer, layerOver, hn]

namespace Settles

variable {source : List Char} {n : Node} {i : Nat} {layer : Option Node} {inComment : Prop}

theorem not_hole {finds : Finding → Prop} (h : Settles none inComment finds) : ¬finds .hole := by
  intro hhole
  simpa using h.layer_of_hole hhole

/-- In a string, what is below settles the byte if there is a layer below, and
the string settles it otherwise. -/
theorem of_isString
    (hn : n.wellNested source = true) (hstring : n.isString = true)
    (hnamed : n.children ≠ [] → n.named = true) (hi : n.takes i = true)
    (hlayer : ∀ m ∈ layer, m.isLayer = true) (h : Settles layer inComment (n.findsBelow i)) :
    Settles (layer.or (n.ownLayer i)) inComment (n.finds i) := by
  have hinter := isInterpolation_of_isString hstring
  have hown := ownLayer_of_isLayer (by simp [isLayer, hstring]) hi
  obtain ⟨htextString, htextComment, hhole⟩ := finds_inText_iff hinter hnamed i
  have hcode := finds_string_of_isString hn hstring (i := i)
  have hcomment := finds_comment_of_isString hstring (i := i)
  rw [h.stringInText_iff] at htextString hcode
  rw [h.commentInText_iff] at htextComment hcomment
  rw [← hhole] at htextString htextComment hcode hcomment
  cases layer with
  | none =>
      have hnone : ¬n.finds i .hole := fun hbelow => h.not_hole (hhole.1 hbelow)
      rw [Option.none_or, hown]
      constructor
      · simp [hcode, hnone, hi, hstring]
      · simp [hcomment, hnone, hstring]
      · simp [htextString, hnone]
      · simp [htextComment, hnone]
      · simp [hinter]
      · simp
  | some m =>
      rw [Option.some_or]
      have hinside : (Option.some m).any isString = false → n.finds i .hole := by
        intro hm
        have hlayer := hlayer m rfl
        simp only [Option.any_some] at hm
        exact hhole.2 (h.hole_of_interpolation (by simpa [isLayer, hm] using hlayer))
      constructor
      · rw [hcode]
        cases hm : (Option.some m).any isString with
        | true => simpa [hi] using (em (n.finds i .hole)).symm
        | false => simp [hinside hm]
      · rw [hcomment]
        exact ⟨And.right, fun hc => ⟨hinside hc.2, hc⟩⟩
      · exact htextString
      · exact htextComment
      · exact fun hm => hhole.2 (h.hole_of_interpolation hm)
      · exact fun _ => rfl

/-- An interpolation is code again, and a hole wherever it is. -/
theorem of_isInterpolation
    (hinter : n.isInterpolation = true) (hi : n.takes i = true)
    (h : Settles layer inComment (n.findsBelow i)) :
    Settles (layer.or (n.ownLayer i)) inComment (n.finds i) := by
  have hown := ownLayer_of_isLayer (by simp [isLayer, hinter]) hi
  have hstring := isString_of_isInterpolation hinter
  have hregions := regions_of_code (kind_ne_comment_of_isInterpolation hinter) hstring
  have hcode := finds_string_of_regions_eq hregions i
  have hcomment := finds_comment_of_regions_eq hregions i
  have htext := finds_inText_of_isInterpolation hinter i
  have hhole : n.finds i .hole := (finds_hole_of_isInterpolation hinter).2 hi
  have hlayer : (layer.or (some n)).any isString = layer.any isString := by
    cases layer with
    | none => simp [hstring]
    | some m => rfl
  rw [hown]
  constructor
  · rw [hcode, h.string_iff, hlayer]
  · rw [hcomment, h.comment_iff, hlayer]
  · rw [htext.1, hcode, h.string_iff, hlayer]
    simp [hhole]
  · rw [htext.2, hcomment, h.comment_iff, hlayer]
    simp [hhole]
  · exact fun _ => hhole
  · intro _
    cases layer <;> rfl

/-- Any other node but a comment leaves everything to what is below. -/
theorem of_not_isLayer
    (hlayer : n.isLayer = false) (hcomment : n.kind ≠ "comment")
    (hnamed : n.children ≠ [] → n.named = true) (h : Settles layer inComment (n.findsBelow i)) :
    Settles (layer.or (n.ownLayer i)) inComment (n.finds i) := by
  have hkinds : n.isString = false ∧ n.isInterpolation = false := by
    simpa only [isLayer, Bool.or_eq_false_iff] using hlayer
  have hregions := regions_of_code hcomment hkinds.1
  obtain ⟨htextString, htextComment, hhole⟩ := finds_inText_iff hkinds.2 hnamed i
  have hsame : n.finds i = n.findsBelow i := by
    funext k
    apply propext
    cases k with
    | string => exact finds_string_of_regions_eq hregions i
    | comment => exact finds_comment_of_regions_eq hregions i
    | stringInText => exact htextString
    | commentInText => exact htextComment
    | hole => exact hhole
  rw [ownLayer_of_not_isLayer hlayer, Option.or_none, hsame]
  exact h

theorem of_below
    (hn : n.wellNested source = true) (hcomment : n.kind ≠ "comment")
    (hnamed : n.children ≠ [] → n.named = true) (hi : n.takes i = true)
    (hlayer : ∀ m ∈ layer, m.isLayer = true) (h : Settles layer inComment (n.findsBelow i)) :
    Settles (layer.or (n.ownLayer i)) inComment (n.finds i) := by
  by_cases hstring : n.isString = true
  · exact of_isString hn hstring hnamed hi hlayer h
  by_cases hinter : n.isInterpolation = true
  · exact of_isInterpolation hinter hi h
  · have hnone : n.isLayer = false := by simp [isLayer, hstring, hinter]
    exact of_not_isLayer hnone hcomment hnamed h

/-- A comment takes part in no string. -/
theorem of_comment
    (hcomment : n.kind = "comment") (hchildren : n.children = []) (hi : n.takes i = true) :
    Settles none True (n.finds i) := by
  have hinter : n.isInterpolation = false := by simp [isInterpolation, hcomment]
  have hregions := regions_of_comment hcomment
  obtain ⟨htextString, htextComment, hhole⟩ :=
    finds_inText_iff hinter (fun h => absurd hchildren h) i
  have hnone (k : Finding) : ¬n.findsBelow i k := by simp [findsBelow, hchildren]
  rw [takes_iff] at hi
  constructor
  · simp [finds, hregions, Region.coversString, Region.string?]
  · simp [finds, hregions, Region.coversComment, Region.comment?, Span.covers_between_iff, hi]
  · simp [htextString, hhole, hnone]
  · simp [htextComment, hhole, hnone]
  · simp
  · simp [hhole, hnone]

end Settles

/-! ## Trees of a grammar -/

/-- Comments have nothing below them, and only named nodes have children. -/
structure IsRegular (root : Node) : Prop where
  comment_childless : ∀ a n, root.at? a = some n → n.kind = "comment" → n.children = []
  named_of_children : ∀ a n, root.at? a = some n → n.children ≠ [] → n.named = true

theorem IsRegular.child {n c : Node} (hn : n.IsRegular) (hc : c ∈ n.children) : c.IsRegular := by
  obtain ⟨j, hj⟩ := List.getElem?_of_mem hc
  have hplace (a : List Nat) (m : Node) (ha : c.at? a = some m) : n.at? (j :: a) = some m :=
    at?_cons_eq_some_iff.2 ⟨c, hj, ha⟩
  exact ⟨fun a m ha => hn.comment_childless (j :: a) m (hplace a m ha),
    fun a m ha => hn.named_of_children (j :: a) m (hplace a m ha)⟩

theorem isRegular_iff {root : Node} :
    root.IsRegular ↔ ∀ a ∈ root.places, ((root.at? a).all fun n =>
      (n.kind != "comment" || n.children.isEmpty) && (n.children.isEmpty || n.named)) = true := by
  have hplain (n : Node) : ((n.kind != "comment" || n.children.isEmpty) &&
      (n.children.isEmpty || n.named)) = true ↔
        (n.kind = "comment" → n.children = []) ∧ (n.children ≠ [] → n.named = true) := by
    simp [imp_iff_not_or]
  constructor
  · intro h a ha
    obtain ⟨n, hn⟩ := mem_places_iff.1 ha
    rw [hn, Option.all_some, hplain]
    exact ⟨h.comment_childless a n hn, h.named_of_children a n hn⟩
  · intro h
    have hall (a : List Nat) (n : Node) (hn : root.at? a = some n) :
        (n.kind = "comment" → n.children = []) ∧ (n.children ≠ [] → n.named = true) := by
      have hn' := h a (mem_places_iff.2 ⟨n, hn⟩)
      rwa [hn, Option.all_some, hplain] at hn'
    exact ⟨fun a n hn => (hall a n hn).1, fun a n hn => (hall a n hn).2⟩

instance (root : Node) : Decidable root.IsRegular :=
  decidable_of_iff _ isRegular_iff.symm

theorem takes_of_child
    {source : List Char} {n c : Node} (hn : n.wellNested source = true) (hc : c ∈ n.children)
    {i : Nat} (hi : c.takes i = true) :
    n.takes i = true := by
  obtain ⟨j, hj⟩ := List.getElem?_of_mem hc
  exact takes_of_at? hn (at?_cons_eq_some_iff.2 ⟨c, hj, at?_nil c⟩) hi

/-- Whatever is found at a byte is found because of a node that takes it. -/
theorem takes_of_finds
    {source : List Char} {n : Node} (hn : n.wellNested source = true) (hregular : n.IsRegular)
    {i : Nat} {k : Finding} (h : n.finds i k) :
    n.takes i = true := by
  induction n using induct generalizing k with
  | step n ih =>
      have hbelow {k : Finding} (hk : n.findsBelow i k) : n.takes i = true := by
        obtain ⟨c, hc, hk⟩ := hk
        have hcwell := (wellNested_iff.1 hn).children_wellNested c hc
        exact takes_of_child hn hc (ih c hc hcwell (hregular.child hc) hk)
      have hcode (hstring : n.isString = false) (hk : n.finds i .string ∨ n.finds i .comment) :
          n.takes i = true := by
        by_cases hcomment : n.kind = "comment"
        · have hregions := regions_of_comment hcomment
          rcases hk with hk | hk
          · simp [finds, hregions, Region.coversString, Region.string?] at hk
          · simpa [finds, hregions, Region.coversComment, Region.comment?,
              Span.covers_between_iff, ← takes_iff] using hk
        · have hregions := regions_of_code hcomment hstring
          rcases hk with hk | hk
          · exact hbelow ((finds_string_of_regions_eq hregions i).1 hk)
          · exact hbelow ((finds_comment_of_regions_eq hregions i).1 hk)
      by_cases hinter : n.isInterpolation = true
      · have hstring := isString_of_isInterpolation hinter
        have htext := finds_inText_of_isInterpolation hinter i
        cases k with
        | string => exact hcode hstring (Or.inl h)
        | comment => exact hcode hstring (Or.inr h)
        | stringInText => exact hcode hstring (Or.inl (htext.1.1 h))
        | commentInText => exact hcode hstring (Or.inr (htext.2.1 h))
        | hole => exact (finds_hole_of_isInterpolation hinter).1 h
      · rw [Bool.not_eq_true] at hinter
        obtain ⟨htextString, htextComment, hhole⟩ :=
          finds_inText_iff hinter (hregular.named_of_children [] n rfl) i
        cases k with
        | string =>
            by_cases hstring : n.isString = true
            · rcases (finds_string_of_isString hn hstring).1 h with hi | hk
              · exact hi.1
              · exact hbelow hk
            · rw [Bool.not_eq_true] at hstring
              exact hcode hstring (Or.inl h)
        | comment =>
            by_cases hstring : n.isString = true
            · exact hbelow ((finds_comment_of_isString hstring).1 h)
            · rw [Bool.not_eq_true] at hstring
              exact hcode hstring (Or.inr h)
        | stringInText => exact hbelow (htextString.1 h)
        | commentInText => exact hbelow (htextComment.1 h)
        | hole => exact hbelow (hhole.1 h)

theorem takes_of_inComment
    {source : List Char} {n : Node} (hn : n.wellNested source = true) {i : Nat}
    (h : n.InComment i) :
    n.takes i = true := by
  obtain ⟨a, c, ha, -, hi⟩ := h
  exact takes_of_at? hn ha hi

theorem LayerAt.isLayer
    {i : Nat} {n : Node} {layer : Option Node} (h : n.LayerAt i layer) :
    ∀ m ∈ layer, m.isLayer = true := by
  rintro m rfl
  obtain ⟨d, hd⟩ := h
  have hholds := hd.holds
  simp only [layerOver, Bool.and_eq_true] at hholds
  exact hholds.1

theorem IsWellNested.eq_of_takes
    {source : List Char} {n c d : Node} (hn : n.IsWellNested source) (hc : c ∈ n.children)
    (hd : d ∈ n.children) {i : Nat} (hci : c.takes i = true) (hdi : d.takes i = true) :
    d = c := by
  obtain ⟨j, hj⟩ := List.getElem?_of_mem hd
  obtain ⟨k, hk⟩ := List.getElem?_of_mem hc
  obtain rfl := hn.child_unique hj hk hdi hci
  exact Option.some.inj (hj.symm.trans hk)

/-- What is found below a node is found because of the child that takes the
byte. -/
theorem findsBelow_eq
    {source : List Char} {n c : Node} (hn : n.IsWellNested source) (hregular : n.IsRegular)
    (hc : c ∈ n.children) {i : Nat} (hci : c.takes i = true) :
    n.findsBelow i = c.finds i := by
  funext k
  apply propext
  constructor
  · rintro ⟨d, hd, hk⟩
    have hdi := takes_of_finds (hn.children_wellNested d hd) (hregular.child hd) hk
    obtain rfl := hn.eq_of_takes hc hd hci hdi
    exact hk
  · intro hk
    exact ⟨c, hc, hk⟩

theorem exists_inComment_iff
    {source : List Char} {n c : Node} (hn : n.IsWellNested source) (hc : c ∈ n.children)
    {i : Nat} (hci : c.takes i = true) :
    (∃ d ∈ n.children, d.InComment i) ↔ c.InComment i := by
  constructor
  · rintro ⟨d, hd, hdin⟩
    obtain rfl := hn.eq_of_takes hc hd hci
      (takes_of_inComment (hn.children_wellNested d hd) hdin)
    exact hdin
  · intro h
    exact ⟨c, hc, h⟩

/-- At a byte of a node, the deepest layer settles what is found. -/
theorem exists_settles_of_takes
    {source : List Char} {n : Node} (hn : n.wellNested source = true) (hregular : n.IsRegular)
    {i : Nat} (hi : n.takes i = true) :
    ∃ layer, n.LayerAt i layer ∧ Settles layer (n.InComment i) (n.finds i) := by
  induction n using induct with
  | step n ih =>
      have hwell := wellNested_iff.1 hn
      have hnamed := hregular.named_of_children [] n rfl
      by_cases hcomment : n.kind = "comment"
      · have hchildren := hregular.comment_childless [] n rfl hcomment
        have hnone : n.isLayer = false := by
          simp [isLayer, isString, isInterpolation, hcomment, stringKinds]
        have hlayer := layerAt_of_no_child hn (i := i) (by simp [hchildren])
        rw [ownLayer_of_not_isLayer hnone] at hlayer
        have hin : n.InComment i ↔ True := iff_true_intro ⟨[], n, rfl, hcomment, hi⟩
        exact ⟨none, hlayer, propext hin ▸ .of_comment hcomment hchildren hi⟩
      have hin : n.InComment i ↔ ∃ c ∈ n.children, c.InComment i := by
        rw [inComment_iff, or_iff_right (fun h => hcomment h.1)]
      by_cases hchild : ∃ c ∈ n.children, c.takes i = true
      · obtain ⟨c, hc, hci⟩ := hchild
        obtain ⟨layer, hlayer, hsettles⟩ :=
          ih c hc (hwell.children_wellNested c hc) (hregular.child hc) hci
        rw [exists_inComment_iff hwell hc hci] at hin
        rw [← findsBelow_eq hwell hregular hc hci, ← propext hin] at hsettles
        exact ⟨_, layerAt_of_child hn hc hci hlayer,
          .of_below hn hcomment hnamed hi hlayer.isLayer hsettles⟩
      · have hnochild : ∀ c ∈ n.children, c.takes i = false := by
          intro c hc
          by_contra hci
          exact hchild ⟨c, hc, eq_true_of_ne_false hci⟩
        have hfalse : ¬n.InComment i := by
          rw [hin]
          rintro ⟨c, hc, hcin⟩
          exact hchild ⟨c, hc, takes_of_inComment (hwell.children_wellNested c hc) hcin⟩
        have hsilent : Settles none False (n.findsBelow i) := by
          apply settles_none_iff.2
          rintro k ⟨c, hc, hk⟩
          exact hchild ⟨c, hc,
            takes_of_finds (hwell.children_wellNested c hc) (hregular.child hc) hk⟩
        rw [← propext (iff_false_intro hfalse)] at hsilent
        refine ⟨_, layerAt_of_no_child hn hnochild, ?_⟩
        exact .of_below hn hcomment hnamed hi (fun m hm => absurd hm (by simp)) hsilent

theorem exists_settles
    {source : List Char} {n : Node} (hn : n.wellNested source = true) (hregular : n.IsRegular)
    (i : Nat) :
    ∃ layer, n.LayerAt i layer ∧ Settles layer (n.InComment i) (n.finds i) := by
  by_cases hi : n.takes i = true
  · exact exists_settles_of_takes hn hregular hi
  · refine ⟨none, ?_, ?_⟩
    · intro a m ha
      by_contra hm
      rw [Bool.not_eq_false] at hm
      exact hi (takes_of_at? hn ha (takes_of_layerOver hm))
    · have hin : ¬n.InComment i := fun h => hi (takes_of_inComment hn h)
      rw [propext (iff_false_intro hin)]
      apply settles_none_iff.2
      intro k hk
      exact hi (takes_of_finds hn hregular hk)

/-! ## The regions of a tree -/

theorem covers_strings_iff_finds {root : Node} {i : Nat} :
    root.strings.covers i = true ↔ root.finds i .string := by
  rw [strings, SpanSet.covers_ofList_iff]
  simp only [finds, Region.coversString, Option.any_eq_true, List.mem_filterMap]
  constructor
  · rintro ⟨s, ⟨r, hr, hs⟩, hi⟩
    exact ⟨r, hr, s, hs, hi⟩
  · rintro ⟨r, hr, s, hs, hi⟩
    exact ⟨s, ⟨r, hr, hs⟩, hi⟩

theorem covers_comments_iff_finds {root : Node} {i : Nat} :
    root.comments.covers i = true ↔ root.finds i .comment := by
  rw [comments, SpanSet.covers_ofList_iff]
  simp only [finds, Region.coversComment, Option.any_eq_true, List.mem_filterMap]
  constructor
  · rintro ⟨s, ⟨r, hr, hs⟩, hi⟩
    exact ⟨r, hr, s, hs, hi⟩
  · rintro ⟨r, hr, s, hs, hi⟩
    exact ⟨s, ⟨r, hr, hs⟩, hi⟩

theorem LayerAt.any_iff
    {source : List Char} {root : Node} (hroot : root.wellNested source = true) {i : Nat}
    {layer : Option Node} (h : root.LayerAt i layer) (p : Node → Bool) :
    layer.any p = true ↔ ∃ d m, IsDeepest (layerOver i) root d m ∧ p m = true := by
  cases layer with
  | none =>
      constructor
      · intro hp
        simp at hp
      · rintro ⟨d, m, hd, -⟩
        exact absurd hd.holds (by simp [h d m hd.at_eq])
  | some m =>
      obtain ⟨d, hd⟩ := h
      constructor
      · intro hp
        exact ⟨d, m, hd, hp⟩
      · rintro ⟨d', m', hd', hp⟩
        obtain ⟨-, rfl⟩ := hd.unique hroot hd'
        exact hp

/-- The layer nearest to a comment is the deepest one over its bytes. -/
theorem isDeepest_iff_isNearest
    {source : List Char} {root c m : Node} (hroot : root.wellNested source = true)
    {a d : List Nat} (ha : root.at? a = some c) (hchildren : c.children = []) {i : Nat}
    (hi : c.takes i = true) :
    IsDeepest (layerOver i) root d m ↔ IsNearest isLayer root a d ∧ root.at? d = some m := by
  -- Nothing is below the comment, so all nodes over the byte are on the way to it.
  have habove (e : List Nat) (n : Node) (he : root.at? e = some n) (hn : n.takes i = true) :
      e <+: a := by
    rcases above_or_above_of_takes hroot he ha hn hi with h | ⟨b, rfl⟩
    · exact h
    · rw [at?_append, ha, Option.bind_some] at he
      cases b with
      | nil => simp
      | cons j b =>
          obtain ⟨d, hd, -⟩ := at?_cons_eq_some_iff.1 he
          simp [hchildren] at hd
  have hover (e : List Nat) (n : Node) (he : e <+: a) (hn : root.at? e = some n) :
      n.takes i = true := by
    have hinside := inside_of_above hroot hn ha he
    rw [takes_iff] at hi ⊢
    omega
  constructor
  · intro h
    have hholds := h.holds
    simp only [layerOver, Bool.and_eq_true] at hholds
    refine ⟨⟨habove d m h.at_eq hholds.2, ⟨m, h.at_eq, hholds.1⟩, ?_⟩, h.at_eq⟩
    intro e n he hn hlayer
    have htakes := hover e n he hn
    have hlength := h.deepest e n hn (by simp [layerOver, hlayer, htakes])
    exact List.prefix_of_prefix_length_le he (habove d m h.at_eq hholds.2) hlength
  · rintro ⟨h, hm⟩
    obtain ⟨m', hm', hlayer⟩ := h.holds
    obtain rfl := Option.some.inj (hm.symm.trans hm')
    refine ⟨hm, by simp [layerOver, hlayer, hover d m h.above hm], ?_⟩
    intro e n hn hover
    simp only [layerOver, Bool.and_eq_true] at hover
    exact (h.last e n (habove e n hn hover.2) hn hover.1).length_le

/-- A byte is in a string just when the deepest of the strings and
interpolations around it is a string.  It is in a comment just when a comment
takes it and the string or interpolation nearest to the comment, if there is
one, is an interpolation.  No byte is in both.  Of the source only its length
matters, since the tree has to lie in it. -/
theorem covers_strings_comments_iff
    {source : List Char} {root : Node} (hroot : root.wellNested source = true)
    (hregular : root.IsRegular) (i : Nat) :
    (root.strings.covers i = true ↔
        ∃ d m, IsDeepest (layerOver i) root d m ∧ m.isString = true) ∧
      (root.comments.covers i = true ↔
        ∃ a c, root.at? a = some c ∧ c.kind = "comment" ∧ c.takes i = true ∧
          ∀ d m, IsNearest isLayer root a d → root.at? d = some m → m.isInterpolation = true) ∧
      ¬(root.strings.covers i = true ∧ root.comments.covers i = true) := by
  obtain ⟨layer, hlayer, hsettles⟩ := exists_settles hroot hregular i
  rw [covers_strings_iff_finds, covers_comments_iff_finds]
  refine ⟨?_, ?_, ?_⟩
  · rw [hsettles.string_iff, hlayer.any_iff hroot]
  · rw [hsettles.comment_iff]
    constructor
    · rintro ⟨⟨a, c, ha, hkind, hi⟩, hnone⟩
      refine ⟨a, c, ha, hkind, hi, fun d m hd hm => ?_⟩
      have hchildren := hregular.comment_childless a c ha hkind
      have hdeepest := (isDeepest_iff_isNearest hroot ha hchildren hi).2 ⟨hd, hm⟩
      by_contra hinter
      have hstring : m.isString = true := by
        have hholds := hdeepest.holds
        simp only [layerOver, isLayer, Bool.and_eq_true, Bool.or_eq_true] at hholds
        exact hholds.1.resolve_right hinter
      have hany := (hlayer.any_iff hroot isString).2 ⟨d, m, hdeepest, hstring⟩
      exact absurd hany (by simp [hnone])
    · rintro ⟨a, c, ha, hkind, hi, hnearest⟩
      refine ⟨⟨a, c, ha, hkind, hi⟩, ?_⟩
      by_contra hany
      rw [Bool.not_eq_false] at hany
      obtain ⟨d, m, hdeepest, hstring⟩ := (hlayer.any_iff hroot isString).1 hany
      have hchildren := hregular.comment_childless a c ha hkind
      obtain ⟨hd, hm⟩ := (isDeepest_iff_isNearest hroot ha hchildren hi).1 hdeepest
      have hinter := hnearest d m hd hm
      exact absurd hinter (by simp [isInterpolation_of_isString hstring])
  · rw [hsettles.string_iff, hsettles.comment_iff]
    rintro ⟨hstring, -, hnone⟩
    exact absurd hstring (by simp [hnone])

/-- A comment in the inner one of two strings. -/
def commentInStrings : Node :=
  ⟨"program", 0, 19, true, none, [⟨"string", 0, 19, true, none,
    [⟨"\"", 0, 1, false, none, []⟩,
      ⟨"string_content", 1, 2, true, none, []⟩,
      ⟨"interpolation", 2, 17, true, none,
        [⟨"#\x7b", 2, 4, false, none, []⟩,
          ⟨"string", 4, 16, true, none,
            [⟨"\"", 4, 5, false, none, []⟩,
              ⟨"string_content", 5, 6, true, none, []⟩,
              ⟨"interpolation", 6, 15, true, none,
                [⟨"#\x7b", 6, 8, false, none, []⟩,
                  ⟨"identifier", 8, 9, true, none, []⟩,
                  ⟨"comment", 10, 13, true, none, []⟩,
                  ⟨"\x7d", 14, 15, false, none, []⟩]⟩,
              ⟨"\"", 15, 16, false, none, []⟩]⟩,
          ⟨"\x7d", 16, 17, false, none, []⟩]⟩,
      ⟨"string_content", 17, 18, true, none, []⟩,
      ⟨"\"", 18, 19, false, none, []⟩]⟩]⟩

/-- The text of the inner string, the comment in it, and the end of the outer
string. -/
theorem covers_strings_commentInStrings :
    commentInStrings.wellNested "\"a#\x7b\"b#\x7bc # d\n\x7d\"\x7de\"".toList = true ∧
      commentInStrings.IsRegular ∧ commentInStrings.strings.covers 5 = true ∧
        commentInStrings.comments.covers 11 = true ∧
          commentInStrings.strings.covers 11 = false ∧
            commentInStrings.strings.covers 17 = true := by
  have hroot : commentInStrings.wellNested
      "\"a#\x7b\"b#\x7bc # d\n\x7d\"\x7de\"".toList = true := by decide
  have hregular : commentInStrings.IsRegular := by decide
  have hcomment : commentInStrings.comments.covers 11 = true := by
    apply (covers_strings_comments_iff hroot hregular 11).2.1.2
    refine ⟨[0, 2, 1, 2, 2], _, rfl, rfl, rfl, ?_⟩
    intro d m hd hm
    have hnearest : IsNearest isLayer commentInStrings [0, 2, 1, 2, 2] [0, 2, 1, 2] := by decide
    obtain rfl := hd.unique hnearest
    obtain rfl := Option.some.inj hm
    rfl
  refine ⟨hroot, hregular, ?_, hcomment, ?_, ?_⟩
  · exact (covers_strings_comments_iff hroot hregular 5).1.2 (by decide)
  · by_contra h
    rw [Bool.not_eq_false] at h
    exact (covers_strings_comments_iff hroot hregular 11).2.2 ⟨h, hcomment⟩
  · exact (covers_strings_comments_iff hroot hregular 17).1.2 (by decide)

/-- A string around a token that reads like an interpolation. -/
def tokenInString : Node :=
  ⟨"program", 0, 5, true, none, [⟨"string", 0, 5, true, none,
    [⟨"\"", 0, 1, false, none, []⟩,
      ⟨"interpolation", 1, 4, false, none, []⟩,
      ⟨"\"", 4, 5, false, none, []⟩]⟩]⟩

/-- A token cuts no hole, so that going by kinds alone is not enough. -/
theorem covers_strings_tokenInString :
    tokenInString.wellNested "\"abc\"".toList = true ∧ tokenInString.IsRegular ∧
      ¬(tokenInString.strings.covers 2 = true ↔
        ∃ d m, IsDeepest (fun n => (n.isString || n.kind == "interpolation") && n.takes 2)
          tokenInString d m ∧ m.isString = true) := by
  refine ⟨by decide, by decide, ?_⟩
  have hcovers : tokenInString.strings.covers 2 = true := by
    rw [strings, SpanSet.covers_ofList_iff]
    decide
  rw [iff_true_left hcovers]
  decide

end Caret.Node
