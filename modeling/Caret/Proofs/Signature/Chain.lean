import Caret.Proofs.Signature.Nested
import Caret.Proofs.Text.Alphabet
import Caret.Proofs.Text.Cut

/-!
# Chains of calls and what the walk recovers of them

A chain is written forward: a head, and then links that call a member, go into
a namespace, or attach a bracket group.  The walk reads backward.  The main
statement says that it finds the beginning of every chain, and that the
signature is the chain without its blanks and without what stands in brackets.
-/

namespace Caret.Signature

structure Name where
  chars : List Char
  ne_nil : chars ≠ []
  all_word : ∀ c ∈ chars, Word.isWordChar c = true

structure Blanks where
  chars : List Char
  all_blank : ∀ c ∈ chars, Text.isBlank c = true

/-- What may stand in front of the first name of a chain. -/
inductive Sigil where
  | none
  | single
  | double
  | dollar
deriving DecidableEq, Repr

def Sigil.text : Sigil → List Char
  | none => []
  | single => ['@']
  | double => ['@', '@']
  | dollar => ['$']

/-- A link of a chain.  Arguments in round and curly brackets hold no square
brackets. -/
inductive Link where
  | member (before after : Blanks) (name : Name)
  | constant (name : Name)
  | index (inner : List Char) (nested : Nested inner)
  | arguments (k : Bracket) (kind : k ≠ .square) (inner : List Char) (nested : Nested inner)
      (bare : '[' ∉ inner ∧ ']' ∉ inner)

namespace Link

/-- The source text of a link. -/
def text : Link → List Char
  | member before after name => before.chars ++ ('.' :: (after.chars ++ name.chars))
  | constant name => ':' :: ':' :: name.chars
  | index inner _ => '[' :: (inner ++ [']'])
  | arguments k _ inner _ _ => k.opener :: (inner ++ [k.closer])

/-- What a link adds to the signature. -/
def reading : Link → List Char
  | member _ _ name => '.' :: name.chars
  | constant name => ':' :: ':' :: name.chars
  | index _ _ => ['.', '[', ']']
  | arguments .. => []

end Link

/-- A head with its links. -/
structure Chain where
  sigil : Sigil
  head : Name
  links : List Link

namespace Chain

/-- The source text of a chain. -/
def text (chain : Chain) : List Char :=
  chain.sigil.text ++ (chain.head.chars ++ chain.links.flatMap Link.text)

/-- The signature of a chain. -/
def reading (chain : Chain) : List Char :=
  chain.sigil.text ++ (chain.head.chars ++ chain.links.flatMap Link.reading)

end Chain

/-- The marks of which one may stand right in front of a chain. -/
def openingMarks : List Char :=
  [',', ';', '(', '[', '\x7b']

/-- Texts right behind which a chain begins. -/
inductive PrecedesChain : List Char → Prop
  | nil : PrecedesChain []
  | mark {c : Char} (before : List Char) : c ∈ openingMarks → PrecedesChain (before ++ [c])
  | blanks {c : Char} (before : List Char) {blanks : List Char} :
      Text.isBlank c = false → c ≠ '.' → blanks ≠ [] → (∀ d ∈ blanks, Text.isBlank d = true) →
        PrecedesChain (before ++ (c :: blanks))

/-! ## Character classes -/

theorem toNat_lt_of_isWordChar {c : Char} (hc : Word.isWordChar c = true) : c.toNat < 128 := by
  simp only [Word.isWordChar, Bool.or_eq_true, beq_iff_eq] at hc
  rcases hc with hc | rfl
  · have := Text.toNat_of_isAlphanum hc
    omega
  · decide

/-- Members of a chain that are no sigils. -/
def joinsPlainly (c : Char) : Bool :=
  Word.isWordChar c || c == ':' || c == '.'

theorem joinsPlainly_of_isWordChar {c : Char} (hc : Word.isWordChar c = true) :
    joinsPlainly c = true := by
  simp [joinsPlainly, hc]

theorem toNat_lt_of_joinsPlainly {c : Char} (hc : joinsPlainly c = true) : c.toNat < 128 := by
  simp only [joinsPlainly, Bool.or_eq_true, beq_iff_eq] at hc
  rcases hc with (hc | rfl) | rfl
  · exact toNat_lt_of_isWordChar hc
  · decide
  · decide

/-- What the rules for code ask of a character that joins the chain and lets
the walk go on. -/
theorem classes_of_joinsPlainly {c : Char} (hc : joinsPlainly c = true) :
    isMember c = true ∧ isTerminator c = false ∧ Text.isBlank c = false ∧
      c ∉ Bracket.all ∧ c ≠ '%' ∧ c ≠ '@' ∧ c ≠ '$' := by
  have hall : ∀ n : Fin 128, ∀ d, d = Char.ofNat n → joinsPlainly d = true →
      isMember d = true ∧ isTerminator d = false ∧ Text.isBlank d = false ∧
        d ∉ Bracket.all ∧ d ≠ '%' ∧ d ≠ '@' ∧ d ≠ '$' := by
    rintro n _ rfl
    revert n
    decide
  have hascii := toNat_lt_of_joinsPlainly hc
  exact hall ⟨c.toNat, hascii⟩ c (Char.ofNat_toNat c).symm hc

theorem toNat_lt_of_isBlank {c : Char} (hc : Text.isBlank c = true) : c.toNat < 128 := by
  simp only [Text.isBlank, Bool.or_eq_true, beq_iff_eq] at hc
  rcases hc with ((rfl | rfl) | rfl) | rfl <;> decide

theorem bytes_of_ascii {cs : List Char} (hcs : ∀ c ∈ cs, c.toNat < 128) : bytes cs = cs := by
  induction cs with
  | nil => rfl
  | cons c cs ih =>
      rw [bytes_cons_of_ascii (hcs c List.mem_cons_self),
        ih fun d hd => hcs d (List.mem_cons_of_mem c hd)]

@[simp] theorem Name.bytes_chars (name : Name) : bytes name.chars = name.chars :=
  bytes_of_ascii fun c hc => toNat_lt_of_isWordChar (name.all_word c hc)

@[simp] theorem Blanks.bytes_chars (blanks : Blanks) : bytes blanks.chars = blanks.chars :=
  bytes_of_ascii fun c hc => toNat_lt_of_isBlank (blanks.all_blank c hc)

theorem mem_of_mem_bytes {c : Char} {cs : List Char} (hc : c.toNat < 128) (hmem : c ∈ bytes cs) :
    c ∈ cs := by
  induction cs with
  | nil => exact hmem
  | cons d cs ih =>
      rw [bytes_cons, List.mem_append] at hmem
      rcases hmem with hmem | hmem
      · by_cases hd : d.toNat < 128
        · rw [bytes_singleton_of_ascii hd, List.mem_singleton] at hmem
          exact hmem ▸ List.mem_cons_self
        · have := ascii_le_of_mem_bytes_singleton (by omega) hmem
          omega
      · exact List.mem_cons_of_mem d (ih hmem)

/-! ## Look-behinds into a chain -/

theorem followsPercent_of_opensPercentLiteral
    {left : List Cell} (h : opensPercentLiteral left = false) : followsPercent left = false := by
  match left with
  | [] => rfl
  | [_] => exact h
  | c :: d :: _ =>
      simp only [opensPercentLiteral, Bool.or_eq_false_iff] at h
      exact h.1

/-- Behind a text without percent signs no square bracket opens a percent
literal, unless a percent sign stands in front of a single character. -/
theorem opensPercentLiteral_of_not_mem
    {u : List Char} (hu : '%' ∉ u) (hne : u ≠ []) {left : List Cell}
    (hleft : followsPercent left = false) :
    opensPercentLiteral (u.map code ++ left) = false := by
  match u with
  | [c] =>
      have hc : c ≠ '%' := fun h => hu (h ▸ List.mem_cons_self)
      cases left with
      | nil => simpa [opensPercentLiteral, code] using hc
      | cons d left =>
          have hd : d.char ≠ '%' := by simpa [followsPercent] using hleft
          simp [opensPercentLiteral, code, hc, hd]
  | c :: d :: u =>
      have hc : c ≠ '%' := fun h => hu (h ▸ List.mem_cons_self)
      have hd : d ≠ '%' := fun h => hu (h ▸ List.mem_cons_of_mem c List.mem_cons_self)
      simp [opensPercentLiteral, code, hc, hd]

theorem followsPercent_of_not_mem
    {u : List Char} (hu : '%' ∉ u) {left : List Cell} (hleft : followsPercent left = false) :
    followsPercent (u.map code ++ left) = false := by
  cases u with
  | nil => exact hleft
  | cons c u =>
      have hc : c ≠ '%' := fun h => hu (h ▸ List.mem_cons_self)
      simpa [followsPercent, code] using hc

theorem opensPercentLiteral_bracket
    {c : Char} (hc : c ∈ Bracket.all) (left : List Cell) :
    opensPercentLiteral (code c :: left) = false := by
  have hplain : c ≠ '%' ∧ c.isAlpha = false :=
    forall_mem_of_all (p := fun c => c ≠ '%' ∧ c.isAlpha = false) (by decide) c hc
  cases left with
  | nil => simp [opensPercentLiteral, code, hplain]
  | cons d left => simp [opensPercentLiteral, code, hplain]

/-! ## Crossing the parts of a chain -/

/-- The walk crosses a text outside of all brackets, and `t` joins the chain. -/
structure Joins
    (s : State) (left : List Cell) (w : List Char) (right : List Cell) (t : List Char)
    (s' : State) : Prop where
  crosses : Crosses s left w right s'
  outside : s'.nesting = {}
  unblocked : s'.Unblocked (w.map code ++ right)
  members : s'.members = t ++ s.members

theorem Joins.append
    {s s₁ s₂ : State} {left right : List Cell} {v w t u : List Char}
    (hw : Joins s (v.reverse.map code ++ left) w right u s₁)
    (hv : Joins s₁ left v (w.map code ++ right) t s₂) :
    Joins s left (v ++ w) right (t ++ u) s₂ where
  crosses := hw.crosses.append hv.crosses
  outside := hv.outside
  unblocked := by simpa using hv.unblocked
  members := by rw [hv.members, hw.members, List.append_assoc]

/-- A plain member is crossed outside of brackets when nothing blocks the walk,
which a dot never minds. -/
theorem joins_singleton
    {s : State} (hs : s.nesting = {}) {c : Char} (hc : joinsPlainly c = true)
    (right : List Cell) (hgo : c = '.' ∨ s.Unblocked right)
    {left : List Cell} (hleft : followsPercent left = false) :
    ∃ s', Joins s left [c] right [c] s' := by
  obtain ⟨hmember, hterminator, hblank, hbracket, -, hat, hdollar⟩ := classes_of_joinsPlainly hc
  have hnesting : s.nesting.cross c = {} := by
    rw [Nesting.cross_of_not_bracket hbracket, hs]
  have hopen : c ≠ '[' := fun h => hbracket (h ▸ by decide)
  let s' : State := { State.prepend s [c] left with nesting := {}, inBlanks := false }
  have hstep : step (code c) left right s = .next s' := by
    rw [step_eq_crossCode left (Or.inr ⟨hblank, hgo⟩)]
    simp [crossCode, code, hnesting, hopen, Nesting.balanced, hterminator, hmember, hleft,
      hdollar, hat, s', State.prepend]
  refine ⟨s', .of_step hstep, rfl, ?_, rfl⟩
  intro h
  exact Bool.noConfusion h

theorem joins_plainly
    {s : State} (hs : s.nesting = {}) {v : List Char} (hv : ∀ c ∈ v, joinsPlainly c = true)
    {left right : List Cell} (hgo : s.Unblocked right) (hleft : followsPercent left = false) :
    ∃ s', Joins s left v right v s' := by
  induction v generalizing left with
  | nil => exact ⟨s, .nil s left right, hs, hgo, rfl⟩
  | cons c v ih =>
      have hc := hv c List.mem_cons_self
      have hpercent : followsPercent ([c].reverse.map code ++ left) = false := by
        simpa [followsPercent, code] using (classes_of_joinsPlainly hc).2.2.2.2.1
      obtain ⟨s₁, h₁⟩ := ih (fun d hd => hv d (List.mem_cons_of_mem c hd)) hpercent
      obtain ⟨s₂, h₂⟩ := joins_singleton h₁.outside hc _ (Or.inr h₁.unblocked) hleft
      exact ⟨s₂, h₁.append h₂⟩

theorem joins_name
    {s : State} (hs : s.nesting = {}) (name : Name) (left : List Cell)
    {right : List Cell} (hgo : s.Unblocked right) (hleft : followsPercent left = false) :
    ∃ s', Joins s left name.chars right name.chars s' :=
  joins_plainly hs (fun c hc => joinsPlainly_of_isWordChar (name.all_word c hc)) hgo hleft

/-- Blanks outside of brackets are crossed, and only leave behind that they
were there. -/
theorem crosses_blanks
    {s : State} (hs : s.nesting = {}) {v : List Char} (hv : ∀ c ∈ v, Text.isBlank c = true)
    (left right : List Cell) :
    Crosses s left v right { s with inBlanks := s.inBlanks || !v.isEmpty } := by
  induction v generalizing left with
  | nil => simpa using Crosses.nil s left right
  | cons c v ih =>
      have hrest := ih (fun d hd => hv d (List.mem_cons_of_mem c hd)) ([c].reverse.map code ++ left)
      refine Crosses.append (v := [c]) hrest (Crosses.of_step ?_)
      have hblank := hv c List.mem_cons_self
      simp [step, code, hs, Nesting.balanced, hblank]

theorem continuesChain_blanks
    {v : List Char} (hv : ∀ c ∈ v, Text.isBlank c = true) (right : List Cell) :
    continuesChain (v.map code ++ right) = continuesChain right := by
  induction v with
  | nil => rfl
  | cons c v ih =>
      have hblank : Text.isBlank (code c).char = true := hv c List.mem_cons_self
      rw [List.map_cons, List.cons_append, continuesChain_cons, if_pos hblank]
      exact ih fun d hd => hv d (List.mem_cons_of_mem c hd)

theorem leadingBlanks_blanks
    {v : List Char} (hv : ∀ c ∈ v, Text.isBlank c = true) (right : List Cell) :
    leadingBlanks (v.map code ++ right) = v.length + leadingBlanks right := by
  induction v with
  | nil => simp
  | cons c v ih =>
      have hblank : Text.isBlank (code c).char = true := hv c List.mem_cons_self
      have hrest := ih fun d hd => hv d (List.mem_cons_of_mem c hd)
      rw [List.map_cons, List.cons_append, leadingBlanks_cons, if_pos hblank, hrest,
        List.length_cons, Nat.add_right_comm]

theorem Blanks.percent_not_mem_reverse (blanks : Blanks) : '%' ∉ blanks.chars.reverse := by
  intro hmem
  have := blanks.all_blank '%' (List.mem_reverse.1 hmem)
  exact absurd this (by decide)

/-- A dot is crossed with the blanks around it, whatever was crossed before it. -/
theorem joins_dot
    {s : State} (hs : s.nesting = {}) (before after : Blanks) {left : List Cell}
    (hleft : followsPercent left = false) (right : List Cell) :
    ∃ s', Joins s left (before.chars ++ (['.'] ++ after.chars)) right ['.'] s' := by
  have hdot : followsPercent (before.chars.reverse.map code ++ left) = false :=
    followsPercent_of_not_mem before.percent_not_mem_reverse hleft
  have h₁ := crosses_blanks hs after.all_blank
    (['.'].reverse.map code ++ (before.chars.reverse.map code ++ left)) right
  obtain ⟨s₂, h₂⟩ :=
    joins_singleton (s := { s with inBlanks := s.inBlanks || !after.chars.isEmpty })
      hs (by decide : joinsPlainly '.' = true) (after.chars.map code ++ right) (Or.inl rfl) hdot
  have h₃ := crosses_blanks h₂.outside before.all_blank left
    ((['.'] ++ after.chars).map code ++ right)
  refine ⟨_, (h₁.append h₂.crosses).append h₃, h₂.outside, ?_, h₂.members⟩
  intro _
  rw [List.map_append, List.append_assoc, continuesChain_blanks before.all_blank]
  rfl

theorem joins_member
    {s : State} (hs : s.nesting = {}) (before after : Blanks) (name : Name)
    {left right : List Cell} (hgo : s.Unblocked right) (hleft : followsPercent left = false) :
    ∃ s', Joins s left (before.chars ++ (['.'] ++ (after.chars ++ name.chars))) right
      ('.' :: name.chars) s' := by
  obtain ⟨s₁, h₁⟩ :=
    joins_name hs name ((before.chars ++ (['.'] ++ after.chars)).reverse.map code ++ left) hgo
      (by
        rw [List.reverse_append, List.reverse_append, List.append_assoc, List.map_append,
          List.append_assoc]
        exact followsPercent_of_not_mem after.percent_not_mem_reverse rfl)
  obtain ⟨s₂, h₂⟩ := joins_dot h₁.outside before after hleft (name.chars.map code ++ right)
  refine ⟨s₂, ?_⟩
  rw [← List.append_assoc ['.'], ← List.append_assoc before.chars]
  exact h₁.append h₂

/-- A bracket group leaves behind the indexes that it opens. -/
theorem joins_group
    {s : State} (hs : s.nesting = {}) (k : Bracket) {inner : List Char} (hinner : Nested inner)
    {right : List Cell} (hgo : s.Unblocked right) (left : List Cell) :
    ∃ s', Joins s left ([k.opener] ++ (inner ++ [k.closer])) right
      (indexMarks (indexCount 0 left ([k.opener] ++ (inner ++ [k.closer])).reverse)) s' := by
  obtain ⟨s', hcollects, hnesting⟩ :=
    collects_group (crossedInside_of_nested hinner) k (hs ▸ rfl) (Or.inr hgo) left
  refine ⟨s', hcollects.crosses, hnesting.trans hs, ?_, ?_⟩
  · intro h
    rw [hcollects.inBlanks] at h
    exact Bool.noConfusion h
  · rw [hcollects.members, hs]
    rfl

theorem indexCount_index
    {inner : List Char} (hinner : Nested inner) {left : List Cell}
    (hleft : opensPercentLiteral left = false) :
    indexCount 0 left
      ([Bracket.square.opener] ++ (inner ++ [Bracket.square.closer])).reverse = 1 := by
  simp only [Bracket.opener, Bracket.closer, List.reverse_append, List.reverse_singleton, List.append_assoc,
    indexCount_append, List.foldl_cons, List.foldl_nil]
  have hdepth : squareDepth 0 ']' = 0 + 1 := rfl
  rw [hdepth, indexCount_succ_of_nested hinner, foldl_squareDepth_of_nested hinner]
  simp [indexCount, hleft]

theorem indexCount_arguments
    {k : Bracket} (hk : k ≠ .square) {inner : List Char} (hinner : '[' ∉ inner)
    (depth : Nat) (left : List Cell) :
    indexCount depth left ([k.opener] ++ (inner ++ [k.closer])).reverse = 0 := by
  apply indexCount_eq_zero_of_not_mem
  cases k with
  | square => exact absurd rfl hk
  | round => simpa [Bracket.opener, Bracket.closer] using hinner
  | curly => simpa [Bracket.opener, Bracket.closer] using hinner

theorem bytes_group (k : Bracket) (inner : List Char) :
    bytes (k.opener :: (inner ++ [k.closer])) = [k.opener] ++ (bytes inner ++ [k.closer]) := by
  rw [bytes_cons_of_ascii k.toNat_opener_lt, bytes_append,
    bytes_singleton_of_ascii k.toNat_closer_lt]
  rfl

theorem joins_link
    {s : State} (hs : s.nesting = {}) (l : Link) {left right : List Cell}
    (hgo : s.Unblocked right) (hleft : opensPercentLiteral left = false) :
    ∃ s', Joins s left (bytes l.text) right l.reading s' := by
  have hpercent := followsPercent_of_opensPercentLiteral hleft
  cases l with
  | member before after name =>
      have hbytes : bytes (Link.member before after name).text =
          before.chars ++ (['.'] ++ (after.chars ++ name.chars)) := by
        rw [Link.text, bytes_append, bytes_cons_of_ascii (by decide), bytes_append,
          Blanks.bytes_chars, Blanks.bytes_chars, Name.bytes_chars]
        rfl
      rw [hbytes]
      exact joins_member hs before after name hgo hpercent
  | constant name =>
      have hplain : ∀ c ∈ ':' :: ':' :: name.chars, joinsPlainly c = true := by
        simp only [List.mem_cons]
        rintro c (rfl | rfl | hc)
        · rfl
        · rfl
        · exact joinsPlainly_of_isWordChar (name.all_word c hc)
      rw [Link.text, bytes_of_ascii fun c hc => toNat_lt_of_joinsPlainly (hplain c hc)]
      exact joins_plainly hs hplain hgo hpercent
  | index inner nested =>
      obtain ⟨s', h⟩ := joins_group hs .square nested.bytes hgo left
      rw [indexCount_index nested.bytes hleft] at h
      have hbytes := bytes_group .square inner
      exact ⟨s', hbytes ▸ h⟩
  | arguments k kind inner nested bare =>
      obtain ⟨s', h⟩ := joins_group hs k nested.bytes hgo left
      have hbare : '[' ∉ bytes inner := fun h => bare.1 (mem_of_mem_bytes (by decide) h)
      rw [indexCount_arguments kind hbare] at h
      refine ⟨s', ?_⟩
      rw [Link.text, bytes_group]
      exact h

theorem opensPercentLiteral_link
    (l : Link) {left : List Cell} (hleft : followsPercent left = false) :
    opensPercentLiteral ((bytes l.text).reverse.map code ++ left) = false := by
  have hword (name : Name) : '%' ∉ name.chars := by
    intro hmem
    exact absurd (name.all_word '%' hmem) (by decide)
  have hblank (blanks : Blanks) : '%' ∉ blanks.chars := by
    intro hmem
    exact absurd (blanks.all_blank '%' hmem) (by decide)
  have hplain (hmem : '%' ∉ l.text) (hne : l.text ≠ []) (hascii : ∀ c ∈ l.text, c.toNat < 128) :
      opensPercentLiteral ((bytes l.text).reverse.map code ++ left) = false := by
    rw [bytes_of_ascii hascii]
    exact opensPercentLiteral_of_not_mem (by simpa using hmem) (by simpa using hne) hleft
  have hgroup (k : Bracket) (inner : List Char) :
      opensPercentLiteral
        ((bytes (k.opener :: (inner ++ [k.closer]))).reverse.map code ++ left) = false := by
    have hreverse : ([k.opener] ++ (bytes inner ++ [k.closer])).reverse =
        k.closer :: ((bytes inner).reverse ++ [k.opener]) := by
      simp
    rw [bytes_group, hreverse]
    exact opensPercentLiteral_bracket k.closer_mem_all _
  cases l with
  | member before after name =>
      apply hplain
      · simp [Link.text, hword, hblank]
      · simp [Link.text]
      · simp only [Link.text, List.mem_append, List.mem_cons]
        rintro c (hc | rfl | hc | hc)
        · exact toNat_lt_of_isBlank (before.all_blank c hc)
        · decide
        · exact toNat_lt_of_isBlank (after.all_blank c hc)
        · exact toNat_lt_of_isWordChar (name.all_word c hc)
  | constant name =>
      apply hplain
      · simp [Link.text, hword]
      · simp [Link.text]
      · simp only [Link.text, List.mem_cons]
        rintro c (rfl | rfl | hc)
        · decide
        · decide
        · exact toNat_lt_of_isWordChar (name.all_word c hc)
  | index inner _ => exact hgroup .square inner
  | arguments k _ inner _ _ => exact hgroup k inner

theorem joins_links
    {s : State} (hs : s.nesting = {}) (ls : List Link) {left right : List Cell}
    (hgo : s.Unblocked right) (hleft : opensPercentLiteral left = false) :
    ∃ s', Joins s left (bytes (ls.flatMap Link.text)) right (ls.flatMap Link.reading) s' := by
  induction ls generalizing left with
  | nil => exact ⟨s, .nil s left right, hs, hgo, rfl⟩
  | cons l ls ih =>
      have hpercent := followsPercent_of_opensPercentLiteral hleft
      obtain ⟨s₁, h₁⟩ := ih (opensPercentLiteral_link l hpercent)
      obtain ⟨s₂, h₂⟩ := joins_link h₁.outside l h₁.unblocked hleft
      refine ⟨s₂, ?_⟩
      rw [List.flatMap_cons, List.flatMap_cons, bytes_append]
      exact h₁.append h₂

/-! ## Where the walk ends -/

/-- A sigil ends the walk and joins the chain. -/
theorem walk_sigil
    {s : State} (hs : s.nesting = {}) {sigil : Sigil} (hsigil : sigil ≠ .none)
    {left right : List Cell} (hgo : s.Unblocked right)
    (hpercent : followsPercent left = false)
    (hat : sigil = .single → followsAt left = false) :
    (walk s (sigil.text.reverse.map code ++ left) right).start = left.length ∧
      (walk s (sigil.text.reverse.map code ++ left) right).members =
        sigil.text ++ s.members := by
  have hcode {c : Char} (hblank : Text.isBlank c = false) (left' : List Cell) :
      step (code c) left' right s = crossCode (code c) left' s :=
    step_eq_crossCode left' (Or.inr ⟨hblank, Or.inr hgo⟩)
  cases sigil with
  | none => exact absurd rfl hsigil
  | single =>
      have hstep : step (code '@') left right s =
          .done left.length { s.prepend ['@'] left with nesting := {} } := by
        rw [hcode (by decide)]
        simp [crossCode, code, hs, Nesting.cross, Nesting.balanced, isTerminator, isMember,
          hpercent, hat rfl, State.prepend]
      simp [Sigil.text, walk, hstep, State.prepend]
  | double =>
      have hstep : step (code '@') (code '@' :: left) right s =
          .done left.length
            { s.prepend ['@'] (code '@' :: left) with
              nesting := {}
              members := '@' :: '@' :: s.members } := by
        rw [hcode (by decide)]
        simp [crossCode, code, hs, Nesting.cross, Nesting.balanced, isTerminator, isMember,
          followsPercent, followsAt, State.prepend]
      simp [Sigil.text, walk, hstep, State.prepend]
  | dollar =>
      have hstep : step (code '$') left right s =
          .done left.length { s.prepend ['$'] left with nesting := {} } := by
        rw [hcode (by decide)]
        simp [crossCode, code, hs, Nesting.cross, Nesting.balanced, isTerminator, isMember,
          hpercent, State.prepend]
      simp [Sigil.text, walk, hstep, State.prepend]

theorem walk_mark
    {s : State} (hs : s.nesting = {}) (hblanks : s.inBlanks = false)
    {c : Char} (hc : c ∈ openingMarks) (left right : List Cell) :
    (walk s (code c :: left) right).start = left.length + 1 ∧
      (walk s (code c :: left) right).members = s.members := by
  have hblank : Text.isBlank c = false :=
    forall_mem_of_all (p := fun c => Text.isBlank c = false) (by decide) c hc
  have hgo : s.Unblocked right := by
    intro h
    rw [hblanks] at h
    exact Bool.noConfusion h
  rw [walk, step_eq_crossCode left (Or.inr ⟨hblank, Or.inr hgo⟩)]
  simp only [openingMarks, List.mem_cons, List.not_mem_nil, or_false] at hc
  rcases hc with rfl | rfl | rfl | rfl | rfl <;>
    simp [crossCode, code, hs, Nesting.cross, Nesting.balanced, Nesting.unclosed, isTerminator]

theorem exists_last_byte
    {c : Char} (hblank : Text.isBlank c = false) (hdot : c ≠ '.') :
    ∃ u x, bytes [c] = u ++ [x] ∧ Text.isBlank x = false ∧ x ≠ '.' := by
  by_cases hascii : c.toNat < 128
  · exact ⟨[], c, bytes_singleton_of_ascii hascii, hblank, hdot⟩
  · have hne := bytes_singleton_ne_nil c
    have hlast := ascii_le_of_mem_bytes_singleton (by omega) (List.getLast_mem hne)
    refine ⟨_, _, (List.dropLast_append_getLast hne).symm, ?_, ?_⟩
    · by_contra h
      have := toNat_lt_of_isBlank (Bool.of_not_eq_false h)
      omega
    · intro h
      rw [h] at hlast
      exact absurd hlast (by decide)

/-- Blanks end the walk at the text behind them when no dot stands on either
side of them. -/
theorem walk_blanks
    {s : State} (hs : s.nesting = {}) {c : Char} (hblank : Text.isBlank c = false) (hdot : c ≠ '.')
    {blanks : List Char} (hne : blanks ≠ []) (hblanks : ∀ d ∈ blanks, Text.isBlank d = true)
    {right : List Cell} (hright : continuesChain right = false) (hnone : leadingBlanks right = 0)
    (left : List Cell) :
    (walk s (blanks.reverse.map code ++ (code c :: left)) right).start =
        left.length + 1 + blanks.length ∧
      (walk s (blanks.reverse.map code ++ (code c :: left)) right).members = s.members := by
  have hcross := crosses_blanks hs hblanks (code c :: left) right
  have hstep : step (code c) left (blanks.map code ++ right)
      { s with inBlanks := s.inBlanks || !blanks.isEmpty } =
      .done (left.length + 1 + blanks.length)
        { s with inBlanks := s.inBlanks || !blanks.isEmpty } := by
    have hchain := continuesChain_blanks hblanks right
    have hleading := leadingBlanks_blanks hblanks right
    simp [step, code, hs, Nesting.balanced, hblank, hdot, hne, hchain, hleading, hright, hnone]
  rw [hcross, walk, hstep]
  exact ⟨rfl, rfl⟩

/-- At a text behind which a chain begins the walk ends, or goes past its
beginning. -/
theorem walk_precedes
    {pre : List Char} (hpre : PrecedesChain pre)
    {s : State} (hs : s.nesting = {}) {right : List Cell} (hgo : s.Unblocked right)
    (hright : continuesChain right = false) (hnone : leadingBlanks right = 0) :
    (walk s ((bytes pre).reverse.map code) right).start = Text.byteLength pre ∧
      (walk s ((bytes pre).reverse.map code) right).members = s.members := by
  have hblanks : s.inBlanks = false := by
    cases h : s.inBlanks with
    | false => rfl
    | true => rw [← hgo h, hright]
  cases hpre with
  | nil => exact ⟨rfl, rfl⟩
  | @mark c before hc =>
      have hascii : c.toNat < 128 :=
        forall_mem_of_all (p := fun c => c.toNat < 128) (by decide) c hc
      obtain ⟨hstart, hmembers⟩ :=
        walk_mark hs hblanks hc ((bytes before).reverse.map code) right
      have hreverse : (bytes (before ++ [c])).reverse.map code =
          code c :: (bytes before).reverse.map code := by
        simp [bytes_singleton_of_ascii hascii]
      rw [hreverse]
      refine ⟨?_, hmembers⟩
      rw [hstart]
      simp [← length_bytes, bytes_singleton_of_ascii hascii]
  | @blanks c before bs hblank hdot hne hbs =>
      obtain ⟨u, x, hbytes, hx, hxdot⟩ := exists_last_byte hblank hdot
      have hascii : bytes bs = bs := bytes_of_ascii fun d hd => toNat_lt_of_isBlank (hbs d hd)
      obtain ⟨hstart, hmembers⟩ :=
        walk_blanks hs hx hxdot hne hbs hright hnone
          (u.reverse.map code ++ (bytes before).reverse.map code)
      have hreverse : (bytes (before ++ (c :: bs))).reverse.map code =
          bs.reverse.map code ++
            (code x :: (u.reverse.map code ++ (bytes before).reverse.map code)) := by
        rw [bytes_append, bytes_cons, hbytes, hascii]
        simp
      rw [hreverse]
      refine ⟨?_, hmembers⟩
      rw [hstart, ← length_bytes, bytes_append, bytes_cons, hbytes, hascii]
      simp only [List.length_append, List.length_map, List.length_reverse, List.length_cons,
        List.length_nil]
      omega

/-- The byte right in front of a chain is neither a percent sign nor an at
sign. -/
theorem followsPercent_precedes
    {pre : List Char} (hpre : PrecedesChain pre) :
    followsPercent ((bytes pre).reverse.map code) = false ∧
      followsAt ((bytes pre).reverse.map code) = false := by
  have hlast (before : List Char) {c : Char} (hc : c ∈ openingMarks ∨ Text.isBlank c = true) :
      followsPercent ((bytes (before ++ [c])).reverse.map code) = false ∧
        followsAt ((bytes (before ++ [c])).reverse.map code) = false := by
    have hplain : c.toNat < 128 ∧ c ≠ '%' ∧ c ≠ '@' := by
      rcases hc with hc | hc
      · exact forall_mem_of_all (p := fun c => c.toNat < 128 ∧ c ≠ '%' ∧ c ≠ '@') (by decide) c hc
      · refine ⟨toNat_lt_of_isBlank hc, ?_, ?_⟩ <;> rintro rfl <;> exact absurd hc (by decide)
    obtain ⟨hascii, hpercent, hat⟩ := hplain
    simp [bytes_singleton_of_ascii hascii, followsPercent, followsAt, code, hpercent, hat]
  cases hpre with
  | nil => exact ⟨rfl, rfl⟩
  | mark before hc => exact hlast before (Or.inl hc)
  | @blanks c before bs _ _ hne hbs =>
      have hlastBlank := hlast (before ++ (c :: bs.dropLast))
        (Or.inr (hbs _ (List.getLast_mem hne)))
      rwa [List.append_assoc, List.cons_append, List.dropLast_append_getLast hne] at hlastBlank

/-! ## Recovery -/

/-- The walk from the end of a chain finds where the chain begins and reads it. -/
theorem walk_chain
    {pre : List Char} (hpre : PrecedesChain pre) (chain : Chain) (right : List Cell) :
    (walk {} ((bytes (pre ++ chain.text)).reverse.map code) right).start = Text.byteLength pre ∧
      (walk {} ((bytes (pre ++ chain.text)).reverse.map code) right).members = chain.reading := by
  obtain ⟨sigil, head, links⟩ := chain
  obtain ⟨hpercent, hat⟩ := followsPercent_precedes hpre
  have hsigil : bytes sigil.text = sigil.text ∧ '%' ∉ sigil.text.reverse := by
    cases sigil <;> decide
  obtain ⟨hsigilBytes, hsigilPercent⟩ := hsigil
  have hword : '%' ∉ head.chars.reverse := by
    intro hmem
    exact absurd (head.all_word '%' (List.mem_reverse.1 hmem)) (by decide)
  let start := sigil.text.reverse.map code ++ (bytes pre).reverse.map code
  have hstart : followsPercent start = false := followsPercent_of_not_mem hsigilPercent hpercent
  have hhead : opensPercentLiteral (head.chars.reverse.map code ++ start) = false :=
    opensPercentLiteral_of_not_mem hword (by simpa using head.ne_nil) hstart
  have hfresh : ({} : State).Unblocked right := fun h => Bool.noConfusion h
  obtain ⟨s₁, h₁⟩ := joins_links rfl links hfresh hhead
  obtain ⟨s₂, h₂⟩ := joins_name h₁.outside head start h₁.unblocked hstart
  have hcross := h₁.crosses.append h₂.crosses
  have hmembers : s₂.members = head.chars ++ links.flatMap Link.reading := by
    rw [h₂.members, h₁.members]
    simp
  have hreverse : (bytes (pre ++ (Chain.mk sigil head links).text)).reverse.map code =
      (head.chars ++ bytes (links.flatMap Link.text)).reverse.map code ++ start := by
    simp [Chain.text, hsigilBytes, start]
  rw [hreverse, hcross]
  by_cases hbare : sigil = .none
  · subst hbare
    obtain ⟨c, rest, hchars⟩ := List.exists_cons_of_ne_nil head.ne_nil
    have hc := classes_of_joinsPlainly
      (joinsPlainly_of_isWordChar (head.all_word c (hchars ▸ List.mem_cons_self)))
    have hdot : c ≠ '.' := by
      rintro rfl
      exact absurd (head.all_word '.' (hchars ▸ List.mem_cons_self)) (by decide)
    have hends := walk_precedes hpre h₂.outside h₂.unblocked
      (by simp [hchars, continuesChain, code, hc.2.2.1, hdot])
      (by simp [hchars, leadingBlanks, code, hc.2.2.1])
    rw [← List.append_assoc, ← List.map_append, hmembers] at hends
    exact hends
  · have hends := walk_sigil h₂.outside hbare h₂.unblocked hpercent fun _ => hat
    rw [← List.append_assoc, ← List.map_append, hmembers] at hends
    simpa [start, Chain.reading] using hends

end Caret.Signature

namespace Caret

/-- In a buffer of plain code the signature at the end of a chain starts at its
head and reads the chain. -/
theorem Cursor.signature_chain
    {b : Buffer} (hb : b.IsBare) {pre post : List Char} (hpre : Signature.PrecedesChain pre)
    (chain : Signature.Chain) (htext : b.text = pre ++ chain.text ++ post) :
    ∃ c, b.cursor (Text.byteLength (pre ++ chain.text)) = .ok c ∧
      c.signatureStart b = Text.byteLength pre ∧ c.signature b = chain.reading := by
  obtain ⟨hstart, hmembers⟩ :=
    Signature.walk_chain hpre chain ((Signature.bytes post).map Signature.code)
  rw [← Signature.walkFrom_eq hb htext] at hstart hmembers
  refine ⟨⟨pre ++ chain.text, post⟩, Buffer.cursor_of_text_eq htext, ?_, ?_⟩
  · rw [Cursor.signatureStart, Cursor.phrase, Cursor.offset, hstart, Text.dropBytes_append,
      Text.byteLength_append]
    omega
  · rw [Cursor.signature, Cursor.offset, Signature.withReceiver_eq hb, hmembers]

/-- A chain that is split over lines, with a bracket in an index and a block. -/
def Signature.chainOverLines : Signature.Chain where
  sigil := .double
  head := ⟨"list".toList, by decide, forall_mem_of_all (by decide)⟩
  links :=
    [.index _ (.plain (by decide : 'f' ∉ _) (.group .round (.plain (by decide : '%' ∉ _) .nil) .nil)),
      .member ⟨"\n  ".toList, forall_mem_of_all (by decide)⟩ ⟨[], by simp⟩
        ⟨"map".toList, by decide, forall_mem_of_all (by decide)⟩,
      .arguments .curly (by decide) _
        (Nested.nil.append_plain (v := " |v| v ".toList) (forall_mem_of_all (by decide)))
        (by decide)]

theorem Cursor.signature_chainOverLines :
    let b := Sketch.toBuffer { text := "x = @@list[f(%)]\n  .map\x7b |v| v \x7d.".toList }
    b.IsBare ∧ ∃ c, b.cursor 32 = .ok c ∧
      c.signatureStart b = 4 ∧ c.signature b = "@@list.[].map".toList := by
  have hb := Sketch.isBare_toBuffer "x = @@list[f(%)]\n  .map\x7b |v| v \x7d.".toList
  have hpre : Signature.PrecedesChain ("x ".toList ++ ('=' :: [' '])) :=
    .blanks _ (by decide) (by decide) (by decide) (Signature.forall_mem_of_all (by decide))
  have htext : "x = @@list[f(%)]\n  .map\x7b |v| v \x7d.".toList =
      "x ".toList ++ ('=' :: [' ']) ++ Signature.chainOverLines.text ++ ['.'] := by
    decide
  have hlength :
      Text.byteLength ("x ".toList ++ ('=' :: [' ']) ++ Signature.chainOverLines.text) = 32 := by
    decide
  have hreading : Signature.chainOverLines.reading = "@@list.[].map".toList := by
    decide
  obtain ⟨c, hcursor, hstart, hsignature⟩ :=
    Cursor.signature_chain hb hpre Signature.chainOverLines htext
  rw [hlength] at hcursor
  rw [hreading] at hsignature
  exact ⟨hb, c, hcursor, hstart, hsignature⟩

end Caret
