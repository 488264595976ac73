import Caret.Proofs.Signature.Arguments
import Caret.Proofs.Text.Separator
import Mathlib.Data.List.Infix

/-!
# The base of a signature

The base of a signature is what stands before its last separator, a dot or a
double colon.  Dots are looked for first, so that the base of a mixed chain ends
at the last dot even where a double colon stands behind it.  The main statement
says that no other chains are cut too early.
-/

namespace Caret

namespace Signature

/-- What stands between the members of a chain. -/
def separators : List (List Char) :=
  [['.'], [':', ':']]

/-- No separator occurs in a text. -/
def Unseparated (cs : List Char) : Prop :=
  ∀ sep ∈ separators, ¬sep <:+: cs

/-- Behind `front` a text has one more separator and then its last member. -/
def IsFront (front cs : List Char) : Prop :=
  ∃ sep ∈ separators, ∃ member, Unseparated member ∧ cs = front ++ (sep ++ member)

/-- A double colon stands behind the last dot of a text. -/
def ColonsBehindDot (cs : List Char) : Prop :=
  ∃ front member, cs = front ++ '.' :: member ∧ '.' ∉ member ∧ [':', ':'] <:+: member

theorem unseparated_iff {cs : List Char} : Unseparated cs ↔ '.' ∉ cs ∧ ¬[':', ':'] <:+: cs := by
  simp [Unseparated, separators, List.singleton_infix_iff]

/-! ## What is dropped -/

theorem dropThroughDot_append {member : List Char} (hmember : '.' ∉ member) (rest : List Char) :
    dropThroughDot (member ++ '.' :: rest) = rest := by
  induction member with
  | nil => rfl
  | cons c member ih =>
      rw [List.mem_cons, not_or] at hmember
      rw [List.cons_append, dropThroughDot, if_neg (Ne.symm hmember.1), ih hmember.2]

theorem colons_infix_cons_iff
    {c : Char} {cs : List Char} (hcs : ∀ rest, c = ':' → cs = ':' :: rest → False) :
    [':', ':'] <:+: c :: cs ↔ [':', ':'] <:+: cs := by
  rw [List.infix_cons_iff, or_iff_right]
  rintro ⟨rest, hrest⟩
  obtain ⟨rfl, rfl⟩ := List.cons.inj hrest
  exact hcs rest rfl rfl

theorem exists_append_dropThroughColons {cs : List Char} (h : [':', ':'] <:+: cs) :
    ∃ member, cs = member ++ ':' :: ':' :: dropThroughColons cs ∧ ¬[':', ':'] <:+: member := by
  fun_induction dropThroughColons cs with
  | case1 => simp at h
  | case2 cs => exact ⟨[], rfl, by simp⟩
  | case3 c cs hcolons ih =>
      obtain ⟨member, hcs, hmember⟩ := ih ((colons_infix_cons_iff hcolons).1 h)
      refine ⟨c :: member, congrArg (c :: ·) hcs, ?_⟩
      rw [colons_infix_cons_iff]
      · exact hmember
      · rintro rest hc rfl
        exact hcolons _ hc hcs

theorem dropThroughColons_of_not_infix {cs : List Char} (h : ¬[':', ':'] <:+: cs) :
    dropThroughColons cs = [] := by
  fun_induction dropThroughColons cs with
  | case1 => rfl
  | case2 cs => exact absurd (List.infix_append [] [':', ':'] cs) h
  | case3 c cs hcolons ih => exact ih fun hcs => h ((colons_infix_cons_iff hcolons).2 hcs)

/-! ## The three kinds of signature -/

/-- With a dot in it, a signature is cut at the last one. -/
theorem exists_eq_base_append_dot {cs : List Char} (hdot : '.' ∈ cs) :
    ∃ member, cs = base cs ++ '.' :: member ∧ '.' ∉ member := by
  obtain ⟨member, rest, hreverse, hmember⟩ :=
    List.eq_append_cons_of_mem (List.mem_reverse.2 hdot)
  have hbase : base cs = rest.reverse := by
    rw [base, if_pos hdot, hreverse, dropThroughDot_append hmember]
  refine ⟨member.reverse, ?_, by simpa using hmember⟩
  rw [hbase, ← List.reverse_reverse cs, hreverse]
  simp

/-- With no dot but a double colon in it, a signature is cut at the last one. -/
theorem exists_eq_base_append_colons
    {cs : List Char} (hdot : '.' ∉ cs) (hcolons : [':', ':'] <:+: cs) :
    ∃ member, cs = base cs ++ ([':', ':'] ++ member) ∧ Unseparated member := by
  have hreversed : [':', ':'] <:+: cs.reverse := by
    rwa [← List.reverse_infix, List.reverse_reverse]
  obtain ⟨member, hreverse, hmember⟩ := exists_append_dropThroughColons hreversed
  have hcs := congrArg List.reverse hreverse
  rw [List.reverse_reverse] at hcs
  refine ⟨member.reverse, ?_, unseparated_iff.2 ⟨?_, ?_⟩⟩
  · rw [base, if_neg hdot]
    simpa using hcs
  · intro hmem
    apply hdot
    rw [hcs]
    simp [List.mem_reverse.1 hmem]
  · rwa [← List.reverse_infix, List.reverse_reverse]

theorem base_of_unseparated {cs : List Char} (hcs : Unseparated cs) : base cs = [] := by
  obtain ⟨hdot, hcolons⟩ := unseparated_iff.1 hcs
  have hreversed : ¬[':', ':'] <:+: cs.reverse := by
    rwa [← List.reverse_infix, List.reverse_reverse]
  rw [base, if_neg hdot, dropThroughColons_of_not_infix hreversed, List.reverse_nil]

theorem append_dot_inj
    {front front' member member' : List Char} (hmember : '.' ∉ member) (hmember' : '.' ∉ member')
    (h : front ++ '.' :: member = front' ++ '.' :: member') :
    front = front' ∧ member = member' :=
  Text.append_separator_inj hmember hmember' h

/-- The base ends at the last separator but for chains with a double colon
behind their last dot. -/
theorem isFront_base_iff {cs : List Char} (hcs : ¬Unseparated cs) :
    IsFront (base cs) cs ↔ ¬ColonsBehindDot cs := by
  by_cases hdot : '.' ∈ cs
  · obtain ⟨member, hcut, hmember⟩ := exists_eq_base_append_dot hdot
    constructor
    · rintro ⟨sep, hsep, member', hclean, hcut'⟩ ⟨front, last, hlast, hlastDot, hcolons⟩
      obtain ⟨-, rfl⟩ := append_dot_inj hmember hlastDot (hcut.symm.trans hlast)
      have hrest := List.append_cancel_left (hcut.symm.trans hcut')
      simp only [separators, List.mem_cons, List.not_mem_nil, or_false] at hsep
      rcases hsep with rfl | rfl
      · obtain rfl := (List.cons.inj hrest).2
        exact (unseparated_iff.1 hclean).2 hcolons
      · exact absurd (List.cons.inj hrest).1 (by decide)
    · intro hmixed
      refine ⟨['.'], by simp [separators], member, unseparated_iff.2 ⟨hmember, ?_⟩, hcut⟩
      exact fun hcolons => hmixed ⟨_, member, hcut, hmember, hcolons⟩
  · have hcolons : [':', ':'] <:+: cs := by
      rw [unseparated_iff, not_and_not_right] at hcs
      exact hcs hdot
    obtain ⟨member, hcut, hmember⟩ := exists_eq_base_append_colons hdot hcolons
    refine iff_of_true ⟨_, by simp [separators], member, hmember, hcut⟩ ?_
    rintro ⟨front, last, rfl, -, -⟩
    simp at hdot

theorem base_append_dot (cs : List Char) : base (cs ++ ['.']) = cs := by
  rw [base, if_pos (by simp), List.reverse_append, List.reverse_singleton]
  exact List.reverse_reverse cs

/-- A double colon at the end is dropped by itself only where no dot stands
before it. -/
theorem base_append_colons_eq_iff (cs : List Char) : base (cs ++ [':', ':']) = cs ↔ '.' ∉ cs := by
  by_cases hdot : '.' ∈ cs
  · refine iff_of_false (fun hbase => ?_) (not_not_intro hdot)
    obtain ⟨member, hcut, -⟩ := exists_eq_base_append_dot (List.mem_append_left [':', ':'] hdot)
    rw [hbase] at hcut
    exact absurd (List.cons.inj (List.append_cancel_left hcut)).1 (by decide)
  · refine iff_of_true ?_ hdot
    rw [base, if_neg (by simpa using hdot), List.reverse_append]
    exact List.reverse_reverse cs

end Signature

/-- The base of a signature with a separator ends at the last one just when no
double colon stands behind the last dot, and at the last dot otherwise.  The
base of a signature without a separator is empty. -/
theorem Buffer.base_isFront_iff
    {b : Buffer} {offset : Nat} (hoffset : Text.IsBoundary b.text offset) :
    ∃ f, b.fragment offset = .ok f ∧
      (¬Signature.Unseparated f.signature.toList →
        (Signature.IsFront f.base.toList f.signature.toList ↔
          ¬Signature.ColonsBehindDot f.signature.toList)) ∧
      (Signature.ColonsBehindDot f.signature.toList →
        ∃ member, f.signature.toList = f.base.toList ++ '.' :: member ∧ '.' ∉ member) ∧
      (Signature.Unseparated f.signature.toList → f.base.toList = []) ∧
      (∀ front, f.signature.toList = front ++ ['.'] → f.base.toList = front) ∧
      (∀ front, f.signature.toList = front ++ [':', ':'] →
        (f.base.toList = front ↔ '.' ∉ front)) := by
  obtain ⟨before, after, htext, rfl⟩ := hoffset
  refine ⟨_, fragment_of_cursor (cursor_of_text_eq htext), ?_⟩
  simp only [Cursor.fragment, String.toList_ofList]
  generalize Cursor.signature _ b = signature
  refine ⟨Signature.isFront_base_iff, ?_, Signature.base_of_unseparated, ?_, ?_⟩
  · rintro ⟨front, member, rfl, -, -⟩
    exact Signature.exists_eq_base_append_dot (by simp)
  · rintro front rfl
    exact Signature.base_append_dot front
  · rintro front rfl
    exact Signature.base_append_colons_eq_iff front

theorem Sketch.fragment_toBuffer (text : List Char) :
    ∃ f, (toBuffer { text := text }).fragment (Text.byteLength text) = .ok f ∧
      f.signature.toList =
        (Signature.walk {} ((Signature.bytes text).reverse.map Signature.code) []).members ∧
      f.base.toList = Signature.base f.signature.toList := by
  have hcursor := Buffer.cursor_length (toBuffer { text := text })
  have hsignature := Cursor.signature_eq_of_isBare (Sketch.isBare_toBuffer text)
  refine ⟨_, Buffer.fragment_of_cursor hcursor, ?_, ?_⟩
  · exact String.toList_ofList.trans hsignature
  · simp [Cursor.fragment]

theorem Buffer.base_isFront_of_dotBehindColons :
    let b := Sketch.toBuffer { text := "A::b.c".toList }
    Text.IsBoundary b.text 6 ∧ ∃ f, b.fragment 6 = .ok f ∧
      f.signature.toList = "A::b.c".toList ∧ ¬Signature.Unseparated f.signature.toList ∧
      ¬Signature.ColonsBehindDot f.signature.toList ∧
      Signature.IsFront f.base.toList f.signature.toList := by
  have hoffset : Text.IsBoundary (Sketch.toBuffer { text := "A::b.c".toList }).text 6 :=
    Text.splitAt?_isSome_iff _ _ |>.1 (by decide)
  obtain ⟨f, hf, hsignature, -⟩ := Sketch.fragment_toBuffer "A::b.c".toList
  obtain ⟨f', hf', hfront, -⟩ := Buffer.base_isFront_iff hoffset
  obtain rfl := Except.ok.inj (hf.symm.trans hf')
  have hread : f.signature.toList = "A::b.c".toList := by
    rw [hsignature]
    decide
  have hseparated : ¬Signature.Unseparated f.signature.toList := by
    rw [hread, Signature.unseparated_iff]
    decide
  have hmixed : ¬Signature.ColonsBehindDot f.signature.toList := by
    rintro ⟨front, member, hcut, hmember, hcolons⟩
    rw [hread] at hcut
    have hlast : "A::b".toList ++ '.' :: ['c'] = front ++ '.' :: member := hcut
    obtain ⟨-, rfl⟩ := Signature.append_dot_inj (by decide) hmember hlast
    exact absurd hcolons (by decide)
  exact ⟨hoffset, f, hf, hread, hseparated, hmixed, (hfront hseparated).2 hmixed⟩

/-- A double colon behind the last dot is left in what is cut off. -/
theorem Buffer.base_of_colonsBehindDot :
    ∃ f, (Sketch.toBuffer { text := "a.B::c".toList }).fragment 6 = .ok f ∧
      f.signature.toList = "a.B::c".toList ∧ f.base.toList = "a".toList ∧
      ¬Signature.Unseparated f.signature.toList ∧
      ¬Signature.IsFront f.base.toList f.signature.toList := by
  obtain ⟨f, hf, hsignature, hbase⟩ := Sketch.fragment_toBuffer "a.B::c".toList
  have hread : f.signature.toList = "a.B::c".toList := by
    rw [hsignature]
    decide
  have hseparated : ¬Signature.Unseparated f.signature.toList := by
    rw [hread, Signature.unseparated_iff]
    decide
  refine ⟨f, hf, hread, ?_, hseparated, ?_⟩
  · rw [hbase, hread]
    decide
  · rw [hbase, Signature.isFront_base_iff hseparated, not_not, hread]
    exact ⟨"a".toList, "B::c".toList, by decide, by decide, by decide⟩

end Caret
