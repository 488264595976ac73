import Caret.Pin.Merge
import Mathlib.Data.List.Induction
import Mathlib.Data.List.Nodup

/-!
# Observations of one declaration

Each edit brings new pins, and a known pin takes those that observe its own
declaration.  Which ones these are is settled by an identity that the pin never
loses, whatever it takes.  So a known pin ends up where it was observed last and
is otherwise as it was at first, and no declaration has two known pins.
-/

namespace Caret.Pin

/-! ## Identities -/

/-- What tells a declaration from others of its kind, name and path. -/
inductive Traits where
  | container (kind : ContainerKind)
  | method (scope : Scope) (parameters : List String)
  | variable (assignment : Option String)
deriving DecidableEq

/-- All by which a declaration is known again after an edit. -/
structure Identity where
  kind : PinKind
  name : String
  closurePath : String
  traits : Traits
deriving DecidableEq

def traits : Pin → Traits
  | .container p => .container p.kind
  | .method p => .method p.scope p.parameters
  | .localVariable p => .variable p.declaration.assignment
  | .instanceVariable v | .classVariable v | .globalVariable v | .constant v =>
    .variable v.assignment

def identity (p : Pin) : Identity :=
  ⟨p.kind, p.name, p.closurePath, p.traits⟩

def Merges (p q : Pin) : Prop :=
  (p.tryMerge q).2 = true

theorem identity_eq_iff {p q : Pin} :
    p.identity = q.identity ↔
      p.kind = q.kind ∧ p.name = q.name ∧ p.closurePath = q.closurePath ∧ p.traits = q.traits := by
  rw [identity, identity, Identity.mk.injEq]

theorem matches_iff {v w : VariablePin} :
    v.matches w = true ↔
      v.name = w.name ∧ v.closurePath = w.closurePath ∧ v.assignment = w.assignment := by
  simp [VariablePin.matches, and_assoc]

theorem sameDeclaration_iff {p q : Pin} :
    p.sameDeclaration q = true ↔ p.identity = q.identity := by
  rw [identity_eq_iff]
  cases p <;> cases q <;>
    simp [sameDeclaration, matches_iff, kind, name, closurePath, traits, LocalPin.name,
      LocalPin.closurePath, and_assoc]

theorem tryMerge_of_identity_eq {p q : Pin} (h : p.identity = q.identity) :
    p.tryMerge q = (p.movedTo q, true) := by
  rw [tryMerge, if_pos (sameDeclaration_iff.2 h)]

theorem tryMerge_of_identity_ne {p q : Pin} (h : p.identity ≠ q.identity) :
    p.tryMerge q = (p, false) := by
  rw [tryMerge, if_neg fun hsame => h (sameDeclaration_iff.1 hsame)]

/-- An attempt succeeds just between pins of one identity. -/
theorem tryMerge_snd (p q : Pin) : (p.tryMerge q).2 = decide (p.identity = q.identity) := by
  by_cases h : p.identity = q.identity
  · simp [tryMerge_of_identity_eq h, h]
  · simp [tryMerge_of_identity_ne h, h]

theorem merges_iff {p q : Pin} : p.Merges q ↔ p.identity = q.identity := by
  rw [Merges, tryMerge_snd, decide_eq_true_iff]

/-! ## Where a pin stands -/

/-- Where a declaration was observed, and where a local variable can be seen. -/
structure Standing where
  location : Option Range
  presence : Option Range
deriving DecidableEq

def standing (p : Pin) : Standing where
  location := p.location
  presence := p.localPin?.map (·.presence)

/-- A pin put somewhere else and not changed otherwise.  Only local variables can
be seen from somewhere. -/
def putAt (place : Standing) : Pin → Pin
  | .container p => .container { p with location := place.location }
  | .method p => .method { p with location := place.location }
  | .localVariable p =>
    .localVariable
      { p with
        declaration := { p.declaration with location := place.location }
        presence := place.presence.getD p.presence }
  | .instanceVariable v => .instanceVariable { v with location := place.location }
  | .classVariable v => .classVariable { v with location := place.location }
  | .globalVariable v => .globalVariable { v with location := place.location }
  | .constant v => .constant { v with location := place.location }

@[simp] theorem identity_putAt (p : Pin) (place : Standing) :
    (p.putAt place).identity = p.identity := by
  cases p <;> rfl

/-- A pin that stands where it does is the pin itself. -/
@[simp] theorem putAt_standing (p : Pin) : p.putAt p.standing = p := by
  cases p <;> rfl

/-- Two pins of one kind, kind by kind. -/
inductive Alike : Pin → Pin → Prop
  | container (p q : ContainerPin) : Alike (.container p) (.container q)
  | method (p q : MethodPin) : Alike (.method p) (.method q)
  | localVariable (p q : LocalPin) : Alike (.localVariable p) (.localVariable q)
  | instanceVariable (v w : VariablePin) : Alike (.instanceVariable v) (.instanceVariable w)
  | classVariable (v w : VariablePin) : Alike (.classVariable v) (.classVariable w)
  | globalVariable (v w : VariablePin) : Alike (.globalVariable v) (.globalVariable w)
  | constant (v w : VariablePin) : Alike (.constant v) (.constant w)

theorem alike_of_kind_eq {p q : Pin} (h : p.kind = q.kind) : Alike p q := by
  cases p with
  | container p =>
      cases q with
      | container q => exact .container p q
      | _ => nomatch h
  | method p =>
      cases q with
      | method q => exact .method p q
      | _ => nomatch h
  | localVariable p =>
      cases q with
      | localVariable q => exact .localVariable p q
      | _ => nomatch h
  | instanceVariable v =>
      cases q with
      | instanceVariable w => exact .instanceVariable v w
      | _ => nomatch h
  | classVariable v =>
      cases q with
      | classVariable w => exact .classVariable v w
      | _ => nomatch h
  | globalVariable v =>
      cases q with
      | globalVariable w => exact .globalVariable v w
      | _ => nomatch h
  | constant v =>
      cases q with
      | constant w => exact .constant v w
      | _ => nomatch h

theorem alike_of_identity_eq {p q : Pin} (h : p.identity = q.identity) : Alike p q :=
  alike_of_kind_eq (identity_eq_iff.1 h).1

theorem Alike.standing_putAt {p q : Pin} (h : Alike p q) :
    (p.putAt q.standing).standing = q.standing := by
  cases h <;> rfl

/-- Of two places taken in a row the second counts. -/
theorem Alike.putAt_putAt {p r : Pin} (h : Alike p r) (place : Standing) :
    (p.putAt place).putAt r.standing = p.putAt r.standing := by
  cases h <;> rfl

theorem Alike.movedTo_eq {p q : Pin} (h : Alike p q) : p.movedTo q = p.putAt q.standing := by
  cases h <;> rfl

/-- What a merge gives has the identity of both pins and stands where the second
does. -/
theorem merge?_eq_some_iff {p q p' : Pin} :
    p.merge? q = some p' ↔ p.identity = q.identity ∧ p' = p.putAt q.standing := by
  by_cases h : p.identity = q.identity
  · simp [merge?, tryMerge_of_identity_eq h, (alike_of_identity_eq h).movedTo_eq, h, eq_comm]
  · simp [merge?, tryMerge_of_identity_ne h, h]

/-! ## Many observations of one pin -/

def updatedBy (p q : Pin) : Pin :=
  (p.tryMerge q).1

theorem updatedBy_of_identity_ne {p q : Pin} (h : p.identity ≠ q.identity) :
    p.updatedBy q = p := by
  rw [updatedBy, tryMerge_of_identity_ne h]

theorem updatedBy_of_identity_eq {p q : Pin} (h : p.identity = q.identity) :
    p.updatedBy q = p.putAt q.standing := by
  rw [updatedBy, tryMerge_of_identity_eq h, (alike_of_identity_eq h).movedTo_eq]

theorem identity_updatedBy (p q : Pin) : (p.updatedBy q).identity = p.identity := by
  by_cases h : p.identity = q.identity
  · rw [updatedBy_of_identity_eq h, identity_putAt]
  · rw [updatedBy_of_identity_ne h]

/-- The last pin of a sequence that can be merged into this one. -/
def lastMerging? (p : Pin) (qs : List Pin) : Option Pin :=
  (qs.filter fun q => (p.tryMerge q).2).getLast?

theorem identity_of_lastMerging? {p q : Pin} {qs : List Pin} (h : p.lastMerging? qs = some q) :
    p.identity = q.identity := by
  have hq := (List.mem_filter.1 (List.mem_of_getLast? h)).2
  exact merges_iff.1 hq

theorem lastMerging?_append_singleton (p q : Pin) (qs : List Pin) :
    p.lastMerging? (qs ++ [q]) =
      if p.identity = q.identity then some q else p.lastMerging? qs := by
  rw [lastMerging?, List.filter_append, List.filter_singleton, tryMerge_snd]
  by_cases h : p.identity = q.identity <;> simp [h, lastMerging?]

theorem identity_foldl_updatedBy (p : Pin) (qs : List Pin) :
    (qs.foldl updatedBy p).identity = p.identity := by
  induction qs generalizing p with
  | nil => rfl
  | cons q qs ih => rw [List.foldl_cons, ih, identity_updatedBy]

/-- After a sequence of attempts a pin stands where the last pin that it could take
does, and is not changed otherwise. -/
theorem foldl_updatedBy (p : Pin) (qs : List Pin) :
    qs.foldl updatedBy p = ((p.lastMerging? qs).map fun q => p.putAt q.standing).getD p := by
  induction qs using List.reverseRecOn with
  | nil => rfl
  | append_singleton qs q ih =>
      have hidentity := identity_foldl_updatedBy p qs
      rw [List.foldl_append, List.foldl_cons, List.foldl_nil, lastMerging?_append_singleton]
      by_cases h : p.identity = q.identity
      · rw [updatedBy_of_identity_eq (hidentity.trans h), if_pos h, ih]
        cases p.lastMerging? qs with
        | none => rfl
        | some r => exact (alike_of_identity_eq h).putAt_putAt r.standing
      · rw [updatedBy_of_identity_ne (hidentity ▸ h), if_neg h, ih]

/-! ## The known pins -/

/-- An observation leaves the identities of the known pins as they are, and adds its
own if it is none of them. -/
theorem map_identity_observe (index : Nat) (q : Pin) (known : List Pin) :
    (observe index q known).1.map identity =
      if q.identity ∈ known.map identity then known.map identity
      else known.map identity ++ [q.identity] := by
  induction known generalizing index with
  | nil => rfl
  | cons p ps ih =>
      unfold observe
      by_cases h : p.identity = q.identity
      · have hmoved : (p.movedTo q).identity = q.identity := by
          rw [(alike_of_identity_eq h).movedTo_eq, identity_putAt, h]
        simp [tryMerge_of_identity_eq h, hmoved, h]
      · have hne : q.identity ≠ p.identity := Ne.symm h
        simp only [tryMerge_of_identity_ne h, List.map_cons, ih, List.mem_cons, hne, false_or]
        split <;> rfl

/-- Once the known pins have identities of their own, observations keep it so. -/
theorem nodup_identity_observeAll
    {known : List Pin} (hknown : (known.map identity).Nodup) (qs : List Pin) :
    ((observeAll known qs).1.map identity).Nodup := by
  induction qs generalizing known with
  | nil => exact hknown
  | cons q qs ih =>
      apply ih
      rw [map_identity_observe]
      split
      · exact hknown
      · rename_i hq
        exact List.nodup_append'.2 ⟨hknown, List.nodup_singleton _, by simpa using hq⟩

theorem mem_identity_observeAll {known qs : List Pin} {i : Identity} :
    i ∈ (observeAll known qs).1.map identity ↔
      i ∈ known.map identity ∨ i ∈ qs.map identity := by
  induction qs generalizing known with
  | nil => simp [observeAll]
  | cons q qs ih =>
      have hstep : i ∈ (observe 0 q known).1.map identity ↔
          i ∈ known.map identity ∨ i = q.identity := by
        rw [map_identity_observe]
        split
        · rename_i hq
          refine ⟨Or.inl, fun h => h.elim id ?_⟩
          rintro rfl
          exact hq
        · rw [List.mem_append, List.mem_singleton]
      rw [List.map_cons, List.mem_cons, ← or_assoc, ← hstep]
      exact ih

/-- A pin is merged with the pins that have its kind, name, path and traits, and with no
others; an attempt that fails leaves it as it was.  So the pins that merge form classes,
and a merge leaves these as they are.  After any sequence of attempts a pin stands where
the last pin that it could take does, and put back to where it stood it is the pin it was.
Known pins grown from none are from different classes, and every observed pin is in the
class of one of them. -/
theorem tryMerge_keeps_classes :
    (∀ p q : Pin,
      ((p.tryMerge q).2 = false ↔
        p.kind ≠ q.kind ∨ p.name ≠ q.name ∨ p.closurePath ≠ q.closurePath ∨
          p.traits ≠ q.traits) ∧
      ((p.tryMerge q).2 = false → (p.tryMerge q).1 = p)) ∧
    (Equivalence Merges ∧
      ∀ p q p' : Pin, p.merge? q = some p' →
        ∀ r, (p'.Merges r ↔ p.Merges r) ∧ (r.Merges p' ↔ r.Merges p)) ∧
    (∀ (p : Pin) (qs : List Pin),
      (qs.foldl updatedBy p).putAt p.standing = p ∧
      match p.lastMerging? qs with
      | some q =>
        qs.foldl updatedBy p = p.putAt q.standing ∧ (qs.foldl updatedBy p).standing = q.standing
      | none => qs.foldl updatedBy p = p) ∧
    ∀ qs : List Pin,
      ((observeAll [] qs).1.Pairwise fun p q => ¬p.Merges q ∧ ¬q.Merges p) ∧
      ∀ q ∈ qs, ∃ p ∈ (observeAll [] qs).1, p.Merges q := by
  simp only [merges_iff]
  refine ⟨fun p q => ⟨?_, ?_⟩, ⟨?_, ?_⟩, fun p qs => ?_, fun qs => ⟨?_, ?_⟩⟩
  · rw [tryMerge_snd, decide_eq_false_iff_not, identity_eq_iff, not_and_or, not_and_or, not_and_or]
  · intro hfailed
    rw [tryMerge_snd, decide_eq_false_iff_not] at hfailed
    exact updatedBy_of_identity_ne hfailed
  · exact ⟨fun p => merges_iff.2 rfl, fun h => merges_iff.2 (merges_iff.1 h).symm,
      fun h h' => merges_iff.2 ((merges_iff.1 h).trans (merges_iff.1 h'))⟩
  · intro p q p' hmerge r
    obtain ⟨-, rfl⟩ := merge?_eq_some_iff.1 hmerge
    rw [identity_putAt]
    exact ⟨Iff.rfl, Iff.rfl⟩
  · rw [foldl_updatedBy]
    cases hlast : p.lastMerging? qs with
    | none => exact ⟨putAt_standing p, rfl⟩
    | some q =>
        have halike := alike_of_identity_eq (identity_of_lastMerging? hlast)
        refine ⟨?_, rfl, halike.standing_putAt⟩
        exact ((alike_of_kind_eq rfl).putAt_putAt q.standing).trans (putAt_standing p)
  · have hempty : (([] : List Pin).map identity).Nodup := List.nodup_nil
    have hnodup := nodup_identity_observeAll hempty qs
    exact (List.pairwise_map.1 hnodup).imp fun hne => ⟨hne, hne.symm⟩
  · intro q hq
    obtain ⟨p, hp, hpq⟩ := List.mem_map.1 <|
      mem_identity_observeAll.2 (Or.inr (List.mem_map_of_mem hq))
    exact ⟨p, hp, hpq⟩

example :
    let seen (line : Nat) (value : String) (type : TypeExpr) : Pin :=
      .globalVariable ⟨"$x", "", some ⟨⟨line, 0⟩, ⟨line, 2⟩⟩, some value, type⟩
    (observeAll []
      [seen 0 "1" (.ofName "Integer"), seen 1 "nil" .undefined, seen 2 "1" .undefined]).1 =
        [seen 2 "1" (.ofName "Integer"), seen 1 "nil" .undefined] := by
  decide

end Caret.Pin
