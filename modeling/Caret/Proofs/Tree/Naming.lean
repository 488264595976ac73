import Caret.Proofs.Tree.Preorder
import Caret.Proofs.Tree.Visibility
import Mathlib.Data.List.Nodup

/-!
# Nodes that name variables

A declaration names its variables by nodes further down: the parameters of a
method or block, what stands on the left of an assignment, the pattern of a
`for`, the variable of a `rescue`.  This module says which places below a node
these are, and that the outline collects the nodes at these places and no others.
-/

namespace Caret.Node

/-! ## Roles -/

/-- The number of the first child in a field. -/
def fieldIndex? (n : Node) (field : String) : Option Nat :=
  n.children.findIdx? (·.field == some field)

/-- The number of the first child that stands for a rule. -/
def namedIndex? (n : Node) : Option Nat :=
  n.children.findIdx? (·.named)

/-- The place, seen from a list of parameters, of a node that names one of them:
a plain parameter, the name of one with a default, a splat or the like, or a
parameter in a list of its own that is taken apart. -/
inductive ParameterName : Node → List Nat → Prop
  | plain {list c : Node} {i : Nat} :
      list.children[i]? = some c → c.named = true → c.kind = "identifier" →
        ParameterName list [i]
  | fielded {list c : Node} {i j : Nat} :
      list.children[i]? = some c → c.named = true → c.kind ∈ fieldedParameterKinds →
        c.fieldIndex? "name" = some j → ParameterName list [i, j]
  | destructured {list c : Node} {i : Nat} {b : List Nat} :
      list.children[i]? = some c → c.named = true → c.kind = "destructured_parameter" →
        ParameterName c b → ParameterName list (i :: b)

/-- The place, seen from the target of an assignment, of a plain name that is the
target itself or stands in its lists of targets. -/
inductive Target : Node → List Nat → Prop
  | name {n : Node} : n.kind = "identifier" → Target n []
  | listed {n c : Node} {i : Nat} {b : List Nat} :
      n.kind ∈ targetListKinds → n.children[i]? = some c → c.named = true → Target c b →
        Target n (i :: b)

/-- The kinds of assignment. -/
def isAssignment (n : Node) : Bool :=
  n.kind == "assignment" || n.kind == "operator_assignment"

theorem isAssignment_iff {n : Node} :
    n.isAssignment = true ↔ n.kind = "assignment" ∨ n.kind = "operator_assignment" := by
  simp [isAssignment]

/-- The place, seen from a node, of a node that names a local variable which the
node declares. -/
inductive DeclaresLocal : Node → List Nat → Prop
  | parameter {n list : Node} {i : Nat} {b : List Nat} :
      n.ownsParameters = true → n.fieldIndex? "parameters" = some i →
        n.children[i]? = some list → ParameterName list b → DeclaresLocal n (i :: b)
  | assigned {n left : Node} {i : Nat} {b : List Nat} :
      n.isAssignment = true → n.fieldIndex? "left" = some i →
        n.children[i]? = some left → Target left b → DeclaresLocal n (i :: b)
  | loop {n pattern : Node} {i : Nat} {b : List Nat} :
      n.kind = "for" → n.fieldIndex? "pattern" = some i →
        n.children[i]? = some pattern → Target pattern b → DeclaresLocal n (i :: b)
  | rescued {n c : Node} {i : Nat} :
      n.kind = "exception_variable" → n.namedIndex? = some i →
        n.children[i]? = some c → c.kind = "identifier" → DeclaresLocal n [i]

/-- The place, seen from an assignment, of the variable on its left, if that is an
instance, class or global variable or a constant. -/
inductive DeclaresShared : Node → List Nat → Prop
  | assigned {n left : Node} {i : Nat} :
      n.isAssignment = true → n.fieldIndex? "left" = some i →
        n.children[i]? = some left → left.kind ∈ sharedVariableKinds → DeclaresShared n [i]

/-! ## On the way to a name -/

theorem ParameterName.exists_at? {list : Node} {b : List Nat} (h : ParameterName list b) :
    ∃ x, list.at? b = some x := by
  induction h with
  | plain hc => exact ⟨_, at?_cons_eq_some_iff.2 ⟨_, hc, rfl⟩⟩
  | fielded hc hnamed hkind hname =>
      obtain ⟨hj, -⟩ := List.findIdx?_eq_some_iff_getElem.1 hname
      exact ⟨_, at?_cons_eq_some_iff.2 ⟨_, hc,
        at?_cons_eq_some_iff.2 ⟨_, List.getElem?_eq_getElem hj, rfl⟩⟩⟩
  | destructured hc hnamed hkind hrest ih =>
      obtain ⟨x, hx⟩ := ih
      exact ⟨x, at?_cons_eq_some_iff.2 ⟨_, hc, hx⟩⟩

theorem Target.exists_at? {n : Node} {b : List Nat} (h : Target n b) :
    ∃ x, n.at? b = some x := by
  induction h with
  | name => exact ⟨_, rfl⟩
  | listed hkind hc hnamed hrest ih =>
      obtain ⟨x, hx⟩ := ih
      exact ⟨x, at?_cons_eq_some_iff.2 ⟨_, hc, hx⟩⟩

theorem DeclaresLocal.exists_at? {n : Node} {b : List Nat} (h : DeclaresLocal n b) :
    ∃ x, n.at? b = some x := by
  have hbelow {c : Node} {i : Nat} {b : List Nat} (hc : n.children[i]? = some c)
      (hb : ∃ x, c.at? b = some x) : ∃ x, n.at? (i :: b) = some x := by
    obtain ⟨x, hx⟩ := hb
    exact ⟨x, at?_cons_eq_some_iff.2 ⟨c, hc, hx⟩⟩
  cases h with
  | parameter _ _ hc hb => exact hbelow hc hb.exists_at?
  | assigned _ _ hc hb => exact hbelow hc hb.exists_at?
  | loop _ _ hc hb => exact hbelow hc hb.exists_at?
  | rescued _ _ hc _ => exact hbelow hc ⟨_, rfl⟩

theorem DeclaresLocal.ne_nil {n : Node} {b : List Nat} (h : DeclaresLocal n b) : b ≠ [] := by
  cases h <;> exact List.cons_ne_nil _ _

theorem DeclaresShared.exists_at? {n : Node} {b : List Nat} (h : DeclaresShared n b) :
    ∃ x, n.at? b = some x := by
  cases h with
  | assigned _ _ hc _ => exact ⟨_, at?_cons_eq_some_iff.2 ⟨_, hc, rfl⟩⟩

/-- On the way from a list of parameters to the name of one there are only
parameters. -/
theorem ParameterName.kind_between
    {list m : Node} {i : Nat} {a c b : List Nat} (h : ParameterName list a)
    (ha : a = i :: (c ++ b)) (hb : b ≠ []) (hm : list.at? (i :: c) = some m) :
    m.kind ∈ fieldedParameterKinds ∨ m.kind = "destructured_parameter" := by
  induction h generalizing i c with
  | plain =>
      obtain ⟨-, hnil⟩ := List.cons.inj ha
      exact absurd (List.append_eq_nil_iff.1 hnil.symm).2 hb
  | fielded hd _ hkind _ =>
      obtain ⟨rfl, hrest⟩ := List.cons.inj ha
      rcases c with _ | ⟨j, c⟩
      · simp only [at?, hd, Option.bind_some, Option.some.injEq] at hm
        exact Or.inl (hm ▸ hkind)
      · obtain ⟨-, hnil⟩ := List.cons.inj hrest
        exact absurd (List.append_eq_nil_iff.1 hnil.symm).2 hb
  | destructured hd _ hkind _ ih =>
      obtain ⟨rfl, hrest⟩ := List.cons.inj ha
      rcases c with _ | ⟨j, c⟩
      · simp only [at?, hd, Option.bind_some, Option.some.injEq] at hm
        exact Or.inr (hm ▸ hkind)
      · rw [at?, hd, Option.bind_some] at hm
        exact ih hrest hm

/-- On the way from the target of an assignment to a plain name there are only
lists of targets. -/
theorem Target.kind_between
    {n m : Node} {c b : List Nat} (h : Target n (c ++ b)) (hb : b ≠ [])
    (hm : n.at? c = some m) :
    m.kind ∈ targetListKinds := by
  induction c generalizing n with
  | nil =>
      obtain rfl := Option.some.inj hm
      cases h with
      | name => exact absurd rfl hb
      | listed hkind => exact hkind
  | cons i c ih =>
      obtain ⟨d, hd, hm⟩ := at?_cons_eq_some_iff.1 hm
      cases h with
      | listed _ hc _ hrest =>
          obtain rfl := Option.some.inj (hd.symm.trans hc)
          exact ih hrest hm

/-- The kinds of node between a declaration and a name, apart from lists of
parameters. -/
def namingKinds : List String :=
  fieldedParameterKinds ++ "destructured_parameter" :: targetListKinds

/-- On the way from a node to the name of a local variable that it declares there is
the list of its parameters, if it has any, and otherwise nothing that declares or
defines. -/
theorem DeclaresLocal.between
    {n m : Node} {a c b : List Nat} (h : DeclaresLocal n a) (ha : a = c ++ b) (hc : c ≠ [])
    (hb : b ≠ []) (hm : n.at? c = some m) :
    (∃ i, c = [i] ∧ n.ownsParameters = true ∧ n.fieldIndex? "parameters" = some i) ∨
      m.kind ∈ namingKinds := by
  obtain ⟨i, c, rfl⟩ := List.exists_cons_of_ne_nil hc
  obtain ⟨d, hd, hbelow⟩ := at?_cons_eq_some_iff.1 hm
  cases h with
  | parameter howns hi hd' h =>
      obtain ⟨rfl, rfl⟩ := List.cons.inj ha
      obtain rfl := Option.some.inj (hd.symm.trans hd')
      rcases c with _ | ⟨j, c⟩
      · exact Or.inl ⟨_, rfl, howns, hi⟩
      · have hkind := h.kind_between rfl hb hbelow
        simp only [namingKinds, List.mem_append, List.mem_cons]
        tauto
  | assigned _ _ hd' h | loop _ _ hd' h =>
      obtain ⟨rfl, rfl⟩ := List.cons.inj ha
      obtain rfl := Option.some.inj (hd.symm.trans hd')
      have hkind := h.kind_between hb hbelow
      simp only [namingKinds, List.mem_append, List.mem_cons]
      tauto
  | rescued =>
      obtain ⟨-, hnil⟩ := List.cons.inj ha
      exact absurd (List.append_eq_nil_iff.1 hnil.symm).2 hb

/-- What stands between a declaration and a name declares nothing itself. -/
theorem DeclaresLocal.kind_not_mem_namingKinds
    {n : Node} {b : List Nat} (h : DeclaresLocal n b) :
    n.kind ∉ namingKinds := by
  have hall : ∀ kind ∈ ["method", "singleton_method", "block", "do_block", "lambda", "assignment",
      "operator_assignment", "for", "exception_variable"], kind ∉ namingKinds := by decide
  apply hall
  cases h with
  | parameter howns =>
      simp only [ownsParameters, Bool.or_eq_true, Bool.and_eq_true, beq_iff_eq] at howns
      rcases howns with ⟨h | h, -⟩ | (h | h) | h <;> simp [h]
  | assigned hassign =>
      rcases isAssignment_iff.1 hassign with h | h <;> simp [h]
  | loop hkind | rescued hkind => simp [hkind]

/-! ## Deciding roles -/

/-- Whether a place, seen from a list of parameters, names one of them. -/
def isParameterName (list : Node) : List Nat → Bool
  | [] => false
  | i :: b =>
    list.children[i]?.any fun c => c.named &&
      (c.kind == "identifier" && b.isEmpty ||
        fieldedParameterKinds.contains c.kind && (c.fieldIndex? "name").any (fun j => b == [j]) ||
        c.kind == "destructured_parameter" && c.isParameterName b)

/-- Whether a place, seen from the target of an assignment, is a plain name. -/
def isTarget (n : Node) : List Nat → Bool
  | [] => n.kind == "identifier"
  | i :: b =>
    targetListKinds.contains n.kind && n.children[i]?.any fun c => c.named && c.isTarget b

/-- How a declaration names its variables: the number of the child that holds the
names, and which places below that child they are. -/
structure Naming where
  child : Nat
  names : Node → List Nat → Bool

/-- Whether a place, seen from a declaration, is one of its names. -/
def Naming.reaches (r : Naming) (n : Node) : List Nat → Bool
  | [] => false
  | i :: b => r.child == i && n.children[i]?.any fun c => r.names c b

/-- How a node names the local variables it declares. -/
def localNaming? (n : Node) : Option Naming :=
  if n.ownsParameters then (n.fieldIndex? "parameters").map (⟨·, isParameterName⟩)
  else if n.isAssignment then (n.fieldIndex? "left").map (⟨·, isTarget⟩)
  else if n.kind = "for" then (n.fieldIndex? "pattern").map (⟨·, isTarget⟩)
  else if n.kind = "exception_variable" then
    n.namedIndex?.map (⟨·, fun c b => c.kind == "identifier" && b.isEmpty⟩)
  else none

/-- How an assignment names a variable that does not belong to the code it stands
in. -/
def sharedNaming? (n : Node) : Option Naming :=
  if n.isAssignment then
    (n.fieldIndex? "left").map (⟨·, fun c b => sharedVariableKinds.contains c.kind && b.isEmpty⟩)
  else none

/-- Whether a place, seen from a node, names a local variable that the node
declares. -/
def declaresLocal (n : Node) (b : List Nat) : Bool :=
  n.localNaming?.any fun r => r.reaches n b

/-- Whether a place, seen from a node, is a variable that the node assigns and
that does not belong to the code it stands in. -/
def declaresShared (n : Node) (b : List Nat) : Bool :=
  n.sharedNaming?.any fun r => r.reaches n b

theorem isParameterName_iff {list : Node} {b : List Nat} :
    list.isParameterName b = true ↔ ParameterName list b := by
  induction b generalizing list with
  | nil =>
      refine ⟨fun h => absurd h Bool.false_ne_true, fun h => ?_⟩
      cases h
  | cons i b ih =>
      simp only [isParameterName, Option.any_eq_true, Bool.and_eq_true, Bool.or_eq_true,
        beq_iff_eq, List.isEmpty_iff, List.contains_iff_mem, ih]
      constructor
      · rintro ⟨c, hc, hnamed, (⟨hkind, rfl⟩ | ⟨hkind, j, hj, rfl⟩) | ⟨hkind, hb⟩⟩
        · exact .plain hc hnamed hkind
        · exact .fielded hc hnamed hkind hj
        · exact .destructured hc hnamed hkind hb
      · intro h
        cases h with
        | plain hc hnamed hkind => exact ⟨_, hc, hnamed, Or.inl (Or.inl ⟨hkind, rfl⟩)⟩
        | fielded hc hnamed hkind hj => exact ⟨_, hc, hnamed, Or.inl (Or.inr ⟨hkind, _, hj, rfl⟩)⟩
        | destructured hc hnamed hkind hb => exact ⟨_, hc, hnamed, Or.inr ⟨hkind, hb⟩⟩

theorem isTarget_iff {n : Node} {b : List Nat} : n.isTarget b = true ↔ Target n b := by
  induction b generalizing n with
  | nil =>
      rw [isTarget, beq_iff_eq]
      refine ⟨.name, fun h => ?_⟩
      cases h with
      | name hkind => exact hkind
  | cons i b ih =>
      simp only [isTarget, Option.any_eq_true, Bool.and_eq_true, List.contains_iff_mem, ih]
      constructor
      · rintro ⟨hkind, c, hc, hnamed, hb⟩
        exact .listed hkind hc hnamed hb
      · intro h
        cases h with
        | listed hkind hc hnamed hb => exact ⟨hkind, _, hc, hnamed, hb⟩

theorem kind_of_ownsParameters {n : Node} (h : n.ownsParameters = true) :
    n.isAssignment = false ∧ n.kind ≠ "for" ∧ n.kind ≠ "exception_variable" := by
  simp only [ownsParameters, Bool.or_eq_true, Bool.and_eq_true, beq_iff_eq] at h
  rcases h with ⟨h | h, -⟩ | (h | h) | h <;> simp [isAssignment, h]

theorem Naming.reaches_iff {r : Naming} {n : Node} {a : List Nat} :
    r.reaches n a = true ↔
      ∃ c b, a = r.child :: b ∧ n.children[r.child]? = some c ∧ r.names c b = true := by
  rcases a with _ | ⟨i, b⟩
  · simp [reaches]
  simp only [reaches, Bool.and_eq_true, beq_iff_eq, Option.any_eq_true, List.cons.injEq]
  constructor
  · rintro ⟨rfl, c, hc, hb⟩
    exact ⟨c, b, ⟨rfl, rfl⟩, hc, hb⟩
  · rintro ⟨c, b', ⟨rfl, rfl⟩, hc, hb⟩
    exact ⟨rfl, c, hc, hb⟩

/-- Whether one of a choice of children with names below it is there and reaches a
place. -/
theorem any_reaches_iff
    {n : Node} {number? : Option Nat} {names : Node → List Nat → Bool} {a : List Nat} :
    ((number?.map (⟨·, names⟩ : Nat → Naming)).any fun r => r.reaches n a) = true ↔
      ∃ i c b, number? = some i ∧ a = i :: b ∧ n.children[i]? = some c ∧ names c b = true := by
  simp only [Option.any_map, Option.any_eq_true, Naming.reaches_iff]
  constructor
  · rintro ⟨i, hi, c, b, ha, hc, hb⟩
    exact ⟨i, c, b, hi, ha, hc, hb⟩
  · rintro ⟨i, c, b, hi, ha, hc, hb⟩
    exact ⟨i, hi, c, b, ha, hc, hb⟩

theorem declaresLocal_iff {n : Node} {a : List Nat} :
    n.declaresLocal a = true ↔ DeclaresLocal n a := by
  unfold declaresLocal localNaming?
  constructor
  · intro h
    split_ifs at h with howns hassign hfor hrescue
    · obtain ⟨i, c, b, hi, rfl, hc, hb⟩ := any_reaches_iff.1 h
      exact .parameter howns hi hc (isParameterName_iff.1 hb)
    · obtain ⟨i, c, b, hi, rfl, hc, hb⟩ := any_reaches_iff.1 h
      exact .assigned hassign hi hc (isTarget_iff.1 hb)
    · obtain ⟨i, c, b, hi, rfl, hc, hb⟩ := any_reaches_iff.1 h
      exact .loop hfor hi hc (isTarget_iff.1 hb)
    · obtain ⟨i, c, b, hi, rfl, hc, hb⟩ := any_reaches_iff.1 h
      simp only [Bool.and_eq_true, beq_iff_eq, List.isEmpty_iff] at hb
      obtain ⟨hkind, rfl⟩ := hb
      exact .rescued hrescue hi hc hkind
    · exact absurd h Bool.false_ne_true
  · have howns (h : n.isAssignment = true ∨ n.kind = "for" ∨ n.kind = "exception_variable") :
        ¬n.ownsParameters = true := fun howns => by
      obtain ⟨hassign, hfor, hrescue⟩ := kind_of_ownsParameters howns
      simp [hassign, hfor, hrescue] at h
    intro h
    cases h with
    | parameter hn hi hc hb =>
        rw [if_pos hn, any_reaches_iff]
        exact ⟨_, _, _, hi, rfl, hc, isParameterName_iff.2 hb⟩
    | assigned hn hi hc hb =>
        rw [if_neg (howns (Or.inl hn)), if_pos hn, any_reaches_iff]
        exact ⟨_, _, _, hi, rfl, hc, isTarget_iff.2 hb⟩
    | loop hn hi hc hb =>
        rw [if_neg (howns (Or.inr (Or.inl hn))), if_neg (by simp [isAssignment, hn]), if_pos hn,
          any_reaches_iff]
        exact ⟨_, _, _, hi, rfl, hc, isTarget_iff.2 hb⟩
    | rescued hn hi hc hkind =>
        rw [if_neg (howns (Or.inr (Or.inr hn))), if_neg (by simp [isAssignment, hn]),
          if_neg (by simp [hn]), if_pos hn, any_reaches_iff]
        exact ⟨_, _, _, hi, rfl, hc, by simp [hkind]⟩

theorem declaresShared_iff {n : Node} {a : List Nat} :
    n.declaresShared a = true ↔ DeclaresShared n a := by
  unfold declaresShared sharedNaming?
  constructor
  · intro h
    split_ifs at h with hassign
    · obtain ⟨i, c, b, hi, rfl, hc, hb⟩ := any_reaches_iff.1 h
      simp only [Bool.and_eq_true, List.contains_iff_mem, List.isEmpty_iff] at hb
      obtain ⟨hkind, rfl⟩ := hb
      exact .assigned hassign hi hc hkind
    · exact absurd h Bool.false_ne_true
  · rintro ⟨hassign, hi, hc, hkind⟩
    rw [if_pos hassign, any_reaches_iff]
    exact ⟨_, _, _, hi, rfl, hc, by simp [hkind]⟩

/-! ## Nodes at the places with a role -/

theorem childByField_eq (n : Node) (field : String) :
    n.childByField field = (n.fieldIndex? field).bind fun i => n.children[i]? :=
  List.find?_eq_bind_findIdx?_getElem?

theorem head?_namedChildren (n : Node) :
    n.namedChildren.head? = n.namedIndex?.bind fun i => n.children[i]? := by
  rw [namedChildren, List.head?_filter]
  exact List.find?_eq_bind_findIdx?_getElem?

/-- The nodes at the places of a tree that satisfy `p`. -/
def nodesWhere (n : Node) (p : List Nat → Bool) : List Node :=
  n.places.filterMap fun b => if p b then n.at? b else none

theorem nodesWhere_eq (n : Node) (p : List Nat → Bool) :
    n.nodesWhere p =
      (if p [] then [n] else []) ++
        n.children.zipIdx.flatMap fun c => c.1.nodesWhere fun b => p (c.2 :: b) := by
  rw [nodesWhere, filterMap_places]
  congr 1
  · cases p [] <;> rfl
  · refine List.flatMap_congr fun c hc => ?_
    have hchild : n.children[c.2]? = some c.1 := List.mem_zipIdx_iff_getElem?.1 hc
    rw [nodesWhere]
    simp only [at?, hchild, Option.bind_some]

theorem nodesWhere_eq_nil {n : Node} {p : List Nat → Bool} (hp : ∀ b, p b = false) :
    n.nodesWhere p = [] := by
  rw [nodesWhere, List.filterMap_eq_nil_iff]
  intro b _
  rw [if_neg (by simp [hp b])]

theorem nodesWhere_congr {n : Node} {p q : List Nat → Bool} (h : ∀ b, p b = q b) :
    n.nodesWhere p = n.nodesWhere q := by
  rw [funext h]

theorem nodesWhere_isEmpty (n : Node) : n.nodesWhere List.isEmpty = [n] := by
  have hbelow : (n.children.zipIdx.flatMap fun c => c.1.nodesWhere fun b => (c.2 :: b).isEmpty) =
      [] :=
    List.flatMap_eq_nil_iff.2 fun c _ => nodesWhere_eq_nil fun _ => rfl
  rw [nodesWhere_eq, hbelow]
  rfl

/-- If `p` does not hold of the root, the nodes are those below one child after
the other. -/
theorem nodesWhere_eq_flatMap_children
    {n : Node} {p : List Nat → Bool} (hnil : p [] = false) {f : Node → List Node}
    (hf : ∀ i c, n.children[i]? = some c → (c.nodesWhere fun b => p (i :: b)) = f c) :
    n.nodesWhere p = n.children.flatMap f := by
  rw [nodesWhere_eq, hnil]
  calc
    (n.children.zipIdx.flatMap fun c => c.1.nodesWhere fun b => p (c.2 :: b))
    _ = (n.children.zipIdx.map Prod.fst).flatMap f := by
      rw [List.flatMap_map]
      exact List.flatMap_congr fun c hc => hf c.2 c.1 (List.mem_zipIdx_iff_getElem?.1 hc)
    _ = n.children.flatMap f := by rw [List.zipIdx_map_fst]

/-- Of a numbered list, only what is made of the entry with one number counts if
nothing is made of the others. -/
theorem flatMap_zipIdx_of_getElem?
    {α β : Type} {xs : List α} {x : α} {i : Nat} (hx : xs[i]? = some x) {f : α × Nat → List β}
    (hf : ∀ y j, j ≠ i → f (y, j) = []) :
    xs.zipIdx.flatMap f = f (x, i) := by
  obtain ⟨front, back, hxs⟩ := List.append_of_mem
    (show (x, i) ∈ xs.zipIdx from List.mem_zipIdx_iff_getElem?.2 hx)
  have hnodup : (xs.zipIdx.map Prod.snd).Nodup := by
    rw [List.zipIdx_map_snd]
    exact List.nodup_range'
  rw [hxs, List.map_append, List.map_cons, List.nodup_middle, List.nodup_cons, List.mem_append,
    not_or] at hnodup
  have hnone (ys : List (α × Nat)) (hi : i ∉ ys.map Prod.snd) : ys.flatMap f = [] := by
    rw [List.flatMap_eq_nil_iff]
    rintro ⟨y, j⟩ hy
    refine hf y j ?_
    rintro rfl
    exact hi (List.mem_map_of_mem hy)
  rw [hxs, List.flatMap_append, List.flatMap_cons, hnone front hnodup.1.1, hnone back hnodup.1.2,
    List.append_nil, List.nil_append]

theorem nodesWhere_child
    {n c : Node} {i : Nat} (hc : n.children[i]? = some c) {p q : List Nat → Bool}
    (hnil : p [] = false) (hcons : ∀ j b, p (j :: b) = (j == i && q b)) :
    n.nodesWhere p = c.nodesWhere q := by
  rw [nodesWhere_eq, flatMap_zipIdx_of_getElem? hc, hnil]
  · simp [hcons]
  · intro d j hj
    exact nodesWhere_eq_nil fun b => by simp [hcons, hj]

/-! ## What the outline collects -/

theorem toList_childByField (n : Node) (field : String) :
    (n.childByField field).toList =
      n.nodesWhere fun b => (n.fieldIndex? field).any fun j => b == [j] := by
  cases hfield : n.fieldIndex? field with
  | none =>
      rw [childByField_eq, hfield]
      exact (nodesWhere_eq_nil fun _ => rfl).symm
  | some i =>
      have hi : i < n.children.length := (List.findIdx?_eq_some_iff_getElem.1 hfield).1
      have hc : n.children[i]? = some n.children[i] := List.getElem?_eq_getElem hi
      rw [childByField_eq, hfield, Option.bind_some, hc,
        nodesWhere_child hc rfl (q := List.isEmpty), nodesWhere_isEmpty]
      · rfl
      · intro j b
        cases b <;> simp

/-- What a child contributes to the parameters of a list. -/
def parameterNamesOf (c : Node) : List Node :=
  if !c.named then []
  else if c.kind = "identifier" then [c]
  else if c.kind ∈ fieldedParameterKinds then (c.childByField "name").toList
  else if c.kind = "destructured_parameter" then c.parameterNames
  else []

theorem parameterNames_eq_flatMap (list : Node) :
    list.parameterNames = list.children.flatMap parameterNamesOf := by
  have hamong (ns : List Node) : parameterNamesAmong ns = ns.flatMap parameterNamesOf := by
    induction ns with
    | nil => rfl
    | cons n ns ih =>
        rw [parameterNamesAmong, ih, List.flatMap_cons]
        rfl
  obtain ⟨kind, start, stop, named, field, children⟩ := list
  rw [parameterNames, hamong]

/-- A child contributes the nodes at the places in it that name a parameter of the
list, if that is so for the list in the child. -/
theorem nodesWhere_isParameterName_child
    {list c : Node} {i : Nat} (hc : list.children[i]? = some c)
    (ih : c.parameterNames = c.nodesWhere c.isParameterName) :
    (c.nodesWhere fun b => list.isParameterName (i :: b)) = c.parameterNamesOf := by
  simp only [isParameterName, hc, Option.any_some, parameterNamesOf]
  cases hnamed : c.named with
  | false => exact nodesWhere_eq_nil fun b => rfl
  | true =>
      simp only [Bool.true_and, Bool.not_true, Bool.false_eq_true, if_false]
      split_ifs with hidentifier hfielded hdestructured
      · rw [← nodesWhere_isEmpty c]
        exact nodesWhere_congr fun b => by simp [hidentifier, fieldedParameterKinds]
      · rw [toList_childByField]
        have hkind : c.kind ≠ "destructured_parameter" := fun h => by
          simp [h, fieldedParameterKinds] at hfielded
        exact nodesWhere_congr fun b => by
          simp [hfielded, beq_eq_false_iff_ne.2 hidentifier, beq_eq_false_iff_ne.2 hkind]
      · rw [ih]
        exact nodesWhere_congr fun b => by simp [hdestructured, fieldedParameterKinds]
      · exact nodesWhere_eq_nil fun b => by simp [hidentifier, hfielded, hdestructured]

/-- The parameters of a list are the nodes at the places that name one. -/
theorem parameterNames_eq (list : Node) :
    list.parameterNames = list.nodesWhere list.isParameterName := by
  induction list using induct with
  | step list ih =>
      rw [parameterNames_eq_flatMap]
      refine (nodesWhere_eq_flatMap_children rfl fun i c hc => ?_).symm
      exact nodesWhere_isParameterName_child hc (ih c (List.mem_of_getElem? hc))

theorem targets_eq_flatMap (n : Node) :
    n.targets =
      if n.kind = "identifier" then [n]
      else if n.kind ∈ targetListKinds then
        n.children.flatMap fun c => if c.named then c.targets else []
      else [] := by
  have hamong (ns : List Node) :
      targetsAmong ns = ns.flatMap fun c => if c.named then c.targets else [] := by
    induction ns with
    | nil => rfl
    | cons n ns ih => rw [targetsAmong, ih, List.flatMap_cons]
  obtain ⟨kind, start, stop, named, field, children⟩ := n
  rw [targets, hamong]

/-- The plain names among the targets of an assignment are the nodes at the places
of targets. -/
theorem targets_eq (n : Node) : n.targets = n.nodesWhere n.isTarget := by
  induction n using induct with
  | step n ih =>
      rw [targets_eq_flatMap]
      split_ifs with hidentifier hlist
      · rw [← nodesWhere_isEmpty n]
        refine nodesWhere_congr fun b => ?_
        cases b <;> simp [isTarget, hidentifier, targetListKinds]
      · have hnil : n.isTarget [] = false := by simp [isTarget, hidentifier]
        refine (nodesWhere_eq_flatMap_children hnil fun i c hc => ?_).symm
        simp only [isTarget, hc, Option.any_some]
        cases hnamed : c.named with
        | false => exact nodesWhere_eq_nil fun b => by simp
        | true =>
            rw [if_pos rfl, ih c (List.mem_of_getElem? hc)]
            exact nodesWhere_congr fun b => by simp [hlist]
      · refine (nodesWhere_eq_nil fun b => ?_).symm
        cases b <;> simp [isTarget, hidentifier, hlist]

/-- The nodes that name the local variables which a node declares: the parameters
if it has any, or else what it assigns. -/
def localNames (n : Node) : List Node :=
  (if n.ownsParameters then n.ownParameters else []) ++ n.declaredNames.map Prod.fst

/-- The nodes on the left of an assignment that name a variable which does not
belong to the code that assigns it. -/
def sharedNames (n : Node) : List Node :=
  if n.isAssignment then
    (n.childByField "left").toList.filter fun left => sharedVariableKinds.contains left.kind
  else
    []

/-- What a declaration names is found below the child that holds the names. -/
theorem nodesWhere_reaches
    (n : Node) (number? : Option Nat) {names : Node → List Nat → Bool} {collect : Node → List Node}
    (hcollect : ∀ c : Node, collect c = c.nodesWhere (names c)) :
    (n.nodesWhere fun b => (number?.map (⟨·, names⟩ : Nat → Naming)).any fun r => r.reaches n b) =
      ((number?.bind fun i => n.children[i]?).map collect).getD [] := by
  cases hchild : number?.bind fun i => n.children[i]? with
  | none =>
      refine nodesWhere_eq_nil fun a => Bool.eq_false_iff.2 fun h => ?_
      obtain ⟨i, c, b, hi, -, hc, -⟩ := any_reaches_iff.1 h
      rw [hi, Option.bind_some, hc] at hchild
      exact absurd hchild (Option.some_ne_none c)
  | some c =>
      obtain ⟨i, rfl, hc⟩ := Option.bind_eq_some_iff.1 hchild
      rw [Option.map_some, Option.map_some, Option.getD_some, hcollect]
      refine nodesWhere_child hc rfl fun j b => ?_
      rw [Option.any_some, Naming.reaches]
      by_cases hij : i = j
      · simp [← hij, hc]
      · rw [beq_eq_false_iff_ne.2 hij, beq_eq_false_iff_ne.2 (Ne.symm hij)]
        rfl

theorem nodesWhere_none (n : Node) :
    (n.nodesWhere fun b => (none : Option Naming).any fun r => r.reaches n b) = [] :=
  nodesWhere_eq_nil fun _ => rfl

theorem nodesWhere_kind (c : Node) (counts : Bool) :
    (c.nodesWhere fun b => counts && b.isEmpty) = if counts then [c] else [] := by
  cases counts with
  | true => exact nodesWhere_isEmpty c
  | false => exact nodesWhere_eq_nil fun _ => rfl

theorem declaredNames_of_ownsParameters {n : Node} (h : n.ownsParameters = true) :
    n.declaredNames = [] := by
  obtain ⟨hassign, hfor, hrescue⟩ := kind_of_ownsParameters h
  have hkind : ¬(n.kind = "assignment" ∨ n.kind = "operator_assignment") := by
    rw [← isAssignment_iff, hassign]
    exact Bool.false_ne_true
  simp [declaredNames, hkind, hfor, hrescue]

theorem map_fst_assignedNames (left : Node) (right : Option Node) :
    (left.assignedNames right).map Prod.fst = left.targets := by
  unfold assignedNames
  split
  · rename_i hkind
    rw [targets_eq_flatMap, if_pos hkind]
    rfl
  · rw [List.map_map]
    exact List.map_id _

/-- The names of the local variables that a node declares are the nodes at the
places it declares. -/
theorem localNames_eq (n : Node) : n.localNames = n.nodesWhere n.declaresLocal := by
  unfold localNames declaresLocal localNaming?
  by_cases howns : n.ownsParameters = true
  · rw [if_pos howns, if_pos howns, nodesWhere_reaches n _ parameterNames_eq, ← childByField_eq,
      declaredNames_of_ownsParameters howns, List.map_nil, List.append_nil, ownParameters]
    cases n.childByField "parameters" <;> rfl
  rw [if_neg howns, if_neg howns, List.nil_append, declaredNames]
  by_cases hassign : n.isAssignment = true
  · rw [if_pos hassign, if_pos (by simpa [isAssignment] using hassign),
      nodesWhere_reaches n _ targets_eq, ← childByField_eq]
    cases n.childByField "left" with
    | none => rfl
    | some left => exact map_fst_assignedNames left _
  rw [if_neg hassign, if_neg (by simpa [isAssignment] using hassign)]
  by_cases hfor : n.kind = "for"
  · rw [if_pos hfor, if_pos hfor, nodesWhere_reaches n _ targets_eq, ← childByField_eq]
    cases n.childByField "pattern" with
    | none => rfl
    | some pattern =>
        dsimp only
        rw [List.map_map]
        exact List.map_id _
  rw [if_neg hfor, if_neg hfor]
  by_cases hrescue : n.kind = "exception_variable"
  · rw [if_pos hrescue, if_pos hrescue,
      nodesWhere_reaches n _ fun c => (nodesWhere_kind c (c.kind == "identifier")).symm,
      ← head?_namedChildren]
    cases n.namedChildren with
    | nil => rfl
    | cons c _ => by_cases hkind : c.kind = "identifier" <;> simp [hkind]
  · rw [if_neg hrescue, if_neg hrescue, nodesWhere_none]
    rfl

/-- The names of the shared variables that a node assigns are the nodes at the places
it assigns. -/
theorem sharedNames_eq (n : Node) : n.sharedNames = n.nodesWhere n.declaresShared := by
  unfold sharedNames declaresShared sharedNaming?
  split_ifs with hassign
  · rw [nodesWhere_reaches n _ fun c =>
      (nodesWhere_kind c (sharedVariableKinds.contains c.kind)).symm, ← childByField_eq]
    cases n.childByField "left" with
    | none => rfl
    | some left => exact List.filter_cons
  · exact (nodesWhere_none n).symm

end Caret.Node
