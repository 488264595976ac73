import Caret.Json.Samples
import Caret.Pin.Typing
import Caret.Proofs.Text.Separator
import Caret.Proofs.TypeExpr.Merge
import Mathlib.Data.List.Forall2
import Mathlib.Data.List.Induction

/-!
# Which sample counts for a variable

A table of samples is read from a JSON text and then takes one sample after the
other.  Its keys are plain texts in which a path and a name are put together, and
still no variable gets the sample of another one: names are free of the percent
sign, so the last one in a key separates the two.  What counts for a variable is the
last sample put in for it, or else the last member of the JSON text under its key.
-/

namespace Caret

namespace Samples

/-! ## Keys -/

theorem toList_key (closurePath name : String) :
    (key closurePath name).toList = closurePath.toList ++ '%' :: name.toList := by
  simp [key]

/-- Variables with names free of the percent sign have keys of their own, whatever
stands in their paths. -/
theorem key_inj {path name path' name' : String} (hname : '%' ∉ name.toList)
    (hname' : '%' ∉ name'.toList) :
    key path name = key path' name' ↔ path = path' ∧ name = name' := by
  constructor
  · intro h
    have hlist := congrArg String.toList h
    rw [toList_key, toList_key] at hlist
    obtain ⟨hpath, hname⟩ := Text.append_separator_inj hname hname' hlist
    exact ⟨String.toList_inj.1 hpath, String.toList_inj.1 hname⟩
  · rintro ⟨rfl, rfl⟩
    rfl

/-! ## Entries -/

theorem lookup_cons_eq_ite (k l : String) (types : List String)
    (table : List (String × List String)) :
    ((l, types) :: table).lookup k = if k = l then some types else table.lookup k := by
  rw [List.lookup_cons]
  by_cases h : k = l
  · rw [if_pos h, beq_iff_eq.2 h]
  · rw [if_neg h, beq_eq_false_iff_ne.2 h]

theorem lookup_put (k l : String) (types : List String) (table : List (String × List String)) :
    (put l types table).lookup k = if k = l then some types else table.lookup k := by
  induction table with
  | nil => exact lookup_cons_eq_ite k l types []
  | cons entry table ih =>
      obtain ⟨m, ts⟩ := entry
      by_cases hm : m = l
      · rw [put, if_pos hm, lookup_cons_eq_ite, lookup_cons_eq_ite, hm]
        split_ifs <;> rfl
      · rw [put, if_neg hm, lookup_cons_eq_ite, lookup_cons_eq_ite, ih]
        by_cases hk : k = l
        · rw [if_pos hk, if_pos hk, if_neg fun h => hm (h.symm.trans hk)]
        · rw [if_neg hk, if_neg hk]

theorem lookup_foldl_put (entries table : List (String × List String)) (k : String) :
    (entries.foldl (fun table (k, ts) => put k ts table) table).lookup k =
      (entries.reverse.lookup k).or (table.lookup k) := by
  induction entries using List.reverseRecOn with
  | nil => rfl
  | append_singleton entries entry ih =>
      obtain ⟨l, ts⟩ := entry
      rw [List.foldl_append, List.foldl_cons, List.foldl_nil, lookup_put, ih, List.reverse_append,
        List.reverse_singleton, List.singleton_append, lookup_cons_eq_ite]
      split_ifs <;> rfl

/-! ## Tables read from JSON -/

theorem forall₂_of_mapM
    {α β : Type} {f : α → Option β} {xs : List α} {ys : List β} (h : xs.mapM f = some ys) :
    List.Forall₂ (fun y x => f x = some y) ys xs := by
  induction xs generalizing ys with
  | nil =>
      obtain rfl := Option.some.inj h
      exact .nil
  | cons x xs ih =>
      rw [List.mapM_cons] at h
      obtain ⟨y, hy, h⟩ := Option.bind_eq_some_iff.1 h
      obtain ⟨ys, hys, h⟩ := Option.bind_eq_some_iff.1 h
      obtain rfl := Option.some.inj h
      exact .cons hy (ih hys)

theorem lookup_of_forall₂
    {entries : List (String × List String)} {members : List (String × Json)}
    (h : List.Forall₂ (fun entry member => entry? member = some entry) entries members)
    (k : String) :
    entries.lookup k = (members.lookup k).bind Json.strings? := by
  induction h with
  | nil => rfl
  | @cons entry member entries members hentry _ ih =>
      obtain ⟨types, htypes, rfl⟩ := Option.map_eq_some_iff.1 hentry
      rw [List.lookup_cons, List.lookup_cons, ih]
      cases k == member.1 with
      | true => exact htypes.symm
      | false => rfl

/-- A table read from JSON comes from an object, and holds under each key what the last
member of that key says. -/
theorem exists_members_of_parse?
    {text : String} {samples : Samples} (h : parse? text = some samples) :
    ∃ members, Json.parse? text = some (.object members) ∧
      ∀ k, samples.get? k = (members.reverse.lookup k).bind Json.strings? := by
  obtain ⟨json, hjson, hsamples⟩ := Option.bind_eq_some_iff.1 h
  unfold ofJson? at hsamples
  split at hsamples
  · rename_i members
    obtain ⟨entries, hentries, rfl⟩ := Option.map_eq_some_iff.1 hsamples
    refine ⟨members, hjson, fun k => ?_⟩
    have hreverse := List.forall₂_reverse_iff.2 (forall₂_of_mapM hentries)
    rw [get?, ofList, lookup_foldl_put, lookup_of_forall₂ hreverse]
    exact Option.or_none
  · exact absurd hsamples (Option.some_ne_none samples).symm

/-! ## Samples put in one after the other -/

/-- The types observed of a variable, to be put into a table. -/
structure Sample where
  closurePath : String
  name : String
  types : List String

/-- A sample of the variable with this path and name. -/
def Sample.isOf (closurePath name : String) (w : Sample) : Bool :=
  w.closurePath == closurePath && w.name == name

def insertAll (samples : Samples) (ws : List Sample) : Samples :=
  ws.foldl (fun table w => table.insert w.closurePath w.name w.types) samples

def lastTypes? (ws : List Sample) (closurePath name : String) : Option (List String) :=
  (ws.reverse.find? (Sample.isOf closurePath name)).map Sample.types

theorem Sample.isOf_iff {closurePath name : String} {w : Sample} :
    w.isOf closurePath name = true ↔ w.closurePath = closurePath ∧ w.name = name := by
  simp [isOf]

theorem lastTypes?_append (ws vs : List Sample) (path name : String) :
    lastTypes? (ws ++ vs) path name = (lastTypes? vs path name).or (lastTypes? ws path name) := by
  rw [lastTypes?, List.reverse_append, List.find?_append, Option.map_or]
  rfl

theorem lastTypes?_singleton (w : Sample) (path name : String) :
    lastTypes? [w] path name = if w.isOf path name then some w.types else none := by
  rw [lastTypes?, List.reverse_singleton, List.find?_singleton]
  split_ifs <;> rfl

/-- A table into which samples were put holds the last sample of a variable, or else what
it held before. -/
theorem get?_insertAll
    {samples : Samples} {ws : List Sample} (hws : ∀ w ∈ ws, '%' ∉ w.name.toList)
    {path name : String} (hname : '%' ∉ name.toList) :
    (samples.insertAll ws).get? (key path name) =
      (lastTypes? ws path name).or (samples.get? (key path name)) := by
  induction ws using List.reverseRecOn with
  | nil => rfl
  | append_singleton ws w ih =>
      have hlast : '%' ∉ w.name.toList := hws w (by simp)
      have hsplit := ih fun v hv => hws v (by simp [hv])
      have hinsert : (samples.insertAll (ws ++ [w])).get? (key path name) =
          if w.isOf path name then some w.types
          else (samples.insertAll ws).get? (key path name) := by
        rw [insertAll, List.foldl_append, List.foldl_cons, List.foldl_nil, get?, insert, lookup_put]
        refine if_congr ?_ rfl rfl
        rw [key_inj hname hlast, Sample.isOf_iff, eq_comm, @eq_comm _ name]
      rw [hinsert, hsplit, lastTypes?_append, lastTypes?_singleton]
      split_ifs <;> rfl

end Samples

open Samples

/-! ## The type of a variable -/

/-- The type that a sample gives a variable if it has types and all of them can be read,
or else the inferred one. -/
def LocalPin.typeBy
    (p : LocalPin) (infer : LocalPin → TypeExpr) : Option (List String) → TypeExpr
  | some types =>
    if types ≠ [] ∧ ∀ text ∈ types, (TypeExpr.parse text).isDefined = true then
      TypeExpr.merge types
    else
      infer p
  | none => infer p

/-- Only what the table holds under the key of a variable counts for its type. -/
theorem LocalPin.effectiveType_eq_typeBy
    (p : LocalPin) (samples : Samples) (infer : LocalPin → TypeExpr) :
    p.effectiveType samples infer = p.typeBy infer (samples.get? (key p.closurePath p.name)) := by
  rw [effectiveType, sampledType, typesFor?]
  cases samples.get? (key p.closurePath p.name) with
  | none => rfl
  | some types =>
      rw [typeBy, Option.filter_some]
      by_cases hempty : types = []
      · rw [hempty]
        rfl
      · simp [hempty, TypeExpr.isDefined_merge_iff]

/-- The type of a local variable comes from the last sample put in for the variable
itself, or, if there is none, from the last member under its key in the JSON text of the
table.  It is the type that the sample spells if there is a sample with types and each
of them can be read, and the inferred one otherwise.  Samples put in for other variables
make no difference, whatever stands in the paths. -/
theorem LocalPin.effectiveType_eq_ofOwnSample
    {text : String} {samples : Samples} (htext : Samples.parse? text = some samples)
    {ws : List Sample} (hws : ∀ w ∈ ws, '%' ∉ w.name.toList) {p : LocalPin}
    (hp : '%' ∉ p.name.toList) (infer : LocalPin → TypeExpr) :
    (∃ members, Json.parse? text = some (.object members) ∧
      p.effectiveType (samples.insertAll ws) infer =
        p.typeBy infer ((lastTypes? ws p.closurePath p.name).or
          ((members.reverse.lookup (key p.closurePath p.name)).bind Json.strings?))) ∧
    ∀ before w after, ws = before ++ w :: after →
      ¬(w.closurePath = p.closurePath ∧ w.name = p.name) →
        p.effectiveType (samples.insertAll ws) infer =
          p.effectiveType (samples.insertAll (before ++ after)) infer := by
  constructor
  · obtain ⟨members, hjson, hentry⟩ := exists_members_of_parse? htext
    refine ⟨members, hjson, ?_⟩
    rw [p.effectiveType_eq_typeBy, get?_insertAll hws hp, hentry]
  · rintro before w after rfl hother
    have hrest : ∀ v ∈ before ++ after, '%' ∉ v.name.toList := by
      intro v hv
      refine hws v ?_
      rw [List.mem_append] at hv ⊢
      exact hv.imp_right (List.mem_cons_of_mem w)
    have hleft : lastTypes? (before ++ w :: after) p.closurePath p.name =
        lastTypes? (before ++ after) p.closurePath p.name := by
      rw [← List.singleton_append, lastTypes?_append, lastTypes?_append, lastTypes?_append,
        lastTypes?_singleton, if_neg fun h => hother (Sample.isOf_iff.1 h), Option.or_none]
    rw [p.effectiveType_eq_typeBy, p.effectiveType_eq_typeBy, get?_insertAll hws hp,
      get?_insertAll hrest hp, hleft]

/-- The local variable `x` of a method that is named by the percent sign. -/
def localOfPercentMethod : LocalPin where
  declaration := ⟨"x", "Foo#%", none, none, .undefined⟩
  presence := ⟨⟨0, 0⟩, ⟨0, 0⟩⟩

/-- Samples of this variable and of others with paths or names like it. -/
def percentSamples : List Sample :=
  [⟨"Foo#%", "x", ["Integer"]⟩, ⟨"Foo#%", "x", ["String", "nil"]⟩, ⟨"Foo#", "x", ["Float"]⟩,
    ⟨"Foo#%", "y", []⟩]

/-- The last sample of the variable itself counts, not the one in the text of the table
and not those of other variables that came later. -/
theorem effectiveType_localOfPercentMethod :
    let text := "\x7b\"Foo#%%x\": [\"Symbol\"]\x7d"
    let samples : Samples := ⟨[("Foo#%%x", ["Symbol"])]⟩
    let p := localOfPercentMethod
    Samples.parse? text = some samples ∧ (∀ w ∈ percentSamples, '%' ∉ w.name.toList) ∧
      '%' ∉ p.name.toList ∧
      ∀ infer, p.effectiveType (samples.insertAll percentSamples) infer =
        .union [.ofName "String", .ofName "nil"] := by
  intro text samples p
  have htext : Samples.parse? text = some samples := by decide +kernel
  have hws : ∀ w ∈ percentSamples, '%' ∉ w.name.toList := by decide
  have hp : '%' ∉ p.name.toList := by decide
  refine ⟨htext, hws, hp, fun infer => ?_⟩
  obtain ⟨⟨members, -, htype⟩, -⟩ := LocalPin.effectiveType_eq_ofOwnSample htext hws hp infer
  have hlast : lastTypes? percentSamples p.closurePath p.name = some ["String", "nil"] := by decide
  have hread : ∀ text ∈ ["String", "nil"], (TypeExpr.parse text).isDefined = true := by
    decide +kernel
  rw [htype, hlast, Option.some_or, LocalPin.typeBy, if_pos ⟨List.cons_ne_nil _ _, hread⟩]
  decide +kernel

end Caret
