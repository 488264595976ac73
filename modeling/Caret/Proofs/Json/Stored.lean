import Caret.Proofs.FirstOccurrences
import Caret.Proofs.Json.Records
import Caret.Proofs.SampledTypes

/-!
# Stored values are read back

Types, pins, fragments, settings and tables of samples are written as JSON texts and read
back as they were.  A table of samples keeps the order of its keys, which is the order in
which they first appeared, whatever texts and samples it came from.
-/

namespace Caret

namespace Samples

/-! ## The order of keys -/

def keys (samples : Samples) : List String :=
  samples.entries.map Prod.fst

theorem put_of_not_mem
    {key : String} {table : List (String × List String)} (h : key ∉ table.map Prod.fst)
    (types : List String) : put key types table = table ++ [(key, types)] := by
  induction table with
  | nil => rfl
  | cons entry table ih =>
      obtain ⟨k, ts⟩ := entry
      rw [List.map_cons, List.mem_cons, not_or] at h
      rw [put, if_neg (Ne.symm h.1), ih h.2]
      rfl

theorem map_fst_put_of_mem
    {key : String} {table : List (String × List String)} (h : key ∈ table.map Prod.fst)
    (types : List String) : (put key types table).map Prod.fst = table.map Prod.fst := by
  induction table with
  | nil => simp at h
  | cons entry table ih =>
      obtain ⟨k, ts⟩ := entry
      by_cases hk : k = key
      · rw [put, if_pos hk, List.map_cons, List.map_cons, hk]
      · rw [List.map_cons, List.mem_cons] at h
        rw [put, if_neg hk, List.map_cons, List.map_cons, ih (h.resolve_left (Ne.symm hk))]

/-- Entries under keys of their own are put at the end one after the other. -/
theorem foldl_put_of_nodup
    {entries table : List (String × List String)}
    (h : ((table ++ entries).map Prod.fst).Nodup) :
    entries.foldl (fun table (k, ts) => put k ts table) table = table ++ entries := by
  induction entries generalizing table with
  | nil => exact (List.append_nil table).symm
  | cons entry entries ih =>
      obtain ⟨k, ts⟩ := entry
      have hnew : k ∉ table.map Prod.fst := by
        intro hk
        rw [List.map_append, List.nodup_append] at h
        exact h.2.2 k hk k List.mem_cons_self rfl
      have hput : put k ts table = table ++ [(k, ts)] := put_of_not_mem hnew ts
      rw [List.foldl_cons]
      dsimp only
      rw [hput, ih, List.append_assoc]
      · rfl
      · rwa [List.append_assoc]

theorem ofList_entries {samples : Samples} (h : samples.keys.Nodup) :
    ofList samples.entries = samples := by
  have hkeys : (([] ++ samples.entries).map Prod.fst).Nodup := h
  rw [ofList, foldl_put_of_nodup hkeys]
  rfl

theorem ofList_concat (entries : List (String × List String)) (entry : String × List String) :
    ofList (entries ++ [entry]) = ⟨put entry.1 entry.2 (ofList entries).entries⟩ := by
  rw [ofList, List.foldl_append]
  rfl

/-- The keys of a table stand in the order in which they first appeared. -/
theorem keys_ofList (entries : List (String × List String)) :
    (ofList entries).keys = (entries.map Prod.fst).eraseDups := by
  induction entries using List.reverseRecOn with
  | nil => rfl
  | append_singleton entries entry ih =>
      obtain ⟨k, ts⟩ := entry
      have hiff : k ∈ (ofList entries).keys ↔ k ∈ entries.map Prod.fst := by
        rw [ih, List.mem_eraseDups]
      rw [ofList_concat, keys, List.map_append, List.map_singleton]
      by_cases hk : k ∈ entries.map Prod.fst
      · rw [map_fst_put_of_mem (hiff.2 hk), eraseDups_concat_of_mem hk]
        exact ih
      · rw [put_of_not_mem fun h => hk (hiff.1 h), eraseDups_concat_of_not_mem hk, List.map_append,
          ← ih]
        rfl

theorem nodup_keys_ofList (entries : List (String × List String)) :
    (ofList entries).keys.Nodup := by
  rw [keys_ofList]
  exact nodup_eraseDups _

/-! ## Tables as JSON -/

theorem ofJson?_toJson {samples : Samples} (h : samples.keys.Nodup) :
    ofJson? samples.toJson = some samples := by
  have hentries :
      (samples.entries.map fun (key, types) => (key, Json.ofStrings types)).mapM entry? =
        some samples.entries := by
    induction samples.entries with
    | nil => rfl
    | cons entry entries ih =>
        rw [List.map_cons, List.mapM_cons, ih, entry?, Json.strings?_ofStrings]
        rfl
  rw [toJson, ofJson?, hentries, Option.map_some, ofList_entries h]

theorem isPlain_toJson (fits : Nat → Bool) (samples : Samples) :
    samples.toJson.isPlain fits = true := by
  rw [toJson, Json.isPlain]
  induction samples.entries with
  | nil => rfl
  | cons entry entries ih =>
      rw [List.map_cons, Json.allMembersPlain, ih, (Json.classes_of_ofStrings fits entry.2).1]
      rfl

theorem depth_toJson_le (samples : Samples) : samples.toJson.depth ≤ 2 := by
  rw [toJson, Json.depth]
  apply Nat.succ_le_succ
  induction samples.entries with
  | nil => exact Nat.zero_le 1
  | cons entry entries ih =>
      rw [List.map_cons, Json.depthOfMembers,
        (Json.classes_of_ofStrings (fun _ => true) entry.2).2]
      exact Nat.max_le.2 ⟨Nat.le_refl 1, ih⟩

theorem parse?_text {samples : Samples} (h : samples.keys.Nodup) :
    parse? samples.text = some samples := by
  rw [parse?, text, Json.parse?_compact (samples.isPlain_toJson _)
    (Nat.le_trans samples.depth_toJson_le (by decide)), Option.bind_some, ofJson?_toJson h]

/-! ## Where a table comes from -/

def Sample.entry (w : Sample) : String × List String :=
  (key w.closurePath w.name, w.types)

theorem insertAll_ofList (entries : List (String × List String)) (ws : List Sample) :
    (ofList entries).insertAll ws = ofList (entries ++ ws.map Sample.entry) := by
  induction ws using List.reverseRecOn with
  | nil =>
      rw [List.map_nil, List.append_nil]
      rfl
  | append_singleton ws w ih =>
      have hinsert : (ofList entries).insertAll (ws ++ [w]) =
          ((ofList entries).insertAll ws).insert w.closurePath w.name w.types := by
        rw [insertAll, List.foldl_append]
        rfl
      rw [hinsert, ih, List.map_append, ← List.append_assoc, List.map_singleton, ofList_concat]
      rfl

theorem get?_ofList (entries : List (String × List String)) (k : String) :
    (ofList entries).get? k = entries.reverse.lookup k := by
  rw [get?, ofList, lookup_foldl_put]
  exact Option.or_none

/-- A table read from a text is made of the members of an object, entry by entry. -/
theorem exists_entries_of_parse?
    {text : String} {samples : Samples} (h : parse? text = some samples) :
    ∃ members entries, Json.parse? text = some (.object members) ∧
      members.mapM entry? = some entries ∧ samples = ofList entries := by
  obtain ⟨json, hjson, hsamples⟩ := Option.bind_eq_some_iff.1 h
  unfold ofJson? at hsamples
  split at hsamples
  · rename_i members
    obtain ⟨entries, hentries, rfl⟩ := Option.map_eq_some_iff.1 hsamples
    exact ⟨members, entries, hjson, hentries, rfl⟩
  · exact absurd hsamples (Option.some_ne_none samples).symm

end Samples

open Samples

/-! ## All stored values -/

/-- A value that is decoded from what it is encoded as comes back from the text of it. -/
theorem Json.parse?_compact_bind
    {α : Type} (encode : α → Json) {decode : Json → Option α} {a : α}
    (h : decode (encode a) = some a) (hplain : (encode a).isPlain fitsWord = true)
    (hdepth : (encode a).depth ≤ nestingLimit) :
    (parse? (encode a).compact).bind decode = some a := by
  rw [parse?_compact hplain hdepth, Option.bind_some, h]

/-- All types, pins, fragments and settings, and all tables of samples without repeated keys,
are decoded from the JSON values they are encoded as.  They are read back from the texts of
these values, pins and fragments if their counts fit in 64 bits, types and pins if the reader
allows their depth.  A table that was read from a text and took more samples is read back
with its keys in the order in which they first appeared, in the text and then among the
samples, and each key has its last value. -/
theorem storedValues_readBack :
    (∀ (t : TypeExpr) (heldBack : Bool), TypeExpr.ofJson? heldBack t.toJson = some t ∧
      (t.toJson.depth ≤ Json.nestingLimit →
        (Json.parse? t.toJson.compact).bind (TypeExpr.ofJson? heldBack) = some t)) ∧
    (∀ p : Pin, Pin.ofJson? p.toJson = some p ∧
      (p.fits Json.fitsWord = true → p.toJson.depth ≤ Json.nestingLimit →
        (Json.parse? p.toJson.compact).bind Pin.ofJson? = some p)) ∧
    (∀ f : Fragment, Fragment.ofJson? f.toJson = some f ∧
      (f.fits Json.fitsWord = true →
        (Json.parse? f.toJson.compact).bind Fragment.ofJson? = some f)) ∧
    (∀ s : Settings, Settings.ofJson? s.toJson = some s ∧
      (Json.parse? s.toJson.compact).bind Settings.ofJson? = some s) ∧
    (∀ samples : Samples, samples.keys.Nodup → Samples.ofJson? samples.toJson = some samples ∧
      Samples.parse? samples.text = some samples) ∧
    ∀ text samples, Samples.parse? text = some samples → ∀ ws : List Sample,
      ∃ members entries, Json.parse? text = some (.object members) ∧
        members.mapM Samples.entry? = some entries ∧
        Samples.parse? (samples.insertAll ws).text = some (samples.insertAll ws) ∧
        (samples.insertAll ws).keys =
          ((entries ++ ws.map Sample.entry).map Prod.fst).eraseDups ∧
        ∀ k, (samples.insertAll ws).get? k = (entries ++ ws.map Sample.entry).reverse.lookup k := by
  refine ⟨fun t heldBack => ?_, fun p => ?_, fun f => ?_, fun s => ?_, fun samples hkeys => ?_,
    fun text samples htext ws => ?_⟩
  · have hvalue := TypeExpr.ofJson?_toJson heldBack t
    exact ⟨hvalue, Json.parse?_compact_bind TypeExpr.toJson hvalue (t.isPlain_toJson _)⟩
  · have hvalue := p.ofJson?_toJson
    exact ⟨hvalue, fun hfits =>
      Json.parse?_compact_bind Pin.toJson hvalue (Pin.isPlain_toJson hfits)⟩
  · have hvalue := f.ofJson?_toJson
    have hdepth : f.toJson.depth ≤ Json.nestingLimit := by
      rw [f.depth_toJson]
      decide
    exact ⟨hvalue, fun hfits =>
      Json.parse?_compact_bind Fragment.toJson hvalue (Fragment.isPlain_toJson hfits) hdepth⟩
  · have hvalue := s.ofJson?_toJson
    have hdepth : s.toJson.depth ≤ Json.nestingLimit := by
      rw [s.depth_toJson]
      decide
    exact ⟨hvalue, Json.parse?_compact_bind Settings.toJson hvalue (s.isPlain_toJson _) hdepth⟩
  · exact ⟨ofJson?_toJson hkeys, parse?_text hkeys⟩
  · obtain ⟨members, entries, hmembers, hentries, rfl⟩ := exists_entries_of_parse? htext
    rw [insertAll_ofList]
    exact ⟨members, entries, hmembers, hentries, parse?_text (nodup_keys_ofList _),
      keys_ofList _, get?_ofList _⟩

/-- A type with signs in its names that do not stand in JSON strings as they are. -/
def quotedType : TypeExpr :=
  .union [.mk "\r" (.hash (.union [.mk "\\" (.list (.ofName "\""))]) .undefined), .ofName ""]

/-- A local variable of this type, with signs of the same sort and a column that just fits. -/
def quotedLocal : Pin :=
  .localVariable
    { declaration :=
        { name := "\"é\\"
          closurePath := ""
          location := none
          assignment := some "\u0001\n\t\u001f"
          staticType := quotedType }
      presence := ⟨⟨0, Nat.pow 2 64 - 1⟩, ⟨7, 0⟩⟩ }

/-- A fragment with signs of the same sort. -/
def quotedFragment : Fragment where
  offset := Nat.pow 2 64 - 1
  namespaceName := ""
  scope := .instanceLevel
  signature := "\"a\""
  base := "\\"
  word := "é"
  remainder := "\u0000"
  wholeWord := "é\u0000"
  wholeSignature := "\u000c\u0008"
  phrase := "\n"
  signatureStart := 3
  inString := true
  inComment := false
  wordRange := ⟨⟨0, 3⟩, ⟨0, 5⟩⟩
  wholeWordRange := ⟨⟨0, 3⟩, ⟨0, 6⟩⟩
  visibleLocals := ["", "\"", "x"]

/-- A table with a repeated key, read and then extended, and the values above. -/
theorem storedValues_readBack_quoted :
    let text := "\x7b\"a%x\": [\"Integer\"], \"\\\"%y\": [], \"a%x\": [\"\\u00e9\"]\x7d"
    let samples : Samples := ⟨[("a%x", ["é"]), ("\"%y", [])]⟩
    let ws : List Sample := [⟨"b", "z", ["nil"]⟩, ⟨"\"", "y", ["\\"]⟩]
    let table := samples.insertAll ws
    let settings : Settings := { log := { level := "\u007f" }, runtimeSamples := some "\"" }
    (Json.parse? quotedType.toJson.compact).bind (TypeExpr.ofJson? false) = some quotedType ∧
      (Json.parse? quotedLocal.toJson.compact).bind Pin.ofJson? = some quotedLocal ∧
      (Json.parse? quotedFragment.toJson.compact).bind Fragment.ofJson? = some quotedFragment ∧
      (Json.parse? settings.toJson.compact).bind Settings.ofJson? = some settings ∧
      Samples.parse? text = some samples ∧ samples.keys.Nodup ∧
      Samples.parse? samples.text = some samples ∧ Samples.parse? table.text = some table ∧
      table = ⟨[("a%x", ["é"]), ("\"%y", ["\\"]), ("b%z", ["nil"])]⟩ := by
  intro text samples ws table settings
  obtain ⟨htypes, hpins, hfragments, hsettings, hsamples, htables⟩ := storedValues_readBack
  have hfits : quotedLocal.fits Json.fitsWord = true := by decide
  have hdepth : quotedLocal.toJson.depth ≤ Json.nestingLimit := by decide
  have hdepth' : quotedType.toJson.depth ≤ Json.nestingLimit := by decide
  have hfits' : quotedFragment.fits Json.fitsWord = true := by decide
  have htext : Samples.parse? text = some samples := by decide +kernel
  have hkeys : samples.keys.Nodup := by decide
  obtain ⟨members, entries, -, -, htable, -, -⟩ := htables text samples htext ws
  exact ⟨(htypes quotedType false).2 hdepth', (hpins quotedLocal).2 hfits hdepth,
    (hfragments quotedFragment).2 hfits', (hsettings settings).2, htext, hkeys,
    (hsamples samples hkeys).2, htable, by decide⟩

end Caret
