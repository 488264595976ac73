import Caret.Json.Fragment
import Caret.Proofs.Json.Text
import Caret.Settings
import Mathlib.Data.List.Nodup

/-!
# Records are decoded from what they are encoded as

Encoders and decoders of the stored values, constructor by constructor.  A record finds each
of its fields since no key is repeated, and an absent field is told from all that a present
one is encoded as.
-/

namespace Caret

namespace Json

/-! ## Fields -/

theorem filter_key_of_not_mem
    {members : List (String × Json)} {key : String} (hkey : key ∉ members.map Prod.fst) :
    members.filter (·.1 == key) = [] := by
  rw [List.filter_eq_nil_iff]
  intro m hm heq
  have hmem : m.1 ∈ members.map Prod.fst := List.mem_map_of_mem hm
  exact hkey (beq_iff_eq.1 heq ▸ hmem)

theorem filter_key_of_nodup
    {members : List (String × Json)} (hkeys : (members.map Prod.fst).Nodup) {m : String × Json}
    (hm : m ∈ members) : members.filter (·.1 == m.1) = [m] := by
  induction members with
  | nil => simp at hm
  | cons n members ih =>
      rw [List.map_cons, List.nodup_cons] at hkeys
      obtain ⟨hfirst, hrest⟩ := hkeys
      rcases List.mem_cons.1 hm with rfl | hm
      · rw [List.filter_cons_of_pos (by simp), filter_key_of_not_mem hfirst]
      · have hother : ¬(n.1 == m.1) = true := by
          intro heq
          have hkey : m.1 ∈ members.map Prod.fst := List.mem_map_of_mem hm
          exact hfirst (beq_iff_eq.1 heq ▸ hkey)
        rw [List.filter_cons_of_neg (by exact hother), ih hrest hm]

theorem field?_of_nodup
    {members : List (String × Json)} (hkeys : (members.map Prod.fst).Nodup) {m : String × Json}
    (hm : m ∈ members) : field? m.1 members = some (some m.2) := by
  rw [field?, filter_key_of_nodup hkeys hm]

/-- The value under a key that an object has once. -/
def member? (key : String) : Json → Option Json
  | .object members => (field? key members).join
  | _ => none

theorem member?_of_nodup
    {members : List (String × Json)} (hkeys : (members.map Prod.fst).Nodup) {m : String × Json}
    (hm : m ∈ members) : (object members).member? m.1 = some m.2 := by
  rw [member?, field?_of_nodup hkeys hm]
  rfl

/-- The fields of an object are found under their names if no name is repeated. -/
theorem fields?_object
    {members : List (String × Json)} {names : List String} (hnames : members.map Prod.fst = names)
    (hdistinct : names.Nodup) :
    fields? names (.object members) = some (members.map fun m => some m.2) := by
  subst hnames
  have hall : ∀ part : List (String × Json), (∀ m ∈ part, m ∈ members) →
      (part.map Prod.fst).mapM (fun name => field? name members) =
        some (part.map fun m => some m.2) := by
    intro part
    induction part with
    | nil => intro _; rfl
    | cons m part ih =>
        intro hpart
        have hm := field?_of_nodup hdistinct (hpart m List.mem_cons_self)
        have hrest := ih fun n hn => hpart n (List.mem_cons_of_mem m hn)
        rw [List.map_cons, List.mapM_cons, hm, hrest]
        rfl
  exact hall members fun _ hm => hm

theorem fieldsOrDefaults?_object
    {members : List (String × Json)} {names : List String} (hnames : members.map Prod.fst = names)
    (hdistinct : names.Nodup) :
    fieldsOrDefaults? names (.object members) = some (members.map fun m => some m.2) :=
  fields?_object hnames hdistinct

/-! ## Lists and absent values -/

theorem mapM_map_of_leftInverse
    {α : Type} (encode : α → Json) {decode : Json → Option α}
    (h : ∀ a, decode (encode a) = some a) (as : List α) :
    (as.map encode).mapM decode = some as := by
  induction as with
  | nil => rfl
  | cons a as ih =>
      rw [List.map_cons, List.mapM_cons, h, ih]
      rfl

@[simp] theorem strings?_ofStrings (ss : List String) : (ofStrings ss).strings? = some ss :=
  mapM_map_of_leftInverse Json.string (fun _ => rfl) ss

/-- A value that may be absent is told from `null` if no value is encoded as that. -/
theorem optional?_ofOption
    {α : Type} (encode : α → Json) {decode : Json → Option α}
    (h : ∀ a, decode (encode a) = some a) (hnull : ∀ a, encode a ≠ .null) (o : Option α) :
    optional? decode (some (ofOption encode o)) = some o := by
  cases o with
  | none => rfl
  | some a =>
      rw [ofOption, optional?]
      · rw [h]
        rfl
      · exact hnull a

@[simp] theorem optional?_string (o : Option String) :
    optional? string? (some (ofOption .string o)) = some o :=
  optional?_ofOption Json.string (fun _ => rfl) (fun _ h => nomatch h) o

/-- Values that can be decoded are told apart by what they are encoded as. -/
theorem injective_of_decode
    {α : Type} {encode : α → Json} (decode : Json → Option α)
    (h : ∀ a, decode (encode a) = some a) : Function.Injective encode := by
  intro a b hab
  rw [← Option.some_inj, ← h a, hab, h b]

theorem ofOption_string_injective : Function.Injective (ofOption string) :=
  injective_of_decode (fun j => optional? string? (some j)) optional?_string

/-! ## What is in a value -/

mutual

theorem isReadable_of_isPlain {fits : Nat → Bool} :
    ∀ j : Json, j.isPlain fits = true → j.isReadable = true
  | .null, _ | .bool _, _ | .count _, _ | .string _, _ => rfl
  | .array items, h => allReadable_of_allPlain items h
  | .object members, h => allMembersReadable_of_allMembersPlain members h

theorem allReadable_of_allPlain {fits : Nat → Bool} :
    ∀ items : List Json, allPlain fits items = true → allReadable items = true
  | [], _ => rfl
  | j :: rest, h => by
      rw [allPlain, Bool.and_eq_true] at h
      rw [allReadable, isReadable_of_isPlain j h.1, allReadable_of_allPlain rest h.2]
      rfl

theorem allMembersReadable_of_allMembersPlain {fits : Nat → Bool} :
    ∀ members : List (String × Json), allMembersPlain fits members = true →
      allMembersReadable members = true
  | [], _ => rfl
  | (_, j) :: rest, h => by
      rw [allMembersPlain, Bool.and_eq_true] at h
      rw [allMembersReadable, isReadable_of_isPlain j h.1,
        allMembersReadable_of_allMembersPlain rest h.2]
      rfl

end

theorem classes_of_ofStrings (fits : Nat → Bool) (ss : List String) :
    (ofStrings ss).isPlain fits = true ∧ (ofStrings ss).depth = 1 := by
  have hall : allPlain fits (ss.map .string) = true ∧ depthOfItems (ss.map .string) = 0 := by
    induction ss with
    | nil => exact ⟨rfl, rfl⟩
    | cons s ss ih =>
        rw [List.map_cons, allPlain, depthOfItems, ih.1, ih.2]
        exact ⟨rfl, rfl⟩
  rw [ofStrings, isPlain, depth, hall.1, hall.2]
  exact ⟨rfl, rfl⟩

theorem isPlain_ofOption
    {α : Type} {fits : Nat → Bool} {encode : α → Json} {o : Option α}
    (h : ∀ a ∈ o, (encode a).isPlain fits = true) : (ofOption encode o).isPlain fits = true := by
  cases o with
  | none => rfl
  | some a => exact h a rfl

theorem classes_of_ofOption_string (fits : Nat → Bool) (o : Option String) :
    (ofOption .string o).isPlain fits = true ∧ (ofOption .string o).depth = 0 := by
  cases o with
  | none => exact ⟨rfl, rfl⟩
  | some s => exact ⟨rfl, rfl⟩

end Json

/-! ## Places -/

@[simp] theorem Range.ofJson?_toJson (r : Range) : Range.ofJson? r.toJson = some r := by
  rw [Range.ofJson?, Range.toJson, Json.fields?_object]
  · rfl
  · rfl
  · decide

theorem Range.toJson_injective : Function.Injective Range.toJson :=
  Json.injective_of_decode Range.ofJson? Range.ofJson?_toJson

@[simp] theorem Range.optional?_ofOption (o : Option Range) :
    Json.optional? Range.ofJson? (some (.ofOption Range.toJson o)) = some o :=
  Json.optional?_ofOption Range.toJson Range.ofJson?_toJson (fun _ h => nomatch h) o

def Range.fits (fits : Nat → Bool) (r : Range) : Bool :=
  fits r.start.line && fits r.start.col && fits r.stop.line && fits r.stop.col

@[simp] theorem Range.isPlain_toJson (fits : Nat → Bool) (r : Range) :
    r.toJson.isPlain fits = r.fits fits := by
  simp [Range.toJson, Json.isPlain, Json.allMembersPlain, Range.fits, Bool.and_assoc]

@[simp] theorem Range.depth_toJson (r : Range) : r.toJson.depth = 1 := rfl

@[simp] theorem Scope.ofJson?_toJson (heldBack : Bool) (s : Scope) :
    Scope.ofJson? heldBack s.toJson = some s := by
  cases s <;> rfl

@[simp] theorem ContainerKind.ofJson?_toJson (heldBack : Bool) (k : ContainerKind) :
    ContainerKind.ofJson? heldBack k.toJson = some k := by
  cases k <;> rfl

@[simp] theorem Scope.isPlain_toJson (fits : Nat → Bool) (s : Scope) :
    s.toJson.isPlain fits = true := by
  cases s <;> rfl

@[simp] theorem Scope.depth_toJson (s : Scope) : s.toJson.depth = 0 := by
  cases s <;> rfl

@[simp] theorem ContainerKind.isPlain_toJson (fits : Nat → Bool) (k : ContainerKind) :
    k.toJson.isPlain fits = true := by
  cases k <;> rfl

/-! ## Types -/

namespace TypeExpr

mutual

@[simp] theorem ofJson?_toJson (heldBack : Bool) :
    ∀ t : TypeExpr, ofJson? heldBack t.toJson = some t
  | .undefined => rfl
  | .union items => by
      rw [toJson, ofJson?, if_neg (by decide), if_pos rfl, itemsOfJson?_itemsToJson heldBack items]
      rfl

@[simp] theorem Alternative.ofJson?_toJson (heldBack : Bool) :
    ∀ a : Alternative, Alternative.ofJson? heldBack a.toJson = some a
  | .mk name parameters => by
      rw [Alternative.toJson, Alternative.ofJson?, slotsOfJson?, slotsOfJson?, slotsOfJson?]
      dsimp only
      rw [if_neg (by decide), if_pos rfl, Parameters.ofJson?_toJson heldBack parameters]
      rfl

@[simp] theorem Parameters.ofJson?_toJson (heldBack : Bool) :
    ∀ p : Parameters, Parameters.ofJson? heldBack p.toJson = some p
  | .plain => rfl
  | .list element => by
      rw [Parameters.toJson, Parameters.ofJson?, if_neg (by decide), if_pos rfl,
        ofJson?_toJson heldBack element]
      · rfl
      · cases element <;> simp [toJson]
  | .hash key value => by
      rw [Parameters.toJson, Parameters.ofJson?, if_neg (by decide), if_neg (by decide), if_pos rfl,
        ofJson?_toJson heldBack key, ofJson?_toJson heldBack value]

@[simp] theorem itemsOfJson?_itemsToJson (heldBack : Bool) :
    ∀ items : List Alternative, itemsOfJson? heldBack (itemsToJson items) = some items
  | [] => rfl
  | a :: rest => by
      rw [itemsToJson, itemsOfJson?, Alternative.ofJson?_toJson heldBack a,
        itemsOfJson?_itemsToJson heldBack rest]

end

mutual

/-- There are no numbers in types. -/
@[simp] theorem isPlain_toJson (fits : Nat → Bool) : ∀ t : TypeExpr, t.toJson.isPlain fits = true
  | .undefined => rfl
  | .union items => by
      simp [toJson, Json.isPlain, Json.allMembersPlain, allPlain_itemsToJson fits items]

@[simp] theorem Alternative.isPlain_toJson (fits : Nat → Bool) :
    ∀ a : Alternative, a.toJson.isPlain fits = true
  | .mk name parameters => by
      simp [Alternative.toJson, Json.isPlain, Json.allMembersPlain,
        Parameters.isPlain_toJson fits parameters]

@[simp] theorem Parameters.isPlain_toJson (fits : Nat → Bool) :
    ∀ p : Parameters, p.toJson.isPlain fits = true
  | .plain => rfl
  | .list element => by
      simp [Parameters.toJson, Json.isPlain, Json.allMembersPlain, isPlain_toJson fits element]
  | .hash key value => by
      simp [Parameters.toJson, Json.isPlain, Json.allMembersPlain, Json.allPlain,
        isPlain_toJson fits key, isPlain_toJson fits value]

@[simp] theorem allPlain_itemsToJson (fits : Nat → Bool) :
    ∀ items : List Alternative, Json.allPlain fits (itemsToJson items) = true
  | [] => rfl
  | a :: rest => by
      rw [itemsToJson, Json.allPlain, Alternative.isPlain_toJson fits a,
        allPlain_itemsToJson fits rest]
      rfl

end

end TypeExpr

/-! ## Pins -/

theorem ContainerPin.ofJson?_members (p : ContainerPin) :
    ContainerPin.ofJson? (.object p.members) = some p := by
  rw [ContainerPin.ofJson?, ContainerPin.members, Json.fields?_object]
  · simp [Json.string?]
  · rfl
  · decide

theorem MethodPin.ofJson?_members (p : MethodPin) :
    MethodPin.ofJson? (.object p.members) = some p := by
  rw [MethodPin.ofJson?, MethodPin.members, Json.fields?_object]
  · simp [Json.string?]
  · rfl
  · decide

theorem VariablePin.ofJson?_members (v : VariablePin) :
    VariablePin.ofJson? (.object v.members) = some v := by
  rw [VariablePin.ofJson?, VariablePin.members, Json.fields?_object]
  · simp [Json.string?]
  · rfl
  · decide

theorem LocalPin.ofJson?_members (p : LocalPin) :
    LocalPin.ofJson? (.object p.members) = some p := by
  rw [LocalPin.ofJson?, LocalPin.members, Json.fields?_object]
  · simp [VariablePin.ofJson?_members]
  · rfl
  · decide

theorem Pin.ofRecord?_members (p : Pin) :
    Pin.ofRecord? p.kind.word (.object p.members) = some p := by
  cases p with
  | container p => exact congrArg (Option.map Pin.container) p.ofJson?_members
  | method p => exact congrArg (Option.map Pin.method) p.ofJson?_members
  | localVariable p => exact congrArg (Option.map Pin.localVariable) p.ofJson?_members
  | instanceVariable v => exact congrArg (Option.map Pin.instanceVariable) v.ofJson?_members
  | classVariable v => exact congrArg (Option.map Pin.classVariable) v.ofJson?_members
  | globalVariable v => exact congrArg (Option.map Pin.globalVariable) v.ofJson?_members
  | constant v => exact congrArg (Option.map Pin.constant) v.ofJson?_members

def Pin.fits (fits : Nat → Bool) (p : Pin) : Bool :=
  p.location.all (Range.fits fits) && p.localPin?.all fun l => l.presence.fits fits

theorem Range.isPlain_ofOption
    {fits : Nat → Bool} (location : Option Range) (h : location.all (Range.fits fits) = true) :
    (Json.ofOption Range.toJson location).isPlain fits = true := by
  apply Json.isPlain_ofOption
  rintro r rfl
  rw [Range.isPlain_toJson]
  exact h

theorem VariablePin.allPlain_members
    {fits : Nat → Bool} {v : VariablePin} (h : v.location.all (Range.fits fits) = true) :
    Json.allMembersPlain fits v.members = true := by
  simp [VariablePin.members, Json.allMembersPlain, Json.isPlain,
    Range.isPlain_ofOption v.location h, Json.classes_of_ofOption_string]

theorem Pin.allPlain_members {fits : Nat → Bool} {p : Pin} (hp : p.fits fits = true) :
    Json.allMembersPlain fits p.members = true := by
  rw [Pin.fits, Bool.and_eq_true] at hp
  obtain ⟨hlocation, hpresence⟩ := hp
  cases p with
  | container p =>
      simp [Pin.members, ContainerPin.members, Json.allMembersPlain, Json.isPlain,
        Range.isPlain_ofOption p.location hlocation]
  | method p =>
      simp [Pin.members, MethodPin.members, Json.allMembersPlain, Json.isPlain,
        Range.isPlain_ofOption p.location hlocation, Json.classes_of_ofStrings]
  | localVariable p =>
      have hpresence : p.presence.fits fits = true := hpresence
      simp [Pin.members, LocalPin.members, Json.allMembersPlain, Json.isPlain,
        VariablePin.allPlain_members (v := p.declaration) hlocation, hpresence]
  | instanceVariable v => exact v.allPlain_members hlocation
  | classVariable v => exact v.allPlain_members hlocation
  | globalVariable v => exact v.allPlain_members hlocation
  | constant v => exact v.allPlain_members hlocation

theorem Pin.isPlain_toJson {fits : Nat → Bool} {p : Pin} (hp : p.fits fits = true) :
    p.toJson.isPlain fits = true := by
  rw [Pin.toJson, Json.isPlain, Json.allMembersPlain, allPlain_members hp]
  rfl

theorem Pin.isReadable_toJson (p : Pin) : p.toJson.isReadable = true := by
  have hrange : Range.fits (fun _ => true) = fun _ => true := rfl
  have hp : p.fits (fun _ => true) = true := by simp [Pin.fits, hrange]
  exact Json.isReadable_of_isPlain p.toJson (Pin.isPlain_toJson hp)

theorem Pin.keys_members (p : Pin) : "pin" ∉ p.members.map Prod.fst := by
  cases p with
  | container p => simp [Pin.members, ContainerPin.members]
  | method p => simp [Pin.members, MethodPin.members]
  | localVariable p => simp [Pin.members, LocalPin.members]
  | instanceVariable v | classVariable v | globalVariable v | constant v =>
      simp [Pin.members, VariablePin.members]

theorem Pin.ofJson?_toJson (p : Pin) : Pin.ofJson? p.toJson = some p := by
  have hkind : Json.field? "pin" (("pin", Json.string p.kind.word) :: p.members) =
      some (some (.string p.kind.word)) := by
    rw [Json.field?, List.filter_cons_of_pos rfl, Json.filter_key_of_not_mem p.keys_members]
  have hrest : (("pin", Json.string p.kind.word) :: p.members).filter (·.1 != "pin") =
      p.members := by
    rw [List.filter_cons_of_neg (by simp), List.filter_eq_self]
    intro m hm
    have hother : m.1 ≠ "pin" := fun heq => p.keys_members (heq ▸ List.mem_map_of_mem hm)
    exact bne_iff_ne.2 hother
  have hreadable := p.isReadable_toJson
  rw [Pin.toJson] at hreadable ⊢
  simp only [Pin.ofJson?]
  rw [if_pos hreadable, hkind, hrest]
  exact p.ofRecord?_members

/-! ## Fragments and settings -/

theorem Fragment.ofJson?_toJson (f : Fragment) : Fragment.ofJson? f.toJson = some f := by
  rw [Fragment.ofJson?, Fragment.toJson, Json.fields?_object]
  · change (Scope.ofJson? false f.scope.toJson).bind (fun scope =>
      (Range.ofJson? f.wordRange.toJson).bind fun wordRange =>
      (Range.ofJson? f.wholeWordRange.toJson).bind fun wholeWordRange =>
      (Json.ofStrings f.visibleLocals).strings?.bind fun visibleLocals =>
      some { f with scope, wordRange, wholeWordRange, visibleLocals }) = some f
    rw [Scope.ofJson?_toJson, Range.ofJson?_toJson, Range.ofJson?_toJson, Json.strings?_ofStrings]
    rfl
  · rfl
  · decide

theorem Fragment.toJson_injective : Function.Injective Fragment.toJson :=
  Json.injective_of_decode Fragment.ofJson? Fragment.ofJson?_toJson

def Fragment.fits (fits : Nat → Bool) (f : Fragment) : Bool :=
  fits f.offset && fits f.signatureStart && f.wordRange.fits fits && f.wholeWordRange.fits fits

theorem Fragment.isPlain_toJson {fits : Nat → Bool} {f : Fragment} (hf : f.fits fits = true) :
    f.toJson.isPlain fits = true := by
  simp only [Fragment.fits, Bool.and_eq_true] at hf
  simp [Fragment.toJson, Json.isPlain, Json.allMembersPlain, Json.classes_of_ofStrings, hf]

theorem Fragment.depth_toJson (f : Fragment) : f.toJson.depth = 2 := by
  simp [Fragment.toJson, Json.depth, Json.depthOfMembers,
    (Json.classes_of_ofStrings (fun _ => true) f.visibleLocals).2]

theorem LogSettings.ofJson?_toJson (l : LogSettings) : LogSettings.ofJson? l.toJson = some l := by
  rw [LogSettings.ofJson?, LogSettings.toJson, Json.fieldsOrDefaults?_object]
  · simp [Json.string?, Json.bool?, Json.default?]
  · rfl
  · decide

theorem Settings.ofJson?_toJson (s : Settings) : Settings.ofJson? s.toJson = some s := by
  rw [Settings.ofJson?, Settings.toJson, Json.fieldsOrDefaults?_object]
  · simp [LogSettings.ofJson?_toJson, Json.default?]
  · rfl
  · decide

theorem Settings.isPlain_toJson (fits : Nat → Bool) (s : Settings) :
    s.toJson.isPlain fits = true := by
  simp [Settings.toJson, LogSettings.toJson, Json.isPlain, Json.allMembersPlain,
    Json.classes_of_ofOption_string]

theorem Settings.depth_toJson (s : Settings) : s.toJson.depth = 2 := by
  simp [Settings.toJson, LogSettings.toJson, Json.depth, Json.depthOfMembers,
    (Json.classes_of_ofOption_string (fun _ => true) _).2]

end Caret
