import RequestCompiler.Stored.Request
import Mathlib.Data.List.Nodup

/-!
# Stored requests in other words

Whoever stores a request may write the fields of its objects in any order, add fields that mean
nothing to it, and leave out those that hold their default. `Document.RestatedAs` allows all of this
at once, in every object of a document.

* `RestatedAs.of_object` — each field of an object is found in what the object is restated as, or it
  holds its default and is missing.
* `Token.decodeAt?_restated` — a token is read from whatever its stored form is restated as.
* `Request.decode?_restated` — and so is a request.
-/

namespace RequestCompiler

open Document (Place textField? flagField? typeField?)
open OrderedMap (lookup_cons_ite lookup_append lookup_eq_none)

namespace Document

/-- The fields that may be left out, with the values that they have then. -/
def omissible : List (String × Document) :=
  [("args", .array []), ("has_zero", .boolean false), ("is_contextual", .boolean false)]

mutual
/--
Whether a document becomes another one if fields of its objects, at any depth, are put in another
order, are added under keys that the object does not have, or are left out where they hold their
default.
-/
inductive RestatedAs : Document → Document → Prop where
  | same (d : Document) : RestatedAs d d
  | array {items items' : List Document} (h : ItemsRestatedAs items items') :
      RestatedAs (.array items) (.array items')
  | object {fields kept further fields' : List (String × Document)}
      (hkept : FieldsRestatedAs fields kept)
      (hfurther : ∀ field ∈ further, field.1 ∉ fields.map Prod.fst)
      (horder : fields'.Perm (kept ++ further)) : RestatedAs (.object fields) (.object fields')

/-- Whether the items of an array become others one by one. -/
inductive ItemsRestatedAs : List Document → List Document → Prop where
  | nil : ItemsRestatedAs [] []
  | cons {item item' : Document} {items items' : List Document} (h : RestatedAs item item')
      (hrest : ItemsRestatedAs items items') : ItemsRestatedAs (item :: items) (item' :: items')

/-- Whether fields become others one by one, and those left out hold their default. -/
inductive FieldsRestatedAs :
    List (String × Document) → List (String × Document) → Prop where
  | nil : FieldsRestatedAs [] []
  | keep {key : String} {value value' : Document} {fields kept : List (String × Document)}
      (h : RestatedAs value value') (hrest : FieldsRestatedAs fields kept) :
      FieldsRestatedAs ((key, value) :: fields) ((key, value') :: kept)
  | leave {field : String × Document} {fields kept : List (String × Document)}
      (h : field ∈ omissible) (hrest : FieldsRestatedAs fields kept) :
      FieldsRestatedAs (field :: fields) kept
end

/-! ## Arrays and fields -/

theorem ItemsRestatedAs.refl : (items : List Document) → ItemsRestatedAs items items
  | [] => .nil
  | item :: items => .cons (.same item) (refl items)

theorem FieldsRestatedAs.refl : (fields : List (String × Document)) → FieldsRestatedAs fields fields
  | [] => .nil
  | (_, value) :: fields => .keep (.same value) (refl fields)

theorem RestatedAs.of_array {items : List Document} {d : Document}
    (h : (Document.array items).RestatedAs d) :
    ∃ items', d = .array items' ∧ ItemsRestatedAs items items' := by
  cases h with
  | same => exact ⟨items, rfl, .refl items⟩
  | array h => exact ⟨_, rfl, h⟩

theorem RestatedAs.of_text {value : String} {d : Document} (h : (Document.text value).RestatedAs d) :
    d = .text value := by
  cases h with
  | same => rfl

theorem RestatedAs.of_boolean {value : Bool} {d : Document}
    (h : (Document.boolean value).RestatedAs d) : d = .boolean value := by
  cases h with
  | same => rfl

/-- No field gets another key, or another place among those that are kept. -/
theorem FieldsRestatedAs.keys_sublist {fields kept : List (String × Document)}
    (h : FieldsRestatedAs fields kept) : (kept.map Prod.fst).Sublist (fields.map Prod.fst) := by
  induction fields generalizing kept with
  | nil =>
    cases h
    exact .slnil
  | cons field fields ih =>
    cases h with
    | keep h hrest => exact (ih hrest).cons_cons _
    | leave h hrest => exact (ih hrest).cons _

/-- What is found for a field in other words: its value in other words, or nothing for a default. -/
def FoundAs (field : String × Document) (found : Option Document) : Prop :=
  (∃ value, found = some value ∧ field.2.RestatedAs value) ∨ (field ∈ omissible ∧ found = none)

theorem FieldsRestatedAs.foundAs {fields kept : List (String × Document)}
    (h : FieldsRestatedAs fields kept) (hnodup : (fields.map Prod.fst).Nodup) :
    ∀ field ∈ fields, FoundAs field (kept.lookup field.1) := by
  induction fields generalizing kept with
  | nil => exact fun _ hfield => by cases hfield
  | cons first fields ih =>
    rw [List.map_cons, List.nodup_cons] at hnodup
    obtain ⟨hfirst, hnodup⟩ := hnodup
    cases h with
    | @keep key value value' _ kept h hrest =>
      refine List.forall_mem_cons.mpr ⟨.inl ⟨value', ?_, h⟩, fun field hfield => ?_⟩
      · rw [lookup_cons_ite, if_pos rfl]
      · have hkey : key ∉ fields.map Prod.fst := hfirst
        have hother : field.1 ≠ key := fun heq => hkey (heq ▸ List.mem_map_of_mem hfield)
        rw [lookup_cons_ite, if_neg hother]
        exact ih hrest hnodup field hfield
    | leave h hrest =>
      refine List.forall_mem_cons.mpr ⟨.inr ⟨h, ?_⟩, ih hrest hnodup⟩
      exact lookup_eq_none.mpr fun hkey => hfirst (hrest.keys_sublist.subset hkey)

/-! ## Objects -/

/-- The order of fields plays no part in looking up a key that occurs once. -/
theorem lookup_perm {fields fields' : List (String × Document)} {key : String}
    (h : fields.Perm fields') (honce : (fields.map Prod.fst).count key ≤ 1) :
    fields.lookup key = fields'.lookup key := by
  induction h with
  | nil => rfl
  | cons field h ih =>
    rw [List.map_cons, List.count_cons] at honce
    rw [lookup_cons_ite, lookup_cons_ite, ih (by omega)]
  | swap first second fields =>
    simp only [List.map_cons, List.count_cons, beq_iff_eq] at honce
    simp only [lookup_cons_ite]
    by_cases hfirst : key = first.1
    · by_cases hsecond : key = second.1
      · rw [if_pos hfirst.symm, if_pos hsecond.symm] at honce
        omega
      · rw [if_neg hsecond, if_pos hfirst, if_pos hfirst]
    · rw [if_neg hfirst, if_neg hfirst]
  | trans h h' ih ih' =>
    rw [ih honce, ih' ((h.map Prod.fst).count_eq key ▸ honce)]

/-- Each field of an object is found in what the object is restated as, unless it was left out. -/
theorem RestatedAs.of_object {fields : List (String × Document)} {d : Document}
    (h : (Document.object fields).RestatedAs d) (hnodup : (fields.map Prod.fst).Nodup) :
    ∃ fields', d = .object fields' ∧ ∀ field ∈ fields, FoundAs field (fields'.lookup field.1) := by
  cases h with
  | same => exact ⟨fields, rfl, (FieldsRestatedAs.refl fields).foundAs hnodup⟩
  | @object _ kept further fields' hkept hfurther horder =>
    refine ⟨fields', rfl, fun field hfield => ?_⟩
    have hkey : field.1 ∉ further.map Prod.fst := by
      rw [List.mem_map]
      rintro ⟨other, hother, heq⟩
      exact hfurther other hother (heq ▸ List.mem_map_of_mem hfield)
    -- only one of the kept fields can have the key, and none of the further ones
    have honce : ((kept ++ further).map Prod.fst).count field.1 ≤ 1 := by
      rw [List.map_append, List.count_append, List.count_eq_zero_of_not_mem hkey, Nat.add_zero]
      exact List.nodup_iff_count_le_one.mp (hnodup.sublist hkept.keys_sublist) field.1
    rw [← lookup_perm horder.symm honce, lookup_append, lookup_eq_none.mpr hkey, Option.or_none]
    exact hkept.foundAs hnodup field hfield

/-! ## Fields -/

section Fields

variable {fields : List (String × Document)} {key : String}

theorem FoundAs.lookup_text {value : String} (h : FoundAs (key, .text value) (fields.lookup key)) :
    fields.lookup key = some (.text value) := by
  rcases h with ⟨d, hfound, h⟩ | ⟨h, -⟩
  · rw [hfound, h.of_text]
  · simp [omissible] at h

theorem FoundAs.textField? {value : String} (h : FoundAs (key, .text value) (fields.lookup key)) :
    textField? fields key = some value := by
  rw [Document.textField?, h.lookup_text]
  rfl

theorem FoundAs.typeField? {place : Place} {type : ValueType}
    (h : FoundAs (key, type.encode) (fields.lookup key)) :
    typeField? place fields key = some type := by
  rw [Document.typeField?, h.lookup_text]
  exact type.decodeAt?_encode place

theorem FoundAs.flagField? {value : Bool} (h : FoundAs (key, .boolean value) (fields.lookup key)) :
    flagField? fields key false = some value := by
  rcases h with ⟨d, hfound, h⟩ | ⟨h, hfound⟩
  · rw [Document.flagField?, hfound, h.of_boolean]
    rfl
  · have hvalue : value = false := by
      simp only [omissible, List.mem_cons, Prod.mk.injEq, boolean.injEq, reduceCtorEq, and_false,
        List.not_mem_nil, or_false, false_or] at h
      exact h.elim (·.2) (·.2)
    rw [Document.flagField?, hfound, hvalue]

/-- Only the arguments of a call are an array that may be missing. -/
theorem FoundAs.lookup_array {items : List Document}
    (h : FoundAs (key, .array items) (fields.lookup key)) :
    (∃ items', fields.lookup key = some (.array items') ∧ ItemsRestatedAs items items') ∨
      key = "args" ∧ items = [] ∧ fields.lookup key = none := by
  rcases h with ⟨d, hfound, h⟩ | ⟨h, hfound⟩
  · obtain ⟨items', rfl, hitems⟩ := h.of_array
    exact .inl ⟨items', hfound, hitems⟩
  · have hdefault : key = "args" ∧ items = [] := by
      simpa [omissible] using h
    exact .inr ⟨hdefault.1, hdefault.2, hfound⟩

end Fields

end Document

open Document

/-! ## Tokens without requests of their own -/

section Records

variable {fields : List (String × Document)}

theorem Property.decode?_restated {p : Property}
    (h : ∀ field ∈ p.encodeFields, FoundAs field (fields.lookup field.1)) :
    Property.decode? (.object fields) = some p := by
  simp only [Property.encodeFields, List.forall_mem_cons] at h
  obtain ⟨htable, hexpression, htype, hzero, -⟩ := h
  simp [Property.decode?, recordFields?, htable.textField?, hexpression.textField?,
    htype.typeField?, hzero.flagField?]

theorem JoinEdge.decode?_restated {e : JoinEdge}
    (h : ∀ field ∈ e.encodeFields, FoundAs field (fields.lookup field.1)) :
    JoinEdge.decode? (.object fields) = some e := by
  simp only [JoinEdge.encodeFields, List.forall_mem_cons] at h
  obtain ⟨htable, hcondition, hcontextual, -⟩ := h
  simp [JoinEdge.decode?, recordFields?, htable.textField?, hcondition.textField?,
    hcontextual.flagField?]

theorem TableScan.decode?_restated {s : TableScan}
    (h : ∀ field ∈ s.encodeFields, FoundAs field (fields.lookup field.1)) :
    TableScan.decode? (.object fields) = some s := by
  simp only [TableScan.encodeFields, List.forall_mem_cons] at h
  obtain ⟨htable, hidentifier, hzero, -⟩ := h
  simp [TableScan.decode?, recordFields?, htable.textField?, hidentifier.textField?,
    hzero.flagField?]

/-- The tag is read wherever it stands among the fields. -/
theorem Document.FoundAs.kind {place : Place} {name : String}
    (h : FoundAs ("kind", .text name) (fields.lookup "kind")) :
    (fields.lookup "kind").bind (TokenKind.decode? place) = TokenKind.stored.lookup name := by
  rw [h.lookup_text, Option.bind_some]
  cases place <;> rfl

end Records

/-! ## Tokens and requests -/

mutual
/-- A token is read from whatever its stored form is restated as, wherever it stands. -/
theorem Token.decodeAt?_restated (place : Place) : (t : Token) → ∀ {d : Document},
    t.encode.RestatedAs d → Token.decodeAt? place d = some t
  | .call name arguments, d, h => by
    rw [Token.encode] at h
    obtain ⟨fields, rfl, hfields⟩ := h.of_object (by simp)
    simp only [List.forall_mem_cons] at hfields
    obtain ⟨hkind, hname, harguments, -⟩ := hfields
    have hread : Token.argumentsIn? fields = some arguments := by
      rw [Token.argumentsIn?_eq]
      rcases harguments.lookup_array with ⟨items, hfound, hitems⟩ | ⟨-, hnone, hfound⟩
      · simp only [hfound, Token.decodeArguments?]
        exact Token.decodeArgumentList?_restated arguments hitems
      · -- the arguments are left out only where there are none
        cases arguments with
        | nil => simp only [hfound]
        | cons _ _ => cases hnone
    have hcall : TokenKind.stored.lookup "function" = some .call := rfl
    rw [Token.decodeAt?, hkind.kind, hcall]
    simp [hname.textField?, hread]
  | .read property, d, h => by
    rw [Token.encode] at h
    obtain ⟨fields, rfl, hfields⟩ := h.of_object (by simp [Property.encodeFields])
    obtain ⟨hkind, hrest⟩ := List.forall_mem_cons.mp hfields
    have hread : TokenKind.stored.lookup "value" = some .read := rfl
    rw [Token.decodeAt?, hkind.kind, hread]
    simp [Token.decodeFlat?, Property.decode?_restated hrest]
  | .parameter name, d, h => by
    rw [Token.encode] at h
    obtain ⟨fields, rfl, hfields⟩ := h.of_object (by simp)
    simp only [List.forall_mem_cons] at hfields
    obtain ⟨hkind, hname, -⟩ := hfields
    have hparameter : TokenKind.stored.lookup "parameter" = some .parameter := rfl
    rw [Token.decodeAt?, hkind.kind, hparameter]
    simp [Token.decodeFlat?, recordFields?, hname.textField?]
  | .join edge, d, h => by
    rw [Token.encode] at h
    obtain ⟨fields, rfl, hfields⟩ := h.of_object (by simp [JoinEdge.encodeFields])
    obtain ⟨hkind, hrest⟩ := List.forall_mem_cons.mp hfields
    have hjoin : TokenKind.stored.lookup "join" = some .join := rfl
    rw [Token.decodeAt?, hkind.kind, hjoin]
    simp [Token.decodeFlat?, JoinEdge.decode?_restated hrest]
  | .table scan, d, h => by
    rw [Token.encode] at h
    obtain ⟨fields, rfl, hfields⟩ := h.of_object (by simp [TableScan.encodeFields])
    obtain ⟨hkind, hrest⟩ := List.forall_mem_cons.mp hfields
    have htable : TokenKind.stored.lookup "table" = some .table := rfl
    rw [Token.decodeAt?, hkind.kind, htable]
    simp [Token.decodeFlat?, TableScan.decode?_restated hrest]
  | .assignments pairs, d, h => by
    rw [Token.encode] at h
    obtain ⟨fields, rfl, hfields⟩ := h.of_object (by simp)
    simp only [List.forall_mem_cons] at hfields
    obtain ⟨hkind, hpairs, -⟩ := hfields
    have hassignments : TokenKind.stored.lookup "assignment_list" = some .assignments := rfl
    rw [Token.decodeAt?, hkind.kind, hassignments, Token.pairsIn?_eq]
    rcases hpairs.lookup_array with ⟨items, hfound, hitems⟩ | ⟨hkey, -, -⟩
    · simp [hfound, Token.decodePairs?, Token.decodePairList?_restated pairs hitems]
    · simp at hkey
termination_by structural t => t

/-- So are the tokens of a request. -/
theorem Token.decodeList?_restated (place : Place) : (ts : List Token) → ∀ {items : List Document},
    ItemsRestatedAs (Token.encodeList ts) items → Token.decodeList? place items = some ts
  | [], items, h => by
    cases h
    rfl
  | t :: ts, items, h => by
    cases h with
    | cons h hrest =>
      rw [Token.decodeList?, Token.decodeAt?_restated place t h,
        Token.decodeList?_restated place ts hrest]
      rfl
termination_by structural ts => ts

/-- So are the arguments of a call. -/
theorem Token.decodeArgumentList?_restated : (arguments : List (List Token)) →
    ∀ {items : List Document}, ItemsRestatedAs (Token.encodeArguments arguments) items →
      Token.decodeArgumentList? items = some arguments
  | [], items, h => by
    cases h
    rfl
  | argument :: rest, items, h => by
    cases h with
    | cons h hrest =>
      obtain ⟨tokens, rfl, htokens⟩ := h.of_array
      rw [Token.decodeArgumentList?, Token.decodeRequest?,
        Token.decodeList?_restated .inside argument htokens,
        Token.decodeArgumentList?_restated rest hrest]
      rfl
termination_by structural arguments => arguments

/-- So are assigned pairs. -/
theorem Token.decodePairList?_restated : (pairs : List (Assignment (List Token))) →
    ∀ {items : List Document}, ItemsRestatedAs (Token.encodePairs pairs) items →
      Token.decodePairList? items = some pairs
  | [], items, h => by
    cases h
    rfl
  | ⟨property, value⟩ :: rest, items, h => by
    cases h with
    | cons h hrest =>
      obtain ⟨fields, rfl, hfields⟩ := h.of_object (by simp)
      simp only [List.forall_mem_cons] at hfields
      obtain ⟨hproperty, hvalue, -⟩ := hfields
      rcases hproperty.lookup_array with ⟨first, hfirst, hproperty⟩ | ⟨hkey, -, -⟩
      · rcases hvalue.lookup_array with ⟨second, hsecond, hvalue⟩ | ⟨hkey, -, -⟩
        · simp [Token.decodePairList?, Token.decodePair?, Token.requestIn?_eq, hfirst, hsecond,
            Token.decodeRequest?, Token.decodeList?_restated .inside property hproperty,
            Token.decodeList?_restated .inside value hvalue,
            Token.decodePairList?_restated rest hrest]
        · simp at hkey
      · simp at hkey
termination_by structural pairs => pairs
end

/-- A request is read from its stored form, and from whatever this is restated as. -/
theorem Request.decode?_encode_restated (r : Request) :
    Request.decode? r.encode = some r ∧ ∀ d, r.encode.RestatedAs d → Request.decode? d = some r := by
  have hread : ∀ d, r.encode.RestatedAs d → Request.decode? d = some r := by
    intro d h
    obtain ⟨items, rfl, hitems⟩ := h.of_array
    rw [Request.decode?, Token.decodeRequest?]
    exact Token.decodeList?_restated .outside r hitems
  exact ⟨hread _ (.same _), hread⟩

/-- Adults only, and the age of each is set to a parameter. -/
def adultsSetAge : Request :=
  [.call "filter" [[.read ⟨"people", "adult", .boolean, false⟩]], .call "fork" [],
    .assignments [⟨[.read ⟨"people", "age", .integer, true⟩], [.parameter "age"]⟩]]

/-- Its stored form with the fields in reverse order, defaults left out and two notes added. -/
def adultsSetAgeRestated : Document :=
  .array
    [.object [("note", .text "adults only"),
      ("args", .array [.array [.object [("type", .text "boolean"), ("expression", .text "adult"),
        ("table", .text "people"), ("kind", .text "value")]]]),
      ("name", .text "filter"), ("kind", .text "function")],
    .object [("name", .text "fork"), ("kind", .text "function")],
    .object [("pairs", .array [.object [("note", .null),
        ("value", .array [.object [("name", .text "age"), ("kind", .text "parameter")]]),
        ("property", .array [.object [("has_zero", .boolean true), ("type", .text "integer"),
          ("expression", .text "age"), ("table", .text "people"), ("kind", .text "value")]])]]),
      ("kind", .text "assignment_list")]]

theorem adultsSetAge_encode_restated :
    adultsSetAge.encode.RestatedAs adultsSetAgeRestated ∧
      Request.decode? adultsSetAgeRestated = some adultsSetAge := by
  have hadult : (Token.read ⟨"people", "adult", .boolean, false⟩).encode.RestatedAs
      (.object [("type", .text "boolean"), ("expression", .text "adult"),
        ("table", .text "people"), ("kind", .text "value")]) :=
    @RestatedAs.object _ _ [] _ (.keep (.same _) (.keep (.same _) (.keep (.same _) (.keep (.same _)
      (.leave (by simp [omissible]) .nil))))) nofun (List.reverse_perm [_, _, _, _])
  have hfork : (Token.call "fork" []).encode.RestatedAs
      (.object [("name", .text "fork"), ("kind", .text "function")]) :=
    @RestatedAs.object _ _ [] _ (.keep (.same _) (.keep (.same _)
      (.leave (by simp [omissible, Token.encodeArguments]) .nil))) nofun (List.reverse_perm [_, _])
  have hage : (Token.read ⟨"people", "age", .integer, true⟩).encode.RestatedAs
      (.object [("has_zero", .boolean true), ("type", .text "integer"),
        ("expression", .text "age"), ("table", .text "people"), ("kind", .text "value")]) :=
    @RestatedAs.object _ _ [] _ (.refl _) nofun (List.reverse_perm [_, _, _, _, _])
  have hvalue : (Token.parameter "age").encode.RestatedAs
      (.object [("name", .text "age"), ("kind", .text "parameter")]) :=
    @RestatedAs.object _ _ [] _ (.refl _) nofun (List.reverse_perm [_, _])
  have h : adultsSetAge.encode.RestatedAs adultsSetAgeRestated := by
    refine .array (.cons ?_ (.cons hfork (.cons ?_ .nil)))
    · exact @RestatedAs.object _ _ [("note", .text "adults only")] _ (.keep (.same _)
        (.keep (.same _) (.keep (.array (.cons (.array (.cons hadult .nil)) .nil)) .nil)))
        (by simp) (List.reverse_perm [_, _, _, _])
    · refine @RestatedAs.object _ _ [] _ (.keep (.same _) (.keep (.array (.cons ?_ .nil)) .nil))
        nofun (List.reverse_perm [_, _])
      exact @RestatedAs.object _ _ [("note", .null)] _ (.keep (.array (.cons hage .nil))
        (.keep (.array (.cons hvalue .nil)) .nil)) (by simp) (List.reverse_perm [_, _, _])
  exact ⟨h, (Request.decode?_encode_restated adultsSetAge).2 _ h⟩

end RequestCompiler
