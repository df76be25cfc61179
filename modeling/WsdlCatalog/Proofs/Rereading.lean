/-
  WsdlCatalog.Proofs.Rereading — what was read once is read again from what it is written as.

  Readers fill in defaults, take bounds in several forms and options under several names, and
  look members up by name; so what is written is mostly not what was read. But nothing that a
  reader makes of data is written like another: its kinds are those that names stand for, data
  of another form were kept for not having the form, and a member that was found by a name is
  found by that name again.

  Proved: a catalog that was read from any data is read again from what it is written as, and
  what it is written as does not change any more (`Catalog.rereads`).
-/

import WsdlCatalog.Proofs.Extension
import WsdlCatalog.Proofs.Restoring

namespace WsdlCatalog

def IsRead {α : Type} (read : Json → Reading α) (a : α) : Prop := ∃ j, read j = .ok a

/-! ## Parts of what is read -/

theorem exists_of_mapM {ε α β : Type} {f : α → Except ε β} {xs : List α} {ys : List β}
    (h : xs.mapM f = .ok ys) : ∀ y ∈ ys, ∃ x ∈ xs, f x = .ok y := by
  induction xs generalizing ys with
  | nil =>
    cases h
    exact nofun
  | cons x rest ih =>
    rw [List.mapM_cons] at h
    obtain ⟨y, hy, h⟩ := ok_bind.mp h
    obtain ⟨ys, hys, h⟩ := ok_bind.mp h
    cases h
    refine List.forall_mem_cons.mpr ⟨⟨x, List.mem_cons_self, hy⟩, fun z hz => ?_⟩
    obtain ⟨w, hw, hz⟩ := ih hys z hz
    exact ⟨w, List.mem_cons_of_mem _ hw, hz⟩

namespace Json

variable {α : Type} {read : Json → Reading α} {j : Json} {key : String}

theorem isRead_of_readList {xs : List α} (h : readList read j = .ok xs) : ∀ x ∈ xs, IsRead read x := by
  obtain ⟨items, -, h⟩ := ok_bind.mp h
  intro x hx
  obtain ⟨item, -, hi⟩ := exists_of_mapM h x hx
  exact ⟨item, hi⟩

theorem isRead_of_readTable {entries : List (String × α)} (h : readTable read j = .ok entries) :
    ∀ x ∈ entries, IsRead read x.2 := by
  cases j with
  | obj members =>
    intro x hx
    obtain ⟨m, -, hm⟩ := exists_of_mapM h x hx
    obtain ⟨value, hv, hm⟩ := ok_bind.mp hm
    cases hm
    exact ⟨m.2, hv⟩
  | null | bool | int | real | str | arr => cases h

/-- What is read from an optional value is not made of null. -/
theorem isRead_of_readOptional {x : Option α} (h : readOptional read j = .ok x) :
    ∀ a ∈ x, ∃ v, v ≠ null ∧ read v = .ok a := by
  unfold readOptional at h
  split at h
  · cases h
    exact nofun
  · rename_i notNull
    obtain ⟨a, ha, h⟩ := ok_bind.mp h
    cases h
    intro _ made
    cases made
    exact ⟨j, notNull, ha⟩

theorem isRead_of_fieldOr {default a : α} (h : j.fieldOr key default read = .ok a) :
    a = default ∨ IsRead read a := by
  unfold fieldOr at h
  split at h
  · split at h
    · exact .inr ⟨_, h⟩
    · cases h
      exact .inl rfl
  · cases h

theorem isRead_of_fieldOptional {x : Option α} (h : j.fieldOptional key read = .ok x) :
    ∀ a ∈ x, ∃ v, v ≠ null ∧ read v = .ok a := by
  rcases isRead_of_fieldOr h with rfl | ⟨v, hv⟩
  · exact nofun
  · exact isRead_of_readOptional hv

/-- The entries of a list that may be missing. -/
theorem isRead_of_listField {xs : List α} (h : j.fieldOr key [] (readList read) = .ok xs) :
    ∀ x ∈ xs, IsRead read x := by
  rcases isRead_of_fieldOr h with rfl | ⟨_, h⟩
  · exact nofun
  · exact isRead_of_readList h

end Json

namespace Loose

variable {α : Type} {read? : Json → Option α} {write : α → Json}

theorem faithful_ofJson (h : ∀ j a, read? j = some a → write a = j) (j : Json) :
    (ofJson read? j).Faithful read? write := by
  rw [Faithful, toJson_ofJson h]

theorem faithful_own {a : α} (h : read? (write a) = some a) :
    (own a).Faithful read? write := by
  rw [Faithful, toJson, ofJson, h]

/-- A value that may be missing, with a default of the form that is asked for. -/
theorem faithful_getD (h : ∀ j a, read? j = some a → write a = j) {default : α}
    (hd : read? (write default) = some default) (field : Option Json) :
    ((field.map (ofJson read?)).getD (own default)).Faithful read? write := by
  cases field with
  | none => exact faithful_own hd
  | some j => exact faithful_ofJson h j

/-- A text that is not read from null is not written as null. -/
theorem named_of_isRead {name : Loose String}
    (h : ∃ v : Json, v ≠ .null ∧ (.ok v.readLooseText : Reading (Loose String)) = .ok name) :
    name.Faithful Json.str? .str ∧ name.toJson .str ≠ .null := by
  obtain ⟨v, notNull, h⟩ := h
  cases h
  refine ⟨faithful_ofJson (fun _ _ => Json.str_str?) v, ?_⟩
  rw [Json.readLooseText, toJson_ofJson fun _ _ => Json.str_str?]
  exact notNull

end Loose

/-! ## Entries -/

theorem TypeRef.canonical_of_isRead {ref : TypeRef} (h : IsRead ofJson ref) : ref.Canonical := by
  obtain ⟨j, h⟩ := h
  simp only [ofJson, ok_bind] at h
  obtain ⟨_, -, kind, -, _, -, _, -, scalar, -, _, -, _, -, _, -, h⟩ := h
  cases h
  exact ⟨congrArg _ (RefKind.name_ofName kind), congrArg _ (ScalarKind.name_ofName scalar)⟩

theorem Attribute.canonical_of_isRead {a : Attribute} (h : IsRead ofJson a) : a.Canonical := by
  obtain ⟨j, h⟩ := h
  simp only [ofJson, ok_bind] at h
  obtain ⟨_, -, _, -, _, -, _, -, value, -, ref, hr, use, -, h⟩ := h
  cases h
  exact ⟨TypeRef.canonical_of_isRead ⟨value, hr⟩, congrArg _ (AttributeUse.name_ofName use)⟩

theorem ScalarAlias.canonical_of_isRead {a : ScalarAlias} (h : IsRead ofJson a) : a.Canonical := by
  obtain ⟨j, h⟩ := h
  simp only [ofJson, ok_bind] at h
  obtain ⟨_, -, _, -, _, -, _, -, _, -, scalar, -, _, -, _, -, _, -, _, -, _, -, h⟩ := h
  cases h
  exact congrArg _ (ScalarKind.name_ofName scalar)

theorem Element.restores_of_isRead {e : Element} (h : IsRead ofJson e) : Restores ofJson toJson e := by
  obtain ⟨j, h⟩ := h
  simp only [ofJson, ok_bind] at h
  obtain ⟨_, -, _, -, _, -, _, -, _, -, value, -, ref, hr, min, -, _, -, _, -, _, -, h⟩ := h
  cases h
  exact restores_of (TypeRef.canonical_of_isRead ⟨value, hr⟩)
    (Loose.faithful_ofJson (fun _ _ => Json.int_int?) min)
    (Loose.faithful_getD (fun _ _ => Json.bool_bool?) rfl _)
    (Loose.faithful_getD (fun _ _ => Json.bool_bool?) rfl _)

theorem named_of_lastNamed {α : Type} {nameOf : α → String} {members : List α} {name : String} {x : α}
    (h : lastNamed nameOf members name = .ok x) : nameOf x = name := by
  unfold lastNamed at h
  split at h
  · rename_i found
    cases h
    simpa using List.find?_some found
  · cases h

/-- Members that were found by names have these names. -/
theorem names_of_mapM_lastNamed {α : Type} {nameOf : α → String} {members own : List α}
    {names : List String} (h : names.mapM (lastNamed nameOf members) = .ok own) :
    own.map nameOf = names := by
  induction names generalizing own with
  | nil =>
    cases h
    rfl
  | cons name rest ih =>
    rw [List.mapM_cons] at h
    obtain ⟨x, hx, h⟩ := ok_bind.mp h
    obtain ⟨xs, hxs, h⟩ := ok_bind.mp h
    cases h
    rw [List.map_cons, named_of_lastNamed hx, ih hxs]

theorem StructuralType.restores_of_isRead {t : StructuralType} (h : IsRead ofJson t) :
    Restores ofJson toJson t := by
  obtain ⟨j, h⟩ := h
  simp only [ofJson, ok_bind] at h
  obtain ⟨_, -, attributes, ha, _, -, elements, he, h⟩ := h
  obtain ⟨_, -, _, -, _, -, _, -, h⟩ := h
  obtain ⟨_, -, _, -, localAttributes, hla, _, -, _, -, localElements, hle, h⟩ := h
  obtain ⟨_, -, _, -, _, -, _, -, _, -, _, -, h⟩ := h
  cases h
  refine restores_of ?_ ?_ ?_ ?_
  · exact fun a ha' => Attribute.canonical_of_isRead (Json.isRead_of_readList ha a ha')
  · exact fun e he' => Element.restores_of_isRead (Json.isRead_of_readList he e he')
  · rw [names_of_mapM_lastNamed hla]
    exact hla
  · rw [names_of_mapM_lastNamed hle]
    exact hle

theorem PropertyInfo.restores_of_isRead {p : PropertyInfo} (h : IsRead ofJson p) :
    Restores ofJson toJson p := by
  obtain ⟨j, h⟩ := h
  simp only [ofJson, ok_bind] at h
  obtain ⟨_, -, _, -, min, -, _, -, _, -, nillable, -, h⟩ := h
  cases h
  exact restores (Loose.faithful_ofJson (fun _ _ => Json.int_int?) min)
    (Loose.faithful_ofJson (fun _ _ => Json.bool_bool?) nillable)

theorem Marshalling.restores_of_isRead {m : Marshalling} (h : IsRead ofJson m) :
    Restores ofJson toJson m := by
  obtain ⟨j, h⟩ := h
  simp only [ofJson, ok_bind] at h
  obtain ⟨_, -, _, -, properties, hp, h⟩ := h
  cases h
  apply restores_of
  intro x hx y hy
  rcases Json.isRead_of_fieldOr hp with rfl | ⟨_, hp⟩
  · cases hx
  · obtain ⟨_, hx⟩ := Json.isRead_of_readTable hp x hx
    exact PropertyInfo.restores_of_isRead (Json.isRead_of_readTable hx y hy)

/-! ## Options -/

namespace Options

variable {given : List (String × Json)}

theorem faithful_switch (name : String) : (switch given name).Faithful Json.bool? .bool := by
  unfold switch
  split
  · rfl
  · exact Loose.faithful_ofJson (fun _ _ => Json.bool_bool?) _

theorem faithful_attributesKeyOf {key : Loose String} (h : attributesKeyOf given = .ok key) :
    key.Faithful Json.str? .str ∧ (key.toJson .str).truthy = true := by
  unfold attributesKeyOf at h
  split at h
  · cases h
    exact ⟨rfl, by decide⟩
  · split at h
    · rename_i value _ truthy
      cases h
      refine ⟨Loose.faithful_ofJson (fun _ _ => Json.str_str?) value, ?_⟩
      rw [Loose.toJson_ofJson fun _ _ => Json.str_str?]
      exact truthy
    · cases h

theorem named_clientNameOf : ∀ name ∈ clientNameOf given,
    name.Faithful Json.str? .str ∧ name.toJson .str ≠ .null := by
  intro name hn
  unfold clientNameOf at hn
  split at hn
  · cases hn
  · cases hn
  · rename_i value notNull _
    cases hn
    exact Loose.named_of_isRead ⟨value, notNull, rfl⟩

/-- Options that were made of any data are faithful. -/
theorem faithful_ofEntries {options : Options} (h : ofEntries given = .ok options) :
    options.Faithful := by
  unfold ofEntries at h
  generalize putAll given = table at h
  dsimp only at h
  split at h
  · cases h
  · simp only [ok_bind] at h
    obtain ⟨_, -, _, -, _, -, _, -, _, -, attributesKey, hk, h⟩ := h
    cases h
    obtain ⟨faithful, holds⟩ := faithful_attributesKeyOf hk
    exact ⟨faithful_switch _, faithful_switch _, faithful, holds, named_clientNameOf⟩

theorem faithful_default : ({} : Options).Faithful := by
  have made : ofEntries [] = .ok {} := rfl
  exact faithful_ofEntries made

theorem faithful_of_isRead {options : Options} (h : IsRead ofJson options) : options.Faithful := by
  obtain ⟨j, h⟩ := h
  unfold ofJson at h
  split at h
  · rename_i members
    cases resolved : resolve members [] with
    | error e =>
      rw [resolved] at h
      cases h
    | ok made =>
      rw [resolved] at h
      cases h
      exact faithful_ofEntries resolved
  · split at h
    · cases h
    · cases h
      exact faithful_default

end Options

/-! ## The catalog -/

namespace Catalog

theorem restores_of_isRead {c : Catalog} (h : IsRead ofJson c) : Restores ofJson toJson c := by
  obtain ⟨j, h⟩ := h
  simp only [ofJson, ok_bind] at h
  obtain ⟨version, -, h⟩ := h
  split at h
  · cases h
  · simp only [ok_bind] at h
    obtain ⟨aliases, ha, types, ht, _, -, marshalling, hm, options, ho, h⟩ := h
    obtain ⟨source, -, displayName, -, serviceName, hs, _, -, _, -, h⟩ := h
    cases h
    refine restores_of ?_ ?_ ?_ ?_ ?_ ?_ ?_ ?_
    · exact fun a ha' => ScalarAlias.canonical_of_isRead (Json.isRead_of_listField ha a ha')
    · exact fun t ht' => StructuralType.restores_of_isRead (Json.isRead_of_listField ht t ht')
    · rcases Json.isRead_of_fieldOr hm with rfl | hm
      · exact Marshalling.restores_of fun _ hx => absurd hx List.not_mem_nil
      · exact Marshalling.restores_of_isRead hm
    · rcases Json.isRead_of_fieldOr ho with rfl | ho
      · exact Options.faithful_default
      · exact Options.faithful_of_isRead ho
    · exact Loose.faithful_ofJson (fun _ _ => Json.str_str?) source
    · exact fun name hn => Loose.named_of_isRead (Json.isRead_of_fieldOptional hs name hn)
    · exact Loose.faithful_ofJson (fun _ _ => Json.str_str?) displayName
    · exact Loose.faithful_getD (fun _ _ => Json.str_str?) rfl _

def rewritten (j : Json) : Reading Json := do return (← ofJson j).toJson

/-- **What was read is read again from what it is written as**, and is then written the same. -/
theorem rereads {j : Json} {c : Catalog} (h : ofJson j = .ok c) :
    ofJson c.toJson = .ok c ∧ rewritten j >>= rewritten = rewritten j := by
  have again : ofJson c.toJson = .ok c := restores_of_isRead ⟨j, h⟩
  have written : rewritten j = .ok c.toJson := by
    rw [rewritten, h]
    rfl
  refine ⟨again, ?_⟩
  rw [written, Reading.ok_bind, rewritten, again]
  rfl

/-- An element of the name `cell`, with few of its fields. -/
def sparseCell (rest : List (String × Json)) : Json :=
  .obj ([("name", .str "cell"), ("declared_type", .str "string"),
    ("type_ref", .obj [("kind", .str "scalar"), ("declared", .str "string")]), ("min", .int 0)] ++ rest)

/-- A catalog with two members of one name, bounds in texts, options under the names that
configuration files use, and a context of nothing. Most fields are missing. -/
def sparse : Json :=
  .obj [("source", .str "memory:a"), ("display_name", .str "A"),
    ("options", .obj [("primitive", .obj [("int64As", .str "text")]), ("attributesKey", .str "@")]),
    ("types", .arr [.obj [("name", .str "Row"), ("qname", .null), ("attributes", .arr []),
      ("elements", .arr [sparseCell [("max", .str "unbounded")],
        sparseCell [("max", .str "7"), ("nillable", .bool true)]]),
      ("local_attributes", .arr []), ("local_elements", .arr [.str "cell"])]]),
    ("diagnostics", .arr [.obj [("kind", .str "note"), ("message", .str ""),
      ("context", .obj [("file", .null)])]])]

/-- The second of the two members is the one that the type declares. -/
theorem sparse_rereads : ∃ c, ofJson sparse = .ok c ∧
    c.types.map (fun t => (t.elements.map (·.max), t.localElements.map (·.max)))
      = [([none, some 7], [some 7])] ∧
    c.options.attributesKey = .own "@" ∧ ofJson c.toJson = .ok c := by
  have run : ∃ c, ofJson sparse = .ok c ∧
      c.types.map (fun t => (t.elements.map (·.max), t.localElements.map (·.max)))
        = [([none, some 7], [some 7])] ∧ c.options.attributesKey = .own "@" :=
    ⟨_, rfl, by decide +kernel, rfl⟩
  obtain ⟨c, run, members, key⟩ := run
  exact ⟨c, run, members, key, (rereads run).1⟩

end Catalog

end WsdlCatalog
