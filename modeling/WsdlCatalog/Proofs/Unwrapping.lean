/-
  WsdlCatalog.Proofs.Unwrapping — data without wrappers hold the same.

  A value of a payload is governed by the type that its key or the wrapper around it has
  (`Sits`). Where an object of a wrapper type sits, the list of what it repeats comes to stand,
  and all around it stays. A wrapper may hold wrappers, and a type may hold itself; so what is
  known of a value is told of any position at which it can sit.

  Nothing is said of keys that a wrapper has beside the element it repeats: they are dropped.

  Proved: if wrappers have no such keys, the data keep their leaves in order, objects keep their
  keys, and in the place of each wrapper stands a list of what it held (`unwrap_keeps`).
-/

import WsdlCatalog.Catalog.Marshalling
import WsdlCatalog.Proofs.Printing

namespace WsdlCatalog

namespace Json

/-! ## Leaves and positions -/

mutual

/-- The scalars in a value that are not null, depth first. -/
def leaves : Json → List Json
  | null => []
  | bool b => [bool b]
  | int n => [int n]
  | real x => [real x]
  | str s => [str s]
  | arr items => leavesOfItems items
  | obj members => leavesOfMembers members

def leavesOfItems : List Json → List Json
  | [] => []
  | j :: rest => leaves j ++ leavesOfItems rest

def leavesOfMembers : List (String × Json) → List Json
  | [] => []
  | (_, j) :: rest => leaves j ++ leavesOfMembers rest

end

inductive Step where
  | key (name : String)
  | item (index : Nat)
  deriving DecidableEq, Repr

def at? : Json → List Step → Option Json
  | j, [] => some j
  | obj members, .key name :: path => (members.lookup name).bind (·.at? path)
  | arr items, .item i :: path => items[i]?.bind (·.at? path)
  | _, _ :: _ => none

@[simp] theorem leaves_arr (items : List Json) : (arr items).leaves = items.flatMap leaves := by
  show leavesOfItems items = _
  induction items with
  | nil => rfl
  | cons j rest ih => rw [leavesOfItems, List.flatMap_cons, ih]

@[simp] theorem leaves_obj (members : List (String × Json)) :
    (obj members).leaves = members.flatMap (·.2.leaves) := by
  show leavesOfMembers members = _
  induction members with
  | nil => rfl
  | cons m rest ih => rw [leavesOfMembers, List.flatMap_cons, ih]

@[simp] theorem at?_nil (j : Json) : j.at? [] = some j := by
  unfold at?
  rfl

end Json

inductive Position where
  /-- No type is known for the value. -/
  | free
  /-- The value is the payload. -/
  | root (type : String)
  /-- The value stands under a key of a type: a list of values of the type, or one of them. -/
  | under (type : String)
  /-- The value is an item of such a list, or of what a wrapper holds. -/
  | item (type : String)
  deriving DecidableEq, Repr

namespace Position

def type? : Position → Option String
  | free => none
  | root type | under type | item type => some type

/-- The element that an object at a position repeats, if its type is routed to it and a wrapper. -/
def inner? (wrappers : Wrappers) : Position → Option String
  | free | root _ => none
  | under type | item type => wrappers.lookup type

def ofKey (type? : Option String) : Position := type?.elim free under

def ofItem (type? : Option String) : Position := type?.elim free item

end Position

/-- The items that a value stands for: those of a list, itself alone, or none. -/
def listed : Json → List Json
  | .null => []
  | .arr items => items
  | value => [value]

def heldBy (inner : String) (members : List (String × Json)) : List Json :=
  ((members.lookup inner).map listed).getD []

/-- `x` sits at the position `u` inside of a value that sits at a position itself, and what becomes of
it is to stand at the end of the path in what becomes of the value. -/
inductive Sits (routes : Routes) (wrappers : Wrappers) :
    Position → Json → List Json.Step → Position → Json → Prop
  | here {position : Position} {value : Json} : Sits routes wrappers position value [] position value
  | member {position u : Position} {type key : String} {members : List (String × Json)} {value x : Json}
      {path : List Json.Step} : position.type? = some type → position.inner? wrappers = none →
      members.lookup key = some value →
      Sits routes wrappers (.ofKey (routes.target? type key)) value path u x →
      Sits routes wrappers position (.obj members) (.key key :: path) u x
  | listed {u : Position} {type : String} {items : List Json} {i : Nat} {value x : Json}
      {path : List Json.Step} : items[i]? = some value →
      Sits routes wrappers (.item type) value path u x →
      Sits routes wrappers (.under type) (.arr items) (.item i :: path) u x
  | held {position u : Position} {type inner : String} {members : List (String × Json)} {i : Nat}
      {value x : Json} {path : List Json.Step} : position.type? = some type →
      position.inner? wrappers = some inner → (heldBy inner members)[i]? = some value →
      Sits routes wrappers (.ofItem (routes.target? type inner)) value path u x →
      Sits routes wrappers position (.obj members) (.item i :: path) u x

/-- Objects at the positions of wrappers have no key but that of the element that they repeat. -/
def FitsAt (routes : Routes) (wrappers : Wrappers) (position : Position) (value : Json) : Prop :=
  ∀ path u inner members, Sits routes wrappers position value path u (.obj members) →
    u.inner? wrappers = some inner → ∀ m ∈ members, m.1 = inner

structure Stands (wrappers : Wrappers) (position : Position) (value result : Json) : Prop where
  /-- A list under a key stays a list of as many items. -/
  list : ∀ type items, position = .under type → value = .arr items →
    ∃ items', result = .arr items' ∧ items'.length = items.length
  /-- An object that is no wrapper keeps its keys in their order. -/
  object : ∀ members, position.inner? wrappers = none → value = .obj members →
    ∃ members', result = .obj members' ∧ members'.map Prod.fst = members.map Prod.fst
  /-- A list of what a wrapper held stands in its place. -/
  wrapper : ∀ inner members, position.inner? wrappers = some inner → value = .obj members →
    ∃ items, result = .arr items ∧ items.length = (heldBy inner members).length
  other : (∀ members, value ≠ .obj members) →
    (∀ type items, position = .under type → value ≠ .arr items) → result = value
  free : position = .free → result = value

/-! ## Wrappers that fit -/

namespace FitsAt

variable {routes : Routes} {wrappers : Wrappers} {position : Position} {type inner : String}
  {members : List (String × Json)}

theorem scalar {value : Json} (noObject : ∀ members, value ≠ .obj members)
    (noList : ∀ items, value ≠ .arr items) : FitsAt routes wrappers position value := by
  intro path u inner members sits
  cases sits with
  | here => exact absurd rfl (noObject members)
  | member | held => exact absurd rfl (noObject _)
  | listed => exact absurd rfl (noList _)

theorem object (known : position.type? = some type) (plain : position.inner? wrappers = none)
    (each : ∀ m ∈ members, FitsAt routes wrappers (.ofKey (routes.target? type m.1)) m.2) :
    FitsAt routes wrappers position (.obj members) := by
  intro path u inner ms sits
  cases sits with
  | here =>
    intro wrapper
    cases plain.symm.trans wrapper
  | member known' _ found sits =>
    cases known.symm.trans known'
    exact each _ (mem_of_lookup found) _ u inner ms sits
  | held _ wrapper => cases plain.symm.trans wrapper

theorem wrapper (known : position.type? = some type) (wrapper : position.inner? wrappers = some inner)
    (only : ∀ m ∈ members, m.1 = inner)
    (each : ∀ j ∈ heldBy inner members, FitsAt routes wrappers (.ofItem (routes.target? type inner)) j) :
    FitsAt routes wrappers position (.obj members) := by
  intro path u inner' ms sits
  cases sits with
  | here =>
    intro wrapper'
    cases wrapper.symm.trans wrapper'
    exact only
  | member _ plain => cases plain.symm.trans wrapper
  | held known' wrapper' found sits =>
    cases known.symm.trans known'
    cases wrapper.symm.trans wrapper'
    exact each _ (List.mem_of_getElem? found) _ u inner' ms sits

/-- What a wrapper holds fits. -/
theorem of_held {i : Nat} {value : Json} (h : FitsAt routes wrappers position (.obj members))
    (known : position.type? = some type) (wrapper : position.inner? wrappers = some inner)
    (found : (heldBy inner members)[i]? = some value) :
    FitsAt routes wrappers (.ofItem (routes.target? type inner)) value :=
  fun _ u inner ms sits => h _ u inner ms (.held known wrapper found sits)

end FitsAt

/-! ## What becomes of a value -/

section

variable (routes : Routes) (wrappers : Wrappers)

def unwrapAt : Position → Json → Json
  | .root type, .obj members => .obj (unwrap routes wrappers type members)
  | .under type, .arr items => .arr (unwrapItems routes wrappers type items)
  | .under type, value | .item type, value => unwrapValue routes wrappers type value
  | .free, value | .root _, value => value

variable {routes wrappers}

theorem unwrapAt_free (value : Json) : unwrapAt routes wrappers .free value = value := by
  cases value <;> rfl

theorem unwrapAt_item (type : String) (value : Json) :
    unwrapAt routes wrappers (.item type) value = unwrapValue routes wrappers type value := by
  cases value <;> rfl

theorem unwrapItems_eq (type : String) (items : List Json) :
    unwrapItems routes wrappers type items = items.map (unwrapAt routes wrappers (.item type)) := by
  induction items with
  | nil => rfl
  | cons item rest ih => rw [unwrapItems, ih, List.map_cons, unwrapAt_item]

theorem unwrapMembers_eq (type : String) (members : List (String × Json)) :
    unwrapMembers routes wrappers type members = members.map fun m =>
      (m.1, unwrapAt routes wrappers (.ofKey (routes.target? type m.1)) m.2) := by
  induction members with
  | nil => rfl
  | cons m rest ih =>
    obtain ⟨key, value⟩ := m
    rw [unwrapMembers, ih, List.map_cons]
    cases routes.target? type key with
    | none => simp [Position.ofKey, unwrapAt_free]
    | some target => cases value <;> rfl

theorem unwrapHeld_eq (inner : String) (type? : Option String) (members : List (String × Json)) :
    unwrapHeld routes wrappers inner type? members
      = (heldBy inner members).map (unwrapAt routes wrappers (.ofItem type?)) := by
  induction members with
  | nil => rfl
  | cons m rest ih =>
    obtain ⟨key, value⟩ := m
    rw [unwrapHeld.eq_def]
    dsimp only
    by_cases same : key = inner
    · subst same
      unfold heldBy
      rw [if_pos (beq_self_eq_true key), List.lookup_cons, beq_self_eq_true]
      cases type? with
      | none =>
        have stays : unwrapAt routes wrappers .free = id := funext unwrapAt_free
        cases value <;> simp [listed, Position.ofItem, stays]
      | some type => cases value <;> simp [listed, Position.ofItem, unwrapAt_item, unwrapItems_eq]
    · have other : heldBy inner ((key, value) :: rest) = heldBy inner rest := by
        unfold heldBy
        rw [List.lookup_cons, beq_false_of_ne (Ne.symm same)]
      rw [if_neg (by simpa using same), ih, other]

variable {position : Position} {type inner : String} {members : List (String × Json)}

/-- An object that is no wrapper keeps its keys. -/
theorem unwrapAt_object (known : position.type? = some type) (plain : position.inner? wrappers = none)
    (members : List (String × Json)) :
    unwrapAt routes wrappers position (.obj members) = .obj (members.map fun m =>
      (m.1, unwrapAt routes wrappers (.ofKey (routes.target? type m.1)) m.2)) := by
  rw [← unwrapMembers_eq]
  cases position with
  | free => cases known
  | root name =>
    cases known
    rfl
  | under name | item name =>
    cases known
    show unwrapValue routes wrappers type (.obj members) = _
    have plain : wrappers.lookup type = none := plain
    rw [unwrapValue, plain]

/-- A wrapper becomes a list. -/
theorem unwrapAt_wrapper (known : position.type? = some type)
    (wrapper : position.inner? wrappers = some inner) (members : List (String × Json)) :
    unwrapAt routes wrappers position (.obj members) = .arr ((heldBy inner members).map
      (unwrapAt routes wrappers (.ofItem (routes.target? type inner)))) := by
  cases position with
  | free | root => cases wrapper
  | under name | item name =>
    cases known
    show unwrapValue routes wrappers type (.obj members) = _
    have wrapper : wrappers.lookup type = some inner := wrapper
    rw [unwrapValue, wrapper]
    dsimp only
    rw [unwrapHeld_eq]

theorem unwrapAt_list (type : String) (items : List Json) :
    unwrapAt routes wrappers (.under type) (.arr items)
      = .arr (items.map (unwrapAt routes wrappers (.item type))) := by
  rw [← unwrapItems_eq]
  rfl

theorem unwrapAt_other {value : Json} (noObject : ∀ members, value ≠ .obj members)
    (noList : ∀ type items, position = .under type → value ≠ .arr items) :
    unwrapAt routes wrappers position value = value := by
  cases value with
  | obj members => exact absurd rfl (noObject members)
  | arr items =>
    cases position with
    | under type => exact absurd rfl (noList type items rfl)
    | free | root | item => rfl
  | null | bool | int | real | str => cases position <;> rfl

theorem stands_unwrapAt (position : Position) (value : Json) :
    Stands wrappers position value (unwrapAt routes wrappers position value) := by
  constructor
  · rintro type items rfl rfl
    exact ⟨_, unwrapAt_list type items, List.length_map _⟩
  · rintro members plain rfl
    cases known : position.type? with
    | none =>
      cases position with
      | free => exact ⟨members, unwrapAt_free _, rfl⟩
      | root | under | item => cases known
    | some type => exact ⟨_, unwrapAt_object known plain members, by rw [List.map_map]; rfl⟩
  · rintro inner members wrapper rfl
    cases known : position.type? with
    | none => cases position <;> first | cases wrapper | cases known
    | some type => exact ⟨_, unwrapAt_wrapper known wrapper members, List.length_map _⟩
  · exact unwrapAt_other
  · rintro rfl
    exact unwrapAt_free value

/-! ## Where values come to stand -/

/-- What becomes of a value stands where it is to stand. -/
theorem at?_unwrapAt {u : Position} {value x : Json} {path : List Json.Step}
    (h : Sits routes wrappers position value path u x) :
    (unwrapAt routes wrappers position value).at? path = some (unwrapAt routes wrappers u x) := by
  induction h with
  | here => exact Json.at?_nil _
  | @member _ _ type key _ _ _ _ known plain found _ ih =>
    rw [unwrapAt_object known plain, Json.at?,
      lookup_map fun name => unwrapAt routes wrappers (.ofKey (routes.target? type name)), found,
      Option.map_some, Option.bind_some, ih]
  | listed found _ ih =>
    rw [unwrapAt_list, Json.at?, List.getElem?_map, found, Option.map_some, Option.bind_some, ih]
  | held known wrapper found _ ih =>
    rw [unwrapAt_wrapper known wrapper, Json.at?, List.getElem?_map, found, Option.map_some,
      Option.bind_some, ih]

/-! ## Leaves -/

def KeepsLeaves (routes : Routes) (wrappers : Wrappers) (value : Json) : Prop :=
  ∀ position, FitsAt routes wrappers position value →
    (unwrapAt routes wrappers position value).leaves = value.leaves

theorem keepsLeaves_scalar {value : Json} (noObject : ∀ members, value ≠ .obj members)
    (noList : ∀ items, value ≠ .arr items) : KeepsLeaves routes wrappers value :=
  fun _ _ => by rw [unwrapAt_other noObject fun _ items _ => noList items]

theorem leaves_items {items : List Json} (each : ∀ j ∈ items, KeepsLeaves routes wrappers j)
    (fits : ∀ (i : Nat) j, items[i]? = some j → FitsAt routes wrappers position j) :
    (items.map (unwrapAt routes wrappers position)).flatMap Json.leaves = items.flatMap Json.leaves := by
  rw [List.flatMap_map]
  refine List.flatMap_congr fun j hj => ?_
  obtain ⟨i, hi⟩ := List.mem_iff_getElem?.mp hj
  exact each j hj position (fits i j hi)

theorem keepsLeaves_arr {items : List Json} (each : ∀ j ∈ items, KeepsLeaves routes wrappers j) :
    KeepsLeaves routes wrappers (.arr items) := by
  intro position fits
  cases position with
  | under type =>
    rw [unwrapAt_list, Json.leaves_arr, Json.leaves_arr]
    refine leaves_items each fun i j found => ?_
    exact fun _ u inner ms sits => fits _ u inner ms (.listed found sits)
  | free | root | item => rfl

/-- What a wrapper holds has the leaves of the wrapper, if it has no other keys. -/
theorem leaves_held (known : position.type? = some type) (wrapper : position.inner? wrappers = some inner)
    (distinct : (members.map Prod.fst).Nodup)
    (each : ∀ m ∈ members, ∀ j ∈ listed m.2, KeepsLeaves routes wrappers j)
    (fits : FitsAt routes wrappers position (.obj members)) :
    ((heldBy inner members).map (unwrapAt routes wrappers
      (.ofItem (routes.target? type inner)))).flatMap Json.leaves = (Json.obj members).leaves := by
  have only : ∀ m ∈ members, m.1 = inner := fits [] position inner members .here wrapper
  have items : ∀ j ∈ heldBy inner members, KeepsLeaves routes wrappers j := by
    intro j hj
    unfold heldBy at hj
    cases found : members.lookup inner with
    | none =>
      rw [found] at hj
      cases hj
    | some value =>
      rw [found] at hj
      exact each _ (mem_of_lookup found) j hj
  rw [leaves_items items fun i j found => fits.of_held known wrapper found, Json.leaves_obj]
  match members with
  | [] => rfl
  | [(key, value)] =>
    obtain rfl : key = inner := only _ List.mem_cons_self
    have held : heldBy key [(key, value)] = listed value := by simp [heldBy]
    rw [held, List.flatMap_singleton]
    cases value with
    | null => rfl
    | bool | int | real | str | arr | obj => simp [listed]
  | first :: second :: rest =>
    have same : first.1 = second.1 :=
      (only _ List.mem_cons_self).trans (only _ (List.mem_cons_of_mem _ List.mem_cons_self)).symm
    simp [same] at distinct

theorem keepsLeaves_obj (distinct : (members.map Prod.fst).Nodup)
    (each : ∀ m ∈ members, KeepsLeaves routes wrappers m.2)
    (inside : ∀ m ∈ members, ∀ j ∈ listed m.2, KeepsLeaves routes wrappers j) :
    KeepsLeaves routes wrappers (.obj members) := by
  intro position fits
  cases known : position.type? with
  | none =>
    cases position with
    | free => rfl
    | root | under | item => cases known
  | some type =>
    cases wrapper : position.inner? wrappers with
    | some inner =>
      rw [unwrapAt_wrapper known wrapper, Json.leaves_arr]
      exact leaves_held known wrapper distinct inside fits
    | none =>
      rw [unwrapAt_object known wrapper, Json.leaves_obj, Json.leaves_obj, List.flatMap_map]
      refine List.flatMap_congr fun m hm => ?_
      refine each m hm _ fun path u inner ms sits => fits (.key m.1 :: path) u inner ms ?_
      exact .member known wrapper (lookup_of_mem distinct hm) sits

/-- Values keep their leaves, and so do the items that they stand for. -/
theorem keepsLeaves {value : Json} (h : value.Proper) :
    KeepsLeaves routes wrappers value ∧ ∀ j ∈ listed value, KeepsLeaves routes wrappers j := by
  have alone {value : Json} (h : KeepsLeaves routes wrappers value) (hl : listed value = [value]) :
      KeepsLeaves routes wrappers value ∧ ∀ j ∈ listed value, KeepsLeaves routes wrappers j :=
    ⟨h, by rw [hl]; exact List.forall_mem_singleton.mpr h⟩
  induction h with
  | null => exact ⟨keepsLeaves_scalar nofun nofun, fun j hj => absurd hj List.not_mem_nil⟩
  | bool | int | real | str => exact alone (keepsLeaves_scalar nofun nofun) rfl
  | arr _ ih => exact ⟨keepsLeaves_arr fun j hj => (ih j hj).1, fun j hj => (ih j hj).1⟩
  | obj distinct _ ih =>
    exact alone (keepsLeaves_obj distinct (fun m hm => (ih m hm).1) fun m hm => (ih m hm).2) rfl

end

/-- **Wrappers are taken out of data and all else stays.** The tables are those of any types, and
the payload may be of any of them. -/
theorem unwrap_keeps (types : List StructuralType) (type : String) {members : List (String × Json)}
    (proper : (Json.obj members).Proper)
    (fits : FitsAt (Marshalling.ofTypes types).children (.ofTypes types) (.root type) (.obj members)) :
    let routes := (Marshalling.ofTypes types).children
    let wrappers := Wrappers.ofTypes types
    let result := Json.obj (unwrap routes wrappers type members)
    result.leaves = (Json.obj members).leaves ∧
    ∀ path position value, Sits routes wrappers (.root type) (.obj members) path position value →
      ∃ y, result.at? path = some y ∧ Stands wrappers position value y := by
  intro routes wrappers result
  refine ⟨(keepsLeaves proper).1 (.root type) fits, fun path position value sits => ?_⟩
  exact ⟨_, at?_unwrapAt sits, stands_unwrapAt position value⟩

/-! ## A grid of grids -/

/-- An element whose values are of a type that stands in the catalog, or scalars. -/
def slot (name : String) (type : Option String) (max : Option Int) : Element :=
  ⟨name, "", ⟨if type.isSome then .structural else .scalar, "", .text, type, none, false⟩,
    .own 0, max, .own false, .own true, none⟩

def holder (name : String) (elements : List Element) : StructuralType :=
  ⟨some name, none, [], elements, [], elements, none, false, false, [], none, false⟩

/-- A grid has rows of cells, each of which is a grid again. Rows and cells are in wrappers. -/
def gridTypes : List StructuralType :=
  [holder "Grid" [slot "rows" (some "Rows") (some 1), slot "note" none (some 1)],
   holder "Rows" [slot "row" (some "Row") none],
   holder "Row" [slot "cell" (some "Grid") (some 9)]]

def grid : List (String × Json) :=
  [("rows", .obj [("row", .arr [.obj [("cell", .obj [("rows", .null), ("note", .str "a")])], .obj []])]),
   ("note", .str "b")]

theorem proper_grid : (Json.obj grid).Proper := by
  have empty : (Json.obj []).Proper := .obj List.nodup_nil nofun
  have cell : (Json.obj [("rows", .null), ("note", .str "a")]).Proper :=
    .obj (by decide) (by simp [Json.Formed.null, Json.Formed.str])
  have row : (Json.obj [("cell", .obj [("rows", .null), ("note", .str "a")])]).Proper :=
    .obj (by decide) (by simpa using cell)
  have rows : (Json.obj [("row", .arr [.obj [("cell", .obj [("rows", .null), ("note", .str "a")])],
      .obj []])]).Proper :=
    .obj (by decide) (by simpa using .arr (by simpa using ⟨row, empty⟩))
  exact .obj (by decide) (by simpa [grid, Json.Formed.str] using rows)

theorem fits_grid : FitsAt (Marshalling.ofTypes gridTypes).children (.ofTypes gridTypes)
    (.root "Grid") (.obj grid) := by
  generalize hr : (Marshalling.ofTypes gridTypes).children = routes
  generalize hw : Wrappers.ofTypes gridTypes = wrappers
  have rows : routes.target? "Grid" "rows" = some "Rows" := hr ▸ by decide
  have note : routes.target? "Grid" "note" = none := hr ▸ by decide
  have row : routes.target? "Rows" "row" = some "Row" := hr ▸ by decide
  have cell : routes.target? "Row" "cell" = some "Grid" := hr ▸ by decide
  have plain : wrappers.lookup "Grid" = none := hw ▸ by decide
  have ofRows : wrappers.lookup "Rows" = some "row" := hw ▸ by decide
  have ofRow : wrappers.lookup "Row" = some "cell" := hw ▸ by decide
  have inside : FitsAt routes wrappers (.item "Grid") (.obj [("rows", .null), ("note", .str "a")]) :=
    .object rfl plain (by simp [FitsAt.scalar])
  have empty : FitsAt routes wrappers (.item "Row") (.obj []) :=
    .wrapper rfl ofRow nofun nofun
  have filled : FitsAt routes wrappers (.item "Row")
      (.obj [("cell", .obj [("rows", .null), ("note", .str "a")])]) :=
    .wrapper rfl ofRow (by simp) (by simpa [heldBy, listed, cell, Position.ofItem] using inside)
  have all : FitsAt routes wrappers (.under "Rows")
      (.obj [("row", .arr [.obj [("cell", .obj [("rows", .null), ("note", .str "a")])], .obj []])]) :=
    .wrapper rfl ofRows (by simp) (by simpa [heldBy, listed, row, Position.ofItem] using ⟨filled, empty⟩)
  exact .object rfl rfl (by simpa [grid, rows, note, Position.ofKey, FitsAt.scalar] using all)

/-- A list of lists stands where the rows were, and the grid inside keeps its keys. -/
theorem unwrap_grid :
    let result := unwrap (Marshalling.ofTypes gridTypes).children (.ofTypes gridTypes) "Grid" grid
    result = [("rows", .arr [.arr [.obj [("rows", .null), ("note", .str "a")]], .arr []]),
      ("note", .str "b")] ∧ (Json.obj result).leaves = (Json.obj grid).leaves :=
  ⟨rfl, (unwrap_keeps gridTypes "Grid" proper_grid fits_grid).1⟩

end WsdlCatalog
