/-
  WsdlCatalog.Proofs.Reservation — the canonical names that are asked for.

  Before anything is compiled, every global type and every global element with a type of
  its own asks for a canonical name (`requests`). Owners tell what they stand for, since
  neither a namespace has a closing brace in it nor a canonical name a slash.

  Proved: what asked for names before is kept, and requests of different owners are all
  granted iff their names are different (`runs_requests`).
-/

import Mathlib.Data.List.Nodup
import WsdlCatalog.Proofs.Run

namespace WsdlCatalog

/-! ## Owners -/

theorem ownerOfType_ne_element (a b : QName) : ownerOfType a ≠ ownerOfElement b := by
  intro h
  have := congrArg String.toList h
  simp only [ownerOfType, ownerOfElement, String.toList_append] at this
  have ht : "type:".toList = ['t', 'y', 'p', 'e', ':'] := by decide
  have he : "element:".toList = ['e', 'l', 'e', 'm', 'e', 'n', 't', ':'] := by decide
  rw [ht, he] at this
  cases this

theorem ownerOfType_ne_nested (a : QName) (owner element : String) :
    ownerOfType a ≠ ownerOfNested owner element := by
  intro h
  have := congrArg String.toList h
  simp only [ownerOfType, ownerOfNested, String.toList_append, List.append_assoc] at this
  have ht : "type:".toList = ['t', 'y', 'p', 'e', ':'] := by decide
  have ha : "anon:".toList = ['a', 'n', 'o', 'n', ':'] := by decide
  rw [ht, ha] at this
  cases this

theorem ownerOfElement_ne_nested (a : QName) (owner element : String) :
    ownerOfElement a ≠ ownerOfNested owner element := by
  intro h
  have := congrArg String.toList h
  simp only [ownerOfElement, ownerOfNested, String.toList_append, List.append_assoc] at this
  have he : "element:".toList = ['e', 'l', 'e', 'm', 'e', 'n', 't', ':'] := by decide
  have ha : "anon:".toList = ['a', 'n', 'o', 'n', ':'] := by decide
  rw [he, ha] at this
  cases this

/-- An owner without a slash and an element are told apart. -/
theorem ownerOfNested_injective {o o' e e' : String} (h : '/' ∉ o.toList) (h' : '/' ∉ o'.toList)
    (he : ownerOfNested o e = ownerOfNested o' e') : o = o' ∧ e = e' := by
  have := congrArg String.toList he
  simp only [ownerOfNested, String.toList_append, List.append_assoc] at this
  have hs : "/".toList = ['/'] := by decide
  rw [hs] at this
  obtain ⟨ho, hr⟩ := QName.cut_unique h h' (List.append_cancel_left this)
  exact ⟨String.toList_injective ho, String.toList_injective hr⟩

/-- The namespace of a name has no closing brace in it. -/
def QName.Plain (name : QName) : Prop := ∃ uri, name.uri = some uri ∧ '\x7d' ∉ uri.toList

theorem QName.key_injective_of_plain {a b : QName} (ha : a.Plain) (hb : b.Plain)
    (h : a.key = b.key) : a = b := by
  obtain ⟨u, hu, hu'⟩ := ha
  obtain ⟨v, hv, hv'⟩ := hb
  obtain ⟨_, x⟩ := a
  obtain ⟨_, y⟩ := b
  cases hu
  cases hv
  obtain ⟨rfl, rfl⟩ := QName.key_injective hu' hv' h
  rfl

theorem ownerOfType_injective {a b : QName} (ha : a.Plain) (hb : b.Plain)
    (h : ownerOfType a = ownerOfType b) : a = b := by
  have := congrArg String.toList h
  simp only [ownerOfType, String.toList_append] at this
  exact QName.key_injective_of_plain ha hb (String.toList_injective (List.append_cancel_left this))

theorem ownerOfElement_injective {a b : QName} (ha : a.Plain) (hb : b.Plain)
    (h : ownerOfElement a = ownerOfElement b) : a = b := by
  have := congrArg String.toList h
  simp only [ownerOfElement, String.toList_append] at this
  exact QName.key_injective_of_plain ha hb (String.toList_injective (List.append_cancel_left this))

/-! ## Canonical names -/

namespace Text

theorem slash_not_mem_kept (c : Char) : '/' ∉ kept c := by
  unfold kept
  split
  · rename_i h
    intro hm
    rw [← List.mem_singleton.mp hm] at h
    exact absurd h (by decide)
  · exact List.not_mem_nil

theorem slash_not_mem_raised (c : Char) : '/' ∉ raised c := by
  unfold raised
  split
  · rename_i cs h
    have : ∀ x ∈ raisedBeyondAscii, '/' ∉ x.2 := by decide
    obtain ⟨before, after, hs, -⟩ := List.lookup_eq_some_iff.mp h
    exact this _ (hs ▸ List.mem_append_right _ List.mem_cons_self)
  · exact slash_not_mem_kept _

theorem slash_not_mem_pascalRest : ∀ cs, '/' ∉ pascalRest cs
  | [] => List.not_mem_nil
  | [c] => slash_not_mem_kept c
  | s :: c :: rest => by
    unfold pascalRest
    split
    · exact fun h => (List.mem_append.mp h).elim (slash_not_mem_raised c)
        (slash_not_mem_pascalRest rest)
    · exact fun h => (List.mem_append.mp h).elim (slash_not_mem_kept s)
        (slash_not_mem_pascalRest (c :: rest))

theorem slash_not_mem_pascal (name : String) : '/' ∉ (pascal name).toList := by
  unfold pascal
  split
  · decide
  · rw [String.toList_ofList]
    split
    · exact fun h => (List.mem_append.mp h).elim (slash_not_mem_raised _)
        (slash_not_mem_pascalRest _)
    · exact slash_not_mem_pascalRest _

end Text

/-! ## Reservations -/

/-- In a list without repeats of some feature, an element is the first one with its own. -/
theorem find?_of_nodup {α β : Type} [BEq β] [LawfulBEq β] (f : α → β) {xs : List α}
    (hn : (xs.map f).Nodup) {x : α} (h : x ∈ xs) : xs.find? (f · == f x) = some x := by
  induction xs with
  | nil => exact absurd h List.not_mem_nil
  | cons first rest ih =>
    rw [List.map_cons, List.nodup_cons] at hn
    rcases List.mem_cons.mp h with rfl | h
    · rw [List.find?_cons, beq_self_eq_true]
    · have hne : f first ≠ f x := fun e => hn.1 (e ▸ List.mem_map_of_mem h)
      rw [List.find?_cons, beq_false_of_ne hne]
      exact ih hn.2 h

namespace Inventory

variable {inventory : Inventory} {owner canonical : String}

theorem canonical?_eq_none :
    inventory.canonical? owner = none ↔ ∀ r ∈ inventory.reservations, r.owner ≠ owner := by
  unfold canonical?
  rw [Option.map_eq_none_iff, List.find?_eq_none]
  simp only [beq_iff_eq]

theorem holder?_eq_none :
    inventory.holder? canonical = none ↔ ∀ r ∈ inventory.reservations, r.canonical ≠ canonical := by
  unfold holder?
  rw [List.find?_eq_none]
  simp only [beq_iff_eq]

theorem exists_of_canonical? {name : String} (h : inventory.canonical? owner = some name) :
    ∃ r ∈ inventory.reservations, r.owner = owner ∧ r.canonical = name := by
  obtain ⟨r, hr, rfl⟩ := Option.map_eq_some_iff.mp h
  have ho := List.find?_some hr
  exact ⟨r, List.mem_of_find?_eq_some hr, eq_of_beq ho, rfl⟩

theorem canonical?_of_mem (hn : (inventory.reservations.map (·.owner)).Nodup) {r : Reservation}
    (h : r ∈ inventory.reservations) : inventory.canonical? r.owner = some r.canonical := by
  unfold canonical?
  rw [find?_of_nodup Reservation.owner hn h, Option.map_some]

end Inventory

namespace Progress

def withReservations (p : Progress) (rs : List Reservation) : Progress :=
  { p with inventory := { p.inventory with reservations := p.inventory.reservations ++ rs } }

theorem withReservations_nil (p : Progress) : p.withReservations [] = p := by
  unfold withReservations
  rw [List.append_nil]

theorem withReservations_append (p : Progress) (rs rs' : List Reservation) :
    (p.withReservations rs).withReservations rs' = p.withReservations (rs ++ rs') := by
  unfold withReservations
  simp only [List.append_assoc]

end Progress

namespace Compile

/-- An owner that has a canonical name keeps it. -/
theorem runs_reserve_of_some {owner canonical current c : String} {name : QName} {p q : Progress}
    (h : p.inventory.canonical? owner = some current) :
    Runs (reserve owner canonical name) p c q ↔ c = current ∧ q = p := by
  rw [runs_reserve]
  unfold Inventory.reserve
  rw [h]
  constructor
  · intro hi
    rcases hi with ⟨i, hi, rfl⟩
    cases hi
    exact ⟨rfl, rfl⟩
  · intro given
    rcases given with ⟨rfl, rfl⟩
    exact ⟨_, rfl, rfl⟩

/-- A new owner gets the name that it asks for, if nobody holds it. -/
theorem runs_reserve_of_none {owner canonical c : String} {name : QName} {p q : Progress}
    (h : p.inventory.canonical? owner = none) :
    Runs (reserve owner canonical name) p c q ↔
      (∀ r ∈ p.inventory.reservations, r.canonical ≠ canonical) ∧ c = canonical ∧
        q = p.withReservations [⟨owner, canonical, name⟩] := by
  rw [runs_reserve, ← Inventory.holder?_eq_none]
  unfold Inventory.reserve
  rw [h]
  dsimp only
  cases hh : p.inventory.holder? canonical with
  | some held =>
    constructor
    · intro hi
      rcases hi with ⟨i, hi, -⟩
      cases hi
    · intro hn
      rcases hn with ⟨hn, -⟩
      cases hn
  | none =>
    constructor
    · intro given
      rcases given with ⟨i, hi, rfl⟩
      cases hi
      exact ⟨rfl, rfl, rfl⟩
    · intro given
      rcases given with ⟨-, rfl, rfl⟩
      exact ⟨_, rfl, rfl⟩

/-- The reservations that are asked for before anything is compiled. -/
def requests (setting : Setting) : List Reservation :=
  (setting.declarations.inSpace .type).map
      (fun d => ⟨ownerOfType d.name, Text.pascal d.name.localPart, d.name⟩)
    ++ (elementsWithTypes setting).map
      fun d => ⟨ownerOfElement d.name, Text.pascal d.name.localPart, d.name⟩

theorem forIn_eq_forM {ι α : Type} (is : List ι) (f : ι → Compile α) :
    (forIn is PUnit.unit fun i _ => do let _ ← f i; pure (ForInStep.yield PUnit.unit))
      = forM is fun i => do let _ ← f i; return () := by
  induction is with
  | nil => rfl
  | cons i rest ih =>
    rw [List.forIn_cons, List.forM_cons, ← ih]
    simp only [bind_assoc, pure_bind]

def request (r : Reservation) : Compile Unit := do
  let _ ← reserve r.owner r.canonical r.name

theorem reserveAll_eq (setting : Setting) :
    reserveAll setting = forM (requests setting) request := by
  unfold reserveAll requests
  simp only [forIn_eq_forM, List.forM_append, List.forM_map, bind_pure_unit]
  rfl

/-- Requests of different owners are granted iff nobody else has their names. -/
theorem runs_requests (rs : List Reservation) :
    ∀ {p q : Progress}, ((p.inventory.reservations ++ rs).map (·.owner)).Nodup →
      (p.inventory.reservations.map (·.canonical)).Nodup →
      (Runs (forM rs request) p () q ↔
        ((p.inventory.reservations ++ rs).map (·.canonical)).Nodup ∧ q = p.withReservations rs) := by
  induction rs with
  | nil =>
    intro p q _ hc
    rw [List.forM_nil, runs_pure, List.append_nil, Progress.withReservations_nil]
    exact ⟨fun h => ⟨hc, h.2⟩, fun h => ⟨rfl, h.2⟩⟩
  | cons r rest ih =>
    intro p q ho hc
    have new : p.inventory.canonical? r.owner = none := by
      refine Inventory.canonical?_eq_none.mpr fun x hx e => ?_
      rw [List.map_append, List.nodup_append] at ho
      exact ho.2.2 _ (List.mem_map_of_mem hx) _ (List.mem_map_of_mem List.mem_cons_self) e
    have more : (p.withReservations [r]).inventory.reservations ++ rest
        = p.inventory.reservations ++ r :: rest := by
      show (_ ++ [r]) ++ rest = _
      rw [List.append_assoc, List.singleton_append]
    have first {a : Progress} : Runs (request r) p () a ↔
        (∀ x ∈ p.inventory.reservations, x.canonical ≠ r.canonical) ∧ a = p.withReservations [r] := by
      unfold request
      simp only [runs_bind, runs_reserve_of_none new, runs_pure]
      constructor
      · intro given
        rcases given with ⟨_, _, ⟨h, -, rfl⟩, -, rfl⟩
        exact ⟨h, rfl⟩
      · intro given
        rcases given with ⟨h, rfl⟩
        exact ⟨_, _, ⟨h, rfl, rfl⟩, trivial, rfl⟩
    have one : ((p.withReservations [r]).inventory.reservations.map (·.canonical)).Nodup ↔
        ∀ x ∈ p.inventory.reservations, x.canonical ≠ r.canonical := by
      show ((p.inventory.reservations ++ [r]).map (·.canonical)).Nodup ↔ _
      rw [List.map_append, List.nodup_append]
      simp only [hc, true_and, List.map_cons, List.map_nil, List.nodup_singleton,
        List.mem_singleton, forall_eq, List.forall_mem_map]
    rw [List.forM_cons, runs_bind]
    constructor
    · intro given
      rcases given with ⟨_, a, ha, h⟩
      obtain ⟨hn, rfl⟩ := first.mp ha
      have := (ih (more ▸ ho) (one.mpr hn)).mp h
      rw [more, Progress.withReservations_append, List.singleton_append] at this
      exact this
    · intro given
      rcases given with ⟨h, rfl⟩
      have hn : ∀ x ∈ p.inventory.reservations, x.canonical ≠ r.canonical := by
        rw [List.map_append, List.nodup_append] at h
        exact fun x hx => h.2.2 _ (List.mem_map_of_mem hx) _ (List.mem_map_of_mem List.mem_cons_self)
      refine ⟨(), _, first.mpr ⟨hn, rfl⟩, (ih (more ▸ ho) (one.mpr hn)).mpr ?_⟩
      rw [more, Progress.withReservations_append, List.singleton_append]
      exact ⟨h, rfl⟩

end Compile

end WsdlCatalog
