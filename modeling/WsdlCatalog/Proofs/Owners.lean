/-
  WsdlCatalog.Proofs.Owners — canonical names and their owners, whatever was asked for.

  Owners ask for canonical names one after another. A request is answered with a name or
  with a clash, and a clash keeps nobody from asking further (`askAll`). What a request
  comes to is one of three things (`Answered`): the owner has a name and is given it, the
  name is held by somebody else, or the owner gets what it asks for. So the answers alone
  tell who has which name (`mem_grantedBy_iff`).

  Proved, after any requests in any order (`askAll_honours`):
  - Names and owners are one to one, by both look-ups, and they are those of the answers.
  - There are as many of them as owners that were given a name.
  - What an owner was given it is given again, whatever it asks for and whoever asked in
    between.
  - A request clashes iff its owner has no name and another owner has the one that it asks
    for, and then nothing changes. A new owner gets a name that is free.
-/

import Mathlib.Data.Finset.Card
import Mathlib.Data.List.Induction
import WsdlCatalog.Proofs.Reservation

namespace WsdlCatalog

namespace Inventory

variable {inventory : Inventory}

structure Distinct (inventory : Inventory) : Prop where
  owners : (inventory.reservations.map (·.owner)).Nodup
  canonicals : (inventory.reservations.map (·.canonical)).Nodup

theorem Distinct.holder?_of_mem (h : inventory.Distinct) {r : Reservation}
    (hr : r ∈ inventory.reservations) : inventory.holder? r.canonical = some r :=
  find?_of_nodup Reservation.canonical h.canonicals hr

/-- The owner of the name of an owner is this owner, and the other way round. -/
theorem Distinct.canonical?_iff (h : inventory.Distinct) (owner name : String) :
    inventory.canonical? owner = some name ↔
      (inventory.holder? name).map (·.owner) = some owner := by
  constructor
  · intro has
    obtain ⟨r, hr, rfl, rfl⟩ := exists_of_canonical? has
    rw [h.holder?_of_mem hr, Option.map_some]
  · intro held
    obtain ⟨r, found, rfl⟩ := Option.map_eq_some_iff.mp held
    have same := List.find?_some found
    obtain rfl : r.canonical = name := eq_of_beq same
    exact canonical?_of_mem h.owners (List.mem_of_find?_eq_some found)

theorem mem_owners_iff {owner : String} : owner ∈ inventory.reservations.map (·.owner) ↔
    ∃ name, inventory.canonical? owner = some name := by
  rw [← Option.isSome_iff_exists, ← Option.ne_none_iff_isSome, Ne, canonical?_eq_none]
  simp only [List.mem_map, ne_eq, not_forall, not_not, exists_prop]

end Inventory

theorem Progress.canonical?_withReservations (p : Progress) (r : Reservation) (owner : String) :
    (p.withReservations [r]).inventory.canonical? owner =
      (p.inventory.canonical? owner).or (if r.owner = owner then some r.canonical else none) := by
  show ((p.inventory.reservations ++ [r]).find? _).map _ = _
  rw [List.find?_append, Option.map_or, List.find?_singleton]
  by_cases same : r.owner = owner
  · rw [if_pos (beq_iff_eq.mpr same), if_pos same]
    rfl
  · rw [if_neg (fun e => same (eq_of_beq e)), if_neg same]
    rfl

namespace Compile

/-! ## One request -/

/-- What a request for a canonical name comes to: its answer, and the progress after it. -/
inductive Answered (p : Progress) (r : Reservation) : Except Refusal String → Progress → Prop
  | known {name : String} (has : p.inventory.canonical? r.owner = some name) :
      Answered p r (.ok name) p
  | clash {held : Reservation} (new : p.inventory.canonical? r.owner = none)
      (taken : p.inventory.holder? r.canonical = some held) :
      Answered p r (.error (.fault (.nameClash r.canonical held.owner held.name r.name))) p
  | granted (new : p.inventory.canonical? r.owner = none)
      (free : p.inventory.holder? r.canonical = none) :
      Answered p r (.ok r.canonical) (p.withReservations [r])

variable {p q : Progress} {r : Reservation} {answer : Except Refusal String}

theorem answered_reserve (p : Progress) (r : Reservation) :
    Answered p r ((reserve r.owner r.canonical r.name).outcome p).1
      ((reserve r.owner r.canonical r.name).outcome p).2 := by
  unfold reserve
  simp only [outcome_bind, outcome_inventory, outcome_ofExcept, outcome_modify, outcome_pure]
  unfold Inventory.reserve
  cases has : p.inventory.canonical? r.owner with
  | some name => exact .known has
  | none =>
    cases taken : p.inventory.holder? r.canonical with
    | some held => exact .clash has taken
    | none => exact .granted has taken

/-- An owner keeps its name, whoever asks. -/
theorem Answered.keeps (h : Answered p r answer q) {owner name : String}
    (has : p.inventory.canonical? owner = some name) :
    q.inventory.canonical? owner = some name := by
  cases h with
  | known => exact has
  | clash => exact has
  | granted => rw [Progress.canonical?_withReservations, has, Option.some_or]

/-- What is answered is the name of the owner from then on. -/
theorem Answered.has {name : String} (h : Answered p r (.ok name) q) :
    q.inventory.canonical? r.owner = some name := by
  cases h with
  | known has => exact has
  | granted new => rw [Progress.canonical?_withReservations, new, Option.none_or, if_pos rfl]

/-- An owner has a name after a request that it had before, or that was the answer. -/
theorem Answered.canonical?_iff (h : Answered p r answer q) (owner name : String) :
    q.inventory.canonical? owner = some name ↔
      p.inventory.canonical? owner = some name ∨ (owner = r.owner ∧ answer = .ok name) := by
  constructor
  · intro has
    cases h with
    | known => exact .inl has
    | clash => exact .inl has
    | granted =>
      rw [Progress.canonical?_withReservations, Option.or_eq_some_iff] at has
      rcases has with had | ⟨-, own⟩
      · exact .inl had
      · split at own
        · rename_i same
          exact .inr ⟨same.symm, congrArg Except.ok (Option.some.inj own)⟩
        · cases own
  · rintro (had | ⟨rfl, rfl⟩)
    · exact h.keeps had
    · exact h.has

theorem Answered.distinct (h : Answered p r answer q) (hp : p.inventory.Distinct) :
    q.inventory.Distinct := by
  cases h with
  | known => exact hp
  | clash => exact hp
  | granted new free =>
    have owners : r.owner ∉ p.inventory.reservations.map (·.owner) := by
      rw [Inventory.canonical?_eq_none] at new
      simpa using new
    have canonicals : r.canonical ∉ p.inventory.reservations.map (·.canonical) := by
      rw [Inventory.holder?_eq_none] at free
      simpa using free
    constructor
    · show ((p.inventory.reservations ++ [r]).map (·.owner)).Nodup
      rw [List.map_append, List.map_singleton, ← List.concat_eq_append]
      exact hp.owners.concat owners
    · show ((p.inventory.reservations ++ [r]).map (·.canonical)).Nodup
      rw [List.map_append, List.map_singleton, ← List.concat_eq_append]
      exact hp.canonicals.concat canonicals

/-- An owner that has a name is given it, whatever it asks for. -/
theorem Answered.again (h : Answered p r answer q) {name : String}
    (has : p.inventory.canonical? r.owner = some name) : answer = .ok name := by
  cases h with
  | known has' => exact congrArg Except.ok (Option.some.inj (has'.symm.trans has))
  | clash new => cases new.symm.trans has
  | granted new => cases new.symm.trans has

/-- A new owner gets a name that is free. -/
theorem Answered.free (h : Answered p r answer q) (new : p.inventory.canonical? r.owner = none)
    (unheld : p.inventory.holder? r.canonical = none) : answer = .ok r.canonical := by
  cases h with
  | known has => cases new.symm.trans has
  | clash _ taken => cases unheld.symm.trans taken
  | granted => rfl

/-- A new owner holds no name, so who holds the one that it asks for is another one. -/
theorem Answered.error_iff (h : Answered p r answer q) (refusal : Refusal) :
    answer = .error refusal ↔ p.inventory.canonical? r.owner = none ∧
      ∃ held, p.inventory.holder? r.canonical = some held ∧ held.owner ≠ r.owner ∧
        refusal = .fault (.nameClash r.canonical held.owner held.name r.name) := by
  constructor
  · rintro rfl
    cases h with
    | clash new taken =>
      have other := Inventory.canonical?_eq_none.mp new _ (List.mem_of_find?_eq_some taken)
      exact ⟨new, _, taken, other, rfl⟩
  · rintro ⟨new, held, taken, -, rfl⟩
    cases h with
    | known has => cases new.symm.trans has
    | clash _ taken' =>
      obtain rfl := Option.some.inj (taken.symm.trans taken')
      rfl
    | granted _ unheld => cases unheld.symm.trans taken

/-- A clash changes nothing. -/
theorem Answered.unchanged {refusal : Refusal} (h : Answered p r (.error refusal) q) : q = p := by
  cases h
  rfl

/-! ## Any requests -/

/-- Asks for canonical names, one after another, with the answer to each. -/
def askAll (asked : List Reservation) :
    StateM Progress (List (Reservation × Except Refusal String)) :=
  asked.mapM fun r => do return (r, ← (reserve r.owner r.canonical r.name).run)

/-- The progress after requests from the start. -/
def progressAfter (asked : List Reservation) : Progress := ((askAll asked).run .start).2

def answersTo (asked : List Reservation) : List (Reservation × Except Refusal String) :=
  ((askAll asked).run .start).1

def answerNext (asked : List Reservation) (r : Reservation) : Except Refusal String :=
  ((reserve r.owner r.canonical r.name).outcome (progressAfter asked)).1

/-- The owners that were answered with a name, each time, and this name. -/
def grantedBy (asked : List Reservation) : List (String × String) :=
  (answersTo asked).filterMap fun x => x.2.toOption.map (x.1.owner, ·)

variable {asked : List Reservation}

theorem askAll_concat (asked : List Reservation) (r : Reservation) :
    (askAll (asked ++ [r])).run .start = (answersTo asked ++ [(r, answerNext asked r)],
      ((reserve r.owner r.canonical r.name).outcome (progressAfter asked)).2) := by
  unfold askAll
  rw [List.mapM_append]
  rfl

theorem answered_concat (asked : List Reservation) (r : Reservation) :
    Answered (progressAfter asked) r (answerNext asked r) (progressAfter (asked ++ [r])) := by
  unfold progressAfter
  rw [askAll_concat]
  exact answered_reserve _ r

theorem mem_grantedBy_concat {owner name : String} :
    (owner, name) ∈ grantedBy (asked ++ [r]) ↔
      (owner, name) ∈ grantedBy asked ∨ (owner = r.owner ∧ answerNext asked r = .ok name) := by
  unfold grantedBy answersTo
  rw [askAll_concat, List.filterMap_append, List.mem_append]
  cases answerNext asked r with
  | error e => simp [answersTo, Except.toOption]
  | ok given => simp [answersTo, Except.toOption, @eq_comm _ given]

theorem distinct_progressAfter (asked : List Reservation) :
    (progressAfter asked).inventory.Distinct := by
  induction asked using List.reverseRecOn with
  | nil => exact ⟨List.nodup_nil, List.nodup_nil⟩
  | append_singleton asked r ih => exact (answered_concat asked r).distinct ih

/-- The answers tell who has which name. -/
theorem mem_grantedBy_iff (asked : List Reservation) (owner name : String) :
    (owner, name) ∈ grantedBy asked ↔
      (progressAfter asked).inventory.canonical? owner = some name := by
  induction asked using List.reverseRecOn with
  | nil => exact ⟨nofun, nofun⟩
  | append_singleton asked r ih =>
    rw [mem_grantedBy_concat, (answered_concat asked r).canonical?_iff, ih]

theorem canonical?_progressAfter_append {owner name : String}
    (h : (progressAfter asked).inventory.canonical? owner = some name) (later : List Reservation) :
    (progressAfter (asked ++ later)).inventory.canonical? owner = some name := by
  induction later using List.reverseRecOn with
  | nil =>
    rw [List.append_nil]
    exact h
  | append_singleton later r ih =>
    rw [← List.append_assoc]
    exact (answered_concat _ r).keeps ih

theorem size_progressAfter (asked : List Reservation) :
    (progressAfter asked).inventory.size = ((grantedBy asked).map Prod.fst).toFinset.card := by
  have same : ((progressAfter asked).inventory.reservations.map (·.owner)).toFinset
      = ((grantedBy asked).map Prod.fst).toFinset := by
    ext owner
    rw [List.mem_toFinset, List.mem_toFinset, Inventory.mem_owners_iff]
    simp only [← mem_grantedBy_iff, List.mem_map, Prod.exists, exists_and_right, exists_eq_right]
  rw [← same, List.toFinset_card_of_nodup (distinct_progressAfter asked).owners, List.length_map]
  rfl

/-- What holds after requests for canonical names, of them and of whatever is asked next. -/
structure Honours (asked : List Reservation) : Prop where
  next : ∀ r, answersTo (asked ++ [r]) = answersTo asked ++ [(r, answerNext asked r)]
  distinct : (progressAfter asked).inventory.Distinct
  inverse : ∀ owner name, (progressAfter asked).inventory.canonical? owner = some name ↔
    ((progressAfter asked).inventory.holder? name).map (·.owner) = some owner
  /-- The names are those of the answers. -/
  told : ∀ owner name, (progressAfter asked).inventory.canonical? owner = some name ↔
    (owner, name) ∈ grantedBy asked
  size : (progressAfter asked).inventory.size = ((grantedBy asked).map Prod.fst).toFinset.card
  /-- A name that is answered stays the name of its owner, and the answer to its owner. -/
  kept : ∀ r name, answerNext asked r = .ok name → ∀ later,
    (progressAfter (asked ++ r :: later)).inventory.canonical? r.owner = some name ∧
      ∀ other declared, answerNext (asked ++ r :: later) ⟨r.owner, other, declared⟩ = .ok name
  clash_iff : ∀ r refusal, answerNext asked r = .error refusal ↔
    (∀ name, (r.owner, name) ∉ grantedBy asked) ∧
      ∃ held, (progressAfter asked).inventory.holder? r.canonical = some held ∧
        held.owner ≠ r.owner ∧
        refusal = .fault (.nameClash r.canonical held.owner held.name r.name)
  unchanged : ∀ r refusal, answerNext asked r = .error refusal →
    progressAfter (asked ++ [r]) = progressAfter asked
  free : ∀ r, (∀ name, (r.owner, name) ∉ grantedBy asked) →
    (progressAfter asked).inventory.holder? r.canonical = none →
    answerNext asked r = .ok r.canonical

theorem new_iff (asked : List Reservation) (owner : String) :
    (∀ name, (owner, name) ∉ grantedBy asked) ↔
      (progressAfter asked).inventory.canonical? owner = none := by
  simp only [mem_grantedBy_iff, Option.eq_none_iff_forall_ne_some, ne_eq]

/-- **Canonical names and owners are one to one whatever was asked for,** what was answered is
answered again, and a clash changes nothing. -/
theorem askAll_honours (asked : List Reservation) : Honours asked where
  next r := congrArg Prod.fst (askAll_concat asked r)
  distinct := distinct_progressAfter asked
  inverse := (distinct_progressAfter asked).canonical?_iff
  told owner name := (mem_grantedBy_iff asked owner name).symm
  size := size_progressAfter asked
  kept r name given later := by
    have has : (progressAfter (asked ++ r :: later)).inventory.canonical? r.owner = some name := by
      have answered := answered_concat asked r
      rw [given] at answered
      have := canonical?_progressAfter_append answered.has later
      rwa [List.append_assoc, List.singleton_append] at this
    exact ⟨has, fun other declared => (answered_concat _ ⟨r.owner, other, declared⟩).again has⟩
  clash_iff r refusal := by
    rw [new_iff]
    exact (answered_concat asked r).error_iff refusal
  unchanged r refusal refused := by
    have answered := answered_concat asked r
    rw [refused] at answered
    exact answered.unchanged
  free r new unheld := (answered_concat asked r).free ((new_iff asked r.owner).mp new) unheld

/-- The second owner asks for a name that the first one has, and then for another one. -/
example : (answersTo [⟨"a", "Temp", ⟨none, "temp"⟩⟩, ⟨"a", "Other", ⟨none, "temp"⟩⟩,
    ⟨"b", "Temp", ⟨none, "Temp"⟩⟩, ⟨"b", "Other", ⟨none, "Temp"⟩⟩]).map (·.2.toOption)
      = [some "Temp", some "Temp", none, some "Other"] := by
  decide +kernel

end Compile

end WsdlCatalog
