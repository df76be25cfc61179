/-
  WsdlCatalog.Proofs.Stages — the stages of a compilation.

  Names are reserved, all jobs are done, types get the members of their bases, the service
  description is read, and the entries are put in order (`runs_catalog`).

  Proved: after all jobs are done the progress is consistent, and every job has its entry
  (`consistent_of_jobs`); entries in order are all there are (`perm_of_byCanonical`).
-/

import WsdlCatalog.Proofs.Extension
import WsdlCatalog.Proofs.Jobs

namespace WsdlCatalog

namespace Compile

/-- The progress after types got the members of their bases. -/
def Progress.withTypes (p : Progress) (types : List (Option String × StructuralType)) : Progress :=
  { p with inventory := { p.inventory with types } }

theorem sound_withTypes {S : Setting} {names : Names} {p : Progress} (h : p.Sound S names)
    (types : List (Option String × StructuralType)) : (Progress.withTypes p types).Sound S names :=
  ⟨h.canonical, h.aliases, h.nodup⟩

theorem runs_extendAll {p q : Progress} {u : Unit} :
    Runs extendAll p u q ↔
      ∃ types, Extension.expand p.inventory.types = .ok types ∧ q = Progress.withTypes p types := by
  unfold extendAll
  simp only [runs_bind, runs_inventory]
  constructor
  · intro h
    rcases h with ⟨_, _, ⟨rfl, rfl⟩, h⟩
    split at h
    · rename_i types ht
      exact ⟨types, ht, runs_modify.mp h⟩
    · exact absurd h runs_throw
  · intro given
    rcases given with ⟨types, ht, rfl⟩
    refine ⟨_, _, ⟨rfl, rfl⟩, ?_⟩
    rw [ht]
    exact runs_modify.mpr rfl

theorem runs_frozen {p q : Progress} {x : List ScalarAlias × List StructuralType} :
    Runs frozen p x q ↔ p.inventory.sortedAliases? = some x.1 ∧
      p.inventory.sortedTypes? = some x.2 ∧ q = p := by
  unfold frozen
  simp only [runs_bind, runs_inventory]
  constructor
  · intro h
    rcases h with ⟨_, _, ⟨rfl, rfl⟩, h⟩
    split at h
    · rename_i aliases types ha ht
      obtain ⟨rfl, rfl⟩ := runs_pure.mp h
      exact ⟨ha, ht, rfl⟩
    · exact absurd h runs_throw
  · intro given
    rcases given with ⟨ha, ht, rfl⟩
    refine ⟨_, _, ⟨rfl, rfl⟩, ?_⟩
    rw [ha, ht]
    exact runs_pure.mpr ⟨rfl, rfl⟩

def assembled (setting : Setting) (set : SchemaSet) (aliases : List ScalarAlias)
    (types : List StructuralType) (operations : List Operation) (serviceName : Option String)
    (displayName : Loose String) (p : Progress) : Catalog where
  aliases := aliases
  types := types
  operations := operations
  marshalling := .ofTypes types
  options := setting.options
  source := .own set.location
  serviceName := serviceName.map .own
  displayName := displayName
  targetNamespace := .own set.targetNamespace
  diagnostics := p.diagnostics.mergeSort Diagnostic.le
  unresolved := p.unresolved.mergeSort fun a b => a ≤ b

structure Staged (S : Setting) (set : SchemaSet) (p q : Progress) (c : Catalog)
    (compiled : Progress) (types : List (Option String × StructuralType)) (aliases : List ScalarAlias)
    (sorted : List StructuralType) (operations : List Operation) (serviceName : Option String)
    (name : Loose String) : Prop where
  jobs : ∃ reserved, Runs (reserveAll S) p () reserved ∧ Runs (compileAll S) reserved () compiled
  expand : Extension.expand compiled.inventory.types = .ok types
  interface : Runs (interface S set) (Progress.withTypes compiled types) (operations, serviceName) q
  displayName : displayName S.options serviceName set.location = .ok name
  sortedAliases : q.inventory.sortedAliases? = some aliases
  sortedTypes : q.inventory.sortedTypes? = some sorted
  catalog : c = assembled S set aliases sorted operations serviceName name q

theorem runs_catalog {S : Setting} {set : SchemaSet} {p q : Progress} {c : Catalog} :
    Runs (catalog S set) p c q ↔ ∃ compiled types aliases sorted operations serviceName name,
      Staged S set p q c compiled types aliases sorted operations serviceName name := by
  unfold catalog
  simp only [runs_bind, runs_extendAll]
  constructor
  · intro given
    rcases given with ⟨_, r, hr, _, compiled, hc, _, _, ⟨types, ht, rfl⟩, ⟨operations, serviceName⟩, s, hi, h⟩
    dsimp only at h
    split at h
    · exact absurd h runs_throw
    · rename_i name hn
      simp only [runs_bind, runs_get, runs_frozen, runs_pure] at h
      obtain ⟨_, _, ⟨rfl, rfl⟩, ⟨aliases, sorted⟩, _, ⟨ha, hs, rfl⟩, rfl, rfl⟩ := h
      exact ⟨compiled, types, aliases, sorted, operations, serviceName, name, ⟨r, hr, hc⟩, ht, hi, hn,
        ha, hs, rfl⟩
  · intro given
    rcases given with ⟨compiled, types, aliases, sorted, operations, serviceName, name, h⟩
    obtain ⟨r, hr, hc⟩ := h.jobs
    refine ⟨(), r, hr, (), compiled, hc, (), _, ⟨types, h.expand, rfl⟩, (operations, serviceName), q,
      h.interface, ?_⟩
    dsimp only
    rw [h.displayName]
    simp only [runs_bind, runs_get, runs_frozen, runs_pure]
    exact ⟨_, _, ⟨rfl, rfl⟩, (aliases, sorted), _, ⟨h.sortedAliases, h.sortedTypes, rfl⟩, h.catalog, rfl⟩

/-! ## Entries in order -/

theorem perm_byName {α : Type} (entries : List (String × α)) :
    (Inventory.byName entries).Perm (entries.map (·.2)) :=
  (List.mergeSort_perm entries _).map _

theorem map_of_named {α : Type} {entries : List (Option String × α)} {named : List (String × α)}
    (h : entries.mapM (fun (name, entry) => name.map fun name => (name, entry)) = some named) :
    entries = named.map fun x => (some x.1, x.2) := by
  induction entries generalizing named with
  | nil =>
    obtain rfl := Option.some.inj h
    rfl
  | cons x rest ih =>
    obtain ⟨name, entry⟩ := x
    rw [List.mapM_cons] at h
    obtain ⟨first, hf, h⟩ := Option.bind_eq_some_iff.mp h
    obtain ⟨others, ho, h⟩ := Option.bind_eq_some_iff.mp h
    obtain rfl := Option.some.inj h
    obtain ⟨name, rfl, rfl⟩ := Option.map_eq_some_iff.mp hf
    rw [ih ho]
    rfl

/-- Entries in order are all there are. -/
theorem perm_of_byCanonical {α : Type} {entries : List (Option String × α)} {sorted : List α}
    (h : Inventory.byCanonical? entries = some sorted) : sorted.Perm (entries.map (·.2)) := by
  unfold Inventory.byCanonical? at h
  split at h
  · exact Option.some.inj h ▸ List.Perm.refl _
  · obtain ⟨named, hn, rfl⟩ := Option.map_eq_some_iff.mp h
    rw [map_of_named hn, List.map_map]
    exact perm_byName named

/-! ## All jobs -/

theorem runs_reserveAll {S : Setting} (h : S.WellFormed) {q : Progress} :
    Runs (reserveAll S) .start () q ↔
      ((requests S).map (·.canonical)).Nodup ∧ q = Progress.start.withReservations (requests S) := by
  rw [reserveAll_eq]
  exact runs_requests (p := .start) (requests S) h.nodup_owners List.nodup_nil

/-- When names are reserved, all jobs wait to be done. -/
theorem consistent_requested {S : Setting} (h : S.WellFormed)
    (hc : ((requests S).map (·.canonical)).Nodup) :
    (Progress.start.withReservations (requests S)).Consistent S S.names ∧
      Between S S.names [] (Progress.start.withReservations (requests S)) := by
  have nested (r : Reservation) (hr : r ∈ requests S) (parent element : String) :
      r.owner ≠ ownerOfNested parent element := by
    rw [← map_request] at hr
    obtain ⟨j, hj, rfl⟩ := List.mem_map.mp hr
    exact owner_ne_nested hj parent element
  have plain (r : Reservation) (hr : r ∈ requests S) : '/' ∉ r.canonical.toList := by
    rw [← map_request] at hr
    obtain ⟨j, hj, rfl⟩ := List.mem_map.mp hr
    exact Text.slash_not_mem_pascal _
  refine ⟨⟨⟨fun _ _ hn => hn, ?_, List.nodup_nil⟩, h.nodup_owners, hc, plain, ?_, List.nodup_nil,
    ?_, ?_, ?_⟩, ⟨List.Subset.refl _, ?_, ?_, ?_⟩⟩
  · exact fun _ hx => absurd hx List.not_mem_nil
  · exact fun r hr parent element _ ho => absurd ho (nested r hr parent element)
  · exact fun _ hx => absurd hx List.not_mem_nil
  · exact fun _ hx => absurd hx List.not_mem_nil
  · exact fun _ hx => absurd hx List.not_mem_nil
  · exact fun r hr parent element _ ho => absurd ho (nested r hr parent element)
  · exact fun _ hk => absurd hk List.not_mem_nil
  · exact fun _ hj => absurd hj List.not_mem_nil

/-- After all jobs are done, every job has its entry. -/
theorem consistent_of_jobs {S : Setting} (h : S.WellFormed) {reserved p : Progress}
    (hr : Runs (reserveAll S) .start () reserved) (hc : Runs (compileAll S) reserved () p) :
    Answers S.names S ∧ p.Consistent S S.names ∧ Between S S.names (jobs S) p := by
  obtain ⟨hn, rfl⟩ := (runs_reserveAll h).mp hr
  have answers := answers h hn
  obtain ⟨hp, hb⟩ := consistent_requested h hn
  rw [compileAll_eq] at hc
  obtain ⟨ys, new, -, hp, hb, -⟩ := runs_jobs (Setting.Twin.refl S) answers answers
    (List.forall₂_same.mpr fun j hj => ⟨hj, hj, rfl⟩) answers.nodup hp hb hc
  exact ⟨answers, hp, hb⟩

end Compile

end WsdlCatalog
