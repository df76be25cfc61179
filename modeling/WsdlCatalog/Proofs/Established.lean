/-
  WsdlCatalog.Proofs.Established — all complex types and their definitions.

  Between two jobs nothing is reserved inside a type without an entry (`Established`), so a
  complex type whose job is due is ready to be compiled. This needs nothing of the names of
  declarations: where two have one key, the first takes the canonical name and the job of the
  other finds the entry.

  Proved: after all jobs every complex type with an entry was made from its definition, and
  so were the types inside it (`established_of_jobs`).
-/

import WsdlCatalog.Proofs.Entering

namespace WsdlCatalog

namespace Compile

variable {S : Setting}

/-- Some jobs are done: entries have definitions, and whatever is reserved inside a type is inside
one with an entry. -/
structure Established (S : Setting) (i : Inventory) : Prop where
  tidy : i.Tidy
  entered : Entered S i
  closed : ∀ r ∈ i.reservations, ∀ parent element, '/' ∉ parent.toList →
    r.owner = ownerOfNested parent element → some parent ∈ i.typeKeys
  requested : ∀ r ∈ requests S, (i.canonical? r.owner).isSome
  known : ∀ r ∈ i.reservations, r ∈ requests S ∨ some r.canonical ∈ i.typeKeys

/-- What every step preserves holds after all of them; `I` sees what was done. -/
theorem runs_forM {ι : Type} {I : List ι → Progress → Prop} {f : ι → Compile Unit} {is : List ι}
    (step : ∀ done i p q, i ∈ is → I done p → Runs (f i) p () q → I (done ++ [i]) q) {p q : Progress}
    {u : Unit} (hp : I [] p) (h : Runs (forM is f) p u q) : I is q := by
  suffices ∀ rest done p, rest ⊆ is → I done p → Runs (forM rest f) p u q → I (done ++ rest) q from
    this is [] p (List.Subset.refl _) hp h
  intro rest
  induction rest with
  | nil =>
    intro done p _ hp h
    rw [List.forM_nil, runs_pure] at h
    rw [List.append_nil, h.2]
    exact hp
  | cons i rest ih =>
    intro done p hs hp h
    rw [List.forM_cons, runs_bind] at h
    obtain ⟨_, r, hi, h⟩ := h
    rw [List.cons_subset] at hs
    have := ih (done ++ [i]) r hs.2 (step done i p r hs.1 hp hi) h
    rwa [List.append_assoc] at this

/-! ## Requests -/

theorem asked_of_request {r : Reservation} (hr : r ∈ requests S) :
    r.Asked ∧ ∀ parent element, r.owner ≠ ownerOfNested parent element := by
  rcases List.mem_append.mp hr with hr | hr
  · obtain ⟨d, -, rfl⟩ := List.mem_map.mp hr
    exact ⟨.type d.name, ownerOfType_ne_nested _⟩
  · obtain ⟨d, -, rfl⟩ := List.mem_map.mp hr
    exact ⟨.element d.name, ownerOfElement_ne_nested _⟩

/-- An owner keeps its name when others get theirs. -/
theorem isSome_canonical?_append {i : Inventory} {owner : String} (rs : List Reservation)
    (h : (i.canonical? owner).isSome) :
    (Inventory.canonical? { i with reservations := i.reservations ++ rs } owner).isSome := by
  obtain ⟨c, hc⟩ := Option.isSome_iff_exists.mp h
  obtain ⟨r, hr, ho, -⟩ := Inventory.exists_of_canonical? hc
  rw [Option.isSome_iff_ne_none, ne_eq, Inventory.canonical?_eq_none]
  exact fun hn => hn r (List.mem_append_left _ hr) ho

/-- Names are reserved for all that was requested so far, and for nothing else. -/
structure Requested (S : Setting) (done : List Reservation) (i : Inventory) : Prop where
  tidy : i.Tidy
  bare : i.types = []
  known : i.reservations ⊆ requests S
  done : ∀ r ∈ done, (i.canonical? r.owner).isSome

theorem requested_request {r : Reservation} (hr : r ∈ requests S) {done : List Reservation}
    {p q : Progress} (hp : Requested S done p.inventory) (h : Runs (request r) p () q) :
    Requested S (done ++ [r]) q.inventory := by
  obtain ⟨asked, global⟩ := asked_of_request hr
  unfold request at h
  obtain ⟨c, _, h, hu⟩ := runs_bind.mp h
  obtain ⟨-, rfl⟩ := runs_pure.mp hu
  cases hc : p.inventory.canonical? r.owner with
  | some current =>
    obtain ⟨-, rfl⟩ := (runs_reserve_of_some hc).mp h
    refine ⟨hp.tidy, hp.bare, hp.known, List.forall_mem_append.mpr
      ⟨hp.done, List.forall_mem_singleton.mpr ?_⟩⟩
    rw [hc]
    rfl
  | none =>
    obtain ⟨free, -, rfl⟩ := (runs_reserve_of_none hc).mp h
    refine ⟨hp.tidy.reserving asked (Inventory.not_held.mpr free)
      fun parent element _ ho => absurd ho (global parent element), hp.bare,
      List.append_subset.mpr ⟨hp.known, List.cons_subset.mpr ⟨hr, List.nil_subset _⟩⟩,
      List.forall_mem_append.mpr ⟨fun x hx => isSome_canonical?_append _ (hp.done x hx),
        List.forall_mem_singleton.mpr ?_⟩⟩
    rw [Option.isSome_iff_ne_none, ne_eq, Inventory.canonical?_eq_none]
    exact fun hn => hn _ (List.mem_append_right _ (List.mem_singleton.mpr rfl)) rfl

/-- When names are reserved, all jobs are due. -/
theorem established_of_requests {p : Progress} (h : Runs (reserveAll S) .start () p) :
    Established S p.inventory := by
  rw [reserveAll_eq] at h
  have start : Requested S [] Progress.start.inventory :=
    ⟨Inventory.tidy_empty, rfl, fun _ h => absurd h List.not_mem_nil,
      fun _ h => absurd h List.not_mem_nil⟩
  have requested : Requested S (requests S) p.inventory :=
    runs_forM (I := fun done p => Requested S done p.inventory)
      (fun _ _ _ _ hr hp h => requested_request hr hp h) start h
  refine ⟨requested.tidy, ?_, ?_, requested.done, fun r hr => .inl (requested.known hr)⟩
  · intro x hx
    rw [requested.bare] at hx
    exact absurd hx List.not_mem_nil
  · intro r hr parent element _ ho
    exact absurd ho ((asked_of_request (requested.known hr)).2 parent element)

/-! ## Jobs -/

theorem Established.quiet {p q : Progress} (h : Established S p.inventory) (hq : Quiet p q) :
    Established S q.inventory where
  tidy := hq.tidy
  entered := h.entered.mono (hq.reservations ▸ List.Subset.refl _) hq.types
  closed := by
    unfold Inventory.typeKeys
    rw [hq.reservations, hq.types]
    exact h.closed
  requested := by
    unfold Inventory.canonical?
    rw [hq.reservations]
    exact h.requested
  known := by
    unfold Inventory.typeKeys
    rw [hq.reservations, hq.types]
    exact h.known

theorem Established.compiled {i j : Inventory} {root : String} {name : QName} {anonymous : Bool}
    {site : Site} (h : Established S i) (hc : Compiled S root name anonymous site i j) : Established S j where
  tidy := hc.tidy
  entered := hc.entered
  closed r hr parent element hs ho := by
    by_cases hi : r ∈ i.reservations
    · exact Inventory.typeKeys_mono hc.grown.types (h.closed r hi parent element hs ho)
    · obtain ⟨parent', element', hs', ho', hp⟩ := hc.grown.fresh r hr hi
      obtain ⟨rfl, -⟩ := ownerOfNested_injective hs' hs (ho'.symm.trans ho)
      rcases hp with rfl | ⟨-, hp⟩
      · obtain ⟨t, ht, -⟩ := hc.entry
        exact List.mem_map_of_mem ht
      · exact hp
  requested r hr := by
    obtain ⟨c, hcanonical⟩ := Option.isSome_iff_exists.mp (h.requested r hr)
    obtain ⟨r', hr', ho, -⟩ := Inventory.exists_of_canonical? hcanonical
    rw [Option.isSome_iff_ne_none, ne_eq, Inventory.canonical?_eq_none]
    exact fun hn => hn r' (hc.grown.reservations hr') ho
  known r hr := by
    by_cases hi : r ∈ i.reservations
    · exact (h.known r hi).imp id (@Inventory.typeKeys_mono _ _ hc.grown.types _)
    · exact .inr (hc.grown.compiled r hr hi)

/-- A declared type without an entry is compiled from its definition. -/
theorem Established.compileOnce {p q : Progress} {anonymous : Bool} {owner : String} {name : QName}
    {site : Site} (h : Established S p.inventory) (requested : (p.inventory.canonical? owner).isSome)
    (named : anonymous = false ↔ ∃ name, owner = ownerOfType name)
    (hd : ∀ c, p.inventory.canonical? owner = some c → Defined S c name anonymous site)
    (hr : Runs (compileOnce S anonymous owner name site) p () q) : Established S q.inventory := by
  obtain ⟨c, hc⟩ := Option.isSome_iff_exists.mp requested
  unfold Compile.compileOnce at hr
  simp only [runs_bind, runs_inventory] at hr
  obtain ⟨_, _, ⟨rfl, rfl⟩, _, _, ⟨rfl, rfl⟩, hr⟩ := hr
  rw [hc] at hr
  split at hr
  · rename_i hn
    obtain ⟨r, hm, ho, held⟩ := Inventory.exists_of_canonical? hc
    have absent : some c ∉ _ := fun hk => by
      rw [Inventory.isCompiled_of_mem hk] at hn
      cases hn
    have plain := (h.tidy.asked r hm).plain
    rw [held] at plain
    have ready : Ready S c anonymous _ := ⟨h.tidy, h.entered, ⟨r, hm, held, ho ▸ named⟩,
      fun x hx element ho => absent (h.closed x hx c element plain ho), absent⟩
    exact h.compiled (compiles_complexTypeIn S.nesting anonymous (hd c hc) ready hr)
  · obtain ⟨-, rfl⟩ := runs_pure.mp hr
    exact h

theorem Established.job {p q : Progress} {j : Job} (h : Established S p.inventory) (hj : j ∈ jobs S)
    (hr : Runs (j.run S) p () q) : Established S q.inventory := by
  have requested : (p.inventory.canonical? j.owner).isSome :=
    h.requested j.request (map_request S ▸ List.mem_map_of_mem hj)
  have asked {c : String} (hc : p.inventory.canonical? j.owner = some c) :
      ∃ r : Reservation, r.Asked ∧ r.owner = j.owner ∧ r.canonical = c := by
    obtain ⟨r, hr, ho, hc⟩ := Inventory.exists_of_canonical? hc
    exact ⟨r, h.tidy.asked r hr, ho, hc⟩
  rcases List.mem_append.mp hj with hj | hj
  · obtain ⟨d, hd, rfl⟩ := List.mem_map.mp hj
    unfold Job.ofType at hr requested asked
    split at hr
    · obtain ⟨a, r, hr, hu⟩ := runs_bind.mp hr
      obtain ⟨-, rfl⟩ := runs_pure.mp hu
      have kept := kept_framed p.inventory.reservations p.inventory.types
      obtain ⟨⟨tidy, reservations, types⟩, -⟩ := kept.compileAlias d p a _ ⟨h.tidy, rfl, rfl⟩ hr
      exact h.quiet ⟨tidy, reservations, types⟩
    · rename_i hc
      rw [if_neg hc] at requested asked
      refine h.compileOnce requested ⟨fun _ => ⟨_, rfl⟩, fun _ => rfl⟩ (fun c hcanonical => ?_) hr
      obtain ⟨r, ha, ho, rfl⟩ := asked hcanonical
      obtain ⟨same, hk, he⟩ := ha.canonical_type ho
      rw [he]
      exact .type hd (Bool.eq_false_iff.mpr hc) hk
  · obtain ⟨d, hd, hof⟩ := List.mem_filterMap.mp hj
    obtain ⟨inner, hi, rfl⟩ := Option.map_eq_some_iff.mp hof
    have unnamed : true = false ↔ ∃ name, ownerOfElement d.name = ownerOfType name :=
      ⟨nofun, fun given => absurd given.choose_spec.symm (ownerOfType_ne_element _ _)⟩
    refine h.compileOnce requested unnamed (fun c hcanonical => ?_) hr
    obtain ⟨r, ha, ho, rfl⟩ := asked hcanonical
    obtain ⟨same, hk, he⟩ := ha.canonical_element ho
    rw [he]
    exact .element hd hi hk

/-- After all jobs every complex type was made from its definition. -/
theorem established_of_jobs {reserved p : Progress} (hr : Runs (reserveAll S) .start () reserved)
    (hc : Runs (compileAll S) reserved () p) : Established S p.inventory := by
  rw [compileAll_eq] at hc
  exact runs_forM (I := fun _ p => Established S p.inventory) (fun _ _ _ _ hj hp h => hp.job hj h)
    (established_of_requests hr) hc

end Compile

end WsdlCatalog
