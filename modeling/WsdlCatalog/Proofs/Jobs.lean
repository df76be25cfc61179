/-
  WsdlCatalog.Proofs.Jobs — all that is compiled on its own.

  A compilation goes through the simple and complex types that are declared, and the types
  of elements with types of their own: each is a job, done once. Between two jobs every
  type that is reserved inside another one has an entry, and so has that other one
  (`Between`). So a job that was not done finds its type waiting to be compiled.

  Proved: when all jobs are done the progress is consistent and every job has its entry,
  and each job yields the same in a twin compilation (`runs_jobs`).
-/

import WsdlCatalog.Proofs.Bodies

namespace WsdlCatalog

namespace Compile

inductive Job where
  | simple (d : Declaration)
  | complex (anonymous : Bool) (owner : String) (name : QName) (site : Site)

namespace Job

def owner : Job → String
  | simple d => ownerOfType d.name
  | complex _ owner _ _ => owner

def name : Job → QName
  | simple d => d.name
  | complex _ _ name _ => name

def canonical (j : Job) : String := Text.pascal j.name.localPart

def request (j : Job) : Reservation := ⟨j.owner, j.canonical, j.name⟩

def bare : Job → Job
  | simple d => simple d.bare
  | complex anonymous owner name site => complex anonymous owner name site.bare

def roots : Job → List String
  | simple _ => []
  | complex _ _ name _ => [Text.pascal name.localPart]

def run (setting : Setting) : Job → Compile Unit
  | simple d => do
    let _ ← compileAlias setting d
  | complex anonymous owner name site => compileOnce setting anonymous owner name site

def ofType (d : Declaration) : Job :=
  if d.isSimpleType then simple d else complex false (ownerOfType d.name) d.name d.site

def ofElement? (d : Declaration) : Option Job :=
  (d.site.node.child? Vocabulary.xsd "complexType").map fun inner =>
    complex true (ownerOfElement d.name) d.name (d.site.atNode inner)

end Job

def jobs (setting : Setting) : List Job :=
  (setting.declarations.inSpace .type).map Job.ofType
    ++ (elementsWithTypes setting).filterMap Job.ofElement?

theorem forM_filterMap {ι κ : Type} (is : List ι) (f : ι → Option κ) (g : κ → Compile Unit) :
    forM (is.filterMap f) g = forM is fun i => (f i).elim (pure ()) g := by
  induction is with
  | nil => rfl
  | cons i rest ih =>
    rw [List.filterMap_cons, List.forM_cons, ← ih]
    cases f i with
    | none => rw [Option.elim_none, pure_bind]
    | some k => rw [List.forM_cons, Option.elim_some]

theorem compileAll_eq (setting : Setting) :
    compileAll setting = forM (jobs setting) (Job.run setting) := by
  have type (d : Declaration) : (Job.ofType d).run setting = compileType setting d := by
    unfold compileType Job.ofType
    split <;> rfl
  have element (d : Declaration) :
      (Job.ofElement? d).elim (pure ()) (Job.run setting) = compileElement setting d := by
    unfold compileElement Job.ofElement?
    cases d.site.node.child? Vocabulary.xsd "complexType" <;> rfl
  unfold compileAll jobs
  rw [List.forM_append, List.forM_map, forM_filterMap, funext type, funext element]
  rfl

/-- The jobs ask for what is asked for in advance. -/
theorem map_request (setting : Setting) : (jobs setting).map Job.request = requests setting := by
  unfold jobs requests
  rw [List.map_append, List.map_map, List.map_filterMap]
  congr 1
  · refine List.map_congr_left fun d _ => ?_
    show (Job.ofType d).request = _
    unfold Job.ofType
    split <;> rfl
  · rw [← List.filterMap_eq_map]
    refine List.filterMap_congr fun d hd => ?_
    have own := (List.mem_filter.mp hd).2
    unfold hasOwnType at own
    unfold Job.ofElement?
    cases hc : d.site.node.child? Vocabulary.xsd "complexType" with
    | some inner => rfl
    | none =>
      rw [hc] at own
      simp at own

theorem map_canonical (setting : Setting) :
    (jobs setting).map Job.canonical = (requests setting).map (·.canonical) := by
  rw [← map_request, List.map_map]
  rfl

theorem owner_ne_nested {setting : Setting} {j : Job} (hj : j ∈ jobs setting)
    (parent element : String) : j.owner ≠ ownerOfNested parent element := by
  rcases List.mem_append.mp hj with hj | hj
  · obtain ⟨d, -, rfl⟩ := List.mem_map.mp hj
    unfold Job.ofType
    split
    · exact ownerOfType_ne_nested _ _ _
    · exact ownerOfType_ne_nested _ _ _
  · obtain ⟨d, -, hd⟩ := List.mem_filterMap.mp hj
    obtain ⟨inner, -, rfl⟩ := Option.map_eq_some_iff.mp hd
    exact ownerOfElement_ne_nested _ _ _

theorem isSimple_of_mem {setting : Setting} (h : setting.WellFormed) {d : Declaration}
    (hd : .simple d ∈ jobs setting) : setting.IsSimple d := by
  rcases List.mem_append.mp hd with hd | hd
  · obtain ⟨e, he, hj⟩ := List.mem_map.mp hd
    unfold Job.ofType at hj
    split at hj
    · rename_i hs
      cases hj
      exact ⟨h.lookup_of_mem he, hs⟩
    · cases hj
  · obtain ⟨e, -, he⟩ := List.mem_filterMap.mp hd
    obtain ⟨inner, -, hj⟩ := Option.map_eq_some_iff.mp he
    cases hj

theorem mem_of_isSimple {setting : Setting} {d : Declaration} (hd : setting.IsSimple d) :
    .simple d ∈ jobs setting := by
  refine List.mem_append_left _ (List.mem_map.mpr ⟨d, ?_, ?_⟩)
  · exact Setting.WellFormed.mem_of_lookup hd.declared
  · unfold Job.ofType
    rw [if_pos hd.simple]

structure Answers (names : Names) (S : Setting) : Prop where
  formed : S.WellFormed
  nodup : ((jobs S).map Job.canonical).Nodup
  tell : names.Tell S
  job : ∀ j ∈ jobs S, names j.owner = some j.canonical

theorem answers {S : Setting} (h : S.WellFormed) (hc : ((requests S).map (·.canonical)).Nodup) :
    Answers S.names S where
  formed := h
  nodup := map_canonical S ▸ hc
  tell := h.tell hc
  job j hj := @Inventory.canonical?_of_mem ⟨requests S, [], []⟩ h.nodup_owners j.request
    (map_request S ▸ List.mem_map_of_mem hj)

section

variable {S T : Setting} {names : Names}

theorem Answers.inj (h : Answers names S) {j k : Job} (hj : j ∈ jobs S) (hk : k ∈ jobs S)
    (he : j.canonical = k.canonical) : j = k :=
  List.inj_on_of_nodup_map h.nodup hj hk he

/-- No simple type has the name of a complex one. -/
theorem Answers.complex (h : Answers names S) {anonymous : Bool} {owner : String} {name : QName}
    {site : Site} (hj : .complex anonymous owner name site ∈ jobs S) {d : Declaration}
    (hd : S.IsSimple d) : names (ownerOfType d.name) ≠ some (Text.pascal name.localPart) := by
  intro he
  have hn : names (ownerOfType d.name) = some (Text.pascal d.name.localPart) :=
    h.job _ (mem_of_isSimple hd)
  have := h.inj (mem_of_isSimple hd) hj (Option.some.inj (hn.symm.trans he))
  cases this

/-! ## What a job yields -/

/-- A job yields `y` from wherever that is free. -/
def Job.Yields (S : Setting) (names : Names) (j : Job) (y : Yield) : Prop :=
  ∀ p : Progress, p.Sound S names → p.Free y →
    ∃ q new, Runs (j.run S) p () q ∧ q.Sound S names ∧ p.Growth S q y new

def Job.Entered (S : Setting) (names : Names) (p : Progress) : Job → Prop
  | .simple d => ∃ a, S.IsEntry names d a ∧ (a.name, a) ∈ p.inventory.aliases
  | .complex _ _ name _ => some (Text.pascal name.localPart) ∈ p.inventory.typeKeys

theorem Job.Entered.growth {p q : Progress} {y : Yield} {new : List ScalarAlias}
    (hg : p.Growth S q y new) {j : Job} (h : j.Entered S names p) : j.Entered S names q := by
  cases j with
  | simple d =>
    obtain ⟨a, ha, hm⟩ := h
    refine ⟨a, ha, ?_⟩
    rw [hg.inventory]
    exact List.mem_append_left _ hm
  | complex anonymous owner name site =>
    unfold Job.Entered at h ⊢
    rw [hg.typeKeys]
    exact List.mem_append_left _ h

theorem runs_compileOnce {p q : Progress} {anonymous : Bool} {owner c : String} {name : QName}
    {site : Site} (hc : p.inventory.canonical? owner = some c)
    (hn : p.inventory.isCompiled (some c) = false) :
    Runs (compileOnce S anonymous owner name site) p () q ↔
      Runs (complexType S anonymous (some c) name site) p () q := by
  unfold compileOnce
  simp only [runs_bind, runs_inventory]
  constructor
  · intro h
    rcases h with ⟨_, _, ⟨rfl, rfl⟩, _, _, ⟨rfl, rfl⟩, h⟩
    rwa [hc, hn] at h
  · intro h
    refine ⟨_, _, ⟨rfl, rfl⟩, _, _, ⟨rfl, rfl⟩, ?_⟩
    rwa [hc, hn]

structure Job.Done (S T : Setting) (names : Names) (j k : Job) (p q : Progress) (y : Yield)
    (new : List ScalarAlias) : Prop where
  consistent : q.Consistent S names
  growth : p.Growth S q y new
  free : p.Free y
  under : y.Under j.roots j.roots
  entered : j.Entered S names q
  yields : k.Yields T names y

theorem done_simple (h : S.Twin T) (hS : Answers names S) (hT : Answers names T) {d e : Declaration}
    (hb : d.bare = e.bare) (hd : .simple d ∈ jobs S) (he : .simple e ∈ jobs T) {p q : Progress}
    (hp : p.Consistent S names) (hr : Runs ((Job.simple d).run S) p () q) :
    ∃ y new, Job.Done S T names (.simple d) (.simple e) p q y new := by
  obtain ⟨a, _, hr, hu⟩ := runs_bind.mp hr
  obtain ⟨-, rfl⟩ := runs_pure.mp hu
  have simple := isSimple_of_mem hS.formed hd
  obtain ⟨ha, hm, new, hs⟩ := compileAlias_sound hS.tell d p a q simple hp.sound hr
  have entry := ha.twin h hb (isSimple_of_mem hT.formed he)
  refine ⟨⟨[], [], []⟩, new, hp.congr hs.sound ?_ ?_, hs.delta.growth, Progress.free_quiet _ _,
    Yield.under_quiet _ _, ⟨a, ha, hm⟩, ?_⟩
  · rw [hs.delta.inventory]
  · rw [hs.delta.inventory]
  · intro p' hs' _
    obtain ⟨q', hr'⟩ := compileAlias_runs hT.tell entry hs'
    obtain ⟨-, -, new', hd'⟩ := compileAlias_sound hT.tell e p' a q' entry.1 hs' hr'
    exact ⟨q', new', runs_bind.mpr ⟨a, q', hr', runs_pure.mpr ⟨rfl, rfl⟩⟩, hd'.sound,
      hd'.delta.growth⟩

/-- A complex type without an entry is compiled. -/
theorem runs_complex (hS : Answers names S) {anonymous : Bool} {owner : String} {name : QName}
    {site : Site} (hj : .complex anonymous owner name site ∈ jobs S) {p q : Progress}
    (hp : p.Sound S names) (hn : some (Text.pascal name.localPart) ∉ p.inventory.typeKeys) :
    Runs ((Job.complex anonymous owner name site).run S) p () q ↔
      Runs (complexType S anonymous (some (Text.pascal name.localPart)) name site) p () q := by
  refine runs_compileOnce (hp.canonical _ _ (hS.job _ hj)) (Inventory.isCompiled_eq_false ?_ hn)
  cases hl : p.inventory.alias? (some (Text.pascal name.localPart)) with
  | none => rfl
  | some a =>
    obtain ⟨d, hd, hc, -⟩ := hp.reserved hl
    exact absurd hc (hS.complex hj hd)

theorem done_complex (h : S.Twin T) (hS : Answers names S) (hT : Answers names T)
    {anonymous : Bool} {owner : String} {name : QName} {s t : Site} (hb : s.bare = t.bare)
    (hj : .complex anonymous owner name s ∈ jobs S) (hk : .complex anonymous owner name t ∈ jobs T)
    {p q : Progress} (hp : p.Consistent S names) (ha : p.Awaits (Text.pascal name.localPart) name)
    (hr : Runs ((Job.complex anonymous owner name s).run S) p () q) :
    ∃ y new, Job.Done S T names (.complex anonymous owner name s) (.complex anonymous owner name t)
      p q y new := by
  have hr := (runs_complex hS hj hp.sound ha.absent).mp hr
  obtain ⟨_, y, new, -, hu⟩ := complexTypeIn_unfolds (replays h hS.tell hT.tell) (by rw [h.options]) S.nesting anonymous
    _ name hb p () q hp ha hr
  have entered := hu.under.entered _ (List.mem_singleton.mpr rfl)
  refine ⟨y, new, hu.consistent, hu.growth, hu.free, hu.under, ?_, ?_⟩
  · unfold Job.Entered
    rw [hu.growth.typeKeys]
    exact List.mem_append_right _ entered
  · intro p' hs' hf'
    obtain ⟨q', new', hr', hq', hg'⟩ := hu.again p' hs' (ha.matches p') hf'
    rw [h.nesting] at hr'
    exact ⟨q', new', (runs_complex hT hk hs' (hf'.keys _ entered)).mpr hr', hq', hg'⟩

/-! ## Between jobs -/

/-- Some jobs are done: what is inside others has an entry, as have the others, and there are no
other entries of types than these. -/
structure Between (S : Setting) (names : Names) (done : List Job) (p : Progress) : Prop where
  requested : requests S ⊆ p.inventory.reservations
  closed : ∀ r ∈ p.inventory.reservations, ∀ parent element, '/' ∉ parent.toList →
    r.owner = ownerOfNested parent element → some parent ∈ p.inventory.typeKeys
  keys : ∀ c, some c ∈ p.inventory.typeKeys → (∃ j ∈ done, j.canonical = c) ∨
    ∃ r ∈ p.inventory.reservations, r.canonical = c ∧
      ∃ parent element, r.owner = ownerOfNested parent element
  entered : ∀ j ∈ done, j.Entered S names p

theorem Between.awaits {done : List Job} {p : Progress} (hp : p.Consistent S names)
    (hb : Between S names done p) {j : Job} (hj : j ∈ jobs S)
    (hn : j.canonical ∉ done.map Job.canonical) : p.Awaits j.canonical j.name := by
  have request : j.request ∈ p.inventory.reservations :=
    hb.requested (map_request S ▸ List.mem_map_of_mem hj)
  have absent : some j.canonical ∉ p.inventory.typeKeys := by
    intro hk
    rcases hb.keys _ hk with ⟨k, hk, he⟩ | ⟨r, hr, he, parent, element, ho⟩
    · exact hn (List.mem_map.mpr ⟨k, hk, he⟩)
    · obtain rfl := List.inj_on_of_nodup_map hp.canonicals hr request he
      exact owner_ne_nested hj parent element ho
  refine ⟨⟨j.request, request, rfl, rfl⟩, absent, ?_⟩
  intro r hr element ho
  exact absent (hb.closed r hr _ element (hp.plain _ request) ho)

theorem Between.done {done : List Job} {p q : Progress} (hb : Between S names done p) {j k : Job}
    {y : Yield} {new : List ScalarAlias} (hd : Job.Done S T names j k p q y new) :
    Between S names (done ++ [j]) q := by
  have under := hd.under
  have res := hd.growth.reservations
  have keys := hd.growth.typeKeys
  refine ⟨?_, ?_, ?_, ?_⟩
  · intro r hr
    rw [res]
    exact List.mem_append_left _ (hb.requested hr)
  · intro r hr parent element hs ho
    rw [res] at hr
    rw [keys]
    rcases List.mem_append.mp hr with hr | hr
    · exact List.mem_append_left _ (hb.closed r hr parent element hs ho)
    · obtain ⟨parent', element', ho', hs', hp⟩ := under.parents r hr
      obtain ⟨rfl, -⟩ := ownerOfNested_injective hs' hs (ho'.symm.trans ho)
      rcases hp with hp | ⟨r', hr', rfl⟩
      · exact List.mem_append_right _ (under.entered _ hp)
      · exact List.mem_append_right _ (under.compiled r' hr')
  · intro c hc
    rw [keys] at hc
    rw [res]
    rcases List.mem_append.mp hc with hc | hc
    · rcases hb.keys c hc with ⟨k, hk, he⟩ | ⟨r, hr, he⟩
      · exact .inl ⟨k, List.mem_append_left _ hk, he⟩
      · exact .inr ⟨r, List.mem_append_left _ hr, he⟩
    · rcases under.keys _ hc with ⟨root, hroot, he⟩ | ⟨r, hr, he⟩
      · refine .inl ⟨j, List.mem_append_right _ (List.mem_singleton.mpr rfl), ?_⟩
        cases j with
        | simple => exact absurd hroot List.not_mem_nil
        | complex => exact (List.mem_singleton.mp hroot).symm.trans (Option.some.inj he).symm
      · obtain ⟨parent, element, ho, -⟩ := under.parents r hr
        exact .inr ⟨r, List.mem_append_right _ hr, (Option.some.inj he).symm, parent, element, ho⟩
  · refine List.forall_mem_append.mpr ⟨?_, List.forall_mem_singleton.mpr hd.entered⟩
    exact fun k hk => (hb.entered k hk).growth hd.growth

def Filled (S : Setting) (names : Names) (p : Progress) : Prop :=
  ∀ d a, S.IsEntry names d a → (a.name, a) ∈ p.inventory.aliases

/-- After all jobs every simple type has its entry. -/
theorem Between.filled {p : Progress} (hb : Between S names (jobs S) p) : Filled S names p := by
  intro d a ha
  obtain ⟨b, hb, hm⟩ := hb.entered _ (mem_of_isSimple ha.1)
  obtain rfl := ha.unique hb
  exact hm

theorem done_of_awaits (h : S.Twin T) (hS : Answers names S) (hT : Answers names T) {j k : Job}
    (hj : j ∈ jobs S) (hk : k ∈ jobs T) (hb : j.bare = k.bare) {p q : Progress}
    (hp : p.Consistent S names) (ha : p.Awaits j.canonical j.name) (hr : Runs (j.run S) p () q) :
    ∃ y new, Job.Done S T names j k p q y new := by
  cases j with
  | simple d =>
    cases k with
    | simple e => exact done_simple h hS hT (Job.simple.inj hb) hj hk hp hr
    | complex => cases hb
  | complex anonymous owner name s =>
    cases k with
    | simple => cases hb
    | complex anonymous' owner' name' t =>
      obtain ⟨rfl, rfl, rfl, hsite⟩ := Job.complex.inj hb
      exact done_complex h hS hT hsite hj hk hp ha hr

/-- All jobs are done one after another. -/
theorem runs_jobs (h : S.Twin T) (hS : Answers names S) (hT : Answers names T) {js ks : List Job}
    (hl : List.Forall₂ (fun j k => j ∈ jobs S ∧ k ∈ jobs T ∧ j.bare = k.bare) js ks) :
    ∀ {done : List Job} {p q : Progress}, ((done ++ js).map Job.canonical).Nodup →
      p.Consistent S names → Between S names done p → Runs (forM js (Job.run S)) p () q →
      ∃ ys new, List.Forall₂ (fun k y => k.Yields T names y) ks ys ∧ q.Consistent S names ∧
        Between S names (done ++ js) q ∧ p.Growth S q (Yield.concat ys) new := by
  induction hl with
  | nil =>
    intro done p q _ hp hb hr
    rw [List.forM_nil] at hr
    obtain ⟨-, rfl⟩ := runs_pure.mp hr
    exact ⟨[], [], .nil, hp, (List.append_nil done).symm ▸ hb, .refl q⟩
  | @cons j k js ks hjk _ ih =>
    intro done p q hn hp hb hr
    rw [List.forM_cons] at hr
    obtain ⟨_, r, hj, hr⟩ := runs_bind.mp hr
    have new : j.canonical ∉ done.map Job.canonical := by
      rw [List.map_append, List.map_cons, List.nodup_append] at hn
      exact fun hm => hn.2.2 _ hm _ List.mem_cons_self rfl
    obtain ⟨y, new, hd⟩ := done_of_awaits h hS hT hjk.1 hjk.2.1 hjk.2.2 hp
      (hb.awaits hp hjk.1 new) hj
    have more : done ++ [j] ++ js = done ++ j :: js := by
      rw [List.append_assoc, List.singleton_append]
    obtain ⟨ys, new', hy, hq, hb', hg⟩ := ih (more ▸ hn) hd.consistent (hb.done hd) hr
    exact ⟨y :: ys, new ++ new', .cons hd.yields hy, hq, more ▸ hb', hd.growth.trans hg⟩

end

end Compile

end WsdlCatalog
