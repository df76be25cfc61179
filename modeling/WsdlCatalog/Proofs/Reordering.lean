/-
  WsdlCatalog.Proofs.Reordering — the jobs of a compilation in another order.

  What a job yields is nobody else's: its reservations have other owners and other canonical
  names, and its entries other keys (`Progress.Apart`). So the jobs of a twin compilation
  yield the same in whatever order they are done. Besides, every simple type becomes an entry
  in both, and what is reported of it follows from the entry (`Progress.Tells`).

  Proved: a setting whose declarations come in another order is compiled if the other one is
  (`compiled_reordered`), with the same entries and reports in another order
  (`Mirrors.aliases`, `Mirrors.reports`), and so it stays (`Mirrors.replayed`).
-/

import WsdlCatalog.Proofs.Rearrangement
import WsdlCatalog.Proofs.Stages

namespace WsdlCatalog

/-! ## Yields in another order -/

namespace Yield

structure Alike (y z : Yield) : Prop where
  own : y.own.Perm z.own
  reservations : y.reservations.Perm z.reservations
  types : y.types.Perm z.types

theorem concat_eq (ys : List Yield) :
    concat ys = ⟨ys.flatMap (·.own), ys.flatMap (·.reservations), ys.flatMap (·.types)⟩ := by
  induction ys with
  | nil => rfl
  | cons y rest ih =>
    rw [concat, ih]
    rfl

theorem alike_concat {ys zs : List Yield} (h : ys.Perm zs) : (concat ys).Alike (concat zs) := by
  rw [concat_eq, concat_eq]
  exact ⟨h.flatMap_right _, h.flatMap_right _, h.flatMap_right _⟩

end Yield

namespace Progress

/-- Nothing of a yield is there yet, and nothing of it is there twice. -/
structure Apart (p : Progress) (y : Yield) : Prop where
  owners : ((p.inventory.reservations ++ y.reservations).map (·.owner)).Nodup
  canonicals : ((p.inventory.reservations ++ y.reservations).map (·.canonical)).Nodup
  keys : (p.inventory.typeKeys ++ y.keys).Nodup

variable {S T : Setting} {names : Names} {p q p' : Progress} {y z : Yield} {new : List ScalarAlias}

theorem Apart.free (h : p.Apart (y.append z)) : p.Free y := by
  have owners := h.owners
  have canonicals := h.canonicals
  have keys := h.keys
  rw [List.map_append, List.nodup_append] at owners canonicals
  rw [Yield.keys_append, List.nodup_append] at keys
  refine ⟨fun r hr x hx => ?_, fun r hr x hx => ?_, fun k hk hm => ?_⟩
  · exact owners.2.2 _ (List.mem_map_of_mem hx) _
      (List.mem_map_of_mem (List.mem_append_left _ hr))
  · exact canonicals.2.2 _ (List.mem_map_of_mem hx) _
      (List.mem_map_of_mem (List.mem_append_left _ hr))
  · exact keys.2.2 k hm k (List.mem_append_left _ hk) rfl

/-- After a part of a yield the rest of it is still apart. -/
theorem Apart.after (h : p.Apart (y.append z)) (hg : p.Growth S q y new) : q.Apart z := by
  refine ⟨?_, ?_, ?_⟩
  · rw [hg.reservations, List.append_assoc]
    exact h.owners
  · rw [hg.reservations, List.append_assoc]
    exact h.canonicals
  · rw [hg.typeKeys, List.append_assoc, ← Yield.keys_append]
    exact h.keys

/-- What was added on the way to a consistent progress was apart. -/
theorem Consistent.apart (hq : q.Consistent S names) (hg : p.Growth S q y new) : p.Apart y := by
  have owners := hq.owners
  have canonicals := hq.canonicals
  have keys := hq.typeKeys
  rw [hg.reservations] at owners canonicals
  rw [hg.typeKeys] at keys
  exact ⟨owners, canonicals, keys⟩

theorem Apart.perm (h : p.Apart y) (hy : y.Alike z)
    (hr : p.inventory.reservations.Perm p'.inventory.reservations)
    (ht : p.inventory.types.Perm p'.inventory.types) : p'.Apart z := by
  have reservations := hr.append hy.reservations
  have keys := (ht.map Prod.fst).append (hy.types.map Prod.fst)
  refine ⟨?_, ?_, ?_⟩
  · exact (reservations.map _).nodup_iff.mp h.owners
  · exact (reservations.map _).nodup_iff.mp h.canonicals
  · exact keys.nodup_iff.mp h.keys

/-! ## Reports in another order -/

/-- Reports were made of `own`, and of what follows from the entries of simple types. -/
def Tells (S : Setting) (own : List Report) (p : Progress) : Prop :=
  ∃ rs, rs.Perm (own ++ (p.inventory.aliases.map Prod.snd).flatMap S.aliasReports) ∧
    Progress.start.Reported p rs

variable {own own' : List Report}

theorem Growth.tells (hg : p.Growth S q y new) (ha : p.inventory.aliases = [])
    (hp : Progress.start.Reported p []) : Tells S y.own q := by
  obtain ⟨rs, perm, reported⟩ := hg.reported
  refine ⟨rs, ?_, hp.trans reported⟩
  rw [hg.inventory, ha, List.nil_append, List.map_map]
  show rs.Perm (y.own ++ (new.map id).flatMap S.aliasReports)
  rw [List.map_id]
  exact perm

theorem Tells.delta (h : Tells S own p) (hd : Delta S p q own' new) : Tells S (own ++ own') q := by
  obtain ⟨rs, perm, reported⟩ := h
  obtain ⟨rs', perm', reported'⟩ := hd.reported
  refine ⟨rs ++ rs', (perm.append perm').trans ?_, reported.trans reported'⟩
  have later : (new.map fun a => (a.name, a)).map Prod.snd = new := by
    rw [List.map_map]
    exact List.map_id new
  rw [hd.aliases, List.map_append, List.flatMap_append, later]
  exact perm_reports _ _ _ _

end Progress

/-! ## Progresses of twins -/

namespace Compile

variable {S T : Setting} {names : Names} {p p' : Progress}

structure Mirrors (S T : Setting) (names : Names) (p p' : Progress) : Prop where
  sound : p.Sound S names
  sound' : p'.Sound T names
  filled : Filled S names p
  filled' : Filled T names p'
  reported : ∃ own own', own.Perm own' ∧ p.Tells S own ∧ p'.Tells T own'

namespace Mirrors

/-- Simple types have the same entries in another order. -/
theorem aliases (h : S.Twin T) (m : Mirrors S T names p p') :
    p.inventory.aliases.Perm p'.inventory.aliases := by
  have there {S T : Setting} {p p' : Progress} (h : S.Twin T) (hp : p.Sound S names)
      (hf : Filled T names p') {x : Option String × ScalarAlias} (hx : x ∈ p.inventory.aliases) :
      x ∈ p'.inventory.aliases := by
    obtain ⟨hk, d, hd⟩ := hp.aliases x hx
    obtain ⟨e, hb, he⟩ := h.isSimple hd.1
    have entry := hf e x.2 (hd.twin h hb he)
    rw [← hk] at entry
    exact entry
  refine (List.perm_ext_iff_of_nodup m.sound.nodup.of_map m.sound'.nodup.of_map).mpr fun x => ?_
  exact ⟨there h m.sound m.filled', there h.symm m.sound' m.filled⟩

/-- The reports are the same in another order, and so are the keys of unresolved references. -/
theorem reports (h : S.Twin T) (m : Mirrors S T names p p') :
    p.diagnostics.Perm p'.diagnostics ∧ p.unresolved.Perm p'.unresolved := by
  obtain ⟨own, own', ho, ⟨rs, perm, reported⟩, ⟨rs', perm', reported'⟩⟩ := m.reported
  have alike : (p.inventory.aliases.map Prod.snd).flatMap S.aliasReports =
      (p.inventory.aliases.map Prod.snd).flatMap T.aliasReports := by
    refine List.flatMap_congr fun a hm => ?_
    obtain ⟨x, hx, rfl⟩ := List.mem_map.mp hm
    obtain ⟨-, d, hd⟩ := m.sound.aliases x hx
    exact h.aliasReports hd
  have same : rs.Perm rs' := by
    refine perm.trans (List.Perm.trans ?_ perm'.symm)
    rw [alike]
    exact ho.append (((m.aliases h).map _).flatMap_right _)
  rw [reported.diagnostics, reported'.diagnostics, reported.unresolved, reported'.unresolved]
  exact ⟨(same.map _).append_left _, Progress.addKeys_perm (same.filterMap _) List.nodup_nil⟩

theorem withTypes (m : Mirrors S T names p p') (types types' : List (Option String × StructuralType)) :
    Mirrors S T names (Progress.withTypes p types) (Progress.withTypes p' types') := by
  obtain ⟨own, own', ho, ⟨rs, perm, reported⟩, ⟨rs', perm', reported'⟩⟩ := m.reported
  refine ⟨sound_withTypes m.sound types, sound_withTypes m.sound' types', m.filled, m.filled', own, own', ho, ?_, ?_⟩
  · exact ⟨rs, perm, reported.diagnostics, reported.unresolved⟩
  · exact ⟨rs', perm', reported'.diagnostics, reported'.unresolved⟩

/-- A step that is replayed keeps what is mirrored, and the types. -/
theorem replayed {α β : Type} {V : α → β → Prop} {k : Compile α} {l : Compile β} {a : α}
    {q : Progress} (m : Mirrors S T names p p') (h : Replays S T names V k l) (hr : Runs k p a q) :
    ∃ b q', V a b ∧ Runs l p' b q' ∧ Mirrors S T names q q' ∧
      q.inventory.types = p.inventory.types ∧ q'.inventory.types = p'.inventory.types := by
  obtain ⟨own, own', ho, tells, tells'⟩ := m.reported
  obtain ⟨b, more, new, hv, sound, delta, anywhere⟩ := h p a q m.sound hr
  obtain ⟨q', new', hr', sound', delta'⟩ := anywhere p' m.sound'
  refine ⟨b, q', hv, hr', ⟨sound, sound', fun d e he => ?_, fun d e he => ?_, own ++ more, own' ++ more,
    ho.append_right more, tells.delta delta, tells'.delta delta'⟩, ?_, ?_⟩
  · rw [delta.aliases]
    exact List.mem_append_left _ (m.filled d e he)
  · rw [delta'.aliases]
    exact List.mem_append_left _ (m.filled' d e he)
  · rw [delta.inventory]
  · rw [delta'.inventory]

end Mirrors

/-! ## Jobs in another order -/

/-- Jobs run one after another from wherever what they yield is apart. -/
theorem runs_yields {ks : List Job} {ys : List Yield}
    (h : List.Forall₂ (fun k y => Job.Yields T names k y) ks ys) :
    ∀ {p : Progress}, p.Sound T names → p.Apart (Yield.concat ys) →
      ∃ q new, Runs (forM ks (Job.run T)) p () q ∧ p.Growth T q (Yield.concat ys) new := by
  induction h with
  | nil =>
    intro p _ _
    exact ⟨p, [], runs_pure.mpr ⟨rfl, rfl⟩, .refl p⟩
  | cons hy _ ih =>
    intro p hp ha
    obtain ⟨r, new, hr, hs, hg⟩ := hy p hp ha.free
    obtain ⟨q, new', hq, hg'⟩ := ih hs (ha.after hg)
    refine ⟨q, new ++ new', ?_, hg.trans hg'⟩
    rw [List.forM_cons]
    exact runs_bind.mpr ⟨(), r, hr, hq⟩

/-- A setting in another order is compiled with the same types in another order, and mirrors the
other one. -/
theorem compiled_reordered (h : S.Reordered T) (hS : S.WellFormed) {reserved p : Progress}
    (hr : Runs (reserveAll S) .start () reserved) (hc : Runs (compileAll S) reserved () p) :
    ∃ reserved' p', Runs (reserveAll T) .start () reserved' ∧ Runs (compileAll T) reserved' () p' ∧
      p.inventory.types.Perm p'.inventory.types ∧ p.inventory.typeKeys.Nodup ∧
      Mirrors S T S.names p p' := by
  have hT := h.wellFormed hS
  obtain ⟨answersS, consistent, between⟩ := consistent_of_jobs hS hr hc
  obtain ⟨hn, rfl⟩ := (runs_reserveAll hS).mp hr
  have hn' : ((requests T).map (·.canonical)).Nodup := (h.requests.map _).nodup_iff.mp hn
  have answersT := answers hT hn'
  obtain ⟨hp, hb⟩ := consistent_requested hS hn
  obtain ⟨hp', -⟩ := consistent_requested hT hn'
  rw [← h.names hS] at answersT hp'
  obtain ⟨ks, perm, paired⟩ := h.jobs
  obtain ⟨ys, new, yields, -, -, growth⟩ := runs_jobs (h.twin hS) answersS answersT paired
    answersS.nodup hp hb (compileAll_eq S ▸ hc)
  -- The jobs of the other setting stand in another order, and with them what they yield.
  obtain ⟨zs, yields', same⟩ := List.perm_comp_forall₂ perm.symm yields
  have alike := Yield.alike_concat same.symm
  have apart : (Progress.start.withReservations (requests T)).Apart (Yield.concat zs) :=
    (consistent.apart growth).perm alike h.requests (List.Perm.refl _)
  obtain ⟨p', new', hjobs, growth'⟩ := runs_yields yields' hp'.sound apart
  have hr' := (runs_reserveAll hT).mpr ⟨hn', rfl⟩
  have hc' := compileAll_eq T ▸ hjobs
  obtain ⟨-, consistent', between'⟩ := consistent_of_jobs hT hr' hc'
  rw [← h.names hS] at consistent' between'
  refine ⟨_, p', hr', hc', ?_, consistent.typeKeys, consistent.sound, consistent'.sound,
    between.filled, between'.filled, _, _, alike.own, growth.tells rfl ⟨rfl, rfl⟩,
    growth'.tells rfl ⟨rfl, rfl⟩⟩
  rw [growth.types, growth'.types]
  exact alike.types

end Compile

end WsdlCatalog
