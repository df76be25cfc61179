/-
  WsdlCatalog.Proofs.Unfolding — steps that compile the types inside a type.

  What a step inside the body of a type yields does not depend on when it is taken, as
  far as the names that it reserves are free: taken elsewhere in a twin compilation it
  yields the same and comes to the same (`Unfolds`). There a type inside the body may be
  met again only where it was met here (`Matches`).

  Proved: steps that follow references unfold (`Unfolds.ofReplays`), and so do steps that
  are made of such (`Unfolds.bind`, `Unfolds.foldlM`).
-/

import WsdlCatalog.Proofs.Consistent

namespace WsdlCatalog

/-- The types inside `root` that one progress knows are known to the other under the same names and
have entries there. -/
def Progress.Matches (root : String) (p p' : Progress) : Prop :=
  ∀ element c, p.inventory.canonical? (ownerOfNested root element) = some c →
    p'.inventory.canonical? (ownerOfNested root element) = some c ∧ some c ∈ p'.inventory.typeKeys

/-- What is about the reservations and the types of a progress only. -/
def Progress.Stable (P : Progress → Prop) : Prop :=
  ∀ p q : Progress, q.inventory.reservations = p.inventory.reservations →
    q.inventory.types = p.inventory.types → P p → P q

variable {S T : Setting} {names : Names} {root : String}

theorem Progress.Matches.growth {p p' q q' : Progress} {y : Yield} {new new' : List ScalarAlias}
    {roots entered : List String} (h : p.Matches root p') (hy : y.Under roots entered)
    (hg : p.Growth S q y new) (hg' : p'.Growth T q' y new') (hf : p'.Free y) :
    q.Matches root q' := by
  intro element c hc
  rw [hg.canonical?] at hc
  rw [hg'.canonical?, hg'.typeKeys]
  cases hp : p.inventory.canonical? (ownerOfNested root element) with
  | some c' =>
    rw [hp, Option.some_or] at hc
    obtain ⟨hk, ht⟩ := h element c' hp
    rw [hk, Option.some_or]
    obtain rfl := Option.some.inj hc
    exact ⟨rfl, List.mem_append_left _ ht⟩
  | none =>
    rw [hp, Option.none_or] at hc
    obtain ⟨r, hr, ho, rfl⟩ := Inventory.exists_of_canonical? hc
    have new : p'.inventory.canonical? (ownerOfNested root element) = none :=
      Inventory.canonical?_eq_none.mpr fun x hx => ho ▸ hf.owners r hr x hx
    rw [new, Option.none_or]
    exact ⟨hc, List.mem_append_right _ (hy.compiled r hr)⟩

namespace Compile

/-- From `p` to `q` a step inside `root` has yielded `y`, and the step `n` of a twin compilation
comes to `b` and yields the same from wherever that is free. -/
structure Unfolded (S T : Setting) (names : Names) (root : String) (entered : List String)
    {β : Type} (n : Compile β) (p q : Progress) (b : β) (y : Yield) (new : List ScalarAlias) :
    Prop where
  consistent : q.Consistent S names
  growth : p.Growth S q y new
  free : p.Free y
  under : y.Under [root] entered
  again (p' : Progress) (hs : p'.Sound T names) (hm : p.Matches root p') (hf : p'.Free y) :
    ∃ q' new', Runs n p' b q' ∧ q'.Sound T names ∧ p'.Growth T q' y new'

/-- A step of one compilation, where `P` holds before it and `Q` after it, and the step of another
yield the same. -/
def Unfolds (S T : Setting) (names : Names) (root : String) (entered : List String)
    (P : Progress → Prop) {α β : Type} (Q : α → β → Progress → Prop) (m : Compile α)
    (n : Compile β) : Prop :=
  ∀ p a q, p.Consistent S names → P p → Runs m p a q →
    ∃ b y new, Q a b q ∧ Unfolded S T names root entered n p q b y new

namespace Unfolds

variable {α β γ δ : Type} {entered entered' : List String} {P : Progress → Prop}
  {Q : α → β → Progress → Prop} {m : Compile α} {n : Compile β}

theorem pure {a : α} {b : β} (h : ∀ p, P p → Q a b p) :
    Unfolds S T names root [] P Q (pure a) (pure b) := by
  intro p a' q hp hP hr
  obtain ⟨rfl, rfl⟩ := runs_pure.mp hr
  refine ⟨b, ⟨[], [], []⟩, [], h _ hP, hp, .refl _, Progress.free_quiet _ _,
    Yield.under_quiet _ _, ?_⟩
  intro p' hs _ _
  exact ⟨p', [], runs_pure.mpr ⟨rfl, rfl⟩, hs, .refl _⟩

theorem fail (f : Fault) : Unfolds S T names root entered P Q (fail f) n :=
  fun _ _ _ _ _ hr => absurd hr runs_fail

/-- A step that follows references yields reports only. -/
theorem ofReplays {V : α → β → Prop} (h : Replays S T names V m n) (hP : Progress.Stable P) :
    Unfolds S T names root [] P (fun a b q => V a b ∧ P q) m n := by
  intro p a q hp hp₁ hr
  obtain ⟨b, own, new, hv, hs, hd, again⟩ := h p a q hp.sound hr
  have res : q.inventory.reservations = p.inventory.reservations := by rw [hd.inventory]
  have types : q.inventory.types = p.inventory.types := by rw [hd.inventory]
  refine ⟨b, ⟨own, [], []⟩, new, ⟨hv, hP p q res types hp₁⟩, hp.congr hs res types, hd.growth,
    Progress.free_quiet _ _, Yield.under_quiet _ _, ?_⟩
  intro p' hs' _ _
  obtain ⟨q', new', hr', hq', hd'⟩ := again p' hs'
  exact ⟨q', new', hr', hq', hd'.growth⟩

theorem conseq {P' : Progress → Prop} {Q' : α → β → Progress → Prop}
    (h : Unfolds S T names root entered P Q m n) (hP : ∀ p, P' p → P p)
    (hQ : ∀ a b q, Q a b q → Q' a b q) : Unfolds S T names root entered P' Q' m n := by
  intro p a q hp hP' hr
  obtain ⟨b, y, new, hq, hu⟩ := h p a q hp (hP p hP') hr
  exact ⟨b, y, new, hQ a b q hq, hu⟩

theorem bind {W : γ → δ → Progress → Prop} {k : α → Compile γ} {l : β → Compile δ}
    (h : Unfolds S T names root entered P Q m n)
    (hk : ∀ a b, Unfolds S T names root entered' (Q a b) W (k a) (l b)) :
    Unfolds S T names root (entered ++ entered') P W (m >>= k) (n >>= l) := by
  intro p c q hp hP hr
  obtain ⟨a, r, hm, hc⟩ := runs_bind.mp hr
  obtain ⟨b, y, new, hq, hu⟩ := h p a r hp hP hm
  obtain ⟨d, z, new₂, hw, hv⟩ := hk a b r c q hu.consistent hq hc
  refine ⟨d, y.append z, new ++ new₂, hw, hv.consistent, hu.growth.trans hv.growth,
    hu.free.append hu.growth hv.free, hu.under.append hv.under, ?_⟩
  intro p' hs hm' hf
  obtain ⟨r', new', hn, hs', hg⟩ := hu.again p' hs hm' hf.left
  obtain ⟨q', new₂', hl, hq', hg'⟩ := hv.again r' hs'
    (hm'.growth hu.under hu.growth hg hf.left) (hf.right hu.growth hv.free hg)
  exact ⟨q', new' ++ new₂', runs_bind.mpr ⟨b, r', hn, hl⟩, hq', hg.trans hg'⟩

/-- One step after another that comes to the same in both compilations. -/
theorem bindEq {Q : α → Progress → Prop} {W : γ → δ → Progress → Prop} {m n : Compile α}
    {k : α → Compile γ} {l : α → Compile δ}
    (h : Unfolds S T names root entered P (fun a b q => a = b ∧ Q a q) m n)
    (hk : ∀ a, Unfolds S T names root entered' (Q a) W (k a) (l a)) :
    Unfolds S T names root (entered ++ entered') P W (m >>= k) (n >>= l) := by
  refine bind h fun a b p c q hp hQ hr => ?_
  obtain ⟨rfl, hQ⟩ := hQ
  exact hk a p c q hp hQ hr

/-- What does not depend on the progress may be assumed. -/
theorem assuming {fact : Prop} (h : fact → Unfolds S T names root entered P Q m n) :
    Unfolds S T names root entered (fun p => P p ∧ fact) Q m n :=
  fun p a q hp hP hr => h hP.2 p a q hp hP.1 hr

/-- One step for each of two lists of like steps; `I` holds before and after each. -/
theorem foldlM {ι κ σ : Type} {R : ι → κ → Prop} {I : σ → Progress → Prop} {f : σ → ι → Compile σ}
    {g : σ → κ → Compile σ} {is : List ι} {ks : List κ} (h : List.Forall₂ R is ks)
    (hs : ∀ a i k, R i k →
      Unfolds S T names root [] (I a) (fun b b' q => b = b' ∧ I b q) (f a i) (g a k)) :
    ∀ a, Unfolds S T names root [] (I a) (fun b b' q => b = b' ∧ I b q) (is.foldlM f a)
      (ks.foldlM g a) := by
  induction h with
  | nil => exact fun a => pure fun p hp => ⟨rfl, hp⟩
  | cons hr _ ih =>
    intro a
    simp only [List.foldlM_cons]
    exact bindEq (hs a _ _ hr) ih

end Unfolds

end Compile

end WsdlCatalog
