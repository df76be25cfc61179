/-
  WsdlCatalog.Proofs.Language — the documents that a content model accepts.

  A content model stands for the sequences of names that the elements inside a type may
  have (`Particle.Accepts`): a range says how many times something comes, a sequence puts
  its parts one after another, `all` lets them mix, and a choice takes one branch each
  time. What wildcards match is not counted.

  Its leaves are its elements, each with its range times those of the groups around it,
  where a choice asks for nothing (`Particle.leaves`).

  Proved: of the leaves of one name, one bounds how often the name comes from below
  (`Particle.exists_leaf_le`), and if no sequence has the name in two of its parts, one
  bounds it from above (`Particle.exists_leaf_ge`).
-/

import Mathlib.Algebra.BigOperators.Group.List.Basic
import WsdlCatalog.Content.Particle
import WsdlCatalog.Proofs.Members

namespace WsdlCatalog

/-! ## Words -/

/-- The third word holds the first two, each in its order. -/
inductive Interleaves {α : Type} : List α → List α → List α → Prop where
  | nil : Interleaves [] [] []
  | left {a : α} {u v w : List α} (h : Interleaves u v w) : Interleaves (a :: u) v (a :: w)
  | right {a : α} {u v w : List α} (h : Interleaves u v w) : Interleaves u (a :: v) (a :: w)

theorem Interleaves.count {α : Type} [BEq α] {u v w : List α} (h : Interleaves u v w) (a : α) :
    w.count a = u.count a + v.count a := by
  induction h with
  | nil => rfl
  | left _ ih => rw [List.count_cons, List.count_cons, ih]; omega
  | right _ ih => rw [List.count_cons, List.count_cons, ih]; omega

/-- So many words that a body accepts, one after another. -/
def Repeated (body : List String → Prop) : Nat → List String → Prop
  | 0, w => w = []
  | k + 1, w => ∃ u v, body u ∧ Repeated body k v ∧ w = u ++ v

theorem Repeated.le_count {body : List String → Prop} {n : String} {low : Nat}
    (h : ∀ u, body u → low ≤ u.count n) :
    ∀ {k : Nat} {w : List String}, Repeated body k w → k * low ≤ w.count n
  | 0, _, _ => by rw [Nat.zero_mul]; exact Nat.zero_le _
  | k + 1, _, ⟨u, v, hu, hv, rfl⟩ => by
    have first := h u hu
    have rest := Repeated.le_count h hv
    rw [List.count_append, Nat.succ_mul]
    omega

theorem Repeated.count_le {body : List String → Prop} {n : String} {high : Nat}
    (h : ∀ u, body u → u.count n ≤ high) :
    ∀ {k : Nat} {w : List String}, Repeated body k w → w.count n ≤ k * high
  | 0, _, rfl => Nat.zero_le _
  | k + 1, _, ⟨u, v, hu, hv, rfl⟩ => by
    have first := h u hu
    have rest := Repeated.count_le h hv
    rw [List.count_append, Nat.succ_mul]
    omega

namespace Particle

variable (nameOf : Site → String)

mutual

def Accepts : Particle → List String → Prop
  | element range site, w => ∃ k, range.Allows k ∧ w = List.replicate k (nameOf site)
  | group .sequence range children, w => ∃ k, range.Allows k ∧ Repeated (InOrder children) k w
  | group .all range children, w => ∃ k, range.Allows k ∧ Repeated (Mixed children) k w
  | choice range branches, w => ∃ k, range.Allows k ∧ Repeated (OneOf branches) k w
  | wildcard, w => w = []
  | unresolved _ _, w => w = []
  | broken _, _ => False

/-- Particles accept a sequence of names one after another. -/
def InOrder : List Particle → List String → Prop
  | [], w => w = []
  | p :: rest, w => ∃ u v, p.Accepts u ∧ InOrder rest v ∧ w = u ++ v

def Mixed : List Particle → List String → Prop
  | [], w => w = []
  | p :: rest, w => ∃ u v, p.Accepts u ∧ Mixed rest v ∧ Interleaves u v w

def OneOf : List Particle → List String → Prop
  | [], _ => False
  | p :: rest, w => p.Accepts w ∨ OneOf rest w

end

mutual

def Mentions (n : String) : Particle → Prop
  | element _ site => nameOf site = n
  | group _ _ children => AnyMentions n children
  | choice _ branches => AnyMentions n branches
  | _ => False

def AnyMentions (n : String) : List Particle → Prop
  | [] => False
  | p :: rest => p.Mentions n ∨ AnyMentions n rest

end

mutual

/-- In no sequence and in no `all` of the particle two parts hold an element of the name. -/
def Separate (n : String) : Particle → Prop
  | group _ _ children => AllSeparate n children
  | choice _ branches => EachSeparate n branches
  | _ => True

/-- At most one of the particles holds an element of the name, and none repeats it. -/
def AllSeparate (n : String) : List Particle → Prop
  | [] => True
  | p :: rest => (p.Mentions nameOf n → ¬ AnyMentions nameOf n rest) ∧ p.Separate n ∧ AllSeparate n rest

def EachSeparate (n : String) : List Particle → Prop
  | [] => True
  | p :: rest => p.Separate n ∧ EachSeparate n rest

end

/-! ## Leaves -/

/-- What is inside groups of range `outer`. -/
def scaled (outer : Range) (leaf : Site × Range) : Site × Range := (leaf.1, outer.mul leaf.2)

mutual

def leaves : Particle → List (Site × Range)
  | element range site => [(site, range)]
  | group _ range children => (leavesOf children).map (scaled range)
  | choice range branches => (leavesOf branches).map (scaled { range with lower := 0 })
  | _ => []

def leavesOf : List Particle → List (Site × Range)
  | [] => []
  | p :: rest => p.leaves ++ leavesOf rest

end

mutual

theorem mentions_of_leaf : ∀ {p : Particle} {l : Site × Range}, l ∈ p.leaves →
    p.Mentions nameOf (nameOf l.1)
  | element range site, l, h => by
    unfold leaves at h
    unfold Mentions
    rw [List.mem_singleton.mp h]
  | group _ range children, _, h => by
    unfold leaves at h
    unfold Mentions
    obtain ⟨l, hl, rfl⟩ := List.mem_map.mp h
    show AnyMentions nameOf (nameOf l.1) children
    exact mentions_of_leafOf hl
  | choice range branches, _, h => by
    unfold leaves at h
    unfold Mentions
    obtain ⟨l, hl, rfl⟩ := List.mem_map.mp h
    show AnyMentions nameOf (nameOf l.1) branches
    exact mentions_of_leafOf hl
  | wildcard, _, h => by unfold leaves at h; exact absurd h List.not_mem_nil
  | unresolved _ _, _, h => by unfold leaves at h; exact absurd h List.not_mem_nil
  | broken _, _, h => by unfold leaves at h; exact absurd h List.not_mem_nil

theorem mentions_of_leafOf : ∀ {ps : List Particle} {l : Site × Range}, l ∈ leavesOf ps →
    AnyMentions nameOf (nameOf l.1) ps
  | [], _, h => by unfold leavesOf at h; exact absurd h List.not_mem_nil
  | p :: rest, l, h => by
    unfold leavesOf at h
    unfold AnyMentions
    rcases List.mem_append.mp h with h | h
    · exact .inl (mentions_of_leaf h)
    · exact .inr (mentions_of_leafOf h)

end

/-! ## Counting names -/

/-- How often each name comes in words that the particles accept, one of each. -/
def Counted : List Particle → (String → Nat) → Prop
  | [], c => ∀ n, c n = 0
  | p :: rest, c => ∃ u d, p.Accepts nameOf u ∧ Counted rest d ∧ ∀ n, c n = u.count n + d n

variable {nameOf}

theorem counted_of_inOrder : ∀ {ps : List Particle} {w : List String}, InOrder nameOf ps w →
    Counted nameOf ps (w.count ·)
  | [], _, rfl => fun _ => rfl
  | _ :: _, _, ⟨u, v, hu, hv, rfl⟩ =>
    ⟨u, (v.count ·), hu, counted_of_inOrder hv, fun _ => List.count_append⟩

theorem counted_of_mixed : ∀ {ps : List Particle} {w : List String}, Mixed nameOf ps w →
    Counted nameOf ps (w.count ·)
  | [], _, rfl => fun _ => rfl
  | _ :: _, _, ⟨u, v, hu, hv, hw⟩ => ⟨u, (v.count ·), hu, counted_of_mixed hv, hw.count⟩

/-- Both compositors only say in which order the parts of a group come. -/
theorem counted_of_group {compositor : Compositor} {range : Range} {children : List Particle}
    {w : List String} (h : (group compositor range children).Accepts nameOf w) :
    ∃ k body, range.Allows k ∧ Repeated body k w ∧
      ∀ u, body u → Counted nameOf children (u.count ·) := by
  cases compositor with
  | sequence =>
    unfold Accepts at h
    obtain ⟨k, hk, hw⟩ := h
    exact ⟨k, _, hk, hw, fun _ => counted_of_inOrder⟩
  | all =>
    unfold Accepts at h
    obtain ⟨k, hk, hw⟩ := h
    exact ⟨k, _, hk, hw, fun _ => counted_of_mixed⟩

variable {n : String}

mutual

/-- A name that no element has does not come. -/
theorem count_eq_zero : ∀ {p : Particle}, ¬ p.Mentions nameOf n → ∀ {w}, p.Accepts nameOf w →
    w.count n = 0
  | element range site, hn, w, hw => by
    unfold Mentions at hn
    unfold Accepts at hw
    obtain ⟨k, -, rfl⟩ := hw
    exact List.count_eq_zero.mpr fun h => hn (List.eq_of_mem_replicate h).symm
  | group compositor range children, hn, w, hw => by
    unfold Mentions at hn
    obtain ⟨k, body, -, hw, hb⟩ := counted_of_group hw
    have := hw.count_le fun u hu => Nat.le_of_eq (counted_eq_zero hn (hb u hu))
    rwa [Nat.mul_zero, Nat.le_zero] at this
  | choice range branches, hn, w, hw => by
    unfold Mentions at hn
    unfold Accepts at hw
    obtain ⟨k, -, hw⟩ := hw
    have := hw.count_le fun u hu => Nat.le_of_eq (oneOf_eq_zero hn hu)
    rwa [Nat.mul_zero, Nat.le_zero] at this
  | wildcard, _, w, hw => by unfold Accepts at hw; rw [hw]; rfl
  | unresolved _ _, _, w, hw => by unfold Accepts at hw; rw [hw]; rfl
  | broken _, _, w, hw => by unfold Accepts at hw; exact hw.elim

theorem counted_eq_zero : ∀ {ps : List Particle}, ¬ AnyMentions nameOf n ps → ∀ {c},
    Counted nameOf ps c → c n = 0
  | [], _, _, hc => hc n
  | p :: rest, hn, c, ⟨u, d, hu, hd, hc⟩ => by
    unfold AnyMentions at hn
    rw [not_or] at hn
    rw [hc, count_eq_zero hn.1 hu, counted_eq_zero hn.2 hd]

theorem oneOf_eq_zero : ∀ {ps : List Particle}, ¬ AnyMentions nameOf n ps → ∀ {w},
    OneOf nameOf ps w → w.count n = 0
  | [], _, _, hw => by unfold OneOf at hw; exact hw.elim
  | p :: rest, hn, w, hw => by
    unfold AnyMentions at hn
    rw [not_or] at hn
    unfold OneOf at hw
    rcases hw with hw | hw
    · exact count_eq_zero hn.1 hw
    · exact oneOf_eq_zero hn.2 hw

end

/-! ## From below -/

mutual

/-- A name comes as often as one of its leaves asks for. -/
theorem exists_leaf_le : ∀ p : Particle, p.Mentions nameOf n →
    ∃ l ∈ p.leaves, nameOf l.1 = n ∧ ∀ w, p.Accepts nameOf w → l.2.lower ≤ w.count n
  | element range site, hn => by
    unfold Mentions at hn
    unfold leaves
    refine ⟨(site, range), List.mem_singleton.mpr rfl, hn, fun w hw => ?_⟩
    unfold Accepts at hw
    obtain ⟨k, hk, rfl⟩ := hw
    rw [hn, List.count_replicate_self]
    exact hk.1
  | group compositor range children, hn => by
    unfold Mentions at hn
    unfold leaves
    obtain ⟨l, hl, hln, hb⟩ := exists_leafOf_le children hn
    refine ⟨scaled range l, List.mem_map_of_mem hl, hln, fun w hw => ?_⟩
    obtain ⟨k, body, hk, hw, hc⟩ := counted_of_group hw
    exact Nat.le_trans (Nat.mul_le_mul_right _ hk.1) (hw.le_count fun u hu => hb _ (hc u hu))
  | choice range branches, hn => by
    unfold Mentions at hn
    unfold leaves
    obtain ⟨l, hl, hln, -⟩ := exists_leafOf_le branches hn
    refine ⟨scaled { range with lower := 0 } l, List.mem_map_of_mem hl, hln, fun w _ => ?_⟩
    show 0 * l.2.lower ≤ _
    rw [Nat.zero_mul]
    exact Nat.zero_le _
  | wildcard, hn => by unfold Mentions at hn; exact hn.elim
  | unresolved _ _, hn => by unfold Mentions at hn; exact hn.elim
  | broken _, hn => by unfold Mentions at hn; exact hn.elim

theorem exists_leafOf_le : ∀ ps : List Particle, AnyMentions nameOf n ps →
    ∃ l ∈ leavesOf ps, nameOf l.1 = n ∧ ∀ c, Counted nameOf ps c → l.2.lower ≤ c n
  | [], hn => by unfold AnyMentions at hn; exact hn.elim
  | p :: rest, hn => by
    unfold AnyMentions at hn
    unfold leavesOf
    rcases hn with hn | hn
    · obtain ⟨l, hl, hln, hb⟩ := exists_leaf_le p hn
      refine ⟨l, List.mem_append_left _ hl, hln, fun c ⟨u, d, hu, _, hc⟩ => ?_⟩
      rw [hc]
      exact Nat.le_trans (hb u hu) (Nat.le_add_right _ _)
    · obtain ⟨l, hl, hln, hb⟩ := exists_leafOf_le rest hn
      refine ⟨l, List.mem_append_right _ hl, hln, fun c ⟨u, d, _, hd, hc⟩ => ?_⟩
      rw [hc]
      exact Nat.le_trans (hb d hd) (Nat.le_add_left _ _)

end

/-! ## From above -/

/-- So many are not more than a range allows. -/
def Within (r : Range) (k : Nat) : Prop := ∀ m, r.upper = some m → k ≤ m

theorem within_mul {outer inner : Range} {k c : Nat} (h : Within outer k)
    (hc : ∀ high, inner.upper = some high → c ≤ k * high) : Within (outer.mul inner) c := by
  intro m hm
  unfold Bounds.mul Bounds.mulMax at hm
  cases ho : outer.upper with
  | none => rw [ho] at hm; cases hm
  | some x =>
    cases hi : inner.upper with
    | none => rw [ho, hi] at hm; cases hm
    | some y =>
      rw [ho, hi] at hm
      cases hm
      exact Nat.le_trans (hc y hi) (Nat.mul_le_mul_right y (h x ho))

theorem within_of_eq_zero {r : Range} {k : Nat} (h : k = 0) : Within r k :=
  fun _ _ => h ▸ Nat.zero_le _

/-- One of two ranges allows more. -/
theorem within_total (r r' : Range) :
    (∀ k, Within r k → Within r' k) ∨ ∀ k, Within r' k → Within r k := by
  unfold Within
  cases r.upper with
  | none => exact .inr fun _ _ _ h => nomatch h
  | some x =>
    cases r'.upper with
    | none => exact .inl fun _ _ _ h => nomatch h
    | some y =>
      simp only [Option.some.injEq, forall_eq']
      rcases Nat.le_total x y with h | h
      · exact .inl fun _ hk => Nat.le_trans hk h
      · exact .inr fun _ hk => Nat.le_trans hk h

mutual

/-- A name that no sequence repeats comes no more often than one of its leaves allows. -/
theorem exists_leaf_ge : ∀ p : Particle, p.Mentions nameOf n → p.Separate nameOf n →
    ∃ l ∈ p.leaves, nameOf l.1 = n ∧ ∀ w, p.Accepts nameOf w → Within l.2 (w.count n)
  | element range site, hn, _ => by
    unfold Mentions at hn
    unfold leaves
    refine ⟨(site, range), List.mem_singleton.mpr rfl, hn, fun w hw => ?_⟩
    unfold Accepts at hw
    obtain ⟨k, hk, rfl⟩ := hw
    rw [hn, List.count_replicate_self]
    exact hk.2
  | group compositor range children, hn, hs => by
    unfold Mentions at hn
    unfold Separate at hs
    unfold leaves
    obtain ⟨l, hl, hln, hb⟩ := exists_leafOf_ge children hn hs
    refine ⟨scaled range l, List.mem_map_of_mem hl, hln, fun w hw => ?_⟩
    obtain ⟨k, body, hk, hw, hc⟩ := counted_of_group hw
    exact within_mul hk.2 fun high hh => hw.count_le fun u hu => hb _ (hc u hu) high hh
  | choice range branches, hn, hs => by
    unfold Mentions at hn
    unfold Separate at hs
    unfold leaves
    obtain ⟨l, hl, hln, hb⟩ := exists_branch_ge branches hn hs
    refine ⟨scaled { range with lower := 0 } l, List.mem_map_of_mem hl, hln, fun w hw => ?_⟩
    unfold Accepts at hw
    obtain ⟨k, hk, hw⟩ := hw
    exact within_mul hk.2 fun high hh => hw.count_le fun u hu => hb u hu high hh
  | wildcard, hn, _ => by unfold Mentions at hn; exact hn.elim
  | unresolved _ _, hn, _ => by unfold Mentions at hn; exact hn.elim
  | broken _, hn, _ => by unfold Mentions at hn; exact hn.elim

theorem exists_leafOf_ge : ∀ ps : List Particle, AnyMentions nameOf n ps →
    AllSeparate nameOf n ps →
    ∃ l ∈ leavesOf ps, nameOf l.1 = n ∧ ∀ c, Counted nameOf ps c → Within l.2 (c n)
  | [], hn, _ => by unfold AnyMentions at hn; exact hn.elim
  | p :: rest, hn, hs => by
    unfold AllSeparate at hs
    obtain ⟨hpr, hp, hr⟩ := hs
    unfold leavesOf
    by_cases hm : p.Mentions nameOf n
    · obtain ⟨l, hl, hln, hb⟩ := exists_leaf_ge p hm hp
      refine ⟨l, List.mem_append_left _ hl, hln, fun c ⟨u, d, hu, hd, hc⟩ => ?_⟩
      rw [hc, counted_eq_zero (hpr hm) hd]
      exact hb u hu
    · unfold AnyMentions at hn
      obtain ⟨l, hl, hln, hb⟩ := exists_leafOf_ge rest (hn.resolve_left hm) hr
      refine ⟨l, List.mem_append_right _ hl, hln, fun c ⟨u, d, hu, hd, hc⟩ => ?_⟩
      rw [hc, count_eq_zero hm hu, Nat.zero_add]
      exact hb d hd

/-- Of the branches that hold a name, one allows it most often. -/
theorem exists_branch_ge : ∀ ps : List Particle, AnyMentions nameOf n ps →
    EachSeparate nameOf n ps →
    ∃ l ∈ leavesOf ps, nameOf l.1 = n ∧ ∀ w, OneOf nameOf ps w → Within l.2 (w.count n)
  | [], hn, _ => by unfold AnyMentions at hn; exact hn.elim
  | p :: rest, hn, hs => by
    unfold EachSeparate at hs
    obtain ⟨hp, hr⟩ := hs
    unfold leavesOf
    unfold AnyMentions at hn
    by_cases hm : p.Mentions nameOf n
    · obtain ⟨l, hl, hln, hb⟩ := exists_leaf_ge p hm hp
      by_cases hmr : AnyMentions nameOf n rest
      · obtain ⟨l', hl', hln', hb'⟩ := exists_branch_ge rest hmr hr
        rcases within_total l.2 l'.2 with ht | ht
        · refine ⟨l', List.mem_append_right _ hl', hln', fun w hw => ?_⟩
          unfold OneOf at hw
          exact hw.elim (fun hw => ht _ (hb w hw)) (hb' w)
        · refine ⟨l, List.mem_append_left _ hl, hln, fun w hw => ?_⟩
          unfold OneOf at hw
          exact hw.elim (hb w) fun hw => ht _ (hb' w hw)
      · refine ⟨l, List.mem_append_left _ hl, hln, fun w hw => ?_⟩
        unfold OneOf at hw
        exact hw.elim (hb w) fun hw => within_of_eq_zero (oneOf_eq_zero hmr hw)
    · obtain ⟨l, hl, hln, hb⟩ := exists_branch_ge rest (hn.resolve_left hm) hr
      refine ⟨l, List.mem_append_right _ hl, hln, fun w hw => ?_⟩
      unfold OneOf at hw
      exact hw.elim (fun hw => within_of_eq_zero (count_eq_zero hm hw)) (hb w)

end

end Particle

end WsdlCatalog
