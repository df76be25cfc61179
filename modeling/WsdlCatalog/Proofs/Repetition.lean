/-
  WsdlCatalog.Proofs.Repetition — names that come in several parts of a sequence.

  Going through a content model once, one leaf after another of the same name may be met:
  those of all parts of a sequence, and of a choice those of one branch. If no leaf of a
  name allows it more than so many times, the name comes at most so many times for each of
  the leaves that are met together (`Particle.countedOf_le_together`). Where no sequence has
  the name in two of its parts, that is one leaf at most (`Particle.togetherOf_le_one`).
-/

import WsdlCatalog.Proofs.Language

namespace WsdlCatalog.Particle

variable (nameOf : Site → String)

/-! ## Leaves that are met together -/

mutual

/-- How many leaves of a name going through the particle once meets, at most. -/
def together (n : String) : Particle → Nat
  | element _ site => if nameOf site = n then 1 else 0
  | group _ _ children => togetherOf n children
  | choice _ branches => mostOf n branches
  | _ => 0

def togetherOf (n : String) : List Particle → Nat
  | [] => 0
  | p :: rest => p.together n + togetherOf n rest

def mostOf (n : String) : List Particle → Nat
  | [] => 0
  | p :: rest => max (p.together n) (mostOf n rest)

end

variable {nameOf} {n : String}

mutual

theorem together_eq_zero : ∀ {p : Particle}, ¬ p.Mentions nameOf n → p.together nameOf n = 0
  | element range site, hn => by
    unfold Mentions at hn
    unfold together
    exact if_neg hn
  | group _ range children, hn => by
    unfold Mentions at hn
    unfold together
    exact togetherOf_eq_zero hn
  | choice range branches, hn => by
    unfold Mentions at hn
    unfold together
    exact mostOf_eq_zero hn
  | wildcard, _ => by unfold together; rfl
  | unresolved _ _, _ => by unfold together; rfl
  | broken _, _ => by unfold together; rfl

theorem togetherOf_eq_zero : ∀ {ps : List Particle}, ¬ AnyMentions nameOf n ps →
    togetherOf nameOf n ps = 0
  | [], _ => by unfold togetherOf; rfl
  | p :: rest, hn => by
    unfold AnyMentions at hn
    rw [not_or] at hn
    unfold togetherOf
    rw [together_eq_zero hn.1, togetherOf_eq_zero hn.2]

theorem mostOf_eq_zero : ∀ {ps : List Particle}, ¬ AnyMentions nameOf n ps →
    mostOf nameOf n ps = 0
  | [], _ => by unfold mostOf; rfl
  | p :: rest, hn => by
    unfold AnyMentions at hn
    rw [not_or] at hn
    unfold mostOf
    rw [together_eq_zero hn.1, mostOf_eq_zero hn.2, Nat.max_self]

end

mutual

theorem together_le_one : ∀ {p : Particle}, p.Separate nameOf n → p.together nameOf n ≤ 1
  | element range site, _ => by
    unfold together
    split
    · exact Nat.le_refl 1
    · exact Nat.zero_le 1
  | group _ range children, hs => by
    unfold Separate at hs
    unfold together
    exact togetherOf_le_one hs
  | choice range branches, hs => by
    unfold Separate at hs
    unfold together
    exact mostOf_le_one hs
  | wildcard, _ => by unfold together; exact Nat.zero_le 1
  | unresolved _ _, _ => by unfold together; exact Nat.zero_le 1
  | broken _, _ => by unfold together; exact Nat.zero_le 1

/-- If no sequence has a name in two of its parts, one leaf of the name is met at most. -/
theorem togetherOf_le_one : ∀ {ps : List Particle}, AllSeparate nameOf n ps →
    togetherOf nameOf n ps ≤ 1
  | [], _ => by unfold togetherOf; exact Nat.zero_le 1
  | p :: rest, hs => by
    unfold AllSeparate at hs
    obtain ⟨alone, hp, hr⟩ := hs
    unfold togetherOf
    by_cases hm : p.Mentions nameOf n
    · rw [togetherOf_eq_zero (alone hm), Nat.add_zero]
      exact together_le_one hp
    · rw [together_eq_zero hm, Nat.zero_add]
      exact togetherOf_le_one hr

theorem mostOf_le_one : ∀ {ps : List Particle}, EachSeparate nameOf n ps → mostOf nameOf n ps ≤ 1
  | [], _ => by unfold mostOf; exact Nat.zero_le 1
  | p :: rest, hs => by
    unfold EachSeparate at hs
    unfold mostOf
    exact Nat.max_le.mpr ⟨together_le_one hs.1, mostOf_le_one hs.2⟩

end

/-! ## From above -/

def Limited (nameOf : Site → String) (n : String) (leaves : List (Site × Range)) (high : Nat) : Prop :=
  ∀ l ∈ leaves, nameOf l.1 = n → ∃ k, l.2.upper = some k ∧ k ≤ high

/-- What holds of a word of leaves holds of its repetitions with the leaves scaled. -/
theorem Limited.repeated {leaves : List (Site × Range)} {range : Range} {body : List String → Prop}
    {k m high : Nat} {w : List String} (hl : Limited nameOf n (leaves.map (scaled range)) high)
    (hk : range.Allows k) (hw : Repeated body k w)
    (h : ∀ high, Limited nameOf n leaves high → ∀ u, body u → u.count n ≤ m * high) :
    w.count n ≤ m * high := by
  have scaledUpper {l : Site × Range} (hm : l ∈ leaves) (hn : nameOf l.1 = n) :
      ∃ x y, range.upper = some x ∧ l.2.upper = some y ∧ x * y ≤ high := by
    obtain ⟨z, hz, hle⟩ := hl _ (List.mem_map_of_mem hm) hn
    unfold scaled Bounds.mul Bounds.mulMax at hz
    cases hx : range.upper with
    | none => rw [hx] at hz; cases hz
    | some x =>
      cases hy : l.2.upper with
      | none => rw [hx, hy] at hz; cases hz
      | some y =>
        rw [hx, hy] at hz
        exact ⟨x, y, rfl, rfl, Option.some.inj hz ▸ hle⟩
  cases hx : range.upper with
  | none =>
    -- Without a maximum of the range there is no leaf of the name.
    have none : Limited nameOf n leaves 0 := by
      intro l hm hn
      obtain ⟨x, _, hx', -⟩ := scaledUpper hm hn
      rw [hx] at hx'
      cases hx'
    have never := hw.count_le (h 0 none)
    rw [Nat.mul_zero, Nat.mul_zero] at never
    exact Nat.le_trans never (Nat.zero_le _)
  | some x =>
    have times : k ≤ x := hk.2 x hx
    have share : Limited nameOf n leaves (high / x) ∨ x = 0 := by
      rcases Nat.eq_zero_or_pos x with h0 | hpos
      · exact .inr h0
      · refine .inl fun l hm hn => ?_
        obtain ⟨x', y, hx', hy, hle⟩ := scaledUpper hm hn
        obtain rfl := Option.some.inj (hx.symm.trans hx')
        exact ⟨y, hy, (Nat.le_div_iff_mul_le hpos).mpr (Nat.mul_comm x y ▸ hle)⟩
    rcases share with share | rfl
    · calc w.count n ≤ k * (m * (high / x)) := hw.count_le (h _ share)
        _ ≤ x * (m * (high / x)) := Nat.mul_le_mul_right _ times
        _ = m * (x * (high / x)) := Nat.mul_left_comm _ _ _
        _ ≤ m * high := Nat.mul_le_mul_left _ (Nat.mul_div_le high x)
    · obtain rfl := Nat.le_zero.mp times
      rw [show w = [] from hw]
      exact Nat.zero_le _

theorem Limited.mono {leaves more : List (Site × Range)} {high : Nat}
    (h : Limited nameOf n more high) (hs : leaves ⊆ more) : Limited nameOf n leaves high :=
  fun l hl hn => h l (hs hl) hn

mutual

theorem count_le_together : ∀ (p : Particle) {high : Nat}, Limited nameOf n p.leaves high →
    ∀ {w}, p.Accepts nameOf w → w.count n ≤ p.together nameOf n * high
  | element range site, high, hl, w, hw => by
    unfold Accepts at hw
    obtain ⟨k, hk, rfl⟩ := hw
    unfold leaves at hl
    unfold together
    by_cases hn : nameOf site = n
    · obtain ⟨m, hm, hle⟩ := hl (site, range) (List.mem_singleton.mpr rfl) hn
      rw [if_pos hn, Nat.one_mul, hn, List.count_replicate_self]
      exact Nat.le_trans (hk.2 m hm) hle
    · rw [if_neg hn, Nat.zero_mul, Nat.le_zero]
      exact List.count_eq_zero.mpr fun h => hn (List.eq_of_mem_replicate h).symm
  | group compositor range children, high, hl, w, hw => by
    unfold leaves at hl
    unfold together
    obtain ⟨k, body, hk, hw, hc⟩ := counted_of_group hw
    exact hl.repeated hk hw fun _ hl u hu => countedOf_le_together children hl (hc u hu)
  | choice range branches, high, hl, w, hw => by
    unfold Accepts at hw
    obtain ⟨k, hk, hw⟩ := hw
    unfold leaves at hl
    unfold together
    have allowed : Bounds.Allows { range with lower := 0 } k := ⟨Nat.zero_le k, hk.2⟩
    exact hl.repeated allowed hw fun _ hl u hu => oneOf_le_most branches hl hu
  | wildcard, _, _, w, hw => by unfold Accepts at hw; rw [hw]; exact Nat.zero_le _
  | unresolved _ _, _, _, w, hw => by unfold Accepts at hw; rw [hw]; exact Nat.zero_le _
  | broken _, _, _, w, hw => by unfold Accepts at hw; exact hw.elim

/-- A name comes so many times for each of its leaves that are met together. -/
theorem countedOf_le_together : ∀ (ps : List Particle) {high : Nat},
    Limited nameOf n (leavesOf ps) high → ∀ {c}, Counted nameOf ps c →
      c n ≤ togetherOf nameOf n ps * high
  | [], high, _, c, hc => by
    rw [hc n]
    exact Nat.zero_le _
  | p :: rest, high, hl, c, ⟨u, d, hu, hd, hc⟩ => by
    unfold leavesOf at hl
    unfold togetherOf
    have first := count_le_together p (hl.mono (List.subset_append_left _ _)) hu
    have others := countedOf_le_together rest (hl.mono (List.subset_append_right _ _)) hd
    rw [hc n, Nat.add_mul]
    exact Nat.add_le_add first others

theorem oneOf_le_most : ∀ (ps : List Particle) {high : Nat}, Limited nameOf n (leavesOf ps) high →
    ∀ {w}, OneOf nameOf ps w → w.count n ≤ mostOf nameOf n ps * high
  | [], _, _, w, hw => by unfold OneOf at hw; exact hw.elim
  | p :: rest, high, hl, w, hw => by
    unfold leavesOf at hl
    unfold OneOf at hw
    unfold mostOf
    rcases hw with hw | hw
    · have first := count_le_together p (hl.mono (List.subset_append_left _ _)) hw
      exact Nat.le_trans first (Nat.mul_le_mul_right _ (Nat.le_max_left _ _))
    · have others := oneOf_le_most rest (hl.mono (List.subset_append_right _ _)) hw
      exact Nat.le_trans others (Nat.mul_le_mul_right _ (Nat.le_max_right _ _))

end

theorem leavesOf_append (ps qs : List Particle) : leavesOf (ps ++ qs) = leavesOf ps ++ leavesOf qs := by
  induction ps with
  | nil => rw [List.nil_append, leavesOf, List.nil_append]
  | cons p rest ih => rw [List.cons_append, leavesOf, leavesOf, ih, List.append_assoc]

end WsdlCatalog.Particle
