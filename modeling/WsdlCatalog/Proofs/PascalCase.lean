/-
  WsdlCatalog.Proofs.PascalCase — which letters of a name are raised, and what a canonical
  name looks like.

  Before every character of a name it is settled whether a word character is raised there
  (`opens`): it is at the beginning and behind a hyphen or a blank, and it is not behind a
  letter or a digit. An underscore turns this round, because it is a separator where nothing
  is raised and the raised character itself where something is.

  Proved, of every name (`pascal_canonicalForm`): what is left are ASCII letters and digits; a
  letter behind a run of underscores is raised or not by their number and by what stands before
  them; and a canonical name is its own canonical name exactly when it does not begin with a
  lower-case letter. It does begin with one where that letter stands behind an underscore at
  the beginning of the name, so it need not be in Pascal case (`leadingUnderscore_lowers`).
-/

import Mathlib
import WsdlCatalog.Proofs.Extension
import WsdlCatalog.Text.CanonicalName

namespace WsdlCatalog.Text

/-! ## Characters -/

theorem toNat_of_isAlphanum {c : Char} (h : c.isAlphanum = true) :
    ((65 ≤ c.toNat ∧ c.toNat ≤ 90) ∨ (97 ≤ c.toNat ∧ c.toNat ≤ 122)) ∨
      (48 ≤ c.toNat ∧ c.toNat ≤ 57) := by
  simp only [Char.isAlphanum, Char.isAlpha, Char.isUpper, Char.isLower, Char.isDigit,
    Bool.or_eq_true, Bool.and_eq_true, decide_eq_true_eq, UInt32.le_iff_toNat_le] at h
  exact h

theorem isBlank_of_isAlphanum {c : Char} (h : c.isAlphanum = true) : isBlank c = false := by
  have range := toNat_of_isAlphanum h
  by_contra blank
  simp only [isBlank, Bool.not_eq_false, Bool.or_eq_true, Bool.and_eq_true, decide_eq_true_eq,
    beq_iff_eq] at blank
  omega

theorem isSeparator_of_isAlphanum {c : Char} (h : c.isAlphanum = true) : isSeparator c = false := by
  unfold isSeparator
  rw [isBlank_of_isAlphanum h, Bool.or_false, Bool.or_eq_false_iff, beq_eq_false_iff_ne,
    beq_eq_false_iff_ne]
  constructor
  · rintro rfl
    exact absurd h (by decide)
  · rintro rfl
    exact absurd h (by decide)

theorem isWordChar_of_isAlphanum {c : Char} (h : c.isAlphanum = true) : isWordChar c = true := by
  rw [isWordChar, h, Bool.true_or, Bool.true_or]

theorem isWordChar_of_isBlank {c : Char} (h : isBlank c = true) : isWordChar c = false := by
  have alnum : c.isAlphanum = false := by
    by_contra alnum
    rw [isBlank_of_isAlphanum (Bool.not_eq_false _ ▸ alnum)] at h
    cases h
  have other : (c == '_') = false := by
    rw [beq_eq_false_iff_ne]
    rintro rfl
    exact absurd h (by decide)
  rw [isWordChar, alnum, other, h, Bool.not_true, Bool.and_false, Bool.or_false, Bool.or_false]

theorem kept_of_isAlphanum {c : Char} (h : c.isAlphanum = true) : kept c = [c] := if_pos h

theorem isAlphanum_of_mem_kept {c x : Char} (h : x ∈ kept c) : x = c ∧ c.isAlphanum = true := by
  unfold kept at h
  split at h
  · rename_i alnum
    exact ⟨List.mem_singleton.mp h, alnum⟩
  · cases h

theorem kept_of_isSeparator {c : Char} (h : isSeparator c = true) : kept c = [] := by
  unfold kept
  rw [if_neg]
  intro alnum
  rw [isSeparator_of_isAlphanum alnum] at h
  cases h

theorem raised_of_isAlphanum {c : Char} (h : c.isAlphanum = true) : raised c = [c.toUpper] := by
  have range := toNat_of_isAlphanum h
  have absent : raisedBeyondAscii.lookup c.toNat = none := by
    rw [lookup_eq_none]
    intro found
    have beyond : ∀ n ∈ raisedBeyondAscii.map Prod.fst, 0x80 ≤ n := by decide
    have := beyond _ found
    omega
  have upper : c.toUpper.isAlphanum = true := by
    simp only [Char.isAlphanum, Bool.or_eq_true, Char.isAlpha_toUpper_eq_isAlpha] at h ⊢
    by_cases alpha : c.isAlpha = true
    · exact .inl alpha
    · rw [Char.toUpper_eq_of_not_isLower (fun lower => alpha (by rw [Char.isAlpha, lower, Bool.or_true]))]
      exact h
  unfold raised
  rw [absent]
  exact kept_of_isAlphanum upper

/-- What is left of a raised character are upper-case letters and digits. -/
theorem isAlphanum_of_mem_raised {c x : Char} (h : x ∈ raised c) :
    x.isAlphanum = true ∧ x.isLower = false := by
  unfold raised at h
  split at h
  · rename_i cs found
    have table : (raisedBeyondAscii.all fun entry =>
        entry.2.all fun x => x.isAlphanum && !x.isLower) = true := by decide +kernel
    have here := List.all_eq_true.mp (List.all_eq_true.mp table _ (mem_of_lookup found)) x h
    rwa [Bool.and_eq_true, Bool.not_eq_true'] at here
  · obtain ⟨rfl, alnum⟩ := isAlphanum_of_mem_kept h
    exact ⟨alnum, Char.isLower_toUpper_eq_false c⟩

/-! ## The name character by character -/

/-- Whether a word character is raised behind `c`, if one is raised in its place or not. -/
def opensAfter (opening : Bool) (c : Char) : Bool := isSeparator c && !(opening && isWordChar c)

def opens (before : List Char) : Bool := before.foldl opensAfter true

def leaves (opening : Bool) (c : Char) : List Char :=
  if opening && isWordChar c then raised c else kept c

def spelled (opening : Bool) : List Char → List Char
  | [] => []
  | c :: rest => leaves opening c ++ spelled (opensAfter opening c) rest

theorem spelled_append (xs ys : List Char) (opening : Bool) :
    spelled opening (xs ++ ys) =
      spelled opening xs ++ spelled (xs.foldl opensAfter opening) ys := by
  induction xs generalizing opening with
  | nil => rfl
  | cons x xs ih => rw [List.cons_append, spelled, spelled, ih, List.foldl_cons, List.append_assoc]

theorem leaves_false (c : Char) : leaves false c = kept c := rfl

theorem opensAfter_false (c : Char) : opensAfter false c = isSeparator c := by
  rw [opensAfter, Bool.false_and, Bool.not_false, Bool.and_true]

theorem opensAfter_true_of_word {c : Char} (h : isWordChar c = true) :
    opensAfter true c = false := by
  rw [opensAfter, h, Bool.and_true, Bool.not_true, Bool.and_false]

/-- Only word characters are raised. -/
theorem spelled_of_not_word {c : Char} (h : isWordChar c = false) (opening : Bool)
    {rest : List Char} : spelled opening (c :: rest) = spelled false (c :: rest) := by
  rw [spelled, spelled, leaves, opensAfter, h, Bool.and_false, opensAfter_false, leaves_false,
    if_neg Bool.false_ne_true, Bool.not_false, Bool.and_true]

theorem pascalRest_eq (cs : List Char) : pascalRest cs = spelled false cs := by
  fun_induction pascalRest cs with
  | case1 => rfl
  | case2 c => rw [spelled, spelled, leaves_false, List.append_nil]
  | case3 s c rest h ih =>
    -- the separator leaves nothing, and the character behind it is raised
    obtain ⟨separator, word⟩ := Bool.and_eq_true_iff.mp h
    rw [spelled, leaves_false, kept_of_isSeparator separator, List.nil_append, opensAfter_false,
      separator, spelled, opensAfter_true_of_word word, ih, leaves, word, Bool.and_true, if_pos rfl]
  | case4 s c rest h ih =>
    rw [ih]
    show kept s ++ spelled false (c :: rest) = kept s ++ spelled (opensAfter false s) (c :: rest)
    rw [opensAfter_false]
    cases separator : isSeparator s with
    | false => rfl
    | true =>
      have word : isWordChar c = false := by
        rw [separator, Bool.true_and, Bool.not_eq_true] at h
        exact h
      exact congrArg (kept s ++ ·) (spelled_of_not_word word true).symm

/-- The canonical name as it is left of all the characters. -/
theorem toList_pascal (name : String) : (pascal name).toList = spelled true name.toList := by
  unfold pascal
  split
  · rename_i h
    rw [h]
    rfl
  · rename_i c rest h
    rw [h, String.toList_ofList]
    cases word : isWordChar c with
    | true =>
      rw [if_pos rfl, pascalRest_eq, spelled, leaves, opensAfter_true_of_word word, word,
        Bool.and_true, if_pos rfl]
    | false =>
      rw [if_neg Bool.false_ne_true, pascalRest_eq, spelled_of_not_word word true]

theorem toList_pascal_ofList (cs : List Char) :
    (pascal (String.ofList cs)).toList = spelled true cs := by
  rw [toList_pascal, String.toList_ofList]

theorem leaves_of_isAlphanum {c : Char} (h : c.isAlphanum = true) (opening : Bool) :
    leaves opening c = [if opening then c.toUpper else c] := by
  unfold leaves
  rw [isWordChar_of_isAlphanum h, Bool.and_true]
  cases opening with
  | true => exact raised_of_isAlphanum h
  | false => exact kept_of_isAlphanum h

theorem isAlphanum_of_mem_spelled {cs : List Char} :
    ∀ {opening : Bool} {x : Char}, x ∈ spelled opening cs → x.isAlphanum = true := by
  induction cs with
  | nil => exact fun h => absurd h List.not_mem_nil
  | cons c rest ih =>
    intro opening x h
    rcases List.mem_append.mp h with here | later
    · unfold leaves at here
      split at here
      · exact (isAlphanum_of_mem_raised here).1
      · obtain ⟨rfl, alnum⟩ := isAlphanum_of_mem_kept here
        exact alnum
    · exact ih later

/-! ## Where letters are raised -/

/-- A beginning of a name behind which a letter is raised: nothing, or a hyphen or blank last. -/
def isOpening (before : List Char) : Bool := before.getLast?.all fun c => c == '-' || isBlank c

theorem opensAfter_underscore (opening : Bool) : opensAfter opening '_' = !opening := by
  cases opening <;> rfl

theorem opens_eq {before : List Char} (h : before.getLast? ≠ some '_') :
    opens before = isOpening before := by
  rcases List.eq_nil_or_concat before with rfl | ⟨init, c, rfl⟩
  · rfl
  · rw [List.concat_eq_append] at h ⊢
    have other : c ≠ '_' := fun e => h (by rw [List.getLast?_concat, e])
    rw [opens, List.foldl_append, List.foldl_cons, List.foldl_nil, isOpening, List.getLast?_concat,
      Option.all_some, opensAfter, isSeparator, beq_eq_false_iff_ne.mpr other, Bool.false_or]
    cases apart : c == '-' || isBlank c with
    | false => rfl
    | true =>
      have word : isWordChar c = false := by
        rcases Bool.or_eq_true_iff.mp apart with hyphen | blank
        · rw [eq_of_beq hyphen]
          rfl
        · exact isWordChar_of_isBlank blank
      rw [word, Bool.and_false, Bool.not_false, Bool.and_true]

theorem foldl_underscores (n : Nat) (opening : Bool) :
    (List.replicate n '_').foldl opensAfter opening = (opening == (n % 2 == 0)) := by
  induction n generalizing opening with
  | zero => cases opening <;> rfl
  | succ n ih =>
    rw [List.replicate_succ, List.foldl_cons, ih, opensAfter_underscore]
    rcases Nat.mod_two_eq_zero_or_one n with even | odd
    · rw [even, Nat.succ_mod_two_eq_one_iff.mpr even]
      cases opening <;> rfl
    · rw [odd, Nat.succ_mod_two_eq_zero_iff.mpr odd]
      cases opening <;> rfl

/-- Underscores count: behind an even number of them a letter is raised if one would be raised
without them, behind an odd number if not. -/
theorem opens_underscores {before : List Char} (h : before.getLast? ≠ some '_') (n : Nat) :
    opens (before ++ List.replicate n '_') = (isOpening before == (n % 2 == 0)) := by
  rw [opens, List.foldl_append, foldl_underscores]
  exact congrArg (· == (n % 2 == 0)) (opens_eq h)

theorem exists_underscores (cs : List Char) :
    ∃ before n, cs = before ++ List.replicate n '_' ∧ before.getLast? ≠ some '_' := by
  induction cs using List.reverseRecOn with
  | nil => exact ⟨[], 0, rfl, nofun⟩
  | append_singleton init c ih =>
    by_cases last : c = '_'
    · obtain ⟨before, n, rfl, hb⟩ := ih
      refine ⟨before, n + 1, ?_, hb⟩
      rw [last, List.replicate_succ', List.append_assoc]
    · refine ⟨init ++ [c], 0, (List.append_nil _).symm, ?_⟩
      rw [List.getLast?_concat]
      exact fun e => last (Option.some.inj e)

theorem toList_pascal_split {name : String} {before after : List Char} {c : Char}
    (split : name.toList = before ++ c :: after) (h : c.isAlphanum = true) :
    ∃ rest, (pascal name).toList = (pascal (String.ofList before)).toList ++
      (if opens before then c.toUpper else c) :: rest := by
  refine ⟨spelled (opensAfter (opens before) c) after, ?_⟩
  rw [toList_pascal, split, spelled_append, toList_pascal_ofList, spelled, leaves_of_isAlphanum h]
  rfl

/-! ## How canonical names begin -/

def beginsLower (name : String) : Bool := name.toList.head?.any Char.isLower

theorem spelled_false_of_alphanumeric {cs : List Char} (h : ∀ c ∈ cs, c.isAlphanum = true) :
    spelled false cs = cs := by
  induction cs with
  | nil => rfl
  | cons c rest ih =>
    obtain ⟨alnum, others⟩ := List.forall_mem_cons.mp h
    rw [spelled, leaves_false, kept_of_isAlphanum alnum, opensAfter_false,
      isSeparator_of_isAlphanum alnum, ih others, List.singleton_append]

/-- Of ASCII letters and digits only the first one can change. -/
theorem spelled_of_alphanumeric {c : Char} {rest : List Char}
    (h : ∀ x ∈ c :: rest, x.isAlphanum = true) : spelled true (c :: rest) = c.toUpper :: rest := by
  obtain ⟨alnum, others⟩ := List.forall_mem_cons.mp h
  rw [spelled, leaves_of_isAlphanum alnum, opensAfter, isSeparator_of_isAlphanum alnum,
    Bool.false_and, spelled_false_of_alphanumeric others]
  rfl

theorem alphanumeric_pascal (name : String) : ∀ c ∈ (pascal name).toList, c.isAlphanum = true := by
  intro c hc
  rw [toList_pascal] at hc
  exact isAlphanum_of_mem_spelled hc

/-- A name of ASCII letters and digits is canonical if it does not begin with a lower-case one. -/
theorem pascal_eq_self_iff {name : String} (h : ∀ c ∈ name.toList, c.isAlphanum = true) :
    pascal name = name ↔ beginsLower name = false := by
  rw [← String.toList_inj, toList_pascal, beginsLower]
  cases chars : name.toList with
  | nil => exact ⟨fun _ => rfl, fun _ => rfl⟩
  | cons c rest =>
    rw [chars] at h
    rw [spelled_of_alphanumeric h, List.cons.injEq, and_iff_left rfl, List.head?_cons,
      Option.any_some]
    constructor
    · intro same
      rw [← same]
      exact Char.isLower_toUpper_eq_false c
    · intro upper
      exact Char.toUpper_eq_of_not_isLower (by rw [upper]; exact Bool.false_ne_true)

theorem beginsLower_pascal {name : String} (h : ∀ c ∈ name.toList, c.isAlphanum = true) :
    beginsLower (pascal name) = false := by
  rw [beginsLower, toList_pascal]
  cases chars : name.toList with
  | nil => rfl
  | cons c rest =>
    rw [chars] at h
    rw [spelled_of_alphanumeric h]
    exact Char.isLower_toUpper_eq_false c

/-- The character that the first one of what is left comes from. -/
theorem exists_first {cs : List Char} :
    ∀ {opening : Bool} {x : Char} {xs : List Char}, spelled opening cs = x :: xs →
      ∃ before c after, cs = before ++ c :: after ∧ spelled opening before = [] ∧
        x ∈ leaves (before.foldl opensAfter opening) c := by
  induction cs with
  | nil => exact fun h => absurd h (List.cons_ne_nil _ _).symm
  | cons c rest ih =>
    intro opening x xs h
    rw [spelled] at h
    cases here : leaves opening c with
    | cons y ys =>
      rw [here] at h
      obtain ⟨rfl, -⟩ := List.cons.inj h
      exact ⟨[], c, rest, rfl, rfl, here ▸ List.mem_cons_self⟩
    | nil =>
      rw [here] at h
      obtain ⟨before, d, after, rfl, nothing, hx⟩ := ih h
      exact ⟨c :: before, d, after, rfl, by rw [spelled, here, nothing]; rfl, hx⟩

theorem beginsLower_iff {name : String} :
    beginsLower name = true ↔ ∃ c rest, name.toList = c :: rest ∧ c.isLower = true := by
  unfold beginsLower
  cases name.toList with
  | nil => exact ⟨nofun, fun ⟨_, _, h, _⟩ => nomatch h⟩
  | cons c rest =>
    rw [List.head?_cons, Option.any_some]
    constructor
    · exact fun lower => ⟨c, rest, rfl, lower⟩
    · rintro ⟨d, others, same, lower⟩
      rwa [(List.cons.inj same).1]

/-- A canonical name begins with a lower-case letter where that letter is not raised, and nothing
is left of what stands before it. -/
theorem beginsLower_pascal_iff {name : String} : beginsLower (pascal name) = true ↔
    ∃ before n c after, name.toList = before ++ List.replicate n '_' ++ c :: after ∧
      before.getLast? ≠ some '_' ∧ pascal (String.ofList (before ++ List.replicate n '_')) = "" ∧
      c.isLower = true ∧ isOpening before ≠ (n % 2 == 0) := by
  rw [beginsLower_iff]
  constructor
  · rintro ⟨x, xs, first, lower⟩
    rw [toList_pascal] at first
    obtain ⟨pre, c, after, split, nothing, hx⟩ := exists_first first
    obtain ⟨before, n, rfl, hb⟩ := exists_underscores pre
    have closed : (opens (before ++ List.replicate n '_') && isWordChar c) = false := by
      by_contra raised
      rw [leaves, if_pos (Bool.not_eq_false _ ▸ raised)] at hx
      rw [(isAlphanum_of_mem_raised hx).2] at lower
      cases lower
    have here : x ∈ kept c := by
      rw [leaves, if_neg (Bool.not_eq_true _ ▸ closed)] at hx
      exact hx
    obtain ⟨rfl, alnum⟩ := isAlphanum_of_mem_kept here
    refine ⟨before, n, x, after, split, hb, ?_, lower, ?_⟩
    · rw [← String.toList_inj, toList_pascal_ofList, nothing]
      rfl
    · rw [isWordChar_of_isAlphanum alnum, Bool.and_true, opens_underscores hb] at closed
      intro same
      rw [same, beq_self_eq_true] at closed
      cases closed
  · rintro ⟨before, n, c, after, split, hb, nothing, lower, closed⟩
    have alnum : c.isAlphanum = true := by
      rw [Char.isAlphanum, Char.isAlpha, lower, Bool.or_true, Bool.true_or]
    obtain ⟨rest, first⟩ := toList_pascal_split split alnum
    rw [nothing, opens_underscores hb, beq_eq_false_iff_ne.mpr closed] at first
    exact ⟨c, rest, first, lower⟩

theorem not_isAlphanum_of_pascal_empty {cs : List Char} (h : pascal (String.ofList cs) = "")
    {c : Char} (hc : c ∈ cs) : c.isAlphanum = false := by
  by_contra alnum
  obtain ⟨before, after, rfl⟩ := List.append_of_mem hc
  obtain ⟨rest, first⟩ := toList_pascal_split (String.toList_ofList (l := before ++ c :: after))
    (Bool.not_eq_false _ ▸ alnum)
  rw [h] at first
  exact absurd first.symm (List.append_ne_nil_of_right_ne_nil _ (List.cons_ne_nil _ _))

/-! ## Names in which single underscores stand between words -/

/-- A name of ASCII letters, digits, hyphens and underscores, each underscore right behind a letter
or a digit. -/
structure IsPlain (cs : List Char) : Prop where
  chars : ∀ c ∈ cs, c.isAlphanum = true ∨ c = '_' ∨ c = '-'
  apart : ∀ before after, cs = before ++ '_' :: after →
    ∃ init c, before = init ++ [c] ∧ c.isAlphanum = true

namespace IsPlain

variable {before after : List Char} {n : Nat}

/-- At most one underscore stands behind another character. -/
theorem underscores (h : IsPlain (before ++ List.replicate n '_' ++ after)) :
    n = 0 ∨ n = 1 ∧ ∃ init c, before = init ++ [c] ∧ c.isAlphanum = true := by
  match n with
  | 0 => exact .inl rfl
  | 1 => exact .inr ⟨rfl, h.apart before after (by simp)⟩
  | n + 2 =>
    have split : before ++ List.replicate (n + 2) '_' ++ after =
        (before ++ List.replicate n '_' ++ ['_']) ++ '_' :: after := by
      rw [List.replicate_succ', List.replicate_succ']
      simp
    obtain ⟨init, c, same, alnum⟩ := h.apart _ _ split
    obtain ⟨-, same⟩ := List.append_inj' same rfl
    rw [← (List.cons.inj same).1] at alnum
    exact absurd alnum (by decide)

/-- Every letter that begins the name or follows a separator is raised. -/
theorem opens (h : IsPlain (before ++ after)) (last : before.getLast?.all isSeparator = true) :
    opens before = true := by
  obtain ⟨rest, n, rfl, hr⟩ := exists_underscores before
  rw [opens_underscores hr]
  rcases h.underscores with rfl | ⟨rfl, init, c, rfl, alnum⟩
  · rw [List.replicate_zero, List.append_nil] at last
    rw [isOpening]
    cases hl : rest.getLast? with
    | none => rfl
    | some c =>
      rw [hl, Option.all_some, isSeparator] at last
      rw [hl] at hr
      have other : (c == '_') = false := beq_eq_false_iff_ne.mpr fun e => hr (by rw [e])
      rw [other, Bool.false_or] at last
      rw [Option.all_some, last]
      rfl
  · have hyphen : (c == '-') = false := by
      rw [beq_eq_false_iff_ne]
      rintro rfl
      exact absurd alnum (by decide)
    rw [isOpening, List.getLast?_concat, Option.all_some, hyphen, isBlank_of_isAlphanum alnum]
    rfl

theorem beginsLower_eq_false {name : String} (h : IsPlain name.toList) :
    beginsLower (pascal name) = false := by
  by_contra lower
  obtain ⟨before, n, c, after, split, hb, nothing, -, closed⟩ :=
    beginsLower_pascal_iff.mp (Bool.not_eq_false _ ▸ lower)
  rw [split] at h
  have left {d : Char} (hd : d ∈ before) : d.isAlphanum = false :=
    not_isAlphanum_of_pascal_empty nothing (List.mem_append_left _ hd)
  -- what stands before the letter would have left something, were it not a hyphen
  have last : before.getLast?.all isSeparator = true := by
    cases hl : before.getLast? with
    | none => rfl
    | some d =>
      have hd := List.mem_of_getLast? hl
      rcases h.chars d (by simp [hd]) with alnum | rfl | rfl
      · rw [left hd] at alnum
        cases alnum
      · exact absurd hl hb
      · rfl
  rcases h.underscores with rfl | ⟨-, init, d, rfl, alnum⟩
  · rw [List.append_assoc] at h
    have opening := h.opens last
    rw [opens_eq hb] at opening
    exact closed opening
  · rw [left (List.mem_append_right _ (List.mem_singleton_self d))] at alnum
    cases alnum

end IsPlain

/-! ## Canonical names -/

structure CanonicalForm (name : String) : Prop where
  alphanumeric : ∀ c ∈ (pascal name).toList, c.isAlphanum = true
  /-- A letter behind an even number of underscores is raised if they begin the name or follow a
  hyphen or a blank, one behind an odd number if they follow anything else. -/
  letter : ∀ before n c after, name.toList = before ++ List.replicate n '_' ++ c :: after →
    before.getLast? ≠ some '_' → c.isAlphanum = true →
    ∃ rest, (pascal name).toList =
      (pascal (String.ofList (before ++ List.replicate n '_'))).toList ++
        (if isOpening before == (n % 2 == 0) then c.toUpper else c) :: rest
  /-- A canonical name is canonical itself unless it begins with a lower-case letter. -/
  fixed : pascal (pascal name) = pascal name ↔ beginsLower (pascal name) = false
  settled : pascal (pascal (pascal name)) = pascal (pascal name)
  lower : beginsLower (pascal name) = true ↔
    ∃ before n c after, name.toList = before ++ List.replicate n '_' ++ c :: after ∧
      before.getLast? ≠ some '_' ∧ pascal (String.ofList (before ++ List.replicate n '_')) = "" ∧
      c.isLower = true ∧ isOpening before ≠ (n % 2 == 0)
  /-- Where single underscores and hyphens stand between words, every word is raised. -/
  plain : IsPlain name.toList → beginsLower (pascal name) = false ∧
    ∀ before c after, name.toList = before ++ c :: after → c.isAlphanum = true →
      before.getLast?.all isSeparator = true →
      ∃ rest, (pascal name).toList =
        (pascal (String.ofList before)).toList ++ c.toUpper :: rest

/-- **Canonical names consist of ASCII letters and digits**, and where no underscore begins the name
or follows a separator they are in Pascal case. -/
theorem pascal_canonicalForm (name : String) : CanonicalForm name where
  alphanumeric := alphanumeric_pascal name
  letter before n c after split hb alnum := by
    obtain ⟨rest, chars⟩ := toList_pascal_split split alnum
    rw [opens_underscores hb] at chars
    exact ⟨rest, chars⟩
  fixed := pascal_eq_self_iff (alphanumeric_pascal name)
  settled := (pascal_eq_self_iff (alphanumeric_pascal (pascal name))).mpr
    (beginsLower_pascal (alphanumeric_pascal name))
  lower := beginsLower_pascal_iff
  plain h := by
    refine ⟨h.beginsLower_eq_false, fun before c after split alnum last => ?_⟩
    obtain ⟨rest, chars⟩ := toList_pascal_split split alnum
    rw [split] at h
    rw [h.opens last, if_pos rfl] at chars
    exact ⟨rest, chars⟩

theorem isPlain_words : IsPlain "a_b-c".toList := by
  constructor
  · intro c hc
    have all : ("a_b-c".toList.all fun c => c.isAlphanum || c == '_' || c == '-') = true := by decide
    have here := List.all_eq_true.mp all c hc
    rwa [Bool.or_eq_true, Bool.or_eq_true, beq_iff_eq, beq_iff_eq, or_assoc] at here
  · intro before after split
    rcases before with _ | ⟨a, _ | ⟨b, _ | ⟨c, _ | ⟨d, _ | ⟨e, more⟩⟩⟩⟩⟩
    · simp at split
    · simp at split
      exact ⟨[], a, rfl, by rw [← split.1]; decide⟩
    all_goals simp at split

/-- A name of three words. -/
theorem words_canonicalForm : IsPlain "a_b-c".toList ∧ pascal "a_b-c" = "ABC" ∧
    beginsLower (pascal "a_b-c") = false ∧ pascal (pascal "a_b-c") = pascal "a_b-c" :=
  have upper := ((pascal_canonicalForm "a_b-c").plain isPlain_words).1
  ⟨isPlain_words, by decide, upper, (pascal_canonicalForm "a_b-c").fixed.mpr upper⟩

/-- An underscore at the beginning is raised in place of the letter behind it, and one behind another
underscore as well: the canonical name begins with a lower-case letter, is not its own canonical
name, and a letter behind a separator stays as it is. -/
theorem leadingUnderscore_lowers : pascal "_a" = "a" ∧ beginsLower (pascal "_a") = true ∧
    pascal (pascal "_a") ≠ pascal "_a" ∧ pascal "a__b" = "Ab" := by
  decide

end WsdlCatalog.Text
