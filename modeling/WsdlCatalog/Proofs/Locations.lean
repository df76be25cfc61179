/-
  WsdlCatalog.Proofs.Locations — locations that references name, and their normal form.

  Texts are looked up under locations in normal form, and references are resolved to
  locations. So what a reference resolves to has to be in normal form. It is for references
  that are resolved as paths, because normalizing is done once and for all
  (`Path.normalize_normalize`), and for URLs of documents, because these stay what they are
  and resolving keeps the scheme (`Url.scheme_render`).

  One kind of reference is neither: in a document at a URL, a reference with a scheme of its
  own that no document is fetched by (`Location.Foreign`). It is kept as it is written, but
  normalized as if it were a path.

  Proved: what a reference resolves to is in normal form if and only if it can be read as a
  URL at all and is not a foreign reference that a path would be written otherwise
  (`Location.normalize_resolve_iff`).
-/

import WsdlCatalog.Location
import WsdlCatalog.Proofs.Extension

namespace WsdlCatalog

/-! ## Pieces -/

namespace Text

variable {sep : Char}

theorem not_mem_of_mem_split {cs : List Char} : ∀ piece ∈ split sep cs, sep ∉ piece := by
  induction cs with
  | nil => simp [split]
  | cons c rest ih =>
    rw [split]
    split
    · rintro piece (_ | ⟨_, hp⟩)
      · exact List.not_mem_nil
      · exact ih piece hp
    · rename_i other
      obtain ⟨piece, pieces, hs⟩ := List.exists_cons_of_ne_nil (split_ne_nil sep rest)
      rw [hs] at ih ⊢
      rintro _ (_ | ⟨_, hp⟩)
      · refine List.not_mem_cons_of_ne_of_not_mem ?_ (ih piece List.mem_cons_self)
        exact fun same => other (beq_iff_eq.mpr same.symm)
      · exact ih _ (List.mem_cons_of_mem _ hp)

theorem split_append {piece : List Char} (h : sep ∉ piece) (rest : List Char) :
    split sep (piece ++ sep :: rest) = piece :: split sep rest := by
  induction piece with
  | nil => simp [split]
  | cons c piece ih =>
    obtain ⟨other, h⟩ := not_or.mp (mt List.mem_cons.mpr h)
    rw [List.cons_append, split, if_neg (by simpa using Ne.symm other), ih h]

theorem split_of_not_mem {piece : List Char} (h : sep ∉ piece) : split sep piece = [piece] := by
  induction piece with
  | nil => rfl
  | cons c piece ih =>
    obtain ⟨other, h⟩ := not_or.mp (mt List.mem_cons.mpr h)
    rw [split, if_neg (by simpa using Ne.symm other), ih h]

/-- Pieces that are joined can be cut again. -/
theorem split_join {pieces : List (List Char)} (some : pieces ≠ [])
    (h : ∀ piece ∈ pieces, sep ∉ piece) : split sep (join sep pieces) = pieces := by
  induction pieces with
  | nil => exact absurd rfl some
  | cons piece rest ih =>
    obtain ⟨first, others⟩ := List.forall_mem_cons.mp h
    cases rest with
    | nil => exact split_of_not_mem first
    | cons next rest =>
      show split sep (piece ++ sep :: join sep (next :: rest)) = _
      rw [split_append first, ih (List.cons_ne_nil _ _) others]

end Text

/-! ## Paths -/

namespace Path

/-- The segments of a path in normal form, held backwards: each of them stays when it is come to. -/
inductive Settled (absolute : Bool) : List (List Char) → Prop
  | nil : Settled absolute []
  | cons {segment : List Char} {below : List (List Char)} (h : Settled absolute below)
      (inside : '/' ∉ segment) (stays : descend absolute below segment = segment :: below) :
      Settled absolute (segment :: below)

variable {absolute : Bool} {segments : List (List Char)}

/-- A step leaves the segments as they are, takes one back, or adds one. -/
theorem descend_cases (absolute : Bool) (segments : List (List Char)) (segment : List Char) :
    descend absolute segments segment = segments ∨
      (∃ last, segments = last :: descend absolute segments segment) ∨
      descend absolute segments segment = segment :: segments := by
  unfold descend
  split
  · exact .inl rfl
  split
  · rename_i up
    obtain rfl := eq_of_beq up
    cases segments with
    | nil =>
      dsimp only
      split
      · exact .inl rfl
      · exact .inr (.inr rfl)
    | cons last before =>
      dsimp only
      split
      · exact .inr (.inr rfl)
      · exact .inr (.inl ⟨last, rfl⟩)
  · exact .inr (.inr rfl)

theorem Settled.descend (h : Settled absolute segments) {segment : List Char}
    (inside : '/' ∉ segment) : Settled absolute (descend absolute segments segment) := by
  rcases descend_cases absolute segments segment with same | ⟨last, split⟩ | added
  · exact same.symm ▸ h
  · rw [split] at h
    cases h with
    | cons below _ _ => exact below
  · exact added.symm ▸ .cons h inside added

theorem Settled.foldl (pieces : List (List Char)) (inside : ∀ piece ∈ pieces, '/' ∉ piece) :
    Settled absolute (pieces.foldl (Path.descend absolute) []) := by
  induction pieces using List.reverseRecOn with
  | nil => exact .nil
  | append_singleton pieces piece ih =>
    rw [List.foldl_append]
    exact (ih fun p hp => inside p (List.mem_append_left _ hp)).descend
      (inside piece (List.mem_append_right _ List.mem_cons_self))

/-- Going down settled segments comes to them. -/
theorem Settled.foldl_reverse (h : Settled absolute segments) :
    segments.reverse.foldl (Path.descend absolute) [] = segments := by
  induction h with
  | nil => rfl
  | cons _ _ stays ih => rw [List.reverse_cons, List.foldl_append, ih]; exact stays

theorem Settled.inside (h : Settled absolute segments) : ∀ segment ∈ segments, '/' ∉ segment := by
  induction h with
  | nil => exact nofun
  | cons _ inside _ ih => exact List.forall_mem_cons.mpr ⟨inside, ih⟩

theorem Settled.ne_nil (h : Settled absolute segments) : ∀ segment ∈ segments, segment ≠ [] := by
  induction h with
  | nil => exact nofun
  | @cons segment below _ _ stays ih =>
    refine List.forall_mem_cons.mpr ⟨?_, ih⟩
    rintro rfl
    exact List.cons_ne_self _ _ stays.symm

/-- The marks that an absolute or a relative path may begin with. -/
theorem root_cases (path : List Char) : root path = [] ∨ root path = ['/'] ∨ root path = ['/', '/'] := by
  unfold root
  split <;> simp

/-- Settled segments behind a mark. -/
theorem root_append {start : List Char} (hs : start = [] ∨ start = ['/'] ∨ start = ['/', '/'])
    {first : Char} (other : first ≠ '/') (rest : List Char) : root (start ++ first :: rest) = start := by
  rcases hs with rfl | rfl | rfl <;> simp [root, other]

theorem foldl_split_append {start : List Char} (hs : start = [] ∨ start = ['/'] ∨ start = ['/', '/'])
    (absolute : Bool) (rest : List Char) :
    (Text.split '/' (start ++ rest)).foldl (descend absolute) [] =
      (Text.split '/' rest).foldl (descend absolute) [] := by
  rcases hs with rfl | rfl | rfl <;> rfl

/-- Segments, held backwards, as they are written behind a mark. -/
def spell (start : List Char) (segments : List (List Char)) : List Char :=
  match start ++ Text.join '/' segments.reverse with
  | [] => dot
  | normal => normal

theorem normalize_eq (path : List Char) : normalize path =
    spell (root path) ((Text.split '/' path).foldl (descend !(root path).isEmpty) []) := rfl

/-- Settled segments begin with a character that is no slash. -/
theorem Settled.spell (h : Settled absolute segments) (some : segments ≠ []) (start : List Char) :
    ∃ first rest, first ≠ '/' ∧ Text.join '/' segments.reverse = first :: rest ∧
      spell start segments = start ++ first :: rest := by
  obtain ⟨segment, others, split⟩ := List.exists_cons_of_ne_nil (List.reverse_ne_nil_iff.mpr some)
  have here : segment ∈ segments := List.mem_reverse.mp (split ▸ List.mem_cons_self)
  obtain ⟨first, rest, rfl⟩ := List.exists_cons_of_ne_nil (h.ne_nil segment here)
  have other : first ≠ '/' := fun same => h.inside _ here (same ▸ List.mem_cons_self)
  obtain ⟨rest, joined⟩ : ∃ more, Text.join '/' segments.reverse = first :: more := by
    rw [split]
    cases others with
    | nil => exact ⟨rest, rfl⟩
    | cons next others => exact ⟨_, rfl⟩
  refine ⟨first, rest, other, joined, ?_⟩
  unfold Path.spell
  rw [joined]
  cases start <;> rfl

/-- What settled segments are written as is in normal form. -/
theorem normalize_spell {start : List Char} (hs : start = [] ∨ start = ['/'] ∨ start = ['/', '/'])
    (h : Settled (!start.isEmpty) segments) : normalize (spell start segments) = spell start segments := by
  by_cases none : segments = []
  · rw [none]
    rcases hs with rfl | rfl | rfl <;> rfl
  obtain ⟨first, rest, other, joined, spelled⟩ := h.spell none start
  have inside : ∀ piece ∈ segments.reverse, '/' ∉ piece := fun piece hp =>
    h.inside piece (List.mem_reverse.mp hp)
  rw [normalize_eq, spelled, root_append hs other, foldl_split_append hs, ← joined,
    Text.split_join (List.reverse_ne_nil_iff.mpr none) inside, h.foldl_reverse, spelled, joined]

/-- **Normalizing once is enough.** -/
theorem normalize_normalize (path : List Char) : normalize (normalize path) = normalize path :=
  normalize_spell (root_cases path) (.foldl _ Text.not_mem_of_mem_split)

end Path

/-! ## URLs -/

namespace Url

theorem scheme_parse {text : List Char} {url : Url} (h : parse text = .ok url) :
    url.scheme = (cutScheme (cleaned text)).1 := by
  unfold parse at h
  obtain ⟨⟨⟩, -, h⟩ := ok_bind.mp h
  obtain ⟨⟨⟩, -, h⟩ := ok_bind.mp h
  exact (congrArg scheme (Except.ok.inj h)).symm

theorem cutScheme_cleaned {scheme : List Char} (hs : scheme ∈ schemes) (rest : List Char) :
    (cutScheme (cleaned (scheme ++ ':' :: rest))).1 = scheme := by
  simp only [schemes, List.mem_cons, List.not_mem_nil, or_false] at hs
  rcases hs with rfl | rfl | rfl
  · rfl
  · rfl
  · rfl

/-- A text that is rendered keeps its scheme. -/
theorem scheme_render {url u : Url} (hs : url.scheme ∈ schemes) (h : parse (render url) = .ok u) :
    u.scheme = url.scheme := by
  rw [scheme_parse h]
  unfold render
  simp only [List.append_assoc, List.cons_append]
  exact cutScheme_cleaned hs _

end Url

/-! ## Locations -/

namespace Location

theorem isUrl_eq_true_iff {text : List Char} :
    Url.isUrl text = .ok true ↔ ∃ url, Url.parse text = .ok url ∧ url.scheme ∈ Url.schemes := by
  unfold Url.isUrl
  simp only [ok_bind, ← List.contains_iff_mem]
  refine exists_congr fun url => and_congr_right fun _ => ?_
  exact ⟨Except.ok.inj, congrArg Except.ok⟩

theorem isUrl_eq_false_iff {text : List Char} :
    Url.isUrl text = .ok false ↔ ∃ url, Url.parse text = .ok url ∧ url.scheme ∉ Url.schemes := by
  unfold Url.isUrl
  simp only [ok_bind, ← List.contains_iff_mem, Bool.not_eq_true]
  refine exists_congr fun url => and_congr_right fun _ => ?_
  exact ⟨Except.ok.inj, congrArg Except.ok⟩

/-- A location is in normal form if it is the URL of a document, a name in memory, or a path in
normal form. -/
def Normal (l : List Char) (url : Url) : Prop :=
  url.scheme ∈ Url.schemes ∨ (memoryPath? l).isSome = true ∨ Path.normalize l = l

theorem normalize_eq_self_iff {l : String} :
    normalize l = .ok l ↔ ∃ url, Url.parse l.toList = .ok url ∧ Normal l.toList url := by
  unfold normalize Url.isUrl Normal
  dsimp only
  cases Url.parse l.toList with
  | error e => exact ⟨nofun, fun given => nomatch given.choose_spec.1⟩
  | ok url =>
    simp only [Except.ok.injEq, exists_eq_left', ← List.contains_iff_mem]
    show (if (Url.schemes.contains url.scheme || (memoryPath? l.toList).isSome) = true then
      Except.ok l else Except.ok (String.ofList (Path.normalize l.toList))) = Except.ok l ↔ _
    cases Url.schemes.contains url.scheme with
    | true => simp
    | false =>
      cases (memoryPath? l.toList).isSome with
      | true => simp
      | false =>
        simp only [Bool.or_self, Bool.false_eq_true, if_false, Except.ok.injEq, false_or]
        exact ⟨fun h => by rw [← String.toList_inj, String.toList_ofList] at h; exact h,
          fun h => by rw [h, String.ofList_toList]⟩

/-- In a document at a URL, a reference with a scheme of its own that documents are not fetched
by. -/
def Foreign (base reference : String) : Prop :=
  Url.isUrl base.toList = .ok true ∧ ∃ target, Url.parse reference.toList = .ok target ∧
    target.scheme ≠ [] ∧ target.scheme ∉ Url.schemes

/-- A foreign reference is a name in memory, or written as paths are in normal form. -/
def Plain (base reference : String) : Prop :=
  Foreign base reference → (memoryPath? reference.toList).isSome = true ∨
    Path.normalize reference.toList = reference.toList

theorem memoryPath?_append (path : List Char) : (memoryPath? (memoryMark ++ path)).isSome = true := by
  unfold memoryPath?
  rw [if_pos (List.isPrefixOf_iff_prefix.mpr (List.prefix_append _ _))]
  rfl

/-- What is resolved against the URL of a document is one, unless the reference is foreign. -/
theorem resolve_url {base reference l : List Char} (hb : Url.isUrl base = .ok true)
    (hr : Url.isUrl reference = .ok false) (h : Url.resolve base reference = .ok l) :
    (l = reference ∧ ∃ target, Url.parse reference = .ok target ∧ target.scheme ≠ [] ∧
      target.scheme ∉ Url.schemes) ∨
    ∀ url, Url.parse l = .ok url → url.scheme ∈ Url.schemes := by
  obtain ⟨from_, hf, known⟩ := isUrl_eq_true_iff.mp hb
  obtain ⟨target, ht, unknown⟩ := isUrl_eq_false_iff.mp hr
  have rendered (url : Url) (hs : url.scheme = from_.scheme) (u : Url)
      (hu : Url.parse (Url.render url) = .ok u) : u.scheme ∈ Url.schemes := by
    rw [← hs] at known
    exact Url.scheme_render known hu ▸ known
  unfold Url.resolve at h
  rw [hf, ht] at h
  split at h
  · obtain rfl := Except.ok.inj h
    refine .inr fun url hu => ?_
    rw [hf] at hu
    exact Except.ok.inj hu ▸ known
  · dsimp only [bind, Except.bind, pure, Except.pure] at h
    split at h
    · rename_i other
      obtain rfl := Except.ok.inj h
      rw [Bool.and_eq_true, Bool.not_eq_true', List.isEmpty_eq_false_iff] at other
      exact .inl ⟨rfl, target, ht, other.1, unknown⟩
    split at h
    · obtain rfl := Except.ok.inj h
      exact .inr (rendered _ rfl)
    split at h
    · obtain rfl := Except.ok.inj h
      exact .inr (rendered _ rfl)
    · obtain rfl := Except.ok.inj h
      exact .inr (rendered _ rfl)

/-- A foreign reference is kept as it is written. -/
theorem resolve_foreign {base reference : String} (h : Foreign base reference) :
    resolve base reference = .ok reference := by
  obtain ⟨hb, target, ht, own, unknown⟩ := h
  obtain ⟨from_, hf, known⟩ := isUrl_eq_true_iff.mp hb
  have filled : reference.toList.isEmpty = false := by
    rw [List.isEmpty_eq_false_iff]
    intro empty
    rw [empty] at ht
    exact own (Except.ok.inj ht ▸ rfl)
  have other : (!target.scheme.isEmpty && target.scheme != from_.scheme) = true := by
    rw [Bool.and_eq_true, Bool.not_eq_true', List.isEmpty_eq_false_iff, bne_iff_ne]
    exact ⟨own, fun same => unknown (same ▸ known)⟩
  have kept : Url.resolve base.toList reference.toList = .ok reference.toList := by
    unfold Url.resolve
    rw [if_neg (ne_true_of_eq_false filled), hf, ht]
    dsimp only [bind, Except.bind, pure, Except.pure]
    rw [if_pos other]
  unfold resolve
  dsimp only
  rw [isUrl_eq_false_iff.mpr ⟨target, ht, unknown⟩, hb, kept]
  exact congrArg Except.ok String.ofList_toList

/-- What any other reference resolves to. -/
theorem normal_of_resolve {base reference l : String} (h : resolve base reference = .ok l)
    (near : ¬ Foreign base reference) {url : Url} (hu : Url.parse l.toList = .ok url) :
    Normal l.toList url := by
  have ofList {cs : List Char} (same : String.ofList cs = l) : l.toList = cs := by
    rw [← same, String.toList_ofList]
  unfold resolve at h
  obtain ⟨own, hr, h⟩ := ok_bind.mp h
  cases own with
  | true =>
    obtain rfl := Except.ok.inj h
    obtain ⟨target, ht, known⟩ := isUrl_eq_true_iff.mp hr
    rw [ht] at hu
    exact .inl (Except.ok.inj hu ▸ known)
  | false =>
    obtain ⟨ofUrl, hb, h⟩ := ok_bind.mp h
    cases ofUrl with
    | true =>
      obtain ⟨cs, hc, h⟩ := ok_bind.mp h
      rw [ofList (Except.ok.inj h)] at hu ⊢
      rcases resolve_url hb hr hc with ⟨-, foreign⟩ | known
      · exact absurd ⟨hb, foreign⟩ near
      · exact .inl (known url hu)
    | false =>
      -- Neither is a URL of a document, so both are read as paths.
      rw [if_neg Bool.false_ne_true] at h
      split at h
      · rw [ofList (Except.ok.inj h)]
        exact .inr (.inr (Path.normalize_normalize _))
      · split at h
        · rw [ofList (Except.ok.inj h)]
          exact .inr (.inl (memoryPath?_append _))
        · rw [ofList (Except.ok.inj h)]
          exact .inr (.inr (Path.normalize_normalize _))

/-- **What a reference resolves to is in normal form**, unless it cannot be read as a URL or is a
foreign reference that a path would be written otherwise. -/
theorem normalize_resolve_iff {base reference l : String} (h : resolve base reference = .ok l) :
    normalize l = .ok l ↔ (∃ url, Url.parse l.toList = .ok url) ∧ Plain base reference := by
  rw [normalize_eq_self_iff]
  unfold Plain
  by_cases foreign : Foreign base reference
  · obtain rfl : reference = l := Except.ok.inj ((resolve_foreign foreign).symm.trans h)
    obtain ⟨-, target, ht, -, unknown⟩ := id foreign
    constructor
    · rintro ⟨url, hu, normal⟩
      rw [ht] at hu
      obtain rfl := Except.ok.inj hu
      exact ⟨⟨target, ht⟩, fun _ => normal.resolve_left unknown⟩
    · rintro ⟨⟨url, hu⟩, normal⟩
      exact ⟨url, hu, .inr (normal foreign)⟩
  · simp only [foreign, false_imp_iff, and_true]
    exact exists_congr fun url => and_iff_left_of_imp (normal_of_resolve h foreign)

end Location

end WsdlCatalog
