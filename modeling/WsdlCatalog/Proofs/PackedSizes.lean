/-
  WsdlCatalog.Proofs.PackedSizes — data that have octets.

  A head states how many parts follow it, in four octets at most. So what is bounded is how
  many octets one text can have, and how many items or members one list or object; and the
  integers are bounded, which have eight octets at most.

  A text in another form spends an octet on each of these parts, and more on what stands
  around them, so data of a short text have no part that is too long.

  Proved: data have octets just if no number of parts and no integer in them is too large
  (`encode?_isSome`); of data with a short text only the integers count (`encode?_isSome_of_short`).
-/

import WsdlCatalog.Proofs.Packing

namespace WsdlCatalog.MessagePack

/-! ## What can be written -/

mutual

/-- How many parts the data have: the octets of texts, the items of lists, the members of
objects. -/
def sizes : Json → List Nat
  | .null | .bool _ | .int _ | .real _ => []
  | .str s => [s.utf8ByteSize]
  | .arr items => items.length :: sizesOfItems items
  | .obj members => members.length :: sizesOfMembers members

def sizesOfItems : List Json → List Nat
  | [] => []
  | j :: rest => sizes j ++ sizesOfItems rest

def sizesOfMembers : List (String × Json) → List Nat
  | [] => []
  | (k, j) :: rest => k.utf8ByteSize :: sizes j ++ sizesOfMembers rest

end

def Fits (size : Nat) : Prop := size < 2 ^ 32

theorem textHead?_isSome {size : Nat} : (textHead? size).isSome ↔ Fits size := by
  unfold textHead? Fits
  split_ifs <;> simp <;> omega

theorem listHead?_isSome {size : Nat} : (listHead? size).isSome ↔ Fits size := by
  unfold listHead? Fits
  split_ifs <;> simp <;> omega

theorem objectHead?_isSome {size : Nat} : (objectHead? size).isSome ↔ Fits size := by
  unfold objectHead? Fits
  split_ifs <;> simp <;> omega

theorem textForm?_isSome {s : String} : (textForm? s).isSome ↔ Fits s.utf8ByteSize := by
  rw [textForm?, Option.isSome_map, textHead?_isSome, Text.length_toUTF8]

theorem natForm?_isSome {n : Nat} : (natForm? n).isSome ↔ n < 2 ^ 64 := by
  unfold natForm?
  split_ifs <;> simp <;> omega

theorem negativeForm?_isSome {n : Nat} : (negativeForm? n).isSome ↔ n ≤ 2 ^ 63 := by
  unfold negativeForm?
  split_ifs <;> simp <;> omega

/-- An integer of no more than sixty-four bits. -/
def InRange (n : Int) : Prop := -(2 ^ 63) ≤ n ∧ n < 2 ^ 64

theorem intForm?_isSome {n : Int} : (intForm? n).isSome ↔ InRange n := by
  unfold InRange
  cases n with
  | ofNat n =>
    have whole : (Int.ofNat n : Int) = n := rfl
    rw [intForm?, natForm?_isSome, whole]
    omega
  | negSucc n =>
    rw [intForm?, negativeForm?_isSome]
    omega

theorem isSome_append {a b : Option (List UInt8)} :
    (do return (← a) ++ (← b) : Option (List UInt8)).isSome ↔ a.isSome ∧ b.isSome := by
  cases a <;> cases b <;> simp

/-- Neither a number of parts nor an integer is too large. -/
def Packable (j : Json) : Prop :=
  (∀ size ∈ sizes j, Fits size) ∧ ∀ n, .int n ∈ j.atoms → InRange n

theorem packable_arr {items : List Json} :
    Packable (.arr items) ↔ Fits items.length ∧ ∀ j ∈ items, Packable j := by
  have parts : ∀ size, size ∈ sizesOfItems items ↔ ∃ j ∈ items, size ∈ sizes j := by
    intro size
    induction items with
    | nil => simp [sizesOfItems]
    | cons j rest ih => simp [sizesOfItems, ih]
  simp only [Packable, sizes, List.forall_mem_cons, parts, Json.mem_atoms_arr]
  constructor
  · rintro ⟨⟨count, each⟩, range⟩
    exact ⟨count, fun j hj => ⟨fun size h => each size ⟨j, hj, h⟩, fun n hn => range n ⟨j, hj, hn⟩⟩⟩
  · rintro ⟨count, each⟩
    exact ⟨⟨count, fun size ⟨j, hj, h⟩ => (each j hj).1 size h⟩, fun n ⟨j, hj, h⟩ => (each j hj).2 n h⟩

theorem packable_obj {members : List (String × Json)} :
    Packable (.obj members) ↔
      Fits members.length ∧ ∀ m ∈ members, Fits m.1.utf8ByteSize ∧ Packable m.2 := by
  have parts : ∀ size, size ∈ sizesOfMembers members ↔
      ∃ m ∈ members, size = m.1.utf8ByteSize ∨ size ∈ sizes m.2 := by
    intro size
    induction members with
    | nil => simp [sizesOfMembers]
    | cons m rest ih => simp [sizesOfMembers, ih, or_assoc]
  simp only [Packable, sizes, List.forall_mem_cons, parts, Json.mem_atoms_obj]
  constructor
  · rintro ⟨⟨count, each⟩, range⟩
    exact ⟨count, fun m hm => ⟨each _ ⟨m, hm, .inl rfl⟩, fun size h => each size ⟨m, hm, .inr h⟩,
      fun n hn => range n ⟨m, hm, .inr hn⟩⟩⟩
  · rintro ⟨count, each⟩
    refine ⟨⟨count, ?_⟩, ?_⟩
    · rintro size ⟨m, hm, rfl | h⟩
      · exact (each m hm).1
      · exact (each m hm).2.1 size h
    · rintro n ⟨m, hm, h | h⟩
      · cases h
      · exact (each m hm).2.2 n h

mutual

theorem encode?_isSome : ∀ j : Json, (encode? j).isSome ↔ Packable j
  | .null | .bool true | .bool false | .real _ => by simp [encode?, Packable, sizes, Json.atoms]
  | .int n => by simp [encode?, Packable, sizes, Json.atoms, intForm?_isSome]
  | .str s => by simp [encode?, Packable, sizes, Json.atoms, textForm?_isSome]
  | .arr items => by
    rw [encode?, isSome_append, listHead?_isSome, encodeItems?_isSome items, packable_arr]
  | .obj members => by
    rw [encode?, isSome_append, objectHead?_isSome, encodeMembers?_isSome members, packable_obj]

theorem encodeItems?_isSome : ∀ items : List Json,
    (encodeItems? items).isSome ↔ ∀ j ∈ items, Packable j
  | [] => by simp [encodeItems?]
  | j :: rest => by
    rw [encodeItems?, isSome_append, encode?_isSome j, encodeItems?_isSome rest,
      List.forall_mem_cons]

theorem encodeMembers?_isSome : ∀ members : List (String × Json),
    (encodeMembers? members).isSome ↔ ∀ m ∈ members, Fits m.1.utf8ByteSize ∧ Packable m.2
  | [] => by simp [encodeMembers?]
  | (k, j) :: rest => by
    rw [encodeMembers?, List.forall_mem_cons, ← encode?_isSome j, ← encodeMembers?_isSome rest,
      ← textForm?_isSome]
    cases textForm? k <;> cases encode? j <;> cases encodeMembers? rest <;> simp

end

/-! ## Data of short texts

What is written in few octets as a text has few parts. -/

open Json (printAt printItems printMembers printString escape Layout)

def weight (cs : List Char) : Nat := (cs.flatMap String.utf8EncodeChar).length

@[simp] theorem weight_append (cs ds : List Char) : weight (cs ++ ds) = weight cs + weight ds := by
  simp [weight]

@[simp] theorem weight_cons (c : Char) (cs : List Char) : weight (c :: cs) = c.utf8Size + weight cs := by
  simp [weight]

@[simp] theorem weight_nil : weight [] = 0 := rfl

theorem length_le_weight (cs : List Char) : cs.length ≤ weight cs := by
  induction cs with
  | nil => exact Nat.le_refl 0
  | cons c cs ih =>
    have one : 0 < c.utf8Size := Char.utf8Size_pos c
    rw [List.length_cons, weight_cons]
    omega

theorem weight_toList (s : String) : weight s.toList = s.utf8ByteSize := by
  rw [weight, ← Text.toUTF8_toList, Text.length_toUTF8]

/-- An escaped character takes no less room. -/
theorem utf8Size_le_escape (c : Char) : c.utf8Size ≤ weight (escape c) := by
  by_cases ascii : c.toNat < 0x80
  · have size := Text.utf8Size_of_ascii ascii
    have some : 0 < (escape c).length := by
      unfold escape
      split_ifs <;> simp
    have := length_le_weight (escape c)
    omega
  · have other : ∀ d : Char, d.toNat < 0x80 → (c == d) = false := by
      intro d hd
      apply beq_false_of_ne
      rintro rfl
      exact ascii hd
    have plain : escape c = [c] := by
      have large : ∀ n < 0x80, (c.toNat == n) = false := fun n hn => beq_false_of_ne (by omega)
      rw [escape, other '"' (by decide), other '\\' (by decide), other '\n' (by decide),
        other '\r' (by decide), other '\t' (by decide), large 12 (by decide), large 8 (by decide)]
      simp only [Bool.false_eq_true, if_false]
      rw [if_neg (by omega)]
    rw [plain, weight_cons]
    exact Nat.le_add_right _ _

theorem utf8ByteSize_le_printString (s : String) : s.utf8ByteSize ≤ weight (printString s) := by
  have each (cs : List Char) : weight cs ≤ weight (cs.flatMap escape) := by
    induction cs with
    | nil => exact Nat.le_refl 0
    | cons c cs ih =>
      have := utf8Size_le_escape c
      rw [List.flatMap_cons, weight_cons, weight_append]
      omega
  have := each s.toList
  rw [weight_toList] at this
  rw [printString, weight_append, weight_cons]
  omega

section

variable (layout : Layout) (depth : Nat)

theorem pos_weight_printAt (j : Json) : 0 < weight (printAt layout depth j) := by
  obtain ⟨c, hc, -⟩ := Json.begins_printAt layout depth j
  have some : 0 < (printAt layout depth j).length := List.length_pos_iff.mpr fun none => by
    rw [none] at hc
    cases hc
  exact Nat.lt_of_lt_of_le some (length_le_weight _)

theorem length_le_printItems (items : List Json) :
    items.length ≤ weight (printItems layout depth items) := by
  induction items with
  | nil => exact Nat.zero_le _
  | cons j rest ih =>
    have pos := pos_weight_printAt layout depth j
    simp only [printItems, weight_append, List.length_cons]
    omega

theorem length_le_printMembers (members : List (String × Json)) :
    members.length ≤ weight (printMembers layout depth members) := by
  induction members with
  | nil => exact Nat.zero_le _
  | cons m rest ih =>
    have pos := pos_weight_printAt layout depth m.2
    simp only [printMembers, weight_append, List.length_cons]
    omega

variable {layout depth}

theorem sizes_arr_le {j : Json} {rest : List Json}
    (first : ∀ size ∈ sizes j, size ≤ weight (printAt layout (depth + 1) j))
    (others : ∀ size ∈ sizesOfItems rest, size ≤ weight (printItems layout (depth + 1) rest)) :
    ∀ size ∈ sizes (.arr (j :: rest)), size ≤ weight (printAt layout depth (.arr (j :: rest))) := by
  have pos := pos_weight_printAt layout (depth + 1) j
  have count := length_le_printItems layout (depth + 1) rest
  have open' : ('[' : Char).utf8Size = 1 := rfl
  have close : (']' : Char).utf8Size = 1 := rfl
  rw [sizes, sizesOfItems, List.forall_mem_cons, List.forall_mem_append]
  simp only [printAt, weight_append, weight_cons, weight_nil, List.cons_append, open', close,
    List.length_cons]
  refine ⟨by omega, fun size h => ?_, fun size h => ?_⟩
  · have := first size h
    omega
  · have := others size h
    omega

theorem sizes_obj_le {k : String} {j : Json} {rest : List (String × Json)}
    (first : ∀ size ∈ sizes j, size ≤ weight (printAt layout (depth + 1) j))
    (others : ∀ size ∈ sizesOfMembers rest, size ≤ weight (printMembers layout (depth + 1) rest)) :
    ∀ size ∈ sizes (.obj ((k, j) :: rest)),
      size ≤ weight (printAt layout depth (.obj ((k, j) :: rest))) := by
  have pos := pos_weight_printAt layout (depth + 1) j
  have count := length_le_printMembers layout (depth + 1) rest
  have key := utf8ByteSize_le_printString k
  have open' : ('\x7b' : Char).utf8Size = 1 := rfl
  have close : ('\x7d' : Char).utf8Size = 1 := rfl
  rw [sizes, sizesOfMembers, List.cons_append, List.forall_mem_cons, List.forall_mem_cons,
    List.forall_mem_append]
  simp only [printAt, weight_append, weight_cons, weight_nil, List.cons_append, open', close,
    List.length_cons]
  refine ⟨by omega, by omega, fun size h => ?_, fun size h => ?_⟩
  · have := first size h
    omega
  · have := others size h
    omega

end

mutual

theorem sizes_le (layout : Layout) : ∀ (j : Json) (depth : Nat),
    ∀ size ∈ sizes j, size ≤ weight (printAt layout depth j)
  | .null, _, _, h | .bool _, _, _, h | .int _, _, _, h | .real _, _, _, h => by cases h
  | .str s, _, size, h => by
    rw [sizes] at h
    rw [List.mem_singleton.mp h, printAt]
    have := utf8ByteSize_le_printString s
    omega
  | .arr [], _, size, h => by
    rw [List.mem_singleton.mp h]
    exact Nat.zero_le _
  | .arr (j :: rest), depth, size, h =>
    sizes_arr_le (sizes_le layout j (depth + 1)) (sizesOfItems_le layout rest (depth + 1)) size h
  | .obj [], _, size, h => by
    rw [List.mem_singleton.mp h]
    exact Nat.zero_le _
  | .obj ((_, j) :: rest), depth, size, h =>
    sizes_obj_le (sizes_le layout j (depth + 1)) (sizesOfMembers_le layout rest (depth + 1)) size h

theorem sizesOfItems_le (layout : Layout) : ∀ (items : List Json) (depth : Nat),
    ∀ size ∈ sizesOfItems items, size ≤ weight (printItems layout depth items)
  | [], _, _, h => by cases h
  | j :: rest, depth, size, h => by
    simp only [printItems, weight_append]
    rcases List.mem_append.mp h with h | h
    · have := sizes_le layout j depth size h
      omega
    · have := sizesOfItems_le layout rest depth size h
      omega

theorem sizesOfMembers_le (layout : Layout) : ∀ (members : List (String × Json)) (depth : Nat),
    ∀ size ∈ sizesOfMembers members, size ≤ weight (printMembers layout depth members)
  | [], _, _, h => by cases h
  | (k, j) :: rest, depth, size, h => by
    simp only [printMembers, weight_append]
    rw [sizesOfMembers, List.cons_append, List.mem_cons, List.mem_append] at h
    rcases h with rfl | h | h
    · have := utf8ByteSize_le_printString k
      omega
    · have := sizes_le layout j depth size h
      omega
    · have := sizesOfMembers_le layout rest depth size h
      omega

end

/-- Data with a text that is short of four gigabytes have octets if the integers have. -/
theorem encode?_isSome_of_short {layout : Layout} {j : Json}
    (short : (j.render layout).utf8ByteSize < 2 ^ 32) (range : ∀ n, .int n ∈ j.atoms → InRange n) :
    (encode? j).isSome := by
  apply (encode?_isSome j).mpr
  rw [Json.render, ← weight_toList, String.toList_ofList] at short
  exact ⟨fun size hs => Nat.lt_of_le_of_lt (sizes_le layout j 0 size hs) short, range⟩

end WsdlCatalog.MessagePack
