/-
  WsdlCatalog.Proofs.Packing — data read back from their octets.

  The first octets of a value say of what kind it is and, of a text, a list or an object, how
  many parts follow; then the parts are read, each up to where the next begins. Reading spends
  at most two units of its budget an octet, so the budget never runs out on what was written.

  Proved: reading undoes writing for all data that can be held (`decode?_encode?`).
-/

import WsdlCatalog.Proofs.NumberForms
import WsdlCatalog.Proofs.Printing
import WsdlCatalog.Proofs.Utf8

namespace WsdlCatalog.MessagePack

open Json (Proper)

variable {rest octets : List UInt8}

/-! ## Heads

What stands after a head is left to the reader of the kind that the head says. -/

theorem match_takeNat? {α : Type} (count : Nat) {n : Nat} (h : n < 256 ^ count)
    (f : Nat → List UInt8 → Option α) :
    (match takeNat? count (bigEndian count n ++ rest) with
      | some (n, rest) => f n rest
      | none => none) = f n rest := by
  rw [takeNat?_bigEndian h]

theorem bind_takeNat? {α : Type} (count : Nat) {n : Nat} (h : n < 256 ^ count)
    (f : Nat × List UInt8 → Option α) :
    (takeNat? count (bigEndian count n ++ rest) >>= f) = f (n, rest) := by
  rw [takeNat?_bigEndian h]
  rfl

section

variable {fuel size : Nat} {head : List UInt8}

theorem read?_listHead (h : listHead? size = some head) :
    read? (fuel + 1) (head ++ rest) = readList? fuel size rest := by
  unfold listHead? at h
  split_ifs at h with h1 h2 h3 <;> cases h
  · have lead : (UInt8.ofNat (0x90 + size)).toNat = 0x90 + size :=
      UInt8.toNat_ofNat_of_lt' (show _ < 256 by omega)
    rw [List.singleton_append, read?]
    simp only [lead]
    rw [if_neg (by omega), if_neg (by omega), if_pos (by omega), Nat.add_sub_cancel_left]
  · rw [List.cons_append, read?]
    exact match_takeNat? 2 h2 (readList? fuel)
  · rw [List.cons_append, read?]
    exact match_takeNat? 4 h3 (readList? fuel)

theorem read?_objectHead (h : objectHead? size = some head) :
    read? (fuel + 1) (head ++ rest) = readObject? fuel size rest := by
  unfold objectHead? at h
  split_ifs at h with h1 h2 h3 <;> cases h
  · have lead : (UInt8.ofNat (0x80 + size)).toNat = 0x80 + size :=
      UInt8.toNat_ofNat_of_lt' (show _ < 256 by omega)
    rw [List.singleton_append, read?]
    simp only [lead]
    rw [if_neg (by omega), if_pos (by omega), Nat.add_sub_cancel_left]
  · rw [List.cons_append, read?]
    exact match_takeNat? 2 h2 (readObject? fuel)
  · rw [List.cons_append, read?]
    exact match_takeNat? 4 h3 (readObject? fuel)

theorem readText?_textHead (h : textHead? size = some head) :
    readText? (head ++ rest) = takeText? size rest := by
  unfold textHead? at h
  split_ifs at h with h1 h2 h3 h4 <;> cases h
  · have lead : (UInt8.ofNat (0xA0 + size)).toNat = 0xA0 + size :=
      UInt8.toNat_ofNat_of_lt' (show _ < 256 by omega)
    have short : (0xA0 ≤ 0xA0 + size && 0xA0 + size < 0xC0) = true := by
      rw [Bool.and_eq_true, decide_eq_true_iff, decide_eq_true_iff]
      omega
    rw [List.singleton_append, readText?]
    simp only [lead]
    rw [if_pos short, Nat.add_sub_cancel_left]
  · exact bind_takeNat? 1 h2 _
  · exact bind_takeNat? 2 h3 _
  · exact bind_takeNat? 4 h4 _

theorem read?_textHead (h : textHead? size = some head) :
    read? (fuel + 1) (head ++ rest) = (takeText? size rest).map fun (s, rest) => (.str s, rest) := by
  have read : readText? (head ++ rest) = takeText? size rest := readText?_textHead h
  unfold textHead? at h
  split_ifs at h with h1 h2 h3 h4 <;> cases h
  · have lead : (UInt8.ofNat (0xA0 + size)).toNat = 0xA0 + size :=
      UInt8.toNat_ofNat_of_lt' (show _ < 256 by omega)
    rw [List.singleton_append, read?]
    simp only [lead]
    rw [if_neg (by omega), if_neg (by omega), if_neg (by omega), if_pos (by omega),
      Nat.add_sub_cancel_left]
  · rw [← read, List.cons_append, read?]
    rfl
  · rw [← read, List.cons_append, read?]
    rfl
  · rw [← read, List.cons_append, read?]
    rfl

end

/-! ## Texts -/

theorem takeText?_toUTF8 (s : String) :
    takeText? s.toUTF8.toList.length (s.toUTF8.toList ++ rest) = some (s, rest) := by
  have enough : ¬ (s.toUTF8.toList ++ rest).length < s.toUTF8.toList.length := by
    rw [List.length_append]
    omega
  rw [takeText?, if_neg enough, List.take_left, List.drop_left, Text.utf8_toUTF8]
  simp only [beq_self_eq_true, if_true, String.ofList_toList]

/-- A text is written as its head and its octets. -/
theorem textForm?_eq_some {s : String} : textForm? s = some octets ↔
    ∃ head, textHead? s.toUTF8.toList.length = some head ∧ octets = head ++ s.toUTF8.toList := by
  rw [textForm?, Option.map_eq_some_iff]
  exact ⟨fun ⟨head, h, e⟩ => ⟨head, h, e.symm⟩, fun ⟨head, h, e⟩ => ⟨head, h, e.symm⟩⟩

theorem readText?_textForm {s : String} (h : textForm? s = some octets) :
    readText? (octets ++ rest) = some (s, rest) := by
  obtain ⟨head, hh, rfl⟩ := textForm?_eq_some.mp h
  rw [List.append_assoc, readText?_textHead hh, takeText?_toUTF8]

theorem read?_textForm {s : String} (h : textForm? s = some octets) (fuel : Nat) :
    read? (fuel + 1) (octets ++ rest) = some (.str s, rest) := by
  obtain ⟨head, hh, rfl⟩ := textForm?_eq_some.mp h
  rw [List.append_assoc, read?_textHead hh, takeText?_toUTF8, Option.map_some]

/-! ## Integers -/

theorem int_takeNat? (count : Nat) {n : Nat} (h : n < 256 ^ count) :
    (takeNat? count (bigEndian count n ++ rest)).map (fun (n, rest) => (Json.int n, rest))
      = some (.int n, rest) := by
  rw [takeNat?_bigEndian h]
  rfl

theorem int_takeInt? (count : Nat) {n : Nat} (pos : 0 < n) (h : 2 * n ≤ 256 ^ count) :
    (takeInt? count (bigEndian count (256 ^ count - n) ++ rest)).map
      (fun (n, rest) => (Json.int n, rest)) = some (.int (-(n : Int)), rest) := by
  rw [takeInt?_complement pos h]
  rfl

theorem read?_natForm {n : Nat} (h : natForm? n = some octets) (fuel : Nat) :
    read? (fuel + 1) (octets ++ rest) = some (.int n, rest) := by
  unfold natForm? at h
  split_ifs at h with h1 h2 h3 h4 h5 <;> cases h
  · have lead : (UInt8.ofNat n).toNat = n := UInt8.toNat_ofNat_of_lt' (show _ < 256 by omega)
    rw [List.singleton_append, read?]
    simp only [lead]
    rw [if_pos h1]
  · rw [List.cons_append, read?]
    exact int_takeNat? 1 h2
  · rw [List.cons_append, read?]
    exact int_takeNat? 2 h3
  · rw [List.cons_append, read?]
    exact int_takeNat? 4 h4
  · rw [List.cons_append, read?]
    exact int_takeNat? 8 h5

theorem read?_negativeForm {n : Nat} (pos : 0 < n) (h : negativeForm? n = some octets) (fuel : Nat) :
    read? (fuel + 1) (octets ++ rest) = some (.int (-(n : Int)), rest) := by
  unfold negativeForm? at h
  split_ifs at h with h1 h2 h3 h4 h5 <;> cases h
  · have lead : (UInt8.ofNat (0x100 - n)).toNat = 0x100 - n :=
      UInt8.toNat_ofNat_of_lt' (show _ < 256 by omega)
    have other : ∀ k < 0xE0, (0x100 - n == k) = false := fun k hk => beq_false_of_ne (by omega)
    have value : ((0x100 - n : Nat) : Int) - 0x100 = -(n : Int) := by omega
    rw [List.singleton_append, read?]
    simp only [lead]
    rw [if_neg (by omega), if_neg (by omega), if_neg (by omega), if_neg (by omega)]
    simp [other, value]
    omega
  · rw [List.cons_append, read?]
    exact int_takeInt? 1 pos (by omega)
  · rw [List.cons_append, read?]
    exact int_takeInt? 2 pos (by omega)
  · rw [List.cons_append, read?]
    exact int_takeInt? 4 pos (by omega)
  · rw [List.cons_append, read?]
    exact int_takeInt? 8 pos (by omega)

theorem read?_intForm {n : Int} (h : intForm? n = some octets) (fuel : Nat) :
    read? (fuel + 1) (octets ++ rest) = some (.int n, rest) := by
  cases n with
  | ofNat n => exact read?_natForm h fuel
  | negSucc n => exact read?_negativeForm (Nat.succ_pos n) h fuel

/-! ## Values -/

/-- The value is read from its octets, whatever follows, at the cost of two units an octet. -/
def ReadsBack (j : Json) : Prop :=
  ∀ octets, encode? j = some octets → ∀ fuel rest, 2 * octets.length ≤ fuel →
    read? fuel (octets ++ rest) = some (j, rest)

theorem ReadsBack.pos {j : Json} (h : ReadsBack j) (he : encode? j = some octets) :
    0 < octets.length := by
  cases octets with
  | cons => exact Nat.succ_pos _
  | nil =>
    have read := h [] he 0 [] (Nat.le_refl 0)
    rw [read?] at read
    cases read

/-- One unit is enough for a value that is no list and no object. -/
theorem readsBack_of {j : Json} (h : ∀ octets, encode? j = some octets → ∀ fuel rest,
    read? (fuel + 1) (octets ++ rest) = some (j, rest)) : ReadsBack j := by
  intro octets he fuel rest hf
  have pos : 0 < octets.length := by
    cases octets with
    | cons => exact Nat.succ_pos _
    | nil =>
      have read := h [] he 0 []
      rw [List.append_nil, read?] at read
      cases read
  obtain ⟨n, rfl⟩ : ∃ n, fuel = n + 1 := Nat.exists_eq_add_one.mpr (by omega)
  exact h octets he n rest

theorem readItems?_encoded {items : List Json} (each : ∀ j ∈ items, ReadsBack j) (acc : List Json)
    (he : encodeItems? items = some octets) (fuel : Nat) (hf : 2 * octets.length < fuel) :
    readItems? fuel items.length acc (octets ++ rest) = some (acc.reverse ++ items, rest) := by
  induction items generalizing acc octets fuel with
  | nil =>
    cases he
    simp [readItems?]
  | cons j items ih =>
    obtain ⟨first, hfirst, he⟩ := Option.bind_eq_some_iff.mp he
    obtain ⟨others, hothers, he⟩ := Option.bind_eq_some_iff.mp he
    cases he
    have back := each j List.mem_cons_self
    have pos := back.pos hfirst
    rw [List.length_append] at hf
    obtain ⟨n, rfl⟩ : ∃ n, fuel = n + 1 := Nat.exists_eq_add_one.mpr (by omega)
    rw [List.length_cons, readItems?, List.append_assoc, back first hfirst n _ (by omega)]
    show readItems? n items.length (j :: acc) (others ++ rest) = _
    rw [ih (fun k hk => each k (List.mem_cons_of_mem _ hk)) (j :: acc) hothers n (by omega),
      List.reverse_cons, List.append_assoc]
    rfl

theorem readMembers?_encoded {members : List (String × Json)} (each : ∀ m ∈ members, ReadsBack m.2)
    (acc : List (String × Json)) (he : encodeMembers? members = some octets) (fuel : Nat)
    (hf : 2 * octets.length < fuel) :
    readMembers? fuel members.length acc (octets ++ rest) = some (acc.reverse ++ members, rest) := by
  induction members generalizing acc octets fuel with
  | nil =>
    cases he
    simp [readMembers?]
  | cons m members ih =>
    obtain ⟨name, j⟩ := m
    obtain ⟨key, hkey, he⟩ := Option.bind_eq_some_iff.mp he
    obtain ⟨first, hfirst, he⟩ := Option.bind_eq_some_iff.mp he
    obtain ⟨others, hothers, he⟩ := Option.bind_eq_some_iff.mp he
    cases he
    have back : ReadsBack j := each (name, j) List.mem_cons_self
    have pos := back.pos hfirst
    rw [List.length_append, List.length_append] at hf
    obtain ⟨n, rfl⟩ : ∃ n, fuel = n + 1 := Nat.exists_eq_add_one.mpr (by omega)
    rw [List.length_cons, readMembers?, List.append_assoc, List.append_assoc,
      readText?_textForm hkey]
    dsimp only
    rw [back first hfirst n _ (by omega)]
    show readMembers? n members.length ((name, j) :: acc) (others ++ rest) = _
    rw [ih (fun k hk => each k (List.mem_cons_of_mem _ hk)) ((name, j) :: acc) hothers n (by omega),
      List.reverse_cons, List.append_assoc]
    rfl

theorem listHead?_ne_nil {size : Nat} {head : List UInt8} (h : listHead? size = some head) :
    head ≠ [] := by
  unfold listHead? at h
  split_ifs at h <;> cases h <;> exact List.cons_ne_nil _ _

theorem objectHead?_ne_nil {size : Nat} {head : List UInt8} (h : objectHead? size = some head) :
    head ≠ [] := by
  unfold objectHead? at h
  split_ifs at h <;> cases h <;> exact List.cons_ne_nil _ _

theorem readsBack_arr {items : List Json} (each : ∀ j ∈ items, ReadsBack j) :
    ReadsBack (.arr items) := by
  intro octets he fuel rest hf
  rw [encode?] at he
  obtain ⟨head, hhead, he⟩ := Option.bind_eq_some_iff.mp he
  obtain ⟨held, hheld, he⟩ := Option.bind_eq_some_iff.mp he
  cases he
  have pos : 0 < head.length := List.length_pos_iff.mpr (listHead?_ne_nil hhead)
  rw [List.length_append] at hf
  obtain ⟨n, rfl⟩ : ∃ n, fuel = n + 1 := Nat.exists_eq_add_one.mpr (by omega)
  rw [List.append_assoc, read?_listHead hhead, readList?,
    readItems?_encoded each [] hheld n (by omega), Option.map_some, List.reverse_nil, List.nil_append]

theorem readsBack_obj {members : List (String × Json)} (distinct : (members.map Prod.fst).Nodup)
    (each : ∀ m ∈ members, ReadsBack m.2) : ReadsBack (.obj members) := by
  intro octets he fuel rest hf
  rw [encode?] at he
  obtain ⟨head, hhead, he⟩ := Option.bind_eq_some_iff.mp he
  obtain ⟨held, hheld, he⟩ := Option.bind_eq_some_iff.mp he
  cases he
  have pos : 0 < head.length := List.length_pos_iff.mpr (objectHead?_ne_nil hhead)
  rw [List.length_append] at hf
  obtain ⟨n, rfl⟩ : ∃ n, fuel = n + 1 := Nat.exists_eq_add_one.mpr (by omega)
  rw [List.append_assoc, read?_objectHead hhead, readObject?,
    readMembers?_encoded each [] hheld n (by omega)]
  simp only [Option.map_some, List.reverse_nil, List.nil_append, putAll_of_nodup distinct]

theorem real_takeNat? {x : Binary64} (h : x.Canonical) :
    (takeNat? 8 (bigEndian 8 x.toBits ++ rest)).map (fun (n, rest) => (Json.real (.ofBits n), rest))
      = some (.real x, rest) := by
  rw [takeNat?_bigEndian (Binary64.toBits_lt h)]
  simp only [Option.map_some, Binary64.ofBits_toBits h]

theorem readsBack {j : Json} (h : Proper j) : ReadsBack j := by
  induction h with
  | null =>
    apply readsBack_of
    intro octets he fuel rest
    cases he
    rw [List.singleton_append, read?]
    rfl
  | bool b =>
    apply readsBack_of
    intro octets he fuel rest
    cases b <;> cases he <;> rw [List.singleton_append, read?] <;> rfl
  | int n => exact readsBack_of fun octets he fuel rest => read?_intForm he fuel
  | real hx =>
    apply readsBack_of
    intro octets he fuel rest
    cases he
    rw [List.cons_append, read?]
    exact real_takeNat? hx
  | str s => exact readsBack_of fun octets he fuel rest => read?_textForm he fuel
  | arr _ ih => exact readsBack_arr ih
  | obj distinct _ ih => exact readsBack_obj distinct ih

/-- Reading undoes writing. -/
theorem decode?_encode? {j : Json} (h : Proper j) (he : encode? j = some octets) :
    decode? octets = some j := by
  have read := readsBack h octets he (2 * octets.length + 2) [] (by omega)
  rw [List.append_nil] at read
  rw [decode?, read]

end WsdlCatalog.MessagePack
