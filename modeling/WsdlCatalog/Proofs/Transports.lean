/-
  WsdlCatalog.Proofs.Transports — catalogs sent by a transport.

  What a transport does with data is its own affair; here it is known to follow a standard on
  plain data. The data of a catalog are plain if no text in it has the mark of a typed value,
  for the only numbers with fractions would come of options. So a catalog that is sent is
  restored, and which one is sent is up to the standard. As text those are sent that are
  written; as octets those whose integers have sixty-four bits, if nothing in them has too
  many parts.

  Proved: what is sent of a catalog that was compiled restores it, and it is sent just if its
  integers and sizes are in range (`SchemaSet.compile_carried`); the bounds of nested groups
  are out of every range (`SchemaSet.crowd_uncarried`).
-/

import WsdlCatalog.Proofs.Lossless
import WsdlCatalog.Proofs.PackedSizes

namespace WsdlCatalog

namespace Json

variable {R R' : Binary64 → Prop} {j : Json}

theorem Formed.mono (hR : ∀ x, R x → R' x) (h : j.Formed R) : j.Formed R' := by
  induction h with
  | null => exact .null
  | bool b => exact .bool b
  | int n => exact .int n
  | real h => exact .real (hR _ h)
  | str s => exact .str s
  | arr _ ih => exact .arr ih
  | obj distinct _ ih => exact .obj distinct ih

theorem Formed.real_atom (h : j.Formed R) {x : Binary64} (hx : .real x ∈ j.atoms) : R x := by
  induction h with
  | null | bool | int | str => cases List.mem_singleton.mp hx
  | real h =>
    cases List.mem_singleton.mp hx
    exact h
  | arr _ ih =>
    obtain ⟨j, hj, hx⟩ := mem_atoms_arr.mp hx
    exact ih j hj hx
  | obj _ _ ih =>
    obtain ⟨m, hm, hx⟩ := mem_atoms_obj.mp hx
    rcases hx with key | hx
    · cases key
    · exact ih m hm hx

theorem Layout.blank_compact : Layout.compact.Blank :=
  ⟨⟨[], rfl, by simp⟩, ⟨[], rfl, by simp⟩⟩

end Json

/-! ## Transports that follow a standard -/

namespace Transport

variable {Carried : Type} {transport standard : Transport Carried}

theorem follows_self (transport : Transport Carried) : transport.Follows transport :=
  ⟨fun _ _ => rfl, fun _ _ _ _ => rfl⟩

theorem write_compactText {j : Json} {text : String} :
    compactText.write j = some text ↔ j.print .compact = .ok text := by
  show (j.print .compact).toOption = some text ↔ _
  cases j.print .compact with
  | ok printed => exact ⟨fun h => congrArg _ (Option.some.inj h), fun h => congrArg _ (Except.ok.inj h)⟩
  | error e => exact iff_of_false nofun nofun

theorem isSome_compactText {j : Json} :
    (compactText.write j).isSome = true ↔ ∀ n, .int n ∈ j.atoms → n.natAbs < 10 ^ Text.digitLimit := by
  rw [← @Json.exists_print .compact, Option.isSome_iff_exists]
  exact exists_congr fun _ => write_compactText

theorem read_compactText {j : Json} (h : j.Proper) {text : String}
    (hw : compactText.write j = some text) : compactText.read text = some j := by
  show (Json.parse text).toOption = some j
  rw [Json.parse_print Json.Layout.blank_compact h (write_compactText.mp hw)]
  rfl

end Transport

namespace Catalog

variable {Carried : Type} {transport standard : Transport Carried} {c : Catalog}

theorem ofCarried_carry (follows : transport.Follows standard) (plain : Transport.IsPlain c.toJson)
    (back : ∀ carried, standard.write c.toJson = some carried → standard.read carried = some c.toJson)
    (restored : Catalog.ofJson c.toJson = .ok c) {carried : Carried}
    (h : c.carry transport = some carried) : ofCarried transport carried = .ok c := by
  have written : standard.write c.toJson = some carried := follows.write _ plain ▸ h
  rw [ofCarried, follows.read _ carried plain written, back carried written]
  exact restored

end Catalog

namespace SchemaSet

/-- **A catalog that a transport carries is restored.** The transports follow their standards on
plain data; no text has the mark of a typed value, and no option is a number with a fraction. As
text a catalog is carried just if it can be written, as octets just if its integers have
sixty-four bits and none of its texts, lists and objects has too many parts. One whose text is
shorter than that has none. -/
theorem compile_carried {set : SchemaSet} {given overrides : List (String × Json)}
    {options : Options} {c : Catalog} (hg : Options.AllFormed (fun _ => False) given)
    (ho : Options.AllFormed (fun _ => False) overrides)
    (hr : Options.resolve given overrides = .ok options)
    (h : (set.compile options).result = .ok c)
    (unmarked : ∀ s, .str s ∈ c.toJson.atoms → ¬ Transport.typeMark <:+: s.toList)
    {text : Transport String} (ht : text.Follows .compactText)
    {binary : Transport (List UInt8)} (hb : binary.Follows .messagePack) :
    (∀ carried, c.carry text = some carried → Catalog.ofCarried text carried = .ok c) ∧
    (∀ carried, c.carry binary = some carried → Catalog.ofCarried binary carried = .ok c) ∧
    ((c.carry text).isSome = true ↔
      ∀ n, .int n ∈ c.toJson.atoms → n.natAbs < 10 ^ Text.digitLimit) ∧
    ((c.carry binary).isSome = true ↔ MessagePack.Packable c.toJson) ∧
    ((c.toJson.render .compact).utf8ByteSize < 2 ^ 32 →
      ((c.carry binary).isSome = true ↔ ∀ n, .int n ∈ c.toJson.atoms → MessagePack.InRange n)) := by
  have formed := Catalog.formed_toJson (canonical_of_compile hg ho hr h)
  have plain : Transport.IsPlain c.toJson := ⟨unmarked, fun _ => formed.real_atom⟩
  have proper : c.toJson.Proper := formed.mono fun _ none => none.elim
  have restored : Catalog.ofJson c.toJson = .ok c :=
    Catalog.restores (canonical_of_compile hg ho hr h)
  have packed : (c.carry binary).isSome = true ↔ MessagePack.Packable c.toJson := by
    rw [Catalog.carry, hb.write _ plain]
    exact MessagePack.encode?_isSome c.toJson
  refine ⟨fun carried hc => ?_, fun carried hc => ?_, ?_, packed, fun short => ?_⟩
  · exact Catalog.ofCarried_carry ht plain (fun _ => Transport.read_compactText proper) restored hc
  · exact Catalog.ofCarried_carry hb plain (fun _ => MessagePack.decode?_encode? proper) restored hc
  · rw [Catalog.carry, ht.write _ plain]
    exact Transport.isSome_compactText
  · rw [packed]
    refine ⟨And.right, fun range => ?_⟩
    exact (MessagePack.encode?_isSome _).mp (MessagePack.encode?_isSome_of_short short range)

theorem memo_carried : ∃ c text octets, (memo.compile memoOptions).result = .ok c ∧
    c.types.map (fun t => t.elements.map (·.max)) = [[none, some 3]] ∧
    c.carry .compactText = some text ∧ Catalog.ofCarried .compactText text = .ok c ∧
    c.carry .messagePack = some octets ∧ Catalog.ofCarried .messagePack octets = .ok c := by
  obtain ⟨c, run, -, bounds, plain, printable⟩ := memo_compiled
  have small : (memo.compile memoOptions).result.toOption.any (fun c =>
      (MessagePack.sizes c.toJson).all (· < 2 ^ 32) &&
        c.toJson.atoms.all fun a => a.int?.all fun n => -(2 ^ 63) ≤ n && n < 2 ^ 64) = true := by
    decide +kernel
  rw [run] at small
  obtain ⟨sizes, range⟩ := Bool.and_eq_true_iff.mp small
  have packable : MessagePack.Packable c.toJson := by
    refine ⟨fun size hs => show size < 2 ^ 32 from ?_, fun n hn => ?_⟩
    · exact of_decide_eq_true (List.all_eq_true.mp sizes size hs)
    · have bounded := Bool.and_eq_true_iff.mp (List.all_eq_true.mp range _ hn)
      exact ⟨of_decide_eq_true bounded.1, of_decide_eq_true bounded.2⟩
  obtain ⟨given, overrides⟩ := formed_memoOptions (R := fun _ => False)
  obtain ⟨text, binary, written, packed, -⟩ := compile_carried given overrides resolve_memoOptions run
    plain.unmarked (Transport.follows_self .compactText) (Transport.follows_self .messagePack)
  obtain ⟨sent, hs⟩ := Option.isSome_iff_exists.mp (written.mpr (Json.isPrintable_iff.mp printable))
  obtain ⟨octets, ho⟩ := Option.isSome_iff_exists.mp (packed.mpr packable)
  exact ⟨c, sent, octets, run, bounds, hs, text sent hs, ho, binary octets ho⟩

/-- No transport that follows its standard carries the catalog of a crowd. -/
theorem crowd_uncarried : ∃ c, (crowd.compile {}).result = .ok c ∧
    (∀ s, .str s ∈ c.toJson.atoms → ¬ Transport.typeMark <:+: s.toList) ∧
    (∀ text : Transport String, text.Follows .compactText → c.carry text = none) ∧
    ∀ binary : Transport (List UInt8), binary.Follows .messagePack → c.carry binary = none := by
  obtain ⟨c, run, -, plain, overlong⟩ := crowd_compiled
  refine ⟨c, run, plain.unmarked, fun text ht => ?_, fun binary hb => ?_⟩
  · rw [Catalog.carry, ht.write _ plain, ← Option.not_isSome_iff_eq_none, Transport.isSome_compactText]
    exact fun printable => overlong (Json.isPrintable_iff.mpr printable)
  · rw [Catalog.carry, hb.write _ plain, ← Option.not_isSome_iff_eq_none]
    intro packed
    have packable := (MessagePack.encode?_isSome _).mp packed
    refine overlong (Json.isPrintable_iff.mpr fun n hn => ?_)
    have range := packable.2 n hn
    have wide : (2 : Nat) ^ 64 ≤ 10 ^ Text.digitLimit := by decide +kernel
    unfold MessagePack.InRange at range
    omega

end SchemaSet

end WsdlCatalog
