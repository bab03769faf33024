import Conformance.Proofs.Coding.Machine
import Conformance.Proofs.Token.Front
import Mathlib.Data.List.Nodup
import Mathlib.Data.List.TakeWhile

/-!
# The keys of coded variants

The key enumerations that the `Codable` extension of an enumeration declares, and what
their names stand for there.

Names are told apart by what is in front of them or behind them.  Keys by place differ in
their numbers, and the keys of a variant have a name of their own because the variant's
name is not empty.
-/

namespace Conformance

namespace Variant

variable {v : Variant}

theorem dropWhile_of_no_quote {cs : List Char} (none : '\x60' ∉ cs) :
    cs.dropWhile (fun c => c == '\x60') = cs := by
  cases cs with
  | nil => rfl
  | cons c cs => exact List.dropWhile_cons_of_neg fun is => none (eq_of_beq is ▸ .head _)

/-- A name without back quotes has none around it. -/
theorem bareName_of_no_quote (none : '\x60' ∉ v.name.toList) : v.bareName = v.name.toList := by
  have none' : '\x60' ∉ v.name.toList.reverse := mt List.mem_reverse.mp none
  simp only [bareName, dropWhile_of_no_quote none, dropWhile_of_no_quote none',
    List.reverse_reverse]

theorem bareName_of_quoted {inner : List Char} (none : '\x60' ∉ inner)
    (name : v.name.toList = '\x60' :: (inner ++ ['\x60'])) : v.bareName = inner := by
  have none' : '\x60' ∉ inner.reverse := mt List.mem_reverse.mp none
  have opening : (inner ++ ['\x60']).dropWhile (fun c => c == '\x60') =
      inner ++ ['\x60'] ∨ inner = [] := by
    cases inner with
    | nil => exact .inr rfl
    | cons c cs =>
      exact .inl (List.dropWhile_cons_of_neg fun is => none (eq_of_beq is ▸ .head _))
  rw [bareName, name, List.dropWhile_cons_of_pos rfl]
  rcases opening with kept | rfl
  · rw [kept, List.reverse_append, List.reverse_singleton, List.singleton_append,
      List.dropWhile_cons_of_pos rfl, dropWhile_of_no_quote none', List.reverse_reverse]
  · rfl

/-- There are no back quotes around a plain name. -/
theorem bareName_of_plain (plain : IsPlainName v.name) : v.bareName = v.name.toList := by
  obtain ⟨c, cs, chars, start, parts⟩ := plain.exists_cons
  refine bareName_of_no_quote fun mem => ?_
  rw [chars] at mem
  rcases List.mem_cons.mp mem with rfl | later
  · exact absurd start (by decide)
  · exact absurd (parts _ later) (by decide)

/-- The keys of a variant do not have the name of the outer keys. -/
theorem keysName_ne_outerKeys (plain : IsPlainName v.name) : v.keysName ≠ outerKeys := by
  obtain ⟨c, cs, chars, start, -⟩ := plain.exists_cons
  intro same
  have lengths := congrArg String.length same
  have capital : Text.capitalized v.bareName = c.toUpper :: cs := by
    rw [bareName_of_plain plain, chars, Text.capitalized,
      Text.capital_of_lt (Pattern.toNat_lt_of_isNamePart (Pattern.isNamePart_of_isNameStart start))]
    rfl
  rw [keysName, capital, String.length_append, String.length_ofList] at lengths
  simp [outerKeys] at lengths

end Variant

/-! ## Keys by place -/

theorem positionalKey_injective {i j : Nat} (same : positionalKey i = positionalKey j) :
    i = j := by
  have digits : toString (i : Int) = toString (j : Int) := by
    simpa [positionalKey] using same
  have chars : Nat.toDigits 10 i = Nat.toDigits 10 j := String.ofList_injective digits
  rw [← @Nat.ofDigitChars_ten_toDigits i, chars, Nat.ofDigitChars_ten_toDigits]

theorem mem_positionalKeys {n : Nat} {key : String} :
    key ∈ positionalKeys n ↔ ∃ i < n, positionalKey i = key := by
  simp [positionalKeys]

/-! ## Variants that are told apart -/

/-- Whether a variant has an enumeration of keys of its own. -/
def Variant.isKeyed (v : Variant) : Bool := decide (2 ≤ v.arity)

/-- Variants with plain names in which nothing has the name of another: no variant, no slot of a
variant, and no enumeration of keys. -/
structure ToldApart (variants : List Variant) : Prop where
  /-- Names are plain. -/
  plain : ∀ v ∈ variants, IsPlainName v.name
  /-- No two variants have the same name. -/
  names : (variants.map Variant.name).Nodup
  /-- No two slots of a variant have the same label. -/
  labels : ∀ v ∈ variants, (v.slots.map Slot.label).Nodup
  /-- No two enumerations of keys have the same name. -/
  keys : ((variants.filter Variant.isKeyed).map Variant.keysName).Nodup

namespace ToldApart

variable {v : Variant} {variants : List Variant}

theorem tail (apart : ToldApart (v :: variants)) : ToldApart variants where
  plain w mem := apart.plain w (.tail _ mem)
  names := apart.names.of_cons
  labels w mem := apart.labels w (.tail _ mem)
  keys := by
    refine apart.keys.sublist (List.Sublist.map _ ?_)
    exact (List.sublist_cons_self v variants).filter _

/-- A variant is found by its name. -/
theorem find?_name (apart : ToldApart variants) (mem : v ∈ variants) :
    variants.find? (fun w => w.name == v.name) = some v := by
  induction variants with
  | nil => cases mem
  | cons w variants ih =>
    rcases List.mem_cons.mp mem with rfl | later
    · simp
    · have other : w.name ≠ v.name := by
        intro same
        have names := apart.names
        rw [List.map_cons, List.nodup_cons, same] at names
        exact names.1 (List.mem_map_of_mem later)
      rw [List.find?_cons_of_neg (by simpa using other)]
      exact ih apart.tail later

/-- The keys of a variant are found by their name. -/
theorem findSome?_keysName (apart : ToldApart variants) (mem : v ∈ variants)
    (several : 2 ≤ v.arity) :
    (variants.filterMap Variant.innerKeys?).findSome? (CodeMember.cases? v.keysName) =
      some (positionalKeys v.arity) := by
  induction variants with
  | nil => cases mem
  | cons w variants ih =>
    rcases List.mem_cons.mp mem with rfl | later
    · simp [Variant.innerKeys?, several, CodeMember.cases?]
    · have others := ih apart.tail later
      by_cases keyed : 2 ≤ w.arity
      · have other : w.keysName ≠ v.keysName := by
          intro same
          have keys := apart.keys
          rw [List.filter_cons_of_pos (by simpa [Variant.isKeyed] using keyed), List.map_cons,
            List.nodup_cons, same] at keys
          refine keys.1 (List.mem_map_of_mem (List.mem_filter.mpr ⟨later, ?_⟩))
          simpa [Variant.isKeyed] using several
        simpa [Variant.innerKeys?, keyed, other, CodeMember.cases?] using others
      · simpa [Variant.innerKeys?, keyed] using others

end ToldApart

/-! ## The members of the extension -/

namespace Codable

variable (type : String) (variants : List Variant) (isPublic : Bool)

theorem keyCases?_outer :
    (ofVariants type variants isPublic).keyCases? outerKeys =
      some (variants.map Variant.name) := by
  simp [Extension.keyCases?, ofVariants, CodeMember.cases?]

/-- No function is among the keys of the variants. -/
theorem findSome?_function (method : Method) :
    (variants.filterMap Variant.innerKeys?).findSome? (CodeMember.body? method) = none := by
  rw [List.findSome?_eq_none_iff]
  intro m mem
  obtain ⟨v, -, keys⟩ := List.mem_filterMap.mp mem
  unfold Variant.innerKeys? at keys
  split at keys
  · cases keys
    rfl
  · cases keys

theorem body?_encode :
    (ofVariants type variants isPublic).body? .encode = some (encodeVariants variants) := by
  have none := findSome?_function variants .encode
  simp [Extension.body?, ofVariants, List.findSome?_cons, List.findSome?_append, none,
    CodeMember.body?]

theorem body?_decode :
    (ofVariants type variants isPublic).body? (.decode false) =
      some (decodeVariants type variants) := by
  have none := findSome?_function variants (.decode false)
  simp [Extension.body?, ofVariants, List.findSome?_cons, List.findSome?_append, none,
    CodeMember.body?]

variable {variants}

theorem keyCases?_inner {v : Variant} (apart : ToldApart variants) (mem : v ∈ variants)
    (several : 2 ≤ v.arity) :
    (ofVariants type variants isPublic).keyCases? v.keysName =
      some (positionalKeys v.arity) := by
  have outer := (Variant.keysName_ne_outerKeys (apart.plain v mem)).symm
  have inner := apart.findSome?_keysName mem several
  simp [Extension.keyCases?, ofVariants, List.findSome?_cons, List.findSome?_append, outer, inner,
    CodeMember.cases?]

end Codable

end Conformance
