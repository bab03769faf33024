import Conformance.Proofs.Grammar.Supertypes
import Conformance.Proofs.Model.Neighbours

/-!
# Supertypes of protocols and extensions

The header of a structure has its supertypes as types, and that of a protocol or an extension
has them among atoms.  The same text is a header of both in many cases, and then the supertypes
are the same, unless there are generic parameters.  Protocols and extensions have no supertypes
behind these, since the first atom is no colon there (`SourceFile.read_supertypes`).
-/

namespace Conformance

open Grammar Lexical

/-- Whether an angle opens behind the name of the type that a text begins with. -/
def opensGenerics (text : String) : Bool :=
  ((lex text.toList).delivered.drop 2).head?.any (·.kind == .leftAngle)

/-- The supertypes of the type that a source begins with, if it begins with one. -/
def SourceFile.firstSupertypes? (f : SourceFile) : Option (List String) :=
  (f.declarations.head?.bind Declaration.nominal?).map (·.head.inherited)

theorem firstSupertypes?_nominal {i : Items} {header : Header} {opening : Tok .leftBrace}
    {members : Items} {closing : Tok .rightBrace} {rest : Items} {filename : Option String}
    (is : i = .nominal header opening members closing rest) :
    SourceFile.firstSupertypes? ⟨i.declarations, filename⟩ = some header.supertypes := by
  rw [is]
  rfl

/-- The text behind a keyword that opens types is read alike behind all of them. -/
theorem delivered_behind_keyword {word behind : String}
    (mem : word ∈ ["struct", "protocol", "extension"])
    (clean : (lex (word ++ " " ++ behind).toList).stray? = none) :
    ∃ t ts, (lex (word ++ " " ++ behind).toList).delivered = t :: ts ∧
      t.kind = Kind.ofWord word ∧
      ts.map Token.unplaced = (tokensBehind behind.toList).map Token.unplaced := by
  have text : (word ++ " " ++ behind).toList = word.toList ++ ' ' :: behind.toList := by simp
  have found : front? (word.toList ++ ' ' :: behind.toList) = some (.word, word.toList.length) := by
    simp only [List.mem_cons, List.not_mem_nil, or_false] at mem
    rcases mem with rfl | rfl | rfl <;> rfl
  rw [text] at clean ⊢
  have behindWord := delivered_behind_word found clean
  rwa [String.ofList_toList] at behindWord

/-- Tokens behind the same text begin with the same kind. -/
theorem stops_tail_congr {p : Kind → Bool} {ts us : List Token}
    (same : ts.map Token.unplaced = us.map Token.unplaced) :
    Stops p ts.tail ↔ Stops p us.tail := by
  have kind (ts : List Token) : ts.tail.head?.map Token.kind =
      (ts.map Token.unplaced).tail.head?.map Token.kind := by
    rw [← List.map_tail, List.head?_map, Option.map_map]
    rfl
  rw [Stops, Stops, kind ts, kind us, same]

/-- Where the same text is accepted behind `struct` and behind `protocol` or `extension`, the
supertypes are the same without generic parameters, and with them there are none behind
`protocol` and `extension`. -/
theorem SourceFile.read_supertypes {word behind : String} {filename filename' : Option String}
    {f g : SourceFile} (loose : word = "protocol" ∨ word = "extension")
    (readStruct : read ("struct " ++ behind) filename = .ok f)
    (readLoose : read (word ++ " " ++ behind) filename' = .ok g) :
    ∃ supertypes, f.firstSupertypes? = some supertypes ∧
      g.firstSupertypes? =
        some (if opensGenerics ("struct " ++ behind) then [] else supertypes) := by
  obtain ⟨i, clean, parsed, rfl⟩ := read_eq_ok.mp readStruct
  obtain ⟨j, clean', parsed', rfl⟩ := read_eq_ok.mp readLoose
  obtain ⟨t, ts, delivered, kind, same⟩ :=
    delivered_behind_keyword (show "struct" ∈ ["struct", "protocol", "extension"] by decide) clean
  obtain ⟨u, us, delivered', kind', same'⟩ :=
    delivered_behind_keyword (by rcases loose with rfl | rfl <;> decide) clean'
  have delivered : (lex ("struct " ++ behind).toList).delivered = t :: ts := delivered
  rw [delivered] at parsed
  rw [delivered'] at parsed'
  have opens : opensGenerics ("struct " ++ behind) =
      (ts.tail.head?.map Token.kind).any (· == .leftAngle) := by
    rw [opensGenerics, delivered, Option.any_map, List.drop_succ_cons, List.drop_one]
  obtain ⟨header, _, _, _, _, is, noDot, supertypes⟩ := Items.exists_structured
    (by rw [kind]; decide) (by rw [kind]; rfl) parsed
  obtain ⟨header', _, _, _, _, is', supertypes'⟩ := Items.exists_loose
    (by rw [kind']; rcases loose with rfl | rfl <;> decide)
    (by rw [kind']; rcases loose with rfl | rfl <;> rfl) parsed'
  have behindName : us.map Token.unplaced = ts.map Token.unplaced := same'.trans same.symm
  have tails : supertypesIn us.tail = supertypesIn ts.tail := by
    rw [← supertypesIn_unplaced us.tail, ← supertypesIn_unplaced ts.tail, List.map_tail,
      List.map_tail, behindName]
  have inLoose := supertypes' ((stops_tail_congr behindName).mpr noDot)
  refine ⟨header.supertypes, firstSupertypes?_nominal is, ?_⟩
  rw [firstSupertypes?_nominal is', inLoose, tails]
  cases angle : opensGenerics ("struct " ++ behind) with
  | false => rw [supertypes (opens.symm.trans angle), if_neg Bool.false_ne_true]
  | true => rw [supertypesIn_of_angle (opens.symm.trans angle), if_pos rfl]

/-- A header with two supertypes, the second with arguments. -/
def twoSupertypes : String := "N: A, B<C, D> where C: E \x7b\x7d"

theorem SourceFile.read_twoSupertypes : ∃ f g,
    read ("struct " ++ twoSupertypes) none = .ok f ∧
      read ("protocol" ++ " " ++ twoSupertypes) none = .ok g ∧
      f.firstSupertypes? = some ["A", "B<C, D>"] ∧ g.firstSupertypes? = f.firstSupertypes? := by
  have inStruct : (read ("struct " ++ twoSupertypes) none).toOption.map firstSupertypes? =
      some (some ["A", "B<C, D>"]) := by decide +kernel
  obtain ⟨f, readStruct, seen⟩ := exists_ok_of _ inStruct
  obtain ⟨g, readLoose⟩ := exists_read ("protocol" ++ " " ++ twoSupertypes) (by decide +kernel)
  obtain ⟨supertypes, first, second⟩ := read_supertypes (.inl rfl) readStruct readLoose
  have plain : opensGenerics ("struct " ++ twoSupertypes) = false := by decide +kernel
  rw [plain, if_neg Bool.false_ne_true] at second
  exact ⟨f, g, readStruct, readLoose, seen, second.trans first.symm⟩

/-- A header with generic parameters in front of a supertype. -/
def genericSupertype : String := "N<T>: A \x7b\x7d"

/-- Behind generic parameters a structure has its supertype, and a protocol has none. -/
theorem SourceFile.read_genericSupertype : ∃ f g,
    read ("struct " ++ genericSupertype) none = .ok f ∧
      read ("protocol" ++ " " ++ genericSupertype) none = .ok g ∧
      f.firstSupertypes? = some ["A"] ∧ g.firstSupertypes? = some [] := by
  have inStruct : (read ("struct " ++ genericSupertype) none).toOption.map firstSupertypes? =
      some (some ["A"]) := by decide +kernel
  have inProtocol : (read ("protocol" ++ " " ++ genericSupertype) none).toOption.map
      firstSupertypes? = some (some []) := by decide +kernel
  obtain ⟨f, readStruct, seen⟩ := exists_ok_of _ inStruct
  obtain ⟨g, readLoose, seen'⟩ := exists_ok_of _ inProtocol
  exact ⟨f, g, readStruct, readLoose, seen, seen'⟩

end Conformance
