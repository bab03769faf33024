import Conformance.Code.Codable
import Conformance.Proofs.Coding.RoundTrip
import Conformance.Proofs.Model.Labels
import Conformance.Proofs.Token.Piece
import Mathlib.Data.List.Nodup

/-!
# Names of bound slots

The pattern of a case binds its slots, each to its label behind a prefix, and what is put
together from the slots uses the same names.  Labels are written or made up from places, and
written ones may be back-quoted, so the names can go wrong in two ways.

* They are distinct, for written labels that are, just if no written label is one that is made
  up for another slot (`nodup_slotLabels`).
* A name is a single token just if the label is plain (`isOneName_boundName`): behind a prefix,
  a back quote or a dollar sign begins a token of its own.

Both happen in accepted sources (`SourceFile.read_brokenBindings`).
-/

namespace Conformance

open Pattern Lexical

/-! ## Texts of one name -/

/-- A text is lexed as a single name, which is all of it. -/
def IsOneName (text : String) : Prop :=
  (lex text.toList).stray? = none ∧ (lex text.toList).delivered.map Token.face = [(.name, text)]

instance (text : String) : Decidable (IsOneName text) :=
  inferInstanceAs (Decidable (_ ∧ _))

theorem isPlainName_of_isPlain {text : String} {c : Char} {cs : List Char}
    (chars : text.toList = c :: cs) (start : isNameStart c = true) (plain : IsPlain text) :
    IsPlainName text := by
  have all : run isNamePart cs = cs.length := by
    rw [run, List.takeWhile_eq_self_iff.mpr]
    intro d mem
    exact plain d (by rw [chars]; exact .tail _ mem)
  rw [IsPlainName, ← String.length_toList, chars, plainName, if_pos start, all,
    List.length_cons, Nat.add_comm]

/-- A text that begins as a plain name does is one name just if it is plain and not reserved. -/
theorem isOneName_iff {text : String} {c : Char} {cs : List Char}
    (chars : text.toList = c :: cs) (start : isNameStart c = true) :
    IsOneName text ↔ IsPlain text ∧ Kind.ofWord text = .name := by
  constructor
  · rintro ⟨clean, face⟩
    obtain ⟨t, delivered, is⟩ := List.map_eq_singleton_iff.mp face
    have lexeme : t.lexeme = ⟨.name, text⟩ := by
      obtain ⟨kind, same⟩ := Prod.mk.inj is
      rw [Token.lexeme, kind, same]
      rfl
    have lexes := lexes_delivered clean
    rw [delivered, List.map_singleton, lexeme, chars] at lexes
    obtain ⟨l, word, a, ms, whole, found, split', -⟩ := lexes.exists_round
    have opens : opensWord c = true := by simp [opensWord, start]
    rw [← whole, front?_word opens, name_of_isNameStart start, plainName, if_pos start] at found
    obtain ⟨rfl, length⟩ := Prod.mk.inj (Option.some.inj found)
    have first : [⟨.name, text⟩] = (⟨Kind.ofWord (String.ofList word), String.ofList word⟩ :
        Lexeme) :: ms := split'
    obtain ⟨kind, same⟩ := Lexeme.mk.inj (List.cons.inj first).1
    -- The word is the whole text, so the run of name characters reaches its end.
    have reaches : run isNamePart (cs ++ []) = cs.length := by
      have chars' := congrArg String.toList same
      rw [String.toList_ofList, chars] at chars'
      rw [← chars', List.length_cons] at length
      rw [List.append_nil]
      omega
    refine ⟨fun d mem => ?_, by rw [same]; exact kind.symm⟩
    rw [chars] at mem
    rcases List.mem_cons.mp mem with rfl | later
    · exact isNamePart_of_isNameStart start
    · have all := takeWhile_of_run reaches
      rw [List.append_nil] at all
      rw [← all] at later
      exact List.mem_takeWhile_imp later
  · rintro ⟨plain, kind⟩
    have piece := (isPlainName_of_isPlain chars start plain).piece
    obtain ⟨clean, lexemes⟩ := lex_of_lexes (piece.lexes [] (by simp [Halts]))
    refine ⟨clean, ?_⟩
    rw [face_delivered clean, lexemes, kind]
    rfl

/-! ## Labels behind a prefix -/

/-- The prefixes for bound slots. -/
def slotPrefixes : List String := [leftPrefix, rightPrefix, payloadPrefix]

theorem exists_slotPrefix {before : String} (prefix' : before ∈ slotPrefixes) :
    ∃ c, before.toList = [c, '_'] ∧ isNameStart c = true := by
  have each : ∀ b ∈ slotPrefixes, b.toList = [b.toList.headD ' ', '_'] ∧
      isNameStart (b.toList.headD ' ') = true := by decide
  exact ⟨_, each before prefix'⟩

/-- No reserved word has an underscore in it. -/
theorem Kind.ofWord_of_underscore {s : String} (mem : '_' ∈ s.toList) : Kind.ofWord s = .name := by
  have none : ∀ p ∈ Kind.reserved, '_' ∉ p.1.toList := by decide
  rcases Kind.ofWord_cases s with is | reserved
  · exact is
  · exact absurd mem (none _ reserved)

theorem toList_boundName {before : String} {c : Char} (chars : before.toList = [c, '_']) (s : Slot) :
    (Variant.boundName before s).toList = c :: '_' :: s.label.toList := by
  rw [Variant.boundName, String.toList_append, chars]
  rfl

theorem isPlain_boundName {before : String} (prefix' : before ∈ slotPrefixes) (s : Slot) :
    IsPlain (Variant.boundName before s) ↔ IsPlain s.label := by
  obtain ⟨c, chars, start⟩ := exists_slotPrefix prefix'
  rw [IsPlain, IsPlain, toList_boundName chars, List.forall_mem_cons, List.forall_mem_cons]
  exact ⟨fun all => all.2.2, fun all => ⟨isNamePart_of_isNameStart start, rfl, all⟩⟩

/-- A label behind a prefix is one name just if it is plain. -/
theorem isOneName_boundName {before : String} (prefix' : before ∈ slotPrefixes) (s : Slot) :
    IsOneName (Variant.boundName before s) ↔ IsPlain s.label := by
  obtain ⟨c, chars, start⟩ := exists_slotPrefix prefix'
  have whole := toList_boundName chars s
  have kind : Kind.ofWord (Variant.boundName before s) = .name :=
    Kind.ofWord_of_underscore (by rw [whole]; exact .tail _ (.head _))
  rw [isOneName_iff whole start, and_iff_left kind, isPlain_boundName prefix']

/-- A place behind a plain text makes a plain one. -/
theorem isPlain_append_place {before : String} (plain : IsPlain before) (i : Nat) :
    IsPlain (before ++ toString (i : Int)) := by
  have digits : toString (i : Int) = String.ofList (Nat.toDigits 10 i) := rfl
  intro c mem
  rw [String.toList_append, digits, String.toList_ofList] at mem
  rcases List.mem_append.mp mem with front | digit
  · exact plain c front
  · exact isNamePart_of_isDigit (Nat.isDigit_of_mem_toDigits (b := 10) (by decide) (by decide) digit)

theorem isPlain_positionalLabel (i : Nat) : IsPlain (positionalLabel i) := by
  have front : IsPlain "v" := List.all_iff_forall_prop.mp (by decide)
  exact isPlain_append_place front i

theorem positionalLabel_injective {i j : Nat} (same : positionalLabel i = positionalLabel j) :
    i = j := by
  have digits : toString (i : Int) = toString (j : Int) := by
    simpa [positionalLabel] using same
  exact positionalKey_injective (congrArg ("_" ++ ·) digits)

/-! ## Distinct labels -/

section
variable {ps : List PayloadElement} {i : Nat}

/-- The labels of slots, counted from a place on: written or made up. -/
def slotLabels (ps : List PayloadElement) (i : Nat) : List String :=
  (ps.zipIdx i).map fun (p, j) => (p.slot j).label

/-- The labels that are made up for slots, counted from a place on. -/
def madeUpLabels (ps : List PayloadElement) (i : Nat) : List String :=
  ((ps.zipIdx i).filter fun (p, _) => p.label.isNone).map fun (_, j) => positionalLabel j

/-- The labels are those that are written and those that are made up. -/
theorem slotLabels_perm (ps : List PayloadElement) (i : Nat) :
    (slotLabels ps i).Perm (ps.filterMap PayloadElement.label ++ madeUpLabels ps i) := by
  induction ps generalizing i with
  | nil => exact .refl _
  | cons p ps ih =>
    cases written : p.label with
    | none =>
      have labels : slotLabels (p :: ps) i = positionalLabel i :: slotLabels ps (i + 1) := by
        simp [slotLabels, PayloadElement.slot, written]
      have madeUp : madeUpLabels (p :: ps) i =
          positionalLabel i :: madeUpLabels ps (i + 1) := by
        simp [madeUpLabels, written]
      rw [labels, madeUp, List.filterMap_cons_none written]
      exact ((ih (i + 1)).cons _).trans List.perm_middle.symm
    | some l =>
      have labels : slotLabels (p :: ps) i = l :: slotLabels ps (i + 1) := by
        simp [slotLabels, PayloadElement.slot, written]
      have madeUp : madeUpLabels (p :: ps) i = madeUpLabels ps (i + 1) := by
        simp [madeUpLabels, written]
      rw [labels, madeUp, List.filterMap_cons_some written]
      exact (ih (i + 1)).cons l

/-- Labels of different places are different. -/
theorem nodup_madeUpLabels (ps : List PayloadElement) (i : Nat) : (madeUpLabels ps i).Nodup := by
  have places : ((ps.zipIdx i).map Prod.snd).Nodup := by
    rw [List.zipIdx_map_snd]
    exact List.nodup_range'
  have all : ((ps.zipIdx i).map fun (_, j) => positionalLabel j).Nodup := by
    have same : ((ps.zipIdx i).map fun (_, j) => positionalLabel j) =
        ((ps.zipIdx i).map Prod.snd).map fun j : Nat => positionalLabel j := by
      rw [List.map_map]
      rfl
    rw [same]
    exact places.map fun _ _ => positionalLabel_injective
  exact all.sublist (List.filter_sublist.map _)

/-- If the written labels are distinct, all are just if none of them is one that is made up. -/
theorem nodup_slotLabels (distinct : (ps.filterMap PayloadElement.label).Nodup) :
    (slotLabels ps i).Nodup ↔
      ∀ label ∈ madeUpLabels ps i, label ∉ ps.filterMap PayloadElement.label := by
  rw [(slotLabels_perm ps i).nodup_iff, List.nodup_append]
  constructor
  · rintro ⟨-, -, apart⟩ label madeUp written
    exact apart label written label madeUp rfl
  · intro apart
    refine ⟨distinct, nodup_madeUpLabels ps i, ?_⟩
    rintro label written _ madeUp rfl
    exact apart label madeUp written

end

/-! ## Bound slots -/

namespace CaseElement

variable {e : CaseElement}

/-- A case has no slots, or those of its payload. -/
theorem slots_variant (e : CaseElement) : e.variant.slots = [] ∨
    ∃ ps, e.payload = some ps ∧ e.variant.slots = ps.zipIdx.map fun (p, i) => p.slot i := by
  unfold variant
  split
  next ps _ payload => exact .inr ⟨ps, payload, rfl⟩
  next => exact .inl rfl

/-- The label of a slot is written, or plain because it is made up. -/
theorem label_of_mem {s : Slot} (mem : s ∈ e.variant.slots) :
    s.label ∈ e.labels ∨ IsPlain s.label := by
  rcases e.slots_variant with none | ⟨ps, payload, slots⟩
  · rw [none] at mem
    cases mem
  · rw [slots] at mem
    obtain ⟨⟨p, i⟩, place, rfl⟩ := List.mem_map.mp mem
    cases written : p.label with
    | none =>
      have label : (p.slot i).label = positionalLabel i := by simp [PayloadElement.slot, written]
      exact .inr (label ▸ isPlain_positionalLabel i)
    | some l =>
      have label : (p.slot i).label = l := by simp [PayloadElement.slot, written]
      refine .inl (label ▸ ?_)
      rw [labels, payload]
      exact List.mem_filterMap.mpr ⟨p, List.fst_mem_of_mem_zipIdx place, written⟩

/-- The slots of a case are bound to distinct names just if no label that is made up for one of
them is written for another. -/
theorem nodup_boundNames (distinct : e.labels.Nodup) (before : String) :
    (e.variant.boundNames before).Nodup ↔
      ∀ s ∈ e.variant.slots, s.explicit = false → s.label ∉ e.labels := by
  have names : e.variant.boundNames before = (e.variant.slots.map Slot.label).map (before ++ ·) :=
    by rw [List.map_map]; rfl
  have injective : Function.Injective (before ++ · : String → String) :=
    fun a b same => by simpa using same
  rw [names, List.nodup_map_iff injective]
  rcases e.slots_variant with none | ⟨ps, payload, slots⟩
  · simp [none]
  · have all : e.variant.slots.map Slot.label = slotLabels ps 0 := by
      rw [slots, List.map_map]
      rfl
    have written : e.labels = ps.filterMap PayloadElement.label := by
      rw [labels, payload]
      rfl
    rw [written] at distinct ⊢
    rw [all, nodup_slotLabels distinct, slots]
    simp only [madeUpLabels, List.forall_mem_map, List.mem_filter, and_imp]
    refine forall₂_congr fun q place => ?_
    cases label : q.1.label <;> simp [PayloadElement.slot, label]

end CaseElement

theorem construction_names (v : Variant) (before : String) :
    ((v.construction before).arguments.getD []).map Prod.snd = v.boundNames before := by
  cases payload : v.payload <;>
    simp [Variant.construction, Variant.boundNames, Variant.slots, payload]

/-- What the slots of a case are bound to, in an accepted source and behind each prefix.  The
pattern, what is put together from it and what is decoded use the same names.  If the written
labels are distinct, the names are just if no label that is made up for a slot is written for
another.  Each is a single name just if its label does not begin with a back quote or a dollar
sign. -/
theorem SourceFile.read_boundNames {text : String} {filename : Option String} {f : SourceFile}
    (accepted : read text filename = .ok f) {e : CaseElement} (mem : e ∈ f.cases)
    (distinct : e.labels.Nodup) {before : String} (prefix' : before ∈ slotPrefixes) :
    (e.variant.pattern before).bound = e.variant.boundNames before ∧
    ((e.variant.construction before).arguments.getD []).map Prod.snd =
      e.variant.boundNames before ∧
    e.variant.decodedSlots.map Decoded.name = e.variant.boundNames payloadPrefix ∧
    ((e.variant.boundNames before).Nodup ↔
      ∀ s ∈ e.variant.slots, s.explicit = false → s.label ∉ e.labels) ∧
    ∀ s ∈ e.variant.slots, IsOneName (Variant.boundName before s) ↔
      s.label.toList.head? ≠ some '\x60' ∧ s.label.toList.head? ≠ some '$' := by
  refine ⟨rfl, construction_names _ _, Coding.decodedSlots_names,
    CaseElement.nodup_boundNames distinct before, fun s slot => ?_⟩
  rw [isOneName_boundName prefix']
  rcases CaseElement.label_of_mem slot with written | plain
  · exact isPlain_label accepted mem written
  · refine ⟨fun _ => ⟨fun head => ?_, fun head => ?_⟩, fun _ => plain⟩ <;>
      exact absurd (plain _ (List.mem_of_head? head)) (by decide)

/-- A case whose slots are bound as they should be, at a depth of nesting. -/
def boundText : String :=
  "struct S \x7b enum E \x7b case a(Int, open: Int, _: String), b \x7d \x7d"

theorem SourceFile.read_boundText :
    ∃ f e, read boundText none = .ok f ∧ e ∈ f.cases ∧
      e.variant.boundNames leftPrefix = ["l_v0", "l_open", "l_v2"] ∧
      (e.variant.boundNames leftPrefix).Nodup ∧
      ∀ name ∈ e.variant.boundNames leftPrefix, IsOneName name := by
  have seen : (read boundText none).toOption.map cases = some [
      ⟨"a", some [⟨none, "Int", none⟩, ⟨some "open", "Int", none⟩, ⟨none, "String", none⟩], none⟩,
      ⟨"b", none, none⟩] := by decide +kernel
  obtain ⟨f, accepted, found⟩ := exists_ok_of _ seen
  have mem : ⟨"a", some [⟨none, "Int", none⟩, ⟨some "open", "Int", none⟩,
      ⟨none, "String", none⟩], none⟩ ∈ f.cases := by
    rw [found]
    exact .head _
  have prefix' : leftPrefix ∈ slotPrefixes := by decide
  obtain ⟨-, -, -, nodup, single⟩ := read_boundNames accepted mem (by decide) prefix'
  refine ⟨f, _, accepted, mem, by decide, nodup.mpr (by decide), ?_⟩
  refine List.forall_mem_map.mpr fun s slot => (single s slot).mpr ?_
  have plain : ∀ s ∈ (CaseElement.mk "a" (some [⟨none, "Int", none⟩, ⟨some "open", "Int", none⟩,
      ⟨none, "String", none⟩]) none).variant.slots,
      s.label.toList.head? ≠ some '\x60' ∧ s.label.toList.head? ≠ some '$' := by decide
  exact plain s slot

/-- A label that is written for one slot and made up for another, and a label in back quotes. -/
def brokenBindingsText : String :=
  "enum E \x7b case a(v1: Int, Int), b(\x60in\x60: Int, $x: Int) \x7d"

/-- Cases with distinct written labels whose slots are not bound to distinct names, or not to
single ones. -/
theorem SourceFile.read_brokenBindings :
    ∃ f a b, read brokenBindingsText none = .ok f ∧ f.cases = [a, b] ∧
      a.labels.Nodup ∧ a.variant.boundNames payloadPrefix = ["p_v1", "p_v1"] ∧
      ¬(a.variant.boundNames payloadPrefix).Nodup ∧
      b.labels.Nodup ∧ b.variant.boundNames payloadPrefix = ["p_\x60in\x60", "p_$x"] ∧
      ∀ name ∈ b.variant.boundNames payloadPrefix, ¬IsOneName name := by
  have seen : (read brokenBindingsText none).toOption.map cases = some [
      ⟨"a", some [⟨some "v1", "Int", none⟩, ⟨none, "Int", none⟩], none⟩,
      ⟨"b", some [⟨some "\x60in\x60", "Int", none⟩, ⟨some "$x", "Int", none⟩], none⟩] := by
    decide +kernel
  obtain ⟨f, accepted, found⟩ := exists_ok_of _ seen
  exact ⟨f, _, _, accepted, found, by decide, by decide, by decide, by decide, by decide,
    by decide +kernel⟩

end Conformance
