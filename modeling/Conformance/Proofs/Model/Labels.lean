import Conformance.Proofs.Model.Recorded
import Conformance.Proofs.Token.Relocation

/-!
# Cases and their labels

The cases that the declarations of a source record, at any depth of nesting, and the labels
that are written in their payloads.

A label is the text of an identifier of the source, plain, with a dollar sign in front, or in
back quotes.  The first character tells which: a label is plain all through if it does not
begin with a dollar sign or a back quote (`SourceFile.isPlain_label`).  All three are *words*,
matches of the pattern of names.
-/

namespace Conformance

open Pattern Lexical Grammar

/-! ## Taking and taking on -/

/-- What is taken on from what is taken. -/
def Gather.flatMap {P C H α β : Type} (g : Gather P C H α) (h : α → List β) : Gather P C H β where
  property p := (g.property p).flatMap h
  cases c := (g.cases c).flatMap h
  head n := (g.head n).flatMap h

section
variable {α β : Type} (g : Gather PropertyDecl CaseDecl NominalHead α) (h : α → List β)

mutual
theorem Member.gather_flatMap (m : Member) :
    m.gather (g.flatMap h) = (m.gather g).flatMap h := by
  cases m with
  | nominal head members =>
    rw [Member.gather, Member.gather, List.flatMap_append, Member.gatherAll_flatMap members]
    rfl
  | _ => rfl

theorem Member.gatherAll_flatMap (ms : List Member) :
    Member.gatherAll (g.flatMap h) ms = (Member.gatherAll g ms).flatMap h := by
  cases ms with
  | nil => rfl
  | cons m ms =>
    rw [Member.gatherAll, Member.gatherAll, List.flatMap_append, Member.gather_flatMap m,
      Member.gatherAll_flatMap ms]
end

/-- To take on from what a declaration holds is to take it from the declaration. -/
theorem Declaration.gather_flatMap (d : Declaration) :
    d.gather (g.flatMap h) = (d.gather g).flatMap h := by
  cases d with
  | nominal n =>
    rw [Declaration.gather, Declaration.gather, List.flatMap_append, Member.gatherAll_flatMap]
    rfl
  | _ => rfl

end

/-! ## Cases and labels -/

/-- The labels that are written in the payload of a case. -/
def CaseElement.labels (e : CaseElement) : List String :=
  (e.payload.getD []).filterMap PayloadElement.label

/-- The cases that declarations record. -/
def recordedCases : Gather PropertyDecl CaseDecl NominalHead CaseElement where
  property _ := []
  cases c := c.elements
  head _ := []

/-- The cases of a source, at any depth of nesting. -/
def SourceFile.cases (s : SourceFile) : List CaseElement :=
  s.declarations.flatMap (Declaration.gather recordedCases)

namespace Grammar

/-- The label of a slot. -/
def SlotSyntax.labelTokens : SlotSyntax → List (List Token)
  | labelled label .. => if label.text == "_" then [] else [[label.val]]
  | positional .. => []

theorem SlotSyntax.label_eq (s : SlotSyntax) :
    s.element.label.toList = s.labelTokens.map Token.stretch := by
  cases s with
  | labelled label colon type default =>
    simp only [element, labelOf, labelTokens]
    split
    · rfl
    · simp [Word.text]
  | positional => rfl

/-- The tokens of the labels that are recorded. -/
def labelPhrases : Gather Property CaseGroup Header (List Token) where
  property _ := []
  cases c := c.cases.toList.flatMap fun e => e.slots.flatMap SlotSyntax.labelTokens
  head _ := []

theorem agrees_labels :
    Agrees (recordedCases.flatMap CaseElement.labels) labelPhrases Token.stretch where
  property _ := rfl
  cases c := by
    have case' (e : CaseSyntax) : e.element.labels =
        (e.slots.flatMap SlotSyntax.labelTokens).map Token.stretch := by
      rw [CaseElement.labels, CaseSyntax.element_payload, List.filterMap_map,
        List.filterMap_eq_flatMap_toList, List.map_flatMap]
      exact List.flatMap_congr fun s _ => s.label_eq
    simp only [Gather.flatMap, recordedCases, CaseGroup.declaration, labelPhrases,
      List.flatMap_map, List.map_flatMap, case']
  head _ := rfl

/-- A single token that names something. -/
def IsIdentifier (ts : List Token) : Prop := ∃ t, ts = [t] ∧ t.kind.isIdentifier = true

theorem SlotSyntax.takes_label (s : SlotSyntax) :
    ∀ ts ∈ s.labelTokens, ts <:+: s.tokens ∧ IsIdentifier ts := by
  intro ts mem
  cases s with
  | labelled label colon type default =>
    rw [labelTokens] at mem
    split at mem
    · cases mem
    · obtain rfl := List.mem_singleton.mp mem
      exact ⟨⟨[], _, rfl⟩, label.val, rfl, label.property⟩
  | positional => cases mem

/-- Recorded labels are parts of the source. -/
theorem takes_labels : Takes labelPhrases IsIdentifier where
  property _ _ mem := nomatch mem
  cases c ts mem := by
    have each (e : CaseSyntax) : ∀ ts ∈ e.slots.flatMap SlotSyntax.labelTokens,
        ts <:+: e.tokens ∧ IsIdentifier ts := by
      intro ts mem
      obtain ⟨s, slot, label⟩ := List.mem_flatMap.mp mem
      obtain ⟨part, is⟩ := s.takes_label ts label
      exact ⟨part.trans (CaseSyntax.infix_slot slot), is⟩
    obtain ⟨part, is⟩ := takes_listed each c.cases ts mem
    exact ⟨part.trans c.infix_cases, is⟩
  head _ _ mem := nomatch mem

end Grammar

/-! ## Identifiers -/

/-- Whether all characters of a name can stand in a plain name. -/
def IsPlain (name : String) : Prop := ∀ c ∈ name.toList, isNamePart c = true

/-- An identifier is a match of the pattern of names, and its kind is that of the word. -/
theorem Turn.word_of_isIdentifier {text rest : List Char} {l : Lexeme}
    (turn : Turn text (some l) rest) (identifier : l.kind.isIdentifier = true) :
    Pattern.name (text ++ rest) = some text.length ∧ l.kind = Kind.ofWord (String.ofList text) := by
  cases turn with
  | @angle c _ first =>
    have none : ∀ d ∈ signs, isAngle d = true → (Lexeme.ofAngle d).kind.isIdentifier = false :=
      List.all_iff_forall_prop.mp (by decide)
    have sign := mem_signs_of_operator (isAngle_operator first).1
    exact absurd identifier (by simp [none c sign first])
  | @token _ _ l k found kind whole =>
    have only : ∀ l : Lexical, ∀ k ∈ l.kinds, k.isIdentifier = true → l = .word := by
      intro l
      cases l <;> decide
    obtain rfl := only l k (mem_kinds kind) identifier
    obtain ⟨p, mem, matches'⟩ := exists_pattern found
    obtain rfl : p = Pattern.name := by simpa [patterns] using mem
    exact ⟨matches', (Option.some.inj kind).symm⟩

theorem plainName_of_name {cs : List Char} {n : Nat} (matches' : Pattern.name cs = some n)
    (quote : cs.head? ≠ some '\x60') (dollar : cs.head? ≠ some '$') : plainName cs = some n := by
  unfold Pattern.name at matches'
  split at matches'
  next => exact absurd rfl quote
  next => exact absurd rfl dollar
  next => exact matches'

/-- A text that the pattern of names takes as a whole, in front of some other text. -/
def IsWord (s : String) : Prop :=
  ∃ rest, Pattern.name (s.toList ++ rest) = some s.toList.length

/-- A word is plain just if it does not begin with a back quote or a dollar sign. -/
theorem IsWord.isPlain_iff {name : String} (word : IsWord name) :
    IsPlain name ↔ name.toList.head? ≠ some '\x60' ∧ name.toList.head? ≠ some '$' := by
  obtain ⟨rest, matches'⟩ := word
  constructor
  · intro plain
    refine ⟨fun head => ?_, fun head => ?_⟩ <;>
      exact absurd (plain _ (List.mem_of_head? head)) (by decide)
  · rintro ⟨quote, dollar⟩
    have same : (name.toList ++ rest).head? = name.toList.head? := by
      obtain ⟨c, cs, chars⟩ := List.exists_cons_of_length_pos (name_bounds matches').1
      rw [chars]
      rfl
    have plain := plainName_of_name matches' (same ▸ quote) (same ▸ dollar)
    intro c mem
    rw [← takeWhile_of_run (run_of_plainName plain)] at mem
    exact List.mem_takeWhile_imp mem

theorem IsWord.name_eq {s : String} (word : IsWord s) :
    Pattern.name s.toList = some s.toList.length := by
  obtain ⟨rest, matches'⟩ := word
  have alone := name_relocate matches' (Nat.le_refl _) (w := []) (by simp [Halts])
  rwa [List.append_nil] at alone

theorem all_of_run {p : Char → Bool} {cs : List Char} (whole : run p cs = cs.length) :
    ∀ c ∈ cs, p c = true := by
  have all : (cs ++ []).takeWhile p = cs := takeWhile_of_run (by rwa [List.append_nil])
  rw [List.append_nil] at all
  rw [← all]
  exact fun c => List.mem_takeWhile_imp

/-- A word that begins with a back quote ends with the next one. -/
theorem exists_of_quoted {cs : List Char}
    (matches' : Pattern.name ('\x60' :: cs) = some (cs.length + 1)) :
    ∃ inner, inner ≠ [] ∧ '\x60' ∉ inner ∧ '\n' ∉ inner ∧ cs = inner ++ ['\x60'] := by
  let inside := fun c : Char => c != '\x60' && c != '\n'
  have quoted : (if 0 < run inside cs && (cs.drop (run inside cs)).head? == some '\x60' then
      some (run inside cs + 2) else none) = some (cs.length + 1) := matches'
  split at quoted
  next closed =>
    have total : run inside cs + 2 = cs.length + 1 := Option.some.inj quoted
    have split := List.takeWhile_append_dropWhile (p := inside) (l := cs)
    have behind : (cs.takeWhile inside ++ cs.dropWhile inside).drop (run inside cs) =
        cs.dropWhile inside := List.drop_left
    rw [split] at behind
    have last : cs.dropWhile inside = ['\x60'] := by
      have one : (cs.dropWhile inside).length = 1 := by
        rw [← behind, List.length_drop]
        omega
      obtain ⟨c, single⟩ := List.length_eq_one_iff.mp one
      have quote : (cs.drop (run inside cs)).head? = some '\x60' :=
        eq_of_beq (Bool.and_eq_true_iff.mp closed).2
      rw [behind, single] at quote
      rw [single, Option.some.inj quote]
    rw [last] at split
    have inner : ∀ c ∈ cs.takeWhile inside, inside c = true := fun c => List.mem_takeWhile_imp
    have some : cs.takeWhile inside ≠ [] :=
      List.length_pos_iff.mp (of_decide_eq_true (Bool.and_eq_true_iff.mp closed).1)
    exact ⟨cs.takeWhile inside, some, fun mem => absurd (inner _ mem) (by decide),
      fun mem => absurd (inner _ mem) (by decide), split.symm⟩
  next => cases quoted

/-- A word has characters, between its back quotes if it is in such, and these are neither back
quotes nor line feeds. -/
theorem IsWord.exists_inner {s : String} (word : IsWord s) :
    ∃ inner, inner ≠ [] ∧ '\x60' ∉ inner ∧ '\n' ∉ inner ∧
      (s.toList = inner ∨ s.toList = '\x60' :: (inner ++ ['\x60'])) := by
  have matches' := word.name_eq
  have parts {p : Char → Bool} {cs : List Char} (whole : run p cs = cs.length)
      (others : p '\x60' = false ∧ p '\n' = false) : '\x60' ∉ cs ∧ '\n' ∉ cs :=
    ⟨fun mem => by simp [all_of_run whole _ mem] at others,
      fun mem => by simp [all_of_run whole _ mem] at others⟩
  generalize s.toList = cs at matches' ⊢
  cases cs with
  | nil => cases matches'
  | cons c cs =>
    by_cases quote : c = '\x60'
    · subst quote
      obtain ⟨inner, some, noQuote, noFeed, rfl⟩ := exists_of_quoted matches'
      exact ⟨inner, some, noQuote, noFeed, .inr rfl⟩
    by_cases dollar : c = '$'
    · subst dollar
      have numbered : (if 0 < run Char.isDigit cs then some (1 + run Char.isDigit cs)
          else (plainName cs).map (· + 1)) = some (cs.length + 1) := matches'
      have others : '\x60' ∉ cs ∧ '\n' ∉ cs := by
        split at numbered
        next =>
          have total := Option.some.inj numbered
          exact parts (by omega : run Char.isDigit cs = cs.length) (by decide)
        next =>
          obtain ⟨n, found, total⟩ := Option.map_eq_some_iff.mp numbered
          exact parts ((run_of_plainName found).trans (by omega)) (by decide)
      obtain ⟨noQuote, noFeed⟩ := others
      exact ⟨'$' :: cs, List.cons_ne_nil _ _, by simpa using noQuote, by simpa using noFeed,
        .inl rfl⟩
    · have plain := plainName_of_name matches' (by simpa using quote) (by simpa using dollar)
      obtain ⟨noQuote, noFeed⟩ := parts (run_of_plainName plain) (by decide)
      exact ⟨_, List.cons_ne_nil _ _, noQuote, noFeed, .inl rfl⟩

/-- An identifier among the tokens of a source is a word. -/
theorem isWord_of_infix {cs : List Char} (clean : (lex cs).stray? = none) {t : Token}
    (part : [t] <:+: (lex cs).delivered) (identifier : t.kind.isIdentifier = true) :
    IsWord t.text := by
  obtain ⟨a, u, stand, -⟩ := exists_stand clean part
  cases stand with
  | cons layout turn others =>
    have kinds : ∀ k : Kind, k.isIdentifier = true → k.unmarked.isIdentifier = true := by decide
    exact ⟨_, (turn.word_of_isIdentifier (kinds _ identifier)).1⟩

namespace SourceFile

variable {text : String} {filename : Option String} {f : SourceFile}

/-- What is recorded of identifiers of an accepted source are words. -/
theorem isWord_of_gather {r : Gather PropertyDecl CaseDecl NominalHead String}
    {g : Gather Property CaseGroup Header (List Token)} (agrees : Agrees r g Token.stretch)
    (takes : Takes g IsIdentifier) (accepted : read text filename = .ok f) {name : String}
    (mem : name ∈ f.declarations.flatMap (Declaration.gather r)) : IsWord name := by
  obtain ⟨i, clean, parsed, rfl⟩ := read_eq_ok.mp accepted
  rw [i.declarations_gather agrees] at mem
  obtain ⟨ts, phrase, rfl⟩ := List.mem_map.mp mem
  obtain ⟨part, t, rfl, identifier⟩ := i.infix_gather takes ts phrase
  rw [(tokens_of_parse parsed).1] at part
  rw [Token.stretch_singleton]
  exact isWord_of_infix clean part identifier

/-- What is taken on from the cases of a source is taken from its declarations. -/
theorem mem_gather_of_case {h : CaseElement → List String} {e : CaseElement} (mem : e ∈ f.cases)
    {name : String} (inside : name ∈ h e) :
    name ∈ f.declarations.flatMap (Declaration.gather (recordedCases.flatMap h)) := by
  obtain ⟨d, declared, within⟩ := List.mem_flatMap.mp mem
  refine List.mem_flatMap.mpr ⟨d, declared, ?_⟩
  rw [Declaration.gather_flatMap]
  exact List.mem_flatMap.mpr ⟨e, within, inside⟩

/-- The labels of an accepted source are words. -/
theorem isWord_label (accepted : read text filename = .ok f) {e : CaseElement} (mem : e ∈ f.cases)
    {label : String} (written : label ∈ e.labels) : IsWord label :=
  isWord_of_gather agrees_labels takes_labels accepted (mem_gather_of_case mem written)

/-- A label of an accepted source is plain just if it does not begin with a back quote or a dollar
sign. -/
theorem isPlain_label (accepted : read text filename = .ok f) {e : CaseElement} (mem : e ∈ f.cases)
    {label : String} (written : label ∈ e.labels) :
    IsPlain label ↔ label.toList.head? ≠ some '\x60' ∧ label.toList.head? ≠ some '$' :=
  (isWord_label accepted mem written).isPlain_iff

end SourceFile

end Conformance
