import Conformance.Settings.File
import Mathlib.Data.List.Forall2
import Mathlib.Data.List.Perm.Basic

/-!
# Which configurations are valid

A configuration is valid if it passes eleven checks, each of which is a property of the JSON
value by itself (`Check.Passes`).  `Settings.ofJson` makes them in the order of `Check.all`, and
gives the settings that the value carries, or reports the key of the first check that is
violated (`Settings.ofJson_exact`).

The reader of settings is a chain of small ones, each for some of the checks in a row.  So what
is said of it is said of every part (`Decides`), and holds of a chain if it holds of its links
(`Decides.bind`).

The order of members is seen by none of the checks: an object is read by looking its members up,
and its least unknown key does not depend on their order (`Settings.ofJson_reordered`).
-/

namespace Conformance

open Settings

/-! ## Objects -/

namespace Json

/-- The keys of an object. -/
def keys : Json → List LooseText
  | object members => members.map Prod.fst
  | _ => []

/-- A member of the names for stable hashes. -/
def hashName? (j : Json) (key : LooseText) : Option Json := (j.get? "stable_hash").bind (get? key)

/-- A text with a character that is not blank. -/
def IsWritten (j : Json) : Prop := ∃ s, j = .string s ∧ ∃ c ∈ s.chars, c.isBlank = false

end Json

/-- The order of texts by the code points of their characters and halves. -/
def ComesBefore (s t : LooseText) : Prop :=
  List.Lex (· < ·) (s.chars.map LooseChar.code) (t.chars.map LooseChar.code)

/-- The least of some keys that is not among the known ones. -/
structure IsLeastUnknown (known ks : List LooseText) (k : LooseText) : Prop where
  mem : k ∈ ks
  unknown : k ∉ known
  /-- No other unknown key comes before it. -/
  least : ∀ k' ∈ ks, k' ∉ known → k' = k ∨ ComesBefore k k'

/-! ## Checks -/

/-- What is checked of a configuration. -/
inductive Check where
  | object | keys | indent | unknownType | stableHash | stableHashKeys | protocol | property
  | combine | features | featureNames

namespace Check

/-- The checks in their order. -/
def all : List Check :=
  [.object, .keys, .indent, .unknownType, .stableHash, .stableHashKeys, .protocol, .property,
    .combine, .features, .featureNames]

/-- What a check demands. -/
def Passes (j : Json) : Check → Prop
  | object => ∃ members, j = .object members
  | keys => ∀ k ∈ j.keys, k ∈ Settings.keys
  | indent => ∀ v, j.get? "indent" = some v → ∃ n : Int, v = .integer n ∧ 1 ≤ n ∧ n ≤ 8
  | unknownType => ∀ v, j.get? "unknown_type" = some v → v.IsWritten
  | stableHash => ∀ v, j.get? "stable_hash" = some v → ∃ members, v = .object members
  | stableHashKeys => ∀ v, j.get? "stable_hash" = some v → ∀ k ∈ v.keys, k ∈ Settings.stableHashKeys
  | protocol => ∀ v, j.hashName? "protocol" = some v → v.IsWritten
  | property => ∀ v, j.hashName? "property" = some v → v.IsWritten
  | combine => ∀ v, j.hashName? "combine" = some v → v.IsWritten
  | features => ∀ v, j.get? "conformances" = some v →
      ∃ words : List LooseText, v = .array (words.map .string)
  | featureNames => ∀ words : List LooseText,
      j.get? "conformances" = some (.array (words.map .string)) →
        ∀ w ∈ words, ∃ f : Feature, LooseText.ofString f.word = w

/-- The key that is reported of a violated check. -/
def HasKey (j : Json) : Check → Option LooseText → Prop
  | object, key => key = none
  | keys, key => ∃ k, IsLeastUnknown Settings.keys j.keys k ∧ key = some k
  | indent, key => key = some (LooseText.ofString "indent")
  | unknownType, key => key = some (LooseText.ofString "unknown_type")
  | stableHash, key => key = some (LooseText.ofString "stable_hash")
  | stableHashKeys, key => ∃ v k, j.get? "stable_hash" = some v ∧
      IsLeastUnknown Settings.stableHashKeys v.keys k ∧
        key = some (LooseText.ofString "stable_hash." ++ k)
  | protocol, key => key = some (LooseText.ofString "stable_hash.protocol")
  | property, key => key = some (LooseText.ofString "stable_hash.property")
  | combine, key => key = some (LooseText.ofString "stable_hash.combine")
  | features, key => key = some (LooseText.ofString "conformances")
  | featureNames, key => key = some (LooseText.ofString "conformances")

end Check

/-- The first of several checks that is violated. -/
def IsFirstViolated (j : Json) (cs : List Check) (c : Check) : Prop :=
  ∃ front back, cs = front ++ c :: back ∧ (∀ b ∈ front, b.Passes j) ∧ ¬ c.Passes j

/-! ## Values -/

/-- A setting has the value that is given for it, and the default if none is given. -/
def Carries {α : Type} (given : Option Json) (write : α → Json) (default a : α) : Prop :=
  (∀ v, given = some v → v = write a) ∧ (given = none → a = default)

/-- The features are those of the words that are given, each in its first place, and the same
options come of them. -/
structure CarriesFeatures (given : Option Json) (fs : List Feature) : Prop where
  listed : ∀ v, given = some v → ∃ listed : List Feature,
    v = .array ((listed.map fun f => LooseText.ofString f.word).map .string) ∧
      fs = listed.eraseDups ∧
      Options.ofFeatures fs = Options.ofWords (listed.map Feature.word)
  default : given = none → fs = [.codable, .equatable]

/-- The names for stable hashes are those that a configuration gives. -/
structure CarriesNames (j : Json) (names : StableHashNames LooseText) : Prop where
  protocol : Carries (j.hashName? "protocol") .string "StableHashable" names.conformance
  property : Carries (j.hashName? "property") .string "stableHash" names.property
  combine : Carries (j.hashName? "combine") .string "combineHashes" names.combine

/-- The settings are those that a configuration gives. -/
structure IsCarried (j : Json) (s : LooseSettings) : Prop where
  indent : Carries (j.get? "indent") (fun n : Nat => .integer n) 4 s.indent
  unknownType : Carries (j.get? "unknown_type") .string "<unknown>" s.unknownType
  stableHash : CarriesNames j s.stableHash
  features : CarriesFeatures (j.get? "conformances") s.features

/-! ## Chains of checks -/

/-- A reader decides some checks in a row: what it gives is right if all of them pass, and else
it reports the first of them that is violated. -/
def Decides {α : Type} (j : Json) (cs : List Check) (gives : α → Prop) : Except Fault α → Prop
  | .ok a => (∀ c ∈ cs, c.Passes j) ∧ gives a
  | .error f => ∃ c, IsFirstViolated j cs c ∧ c.HasKey j f.key?

namespace Decides

variable {α β : Type} {j : Json} {c : Check} {cs : List Check} {gives : α → Prop}
  {gives' : β → Prop}

theorem pass {a : α} (passes : c.Passes j) (right : gives a) : Decides j [c] gives (.ok a) :=
  ⟨by simpa using passes, right⟩

theorem fail {f : Fault} (violated : ¬ c.Passes j) {key : Option LooseText} (is : c.HasKey j key)
    (reported : f.key? = key) (cs : List Check) : Decides j (c :: cs) gives (.error f) :=
  ⟨c, ⟨[], cs, rfl, by simp, violated⟩, reported ▸ is⟩

theorem bind {r : Except Fault α} {k : α → Except Fault β} (first : Decides j cs gives r)
    (ds : List Check) (next : ∀ a, gives a → Decides j ds gives' (k a)) :
    Decides j (cs ++ ds) gives' (r >>= k) := by
  cases r with
  | error f =>
    obtain ⟨c, ⟨front, back, rfl, passed, violated⟩, key⟩ := first
    exact ⟨c, ⟨front, back ++ ds, by simp, passed, violated⟩, key⟩
  | ok a =>
    obtain ⟨passed, right⟩ := first
    have rest := next a right
    show Decides j (cs ++ ds) gives' (k a)
    cases result : k a with
    | ok b =>
      rw [result] at rest
      exact ⟨List.forall_mem_append.mpr ⟨passed, rest.1⟩, rest.2⟩
    | error f =>
      rw [result] at rest
      obtain ⟨c, ⟨front, back, rfl, passed', violated⟩, key⟩ := rest
      exact ⟨c, ⟨cs ++ front, back, by simp, List.forall_mem_append.mpr ⟨passed, passed'⟩,
        violated⟩, key⟩

/-- A check that passes may stand in front. -/
theorem cons {r : Except Fault α} (passes : c.Passes j) (rest : Decides j cs gives r) :
    Decides j (c :: cs) gives r := by
  have first : Decides j [c] (fun _ : Unit => True) (.ok ()) := pass passes trivial
  exact first.bind cs fun _ _ => rest

end Decides

/-! ## The links -/

theorem hasInk_iff {s : LooseText} :
    s.hasInk = true ↔ ∃ c ∈ s.chars, c.isBlank = false := by
  simp [LooseText.hasInk]

/-! ### Keys -/

theorem before_iff {s t : LooseText} : s.before t = true ↔ ComesBefore s t := decide_eq_true_iff

theorem ComesBefore.trans {s t u : LooseText} (st : ComesBefore s t) (tu : ComesBefore t u) :
    ComesBefore s u :=
  List.lt_trans st tu

theorem comesBefore_total {s t : LooseText} (not : ¬ ComesBefore s t) :
    t = s ∨ ComesBefore t s := by
  by_cases back : ComesBefore t s
  · exact .inr back
  · have codes : s.chars.map LooseChar.code = t.chars.map LooseChar.code :=
      List.le_antisymm (List.not_lt.mp back) (List.not_lt.mp not)
    have chars := List.map_injective_iff.mpr LooseChar.code_injective codes
    exact .inl (congrArg LooseText.mk chars.symm)

theorem ComesBefore.asymm {s t : LooseText} (st : ComesBefore s t) : ¬ ComesBefore t s := fun ts =>
  List.lt_irrefl _ (List.lt_trans st ts)

/-- The least of some texts is one of them, and comes before the others. -/
theorem least?_spec (ks : List LooseText) : (least? ks = none ∧ ks = []) ∨
    ∃ k, least? ks = some k ∧ k ∈ ks ∧ ∀ k' ∈ ks, k' = k ∨ ComesBefore k k' := by
  induction ks with
  | nil => exact .inl ⟨rfl, rfl⟩
  | cons s rest ih =>
    right
    rcases ih with ⟨none, rfl⟩ | ⟨t, some, mem, least⟩
    · exact ⟨s, by rw [least?, none], List.mem_singleton_self s, by simp⟩
    · rw [least?, some]
      by_cases first : ComesBefore t s
      · refine ⟨t, congrArg _ (if_pos (before_iff.mpr first)), List.mem_cons_of_mem s mem, ?_⟩
        exact List.forall_mem_cons.mpr ⟨.inr first, least⟩
      · refine ⟨s, congrArg _ (if_neg (mt before_iff.mp first)), List.mem_cons_self, ?_⟩
        refine List.forall_mem_cons.mpr ⟨.inl rfl, fun k' mem' => ?_⟩
        rcases comesBefore_total first with rfl | st
        · exact least k' mem'
        · rcases least k' mem' with rfl | tk
          · exact .inr st
          · exact .inr (st.trans tk)

/-- Either every key is known, or the least that is not is found. -/
theorem unknownKey?_spec (known : List LooseText) (members : List (LooseText × Json)) :
    (unknownKey? known members = none ∧ ∀ k ∈ members.map Prod.fst, k ∈ known) ∨
      ∃ k, unknownKey? known members = some k ∧
        IsLeastUnknown known (members.map Prod.fst) k := by
  have filtered {k : LooseText} : k ∈ (members.map Prod.fst).filter (fun k => !known.contains k) ↔
      k ∈ members.map Prod.fst ∧ k ∉ known := by
    simp only [List.mem_filter, Bool.not_eq_true', List.contains_eq_mem, decide_eq_false_iff_not]
  rcases least?_spec ((members.map Prod.fst).filter fun k => !known.contains k) with
    ⟨none, empty⟩ | ⟨k, some, mem, least⟩
  · refine .inl ⟨none, fun k mem => ?_⟩
    by_contra other
    have here := filtered.mpr ⟨mem, other⟩
    rw [empty] at here
    cases here
  · obtain ⟨mem, unknown⟩ := filtered.mp mem
    exact .inr ⟨k, some, mem, unknown, fun k' mem' other => least k' (filtered.mpr ⟨mem', other⟩)⟩

variable {j : Json} {c : Check}

theorem checkKeys_decides {outer : LooseText} {known : List LooseText}
    {members : List (LooseText × Json)}
    (passes : c.Passes j ↔ ∀ k ∈ members.map Prod.fst, k ∈ known)
    (key : ∀ k, IsLeastUnknown known (members.map Prod.fst) k → c.HasKey j (some (outer ++ k))) :
    Decides j [c] (fun _ => True) (checkKeys outer known members) := by
  rw [checkKeys]
  rcases unknownKey?_spec known members with ⟨none, all⟩ | ⟨k, some, least⟩
  · rw [none]
    exact .pass (passes.mpr all) trivial
  · rw [some]
    exact .fail (fun all => least.unknown (passes.mp all k least.mem)) (key k least) rfl []

/-! ### Single settings -/

/-- A setting that is read from one member, which is valid or not by itself. -/
theorem setting_decides {α : Type} {given : Option Json} {valid : Json → Prop} {write : α → Json}
    {default : α} {label : String} {r : Except Fault α}
    (passes : c.Passes j ↔ ∀ v, given = some v → valid v) (key : c.HasKey j (some label))
    (absent : given = none → r = .ok default)
    (right : ∀ v, given = some v → valid v → ∃ a, r = .ok a ∧ v = write a)
    (wrong : ∀ v, given = some v → ¬ valid v → ∃ f, r = .error f ∧ f.key? = some label) :
    Decides j [c] (Carries given write default) r := by
  cases given with
  | none =>
    rw [absent rfl]
    exact .pass (passes.mpr nofun) ⟨nofun, fun _ => rfl⟩
  | some v =>
    by_cases is : valid v
    · obtain ⟨a, eq, rfl⟩ := right v rfl is
      rw [eq]
      refine .pass (passes.mpr fun w same => ?_) ⟨fun w same => ?_, nofun⟩
      · exact Option.some.inj same ▸ is
      · exact (Option.some.inj same).symm
    · obtain ⟨f, eq, label⟩ := wrong v rfl is
      rw [eq]
      exact .fail (fun all => is (passes.mp all v rfl)) key label []

theorem checkIndent_decides (j : Json) :
    Decides j [.indent] (Carries (j.get? "indent") (fun n : Nat => .integer n) 4)
      (checkIndent 4 (j.get? "indent")) := by
  refine setting_decides Iff.rfl rfl ?_ ?_ ?_
  · intro absent
    rw [absent]
    rfl
  · rintro _ given ⟨n, rfl, range⟩
    refine ⟨n.toNat, ?_, congrArg Json.integer (Int.toNat_of_nonneg (by omega)).symm⟩
    rw [given]
    exact if_pos range
  · intro v given other
    refine ⟨.indent, ?_, rfl⟩
    rw [given]
    cases v with
    | integer n => exact if_neg fun range => other ⟨n, rfl, range⟩
    | _ => rfl

/-- A setting that is a text. -/
theorem checkText_decides {given : Option Json} (label : String) (default : LooseText)
    (passes : c.Passes j ↔ ∀ v, given = some v → v.IsWritten) (key : c.HasKey j (some label)) :
    Decides j [c] (Carries given .string default) (checkText label default given) := by
  refine setting_decides passes key ?_ ?_ ?_
  · rintro rfl
    rfl
  · rintro _ rfl ⟨s, rfl, ink⟩
    exact ⟨s, if_pos (hasInk_iff.mpr ink), rfl⟩
  · rintro v rfl other
    refine ⟨.blank label, ?_, rfl⟩
    cases v with
    | string s => exact if_neg fun ink => other ⟨s, rfl, hasInk_iff.mp ink⟩
    | _ => rfl

/-! ### Names for stable hashes -/

theorem hashName?_of_get? {v : Json} (given : j.get? "stable_hash" = some v) (key : LooseText) :
    j.hashName? key = v.get? key := by
  rw [Json.hashName?, given, Option.bind_some]

theorem hashName?_of_absent (absent : j.get? "stable_hash" = none) (key : LooseText) :
    j.hashName? key = none := by
  rw [Json.hashName?, absent, Option.bind_none]

theorem checkStableHash_decides (j : Json) :
    Decides j [.stableHash, .stableHashKeys, .protocol, .property, .combine] (CarriesNames j)
      (checkStableHash ⟨"StableHashable", "stableHash", "combineHashes"⟩
        (j.get? "stable_hash")) := by
  cases given : j.get? "stable_hash" with
  | none =>
    have absent := hashName?_of_absent given
    refine ⟨?_, ?_⟩
    · simp [Check.Passes, given, absent]
    · constructor
      all_goals
        rw [absent]
        exact ⟨nofun, fun _ => rfl⟩
  | some v =>
    cases v with
    | object members =>
      have inner (key : LooseText) : members.lookup key = j.hashName? key :=
        (hashName?_of_get? given key).symm
      refine .cons (fun w is => ?_) ?_
      · rw [given] at is
        exact ⟨members, (Option.some.inj is).symm⟩
      have keys : Decides j [.stableHashKeys] (fun _ => True)
          (checkKeys "stable_hash." stableHashKeys members) := by
        refine checkKeys_decides ?_ fun k least => ⟨_, k, given, least, rfl⟩
        simp [Check.Passes, given, Json.keys]
      refine keys.bind [.protocol, .property, .combine] fun _ _ => ?_
      dsimp only
      rw [inner, inner, inner]
      have protocol := checkText_decides (j := j) (c := .protocol) "stable_hash.protocol"
        "StableHashable" Iff.rfl rfl
      have property := checkText_decides (j := j) (c := .property) "stable_hash.property"
        "stableHash" Iff.rfl rfl
      have combine := checkText_decides (j := j) (c := .combine) "stable_hash.combine"
        "combineHashes" Iff.rfl rfl
      refine protocol.bind [.property, .combine] fun p first => ?_
      refine property.bind [.combine] fun q second => ?_
      refine combine.bind [] fun r third => ?_
      exact ⟨nofun, first, second, third⟩
    | _ =>
      refine Decides.fail (f := .stableHashNotObject) (c := .stableHash) (fun all => ?_) rfl rfl _
      obtain ⟨members, is⟩ := all _ given
      cases is

/-! ### Features -/

theorem texts?_eq_some {items : List Json} {words : List LooseText} :
    texts? items = some words ↔ items = words.map .string := by
  induction items generalizing words with
  | nil =>
    rw [texts?, Option.some.injEq, eq_comm (a := []), eq_comm (a := []), List.map_eq_nil_iff]
  | cons item rest ih =>
    cases item with
    | string s =>
      rw [texts?, Option.map_eq_some_iff]
      constructor
      · rintro ⟨words, read, rfl⟩
        rw [ih.mp read, List.map_cons]
      · intro eq
        obtain ⟨w, words, rfl⟩ : ∃ w ws, words = w :: ws := by
          cases words with
          | nil => cases eq
          | cons w ws => exact ⟨w, ws, rfl⟩
        rw [List.map_cons, List.cons.injEq, Json.string.injEq] at eq
        exact ⟨words, ih.mpr eq.2, by rw [eq.1]⟩
    | _ =>
      rw [texts?]
      · constructor
        · nofun
        · intro eq
          cases words with
          | nil => cases eq
          | cons w ws =>
            rw [List.map_cons] at eq
            cases (List.cons.inj eq).1
      · nofun

theorem ofWord?_eq_some {w : LooseText} {f : Feature}
    (named : w.encode.toOption.bind Feature.ofWord? = some f) : LooseText.ofString f.word = w := by
  obtain ⟨s, encoded, named⟩ := Option.bind_eq_some_iff.mp named
  have is : w.encode = .ok s := by
    cases result : w.encode with
    | error e =>
      rw [result] at encoded
      cases encoded
    | ok u =>
      rw [result] at encoded
      exact congrArg Except.ok (Option.some.inj encoded)
  have found := List.find?_some named
  rw [LooseText.encode_eq_ok_iff.mp is, eq_of_beq found]

theorem ofWord?_eq_none {w : LooseText} (none : w.encode.toOption.bind Feature.ofWord? = none)
    (f : Feature) : LooseText.ofString f.word ≠ w := by
  rintro rfl
  rw [LooseText.encode_eq_ok_iff.mpr rfl] at none
  cases (Feature.ofWord?_word f).symm.trans none

/-- Either all words name features, or the first that does not is reported. -/
theorem featuresOfWords_spec (words : List LooseText) :
    (∃ fs, featuresOfWords words = .ok fs ∧ words = fs.map fun f => .ofString f.word) ∨
      ∃ w ∈ words, (∀ f : Feature, LooseText.ofString f.word ≠ w) ∧
        featuresOfWords words = .error (.unknownFeature w) := by
  induction words with
  | nil => exact .inl ⟨[], rfl, rfl⟩
  | cons w rest ih =>
    rw [featuresOfWords]
    cases named : w.encode.toOption.bind Feature.ofWord? with
    | none => exact .inr ⟨w, List.mem_cons_self, ofWord?_eq_none named, rfl⟩
    | some f =>
      rcases ih with ⟨fs, eq, rfl⟩ | ⟨u, mem, unnamed, eq⟩
      · refine .inl ⟨f :: fs, ?_, ?_⟩
        · rw [eq]
          rfl
        · rw [List.map_cons, ofWord?_eq_some named]
      · refine .inr ⟨u, List.mem_cons_of_mem w mem, unnamed, ?_⟩
        rw [eq]
        rfl

theorem filter_withoutRepetitions (p : Feature → Bool) (fs : List Feature) :
    (withoutRepetitions fs).filter p = (fs.filter p).eraseDups := by
  induction fs generalizing p with
  | nil => rfl
  | cons f rest ih =>
    rw [withoutRepetitions, List.filter_cons, List.filter_cons]
    by_cases taken : p f = true
    · rw [if_pos taken, if_pos taken, List.eraseDups_cons, List.filter_filter, List.filter_filter,
        ih]
      congr 3
      funext g
      rw [Bool.and_comm]
      rfl
    · rw [if_neg taken, if_neg taken, List.filter_filter, ← ih]
      congr 1
      funext g
      by_cases same : g = f
      · rw [same, Bool.eq_false_iff.mpr taken]
        rfl
      · rw [bne_iff_ne.mpr same, Bool.and_true]

theorem withoutRepetitions_eq (fs : List Feature) : withoutRepetitions fs = fs.eraseDups := by
  have all := filter_withoutRepetitions (fun _ => true) fs
  rwa [List.filter_true, List.filter_true] at all

theorem ofFeatures_eraseDups (fs : List Feature) :
    Options.ofFeatures fs.eraseDups = Options.ofFeatures fs := by
  simp only [Options.ofFeatures, List.contains_eq_mem, List.mem_eraseDups]

theorem ofWords_words (fs : List Feature) :
    Options.ofWords (fs.map Feature.word) = Options.ofFeatures fs := by
  have named : (Feature.ofWord? ∘ Feature.word) = some := funext Feature.ofWord?_word
  rw [Options.ofWords, List.filterMap_map, named, List.filterMap_some]

theorem checkFeatures_decides (j : Json) :
    Decides j [.features, .featureNames] (CarriesFeatures (j.get? "conformances"))
      (checkFeatures [.codable, .equatable] (j.get? "conformances")) := by
  have wrong {v : Json} (given : j.get? "conformances" = some v)
      (other : ∀ words : List LooseText, v ≠ .array (words.map .string)) :
      Decides j [.features, .featureNames] (CarriesFeatures (some v))
        (.error .featuresNotTexts) := by
    refine Decides.fail (c := .features) (fun all => ?_) rfl rfl _
    obtain ⟨words, is⟩ := all v given
    exact other words is
  cases given : j.get? "conformances" with
  | none => exact ⟨by simp [Check.Passes, given], nofun, fun _ => rfl⟩
  | some v =>
    cases v with
    | array items =>
      rw [checkFeatures]
      cases read : texts? items with
      | none =>
        refine wrong given fun words is => ?_
        rw [texts?_eq_some.mpr (Json.array.inj is)] at read
        cases read
      | some words =>
        obtain rfl := texts?_eq_some.mp read
        have listed : Check.features.Passes j := by
          intro v is
          rw [given] at is
          exact ⟨words, (Option.some.inj is).symm⟩
        refine .cons listed ?_
        rcases featuresOfWords_spec words with ⟨fs, eq, rfl⟩ | ⟨w, mem, unnamed, eq⟩
        · show Decides j _ _ ((featuresOfWords _).map _)
          rw [eq]
          refine .pass (fun words is w mem => ?_) ⟨fun v is => ⟨fs, ?_, ?_, ?_⟩, nofun⟩
          · rw [given] at is
            have same := texts?_eq_some.mpr (Json.array.inj (Option.some.inj is))
            rw [read] at same
            obtain ⟨f, -, named⟩ := List.mem_map.mp (Option.some.inj same ▸ mem)
            exact ⟨f, named⟩
          · exact (Option.some.inj is).symm
          · exact withoutRepetitions_eq fs
          · rw [withoutRepetitions_eq, ofFeatures_eraseDups, ofWords_words]
        · show Decides j _ _ ((featuresOfWords _).map _)
          rw [eq]
          refine Decides.fail (c := .featureNames) (fun all => ?_) rfl rfl _
          obtain ⟨f, is⟩ := all words given w mem
          exact unnamed f is
    | _ => exact wrong given (by simp)

/-! ## All checks -/

/-- The reader of settings makes all checks. -/
theorem Settings.ofJson_decides (j : Json) : Decides j Check.all (IsCarried j) (ofJson j) := by
  cases j with
  | object members =>
    refine .cons ⟨members, rfl⟩ ?_
    have keys : Decides (.object members) [.keys] (fun _ => True) (checkKeys "" keys members) := by
      refine checkKeys_decides Iff.rfl fun k least => ⟨k, least, ?_⟩
      rfl
    have unknownType := checkText_decides (j := .object members) (c := .unknownType)
      "unknown_type" "<unknown>" Iff.rfl rfl
    refine keys.bind [.indent, .unknownType, .stableHash, .stableHashKeys, .protocol,
      .property, .combine, .features, .featureNames] fun _ _ => ?_
    refine (checkIndent_decides _).bind [.unknownType, .stableHash, .stableHashKeys,
      .protocol, .property, .combine, .features, .featureNames] fun indent first => ?_
    refine unknownType.bind [.stableHash, .stableHashKeys, .protocol, .property, .combine,
      .features, .featureNames] fun unknownType second => ?_
    refine (checkStableHash_decides _).bind [.features, .featureNames]
      fun names third => ?_
    refine (checkFeatures_decides _).bind [] fun fs fourth => ?_
    exact ⟨nofun, first, second, third, fourth⟩
  | _ =>
    refine Decides.fail (c := .object) (f := .notObject) ?_ rfl rfl _
    rintro ⟨members, is⟩
    cases is

/-! ## The order of members -/

/-- Two members have one key, and values that are related. -/
inductive MemberRel (rel : Json → Json → Prop) : LooseText × Json → LooseText × Json → Prop
  | mk {key : LooseText} {v w : Json} : rel v w → MemberRel rel (key, v) (key, w)

/-- A JSON value with the members of its objects in another order, at any depth.  The keys of an
object are distinct. -/
inductive Json.Reordered : Json → Json → Prop
  | same (j : Json) : Reordered j j
  | array {items items' : List Json} : List.Forall₂ Reordered items items' →
      Reordered (.array items) (.array items')
  | object {members mid members' : List (LooseText × Json)} : (members.map Prod.fst).Nodup →
      members.Perm mid → List.Forall₂ (MemberRel Reordered) mid members' →
      Reordered (.object members) (.object members')

section
variable {members mid members' : List (LooseText × Json)} {rel : Json → Json → Prop}

theorem lookup_perm (perm : members.Perm mid) (nodup : (members.map Prod.fst).Nodup)
    (key : LooseText) : members.lookup key = mid.lookup key := by
  induction perm with
  | nil => rfl
  | cons m _ ih =>
    rw [List.lookup_cons, List.lookup_cons, ih (List.nodup_cons.mp nodup).2]
  | swap m n rest =>
    have other : m.1 ≠ n.1 := by
      intro same
      simp [same] at nodup
    rw [List.lookup_cons, List.lookup_cons, List.lookup_cons, List.lookup_cons]
    by_cases first : key = m.1
    · rw [first, beq_self_eq_true, beq_false_of_ne other]
    · rw [beq_false_of_ne first]
  | trans perm _ ih ih' =>
    rw [ih nodup, ih' ((perm.map Prod.fst).nodup_iff.mp nodup)]

theorem lookup_rel (alike : List.Forall₂ (MemberRel rel) mid members') (key : LooseText) :
    Option.Rel rel (mid.lookup key) (members'.lookup key) := by
  induction alike with
  | nil => exact .none
  | cons first _ ih =>
    obtain ⟨related⟩ := first
    rw [List.lookup_cons, List.lookup_cons]
    split
    · exact .some related
    · exact ih

theorem keys_rel (alike : List.Forall₂ (MemberRel rel) mid members') :
    mid.map Prod.fst = members'.map Prod.fst := by
  induction alike with
  | nil => rfl
  | cons first _ ih =>
    obtain ⟨_⟩ := first
    rw [List.map_cons, List.map_cons, ih]

end

/-- The least unknown key does not depend on the order of the keys. -/
theorem unknownKey?_reordered {members members' : List (LooseText × Json)} (known : List LooseText)
    (keys : ∀ k, k ∈ members.map Prod.fst ↔ k ∈ members'.map Prod.fst) :
    unknownKey? known members = unknownKey? known members' := by
  rcases unknownKey?_spec known members with ⟨none, all⟩ | ⟨k, some, least⟩
  · rcases unknownKey?_spec known members' with ⟨none', -⟩ | ⟨k', -, least'⟩
    · rw [none, none']
    · exact absurd (all k' ((keys k').mpr least'.mem)) least'.unknown
  · rcases unknownKey?_spec known members' with ⟨-, all'⟩ | ⟨k', some', least'⟩
    · exact absurd (all' k ((keys k).mp least.mem)) least.unknown
    · rw [some, some']
      rcases least.least k' ((keys k').mpr least'.mem) least'.unknown with rfl | first
      · rfl
      rcases least'.least k ((keys k).mp least.mem) least.unknown with rfl | first'
      · rfl
      · exact absurd first' first.asymm

theorem texts?_reordered {items items' : List Json}
    (alike : List.Forall₂ Json.Reordered items items') : texts? items = texts? items' := by
  induction alike with
  | nil => rfl
  | @cons v w _ _ first _ ih =>
    cases first with
    | same =>
      cases v with
      | string s => rw [texts?, texts?, ih]
      | _ => rfl
    | array => rfl
    | object => rfl

section
variable {given given' : Option Json}

theorem checkIndent_reordered (default : Nat) (alike : Option.Rel Json.Reordered given given') :
    checkIndent default given = checkIndent default given' := by
  cases alike with
  | none => rfl
  | some related => cases related <;> rfl

theorem checkText_reordered (label : String) (default : LooseText)
    (alike : Option.Rel Json.Reordered given given') :
    checkText label default given = checkText label default given' := by
  cases alike with
  | none => rfl
  | some related => cases related <;> rfl

theorem checkFeatures_reordered (default : List Feature)
    (alike : Option.Rel Json.Reordered given given') :
    checkFeatures default given = checkFeatures default given' := by
  cases alike with
  | none => rfl
  | some related =>
    cases related with
    | same => rfl
    | array items => rw [checkFeatures, checkFeatures, texts?_reordered items]
    | object => rfl

end

/-- What is seen of the members of an object does not depend on their order. -/
theorem members_reordered {members members' : List (LooseText × Json)}
    (alike : Json.Reordered (.object members) (.object members')) :
    (∀ outer known, checkKeys outer known members = checkKeys outer known members') ∧
      ∀ key, Option.Rel Json.Reordered (members.lookup key) (members'.lookup key) := by
  cases alike with
  | same =>
    refine ⟨fun _ _ => rfl, fun key => ?_⟩
    cases members.lookup key with
    | none => exact .none
    | some v => exact .some (.same v)
  | object nodup perm related =>
    refine ⟨fun outer known => ?_, fun key => ?_⟩
    · rw [checkKeys, checkKeys, unknownKey?_reordered known fun k => ?_]
      rw [(perm.map Prod.fst).mem_iff, keys_rel related]
    · rw [lookup_perm perm nodup]
      exact lookup_rel related key

theorem checkStableHash_reordered {given given' : Option Json} (default : StableHashNames LooseText)
    (alike : Option.Rel Json.Reordered given given') :
    checkStableHash default given = checkStableHash default given' := by
  cases alike with
  | none => rfl
  | @some v w related =>
    cases v with
    | object members =>
      obtain ⟨members', rfl⟩ : ∃ members', w = .object members' := by
        cases related with
        | same => exact ⟨members, rfl⟩
        | object => exact ⟨_, rfl⟩
      obtain ⟨keys, lookups⟩ := members_reordered related
      rw [checkStableHash, checkStableHash, keys, checkText_reordered _ _ (lookups "protocol"),
        checkText_reordered _ _ (lookups "property"), checkText_reordered _ _ (lookups "combine")]
    | _ => cases related <;> rfl

/-- The outcome does not depend on the order of members. -/
theorem Settings.ofJson_reordered {j j' : Json} (alike : j.Reordered j') :
    ofJson j = ofJson j' := by
  cases j with
  | object members =>
    obtain ⟨members', rfl⟩ : ∃ members', j' = .object members' := by
      cases alike with
      | same => exact ⟨members, rfl⟩
      | object => exact ⟨_, rfl⟩
    obtain ⟨keys, lookups⟩ := members_reordered alike
    rw [ofJson, ofJson, keys, checkIndent_reordered _ (lookups "indent"),
      checkText_reordered _ _ (lookups "unknown_type"),
      checkStableHash_reordered _ (lookups "stable_hash"),
      checkFeatures_reordered _ (lookups "conformances")]
  | _ => cases alike <;> rfl

/-! ## The outcome -/

/-- Settings come of a configuration exactly if it passes all checks, and they are those that it
gives.  Else the first check that it violates is reported, as an invalid configuration with the
path and the key of the check.  Neither depends on the order of members. -/
theorem Settings.ofJson_exact (j : Json) (path : Option String) :
    ((∃ s, ofJson j = .ok s) ↔ ∀ c, Check.Passes j c) ∧
      (∀ s, ofJson j = .ok s → IsCarried j s) ∧
      (∀ f, ofJson j = .error f → ∃ c, IsFirstViolated j Check.all c ∧
        c.HasKey j (f.problem path).key ∧ (f.problem path).code = "config-invalid" ∧
        (f.problem path).path = path) ∧
      ∀ j', Json.Reordered j j' → ofJson j' = ofJson j := by
  have decides := ofJson_decides j
  refine ⟨?_, ?_, ?_, fun j' alike => (ofJson_reordered alike).symm⟩
  · constructor
    · rintro ⟨s, eq⟩ c
      rw [eq] at decides
      exact decides.1 c (by cases c <;> simp [Check.all])
    · intro all
      cases eq : ofJson j with
      | ok s => exact ⟨s, rfl⟩
      | error f =>
        rw [eq] at decides
        obtain ⟨c, ⟨-, -, -, -, violated⟩, -⟩ := decides
        exact absurd (all c) violated
  · intro s eq
    rw [eq] at decides
    exact decides.2
  · intro f eq
    rw [eq] at decides
    obtain ⟨c, first, key⟩ := decides
    exact ⟨c, first, key, rfl, rfl⟩

/-- A configuration with a repetition. -/
def repeatingConfiguration : Json := .object [
  ("conformances", .array [.string "hashable", .string "codable", .string "hashable"]),
  ("indent", .integer 2)]

/-- A configuration with two unknown members and a member of the wrong kind. -/
def mistakenConfiguration : Json := .object [
  ("conformances", .null),
  ("stable_hash", .object [("salt", .null), ("Salt", .null)])]

/-- The same configuration in another order. -/
def turnedConfiguration : Json := .object [
  ("stable_hash", .object [("Salt", .null), ("salt", .null)]),
  ("conformances", .null)]

theorem mistakenConfiguration_reordered : mistakenConfiguration.Reordered turnedConfiguration := by
  have inner : Json.Reordered (.object [("salt", .null), ("Salt", .null)])
      (.object [("Salt", .null), ("salt", .null)]) :=
    .object (by decide) (.swap ..) (.cons (.mk (.same _)) (.cons (.mk (.same _)) .nil))
  exact .object (by decide) (.swap ..) (.cons (.mk inner) (.cons (.mk (.same _)) .nil))

theorem Settings.ofJson_repeating_mistaken :
    (∃ s, ofJson repeatingConfiguration = .ok s ∧ IsCarried repeatingConfiguration s ∧
      s.indent = 2 ∧ s.features = [.hashable, .codable]) ∧
    (∃ f c, ofJson mistakenConfiguration = .error f ∧
      IsFirstViolated mistakenConfiguration Check.all c ∧
      (f.problem (some "swiftgen.json")).key = some (LooseText.ofString "stable_hash.Salt")) ∧
    ofJson turnedConfiguration = ofJson mistakenConfiguration := by
  have right : ofJson repeatingConfiguration =
      .ok (.ofSettings { indent := 2, features := [.hashable, .codable] }) := by
    rfl
  have wrong : ofJson mistakenConfiguration = .error (.unknownKey "stable_hash.Salt") := by
    rfl
  obtain ⟨-, carried, -, -⟩ := ofJson_exact repeatingConfiguration none
  obtain ⟨-, -, failed, order⟩ := ofJson_exact mistakenConfiguration (some "swiftgen.json")
  obtain ⟨c, first, -⟩ := failed _ wrong
  exact ⟨⟨_, right, carried _ right, rfl, rfl⟩, ⟨_, c, wrong, first, rfl⟩,
    order _ mistakenConfiguration_reordered⟩

end Conformance
