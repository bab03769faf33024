import Conformance.Proofs.Model.Recorded
import Conformance.Proofs.Token.Woven

/-!
# The order of a source

The leaves of a type and the types of a source stand one behind the other among the tokens, and
so do phrases that are taken from each of them (`InOrder.refine`).  Where the tokens stand in a
text, such phrases are sown in it, so what is woven from them is lexed as it should be
(`sown_of_inOrder`).

A row declares one member for each leaf and each type in it, in the same order, and so do the
rows of its types.  What holds of every leaf with its member and of every header with its head
holds of a source at every depth (`Items.Declares`).
-/

namespace Conformance

open Lexical

/-- Phrases stand one behind the other among some tokens. -/
inductive InOrder : List (List Token) → List Token → Prop
  | nil {ts : List Token} : InOrder [] ts
  | cons {gap v us : List Token} {vs : List (List Token)} (others : InOrder vs us) :
      InOrder (v :: vs) (gap ++ (v ++ us))

namespace InOrder

variable {vs ws : List (List Token)} {ts us v gap : List Token}

theorem widen (h : InOrder vs ts) : InOrder vs (gap ++ ts) := by
  cases h with
  | nil => exact .nil
  | cons others =>
    rw [← List.append_assoc]
    exact .cons others

theorem append (first : InOrder vs ts) (second : InOrder ws us) :
    InOrder (vs ++ ws) (ts ++ us) := by
  induction first with
  | nil => exact second.widen
  | cons others ih =>
    rw [List.append_assoc, List.append_assoc]
    exact .cons ih

theorem extend (h : InOrder vs ts) : InOrder vs (ts ++ us) := by
  have none : InOrder [] us := .nil
  simpa using h.append none

theorem of_infix (h : InOrder vs us) (part : us <:+: ts) : InOrder vs ts := by
  obtain ⟨a, b, rfl⟩ := part
  exact h.widen.extend

theorem single (part : v <:+: ts) : InOrder [v] ts :=
  have here : InOrder [v] v := by simpa using @cons [] v [] [] nil
  of_infix here part

/-- What is taken in order from phrases in order is in order. -/
theorem refine {α : Type} {take : α → List (List Token)} {yield : α → List Token} {as : List α}
    (h : InOrder (as.map yield) ts) (each : ∀ a ∈ as, InOrder (take a) (yield a)) :
    InOrder (as.flatMap take) ts := by
  induction as generalizing ts with
  | nil => exact .nil
  | cons a as ih =>
    obtain ⟨here, later⟩ := List.forall_mem_cons.mp each
    cases h with
    | cons others => exact (here.append (ih others later)).widen

theorem infix_of_mem (h : InOrder vs ts) (mem : v ∈ vs) : v <:+: ts := by
  induction h with
  | nil => cases mem
  | @cons gap w us vs others ih =>
    rcases List.mem_cons.mp mem with rfl | later
    · exact ⟨gap, us, List.append_assoc ..⟩
    · exact (ih later).trans ((List.suffix_append ..).trans (List.suffix_append ..)).isInfix

end InOrder

/-! ## Sown phrases -/

/-- Tokens that stand somewhere stand so behind the layout of the first. -/
theorem Stand.exists_stretch {ts : List Token} {a u : List Char} (h : Stand ts a u) :
    ∃ gap, a = gap ++ (Token.stretch ts).toList := by
  cases h with
  | nil => exact ⟨[], rfl⟩
  | @cons t ts a u layout text others =>
    exact ⟨t.layout.toList, by rw [Token.stretch, String.toList_append, ← others.eq_join]⟩

/-- Phrases in order among tokens that stand in a text are sown in it. -/
theorem sown_of_inOrder {vs : List (List Token)} {ts : List Token} {a rest : List Char}
    (order : InOrder vs ts) (ends : ∀ v ∈ vs, EndsText v) (stand : Stand ts a rest)
    (plain : StartsPlain rest) : Sown vs (a ++ rest) rest := by
  induction order generalizing a with
  | nil => exact .nil
  | @cons gap v us vs others ih =>
    obtain ⟨here, later⟩ := List.forall_mem_cons.mp ends
    obtain ⟨before, a, rfl, -, stand⟩ := stand.exists_append
    obtain ⟨text, behind, rfl, phrase, stand⟩ := stand.exists_append
    have further := ih later stand
    have start := stand.lexes.startsPlain plain
    obtain ⟨layout, rfl⟩ := phrase.exists_stretch
    have whole : before ++ (layout ++ (Token.stretch v).toList ++ behind) ++ rest =
        (before ++ layout) ++ ((Token.stretch v).toList ++ (behind ++ rest)) := by simp
    rw [whole]
    refine .cons (fun w breaks follows => ?_) further
    have tame : Tame (layout ++ (Token.stretch v).toList) (behind ++ rest) w :=
      ⟨fun _ => follows _ (.head _), fun _ => follows _ (.tail _ (.head _))⟩
    exact (phrase.relocate breaks.halts tame (fun _ _ _ => breaks.head?_ne_dot) here.not_directive
      start).lexes_stretch

/-- A declaration outside of any type, as a member of one. -/
def Declaration.member : Declaration → Member
  | nominal n => .nominal n.head n.members
  | stateless d => .stateless d
  | directive d => .directive d

namespace Grammar

namespace Items

/-! ## Leaves and types -/

/-- The leaves of a row, those in types aside. -/
def leaves : Items → List Leaf
  | nil => []
  | semicolon _ rest => rest.leaves
  | leaf l rest => l :: rest.leaves
  | nominal _ _ _ _ rest => rest.leaves

/-- The types of a row with their members, those in types aside. -/
def types : Items → List (Header × Items)
  | nil => []
  | semicolon _ rest => rest.types
  | leaf _ rest => rest.types
  | nominal header _ inner _ rest => (header, inner) :: rest.types

theorem inOrder_leaves (i : Items) : InOrder (i.leaves.map Leaf.tokens) i.tokens := by
  induction i with
  | nil => exact .nil
  | semicolon mark rest ih => exact @InOrder.widen _ _ [mark.val] ih
  | leaf l rest ih =>
    rw [← List.nil_append (leaf l rest).tokens]
    exact .cons ih
  | nominal header opening inner closing rest _ ih =>
    have whole : (nominal header opening inner closing rest).tokens =
        (header.tokens ++ opening.val :: inner.tokens ++ [closing.val]) ++ rest.tokens := by
      simp [tokens]
    rw [whole]
    exact ih.widen

theorem inOrder_types (i : Items) : InOrder (i.types.map fun t => t.2.tokens) i.tokens := by
  induction i with
  | nil => exact .nil
  | semicolon mark rest ih => exact @InOrder.widen _ _ [mark.val] ih
  | leaf l rest ih => exact ih.widen
  | nominal header opening inner closing rest _ ih =>
    have whole : (nominal header opening inner closing rest).tokens =
        (header.tokens ++ [opening.val]) ++ (inner.tokens ++ ([closing.val] ++ rest.tokens)) := by
      simp [tokens]
    rw [whole]
    exact .cons ih.widen

/-- The declaration of a type. -/
def declared (t : Header × Items) : Nominal := ⟨t.1.nominalHead, t.2.members⟩

theorem nominals_declarations (i : Items) :
    i.declarations.filterMap Declaration.nominal? = i.types.map declared := by
  induction i with
  | nil => rfl
  | semicolon mark rest ih => exact ih
  | leaf l rest ih =>
    have none : l.declaration.nominal? = none := by cases l <;> rfl
    rw [declarations, List.filterMap_cons_none none]
    exact ih
  | nominal header opening inner closing rest _ ih =>
    exact congrArg (⟨header.nominalHead, inner.members⟩ :: ·) ih

/-- The header of a type is in the row. -/
theorem header_subset {i : Items} {t : Header × Items} (mem : t ∈ i.types) :
    t.1.tokens ⊆ i.tokens := by
  induction i with
  | nil => cases mem
  | semicolon mark rest ih => exact List.subset_cons_of_subset _ (ih mem)
  | leaf l rest ih => exact List.subset_append_of_subset_right _ (ih mem)
  | nominal header opening inner closing rest _ ih =>
    rcases List.mem_cons.mp mem with rfl | later
    · exact List.subset_append_of_subset_left _ (List.subset_append_left ..)
    · exact List.subset_append_of_subset_right _ (List.subset_cons_of_subset _ (ih later))

/-- What is taken from the members that are no types is taken from the leaves. -/
theorem flatMap_members {α : Type} (take : Member → List α)
    (types : ∀ head members, take (.nominal head members) = []) (i : Items) :
    i.members.flatMap take = i.leaves.flatMap fun l => take l.member := by
  induction i with
  | nil => rfl
  | semicolon mark rest ih => exact ih
  | leaf l rest ih => exact congrArg (take l.member ++ ·) ih
  | nominal header opening inner closing rest _ ih =>
    rw [members, List.flatMap_cons, types, ih]
    rfl

theorem gatherLeaf_subset {α : Type} {g : Gather Property CaseGroup Header α} {i : Items} {l : Leaf}
    (mem : l ∈ i.leaves) : gatherLeaf g l ⊆ i.gatherMembers g := by
  induction i with
  | nil => cases mem
  | semicolon mark rest ih => exact ih mem
  | leaf m rest ih =>
    rcases List.mem_cons.mp mem with rfl | later
    · exact List.subset_append_left ..
    · exact List.subset_append_of_subset_right _ (ih later)
  | nominal header opening inner closing rest _ ih =>
    exact List.subset_append_of_subset_right _ (ih mem)

theorem gatherMembers_subset {α : Type} {g : Gather Property CaseGroup Header α} {i : Items}
    {t : Header × Items} (mem : t ∈ i.types) : t.2.gatherMembers g ⊆ i.gather g := by
  induction i with
  | nil => cases mem
  | semicolon mark rest ih => exact ih mem
  | leaf m rest ih => exact ih mem
  | nominal header opening inner closing rest _ ih =>
    rcases List.mem_cons.mp mem with rfl | later
    · exact List.subset_append_of_subset_left _ (List.subset_append_right ..)
    · exact List.subset_append_of_subset_right _ (ih later)

/-! ## Rows and what they declare -/

/-- A row declares members, where each leaf is in a relation to its member and each header to the
head of its type, inside of types as well. -/
inductive Declares (leaf : Leaf → Member → Prop) (type : Header → NominalHead → Prop) :
    Items → List Member → Prop
  | nil : Declares leaf type nil []
  | semicolon {mark : Tok .semicolon} {rest : Items} {ms : List Member}
      (later : Declares leaf type rest ms) : Declares leaf type (semicolon mark rest) ms
  | leaf {l : Leaf} {rest : Items} {m : Member} {ms : List Member} (here : leaf l m)
      (later : Declares leaf type rest ms) : Declares leaf type (Items.leaf l rest) (m :: ms)
  | nominal {header : Header} {opening : Tok .leftBrace} {inner : Items}
      {closing : Tok .rightBrace} {rest : Items} {head : NominalHead} {members ms : List Member}
      (here : type header head) (within : Declares leaf type inner members)
      (later : Declares leaf type rest ms) :
      Declares leaf type (nominal header opening inner closing rest)
        (.nominal head members :: ms)

section
variable {leaf : Leaf → Member → Prop} {type : Header → NominalHead → Prop} {ts : List Token}

theorem declares_members (leaves : ∀ l, l.tokens <:+: ts → leaf l l.member)
    (types : ∀ h, h.tokens <:+: ts → type h h.nominalHead) {i : Items} (part : i.tokens <:+: ts) :
    i.Declares leaf type i.members := by
  induction i with
  | nil => exact .nil
  | semicolon mark rest ih => exact .semicolon (ih ((List.suffix_cons ..).isInfix.trans part))
  | leaf l rest ih =>
    exact .leaf (leaves l ((List.prefix_append ..).isInfix.trans part))
      (ih ((List.suffix_append ..).isInfix.trans part))
  | nominal header opening inner closing rest ihInner ihRest =>
    obtain ⟨headerPart, innerPart, restPart⟩ := infix_nominal header opening inner closing rest
    exact .nominal (types header (headerPart.trans part)) (ihInner (innerPart.trans part))
      (ihRest (restPart.trans part))

/-- Outside of any type a row declares what it would declare inside, but for its leaves. -/
theorem declares_declarations (leaves : ∀ l, l.tokens <:+: ts → leaf l l.member)
    (outside : ∀ l, l.tokens <:+: ts → leaf l l.declaration.member)
    (types : ∀ h, h.tokens <:+: ts → type h h.nominalHead) {i : Items} (part : i.tokens <:+: ts) :
    i.Declares leaf type (i.declarations.map Declaration.member) := by
  induction i with
  | nil => exact .nil
  | semicolon mark rest ih => exact .semicolon (ih ((List.suffix_cons ..).isInfix.trans part))
  | leaf l rest ih =>
    exact .leaf (outside l ((List.prefix_append ..).isInfix.trans part))
      (ih ((List.suffix_append ..).isInfix.trans part))
  | nominal header opening inner closing rest _ ih =>
    obtain ⟨headerPart, innerPart, restPart⟩ := infix_nominal header opening inner closing rest
    exact .nominal (types header (headerPart.trans part))
      (declares_members leaves types (innerPart.trans part)) (ih (restPart.trans part))

end

end Items

end Grammar

end Conformance
