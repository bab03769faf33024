import Conformance.Proofs.Coding.Keys
import Mathlib.Data.List.Forall2

/-!
# Runs of generated code

What the stores hold after a value is put, what the locals hold after slots are bound, and
how a run of several steps comes of the runs of each.  The values of the slots of a variant
are the locals of its slots (`Bound`), and the arms of both directions rest on this.
-/

namespace Conformance.Coding

variable {α : Type}

/-! ## Stores -/

@[simp] theorem put_self {β : Type} (s : String → Option β) (key : String) (b : β) :
    put s key b key = some b := by
  simp [put]

theorem put_of_ne {β : Type} {s : String → Option β} {key k : String} {b : β} (ne : k ≠ key) :
    put s key b k = s k := by
  simp [put, ne]

theorem put_put {β : Type} (s : String → Option β) (key : String) (b c : β) :
    put (put s key b) key c = put s key c := by
  funext k
  simp only [put]
  split <;> rfl

theorem put_eq_self {β : Type} {s : String → Option β} {key : String} {b : β}
    (h : s key = some b) : put s key b = s := by
  funext k
  simp only [put]
  split
  next same => rw [same, h]
  next => rfl

/-- Values put under the keys by place, from a place on. -/
def placed : (i : Nat) → List (Typed α) → Slots α → Slots α
  | _, [], slots => slots
  | i, v :: values, slots => placed (i + 1) values (put slots (positionalKey i) v)

/-- What is under other keys stays. -/
theorem placed_other {i : Nat} {values : List (Typed α)} {slots : Slots α} {key : String}
    (other : ∀ n < values.length, positionalKey (i + n : Nat) ≠ key) :
    placed i values slots key = slots key := by
  induction values generalizing i slots with
  | nil => rfl
  | cons v values ih =>
    have first := other 0 (by simp)
    rw [Nat.add_zero] at first
    rw [placed, ih, put_of_ne first.symm]
    intro n bound
    have later := other (n + 1) (by simpa using bound)
    rwa [show i + 1 + n = i + (n + 1) by omega]

/-- The value of each place is under its key. -/
theorem placed_self {i n : Nat} {values : List (Typed α)} {slots : Slots α}
    (bound : n < values.length) :
    placed i values slots (positionalKey (i + n : Nat)) = some values[n] := by
  induction values generalizing i n slots with
  | nil => cases bound
  | cons v values ih =>
    cases n with
    | zero =>
      rw [placed, placed_other]
      · exact put_self ..
      · intro m _ same
        have := positionalKey_injective same
        omega
    | succ n =>
      have later := @ih (i + 1) n (put slots (positionalKey i) v) (by simpa using bound)
      rw [show i + 1 + n = i + (n + 1) by omega] at later
      exact later

/-- The entry of a payload. -/
def Entry.ofPayload : List (Typed α) → Entry α
  | [] => .nil
  | [v] => .value v
  | values => .nested (placed 0 values fun _ => none)

/-! ## Locals -/

theorem lookup_zip {names : List String} {values : List (Typed α)} {rest : List (String × Local α)}
    (nodup : names.Nodup) {name : String} {v : Typed α} (mem : (name, v) ∈ names.zip values) :
    (names.zip (values.map Local.value) ++ rest).lookup name = some (.value v) := by
  induction names generalizing values with
  | nil => simp at mem
  | cons n names ih =>
    cases values with
    | nil => simp at mem
    | cons w values =>
      rw [List.zip_cons_cons, List.mem_cons] at mem
      rw [List.map_cons, List.zip_cons_cons, List.cons_append, List.lookup_cons]
      rcases mem with same | later
      · cases same
        simp
      · have ne : name ≠ n := by
          rintro rfl
          exact (List.nodup_cons.mp nodup).1 (List.of_mem_zip later).1
        rw [beq_false_of_ne ne]
        exact ih (List.nodup_cons.mp nodup).2 later

theorem lookup_zip_other {names : List String} {values : List (Typed α)}
    {rest : List (String × Local α)} {name : String} (other : name ∉ names) :
    (names.zip (values.map Local.value) ++ rest).lookup name = rest.lookup name := by
  induction names generalizing values with
  | nil => rfl
  | cons n names ih =>
    cases values with
    | nil => rfl
    | cons w values =>
      rw [List.map_cons, List.zip_cons_cons, List.cons_append, List.lookup_cons,
        beq_false_of_ne (by rintro rfl; simp at other)]
      exact ih fun mem => other (.tail _ mem)

/-- The values of slots are what their local names stand for. -/
def Bound (s : State α) (slots : List Slot) (values : List (Typed α)) : Prop :=
  List.Forall₂ (fun slot v => s.valueOf (Variant.boundName payloadPrefix slot) = .ok v)
    slots values

/-- No slot has the name of a local that is no slot. -/
theorem boundName_ne (slot : Slot) {name : String} (other : name.toList.head? ≠ some 'p') :
    Variant.boundName payloadPrefix slot ≠ name := by
  rintro rfl
  simp [Variant.boundName, payloadPrefix] at other

theorem bound_bindAll (s : State α) {slots : List Slot} {values : List (Typed α)}
    (labels : (slots.map Slot.label).Nodup) (length : slots.length = values.length) :
    Bound (s.bindAll (slots.map (Variant.boundName payloadPrefix)) values) slots values := by
  have names : (slots.map (Variant.boundName payloadPrefix)).Nodup := by
    have same : slots.map (Variant.boundName payloadPrefix) =
        (slots.map Slot.label).map (payloadPrefix ++ ·) := by
      rw [List.map_map]
      rfl
    rw [same]
    exact labels.map fun a b eq => by simpa using eq
  refine List.forall₂_iff_zip.mpr ⟨length, fun {slot v} mem => ?_⟩
  have here : (Variant.boundName payloadPrefix slot, v) ∈
      (slots.map (Variant.boundName payloadPrefix)).zip values := by
    rw [List.zip_map_left, List.mem_map]
    exact ⟨(slot, v), mem, rfl⟩
  rw [State.valueOf, State.bindAll, lookup_zip names here]

theorem lookup_bindAll (s : State α) (slots : List Slot) (values : List (Typed α)) {name : String}
    (other : name.toList.head? ≠ some 'p') :
    (s.bindAll (slots.map (Variant.boundName payloadPrefix)) values).locals.lookup name =
      s.locals.lookup name := by
  refine lookup_zip_other fun mem => ?_
  obtain ⟨slot, -, eq⟩ := List.mem_map.mp mem
  exact boundName_ne slot other eq

/-- Values of slots are not hidden by a local that is no slot. -/
theorem Bound.bind {s : State α} {slots : List Slot} {values : List (Typed α)}
    (bound : Bound s slots values) {name : String} (other : name.toList.head? ≠ some 'p')
    (l : Local α) : Bound (s.bind name l) slots values := by
  refine bound.imp fun slot v here => ?_
  have ne : (Variant.boundName payloadPrefix slot == name) = false :=
    beq_false_of_ne (boundName_ne slot other)
  simpa [State.valueOf, State.bind, List.lookup_cons, ne] using here

/-! ## Runs -/

section
variable {e : Extension} {s t : State α}

theorem runSteps_cons {step : Step} (h : runStep e s step = .ok t) (steps : List Step) :
    runSteps e s (step :: steps) = runSteps e t steps := by
  rw [runSteps, h]
  rfl

theorem runSteps_append {first : List Step} (h : runSteps e s first = .ok t) (steps : List Step) :
    runSteps e s (first ++ steps) = runSteps e t steps := by
  induction first generalizing s with
  | nil =>
    cases h
    rfl
  | cons step first ih =>
    cases here : runStep e s step with
    | error fault =>
      rw [runSteps, here] at h
      cases h
    | ok u =>
      rw [runSteps_cons here] at h
      rw [List.cons_append, runSteps_cons here, ih h]

theorem runBody_cons {statement : Statement} (h : runStatement e s statement = .ok t)
    (statements : List Statement) :
    runBody e s (statement :: statements) = runBody e t statements := by
  rw [runBody, h]
  rfl

theorem runBody_thrown {statement : Statement} (h : runStatement e s statement = .error .thrown)
    (statements : List Statement) :
    runBody e s (statement :: statements) = .error .thrown := by
  rw [runBody, h]
  rfl

/-- An arm that fits a value does its steps, and its locals end with it. -/
theorem runArm_ok {arm : Arm} {values : List (Typed α)}
    (fits : arm.pattern.bound = [] ∨ arm.pattern.bound.length = values.length)
    (run : runSteps e (s.bindAll arm.pattern.bound values) arm.body = .ok t) :
    runArm e s values arm = .ok { t with locals := s.locals } := by
  rw [runArm, if_pos fits, run]
  rfl

theorem runStatement_object {subject : String} {arms : List Arm} {otherwise : Bool}
    {c : CaseValue α} {arm : Arm} (here : s.locals.lookup subject = some (.object c))
    (found : armOf? arms c.name = some arm) :
    runStatement e s (.switch subject arms otherwise) = runArm e s c.slots arm := by
  simp only [runStatement, here, found, Option.elim_some]

theorem runStatement_key {subject : String} {arms : List Arm} {otherwise : Bool} {k : String}
    {arm : Arm} (here : s.locals.lookup subject = some (.key k))
    (found : armOf? arms k = some arm) :
    runStatement e s (.switch subject arms otherwise) = runArm e s [] arm := by
  simp only [runStatement, here, found, Option.elim_some]

/-- The arm of a variant is found by its name. -/
theorem armOf?_map {variants : List Variant} (apart : ToldApart variants) {arm : Variant → Arm}
    (named : ∀ w, (arm w).pattern.name = w.name) {v : Variant} (mem : v ∈ variants) :
    armOf? (variants.map arm) v.name = some (arm v) := by
  have found := apart.find?_name mem
  rw [armOf?, List.find?_map]
  simp only [Function.comp_def, named, found, Option.map_some]

end

end Conformance.Coding
