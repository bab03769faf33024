import Conformance.Proofs.Comparing.Machine
import Mathlib.Data.List.Forall2
import Mathlib.Data.List.Nodup

/-!
# Runs of comparisons and hashes

What names stand for after slots are bound, and what runs of one kind of step come to: a
row of guards to whether all pairs agree, a row of feeding steps to the items in order.

The two hashes feed in different words.  `Feeds` is what both words do, so each run below
is followed once.
-/

namespace Conformance.Comparing

variable {α ι : Type}

/-! ## Literals -/

theorem literalChars_escape (cs : List Char) :
    literalChars (cs.flatMap escapeLiteralChar ++ ['"']) = some cs := by
  induction cs with
  | nil => rfl
  | cons c cs ih =>
    rw [List.flatMap_cons, List.append_assoc, escapeLiteralChar]
    split
    next same =>
      subst same
      simp [literalChars, ih]
    next notSlash =>
      split
      next same =>
        subst same
        simp [literalChars, ih]
      next notQuote =>
        simp [literalChars, ih, notSlash, notQuote]

/-- A text is what its literal stands for. -/
theorem literal?_stringLiteral (cs : List Char) : literal? (stringLiteral cs) = some cs := by
  simp only [literal?, stringLiteral, String.toList_ofList, List.cons_append]
  exact literalChars_escape cs

/-! ## Looking up -/

theorem lookup_of_mem {β : Type} {entries : List (String × β)} (rest : List (String × β))
    {name : String} {b : β} (nodup : (entries.map Prod.fst).Nodup) (mem : (name, b) ∈ entries) :
    (entries ++ rest).lookup name = some b := by
  induction entries with
  | nil => cases mem
  | cons entry entries ih =>
    obtain ⟨first, others⟩ := List.nodup_cons.mp nodup
    rw [List.cons_append, List.lookup_cons]
    rcases List.mem_cons.mp mem with rfl | later
    · simp
    · have ne : name ≠ entry.1 := by
        rintro rfl
        exact first (List.mem_map.mpr ⟨(entry.1, b), later, rfl⟩)
      rw [beq_false_of_ne ne]
      exact ih others later

/-- The values of a list are found under their names. -/
theorem lookup_of_mem_zip {β : Type} {entries : List (String × β)} {name : ι → String}
    {is : List ι} (named : entries.map Prod.fst = is.map name) (nodup : (is.map name).Nodup)
    {i : ι} {b : β} (mem : (i, b) ∈ is.zip (entries.map Prod.snd)) :
    entries.lookup (name i) = some b := by
  have entry : (name i, b) ∈ entries := by
    rw [← List.zip_unzip entries, List.unzip_eq_map, named, List.zip_map_left]
    exact List.mem_map.mpr ⟨(i, b), mem, rfl⟩
  have found := lookup_of_mem [] (named ▸ nodup) entry
  rwa [List.append_nil] at found

theorem lookup_of_not_mem {β : Type} {entries rest : List (String × β)} {name : String}
    (other : name ∉ entries.map Prod.fst) : (entries ++ rest).lookup name = rest.lookup name := by
  induction entries with
  | nil => rfl
  | cons entry entries ih =>
    rw [List.map_cons, List.mem_cons, not_or] at other
    rw [List.cons_append, List.lookup_cons, beq_false_of_ne other.1]
    exact ih other.2

theorem find?_of_mem {arms : List Arm} (nodup : (arms.map fun arm => arm.pattern.name).Nodup)
    {arm : Arm} (mem : arm ∈ arms) :
    (arms.find? fun a => a.pattern.name == arm.pattern.name) = some arm := by
  induction arms with
  | nil => cases mem
  | cons a arms ih =>
    obtain ⟨first, others⟩ := List.nodup_cons.mp nodup
    rcases List.mem_cons.mp mem with rfl | later
    · simp
    · have ne : a.pattern.name ≠ arm.pattern.name := by
        intro same
        exact first (List.mem_map.mpr ⟨arm, later, same.symm⟩)
      rw [List.find?_cons_of_neg (by simpa using ne)]
      exact ih others later

/-! ## What names stand for -/

/-- Names stand for components, one by one. -/
def Reads (s : State α) (name : ι → String) (is : List ι) (as : List α) : Prop :=
  List.Forall₂ (fun i a => s.component? (name i) = some a) is as

/-- Names are locals for components, one by one. -/
def Holds (s : State α) (name : ι → String) (is : List ι) (as : List α) : Prop :=
  List.Forall₂ (fun i a => s.locals.lookup (name i) = some (.component a)) is as

theorem Holds.reads {s : State α} {name : ι → String} {is : List ι} {as : List α}
    (holds : Holds s name is as) : Reads s name is as :=
  holds.imp fun i a here => by rw [State.component?, here]

/-- A component is fed as an item. -/
theorem State.item?_of_component? {p : Program α} {s : State α} {name : String} {a : α}
    (h : s.component? name = some a) : s.item? p name = some (.component a) := by
  unfold item?
  split
  next notLocal self =>
    rw [component?, notLocal, self] at h
    cases h
  next => rw [h, Option.map_some]

theorem reads_iff {s : State α} {name : ι → String} {is : List ι} {as : List α} :
    Reads s name is as ↔ is.length = as.length ∧
      ∀ i a, (i, a) ∈ is.zip as → s.component? (name i) = some a := by
  rw [Reads, List.forall₂_iff_zip]

/-- Fields stand for their components where no local hides them. -/
theorem reads_fields {s : State α} {components : List (String × α)} {name : ι → String}
    {is : List ι} (named : components.map Prod.fst = is.map name) (nodup : (is.map name).Nodup)
    (self : s.self? = some (.product components))
    (free : ∀ i ∈ is, s.locals.lookup (name i) = none) :
    Reads s name is (components.map Prod.snd) := by
  refine reads_iff.mpr ⟨by simpa using (congrArg List.length named).symm, fun i a mem => ?_⟩
  have found := lookup_of_mem_zip named nodup mem
  simp only [State.component?, free i (List.of_mem_zip mem).1, self, Value.field?, found]

/-- Behind the name of a local and a dot, fields stand for the components of the local. -/
theorem reads_dotted {s : State α} {components : List (String × α)} {name : ι → String}
    {is : List ι} (named : components.map Prod.fst = is.map name) (nodup : (is.map name).Nodup)
    (owner path : String) (dotted : path = owner ++ ".") (plain : '.' ∉ owner.toList)
    (self : s.self? = none)
    (here : s.locals.lookup owner = some (.value (.product components)))
    (free : ∀ n ∈ s.locals.map Prod.fst, '.' ∉ n.toList) :
    Reads s (fun i => path ++ name i) is (components.map Prod.snd) := by
  subst dotted
  refine reads_iff.mpr ⟨by simpa using (congrArg List.length named).symm, fun i a mem => ?_⟩
  have found := lookup_of_mem_zip named nodup mem
  have chars : (owner ++ "." ++ name i).toList = owner.toList ++ '.' :: (name i).toList := by
    simp
  have notLocal : s.locals.lookup (owner ++ "." ++ name i) = none := by
    rw [List.lookup_eq_none_iff]
    intro entry mem
    refine bne_iff_ne.mpr fun same => free entry.1 (List.mem_map_of_mem mem) ?_
    rw [← same, chars]
    simp
  have stays : ∀ c ∈ owner.toList, (c != '.') = true := by
    intro c mem
    exact bne_iff_ne.mpr fun same => plain (same ▸ mem)
  have front : (owner ++ "." ++ name i).toList.takeWhile (· != '.') = owner.toList := by
    rw [chars, List.takeWhile_append_of_pos stays]
    simp
  have back : (owner ++ "." ++ name i).toList.dropWhile (· != '.') = '.' :: (name i).toList := by
    rw [chars, List.dropWhile_append_of_pos stays]
    simp
  simp only [State.component?, notLocal, self, State.fieldOfLocal?, front, back,
    String.ofList_toList, here, List.tail_cons, Value.field?, found]

/-- The state with slots bound to names. -/
def State.bound (s : State α) (names : List String) (as : List α) : State α :=
  { s with locals := names.zip (as.map .component) ++ s.locals }

theorem State.bindAll_of_length {s : State α} {names : List String} {as : List α}
    (length : names.length = as.length) : s.bindAll names as = some (s.bound names as) := by
  rw [bindAll, if_pos (.inr length)]
  rfl

section
variable {s : State α} {before : String} {slots : List Slot} {as : List α}

theorem names_bound (length : slots.length = as.length) :
    (((slots.map (Variant.boundName before)).zip (as.map Local.component)).map Prod.fst) =
      slots.map (Variant.boundName before) :=
  List.map_fst_zip (by simp [length])

/-- Other names stand for what they stood for. -/
theorem lookup_bound (length : slots.length = as.length) {name : String}
    (other : ∀ slot ∈ slots, Variant.boundName before slot ≠ name) :
    (s.bound (slots.map (Variant.boundName before)) as).locals.lookup name =
      s.locals.lookup name := by
  refine lookup_of_not_mem ?_
  rw [names_bound length, List.mem_map]
  rintro ⟨slot, mem, same⟩
  exact other slot mem same

/-- A bound slot has no name that begins with another character than its prefix. -/
theorem boundName_ne_of_head {c : Char} (starts : before.toList.head? = some c) {name : String}
    (other : name.toList.head? ≠ some c) (slot : Slot) : Variant.boundName before slot ≠ name := by
  rintro rfl
  apply other
  rw [Variant.boundName, String.toList_append, List.head?_append, starts]
  rfl

/-- The names that slots are bound to are locals for them. -/
theorem holds_bound (s : State α) (before : String) (length : slots.length = as.length)
    (labels : (slots.map Slot.label).Nodup) :
    Holds (s.bound (slots.map (Variant.boundName before)) as) (Variant.boundName before)
      slots as := by
  have nodup : (slots.map (Variant.boundName before)).Nodup := by
    have same : slots.map (Variant.boundName before) =
        (slots.map Slot.label).map (before ++ ·) := by
      rw [List.map_map]
      rfl
    rw [same]
    exact labels.map fun a b eq => by simpa using eq
  rw [← names_bound length] at nodup
  refine List.forall₂_iff_zip.mpr ⟨length, fun {slot a} mem => lookup_of_mem s.locals nodup ?_⟩
  rw [List.zip_map, List.mem_map]
  exact ⟨(slot, a), mem, rfl⟩

/-- Slots under one prefix are not hidden by slots under another. -/
theorem Holds.bound {other : String} {more : List Slot} {bs : List α}
    (holds : Holds s (Variant.boundName before) slots as) (length : more.length = bs.length)
    (apart : ∀ a b : Slot, Variant.boundName other a ≠ Variant.boundName before b) :
    Holds (s.bound (more.map (Variant.boundName other)) bs) (Variant.boundName before)
      slots as := by
  refine holds.imp fun slot a here => ?_
  rw [lookup_bound length fun m _ => apart m slot]
  exact here

end

/-! ## Guards -/

/-- Whether components agree, one by one. -/
def allEqual (equal : α → α → Bool) (as bs : List α) : Bool := (List.zipWith equal as bs).all id

theorem allEqual_iff {equal : α → α → Bool} {as bs : List α} (length : as.length = bs.length) :
    allEqual equal as bs = true ↔ List.Forall₂ (fun a b => equal a b = true) as bs := by
  induction as generalizing bs with
  | nil =>
    cases bs with
    | nil => simp [allEqual]
    | cons => cases length
  | cons a as ih =>
    cases bs with
    | nil => cases length
    | cons b bs =>
      have others := ih (Nat.succ.inj length)
      rw [allEqual] at others
      simp [allEqual, others]

section
variable {p : Program α} {s t : State α} {left right : ι → String} {is : List ι} {as bs : List α}

theorem mapM_verdicts (lefts : Reads s left is as) (rights : Reads s right is bs) :
    (is.map fun i => (left i, right i)).mapM (fun (l, r) => do
        pure (p.equal (← s.component? l) (← s.component? r))) =
      some (List.zipWith p.equal as bs) := by
  induction lefts generalizing bs with
  | nil =>
    cases rights
    rfl
  | cons here _ ih =>
    cases rights with
    | cons there rights =>
      rw [List.map_cons, List.mapM_cons, ih rights]
      simp only [here, there]
      rfl

/-- A chain of comparisons comes to whether all of them hold. -/
theorem runStep_returnEqual (lefts : Reads s left is as) (rights : Reads s right is bs) :
    runStep p s (.returnEqual (is.map fun i => (left i, right i))) =
      some (.verdict (allEqual p.equal as bs)) := by
  rw [runStep, mapM_verdicts lefts rights]
  rfl

theorem runSteps_cons {step : Step} (h : runStep p s step = some (.onward t))
    (steps : List Step) : runSteps p s (step :: steps) = runSteps p t steps := by
  rw [runSteps, h]
  rfl

theorem runSteps_verdict {step : Step} {same : Bool} (h : runStep p s step = some (.verdict same))
    (steps : List Step) : runSteps p s (step :: steps) = some (.verdict same) := by
  rw [runSteps, h]
  rfl

/-- A row of guards lets pass what agrees in each of them. -/
theorem runSteps_requireEqual (lefts : Reads s left is as) (rights : Reads s right is bs) :
    runSteps p s (is.map fun i => .requireEqual (left i) (right i)) =
      some (guarded (allEqual p.equal as bs) s) := by
  induction lefts generalizing bs with
  | nil =>
    cases rights
    rfl
  | @cons i a _ as here _ ih =>
    cases rights with
    | @cons _ b _ bs there rights =>
      have step : runStep p s (.requireEqual (left i) (right i)) =
          some (guarded (p.equal a b) s) := by
        simp only [runStep, here, there]
        rfl
      rw [List.map_cons]
      cases same : p.equal a b with
      | true =>
        rw [same] at step
        rw [runSteps_cons step, ih rights]
        simp [allEqual, same]
      | false =>
        rw [same] at step
        rw [runSteps_verdict step]
        simp [allEqual, same, guarded]

end

/-! ## Feeding -/

/-- Steps that feed what a name stands for to a hash. -/
def Feeds (p : Program α) (hash : String) (feed : String → Step) : Prop :=
  ∀ (s : State α) (name : String), s.locals.lookup hash = some .hash →
    runStep p s (feed name) = (s.item? p name).map fun item => .onward (s.feed item)

theorem feeds_feed (p : Program α) : Feeds p hasherName .feed := by
  intro s name here
  simp [runStep, State.feedTo, here, Function.comp_def]

theorem feeds_mix (p : Program α) :
    Feeds p hashName fun name => .mix p.names.combine name p.names.property := by
  intro s name here
  simp [runStep, State.feedTo, here, Function.comp_def]

/-- A row of feeding steps feeds what the names stand for, in order. -/
theorem runSteps_feeds {p : Program α} {s : State α} {hash : String} {feed : String → Step}
    (feeds : Feeds p hash feed) (here : s.locals.lookup hash = some .hash) {name : ι → String}
    {is : List ι} {as : List α} (reads : Reads s name is as) :
    runSteps p s (is.map fun i => feed (name i)) =
      some (.onward { s with items := s.items ++ as.map .component }) := by
  induction is generalizing s as with
  | nil =>
    cases reads
    simp [runSteps]
  | cons i is ih =>
    cases reads with
    | @cons _ a _ as first reads =>
      have step := feeds s (name i) here
      rw [State.item?_of_component? first, Option.map_some] at step
      -- What names stand for does not depend on what has been fed.
      have later : Reads (s.feed (.component a)) name is as := reads
      have rest := ih (s := s.feed (.component a)) here later
      rw [List.map_cons, runSteps_cons step, rest]
      simp [State.feed]

/-! ## Bodies -/

section
variable {p : Program α} {s t : State α}

theorem runBody_cons {statement : Statement} (h : runStatement p s statement = some (.onward t))
    (statements : List Statement) :
    runBody p s (statement :: statements) = runBody p t statements := by
  rw [runBody, h]
  rfl

theorem runBody_verdict {statement : Statement} {same : Bool}
    (h : runStatement p s statement = some (.verdict same)) (statements : List Statement) :
    runBody p s (statement :: statements) = some (.verdict same) := by
  rw [runBody, h]
  rfl

theorem runBody_append (first : List Statement) (statements : List Statement) :
    runBody p s (first ++ statements) =
      (runBody p s first).bind (·.andThen fun t => runBody p t statements) := by
  induction first generalizing s with
  | nil => rfl
  | cons statement first ih =>
    rw [List.cons_append, runBody, runBody]
    cases runStatement p s statement with
    | none => rfl
    | some o =>
      cases o with
      | onward t => exact ih
      | verdict => rfl
      | hash => rfl

theorem runBody_steps (steps : List Step) :
    runBody p s (steps.map .step) = runSteps p s steps := by
  induction steps generalizing s with
  | nil => rfl
  | cons step steps ih =>
    rw [List.map_cons, runBody, runSteps, runStatement]
    cases runStep p s step with
    | none => rfl
    | some o =>
      cases o with
      | onward t => exact ih
      | verdict => rfl
      | hash => rfl

/-! ## Switches over payloads -/

/-- The arms of a switch over payloads. -/
def payloadArms (variants : List Variant) (before : String) (body : Variant → List Step) :
    List Arm :=
  (variants.filter Variant.hasPayload).map fun v => ⟨v.pattern before, body v⟩

variable {variants : List Variant} {v : Variant} {subject before : String} {as : List α}
  {body : Variant → List Step}

/-- Without a payload, the variant at hand passes the switch by. -/
theorem runBody_payloadSwitch_none (names : (variants.map Variant.name).Nodup) (mem : v ∈ variants)
    (without : v.hasPayload = false) (here : s.value? subject = some (.sum v.name as)) :
    runBody p s (Equality.payloadSwitch subject variants before body) = some (.onward s) := by
  have fewer : (variants.filter Variant.hasPayload).length < variants.length := by
    refine Nat.lt_of_le_of_ne (List.length_filter_le ..) fun same => ?_
    have all := List.length_filter_eq_length_iff.mp same v mem
    rw [without] at all
    cases all
  have noArm : (payloadArms variants before body).find?
      (fun arm => arm.pattern.name == v.name) = none := by
    rw [payloadArms, List.find?_map, Option.map_eq_none_iff, List.find?_eq_none]
    intro w carrying same
    obtain ⟨wMem, wPayload⟩ := List.mem_filter.mp carrying
    have sameVariant : w = v := List.inj_on_of_nodup_map names wMem mem (beq_iff_eq.mp same)
    rw [sameVariant, without] at wPayload
    cases wPayload
  rw [Equality.payloadSwitch]
  split
  · rfl
  · refine (runBody_cons ?_ []).trans rfl
    rw [payloadArms] at noArm
    simp only [runStatement, here, noArm, fewer, decide_true, if_true]

/-- With a payload, the variant at hand has an arm in the switch. -/
theorem runBody_payloadSwitch_some (names : (variants.map Variant.name).Nodup) (mem : v ∈ variants)
    (carries : v.hasPayload = true) (here : s.value? subject = some (.sum v.name as))
    (length : v.slots.length = as.length) :
    runBody p s (Equality.payloadSwitch subject variants before body) =
      (runSteps p (s.bound (v.boundNames before) as) (body v)).bind
        (·.andThen fun t => some (.onward { t with locals := s.locals })) := by
  have carrying : v ∈ variants.filter Variant.hasPayload := List.mem_filter.mpr ⟨mem, carries⟩
  have arm : (payloadArms variants before body).find? (fun arm => arm.pattern.name == v.name) =
      some ⟨v.pattern before, body v⟩ := by
    refine @find?_of_mem (payloadArms variants before body) ?_ ⟨v.pattern before, body v⟩
      (List.mem_map_of_mem carrying)
    rw [payloadArms, List.map_map]
    exact names.sublist (List.Sublist.map _ List.filter_sublist)
  rw [Equality.payloadSwitch, if_neg (by simpa using List.ne_nil_of_mem carrying)]
  rw [payloadArms] at arm
  have fits : (v.boundNames before).length = as.length := by
    rw [Variant.boundNames, List.length_map, length]
  have armRuns : runArm p s as ⟨v.pattern before, body v⟩ =
      (runSteps p (s.bound (v.boundNames before) as) (body v)).bind
        (·.andThen fun t => some (.onward { t with locals := s.locals })) := by
    rw [runArm, Variant.pattern, State.bindAll_of_length fits]
    rfl
  have runs : runStatement p s (.switch subject ((variants.filter Variant.hasPayload).map
      fun v => ⟨v.pattern before, body v⟩)
      (decide ((variants.filter Variant.hasPayload).length < variants.length))) =
      (runSteps p (s.bound (v.boundNames before) as) (body v)).bind
        (·.andThen fun t => some (.onward { t with locals := s.locals })) := by
    simp only [runStatement, here, arm, armRuns]
  rw [runBody, runs]
  cases runSteps p (s.bound (v.boundNames before) as) (body v) with
  | none => rfl
  | some o => cases o <;> rfl

end

/-! ## Whole functions -/

namespace Program

variable {p : Program α} {body : List Statement} {a b : Value α}

theorem equals_of_run {type : String} {same : Bool} (code : p.body? (.equals type) = some body)
    (run : runBody p ⟨none, [("lhs", .value a), ("rhs", .value b)], []⟩ body =
      some (.verdict same)) : p.equals type a b = some same := by
  simp only [equals, Method.parameters, List.zip_cons_cons, List.zip_nil_left, code, run, bind,
    Option.bind]

theorem hash_of_run {s : State α} (code : p.body? .hash = some body)
    (run : runBody p ⟨some a, [(hasherName, .hash)], []⟩ body = some (.onward s)) :
    p.hash a = some s.items := by
  have start : Method.hash.parameters.zip [Local.hash] = [(hasherName, (.hash : Local α))] := rfl
  simp only [hash, start, code, run, bind, Option.bind]

theorem stableHash_of_run {items : List (Item α)}
    (code : p.body? (.stableHash p.names.property) = some body)
    (run : runBody p ⟨some a, [], []⟩ body = some (.hash items)) :
    p.stableHash a = some items := by
  simp only [stableHash, code, run, bind, Option.bind]

/-- Around what mixes items in, a stable hash is started and returned. -/
theorem stableHash_of_mixing {mixing : List Statement} {s : State α}
    (code : p.body? (.stableHash p.names.property) = some (Equality.stableBody mixing))
    (run : runBody p ⟨some a, [(hashName, .hash)], []⟩ mixing = some (.onward s))
    (opened : s.locals.lookup hashName = some .hash) : p.stableHash a = some s.items := by
  refine stableHash_of_run code ?_
  have starts : runStatement p ⟨some a, [], []⟩ (.step .startHash) =
      some (.onward ⟨some a, [(hashName, .hash)], []⟩) := rfl
  have returns : runBody p s [.step .blank, .step .returnHash] = some (.hash s.items) := by
    have blank : runStatement p s (.step .blank) = some (.onward s) := rfl
    have result : runStatement p s (.step .returnHash) = some (.hash s.items) := by
      simp only [runStatement, runStep, opened]
    rw [runBody_cons blank, runBody, result]
    rfl
  rw [Equality.stableBody, List.cons_append, runBody_cons starts, runBody_append, run]
  exact returns

end Program

end Conformance.Comparing
