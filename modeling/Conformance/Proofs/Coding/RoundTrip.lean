import Conformance.Proofs.Code.Shown
import Conformance.Proofs.Coding.Runs

/-!
# Coding an enumeration and back

Encoding a value of an enumeration leaves one entry in the store, under the key of its
variant (`encode_ofVariants`).  Decoding a store with this one entry makes the value
again, with a label for each slot that has one of its own (`decode_ofVariants`), and it
throws if there is any other number of known keys (`decode_thrown`).

Both arms of a variant go by its slots: none, one, or several.
-/

namespace Conformance.Coding

variable {α : Type}

/-! ## Encoding -/

section
variable {e : Extension} {s : State α} {v : Variant} {values : List (Typed α)}

/-- Each slot of several is written to the store below, under its place. -/
theorem runSteps_writeSlots {slots : List Slot} {below : String} {keys : List String}
    (bound : Bound s slots values) (i : Nat)
    (container : s.locals.lookup Store.inner.name = some (.innerWriter below keys))
    {entries : Slots α} (opened : s.store below = some (.nested entries))
    (known : ∀ n < slots.length, positionalKey (i + n : Nat) ∈ keys) :
    ∃ s', runSteps e s ((slots.zipIdx i).map fun (slot, i) =>
        .encode .inner (Variant.boundName payloadPrefix slot) (positionalKey i)) = .ok s' ∧
      s'.store = put s.store below (.nested (placed i values entries)) := by
  induction slots generalizing s values i entries with
  | nil =>
    cases bound
    exact ⟨s, rfl, (put_eq_self opened).symm⟩
  | cons slot slots ih =>
    cases bound with
    | @cons _ w _ values value others =>
      have first := known 0 (by simp)
      rw [Nat.add_zero] at first
      let written : State α :=
        { s with store := put s.store below (.nested (put entries (positionalKey i) w)) }
      have step : runStep e s (.encode .inner (Variant.boundName payloadPrefix slot)
          (positionalKey i)) = .ok written := by
        simp only [runStep, value, bind, Except.bind, State.writeInner, container, opened, first,
          if_true]
        rfl
      have later : ∀ n < slots.length, positionalKey (i + 1 + n : Nat) ∈ keys := by
        intro n bound
        rw [show i + 1 + n = i + (n + 1) by omega]
        exact known (n + 1) (by simpa using bound)
      obtain ⟨s', run, store⟩ := ih (s := written) others (i + 1) container (put_self ..) later
      refine ⟨s', ?_, ?_⟩
      · simp only [List.zipIdx_cons, List.map_cons, runSteps, step, bind, Except.bind]
        exact run
      · rw [store, placed, put_put]

/-- A declared key of the outer store is written. -/
theorem write_known {keys : List String} {key : String} (entry : Entry α)
    (container : s.locals.lookup Store.outer.name = some (.writer keys)) (known : key ∈ keys) :
    s.write key entry = .ok { s with store := put s.store key entry } := by
  simp only [State.write, container, known, if_true]

/-- The arm of a variant writes its payload under its name. -/
theorem runSteps_encode {keys : List String}
    (container : s.locals.lookup Store.outer.name = some (.writer keys)) (known : v.name ∈ keys)
    (declared : 2 ≤ v.arity → e.keyCases? v.keysName = some (positionalKeys v.arity))
    (bound : Bound s v.slots values) :
    ∃ s', runSteps e s v.encodeSteps = .ok s' ∧
      s'.store = put s.store v.name (.ofPayload values) := by
  unfold Variant.encodeSteps
  rw [Variant.arity] at declared
  cases slots : v.slots with
  | nil =>
    rw [slots] at bound
    cases bound
    have step : runStep e s (.encodeNil v.name) = _ := write_known .nil container known
    exact ⟨_, runSteps_cons step [], rfl⟩
  | cons slot others =>
    rw [slots] at bound declared
    cases others with
    | nil =>
      cases bound with
      | @cons _ w _ _ value rest =>
        cases rest
        have step : runStep e s (.encode .outer (Variant.boundName payloadPrefix slot) v.name) =
            .ok { s with store := put s.store v.name (.value w) } := by
          simp only [runStep, value, bind, Except.bind]
          exact write_known (.value w) container known
        exact ⟨_, runSteps_cons step [], rfl⟩
    | cons second others =>
      have several : 2 ≤ (slot :: second :: others).length := by simp
      let opened : State α :=
        { s with store := put s.store v.name (.nested fun _ => none) }.bind Store.inner.name
          (.innerWriter v.name (positionalKeys (slot :: second :: others).length))
      have step : runStep e s (.openInnerWriting v.keysName v.name) = .ok opened := by
        simp only [runStep, declared several, write_known _ container known, bind, Except.bind]
        rfl
      have boundOpened : Bound opened (slot :: second :: others) values :=
        Bound.bind bound (by decide) _
      have places : ∀ n < (slot :: second :: others).length, positionalKey (0 + n : Nat) ∈
          positionalKeys (slot :: second :: others).length := by
        intro n less
        exact mem_positionalKeys.mpr ⟨n, less, by rw [Nat.zero_add]⟩
      obtain ⟨s', run, store⟩ := runSteps_writeSlots (e := e) boundOpened 0
        (List.lookup_cons_self ..) (put_self ..) places
      refine ⟨s', (runSteps_cons step _).trans run, ?_⟩
      rw [store]
      cases bound with
      | cons _ rest =>
        cases rest
        exact put_put ..

/-- The values of slots have the types of the slots. -/
def HaveTypes (slots : List Slot) (values : List (Typed α)) : Prop :=
  values.map Typed.type = slots.map Slot.type

theorem HaveTypes.length {slots : List Slot} (typed : HaveTypes slots values) :
    slots.length = values.length := by
  have lengths := congrArg List.length typed
  simpa using lengths.symm

/-- Encoding leaves the payload of a value under the key of its variant, and nothing else. -/
theorem encode_ofVariants (type : String) {variants : List Variant} (isPublic : Bool)
    (apart : ToldApart variants) (mem : v ∈ variants) (typed : HaveTypes v.slots values) :
    encode (Codable.ofVariants type variants isPublic) ⟨v.name, values⟩ =
      .ok (put (fun _ => none) v.name (.ofPayload values)) := by
  let e := Codable.ofVariants type variants isPublic
  let arm (w : Variant) : Arm := ⟨w.pattern payloadPrefix, w.encodeSteps⟩
  let start : State α := ⟨[("self", .object ⟨v.name, values⟩)], fun _ => none, none⟩
  let opened := start.bind Store.outer.name (.writer (variants.map Variant.name))
  have some : variants.isEmpty = false := by
    cases variants with
    | nil => cases mem
    | cons => rfl
  have opens : runStatement e start (.step (.openWriting true)) = .ok opened := by
    simp only [runStatement, runStep, e, Codable.keyCases?_outer, if_true]
    rfl
  have found : armOf? (variants.map arm) v.name = Option.some (arm v) :=
    armOf?_map apart (fun _ => rfl) mem
  -- The arm starts with the slots bound, and the container is not hidden by them.
  have bound : Bound (opened.bindAll (v.boundNames payloadPrefix) values) v.slots values :=
    bound_bindAll opened (apart.labels v mem) typed.length
  have container : (opened.bindAll (v.boundNames payloadPrefix) values).locals.lookup
      Store.outer.name = Option.some (.writer (variants.map Variant.name)) := by
    rw [Variant.boundNames, lookup_bindAll _ _ _ (by decide)]
    exact List.lookup_cons_self ..
  obtain ⟨after, run, store⟩ := runSteps_encode (e := e) container (List.mem_map_of_mem mem)
    (fun several => Codable.keyCases?_inner type isPublic apart mem several) bound
  have arity : (v.boundNames payloadPrefix).length = values.length := by
    rw [Variant.boundNames, List.length_map, typed.length]
  have runs : runStatement e opened (.switch "self" (variants.map arm) false) =
      .ok { after with locals := opened.locals } := by
    have self : opened.locals.lookup "self" = Option.some (.object ⟨v.name, values⟩) := by
      simp [opened, start, State.bind, List.lookup_cons, Store.name]
    exact (runStatement_object self found).trans (runArm_ok (.inr arity) run)
  have body : Codable.encodeVariants variants =
      [.step (.openWriting true), .switch "self" (variants.map arm) false] := by
    simp only [Codable.encodeVariants, some]
    rfl
  simp only [encode, Codable.body?_encode, body]
  rw [runBody_cons opens, runBody_cons runs]
  exact congrArg Except.ok store

end

/-! ## Decoding -/

/-- The label that a slot is passed with: its own, if it has one. -/
def passedLabel (slot : Slot) : Option String := if slot.explicit then some slot.label else none

/-- A variant with the values of its slots, each behind the label that it is passed with. -/
def madeOf (v : Variant) (values : List (Typed α)) : Made α :=
  ⟨v.name, (v.slots.zip values).map fun p => (passedLabel p.1, p.2)⟩

section
variable {e : Extension} {s : State α} {v : Variant} {values : List (Typed α)}

theorem mapM_arguments {slots : List Slot} (bound : Bound s slots values) :
    (slots.map fun slot => (passedLabel slot, Variant.boundName payloadPrefix slot)).mapM
        (fun a => do pure (a.1, ← s.valueOf a.2)) =
      (.ok ((slots.zip values).map fun p => (passedLabel p.1, p.2)) :
        Except Fault (List (Option String × Typed α))) := by
  induction bound with
  | nil => rfl
  | cons value _ ih =>
    rw [List.map_cons, List.mapM_cons, ih]
    simp only [value]
    rfl

/-- A variant is put together from the locals of its slots. -/
theorem runStep_become (bound : Bound s v.slots values) :
    runStep e s (.become (v.construction payloadPrefix)) =
      .ok { s with made := some (madeOf v values) } := by
  have arguments : (v.construction payloadPrefix).arguments.getD [] =
      v.slots.map fun slot => (passedLabel slot, Variant.boundName payloadPrefix slot) := by
    cases payload : v.payload <;> simp [Variant.construction, Variant.slots, payload, passedLabel]
  simp only [runStep, arguments, mapM_arguments bound]
  rfl

/-- The slots of several are read from the store below, each under its place. -/
theorem mapM_slots {slots : List Slot} {keys : List String} {entries : Slots α} (i : Nat)
    (container : s.locals.lookup Store.inner.name = some (.innerReader entries keys))
    (typed : HaveTypes slots values)
    (known : ∀ n < slots.length, positionalKey (i + n : Nat) ∈ keys)
    (here : ∀ n (bound : n < values.length),
      entries (positionalKey (i + n : Nat)) = some values[n]) :
    ((slots.zipIdx i).map fun (slot, i) => (⟨Variant.boundName payloadPrefix slot, slot.type,
        positionalKey i⟩ : Decoded)).mapM (fun d => do (← s.slot d.key).at d.type) =
      (.ok values : Except Fault (List (Typed α))) := by
  induction slots generalizing values i with
  | nil =>
    have none : values = [] := List.map_eq_nil_iff.mp typed
    rw [none]
    rfl
  | cons slot slots ih =>
    cases values with
    | nil => cases typed
    | cons w values =>
      obtain ⟨type, types⟩ := List.cons_eq_cons.mp typed
      have first := here 0 (by simp)
      have firstKnown := known 0 (by simp)
      rw [Nat.add_zero] at first firstKnown
      have value : s.slot (positionalKey i) = .ok w := by
        simp only [State.slot, container, firstKnown, if_true, first]
        rfl
      have others := ih (i + 1) types
        (fun n bound => by
          rw [show i + 1 + n = i + (n + 1) by omega]
          exact known (n + 1) (by simpa using bound))
        (fun n bound => by
          rw [show i + 1 + n = i + (n + 1) by omega]
          exact here (n + 1) (by simpa using bound))
      rw [List.zipIdx_cons, List.map_cons, List.mapM_cons, others]
      simp only [value, Typed.at, type, bind, Except.bind, if_true]
      rfl

/-- A declared key of the outer store is read. -/
theorem entry_known {keys : List String} {key : String} {entry : Entry α}
    (container : s.locals.lookup Store.outer.name = some (.reader keys)) (known : key ∈ keys)
    (here : s.store key = some entry) : s.entry key = .ok entry := by
  simp only [State.entry, container, known, if_true, here]
  rfl

theorem decodedSlots_names :
    v.decodedSlots.map Decoded.name = v.slots.map (Variant.boundName payloadPrefix) := by
  have slots := List.zipIdx_map_fst 0 v.slots
  rw [Variant.decodedSlots, List.map_map]
  nth_rewrite 2 [← slots]
  rw [List.map_map]
  rfl

/-- Several slots are bound to what stands in the store below. -/
theorem runSteps_readSlots {key : String}
    (entry : s.entry key = .ok (.nested (placed 0 values fun _ => none)))
    (declared : e.keyCases? v.keysName = some (positionalKeys v.arity))
    (labels : (v.slots.map Slot.label).Nodup) (typed : HaveTypes v.slots values) :
    ∃ t, runSteps e s [.openInnerReading v.keysName key, .decodeInner v.decodedSlots] = .ok t ∧
      Bound t v.slots values := by
  let opened := s.bind Store.inner.name
    (.innerReader (placed 0 values fun _ => none) (positionalKeys v.arity))
  have opens : runStep e s (.openInnerReading v.keysName key) = .ok opened := by
    simp only [runStep, declared, entry]
    rfl
  have known : ∀ n < v.slots.length, positionalKey (0 + n : Nat) ∈ positionalKeys v.arity := by
    intro n less
    exact mem_positionalKeys.mpr ⟨n, less, by rw [Nat.zero_add]⟩
  have values' := mapM_slots (s := opened) 0 (List.lookup_cons_self ..) typed known
    fun n bound => placed_self bound
  have reads : runStep e opened (.decodeInner v.decodedSlots) =
      .ok (opened.bindAll (v.slots.map (Variant.boundName payloadPrefix)) values) := by
    simp only [runStep, decodedSlots_names]
    rw [Variant.decodedSlots, values']
    rfl
  refine ⟨_, (runSteps_cons opens _).trans (runSteps_cons reads []), ?_⟩
  exact bound_bindAll opened labels typed.length

/-- What the arm of a variant reads are the values of its slots. -/
theorem runSteps_read {keys : List String}
    (container : s.locals.lookup Store.outer.name = some (.reader keys)) (known : v.name ∈ keys)
    (declared : 2 ≤ v.arity → e.keyCases? v.keysName = some (positionalKeys v.arity))
    (labels : (v.slots.map Slot.label).Nodup) (typed : HaveTypes v.slots values)
    (here : s.store v.name = some (.ofPayload values)) :
    ∃ t, runSteps e s v.readSteps = .ok t ∧ Bound t v.slots values := by
  have entry := entry_known container known here
  rw [Variant.arity] at declared
  cases slots : v.slots with
  | nil =>
    rw [slots] at typed
    have none : values = [] := List.map_eq_nil_iff.mp typed
    have step : runStep e s (.decodeNil v.name) = .ok s := by
      simp only [runStep, entry]
      rfl
    refine ⟨s, ?_, by rw [none]; exact .nil⟩
    rw [Variant.readSteps, slots]
    exact runSteps_cons step []
  | cons slot others =>
    cases others with
    | nil =>
      rw [slots] at labels typed
      obtain ⟨w, rfl⟩ : ∃ w, values = [w] := List.length_eq_one_iff.mp typed.length.symm
      have type : w.type = slot.type := (List.cons_eq_cons.mp typed).1
      have step : runStep e s (.decode ⟨Variant.boundName payloadPrefix slot, slot.type,
          v.name⟩) = .ok (s.bindAll [Variant.boundName payloadPrefix slot] [w]) := by
        simp only [runStep, entry, Entry.ofPayload, Typed.at, type, bind, Except.bind, if_true]
        rfl
      refine ⟨_, ?_, bound_bindAll s labels rfl⟩
      rw [Variant.readSteps, slots]
      exact runSteps_cons step []
    | cons second others =>
      have several : 2 ≤ v.slots.length := by simp [slots]
      obtain ⟨w, w', rest, rfl⟩ : ∃ w w' rest, values = w :: w' :: rest := by
        have length := typed.length
        match values, length with
        | [], length => simp [slots] at length
        | [_], length => simp [slots] at length
        | w :: w' :: rest, _ => exact ⟨w, w', rest, rfl⟩
      obtain ⟨t, run, bound⟩ := runSteps_readSlots entry (declared several) labels typed
      refine ⟨t, ?_, slots ▸ bound⟩
      rw [Variant.readSteps, slots]
      exact run

/-- The arm of a variant reads its payload and puts the variant together. -/
theorem runSteps_decode {keys : List String}
    (container : s.locals.lookup Store.outer.name = some (.reader keys)) (known : v.name ∈ keys)
    (declared : 2 ≤ v.arity → e.keyCases? v.keysName = some (positionalKeys v.arity))
    (labels : (v.slots.map Slot.label).Nodup) (typed : HaveTypes v.slots values)
    (here : s.store v.name = some (.ofPayload values)) :
    ∃ t, runSteps e s v.decodeSteps = .ok t ∧ t.made = some (madeOf v values) := by
  obtain ⟨t, read, bound⟩ := runSteps_read container known declared labels typed here
  refine ⟨_, (runSteps_append read _).trans (runSteps_cons (runStep_become bound) []), rfl⟩

/-! ## Whole functions -/

/-- The keys of a store that an enumeration's outer keys recognise. -/
def recognised (variants : List Variant) (store : Keyed α) : List String :=
  (variants.map Variant.name).filter fun k => (store k).isSome

/-- Decoding starts with the outer store open. -/
def reading (variants : List Variant) (store : Keyed α) : State α :=
  (⟨[], store, none⟩ : State α).bind Store.outer.name (.reader (variants.map Variant.name))

theorem runStatement_reading (type : String) (variants : List Variant) (isPublic : Bool)
    (store : Keyed α) :
    runStatement (Codable.ofVariants type variants isPublic) ⟨[], store, none⟩
      (.step (.openReading true)) = .ok (reading variants store) := by
  simp only [runStatement, runStep, Codable.keyCases?_outer, if_true]
  rfl

theorem lookup_reading (variants : List Variant) (store : Keyed α) :
    (reading variants store).locals.lookup Store.outer.name =
      some (.reader (variants.map Variant.name)) :=
  List.lookup_cons_self ..

/-- Decoding throws unless the store has exactly one of the keys. -/
theorem decode_thrown (type : String) (variants : List Variant) (isPublic : Bool)
    {store : Keyed α} (number : (recognised variants store).length ≠ 1) :
    decode (Codable.ofVariants type variants isPublic) store = .error .thrown := by
  let e := Codable.ofVariants type variants isPublic
  have opens : runStatement e ⟨[], store, none⟩ (.step (.openReading true)) = _ :=
    runStatement_reading type variants isPublic store
  simp only [decode, Codable.body?_decode, Codable.decodeVariants]
  rw [runBody_cons opens]
  cases empty : variants.isEmpty with
  | true =>
    have gives : runStatement e (reading variants store) (.step (.reject type)) =
        .error .thrown := rfl
    rw [if_pos rfl, runBody_thrown gives]
    rfl
  | false =>
    have gives : runStatement e (reading variants store) (.requireOneKey type) =
        .error .thrown := by
      simp only [runStatement, lookup_reading]
      split
      next k one =>
        exact absurd (congrArg List.length one) number
      next => rfl
    rw [if_neg (by decide), runBody_thrown gives]
    rfl

/-- Decoding a payload under the key of its variant puts the value together again. -/
theorem decode_ofVariants (type : String) {variants : List Variant} (isPublic : Bool)
    (apart : ToldApart variants) (mem : v ∈ variants) (typed : HaveTypes v.slots values)
    {store : Keyed α} (here : store v.name = some (.ofPayload values))
    (only : recognised variants store = [v.name]) :
    decode (Codable.ofVariants type variants isPublic) store = .ok (madeOf v values) := by
  let e := Codable.ofVariants type variants isPublic
  let arm (w : Variant) : Arm := ⟨⟨w.name, []⟩, w.decodeSteps⟩
  let chosen := (reading variants store).bind keyName (.key v.name)
  have some : variants.isEmpty = false := by
    cases variants with
    | nil => cases mem
    | cons => rfl
  have opens : runStatement e ⟨[], store, none⟩ (.step (.openReading true)) = _ :=
    runStatement_reading type variants isPublic store
  have chooses : runStatement e (reading variants store) (.requireOneKey type) = .ok chosen := by
    have one : ((variants.map Variant.name).filter fun k =>
        ((reading variants store).store k).isSome) = [v.name] := only
    simp only [runStatement, lookup_reading, one]
    rfl
  have found : armOf? (variants.map arm) v.name = Option.some (arm v) :=
    armOf?_map apart (fun _ => rfl) mem
  have container : (chosen.bindAll [] []).locals.lookup Store.outer.name =
      Option.some (.reader (variants.map Variant.name)) := by
    simp [chosen, reading, State.bind, State.bindAll, List.lookup_cons, Store.name, keyName]
  obtain ⟨after, run, made⟩ := runSteps_decode (e := e) container (List.mem_map_of_mem mem)
    (fun several => Codable.keyCases?_inner type isPublic apart mem several)
    (apart.labels v mem) typed here
  have runs : runStatement e chosen (.switch "key" (variants.map arm) false) =
      .ok { after with locals := chosen.locals } := by
    have key : chosen.locals.lookup "key" = Option.some (.key v.name) :=
      List.lookup_cons_self ..
    exact (runStatement_key key found).trans (runArm_ok (.inl rfl) run)
  have body : Codable.decodeVariants type variants = [.step (.openReading true),
      .requireOneKey type, .switch "key" (variants.map arm) false] := by
    simp only [Codable.decodeVariants, some]
    rfl
  simp only [decode, Codable.body?_decode, body]
  rw [runBody_cons opens, runBody_cons chooses, runBody_cons runs]
  simp only [runBody, bind, Except.bind, made]
  rfl

end

/-! ## The round trip -/

/-- Only the key of the variant is recognised in what it is encoded to. -/
theorem recognised_put {variants : List Variant} {v : Variant} (apart : ToldApart variants)
    (mem : v ∈ variants) (entry : Entry α) :
    recognised variants (put (fun _ => none) v.name entry) = [v.name] := by
  have keys : (fun k => (put (fun _ => none) v.name entry k).isSome) = (· == v.name) := by
    funext k
    by_cases same : k = v.name
    · rw [same, put_self, beq_self_eq_true]
      rfl
    · rw [put_of_ne same, beq_false_of_ne same]
      rfl
  rw [recognised, keys, List.filter_beq,
    List.count_eq_one_of_mem apart.names (List.mem_map_of_mem mem)]
  rfl

/-- In the store below are the keys of the places, and no others. -/
theorem isSome_placed {values : List (Typed α)} {key : String} :
    (placed 0 values (fun _ => none) key).isSome = true ↔ key ∈ positionalKeys values.length := by
  rw [mem_positionalKeys]
  constructor
  · intro here
    by_contra other
    rw [placed_other] at here
    · cases here
    · intro n bound same
      exact other ⟨n, bound, by rw [← same, Nat.zero_add]⟩
  · rintro ⟨n, bound, rfl⟩
    have value : placed 0 values (fun _ => none) (positionalKey (0 + n : Nat)) =
        some values[n] := placed_self bound
    rw [Nat.zero_add] at value
    rw [value]
    rfl

/-- The code that is generated for coding an enumeration shows what it is run by, and it is run as
follows.  Encoding a value writes one declared key, and what is below it is written under the
declared keys of its own enumeration.  Decoding makes the value again, with labels where they are
the slots' own.  From a store without exactly one declared key, decoding throws. -/
theorem decode_encode (type : String) {variants : List Variant} (isPublic : Bool)
    (apart : ToldApart variants) :
    let e := Codable.ofVariants type variants isPublic
    (∀ (n : Nominal) (o : Options) (s : Settings), n.IsSumOf type variants isPublic →
      o.serialization = true →
        ∃ text ∈ n.blocks o s, text = e.render s.indentUnit ∧ e.StandsIn s.indentUnit text) ∧
    (∀ v ∈ variants, ∀ values : List (Typed α), HaveTypes v.slots values →
      ∃ store, encode e ⟨v.name, values⟩ = .ok store ∧
        (∀ k, (store k).isSome = true ↔ k = v.name) ∧
        (∃ keys, e.keyCases? outerKeys = some keys ∧ v.name ∈ keys) ∧
        (∀ slots, store v.name = some (.nested slots) →
          ∃ keys, e.keyCases? v.keysName = some keys ∧ ∀ k, (slots k).isSome = true ↔ k ∈ keys) ∧
        decode e store = .ok (madeOf v values)) ∧
      ∀ store : Keyed α, (recognised variants store).length ≠ 1 →
        decode e store = .error .thrown := by
  intro e
  refine ⟨fun n o s is asked => ?_, fun v mem values typed => ?_,
    fun store => decode_thrown type variants isPublic⟩
  · exact ⟨_, is.coding_mem_blocks asked, rfl, e.standsIn_render _⟩
  refine ⟨_, encode_ofVariants type isPublic apart mem typed, ?_, ?_, ?_, ?_⟩
  · intro k
    by_cases same : k = v.name
    · simp [same]
    · simp [put_of_ne same, same]
  · exact ⟨_, Codable.keyCases?_outer type variants isPublic, List.mem_map_of_mem mem⟩
  · intro slots nested
    rw [put_self] at nested
    match values, typed, nested with
    | w :: w' :: rest, typed, nested =>
      cases nested
      have several : 2 ≤ v.arity := by
        rw [Variant.arity, typed.length]
        simp
      refine ⟨_, Codable.keyCases?_inner type isPublic apart mem several, fun k => ?_⟩
      rw [Variant.arity, typed.length]
      exact isSome_placed
  · exact decode_ofVariants type isPublic apart mem typed (put_self ..)
      (recognised_put apart mem _)

/-- Three variants, without a slot, with one and with two. -/
def outcomes : List Variant := [
  ⟨"success", some [⟨"v0", "Int", false⟩]⟩,
  ⟨"failure", some [⟨"code", "Int", true⟩, ⟨"v1", "String", false⟩]⟩,
  ⟨"pending", none⟩]

/-- An enumeration with these variants. -/
def outcomeType : Nominal where
  head := ⟨⟨1, 1⟩, .enumKind, "Outcome", ["public"], [], []⟩
  members := [.cases ⟨⟨2, 5⟩, [⟨"success", some [⟨none, "Int", none⟩], none⟩,
    ⟨"failure", some [⟨some "code", "Int", none⟩, ⟨none, "String", none⟩], none⟩,
    ⟨"pending", none, none⟩], []⟩]

theorem decode_encode_outcomes :
    (∃ text ∈ outcomeType.blocks { serialization := true } {},
      (Codable.ofVariants "Outcome" outcomes true).StandsIn ({} : Settings).indentUnit text) ∧
    ∃ store : Keyed Nat,
      encode (Codable.ofVariants "Outcome" outcomes true)
        ⟨"failure", [⟨"Int", 4⟩, ⟨"String", 5⟩]⟩ = .ok store ∧
      decode (Codable.ofVariants "Outcome" outcomes true) store =
        .ok ⟨"failure", [(some "code", ⟨"Int", 4⟩), (none, ⟨"String", 5⟩)]⟩ := by
  have apart : ToldApart outcomes := ⟨by decide, by decide, by decide, by decide⟩
  have isSum : outcomeType.IsSumOf "Outcome" outcomes true := ⟨rfl, rfl, rfl, rfl⟩
  obtain ⟨blocks, codes, -⟩ := @decode_encode Nat "Outcome" outcomes true apart
  obtain ⟨text, mem, -, stands⟩ := blocks outcomeType { serialization := true } {} isSum rfl
  obtain ⟨store, encoded, -, -, -, decoded⟩ := codes
    ⟨"failure", some [⟨"code", "Int", true⟩, ⟨"v1", "String", false⟩]⟩
    (.tail _ (.head _)) [⟨"Int", 4⟩, ⟨"String", 5⟩] rfl
  exact ⟨⟨text, mem, stands⟩, store, encoded, decoded⟩

end Conformance.Coding
