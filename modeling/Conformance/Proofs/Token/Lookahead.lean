import Mathlib.Data.List.Forall2
import Conformance.Proofs.Token.Joining

/-!
# The stream one token at a time

The grammar pulls its tokens through a relay.  The relay splits each token of the lexer, and
holds a brace back until the token behind it has come: only then is it known whether the brace
opens observers.  Everything else it sends on at once.

The relay never looks ahead, and `Token.stream` looks at the whole rest.  They are the same:

* after every token, what the relay has sent is the stream so far without a brace at its end, and
  with the brace it holds it is the whole stream so far (`Relay.follows_run`, by induction on the
  tokens from `Relay.Follows.take`),
* so what is delivered is what the relay has sent when lexing ends (`delivered_eq_relay`),
* and a place of the stream is known from the split tokens at it and directly behind it
  (`relay_looks_ahead`).
-/

namespace Conformance

namespace Token

/-! ## Splitting, by places -/

/-- The marks that a run is made of, with the kinds that they have alone. -/
def angleKinds : List (Char × Kind) :=
  [('<', .leftAngle), ('>', .rightAngle), ('?', .question), ('!', .bang)]

/-- An operator of two or more marks of `angleKinds`. -/
structure IsAngleRun (t : Token) : Prop where
  kind : t.kind = .operator
  long : 2 ≤ t.text.length
  angles : ∀ c ∈ t.text.toList, c ∈ angleKinds.map Prod.fst

/-- What a token is split into: a run into one token for each of its characters, as far to the
right as the character is, and any other token into itself. -/
structure SplitsInto (t : Token) (us : List Token) : Prop where
  length : t.IsAngleRun → us.length = t.text.length
  piece : t.IsAngleRun → ∀ i u, us[i]? = some u →
    ∃ c, t.text.toList[i]? = some c ∧ (c, u.kind) ∈ angleKinds ∧ u.text = String.singleton c ∧
      u.start = t.start.shift i ∧ u.stop = t.start.shift (i + 1) ∧
      u.layout = if i = 0 then t.layout else ""
  whole : ¬ t.IsAngleRun → us = [t]

theorem ofAngle?_eq_some {c : Char} {k : Kind} :
    Kind.ofAngle? c = some k ↔ (c, k) ∈ angleKinds := by
  unfold Kind.ofAngle? angleKinds
  constructor
  · intro is
    split at is <;> simp_all
  · intro mem
    simp only [List.mem_cons, Prod.mk.injEq, List.not_mem_nil, or_false] at mem
    rcases mem with ⟨rfl, rfl⟩ | ⟨rfl, rfl⟩ | ⟨rfl, rfl⟩ | ⟨rfl, rfl⟩ <;> rfl

theorem isSome_ofAngle? {c : Char} :
    (Kind.ofAngle? c).isSome ↔ c ∈ angleKinds.map Prod.fst := by
  simp only [Option.isSome_iff_exists, ofAngle?_eq_some, List.mem_map, Prod.exists,
    exists_and_right, exists_eq_right]

theorem isRun_iff_isAngleRun {t : Token} : t.isRun = true ↔ t.IsAngleRun := by
  simp only [isRun, Bool.and_eq_true, beq_iff_eq, decide_eq_true_eq, List.all_eq_true,
    isSome_ofAngle?]
  constructor
  · rintro ⟨⟨kind, long⟩, angles⟩
    exact ⟨kind, long, angles⟩
  · rintro ⟨kind, long, angles⟩
    exact ⟨⟨kind, long⟩, angles⟩

theorem length_pieces (t : Token) (i : Nat) (cs : List Char) :
    (t.pieces i cs).length = cs.length := by
  induction cs generalizing i with
  | nil => rfl
  | cons c cs ih => rw [pieces, List.length_cons, ih, List.length_cons]

theorem getElem?_pieces (t : Token) (i j : Nat) (cs : List Char) :
    (t.pieces i cs)[j]? = cs[j]?.map fun c =>
      { kind := (Kind.ofAngle? c).getD .operator
        layout := if i + j = 0 then t.layout else ""
        text := String.singleton c
        start := t.start.shift (i + j)
        stop := t.start.shift (i + j + 1) } := by
  induction cs generalizing i j with
  | nil => rfl
  | cons c cs ih =>
    cases j with
    | zero => rfl
    | succ j => rw [pieces, List.getElem?_cons_succ, ih, List.getElem?_cons_succ, ← Nat.add_assoc,
        Nat.add_right_comm i 1 j]

theorem splitsInto_split (t : Token) : t.SplitsInto t.split := by
  by_cases run : t.isRun = true
  · have eq : t.split = t.pieces 0 t.text.toList := if_pos run
    have run' := isRun_iff_isAngleRun.mp run
    refine ⟨fun _ => ?_, fun _ i u at? => ?_, fun other => absurd run' other⟩
    · rw [eq, length_pieces, String.length_toList]
    · rw [eq, getElem?_pieces] at at?
      obtain ⟨c, here, rfl⟩ := Option.map_eq_some_iff.mp at?
      obtain ⟨k, kind⟩ := Option.isSome_iff_exists.mp
        (isSome_ofAngle?.mpr (run'.angles c (List.mem_of_getElem? here)))
      refine ⟨c, here, ?_, rfl, ?_⟩
      · rw [kind]
        exact ofAngle?_eq_some.mp kind
      · simp only [Nat.zero_add, and_self]
  · have other := mt isRun_iff_isAngleRun.mpr run
    exact ⟨fun run => absurd run other, fun run => absurd run other, fun _ => if_neg run⟩

/-! ## Marking, by places -/

/-- A name that opens an observer. -/
def IsObserverName (t : Token) : Prop := t.kind = .name ∧ (t.text = "willSet" ∨ t.text = "didSet")

/-- The token at `i` is a brace, and a name that opens an observer is directly behind it. -/
def OpensAt (us : List Token) (i : Nat) : Prop :=
  ∃ brace name, us[i]? = some brace ∧ us[i + 1]? = some name ∧ brace.kind = .leftBrace ∧
    name.IsObserverName

/-- The second stream is the first one, with each brace in front of an observer's name retyped. -/
structure LooksAhead (us vs : List Token) : Prop where
  length : vs.length = us.length
  brace : ∀ i u, us[i]? = some u → OpensAt us i → vs[i]? = some { u with kind := .observerBrace }
  other : ∀ i u, us[i]? = some u → ¬ OpensAt us i → vs[i]? = some u

theorem opensObserver_iff {t : Token} : t.opensObserver = true ↔ t.IsObserverName := by
  simp [opensObserver, IsObserverName]

theorem getElem?_markObservers (us : List Token) (i : Nat) :
    (markObservers us)[i]? = us[i]?.map fun u => u.marked (us.drop (i + 1)) := by
  induction us generalizing i with
  | nil => rfl
  | cons u us ih =>
    cases i with
    | zero => rfl
    | succ i => exact ih i

theorem marks_iff {us : List Token} {i : Nat} {u : Token} (here : us[i]? = some u) :
    (u.kind == .leftBrace && (us.drop (i + 1)).head?.any opensObserver) = true ↔ OpensAt us i := by
  rw [List.head?_drop, Bool.and_eq_true, beq_iff_eq, Option.any_eq_true]
  constructor
  · rintro ⟨kind, name, next, opens⟩
    exact ⟨u, name, here, next, kind, opensObserver_iff.mp opens⟩
  · rintro ⟨brace, name, here', next, kind, opens⟩
    obtain rfl : u = brace := Option.some.inj (here.symm.trans here')
    exact ⟨kind, name, next, opensObserver_iff.mpr opens⟩

theorem looksAhead_markObservers (us : List Token) : LooksAhead us (markObservers us) := by
  refine ⟨length_markObservers us, fun i u here opens => ?_, fun i u here closed => ?_⟩
  · rw [getElem?_markObservers, here, Option.map_some, marked, if_pos ((marks_iff here).mpr opens)]
  · rw [getElem?_markObservers, here, Option.map_some, marked,
      if_neg (mt (marks_iff here).mp closed)]

/-! ## Once more -/

theorem split_marked {u : Token} (single : u.split = [u]) (rest : List Token) :
    (u.marked rest).split = [u.marked rest] := by
  unfold marked
  split
  · rfl
  · exact single

/-- The pieces of a run are not split again. -/
theorem split_of_mem_split {t u : Token} (mem : u ∈ t.split) : u.split = [u] := by
  obtain ⟨i, here⟩ := List.mem_iff_getElem?.mp mem
  refine (splitsInto_split u).whole fun again => ?_
  by_cases run : t.IsAngleRun
  · obtain ⟨c, -, -, text, -⟩ := (splitsInto_split t).piece run i u here
    have long := again.long
    rw [text, String.length_singleton] at long
    omega
  · rw [(splitsInto_split t).whole run, List.mem_singleton] at mem
    exact run (mem ▸ again)

theorem flatMap_split_markObservers {us : List Token} (single : ∀ u ∈ us, u.split = [u]) :
    (markObservers us).flatMap split = markObservers us := by
  induction us with
  | nil => rfl
  | cons u us ih =>
    rw [markObservers, List.flatMap_cons, split_marked (single u List.mem_cons_self),
      ih fun v mem => single v (List.mem_cons_of_mem u mem), List.singleton_append]

theorem opensObserver_marked (u : Token) (rest : List Token) :
    (u.marked rest).opensObserver = u.opensObserver := by
  unfold marked
  split
  next brace =>
    have kind : u.kind = .leftBrace := by simpa using (Bool.and_eq_true_iff.mp brace).1
    rw [opensObserver, opensObserver, kind]
    rfl
  next => rfl

theorem marked_marked (u : Token) {rest rest' : List Token}
    (same : rest'.head?.any opensObserver = rest.head?.any opensObserver) :
    (u.marked rest).marked rest' = u.marked rest := by
  by_cases brace : (u.kind == .leftBrace && rest.head?.any opensObserver) = true
  · have eq : u.marked rest = { u with kind := .observerBrace } := if_pos brace
    rw [eq]
    rfl
  · have eq : u.marked rest = u := if_neg brace
    rw [eq, marked, same, if_neg brace]

theorem markObservers_markObservers (us : List Token) :
    markObservers (markObservers us) = markObservers us := by
  induction us with
  | nil => rfl
  | cons u us ih =>
    have same : (markObservers us).head?.any opensObserver = us.head?.any opensObserver := by
      cases us with
      | nil => rfl
      | cons v vs => exact opensObserver_marked v vs
    rw [markObservers, markObservers, ih, marked_marked u same]

/-- A stream is not changed by being streamed again. -/
theorem stream_stream (ts : List Token) : stream (stream ts) = stream ts := by
  have single : ∀ u ∈ ts.flatMap split, u.split = [u] := by
    intro u mem
    obtain ⟨t, -, piece⟩ := List.mem_flatMap.mp mem
    exact split_of_mem_split piece
  rw [stream, stream, flatMap_split_markObservers single, markObservers_markObservers]

theorem texts_stream (ts : List Token) :
    (stream ts).flatMap (fun t => t.text.toList) = ts.flatMap fun t => t.text.toList := by
  have marking : (stream ts).flatMap (fun t => t.text.toList) =
      (ts.flatMap split).flatMap fun t => t.text.toList := by
    have texts := congrArg (List.flatMap String.toList) (text_markObservers (ts.flatMap split))
    rwa [List.flatMap_map, List.flatMap_map] at texts
  rw [marking, List.flatMap_assoc]
  congr 1
  funext t
  exact text_split t

end Token

open Token

/-! ## The relay -/

/-- A relay in the middle of a stream. -/
structure Relay where
  /-- The tokens that it has sent on. -/
  sent : List Token
  /-- The brace that it holds back. -/
  held? : Option Token

namespace Relay

/-- Lets go of the brace that is held, now that the token behind it is known. -/
def letGo (r : Relay) (next : Token) : List Token :=
  match r.held? with
  | some brace =>
    r.sent ++ [if next.opensObserver then { brace with kind := .observerBrace } else brace]
  | none => r.sent

/-- Takes one token of the split stream. -/
def take (r : Relay) (t : Token) : Relay :=
  if t.kind = .leftBrace then ⟨r.letGo t, some t⟩ else ⟨r.letGo t ++ [t], none⟩

/-- Takes one token of the lexer. -/
def receive (r : Relay) (t : Token) : Relay := t.split.foldl take r

/-- The relay behind some tokens of the lexer. -/
def run (ts : List Token) : Relay := ts.foldl receive ⟨[], none⟩

/-- What has been sent when no token is left. -/
def close (r : Relay) : List Token := r.sent ++ r.held?.toList

/-- The relay is behind the split tokens `us`. -/
structure Follows (r : Relay) (us : List Token) : Prop where
  held : ∀ brace, r.held? = some brace → us.getLast? = some brace ∧ brace.kind = .leftBrace
  free : r.held? = none → ∀ t, us.getLast? = some t → t.kind ≠ .leftBrace
  close : r.close = markObservers us

end Relay

/-- A brace at the end is decided by the token that comes behind it. -/
theorem Token.markObservers_brace (us : List Token) {brace : Token} (t : Token)
    (kind : brace.kind = .leftBrace) :
    ∃ front, markObservers (us ++ [brace]) = front ++ [brace] ∧
      markObservers (us ++ [brace, t]) =
        front ++ [if t.opensObserver then { brace with kind := .observerBrace } else brace, t] := by
  induction us with
  | nil =>
    refine ⟨[], ?_, ?_⟩
    · simp [markObservers, marked]
    · simp [markObservers, marked, kind]
  | cons u us ih =>
    obtain ⟨front, one, two⟩ := ih
    have head : (us ++ [brace, t]).head? = (us ++ [brace]).head? := by cases us <;> rfl
    have same : u.marked (us ++ [brace, t]) = u.marked (us ++ [brace]) := by
      rw [marked, marked, head]
    refine ⟨u.marked (us ++ [brace]) :: front, ?_, ?_⟩
    · rw [List.cons_append, markObservers, one, List.cons_append]
    · rw [List.cons_append, markObservers, two, same, List.cons_append]

namespace Relay

/-- Behind the next token, everything in front of it is sent, and marked. -/
theorem Follows.letGo {r : Relay} {us : List Token} (follows : r.Follows us) (t : Token) :
    r.letGo t ++ [t] = markObservers (us ++ [t]) := by
  have close := follows.close
  cases held : r.held? with
  | none =>
    rw [Relay.close, held, Option.toList_none, List.append_nil] at close
    rw [Relay.letGo, held, close, markObservers_append [t] (follows.free held)]
    simp [markObservers, marked]
  | some brace =>
    obtain ⟨last, kind⟩ := follows.held brace held
    obtain ⟨front, rfl⟩ := List.getLast?_eq_some_iff.mp last
    obtain ⟨sent, one, two⟩ := markObservers_brace front t kind
    rw [Relay.close, held, Option.toList_some, one] at close
    obtain rfl := List.append_cancel_right close
    rw [Relay.letGo, held, List.append_assoc front, List.singleton_append, two, List.append_assoc,
      List.singleton_append]

/-- One token keeps the relay behind the stream. -/
theorem Follows.take {r : Relay} {us : List Token} (follows : r.Follows us) (t : Token) :
    (r.take t).Follows (us ++ [t]) := by
  have passed := follows.letGo t
  unfold Relay.take
  split
  next kind =>
    refine ⟨fun brace is => ?_, nofun, passed⟩
    obtain rfl : t = brace := Option.some.inj is
    exact ⟨List.getLast?_concat, kind⟩
  next kind =>
    refine ⟨nofun, fun _ u last => ?_, ?_⟩
    · rw [List.getLast?_concat] at last
      exact Option.some.inj last ▸ kind
    · rw [Relay.close, Option.toList_none, List.append_nil, passed]

theorem Follows.foldl_take {r : Relay} {us : List Token} (follows : r.Follows us)
    (vs : List Token) : (vs.foldl Relay.take r).Follows (us ++ vs) := by
  induction vs generalizing r us with
  | nil => rwa [List.append_nil]
  | cons v vs ih =>
    have further := ih (follows.take v)
    rwa [List.append_assoc, List.singleton_append] at further

theorem Follows.foldl_receive {r : Relay} {us : List Token} (follows : r.Follows us)
    (ts : List Token) : (ts.foldl receive r).Follows (us ++ ts.flatMap split) := by
  induction ts generalizing r us with
  | nil => rwa [List.flatMap_nil, List.append_nil]
  | cons t ts ih =>
    have further := ih (follows.foldl_take t.split)
    rwa [List.append_assoc] at further

/-- After every token of the lexer, the relay is behind the split tokens. -/
theorem follows_run (ts : List Token) : (run ts).Follows (ts.flatMap split) := by
  have start : Follows ⟨[], none⟩ [] := {
    held := by simp
    free := by simp
    close := rfl }
  exact start.foldl_receive ts

theorem close_run (ts : List Token) : (run ts).close = stream ts := (follows_run ts).close

/-- What has been sent is the stream so far, without a brace at its end. -/
theorem sent_run (ts : List Token) : (run ts).sent = withoutOpenBrace (stream ts) := by
  obtain ⟨held, free, close⟩ := follows_run ts
  rw [withoutOpenBrace, stream, getLast?_markObservers, ← close, Relay.close]
  cases eq : (run ts).held? with
  | some brace =>
    obtain ⟨last, kind⟩ := held brace eq
    rw [last, Option.toList_some, List.dropLast_concat]
    exact (if_pos kind).symm
  | none =>
    rw [Option.toList_none, List.append_nil]
    split
    next t last => rw [if_neg (free eq t last)]
    next => rfl

end Relay

/-- The tokens that are sent on of a finished stream. -/
def relay (ts : List Token) : List Token := (Relay.run ts).close

/-- What reaches the grammar has been sent when lexing ends: all of it where the source is used
up, and what is not held back where a stray character ends it. -/
theorem delivered_eq_relay (l : Lexed) :
    l.delivered = if l.stray?.isSome then (Relay.run l.tokens).sent else relay l.tokens := by
  rw [Relay.sent_run, relay, Relay.close_run, Lexed.delivered]

/-- The relay sends the stream, whose every place is known from the split tokens at it and
directly behind it.  The texts stay the same in a row, and a stream that is sent again is not
changed. -/
theorem relay_looks_ahead (ts : List Token) :
    relay ts = stream ts ∧
      (∃ parts, List.Forall₂ SplitsInto ts parts ∧ LooksAhead parts.flatten (relay ts)) ∧
      (relay ts).flatMap (fun t => t.text.toList) = ts.flatMap (fun t => t.text.toList) ∧
      relay (relay ts) = relay ts := by
  have whole (ts : List Token) : relay ts = stream ts := Relay.close_run ts
  refine ⟨whole ts, ⟨ts.map split, ?_, ?_⟩, ?_, ?_⟩
  · rw [List.forall₂_map_right_iff]
    exact List.forall₂_same.mpr fun t _ => splitsInto_split t
  · rw [whole, stream, ← List.flatMap_def]
    exact looksAhead_markObservers _
  · rw [whole]
    exact texts_stream ts
  · rw [whole, whole, stream_stream]

/-- Of the braces in `{ { willSet {` the second opens observers. -/
example : (relay [⟨.leftBrace, "", "\x7b", ⟨0, 1, 1⟩, ⟨1, 1, 2⟩⟩,
      ⟨.leftBrace, " ", "\x7b", ⟨2, 1, 3⟩, ⟨3, 1, 4⟩⟩,
      ⟨.name, " ", "willSet", ⟨4, 1, 5⟩, ⟨11, 1, 12⟩⟩,
      ⟨.leftBrace, " ", "\x7b", ⟨12, 1, 13⟩, ⟨13, 1, 14⟩⟩]).map Token.kind =
    [.leftBrace, .observerBrace, .name, .leftBrace] := by
  decide +kernel

end Conformance
