import Conformance.FileTree

/-!
# Hosts that keep their files

What a run may rely on in its surroundings: asking changes nothing, and neither does opening
a file that cannot be opened (`Host.Faithful`).  More is asked of the one file that a run writes
to.  If it can be opened, it takes what is written to it, which is then there to be read
(`Host.Takes`).  Files on a full disk and devices need not be like that.

File trees are such surroundings, and all their files are like that (`FileTree.host_faithful`,
`FileTree.host_takes`).  The path of a file is walked anew when the file is written or read.
That leads to the same place because each name on the way is passed at a directory, and a file
never replaces one.
-/

namespace Conformance

variable {σ α β : Type}

/-! ## Actions without effects -/

/-- What follows an action starts with its result in its state. -/
theorem run_bind_of {x : StateM σ α} {s s' : σ} {a : α} (ran : x.run s = (a, s'))
    (f : α → StateM σ β) : (x >>= f).run s = (f a).run s' := by
  change (f (x.run s).1).run (x.run s).2 = _
  rw [ran]

/-- What a run that has ended with a result comes to. -/
theorem eq_of_ended {ε : Type} {a b : α} {s s' : σ}
    (ended : ((.ok a, s) : Except ε α × σ) = (.ok b, s')) : b = a ∧ s' = s := by
  cases ended
  exact ⟨rfl, rfl⟩

/-- An action that leaves the state as it is. -/
def IsReading (x : StateM σ α) : Prop := ∀ s, (x.run s).2 = s

namespace IsReading

theorem pure (a : α) : IsReading (pure a : StateM σ α) := fun _ => rfl

/-- What follows such an action starts in the same state. -/
theorem run_bind {x : StateM σ α} (reading : IsReading x) (f : α → StateM σ β) (s : σ) :
    (x >>= f).run s = (f (x.run s).1).run s := by
  have ran : x.run s = ((x.run s).1, s) := Prod.ext rfl (reading s)
  exact run_bind_of ran f

theorem bind {x : StateM σ α} {f : α → StateM σ β} (first : IsReading x)
    (then' : ∀ a, IsReading (f a)) : IsReading (x >>= f) := by
  intro s
  rw [first.run_bind]
  exact then' _ s

end IsReading

/-- An action whose result has a property, whatever the state. -/
def Gives (x : StateM σ α) (P : α → Prop) : Prop := ∀ s, P (x.run s).1

namespace Gives

theorem pure {a : α} {P : α → Prop} (has : P a) : Gives (pure a : StateM σ α) P := fun _ => has

theorem bind {x : StateM σ α} {f : α → StateM σ β} {P : β → Prop} (then' : ∀ a, Gives (f a) P) :
    Gives (x >>= f) P :=
  fun s => then' (x.run s).1 (x.run s).2

end Gives

/-- A host that asks without effects, and opens a file or leaves everything as it is. -/
structure Host.Faithful (host : Host (StateM σ)) : Prop where
  /-- Looking for a file changes nothing. -/
  isFile : ∀ p, IsReading (host.isFile p)
  /-- Reading a file changes nothing. -/
  read : ∀ p, IsReading (host.read p)
  /-- Reading the standard input changes no file. -/
  standardInput : IsReading host.standardInput
  /-- Where a file cannot be opened, nothing changes. -/
  create_error : ∀ p s s' f, (host.create p).run s = (.error f, s') → s' = s

/-- A file takes what is written to it, once it is open, and it is there to be read. -/
def Host.Takes (host : Host (StateM σ)) (p : Path) : Prop :=
  ∀ s s', (host.create p).run s = (.ok (), s') → ∀ text : String,
    ∃ s'', (host.write p text).run s' = (.ok (), s'') ∧
      ((host.read p).run s'').1 = .ok text.toUTF8.toList

/-! ## File trees -/

namespace FileTree

variable {t t' : FileTree} {place : List String}

theorem lookup_filter_ne {entries : List (List String × Entry)} {q : List String}
    (ne : q ≠ place) :
    (entries.filter fun (p, _) => p != place).lookup q = entries.lookup q := by
  induction entries with
  | nil => rfl
  | cons first entries ih =>
    obtain ⟨p, e⟩ := first
    by_cases same : p = place
    · have other : (q == p) = false := beq_false_of_ne (same ▸ ne)
      rw [List.filter_cons_of_neg (by simp [same]), List.lookup_cons, other]
      exact ih
    · rw [List.filter_cons_of_pos (by simpa using same), List.lookup_cons, List.lookup_cons, ih]

theorem find?_put_of_ne {q : List String} (ne : q ≠ place) (e : Entry) :
    (t.put place e).find? q = t.find? q := by
  rw [find?, find?, put, List.lookup_cons, beq_false_of_ne ne]
  simp only [lookup_filter_ne ne]

/-- An entry is found where it was put, but for the root. -/
theorem find?_put_self (below : place ≠ []) (e : Entry) :
    (t.put place e).find? place = some e := by
  have notRoot : place.isEmpty = false := by simpa using below
  rw [find?, put, notRoot, List.lookup_cons, beq_self_eq_true]
  rfl

/-- A walk only asks whether there are directories on its way. -/
theorem walk_of_directories
    (keeps : ∀ q, t.find? q = some .directory → t'.find? q = some .directory)
    {names here : List String} (walks : t.walk here names = .ok place) :
    t'.walk here names = .ok place := by
  induction names generalizing here with
  | nil => exact walks
  | cons name names ih =>
    rw [walk] at walks ⊢
    cases found : t.find? here with
    | none => simp [found] at walks
    | some e =>
      cases e with
      | file bytes => simp [found] at walks
      | directory =>
        simp only [found] at walks
        simp only [keeps here found]
        split at walks
        next up => exact (if_pos up).trans (ih walks)
        next down =>
          rw [if_neg down]
          split at walks
          next => cases walks
          next short => exact (if_neg short).trans (ih walks)

/-- A file that was written is where its path leads. -/
theorem write_place {here : List String} {p : Path} {bytes : List UInt8}
    (written : t.write here p bytes = .ok t') :
    ∃ place, t'.resolve here p = .ok place ∧ t'.find? place = some (.file bytes) := by
  rw [write] at written
  cases resolved : t.resolve here p with
  | error f => simp [resolved, bind, Except.bind] at written
  | ok place =>
    have noDirectory : t.find? place ≠ some .directory := by
      intro directory
      simp [resolved, bind, Except.bind, directory] at written
    have is : t' = t.put place (.file bytes) := by
      simp only [resolved, bind, Except.bind] at written
      exact (Except.ok.inj written).symm
    have below : place ≠ [] := by
      rintro rfl
      exact noDirectory rfl
    have keeps : ∀ q, t.find? q = some .directory → t'.find? q = some .directory := by
      intro q directory
      have other : q ≠ place := by
        rintro rfl
        exact noDirectory directory
      rw [is, find?_put_of_ne other, directory]
    refine ⟨place, ?_, by rw [is, find?_put_self below]⟩
    rw [resolve] at resolved ⊢
    split at resolved
    next => cases resolved
    next short => exact (if_neg short).trans (walk_of_directories keeps resolved)

/-- A file that was written is read again. -/
theorem read_write {here : List String} {p : Path} {bytes : List UInt8}
    (written : t.write here p bytes = .ok t') : t'.read here p = .ok bytes := by
  obtain ⟨place, again, found⟩ := write_place written
  simp only [read, again, bind, Except.bind, found]

/-- A file that was written can be written again. -/
theorem write_write {here : List String} {p : Path} {bytes : List UInt8}
    (written : t.write here p bytes = .ok t') (others : List UInt8) :
    ∃ t'', t'.write here p others = .ok t'' := by
  obtain ⟨place, again, found⟩ := write_place written
  exact ⟨t'.put place (.file others), by simp only [write, again, bind, Except.bind, found]⟩

section
variable (here : List String) (directory : Path) (input : List UInt8) (p : Path) (t : FileTree)

/-- A host of a file tree opens a file by emptying it. -/
theorem host_create :
    ((host here directory input).create p).run t =
      match t.write here p [] with
      | .ok t' => (.ok (), t')
      | .error f => (.error f, t) := by
  change ((match t.write here p [] with
    | .ok t' => do set t'; return .ok ()
    | .error f => return .error f : StateM FileTree (Except FileFault Unit)).run t) = _
  cases t.write here p [] <;> rfl

/-- A host of a file tree writes to its tree. -/
theorem host_write (text : String) :
    ((host here directory input).write p text).run t =
      match t.write here p text.toUTF8.toList with
      | .ok t' => (.ok (), t')
      | .error f => (.error f, t) := by
  change ((match t.write here p text.toUTF8.toList with
    | .ok t' => do set t'; return .ok ()
    | .error f => return .error f : StateM FileTree (Except FileFault Unit)).run t) = _
  cases t.write here p text.toUTF8.toList <;> rfl

end

/-- Nothing changes a file tree but the writing of files. -/
theorem host_faithful (here : List String) (directory : Path) (input : List UInt8) :
    (host here directory input).Faithful where
  isFile _ _ := rfl
  read _ _ := rfl
  standardInput _ := rfl
  create_error p t t' f failed := by
    rw [host_create] at failed
    split at failed
    next => cases failed
    next => exact (congrArg Prod.snd failed).symm

/-- Every file of a file tree takes what is written to it. -/
theorem host_takes (here : List String) (directory : Path) (input : List UInt8) (p : Path) :
    (host here directory input).Takes p := by
  intro t t' opened text
  rw [host_create] at opened
  split at opened
  next u emptied =>
    obtain rfl : u = t' := congrArg Prod.snd opened
    obtain ⟨t'', written⟩ := write_write emptied text.toUTF8.toList
    exact ⟨t'', by rw [host_write, written], read_write written⟩
  next => cases opened

end FileTree

end Conformance
