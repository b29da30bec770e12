import Interpose.Proofs.Host.Deciding
import Interpose.Proofs.Host.Tied

/-!
# Notes about a hook

What a hook remembers is changed deep inside of calls: by the requests that ask the hook, by
transforms that run for it, by whoever makes it forget. To speak of all this, one hook is watched.
Whenever its transform is needed, begins, ends, or something is to be forgotten, this is noted
beside the memory that natives and transforms share. Programs are *sealed*, so that they neither see
the notes nor change them; otherwise requests are answered as ever.

Nothing depends on the notes. A run that is noted does what the sealed programs do without notes,
and only leaves the notes behind (`tied_noted`).
-/

set_option autoImplicit false

namespace Interpose

open Run

/-! ## Notes -/

/-- What is noted of a hook. -/
inductive HookNote where
  /-- A call or an inspection needed the transform for a signature. This is what was remembered
  then, and whether there was a graph. -/
  | asked (sig : Signature) (found : Option Decision) (hasGraph : Bool)
  /-- The transform began. -/
  | began (sig : Signature)
  /-- The transform ended. -/
  | ended (sig : Signature) (outcome : Except Fault (Option Graph))
  /-- One signature was to be forgotten, or all. -/
  | forgot (sig : Option Signature)

/-- The words, with notes beside the memory. -/
abbrev Vocabulary.noted (V : Vocabulary) : Vocabulary :=
  { V with Memory := V.Memory × List HookNote }

variable {V : Vocabulary} {α : Type}

namespace Host

/-- The note that a hook is asked about a signature, if it needs its transform. -/
def question? (h : Host V) (k : HookId) (sig : Signature) : Option HookNote :=
  match h.hook? k with
  | none => none
  | some hook =>
    match hook.handler sig with
    | .ok (.transform _) => some (.asked sig (hook.decisions.get? sig) (h.provenance sig).isOk)
    | _ => none

/-- The note that the hook is called. -/
def callQuestion? (h : Host V) (k : HookId) : List Value → Option HookNote
  | [] => none
  | callee :: rest => h.question? k (.ofValues (callee :: rest))

/-- The note of a request. A call that is one too many does not come to the hook. -/
def note? (h : Host V) (k : HookId) : Request V → Option HookNote
  | .call (.hook k') args =>
    if k' = k ∧ h.depth + 2 ≤ h.maxDepth then h.callQuestion? k args else none
  | .hookCall k' args => if k' = k then h.callQuestion? k args else none
  | .hookGraph k' sig => if k' = k then h.question? k sig else none
  | .refresh k' sig => if k' = k then some (.forgot sig) else none
  | _ => none

/-- The host with one more note. -/
def withNote (h : Host V.noted) (note : HookNote) : Host V.noted :=
  { h with memory := (h.memory.1, h.memory.2 ++ [note]) }

/-- The host with one more note, if there is one. -/
def noting (h : Host V.noted) (note? : Option HookNote) : Host V.noted := note?.elim h h.withNote

end Host

namespace Prog

/-- The program that writes a note. -/
def jot (note : HookNote) : Prog V.noted Unit :=
  .read fun m => .write (m.1, m.2 ++ [note]) (.done ())

/-- The program with the notes hidden. -/
def sealed : Prog V.noted α → Prog V.noted α
  | .done a => .done a
  | .fail e => .fail e
  | .read next => .read fun m => (next (m.1, [])).sealed
  | .write m next => .read fun now => .write (m.1, now.2) next.sealed
  | .ask r next => .ask r fun answer => (next answer).sealed

/-- The program of a transform with a note of how it ends. -/
def closing (sig : Signature) : Prog V.noted (Option Graph) → Prog V.noted (Option Graph)
  | .done a => (jot (.ended sig (.ok a))).bind fun _ => .done a
  | .fail e => (jot (.ended sig (.error e))).bind fun _ => .fail e
  | .read next => .read fun m => (next m).closing sig
  | .write m next => .write m (next.closing sig)
  | .ask r next => .ask r fun answer => (next answer).closing sig

variable {again : (r : Request V.noted) → Exec V.noted r.Answer}

theorem exec_jot (note : HookNote) (p : Prog V.noted α) (h : Host V.noted) :
    ((jot note).bind fun _ => p).exec again h = p.exec again (h.withNote note) := rfl

/-- A transform's program does what it does, and at its end there is a note more. -/
theorem exec_closing (sig : Signature) (p : Prog V.noted (Option Graph)) (h : Host V.noted) :
    (p.closing sig).exec again h
      = (p.exec again h).map fun x => (x.1, x.2.withNote (.ended sig x.1)) := by
  induction p generalizing h with
  | done a => rfl
  | fail e => rfl
  | read next ih => exact ih h.memory h
  | write m next ih => exact ih { h with memory := m }
  | ask r next ih =>
    rw [closing, exec_ask, exec_ask, bind_apply, bind_apply, Exec.observe_apply]
    rcases again r h with _ | ⟨answer, h'⟩
    · rfl
    · exact ih answer h'

end Prog

/-- The words with programs from which the notes are hidden. -/
def Embedding.sealed (E : Embedding V.noted) : Embedding V.noted where
  native n args := (E.native n args).sealed
  transform t o g := (E.transform t o g).sealed

/-- The words with programs from which the notes are hidden, and with notes of where the transforms
of a hook begin and end. -/
def Embedding.noting (E : Embedding V.noted) (k : HookId) : Embedding V.noted where
  native n args := (E.native n args).sealed
  transform t o g :=
    if o.hook = k then (Prog.jot (.began o.signature)).bind fun _ =>
      (E.transform t o g).sealed.closing o.signature
    else (E.transform t o g).sealed

/-- A transform of the hook runs between two notes. -/
theorem Embedding.exec_noting (E : Embedding V.noted)
    (again : (r : Request V.noted) → Exec V.noted r.Answer) (t : V.Transform) (o : Occasion)
    (g : Graph) (h : Host V.noted) :
    ((E.noting o.hook).transform t o g).exec again h
      = ((E.transform t o g).sealed.exec again (h.withNote (.began o.signature))).map fun x =>
        (x.1, x.2.withNote (.ended o.signature x.1)) := by
  rw [← Prog.exec_closing, ← Prog.exec_jot]
  exact congrArg (fun p => Prog.exec again p h) (if_pos rfl)

/-- Answers a request within some fuel, with notes of a hook. -/
def noted (E : Embedding V.noted) (k : HookId) : Nat → (r : Request V.noted) → Exec V.noted r.Answer
  | 0, _ => .outOfFuel
  | n + 1, r => do
    modify fun h => h.noting (h.note? k r)
    serve (noted E k n) (E.noting k) n r

theorem noted_succ (E : Embedding V.noted) (k : HookId) (n : Nat) (r : Request V.noted)
    (h : Host V.noted) :
    noted E k (n + 1) r h = serve (noted E k n) (E.noting k) n r (h.noting (h.note? k r)) := rfl

/-! ## Without the notes -/

/-- The memory without its notes. -/
def unnoted (m : V.noted.Memory) : V.noted.Memory := (m.1, [])

theorem Host.mapMemory_noting (h : Host V.noted) (note? : Option HookNote) :
    (h.noting note?).mapMemory unnoted = h.mapMemory unnoted := by
  cases note? <;> rfl

section Unnoted

variable {again again' : (r : Request V.noted) → Exec V.noted r.Answer}

/-- A sealed program does the same with and without notes. -/
theorem tied_sealed (hagain : ∀ r, Tied (Host.Beside unnoted fun _ => True) (again r) (again' r))
    (p : Prog V.noted α) :
    Tied (Host.Beside unnoted fun _ => True) (p.sealed.exec again) (p.sealed.exec again') := by
  induction p with
  | done a => exact .pure a
  | fail e => exact .throw e
  | read next ih =>
    refine .get fun h h' hbeside => ?_
    obtain rfl := hbeside.memory
    exact ih (h.memory.1, [])
  | write m next ih =>
    rintro h _ ⟨rfl, -⟩
    exact ih _ _ ⟨rfl, trivial⟩
  | ask r next ih => exact .bind (hagain r).observe ih

/-- A note more does no harm. -/
theorem tied_noting_transform
    (hagain : ∀ r, Tied (Host.Beside unnoted fun _ => True) (again r) (again' r))
    (E : Embedding V.noted) (k : HookId) (t : V.Transform) (o : Occasion) (g : Graph) :
    Tied (Host.Beside unnoted fun _ => True) (((E.noting k).transform t o g).exec again)
      ((E.sealed.transform t o g).exec again') := by
  by_cases hk : o.hook = k
  · subst hk
    rintro h _ ⟨rfl, -⟩
    have hrun :=
      tied_sealed hagain (E.transform t o g) (h.withNote (.began o.signature))
        (h.mapMemory unnoted) ⟨rfl, trivial⟩
    rw [E.exec_noting]
    show Option.Rel _ _ ((E.transform t o g).sealed.exec again' (h.mapMemory unnoted))
    generalize (E.transform t o g).sealed.exec again (h.withNote (.began o.signature)) = p at hrun ⊢
    generalize (E.transform t o g).sealed.exec again' (h.mapMemory unnoted) = q at hrun ⊢
    cases hrun with
    | none => exact .none
    | some hpq => exact .some ⟨hpq.1, hpq.2.memory, trivial⟩
  · rw [show (E.noting k).transform t o g = (E.transform t o g).sealed from if_neg hk]
    exact tied_sealed hagain _

theorem stable_true : Host.Stable (V := V) (fun _ => True) fun _ => True where
  install _ _ _ _ _ _ := trivial
  setGlobal _ _ _ _ := trivial
  registerHook _ _ _ := trivial
  compile _ _ _ _ _ _ := trivial
  depth _ _ _ := trivial
  decisions _ _ _ _ _ := trivial

/-- **Nothing depends on the notes.** A request with notes is answered as the sealed programs answer
it. -/
theorem tied_noted (E : Embedding V.noted) (k : HookId) (n : Nat) (r : Request V.noted) :
    Tied (Host.Beside unnoted fun _ => True) (noted E k n r) (perform E.sealed n r) := by
  induction n generalizing r with
  | zero => exact .outOfFuel
  | succ n ih =>
    have htying : Tying unnoted (fun _ => True) (fun _ => True) (E.noting k) E.sealed (noted E k n)
        (perform E.sealed n) :=
      { firm := stable_true.toFirm
        request := ih
        native := fun n args => tied_sealed ih (E.native n args)
        transform := fun t o g _ => tied_noting_transform ih E k t o g }
    have hserve := htying.serve (stable_true.toFirm.directUnit fun _ _ _ => trivial)
      stable_true.depth n r.within_all
    rw [serveBy_directUnit, serveBy_directUnit] at hserve
    -- the note is written first, and is not seen by the sealed programs
    rintro h _ ⟨rfl, -⟩
    exact hserve (h.noting (h.note? k r)) (h.mapMemory unnoted)
      ⟨(h.mapMemory_noting _).symm, trivial⟩

/-- A program that is noted gives what it gives without notes, and ends as it does then, but for the
notes. -/
theorem exec_unnoted (E : Embedding V.noted) (k : HookId) (n : Nat) (p : Prog V.noted α)
    (h : Host V.noted) :
    p.sealed.exec (perform E.sealed n) (h.mapMemory unnoted)
      = (p.sealed.exec (noted E k n) h).map fun x => (x.1, x.2.mapMemory unnoted) := by
  have hrun := tied_sealed (tied_noted E k n) p h (h.mapMemory unnoted) ⟨rfl, trivial⟩
  generalize p.sealed.exec (noted E k n) h = x at hrun ⊢
  generalize p.sealed.exec (perform E.sealed n) (h.mapMemory unnoted) = y at hrun ⊢
  cases hrun with
  | none => rfl
  | some hpq => exact congrArg some (Prod.ext hpq.1.symm hpq.2.memory)

end Unnoted

end Interpose
