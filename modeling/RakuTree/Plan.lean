import RakuTree.Gap
import RakuTree.Production

/-!
# RakuTree.Plan

What a rule does, as data.

A rule looks at one match (a `Frame`) and answers with a `Plan`: the elements the
match comes to, with the few things a rule may do on the way spelled out as
constructors.

* Inner matches are built by asking for them (`Plan.build`). Only inner matches can
  be asked for, so following plans ends.
* The lines of a here-doc are claimed (`Plan.hereDoc`).
* A match is refused (`Plan.refuse`), which is logged; other faults just stop.

Nothing else has an effect. What holds of these four steps holds of every rule.
-/

namespace RakuTree

/-- A production at work on a match in its source: what a `Rule` is given. -/
structure Frame where
  /-- The whole source, which the offsets of `self` belong to. -/
  src : Text
  /-- The production at work. Its key is the `Frame.origin` of what it makes. -/
  production : Production
  /-- The match it works on. -/
  self : Match

/-- What a rule does with the match of frame `f` to come to an `α`. -/
inductive Plan (f : Frame) (α : Type)
  /-- Returns `a`; nothing is left to do. -/
  | done (a : α)
  /-- Stops with the fault `e`, which is not logged. -/
  | fail (e : Fault)
  /-- Logs the refusal `r` and stops. -/
  | refuse (r : Refusal)
  /-- Claims the lines up to `terminator` for a here-doc that `f.self` opens, and goes on with them
  by `next`. -/
  | hereDoc (terminator : Text) (next : Text → Plan f α)
  /-- Build the inner match `c?` by production `p`, and go on with its elements. The match may be
  missing; what comes of that is for `p` to say. -/
  | build (p : Production) (c? : Option f.self.Inner) (next : List Element → Plan f α)

namespace Plan

variable {f : Frame} {α β : Type}

/-- One plan after the other: what the first one returns is handed to `k`. -/
def bind : Plan f α → (α → Plan f β) → Plan f β
  | done a, k => k a
  | fail e, _ => fail e
  | refuse r, _ => refuse r
  | hereDoc t next, k => hereDoc t fun s => (next s).bind k
  | build p c next, k => build p c fun es => (next es).bind k

instance : Monad (Plan f) where
  pure := done
  bind := bind

@[simp] theorem pure_eq_done (a : α) : (pure a : Plan f α) = done a := rfl

@[simp] theorem bind_eq_bind (x : Plan f α) (k : α → Plan f β) : x >>= k = x.bind k := rfl

@[simp] theorem bind_done (x : Plan f α) : x.bind done = x := by
  induction x with
  | done => rfl
  | fail => rfl
  | refuse => rfl
  | hereDoc t next ih => simp [bind, ih]
  | build p c next ih => simp [bind, ih]

theorem bind_assoc {γ : Type} (x : Plan f α) (k : α → Plan f β) (l : β → Plan f γ) :
    (x.bind k).bind l = x.bind fun a => (k a).bind l := by
  induction x with
  | done => rfl
  | fail => rfl
  | refuse => rfl
  | hereDoc t next ih => simp [bind, ih]
  | build p c next ih => simp [bind, ih]

instance : LawfulMonad (Plan f) :=
  LawfulMonad.mk' (Plan f) (fun x => bind_done x) (fun _ _ => rfl) bind_assoc

/-- Returns a node, or stops with a `Fault.element` if it cannot be made. -/
def ofElement : Except ElementError α → Plan f α
  | .ok a => done a
  | .error e => fail (.element e)

end Plan

/-- What a production makes of the match of a `Frame`. -/
abbrev Rule := (f : Frame) → Plan f (List Element)

end RakuTree
