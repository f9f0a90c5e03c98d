import Mathlib.Logic.Relation
import RakuTree.Proofs.PlanLogic
import RakuTree.Proofs.Standing

/-!
# RakuTree.Proofs.HereDocs

The bodies of here-docs over everything that is done with one source.

Bodies are claimed deep inside the productions, in the order in which productions happen
to run, and stay claimed when a production stops. What keeps them apart is one line of
`Ledger.claim`: a search never starts before the end of the last body. So all there is to
know about a claim is said once (`Ledger.claim_ok`), a build can do nothing to a ledger
but claim (`Build.Claiming`), and the rest is an induction over the claims (`Ledger.Sound`).
-/

namespace RakuTree

/-! ### Terminator lines -/

/-- The stretch from `start` to `stop` of a source can be the body of a here-doc with its terminator
line: it begins a line, holds something, and ends where a line ends. -/
structure IsBody (src : Text) (start stop : Int) : Prop where
  /-- There is a line before it, so it does not start at offset `0`. -/
  pos : 0 < start
  /-- At least the terminator is in it: `stop` is behind `start`. -/
  lt : start < stop
  /-- The stretch ends within `src`. -/
  le : stop ≤ src.length
  /-- The stretch begins a line: a newline stands in front of `start`. -/
  lineStart : Text.charAt? src (start - 1) = some '\n'
  /-- The stretch ends with a line: a newline stands at `stop`, or nothing. -/
  lineEnd : stop = src.length ∨ Text.charAt? src stop = some '\n'

namespace HereDocBody

variable {src terminator text : Text}

/-- A line that `terminatorLine?` accepts holds the terminator and ends where a line ends. -/
theorem terminatorLine?_ok {n : Nat} (h : terminatorLine? terminator text = some n) :
    terminator.length ≤ n ∧ n ≤ text.length ∧ (n = text.length ∨ text[n]? = some '\n') := by
  simp only [terminatorLine?] at h
  split at h
  · rename_i hprefix
    obtain ⟨tail, htail⟩ := List.isPrefixOf_iff_prefix.mp hprefix
    rw [← htail, List.drop_left] at h
    -- the line: indentation, terminator, blanks
    have hindent : (text.takeWhile Text.isBlank).length ≤ text.length :=
      (List.takeWhile_prefix _).length_le
    have hblanks : (tail.takeWhile Text.isBlank).length ≤ tail.length :=
      (List.takeWhile_prefix _).length_le
    have hlength : text.length =
        (text.takeWhile Text.isBlank).length + (terminator.length + tail.length) := by
      rw [← List.length_append, htail, List.length_drop]
      omega
    have hget : ∀ k, text[(text.takeWhile Text.isBlank).length + terminator.length + k]? =
        tail[k]? := by
      intro k
      rw [Nat.add_assoc, ← List.getElem?_drop, ← htail,
        List.getElem?_append_right (Nat.le_add_right _ _), Nat.add_sub_cancel_left]
    split at h
    · rename_i hnil
      have hend : tail.length ≤ (tail.takeWhile Text.isBlank).length :=
        List.drop_eq_nil_iff.mp hnil
      cases h
      exact ⟨by omega, by omega, .inl (by omega)⟩
    · rename_i c rest hcons
      split at h
      · rename_i hnewline
        cases h
        refine ⟨by omega, by omega, .inr ?_⟩
        have hhead : (tail.drop (tail.takeWhile Text.isBlank).length)[0]? = some c := by
          rw [hcons]
          rfl
        rw [hget, ← beq_iff_eq.mp hnewline, ← hhead, List.getElem?_drop, Nat.add_zero]
      · exact nomatch h
  · exact nomatch h

/-- A line that `findLine?` finds holds the terminator and ends where a line ends. -/
theorem findLine?_ok {atLine : Bool} {k n : Nat} (h : findLine? terminator atLine text = some (k, n)) :
    terminator.length ≤ n ∧ k + n ≤ text.length ∧
      (k + n = text.length ∨ text[k + n]? = some '\n') := by
  induction text generalizing atLine k with
  | nil => exact nomatch h
  | cons c cs ih =>
      rw [findLine?] at h
      split at h
      · rename_i m hline
        cases h
        split at hline
        · simpa using terminatorLine?_ok hline
        · exact nomatch hline
      · obtain ⟨⟨j, m⟩, hfound, hpair⟩ := Option.map_eq_some_iff.mp h
        cases hpair
        obtain ⟨hterminator, hle, hend⟩ := ih hfound
        have hsum : j + 1 + m = j + m + 1 := by omega
        rw [hsum, List.length_cons, List.getElem?_cons_succ]
        refine ⟨hterminator, by omega, hend.imp (fun hlen => ?_) fun hnewline => hnewline⟩
        rw [hlen]

/-- What `locate` finds is a body, and starts behind the offset `i` the search started from. -/
theorem locate_ok {i : Int} (hi : 0 ≤ i) {b : HereDocBody} (h : locate src i terminator = .ok b) :
    IsBody src b.start b.stop ∧ i < b.start := by
  simp only [locate] at h
  split at h
  · exact nomatch h
  · rename_i hterminator
    split at h
    · exact nomatch h
    · rename_i lineEnd hfind
      split at h
      · exact nomatch h
      · rename_i k n hline
        cases h
        obtain ⟨hwidth, hle, hend⟩ := findLine?_ok hline
        have hnonempty : 0 < terminator.length := by
          rw [List.length_pos_iff]
          exact fun hnil => hterminator (by simp [hnil])
        have hnewline : src[lineEnd]? = some '\n' := by
          obtain ⟨rest, hrest⟩ := Text.standsAt_of_find? hfind
          have hhead : (src.drop lineEnd)[0]? = some '\n' := by
            rw [← hrest]
            rfl
          rwa [List.getElem?_drop, Nat.add_zero] at hhead
        have hbehind : i ≤ lineEnd := by
          have hplace := Text.le_of_find? hfind
          rw [Text.place_of_nonneg hi] at hplace
          omega
        have hlt : lineEnd < src.length := (List.getElem?_eq_some_iff.mp hnewline).1
        rw [List.length_drop] at hle hend
        dsimp only
        refine ⟨⟨by omega, by omega, by omega, ?_, ?_⟩, by omega⟩
        · have hback : (((lineEnd + 1 : Nat) : Int) - 1) = (lineEnd : Int) := by omega
          rw [hback, Text.charAt?_natCast, hnewline]
        · rcases hend with hend | hend
          · exact .inl (by omega)
          · right
            rw [List.getElem?_drop, ← Nat.add_assoc] at hend
            rw [Text.charAt?_natCast, hend]

end HereDocBody

/-! ### Ledgers -/

/-- A body with a `start` that is not there yet is recorded at the end. -/
theorem HereDocs.recordIn_of_forall_ne {start : Int} (stop : Int) {entries : List (Int × Int)}
    (h : ∀ e ∈ entries, e.1 ≠ start) :
    recordIn start stop entries = entries ++ [(start, stop)] := by
  induction entries with
  | nil => rfl
  | cons e es ih =>
      obtain ⟨he, hrest⟩ := List.forall_mem_cons.mp h
      rw [recordIn, if_neg he, ih hrest, List.cons_append]

namespace Ledger

variable {src : Text} {l l' : Ledger}

/-- From `l` to `l'`, a here-doc of the source claims its body. -/
def Claims (src : Text) (l l' : Ledger) : Prop :=
  ∃ quoteEnd terminator lines, l.claim src quoteEnd terminator = .ok (lines, l')

/-- What a claim does: it records a body that starts behind the `tail`, and moves the `tail` to its
end. -/
theorem claim_ok (h : Claims src l l') :
    ∃ start stop : Nat, IsBody src start stop ∧ l.tail < start ∧
      l' = { hereDocs := l.hereDocs.record start stop, tail := stop } := by
  obtain ⟨quoteEnd, terminator, lines, h⟩ := h
  rw [claim] at h
  cases hlocate : HereDocBody.locate src (max quoteEnd l.tail) terminator with
  | error e =>
      rw [hlocate] at h
      exact nomatch h
  | ok body =>
      rw [hlocate] at h
      cases h
      obtain ⟨hbody, hbehind⟩ := HereDocBody.locate_ok (by omega) hlocate
      exact ⟨body.start, body.stop, hbody, by omega, rfl⟩

/-- All that `l` has recorded are bodies, each behind the end of those before it, and none goes
beyond the tail. -/
structure Sound (src : Text) (l : Ledger) : Prop where
  /-- What is recorded is a body, by `IsBody`. -/
  bodies : ∀ e ∈ l.hereDocs.entries, IsBody src e.1 e.2
  /-- A body starts behind the end of every body that was recorded before it. -/
  ordered : l.hereDocs.entries.Pairwise fun d e => d.2 < e.1
  /-- No body ends behind the `tail`. -/
  tail : ∀ e ∈ l.hereDocs.entries, e.2 ≤ l.tail

theorem sound_empty (src : Text) : Sound src {} where
  bodies := fun _ he => absurd he List.not_mem_nil
  ordered := List.Pairwise.nil
  tail := fun _ he => absurd he List.not_mem_nil

/-- A claim keeps a ledger `Sound`, and adds to its entries. -/
theorem Sound.claims (hl : Sound src l) (h : Claims src l l') :
    Sound src l' ∧ l.hereDocs.entries <+: l'.hereDocs.entries := by
  obtain ⟨start, stop, hbody, htail, rfl⟩ := claim_ok h
  have hbehind : ∀ e ∈ l.hereDocs.entries, e.2 < (start : Int) := by
    intro e he
    have hle := hl.tail e he
    omega
  have hrecord : (l.hereDocs.record start stop).entries =
      l.hereDocs.entries ++ [((start : Int), (stop : Int))] := by
    refine HereDocs.recordIn_of_forall_ne _ fun e he hstart => ?_
    have hlt := (hl.bodies e he).lt
    have hlt' := hbehind e he
    omega
  refine ⟨⟨?_, ?_, ?_⟩, ?_⟩
  · simp only [hrecord, List.mem_append, List.mem_singleton]
    rintro e (he | rfl)
    · exact hl.bodies e he
    · exact hbody
  · simp only [hrecord, List.pairwise_append, List.mem_singleton]
    refine ⟨hl.ordered, List.pairwise_singleton _ _, ?_⟩
    rintro e he _ rfl
    exact hbehind e he
  · have hlt := hbody.lt
    simp only [hrecord, List.mem_append, List.mem_singleton]
    rintro e (he | rfl)
    · have hle := hbehind e he
      omega
    · exact Int.le_refl _
  · rw [hrecord]
    exact List.prefix_append _ _

/-- Any number of claims keep a ledger `Sound`, and add to its entries. -/
theorem Sound.claims_many (hl : Sound src l) (h : Relation.ReflTransGen (Claims src) l l') :
    Sound src l' ∧ l.hereDocs.entries <+: l'.hereDocs.entries := by
  induction h with
  | refl => exact ⟨hl, List.prefix_rfl⟩
  | tail _ hclaim ih =>
      obtain ⟨hsound, hprefix⟩ := ih
      obtain ⟨hsound', hprefix'⟩ := hsound.claims hclaim
      exact ⟨hsound', hprefix.trans hprefix'⟩

end Ledger

/-! ### Builds -/

/-- From `s` to `t`, bodies were claimed, and all productions that began to work are through. -/
structure BuildState.Follows (src : Text) (s t : BuildState) : Prop where
  /-- Nothing but `Claims` was done to the ledger. -/
  ledger : Relation.ReflTransGen (Ledger.Claims src) s.ledger t.ledger
  /-- The same productions are at work in `t` as in `s`. -/
  working : t.working = s.working

namespace BuildState.Follows

variable {src : Text} {s t u : BuildState}

theorem refl (src : Text) (s : BuildState) : Follows src s s := ⟨.refl, rfl⟩

theorem trans (hst : Follows src s t) (htu : Follows src t u) : Follows src s u :=
  ⟨hst.ledger.trans htu.ledger, htu.working.trans hst.working⟩

end BuildState.Follows

namespace Build

variable {α β : Type} {src : Text}

/-- The state that a build leaves, whether it is `ok` or an `error`. -/
def stateOf : EStateM.Result Fault BuildState α → BuildState
  | .ok _ s => s
  | .error _ s => s

/-- Whether it returns or stops, the build `x` does nothing to the ledger but claim bodies, and no
production stays at work. -/
def Claiming (src : Text) (x : Build α) : Prop :=
  ∀ s : BuildState, s.Follows src (stateOf (x.run s))

theorem Claiming.pure (a : α) : Claiming src (Pure.pure a : Build α) := fun s => .refl src s

theorem Claiming.throw (e : Fault) : Claiming src (MonadExcept.throw e : Build α) :=
  fun s => .refl src s

theorem Claiming.log (events : List Event) : Claiming src (log events) := fun _ => ⟨.refl, rfl⟩

theorem Claiming.bind {x : Build α} {k : α → Build β} (hx : Claiming src x)
    (hk : ∀ a, Claiming src (k a)) : Claiming src (x >>= k) := by
  intro s
  have hs := hx s
  rw [run_bind]
  cases hxs : x.run s with
  | ok a t =>
      rw [hxs] at hs
      exact hs.trans (hk a t)
  | error e t =>
      rw [hxs] at hs
      exact hs

theorem Claiming.refuse (r : Refusal) : Claiming src (refuse r : Build α) :=
  (Claiming.log _).bind fun _ => .throw _

/-- A production `p` that does its work is through with it in the end (`Build.within`). -/
theorem Claiming.within {x : Build α} (hx : Claiming src x) (p : Production) :
    Claiming src (within p x) := by
  intro s
  obtain ⟨hledger, hworking⟩ := hx (s.enter p)
  rw [run_within]
  cases hxs : x.run (s.enter p) with
  | ok a t =>
      rw [hxs] at hledger hworking
      exact ⟨hledger, congrArg List.tail hworking⟩
  | error e t =>
      rw [hxs] at hledger hworking
      exact ⟨hledger, congrArg List.tail hworking⟩

end Build

theorem Plan.claimHereDoc_claiming (f : Frame) (terminator : Text) :
    (claimHereDoc f terminator).Claiming f.src := by
  intro s
  simp only [claimHereDoc, Build.run_bind, EStateM.run_get]
  cases hclaim : s.ledger.claim f.src f.self.stop terminator with
  | error e => exact Build.Claiming.refuse _ s
  | ok found => exact ⟨.single ⟨f.self.stop, terminator, found.1, hclaim⟩, rfl⟩

theorem Plan.run_claiming {f : Frame} {α : Type} (x : Plan f α)
    {inner : Production → Option f.self.Inner → Build (List Element)}
    (h : ∀ p c?, (inner p c?).Claiming f.src) : (x.run inner).Claiming f.src := by
  induction x with
  | done a => exact .pure a
  | fail e => exact .throw e
  | refuse r => exact .refuse r
  | hereDoc terminator next ih => exact (claimHereDoc_claiming f terminator).bind ih
  | build p c? next ih => exact (h p c?).bind ih

theorem produceAbsent_claiming (src : Text) (options : Options) (p : Production) :
    (produceAbsent options p).Claiming src := (Build.Claiming.throw _).within p

theorem produce_claiming (src : Text) (options : Options) (p : Production) (m : Match) :
    (produce src options p m).Claiming src := by
  induction m using Match.inner_induction generalizing p with
  | step m ih =>
      have hinner : ∀ q (c? : Option m.Inner), (produceInner src options q c?).Claiming src := by
        intro q c?
        cases c? with
        | none => exact produceAbsent_claiming src options q
        | some c => exact ih c q
      have hplan := (p.rule ⟨src, p, m⟩).run_claiming hinner
      rw [produce_eq]
      refine Build.Claiming.within ?_ p
      split
      · exact (Build.Claiming.log _).bind fun _ => hplan
      · exact hplan

theorem produceNamed_claiming (src : Text) (options : Options) (name : String)
    (m? : Option Match) : (produceNamed src options name m?).Claiming src := by
  unfold produceNamed
  split
  · cases m? with
    | none => exact produceAbsent_claiming src options _
    | some m => exact produce_claiming src options _ m
  · exact .throw _

/-! ### Calls -/

/-- A call of a production by its name, as `produceNamed` takes it. -/
structure Call where
  /-- The name of the production; there need not be one with that key. -/
  name : String
  /-- The match it is to work on; if it is `none`, the production stops. -/
  match? : Option Match

namespace Call

/-- The state after a call from state `s`, whether it returns or stops. -/
def after (src : Text) (options : Options) (s : BuildState) (c : Call) : BuildState :=
  Build.stateOf ((produceNamed src options c.name c.match?).run s)

/-- The state after `calls` that start from nothing, one after the other. -/
def afterAll (src : Text) (options : Options) (calls : List Call) : BuildState :=
  calls.foldl (after src options) {}

theorem follows_foldl (src : Text) (options : Options) (s : BuildState) (calls : List Call) :
    s.Follows src (calls.foldl (after src options) s) := by
  induction calls generalizing s with
  | nil => exact .refl src s
  | cons c calls ih => exact (produceNamed_claiming src options c.name c.match? s).trans (ih _)

/-- **Here-docs over whole runs.** After any calls on one source, whether they returned or
stopped: everything recorded is the body of a here-doc; a body starts behind the end of
every body recorded before it, so no two overlap; no production is at work; and further
calls keep what is recorded as it is and add bodies behind all of it. -/
theorem here_docs_sound_after_calls (src : Text) (options : Options) (calls : List Call) :
    (∀ e ∈ (afterAll src options calls).ledger.hereDocs.entries, IsBody src e.1 e.2) ∧
      (afterAll src options calls).ledger.hereDocs.entries.Pairwise (fun d e => d.2 < e.1) ∧
      (afterAll src options calls).origin? = none ∧
      ∀ more, ∃ new,
        (afterAll src options (calls ++ more)).ledger.hereDocs.entries =
          (afterAll src options calls).ledger.hereDocs.entries ++ new ∧
        ∀ d ∈ (afterAll src options calls).ledger.hereDocs.entries, ∀ e ∈ new, d.2 < e.1 := by
  have hcalls : ({} : BuildState).Follows src (afterAll src options calls) :=
    follows_foldl src options {} calls
  obtain ⟨hsound, -⟩ := (Ledger.sound_empty src).claims_many hcalls.ledger
  refine ⟨hsound.bodies, hsound.ordered, ?_, fun more => ?_⟩
  · rw [BuildState.origin?, hcalls.working]
    rfl
  · have hmore := follows_foldl src options (afterAll src options calls) more
    obtain ⟨hsound', new, hnew⟩ := hsound.claims_many hmore.ledger
    rw [afterAll, List.foldl_append]
    refine ⟨new, hnew.symm, ?_⟩
    have hordered := hsound'.ordered
    rw [← hnew, List.pairwise_append] at hordered
    exact hordered.2.2

/-- A quote that starts with `q`. -/
def sampleQuote (start stop : Int) : Match :=
  .node start stop [("sym", .one (.plain start (start + 1))),
    ("quibble", .one (.plain (start + 1) stop))] [] none

-- Two here-docs that open on one line, with a call in between that is refused.
example : (afterAll "q:to/A/, q:to/B/\nx\nA\ny\nB\n".toList {}
    [⟨"quote", some (sampleQuote 0 7)⟩, ⟨"quote", some (sampleQuote 7 8)⟩,
      ⟨"quote", some (sampleQuote 9 16)⟩]).ledger.hereDocs.entries = [(17, 20), (21, 24)] := by
  decide +kernel

end Call

end RakuTree
