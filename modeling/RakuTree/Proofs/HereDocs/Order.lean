import RakuTree.Match.Sketch
import RakuTree.Document
import RakuTree.Proofs.HereDocs.Lines

/-!
# RakuTree.Proofs.HereDocs.Order

Which here-doc takes which body.

A here-doc takes the first free lines at the time it is built, so bodies are handed out in the
order in which productions run (`produce_takes`). That is the order of the quotes in the source
exactly when every production at work resolves its parts in source order
(`resolutions_pairwise_iff`). There is no list here of the productions that always do. Some do not,
and `Production.BuildsFirst` names two of them: `declarator` builds its initializer, and `methodop`
its arguments, before what stands in front of them. Others build a later part first only in some of
their branches, as `typename` and `moduleName` do with arguments in brackets.
-/

namespace RakuTree

/-- A here-doc that was resolved: its quote, and the body it took. -/
structure Resolved where
  /-- The match of the quote, whose `stop` the body stands behind. -/
  quote : Match
  /-- The body, as `HereDocBody.locate` found it. -/
  body : HereDocBody

namespace Resolved

/-- What `HereDocs.record` keeps of it. -/
def entry (r : Resolved) : Int × Int := (r.body.start, r.body.stop)

/-- Does the quote of `x` stand no later than that of `y`? -/
def NotAfter (x y : Resolved) : Prop := x.quote.start ≤ y.quote.start

/-- Of two quotes in `rs`, the one that stands first has the body that stands first. -/
def InSourceOrder (rs : List Resolved) : Prop :=
  ∀ x ∈ rs, ∀ y ∈ rs, x.quote.start < y.quote.start → x.body.start < y.body.start

instance (rs : List Resolved) : Decidable (InSourceOrder rs) :=
  inferInstanceAs (Decidable (∀ x ∈ rs, ∀ y ∈ rs,
    x.quote.start < y.quote.start → x.body.start < y.body.start))

/-- If bodies are handed out from front to back, they are in source order just when the quotes are
resolved in source order, by `NotAfter`. -/
theorem inSourceOrder_iff {rs : List Resolved}
    (h : rs.Pairwise fun x y => x.body.start < y.body.start) :
    InSourceOrder rs ↔ rs.Pairwise NotAfter := by
  constructor
  · intro horder
    refine h.imp_of_mem fun {x y} hx hy hlt => ?_
    by_contra hafter
    have hgt := horder y hy x hx (Int.not_le.mp hafter)
    omega
  · intro hquotes
    have hforward : rs.Pairwise fun x y =>
        x.quote.start < y.quote.start → x.body.start < y.body.start :=
      h.imp fun {x y} hlt (_ : x.quote.start < y.quote.start) => hlt
    -- of two in the list, the later one cannot have its quote in front
    have hflip : rs.Pairwise fun x y =>
        y.quote.start < x.quote.start → y.body.start < x.body.start :=
      hquotes.imp fun hle hlt => absurd hlt (Int.not_lt.mpr hle)
    exact fun x hx y hy => hforward.forall_of_forall_of_flip
      (fun x _ hlt => absurd hlt (Int.lt_irrefl _)) hflip hx hy

end Resolved

/-! ### Taking bodies -/

namespace Ledger

/-- The ledger when the body `b` is taken. -/
def take (l : Ledger) (b : HereDocBody) : Ledger :=
  { hereDocs := l.hereDocs.record b.start b.stop, tail := b.stop }

/-- A claim takes the body `b` that `HereDocBody.locate` finds. -/
theorem claim_of_locate {src terminator : Text} {l : Ledger} {quoteEnd : Int} {b : HereDocBody}
    (h : HereDocBody.locate src (max quoteEnd l.tail) terminator = .ok b) :
    l.claim src quoteEnd terminator = .ok (b.lines src, l.take b) := by
  rw [claim, h]
  rfl

/-- From one ledger to the other, some here-docs took their bodies one after another, each of them
behind the `tail` that the one before it left. -/
inductive Takes (src : Text) : Ledger → List Resolved → Ledger → Prop
  /-- No here-doc takes a body, and the ledger stays as it is. -/
  | nil {l : Ledger} : Takes src l [] l
  /-- The here-doc `r` takes its body, and then `rs` take theirs. -/
  | cons {l l' : Ledger} {r : Resolved} {rs : List Resolved}
      (body : IsBody src r.body.start r.body.stop) (behind : (l.tail : Int) < r.body.start)
      (rest : Takes src (l.take r.body) rs l') : Takes src l (r :: rs) l'

namespace Takes

variable {src : Text} {l l' l'' : Ledger} {rs rs' : List Resolved}

theorem append (h : Takes src l rs l') (h' : Takes src l' rs' l'') :
    Takes src l (rs ++ rs') l'' := by
  induction h with
  | nil => exact h'
  | cons body behind _ ih => exact .cons body behind (ih h')

/-- All bodies are behind the `tail` of the first ledger. -/
theorem behind (h : Takes src l rs l') : ∀ r ∈ rs, l.tail < r.body.start := by
  induction h with
  | nil => exact fun _ hr => absurd hr List.not_mem_nil
  | cons body behind _ ih =>
      intro x hx
      rcases List.mem_cons.mp hx with rfl | hx
      · omega
      · have hlt := body.lt
        have hrest := ih x hx
        simp only [take] at hrest
        omega

/-- Bodies that here-docs take are handed out from front to back: `Takes` is ordered. -/
theorem ordered (h : Takes src l rs l') :
    rs.Pairwise fun x y => x.body.start < y.body.start := by
  induction h with
  | nil => exact .nil
  | cons body _ rest ih =>
      refine .cons (fun x hx => ?_) ih
      have hlt := body.lt
      have hbehind := rest.behind x hx
      simp only [take] at hbehind
      omega

/-- The bodies of `rs` are all that is added to the record. -/
theorem entries (h : Takes src l rs l') (hl : ∀ e ∈ l.hereDocs.entries, e.1 ≤ l.tail) :
    l'.hereDocs.entries = l.hereDocs.entries ++ rs.map Resolved.entry := by
  induction h with
  | nil => rw [List.map_nil, List.append_nil]
  | @cons l l' r rs body behind _ ih =>
      have hrecord : (l.take r.body).hereDocs.entries = l.hereDocs.entries ++ [r.entry] := by
        refine HereDocs.recordIn_of_forall_ne _ fun e he hstart => ?_
        have hle := hl e he
        omega
      rw [ih, hrecord, List.append_assoc, List.map_cons, List.singleton_append]
      intro e he
      rw [hrecord, List.mem_append, List.mem_singleton] at he
      have hlt := body.lt
      simp only [take]
      rcases he with he | rfl
      · have hle := hl e he
        omega
      · exact Int.le_of_lt hlt

end Takes

end Ledger

/-! ### The here-docs of a match -/

namespace Plan

variable {f : Frame} {α : Type}

/-- The here-docs that following a plan from state `s` resolves, part by part in the order of
the plan: those of an inner match are one part, and so is the one that the match claims itself.
`under` gives those of inner matches. -/
def parts (inner : Production → Option f.self.Inner → Build (List Element))
    (under : Production → Option f.self.Inner → BuildState → List Resolved) :
    Plan f α → BuildState → List (List Resolved)
  | done _, _ => []
  | fail _, _ => []
  | refuse _, _ => []
  | hereDoc terminator next, s =>
    match HereDocBody.locate f.src (max f.self.stop s.ledger.tail) terminator with
    | .ok b =>
      [⟨f.self, b⟩] :: (next (b.lines f.src)).parts inner under { s with ledger := s.ledger.take b }
    | .error _ => []
  | build p c? next, s =>
    under p c? s ::
      match (inner p c?).run s with
      | .ok es t => (next es).parts inner under t
      | .error _ _ => []

variable {inner : Production → Option f.self.Inner → Build (List Element)}
  {under : Production → Option f.self.Inner → BuildState → List Resolved}

/-- Following a plan takes bodies for its `parts`, one after the other. -/
theorem run_takes (x : Plan f α)
    (h : ∀ p c? s, Ledger.Takes f.src s.ledger (under p c? s)
      (Build.stateOf ((inner p c?).run s)).ledger) (s : BuildState) :
    Ledger.Takes f.src s.ledger (x.parts inner under s).flatten
      (Build.stateOf ((x.run inner).run s)).ledger := by
  induction x generalizing s with
  | done a => exact .nil
  | fail e => exact .nil
  | refuse r => exact .nil
  | hereDoc terminator next ih =>
      rw [run, parts, Build.run_bind]
      cases hlocate : HereDocBody.locate f.src (max f.self.stop s.ledger.tail) terminator with
      | ok b =>
          obtain ⟨hbody, hbehind⟩ := HereDocBody.locate_ok (by omega) hlocate
          rw [claimHereDoc_ok (Ledger.claim_of_locate hlocate)]
          exact .cons hbody (Int.lt_of_le_of_lt (Int.le_max_right _ _) hbehind)
            (ih (b.lines f.src) { s with ledger := s.ledger.take b })
      | error e =>
          rw [claimHereDoc_error (Ledger.claim_of_locate_error hlocate)]
          exact .nil
  | build p c? next ih =>
      have hinner := h p c? s
      rw [run, parts, Build.run_bind, List.flatten_cons]
      cases hrun : (inner p c?).run s with
      | ok es t =>
          rw [hrun] at hinner
          exact hinner.append (ih es t)
      | error e t =>
          rw [hrun] at hinner
          rw [List.flatten_nil, List.append_nil]
          exact hinner

/-- What is resolved under an inner match that is asked for is one of the `parts`. -/
theorem under_mem_parts {x : Plan f α} {s t : BuildState} {p : Production}
    {c? : Option f.self.Inner} (h : (p, c?, t) ∈ x.asked inner s) :
    under p c? t ∈ x.parts inner under s := by
  induction x generalizing s with
  | done a => exact absurd h List.not_mem_nil
  | fail e => exact absurd h List.not_mem_nil
  | refuse r => exact absurd h List.not_mem_nil
  | hereDoc terminator next ih =>
      rw [asked] at h
      rw [parts]
      cases hlocate : HereDocBody.locate f.src (max f.self.stop s.ledger.tail) terminator with
      | ok b =>
          rw [claimHereDoc_ok (Ledger.claim_of_locate hlocate)] at h
          exact List.mem_cons_of_mem _ (ih _ h)
      | error e =>
          rw [claimHereDoc_error (Ledger.claim_of_locate_error hlocate)] at h
          exact absurd h List.not_mem_nil
  | build q d next ih =>
      rw [asked] at h
      rw [parts]
      rcases List.mem_cons.mp h with heq | h
      · cases heq
        exact List.mem_cons_self
      · refine List.mem_cons_of_mem _ ?_
        cases hrun : (inner q d).run s with
        | ok es u =>
            rw [hrun] at h
            exact ih es h
        | error e u =>
            rw [hrun] at h
            exact absurd h List.not_mem_nil

/-- Each of the `parts` is a here-doc of the match itself, or what is resolved under an inner match
that is asked for. -/
theorem of_mem_parts {x : Plan f α} {s : BuildState} {part : List Resolved}
    (h : part ∈ x.parts inner under s) :
    (∃ b, part = [⟨f.self, b⟩]) ∨
      ∃ p c? t, (p, c?, t) ∈ x.asked inner s ∧ part = under p c? t := by
  induction x generalizing s with
  | done a => exact absurd h List.not_mem_nil
  | fail e => exact absurd h List.not_mem_nil
  | refuse r => exact absurd h List.not_mem_nil
  | hereDoc terminator next ih =>
      rw [parts] at h
      rw [asked]
      cases hlocate : HereDocBody.locate f.src (max f.self.stop s.ledger.tail) terminator with
      | ok b =>
          rw [hlocate] at h
          rw [claimHereDoc_ok (Ledger.claim_of_locate hlocate)]
          rcases List.mem_cons.mp h with rfl | h
          · exact .inl ⟨b, rfl⟩
          · exact ih _ h
      | error e =>
          rw [hlocate] at h
          exact absurd h List.not_mem_nil
  | build q d next ih =>
      rw [parts] at h
      rw [asked]
      rcases List.mem_cons.mp h with rfl | h
      · exact .inr ⟨q, d, s, List.mem_cons_self, rfl⟩
      · cases hrun : (inner q d).run s with
        | ok es u =>
            rw [hrun] at h
            rcases ih es h with hself | ⟨p, c, t, hc, hpart⟩
            · exact .inl hself
            · exact .inr ⟨p, c, t, List.mem_cons_of_mem _ hc, hpart⟩
        | error e u =>
            rw [hrun] at h
            exact absurd h List.not_mem_nil

end Plan

/-- The here-docs that are resolved when `m` is built by `p` from state `s`, in the order in
which they take their bodies. -/
def resolutions (src : Text) (options : Options) (p : Production) (m : Match) (s : BuildState) :
    List Resolved :=
  ((p.rule ⟨src, p, m⟩).parts (produceInner src options)
    (fun q c? t => c?.elim [] fun c => resolutions src options q c.val t)
    (s.entered options p m)).flatten
termination_by sizeOf m
decreasing_by exact c.inside.sizeOf_lt

/-- The here-docs of `resolutions`, part by part. -/
def resolvedParts (src : Text) (options : Options) (p : Production) (m : Match)
    (s : BuildState) : List (List Resolved) :=
  (p.rule ⟨src, p, m⟩).parts (produceInner src options)
    (fun q c? t => c?.elim [] fun c => resolutions src options q c.val t) (s.entered options p m)

variable {src : Text} {options : Options} {p : Production} {m : Match} {s : BuildState}

theorem resolutions_eq_flatten :
    resolutions src options p m s = (resolvedParts src options p m s).flatten := by
  rw [resolutions, resolvedParts]

theorem Build.stateOf_left_ledger {α : Type} (r : EStateM.Result Fault BuildState α) :
    (stateOf (left r)).ledger = (stateOf r).ledger := by
  cases r with
  | ok a t => rfl
  | error e t => rfl

/-- A build takes bodies for its here-docs in the order of `resolutions`, whether it returns or
stops. -/
theorem produce_takes (src : Text) (options : Options) (p : Production) (m : Match)
    (s : BuildState) :
    Ledger.Takes src s.ledger (resolutions src options p m s)
      (Build.stateOf ((produce src options p m).run s)).ledger := by
  induction m using Match.inner_induction generalizing p s with
  | step m ih =>
      have hinner : ∀ q (c? : Option m.Inner) t,
          Ledger.Takes src t.ledger (c?.elim [] fun c => resolutions src options q c.val t)
            (Build.stateOf ((produceInner src options q c?).run t)).ledger := by
        intro q c? t
        cases c? with
        | none => exact .nil
        | some c => exact ih c q t
      have hplan := (p.rule ⟨src, p, m⟩).run_takes hinner (s.entered options p m)
      rw [BuildState.entered_ledger] at hplan
      rw [produce_run, Build.stateOf_left_ledger, resolutions]
      exact hplan

/-- All quotes in `resolutions` belong to the tree of the match `m`. -/
theorem quote_within {r : Resolved} (h : r ∈ resolutions src options p m s) :
    r.quote = m ∨ r.quote.Inside m := by
  induction m using Match.inner_induction generalizing p s with
  | step m ih =>
      rw [resolutions] at h
      obtain ⟨part, hpart, hr⟩ := List.mem_flatten.mp h
      rcases Plan.of_mem_parts hpart with ⟨b, rfl⟩ | ⟨q, c?, t, -, rfl⟩
      · rw [List.mem_singleton.mp hr]
        exact .inl rfl
      · cases c? with
        | none => exact absurd hr List.not_mem_nil
        | some c =>
            rcases ih c hr with heq | hinside
            · exact .inr (heq ▸ c.inside)
            · exact .inr (.trans hinside c.inside)

/-- While `m` is built by `p` from state `s`, production `q` comes to work on `d` from state
`t`. -/
inductive Works (src : Text) (options : Options) :
    Production → Match → BuildState → Production → Match → BuildState → Prop
  /-- The production `p` is at work on the match `m` itself. -/
  | self {p : Production} {m : Match} {s : BuildState} : Works src options p m s p m s
  /-- A production `r` is at work on something inside an inner match `c` that is asked for. -/
  | inner {p q r : Production} {m d : Match} {c : m.Inner} {s t u : BuildState}
      (asked : (q, some c, t) ∈ (p.rule ⟨src, p, m⟩).asked (produceInner src options)
        (s.entered options p m))
      (works : Works src options q c.val t r d u) : Works src options p m s r d u

/-- The `resolutions` of a match are in some order `R` just when all productions at work resolve
their parts in that order. -/
theorem resolutions_pairwise_iff {R : Resolved → Resolved → Prop} :
    (resolutions src options p m s).Pairwise R ↔
      ∀ q d t, Works src options p m s q d t →
        (resolvedParts src options q d t).Pairwise fun front back =>
          ∀ x ∈ front, ∀ y ∈ back, R x y := by
  induction m using Match.inner_induction generalizing p s with
  | step m ih =>
      rw [resolutions_eq_flatten, List.pairwise_flatten]
      constructor
      · rintro ⟨hwithin, hparts⟩ q d t hworks
        cases hworks with
        | self => exact hparts
        | @inner _ _ _ _ _ c _ _ _ hasked hworks =>
            have hinner := hwithin _ (Plan.under_mem_parts hasked)
            exact (ih c).mp hinner q d t hworks
      · intro h
        refine ⟨fun part hpart => ?_, h p m s .self⟩
        rcases Plan.of_mem_parts hpart with ⟨b, rfl⟩ | ⟨q, c?, t, hasked, rfl⟩
        · exact List.pairwise_singleton _ _
        · cases c? with
          | none => exact .nil
          | some c =>
              exact (ih c).mpr fun r d u hworks =>
                h r d u (.inner hasked hworks)

/-! ### Productions that start with a later part -/

/-- `p.BuildsFirst q`: before anything else, the rule of `p` builds the capture that belongs to
`q`, if it has content, although other captures stand in front of it. Not every pair of productions
that is out of order somewhere is listed. -/
inductive Production.BuildsFirst : Production → Production → Prop
  /-- `declarator` starts with its `initializer`: `my @a[3] = 1`. -/
  | initializer : BuildsFirst .declarator .initializer
  /-- `methodop` starts with its `args`: `."name"(1)`. -/
  | args : BuildsFirst .methodop .args

theorem Frame.buildIf_bind {f : Frame} {q : Production} {c : f.self.Inner} {α : Type}
    (hhas : f.shape.has q.key = true) (hget : f.get? q.key = some c)
    (k : List Element → Plan f α) : f.buildIf q >>= k = .build q (some c) k := by
  rw [buildIf, if_pos hhas, buildKey, hget]
  rfl

theorem Production.BuildsFirst.rule_eq {p q : Production} (h : p.BuildsFirst q) {f : Frame}
    {c : f.self.Inner} (hhas : f.shape.has q.key = true) (hget : f.get? q.key = some c) :
    ∃ next, p.rule f = .build q (some c) next := by
  cases h with
  | initializer => exact ⟨_, Frame.buildIf_bind hhas hget _⟩
  | args => exact ⟨_, Frame.buildIf_bind hhas hget _⟩

/-- The part that is built first, by `BuildsFirst`, is the first one to resolve here-docs. -/
theorem Production.BuildsFirst.resolvedParts_eq (src : Text) (options : Options)
    (s : BuildState) {p q : Production} (h : p.BuildsFirst q) {c : m.Inner}
    (hhas : (Shape.of m).has q.key = true) (hget : m.inner? q.key = some c) :
    ∃ rest, resolvedParts src options p m s =
      resolutions src options q c.val (s.entered options p m) :: rest := by
  obtain ⟨next, hrule⟩ := h.rule_eq (f := ⟨src, p, m⟩) hhas hget
  rw [resolvedParts, hrule, Plan.parts]
  exact ⟨_, rfl⟩

/-! ### Documents -/

namespace Document

theorem tokensOf_ledger {r : Layout.Reading} {s t : BuildState} {ts : List Element}
    (h : (tokensOf r).run s = .ok ts t) : t.ledger = s.ledger := by
  rw [tokensOf] at h
  obtain ⟨_, _, hlog, h⟩ := Build.bind_ok h
  cases hlog
  cases hr : r.fault? with
  | some e =>
      rw [hr] at h
      cases h
  | none =>
      rw [hr] at h
      cases h
      rfl

theorem valueOf_ledger {α : Type} {x : Filling α} {s t : BuildState} {a : α}
    (h : (valueOf x).run s = .ok a t) : t.ledger = s.ledger := by
  rw [valueOf] at h
  obtain ⟨_, _, hlog, h⟩ := Build.bind_ok h
  cases hlog
  cases hx : x.fault? with
  | some e =>
      rw [hx] at h
      cases h
  | none =>
      rw [hx] at h
      cases h
      rfl

theorem beginsLine_ledger {i : Int} {s t : BuildState} {b : Bool}
    (h : (beginsLine src i).run s = .ok b t) : t.ledger = s.ledger := by
  rw [beginsLine] at h
  split at h
  · cases h
    rfl
  · split at h
    · cases h
      rfl
    · cases h

/-- A document takes bodies for its statements only: they are built first, by `produce`. -/
theorem build_ledger {s t : BuildState} {doc : Element}
    (h : (build src options m).run s = .ok doc t) :
    t.ledger = (Build.stateOf ((produce src options .top m).run s)).ledger := by
  rw [build] at h
  obtain ⟨statements, u, hstatements, h⟩ := Build.bind_ok h
  obtain ⟨_, _, hget, h⟩ := Build.bind_ok h
  obtain ⟨_, _, hleading, h⟩ := Build.bind_ok h
  obtain ⟨_, _, hline, h⟩ := Build.bind_ok h
  obtain ⟨_, _, htrailing, h⟩ := Build.bind_ok h
  obtain ⟨_, _, hdocument, h⟩ := Build.bind_ok h
  obtain ⟨_, _, hlog, hdone⟩ := Build.bind_ok h
  cases hget
  cases hlog
  cases hdone
  rw [hstatements]
  exact (valueOf_ledger hdocument).trans ((tokensOf_ledger htrailing).trans
    ((beginsLine_ledger hline).trans (tokensOf_ledger hleading)))

end Document

/-! ### Source order -/

open Resolved in
/-- **The order of bodies.** Let any production build a match, after whatever was built before.

* What is recorded are the bodies of the quotes it resolves, from front to back in the order in
  which it resolves them. The same goes for a document, which records what its statements record.
* The quotes have their bodies in source order exactly when every production at work resolves
  its parts in source order.
* A declarator resolves its initializer first, and a method call its arguments: the order is
  wrong whenever a quote that stands in front of them is resolved as well. -/
theorem bodies_in_source_order_iff (options : Options) (p : Production) (m : Match)
    (hs : s.ledger.Sound src) :
    (Build.stateOf ((produce src options p m).run s)).ledger.hereDocs.entries =
        s.ledger.hereDocs.entries ++ (resolutions src options p m s).map entry ∧
      ((resolutions src options p m s).Pairwise fun x y => x.body.start < y.body.start) ∧
      (∀ x ∈ resolutions src options p m s, x.quote = m ∨ x.quote.Inside m) ∧
      (∀ doc t, (Document.build src options m).run s = .ok doc t →
        t.ledger.hereDocs.entries =
          s.ledger.hereDocs.entries ++ (resolutions src options .top m s).map entry) ∧
      (InSourceOrder (resolutions src options p m s) ↔
        ∀ q d t, Works src options p m s q d t →
          (resolvedParts src options q d t).Pairwise fun front back =>
            ∀ x ∈ front, ∀ y ∈ back, x.quote.start ≤ y.quote.start) ∧
      ∀ q d t r (c : d.Inner), Works src options p m s q d t → q.BuildsFirst r →
        (Shape.of d).has r.key = true → d.inner? r.key = some c →
        ∃ rest, resolutions src options q d t =
            resolutions src options r c.val (t.entered options q d) ++ rest ∧
          ∀ x ∈ resolutions src options r c.val (t.entered options q d), ∀ y ∈ rest,
            y.quote.start < x.quote.start →
              ¬ InSourceOrder (resolutions src options p m s) := by
  have htail : ∀ e ∈ s.ledger.hereDocs.entries, e.1 ≤ s.ledger.tail := by
    intro e he
    have hlt := (hs.bodies e he).lt
    have hle := hs.tail e he
    omega
  have hiff : InSourceOrder (resolutions src options p m s) ↔
      ∀ q d t, Works src options p m s q d t →
        (resolvedParts src options q d t).Pairwise fun front back =>
          ∀ x ∈ front, ∀ y ∈ back, NotAfter x y :=
    (inSourceOrder_iff (produce_takes src options p m s).ordered).trans resolutions_pairwise_iff
  refine ⟨(produce_takes src options p m s).entries htail, (produce_takes src options p m s).ordered,
    fun x hx => quote_within hx, fun doc t hdoc => ?_, hiff, fun q d t r c hworks hfirst hhas hget => ?_⟩
  · rw [Document.build_ledger hdoc]
    exact (produce_takes src options .top m s).entries htail
  · obtain ⟨rest, hparts⟩ := hfirst.resolvedParts_eq src options t hhas hget
    refine ⟨rest.flatten, by rw [resolutions_eq_flatten, hparts, List.flatten_cons], ?_⟩
    intro x hx y hy hlt horder
    have hpairs := hiff.mp horder q d t hworks
    rw [hparts, List.pairwise_cons] at hpairs
    obtain ⟨part, hpart, hy⟩ := List.mem_flatten.mp hy
    exact absurd hlt (Int.not_lt.mpr (hpairs.1 part hpart x hx y hy))

/-- `@a[q:to/E/] = q:to/E/`, declared with a here-doc for its shape and one for its value. -/
def Match.sampleDeclared : Match :=
  let quoted (start stop : Int) :=
    let value := Sketch.span start stop [("quote", .one (Call.sampleQuote start stop))] []
    Sketch.span start stop [("value", .one value)] []
  let size := Sketch.span 3 10
    [("statement", .many [Sketch.span 3 10 [("EXPR", .one (quoted 3 10))] []])] []
  let variableUse := Sketch.span 0 2
    [("sigil", .one (.plain 0 1)), ("desigilname", .one (.plain 1 2))] []
  let declared := Sketch.span 0 11 [("variable", .one variableUse),
    ("shape", .one (Sketch.span 2 11 [("semilist", .one size)] []))] []
  let initializer := Sketch.span 12 21
    [("sym", .one (.plain 12 13)), ("EXPR", .one (quoted 14 21))] []
  Sketch.span 0 21 [("variable_declarator", .one declared), ("initializer", .one initializer)] []

/-- A source with a declaration and two bodies, for `Match.sampleDeclared`. -/
def Text.sampleDeclared : Text := "@a[q:to/E/] = q:to/E/;\nfirst\nE\nsecond\nE\n".toList

/-- In `sampleDeclared`, the quote that stands last has the first body, since not every production
at work resolves its parts in source order. -/
theorem sample_declared_out_of_order :
    (Build.stateOf ((produce Text.sampleDeclared {} .declarator .sampleDeclared).run
      {})).ledger.hereDocs.entries = [(23, 30), (31, 39)] ∧
    (resolutions Text.sampleDeclared {} .declarator .sampleDeclared {}).map
      (fun r => (r.quote.start, r.entry)) = [(14, 23, 30), (3, 31, 39)] ∧
    ¬ ∀ q d t, Works Text.sampleDeclared {} .declarator .sampleDeclared {} q d t →
      (resolvedParts Text.sampleDeclared {} q d t).Pairwise fun front back =>
        ∀ x ∈ front, ∀ y ∈ back, x.quote.start ≤ y.quote.start := by
  obtain ⟨hentries, -, -, -, hiff, -⟩ := bodies_in_source_order_iff (s := {}) {} .declarator
    .sampleDeclared (Ledger.sound_empty Text.sampleDeclared)
  refine ⟨?_, by decide +kernel, fun hparts => ?_⟩
  · rw [hentries]
    decide +kernel
  · have hwrong : ¬ Resolved.InSourceOrder
        (resolutions Text.sampleDeclared {} .declarator .sampleDeclared {}) := by
      decide +kernel
    exact hwrong (hiff.mpr hparts)

end RakuTree
