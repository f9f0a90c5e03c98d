import RakuTree.Proofs.Document
import RakuTree.Proofs.EmptyCaptures.Added

/-!
# RakuTree.Proofs.EmptyCaptures.Rules

Captures that are there and cover nothing, in the five productions that go through optional
captures in source order.

`Production.emptyEffect` says what an empty capture does to what is built. It is as good as absent
only where the production does not come by it, or where it is a modifier of backtracking; all others
stop the build or put an empty leaf into it (`empty_capture_effect`).
-/

namespace RakuTree

/-! ### Shapes that fit -/

namespace Shape

variable {s : Shape} {key : String} {keys optional : List String}

/-- If the shape `fits`, what is not asked for has no content. -/
theorem has_eq_false_of_fits (h : s.fits keys optional = true) (hkey : key ∉ keys)
    (hoptional : key ∉ optional) : s.has key = false := by
  rw [fits, Bool.and_eq_true, List.all_eq_true, List.all_eq_true] at h
  by_contra hhas
  have hmem : key ∈ s.content := by simpa [has] using hhas
  simpa [hkey, hoptional] using h.2 key hmem

theorem has_of_fits (h : s.fits keys optional = true) (hkey : key ∈ keys) : s.has key = true := by
  rw [fits, Bool.and_eq_true, List.all_eq_true] at h
  exact h.1 key hkey

end Shape

/-! ### Rules -/

namespace Rule

open Build

variable {f : Frame} {options : Options} {src : Text} {key : String} {c : Match}

theorem variableDeclarator_adding (habsent : f.self.named.lookup key = none) (hc : c.IsEmpty)
    (hkey : key ∈ ["shape", "trait", "post_constraint"]) :
    Against ((variableDeclarator f).follow (produceAny src options))
      ((variableDeclarator (f.adding key c)).follow (produceAny src options))
      (Effect.under key).Holds := by
  simp only [variableDeclarator, Frame.fits_adding hc, Plan.follow_ite]
  refine .ite (fun _ => ?_) fun _ => .of_refuse _
  refine Frame.buildInOrder_adding habsent hc (by decide) ?_ src options
  exact (by decide : ∀ k ∈ ["shape", "trait", "post_constraint"],
    ∃ p ∈ [.variableUse, .shape, .trait, .postConstraint],
      p ∈ Production.optional ∧ p.key = k) key hkey

theorem quantifiedAtom_adding (habsent : f.self.named.lookup key = none) (hc : c.IsEmpty)
    (hkey : key ∈ ["quantifier", "backmod", "separator", "sigfinal"]) :
    Against ((quantifiedAtom f).follow (produceAny src options))
      ((quantifiedAtom (f.adding key c)).follow (produceAny src options))
      (if key = "sigfinal" then Effect.nothing else Effect.under key).Holds := by
  simp only [quantifiedAtom, Frame.fits_adding hc, Plan.follow_ite]
  refine .ite (fun _ => ?_) fun _ => .of_refuse _
  by_cases hsig : key = "sigfinal"
  · subst hsig
    rw [if_pos rfl, Frame.buildInOrder_adding_of_ne _ habsent c (by decide)]
    exact Frame.follow_same _ src
  · rw [if_neg hsig]
    refine Frame.buildInOrder_adding habsent hc (by decide) ?_ src options
    exact (by decide : ∀ k ∈ ["quantifier", "backmod", "separator", "sigfinal"], k ≠ "sigfinal" →
      ∃ p ∈ [.atom, .quantifier, .backmod, .separator],
        p ∈ Production.optional ∧ p.key = k) key hkey hsig

theorem statement_adding (habsent : f.self.named.lookup key = none) (hc : c.IsEmpty)
    (hkey : key ∈ ["statement_mod_cond", "statement_mod_loop"]) :
    Against ((statement f).follow (produceAny src options))
      ((statement (f.adding key c)).follow (produceAny src options))
      (if f.shape.has "EXPR" then Effect.under key else Effect.nothing).Holds := by
  have hne : ∀ p ∈ [Production.label, .statement, .statementControl, .expr], p.key ≠ key :=
    (by decide : ∀ k ∈ ["statement_mod_cond", "statement_mod_loop"],
      ∀ p ∈ [Production.label, .statement, .statementControl, .expr], p.key ≠ k) key hkey
  have hsame : ∀ p ∈ [Production.label, .statement, .statementControl, .expr],
      ((f.adding key c).buildKey p).follow (produceAny src options) =
        (f.buildKey p).follow (produceAny src options) :=
    fun p hp => Frame.buildKey_adding _ habsent c (hne p hp)
  -- the shape has the same content, so both take the same branch; only one of them looks at modifiers
  simp only [statement, Plan.bind_eq_bind, Plan.follow_ite, Plan.follow_bind]
  simp only [Shape.is, Frame.fits_adding hc, hsame .label (by decide), hsame .statement (by decide),
    hsame .statementControl (by decide), hsame .expr (by decide)]
  refine .ite (fun hfits => ?_) fun _ => ?_
  · rw [Shape.has_eq_false_of_fits hfits (by decide) (by decide)]
    refine (Frame.follow_same _ src).bind_same fun label => ?_
    refine (Frame.follow_same _ src).bind_same fun es => ?_
    exact .pure rfl
  refine .ite (fun hfits => ?_) fun _ => ?_
  · rw [Shape.has_eq_false_of_fits hfits (by decide) (by decide)]
    exact Frame.follow_same _ src
  refine .ite (fun hfits => ?_) fun _ => ?_
  · rw [Shape.has_of_fits hfits (by decide), if_pos rfl]
    refine (Frame.follow_same _ src).bind_same fun nodes => ?_
    have hmods := Frame.buildInOrder_adding habsent hc (by decide)
      ((by decide : ∀ k ∈ ["statement_mod_cond", "statement_mod_loop"],
        ∃ p ∈ [Production.statementModCond, .statementModLoop],
          p ∈ Production.optional ∧ p.key = k) key hkey) src options
    refine hmods.goOn (fun es => .pure rfl) fun es es' hlength => .pure fun es'' hes => ?_
    cases hes
    rw [List.length_append, List.length_append, hlength, Nat.add_assoc]
  refine .ite (fun hfits => ?_) fun _ => .of_refuse _
  · rw [Shape.has_eq_false_of_fits hfits (by decide) (by decide)]
    exact .pure rfl

/-- What an empty capture does to the parts of a package in front of its statements. A `blockoid` is
not among them. -/
theorem packageParts_adding (habsent : f.self.named.lookup key = none) (hc : c.IsEmpty)
    (hkey : key ∈ ["longname", "trait", "blockoid"]) :
    Against ((f.buildInOrder [.longname, .trait]).follow (produceAny src options))
      (((f.adding key c).buildInOrder [.longname, .trait]).follow (produceAny src options))
      (if key = "blockoid" then Effect.nothing else Effect.under key).Holds := by
  by_cases hblock : key = "blockoid"
  · subst hblock
    rw [if_pos rfl, Frame.buildInOrder_adding_of_ne _ habsent c (by decide)]
    exact Frame.follow_same _ src
  · rw [if_neg hblock]
    refine Frame.buildInOrder_adding habsent hc (by decide) ?_ src options
    exact (by decide : ∀ k ∈ ["longname", "trait", "blockoid"], k ≠ "blockoid" →
      ∃ p ∈ [Production.longname, .trait], p ∈ Production.optional ∧ p.key = k) key hkey hblock

theorem packageDef_adding (habsent : f.self.named.lookup key = none) (hc : c.IsEmpty)
    (hkey : key ∈ ["longname", "trait", "blockoid"]) :
    Against ((packageDef f).follow (produceAny src options))
      ((packageDef (f.adding key c)).follow (produceAny src options))
      (if key = "blockoid" ∧ f.shape.has "statementlist" then Effect.nothing
        else Effect.under key).Holds := by
  have hcontent : (f.adding key c).shape.content = f.shape.content := hc.content_adding f.self key
  have hne : "statementlist" ≠ key :=
    (by decide : ∀ k ∈ ["longname", "trait", "blockoid"], "statementlist" ≠ k) key hkey
  have hlist : ((f.adding key c).buildKey .statementlist).follow (produceAny src options) =
      (f.buildKey .statementlist).follow (produceAny src options) :=
    Frame.buildKey_adding _ habsent c hne
  simp only [packageDef, Plan.bind_eq_bind, Plan.follow_ite, Plan.follow_bind]
  simp only [Frame.fits_adding hc, hcontent, hlist, Frame.need_adding _ habsent c hne]
  refine .ite (fun hfits => ?_) fun _ => ?_
  · rw [Bool.and_eq_true] at hfits
    rw [Shape.has_eq_false_of_fits hfits.2 List.not_mem_nil (by decide), if_neg (by simp)]
    refine Frame.buildInOrder_adding habsent hc (by decide) ?_ src options
    exact (by decide : ∀ k ∈ ["longname", "trait", "blockoid"],
      ∃ p ∈ [Production.longname, .trait, .blockoid],
        p ∈ Production.optional ∧ p.key = k) key hkey
  refine .ite (fun hfits => ?_) fun _ => .of_refuse _
  rw [Shape.has_of_fits hfits (by decide)]
  simp only [and_true]
  -- the semicolon is searched for behind the parts: with a leaf more, it may be another one
  refine (packageParts_adding habsent hc hkey).goOn (fun nodes => ?_)
    fun nodes nodes' hlength => ?_
  · refine (Frame.follow_same _ src).bind_same fun rest => ?_
    refine (Frame.expect_same _ f key c _ _ _ _).bind_same fun semi => ?_
    refine (Frame.follow_same _ src).bind_same fun es => ?_
    exact .pure rfl
  · refine (Frame.follow_same _ src).bind_same fun rest => ?_
    refine (Frame.expect_any _ f key c _ _ _ _ _ _).bind (fun _ _ _ es' hes => ?_)
      fun semi semi' _ => ?_
    · cases hes
    refine (Frame.follow_same _ src).bind_same fun es => .pure fun es' hes => ?_
    cases hes
    simp only [List.length_append, List.length_cons, hlength]
    omega

/-! ### Declarations of types -/

/-- What the part `x` of a type declaration comes to behind `nodes`. -/
def typeStep (f : Frame) (build : Builder) (nodes : List Element) (x : Part × Match) :
    Build (List Element) :=
  match x.1 with
  | .inner p => build p (some x.2)
  | .named key =>
    if key = "EXPR" then do
      let stop ← (f.endOf nodes).follow build
      let head ← (f.expect .bareword stop x.2.start (.keyword ["where".toList])).follow build
      return .leaf head :: (← build .expr (some x.2))
    else if key = "term" then build .expr (some x.2)
    else (f.trimmed .bareword x.2).follow build

theorem follow_typeParts (f : Frame) (build : Builder) (nodes : List Element)
    (cs : List (Part × f.self.Inner)) :
    (typeParts f nodes cs).follow build =
      through (typeStep f build) nodes (cs.map Match.bare) := by
  induction cs generalizing nodes with
  | nil => rfl
  | cons x cs ih =>
      obtain ⟨part, c⟩ := x
      rw [List.map_cons, through]
      cases part with
      | inner p => simp [typeParts, typeStep, Match.bare, ih]
      | named key =>
          by_cases hexpr : key = "EXPR"
          · subst hexpr
            simp [typeParts, typeStep, Match.bare, ih]
          · by_cases hterm : key = "term"
            · subst hterm
              simp [typeParts, typeStep, Match.bare, ih]
            · simp [typeParts, typeStep, Match.bare, ih, hexpr, hterm]

/-- Behind the same `nodes`, other parts of a type declaration are built as before. -/
theorem typeStep_same (f : Frame) (key : String) (c : Match) (src : Text) (options : Options)
    (nodes : List Element) (x : Part × Match) :
    Against (typeStep f (produceAny src options) nodes x)
      (typeStep (f.adding key c) (produceAny src options) nodes x) Same := by
  obtain ⟨part, d⟩ := x
  cases part with
  | inner p => exact produce_same src options p d
  | named other =>
      refine .ite (fun _ => ?_) fun _ => .ite (fun _ => ?_) fun _ => ?_
      · have hend : Against ((f.endOf nodes).follow (produceAny src options))
            (((f.adding key c).endOf nodes).follow (produceAny src options)) Same :=
          .of_gives (f.endOf_gives _ nodes) ((f.adding key c).endOf_gives _ nodes) fun _ h => h
        refine hend.bind_same fun stop => ?_
        refine (Frame.expect_same _ f key c _ _ _ _).bind_same fun head => ?_
        refine (produce_same src options .expr d).bind_same fun built => ?_
        exact .pure rfl
      · exact produce_same src options .expr d
      · exact Frame.trimmed_same _ f key c .bareword d

/-- Behind other elements, `where` may be found elsewhere or not at all, but no part comes to more
or fewer elements. -/
theorem typeStep_length (f : Frame) (key : String) (c : Match) (src : Text) (options : Options)
    (nodes nodes' : List Element) (x : Part × Match) :
    Against (typeStep f (produceAny src options) nodes x)
      (typeStep (f.adding key c) (produceAny src options) nodes' x) SameLength := by
  obtain ⟨part, d⟩ := x
  cases part with
  | inner p => exact (produce_same src options p d).mono fun _ _ => sameLength_of_same
  | named other =>
      refine .ite (fun _ => ?_) fun _ => .ite (fun _ => ?_) fun _ => ?_
      · have hend : Against ((f.endOf nodes).follow (produceAny src options))
            (((f.adding key c).endOf nodes').follow (produceAny src options)) fun _ _ => True :=
          .of_gives (f.endOf_gives _ nodes) ((f.adding key c).endOf_gives _ nodes')
            fun _ _ => trivial
        refine hend.bind (fun _ _ _ es' hes => ?_) fun stop stop' _ => ?_
        · cases hes
        refine (Frame.expect_any _ f key c _ _ _ _ _ _).bind (fun _ _ _ es' hes => ?_)
          fun head head' _ => ?_
        · cases hes
        refine (produce_same src options .expr d).bind_same fun built => .pure fun es' hes => ?_
        cases hes
        rfl
      · exact (produce_same src options .expr d).mono fun _ _ => sameLength_of_same
      · exact (Frame.trimmed_same _ f key c .bareword d).mono fun _ _ => sameLength_of_same

theorem mem_of_typeDeclaratorKeys? {sym : Text} {required optional : List String}
    (h : typeDeclaratorKeys? sym = some (required, optional)) (hkey : key ∈ optional) :
    key ∈ ["longname", "variable", "trait", "EXPR", "defterm"] := by
  unfold typeDeclaratorKeys? at h
  split at h
  · cases h
    exact (by decide : ∀ k ∈ ["longname", "variable", "trait"],
      k ∈ ["longname", "variable", "trait", "EXPR", "defterm"]) key hkey
  split at h
  · cases h
    exact (by decide : ∀ k ∈ ["trait", "EXPR"],
      k ∈ ["longname", "variable", "trait", "EXPR", "defterm"]) key hkey
  split at h
  · cases h
    exact (by decide : ∀ k ∈ ["defterm", "variable", "trait"],
      k ∈ ["longname", "variable", "trait", "EXPR", "defterm"]) key hkey
  · cases h

/-- The parts of a type declaration, as `Rule.typeDeclarator` goes through them. -/
def typeDeclaratorParts : List Part :=
  [.named "sym", .inner .longname, .inner .variableUse, .inner .defterm, .inner .trait,
   .named "EXPR", .named "term", .inner .initializer]

theorem typeStep_effect (f : Frame) (hc : c.IsEmpty) (src : Text) (options : Options)
    (hkey : key ∈ ["longname", "variable", "trait", "EXPR", "defterm"]) :
    ∃ part ∈ typeDeclaratorParts, part.key = key ∧
      ∀ nodes, (Effect.under key).Of (typeStep f (produceAny src options) nodes (part, c)) := by
  by_cases hexpr : key = "EXPR"
  · subst hexpr
    refine ⟨.named "EXPR", by decide, rfl, fun nodes => ?_⟩
    refine Effect.stops_of_next fun stop => Effect.stops_of_next fun head => ?_
    have hp : Production.expr ∈ Production.optional := by decide
    exact Effect.stops_of_first (hc.effect hp)
  · have hinner : ∃ p ∈ Production.optional, Part.inner p ∈ typeDeclaratorParts ∧ p.key = key :=
      (by decide : ∀ k ∈ ["longname", "variable", "trait", "EXPR", "defterm"], k ≠ "EXPR" →
        ∃ p ∈ Production.optional, Part.inner p ∈ typeDeclaratorParts ∧ p.key = k) key hkey hexpr
    obtain ⟨p, hp, hpart, rfl⟩ := hinner
    exact ⟨.inner p, hpart, rfl, fun _ => hc.effect hp⟩

theorem typeDeclarator_adding (habsent : f.self.named.lookup key = none) (hc : c.IsEmpty)
    {required optional : List String}
    (hkeys : typeDeclaratorKeys? (f.textOf "sym") = some (required, optional))
    (hkey : key ∈ optional) :
    Against ((typeDeclarator f).follow (produceAny src options))
      ((typeDeclarator (f.adding key c)).follow (produceAny src options))
      (Effect.under key).Holds := by
  have hmem := mem_of_typeDeclaratorKeys? hkeys hkey
  have hne : "sym" ≠ key :=
    (by decide : ∀ k ∈ ["longname", "variable", "trait", "EXPR", "defterm"], "sym" ≠ k) key hmem
  have hsym : (f.adding key c).textOf "sym" = f.textOf "sym" := by
    rw [Frame.textOf, Frame.textOf, Match.textOf, Match.textOf, Frame.self_adding,
      Match.capture?_adding habsent c hne]
    rfl
  obtain ⟨part, hpart, hpartKey, heffect⟩ := typeStep_effect (f.adding key c) hc src options hmem
  obtain ⟨front, back, hrow, hrow'⟩ :=
    Match.row_adding habsent c Part.key (by decide : (typeDeclaratorParts.map Part.key).Nodup)
      hpart hpartKey
  have hplan : ∀ g : Frame, typeDeclaratorKeys? (g.textOf "sym") = some (required, optional) →
      (typeDeclarator g).follow (produceAny src options) =
        if g.shape.fits required optional then
          through (typeStep g (produceAny src options)) [] (g.self.row Part.key typeDeclaratorParts)
        else g.unhandled.follow (produceAny src options) := by
    intro g hg
    rw [typeDeclarator, hg, ← Match.map_bare_inSourceOrder, ← follow_typeParts]
    exact Plan.follow_ite _ _ _
  rw [hplan f hkeys, hplan (f.adding key c) (hsym.symm ▸ hkeys), Frame.fits_adding hc,
    Frame.self_adding, hrow, hrow']
  refine .ite (fun _ => ?_) fun _ => .of_refuse _
  refine through_insert (fun x _ => ⟨fun nodes => ?_, fun nodes nodes' => ?_⟩) heffect []
  · exact typeStep_same f key c src options nodes x
  · exact typeStep_length f key c src options nodes nodes' x

end Rule

/-! ### Productions that go through optional captures -/

namespace Production

/-- The names under which `m` may have captures that a production goes through in source order, or
does not need there. -/
def optionalKeys (src : Text) (m : Match) : Production → List String
  | statement => ["statement_mod_cond", "statement_mod_loop"]
  | variableDeclarator => ["shape", "trait", "post_constraint"]
  | packageDef => ["longname", "trait", "blockoid"]
  | typeDeclarator => ((Rule.typeDeclaratorKeys? (m.textOf src "sym")).map Prod.snd).getD []
  | quantifiedAtom => ["quantifier", "backmod", "separator", "sigfinal"]
  | _ => []

/-- What an empty capture under `key` does to what a production builds of `m`. -/
def emptyEffect (m : Match) (key : String) : Production → Effect
  | statement => if (Shape.of m).has "EXPR" then .under key else .nothing
  | packageDef =>
    if key = "blockoid" ∧ (Shape.of m).has "statementlist" then .nothing else .under key
  | quantifiedAtom => if key = "sigfinal" then .nothing else .under key
  | _ => .under key

/-- An empty capture under one of the `optionalKeys` has its `emptyEffect` on the rule. -/
theorem rule_adding {src : Text} {p : Production} {m c : Match} {key : String}
    (hkey : key ∈ p.optionalKeys src m) (habsent : m.named.lookup key = none) (hc : c.IsEmpty)
    (options : Options) :
    Build.Against ((p.rule ⟨src, p, m⟩).follow (produceAny src options))
      ((p.rule ⟨src, p, m.adding key c⟩).follow (produceAny src options))
      (p.emptyEffect m key).Holds := by
  unfold optionalKeys at hkey
  split at hkey
  · exact Rule.statement_adding (f := ⟨src, .statement, m⟩) habsent hc hkey
  · exact Rule.variableDeclarator_adding (f := ⟨src, .variableDeclarator, m⟩) habsent hc hkey
  · exact Rule.packageDef_adding (f := ⟨src, .packageDef, m⟩) habsent hc hkey
  · cases hkeys : Rule.typeDeclaratorKeys? (m.textOf src "sym") with
    | none =>
        rw [hkeys] at hkey
        cases hkey
    | some keys =>
        rw [hkeys] at hkey
        exact Rule.typeDeclarator_adding (f := ⟨src, .typeDeclarator, m⟩) habsent hc hkeys hkey
  · exact Rule.quantifiedAtom_adding (f := ⟨src, .quantifiedAtom, m⟩) habsent hc hkey
  · cases hkey

/-- An empty capture under one of the `optionalKeys` has its `emptyEffect` on what is built. -/
theorem produce_adding {src : Text} {p : Production} {m c : Match} {key : String}
    (hkey : key ∈ p.optionalKeys src m) (habsent : m.named.lookup key = none) (hc : c.IsEmpty)
    (options : Options) :
    Build.Against (produce src options p m) (produce src options p (m.adding key c))
      (p.emptyEffect m key).Holds := by
  intro s t es u hst hrun
  rw [produce_run] at hrun ⊢
  obtain ⟨v, hrule, hleft⟩ := Build.left_ok hrun
  have hentered : (s.entered options p m).SameLedger (t.entered options p (m.adding key c)) :=
    (s.entered_ledger options p m).trans (hst.trans (t.entered_ledger options p _).symm)
  rcases rule_adding hkey habsent hc options _ _ es v hentered hrule with
    ⟨es', w, hw, hvw, hes⟩ | ⟨e, w, hw, hes⟩
  · refine .inl ⟨es', w.leave, ?_, hleft.symm.trans hvw, hes⟩
    exact congrArg Build.left hw
  · exact .inr ⟨e, w.leave, congrArg Build.left hw, hes⟩

end Production

/-- **Captures that are there but empty.** Let a match be built by a production that goes through
its optional captures in source order, and put an empty capture, wherever it stands, under the name
of one that is absent.

* The same is built exactly if the effect of the capture is nothing: it is one that the production
  does not come by, or a modifier of backtracking.
* Where its effect is to stop, nothing is built.
* Where its effect is a leaf, there is one element more in what is built. -/
theorem empty_capture_effect {src : Text} {options : Options} {p : Production} {m c : Match}
    {key : String} {s t : BuildState} {es : List Element} (hkey : key ∈ p.optionalKeys src m)
    (habsent : m.named.lookup key = none) (hc : c.IsEmpty)
    (hrun : (produce src options p m).run s = .ok es t) :
    ((∃ u, (produce src options p (m.adding key c)).run s = .ok es u) ↔
      p.emptyEffect m key = .nothing) ∧
    (p.emptyEffect m key = .stops →
      ∃ e u, (produce src options p (m.adding key c)).run s = .error e u) ∧
    (p.emptyEffect m key = .leaf →
      ∀ es' u, (produce src options p (m.adding key c)).run s = .ok es' u →
        es'.length = es.length + 1) := by
  have hadding := Production.produce_adding hkey habsent hc options s s es t rfl hrun
  generalize p.emptyEffect m key = effect at hadding
  generalize (produce src options p (m.adding key c)).run s = r at hadding
  cases effect with
  | stops =>
      rcases hadding with ⟨es', u, rfl, -, hes⟩ | ⟨e, u, rfl, -⟩
      · cases hes
      · simp
  | nothing =>
      rcases hadding with ⟨es', u, rfl, -, hes⟩ | ⟨e, u, rfl, hes⟩
      · cases hes
        simp
      · cases hes
  | leaf =>
      rcases hadding with ⟨es', u, rfl, -, hes⟩ | ⟨e, u, rfl, -⟩
      · have hlength : es'.length = es.length + 1 := hes es' rfl
        have hne : es' ≠ es := by
          rintro rfl
          omega
        simp [hne, hlength]
      · simp

namespace Match

/-- The word `a` as a statement. -/
def sampleStatement : Match :=
  Sketch.span 0 1 [("EXPR", .one (Sketch.span 0 1 [("sym", .one (.plain 0 1))] []))] []

/-- The letter `a` in a regex. -/
def sampleAtom : Match := Sketch.span 0 1 [("atom", .one (.plain 0 1))] []

/-- The block of a package without a name, `{}`. -/
def samplePackage : Match := Sketch.span 0 2 [("blockoid", .one (.plain 0 2))] []

theorem plain_isEmpty (i : Int) : (plain i i).IsEmpty := ⟨rfl, rfl⟩

/-- An empty condition makes `sampleStatement` one that is refused; an empty modifier of
backtracking changes nothing; and an empty name gives `samplePackage` a leaf more. -/
theorem sampleStatement_stops :
    (∃ es t e u, (produce ['a'] {} .statement sampleStatement).run {} = .ok es t ∧
      (produce ['a'] {} .statement (sampleStatement.adding "statement_mod_cond" (plain 1 1))).run {} =
        .error e u) ∧
    (∃ es t u, (produce ['a'] {} .quantifiedAtom sampleAtom).run {} = .ok es t ∧
      (produce ['a'] {} .quantifiedAtom (sampleAtom.adding "backmod" (plain 1 1))).run {} =
        .ok es u) ∧
    ∃ es t es' u, (produce "\x7b\x7d".toList {} .packageDef samplePackage).run {} = .ok es t ∧
      (produce "\x7b\x7d".toList {} .packageDef
        (samplePackage.adding "longname" (plain 0 0))).run {} = .ok es' u ∧
      es'.length = es.length + 1 := by
  refine ⟨?_, ?_, ?_⟩
  · obtain ⟨es, t, hrun⟩ := Document.exists_of_returned
      (x := produce ['a'] {} .statement sampleStatement) (s := {}) (by decide +kernel)
    have hkey : "statement_mod_cond" ∈ Production.statement.optionalKeys ['a'] sampleStatement := by
      decide
    obtain ⟨-, hstops, -⟩ := empty_capture_effect hkey rfl (plain_isEmpty 1) hrun
    obtain ⟨e, u, hu⟩ := hstops rfl
    exact ⟨es, t, e, u, hrun, hu⟩
  · obtain ⟨es, t, hrun⟩ := Document.exists_of_returned
      (x := produce ['a'] {} .quantifiedAtom sampleAtom) (s := {}) (by decide +kernel)
    have hkey : "backmod" ∈ Production.quantifiedAtom.optionalKeys ['a'] sampleAtom := by decide
    obtain ⟨hsame, -, -⟩ := empty_capture_effect hkey rfl (plain_isEmpty 1) hrun
    obtain ⟨u, hu⟩ := hsame.mpr rfl
    exact ⟨es, t, u, hrun, hu⟩
  · obtain ⟨es, t, hrun⟩ := Document.exists_of_returned
      (x := produce "\x7b\x7d".toList {} .packageDef samplePackage) (s := {}) (by decide +kernel)
    obtain ⟨es', u, hu⟩ := Document.exists_of_returned
      (x := produce "\x7b\x7d".toList {} .packageDef (samplePackage.adding "longname" (plain 0 0)))
      (s := {}) (by decide +kernel)
    have hkey : "longname" ∈ Production.packageDef.optionalKeys "\x7b\x7d".toList samplePackage := by
      decide
    obtain ⟨-, -, hleaf⟩ := empty_capture_effect hkey rfl (plain_isEmpty 0) hrun
    exact ⟨es, t, es', u, hrun, hu, hleaf rfl es' u hu⟩

end Match

end RakuTree
