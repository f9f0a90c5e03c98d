import RakuTree.Proofs.Ignored.Frames
import RakuTree.Rule.Regex
import RakuTree.Rule.Metachar

/-!
# RakuTree.Proofs.Ignored.Regexes

The rules of regexes are blind: declarations, sequences, quantifiers, metacharacters, assertions and
character classes.
-/

namespace RakuTree.Rule

open RakuTree.Frame

/-! ### Declarations -/

theorem regexDeclarator_blind : Blind regexDeclarator := by
  intro f build
  simp [regexDeclarator]

theorem regexHead_canonical (f : Frame) (build : Builder)
    {ds : List (Production × f.canonical.self.Inner)} {cs : List (Production × f.self.Inner)}
    (h : List.Forall₂ Match.IsCanonicalPart ds cs) :
    (regexHead f.canonical ds).follow build = (regexHead f cs).follow build.canonically := by
  induction h with
  | nil => rfl
  | cons hc _ ih =>
      cases hc with
      | mk p h => simp [regexHead, ih, h]

theorem regexDef_blind : Blind regexDef := by
  intro f build
  have hstop : ((f.canonical.get? "nibble").map (·.val.start)).getD f.self.stop =
      ((f.get? "nibble").map (·.val.start)).getD f.self.stop := by
    rcases f.get?_cases "nibble" (by simp) with ⟨hd, hc⟩ | ⟨d, c, hd, hc, h⟩
    · simp [hd, hc]
    · simp [hd, hc, h]
  simp only [regexDef, shape_canonical, Plan.follow_ite]
  split
  · apply Plan.follow_bind_congr (regexHead_canonical f build (f.inSourceOrder_canonical _))
    intro nodes
    simp only [src_canonical, start_self_canonical, stop_self_canonical, hstop]
    split
    · simp
    · split
      · simp
      · rcases f.get?_cases "nibble" (by simp) with ⟨hd, hc⟩ | ⟨d, c, hd, hc, h⟩
        · simp [hd, hc]
        · simp [hd, hc, h]
  · simp

/-! ### Sequences -/

theorem nibbler_blind : Blind nibbler := by
  intro f build
  simp [nibbler]

theorem termseq_blind : Blind termseq := by
  intro f build
  simp [termseq]

theorem separatedFrom_canonical (f : Frame) (build : Builder) (p : Production) (separator : Text)
    (i : Nat) (cursor : Int) {ds : List f.canonical.self.Inner} {cs : List f.self.Inner}
    (h : List.Forall₂ Match.Inner.IsCanonical ds cs) :
    (separatedFrom f.canonical p separator i cursor ds).follow build =
      (separatedFrom f p separator i cursor cs).follow build.canonically := by
  induction h generalizing i cursor with
  | nil => rfl
  | cons hc _ ih => simp [separatedFrom, hc, ih]

@[simp] theorem separated_blind (p : Production) (separator : Text) :
    Blind fun f => separated f p separator := by
  intro f build
  simp [separated, separatedFrom_canonical f build _ _ _ _ (f.each_canonical p.key (by simp))]

theorem termaltseq_blind : Blind termaltseq := by
  intro f build
  simp [termaltseq]

theorem termconjseq_blind : Blind termconjseq := by
  intro f build
  simp [termconjseq]

theorem termalt_blind : Blind termalt := by
  intro f build
  simp [termalt]

theorem termconj_blind : Blind termconj := by
  intro f build
  simp [termconj]

theorem termish_blind : Blind termish := by
  intro f build
  simp [termish]

/-! ### Quantifiers -/

theorem quantifiedAtom_blind : Blind quantifiedAtom := by
  intro f build
  simp [quantifiedAtom]

theorem separator_blind : Blind separator := by
  intro f build
  simp [separator]

theorem quantifier_blind : Blind quantifier := by
  intro f build
  simp [quantifier]

theorem backmod_blind : Blind backmod := by
  intro f build
  simp [backmod]

/-! ### Metacharacters -/

@[simp] theorem trimmedIfAny_blind (cls : LeafClass) : Blind fun f => trimmedIfAny f cls := by
  intro f build
  simp [trimmedIfAny]

theorem atom_blind : Blind atom := by
  intro f build
  simp [atom]

@[simp] theorem binding_blind (target : List Element) : Blind fun f => binding f target := by
  intro f build
  unfold binding
  rcases f.get?_cases "quantified_atom" (by simp) with ⟨hd, hc⟩ | ⟨d, c, hd, hc, h⟩
  · simp [hd, hc]
  · simp [hd, hc, h]

@[simp] theorem namedBinding_blind : Blind namedBinding := by
  intro f build
  apply need_bind_canonical f build (by simp)
  intro name
  simp only [src_canonical, start_self_canonical, stop_self_canonical, Match.stop_canonical]
  cases Text.find? f.src ['>'] name.stop f.self.stop with
  | none => simp
  | some closing => simp

@[simp] theorem embeddedStatement_blind : Blind embeddedStatement := by
  intro f build
  simp [embeddedStatement]

theorem metachar_blind : Blind metachar := by
  intro f build
  simp [metachar]

theorem backslash_blind : Blind backslash := by
  intro f build
  simp [backslash]

/-! ### Assertions -/

@[simp] theorem assertionArguments_blind (nodes : List Element) :
    Blind fun f => assertionArguments f nodes := by
  intro f build
  apply Plan.follow_bind_congr (f.buildKey_canonical build _)
  intro args
  apply need_bind_canonical f build (by simp)
  intro longname
  apply need_bind_canonical f build (by simp)
  intro arglist
  simp only [src_canonical, Match.start_canonical, Match.stop_canonical]
  cases Text.find? f.src ['('] longname.stop (arglist.start + 1) with
  | none => simp
  | some opening =>
      simp only
      cases Text.find? f.src [')'] (Element.lastEnd (opening + 1) args) f.src.length with
      | none => simp
      | some closing => simp

@[simp] theorem namedAssertion_blind : Blind namedAssertion := by
  intro f build
  simp [namedAssertion]

theorem assertion_blind : Blind assertion := by
  intro f build
  cases htext : Text.trimLeft f.text with
  | nil => simp [assertion, htext]
  | cons c rest => simp [assertion, htext]

/-! ### Character classes -/

@[simp] theorem classSign_blind : Blind classSign := by
  intro f build
  unfold classSign
  rcases f.get?_cases "sign" (by simp) with ⟨hd, hc⟩ | ⟨d, c, hd, hc, h⟩
  · simp [hd, hc]
  · simp [hd, hc, h]

theorem cclassElem_blind : Blind cclassElem := by
  intro f build
  simp only [cclassElem, shape_canonical, Plan.follow_ite]
  split
  · apply Plan.follow_bind_congr (classSign_blind f build)
    intro sign
    simp only [src_canonical, start_self_canonical, stop_self_canonical]
    split
    · simp
    · split
      · simp
      · split
        · simp
        · simp
  · simp

end RakuTree.Rule
