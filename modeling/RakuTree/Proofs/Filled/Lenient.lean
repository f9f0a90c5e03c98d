import RakuTree.Proofs.Filled.Forward

/-!
# RakuTree.Proofs.Filled.Lenient

What stops a lenient filling.

A lenient filling passes over text that is no layout and over gaps that run backward, and fills
the rest of the tree. There is one thing it does not pass over. To see whether a gap begins a
line, the character in front of it is looked up, and a gap that begins behind the end of the
source has none there. So a filling goes through exactly when no gap of the tree begins behind
the source (`lenient_fill_stops_only_past_end`), which holds of every tree that stays inside it.
-/

namespace RakuTree

open List (Forall₂)

/-! ### Faults of a row -/

theorem Filling.fault?_andThen {α : Type} {x : Filling α} {k : α → Filling α} {e : Fault}
    (h : (x.andThen k).fault? = some e) : x.fault? = some e ∨ (k x.value).fault? = some e := by
  unfold andThen at h
  split at h
  · exact .inl h
  · exact .inr h

namespace GapSource

variable {α : Type} {g : GapSource} {e : Fault}

/-- The only fault of a lenient reading is `.outside .text`. -/
theorem read_fault?_lenient (hg : g.strict = false) {a b : Int} (h : (g.read a b).fault? = some e) :
    e = .outside .text := by
  by_cases hgap : 0 ≤ a ∧ a < b
  · obtain ⟨i, rfl⟩ := Int.eq_ofNat_of_zero_le hgap.1
    rw [read_of_lt hgap.1 hgap.2, hg] at h
    split at h
    · rw [Layout.scan_fault?_eq_none] at h
      cases h
    · exact (Option.some.inj h).symm
  · rw [(read_of_not_lt hgap).2 hg] at h
    cases h

theorem fillBetween_fault?_lenient (hg : g.strict = false) (ofLeaf : Leaf → α)
    (startOf endOf : α → Int) {ks : List α}
    (h : (g.fillBetween ofLeaf startOf endOf ks).fault? = some e) : e = .outside .text := by
  induction ks with
  | nil => cases h
  | cons k ks ih =>
      cases ks with
      | nil => cases h
      | cons l ks =>
          rcases Filling.fault?_andThen h with h | h
          · exact ih h
          · exact read_fault?_lenient hg h

theorem fillList_fault?_lenient (hg : g.strict = false) (ofLeaf : Leaf → α)
    (startOf endOf : α → Int) {outer : Option (Int × Int)} {k : α} {ks : List α}
    (h : (g.fillList ofLeaf startOf endOf outer k ks).fault? = some e) : e = .outside .text := by
  cases outer with
  | none => exact fillBetween_fault?_lenient hg ofLeaf startOf endOf h
  | some range =>
      rcases Filling.fault?_andThen h with h | h
      · rcases Filling.fault?_andThen h with h | h
        · exact fillBetween_fault?_lenient hg ofLeaf startOf endOf h
        · exact read_fault?_lenient hg h
      · exact read_fault?_lenient hg h

end GapSource

/-- A gap starts where the row does, at `a?`, or where one of its items ends. -/
theorem Items.start_of_mem_gaps {α : Type} {I : Items α} {a? b? : Option Int} {ks : List α}
    {p : Int × Int} (hp : p ∈ I.gaps a? ks b?) : a? = some p.1 ∨ ∃ k ∈ ks, p.1 = I.endOf k := by
  have hbetween : ∀ {x? y? : Option Int}, p ∈ between x? y? → x? = some p.1 := by
    intro x? y? h
    cases x? with
    | none => exact absurd h List.not_mem_nil
    | some x =>
        cases y? with
        | none => exact absurd h List.not_mem_nil
        | some y => rw [List.mem_singleton.mp h]
  induction ks generalizing a? with
  | nil => exact .inl (hbetween hp)
  | cons k ks ih =>
      rw [Items.gaps, List.mem_append] at hp
      rcases hp with hp | hp
      · exact .inl (hbetween hp)
      · rcases ih hp with h | ⟨l, hl, h⟩
        · exact .inr ⟨k, List.mem_cons_self, (Option.some.inj h).symm⟩
        · exact .inr ⟨l, List.mem_cons_of_mem k hl, h⟩

namespace Arena

open Outline

variable {g : GapSource} {a : Arena} {r i j : NodeId} {e : Fault}

/-! ### Faults of a run -/

/-- What stops `x` and then `y` stops the first or the second of them. -/
theorem stoppedBy_seq {x y : EStateM Fault FillState Unit} {s : FillState}
    (h : stoppedBy ((x >>= fun _ => y).run s) = some e) :
    stoppedBy (x.run s) = some e ∨ ∃ t, stoppedBy (y.run t) = some e := by
  cases hrun : x.run s with
  | ok u t =>
      rw [run_seq_of_ok hrun] at h
      exact .inr ⟨t, h⟩
  | error e' t =>
      rw [run_seq_of_error hrun] at h
      exact .inl h

theorem stoppedBy_forM {x : NodeId → EStateM Fault FillState Unit} {ks : List NodeId}
    {s : FillState} (h : stoppedBy ((ks.forM x).run s) = some e) :
    ∃ k t, stoppedBy ((x k).run t) = some e := by
  induction ks generalizing s with
  | nil => cases h
  | cons k ks ih =>
      rcases stoppedBy_seq (x := x k) (y := ks.forM x) h with h | ⟨t, h⟩
      · exact ⟨k, s, h⟩
      · exact ih h

theorem fillChildren_stoppedBy_lenient (hg : g.strict = false) {s : FillState}
    (h : stoppedBy ((fillChildren g i).run s) = some e) : e = .outside .text := by
  cases hch : (s.arena.node i).children with
  | nil =>
      rw [fillChildren_of_nil hch] at h
      cases h
  | cons k ks =>
      rw [(fillChildren_of_cons hch rfl).2] at h
      exact GapSource.fillList_fault?_lenient hg _ _ _ h

/-- The only fault of a lenient run is `.outside .text`. -/
theorem fillWithin_stoppedBy_lenient (hg : g.strict = false) (depth : Nat) {s : FillState}
    (h : stoppedBy ((fillWithin g depth i).run s) = some e) : e = .outside .text := by
  induction depth generalizing i s with
  | zero => cases h
  | succ depth ih =>
      have hstart : (fillWithin g (depth + 1) i).run s =
          ((s.arena.node i).children.forM (fillWithin g depth) >>= fun _ =>
            fillChildren g i).run s := rfl
      rw [hstart] at h
      rcases stoppedBy_seq h with h | ⟨t, h⟩
      · obtain ⟨k, t, h⟩ := stoppedBy_forM h
        exact ih h
      · exact fillChildren_stoppedBy_lenient hg h

/-! ### Trees inside their source -/

/-- What the node `i` of a tree covers ends where some node of the tree ends. -/
theorem EndsAt.exists_stop {t : Outline} (hangs : Hangs a t) {x : Int} (h : EndsAt a i x)
    (hi : i ∈ t.ids) : ∃ k ∈ t.ids, x = (a.node k).stop := by
  induction h with
  | here _ => exact ⟨_, hi, rfl⟩
  | last _ hlast _ ih => exact ih (hangs.child_mem_ids hi (List.mem_of_getLast? hlast))

/-- A gap of `j` starts where the node starts or where some node of the tree ends. -/
theorem start_of_mem_gapsAt {t : Outline} (hangs : Hangs a t) (hnodup : t.ids.Nodup)
    (hj : j ∈ t.ids) {p : Int × Int} (hp : p ∈ a.gapsAt j) :
    p.1 = (a.node j).start ∨ ∃ k ∈ t.ids, p.1 = (a.node k).stop := by
  unfold gapsAt at hp
  split at hp
  · exact absurd hp List.not_mem_nil
  · rcases Items.start_of_mem_gaps hp with h | ⟨slot, hslot, h⟩
    · left
      rw [outer] at h
      split at h
      · exact (Option.some.inj h).symm
      · cases h
    · right
      obtain ⟨k, hk, rfl⟩ := List.mem_map.mp hslot
      have hmem := hangs.child_mem_ids hj hk
      obtain ⟨m, hm, hstop⟩ := (hangs.endsAt hnodup hmem).exists_stop hangs hmem
      exact ⟨m, hm, h.trans hstop⟩

/-- **What stops a lenient filling.** Take a tree in a table, a source and any recorded bodies.
A lenient filling goes through exactly when no gap begins behind the end of the source, and
stops with a character that is not there otherwise. So it goes through for every tree that stays
inside the source. When it does, the layout of each gap stands in its row: gaps that run
backward are passed over, and the rest of the tree is filled. -/
theorem lenient_fill_stops_only_past_end (htree : a.IsPlainTree r) (src : Text) (docs : HereDocs) :
    ((a.fill ⟨src, docs, false⟩ r).fault? = none ↔
      ∀ j ∈ a.walk r, ∀ p ∈ a.gapsAt j, 0 ≤ p.1 → p.1 < p.2 → p.1 ≤ src.length) ∧
    (∀ e, (a.fill ⟨src, docs, false⟩ r).fault? = some e → e = .outside .text) ∧
    ((∀ j ∈ a.walk r, (a.node j).start ≤ src.length ∧ (a.node j).stop ≤ src.length) →
      (a.fill ⟨src, docs, false⟩ r).fault? = none) ∧
    ((a.fill ⟨src, docs, false⟩ r).fault? = none →
      ∀ j ∈ a.walk r, (a.node j).children ≠ [] →
        Forall₂ (Reads a.size (a.fill ⟨src, docs, false⟩ r).value)
          ((a.fill ⟨src, docs, false⟩ r).value.node j).children
          (GapSource.withLayout ⟨src, docs, false⟩ a.items ((a.outer j).map Prod.fst)
            ((a.node j).children.map .old) ((a.outer j).map Prod.snd))) := by
  obtain ⟨t, rfl, hangs, hnodup⟩ := htree
  obtain ⟨⟨u, -, hgrown⟩, hiff⟩ := fill_outcome hangs hnodup ⟨src, docs, false⟩
  rw [hangs.walk_eq hnodup]
  have hreadable : (a.fill ⟨src, docs, false⟩ t.root).fault? = none ↔
      ∀ j ∈ t.ids, ∀ p ∈ a.gapsAt j, 0 ≤ p.1 → p.1 < p.2 → p.1 ≤ src.length := by
    rw [hiff]
    exact forall₂_congr fun j _ => forall₂_congr fun p _ =>
      GapSource.read_fault?_eq_none_iff rfl p.1 p.2
  refine ⟨hreadable, ?_, ?_, ?_⟩
  · intro e he
    rw [(fill_eq _ _ _).2] at he
    exact fillWithin_stoppedBy_lenient rfl _ he
  · intro hinside
    rw [hreadable]
    intro j hj p hp _ _
    rcases start_of_mem_gapsAt hangs hnodup hj hp with h | ⟨k, hk, h⟩
    · rw [h]
      exact (hinside j hj).1
    · rw [h]
      exact (hinside k hk).2
  · intro hnone j hj hne
    obtain ⟨slots, hreads, -, hfull⟩ := hgrown.rows j (idsList_singleton t ▸ hj)
    rwa [hfull hnone, filledRow, if_neg hne] at hreads

/-- Four words, of which the source `a b` holds the first two. -/
def sampleBeyond : Element :=
  .branch .statement (.ofText 0 "a b  c d".toList) none
    [.leaf (Leaf.found .bareword 0 ['a'] none), .leaf (Leaf.found .bareword 2 ['b'] none),
      .leaf (Leaf.found .bareword 5 ['c'] none), .leaf (Leaf.found .bareword 7 ['d'] none)]

/-- In `sampleBeyond`, the gap behind the third word begins behind the source. The filling stops
there, before it comes to the space behind the first word; with a source that reaches far enough it
does not. -/
theorem sample_stops_past_end :
    ((ofElement sampleBeyond).fill ⟨['a', ' ', 'b'], {}, false⟩ 0).fault? = some (.outside .text) ∧
    (((ofElement sampleBeyond).fill ⟨['a', ' ', 'b'], {}, false⟩ 0).value.node 0).children =
      [1, 2, 3, 4] ∧
    ((ofElement sampleBeyond).fill ⟨"a b  c d".toList, {}, false⟩ 0).fault? = none := by
  have htree := isPlainTree_ofElement sampleBeyond
  refine ⟨?_, by decide +kernel, ?_⟩
  · obtain ⟨hiff, houtside, -⟩ := lenient_fill_stops_only_past_end htree ['a', ' ', 'b'] {}
    cases hfault : ((ofElement sampleBeyond).fill ⟨['a', ' ', 'b'], {}, false⟩ 0).fault? with
    | some e => rw [houtside e hfault]
    | none =>
        have hgap := hiff.mp hfault 0 (by decide +kernel) (6, 7) (by decide +kernel)
        exact absurd (hgap (by decide) (by decide)) (by decide)
  · refine (lenient_fill_stops_only_past_end htree "a b  c d".toList {}).2.2.1 ?_
    have hwalk : (ofElement sampleBeyond).walk 0 = [0, 1, 2, 3, 4] := by decide +kernel
    rw [hwalk]
    decide +kernel

end Arena

end RakuTree
