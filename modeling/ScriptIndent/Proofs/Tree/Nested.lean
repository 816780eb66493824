import ScriptIndent.Check.Analysis

/-!
# ScriptIndent.Proofs.Tree.Nested

Nodes below a node, and trees whose ranges are nested.

A node is *within* another if it is that node or lies below it.  A tree is
nested if the children of every node in it stand inside the node's range, in
order and disjoint.  What a visit meets (`mem_visited`) is within the tree, and
the nodes above it form a chain of parents up to the root.
-/

namespace ScriptIndent

namespace Node

/-- What holds of a node once it holds of its children holds of every node. -/
theorem induct {P : Node → Prop} (step : ∀ n : Node, (∀ c ∈ n.children, P c) → P n)
    (n : Node) : P n := by
  refine step n fun c hc => ?_
  have : sizeOf c < sizeOf n := by
    obtain ⟨kind, isNamed, isMissing, hasError, fields, start, stop, children⟩ := n
    have := List.sizeOf_lt_of_mem hc
    simp only [mk.sizeOf_spec]
    simp only at this
    omega
  exact induct step c
termination_by sizeOf n

/-! ## nodes within a node -/

/-- A node is another, or a node below it. -/
inductive Within : Node → Node → Prop
  | refl (n : Node) : Within n n
  | child {m c n : Node} (mem : c ∈ n.children) (within : Within m c) : Within m n

/-- A node lies below another. -/
def Below (m n : Node) : Prop := ∃ c ∈ n.children, m.Within c

theorem Within.trans {a b c : Node} (hab : a.Within b) (hbc : b.Within c) : a.Within c := by
  induction hbc with
  | refl => exact hab
  | child mem _ ih => exact .child mem ih

theorem Within.of_mem {c n : Node} (h : c ∈ n.children) : c.Within n := .child h (.refl c)

theorem Below.within {m n : Node} (h : m.Below n) : m.Within n := by
  obtain ⟨c, hc, hm⟩ := h
  exact .child hc hm

theorem Below.of_mem {c n : Node} (h : c ∈ n.children) : c.Below n := ⟨c, h, .refl c⟩

theorem Within.eq_or_below {m n : Node} (h : m.Within n) : m = n ∨ m.Below n := by
  cases h with
  | refl => exact .inl rfl
  | child mem within => exact .inr ⟨_, mem, within⟩

theorem Within.below_of_mem {c m n : Node} (h : m.Within n) (hc : c ∈ m.children) :
    c.Below n := by
  induction h with
  | refl => exact .of_mem hc
  | child mem _ ih => exact ⟨_, mem, ih.within⟩

theorem Within.trans_below {k m n : Node} (h : k.Within m) (hm : m.Below n) : k.Below n := by
  obtain ⟨c, hc, hm⟩ := hm
  exact ⟨c, hc, h.trans hm⟩

theorem Below.below_of_mem {c m n : Node} (h : m.Below n) (hc : c ∈ m.children) : c.Below n :=
  h.within.below_of_mem hc

/-- What holds of a node once it holds of all nodes below it holds of every
node. -/
theorem induct_below {P : Node → Prop} (step : ∀ n : Node, (∀ m : Node, m.Below n → P m) → P n)
    (n : Node) : P n := by
  suffices ∀ m : Node, m.Within n → P m from this n (.refl n)
  induction n using induct with
  | step n ih =>
    have hbelow : ∀ m : Node, m.Below n → P m := fun m ⟨c, hc, hm⟩ => ih c hc m hm
    intro m hm
    rcases hm.eq_or_below with rfl | hm
    · exact step m hbelow
    · exact hbelow m hm

/-! ## tests on all nodes -/

mutual

/-- A test passes on a node and on all nodes below it. -/
def all (p : Node → Bool) : Node → Bool
  | n@⟨_, _, _, _, _, _, _, children⟩ => p n && allAmong p children

/-- A test passes on all nodes of some trees. -/
def allAmong (p : Node → Bool) : List Node → Bool
  | [] => true
  | n :: rest => all p n && allAmong p rest

end

theorem allAmong_eq (p : Node → Bool) (ns : List Node) : allAmong p ns = ns.all (all p) := by
  induction ns with
  | nil => rfl
  | cons n rest ih => rw [allAmong, ih, List.all_cons]

theorem all_eq (p : Node → Bool) (n : Node) : n.all p = (p n && n.children.all (all p)) := by
  obtain ⟨kind, isNamed, isMissing, hasError, fields, start, stop, children⟩ := n
  rw [all, allAmong_eq]

theorem of_all {p : Node → Bool} {m n : Node} (h : n.all p = true) (hm : m.Within n) :
    p m = true := by
  induction hm with
  | refl =>
    rw [all_eq, Bool.and_eq_true] at h
    exact h.1
  | child mem _ ih =>
    rw [all_eq, Bool.and_eq_true, List.all_eq_true] at h
    exact ih (h.2 _ mem)

/-! ## nested ranges -/

/-- Ranges in order and disjoint, none of them backwards, between two offsets. -/
def InOrder (lo hi : Offset) : List Node → Prop
  | [] => lo ≤ hi
  | n :: rest => lo ≤ n.start ∧ n.start ≤ n.stop ∧ InOrder n.stop hi rest

instance decidableInOrder (lo hi : Offset) : (ns : List Node) → Decidable (InOrder lo hi ns)
  | [] => inferInstanceAs (Decidable (lo ≤ hi))
  | n :: rest =>
    have := decidableInOrder n.stop hi rest
    inferInstanceAs (Decidable (_ ∧ _ ∧ _))

/-- Every node of the tree holds its children in order and disjoint. -/
def Nested (n : Node) : Prop := ∀ m : Node, m.Within n → InOrder m.start m.stop m.children

theorem InOrder.le {lo hi : Offset} {ns : List Node} (h : InOrder lo hi ns) : lo ≤ hi := by
  induction ns generalizing lo with
  | nil => exact h
  | cons n rest ih => exact Int.le_trans h.1 (Int.le_trans h.2.1 (ih h.2.2))

theorem InOrder.mem {lo hi : Offset} {ns : List Node} (h : InOrder lo hi ns) {n : Node}
    (hn : n ∈ ns) : lo ≤ n.start ∧ n.start ≤ n.stop ∧ n.stop ≤ hi := by
  induction ns generalizing lo with
  | nil => simp at hn
  | cons m rest ih =>
    obtain ⟨hlo, hle, hrest⟩ := h
    rcases List.mem_cons.1 hn with rfl | hn
    · exact ⟨hlo, hle, hrest.le⟩
    · obtain ⟨h₁, h₂⟩ := ih hrest hn
      exact ⟨Int.le_trans hlo (Int.le_trans hle h₁), h₂⟩

/-- Of two nodes in order one stands behind the other. -/
theorem InOrder.pairwise {lo hi : Offset} {ns : List Node} (h : InOrder lo hi ns) :
    ns.Pairwise (·.stop ≤ ·.start) := by
  induction ns generalizing lo with
  | nil => exact .nil
  | cons n rest ih => exact .cons (fun m hm => (h.2.2.mem hm).1) (ih h.2.2)

theorem InOrder.le_of_sublist {lo hi : Offset} {ns : List Node} (h : InOrder lo hi ns) {m n : Node}
    (hsub : [m, n].Sublist ns) : m.stop ≤ n.start :=
  List.pairwise_iff_forall_sublist.1 h.pairwise hsub

/-- Of two nodes in a list one comes first. -/
theorem sublist_or_sublist {ns : List Node} {m n : Node} (hm : m ∈ ns) (hn : n ∈ ns) (hne : m ≠ n) :
    [m, n].Sublist ns ∨ [n, m].Sublist ns := by
  obtain ⟨xs, ys, rfl⟩ := List.append_of_mem hm
  rcases List.mem_append.1 hn with hn | hn
  · refine .inr ((List.singleton_sublist.2 hn).append (List.singleton_sublist.2 ?_))
    exact List.mem_cons_self
  · have hn := (List.mem_cons.1 hn).resolve_left (Ne.symm hne)
    exact .inl (((List.singleton_sublist.2 hn).cons_cons m).trans (List.sublist_append_right _ _))

theorem InOrder.weaken {lo lo' hi : Offset} {ns : List Node} (h : InOrder lo hi ns)
    (hlo : lo' ≤ lo) : InOrder lo' hi ns := by
  cases ns with
  | nil => exact Int.le_trans hlo h
  | cons n rest => exact ⟨Int.le_trans hlo h.1, h.2⟩

theorem Nested.inOrder {n : Node} (h : n.Nested) : InOrder n.start n.stop n.children :=
  h n (.refl n)

theorem Nested.le {n : Node} (h : n.Nested) : n.start ≤ n.stop := h.inOrder.le

theorem Nested.of_within {m n : Node} (h : n.Nested) (hm : m.Within n) : m.Nested :=
  fun k hk => h k (hk.trans hm)

theorem Nested.of_mem {c n : Node} (h : n.Nested) (hc : c ∈ n.children) : c.Nested :=
  h.of_within (.of_mem hc)

/-- A node within a nested tree lies in the tree's range. -/
theorem Nested.range_within {m n : Node} (h : n.Nested) (hm : m.Within n) :
    n.start ≤ m.start ∧ m.start ≤ m.stop ∧ m.stop ≤ n.stop := by
  induction hm with
  | refl => exact ⟨Int.le_refl _, h.le, Int.le_refl _⟩
  | child mem within ih =>
    obtain ⟨h₁, h₂, h₃⟩ := h.inOrder.mem mem
    obtain ⟨h₄, h₅, h₆⟩ := ih (h.of_mem mem)
    exact ⟨Int.le_trans h₁ h₄, h₅, Int.le_trans h₆ h₃⟩

/-! ## visited nodes -/

theorem visited_eq (ancestors : List Node) (n : Node) :
    n.visited ancestors =
      if n.isComment then []
      else if (Construct.ofKind? n.kind).isNone then [⟨n, ancestors⟩]
      else ⟨n, ancestors⟩ :: visitedAmong (n :: ancestors) n.children := by
  obtain ⟨kind, isNamed, isMissing, hasError, fields, start, stop, children⟩ := n
  rw [visited]
  rfl

/-- What is visited begins with the node itself, unless it is a comment. -/
theorem self_mem_visited {n : Node} (h : n.isComment = false) (ancestors : List Node) :
    ⟨n, ancestors⟩ ∈ n.visited ancestors := by
  rw [visited_eq, if_neg (by simp [h])]
  split <;> simp

theorem visitedAmong_eq (ancestors : List Node) (ns : List Node) :
    visitedAmong ancestors ns = (ns.filter (·.isNamed)).flatMap (visited ancestors) := by
  induction ns with
  | nil => rfl
  | cons n rest ih =>
    rw [visitedAmong, ih]
    by_cases h : n.isNamed <;> simp [h]

/-- A visited node other than the first is a named child, not a comment, of a
visited node with a rule, which stands directly above it. -/
theorem mem_visited {ancestors : List Node} {n : Node} {place : Placed}
    (h : place ∈ n.visited ancestors) :
    place = ⟨n, ancestors⟩ ∨
      ∃ parent : Placed, parent ∈ n.visited ancestors ∧
        (Construct.ofKind? parent.node.kind).isSome ∧
        place.node ∈ parent.node.codeChildren ∧
        place.ancestors = parent.node :: parent.ancestors := by
  induction n using induct generalizing ancestors with
  | step n ih =>
    rw [visited_eq] at h ⊢
    by_cases hcomment : n.isComment
    · simp [hcomment] at h
    by_cases hrule : (Construct.ofKind? n.kind).isNone
    · simp only [hcomment, hrule, if_true, Bool.false_eq_true, if_false,
        List.mem_singleton] at h ⊢
      exact .inl h
    · simp only [hcomment, hrule, Bool.false_eq_true, if_false, List.mem_cons] at h ⊢
      rcases h with h | h
      · exact .inl h
      rw [visitedAmong_eq, List.mem_flatMap] at h
      obtain ⟨c, hc, hplace⟩ := h
      rw [List.mem_filter] at hc
      have hother : ¬c.isComment := fun hcc => by rw [visited_eq, if_pos hcc] at hplace; simp at hplace
      refine .inr ?_
      rcases ih c hc.1 hplace with rfl | ⟨parent, hparent, hrest⟩
      · refine ⟨⟨n, ancestors⟩, .inl rfl, ?_, ?_, rfl⟩
        · simpa [Option.isSome_iff_ne_none] using hrule
        · simp [codeChildren, namedChildren, hc.1, hc.2, hother]
      · refine ⟨parent, .inr ?_, hrest⟩
        rw [visitedAmong_eq, List.mem_flatMap]
        exact ⟨c, List.mem_filter.2 hc, hparent⟩

/-- What holds of the first node, and passes from a visited node with a rule to
its named children without the comments, holds of all visited nodes. -/
theorem visited_induct {P : Placed → Prop} {ancestors : List Node} {n : Node}
    (first : P ⟨n, ancestors⟩)
    (step : ∀ parent ∈ n.visited ancestors, P parent →
      (Construct.ofKind? parent.node.kind).isSome →
      ∀ c ∈ parent.node.codeChildren, P ⟨c, parent.node :: parent.ancestors⟩)
    {place : Placed} (h : place ∈ n.visited ancestors) : P place := by
  obtain ⟨m, above⟩ := place
  induction above generalizing m with
  | nil =>
    rcases mem_visited h with heq | ⟨_, _, _, _, hnil⟩
    · exact heq ▸ first
    · simp at hnil
  | cons a above ih =>
    rcases mem_visited h with heq | ⟨⟨p, pa⟩, hparent, hrule, hmem, hcons⟩
    · exact heq ▸ first
    · simp only [List.cons.injEq] at hcons
      obtain ⟨rfl, rfl⟩ := hcons
      exact step _ hparent (ih _ hparent) hrule m hmem

theorem mem_children_of_mem_codeChildren {c n : Node} (h : c ∈ n.codeChildren) :
    c ∈ n.children :=
  (List.mem_filter.1 (List.mem_filter.1 h).1).1

theorem within_of_mem_visited {ancestors : List Node} {n : Node} {place : Placed}
    (h : place ∈ n.visited ancestors) : place.node.Within n := by
  refine visited_induct (P := fun p => p.node.Within n) (.refl n) ?_ h
  intro parent _ hparent _ c hc
  exact (Within.of_mem (mem_children_of_mem_codeChildren hc)).trans hparent

/-- What is visited with a node, behind it, is visited in a construct among its children. -/
theorem exists_codeChild_of_mem_visited {p q : Placed} {below : List Placed}
    (h : p.node.visited p.ancestors = p :: below) (hq : q ∈ below) :
    ∃ c ∈ p.node.codeChildren, q ∈ c.visited (p.node :: p.ancestors) := by
  rw [visited_eq] at h
  split at h
  · cases h
  split at h
  · obtain ⟨-, rfl⟩ := List.cons_eq_cons.1 h
    cases hq
  obtain ⟨-, rfl⟩ := List.cons_eq_cons.1 h
  rw [visitedAmong_eq, List.mem_flatMap] at hq
  obtain ⟨c, hc, hq⟩ := hq
  have hcomment : ¬c.isComment := fun hcomment => by
    rw [visited_eq, if_pos hcomment] at hq
    cases hq
  exact ⟨c, List.mem_filter.2 ⟨hc, by simpa using hcomment⟩, hq⟩

/-- What is visited with a node, behind it, lies below it. -/
theorem below_of_mem_visited {p q : Placed} {below : List Placed}
    (h : p.node.visited p.ancestors = p :: below) (hq : q ∈ below) : q.node.Below p.node := by
  obtain ⟨c, hc, hq⟩ := exists_codeChild_of_mem_visited h hq
  exact ⟨c, mem_children_of_mem_codeChildren hc, within_of_mem_visited hq⟩

/-- Behind a visited node come first the nodes visited below it, and then nodes that stand behind
it. -/
def Placed.Cuts (p : Placed) (rest : List Placed) : Prop :=
  ∃ below behind, rest = below ++ behind ∧ p.node.visited p.ancestors = p :: below ∧
    ∀ q ∈ behind, p.node.stop ≤ q.node.start

/-- A node visited among some trees cuts what is visited behind it, if this is so in each. -/
theorem visitedAmong_cut {above ns : List Node} {lo hi : Offset} (ho : InOrder lo hi ns)
    (hnested : ∀ c ∈ ns, c.Nested)
    (hcut : ∀ c ∈ ns, ∀ places place rest, c.visited above = places ++ place :: rest →
      place.Cuts rest) {places rest : List Placed} {place : Placed}
    (h : visitedAmong above ns = places ++ place :: rest) : place.Cuts rest := by
  induction ns generalizing lo places with
  | nil => simp [visitedAmong] at h
  | cons c ns ih =>
    obtain ⟨-, -, ho⟩ := ho
    have ih (places : List Placed) (hrest : visitedAmong above ns = places ++ place :: rest) :
        place.Cuts rest :=
      ih ho (fun d hd => hnested d (List.mem_cons_of_mem c hd))
        (fun d hd => hcut d (List.mem_cons_of_mem c hd)) hrest
    rw [visitedAmong] at h
    by_cases hnamed : c.isNamed = true
    · rw [if_pos hnamed] at h
      obtain ⟨xs, -, hxs⟩ | ⟨xs, hxs, hback⟩ := List.append_eq_append_iff.1 h
      · exact ih xs hxs
      · cases xs with
        | nil => exact ih [] hback.symm
        | cons x xs =>
          -- the node is visited within the first tree, and all the others stand behind it
          obtain ⟨rfl, rfl⟩ := List.cons_eq_cons.1 hback
          obtain ⟨below, behind, rfl, hbelow, hbehind⟩ := hcut c List.mem_cons_self _ _ _ hxs
          refine ⟨below, behind ++ visitedAmong above ns, by simp, hbelow, fun q hq => ?_⟩
          obtain hq | hq := List.mem_append.1 hq
          · exact hbehind q hq
          · rw [visitedAmong_eq, List.mem_flatMap] at hq
            obtain ⟨d, hd, hq⟩ := hq
            have hd := (List.mem_filter.1 hd).1
            have hplace := within_of_mem_visited
              (show place ∈ c.visited above by simp [hxs])
            have hbefore := (hnested c List.mem_cons_self).range_within hplace
            have hbehind := (hnested d (List.mem_cons_of_mem c hd)).range_within
              (within_of_mem_visited hq)
            have := ho.mem hd
            lia
    · rw [if_neg hnamed, List.nil_append] at h
      exact ih places h

/-- A visited node of a nested tree cuts what is visited behind it. -/
theorem visited_cut {n : Node} (hn : n.Nested) {ancestors : List Node}
    {places rest : List Placed} {place : Placed}
    (h : n.visited ancestors = places ++ place :: rest) : place.Cuts rest := by
  induction n using induct generalizing ancestors places place rest with
  | step n ih =>
    cases places with
    | nil =>
      have hplace : place = ⟨n, ancestors⟩ := by
        rw [visited_eq] at h
        split at h
        · cases h
        split at h <;> exact (List.cons_eq_cons.1 h).1.symm
      subst hplace
      exact ⟨rest, [], by simp, h, by simp⟩
    | cons x places =>
      rw [visited_eq] at h
      split at h
      · simp at h
      split at h
      · simp at h
      exact visitedAmong_cut hn.inOrder (fun c hc => hn.of_mem hc)
        (fun c hc _ _ _ hcut => ih c hc (hn.of_mem hc) hcut) (List.cons_eq_cons.1 h).2

/-- One visited node is below another, or stands behind it. -/
def Placed.Follows (q p : Placed) : Prop := q.node.Below p.node ∨ p.node.stop ≤ q.node.start

/-- What is visited behind a node of a nested tree lies below it or stands behind it. -/
theorem visited_split {n : Node} (hn : n.Nested) {ancestors : List Node}
    {places rest : List Placed} {place : Placed}
    (h : n.visited ancestors = places ++ place :: rest) : ∀ q ∈ rest, q.Follows place := by
  obtain ⟨below, behind, rfl, hbelow, hbehind⟩ := visited_cut hn h
  intro q hq
  exact (List.mem_append.1 hq).imp (below_of_mem_visited hbelow) (hbehind q)

end Node

end ScriptIndent
