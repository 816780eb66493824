import ScriptIndent.Proofs.Tree.Addresses

/-!
# ScriptIndent.Proofs.Tree.Visited

Which nodes are visited, and in which order.

```
[]             a program
[0]              a construct with a rule
[0, 0]             a comment: passed over, with all that is below it
[0, 2]             a construct without a rule: visited, but nothing below it
[1]              the next construct
```

A node is told from others by its address, the child indexes on the way from the root.  The visit
reaches an address if every step on the way leads from a node with a rule to a named child, and none
of the nodes is a comment (`Node.Reaches`).  The reached addresses in lexicographic order, in which
an address stands before all that continue it, are those of the visited nodes
(`Node.exists_isWalk`).
-/

namespace ScriptIndent.Node

variable {n : Node} {address : List Nat}

/-- A visit to a node reaches an address below it. -/
inductive Reaches : Node → List Nat → Prop
  | itself {n : Node} (code : n.isComment = false) : Reaches n []
  | child {n c : Node} {i : Nat} {rest : List Nat} (code : n.isComment = false)
      (ruled : (Construct.ofKind? n.kind).isSome) (get : n.children[i]? = some c)
      (named : c.isNamed) (below : Reaches c rest) : Reaches n (i :: rest)

theorem Reaches.code (h : n.Reaches address) : n.isComment = false := by
  cases h <;> assumption

/-- Without a rule, only the node itself is reached. -/
theorem Reaches.eq_nil (h : n.Reaches address) (hrule : Construct.ofKind? n.kind = none) :
    address = [] := by
  cases h with
  | itself => rfl
  | child _ ruled => simp [hrule] at ruled

/-- The addresses of the visited nodes, in the order of the visits. -/
structure IsWalk (ancestors : List Node) (n : Node) (addresses : List (List Nat)) : Prop where
  sorted : addresses.Pairwise (· < ·)
  mem_iff {address : List Nat} : address ∈ addresses ↔ n.Reaches address
  places : List.Forall₂ (fun address place => n.at? ancestors address = some place) addresses
    (n.visited ancestors)

/-- The visited nodes are those that the visit reaches, in the order of their addresses. -/
theorem exists_isWalk (ancestors : List Node) (n : Node) :
    ∃ addresses, IsWalk ancestors n addresses := by
  induction n using induct generalizing ancestors with
  | step n ih =>
    by_cases hcomment : n.isComment = true
    · refine ⟨[], .nil, ⟨fun h => absurd h List.not_mem_nil, fun h => ?_⟩, ?_⟩
      · have hcode := h.code
        simp [hcomment] at hcode
      · rw [visited_eq, if_pos hcomment]
        exact .nil
    have hcode : n.isComment = false := by simpa using hcomment
    cases hrule : Construct.ofKind? n.kind with
    | none =>
      refine ⟨[[]], by simp, ⟨fun h => ?_, fun h => by simp [h.eq_nil hrule]⟩, ?_⟩
      · rw [List.mem_singleton.1 h]
        exact .itself hcode
      · rw [visited_eq, if_neg hcomment, if_pos (by simp [hrule])]
        exact .cons rfl .nil
    | some construct =>
      have hwalks : ∀ c ∈ n.children, ∃ addresses, Listing c.Reaches
          (fun rest place => c.at? (n :: ancestors) rest = some place) addresses
          (c.visited (n :: ancestors)) := by
        intro c hc
        obtain ⟨addresses, hwalk⟩ := ih c hc (n :: ancestors)
        exact ⟨addresses, hwalk.sorted, hwalk.mem_iff, hwalk.places⟩
      obtain ⟨below, hbelow⟩ := exists_listing_children hwalks
      refine ⟨[] :: below, .cons (fun address haddress => ?_) hbelow.sorted,
        ⟨fun h => ?_, fun h => ?_⟩, ?_⟩
      · obtain ⟨i, rest, -, rfl, -⟩ := hbelow.mem_iff.1 haddress
        exact List.nil_lt_cons i rest
      · rcases List.mem_cons.1 h with rfl | h
        · exact .itself hcode
        · obtain ⟨i, rest, c, rfl, get, named, reaches⟩ := hbelow.mem_iff.1 h
          exact .child hcode (by simp [hrule]) get named reaches
      · cases h with
        | itself => exact List.mem_cons_self
        | child _ _ get named reaches =>
          exact List.mem_cons_of_mem _ (hbelow.mem_iff.2 ⟨_, _, _, rfl, get, named, reaches⟩)
      · rw [visited_eq, if_neg hcomment, if_neg (by simp [hrule]), visitedAmong_eq]
        refine .cons rfl (hbelow.stands.imp ?_)
        rintro _ place ⟨i, rest, c, rfl, get, hplace⟩
        rw [at?, get]
        exact hplace

end ScriptIndent.Node
