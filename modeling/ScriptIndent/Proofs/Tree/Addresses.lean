import Mathlib.Data.List.Forall2
import ScriptIndent.Proofs.Tree.Nested

/-!
# ScriptIndent.Proofs.Tree.Addresses

What a traversal of a tree finds, and in which order.

```
[]             a node
[0]              its first child
[0, 1]             the second child of that one
[2]              its third child
```

A node is told from others by its address, the child indexes on the way from the root.  In
lexicographic order an address stands before all that continue it, and these stand before the
addresses of the siblings behind.  So what is found at the children of a node, one after the
other, is found in the order of the addresses if that is so in each child
(`Node.exists_listing_children`).
-/

namespace ScriptIndent

/-- What is kept of what stands at some places stands at some of these places. -/
theorem exists_forall₂_filterMap {ι α β : Type} {stands : ι → α → Prop}
    (honly : ∀ i a b, stands i a → stands i b → a = b) (keep : α → Option β) {places : List ι}
    {found : List α} (h : List.Forall₂ stands places found) :
    ∃ kept, kept.Sublist places ∧
      (∀ i, i ∈ kept ↔ i ∈ places ∧ ∃ a b, stands i a ∧ keep a = some b) ∧
      List.Forall₂ (fun i b => ∃ a, stands i a ∧ keep a = some b) kept (found.filterMap keep) := by
  induction h with
  | nil => exact ⟨[], .slnil, by simp, .nil⟩
  | @cons i a places found hi _ ih =>
    obtain ⟨kept, hsub, hmem, hstands⟩ := ih
    cases hkeep : keep a with
    | none =>
      refine ⟨kept, hsub.cons i, fun j => ?_, by rwa [List.filterMap_cons_none hkeep]⟩
      rw [hmem, List.mem_cons]
      refine ⟨fun ⟨hj, hb⟩ => ⟨.inr hj, hb⟩, ?_⟩
      rintro ⟨rfl | hj, a', b, ha', hb⟩
      · rw [honly _ _ _ ha' hi, hkeep] at hb
        cases hb
      · exact ⟨hj, a', b, ha', hb⟩
    | some b =>
      refine ⟨i :: kept, hsub.cons_cons i, fun j => ?_, ?_⟩
      · rw [List.mem_cons, List.mem_cons, hmem]
        constructor
        · rintro (rfl | ⟨hj, hb⟩)
          · exact ⟨.inl rfl, a, b, hi, hkeep⟩
          · exact ⟨.inr hj, hb⟩
        · rintro ⟨rfl | hj, hb⟩
          · exact .inl rfl
          · exact .inr ⟨hj, hb⟩
      · rw [List.filterMap_cons_some hkeep]
        exact .cons ⟨a, hi, hkeep⟩ hstands

namespace Node

/-- The addresses with a property, in order, and what stands at each of them. -/
structure Listing {α : Type} (reached : List Nat → Prop) (stands : List Nat → α → Prop)
    (addresses : List (List Nat)) (found : List α) : Prop where
  sorted : addresses.Pairwise (· < ·)
  mem_iff {address : List Nat} : address ∈ addresses ↔ reached address
  stands : List.Forall₂ stands addresses found

/-- Of what has been found some is kept. -/
theorem Listing.filterMap {α β : Type} {reached : List Nat → Prop}
    {stands : List Nat → α → Prop} {addresses : List (List Nat)} {found : List α}
    (h : Listing reached stands addresses found)
    (honly : ∀ address a b, stands address a → stands address b → a = b) (keep : α → Option β) :
    ∃ kept, Listing (fun address => reached address ∧ ∃ a b, stands address a ∧ keep a = some b)
      (fun address b => ∃ a, stands address a ∧ keep a = some b) kept (found.filterMap keep) := by
  obtain ⟨kept, hsub, hmem, hstands⟩ := exists_forall₂_filterMap honly keep h.stands
  refine ⟨kept, h.sorted.sublist hsub, fun {address} => ?_, hstands⟩
  rw [hmem, h.mem_iff]

variable {α : Type} {reached : Node → List Nat → Prop} {stands : Node → List Nat → α → Prop}
  {find : Node → List α}

/-- What is found in a first child if it is named, seen from its parent. -/
theorem Listing.first {c : Node} {addresses : List (List Nat)}
    (h : Listing (reached c) (stands c) addresses (find c)) :
    ∃ addresses, Listing (fun address => ∃ rest, address = 0 :: rest ∧ c.isNamed = true ∧
        reached c rest)
      (fun address a => ∃ rest, address = 0 :: rest ∧ stands c rest a)
      addresses (if c.isNamed then find c else []) := by
  cases hnamed : c.isNamed with
  | false => exact ⟨[], .nil, by simp, .nil⟩
  | true =>
    refine ⟨addresses.map (0 :: ·), ?_, fun {address} => ?_, ?_⟩
    · exact h.sorted.map _ fun _ _ hlt => List.cons_lt_cons_iff.2 (.inr ⟨rfl, hlt⟩)
    · rw [List.mem_map]
      constructor
      · rintro ⟨rest, hrest, rfl⟩
        exact ⟨rest, rfl, rfl, h.mem_iff.1 hrest⟩
      · rintro ⟨rest, rfl, -, hrest⟩
        exact ⟨rest, h.mem_iff.2 hrest, rfl⟩
    · exact List.forall₂_map_left_iff.2 (h.stands.imp fun rest a ha => ⟨rest, rfl, ha⟩)

/-- Behind a further child in front, the addresses of siblings stay in order. -/
theorem pairwise_map_modifyHead {addresses : List (List Nat)}
    (hcons : ∀ address ∈ addresses, ∃ i rest, address = i :: rest)
    (h : addresses.Pairwise (· < ·)) :
    (addresses.map (·.modifyHead (· + 1))).Pairwise (· < ·) := by
  rw [List.pairwise_map]
  refine h.imp_of_mem fun {a b} ha hb hab => ?_
  obtain ⟨i, a, rfl⟩ := hcons a ha
  obtain ⟨j, b, rfl⟩ := hcons b hb
  rw [List.modifyHead_cons, List.modifyHead_cons, List.cons_lt_cons_iff]
  rcases List.cons_lt_cons_iff.1 hab with hlt | ⟨rfl, hlt⟩
  · exact .inl (Nat.succ_lt_succ hlt)
  · exact .inr ⟨rfl, hlt⟩

/-- What is found in the named ones of some children, given what is found in each. -/
theorem exists_listing_children {children : List Node}
    (h : ∀ c ∈ children, ∃ addresses, Listing (reached c) (stands c) addresses (find c)) :
    ∃ addresses, Listing
      (fun address => ∃ i rest c, address = i :: rest ∧ children[i]? = some c ∧
        c.isNamed = true ∧ reached c rest)
      (fun address a => ∃ i rest c, address = i :: rest ∧ children[i]? = some c ∧
        stands c rest a)
      addresses ((children.filter (·.isNamed)).flatMap find) := by
  induction children with
  | nil => exact ⟨[], .nil, by simp, .nil⟩
  | cons c siblings ih =>
    obtain ⟨_, hc⟩ := h c List.mem_cons_self
    obtain ⟨own, hown⟩ := hc.first
    obtain ⟨later, hlater⟩ := ih fun sibling hmem => h sibling (List.mem_cons_of_mem c hmem)
    have hcons : ∀ address ∈ later, ∃ i rest, address = i :: rest := fun address haddress => by
      obtain ⟨i, rest, -, rfl, -⟩ := hlater.mem_iff.1 haddress
      exact ⟨i, rest, rfl⟩
    have hfound : ((c :: siblings).filter (·.isNamed)).flatMap find =
        (if c.isNamed then find c else []) ++ (siblings.filter (·.isNamed)).flatMap find := by
      cases hnamed : c.isNamed <;> simp [hnamed]
    refine ⟨own ++ later.map (·.modifyHead (· + 1)), List.pairwise_append.2
      ⟨hown.sorted, pairwise_map_modifyHead hcons hlater.sorted, ?_⟩, fun {address} => ?_, ?_⟩
    · intro a ha b hb
      obtain ⟨rest, rfl, -⟩ := hown.mem_iff.1 ha
      obtain ⟨sibling, hsibling, rfl⟩ := List.mem_map.1 hb
      obtain ⟨i, rest', rfl⟩ := hcons sibling hsibling
      exact List.cons_lt_cons_iff.2 (.inl (Nat.succ_pos i))
    · rw [List.mem_append, List.mem_map, hown.mem_iff]
      constructor
      · rintro (⟨rest, rfl, hnamed, hreached⟩ | ⟨_, haddress, rfl⟩)
        · exact ⟨0, rest, c, rfl, rfl, hnamed, hreached⟩
        · obtain ⟨i, rest, sibling, rfl, hget, hreached⟩ := hlater.mem_iff.1 haddress
          exact ⟨i + 1, rest, sibling, rfl, hget, hreached⟩
      · rintro ⟨_ | i, rest, sibling, rfl, hget, hreached⟩
        · obtain rfl := Option.some.inj hget
          exact .inl ⟨rest, rfl, hreached⟩
        · exact .inr ⟨i :: rest, hlater.mem_iff.2 ⟨i, rest, sibling, rfl, hget, hreached⟩, rfl⟩
    · rw [hfound]
      refine List.rel_append (hown.stands.imp ?_) (List.forall₂_map_left_iff.2 (hlater.stands.imp ?_))
      · rintro _ a ⟨rest, rfl, ha⟩
        exact ⟨0, rest, c, rfl, rfl, ha⟩
      · rintro _ a ⟨i, rest, sibling, rfl, hget, ha⟩
        exact ⟨i + 1, rest, sibling, rfl, hget, ha⟩

end Node

end ScriptIndent
