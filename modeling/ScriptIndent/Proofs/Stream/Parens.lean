import ScriptIndent.Proofs.Stream.Place

/-!
# ScriptIndent.Proofs.Stream.Parens

Parentheses in the stream.

```
(   (   x   )   )          behind x nothing but closing parentheses, to the end of the stretch:
a       x   y      b       there are as many openings before x, and they begin the stretch
```

A stretch is balanced if each parenthesis that closes in it is opened in it before, and none
stays open (`parenDepth`).  A balanced node neither begins with a closing parenthesis nor ends
with an opening one.  What closes around a balanced node up to the end of a balanced one is opened
at the beginning of that one (`Source.Stands.eq_of_closing`).

A parenthesis closes the one that was opened last (`parenPairs`).  Two parentheses with a balanced
stretch between them belong together (`Source.mem_parenPairs`).
-/

namespace ScriptIndent

/-! ## depths -/

/-- How deep in parentheses the end of some tokens lies, if none closes that is not open. -/
def parenDepth : Nat → List Token → Option Nat
  | depth, [] => some depth
  | depth, t :: rest =>
    if t.isOpeningParen then parenDepth (depth + 1) rest
    else if t.isClosingParen then
      if depth = 0 then none else parenDepth (depth - 1) rest
    else parenDepth depth rest

theorem parenDepth_append (depth : Nat) (ts us : List Token) :
    parenDepth depth (ts ++ us) = (parenDepth depth ts).bind (parenDepth · us) := by
  induction ts generalizing depth with
  | nil => rfl
  | cons t rest ih =>
    rw [List.cons_append, parenDepth, parenDepth]
    split
    · exact ih _
    · split
      · split
        · rfl
        · exact ih _
      · exact ih _

/-- No parenthesis closes at the beginning. -/
theorem isClosingParen_of_parenDepth {t : Token} {rest : List Token} {d : Nat}
    (h : parenDepth 0 (t :: rest) = some d) : t.isClosingParen = false := by
  rw [parenDepth] at h
  split at h
  · next hopening =>
    rw [Token.isOpeningParen, Token.isPunctuator, Bool.and_eq_true, beq_iff_eq, beq_iff_eq]
      at hopening
    simp [Token.isClosingParen, Token.isPunctuator, hopening.2]
  · split at h
    · simp at h
    · next hclosing => exact Bool.eq_false_iff.2 hclosing

/-- No parenthesis opens at the end. -/
theorem isOpeningParen_of_parenDepth {t : Token} {ts : List Token} {d : Nat}
    (h : parenDepth d (ts ++ [t]) = some 0) : t.isOpeningParen = false := by
  rw [parenDepth_append, Option.bind_eq_some_iff] at h
  obtain ⟨depth, -, h⟩ := h
  rw [parenDepth] at h
  split at h
  · cases h
  · next hopening => exact Bool.eq_false_iff.2 hopening

/-- In deeper surroundings some tokens end deeper by as much. -/
theorem parenDepth_add {depth stop : Nat} {ts : List Token} (h : parenDepth depth ts = some stop)
    (more : Nat) : parenDepth (depth + more) ts = some (stop + more) := by
  induction ts generalizing depth with
  | nil =>
    obtain rfl := Option.some.inj h
    rfl
  | cons t rest ih =>
    rw [parenDepth] at h ⊢
    split at h
    · next hopening =>
      rw [if_pos hopening, show depth + more + 1 = depth + 1 + more by omega]
      exact ih h
    · next hopening =>
      rw [if_neg hopening]
      split at h
      · next hclosing =>
        split at h
        · cases h
        · next hpos =>
          rw [if_pos hclosing, if_neg (by omega),
            show depth + more - 1 = depth - 1 + more by omega]
          exact ih h
      · next hclosing =>
        rw [if_neg hclosing]
        exact ih h

theorem isOpeningParen_eq_false {t : Token} (h : t.isClosingParen = true) :
    t.isOpeningParen = false := by
  rw [Token.isClosingParen, Token.isPunctuator, Bool.and_eq_true, beq_iff_eq, beq_iff_eq] at h
  simp [Token.isOpeningParen, Token.isPunctuator, h.2]

/-- Opening parentheses only. -/
theorem parenDepth_of_opening {ts : List Token} (h : ∀ t ∈ ts, t.isOpeningParen = true)
    (depth : Nat) : parenDepth depth ts = some (depth + ts.length) := by
  induction ts generalizing depth with
  | nil => rfl
  | cons t rest ih =>
    rw [parenDepth, if_pos (h t List.mem_cons_self), ih fun u hu => h u (List.mem_cons_of_mem t hu),
      List.length_cons, show depth + 1 + rest.length = depth + (rest.length + 1) by omega]

/-- Closing parentheses only. -/
theorem eq_of_closing {ts : List Token} (h : ∀ t ∈ ts, t.isClosingParen = true)
    {depth stop : Nat} (hdepth : parenDepth depth ts = some stop) : depth = stop + ts.length := by
  induction ts generalizing depth with
  | nil => exact Option.some.inj hdepth
  | cons t rest ih =>
    have hclosing := h t List.mem_cons_self
    rw [parenDepth, if_neg (by simp [isOpeningParen_eq_false hclosing]), if_pos hclosing] at hdepth
    split at hdepth
    · cases hdepth
    · have := ih (fun u hu => h u (List.mem_cons_of_mem t hu)) hdepth
      rw [List.length_cons]
      omega

/-- Closing parentheses lead out as deep as they are many. -/
theorem parenDepth_of_closing {ts : List Token} (h : ∀ t ∈ ts, t.isClosingParen = true)
    (stop : Nat) : parenDepth (stop + ts.length) ts = some stop := by
  induction ts with
  | nil => rfl
  | cons t rest ih =>
    have hclosing := h t List.mem_cons_self
    rw [parenDepth, if_neg (by simp [isOpeningParen_eq_false hclosing]), if_pos hclosing,
      List.length_cons, if_neg (by omega), show stop + (rest.length + 1) - 1 = stop + rest.length by
        omega]
    exact ih fun u hu => h u (List.mem_cons_of_mem t hu)

/-- Around a balanced stretch as many parentheses open as close. -/
theorem parenDepth_wrap {front inner back : List Token}
    (hfront : ∀ t ∈ front, t.isOpeningParen = true) (hinner : parenDepth 0 inner = some 0)
    (hback : ∀ t ∈ back, t.isClosingParen = true) (hlength : front.length = back.length) :
    parenDepth 0 (front ++ (inner ++ back)) = some 0 := by
  have hthrough := parenDepth_add hinner front.length
  rw [Nat.zero_add] at hthrough
  rw [parenDepth_append, parenDepth_of_opening hfront, Nat.zero_add, Option.bind_some,
    parenDepth_append, hthrough, Option.bind_some, hlength]
  simpa using parenDepth_of_closing hback 0

/-! ## pairs -/

/-- The pairs of parentheses that belong together, given the parentheses that are open before the
tokens, the one opened last first.  What closes none of them is left alone. -/
def parenPairs : List Token → List Token → List (Token × Token)
  | _, [] => []
  | opened, t :: rest =>
    if t.isOpeningParen then parenPairs (t :: opened) rest
    else if t.isClosingParen then
      match opened with
      | [] => parenPairs [] rest
      | left :: more => (left, t) :: parenPairs more rest
    else parenPairs opened rest

/-- The pairs among the last tokens are pairs among all, whatever is open before. -/
theorem exists_parenPairs_append (opened front : List Token) :
    ∃ opened', ∀ back, parenPairs opened' back ⊆ parenPairs opened (front ++ back) := by
  induction front generalizing opened with
  | nil => exact ⟨opened, fun back => List.Subset.refl _⟩
  | cons t rest ih =>
    by_cases hopening : t.isOpeningParen = true
    · obtain ⟨opened', h⟩ := ih (t :: opened)
      exact ⟨opened', fun back => by simpa [parenPairs, hopening] using h back⟩
    by_cases hclosing : t.isClosingParen = true
    · cases opened with
      | nil =>
        obtain ⟨opened', h⟩ := ih []
        exact ⟨opened', fun back => by simpa [parenPairs, hopening, hclosing] using h back⟩
      | cons left more =>
        obtain ⟨opened', h⟩ := ih more
        refine ⟨opened', fun back p hp => ?_⟩
        simpa [parenPairs, hopening, hclosing] using .inr (h back hp)
    · obtain ⟨opened', h⟩ := ih opened
      exact ⟨opened', fun back => by simpa [parenPairs, hopening, hclosing] using h back⟩

/-- Some tokens leave open what was open further out. -/
theorem exists_parenPairs_of_parenDepth (inner : List Token) {ts : List Token} {d : Nat}
    (h : parenDepth inner.length ts = some d) (opened : List Token) :
    ∃ inner' : List Token, inner'.length = d ∧
      ∀ back, parenPairs (inner' ++ opened) back ⊆ parenPairs (inner ++ opened) (ts ++ back) := by
  induction ts generalizing inner with
  | nil => exact ⟨inner, Option.some.inj h, fun back => List.Subset.refl _⟩
  | cons t rest ih =>
    rw [parenDepth] at h
    split at h
    · next hopening =>
      obtain ⟨inner', hlength, hsub⟩ := ih (t :: inner) h
      exact ⟨inner', hlength, fun back => by simpa [parenPairs, hopening] using hsub back⟩
    split at h
    · next hopening hclosing =>
      cases inner with
      | nil => simp at h
      | cons left more =>
        obtain ⟨inner', hlength, hsub⟩ := ih more (by simpa using h)
        refine ⟨inner', hlength, fun back p hp => ?_⟩
        simpa [parenPairs, hopening, hclosing] using .inr (hsub back hp)
    · next hopening hclosing =>
      obtain ⟨inner', hlength, hsub⟩ := ih inner h
      exact ⟨inner', hlength, fun back => by simpa [parenPairs, hopening, hclosing] using hsub back⟩

/-- Two parentheses with a balanced stretch between them belong together. -/
theorem mem_parenPairs {left right : Token} (hopening : left.isOpeningParen = true)
    (hclosing : right.isClosingParen = true) {inner : List Token}
    (hinner : parenDepth 0 inner = some 0) (opened front back : List Token) :
    (left, right) ∈ parenPairs opened (front ++ left :: (inner ++ right :: back)) := by
  obtain ⟨opened', hfront⟩ := exists_parenPairs_append opened front
  obtain ⟨inner', hlength, hthrough⟩ :=
    exists_parenPairs_of_parenDepth [] hinner (left :: opened')
  obtain rfl := List.length_eq_zero_iff.1 hlength
  have hmem : (left, right) ∈ parenPairs (left :: opened') (right :: back) := by
    simp [parenPairs, isOpeningParen_eq_false hclosing, hclosing]
  refine hfront _ ?_
  simpa [parenPairs, hopening] using hthrough _ hmem

namespace Source

variable {s : Source} {n : Node}

/-! ## stretches -/

/-- A stretch of the stream is cut in two. -/
theorem toList_extract_split {a b c : Nat} (hab : a ≤ b) (hbc : b ≤ c) :
    (s.tokens.extract a c).toList =
      (s.tokens.extract a b).toList ++ (s.tokens.extract b c).toList := by
  rw [← Array.toList_append, Array.extract_append_extract, Nat.min_eq_left hab,
    Nat.max_eq_right hbc]

/-- A stretch of one token. -/
theorem toList_extract_succ {a : Nat} {t : Token} (ht : s.At a t) :
    (s.tokens.extract a (a + 1)).toList = [t] := by
  obtain ⟨hsize, rfl⟩ := Array.getElem?_eq_some_iff.1 ht
  rw [Array.extract_succ_right (Nat.lt_succ_self a) hsize,
    Array.extract_empty_of_stop_le_start (Nat.le_refl a)]
  rfl

theorem length_extract {a b : Nat} (hb : b ≤ s.tokens.size) :
    (s.tokens.extract a b).toList.length = b - a := by
  rw [Array.length_toList, Array.size_extract, Nat.min_eq_left hb]

/-- What stands at the places of a stretch is in it. -/
theorem forall_extract {P : Token → Prop} {a b : Nat}
    (h : ∀ k, a ≤ k → k < b → ∃ t, s.At k t ∧ P t) : ∀ t ∈ (s.tokens.extract a b).toList, P t := by
  intro t ht
  obtain ⟨k, hak, hkb, hk⟩ := mem_extract ht
  obtain ⟨u, hu, hP⟩ := h k hak hkb
  obtain rfl := Option.mem_unique hk hu
  exact hP

/-- Parentheses at two places belong together if the stretch between them is balanced. -/
theorem mem_parenPairs {a b : Nat} {left right : Token} (hleft : s.At a left)
    (hopening : left.isOpeningParen = true) (hright : s.At b right)
    (hclosing : right.isClosingParen = true) (hab : a < b)
    (hbalanced : parenDepth 0 (s.tokens.extract (a + 1) b).toList = some 0) :
    (left, right) ∈ parenPairs [] s.tokens.toList := by
  have hsize : b < s.tokens.size := (Array.getElem?_eq_some_iff.1 hright).1
  have hsplit : s.tokens.toList = (s.tokens.extract 0 a).toList ++
      left :: ((s.tokens.extract (a + 1) b).toList ++
        right :: (s.tokens.extract (b + 1) s.tokens.size).toList) := by
    calc s.tokens.toList = (s.tokens.extract 0 s.tokens.size).toList := by rw [Array.extract_size]
      _ = (s.tokens.extract 0 a).toList ++ ((s.tokens.extract a (a + 1)).toList ++
          ((s.tokens.extract (a + 1) b).toList ++ ((s.tokens.extract b (b + 1)).toList ++
            (s.tokens.extract (b + 1) s.tokens.size).toList))) := by
        rw [toList_extract_split (Nat.zero_le a) (by omega : a ≤ s.tokens.size),
          toList_extract_split (Nat.le_succ a) (by omega : a + 1 ≤ s.tokens.size),
          toList_extract_split hab (Nat.le_of_lt hsize), toList_extract_split (Nat.le_succ b) hsize]
      _ = _ := by
        rw [toList_extract_succ hleft, toList_extract_succ hright]
        rfl
  rw [hsplit]
  exact ScriptIndent.mem_parenPairs hopening hclosing hbalanced _ _ _

/-! ## nodes -/

theorem Stands.isClosingParen {a b : Nat} (h : s.Stands n a b) (hab : a < b)
    (hbalanced : parenDepth 0 (s.tokensOf n) = some 0) {t : Token} (ht : s.At a t) :
    t.isClosingParen = false := by
  rw [(h.ends hab).tokensOf_eq, toList_extract_split (Nat.le_succ a) hab, toList_extract_succ ht]
    at hbalanced
  exact isClosingParen_of_parenDepth hbalanced

theorem Stands.isOpeningParen {a b : Nat} (h : s.Stands n a b) (hab : a < b)
    (hbalanced : parenDepth 0 (s.tokensOf n) = some 0) {t : Token} (ht : s.At (b - 1) t) :
    t.isOpeningParen = false := by
  have hlast := toList_extract_succ ht
  rw [show b - 1 + 1 = b by omega] at hlast
  rw [(h.ends hab).tokensOf_eq, toList_extract_split (by omega : a ≤ b - 1) (Nat.sub_le b 1), hlast]
    at hbalanced
  exact isOpeningParen_of_parenDepth hbalanced

/-- If nothing but parentheses close between the end of a balanced node and the end of a balanced
stretch around it, and as many open directly before the node, and one more if there is one, then
these begin the stretch. -/
theorem Stands.eq_of_closing {m : Node} {a b x y : Nat} (hm : s.Stands m x y) (hxy : x < y)
    (hax : a ≤ x) (hyb : y ≤ b) (hsize : b ≤ s.tokens.size)
    (hbalanced : parenDepth 0 (s.tokens.extract a b).toList = some 0)
    (hinner : parenDepth 0 (s.tokensOf m) = some 0)
    (hclosing : ∀ k, y ≤ k → k < b → ∃ t, s.At k t ∧ t.isClosingParen = true)
    (hopening : ∀ k, x ≤ k + 1 + (b - y) → k < x → ∃ t, s.At k t ∧ t.isOpeningParen = true) :
    x = a + (b - y) := by
  rw [toList_extract_split hax (by omega : x ≤ b), toList_extract_split (by omega : x ≤ y) hyb,
    parenDepth_append, Option.bind_eq_some_iff] at hbalanced
  obtain ⟨depth, hbefore, hrest⟩ := hbalanced
  rw [(hm.ends hxy).tokensOf_eq] at hinner
  have hthrough := parenDepth_add hinner depth
  rw [Nat.zero_add] at hthrough
  rw [parenDepth_append, hthrough, Option.bind_some] at hrest
  have hdepth := ScriptIndent.eq_of_closing (forall_extract hclosing) hrest
  rw [length_extract hsize, Nat.zero_add] at hdepth
  by_cases hle : x - a ≤ b - y
  · have hopens : ∀ t ∈ (s.tokens.extract a x).toList, t.isOpeningParen = true :=
      forall_extract fun k hak hkx => hopening k (by omega) hkx
    have hall := parenDepth_of_opening hopens 0
    rw [hbefore, length_extract (by omega)] at hall
    have := Option.some.inj hall
    omega
  · -- one opening too many would stay open
    exfalso
    rw [toList_extract_split (by omega : a ≤ x - (b - y + 1)) (by omega : x - (b - y + 1) ≤ x),
      parenDepth_append, Option.bind_eq_some_iff] at hbefore
    obtain ⟨front, -, hfront⟩ := hbefore
    rw [parenDepth_of_opening (forall_extract fun k hk hkx => hopening k (by omega) hkx),
      length_extract (by omega)] at hfront
    have := Option.some.inj hfront
    omega

end Source

end ScriptIndent
