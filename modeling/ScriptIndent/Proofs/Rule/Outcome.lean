import ScriptIndent.Proofs.Stream.Place

/-!
# ScriptIndent.Proofs.Rule.Outcome

Rules that go through, and entries that stay inside a construct.

A draft *meets* two conditions if it does not stop short, all its entries meet
the first condition and its answer meets the second (`Draft.Meets`).  An entry
is *inside* a stretch if it places a token of the stretch other than the first,
relative to a token that stands before the placed one (`Entry.Inside`).
-/

namespace ScriptIndent

namespace Entry

/-- The entry places a token behind place `i` and before place `j`, relative to a
token before it. -/
def Inside (s : Source) (i j : Nat) (e : Entry) : Prop :=
  ∃ k l base, i < l ∧ l < j ∧ k < l ∧ e.base = some base ∧ s.At k base ∧ s.At l e.token

theorem Inside.weaken {s : Source} {i i' j j' : Nat} {e : Entry} (h : e.Inside s i j)
    (hi : i' ≤ i) (hj : j ≤ j') : e.Inside s i' j' := by
  obtain ⟨k, l, base, hil, hlj, h⟩ := h
  exact ⟨k, l, base, by omega, by omega, h⟩

end Entry

namespace Draft

variable {α β : Type} {E : Entry → Prop}

/-- The draft goes through, its entries meet one condition and its answer another. -/
def Meets (d : Draft α) (E : Entry → Prop) (Q : α → Prop) : Prop :=
  (∀ e ∈ d.writes, E e) ∧ ∃ a, d.result = .ok a ∧ Q a

/-- The draft goes through, and all its entries stay inside a stretch. -/
abbrev StaysInside (d : Draft Unit) (s : Source) (i j : Nat) : Prop :=
  d.Meets (Entry.Inside s i j) fun _ => True

/-! ## sequences -/

private theorem id_map_draft (x : Draft α) : id <$> x = x := by
  obtain ⟨writes, _ | a⟩ := x
  · rfl
  · exact congrArg (Draft.mk · (.ok a)) (List.append_nil writes)

private theorem bind_assoc_draft {γ : Type} (x : Draft α) (f : α → Draft β) (g : β → Draft γ) :
    (x >>= f >>= g) = x >>= fun a => f a >>= g := by
  obtain ⟨writes, _ | a⟩ := x
  · rfl
  rw [bind_of_ok (x := ⟨writes, .ok a⟩) rfl, bind_of_ok (x := ⟨writes, .ok a⟩) rfl]
  generalize f a = y
  obtain ⟨more, _ | b⟩ := y
  · rfl
  · exact congrArg (Draft.mk · _) (List.append_assoc ..)

instance : LawfulMonad Draft :=
  .mk' Draft id_map_draft (fun _ _ => rfl) bind_assoc_draft

theorem meets_pure {Q : α → Prop} {a : α} (h : Q a) : (pure a : Draft α).Meets E Q :=
  ⟨by simp, a, rfl, h⟩

theorem Meets.bind {P : α → Prop} {Q : β → Prop} {d : Draft α} {f : α → Draft β}
    (h : d.Meets E P) (hf : ∀ a, P a → (f a).Meets E Q) : (d >>= f).Meets E Q := by
  obtain ⟨hd, a, ha, hP⟩ := h
  obtain ⟨hw, b, hb, hQ⟩ := hf a hP
  rw [bind_of_ok ha]
  refine ⟨fun e he => ?_, b, hb, hQ⟩
  rcases List.mem_append.1 he with he | he
  · exact hd e he
  · exact hw e he

/-- Go on after a draft without an answer. -/
theorem Meets.next {Q : β → Prop} {d : Draft Unit} {f : Unit → Draft β}
    (h : d.Meets E fun _ => True) (hf : (f ()).Meets E Q) : (d >>= f).Meets E Q :=
  h.bind fun _ _ => hf

theorem Meets.mono {E' : Entry → Prop} {P Q : α → Prop} {d : Draft α} (h : d.Meets E P)
    (hE : ∀ e, E e → E' e) (hP : ∀ a, P a → Q a) : d.Meets E' Q :=
  ⟨fun e he => hE e (h.1 e he), h.2.imp fun a ha => ⟨ha.1, hP a ha.2⟩⟩

theorem meets_write {es : List Entry} (h : ∀ e ∈ es, E e) : (write es).Meets E fun _ => True :=
  ⟨h, (), rfl, trivial⟩

theorem meets_each {f : α → Draft Unit} {as : List α}
    (h : ∀ a ∈ as, (f a).Meets E fun _ => True) : (each f as).Meets E fun _ => True := by
  induction as with
  | nil => exact meets_pure trivial
  | cons a rest ih =>
    exact (h a List.mem_cons_self).next (ih fun b hb => h b (List.mem_cons_of_mem a hb))

/-! ## parts and tokens -/

/-- Go on with a part that is there. -/
theorem meets_part {asked : Aspect} {p : Option Node} {n : Node} {f : Node → Draft β}
    {Q : β → Prop} (h : p = some n) (hf : (f n).Meets E Q) : (part asked p >>= f).Meets E Q := by
  subst h
  exact (meets_pure (Q := (· = n)) rfl).bind fun _ heq => heq ▸ hf

variable {s : Source} {n : Node} {i j : Nat}

/-- A token that the rule looks for is there. -/
theorem meets_require {m : Node} {description : String} {o : Option Token} {t : Token} {k : Nat}
    (h : o = some t) (ht : s.At k t) : (require s m description o).Meets E (s.At k) := by
  subst h
  exact meets_pure ht

/-- Go on with the first token of a node. -/
theorem first_bind {t : Token} (h : s.firstOfNode? n = some t) (f : Token → Draft β) :
    (first s n >>= f) = f t := by
  rw [first, h, require, pure_bind]

theorem meets_first (h : s.Stands n i j) (hlt : i < j) : (first s n).Meets E (s.At i) := by
  obtain ⟨t, ht, hfirst⟩ := (h.ends hlt).exists_first?
  exact meets_require hfirst ht

theorem meets_last (h : s.Stands n i j) (hlt : i < j) : (last s n).Meets E (s.At (j - 1)) := by
  obtain ⟨t, ht, hlast⟩ := (h.ends hlt).exists_last?
  exact meets_require hlast ht

theorem meets_firstOf {p : Option Node} (hp : p = some n) (h : s.Stands n i j) (hlt : i < j) :
    (firstOf s p).Meets E (s.At i) :=
  meets_part hp (meets_first h hlt)

/-! ## entries -/

variable {k : Nat} {base : Token} {levels : Int}

/-- Tokens that stand behind the base, or are the base itself, are placed inside. -/
theorem inside_of_mem_offsets (hbase : s.At k base) {tokens : List Token}
    (h : ∀ t ∈ tokens, ∃ l, s.At l t ∧ (k = l ∨ k < l ∧ i < l ∧ l < j)) :
    ∀ e ∈ Entry.offsets tokens levels (some base), e.Inside s i j := by
  intro e he
  obtain ⟨t, ht, rfl⟩ := List.mem_map.1 he
  obtain ⟨ht, hne⟩ := List.mem_filter.1 ht
  obtain ⟨l, hl, rfl | ⟨hkl, hil, hlj⟩⟩ := h t ht
  · have heq : t = base := Option.mem_unique hl hbase
    simp [heq] at hne
  · exact ⟨k, l, base, hil, hlj, hkl, rfl, hbase, hl⟩

theorem meets_offsets (hbase : s.At k base) {tokens : List Token}
    (h : ∀ t ∈ tokens, ∃ l, s.At l t ∧ (k = l ∨ k < l ∧ i < l ∧ l < j)) :
    (offsets tokens levels base).StaysInside s i j :=
  meets_write (inside_of_mem_offsets hbase h)

theorem meets_offset (hbase : s.At k base) {l : Nat} {t : Token} (ht : s.At l t)
    (h : k = l ∨ k < l ∧ i < l ∧ l < j) :
    (offset t levels base).StaysInside s i j := by
  refine meets_offsets hbase fun u hu => ?_
  obtain rfl := List.mem_singleton.1 hu
  exact ⟨l, ht, h⟩

/-- Elements that stand behind the opening delimiter, and the closing one, are
placed inside. -/
theorem meets_elements (hbase : s.At k base) {items : List Node} {right : Option Token}
    (hitems : ∀ c ∈ items, ∃ a b, s.Stands c a b ∧ a < b ∧ (k = a ∨ k < a ∧ i < a ∧ a < j))
    (hright : ∀ t, right = some t → ∃ l, s.At l t ∧ (k = l ∨ k < l ∧ i < l ∧ l < j)) :
    (elements s items base right levels).StaysInside s i j := by
  refine meets_write fun e he => ?_
  rcases List.mem_append.1 he with he | he
  · refine inside_of_mem_offsets hbase (fun t ht => ?_) e he
    obtain ⟨a, ha, hfirst⟩ := List.mem_filterMap.1 ht
    obtain ⟨c, hc, rfl⟩ := List.mem_map.1 ha
    obtain ⟨a, b, hstands, hab, h⟩ := hitems c hc
    exact ⟨a, (hstands.ends hab).first?_eq.symm.trans hfirst, h⟩
  · exact inside_of_mem_offsets hbase (fun t ht => hright t (Option.mem_toList.1 ht)) e he

end Draft

end ScriptIndent
