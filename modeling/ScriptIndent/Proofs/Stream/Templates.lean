import Mathlib.Data.List.Sort
import ScriptIndent.Proofs.Stream.Lossless
import ScriptIndent.Proofs.Stream.Place

/-!
# ScriptIndent.Proofs.Stream.Templates

Template literals in the token stream.

```
`a${ b }c${ d }e`
^^^^   ^^^^   ^^^     the literal texts, which are the template's own tokens
   |     ||     |
   +-----++-----+     substitutions, each from the end of one text to the start of the next
```

The literal texts of a template and its substitutions follow each other in turn
(`Source.Threads`): a substitution covers the text before it, what it puts in, and the text behind
it, from which the next one starts (`Source.Stands.exists_threads`).  So the tokens of the source
that a template owns are its texts (`Source.Threads.filter_owns`), and a substitution begins with the
text before it and ends with the text behind it (`Source.Threads.ends`).
-/

namespace ScriptIndent

namespace Source

open Piece

variable {s : Source}

/-! ## tokens around a substitution -/

namespace Substitutes

variable {c : Node} {i j k : Nat} {t : Token} (h : s.Substitutes c i j)

include h

/-- Tokens stand before the brackets of a substitution, between them or behind them. -/
theorem token_cases (ht : s.At k t) :
    k ≤ i ∧ t.stop ≤ c.start + 2 ∨
      (i < k ∧ k + 1 < j ∧ c.start + 2 ≤ t.start ∧ t.stop ≤ c.stop - 1) ∨
      (j ≤ k + 1 ∧ c.stop - 1 ≤ t.start) := by
  obtain ⟨p, hp, rfl⟩ := exists_codePiece ht
  have hstop := h.stop_eq
  rcases h.stretch.getElem?_codePieces hp with ⟨hki, hle⟩ | ⟨hik, hkj, hmem⟩ | ⟨hjk, hle⟩
  · exact .inl ⟨by omega, hle⟩
  · have hp := (List.mem_filter.1 (List.mem_of_getElem? hmem)).1
    have hbetween := (substitutedPieces_between (b := s.buffer) h.nested h.bracketed h.kind_eq).2
    obtain ⟨hstart, -, hend⟩ := hbetween.mem hp
    exact .inr (.inl ⟨by omega, by omega, hstart, hend⟩)
  · exact .inr (.inr ⟨by omega, hle⟩)

/-- The texts around a substitution, and what stands beyond them, it does not enclose. -/
theorem encloses_eq_false (hproper : t.start < t.stop) (ht : s.At k t) (hk : k ≤ i ∨ j ≤ k + 1) :
    c.encloses t.piece = false := by
  rw [← Bool.not_eq_true, Node.encloses_iff]
  simp only [Token.piece]
  rcases h.token_cases ht with ⟨-, hle⟩ | ⟨hik, hkj, -⟩ | ⟨-, hle⟩
  · lia
  · omega
  · lia

/-- What stands between the texts around a substitution, it encloses. -/
theorem encloses_eq_true (ht : s.At k t) (hik : i < k) (hkj : k + 1 < j) :
    c.encloses t.piece = true := by
  rw [Node.encloses_iff]
  rcases h.token_cases ht with ⟨hki, -⟩ | ⟨-, -, hstart, hstop⟩ | ⟨hle, -⟩
  · omega
  · exact ⟨h.kind_eq, hstart, hstop⟩
  · omega

end Substitutes

/-- A substitution fills the gap between two literal texts. -/
structure Fills (s : Source) (c : Node) (t u : Token) (i j : Nat) : Prop where
  substitutes : s.Substitutes c i (j + 1)
  left_at : s.At i t
  left_kind : t.kind = .template
  right_at : s.At j u
  right_kind : u.kind = .template

theorem Fills.ends {c : Node} {t u : Token} {i j : Nat} (h : s.Fills c t u i j) (ho : s.Ordered) :
    s.firstOfNode? c = some t ∧ s.lastOfNode? c Token.isAny = some u := by
  rw [h.substitutes.covers.first?_eq ho, h.substitutes.covers.last?_eq ho, Nat.add_sub_cancel]
  exact ⟨h.left_at, h.right_at⟩

/-! ## texts and substitutions in turn -/

/-- The substitutions of a template and its literal texts, from the place of the first text to that
of the last. -/
inductive Threads (s : Source) : List Node → List Token → Nat → Nat → Prop
  | text {t : Token} {i : Nat} (at_text : s.At i t) (kind_eq : t.kind = .template) :
      Threads s [] [t] i i
  | cons {c : Node} {rest : List Node} {t : Token} {texts : List Token} {i k j : Nat}
      (at_text : s.At i t) (kind_eq : t.kind = .template) (substitutes : s.Substitutes c i (k + 1))
      (tail : Threads s rest texts k j) : Threads s (c :: rest) (t :: texts) i j

/-- A template is cut into its literal texts and what its substitutions put in, in turn. -/
theorem Stretch.exists_threads {position lo stop : Offset} {ns : List Node} {i : Nat}
    (h : s.Stretch position stop (Node.templatePieces s.buffer position stop ns) i)
    (ho : Node.InOrder lo stop ns) (hlo : position ≤ lo) (hns : ∀ n ∈ ns, n.Nested ∧ n.Bracketed) :
    ∃ texts j, s.Threads (Node.substitutions ns) texts i j ∧
      j + 1 = i + codeCount (Node.templatePieces s.buffer position stop ns) := by
  induction ns generalizing position lo i with
  | nil => exact ⟨_, i, .text (h.getElem?_tokens (k := 0) rfl) rfl, rfl⟩
  | cons c rest ih =>
    obtain ⟨hclo, hcle, hrest⟩ := ho
    have hafter : ∀ m ∈ rest, m.Nested ∧ m.Bracketed := fun m hm => hns m (List.mem_cons_of_mem c hm)
    by_cases hkind : c.kind = "template_substitution"
    · obtain ⟨k, hsub, hbehind, hcount, -⟩ := h.substitutes_cons (by lia) hrest hns hkind
      obtain ⟨texts, j, hthreads, hj⟩ := ih hbehind hrest (by lia) hafter
      have ht : s.At i (s.buffer.token ⟨.template, position, c.start + 2⟩ (some i)) := by
        refine h.getElem?_tokens (k := 0) ?_
        rw [Node.templatePieces_cons, if_pos hkind]
        rfl
      refine ⟨s.buffer.token ⟨.template, position, c.start + 2⟩ (some i) :: texts, j, ?_,
        hj.trans hcount.symm⟩
      rw [Node.substitutions, List.filter_cons_of_pos (by simpa using hkind)]
      exact .cons ht rfl hsub hthreads
    · rw [Node.templatePieces_cons, if_neg hkind] at h ⊢
      obtain ⟨texts, j, hthreads, hj⟩ :=
        ih h (hrest.weaken (Int.le_trans hclo hcle)) hlo hafter
      refine ⟨texts, j, ?_, hj⟩
      rw [Node.substitutions, List.filter_cons_of_neg (by simpa using hkind)]
      exact hthreads

/-- Where a template stands, its texts and substitutions follow each other in turn. -/
theorem Stands.exists_threads {n : Node} {i j : Nat} (h : s.Stands n i j) (hij : i < j)
    (hkind : n.kind = "template_string") :
    ∃ texts k, s.Threads (Node.substitutions n.children) texts i k ∧ j = k + 1 := by
  obtain ⟨hn, hb⟩ : n.Nested ∧ n.Bracketed := ⟨h.spans.nested, h.spans.bracketed⟩
  have hstretch := h.spans.stretch
  have hstop := h.spans.stop_eq
  have hlt : n.start < n.stop := by
    refine lt_of_le_of_ne hn.le fun hempty => ?_
    rw [Node.pieces_of_empty hempty, codeCount_nil] at hstop
    omega
  rw [Node.pieces_of_template hkind hlt] at hstretch hstop
  obtain ⟨texts, k, hthreads, hk⟩ := hstretch.exists_threads hn.inOrder (Int.le_refl _)
    fun m hm => ⟨hn.of_mem hm, hb.of_within (.of_mem hm)⟩
  exact ⟨texts, k, hthreads, by omega⟩

namespace Threads

variable {subs : List Node} {texts : List Token} {i j : Nat} (h : s.Threads subs texts i j)

include h

theorem le : i ≤ j := by
  induction h with
  | text => exact Nat.le_refl _
  | cons _ _ substitutes _ ih =>
    have := substitutes.stop_eq
    omega

/-- There is one text more than there are substitutions. -/
theorem length_eq : texts.length = subs.length + 1 := by
  induction h with
  | text => rfl
  | cons _ _ _ _ ih => rw [List.length_cons, ih, List.length_cons]

theorem head_eq : texts[0]? = s.tokens[i]? := by
  cases h with
  | text at_text => exact at_text.symm
  | cons at_text => exact at_text.symm

/-- The texts are literal text. -/
theorem kind_eq {t : Token} (ht : t ∈ texts) : t.kind = .template := by
  induction h with
  | text _ kind_eq =>
    obtain rfl := List.mem_singleton.1 ht
    exact kind_eq
  | cons _ kind_eq _ _ ih =>
    rcases List.mem_cons.1 ht with rfl | ht
    · exact kind_eq
    · exact ih ht

/-- Each substitution fills the gap between two texts. -/
theorem exists_fills {m : Nat} {c : Node} (hc : subs[m]? = some c) :
    ∃ k l t u, i ≤ k ∧ l ≤ j ∧ s.Fills c t u k l ∧ texts[m]? = some t ∧ texts[m + 1]? = some u := by
  induction h generalizing m with
  | text => simp at hc
  | @cons _ _ t texts i k j at_text kind_eq substitutes tail ih =>
    have := substitutes.stop_eq
    have := tail.le
    cases m with
    | zero =>
      obtain rfl := Option.some.inj hc
      obtain ⟨u, hu⟩ := substitutes.covers.exists_getElem? (Nat.lt_succ_self k)
      have hhead : texts[0]? = some u := tail.head_eq.trans hu
      exact ⟨i, k, t, u, Nat.le_refl i, by omega,
        ⟨substitutes, at_text, kind_eq, hu, tail.kind_eq (List.mem_of_getElem? hhead)⟩, rfl, hhead⟩
    | succ m =>
      obtain ⟨l, q, u, v, hkl, hqj, hfills, hu, hv⟩ := ih hc
      exact ⟨l, q, u, v, by omega, hqj, hfills, hu, hv⟩

/-- A substitution begins with the text before it and ends with the text behind it. -/
theorem ends (ho : s.Ordered) {m : Nat} {c : Node} (hc : subs[m]? = some c) :
    s.firstOfNode? c = texts[m]? ∧ s.lastOfNode? c Token.isAny = texts[m + 1]? := by
  obtain ⟨k, l, t, u, -, -, hfills, ht, hu⟩ := h.exists_fills hc
  rw [ht, hu]
  exact hfills.ends ho

/-- The place of a text. -/
theorem exists_at {t : Token} (ht : t ∈ texts) : ∃ k, i ≤ k ∧ k ≤ j ∧ s.At k t := by
  induction h with
  | text at_text =>
    obtain rfl := List.mem_singleton.1 ht
    exact ⟨_, Nat.le_refl _, Nat.le_refl _, at_text⟩
  | @cons _ _ _ _ i k j at_text _ substitutes tail ih =>
    have := substitutes.stop_eq
    have := tail.le
    rcases List.mem_cons.1 ht with rfl | ht
    · exact ⟨i, Nat.le_refl i, by omega, at_text⟩
    · obtain ⟨l, hkl, hlj, hl⟩ := ih ht
      exact ⟨l, by omega, hlj, hl⟩

/-- The texts are in order. -/
theorem pairwise (ho : s.Ordered) : texts.Pairwise (·.start < ·.start) := by
  induction h with
  | text => exact List.pairwise_singleton ..
  | cons at_text _ substitutes tail ih =>
    refine .cons (fun u hu => ?_) ih
    obtain ⟨l, hkl, -, hl⟩ := tail.exists_at hu
    have := substitutes.stop_eq
    exact Int.lt_of_lt_of_le (ho.proper at_text) (ho.disjoint (by omega) at_text hl)

/-- What stands between the first text and the last is a text, or some substitution encloses it. -/
theorem mem_or_encloses {k : Nat} {t : Token} (ht : s.At k t) (hik : i ≤ k) (hkj : k ≤ j) :
    t ∈ texts ∨ ∃ c ∈ subs, c.encloses t.piece = true := by
  induction h with
  | text at_text =>
    obtain rfl := Nat.le_antisymm hkj hik
    exact .inl (List.mem_singleton.2 (Option.mem_unique ht at_text))
  | @cons c rest u texts i l j at_text _ substitutes tail ih =>
    rcases Nat.eq_or_lt_of_le hik with rfl | hik
    · exact .inl (List.mem_cons.2 (.inl (Option.mem_unique ht at_text)))
    rcases Nat.lt_or_ge k l with hkl | hlk
    · exact .inr ⟨c, List.mem_cons_self, substitutes.encloses_eq_true ht hik (by omega)⟩
    · rcases ih hlk hkj with hmem | ⟨d, hd, hencloses⟩
      · exact .inl (List.mem_cons_of_mem u hmem)
      · exact .inr ⟨d, List.mem_cons_of_mem c hd, hencloses⟩

/-- No substitution encloses a text. -/
theorem encloses_eq_false (ho : s.Ordered) {t : Token} (ht : t ∈ texts) {c : Node} (hc : c ∈ subs) :
    c.encloses t.piece = false := by
  induction h with
  | text => simp at hc
  | @cons d rest u texts i k j at_text _ substitutes tail ih =>
    have hik := substitutes.stop_eq
    rcases List.mem_cons.1 ht with rfl | ht <;> rcases List.mem_cons.1 hc with rfl | hc
    · exact substitutes.encloses_eq_false (ho.proper at_text) at_text (.inl (Nat.le_refl i))
    · obtain ⟨m, hm⟩ := List.getElem?_of_mem hc
      obtain ⟨l, q, _, _, hkl, -, hfills, -⟩ := tail.exists_fills hm
      exact hfills.substitutes.encloses_eq_false (ho.proper at_text) at_text (.inl (by omega))
    · obtain ⟨l, hkl, -, hl⟩ := tail.exists_at ht
      exact substitutes.encloses_eq_false (ho.proper hl) hl (.inr (by omega))
    · exact ih ht hc

end Threads

theorem Ordered.pairwise_start (h : s.Ordered) : s.tokens.toList.Pairwise (·.start < ·.start) := by
  refine List.pairwise_iff_getElem.2 fun i j hi hj hij => ?_
  have hti : s.At i s.tokens.toList[i] := by simp [At]
  have htj : s.At j s.tokens.toList[j] := by simp [At]
  exact Int.lt_of_lt_of_le (h.proper hti) (h.disjoint hij hti htj)

/-- The tokens that a template owns are its literal texts. -/
theorem Threads.filter_owns {n : Node} {texts : List Token} {i j : Nat}
    (h : s.Threads (Node.substitutions n.children) texts i j) (hn : s.Stands n i (j + 1)) :
    s.tokens.toList.filter (fun t => n.owns t.piece) = texts := by
  have ho := hn.ordered
  have hij := h.le
  have hcovers := hn.covers (by omega)
  have : Std.Irrefl fun a b : Token => a.start < b.start := ⟨fun _ => Int.lt_irrefl _⟩
  have : Std.Antisymm fun a b : Token => a.start < b.start :=
    ⟨fun _ _ hab hba => absurd hba (Int.lt_asymm hab)⟩
  refine (ho.pairwise_start.filter _).eq_of_mem_iff (h.pairwise ho) fun t => ?_
  rw [List.mem_filter, Node.owns, Bool.and_eq_true, Bool.and_eq_true, decide_eq_true_eq,
    decide_eq_true_eq, Node.leaveOut, List.all_eq_true]
  constructor
  · rintro ⟨hmem, ⟨hstart, hstop⟩, hout⟩
    obtain ⟨k, hk⟩ := List.getElem?_of_mem hmem
    have ht : s.At k t := by rwa [Array.getElem?_toList] at hk
    have hproper := ho.proper ht
    have hik : i ≤ k := Nat.le_of_not_lt fun hlt => by
      have := hcovers.below hlt ht
      simp only [Token.piece] at hstart
      lia
    have hkj : k ≤ j := Nat.le_of_not_lt fun hlt => by
      have := hcovers.above hlt ht
      simp only [Token.piece] at hstop
      lia
    rcases h.mem_or_encloses ht hik hkj with htext | ⟨c, hc, hencloses⟩
    · exact htext
    · simpa [hencloses] using hout c (List.mem_filter.1 hc).1
  · intro hmem
    obtain ⟨k, hik, hkj, ht⟩ := h.exists_at hmem
    refine ⟨Array.mem_toList_iff.2 (Array.mem_of_getElem? ht),
      hn.spans.range hik (by omega) ht, fun c hc => ?_⟩
    by_cases hkind : c.kind = "template_substitution"
    · rw [h.encloses_eq_false ho hmem (List.mem_filter.2 ⟨hc, by simpa using hkind⟩)]
      rfl
    · simp [Node.encloses, hkind]

end Source

end ScriptIndent
