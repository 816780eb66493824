import ScriptIndent.Proofs.Embedding.Statements
import ScriptIndent.Proofs.Stream.Parens

/-!
# ScriptIndent.Proofs.Embedding.Alone

The statements of a program, one by one.

```
f(1,          ┆ f(1,        each statement stands on lines of its own,
  2);         ┆   2);       and closes the parentheses that it opens
if (a)
  g();
```

A statement *alone* is the source of a stretch of the text around it, with this statement
for its program (`Source.alone`).  In a program without comments between its statements,
which stand on different lines (`Source.StatementsApart`), no rule reaches from one
statement into another, so each line has the level that it has with its statement alone
(`Source.lineLevels_alone`).
-/

namespace ScriptIndent

open Piece

namespace Source

variable {s : Source} {n : Node}

/-! ## programs -/

/-- A program without comments between its statements, which stand on lines of their own and
close the parentheses that they open. -/
structure StatementsApart (s : Source) : Prop where
  kind_eq : s.root.kind = "program"
  grammatical : s.root.Grammatical s.buffer
  fields : s.root.FieldsInBodies
  start_nonneg : 0 ≤ s.root.start
  stop_le : s.root.stop ≤ s.buffer.bytes.size
  isCode {n : Node} : n ∈ s.root.children → n.IsCode
  /-- Each statement starts on a line below those before it. -/
  rows : s.root.children.Pairwise fun m n => s.buffer.lineOf m.stop < s.lineOfNode n
  balanced {n : Node} : n ∈ s.root.children → parenDepth 0 (s.tokensOf n) = some 0

namespace StatementsApart

variable (h : s.StatementsApart)

include h

theorem mem_codeChildren (hn : n ∈ s.root.children) : n ∈ s.root.codeChildren :=
  Node.mem_codeChildren.2 ⟨hn, h.isCode hn⟩

theorem isCompound : s.root.IsCompound :=
  ⟨by rw [Node.isComment, h.kind_eq]; decide, by rw [h.kind_eq]; decide⟩

/-- The statements stand directly one behind the other. -/
theorem run (hn : n ∈ s.root.children) : s.SpanRun s.root.children 0 s.tokens.size :=
  (stands_root h.grammatical).spans.run h.isCompound (List.ne_nil_of_mem hn)

/-- A statement stands at a place of its own. -/
theorem stands (hn : n ∈ s.root.children) {a b : Nat} (hspans : s.Spans n a b) :
    s.Stands n a b ∧ a < b := by
  have hstands := (stands_root h.grammatical).of_spans hn hspans
  exact ⟨hstands, (stands_root h.grammatical).lt_of_mem (h.mem_codeChildren hn) hstands⟩

/-- Statements before and behind one stand on other lines. -/
theorem rows_split {pre post : List Node} (hsplit : s.root.children = pre ++ n :: post) :
    (∀ m ∈ pre, s.buffer.lineOf m.stop < s.lineOfNode n) ∧
      ∀ m ∈ post, s.buffer.lineOf n.stop < s.lineOfNode m := by
  have hrows := h.rows
  rw [hsplit, List.pairwise_append, List.pairwise_cons] at hrows
  exact ⟨fun m hm => hrows.2.2 m hm n List.mem_cons_self, hrows.2.1.1⟩

/-- A statement stands apart from the tokens around it, behind those of the statements
before it. -/
theorem standsApart {pre post : List Node} (hsplit : s.root.children = pre ++ n :: post) :
    s.StandsApart n (codeCount (pre.flatMap (Node.pieces s.buffer)))
      (codeCount (pre.flatMap (Node.pieces s.buffer)) + codeCount (n.pieces s.buffer)) := by
  have hmem : n ∈ s.root.children := by simp [hsplit]
  have hrun := h.run hmem
  rw [hsplit] at hrun
  obtain ⟨a, hpre, b, hspans, hpost⟩ := hrun.append
  obtain rfl : a = codeCount (pre.flatMap (Node.pieces s.buffer)) := by
    rw [hpre.stop_eq, Nat.zero_add]
  obtain rfl := hspans.stop_eq
  obtain ⟨hstands, hlt⟩ := h.stands hmem hspans
  refine ⟨hstands, hlt, ⟨fun {k t} hk ht => ?_, fun {t} ht => ?_⟩, fun {k t} hk ht => ?_, ?_, ?_⟩
  · obtain ⟨m, hm, p, q, hspan, -, hpk, hkq, hqa⟩ := hpre.exists_mem (Nat.zero_le k) (by omega)
    have hmc : m ∈ s.root.children := by simp [hsplit, hm]
    obtain ⟨hstands, hpq⟩ := h.stands hmc hspan
    exact hstands.isOpeningParen hpq (h.balanced hmc) (by rwa [show q - 1 = k by omega])
  · have hsize := (Array.getElem?_eq_some_iff.1 ht).1
    obtain ⟨m, hm, p, q, hspan, hap, hpk, hkq, -⟩ := hpost.exists_mem (Nat.le_refl _) hsize
    have hmc : m ∈ s.root.children := by simp [hsplit, hm]
    obtain ⟨hstands, hpq⟩ := h.stands hmc hspan
    exact hstands.isClosingParen hpq (h.balanced hmc) (by rwa [Nat.le_antisymm hpk hap])
  · have hsize := (Array.getElem?_eq_some_iff.1 ht).1
    obtain ⟨m, hm, p, q, hspan, -, hpk, hkq, -⟩ := hpost.exists_mem hk hsize
    have hstart := (hspan.range hpk hkq ht).1
    have := Surrounds.lt_of_lineOf_lt ((h.rows_split hsplit).2 m hm)
    lia
  · intro hkind
    have := h.fields _ (.refl _) n hmem hkind
    simp [h.kind_eq] at this
  · exact fun m hm => h.fields m (hm.trans (.of_mem hmem))

/-- A statement before another stands before its tokens. -/
theorem standsApart_before {pre post : List Node} (hsplit : s.root.children = pre ++ n :: post)
    {m : Node} (hm : m ∈ pre) :
    ∃ a b, s.StandsApart m a b ∧ b ≤ codeCount (pre.flatMap (Node.pieces s.buffer)) := by
  obtain ⟨before, behind, rfl⟩ := List.append_of_mem hm
  refine ⟨_, _, h.standsApart (hsplit.trans (List.append_assoc before (m :: behind) _)), ?_⟩
  simp only [List.flatMap_append, List.flatMap_cons, codeCount_append]
  omega

/-- A statement behind another stands behind its tokens. -/
theorem standsApart_behind {pre post : List Node} (hsplit : s.root.children = pre ++ n :: post)
    {m : Node} (hm : m ∈ post) :
    ∃ a b, s.StandsApart m a b ∧
      codeCount (pre.flatMap (Node.pieces s.buffer)) + codeCount (n.pieces s.buffer) ≤ a := by
  obtain ⟨before, behind, rfl⟩ := List.append_of_mem hm
  have hsplit' : s.root.children = (pre ++ n :: before) ++ m :: behind := by simp [hsplit]
  refine ⟨_, _, h.standsApart hsplit', ?_⟩
  simp only [List.flatMap_append, List.flatMap_cons, codeCount_append]
  omega

/-- The walk visits the root and then the statements. -/
theorem visited_root : s.root.visited [] =
    ⟨s.root, []⟩ :: s.root.children.flatMap (Node.visited [s.root]) := by
  have hrule : Construct.ofKind? s.root.kind = some .program := by
    rw [h.kind_eq]
    decide
  have hnamed : s.root.namedChildren = s.root.children :=
    List.filter_eq_self.2 fun n hn => (h.isCode hn).1
  rw [Node.visited_of_ofKind? hrule, hnamed]

end StatementsApart

/-! ## statements alone -/

/-- A block of script moved along the text. -/
def shiftBlock (d : Int) (b : ScriptBlock) : ScriptBlock :=
  { b with start := b.start + d, stop := b.stop + d }

/-- The source of a stretch of the text, with one statement for its program.  Blocks of
script keep their places and their levels. -/
def alone (s : Source) (n : Node) (lo hi : Nat) : Source :=
  .ofTree (s.buffer.bytes.extract lo hi)
    { s.root with start := 0, stop := hi - lo, children := [n.shift (-lo)] } s.path
    (s.blocks.map (shiftBlock (-lo)))

/-- A statement of a program, and a stretch of the text that holds it. -/
structure InStretch (s : Source) (n : Node) (lo hi : Nat) : Prop where
  mem : n ∈ s.root.children
  lo_le : lo ≤ n.start
  le_hi : n.stop ≤ hi
  hi_le : hi ≤ s.buffer.bytes.size

namespace StatementsApart

variable {lo hi : Nat} (h : s.StatementsApart) (hn : s.InStretch n lo hi)

include h hn

theorem start_lt_stop : n.start < n.stop := by
  have htoken := h.grammatical.hasToken n (.of_mem hn.mem) (h.isCode hn.mem)
  obtain ⟨p, hp, -⟩ := List.countP_pos_iff.1 htoken
  have := (Node.pieces_between (h.grammatical.nested.of_mem hn.mem)
    (h.grammatical.bracketed.of_within (.of_mem hn.mem))).mem hp
  lia

theorem lo_lt_hi : lo < hi := by
  have := h.start_lt_stop hn
  have := hn.lo_le
  have := hn.le_hi
  lia

omit h in
theorem size_alone : (s.alone n lo hi).buffer.bytes.size = hi - lo := by
  change (s.buffer.bytes.extract lo hi).size = hi - lo
  rw [Array.size_extract, Nat.min_eq_left hn.hi_le]

/-- The text around the stretch. -/
theorem exists_text : ∃ xs zs : List UInt8, lo = xs.length ∧
    s.buffer.bytes.toList = xs ++ ((s.alone n lo hi).buffer.bytes.toList ++ zs) := by
  have := hn.hi_le
  have := h.lo_lt_hi hn
  refine ⟨s.buffer.bytes.toList.take lo, s.buffer.bytes.toList.drop hi, ?_, ?_⟩
  · rw [List.length_take, Array.length_toList]
    omega
  · change _ = _ ++ ((s.buffer.bytes.extract lo hi).toList ++ _)
    have hdrop : s.buffer.bytes.toList.drop hi = (s.buffer.bytes.toList.drop lo).drop (hi - lo) := by
      rw [List.drop_drop]
      congr 1
      omega
    rw [Array.toList_extract, List.extract_eq_take_drop, hdrop, List.take_append_drop,
      List.take_append_drop]

theorem inText_alone : (n.shift (-lo)).InText (s.alone n lo hi).buffer where
  nested := (h.grammatical.nested.of_mem hn.mem).shift
  bracketed := (h.grammatical.bracketed.of_within (.of_mem hn.mem)).shift
  nonneg := by
    have := hn.lo_le
    rw [Node.shift_start]
    lia
  le := by
    have := hn.le_hi
    have := h.lo_lt_hi hn
    rw [Node.shift_stop, size_alone hn]
    lia

/-- The program with one statement is grammatical. -/
theorem grammatical_alone :
    (s.alone n lo hi).root.Grammatical (s.alone n lo hi).buffer := by
  have hlt := h.start_lt_stop hn
  have hlo := hn.lo_le
  have hhi := hn.le_hi
  have hsize : 0 < (s.alone n lo hi).buffer.bytes.size := by
    rw [size_alone hn]
    exact Nat.sub_pos_of_lt (h.lo_lt_hi hn)
  have hkind : (s.alone n lo hi).root.kind = "program" := h.kind_eq
  have hchildren : (s.alone n lo hi).root.children = [n.shift (-lo)] := rfl
  refine Node.Grammatical.of_children ?_ ?_ (fun construct hconstruct => ?_) ?_
  · change 0 ≤ (n.shift (-lo)).start ∧ (n.shift (-lo)).start ≤ (n.shift (-lo)).stop ∧
      (n.shift (-lo)).stop ≤ (hi : Int) - lo
    rw [Node.shift_start, Node.shift_stop]
    lia
  · rw [hkind]
    decide
  · rw [hkind] at hconstruct
    obtain rfl : Construct.program = construct :=
      Option.mem_unique (by decide : Construct.ofKind? "program" = some .program) hconstruct
    trivial
  · have hin := h.inText_alone hn
    obtain ⟨xs, zs, rfl, htext⟩ := h.exists_text hn
    rw [hchildren, List.forall_mem_singleton]
    exact (Node.copies_shift_back htext hsize).sound_shift hin (h.grammatical.sound_of_mem hn.mem)

theorem pieces_alone : (s.alone n lo hi).root.pieces (s.alone n lo hi).buffer =
    (n.shift (-lo)).pieces (s.alone n lo hi).buffer := by
  have hkind : (s.alone n lo hi).root.kind = "program" := h.kind_eq
  have hcompound : (s.alone n lo hi).root.IsCompound :=
    ⟨by rw [Node.isComment, hkind]; decide, by rw [hkind]; decide⟩
  have hchildren : (s.alone n lo hi).root.children = [n.shift (-lo)] := rfl
  rw [Node.pieces_eq_flatMap (h.grammatical_alone hn).nested hcompound (by simp [hchildren]),
    hchildren, List.flatMap_singleton]

omit h hn in
/-- Blocks of script keep their levels. -/
theorem baseLevel_alone {t t' : Token} (ht : t'.start = t.start + lo) :
    s.baseLevel t' = (s.alone n lo hi).baseLevel t := by
  have hblock : (fun b : ScriptBlock => decide (b.start ≤ t.start) && decide (t.start < b.stop)) ∘
      shiftBlock (-lo) = fun b => decide (b.start ≤ t'.start) && decide (t'.start < b.stop) := by
    funext b
    simp only [Function.comp_apply, shiftBlock, ht]
    congr 1
    · exact decide_eq_decide.2 (by lia)
    · exact decide_eq_decide.2 (by lia)
  have hblocks : (s.alone n lo hi).blocks = s.blocks.map (shiftBlock (-lo)) := rfl
  rw [baseLevel, baseLevel, hblocks, List.find?_map, hblock]
  cases s.blocks.find? _ <;> rfl

/-- The pieces of the statement are found among those of the program. -/
theorem pieces_moved {xs zs : List UInt8} (hlo : lo = xs.length)
    (htext : s.buffer.bytes.toList = xs ++ ((s.alone n lo hi).buffer.bytes.toList ++ zs)) :
    n.pieces s.buffer = ((s.alone n lo hi).root.pieces (s.alone n lo hi).buffer).map
      (Shift.excerpt htext).piece := by
  have hmove : (n.shift (-lo)).shift xs.length = n := by rw [hlo, Node.shift_neg_shift]
  rw [h.pieces_alone hn, ← (h.inText_alone hn).pieces_shift htext, hmove]

theorem size_tokens_alone : (s.alone n lo hi).tokens.size = codeCount (n.pieces s.buffer) := by
  obtain ⟨xs, zs, hlo, htext⟩ := h.exists_text hn
  rw [size_tokens, codePieces, ← codeCount_eq_length_filter, h.pieces_moved hn hlo htext,
    Shift.codeCount_map]

/-- The program is found around the statement. -/
theorem surrounds {pre post : List Node} (hsplit : s.root.children = pre ++ n :: post)
    {xs zs : List UInt8} (hlo : lo = xs.length)
    (htext : s.buffer.bytes.toList = xs ++ ((s.alone n lo hi).buffer.bytes.toList ++ zs)) :
    s.Surrounds (s.alone n lo hi) xs zs (pre.flatMap (Node.pieces s.buffer))
      (post.flatMap (Node.pieces s.buffer)) (n.start - lo) (n.stop - lo) := by
  have g := h.grammatical
  have hin := h.inText_alone hn
  have hpieces := h.pieces_alone hn
  have hapart := h.standsApart hsplit
  obtain ⟨hpre, hpost⟩ := h.rows_split hsplit
  have hbetween {m : Node} (hm : m ∈ s.root.children) {p : Piece} (hp : p ∈ m.pieces s.buffer) :
      m.start ≤ p.start ∧ p.start < p.stop ∧ p.stop ≤ m.stop :=
    (Node.pieces_between (g.nested.of_mem hm) (g.bracketed.of_within (.of_mem hm))).mem hp
  refine ⟨htext, ?_, ?_, ?_, ?_, ?_, fun {p} hp => ?_, fun {p} hp => ?_, fun {t t'} ht => ?_,
    hapart.apart.opening, fun {t'} ht' => ?_⟩
  · rw [← h.pieces_moved hn hlo htext,
      Node.pieces_eq_flatMap g.nested h.isCompound (List.ne_nil_of_mem hn.mem), hsplit,
      List.flatMap_append, List.flatMap_cons]
  · have := Node.pieces_between (b := (s.alone n lo hi).buffer) hin.nested hin.bracketed
    rwa [← hpieces, Node.shift_start, Node.shift_stop] at this
  · exact Int.sub_nonneg_of_le hn.lo_le
  · have := hin.le
    rwa [Node.shift_stop] at this
  · exact ⟨_, _, Node.pieces_between g.nested g.bracketed⟩
  · obtain ⟨m, hm, hp⟩ := List.mem_flatMap.1 hp
    obtain ⟨-, -, hstop⟩ := hbetween (by simp [hsplit, hm]) hp
    have := s.buffer.lineOf_mono (o := p.stop - 1) (p := m.stop) (by lia)
    have := hpre m hm
    rw [hlo, Int.sub_add_cancel]
    exact Nat.lt_of_le_of_lt ‹_› ‹_›
  · obtain ⟨m, hm, hp⟩ := List.mem_flatMap.1 hp
    obtain ⟨hstart, -, -⟩ := hbetween (by simp [hsplit, hm]) hp
    have := s.buffer.lineOf_mono hstart
    have := hpost m hm
    rw [hlo, Int.sub_add_cancel]
    exact Nat.lt_of_lt_of_le ‹_› ‹_›
  · exact baseLevel_alone (hlo ▸ ht)
  · refine hapart.apart.closing ?_
    rwa [h.size_tokens_alone hn] at ht'

/-! ## walks -/

theorem visited_alone : (s.alone n lo hi).root.visited [] =
    ⟨(s.alone n lo hi).root, []⟩ :: [n.shift (-lo)].flatMap (Node.visited [(s.alone n lo hi).root]) := by
  have hrule : Construct.ofKind? (s.alone n lo hi).root.kind = some .program := by
    rw [show (s.alone n lo hi).root.kind = "program" from h.kind_eq]
    decide
  have hnamed : (s.alone n lo hi).root.namedChildren = [n.shift (-lo)] :=
    List.filter_cons_of_pos (by rw [Node.shift_isNamed, (h.isCode hn.mem).1])
  rw [Node.visited_of_ofKind? hrule, hnamed]

theorem fields_alone : (s.alone n lo hi).root.FieldsInBodies := by
  have hchildren : (s.alone n lo hi).root.children = [n.shift (-lo)] := rfl
  rintro m hm c hc hkind
  rcases hm.eq_or_below with rfl | ⟨d, hd, hm⟩
  · rw [hchildren, List.mem_singleton] at hc
    rw [hc, Node.shift_kind] at hkind
    exact h.fields s.root (.refl _) n hn.mem hkind
  · rw [hchildren, List.mem_singleton] at hd
    subst hd
    obtain ⟨k, hk, rfl⟩ := Node.exists_of_within_shift hm
    rw [Node.shift_children, List.mem_map] at hc
    obtain ⟨d, hd, rfl⟩ := hc
    rw [Node.shift_kind] at hkind ⊢
    exact h.fields k (hk.trans (.of_mem hn.mem)) d hd hkind

section Walks

variable {pre post : List Node} (hsplit : s.root.children = pre ++ n :: post)
  {xs zs : List UInt8} (hlo : lo = xs.length)
  (htext : s.buffer.bytes.toList = xs ++ ((s.alone n lo hi).buffer.bytes.toList ++ zs))

include hsplit hlo htext

theorem move_alone : (h.surrounds hn hsplit hlo htext).embedding.move (n.shift (-lo)) = n := by
  change (n.shift (-lo)).shift xs.length = n
  rw [hlo, Node.shift_neg_shift]

theorem domain_alone : (h.surrounds hn hsplit hlo htext).embedding.Domain (n.shift (-lo)) := by
  refine ⟨(h.grammatical.nested.of_mem hn.mem).shift, ?_, ?_⟩
  · rw [Node.shift_start]
    exact Int.le_refl _
  · rw [Node.shift_stop]
    exact Int.le_refl _

/-- The other statements stand outside. -/
theorem standsApart_outside {m : Node} (hm : m ∈ pre ∨ m ∈ post) :
    ∃ a b, s.StandsApart m a b ∧
      (b ≤ (h.surrounds hn hsplit hlo htext).embedding.skip ∨
        (h.surrounds hn hsplit hlo htext).embedding.skip + (s.alone n lo hi).tokens.size ≤ a) := by
  rw [h.size_tokens_alone hn]
  rcases hm with hm | hm
  · obtain ⟨a, b, hm, hle⟩ := h.standsApart_before hsplit hm
    exact ⟨a, b, hm, .inl hle⟩
  · obtain ⟨a, b, hm, hle⟩ := h.standsApart_behind hsplit hm
    exact ⟨a, b, hm, .inr hle⟩

/-- Of the statements that the larger program places, one is found. -/
theorem starts_owned : (h.surrounds hn hsplit hlo htext).embedding.PairsOwned
    ((s.alone n lo hi).root.codeChildren.filterMap (s.alone n lo hi).firstOfNode?)
    (s.root.codeChildren.filterMap s.firstOfNode?) := by
  have hcode : s.root.codeChildren = pre ++ n :: post := by
    rw [Node.codeChildren, Node.namedChildren, List.filter_filter, ← hsplit, List.filter_eq_self]
    exact fun m hm => by simp [(h.isCode hm).1, (h.isCode hm).2]
  have hcode' : (s.alone n lo hi).root.codeChildren = [n.shift (-lo)] := by
    have hcode := h.isCode hn.mem
    have hchildren : (s.alone n lo hi).root.children = [n.shift (-lo)] := rfl
    simp [Node.codeChildren, Node.namedChildren, hchildren, hcode.1, hcode.2]
  have hfound := Embedding.rel_firstOfNode? (h.domain_alone hn hsplit hlo htext)
  rw [h.move_alone hn hsplit hlo htext] at hfound
  have hother (ms : List Node) (hms : ∀ m ∈ ms, m ∈ pre ∨ m ∈ post) :
      (h.surrounds hn hsplit hlo htext).embedding.PairsOwned [] (ms.filterMap s.firstOfNode?) := by
    have hnone : (ms.filterMap s.firstOfNode?).filter
        (h.surrounds hn hsplit hlo htext).embedding.owns = [] := by
      rw [List.filter_eq_nil_iff]
      intro t ht
      obtain ⟨m, hm, ht⟩ := List.mem_filterMap.1 ht
      obtain ⟨a, b, hapart, houtside⟩ := h.standsApart_outside hn hsplit hlo htext (hms m hm)
      obtain ⟨u, hu, hfirst⟩ := (hapart.stands.ends hapart.lt).exists_first?
      obtain rfl := Option.mem_unique ht hfirst
      have hlt := hapart.lt
      rw [Embedding.owns_eq_false hu (by omega)]
      exact Bool.false_ne_true
    rw [Embedding.PairsOwned, hnone]
    exact .nil
  have hpre := hother pre fun m hm => .inl hm
  have hpost := hother post fun m hm => .inr hm
  have hall := hpre.append ((Embedding.Answers.of_rel hfound).owned.append hpost)
  have hcons (f : Node → Option Token) (k : Node) (ks : List Node) :
      (k :: ks).filterMap f = (f k).toList ++ ks.filterMap f := by
    cases hk : f k <;> simp [hk]
  rwa [hcode, hcode', List.filterMap_append, hcons, hcons, List.filterMap_nil]

/-- The registries of the program and of the statement alone agree on its tokens. -/
theorem registers (caseLevels : Int) :
    (h.surrounds hn hsplit hlo htext).embedding.Registers
      ((h.surrounds hn hsplit hlo htext).embedding.Lifts (fun _ => False) 0)
      ((s.alone n lo hi).analyze caseLevels).registry (s.analyze caseLevels).registry := by
  let e := (h.surrounds hn hsplit hlo htext).embedding
  have g' := h.grammatical_alone hn
  have hkind : (s.alone n lo hi).root.kind = "program" := h.kind_eq
  have hbarrier : ∀ k : Node, k.kind = "program" → Embedding.Barrier [k] := by
    rintro k hk _ ⟨⟩
    rw [hk]
    decide
  have hok := (Source.analyze_pointsBack g' caseLevels).1
  obtain ⟨a, hafault, haregistry, ha⟩ :=
    exists_analyze_program g' hkind (h.visited_alone hn) caseLevels
  obtain ⟨b, hbfault, hbregistry, hb⟩ :=
    exists_analyze_program h.grammatical h.kind_eq h.visited_root caseLevels
  rw [ha] at hok ⊢
  rw [hb, hsplit, List.flatMap_append, List.flatMap_cons (x := n)]
  have houtside (ms : List Node) (hms : ∀ m ∈ ms, m ∈ pre ∨ m ∈ post) (m : Node) (hm : m ∈ ms) :
      (∀ p ∈ m.visited [s.root], p ∈ s.root.visited []) ∧ ∃ a b, s.StandsApart m a b ∧
        (b ≤ e.skip ∨ e.skip + (s.alone n lo hi).tokens.size ≤ a) := by
    refine ⟨fun p hp => ?_, h.standsApart_outside hn hsplit hlo htext (hms m hm)⟩
    rw [h.visited_root, hsplit]
    refine List.mem_cons_of_mem _ (List.mem_flatMap.2 ⟨m, ?_, hp⟩)
    rcases hms m hm with hm | hm <;> simp [hm]
  have hstarts : e.Registers (e.Lifts (fun _ => False) 0) a.registry b.registry := by
    rw [haregistry, hbregistry]
    exact Embedding.Registers.record_carries ⟨fun _ => .none, fun _ => rfl⟩
      (Embedding.carriesAll_starts (h.starts_owned hn hsplit hlo htext))
      fun _ _ _ hcarries => hcarries.lifts _
  obtain ⟨hfault, hbefore⟩ := Embedding.visitAll_outside_all caseLevels h.grammatical
    (houtside pre fun m hm => .inl hm) hbfault hstarts
  rw [Analysis.visitAll_append hfault]
  have halike : List.Forall₂ (e.Alike caseLevels)
      ([n.shift (-lo)].flatMap (Node.visited [(s.alone n lo hi).root]))
      (([n.shift (-lo)].map e.move).flatMap (Node.visited [s.root])) := by
    refine Embedding.alike_statements (hbarrier _ hkind) (hbarrier _ h.kind_eq) ?_ ?_
    · simpa using h.domain_alone hn hsplit hlo htext
    · intro k hk place hplace
      refine Embedding.shaped_of_visited g' ?_ (h.fields_alone hn) ?_
      · rw [hkind]
        decide
      · rw [h.visited_alone hn]
        exact List.mem_cons_of_mem _ (List.mem_flatMap.2 ⟨k, hk, hplace⟩)
  have hmoved : ([n.shift (-lo)].map e.move).flatMap (Node.visited [s.root]) =
      n.visited [s.root] := by
    rw [List.map_singleton, List.flatMap_singleton, h.move_alone hn hsplit hlo htext]
  rw [hmoved] at halike
  obtain ⟨hstatement, hfault'⟩ := Embedding.visitAll_registers halike
    (fun _ _ _ _ _ _ _ hcarries => hcarries.lifts _) hafault hfault hbefore (.inr hok)
  rw [hok] at hfault'
  rw [Analysis.visitAll_append hfault']
  exact (Embedding.visitAll_outside_all caseLevels h.grammatical
    (houtside post fun m hm => .inr hm) hfault' hstatement).2

/-- Tokens on the lines of the statement are its own. -/
theorem owns_of_line {t : Token} (ht : t ∈ s.tokens) (hfirst : s.lineOfNode n ≤ t.line)
    (hlast : t.line ≤ s.buffer.lineOf n.stop) :
    (h.surrounds hn hsplit hlo htext).embedding.owns t = true := by
  obtain ⟨k, hk⟩ := Array.getElem?_of_mem ht
  have hsurrounds := h.surrounds hn hsplit hlo htext
  obtain ⟨hpre, hpost⟩ := h.rows_split hsplit
  rw [Embedding.owns_eq hk]
  rcases hsurrounds.token_cases hk with ⟨-, p, hp, rfl⟩ | ⟨i, p, u, rfl, -, hu, -⟩ | ⟨-, p, hp, rfl⟩
  · have hproper : p.start < p.stop := hsurrounds.ordered_outer.proper hk
    have hline := hsurrounds.above hp
    have := s.buffer.lineOf_mono (o := p.start) (p := p.stop - 1) (by lia)
    rw [hlo, Int.sub_add_cancel] at hline
    change s.buffer.lineOf n.start ≤ s.buffer.lineOf p.start at hfirst
    omega
  · have hsize := (Array.getElem?_eq_some_iff.1 hu).1
    rw [Bool.and_eq_true, decide_eq_true_eq, decide_eq_true_eq]
    exact ⟨Nat.le_add_right _ _, Nat.add_lt_add_left hsize _⟩
  · have hline := hsurrounds.below hp
    rw [hlo, Int.sub_add_cancel] at hline
    exact absurd hlast (Nat.not_le.2 hline)

/-- The lines of the statement alone are found on its lines. -/
theorem line_of_alone {t : Token} (ht : t ∈ (s.alone n lo hi).tokens) :
    s.lineOfNode n ≤ t.line + Bytes.feeds xs ∧ t.line + Bytes.feeds xs ≤ s.buffer.lineOf n.stop := by
  obtain ⟨k, hk⟩ := Array.getElem?_of_mem ht
  obtain ⟨p, hp, rfl⟩ := exists_codePiece hk
  have hsurrounds := h.surrounds hn hsplit hlo htext
  obtain ⟨hstart, hlt, hstop⟩ :=
    hsurrounds.between.mem (List.mem_filter.1 (List.mem_of_getElem? hp)).1
  have hnonneg := hsurrounds.nonneg
  have hle := hsurrounds.le
  have hline := Shift.lineOf_shift htext (o := p.start) (by lia) (by lia)
  change s.buffer.lineOf n.start ≤ (s.alone n lo hi).buffer.lineOf p.start + _ ∧
    (s.alone n lo hi).buffer.lineOf p.start + _ ≤ _
  rw [← hline]
  exact ⟨s.buffer.lineOf_mono (by lia), s.buffer.lineOf_mono (by lia)⟩

end Walks

end StatementsApart

/-- In a program whose statements stand on lines of their own, the lines of a statement have
the levels that they have with the statement alone. -/
theorem lineLevels_alone {lo hi : Nat} (h : s.StatementsApart) (hn : s.InStretch n lo hi)
    (caseLevels width : Int) :
    (s.analyze caseLevels).fault = none ∧ ((s.alone n lo hi).analyze caseLevels).fault = none ∧
      ∃ levels levels',
        (({ width } : Resolver).lineLevels s (s.analyze caseLevels).registry).1 = .ok levels ∧
        (({ width } : Resolver).lineLevels (s.alone n lo hi)
          ((s.alone n lo hi).analyze caseLevels).registry).1 = .ok levels' ∧
        levels.filter (fun x => s.lineOfNode n ≤ x.1 && x.1 ≤ s.buffer.lineOf n.stop) =
          levels'.map fun x => (x.1 + (s.buffer.lineOf lo - 1), x.2) := by
  obtain ⟨pre, post, hsplit⟩ := List.append_of_mem hn.mem
  obtain ⟨xs, zs, hlo, htext⟩ := h.exists_text hn
  obtain ⟨hfault, hback⟩ := analyze_pointsBack h.grammatical caseLevels
  obtain ⟨hfault', hback'⟩ := analyze_pointsBack (h.grammatical_alone hn) caseLevels
  obtain ⟨levels, hlevels⟩ := Registry.exists_settle hback []
    fun line hline t ht hcode => mem_tokens_of_mem_lines hline ht hcode
  obtain ⟨levels', hlevels'⟩ := Registry.exists_settle hback' []
    fun line hline t ht hcode => mem_tokens_of_mem_lines hline ht hcode
  refine ⟨hfault, hfault', levels, levels', hlevels, hlevels', ?_⟩
  have hsurrounds := h.surrounds hn hsplit hlo htext
  have hregisters := h.registers hn hsplit hlo htext caseLevels
  have hrow : s.buffer.lineOf lo - 1 = Bytes.feeds xs := by
    rw [Buffer.lineOf_eq _ (Int.natCast_nonneg lo), htext, Int.toNat_natCast, hlo,
      List.take_left, Nat.add_sub_cancel]
  have hlifted (stop : Option Entry) (level : Int) : Embedding.lifted 0 stop level = level := by
    rw [Embedding.lifted, Int.add_zero, ite_self]
  rw [hrow]
  refine Embedding.eq_of_mem_iff ((pairwise_levels hlevels).filter _)
    (List.pairwise_map.2 ((pairwise_levels hlevels').imp fun hlt => Nat.add_lt_add_right hlt _)) ?_
  rintro ⟨line, level⟩
  rw [List.mem_filter, List.mem_map, Bool.and_eq_true, decide_eq_true_eq, decide_eq_true_eq]
  constructor
  · rintro ⟨hmem, hfirst, hlast⟩
    obtain ⟨line', level', stop, rfl, hmem', -, rfl⟩ := hsurrounds.exists_level hregisters
      (fun _ hb => hb.elim) hlevels' hlevels hmem
      fun t ht hline => h.owns_of_line hn hsplit hlo htext ht (hline ▸ hfirst) (hline ▸ hlast)
    exact ⟨(line', level'), hmem', by rw [hlifted]⟩
  · rintro ⟨⟨line', level'⟩, hmem', heq⟩
    obtain ⟨rfl, rfl⟩ := Prod.mk.injEq .. ▸ heq
    obtain ⟨stop, -, hmem⟩ :=
      hsurrounds.mem_levels hregisters (fun _ hb => hb.elim) hlevels' hlevels hmem'
    obtain ⟨t, ht, rfl⟩ := Embedding.exists_token_of_mem_levels hlevels' hmem'
    rw [hlifted] at hmem
    exact ⟨hmem, h.line_of_alone hn hsplit hlo htext ht⟩

/-! ## two assignments -/

/-- The statement `a=b`. -/
def assigning : Node := ⟨"expression_statement", true, false, false, [], 0, 3, [assignment]⟩

/-- Two statements `a=b` below each other. -/
def assignmentsSource : Source :=
  .ofTree #[0x61, 0x3D, 0x62, 0x0A, 0x61, 0x3D, 0x62]
    ⟨"program", true, false, false, [], 0, 7, [assigning.shift 0, assigning.shift 4]⟩ none []

theorem assignmentsSource_apart : assignmentsSource.StatementsApart where
  kind_eq := rfl
  grammatical := by
    have hin : assigning.InText assignmentSource.buffer :=
      ⟨assignmentSource_grammatical.nested.of_mem List.mem_cons_self,
        assignmentSource_grammatical.bracketed.of_within (.of_mem List.mem_cons_self),
        by decide, by decide⟩
    have hsound : assigning.Sound assignmentSource.buffer :=
      assignmentSource_grammatical.sound_of_mem List.mem_cons_self
    have hchild (xs zs : List UInt8) (htext : assignmentsSource.buffer.bytes.toList =
        xs ++ (assignmentSource.buffer.bytes.toList ++ zs)) :
        (assigning.shift xs.length).Sound assignmentsSource.buffer :=
      (Node.copies_shift htext (by decide)).sound_shift hin hsound
    refine Node.Grammatical.of_children (by decide) (by decide) (fun construct hconstruct => ?_) ?_
    · obtain rfl : Construct.program = construct :=
        Option.mem_unique (by decide : Construct.ofKind? "program" = some .program) hconstruct
      trivial
    · simp only [assignmentsSource, ofTree, List.forall_mem_cons]
      exact ⟨hchild [] [0x0A, 0x61, 0x3D, 0x62] rfl, hchild [0x61, 0x3D, 0x62, 0x0A] [] rfl, by simp⟩
  fields := by
    have hnone : assignmentsSource.root.all (·.children.all (·.kind != "field_definition")) = true := by
      decide
    intro m hm c hc hkind
    have := List.all_eq_true.1 (Node.of_all hnone hm) c hc
    simp [hkind] at this
  start_nonneg := by decide
  stop_le := by decide
  isCode {n} hn := by
    simp only [assignmentsSource, ofTree, List.mem_cons, List.not_mem_nil, or_false] at hn
    rcases hn with rfl | rfl <;> exact ⟨rfl, by decide⟩
  rows := by
    simp only [assignmentsSource, ofTree, List.pairwise_cons, List.mem_singleton, forall_eq,
      List.not_mem_nil, false_implies, implies_true, List.Pairwise.nil, and_true]
    decide +kernel
  balanced {n} hn := by
    simp only [assignmentsSource, ofTree, List.mem_cons, List.not_mem_nil, or_false] at hn
    rcases hn with rfl | rfl <;> decide +kernel

theorem lineLevels_assignmentsSource :
    (({ width := 4 } : Resolver).lineLevels assignmentsSource
      (assignmentsSource.analyze 1).registry).1 = .ok [(1, 0), (2, 0)] :=
  lineLevels_eq_ok (by decide +kernel) (by decide +kernel)

/-- The second of two statements is on line 2 among both and on line 1 alone, at level 0. -/
theorem lineLevels_second : assignmentsSource.StatementsApart ∧
    assignmentsSource.InStretch (assigning.shift 4) 4 7 ∧
    (assignmentsSource.analyze 1).fault = none ∧
    ((assignmentsSource.alone (assigning.shift 4) 4 7).analyze 1).fault = none ∧
    (({ width := 4 } : Resolver).lineLevels assignmentsSource
      (assignmentsSource.analyze 1).registry).1 = .ok [(1, 0), (2, 0)] ∧
    (({ width := 4 } : Resolver).lineLevels (assignmentsSource.alone (assigning.shift 4) 4 7)
      ((assignmentsSource.alone (assigning.shift 4) 4 7).analyze 1).registry).1 = .ok [(1, 0)] := by
  have hn : assignmentsSource.InStretch (assigning.shift 4) 4 7 :=
    ⟨by simp [assignmentsSource, ofTree], by decide, by decide, by decide⟩
  obtain ⟨hfault, hfault', levels, levels', hlevels, hlevels', hagree⟩ :=
    lineLevels_alone assignmentsSource_apart hn 1 4
  refine ⟨assignmentsSource_apart, hn, hfault, hfault', lineLevels_assignmentsSource, ?_⟩
  -- the levels alone are read off those of both
  obtain rfl := Except.ok.inj (lineLevels_assignmentsSource.symm.trans hlevels)
  have hsecond : ([(1, 0), (2, 0)] : LineLevels).filter (fun x =>
      assignmentsSource.lineOfNode (assigning.shift 4) ≤ x.1 &&
        x.1 ≤ assignmentsSource.buffer.lineOf (assigning.shift 4).stop) = [(2, 0)] := by
    decide +kernel
  have hline : assignmentsSource.buffer.lineOf (4 : Nat) - 1 = 1 := by decide +kernel
  rw [hsecond, hline] at hagree
  obtain ⟨⟨line, level⟩, rest, rfl, heq, hrest⟩ := List.map_eq_cons_iff.1 hagree.symm
  obtain ⟨hone, rfl⟩ := Prod.mk.injEq .. ▸ heq
  obtain rfl : line = 1 := Nat.succ.inj hone
  obtain rfl := List.map_eq_nil_iff.1 hrest
  exact hlevels'

end Source

end ScriptIndent
