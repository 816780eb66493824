import ScriptIndent.Proofs.Tree.Grammar
import ScriptIndent.Proofs.Tree.Mirror

/-!
# ScriptIndent.Proofs.Tree.Copy

Shapes of copied trees.

A map of trees *copies* them into another text if it keeps everything but their ranges,
and the copies make the same tokens and are spelled in the same way (`Node.Copies`).
The copy of a construct has the shape of the construct (`Node.Copies.shape`).
-/

namespace ScriptIndent

namespace Node

/-- A map that takes some trees over one text to trees over another that differ in their
ranges only. -/
structure Copies (b b' : Buffer) (f : Node → Node) (Domain : Node → Prop) : Prop where
  kind (n : Node) : (f n).kind = n.kind
  isNamed (n : Node) : (f n).isNamed = n.isNamed
  fields (n : Node) : (f n).fields = n.fields
  children (n : Node) : (f n).children = n.children.map f
  domain_child {n c : Node} : Domain n → c ∈ n.children → Domain c
  spells {n : Node} {value : String} : Domain n → n.Spells b value → (f n).Spells b' value
  hasToken {n : Node} : Domain n → n.HasToken b → (f n).HasToken b'
  begins {n : Node} {value : String} : Domain n → (f n).Begins b' value → n.Begins b value
  /-- The other text spells something. -/
  lexeme : ∃ n : Node, n.IsLexeme b'

namespace Copies

variable {b b' : Buffer} {f : Node → Node} {Domain : Node → Prop} (h : Copies b b' f Domain)

include h

theorem mirrors : Mirrors f where
  kind := h.kind
  isNamed := h.isNamed
  fields := h.fields
  children n := by
    rw [h.children]
    exact .refl _

/-! ## parts -/

variable {n c : Node} {name left right : String}

theorem isCode (hc : c.IsCode) : (f c).IsCode := by
  rwa [IsCode, h.isNamed, h.mirrors.isComment]

theorem isCompound (hn : n.IsCompound) : (f n).IsCompound := by
  rwa [IsCompound, h.mirrors.isComment, h.kind]

theorem isLiteralPart (hn : n.IsLiteralPart) : (f n).IsLiteralPart := by
  rw [IsLiteralPart, h.kind, h.children, List.map_eq_nil_iff]
  exact hn

theorem mem_codeChildren (hc : c ∈ n.codeChildren) : f c ∈ (f n).codeChildren := by
  rw [h.mirrors.codeChildren]
  exact List.mem_map_of_mem hc

/-- What holds of the constructs among the children holds of the copies. -/
theorem forall_codeChildren {P Q : Node → Prop} (hn : ∀ c ∈ n.codeChildren, P c)
    (hPQ : ∀ c, P c → Q (f c)) : ∀ c ∈ (f n).codeChildren, Q c := by
  rw [h.mirrors.codeChildren, List.forall_mem_map]
  exact fun c hc => hPQ c (hn c hc)

theorem codeChildren_eq_nil (hn : n.codeChildren = []) : (f n).codeChildren = [] := by
  rw [h.mirrors.codeChildren, hn, List.map_nil]

theorem codeChildren_ne_nil (hn : n.codeChildren ≠ []) : (f n).codeChildren ≠ [] := by
  rwa [h.mirrors.codeChildren, ne_eq, List.map_eq_nil_iff]

theorem parts : (f n).parts = n.parts.map f := by
  rw [Node.parts, h.children, List.filter_map, Node.parts]
  congr 1
  refine List.filter_congr fun c _ => ?_
  rw [Function.comp, h.mirrors.isComment]

theorem field_eq (hc : n.field? name = some c) : (f n).field? name = some (f c) := by
  rw [h.mirrors.field?, hc, Option.map_some]

theorem keyword_eq (hc : n.keyword? name = some c) : (f n).keyword? name = some (f c) := by
  rw [h.mirrors.keyword?, hc, Option.map_some]

theorem isPart (hc : n.IsPart name c) : (f n).IsPart name (f c) :=
  ⟨h.field_eq hc.1, h.mem_codeChildren hc.2⟩

theorem inTurn {parts : List Node} (hn : n.InTurn parts) : (f n).InTurn (parts.map f) := by
  rw [InTurn, h.children]
  exact hn.map f

/-- What holds of the part under a field, if there is one, holds of its copy. -/
theorem forall_field {P Q : Node → Prop} (hn : ∀ c, n.field? name = some c → P c)
    (hPQ : ∀ c, P c → Q (f c)) : ∀ c, (f n).field? name = some c → Q c := by
  intro c hc
  rw [h.mirrors.field?, Option.map_eq_some_iff] at hc
  obtain ⟨c, hc, rfl⟩ := hc
  exact hPQ c (hn c hc)

theorem forall_childOfKind {P Q : Node → Prop} (hkind : isCommentKind name = false)
    (hn : ∀ c, n.childOfKind? name = some c → P c) (hPQ : ∀ c, P c → Q (f c)) :
    ∀ c, (f n).childOfKind? name = some c → Q c := by
  intro c hc
  rw [h.mirrors.childOfKind? _ hkind, Option.map_eq_some_iff] at hc
  obtain ⟨c, hc, rfl⟩ := hc
  exact hPQ c (hn c hc)

theorem forall_keyword {P Q : Node → Prop} (hn : ∀ c, n.keyword? name = some c → P c)
    (hPQ : ∀ c, n.keyword? name = some c → P c → Q (f c)) :
    ∀ c, (f n).keyword? name = some c → Q c := by
  intro c hc
  rw [h.mirrors.keyword?, Option.map_eq_some_iff] at hc
  obtain ⟨c, hc, rfl⟩ := hc
  exact hPQ c hc (hn c hc)

variable (hn : Domain n)

include hn

/-- The parts that stand in turn are copied. -/
theorem domain_of_inTurn {parts : List Node} (hparts : n.InTurn parts) : ∀ c ∈ parts, Domain c :=
  fun _ hc => h.domain_child hn (hparts.subset hc)

theorem domain_of_mem (hc : c ∈ n.codeChildren) : Domain c :=
  h.domain_child hn (Node.mem_codeChildren.1 hc).1

theorem domain_of_part (hc : n.IsPart name c) : Domain c := h.domain_of_mem hn hc.2

theorem enclosed (hencl : n.Enclosed b left right) : (f n).Enclosed b' left right := by
  obtain ⟨hcompound, opening, inner, closing, hcs, hopening, hclosing⟩ := hencl
  have hmem : opening ∈ n.children ∧ closing ∈ n.children := by simp [hcs]
  refine ⟨h.isCompound hcompound, f opening, inner.map f, f closing, ?_,
    h.spells (h.domain_child hn hmem.1) hopening, h.spells (h.domain_child hn hmem.2) hclosing⟩
  simp [h.children, hcs]

theorem isLexeme (hlex : n.IsLexeme b) : (f n).IsLexeme b' := by
  obtain ⟨value, hspells, hvalue⟩ := hlex
  exact ⟨value, h.spells hn hspells, hvalue⟩

theorem isOperator (hop : n.IsOperator b) : (f n).IsOperator b' := by
  obtain ⟨value, hspells, hvalue⟩ := hop
  exact ⟨value, h.spells hn hspells, hvalue⟩

theorem isLink (hlink : n.IsLink b) : (f n).IsLink b' := by
  rcases hlink with hspells | ⟨hkind, hcode, hchildren⟩
  · exact .inl (h.spells hn hspells)
  · exact .inr ⟨(h.kind n).trans hkind, h.isCode hcode, by rw [h.children, hchildren, List.map_nil]⟩

theorem hasHead {more : List Node} (hhead : n.HasHead b name more) :
    (f n).HasHead b' name (more.map f) := by
  obtain ⟨keyword, head, hkeyword, hpart, hencl, hturn⟩ := hhead
  have hdomain := h.domain_of_inTurn hn hturn
  exact ⟨f keyword, f head, h.isLexeme (hdomain _ (by simp)) hkeyword, h.isPart hpart,
    h.enclosed (hdomain _ (by simp)) hencl, h.inTurn hturn⟩

/-! ## shapes -/

omit hn in
theorem plainShape (hs : n.PlainShape) : (f n).PlainShape := by
  intro hatomic
  rw [h.kind] at hatomic
  exact h.forall_codeChildren (hs hatomic) fun c hc => h.isLiteralPart hc

theorem declaratorShape (hs : n.DeclaratorShape b) : (f n).DeclaratorShape b' := by
  refine h.forall_field hs fun value ⟨id, equals, hid, hequals, hvalue, hturn⟩ => ?_
  have hdomain := h.domain_of_inTurn hn hturn
  exact ⟨f id, f equals, h.isPart hid, h.spells (hdomain _ (by simp)) hequals, h.isPart hvalue,
    h.inTurn hturn⟩

theorem chainShape (hs : n.ChainShape b) : (f n).ChainShape b' := by
  obtain ⟨left, operator, right, hleft, hoperator, hright, hturn, hhead⟩ := hs
  have hdomain := h.domain_of_inTurn hn hturn
  refine ⟨f left, f operator, f right, h.isPart hleft, h.isOperator (hdomain _ (by simp)) hoperator,
    h.isPart hright, h.inTurn hturn, ?_⟩
  rw [h.mirrors.codeChildren, List.head?_map, hhead, Option.map_some]

theorem ternaryShape (hs : n.TernaryShape b) : (f n).TernaryShape b' := by
  obtain ⟨condition, question, consequence, colon, alternative, hcondition, hquestion,
    hconsequence, hcolon, halternative, hturn⟩ := hs
  have hdomain := h.domain_of_inTurn hn hturn
  exact ⟨f condition, f question, f consequence, f colon, f alternative, h.isPart hcondition,
    h.spells (hdomain _ (by simp)) hquestion, h.isPart hconsequence,
    h.spells (hdomain _ (by simp)) hcolon, h.isPart halternative, h.inTurn hturn⟩

theorem operandShape (hs : n.OperandShape b) : (f n).OperandShape b' := by
  obtain ⟨sign, operand, hsign, hoperand, hturn⟩ := hs
  have hdomain : Domain sign := by
    rcases hturn with hturn | hturn <;> exact h.domain_of_inTurn hn hturn _ (by simp)
  exact ⟨f sign, f operand, h.isLexeme hdomain hsign, h.mem_codeChildren hoperand,
    hturn.imp h.inTurn h.inTurn⟩

theorem yieldingShape (hs : n.YieldingShape b) : (f n).YieldingShape b' := by
  refine hs.imp h.codeChildren_eq_nil ?_
  rintro ⟨keyword, operand, hkeyword, hoperand, hstar, hturn⟩
  have hdomain := h.domain_of_inTurn hn hturn
  exact ⟨f keyword, f operand, h.isLexeme (hdomain _ (by simp)) hkeyword,
    h.mem_codeChildren hoperand, mt (h.begins (hdomain _ (by simp))) hstar, h.inTurn hturn⟩

theorem conditionalShape (hs : n.ConditionalShape b) : (f n).ConditionalShape b' := by
  obtain ⟨consequence, hconsequence, hhead, halternative⟩ := hs
  have hmore : (f consequence :: ((f n).field? "alternative").toList) =
      (consequence :: (n.field? "alternative").toList).map f := by
    rw [h.mirrors.field?]
    cases n.field? "alternative" <;> rfl
  refine ⟨f consequence, h.isPart hconsequence, hmore ▸ h.hasHead hn hhead, ?_⟩
  exact h.forall_field halternative fun c ⟨hc, hcompound⟩ =>
    ⟨h.mem_codeChildren hc, h.isCompound hcompound⟩

theorem headedShape (hs : n.HeadedShape b) : (f n).HeadedShape b' := by
  obtain ⟨name, body, hbody, hhead⟩ := hs
  exact ⟨name, f body, h.isPart hbody, h.hasHead hn hhead⟩

theorem doLoopShape (hs : n.DoLoopShape b) : (f n).DoLoopShape b' := by
  obtain ⟨keyword, body, again, condition, hkeyword, hbody, hagain, hcondition, hencl, hturn⟩ := hs
  have hdomain := h.domain_of_inTurn hn hturn
  exact ⟨f keyword, f body, f again, f condition, h.isLexeme (hdomain _ (by simp)) hkeyword,
    h.isPart hbody, h.spells (hdomain _ (by simp)) hagain, h.isPart hcondition,
    h.enclosed (hdomain _ (by simp)) hencl, h.inTurn hturn⟩

theorem forLoopShape (hs : n.ForLoopShape b) : (f n).ForLoopShape b' := by
  obtain ⟨keyword, left, right, body, hkeyword, hleft, hright, hbody, hturn⟩ := hs
  have hdomain := h.domain_of_inTurn hn hturn
  exact ⟨f keyword, f left, f right, f body, h.isLexeme (hdomain _ (by simp)) hkeyword,
    h.spells (hdomain _ (by simp)) hleft, h.spells (hdomain _ (by simp)) hright, h.isPart hbody,
    h.inTurn hturn⟩

theorem forInLoopShape (hs : n.ForInLoopShape b) : (f n).ForInLoopShape b' := by
  obtain ⟨keyword, left, target, word, right, body, hkeyword, hleft, htarget, hfield, hword, hright,
    hbody, hawait, hturn⟩ := hs
  have hdomain := h.domain_of_inTurn hn hturn
  have hturn' := h.inTurn hturn
  have hparts : (keyword :: ((n.keyword? "await").toList ++ [left, target, word, right, body])).map f =
      f keyword :: (((f n).keyword? "await").toList ++
        [f left, f target, f word, f right, f body]) := by
    rw [h.mirrors.keyword?]
    cases n.keyword? "await" <;> rfl
  rw [hparts] at hturn'
  refine ⟨f keyword, f left, f target, f word, f right, f body,
    h.isLexeme (hdomain _ (by simp)) hkeyword, h.spells (hdomain _ (by simp)) hleft,
    h.isPart htarget, h.field_eq hfield, h.isOperator (hdomain _ (by simp)) hword,
    h.spells (hdomain _ (by simp)) hright, h.isPart hbody, ?_, hturn'⟩
  exact h.forall_keyword hawait fun await hmem hspells =>
    h.spells (hdomain _ (by simp [hmem])) hspells

theorem switchShape (hs : n.SwitchShape b) : (f n).SwitchShape b' := by
  obtain ⟨body, hbody, hencl, hhead⟩ := hs
  exact ⟨f body, h.isPart hbody, h.enclosed (h.domain_of_part hn hbody) hencl, h.hasHead hn hhead⟩

theorem clauseShape (hs : n.ClauseShape b) : (f n).ClauseShape b' := by
  obtain ⟨keyword, colon, hkeyword, hcolon, hvalue, hturn⟩ := hs
  have hdomain := h.domain_of_inTurn hn hturn
  have hturn' := h.inTurn hturn
  have hparts : (keyword :: ((n.field? "value").toList ++ [colon])).map f =
      f keyword :: (((f n).field? "value").toList ++ [f colon]) := by
    rw [h.mirrors.field?]
    cases n.field? "value" <;> rfl
  rw [hparts] at hturn'
  exact ⟨f keyword, f colon, h.isLexeme (hdomain _ (by simp)) hkeyword,
    h.spells (hdomain _ (by simp)) hcolon,
    h.forall_field hvalue fun c hc => h.mem_codeChildren hc, hturn'⟩

omit hn in
theorem guardedShape (hs : n.GuardedShape) : (f n).GuardedShape := by
  obtain ⟨⟨body, hbody⟩, hhandler, hfinalizer⟩ := hs
  refine ⟨⟨f body, h.isPart hbody⟩, h.forall_field hhandler fun c hc => h.mem_codeChildren hc, ?_⟩
  exact h.forall_field hfinalizer fun c ⟨hc, hcompound, hblock⟩ =>
    ⟨h.mem_codeChildren hc, h.isCompound hcompound,
      h.forall_field hblock fun d hd => h.mem_codeChildren hd⟩

theorem handlerShape (hs : n.HandlerShape b) : (f n).HandlerShape b' := by
  obtain ⟨keyword, body, hkeyword, hbody, hparameter⟩ := hs
  rw [HandlerShape, h.mirrors.field?]
  cases hfield : n.field? "parameter" with
  | none =>
    -- without a parameter nothing says that the keyword is a child of the clause
    obtain ⟨word, hword⟩ := h.lexeme
    exact ⟨word, f body, hword, h.isPart hbody, by simp⟩
  | some parameter =>
    obtain ⟨hmem, left, right, hleft, hright, hturn⟩ := hparameter parameter hfield
    have hdomain := h.domain_of_inTurn hn hturn
    refine ⟨f keyword, f body, h.isLexeme (hdomain _ (by simp)) hkeyword, h.isPart hbody, ?_⟩
    rintro c ⟨⟩
    exact ⟨h.mem_codeChildren hmem, f left, f right, h.spells (hdomain _ (by simp)) hleft,
      h.spells (hdomain _ (by simp)) hright, h.inTurn hturn⟩

theorem labeledShape (hs : n.LabeledShape b) : (f n).LabeledShape b' := by
  obtain ⟨label, colon, body, hlabel, hcolon, hbody, hturn⟩ := hs
  have hdomain := h.domain_of_inTurn hn hturn
  exact ⟨f label, f colon, f body, h.mem_codeChildren hlabel,
    h.spells (hdomain _ (by simp)) hcolon, h.mem_codeChildren hbody, h.inTurn hturn⟩

theorem jumpShape (hs : n.JumpShape b) : (f n).JumpShape b' := by
  refine h.forall_field hs fun label ⟨hlabel, keyword, hkeyword, hturn⟩ => ?_
  have hdomain := h.domain_of_inTurn hn hturn
  exact ⟨h.mem_codeChildren hlabel, f keyword, h.isLexeme (hdomain _ (by simp)) hkeyword,
    h.inTurn hturn⟩

theorem exitShape (hs : n.ExitShape b) : (f n).ExitShape b' := by
  refine hs.imp h.codeChildren_eq_nil ?_
  rintro ⟨keyword, operand, hkeyword, hoperand, hturn⟩
  have hdomain := h.domain_of_inTurn hn hturn
  exact ⟨f keyword, f operand, h.isLexeme (hdomain _ (by simp)) hkeyword,
    h.mem_codeChildren hoperand, h.inTurn hturn⟩

theorem functionShape (hs : n.FunctionShape b) : (f n).FunctionShape b' := by
  obtain ⟨parameters, body, hparameters, hencl, hbody⟩ := hs
  exact ⟨f parameters, f body, h.isPart hparameters,
    h.enclosed (h.domain_of_part hn hparameters) hencl, h.isPart hbody⟩

theorem arrowShape (hs : n.ArrowShape b) : (f n).ArrowShape b' := by
  obtain ⟨parameters, sign, body, hparameters, hsign, hbody, hparts, hlist⟩ := hs
  have hmem : ∀ c ∈ n.parts, Domain c := fun c hc => h.domain_child hn (List.mem_filter.1 hc).1
  have hsign' : Domain sign := by
    rcases hparts with ⟨heq, -⟩ | ⟨_, _, _, heq⟩ <;> exact hmem _ (by simp [heq])
  refine ⟨f parameters, f sign, f body, h.mem_codeChildren hparameters, h.spells hsign' hsign,
    h.isPart hbody, ?_, ?_⟩
  · refine hparts.imp ?_ ?_
    · rintro ⟨heq, hkind⟩
      exact ⟨by rw [h.parts, heq]; rfl, by rwa [h.kind]⟩
    · rintro ⟨async, hhead, hasync, heq⟩
      refine ⟨f async, by rw [h.children, List.head?_map, hhead, Option.map_some],
        h.spells (hmem _ (by simp [heq])) hasync, by rw [h.parts, heq]; rfl⟩
  · rw [h.mirrors.field?]
    cases hfield : n.field? "parameters" with
    | none =>
      rw [hfield] at hlist
      exact ⟨(h.kind _).trans hlist.1, by rw [h.children, hlist.2, List.map_nil]⟩
    | some list =>
      rw [hfield] at hlist
      obtain ⟨rfl, hencl⟩ := hlist
      exact ⟨rfl, h.enclosed (h.domain_of_mem hn hparameters) hencl⟩

theorem methodShape (hs : n.MethodShape b) : (f n).MethodShape b' := by
  obtain ⟨key, parameters, body, hkey, hparameters, hencl, hbody⟩ := hs
  exact ⟨f key, f parameters, f body, h.isPart hkey, h.isPart hparameters,
    h.enclosed (h.domain_of_part hn hparameters) hencl, h.isPart hbody⟩

omit hn in
theorem memberShape (hs : n.MemberShape name) : (f n).MemberShape name := by
  obtain ⟨key, hkey, hvalue⟩ := hs
  exact ⟨f key, h.isPart hkey, h.forall_field hvalue fun c ⟨hc, hturn⟩ =>
    ⟨h.mem_codeChildren hc, h.inTurn hturn⟩⟩

theorem classShape (hs : n.ClassShape b) : (f n).ClassShape b' := by
  obtain ⟨keyword, body, hword, hkeyword, hbody, hturn, hname, hheritage⟩ := hs
  have hdomain := h.domain_of_inTurn hn hturn
  refine ⟨f keyword, f body, h.keyword_eq hword, h.spells (hdomain _ (by simp)) hkeyword,
    h.isPart hbody, h.inTurn hturn, ?_, ?_⟩
  · exact h.forall_field hname fun c ⟨hc, hturn⟩ => ⟨h.mem_codeChildren hc, h.inTurn hturn⟩
  · exact h.forall_childOfKind (by decide) hheritage fun c ⟨hc, hturn⟩ =>
      ⟨h.mem_codeChildren hc, h.inTurn hturn⟩

theorem accessShape (hs : n.AccessShape b) : (f n).AccessShape b' := by
  obtain ⟨object, link, property, hobject, hlink, hproperty, hturn⟩ := hs
  have hdomain := h.domain_of_inTurn hn hturn
  exact ⟨f object, f link, f property, h.isPart hobject, h.isLink (hdomain _ (by simp)) hlink,
    h.isPart hproperty, h.inTurn hturn⟩

theorem subscriptShape (hs : n.SubscriptShape b) : (f n).SubscriptShape b' := by
  obtain ⟨object, left, index, right, hobject, hleft, hindex, hright, hturn⟩ := hs
  have hdomain := h.domain_of_inTurn hn hturn
  exact ⟨f object, f left, f index, f right, h.isPart hobject,
    h.spells (hdomain _ (by simp)) hleft, h.isPart hindex,
    h.spells (hdomain _ (by simp)) hright, h.inTurn hturn⟩

theorem callShape (hs : n.CallShape b) : (f n).CallShape b' := by
  intro arguments harguments
  rw [h.mirrors.field?, Option.map_eq_some_iff] at harguments
  obtain ⟨arguments, harguments, rfl⟩ := harguments
  obtain ⟨hmem, hkind, callee, hcallee, hturn⟩ := hs arguments harguments
  refine ⟨h.mem_codeChildren hmem, ?_, f callee, h.isPart hcallee, h.inTurn hturn⟩
  exact hkind.imp (h.kind _).trans (h.enclosed (h.domain_of_mem hn hmem))

theorem creationShape (hs : n.CreationShape b) : (f n).CreationShape b' := by
  obtain ⟨callee, hcallee, harguments⟩ := hs
  refine ⟨f callee, h.isPart hcallee, h.forall_field harguments ?_⟩
  exact fun c ⟨hc, hencl, hturn⟩ =>
    ⟨h.mem_codeChildren hc, h.enclosed (h.domain_of_mem hn hc) hencl, h.inTurn hturn⟩

theorem templateShape (hs : n.TemplateShape b) : (f n).TemplateShape b' :=
  ⟨h.hasToken hn hs.1, h.forall_codeChildren hs.2 fun c hc =>
    hc.imp (h.kind c).trans h.isLiteralPart⟩

theorem importingShape (hs : n.ImportingShape b) : (f n).ImportingShape b' := by
  obtain ⟨keyword, module, hkeyword, hmodule, hturn, hclause⟩ := hs
  have hdomain := h.domain_of_inTurn hn hturn
  refine ⟨f keyword, f module, h.isLexeme (hdomain _ (by simp)) hkeyword, h.isPart hmodule,
    h.inTurn hturn, h.forall_childOfKind (by decide) hclause ?_⟩
  rintro c ⟨hc, hcompound, hnames⟩
  refine ⟨h.mem_codeChildren hc, h.isCompound hcompound, ?_⟩
  rw [h.mirrors.codeChildren, List.forall_mem_map]
  intro names hmem hkind
  rw [h.kind] at hkind
  exact h.enclosed (h.domain_of_mem (h.domain_of_mem hn hc) hmem) (hnames names hmem hkind)

theorem exportingShape (hs : n.ExportingShape b) : (f n).ExportingShape b' := by
  obtain ⟨keyword, hword, hkeyword, htarget, hdefault, hclause, hmodule⟩ := hs
  have hkeyword' : Domain keyword := h.domain_child hn (List.mem_of_find?_eq_some hword)
  refine ⟨f keyword, h.keyword_eq hword, h.spells hkeyword' hkeyword, ?_, ?_, ?_, ?_⟩
  · intro target ht
    have hcopied : ∃ c, f c = target ∧
        (n.field? "declaration" = some c ∨ n.field? "value" = some c) := by
      rw [h.mirrors.field?, h.mirrors.field?, Option.map_eq_some_iff, Option.map_eq_some_iff] at ht
      rcases ht with ⟨c, hc, rfl⟩ | ⟨c, hc, rfl⟩
      · exact ⟨c, rfl, .inl hc⟩
      · exact ⟨c, rfl, .inr hc⟩
    obtain ⟨c, rfl, hc⟩ := hcopied
    obtain ⟨hmem, hturn⟩ := htarget c hc
    exact ⟨h.mem_codeChildren hmem, h.inTurn hturn⟩
  · exact h.forall_keyword hdefault fun word hmem hspells =>
      h.spells (h.domain_child hn (List.mem_of_find?_eq_some hmem)) hspells
  · exact h.forall_childOfKind (by decide) hclause fun c ⟨hc, hencl, hturn⟩ =>
      ⟨h.mem_codeChildren hc, h.enclosed (h.domain_of_mem hn hc) hencl, h.inTurn hturn⟩
  · refine h.forall_field hmodule ?_
    rintro module ⟨hmem, hshape⟩
    refine ⟨h.mem_codeChildren hmem, ?_⟩
    rw [h.mirrors.childOfKind? n (by decide), h.mirrors.childOfKind? n (by decide)]
    cases hexport : n.childOfKind? "export_clause" with
    | some clause =>
      rw [hexport] at hshape
      exact h.inTurn hshape
    | none =>
      rw [hexport] at hshape
      cases hnames : n.childOfKind? "namespace_export" with
      | none =>
        rw [hnames] at hshape
        obtain ⟨word, hword, hturn⟩ := hshape
        have hdomain := h.domain_of_inTurn hn hturn
        exact ⟨f word, h.spells (hdomain _ (by simp)) hword, h.inTurn hturn⟩
      | some names =>
        rw [hnames] at hshape
        obtain ⟨hnamesMem, hcompound, ⟨star, as, name, hstar, has, hnamesParts⟩, word, rest, hword,
          hparts⟩ := hshape
        have hnames : ∀ c ∈ names.parts, Domain c := fun c hc =>
          h.domain_child (h.domain_of_mem hn hnamesMem) (List.mem_filter.1 hc).1
        have hdomain : ∀ c ∈ n.parts, Domain c := fun c hc =>
          h.domain_child hn (List.mem_filter.1 hc).1
        refine ⟨h.mem_codeChildren hnamesMem, h.isCompound hcompound,
          ⟨f star, f as, name.map f, h.spells (hnames _ (by simp [hnamesParts])) hstar,
            h.spells (hnames _ (by simp [hnamesParts])) has, ?_⟩,
          f word, rest.map f, h.spells (hdomain _ (by simp [hparts])) hword, ?_⟩
        · rw [h.parts, hnamesParts]
          rfl
        · rw [h.parts, hparts]
          rfl

/-- The copy of a construct has the shape of the construct. -/
theorem shape {construct : Construct} (hs : n.Shape b construct) : (f n).Shape b' construct := by
  cases construct with
  | plain => exact h.plainShape hs
  | program => trivial
  | arrayList => exact h.enclosed hn hs
  | objectList => exact h.enclosed hn hs
  | block => exact h.enclosed hn hs
  | staticBlock => exact hs.elim fun c hc => ⟨f c, h.isPart hc⟩
  | sequence => exact h.codeChildren_ne_nil hs
  | declaration => exact h.codeChildren_ne_nil hs
  | declarator => exact h.declaratorShape hn hs
  | chain => exact h.chainShape hn hs
  | ternary => exact h.ternaryShape hn hs
  | operand => exact h.operandShape hn hs
  | yielding => exact h.yieldingShape hn hs
  | conditional => exact h.conditionalShape hn hs
  | headed => exact h.headedShape hn hs
  | doLoop => exact h.doLoopShape hn hs
  | forLoop => exact h.forLoopShape hn hs
  | forInLoop => exact h.forInLoopShape hn hs
  | switch => exact h.switchShape hn hs
  | clause => exact h.clauseShape hn hs
  | guarded => exact h.guardedShape hs
  | handler => exact h.handlerShape hn hs
  | labeled => exact h.labeledShape hn hs
  | jump => exact h.jumpShape hn hs
  | exit => exact h.exitShape hn hs
  | function => exact h.functionShape hn hs
  | arrow => exact h.arrowShape hn hs
  | method => exact h.methodShape hn hs
  | classDefinition => exact h.classShape hn hs
  | fieldDefinition => exact h.memberShape hs
  | pair => exact h.memberShape hs
  | member => exact h.accessShape hn hs
  | subscript => exact h.subscriptShape hn hs
  | metaProperty => exact h.hasToken hn hs
  | call => exact h.callShape hn hs
  | creation => exact h.creationShape hn hs
  | templateLiteral => exact h.templateShape hn hs
  | importing => exact h.importingShape hn hs
  | importSpecifier => exact h.hasToken hn hs
  | aliased => exact h.hasToken hn hs
  | exporting => exact h.exportingShape hn hs

end Copies

end Node

end ScriptIndent
