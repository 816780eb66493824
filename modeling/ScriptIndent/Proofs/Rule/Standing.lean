import ScriptIndent.Proofs.Rule.Reach

/-!
# ScriptIndent.Proofs.Rule.Standing

Entries that stand to the end of the analysis.

```
{            the brace, at place i
  a;         what the block records for the first token of each statement,
  b;         and for the brace that closes it,
}            stands: no visit below the block or behind it reaches these tokens
```

The entry of a token is the one recorded last.  What is visited behind a node lies below it
or stands behind it (`Node.visited_split`).  A token that neither reach is *held*
(`Source.Holds`), and what the node's own visit records for it stands
(`Source.get?_analyze`).  The tokens at which the children of a node are cut are so, but for
parentheses (`Source.Stands.outside_of_cut`).
-/

namespace ScriptIndent

/-! ## entries recorded last -/

namespace Registry

variable {r : Registry} {es : List Entry} {t : Token}

/-- Entries for other tokens change nothing. -/
theorem get?_record_of_ne (h : ∀ e ∈ es, e.token ≠ t) : (r.record es).get? t = r.get? t := by
  induction es generalizing r with
  | nil => rfl
  | cons e rest ih =>
    rw [record, List.foldl_cons, ← record, ih fun d hd => h d (List.mem_cons_of_mem e hd)]
    exact get?_insert_of_ne (h e List.mem_cons_self) r

/-- An entry that is the only one for its token stands. -/
theorem get?_record_of_mem {e : Entry} (he : e ∈ es)
    (hunique : ∀ d ∈ es, d.token = e.token → d = e) : (r.record es).get? e.token = some e := by
  induction es generalizing r with
  | nil => simp at he
  | cons d rest ih =>
    rw [record, List.foldl_cons, ← record]
    by_cases hmem : e ∈ rest
    · exact ih hmem fun c hc => hunique c (List.mem_cons_of_mem d hc)
    · obtain rfl : e = d := (List.mem_cons.1 he).resolve_right hmem
      rw [get?_record_of_ne, get?_insert_self]
      intro c hc heq
      exact hmem (hunique c (List.mem_cons_of_mem e hc) heq ▸ hc)

/-- An entry stands if all entries for its token are the same. -/
theorem get?_record_of_same {e : Entry} (he : r.get? e.token = some e)
    (hsame : ∀ d ∈ es, d.token = e.token → d = e) : (r.record es).get? e.token = some e := by
  by_cases hmem : e ∈ es
  · exact get?_record_of_mem hmem hsame
  · refine (get?_record_of_ne fun d hd heq => ?_).trans he
    exact hmem (hsame d hd heq ▸ hd)

theorem ignored_record (r : Registry) (es : List Entry) : (r.record es).ignored = r.ignored := by
  induction es generalizing r with
  | nil => rfl
  | cons e es ih => exact ih (r.insert e)

theorem record_append (r : Registry) (es fs : List Entry) :
    r.record (es ++ fs) = (r.record es).record fs := List.foldl_append

theorem get?_ignore (r : Registry) (first last : Option Token) (t : Token) :
    (r.ignore first last).get? t = r.get? t := by
  cases first <;> cases last <;> rfl

end Registry

/-! ## what is drafted last -/

namespace Draft

variable {α β : Type} {back : List Entry}

/-- The entries drafted last. -/
def EndsWith (d : Draft α) (back : List Entry) : Prop := ∃ front, d.writes = front ++ back

theorem endsWith_write (es : List Entry) : (write es).EndsWith es := ⟨[], rfl⟩

/-- What is drafted last after a draft that goes through. -/
theorem Meets.endsWith {E : Entry → Prop} {P : α → Prop} {d : Draft α} {f : α → Draft β}
    (h : d.Meets E P) (hf : ∀ a, P a → (f a).EndsWith back) : (d >>= f).EndsWith back := by
  obtain ⟨-, a, ha, hP⟩ := h
  obtain ⟨front, hfront⟩ := hf a hP
  exact ⟨d.writes ++ front, by rw [bind_of_ok ha, hfront, List.append_assoc]⟩

theorem endsWith_part {asked : Aspect} {p : Option Node} {n : Node} {f : Node → Draft β}
    (h : p = some n) (hf : (f n).EndsWith back) : (part asked p >>= f).EndsWith back := by
  subst h
  exact hf

/-- Nothing drafted afterwards changes what is drafted last. -/
theorem EndsWith.next_nil {d : Draft Unit} (h : d.EndsWith back) :
    (d >>= fun _ => write []).EndsWith back := by
  obtain ⟨front, hfront⟩ := h
  refine ⟨front, ?_⟩
  cases hresult : d.result with
  | ok a => rw [bind_of_ok hresult, hfront, write, List.append_nil]
  | error e => rw [bind_of_error hresult, hfront]

/-! ## what is recorded in the end -/

/-- The draft goes through, and whatever the registry held before, it holds the entry then. -/
structure Records (d : Draft α) (e : Entry) : Prop where
  ok : ∃ a, d.result = .ok a
  get?_record (r : Registry) : (r.record d.writes).get? e.token = some e

variable {e : Entry}

theorem records_write {es : List Entry} (he : e ∈ es) (hunique : ∀ d ∈ es, d.token = e.token → d = e) :
    (write es).Records e :=
  ⟨⟨(), rfl⟩, fun _ => Registry.get?_record_of_mem he hunique⟩

/-- What is drafted last is recorded in the end. -/
theorem EndsWith.records {d : Draft α} (h : d.EndsWith back) (hok : ∃ a, d.result = .ok a)
    (he : e ∈ back) (hunique : ∀ d ∈ back, d.token = e.token → d = e) : d.Records e := by
  obtain ⟨front, hwrites⟩ := h
  refine ⟨hok, fun r => ?_⟩
  rw [hwrites, Registry.record_append]
  exact Registry.get?_record_of_mem he hunique

/-- What is drafted before does not matter. -/
theorem Meets.records {E : Entry → Prop} {P : α → Prop} {d : Draft α} {f : α → Draft β}
    (h : d.Meets E P) (hf : ∀ a, P a → (f a).Records e) : (d >>= f).Records e := by
  obtain ⟨-, a, ha, hP⟩ := h
  obtain ⟨hok, hrecord⟩ := hf a hP
  rw [bind_of_ok ha]
  exact ⟨hok, fun r => by rw [Registry.record_append]; exact hrecord _⟩

theorem records_part {asked : Aspect} {p : Option Node} {n : Node} {f : Node → Draft β}
    (h : p = some n) (hf : (f n).Records e) : (part asked p >>= f).Records e := by
  subst h
  exact (meets_pure (E := fun _ => True) (Q := (· = n)) rfl).records fun _ heq => heq ▸ hf

/-- Nothing but the same entry is drafted for the token afterwards. -/
theorem Records.next {Q : β → Prop} {d : Draft Unit} {f : Unit → Draft β} (h : d.Records e)
    (hf : (f ()).Meets (fun x => x.token = e.token → x = e) Q) : (d >>= f).Records e := by
  obtain ⟨⟨a, ha⟩, hrecord⟩ := h
  obtain ⟨hsame, b, hb, -⟩ := hf
  rw [bind_of_ok ha]
  refine ⟨⟨b, hb⟩, fun r => ?_⟩
  rw [Registry.record_append]
  exact Registry.get?_record_of_same (hrecord r) hsame

end Draft

/-! ## walks -/

namespace Analysis

variable {s : Source} {caseLevels : Int} {t : Token} {a c : Analysis}

/-- A walk goes on behind a visit that goes through. -/
theorem visitAll_cons {place : Node.Placed} {rest : List Node.Placed}
    (h : (a.visit s caseLevels place).fault = none) :
    a.visitAll s caseLevels (place :: rest) =
      (a.visit s caseLevels place).visitAll s caseLevels rest := by
  rw [visitAll, h]
  rfl

/-- A walk that goes through can be cut in two. -/
theorem visitAll_append {places more : List Node.Placed}
    (h : (a.visitAll s caseLevels places).fault = none) :
    a.visitAll s caseLevels (places ++ more) =
      (a.visitAll s caseLevels places).visitAll s caseLevels more := by
  induction places generalizing a with
  | nil => rfl
  | cons place rest ih =>
    simp only [List.cons_append, visitAll] at h ⊢
    split at h
    · next hfault => simp [h] at hfault
    · next hfault =>
      simp only [hfault, Bool.false_eq_true, if_false]
      exact ih h

/-- An entry stands in a visit that writes no other one for its token. -/
theorem get?_visit {place : Node.Placed} {e : Entry}
    (h : ∀ draft, Rule.visit? s caseLevels place = some draft →
      ∀ d ∈ draft.writes, d.token = e.token → d = e)
    (he : c.registry.get? e.token = some e) :
    (c.visit s caseLevels place).registry.get? e.token = some e := by
  unfold visit
  cases hvisit : Rule.visit? s caseLevels place with
  | none => exact (Registry.get?_ignore _ _ _ _).trans he
  | some draft => exact Registry.get?_record_of_same he (h draft hvisit)

theorem get?_visitAll {places : List Node.Placed} {e : Entry}
    (h : ∀ place ∈ places, ∀ draft, Rule.visit? s caseLevels place = some draft →
      ∀ d ∈ draft.writes, d.token = e.token → d = e)
    (he : c.registry.get? e.token = some e) :
    (c.visitAll s caseLevels places).registry.get? e.token = some e := by
  induction places generalizing c with
  | nil => exact he
  | cons place rest ih =>
    have hvisit := get?_visit (h place List.mem_cons_self) he
    rw [visitAll]
    split
    · exact hvisit
    · exact ih (fun p hp => h p (List.mem_cons_of_mem place hp)) hvisit

end Analysis

namespace Source

variable {s : Source} {n : Node} {ancestors : List Node} {caseLevels : Int} {i j l : Nat}

/-- No visit stops short, so none of a stretch does. -/
theorem fault_visitAll (g : s.root.Grammatical s.buffer) {places : List Node.Placed}
    (h : ∀ p ∈ places, p ∈ s.root.visited []) :
    (({} : Analysis).visitAll s caseLevels places).fault = none := by
  refine (Analysis.visitAll_meets (E := fun _ => True) (fun p hp draft hdraft => ?_) rfl
    fun _ _ => trivial).1
  exact (Rule.visit?_meets g (h p hp) caseLevels hdraft).mono (fun _ _ => trivial)
    fun _ _ => trivial

/-- What a visit records stands, if no later visit writes another entry for the token. -/
theorem get?_analyze_of_records (g : s.root.Grammatical s.buffer) {places rest : List Node.Placed}
    {place : Node.Placed} (hsplit : s.root.visited [] = places ++ place :: rest)
    {draft : Draft Unit} (hdraft : Rule.visit? s caseLevels place = some draft) {e : Entry}
    (hrecords : draft.Records e)
    (hrest : ∀ q ∈ rest, ∀ draft, Rule.visit? s caseLevels q = some draft →
      ∀ d ∈ draft.writes, d.token = e.token → d = e) :
    (s.analyze caseLevels).registry.get? e.token = some e := by
  have hfault : (({} : Analysis).visitAll s caseLevels places).fault = none :=
    fault_visitAll g fun p hp => by simp [hsplit, hp]
  obtain ⟨_, hresult⟩ := hrecords.ok
  rw [analyze, hsplit, Analysis.visitAll_append hfault]
  generalize ({} : Analysis).visitAll s caseLevels places = a
  have hvisit : a.visit s caseLevels place =
      { a with registry := a.registry.record draft.writes, fault := none } := by
    simp [Analysis.visit, hdraft, hresult]
  rw [Analysis.visitAll_cons (by rw [hvisit])]
  refine Analysis.get?_visitAll hrest ?_
  rw [hvisit]
  exact hrecords.get?_record a.registry

/-- What a visit records last for a token stands, if no later visit writes another entry for the
token. -/
theorem get?_analyze_of_split (g : s.root.Grammatical s.buffer) {places rest : List Node.Placed}
    {place : Node.Placed} (hsplit : s.root.visited [] = places ++ place :: rest)
    {draft : Draft Unit} (hdraft : Rule.visit? s caseLevels place = some draft)
    {back : List Entry} (hends : draft.EndsWith back) {e : Entry} (he : e ∈ back)
    (hunique : ∀ d ∈ back, d.token = e.token → d = e)
    (hrest : ∀ q ∈ rest, ∀ draft, Rule.visit? s caseLevels q = some draft →
      ∀ d ∈ draft.writes, d.token = e.token → d = e) :
    (s.analyze caseLevels).registry.get? e.token = some e := by
  have hplace : place ∈ s.root.visited [] := by simp [hsplit]
  obtain ⟨-, a, ha, -⟩ := Rule.visit?_meets g hplace caseLevels hdraft
  exact get?_analyze_of_records g hsplit hdraft (hends.records ⟨a, ha⟩ he hunique) hrest

/-! ## tokens that are held -/

/-- No parenthesis is closed at a place, or opened directly before it. -/
structure Calm (s : Source) (q : Nat) : Prop where
  closing {t : Token} : s.At q t → t.isClosingParen = false
  opening {k : Nat} {t : Token} : k + 1 = q → s.At k t → t.isOpeningParen = false

/-- No node below a node has a place within it, but for nodes that write nothing. -/
def Outside (s : Source) (n : Node) (l : Nat) : Prop :=
  ∀ m : Node, ∀ a b, m.Below n → s.Stands m a b → a < b → l ≤ a ∨ b ≤ l ∨ m.IsSilent

/-- Among the visited nodes only the root is a program, and there are no class fields. -/
def HasNoFields (s : Source) : Prop :=
  ∀ p ∈ (s.root.visited []).tail, p.node.kind ≠ "program" ∧ p.node.kind ≠ "field_definition"

/-- The token at place `l` stands before place `j`, where a node ends, and neither in the
nodes below that one nor next to a parenthesis. -/
structure Holds (s : Source) (n : Node) (j l : Nat) : Prop where
  lt : l < j
  calm : s.Calm l
  last {t : Token} : s.At (j - 1) t → t.isOpeningParen = false
  outside : s.Outside n l

theorem writes_of_isSilent (hsilent : n.IsSilent) {draft : Draft Unit}
    (hdraft : Rule.visit? s caseLevels ⟨n, ancestors⟩ = some draft) : draft.writes = [] := by
  rw [Rule.visit?_of_isSilent hsilent] at hdraft
  rw [← Option.some.inj hdraft]
  rfl

/-- A node behind another stands behind its tokens. -/
theorem Stands.le_of_stop_le {m : Node} {a b : Nat} (hn : s.Stands n i j) (hij : i < j)
    (hm : s.Stands m a b) (hab : a < b) (hstop : n.stop ≤ m.start) : j ≤ a := by
  refine Nat.le_of_not_lt fun haj => ?_
  obtain ⟨t, ht⟩ := hm.exists_at hab
  have hover := (hm.covers hab).overlap (Nat.le_refl a) hab ht
  rcases Nat.lt_or_ge a i with hai | hia
  · have := (hn.covers hij).below hai ht
    have := hn.spans.nested.le
    lia
  · have := hn.spans.range hia haj ht
    lia

/-- A visit does not reach beyond its node where no parenthesis is, but for the end of a class
field. -/
theorem Reaches.elim {m : Node} {a b : Nat} (h : s.Reaches m a b l) (hcalm : s.Calm l)
    (hprogram : m.kind ≠ "program") (hout : l ≤ a ∨ b ≤ l)
    (hfield : m.kind = "field_definition" → l = b → False) : False := by
  cases h with
  | start hkind => exact hprogram hkind
  | inside hal hlb => omega
  | field hkind hl => exact hfield hkind hl
  | opening hla hpos hopening =>
    obtain ⟨t, ht, hparen⟩ := hopening (l - 1) (by omega) (by omega)
    simp [hcalm.opening (by omega) ht] at hparen
  | closing hbl hclosing =>
    obtain ⟨t, ht, hparen⟩ := hclosing l hbl (Nat.le_refl l)
    simp [hcalm.closing ht] at hparen

/-- What a visit records last for a token that is held stands. -/
theorem get?_analyze (g : s.root.Grammatical s.buffer)
    (hkinds : s.HasNoFields) (hplace : ⟨n, ancestors⟩ ∈ s.root.visited []) (hn : s.Stands n i j) (hij : i < j)
    {draft : Draft Unit} (hdraft : Rule.visit? s caseLevels ⟨n, ancestors⟩ = some draft)
    {back : List Entry} (hends : draft.EndsWith back) {e : Entry} (he : e ∈ back)
    (hunique : ∀ d ∈ back, d.token = e.token → d = e) (hl : s.At l e.token)
    (hholds : s.Holds n j l) : (s.analyze caseLevels).registry.get? e.token = some e := by
  obtain ⟨places, rest, hsplit⟩ := List.append_of_mem hplace
  refine get?_analyze_of_split g hsplit hdraft hends he hunique ?_
  intro q hq draft' hdraft' d hd heq
  exfalso
  have hvisited : q ∈ s.root.visited [] := by simp [hsplit, hq]
  have htail : q ∈ (s.root.visited []).tail := by
    rw [hsplit]
    cases places with
    | nil => exact hq
    | cons x places => simp [hq]
  obtain ⟨hprogram, hfield⟩ := hkinds q htail
  obtain ⟨a, b, k, hm, hab, hk, hreaches⟩ :=
    (Rule.visit?_reaches g hvisited caseLevels hdraft').1 d hd
  obtain rfl : k = l := eq_of_getElem? hk (heq ▸ hl)
  have hlt := hholds.lt
  have hapart (hout : k ≤ a ∨ b ≤ k) : False :=
    hreaches.elim hholds.calm hprogram hout fun hkind _ => hfield hkind
  rcases Node.visited_split g.nested hsplit q hq with hbelow | hstop
  · rcases hholds.outside q.node a b hbelow hm hab with hout | hout | hsilent
    · exact hapart (.inl hout)
    · exact hapart (.inr hout)
    · rw [writes_of_isSilent hsilent hdraft'] at hd
      simp at hd
  · have := hn.le_of_stop_le hij hm hab hstop
    exact hapart (.inl (by omega))

/-! ## cuts between children -/

/-- Nodes below a node stand before or behind each place at which its children are cut. -/
theorem Stands.outside_of_cut (hn : s.Stands n i j) {xs ys : List Node}
    (hchildren : n.children = xs ++ ys) (hxs : s.SpanRun xs i l) (hys : s.SpanRun ys l j)
    {m : Node} {a b : Nat} (hbelow : m.Below n) (hm : s.Stands m a b) (hab : a < b) :
    l ≤ a ∨ b ≤ l := by
  obtain ⟨c, hc, hwithin⟩ := hbelow
  have hmem := List.mem_append.1 (hchildren ▸ hc)
  cases hmem with
  | inl hmem =>
    obtain ⟨p, q, -, hq, hspans⟩ := hxs.mem hmem
    have := (hn.of_spans hc hspans).le_of_within hm hab hwithin
    omega
  | inr hmem =>
    obtain ⟨p, q, hp, -, hspans⟩ := hys.mem hmem
    have := (hn.of_spans hc hspans).le_of_within hm hab hwithin
    omega

/-- The children of a node are cut where a construct among them begins. -/
theorem Stands.exists_cut (hn : s.Stands n i j) (hcompound : n.IsCompound) {c : Node}
    (hc : c ∈ n.codeChildren) {a b : Nat} (hstands : s.Stands c a b) :
    ∃ xs ys, n.children = xs ++ ys ∧ s.SpanRun xs i a ∧ s.SpanRun ys a j := by
  have hmem := (Node.mem_codeChildren.1 hc).1
  obtain ⟨xs, ys, hsplit⟩ := List.append_of_mem hmem
  have hrun := hn.spans.run hcompound (List.ne_nil_of_mem hmem)
  rw [hsplit] at hrun
  obtain ⟨k, hxs, l, hspans, hys⟩ := hrun.append
  have hlt := hn.lt_of_mem hc hstands
  obtain ⟨rfl, rfl⟩ := hstands.unique hlt (hn.of_spans hmem hspans)
  exact ⟨xs, c :: ys, hsplit, hxs, l, hspans, hys⟩

/-- The children of an enclosed node are cut where its closing delimiter stands. -/
theorem Stands.exists_cut_closing (hn : s.Stands n i j) {left right : String}
    (henclosed : n.Enclosed s.buffer left right) (hright : Node.IsSpelling right) :
    ∃ xs ys, n.children = xs ++ ys ∧ s.SpanRun xs i (j - 1) ∧ s.SpanRun ys (j - 1) j := by
  obtain ⟨hcompound, opening, inner, closing, hchildren, -, hcloses⟩ := henclosed
  have hrun := hn.spans.run hcompound (by simp [hchildren])
  rw [hchildren, ← List.cons_append] at hrun
  obtain ⟨k, hxs, l, hspans, rfl⟩ := hrun.append
  obtain ⟨rfl, -⟩ := (hn.of_spans (by simp [hchildren]) hspans).spells hcloses hright
  exact ⟨opening :: inner, [closing], by simp [hchildren], hxs, _, hspans, rfl⟩

end Source

namespace Rule

open Draft

variable {s : Source} {n : Node} {i j : Nat}

/-- A statement at the level of the script around it. -/
def startOf (s : Source) (t : Token) : Entry := ⟨t, none, s.baseLevel t⟩

/-- A program places each statement at its first token. -/
theorem program_eq (h : ∀ c ∈ n.codeChildren, ∃ t, s.firstOfNode? c = some t) :
    program s n = ⟨(n.codeChildren.filterMap s.firstOfNode?).map (startOf s), .ok ()⟩ := by
  unfold program
  generalize n.codeChildren = statements at h
  induction statements with
  | nil => rfl
  | cons c rest ih =>
    obtain ⟨t, ht⟩ := h c List.mem_cons_self
    have hrest := ih fun d hd => h d (List.mem_cons_of_mem c hd)
    have hfirst : first s c = pure t := by
      rw [first, ht]
      rfl
    rw [each, hfirst, hrest, List.filterMap_cons, ht]
    rfl

/-- The visit to the root of a program. -/
theorem visit?_program (hkind : n.kind = "program") (caseLevels : Int)
    (ancestors : List Node) (h : ∀ c ∈ n.codeChildren, ∃ t, s.firstOfNode? c = some t) :
    visit? s caseLevels ⟨n, ancestors⟩ =
      some ⟨(n.codeChildren.filterMap s.firstOfNode?).map (startOf s), .ok ()⟩ := by
  have hrule : Construct.ofKind? "program" = some .program := by decide
  have hcommon : common s n = [] := by
    rw [common, hkind]
    rfl
  rw [visit?, hkind, hrule, Option.map_some]
  simp only [ofConstruct, program_eq h, hcommon]
  rw [bind_of_ok rfl]
  simp [write]

/-- The visit to a block that does not end with a semicolon. -/
theorem visit?_block (hrule : Construct.ofKind? n.kind = some .block) (hcommon : common s n = [])
    {left right : Token} (hleft : s.first? n = some left) (hright : s.last? n = some right)
    (caseLevels : Int) (ancestors : List Node) :
    visit? s caseLevels ⟨n, ancestors⟩ =
      some ⟨Entry.elements s (n.codeChildren.map .node) (some left) (some right) 1, .ok ()⟩ := by
  have hfirst : first s n = pure left := by
    rw [first, show s.firstOfNode? n = some left from hleft]
    rfl
  have hlast : last s n = pure right := by
    rw [last, show s.lastOfNode? n Token.isAny = some right from hright]
    rfl
  have hblock : block s n =
      ⟨Entry.elements s (n.codeChildren.map .node) (some left) (some right) 1, .ok ()⟩ := by
    rw [block, hfirst, hlast]
    rfl
  rw [visit?, hrule, Option.map_some]
  simp only [ofConstruct, hblock, hcommon]
  rw [bind_of_ok rfl]
  simp [write]

/-- A visit records last what the rule of the construct does, if no more is to be recorded. -/
theorem visit?_endsWith {construct : Construct}
    (hrule : Construct.ofKind? n.kind = some construct) (caseLevels : Int)
    (ancestors : List Node) {back : List Entry}
    (h : (ofConstruct s caseLevels ancestors n construct).EndsWith back)
    (hcommon : common s n = []) :
    ∃ draft, visit? s caseLevels ⟨n, ancestors⟩ = some draft ∧ draft.EndsWith back := by
  refine ⟨ofConstruct s caseLevels ancestors n construct >>= fun _ => write [], ?_, h.next_nil⟩
  rw [visit?, hrule, Option.map_some, hcommon]

/-- A switch statement records its clauses last, relative to the brace before them. -/
theorem switch_endsWith (h : s.Stands n i j) (hn : n.IsCompound)
    (hshape : n.SwitchShape s.buffer) (caseLevels : Int) :
    ∃ clauses c d left right, n.IsPart "body" clauses ∧
      clauses.Enclosed s.buffer "\x7b" "\x7d" ∧ s.Stands clauses c d ∧ s.At c left ∧
      s.At (d - 1) right ∧ (switch s caseLevels n).EndsWith
        (Entry.elements s (clauses.codeChildren.map .node) (some left) (some right)
          caseLevels) := by
  obtain ⟨clauses, hclauses, henclosed, hhead⟩ := hshape
  obtain ⟨head, k, l, hpart, -, hstands, hik, hkl, -, c, d, hlc, hcstands, (hdj : d ≤ j)⟩ :=
    head_turn h hn hhead
  have hcd := h.lt_of_mem hclauses.2 hcstands
  obtain ⟨left, hleft, -⟩ := (hcstands.ends hcd).exists_first?
  obtain ⟨right, hright, -⟩ := (hcstands.ends hcd).exists_last?
  refine ⟨clauses, c, d, left, right, hclauses, henclosed, hcstands, hleft, hright, ?_⟩
  have hany (es : List Entry) : (write es).Meets (fun _ => True) fun _ => True :=
    meets_write fun _ _ => trivial
  refine (meets_first (E := fun _ => True) h (by omega)).endsWith fun keyword _ => ?_
  refine endsWith_part hpart.1 ?_
  refine (meets_first (E := fun _ => True) hstands (by omega)).endsWith fun opening _ => ?_
  refine (meets_last (E := fun _ => True) hstands (by omega)).endsWith fun closing _ => ?_
  refine endsWith_part hclauses.1 ?_
  refine (meets_first (E := fun _ => True) hcstands hcd).endsWith fun leftBrace hleftBrace => ?_
  refine (meets_last (E := fun _ => True) hcstands hcd).endsWith fun rightBrace hrightBrace => ?_
  obtain rfl := Option.mem_unique hleft hleftBrace
  obtain rfl := Option.mem_unique hright hrightBrace
  refine (hany _).endsWith fun _ _ => (hany _).endsWith fun _ _ => (hany _).endsWith fun _ _ => ?_
  exact endsWith_write _

/-- Statements that are placed one by one are placed like the elements of a list. -/
theorem writes_each_offset {items : List Node} (hitems : ∀ c ∈ items, ∃ t, s.firstOfNode? c = some t)
    (levels : Int) (keyword : Token) :
    (each (fun c => do offset (← first s c) levels keyword) items).writes =
      Entry.elements s (items.map .node) (some keyword) none levels := by
  induction items with
  | nil => rfl
  | cons c rest ih =>
    obtain ⟨t, ht⟩ := hitems c List.mem_cons_self
    have hfirst : first s c = pure t := by
      rw [first, ht]
      rfl
    have hwrites := ih fun d hd => hitems d (List.mem_cons_of_mem c hd)
    have hsome : s.first? (.node c) = some t := ht
    rw [each, hfirst]
    change Entry.offsets [t] levels (some keyword) ++ (each _ rest).writes = _
    rw [hwrites, List.map_cons, Entry.elements, Entry.elements, List.filterMap_cons, hsome,
      ← List.append_assoc]
    simp only [Entry.offsets, ← List.map_append, ← List.filter_append, List.singleton_append]

/-- A clause with a value records its statements last, relative to its keyword. -/
theorem clause_endsWith (h : s.Stands n i j) (hn : n.IsCompound) (hij : i < j) {keyword : Token}
    (hkeyword : s.At i keyword) {value : Node} (hvalue : n.field? "value" = some value) {c d : Nat}
    (hstands : s.Stands value c d) (hcd : c < d) (hdj : d < j) {items : List Node}
    (hitems : ∀ t, s.At d t → n.codeChildren.filter (t.stop ≤ ·.start) = items)
    (hblock : ∀ only, items = [only] → only.kind ≠ "statement_block") :
    (clause s n).EndsWith (Entry.elements s (items.map .node) (some keyword) none 1) := by
  obtain ⟨colon, hcolon⟩ := h.exists_at hdj
  have hany (es : List Entry) : (write es).Meets (fun _ => True) fun _ => True :=
    meets_write fun _ _ => trivial
  have hsign : (clauseColon s n keyword).Meets (fun _ => True) (s.At d) := by
    rw [clauseColon, hvalue]
    refine (meets_require ((hstands.ends hcd).after?_eq.trans hcolon) hcolon).bind fun sign hsign => ?_
    refine (meets_first hstands hcd).bind fun token _ => ?_
    exact (hany _).next (meets_pure hsign)
  refine (meets_first (E := fun _ => True) h hij).endsWith fun word hword => ?_
  obtain rfl := Option.mem_unique hkeyword hword
  refine hsign.endsWith fun sign hsign => ?_
  have hfirsts : ∀ statement ∈ items, ∃ t, s.firstOfNode? statement = some t := by
    intro statement hmem
    rw [← hitems sign hsign] at hmem
    obtain ⟨a, b, -, hab, -, hmember⟩ := h.child hn (List.mem_filter.1 hmem).1
    obtain ⟨t, -, ht⟩ := (hmember.ends hab).exists_first?
    exact ⟨t, ht⟩
  refine ⟨[], ?_⟩
  rw [hitems sign hsign, List.nil_append, ← writes_each_offset hfirsts 1 keyword]
  dsimp only
  split
  · rw [if_neg (by simp [hblock _ rfl])]
  · rfl

end Rule

namespace Source

variable {s : Source}

/-- The statements of a grammatical program have first tokens. -/
theorem exists_first_of_statement (g : s.root.Grammatical s.buffer)
    (hkind : s.root.kind = "program") {c : Node} (hc : c ∈ s.root.codeChildren) :
    ∃ t, s.firstOfNode? c = some t := by
  have hcompound : s.root.IsCompound := ⟨by rw [Node.isComment, hkind]; decide, by rw [hkind]; decide⟩
  obtain ⟨k, l, -, hkl, -, hstands⟩ := (stands_root g).child hcompound hc
  obtain ⟨t, -, ht⟩ := (hstands.ends hkl).exists_first?
  exact ⟨t, ht⟩

/-- The analysis of a grammatical program goes on from the starts of its statements. -/
theorem exists_analyze_program (g : s.root.Grammatical s.buffer) (hkind : s.root.kind = "program")
    {places : List Node.Placed} (hvisited : s.root.visited [] = ⟨s.root, []⟩ :: places)
    (caseLevels : Int) :
    ∃ a : Analysis, a.fault = none ∧
      a.registry = ({} : Registry).record
        ((s.root.codeChildren.filterMap s.firstOfNode?).map (Rule.startOf s)) ∧
      s.analyze caseLevels = a.visitAll s caseLevels places := by
  have hvisit := Rule.visit?_program (s := s) hkind caseLevels [] fun c hc =>
    exists_first_of_statement g hkind hc
  refine ⟨({} : Analysis).visit s caseLevels ⟨s.root, []⟩, ?_, ?_, ?_⟩
  · rw [Analysis.visit, hvisit]
  · rw [Analysis.visit, hvisit]
  · rw [analyze, hvisited, Analysis.visitAll, Analysis.visit, hvisit]
    rfl

/-! ## lists -/

theorem mem_elements {items : List Node} {left : Token} {right : Option Token} {levels : Int}
    {e : Entry} : e ∈ Entry.elements s (items.map .node) (some left) right levels ↔
      (∃ c ∈ items, ∃ t, s.firstOfNode? c = some t ∧ t ≠ left ∧ e = ⟨t, some left, levels⟩) ∨
        ∃ t, right = some t ∧ t ≠ left ∧ e = ⟨t, some left, 0⟩ := by
  simp only [Entry.elements, Entry.offsets, List.mem_append, List.mem_map, List.mem_filter,
    List.mem_filterMap, Option.mem_toList, decide_eq_true_eq]
  constructor
  · rintro (⟨t, ⟨⟨_, ⟨c, hc, rfl⟩, ht⟩, hne⟩, rfl⟩ | ⟨t, ⟨ht, hne⟩, rfl⟩)
    · exact .inl ⟨c, hc, t, ht, hne, rfl⟩
    · exact .inr ⟨t, ht, hne, rfl⟩
  · rintro (⟨c, hc, t, ht, hne, rfl⟩ | ⟨t, ht, hne, rfl⟩)
    · exact .inl ⟨t, ⟨⟨_, ⟨c, hc, rfl⟩, ht⟩, hne⟩, rfl⟩
    · exact .inr ⟨t, ⟨ht, hne⟩, rfl⟩

/-- A visited node that records last the elements of a list, and the delimiter at its end if
there is one. -/
structure Lists (s : Source) (caseLevels : Int) (n : Node) (j k : Nat) (items : List Node)
    (left : Token) (right : Option Token) (levels : Int) : Prop where
  stands : ∃ i, i < j ∧ s.Stands n i j
  drafts : ∃ ancestors draft, ⟨n, ancestors⟩ ∈ s.root.visited [] ∧
    Rule.visit? s caseLevels ⟨n, ancestors⟩ = some draft ∧
      draft.EndsWith (Entry.elements s (items.map .node) (some left) right levels)
  opens : s.At k left
  last {t : Token} : s.At (j - 1) t → t.isOpeningParen = false
  closes {t : Token} : right = some t → s.At (j - 1) t ∧ k < j - 1 ∧ s.Outside n (j - 1)
  /-- The elements stand behind the start of the list, before its end and not within other
  nodes. -/
  apart {c : Node} : c ∈ items → ∃ a b, s.Stands c a b ∧ k < a ∧ a < b ∧ a < j ∧
    (right.isSome → a < j - 1) ∧ s.Outside n a

/-- Nodes are placed by their first tokens, relative to a token. -/
def Places (s : Source) (caseLevels : Int) (items : List Node) (left : Token) (levels : Int) : Prop :=
  ∀ c ∈ items, ∀ a b t, s.Stands c a b → s.Calm a → s.At a t →
    (s.analyze caseLevels).registry.get? t = some ⟨t, some left, levels⟩

section Lists

variable (g : s.root.Grammatical s.buffer) (hkinds : s.HasNoFields) {k : Nat} {items : List Node}
  {left : Token} {right : Option Token} {levels : Int}
  (h : s.Lists caseLevels n j k items left right levels)

include g hkinds h

/-- What a list records for its elements stands. -/
theorem Lists.places : s.Places caseLevels items left levels := by
  intro c hc a b t hstands hcalm ht
  obtain ⟨i, hij, hn⟩ := h.stands
  obtain ⟨ancestors, draft, hplace, hdraft, hends⟩ := h.drafts
  obtain ⟨_, _, hstands', hka, hab, haj, hbefore, houtside⟩ := h.apart hc
  obtain ⟨rfl, rfl⟩ := hstands'.unique hab hstands
  obtain ⟨u, hu, hfirst⟩ := (hstands.ends hab).exists_first?
  obtain rfl := Option.mem_unique ht hu
  have hne : t ≠ left := by
    rintro rfl
    have := eq_of_getElem? ht h.opens
    omega
  refine get?_analyze (e := ⟨t, some left, levels⟩) g hkinds hplace hn hij hdraft hends
    (mem_elements.2 (.inl ⟨c, hc, t, hfirst, hne, rfl⟩)) (fun d hd heq => ?_) ht
    ⟨haj, hcalm, h.last, houtside⟩
  rcases mem_elements.1 hd with ⟨_, -, u, -, -, rfl⟩ | ⟨u, hright, -, rfl⟩
  · obtain rfl : u = t := heq
    rfl
  · obtain rfl : t = u := heq.symm
    have := eq_of_getElem? ht (h.closes hright).1
    have := hbefore (by simp [hright])
    omega

/-- What a list records for its closing delimiter stands. -/
theorem Lists.get?_right {t : Token} (ht : right = some t) (hcalm : s.Calm (j - 1)) :
    (s.analyze caseLevels).registry.get? t = some ⟨t, some left, 0⟩ := by
  obtain ⟨i, hij, hn⟩ := h.stands
  obtain ⟨ancestors, draft, hplace, hdraft, hends⟩ := h.drafts
  obtain ⟨hat, hkj, houtside⟩ := h.closes ht
  have hne : t ≠ left := by
    rintro rfl
    have := eq_of_getElem? hat h.opens
    omega
  refine get?_analyze (e := ⟨t, some left, 0⟩) g hkinds hplace hn hij hdraft hends
    (mem_elements.2 (.inr ⟨t, ht, hne, rfl⟩)) (fun d hd heq => ?_) hat
    ⟨by omega, hcalm, h.last, houtside⟩
  rcases mem_elements.1 hd with ⟨c, hc, u, hu, -, rfl⟩ | ⟨u, -, -, rfl⟩
  · obtain rfl : u = t := heq
    obtain ⟨a, b, hstands, -, hab, -, hbefore, -⟩ := h.apart hc
    obtain ⟨v, hv, hfirst⟩ := (hstands.ends hab).exists_first?
    obtain rfl := Option.mem_unique hu hfirst
    have := eq_of_getElem? hat hv
    have := hbefore (by simp [ht])
    omega
  · obtain rfl : u = t := heq
    rfl

end Lists

end Source

end ScriptIndent
