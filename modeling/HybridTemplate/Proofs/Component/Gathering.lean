import HybridTemplate.Proofs.Component.Contents

set_option autoImplicit false

namespace HybridTemplate.Component

open Visit (outcome)

def addNames (seen names : List String) : List String :=
  names.foldl (fun seen s => addNew s seen) seen

theorem addArgs_names (p : Pending) (names : List String) :
    p.addArgs (names.map ScriptItem.name) =
      { p with args := addNames p.args (names.filter fun s => !s.isEmpty) } := by
  unfold Pending.addArgs addNames
  induction names generalizing p with
  | nil => rfl
  | cons s ss ih =>
    rw [List.map_cons, List.foldl_cons, ih]
    cases h : s.isEmpty <;> simp [Pending.addArg, h]

theorem addScript_handed {n : Node} (h : n.Conforms) (hn : n.kind = .webScript) (p : Pending) :
    addScript n (n.children.map handed) p =
      { p with
        args := addNames p.args (argumentNames n)
        script := keptText (bodyNodes n)
        scriptSource := some (bodyText n) } := by
  obtain ⟨x, y, a, s, z, b, e, eq, hx, hy, ha, hs, hz, hb, -⟩ := h.follows.webScript hn
  have attributes : n.child? .attributes = some a := by
    simp [Node.child?, eq, hx, hy, ha]
  have body : n.child? .scriptBody = some b := by
    simp [Node.child?, eq, hx, hy, ha, hs, hz, hb]
  have names : (handed a).items =
      ((attributesOf n).filterMap argumentName?).map ScriptItem.name := by
    rw [items_handed_attributes (h.child (by simp [eq])) ha, attributesOf, attributes]
    simp
  have kept : (handed b).joinedText = keptText (bodyNodes n) := by
    rw [joinedText_handed_scriptBody (h.child (by simp [eq])) hb, bodyNodes, body]
    simp
  rw [addScript, eq]
  simp only [List.map_cons, List.getElem?_cons_succ, List.getElem?_cons_zero, Option.getD_some]
  rw [names, kept, addArgs_names]
  rfl

inductive Scripted (p q : Pending) : List Node → Prop
  | none (args : q.args = p.args) (script : q.script = p.script)
    (source : q.scriptSource = p.scriptSource) : Scripted p q []
  | one (s : Node) (first : p.scriptSource = none)
    (args : q.args = addNames p.args (argumentNames s)) (script : q.script = keptText (bodyNodes s))
    (source : q.scriptSource = some (bodyText s)) : Scripted p q [s]

theorem Scripted.trans {p q r : Pending} {ss ts : List Node} (h : Scripted p q ss)
    (k : Scripted q r ts) : Scripted p r (ss ++ ts) := by
  cases h with
  | none args script source =>
    cases k with
    | none args' script' source' =>
      exact .none (args'.trans args) (script'.trans script) (source'.trans source)
    | one t first args' script' source' =>
      exact .one t (source.symm.trans first) (by rw [args', args]) script' source'
  | one s first args script source =>
    cases k with
    | none args' script' source' =>
      exact .one s first (args'.trans args) (script'.trans script) (source'.trans source)
    | one t first' => rw [source] at first'; cases first'

theorem Scripted.length_le {p q : Pending} {ss : List Node} (h : Scripted p q ss) :
    ss.length ≤ 1 := by
  cases h with
  | none => exact Nat.zero_le 1
  | one => exact Nat.le_refl 1

/-- What is pending once those nodes have been gathered, in document order but for the embeds. -/
structure Adds (ms : List Node) (p q : Pending) : Prop where
  refs : q.refs = p.refs ++ boundNames .ref ms
  refAlls : q.refAlls = p.refAlls ++ boundNames .refAll ms
  embeds : q.embeds.Perm (p.embeds ++ (ms.flatMap collectedBy).map placed)
  imports : q.imports = p.imports ++ importTexts ms
  script : Scripted p q (ms.filter isScript)

theorem boundNames_append (kind : BindingKind) (ms ns : List Node) :
    boundNames kind (ms ++ ns) = boundNames kind ms ++ boundNames kind ns := by
  simp [boundNames]

theorem importTexts_append (ms ns : List Node) :
    importTexts (ms ++ ns) = importTexts ms ++ importTexts ns := by
  simp [importTexts]

theorem adds_nil (p : Pending) : Adds [] p p where
  refs := (List.append_nil _).symm
  refAlls := (List.append_nil _).symm
  embeds := by simp
  imports := (List.append_nil _).symm
  script := .none rfl rfl rfl

theorem Adds.trans {ms ns : List Node} {p q r : Pending} (h : Adds ms p q) (k : Adds ns q r) :
    Adds (ms ++ ns) p r where
  refs := by rw [k.refs, h.refs, boundNames_append, List.append_assoc]
  refAlls := by rw [k.refAlls, h.refAlls, boundNames_append, List.append_assoc]
  embeds := by
    have both := k.embeds.trans (h.embeds.append_right _)
    rwa [List.append_assoc, ← List.map_append, ← List.flatMap_append] at both
  imports := by rw [k.imports, h.imports, importTexts_append, List.append_assoc]
  script := by
    rw [List.filter_append]
    exact h.script.trans k.script

theorem filter_swap {f : Node → Bool} {n : Node} {ms : List Node}
    (h : f n = true → ∀ m ∈ ms, f m = false) : (n :: ms).filter f = (ms ++ [n]).filter f := by
  cases hn : f n with
  | false => simp [hn]
  | true =>
    have others : ms.filter f = [] :=
      List.filter_eq_nil_iff.mpr fun m hm => Bool.not_eq_true _ ▸ h hn m hm
    simp [hn, others]

/-- A node comes before those that are gathered before it, where their contributions of a kind do
not mix. -/
theorem Adds.swap {n : Node} {ms : List Node} {p q : Pending} (h : Adds (ms ++ [n]) p q)
    (hb : bindingKind? n ≠ none → ∀ m ∈ ms, bindingKind? m = none)
    (hi : isImport n = true → ∀ m ∈ ms, isImport m = false) : Adds (n :: ms) p q := by
  have bound (kind : BindingKind) : boundNames kind (n :: ms) = boundNames kind (ms ++ [n]) := by
    unfold boundNames
    rw [filter_swap]
    intro hn m hm
    have none := hb (by simp_all) m hm
    simp [none]
  refine ⟨?_, ?_, ?_, ?_, ?_⟩
  · rw [bound, h.refs]
  · rw [bound, h.refAlls]
  · have order := ((List.perm_append_singleton n ms).flatMap_right collectedBy).map placed
    exact h.embeds.trans (order.append_left _)
  · rw [importTexts, filter_swap hi, h.imports, importTexts]
  · rw [filter_swap]
    · exact h.script
    · intro hn m hm
      have single := h.script.length_le
      rw [List.filter_append, List.length_append, List.filter_singleton, hn] at single
      have others : ms.filter isScript = [] := List.length_eq_zero_iff.mp (by simpa using single)
      exact Bool.eq_false_iff.mpr (List.filter_eq_nil_iff.mp others m hm)

theorem bindingKind?_of_ne {n : Node} (h : n.kind ≠ .kvAttribute) : bindingKind? n = none :=
  if_neg h

theorem kind_of_binding {n : Node} (h : bindingKind? n ≠ none) : n.kind = .kvAttribute := by
  by_contra other
  exact h (bindingKind?_of_ne other)

structure Bare (n : Node) : Prop where
  binding : bindingKind? n = none
  hoisted : isImport n = false
  script : isScript n = false

theorem bare_of_kind {n : Node} (h : n.kind ∉ [.kvAttribute, .staticImport, .webScript]) :
    Bare n := by
  simp only [List.mem_cons, List.not_mem_nil, or_false, not_or] at h
  obtain ⟨keyed, hoisted, script⟩ := h
  exact ⟨bindingKind?_of_ne keyed, by simp [isImport, hoisted], by simp [isScript, script]⟩

theorem adds_embeds {n : Node} (bare : Bare n) {es : List (Nat × String)}
    (h : es = (collectedBy n).map placed) (p : Pending) :
    Adds [n] p { p with embeds := p.embeds ++ es } where
  refs := by simp [boundNames, bare.binding]
  refAlls := by simp [boundNames, bare.binding]
  embeds := by simp [h]
  imports := by simp [importTexts, bare.hoisted]
  script := by
    rw [List.filter_singleton, bare.script]
    exact .none rfl rfl rfl

theorem adds_nothing {n : Node} (bare : Bare n) (hc : collectedBy n = []) (p : Pending) :
    Adds [n] p p := by
  have quiet := adds_embeds bare (congrArg (List.map placed) hc).symm p
  rwa [List.map_nil, List.append_nil] at quiet

theorem adds_binding {n : Node} {kind : BindingKind} (hb : bindingKind? n = some kind)
    {p : Pending} (unbound : p.isBound (bindingName n) = false) :
    Adds [n] p (p.bind kind (bindingName n)) := by
  have hn := kind_of_binding (hb ▸ Option.some_ne_none kind)
  have collected : collectedBy n = [] := by simp [collectedBy, hn, hb]
  have names : addNew (bindingName n) p.refs = p.refs ++ [bindingName n] ∧
      addNew (bindingName n) p.refAlls = p.refAlls ++ [bindingName n] := by
    simp_all [Pending.isBound, addNew]
  constructor
  · cases kind <;> simp [boundNames, hb, Pending.bind, names]
  · cases kind <;> simp [boundNames, hb, Pending.bind, names]
  · cases kind <;> simp [collected, Pending.bind]
  · cases kind <;> simp [importTexts, isImport, hn, Pending.bind]
  · have other : isScript n = false := by simp [isScript, hn]
    rw [List.filter_singleton, other]
    cases kind <;> exact .none rfl rfl rfl

theorem lastValue_kvAttribute {n : Node} (h : n.Conforms) (hn : n.kind = .kvAttribute) :
    ∃ g : Node, lastValue (n.children.map handed) = handed g ∧ g.Conforms ∧
      g.kind.isValue = true ∧ bindingName n = givenName g ∧
      (bindingKind? n = none → collectedBy n = [g].filter fun c => c.kind = .clientEmbed) := by
  obtain ⟨a, s, o, t, v, g, eq, value, ha, hs, ho, ht, hv, hg, cg, -⟩ := h.kvAttribute hn
  refine ⟨g, ?_, cg, hg, ?_, ?_⟩
  · rw [lastValue, eq, ← handed_attributeValue hv value]
    rfl
  · simp [bindingName, Node.child?, eq, value, ha, hs, ho, ht, hv]
  · intro hb
    simp [collectedBy, hn, hb, eq, value, ha, hs, ho, ht, hv]

theorem bindingTarget_lastValue {n : Node} (h : n.Conforms) (hn : n.kind = .kvAttribute) :
    bindingTarget (lastValue (n.children.map handed)) = bindingName n := by
  obtain ⟨g, last, cg, value, name, -⟩ := lastValue_kvAttribute h hn
  rw [last, bindingTarget_handed cg.follows value, name]

theorem adds_kvAttribute {n : Node} (h : n.Conforms) (hn : n.kind = .kvAttribute) {p q : Pending}
    {v : Value ScriptItem} (left : Left n (n.children.map handed) p v q) : Adds [n] p q := by
  obtain ⟨g, last, cg, value, name, collected⟩ := lastValue_kvAttribute h hn
  have pending := left.pending
  have admitted := left.admitted
  have target := bindingTarget_handed cg.follows value
  simp only [gather, Admits, hn, last, target, ← name] at pending admitted
  cases hb : bindingKind? n with
  | some kind =>
    rw [hb] at pending admitted
    rw [pending]
    exact adds_binding hb (admitted (Option.some_ne_none kind)).2
  | none =>
    rw [hb] at pending
    rw [pending, addEmbed_eq]
    have bare : Bare n := ⟨hb, by simp [isImport, hn], by simp [isScript, hn]⟩
    refine adds_embeds bare ?_ p
    rw [collected hb, embedOf?_handed_value value]
    by_cases hg : g.kind = .clientEmbed <;> simp [hg]

theorem adds_jointEmbed {n : Node} (h : n.Conforms) (hn : n.kind = .jointEmbed) (p : Pending) :
    Adds [n] p (p.addEmbed (lastValue (n.children.map handed))) := by
  obtain ⟨s, t, e, eq, hs, ht, he⟩ := h.follows.jointEmbed hn
  have last : lastValue (n.children.map handed) = handed e := by
    rw [lastValue, eq]
    rfl
  have embed := embedOf?_handed_item (n := e) (by rw [he]; rfl)
  rw [if_pos he] at embed
  rw [last, addEmbed_eq, embed]
  refine adds_embeds (bare_of_kind (by simp [hn])) ?_ p
  rcases hs with hs | hs <;> simp [collectedBy, hn, eq, hs, ht, he]

theorem adds_elementChildren {n : Node} (h : n.Conforms) (hn : n.kind = .elementChildren)
    (p : Pending) : Adds [n] p ((n.children.map handed).foldl Pending.addEmbed p) := by
  rw [addEmbeds_eq, filterMap_embedOf?_handed (h.follows.elementChildren hn)]
  refine adds_embeds (bare_of_kind (by simp [hn])) ?_ p
  simp [collectedBy, hn]

theorem adds_webScript {n : Node} (h : n.Conforms) (hn : n.kind = .webScript) {p : Pending}
    (first : p.scriptSource = none) : Adds [n] p (addScript n (n.children.map handed) p) := by
  rw [addScript_handed h hn]
  have hb : bindingKind? n = none := bindingKind?_of_ne (by simp [hn])
  have script : isScript n = true := by simp [isScript, hn]
  constructor
  · simp [boundNames, hb]
  · simp [boundNames, hb]
  · simp [collectedBy, hn]
  · simp [importTexts, isImport, hn]
  · rw [List.filter_singleton, script]
    exact .one n first rfl rfl rfl

theorem adds_staticImport {n : Node} (hn : n.kind = .staticImport) (p : Pending) :
    Adds [n] p (p.addImport (Text.trim n.text)) := by
  have hb : bindingKind? n = none := bindingKind?_of_ne (by simp [hn])
  have script : isScript n = false := by simp [isScript, hn]
  constructor
  · simp [boundNames, hb, Pending.addImport]
  · simp [boundNames, hb, Pending.addImport]
  · simp [collectedBy, hn, Pending.addImport]
  · simp [importTexts, isImport, hn, Pending.addImport]
  · rw [List.filter_singleton, script]
    exact .none rfl rfl rfl

theorem adds_of_left {n : Node} (h : n.Conforms) {p q : Pending} {v : Value ScriptItem}
    (left : Left n (n.children.map handed) p v q) : Adds [n] p q := by
  have pending := left.pending
  have admitted := left.admitted
  cases hn : n.kind
  case kvAttribute => exact adds_kvAttribute h hn left
  case jointEmbed =>
    simp only [gather, hn] at pending
    rw [pending]
    exact adds_jointEmbed h hn p
  case elementChildren =>
    simp only [gather, hn] at pending
    rw [pending]
    exact adds_elementChildren h hn p
  case webScript =>
    simp only [gather, Admits, hn] at pending admitted
    rw [pending]
    exact adds_webScript h hn admitted
  case staticImport =>
    simp only [gather, hn] at pending
    rw [pending]
    exact adds_staticImport hn p
  all_goals
    simp only [gather, hn] at pending
    rw [pending]
    exact adds_nothing (bare_of_kind (by simp [hn])) (by simp [collectedBy, hn]) p

theorem preorder_of_givenName {g : Node} (h : g.Conforms) (given : givenName g ≠ "") :
    ∀ m ∈ g.preorder, m.kind ≠ .kvAttribute := by
  unfold givenName at given
  split at given
  · rename_i hg
    rw [h.preorder_of_leaves (h.follows.clientEmbed hg)]
    refine List.forall_mem_cons.mpr ⟨by simp [hg], fun m hm hk => ?_⟩
    have leaf := h.follows.clientEmbed hg m hm
    rw [hk] at leaf
    cases leaf
  · rename_i hg
    rw [h.preorder_of_leaf (by rw [hg]; rfl)]
    simp [hg]
  · rename_i hg
    rw [h.preorder_of_leaf (by rw [hg]; rfl)]
    simp [hg]
  · exact absurd rfl given

theorem bindingKind?_below {n : Node} (h : n.Conforms) {p q : Pending} {v : Value ScriptItem}
    (left : Left n (n.children.map handed) p v q) (hb : bindingKind? n ≠ none) :
    ∀ m ∈ Node.preorderAll n.children, bindingKind? m = none := by
  have hn := kind_of_binding hb
  obtain ⟨a, s, o, t, w, g, eq, value, ha, hs, ho, ht, hw, hg, cg, order⟩ := h.kvAttribute hn
  have last : lastValue (n.children.map handed) = handed g := by
    rw [lastValue, eq, ← handed_attributeValue hw value]
    rfl
  have admitted := left.admitted
  simp only [Admits, hn, last, bindingTarget_handed cg.follows hg] at admitted
  have below := preorder_of_givenName cg (admitted hb).1
  rw [Node.preorder_eq, List.cons.injEq] at order
  rw [order.2]
  simp only [List.forall_mem_cons]
  refine ⟨?_, ?_, ?_, ?_, ?_, fun m hm => bindingKind?_of_ne (below m hm)⟩ <;>
    exact bindingKind?_of_ne (by simp [ha, hs, ho, ht, hw])

theorem isImport_below {n : Node} (h : n.Conforms) (hi : isImport n = true) :
    ∀ m ∈ Node.preorderAll n.children, isImport m = false := by
  have leaves := h.follows.staticImport (by simpa [isImport] using hi)
  have order := h.preorder_of_leaves leaves
  rw [Node.preorder_eq, List.cons.injEq] at order
  rw [order.2]
  intro m hm
  have leaf := leaves m hm
  refine Bool.eq_false_iff.mpr fun hm => ?_
  rw [of_decide_eq_true hm] at leaf
  cases leaf

theorem establishes_adds :
    table.Establishes
      (fun n x _ y => n.Conforms → n.kind ≠ .document → n.components = [] →
        Adds n.preorder x.pending y.pending)
      (fun ns x _ y => (∀ n ∈ ns, n.Conforms) → (∀ n ∈ ns, n.kind ≠ .document) →
        (∀ n ∈ ns, n.components = []) → Adds (Node.preorderAll ns) x.pending y.pending) where
  node := by
    intro n x x₁ vs x₂ v y entered run below left conforms hd bare
    rw [Node.components_eq, List.append_eq_nil_iff, List.flatMap_eq_nil_iff] at bare
    have hc : n.kind ≠ .component := by
      intro hc
      rw [if_pos hc] at bare
      exact List.cons_ne_nil n [] bare.1
    rw [enter_other hc] at entered
    cases entered
    have inner := below (fun c hc => conforms.child hc)
      (conforms.follows.child_ne (Kind.not_mentions_document n.kind)) bare.2
    obtain rfl := establishes_handed.visitAll _ _ _ _ run
    have leaving := left_of_leave hd hc left
    -- The node adds its own last, but comes before its descendants in document order.
    rw [Node.preorder_eq]
    exact (inner.trans (adds_of_left conforms leaving)).swap (bindingKind?_below conforms leaving)
      (isImport_below conforms)
  nil := fun x _ _ _ => adds_nil x.pending
  cons := by
    intro n ns x v x₁ vs y first rest conforms hd bare
    obtain ⟨conforms, conforms'⟩ := List.forall_mem_cons.mp conforms
    obtain ⟨hd, hd'⟩ := List.forall_mem_cons.mp hd
    obtain ⟨bare, bare'⟩ := List.forall_mem_cons.mp bare
    rw [Node.preorderAll]
    exact (first conforms hd bare).trans (rest conforms' hd' bare')

/-- What is pending at the end of a component is what its nodes have added to nothing. -/
theorem adds_component {c : Node} (h : c.Conforms) (hc : c.kind = .component)
    (bare : ∀ d ∈ c.children, d.components = []) {x z : Extractor} {vs : List (Value ScriptItem)}
    (hx : x.pending = .empty) (run : outcome (table.visitAll c.children) x = (.ok vs, z)) :
    Adds c.preorder .empty z.pending := by
  have below := establishes_adds.visitAll _ _ _ _ run (fun d hd => h.child hd)
    (h.follows.child_ne (Kind.not_mentions_document c.kind)) bare
  have self :=
    adds_nothing (bare_of_kind (n := c) (by simp [hc])) (by simp [collectedBy, hc]) .empty
  rw [hx] at below
  rw [Node.preorder_eq]
  exact self.trans below

end HybridTemplate.Component
