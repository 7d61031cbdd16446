import HybridTemplate.Proofs.Component.Gathering
import HybridTemplate.Proofs.Component.Parts

set_option autoImplicit false

namespace HybridTemplate.Component

open Visit (outcome)

theorem eraseDups_append_singleton (ss : List String) (s : String) :
    (ss ++ [s]).eraseDups = addNew s ss.eraseDups := by
  rw [List.eraseDups_append, List.cons_removeAll, addNew]
  by_cases known : s ∈ ss <;> simp [known, List.mem_eraseDups, List.eraseDups_cons]

theorem addNames_eraseDups (ss names : List String) :
    addNames ss.eraseDups names = (ss ++ names).eraseDups := by
  induction names generalizing ss with
  | nil => rw [List.append_nil]; rfl
  | cons s names ih =>
    have step := ih (ss ++ [s])
    rw [eraseDups_append_singleton, List.append_assoc] at step
    exact step

theorem firsts_eq_eraseDups (ss : List String) : firsts ss = ss.eraseDups :=
  addNames_eraseDups [] ss

/-- Which of some names occur first behind others does not depend on how often they occur. -/
theorem eraseDups_append_eraseDups (ss names : List String) :
    (ss ++ names.eraseDups).eraseDups = (ss ++ names).eraseDups := by
  induction names using List.reverseRecOn with
  | nil => rfl
  | append_singleton names s ih =>
    rw [eraseDups_append_singleton, ← List.append_assoc, eraseDups_append_singleton, ← ih]
    by_cases known : s ∈ names
    · simp [addNew, List.mem_eraseDups, known]
    · have fresh : addNew s names.eraseDups = names.eraseDups ++ [s] := by
        simp [addNew, List.mem_eraseDups, known]
      rw [fresh, ← List.append_assoc, eraseDups_append_singleton]

def scriptsIn (n : Node) : List Node := n.preorder.filter isScript

def importsIn (n : Node) : List Node := n.preorder.filter isImport

theorem scriptsIn_eq (n : Node) :
    scriptsIn n = [n].filter isScript ++ n.children.flatMap scriptsIn :=
  Node.filter_preorder isScript n

theorem importsIn_eq (n : Node) :
    importsIn n = [n].filter isImport ++ n.children.flatMap importsIn :=
  Node.filter_preorder isImport n

theorem isScript_iff {n : Node} : isScript n = true ↔ n.kind = .webScript := decide_eq_true_iff

theorem isImport_iff {n : Node} : isImport n = true ↔ n.kind = .staticImport := decide_eq_true_iff

theorem importsIn_of_scriptsIn {n : Node} (h : n.Conforms) (hb : n.kind ≠ .scriptBody)
    (hi : n.kind ≠ .staticImport) (none : scriptsIn n = []) : importsIn n = [] := by
  induction n using Node.children_induction with
  | node n ih =>
    rw [scriptsIn_eq, List.append_eq_nil_iff, List.flatMap_eq_nil_iff] at none
    have hs : n.kind ≠ .webScript := by
      simpa [isScript] using none.1
    have self : [n].filter isImport = [] := by simp [isImport, hi]
    rw [importsIn_eq, self, List.nil_append, List.flatMap_eq_nil_iff]
    intro c hc
    exact ih c hc (h.child hc) (h.follows.child_ne (Kind.not_mentions_scriptBody hs) c hc)
      (h.follows.child_ne (Kind.not_mentions_staticImport hb) c hc) (none.2 c hc)

theorem importsIn_scriptBody {b : Node} (h : b.Conforms) (hb : b.kind = .scriptBody) :
    importsIn b = b.children.filter isImport := by
  have self : [b].filter isImport = [] := by simp [isImport, hb]
  have part : ∀ c ∈ b.children, importsIn c = [c].filter isImport := by
    intro c hc
    have conforms := h.child hc
    rcases h.follows.scriptBody hb c hc with code | hoisted
    · rw [importsIn, conforms.preorder_of_leaf (by rw [code]; rfl)]
    · have below := isImport_below conforms (isImport_iff.mpr hoisted)
      have none : (Node.preorderAll c.children).filter isImport = [] :=
        List.filter_eq_nil_iff.mpr fun m hm => Bool.not_eq_true _ ▸ below m hm
      rw [importsIn, Node.preorder_eq, ← List.singleton_append, List.filter_append, none,
        List.append_nil]
  rw [importsIn_eq, self, List.nil_append, List.flatMap_def, List.map_congr_left part,
    ← List.flatMap_def, ← List.filter_flatMap, List.flatMap_singleton']

theorem importsIn_webScript {s : Node} (h : s.Conforms) (hs : s.kind = .webScript)
    (single : s.children.flatMap scriptsIn = []) :
    importsIn s = (bodyNodes s).filter isImport := by
  obtain ⟨x, y, a, t, z, b, e, eq, hx, hy, ha, ht, hz, hb, he⟩ := h.follows.webScript hs
  have body : bodyNodes s = b.children := by
    simp [bodyNodes, Node.child?, eq, hx, hy, ha, ht, hz, hb]
  have self : [s].filter isImport = [] := by simp [isImport, hs]
  have other : ∀ c ∈ s.children, c.kind ≠ .scriptBody → c.kind ≠ .staticImport →
      importsIn c = [] := fun c hc hcb hci =>
    importsIn_of_scriptsIn (h.child hc) hcb hci (List.flatMap_eq_nil_iff.mp single c hc)
  rw [eq] at other
  simp only [List.forall_mem_cons] at other
  obtain ⟨ix, iy, ia, it, iz, -, ie, -⟩ := other
  rw [importsIn_eq, self, List.nil_append, eq, body,
    ← importsIn_scriptBody (h.child (by simp [eq])) hb]
  simp only [List.flatMap_cons, List.flatMap_nil]
  simp [ix, iy, ia, it, iz, ie, hx, hy, ha, ht, hz, he]

theorem importsIn_eq_body {n : Node} (h : n.Conforms) (hb : n.kind ≠ .scriptBody)
    (hi : n.kind ≠ .staticImport) (single : (scriptsIn n).length ≤ 1) :
    importsIn n = ((scriptsIn n).flatMap bodyNodes).filter isImport := by
  induction n using Node.children_induction with
  | node n ih =>
    rw [scriptsIn_eq] at single ⊢
    by_cases hs : n.kind = .webScript
    · have script : [n].filter isScript = [n] := by simp [isScript, hs]
      rw [script, List.length_append, List.length_singleton] at single
      have below : n.children.flatMap scriptsIn = [] := List.length_eq_zero_iff.mp (by omega)
      rw [importsIn_webScript h hs below, script, below, List.append_nil, List.flatMap_singleton]
    · have script : [n].filter isScript = [] := by simp [isScript, hs]
      have self : [n].filter isImport = [] := by simp [isImport, hi]
      rw [script, List.nil_append] at single ⊢
      rw [importsIn_eq, self, List.nil_append, List.flatMap_assoc, List.filter_flatMap,
        List.flatMap_def, List.flatMap_def]
      refine congrArg List.flatten (List.map_congr_left fun c hc => ?_)
      have part : (scriptsIn c).Sublist (n.children.flatMap scriptsIn) :=
        List.sublist_flatten_of_mem (List.mem_map_of_mem hc)
      exact ih c hc (h.child hc) (h.follows.child_ne (Kind.not_mentions_scriptBody hs) c hc)
        (h.follows.child_ne (Kind.not_mentions_staticImport hb) c hc)
        (Nat.le_trans part.length_le single)

theorem bodyText_eq {s : Node} (h : s.Conforms) (hs : s.kind = .webScript) :
    bodyText s = Node.textOf (bodyNodes s) := by
  obtain ⟨x, y, a, t, z, b, e, eq, hx, hy, ha, ht, hz, hb, -⟩ := h.follows.webScript hs
  have body : s.child? .scriptBody = some b := by
    simp [Node.child?, eq, hx, hy, ha, ht, hz, hb]
  have text : b.text = Node.textOf b.children :=
    (h.child (by simp [eq])).follows.2 (by rw [hb]; rfl)
  simp [bodyText, bodyNodes, body, text]

theorem scripted_empty {q : Pending} {ss : List Node} (h : Scripted .empty q ss) :
    q.args = (ss.flatMap argumentNames).eraseDups ∧ q.script = keptText (ss.flatMap bodyNodes) ∧
      q.scriptSource = ss.head?.map bodyText := by
  cases h with
  | none args script source => exact ⟨args, script, source⟩
  | one s first args script source =>
    rw [List.flatMap_singleton, List.flatMap_singleton]
    exact ⟨args.trans (addNames_eraseDups [] _), script, source⟩

/-- Whether something in a component has to be set up at its client side. -/
def HasBehaviour (c : Node) : Prop :=
  (∃ s ∈ scriptsIn c, Text.isAllBlank (bodyText s) = false) ∨
    (∃ m ∈ c.preorder, collectedBy m ≠ []) ∨ ∃ m ∈ c.preorder, bindingKind? m ≠ none

def Active (ms : List Node) : Prop :=
  (∃ s ∈ ms.filter isScript, Text.isAllBlank (bodyText s) = false) ∨
    (∃ m ∈ ms, collectedBy m ≠ []) ∨ ∃ m ∈ ms, bindingKind? m ≠ none

theorem hasBehaviour_iff {c : Node} : HasBehaviour c ↔ Active c.preorder := Iff.rfl

theorem isEmpty_boundNames {kind : BindingKind} {ms : List Node} :
    (boundNames kind ms).isEmpty = true ↔ ∀ m ∈ ms, bindingKind? m ≠ some kind := by
  simp [boundNames]

theorem isPresentational_iff {ms : List Node} {p : Pending} (adds : Adds ms .empty p) :
    p.isPresentational = true ↔ ¬ Active ms := by
  have refs : p.refs = boundNames .ref ms := adds.refs
  have refAlls : p.refAlls = boundNames .refAll ms := adds.refAlls
  have embeds : p.embeds.isEmpty = true ↔ ∀ m ∈ ms, collectedBy m = [] := by
    have perm : p.embeds.Perm ((ms.flatMap collectedBy).map placed) := adds.embeds
    rw [List.isEmpty_iff_length_eq_zero, perm.length_eq, List.length_map,
      List.length_eq_zero_iff, List.flatMap_eq_nil_iff]
  have script : p.scriptSource.all Text.isAllBlank = true ↔
      ∀ s ∈ ms.filter isScript, Text.isAllBlank (bodyText s) = true := by
    have single := adds.script.length_le
    rw [(scripted_empty adds.script).2.2]
    match ms.filter isScript, single with
    | [], _ => simp
    | [s], _ => simp
  have bound : (∀ m ∈ ms, bindingKind? m = none) ↔
      (∀ m ∈ ms, bindingKind? m ≠ some .ref) ∧ ∀ m ∈ ms, bindingKind? m ≠ some .refAll := by
    refine ⟨fun h => ⟨fun m hm => by simp [h m hm], fun m hm => by simp [h m hm]⟩, ?_⟩
    rintro ⟨one, all⟩ m hm
    match known : bindingKind? m with
    | none => rfl
    | some .ref => exact absurd known (one m hm)
    | some .refAll => exact absurd known (all m hm)
  simp only [Pending.isPresentational, Bool.and_eq_true, refs, refAlls, embeds, script,
    isEmpty_boundNames, Active, not_or, not_exists, not_and, Bool.not_eq_false, ne_eq,
    not_not, and_assoc]
  rw [bound]

/-- What a descriptor holds of the nodes of its component. -/
structure Means (c : Node) (d : Descriptor) : Prop where
  args : d.args = (boundNames .ref c.preorder ++ boundNames .refAll c.preorder ++
    (scriptsIn c).flatMap argumentNames).eraseDups
  imports : d.imports = importTexts ((scriptsIn c).flatMap bodyNodes)
  script : d.script = keptText ((scriptsIn c).flatMap bodyNodes)

structure HasMeaning (c : Node) (ds : List Descriptor) : Prop where
  single : (scriptsIn c).length ≤ 1
  /-- There are no imports but those of the body. -/
  hoisted : importsIn c = ((scriptsIn c).flatMap bodyNodes).filter isImport
  body : ∀ s ∈ scriptsIn c, bodyText s = Node.textOf (bodyNodes s)
  emitted : HasBehaviour c → ∃ d, ds = [d] ∧ Means c d
  silent : ¬ HasBehaviour c → ds = []

structure Holds (ms : List Node) (d : Descriptor) : Prop where
  args : d.args = (boundNames .ref ms ++ boundNames .refAll ms ++
    (ms.filter isScript).flatMap argumentNames).eraseDups
  embeds : d.embeds.Perm ((ms.flatMap collectedBy).map clientCode)
  imports : d.imports = importTexts ms
  script : d.script = keptText ((ms.filter isScript).flatMap bodyNodes)

theorem holds_descriptor {ms : List Node} {p : Pending} (adds : Adds ms .empty p)
    (name source : String) : Holds ms (p.descriptor name source) := by
  obtain ⟨args, script, -⟩ := scripted_empty adds.script
  have refs : p.refs = boundNames .ref ms := adds.refs
  have refAlls : p.refAlls = boundNames .refAll ms := adds.refAlls
  have embeds : p.embeds.Perm ((ms.flatMap collectedBy).map placed) := adds.embeds
  refine ⟨?_, ?_, adds.imports, script⟩
  · simp only [Pending.descriptor, refs, refAlls, args]
    rw [firsts_eq_eraseDups, eraseDups_append_eraseDups]
  · have codes := embeds.map Prod.snd
    rw [List.map_map] at codes
    exact ((List.mergeSort_perm p.embeds _).map Prod.snd).trans codes

theorem means_descriptor {c : Node} {p : Pending} (adds : Adds c.preorder .empty p)
    (hoisted : importsIn c = ((scriptsIn c).flatMap bodyNodes).filter isImport)
    (name source : String) : Means c (p.descriptor name source) := by
  have holds := holds_descriptor adds name source
  refine ⟨holds.args, ?_, holds.script⟩
  rw [holds.imports, importTexts, importTexts, ← hoisted, importsIn]

theorem hasMeaning_finished {c : Node} {p : Pending} (h : c.Conforms) (hc : c.kind = .component)
    (adds : Adds c.preorder .empty p) : HasMeaning c (finished p c) := by
  have single : (scriptsIn c).length ≤ 1 := adds.script.length_le
  have hoisted := importsIn_eq_body h (by simp [hc]) (by simp [hc]) single
  refine ⟨single, hoisted, ?_, ?_, ?_⟩
  · intro s hs
    obtain ⟨mem, kind⟩ := List.mem_filter.mp hs
    exact bodyText_eq (h.of_mem mem) (isScript_iff.mp kind)
  · intro some
    have shown : ¬ p.isPresentational = true := fun none =>
      (isPresentational_iff adds).mp none (hasBehaviour_iff.mp some)
    rw [finished, if_neg shown]
    have means := means_descriptor adds hoisted (declaredName c) c.text
    exact ⟨p.descriptor (declaredName c) c.text, rfl, means⟩
  · intro none
    rw [finished, if_pos ((isPresentational_iff adds).mpr (mt hasBehaviour_iff.mpr none))]

theorem explains_hasMeaning : Explains (fun n => ∀ c ∈ n.components, c.Conforms) HasMeaning where
  child := fun _ _ good hc d hd => good d (Node.mem_components_of_child hc hd)
  part := by
    intro c good hc bare x vs z hx run
    have conforms := good c (Node.mem_components_self hc)
    exact hasMeaning_finished conforms hc (adds_component conforms hc bare hx run)

namespace Extractor

/-- A component has a descriptor just where it has behaviour on its client side. The arguments are
the names that are bound or declared, in the order of their first occurrences, and the bodies of the
scripts are parted into imports and the other code. -/
theorem extract_meaning {tree : Node} (apart : tree.ComponentsApart)
    (good : ∀ c ∈ tree.components, c.Conforms) (calls : List Call)
    (source : String) (file : Option SourceFile) {ds : List Descriptor}
    (h : ((fresh.after calls).extract tree source file).1.result = .ok ds) :
    ∃ parts, ds = parts.flatten ∧ List.Forall₂ HasMeaning tree.components parts :=
  explains_hasMeaning.extract_eq_ok good apart calls source file h

theorem extract_meaning_with_script :
    let attributes : List Node → Node := fun attributes =>
      .branch .attributes (attributes.map fun a =>
        .branch .spacedAttribute [.leaf .space " ", .branch .markupAttribute [a]])
    let given : String → String → Node := fun name value =>
      .branch .kvAttribute [.leaf .attributeName name, .leaf .space "", .leaf .operator "=",
        .leaf .space "", .branch .attributeValue [.leaf .quotedValue value]]
    let element : Node :=
      .branch .element [.branch .selfClosingElement [.leaf .elementPunct "<",
        .leaf .elementName "p", attributes [given "ref" "el"], .leaf .space " ",
        .leaf .elementPunct "/>"]]
    let script : Node :=
      .branch .webScript [.leaf .elementPunct "<", .leaf .elementName "script",
        attributes [.branch .novalueAttribute [.leaf .attributeName "count"], given "el" "'a'"],
        .leaf .space "", .leaf .elementPunct ">",
        .branch .scriptBody [.branch .staticImport
          [.leaf .scriptCode "import ", .leaf .moduleSpecifier "'m'"], .leaf .scriptCode ";run()"],
        .branch .endTag [.leaf .elementPunct "</", .leaf .elementName "script", .leaf .space "",
          .leaf .elementPunct ">"]]
    let tree : Node := .branch .component
      [.branch .componentHeader [.leaf .componentName "Card"],
        .branch .componentBody [element, script]]
    ∃ ds, tree.ComponentsApart ∧ (∀ c ∈ tree.components, c.Conforms) ∧
      ((fresh.after []).extract tree "" none).1.result = .ok ds ∧
      (ds.map fun d => (d.args, d.imports, d.script)) =
        [(["el", "count"], ["import 'm'"], ";run()")] ∧
      ∃ parts, ds = parts.flatten ∧ List.Forall₂ HasMeaning tree.components parts := by
  intro attributes given element script tree
  have apart : tree.ComponentsApart := by
    unfold Node.ComponentsApart
    decide +kernel
  have good : ∀ c ∈ tree.components, c.Conforms := by decide +kernel
  have shown : (((fresh.after []).extract tree "" none).1.result.toOption.map fun ds =>
      ds.map fun d => (d.args, d.imports, d.script)) =
        some [(["el", "count"], ["import 'm'"], ";run()")] := by decide +kernel
  obtain ⟨ds, read, kept⟩ := exists_of_map_toOption shown
  exact ⟨ds, apart, good, read, kept, extract_meaning apart good [] "" none read⟩

end Extractor
end HybridTemplate.Component
