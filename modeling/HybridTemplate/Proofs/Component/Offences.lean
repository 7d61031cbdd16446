import HybridTemplate.Proofs.Component.Strays

set_option autoImplicit false

namespace HybridTemplate.Component

open Visit (outcome outcome_bind outcome_bind_eq_error outcome_bind_eq_ok)

section

variable {α β : Type} {P : List α → α → β → Prop}

/-- Whether nothing is found along a list. `P before x b` says that `b` is found at `x`, behind
those before it. -/
def Clear (P : List α → α → β → Prop) (xs : List α) : Prop :=
  ∀ before x, before ++ [x] <+: xs → ∀ b, ¬ P before x b

def FoundFirst (P : List α → α → β → Prop) (xs : List α) (b : β) : Prop :=
  ∃ before x, before ++ [x] <+: xs ∧ Clear P before ∧ P before x b

/-- How a run along a list ends that fails with what is found first. -/
def Meets {γ : Type} (P : List α → α → β → Prop) (xs : List α) : Except β γ → Prop
  | .ok _ => Clear P xs
  | .error b => FoundFirst P xs b

variable {xs ys : List α} {x : α} {b c : β}

theorem clear_nil : Clear P [] := by
  intro before x part
  exact absurd (List.prefix_nil.mp part) (List.concat_ne_nil x before)

theorem clear_concat_iff : Clear P (xs ++ [x]) ↔ Clear P xs ∧ ∀ b, ¬ P xs x b := by
  constructor
  · intro clear
    exact ⟨fun before y part => clear before y (part.trans (List.prefix_append xs [x])),
      clear xs x (List.prefix_refl _)⟩
  · rintro ⟨clear, last⟩ before y part
    rcases List.prefix_concat_iff.mp part with whole | part
    · obtain ⟨rfl, same⟩ := List.append_inj' whole rfl
      cases same
      exact last
    · exact clear before y part

theorem FoundFirst.append (h : FoundFirst P xs b) (ys : List α) : FoundFirst P (xs ++ ys) b := by
  obtain ⟨before, x, part, clear, found⟩ := h
  exact ⟨before, x, part.trans (List.prefix_append xs ys), clear, found⟩

theorem foundFirst_concat (clear : Clear P xs) (found : P xs x b) : FoundFirst P (xs ++ [x]) b :=
  ⟨xs, x, List.prefix_refl _, clear, found⟩

theorem Clear.not_foundFirst (clear : Clear P xs) : ¬ FoundFirst P xs b := by
  rintro ⟨before, x, part, -, found⟩
  exact clear before x part b found

theorem clear_iff : Clear P xs ↔ ∀ b, ¬ FoundFirst P xs b := by
  refine ⟨fun clear b => clear.not_foundFirst, fun none => ?_⟩
  induction xs using List.reverseRecOn with
  | nil => exact clear_nil
  | append_singleton xs x ih =>
    have before := ih fun b found => none b (found.append [x])
    exact clear_concat_iff.mpr ⟨before, fun b found => none b (foundFirst_concat before found)⟩

/-- Where nothing is found along a list, it ends before the place where something is. -/
theorem Clear.length_le {before before' : List α} (clear : Clear P before')
    (part' : before' <+: xs) (part : before ++ [x] <+: xs) (found : P before x b) :
    before'.length ≤ before.length := by
  by_contra beyond
  have inside : before ++ [x] <+: before' :=
    List.prefix_of_prefix_length_le part part' (by rw [List.length_append]; exact not_le.mp beyond)
  exact clear before x inside b found

theorem FoundFirst.unique (single : ∀ before x b c, P before x b → P before x c → b = c)
    (hb : FoundFirst P xs b) (hc : FoundFirst P xs c) : b = c := by
  obtain ⟨before, x, part, clear, found⟩ := hb
  obtain ⟨before', x', part', clear', found'⟩ := hc
  have same : before.length = before'.length :=
    le_antisymm (clear.length_le ((List.prefix_append before [x]).trans part) part' found')
      (clear'.length_le ((List.prefix_append before' [x']).trans part') part found)
  have whole := List.prefix_of_prefix_length_le part part' (by simp [same])
  obtain ⟨rfl, last⟩ := List.append_inj' (whole.eq_of_length (by simp [same])) rfl
  cases last
  exact single before x b c found found'

end

/-- What a node is refused for where those nodes have been gathered before it. -/
inductive Offends (o : Origin) (before : List Node) (n : Node) : CompileError → Prop
  | unnamed {kind : BindingKind} (binds : bindingKind? n = some kind) (name : bindingName n = "") :
    Offends o before n (.grammar o.file (o.location n.start) (.missingBindingName kind))
  | bound {kind : BindingKind} (binds : bindingKind? n = some kind) (named : bindingName n ≠ "")
    {m : Node} (mem : m ∈ before) (first : bindingKind? m ≠ none)
    (same : bindingName m = bindingName n) :
    Offends o before n (.duplicateBinding (bindingName n) kind o.file (o.location n.start))
  | second (script : isScript n = true) {m : Node} (mem : m ∈ before) (first : isScript m = true) :
    Offends o before n (.grammar o.file (o.location n.start) .secondScript)

/-- What a component is refused for. Components do not share what they gather. -/
def OffendsWithin (o : Origin) (_ : List Node) (c : Node) (e : CompileError) : Prop :=
  FoundFirst (Offends o) c.interior e

theorem not_isScript_of_binds {n : Node} {kind : BindingKind} (h : bindingKind? n = some kind) :
    isScript n = false := by
  have keyed := kind_of_binding (h ▸ Option.some_ne_none kind)
  simp [isScript, keyed]

theorem Offends.unique {o : Origin} {before : List Node} {n : Node} {d e : CompileError}
    (hd : Offends o before n d) (he : Offends o before n e) : d = e := by
  cases hd with
  | unnamed binds name =>
    cases he with
    | unnamed binds' => cases binds.symm.trans binds'; rfl
    | bound _ named => exact absurd name named
    | second script => rw [not_isScript_of_binds binds] at script; cases script
  | bound binds named =>
    cases he with
    | unnamed _ name => exact absurd name named
    | bound binds' => cases binds.symm.trans binds'; rfl
    | second script => rw [not_isScript_of_binds binds] at script; cases script
  | second script =>
    cases he with
    | unnamed binds => rw [not_isScript_of_binds binds] at script; cases script
    | bound binds => rw [not_isScript_of_binds binds] at script; cases script
    | second => rfl

theorem OffendsWithin.unique {o : Origin} {cs : List Node} {c : Node} {d e : CompileError}
    (hd : OffendsWithin o cs c d) (he : OffendsWithin o cs c e) : d = e :=
  FoundFirst.unique (fun _ _ _ _ hd he => hd.unique he) hd he

theorem clear_offendsWithin_iff {o : Origin} {cs : List Node} :
    Clear (OffendsWithin o) cs ↔ ∀ c ∈ cs, Clear (Offends o) c.interior := by
  constructor
  · intro clear c hc
    obtain ⟨before, after, rfl⟩ := List.append_of_mem hc
    have part : before ++ [c] <+: before ++ c :: after := ⟨after, by rw [← List.append_cons]⟩
    exact clear_iff.mpr (clear before c part)
  · intro clear before c part e
    have mem : c ∈ cs := part.subset (List.mem_append_right before (List.mem_singleton_self c))
    exact (clear c mem).not_foundFirst

theorem isBound_iff {ms : List Node} {p : Pending} (adds : Adds ms .empty p) {s : String} :
    p.isBound s = true ↔ ∃ m ∈ ms, bindingKind? m ≠ none ∧ bindingName m = s := by
  have refs : p.refs = boundNames .ref ms := adds.refs
  have refAlls : p.refAlls = boundNames .refAll ms := adds.refAlls
  have mem_iff (kind : BindingKind) :
      s ∈ boundNames kind ms ↔ ∃ m ∈ ms, bindingKind? m = some kind ∧ bindingName m = s := by
    simp only [boundNames, List.mem_map, List.mem_filter, decide_eq_true_eq, and_assoc]
  rw [Pending.isBound, refs, refAlls, Bool.or_eq_true, List.contains_iff_mem,
    List.contains_iff_mem, mem_iff, mem_iff]
  constructor
  · rintro (⟨m, hm, binds, name⟩ | ⟨m, hm, binds, name⟩)
    · exact ⟨m, hm, by simp [binds], name⟩
    · exact ⟨m, hm, by simp [binds], name⟩
  · rintro ⟨m, hm, binds, name⟩
    obtain ⟨kind, binds⟩ := Option.ne_none_iff_exists'.mp binds
    cases kind
    · exact .inl ⟨m, hm, binds, name⟩
    · exact .inr ⟨m, hm, binds, name⟩

theorem isSome_scriptSource_iff {ms : List Node} {p : Pending} (adds : Adds ms .empty p) :
    p.scriptSource.isSome = true ↔ ∃ m ∈ ms, isScript m = true := by
  obtain ⟨-, -, source⟩ := scripted_empty adds.script
  rw [source, Option.isSome_map, List.isSome_head?]
  simp [List.filter_eq_nil_iff]

theorem failIf_eq_error {refused : Pending → Bool} {error : Origin → CompileError}
    {e : CompileError} {x y : Extractor} :
    outcome (failIf refused error) x = (.error e, y) ↔
      refused x.pending = true ∧ e = error x.origin ∧ y = x := by
  rw [outcome_failIf]
  cases refused x.pending <;> simp [eq_comm]

theorem bindTarget_eq_error {kind : BindingKind} {offset : Nat} {target : String}
    {e : CompileError} {x y : Extractor}
    (h : outcome (bindTarget kind offset target) x = (.error e, y)) :
    (target = "" ∧
        e = .grammar x.origin.file (x.origin.location offset) (.missingBindingName kind)) ∨
      (target ≠ "" ∧ x.pending.isBound target = true ∧
        e = .duplicateBinding target kind x.origin.file (x.origin.location offset)) := by
  rw [bindTarget, outcome_bind_eq_error] at h
  rcases h with unnamed | ⟨_, z, named, h⟩
  · obtain ⟨empty, error, -⟩ := failIf_eq_error.mp unnamed
    exact .inl ⟨by simpa using empty, error⟩
  · obtain ⟨nonempty, rfl⟩ := failIf_eq_ok.mp named
    rcases outcome_bind_eq_error.mp h with bound | ⟨_, _, _, ended⟩
    · obtain ⟨bound, error, -⟩ := failIf_eq_error.mp bound
      exact .inr ⟨by simpa using nonempty, bound, error⟩
    · cases ended

section

variable {n : Node} {ms : List Node} {e : CompileError} {x y : Extractor}

theorem offends_keyValue (conforms : n.Conforms) (hn : n.kind = .kvAttribute)
    (adds : Adds ms .empty x.pending)
    (h : outcome (keyValue n (n.children.map handed)) x = (.error e, y)) :
    Offends x.origin ms n e := by
  have target := bindingTarget_lastValue conforms hn
  have known : bindingKind? n = BindingKind.ofAttributeName? (childText n .attributeName) :=
    if_pos hn
  unfold keyValue at h
  dsimp only at h
  split at h
  · rename_i kind binding
    rw [binding] at known
    rcases outcome_bind_eq_error.mp h with failed | ⟨_, _, _, ended⟩
    · rw [← lastValue, target] at failed
      rcases bindTarget_eq_error failed with ⟨empty, rfl⟩ | ⟨named, bound, rfl⟩
      · exact .unnamed known empty
      · obtain ⟨m, hm, before, same⟩ := (isBound_iff adds).mp bound
        exact .bound known named hm before same
    · cases ended
  · cases h

theorem offends_webScript (hn : n.kind = .webScript) (adds : Adds ms .empty x.pending)
    {vs : List (Value ScriptItem)} (h : outcome (webScript n vs) x = (.error e, y)) :
    Offends x.origin ms n e := by
  rcases outcome_bind_eq_error.mp h with second | ⟨_, _, _, added⟩
  · obtain ⟨some, rfl, -⟩ := failIf_eq_error.mp second
    obtain ⟨m, hm, script⟩ := (isSome_scriptSource_iff adds).mp some
    exact .second (isScript_iff.mpr hn) hm script
  · cases added

theorem offends_of_leave (conforms : n.Conforms) (adds : Adds ms .empty x.pending)
    (h : outcome (table.leave n (n.children.map handed)) x = (.error e, y)) :
    Offends x.origin ms n e := by
  unfold Table.leave at h
  cases hn : n.kind
  case kvAttribute =>
    simp only [hn, table] at h
    exact offends_keyValue conforms hn adds h
  case webScript =>
    simp only [hn, table] at h
    exact offends_webScript hn adds h
  all_goals
    simp only [hn, table] at h
    cases h

theorem not_offends_of_admits (conforms : n.Conforms) {p : Pending} (adds : Adds ms .empty p)
    (admitted : Admits n (n.children.map handed) p) (o : Origin) : ¬ Offends o ms n e := by
  have named (binds : bindingKind? n ≠ none) :
      bindingName n ≠ "" ∧ p.isBound (bindingName n) = false := by
    have hn := kind_of_binding binds
    simp only [Admits, hn, bindingTarget_lastValue conforms hn] at admitted
    exact admitted binds
  intro offence
  cases offence with
  | unnamed binds name => exact (named (binds ▸ Option.some_ne_none _)).1 name
  | bound binds _ mem first same =>
    have bound := (isBound_iff adds).mpr ⟨_, mem, first, same⟩
    rw [(named (binds ▸ Option.some_ne_none _)).2] at bound
    cases bound
  | second script mem first =>
    simp only [Admits, isScript_iff.mp script] at admitted
    have source := (isSome_scriptSource_iff adds).mpr ⟨_, mem, first⟩
    rw [admitted] at source
    cases source

end

/-- What is passed does not offend. -/
theorem clear_of_pass {n : Node} (conforms : n.Conforms) (hd : n.kind ≠ .document)
    (hc : n.kind ≠ .component) {ms : List Node} {x y : Extractor} {u : Unit} {o : Origin}
    (adds : Adds ms .empty x.pending) (clear : Clear (Offends o) ms)
    (h : outcome (pass n) x = (.ok u, y)) :
    Adds (ms ++ [n]) .empty y.pending ∧ Clear (Offends o) (ms ++ [n]) := by
  have more := adds_pass conforms hd adds h
  rw [if_neg hc] at more
  obtain ⟨v, left⟩ := (pass_other hc).mp h
  have admitted := (left_of_leave hd hc left).admitted
  exact ⟨more, clear_concat_iff.mpr
    ⟨clear, fun _ => not_offends_of_admits conforms adds admitted o⟩⟩

/-- Of a component, `ms` are the nodes that have been passed and `ns` those that have not. -/
theorem meets_of_passing {ns : List Node} (good : Gatherable ns)
    (free : ∀ n ∈ ns, n.kind ≠ .component) {ms : List Node} {x y : Extractor}
    {r : Except CompileError PUnit} (adds : Adds ms .empty x.pending)
    (clear : Clear (Offends x.origin) ms) (h : outcome (forM ns pass) x = (r, y)) :
    Meets (Offends x.origin) (ms ++ ns) r := by
  induction ns generalizing ms x with
  | nil =>
    cases h
    rwa [List.append_nil]
  | cons n ns ih =>
    obtain ⟨⟨conforms, hd⟩, good⟩ := List.forall_mem_cons.mp good
    obtain ⟨hc, free⟩ := List.forall_mem_cons.mp free
    rw [List.forM_cons, outcome_bind] at h
    rw [List.append_cons]
    rcases first : outcome (pass n) x with ⟨e | u, z⟩ <;> rw [first] at h
    · cases h
      rw [pass_eq_error, if_neg hc] at first
      exact (foundFirst_concat clear (offends_of_leave conforms adds first)).append ns
    · obtain ⟨more, clear⟩ := clear_of_pass conforms hd hc adds clear first
      rw [← pass_origin first] at clear ⊢
      exact ih good free more clear h

theorem meets_of_component {c : Node} {x y : Extractor}
    {r : Except CompileError (Value ScriptItem)} (conforms : c.Conforms)
    (hc : c.kind = .component) (bare : ∀ d ∈ c.children, d.components = [])
    (h : outcome (table.visit c) x = (r, y)) : Meets (Offends x.origin) c.interior r := by
  have none : Adds [] .empty x.dropStray.pending := adds_nil _
  have meets {z : Extractor} {q : Except CompileError PUnit}
      (run : outcome (forM c.interior pass) x.dropStray = (q, z)) :
      Meets (Offends x.origin) c.interior q :=
    meets_of_passing (gatherable_interior conforms) (Node.free_interior bare) none clear_nil run
  cases r with
  | error e => exact meets (failed_of_component hc h)
  | ok v =>
    obtain ⟨z, vs, w, entered, run, -⟩ := Table.visit_eq_ok.mp h
    rw [enter_component hc] at entered
    cases entered
    exact meets (passed_of_visitAll run)

def Innocent (n : Node) : Prop := bindingKind? n = none ∧ isScript n = false

theorem Innocent.not_offends {n : Node} (h : Innocent n) {o : Origin} {ms : List Node}
    {e : CompileError} : ¬ Offends o ms n e := by
  obtain ⟨free, other⟩ := h
  intro offence
  cases offence with
  | unnamed binds => rw [free] at binds; cases binds
  | bound binds => rw [free] at binds; cases binds
  | second script => rw [other] at script; cases script

/-- Of a document, `cs` are the components that have been passed, and `ms` are the nodes that have
been passed since the last of them. -/
theorem meets_of_outline {ns : List Node} (good : Gatherable ns)
    (bare : ∀ c ∈ ns, c.kind = .component → ∀ d ∈ c.children, d.components = [])
    (innocent : ∀ n ∈ ns, n.kind ≠ .component → Innocent n) {ms cs : List Node} {x y : Extractor}
    {r : Except CompileError PUnit} (adds : Adds ms .empty x.pending)
    (clear : Clear (OffendsWithin x.origin) cs) (h : outcome (forM ns pass) x = (r, y)) :
    Meets (OffendsWithin x.origin) (cs ++ ns.filter Node.isComponent) r := by
  induction ns generalizing ms cs x with
  | nil =>
    cases h
    rwa [List.filter_nil, List.append_nil]
  | cons n ns ih =>
    obtain ⟨⟨conforms, hd⟩, good⟩ := List.forall_mem_cons.mp good
    obtain ⟨bareHead, bare⟩ := List.forall_mem_cons.mp bare
    obtain ⟨innocentHead, innocent⟩ := List.forall_mem_cons.mp innocent
    rw [List.forM_cons, outcome_bind] at h
    rcases first : outcome (pass n) x with ⟨e | u, z⟩ <;> rw [first] at h
    · cases h
      rw [pass_eq_error] at first
      by_cases hc : n.kind = .component
      · rw [if_pos hc] at first
        have own := meets_of_component conforms hc (bareHead hc) first
        rw [List.filter_cons_of_pos (Node.isComponent_iff.mpr hc), List.append_cons]
        exact (foundFirst_concat clear own).append _
      · rw [if_neg hc] at first
        exact absurd (offends_of_leave conforms adds first) (innocentHead hc).not_offends
    · have more := adds_pass conforms hd adds first
      rw [← pass_origin first] at clear ⊢
      by_cases hc : n.kind = .component
      · obtain ⟨v, visited, -⟩ := pass_component hc first
        have own : Clear (Offends x.origin) n.interior :=
          meets_of_component conforms hc (bareHead hc) visited
        rw [← pass_origin first] at own
        rw [List.filter_cons_of_pos (Node.isComponent_iff.mpr hc), List.append_cons]
        exact ih good bare innocent more
          (clear_concat_iff.mpr ⟨clear, fun _ => own.not_foundFirst⟩) h
      · rw [List.filter_cons_of_neg (by simp [Node.not_isComponent_iff.mpr hc])]
        exact ih good bare innocent more clear h

theorem innocent_of_strays {tree : Node} (innocent : ∀ m ∈ tree.strays.flatten, Innocent m) :
    ∀ n ∈ tree.interior, n.kind ≠ .component → Innocent n := by
  rw [Node.strays, Node.flatten_splitOnP] at innocent
  intro n hn hc
  exact innocent n (List.mem_filter.mpr ⟨hn, by rw [Node.not_isComponent_iff.mpr hc]; rfl⟩)

theorem meets_of_document {tree : Node} {x y : Extractor}
    {r : Except CompileError (Value ScriptItem)} (document : tree.kind = .document)
    (conforms : tree.Conforms) (apart : tree.ComponentsApart)
    (innocent : ∀ m ∈ tree.strays.flatten, Innocent m) (hx : x.pending = .empty)
    (h : outcome (table.visit tree) x = (r, y)) :
    Meets (OffendsWithin x.origin) tree.components r := by
  have none : Adds [] .empty x.pending := hx.symm ▸ adds_nil _
  have meets {z : Extractor} {q : Except CompileError PUnit}
      (run : outcome (forM tree.interior pass) x = (q, z)) :
      Meets (OffendsWithin x.origin) tree.components q := by
    have all := meets_of_outline (gatherable_interior conforms) apart.of_interior
      (innocent_of_strays innocent) none clear_nil run
    rwa [List.nil_append, apart.filter_interior (by simp [document])] at all
  cases r with
  | error e => exact meets (failed_of_document document h)
  | ok v =>
    obtain ⟨z, vs, w, entered, run, -⟩ := Table.visit_eq_ok.mp h
    rw [enter_other (by simp [document])] at entered
    cases entered
    exact meets (passed_of_visitAll run)

namespace Extractor

/-- A document with nothing to refuse outside components fails exactly at the first offence in its
components, and with the error of that offence. In a tree that is built from leaves and branches a
node's location is where the characters in front of its text lead to. -/
theorem extract_fails_at_first_offence {tree : Node} (built : tree.Built)
    (document : tree.kind = .document) (conforms : tree.Conforms) (apart : tree.ComponentsApart)
    (innocent : ∀ m ∈ tree.strays.flatten, Innocent m) (calls : List Call) (source : String)
    (file : Option SourceFile) :
    let o := Origin.of source file
    let extraction := ((fresh.after calls).extract tree source file).1
    (∀ e, extraction.result = .error e ↔ FoundFirst (OffendsWithin o) tree.components e) ∧
      ((∃ ds, extraction.result = .ok ds) ↔
        ∀ c ∈ tree.components, Clear (Offends o) c.interior) ∧
      (source = tree.text → ∀ n ∈ tree.preorder, ∃ front back,
        source = front ++ n.text ++ back ∧ n.start = front.utf8ByteSize ∧
          o.location n.start = front.toList.foldl Location.after Location.first) := by
  intro o extraction
  have new : extraction = (fresh.extract tree source file).1 :=
    (extract_settled (settled_after calls) tree source file).1
  have located (whole : source = tree.text) (n : Node) (hn : n ∈ tree.preorder) :
      ∃ front back, source = front ++ n.text ++ back ∧ n.start = front.utf8ByteSize ∧
        o.location n.start = front.toList.foldl Location.after Location.first := by
    obtain ⟨front, back, split, start⟩ := built.laidOut.split conforms.composed n hn
    rw [built.start_eq, Nat.zero_add] at start
    refine ⟨front, back, whole.trans split, start, ?_⟩
    change Location.ofOffset source n.start = _
    rw [start, whole, split, String.append_assoc, Location.ofOffset_append]
  rw [← and_assoc]
  refine ⟨?_, located⟩
  rcases visited : outcome (table.visit tree) (atStart o []) with ⟨r, y⟩
  have meets : Meets (OffendsWithin o) tree.components r :=
    meets_of_document document conforms apart innocent rfl visited
  rw [← clear_offendsWithin_iff]
  cases r with
  | error d =>
    have found : FoundFirst (OffendsWithin o) tree.components d := meets
    have failed : extraction.result = .error d := by
      rw [new, extract_of_error settled_fresh visited]
    rw [failed]
    refine ⟨fun e => ⟨?_, fun first => ?_⟩, ?_⟩
    · rintro ⟨⟩
      exact found
    · rw [found.unique (fun _ _ _ _ hd he => hd.unique he) first]
    · exact ⟨fun ⟨_, read⟩ => (by cases read), fun clear => absurd found clear.not_foundFirst⟩
  | ok v =>
    have clear : Clear (OffendsWithin o) tree.components := meets
    have read : extraction.result = .ok y.components := by
      rw [new, extract_of_ok settled_fresh visited]
    rw [read]
    refine ⟨fun e => ⟨fun failed => (by cases failed), fun first => ?_⟩, ?_⟩
    · exact absurd first clear.not_foundFirst
    · exact ⟨fun _ => clear, fun _ => ⟨_, rfl⟩⟩

/-- Components may bind the same name, and what offends behind the first offence does not count. -/
theorem extract_fails_at_shared_name :
    let script : Node := .scriptOf [.leaf .scriptCode "s()"]
    let tree : Node := .branch .document [.leaf .hostCode "é\n",
      .componentOf "A" [.elementOf "ref" "'x'"],
      .componentOf "B" [script, .elementOf "ref" "'x'", .leaf .hostCode "ü",
        .elementOf "refall" "\" x\"", script]]
    let clash : CompileError := .duplicateBinding "x" .refAll "<content>" ⟨2, 53⟩
    tree.Built ∧ tree.kind = .document ∧ tree.Conforms ∧ tree.ComponentsApart ∧
      (∀ m ∈ tree.strays.flatten, Innocent m) ∧
      ((fresh.after []).extract tree tree.text none).1.result = .error clash ∧
      FoundFirst (OffendsWithin (.of tree.text none)) tree.components clash := by
  intro script tree clash
  have built : tree.Built := by
    repeat' first
      | exact .leaf _ _
      | exact List.forall_mem_nil _
      | refine List.forall_mem_cons.mpr ⟨?_, ?_⟩
      | refine .branch _ _ ?_
  have conforms : tree.Conforms := by decide +kernel
  have apart : tree.ComponentsApart := by
    unfold Node.ComponentsApart
    decide +kernel
  have innocent : ∀ m ∈ tree.strays.flatten, Innocent m := by
    unfold Innocent
    decide +kernel
  have read : ((fresh.after []).extract tree tree.text none).1.result = .error clash := by
    decide +kernel
  have whole := extract_fails_at_first_offence built rfl conforms apart innocent [] tree.text none
  exact ⟨built, rfl, conforms, apart, innocent, read, (whole.1 clash).mp read⟩

end Extractor
end HybridTemplate.Component
