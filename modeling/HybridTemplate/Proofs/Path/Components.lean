import HybridTemplate.Path.Basic
import Mathlib.Data.List.TakeWhile
import Mathlib.Data.String.Basic

set_option autoImplicit false

namespace HybridTemplate.Path

@[simp] theorem isVoid_eq_true {s : List Char} : isVoid s = true ↔ s = [] ∨ s = ['.'] := by
  simp [isVoid]

theorem segments_append_slash (a b : List Char) :
    segments (a ++ '/' :: b) = segments a ++ segments b := by
  induction a with
  | nil => rfl
  | cons c cs ih =>
    rw [List.cons_append, segments, segments]
    by_cases slash : c = '/'
    · rw [if_pos slash, if_pos slash, ih, List.cons_append]
    · rw [if_neg slash, if_neg slash, ih]
      cases h : segments cs with
      | nil => exact absurd h (segments_ne_nil cs)
      | cons s ss => rfl

theorem segments_append_slashes (cs : List Char) (k : Nat) :
    segments (cs ++ List.replicate k '/') = segments cs ++ List.replicate k [] := by
  induction k generalizing cs with
  | zero => simp
  | succ k ih =>
    have behind := ih []
    rw [List.nil_append] at behind
    rw [List.replicate_succ, segments_append_slash, behind, List.replicate_succ]
    rfl

theorem not_mem_of_mem_segments {s cs : List Char} (h : s ∈ segments cs) : '/' ∉ s := by
  induction cs generalizing s with
  | nil =>
    obtain rfl := List.mem_singleton.mp h
    exact List.not_mem_nil
  | cons c cs ih =>
    rw [segments] at h
    by_cases slash : c = '/'
    · rw [if_pos slash] at h
      rcases List.mem_cons.mp h with rfl | h
      · exact List.not_mem_nil
      · exact ih h
    · rw [if_neg slash] at h
      cases split : segments cs with
      | nil => exact absurd split (segments_ne_nil cs)
      | cons t ts =>
        rw [split] at h ih
        rcases List.mem_cons.mp h with rfl | h
        · have first : '/' ∉ t := ih List.mem_cons_self
          simp [first, Ne.symm slash]
        · exact ih (List.mem_cons_of_mem t h)

theorem segments_of_not_mem {s : List Char} (h : '/' ∉ s) : segments s = [s] := by
  induction s with
  | nil => rfl
  | cons c cs ih =>
    have head : c ≠ '/' := fun same => h (same ▸ List.mem_cons_self)
    rw [segments, if_neg head, ih fun later => h (List.mem_cons_of_mem c later)]

theorem segments_joinSegments {ss : List (List Char)} (filled : ss ≠ [])
    (h : ∀ s ∈ ss, '/' ∉ s) : segments (joinSegments ss) = ss := by
  induction ss with
  | nil => exact absurd rfl filled
  | cons s ss ih =>
    obtain ⟨head, tail⟩ := List.forall_mem_cons.mp h
    cases ss with
    | nil => exact segments_of_not_mem head
    | cons t ts =>
      rw [joinSegments, segments_append_slash, segments_of_not_mem head,
        ih (List.cons_ne_nil t ts) tail, List.singleton_append]

theorem joinSegments_eq_intercalate (ss : List (List Char)) :
    joinSegments ss = ['/'].intercalate ss := by
  induction ss with
  | nil => rfl
  | cons s ss ih =>
    cases ss with
    | nil => simp [joinSegments]
    | cons t ts => rw [joinSegments, ih]; simp

/-- The segments that mean something. -/
def meant (ss : List (List Char)) : List (List Char) := ss.filter fun s => !isVoid s

theorem mem_meant {s : List Char} {ss : List (List Char)} :
    s ∈ meant ss ↔ s ∈ ss ∧ isVoid s = false := by
  simp [meant]

theorem meant_append (ss ts : List (List Char)) : meant (ss ++ ts) = meant ss ++ meant ts :=
  List.filter_append ss ts

theorem meant_cons_of_void {s : List Char} (h : isVoid s = true) (ss : List (List Char)) :
    meant (s :: ss) = meant ss :=
  List.filter_cons_of_neg (by simp [h])

theorem meant_cons {s : List Char} (h : isVoid s = false) (ss : List (List Char)) :
    meant (s :: ss) = s :: meant ss :=
  List.filter_cons_of_pos (by simp [h])

def steps (p : Path) : List (List Char) := meant (segments p.text.toList)

def leading (p : Path) : List Component :=
  if p.isAbsolute then [.root]
  else if (segments p.text.toList).head? = some ['.'] then [.current]
  else []

theorem not_isVoid_of_mem_steps {p : Path} {s : List Char} (h : s ∈ p.steps) :
    isVoid s = false :=
  (mem_meant.mp h).2

theorem not_mem_of_mem_steps {p : Path} {s : List Char} (h : s ∈ p.steps) : '/' ∉ s :=
  not_mem_of_mem_segments (mem_meant.mp h).1

namespace Parts

def components (ps : Parts) : List Component :=
  match ps.lead with
  | .root => .root :: bodyComponents ps.body
  | .current => .current :: bodyComponents ps.body
  | .none => bodyComponents ps.body

/-- Whether parts read back from their text: a path that begins with a name does not begin
with a segment that means nothing. -/
structure Sound (ps : Parts) : Prop where
  slashless : ∀ s ∈ ps.body, '/' ∉ s
  named : ps.lead = .none → ∀ s ∈ ps.body.head?, isVoid s = false

end Parts

theorem head?_segments_cons {c : Char} (cs : List Char) (h : c ≠ '/') :
    ∃ s, (segments (c :: cs)).head? = some (c :: s) ∧ (s = [] → cs = [] ∨ cs.head? = some '/') := by
  rw [segments, if_neg h]
  cases cs with
  | nil => exact ⟨[], rfl, fun _ => .inl rfl⟩
  | cons d ds =>
    cases split : segments (d :: ds) with
    | nil => exact absurd split (segments_ne_nil _)
    | cons s ss =>
      refine ⟨s, rfl, fun empty => .inr ?_⟩
      rw [segments] at split
      by_cases slash : d = '/'
      · rw [slash, List.head?_cons]
      · rw [if_neg slash] at split
        split at split <;> simp_all

/-- The parts of a text that begins with neither a slash nor a dot of its own. -/
theorem named_of_text {cs : List Char} (root : ∀ ds, cs ≠ '/' :: ds) (dot : cs ≠ ['.'])
    (dots : ∀ ds, cs ≠ '.' :: '/' :: ds) (filled : cs ≠ []) :
    ∃ s, (segments cs).head? = some s ∧ isVoid s = false := by
  cases cs with
  | nil => exact absurd rfl filled
  | cons c cs =>
    have slash : c ≠ '/' := fun h => root cs (by rw [h])
    obtain ⟨s, head, short⟩ := head?_segments_cons cs slash
    refine ⟨c :: s, head, ?_⟩
    rw [← Bool.not_eq_true, isVoid_eq_true]
    rintro (h | h)
    · exact List.cons_ne_nil c s h
    · obtain ⟨rfl, rfl⟩ := List.cons.inj h
      rcases short rfl with rfl | h
      · exact dot rfl
      · obtain ⟨ds, rfl⟩ := List.head?_eq_some_iff.mp h
        exact dots ds rfl

theorem sound_parts (p : Path) : p.parts.Sound := by
  unfold parts
  split
  · exact ⟨fun s h => absurd h List.not_mem_nil, fun _ s h => by cases h⟩
  · refine ⟨fun s h => ?_, fun h => by cases h⟩
    dsimp only at h
    split at h
    · cases h
    · exact not_mem_of_mem_segments h
  · exact ⟨fun s h => absurd h List.not_mem_nil, fun h => by cases h⟩
  · exact ⟨fun s h => not_mem_of_mem_segments h, fun h => by cases h⟩
  · rename_i cs filled root dot dots
    refine ⟨fun s h => not_mem_of_mem_segments h, fun _ s h => ?_⟩
    obtain ⟨t, head, named⟩ := named_of_text root dot dots filled
    rw [Option.mem_def, head] at h
    cases h
    exact named

theorem components_eq_parts (p : Path) : p.components = p.parts.components := rfl

theorem components_eq (p : Path) : p.components = p.leading ++ p.steps.map componentOf := by
  rw [components_eq_parts, leading, steps, meant, isAbsolute, parts]
  split
  · rename_i text
    simp [text, Parts.components, bodyComponents, segments]
  · rename_i cs text
    cases cs with
    | nil => simp [text, Parts.components, bodyComponents, segments]
    | cons d ds => simp [text, Parts.components, bodyComponents, segments]
  · rename_i text
    simp [text, Parts.components, bodyComponents, segments]
  · rename_i cs text
    have split : segments ('.' :: '/' :: cs) = ['.'] :: segments cs :=
      segments_append_slash ['.'] cs
    simp [text, Parts.components, bodyComponents, split]
  · rename_i cs filled root dot dots
    obtain ⟨t, head, named⟩ := named_of_text root dot dots filled
    have relative : p.text.toList.head? ≠ some '/' := by
      intro h
      obtain ⟨ds, text⟩ := List.head?_eq_some_iff.mp h
      exact root ds text
    have plain : t ≠ ['.'] := by
      rintro rfl
      cases named
    simp [Parts.components, bodyComponents, relative, head, plain]

def Component.step? : Component → Option (List Char)
  | .root => none
  | .current => none
  | .parent => some ['.', '.']
  | .normal name => some name.toList

@[simp] theorem step?_componentOf (s : List Char) : (componentOf s).step? = some s := by
  rw [componentOf]
  split
  · rename_i up
    rw [up]
    rfl
  · rw [Component.step?, String.toList_ofList]

theorem step?_leading (p : Path) : p.leading.filterMap Component.step? = [] := by
  rw [leading]
  split
  · rfl
  · split <;> rfl

theorem steps_eq_filterMap (p : Path) : p.steps = p.components.filterMap Component.step? := by
  rw [components_eq, List.filterMap_append, step?_leading, List.nil_append, List.filterMap_map]
  simp

theorem componentOf_ne_root (s : List Char) : componentOf s ≠ .root := by
  rw [componentOf]
  split <;> simp

theorem head?_components_eq_root (p : Path) :
    p.components.head? = some .root ↔ p.isAbsolute = true := by
  rw [components_eq, leading]
  by_cases absolute : p.isAbsolute = true
  · simp [absolute]
  · simp only [absolute, Bool.false_eq_true, if_false, iff_false]
    split
    · simp
    · rw [List.nil_append, List.head?_map]
      cases p.steps.head? <;> simp [componentOf_ne_root]

/-- Paths that mean the same take the same steps from the same beginning. -/
theorem isAbsolute_of_components {p q : Path} (h : p.components = q.components) :
    p.isAbsolute = q.isAbsolute := by
  rw [Bool.eq_iff_iff, ← head?_components_eq_root, ← head?_components_eq_root, h]

theorem steps_of_components {p q : Path} (h : p.components = q.components) : p.steps = q.steps := by
  rw [steps_eq_filterMap, steps_eq_filterMap, h]

theorem components_eq_nil {p : Path} : p.components = [] ↔ p.text = "" := by
  constructor
  · intro none
    rw [components_eq, List.append_eq_nil_iff, List.map_eq_nil_iff, steps, leading] at none
    obtain ⟨lead, voids⟩ := none
    by_cases absolute : p.isAbsolute = true
    · simp [absolute] at lead
    · rw [if_neg absolute] at lead
      cases text : p.text.toList with
      | nil => exact String.toList_injective text
      | cons c cs =>
        have slash : c ≠ '/' := by
          rintro rfl
          exact absolute (by rw [isAbsolute, text]; rfl)
        obtain ⟨s, head, -⟩ := head?_segments_cons cs slash
        rw [text, head] at lead
        have first : isVoid (c :: s) = false := by
          rw [← Bool.not_eq_true, isVoid_eq_true]
          rintro (h | h)
          · cases h
          · exact absurd (h ▸ lead) (by simp)
        have mem : c :: s ∈ meant (segments p.text.toList) := by
          rw [text]
          exact mem_meant.mpr ⟨List.mem_of_head? head, first⟩
        rw [voids] at mem
        cases mem
  · intro empty
    obtain ⟨text⟩ := p
    dsimp only at empty
    rw [empty]
    rfl

theorem components_append_slashes {p q : Path} {k : Nat} (filled : p.text ≠ "")
    (text : q.text.toList = p.text.toList ++ List.replicate k '/') :
    q.components = p.components := by
  have chars : p.text.toList ≠ [] := fun none => filled (String.toList_injective none)
  have absolute : q.isAbsolute = p.isAbsolute := by
    rw [isAbsolute, isAbsolute, text, List.head?_append_of_ne_nil _ chars]
  have split : segments q.text.toList = segments p.text.toList ++ List.replicate k [] := by
    rw [text, segments_append_slashes]
  have voids : meant (List.replicate k ([] : List Char)) = [] := by
    simp [meant, isVoid]
  rw [components_eq, components_eq, leading, leading, absolute, split,
    List.head?_append_of_ne_nil _ (segments_ne_nil _), steps, steps, split, meant_append, voids,
    List.append_nil]

theorem length_leading_le (p : Path) : p.leading.length ≤ 1 := by
  rw [leading]
  split
  · exact le_rfl
  · split <;> simp

/-- Behind a path that another one begins with there are names and two dots. -/
theorem exists_steps_behind {root p : Path} (filled : root.text ≠ "")
    (under : root.components <+: p.components) :
    ∃ ss : List (List Char), p.components = root.components ++ ss.map componentOf := by
  obtain ⟨rest, whole⟩ := under
  have some : root.components ≠ [] := fun none => filled (components_eq_nil.mp none)
  have long : p.leading.length ≤ root.components.length :=
    (length_leading_le p).trans (List.length_pos_iff.mpr some)
  have behind : rest = p.components.drop root.components.length := by rw [← whole, List.drop_left]
  rw [p.components_eq, List.drop_append, List.drop_eq_nil_of_le long, List.nil_append,
    ← List.map_drop] at behind
  exact ⟨_, by rw [← whole, behind]⟩

theorem map_componentOf_of_flat {ss : List (List Char)}
    (flat : Component.parent ∉ ss.map componentOf) :
    ss.map componentOf = (ss.map String.ofList).map Component.normal := by
  rw [List.map_map]
  refine List.map_congr_left fun s hs => ?_
  have name : s ≠ ['.', '.'] := by
    rintro rfl
    exact flat (List.mem_map_of_mem hs)
  rw [componentOf, if_neg name]
  rfl

theorem exists_names_behind {root p : Path} (absolute : root.isAbsolute = true)
    (under : root.components <+: p.components) (flat : Component.parent ∉ p.components) :
    ∃ names : List String, p.components = root.components ++ names.map Component.normal := by
  have filled : root.text ≠ "" := fun empty => by
    rw [isAbsolute, empty] at absolute
    cases absolute
  obtain ⟨ss, whole⟩ := exists_steps_behind filled under
  rw [whole, List.mem_append, not_or] at flat
  exact ⟨ss.map String.ofList, by rw [whole, map_componentOf_of_flat flat.2]⟩

theorem exists_names_of_steps {p : Path} (flat : Component.parent ∉ p.components) :
    ∃ names : List String, p.steps.map componentOf = names.map Component.normal := by
  rw [components_eq, List.mem_append, not_or] at flat
  exact ⟨_, map_componentOf_of_flat flat.2⟩

theorem bodyComponents_append (as bs : List (List Char)) :
    bodyComponents (as ++ bs) = bodyComponents as ++ bodyComponents bs := by
  simp [bodyComponents]

theorem bodyComponents_cons (s : List Char) (body : List (List Char)) :
    bodyComponents (s :: body) =
      if isVoid s then bodyComponents body else componentOf s :: bodyComponents body := by
  unfold bodyComponents
  by_cases h : isVoid s = true <;> simp [h]

namespace Parts

/-- Parts that read back from their text mean what the text means. -/
theorem Sound.components_path {ps : Parts} (h : ps.Sound) : ps.path.components = ps.components := by
  obtain ⟨slashless, named⟩ := h
  obtain ⟨lead, body⟩ := ps
  have read (filled : body ≠ []) : segments (joinSegments body) = body :=
    segments_joinSegments filled slashless
  rw [components_eq, leading, steps, meant, isAbsolute, path, chars, String.toList_ofList]
  cases lead with
  | root =>
    have apart : segments ('/' :: joinSegments body) = [] :: segments (joinSegments body) := rfl
    cases body with
    | nil => simp [components, bodyComponents, joinSegments, segments]
    | cons s ss => simp [apart, read, components, bodyComponents]
  | current =>
    cases body with
    | nil => simp [components, bodyComponents, segments]
    | cons s ss =>
      have apart : segments ('.' :: '/' :: joinSegments (s :: ss)) = ['.'] :: s :: ss := by
        rw [← List.singleton_append, segments_append_slash, read (List.cons_ne_nil s ss)]
        rfl
      simp [apart, components, bodyComponents]
  | none =>
    cases body with
    | nil => simp [components, bodyComponents, joinSegments, segments]
    | cons s ss =>
      have first : isVoid s = false := named rfl s rfl
      have text := read (List.cons_ne_nil s ss)
      have relative : (joinSegments (s :: ss)).head? ≠ some '/' := by
        intro slash
        obtain ⟨ds, eq⟩ := List.head?_eq_some_iff.mp slash
        rw [eq] at text
        obtain ⟨rfl, -⟩ := List.cons.inj text
        cases first
      have plain : s ≠ ['.'] := by
        rintro rfl
        cases first
      simp [relative, text, plain, components, bodyComponents]

theorem Sound.of_prefix {lead : Lead} {body short : List (List Char)} (h : Sound ⟨lead, body⟩)
    (hs : short <+: body) : Sound ⟨lead, short⟩ where
  slashless := fun s hs' => h.slashless s (hs.subset hs')
  named := by
    intro hl s hs'
    obtain ⟨rest, rfl⟩ := hs
    refine h.named hl s ?_
    rw [Option.mem_def] at hs' ⊢
    rw [List.head?_append, hs', Option.some_or]

theorem exists_trimEnd (ps : Parts) :
    ∃ voids, ps.body = ps.trimEnd.body ++ voids ∧ (∀ s ∈ voids, isVoid s = true) := by
  refine ⟨(ps.body.reverse.takeWhile isVoid).reverse, ?_, ?_⟩
  · rw [trimEnd, ← List.reverse_append, List.takeWhile_append_dropWhile, List.reverse_reverse]
  · intro s hs
    exact List.mem_takeWhile_imp (List.mem_reverse.mp hs)

theorem bodyComponents_of_voids {voids : List (List Char)} (h : ∀ s ∈ voids, isVoid s = true) :
    bodyComponents voids = [] := by
  simpa [bodyComponents] using h

theorem components_trimEnd (ps : Parts) : ps.trimEnd.components = ps.components := by
  obtain ⟨voids, body, none⟩ := ps.exists_trimEnd
  have same : bodyComponents ps.body = bodyComponents ps.trimEnd.body := by
    rw [body, bodyComponents_append, bodyComponents_of_voids none, List.append_nil]
  unfold components
  rw [same]
  rfl

theorem Sound.trimEnd {ps : Parts} (h : ps.Sound) : ps.trimEnd.Sound := by
  obtain ⟨voids, body, -⟩ := ps.exists_trimEnd
  have start : ps.trimEnd.body <+: ps.body := ⟨voids, body.symm⟩
  have whole : Sound ⟨ps.lead, ps.body⟩ := h
  exact whole.of_prefix start

theorem Sound.components_trimEnd_path {ps : Parts} (h : ps.Sound) :
    ps.trimEnd.path.components = ps.components := by
  rw [h.trimEnd.components_path, components_trimEnd]

theorem components_concat {lead : Lead} {before : List (List Char)} {s : List Char}
    (named : isVoid s = false) : (Parts.mk lead (before ++ [s])).components =
      (Parts.mk lead before).components ++ [componentOf s] := by
  have own : bodyComponents [s] = [componentOf s] := by
    simp [bodyComponents, named]
  cases lead <;> simp [components, bodyComponents_append, own]

theorem not_isVoid_getLast {ps : Parts} {s : List Char} {before : List (List Char)}
    (h : ps.trimEnd.body.reverse = s :: before) : isVoid s = false := by
  rw [trimEnd, List.reverse_reverse] at h
  have head := List.head?_dropWhile_not isVoid ps.body.reverse
  rw [h, List.head?_cons] at head
  simpa using head

end Parts

@[simp] theorem components_empty : components ⟨""⟩ = [] := rfl

theorem same_iff {p q : Path} : p.same q = true ↔ p.components = q.components := by
  rw [same, beq_iff_eq]

theorem startsWith_iff {p base : Path} :
    p.startsWith base = true ↔ base.components <+: p.components := by
  rw [startsWith, List.isPrefixOf_iff_prefix]

theorem parent?_eq_some {p q : Path} (h : p.parent? = some q) :
    p.components ≠ [] ∧ q.components = p.components.dropLast := by
  have sound := (sound_parts p).trimEnd
  have whole : p.parts.trimEnd.components = p.components := Parts.components_trimEnd p.parts
  rw [← whole]
  revert h
  unfold parent?
  dsimp only
  rcases trimmed : p.parts.trimEnd with ⟨lead, body⟩
  rw [trimmed] at sound
  rcases reversed : body.reverse with _ | ⟨s, before⟩
  · obtain rfl := List.reverse_eq_nil_iff.mp reversed
    cases lead with
    | root => exact fun h => nomatch h
    | none => exact fun h => nomatch h
    | current =>
      rintro ⟨⟩
      exact ⟨by simp [Parts.components], rfl⟩
  · have ends : p.parts.trimEnd.body.reverse = s :: before := by
      rw [trimmed]
      exact reversed
    have last : isVoid s = false := Parts.not_isVoid_getLast ends
    obtain rfl : body = before.reverse ++ [s] := by
      rw [← List.reverse_reverse body, reversed, List.reverse_cons]
    have above : Parts.Sound ⟨lead, before.reverse⟩ :=
      sound.of_prefix (List.prefix_append before.reverse [s])
    rw [Parts.components_concat last, List.dropLast_concat, ← above.components_trimEnd_path]
    cases lead with
    | root => rintro ⟨⟩; exact ⟨by simp, rfl⟩
    | current => rintro ⟨⟩; exact ⟨by simp, rfl⟩
    | none => rintro ⟨⟩; exact ⟨by simp, rfl⟩

theorem exists_trimEnd_concat {p : Path} {cs : List Component} {name : String}
    (h : p.components = cs ++ [.normal name]) :
    ∃ before, p.parts.trimEnd = ⟨p.parts.lead, before ++ [name.toList]⟩ ∧
      (Parts.mk p.parts.lead before).components = cs := by
  have whole : p.parts.trimEnd.components = p.components := Parts.components_trimEnd p.parts
  rw [h] at whole
  have lead : p.parts.trimEnd.lead = p.parts.lead := rfl
  rcases trimmed : p.parts.trimEnd with ⟨lead', body⟩
  rw [trimmed] at whole lead
  obtain rfl : lead' = p.parts.lead := lead
  rcases reversed : body.reverse with _ | ⟨s, before⟩
  · obtain rfl := List.reverse_eq_nil_iff.mp reversed
    cases kind : p.parts.lead <;> rw [kind] at whole <;> cases cs <;>
      simp [Parts.components, bodyComponents] at whole
  · have last : isVoid s = false :=
      Parts.not_isVoid_getLast (by rw [trimmed]; exact reversed)
    obtain rfl : body = before.reverse ++ [s] := by
      rw [← List.reverse_reverse body, reversed, List.reverse_cons]
    rw [Parts.components_concat last] at whole
    obtain ⟨front, named⟩ := List.append_inj' whole rfl
    have step := congrArg Component.step? (List.singleton_inj.mp named)
    rw [step?_componentOf, Component.step?, Option.some.injEq] at step
    exact ⟨before.reverse, by rw [step], front⟩

theorem parent?_isSome {p : Path} {cs : List Component} {name : String}
    (h : p.components = cs ++ [.normal name]) :
    ∃ q, p.parent? = some q ∧ q.components = cs := by
  obtain ⟨before, trimmed, -⟩ := exists_trimEnd_concat h
  have above : ∃ q, p.parent? = some q := by
    unfold parent?
    dsimp only
    rw [trimmed, List.reverse_concat]
    cases p.parts.lead <;> exact ⟨_, rfl⟩
  obtain ⟨q, above⟩ := above
  refine ⟨q, above, ?_⟩
  rw [(parent?_eq_some above).2, h, List.dropLast_concat]

theorem fileName?_of_components {p : Path} {cs : List Component} {name : String}
    (h : p.components = cs ++ [.normal name]) : p.fileName? = some name := by
  rw [fileName?, h, List.getLast?_concat]

theorem exists_of_fileName? {p : Path} {name : String} (h : p.fileName? = some name) :
    ∃ cs, p.components = cs ++ [.normal name] := by
  unfold fileName? at h
  split at h
  · rename_i last
    cases h
    exact List.getLast?_eq_some_iff.mp last
  · cases h

theorem dropBody?_spec (body : List (List Char)) (cs : List Component) :
    match dropBody? body cs with
    | some rest => rest <:+ body ∧ bodyComponents body = cs ++ bodyComponents rest
    | none => ¬ cs <+: bodyComponents body := by
  induction body generalizing cs with
  | nil =>
    cases cs with
    | nil => exact ⟨List.suffix_rfl, rfl⟩
    | cons c cs => simp [dropBody?, bodyComponents]
  | cons s body ih =>
    cases cs with
    | nil => exact ⟨List.suffix_rfl, rfl⟩
    | cons c cs =>
      rw [dropBody?, bodyComponents_cons]
      by_cases void : isVoid s = true
      · rw [if_pos void, if_pos void]
        have below := ih (c :: cs)
        cases h : dropBody? body (c :: cs) with
        | none => rw [h] at below; exact below
        | some rest => rw [h] at below; exact ⟨below.1.trans (List.suffix_cons s body), below.2⟩
      · rw [if_neg void, if_neg void]
        by_cases same : componentOf s = c
        · rw [if_pos same, same]
          have below := ih cs
          cases h : dropBody? body cs with
          | none => rw [h] at below; simpa using below
          | some rest =>
            rw [h] at below
            exact ⟨below.1.trans (List.suffix_cons s body), by rw [below.2, List.cons_append]⟩
        · rw [if_neg same]
          simp [Ne.symm same]

theorem components_dropped {lead : Lead} {body rest : List (List Char)}
    (sound : Parts.Sound ⟨lead, body⟩) (h : rest <:+ body) :
    (Parts.trimEnd ⟨.none, rest.dropWhile isVoid⟩).path.components = bodyComponents rest := by
  have inside : ∀ s ∈ rest.dropWhile isVoid, s ∈ body := fun s hs =>
    h.subset ((List.dropWhile_suffix isVoid).subset hs)
  have left : Parts.Sound ⟨.none, rest.dropWhile isVoid⟩ := by
    refine ⟨fun s hs => sound.slashless s (inside s hs), fun _ s hs => ?_⟩
    have head := List.head?_dropWhile_not isVoid rest
    rw [Option.mem_def.mp hs] at head
    simpa using head
  have voids : bodyComponents (rest.takeWhile isVoid) = [] :=
    Parts.bodyComponents_of_voids fun s hs => List.mem_takeWhile_imp hs
  rw [left.components_trimEnd_path]
  calc
    bodyComponents (rest.dropWhile isVoid)
      = bodyComponents (rest.takeWhile isVoid) ++ bodyComponents (rest.dropWhile isVoid) := by
        rw [voids, List.nil_append]
    _ = bodyComponents rest := by
        rw [← bodyComponents_append, List.takeWhile_append_dropWhile]

theorem dropped_spec {lead : Lead} {body : List (List Char)} (sound : Parts.Sound ⟨lead, body⟩)
    (cs : List Component) :
    match (dropBody? body cs).map fun rest =>
      (Parts.trimEnd ⟨.none, rest.dropWhile isVoid⟩).path with
    | some rest => bodyComponents body = cs ++ rest.components
    | none => ¬ cs <+: bodyComponents body := by
  have spec := dropBody?_spec body cs
  cases h : dropBody? body cs with
  | none => rw [h] at spec; exact spec
  | some rest =>
    rw [h] at spec
    exact spec.2.trans (congrArg (cs ++ ·) (components_dropped sound spec.1).symm)

/-- Stripping a base off succeeds just where the components of the base come first, and
leaves the other components. -/
theorem stripPrefix?_spec (p base : Path) :
    match p.stripPrefix? base with
    | some rest => p.components = base.components ++ rest.components
    | none => ¬ base.components <+: p.components := by
  have sound := sound_parts p
  unfold stripPrefix?
  cases base.components with
  | nil =>
    dsimp only
    rw [List.nil_append, sound.components_trimEnd_path, components_eq_parts]
  | cons c cs =>
    dsimp only
    rw [components_eq_parts]
    generalize p.parts = ps at sound ⊢
    obtain ⟨lead, body⟩ := ps
    have behind := dropped_spec sound cs
    have all := dropped_spec sound (c :: cs)
    cases lead with
    | root =>
      cases c with
      | root => simpa [Parts.components] using behind
      | _ => simp [Parts.components]
    | current =>
      cases c with
      | current => simpa [Parts.components] using behind
      | _ => simp [Parts.components]
    | none => exact all

theorem components_of_stripPrefix? {p base rest : Path} (h : p.stripPrefix? base = some rest) :
    p.components = base.components ++ rest.components := by
  have split := stripPrefix?_spec p base
  rwa [h] at split

/-- What stands behind a prefix is left when the prefix is stripped. -/
theorem exists_stripPrefix? {p base : Path} {cs : List Component}
    (h : p.components = base.components ++ cs) :
    ∃ rest, p.stripPrefix? base = some rest ∧ rest.components = cs := by
  have split := stripPrefix?_spec p base
  cases stripped : p.stripPrefix? base with
  | none =>
    rw [stripped, h] at split
    exact absurd (List.prefix_append _ _) split
  | some rest =>
    rw [stripped, h] at split
    exact ⟨rest, rfl, (List.append_cancel_left split).symm⟩

/-- A relative path is joined to a path behind a slash of its own or of the path's. -/
theorem exists_join {p q : Path} (filled : p.text ≠ "") (relative : q.isAbsolute = false) :
    ∃ front, (p.join q).text.toList = front ++ '/' :: q.text.toList ∧
      (p.text.toList = front ∨ p.text.toList = front ++ ['/']) := by
  rw [join, relative, if_neg Bool.false_ne_true]
  have nonempty : p.text.isEmpty = false := by simpa using filled
  rw [nonempty, Bool.false_or]
  by_cases closed : (p.text.toList.getLast? == some '/') = true
  · rw [if_pos closed]
    obtain ⟨front, text⟩ := List.getLast?_eq_some_iff.mp (beq_iff_eq.mp closed)
    exact ⟨front, by simp [text], .inr text⟩
  · rw [if_neg closed]
    exact ⟨p.text.toList, by simp, .inl rfl⟩

theorem steps_join {p q : Path} (filled : p.text ≠ "") (relative : q.isAbsolute = false) :
    (p.join q).steps = p.steps ++ q.steps := by
  obtain ⟨front, joined, text⟩ := exists_join filled relative
  have behind : meant (segments (front ++ ['/'])) = meant (segments front) := by
    rw [segments_append_slash, meant_append, segments, meant_cons_of_void rfl]
    exact List.append_nil _
  rw [steps, steps, steps, joined, segments_append_slash, meant_append]
  rcases text with text | text
  · rw [text]
  · rw [text, behind]

theorem isAbsolute_join {p q : Path} (filled : p.text ≠ "") (relative : q.isAbsolute = false) :
    (p.join q).isAbsolute = p.isAbsolute := by
  obtain ⟨front, joined, text⟩ := exists_join filled relative
  have chars : p.text.toList ≠ [] := fun none => filled (String.toList_injective none)
  rw [isAbsolute, isAbsolute, joined]
  rcases text with text | text
  · rw [text] at chars ⊢
    rw [List.head?_append_of_ne_nil _ chars]
  · rw [text]
    cases front <;> rfl

theorem leading_join {p q : Path} (filled : p.text ≠ "") (relative : q.isAbsolute = false) :
    (p.join q).leading = p.leading := by
  obtain ⟨front, joined, text⟩ := exists_join filled relative
  have split := segments_append_slash front q.text.toList
  have closed := segments_append_slash front []
  obtain ⟨s, ss, start⟩ := List.exists_cons_of_ne_nil (segments_ne_nil front)
  have first : (segments (p.join q).text.toList).head? = (segments p.text.toList).head? := by
    rw [joined, split, start]
    rcases text with text | text
    · rw [text, start]; rfl
    · rw [text, closed, start]; rfl
  rw [leading, leading, isAbsolute_join filled relative, first]

theorem components_join {p q : Path} (filled : p.text ≠ "") (relative : q.isAbsolute = false) :
    (p.join q).components = p.components ++ q.steps.map componentOf := by
  rw [components_eq, components_eq, leading_join filled relative, steps_join filled relative,
    List.map_append, List.append_assoc]

def IsPlain (name : String) : Prop :=
  isVoid name.toList = false ∧ name.toList ≠ ['.', '.'] ∧ '/' ∉ name.toList

instance (name : String) : Decidable (IsPlain name) := by
  unfold IsPlain
  infer_instance

theorem isPlain_of_mem_components {p : Path} {name : String} (h : .normal name ∈ p.components) :
    IsPlain name := by
  have step : name.toList ∈ p.steps := by
    rw [steps_eq_filterMap]
    exact List.mem_filterMap.mpr ⟨_, h, rfl⟩
  refine ⟨not_isVoid_of_mem_steps step, ?_, not_mem_of_mem_steps step⟩
  intro up
  rw [components_eq, List.mem_append, List.mem_map] at h
  rcases h with h | ⟨s, -, h⟩
  · rw [leading] at h
    split at h
    · simp at h
    · split at h <;> simp at h
  · rw [componentOf] at h
    split at h
    · cases h
    · rename_i other
      cases h
      rw [String.toList_ofList] at up
      exact other up

theorem isPlain_of_fileName? {p : Path} {name : String} (h : p.fileName? = some name) :
    IsPlain name := by
  obtain ⟨cs, components⟩ := exists_of_fileName? h
  exact isPlain_of_mem_components (components ▸ List.mem_append_right cs List.mem_cons_self)

namespace IsPlain

variable {name : String} (h : IsPlain name)

include h

theorem segments_eq : segments name.toList = [name.toList] := segments_of_not_mem h.2.2

theorem isAbsolute_eq : isAbsolute ⟨name⟩ = false := by
  rw [isAbsolute, ← Bool.not_eq_true, beq_iff_eq]
  intro slash
  exact h.2.2 (List.mem_of_head? slash)

theorem steps_eq : steps ⟨name⟩ = [name.toList] := by
  rw [steps, h.segments_eq, meant_cons h.1]
  rfl

theorem componentOf_eq : componentOf name.toList = .normal name := by
  rw [componentOf, if_neg h.2.1, String.ofList_toList]

theorem components_eq : components ⟨name⟩ = [.normal name] := by
  have leads : leading ⟨name⟩ = [] := by
    have named : name.toList ≠ ['.'] := fun dot => by
      have filled := h.1
      rw [dot] at filled
      cases filled
    rw [leading, h.isAbsolute_eq, h.segments_eq]
    simpa using named
  rw [Path.components_eq, leads, h.steps_eq, List.map_singleton, h.componentOf_eq, List.nil_append]

theorem components_join (p : Path) :
    (p.join ⟨name⟩).components = p.components ++ [.normal name] := by
  by_cases empty : p.text = ""
  · have same : p.join ⟨name⟩ = ⟨name⟩ := by
      rw [join, h.isAbsolute_eq, if_neg Bool.false_ne_true, empty]
      simp
    have none : p.components = [] := by
      obtain ⟨text⟩ := p
      dsimp only at empty
      rw [empty, components_empty]
    rw [same, h.components_eq, none, List.nil_append]
  · rw [Path.components_join empty h.isAbsolute_eq, h.steps_eq, List.map_singleton,
      h.componentOf_eq]

theorem steps_join (p : Path) : (p.join ⟨name⟩).steps = p.steps ++ [name.toList] := by
  rw [steps_eq_filterMap, h.components_join, List.filterMap_append, ← steps_eq_filterMap]
  rfl

theorem isAbsolute_join (p : Path) : (p.join ⟨name⟩).isAbsolute = p.isAbsolute := by
  rw [Bool.eq_iff_iff, ← head?_components_eq_root, ← head?_components_eq_root, h.components_join]
  cases p.components <;> simp

end IsPlain

/-- A path of names is joined by appending the names. -/
theorem components_join_names {p q : Path} {names : List String}
    (h : q.components = names.map Component.normal) :
    (p.join q).components = p.components ++ names.map Component.normal := by
  have relative : q.isAbsolute = false := by
    rw [← Bool.not_eq_true, ← head?_components_eq_root, h]
    cases names <;> simp
  have plain : ∀ n ∈ names, IsPlain n := fun n hn =>
    isPlain_of_mem_components (p := q) (h ▸ List.mem_map_of_mem hn)
  by_cases empty : p.text = ""
  · have same : p.join q = q := by
      rw [join, relative, if_neg Bool.false_ne_true, empty]
      simp
    rw [same, h, components_eq_nil.mpr empty, List.nil_append]
  have named :
      names.filterMap (fun n => some (componentOf n.toList)) = names.map Component.normal := by
    rw [List.filterMap_eq_map']
    exact List.map_congr_left fun n hn => (plain n hn).componentOf_eq
  rw [components_join empty relative, steps_eq_filterMap, h, List.filterMap_map,
    List.map_filterMap]
  exact congrArg _ named

theorem components_withoutExtension {p : Path} {cs : List Component} {name : String}
    (h : p.components = cs ++ [.normal name]) (plain : IsPlain (splitName name).1) :
    p.withoutExtension.components = cs ++ [.normal (splitName name).1] := by
  obtain ⟨before, trimmed, front⟩ := exists_trimEnd_concat h
  have sound : Parts.Sound ⟨p.parts.lead, before ++ [name.toList]⟩ :=
    trimmed ▸ (sound_parts p).trimEnd
  have stemmed : Parts.Sound ⟨p.parts.lead, before ++ [(splitName name).1.toList]⟩ := by
    refine ⟨fun s hs => ?_, fun none s hs => ?_⟩
    · rcases List.mem_append.mp hs with hs | hs
      · exact sound.slashless s (List.mem_append_left _ hs)
      · exact List.mem_singleton.mp hs ▸ plain.2.2
    · cases before with
      | nil =>
        cases hs
        exact plain.1
      | cons t ts => exact sound.named none s hs
  rw [withoutExtension, fileName?_of_components h, trimmed]
  dsimp only
  rw [List.dropLast_concat, stemmed.components_path, Parts.components_concat plain.1, front,
    plain.componentOf_eq]

theorem splitName_of_extension {stem extension : String} (filled : stem ≠ "")
    (dotless : '.' ∉ extension.toList) :
    splitName (stem ++ "." ++ extension) = (stem, some extension) := by
  obtain ⟨c, cs, chars⟩ := List.exists_cons_of_ne_nil (l := stem.toList.reverse)
    (by simpa using filled)
  have reversed : (stem ++ "." ++ extension).toList.reverse =
      extension.toList.reverse ++ '.' :: c :: cs := by
    simp [chars]
  have others : ∀ c ∈ extension.toList.reverse, (c != '.') = true := by
    intro c hc
    exact bne_iff_ne.mpr fun dot => dotless (dot ▸ List.mem_reverse.mp hc)
  have taken : (extension.toList.reverse ++ '.' :: c :: cs).takeWhile (· != '.') =
      extension.toList.reverse := by
    rw [List.takeWhile_append_of_pos others]
    simp
  have dropped : (extension.toList.reverse ++ '.' :: c :: cs).dropWhile (· != '.') =
      '.' :: c :: cs := by
    rw [List.dropWhile_append_of_pos others]
    rfl
  have whole : String.ofList (c :: cs).reverse = stem := by
    rw [← chars, List.reverse_reverse, String.ofList_toList]
  simp only [splitName, reversed, taken, dropped]
  rw [whole, List.reverse_reverse, String.ofList_toList]

theorem exists_of_splitName {name extension : String}
    (h : (splitName name).2 = some extension) :
    ∃ stem, stem ≠ "" ∧ name = stem ++ "." ++ extension := by
  have parts := List.takeWhile_append_dropWhile (p := (· != '.')) (l := name.toList.reverse)
  simp only [splitName] at h
  split at h
  · rename_i d c cs dropped
    have dot : d = '.' := by
      have first := List.head?_dropWhile_not (· != '.') name.toList.reverse
      simpa [dropped] using first
    rw [dropped, dot] at parts
    obtain rfl := Option.some.inj h
    generalize name.toList.reverse.takeWhile (· != '.') = behind at *
    refine ⟨String.ofList (c :: cs).reverse, by simp, String.toList_injective ?_⟩
    have whole := congrArg List.reverse parts
    rw [List.reverse_reverse] at whole
    rw [← whole]
    simp
  · cases h

end HybridTemplate.Path
