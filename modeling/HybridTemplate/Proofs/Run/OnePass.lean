import HybridTemplate.Proofs.Run

set_option autoImplicit false

namespace HybridTemplate

variable {κ : Type}

namespace Run

theorem items_asValue (rs : List (Run κ)) : (asValue rs).items = rs := by
  rw [asValue, Value.items, Value.itemsAll_eq, List.flatMap_map]
  exact List.flatMap_singleton' rs

theorem texts_asValue (rs : List (Run κ)) : (asValue rs).texts = [] := by
  rw [asValue, Value.texts, Value.textsAll_eq, List.flatMap_map]
  exact List.flatMap_eq_nil_iff.mpr fun _ _ => rfl

theorem canonical_nil : Canonical ([] : List (Run κ)) := ⟨fun _ => nofun, .nil⟩

end Run

theorem firstText?_eq_some_iff {v : Value (Run κ)} {s : String} :
    v.firstText? = some s ↔
      s ≠ "" ∧ ∃ before after, v.texts = before ++ s :: after ∧ ∀ t ∈ before, t = "" := by
  simp [Value.firstText?, List.find?_eq_some_iff_append]

variable [DecidableEq κ]

namespace Run

theorem text_ne_of_mem_append {rs : List (Run κ)} {r s : Run κ} (h : ∀ u ∈ rs, u.text ≠ "")
    (hs : s ∈ append rs r) : s.text ≠ "" := by
  fun_induction append rs r with
  | case1 r void => cases hs
  | case2 r filled =>
    obtain rfl := List.mem_singleton.mp hs
    exact filled
  | case3 u r void => exact h s hs
  | case4 u r filled same =>
    obtain rfl := List.mem_singleton.mp hs
    simp [filled]
  | case5 u r filled differs =>
    rcases List.mem_cons.mp hs with rfl | last
    · exact h s List.mem_cons_self
    · obtain rfl := List.mem_singleton.mp last
      exact filled
  | case6 u t rs r ih =>
    rcases List.mem_cons.mp hs with rfl | later
    · exact h s List.mem_cons_self
    · exact ih (fun v hv => h v (List.mem_cons_of_mem u hv)) later

theorem head?_append {rs : List (Run κ)} (r : Run κ) (filled : rs ≠ []) :
    (append rs r).head?.map kind = rs.head?.map kind := by
  fun_cases append rs r with
  | case1 => exact absurd rfl filled
  | case2 => exact absurd rfl filled
  | case3 => rfl
  | case4 => rfl
  | case5 => rfl
  | case6 => rfl

theorem isChain_append {rs : List (Run κ)} (r : Run κ)
    (h : rs.IsChain fun s t => s.kind ≠ t.kind) :
    (append rs r).IsChain fun s t => s.kind ≠ t.kind := by
  fun_induction append rs r with
  | case1 => exact .nil
  | case2 r _ => exact .singleton r
  | case3 => exact h
  | case4 => exact .singleton _
  | case5 u r _ differs => exact .cons_cons differs (.singleton r)
  | case6 u t rs r ih =>
    obtain ⟨differs, rest⟩ := List.isChain_cons_cons.mp h
    have grown := ih rest
    have first := head?_append r (List.cons_ne_nil t rs)
    cases longer : append (t :: rs) r with
    | nil =>
      rw [longer] at first
      cases first
    | cons v vs =>
      rw [longer] at first grown
      have kind : v.kind = t.kind := Option.some.inj first
      exact .cons_cons (kind ▸ differs) grown

theorem Canonical.append {rs : List (Run κ)} (h : Canonical rs) (r : Run κ) :
    Canonical (append rs r) :=
  ⟨fun _ hs => text_ne_of_mem_append h.filled hs, isChain_append r h.apart⟩

theorem expansion_append (rs : List (Run κ)) (r : Run κ) :
    expansion (append rs r) = expansion rs ++ r.text.toList.map fun c => (r.kind, c) := by
  fun_induction append rs r with
  | case1 r void => simp [void]
  | case2 r _ => simp
  | case3 u r void => simp [void]
  | case4 u r _ same => simp [same]
  | case5 u r _ _ => simp
  | case6 u t rs r ih => rw [expansion_cons, ih, expansion_cons u, List.append_assoc]

/-- Runs that are appended one after another to canonical ones keep the form, and each
character keeps its kind. -/
theorem foldl_append_spec (rs : List (Run κ)) {sofar : List (Run κ)} (h : Canonical sofar) :
    Canonical (rs.foldl append sofar) ∧
      expansion (rs.foldl append sofar) = expansion sofar ++ expansion rs := by
  induction rs generalizing sofar with
  | nil => exact ⟨h, (List.append_nil _).symm⟩
  | cons r rs ih =>
    obtain ⟨canonical, same⟩ := ih (h.append r)
    rw [expansion_append, List.append_assoc, ← expansion_cons] at same
    exact ⟨canonical, same⟩

theorem foldl_append_eq_coalesce (rs : List (Run κ)) : rs.foldl append [] = coalesce rs :=
  eq_coalesce_iff.mpr (foldl_append_spec rs canonical_nil)

end Run

mutual

/-- Takes the items of a value into the runs so far, one after another; a text that is not
empty ends the pass. -/
def mergeInto (sofar : List (Run κ)) : Value (Run κ) → Except CompileError (List (Run κ))
  | .empty => .ok sofar
  | .text s => if s = "" then .ok sofar else .error (.untypedFragment s)
  | .list vs => mergeAllInto sofar vs
  | .item r => .ok (Run.append sofar r)

def mergeAllInto (sofar : List (Run κ)) :
    List (Value (Run κ)) → Except CompileError (List (Run κ))
  | [] => .ok sofar
  | v :: vs => do
    let longer ← mergeInto sofar v
    mergeAllInto longer vs

end

def passed (texts : List String) (items sofar : List (Run κ)) :
    Except CompileError (List (Run κ)) :=
  match texts.find? fun s => s ≠ "" with
  | some s => .error (.untypedFragment s)
  | none => .ok (items.foldl Run.append sofar)

theorem passed_append (texts texts' : List String) (items items' sofar : List (Run κ)) :
    passed (texts ++ texts') (items ++ items') sofar =
      (do passed texts' items' (← passed texts items sofar)) := by
  unfold passed
  rw [List.find?_append, List.foldl_append]
  cases texts.find? fun s => s ≠ "" with
  | none => rfl
  | some s => rfl

mutual

theorem mergeInto_eq (sofar : List (Run κ)) (v : Value (Run κ)) :
    mergeInto sofar v = passed v.texts v.items sofar := by
  match v with
  | .empty => rfl
  | .text s => by_cases void : s = "" <;> simp [mergeInto, passed, Value.texts, Value.items, void]
  | .list vs => exact mergeAllInto_eq sofar vs
  | .item r => rfl

theorem mergeAllInto_eq (sofar : List (Run κ)) (vs : List (Value (Run κ))) :
    mergeAllInto sofar vs = passed (Value.textsAll vs) (Value.itemsAll vs) sofar := by
  match vs with
  | [] => rfl
  | v :: vs =>
    rw [Value.textsAll, Value.itemsAll, passed_append, mergeAllInto, mergeInto_eq sofar v]
    exact congrArg _ (funext fun longer => mergeAllInto_eq longer vs)

end

theorem merge_eq_mergeInto (v : Value (Run κ)) : merge v = mergeInto [] v := by
  have whole : passed v.texts v.items [] = merge v := by
    unfold passed merge Value.firstText?
    cases v.texts.find? fun s => s ≠ "" with
    | none => exact congrArg Except.ok (Run.foldl_append_eq_coalesce v.items)
    | some s => rfl
  rw [mergeInto_eq, whole]

theorem merge_asValue {rs : List (Run κ)} (h : Run.Canonical rs) :
    merge (Run.asValue rs) = .ok rs := by
  rw [merge_eq_ok_iff, Run.texts_asValue, Run.items_asValue, Run.eq_coalesce_iff]
  exact ⟨fun _ => nofun, h, rfl⟩

theorem merge_congr {v w : Value (Run κ)} (typed : ∀ s ∈ v.texts, s = "")
    (typed' : ∀ s ∈ w.texts, s = "")
    (same : Run.expansion w.items = Run.expansion v.items) : merge w = merge v := by
  have done : merge v = .ok (Run.coalesce v.items) := merge_eq_ok_iff.mpr ⟨typed, rfl⟩
  rw [done, merge_eq_ok_iff, Run.eq_coalesce_iff, same]
  exact ⟨typed', Run.canonical_coalesce v.items, Run.expansion_coalesce v.items⟩

/-- Merging fails at the first text without a kind, and otherwise gives the only runs in
canonical form with the kinds of the items' characters; a pass from left to right does the
same. -/
theorem merge_canonical (v : Value (Run κ)) :
    merge v = mergeInto [] v ∧
      (∀ e, merge v = .error e ↔
        ∃ s before after, e = .untypedFragment s ∧ s ≠ "" ∧
          v.texts = before ++ s :: after ∧ ∀ t ∈ before, t = "") ∧
      (∀ rs, merge v = .ok rs ↔
        (∀ s ∈ v.texts, s = "") ∧ Run.Canonical rs ∧
          Run.expansion rs = Run.expansion v.items) ∧
      (∀ rs, merge v = .ok rs →
        Run.concat rs = Run.concat v.items ∧ merge (Run.asValue rs) = .ok rs) ∧
      ∀ w : Value (Run κ), (∀ s ∈ v.texts, s = "") → (∀ s ∈ w.texts, s = "") →
        Run.expansion w.items = Run.expansion v.items → merge w = merge v := by
  refine ⟨merge_eq_mergeInto v, fun e => ?_, fun rs => ?_, fun rs h => ?_, fun w => merge_congr⟩
  · rw [merge_eq_error_iff]
    constructor
    · rintro ⟨s, found, rfl⟩
      obtain ⟨filled, before, after, split, voids⟩ := firstText?_eq_some_iff.mp found
      exact ⟨s, before, after, rfl, filled, split, voids⟩
    · rintro ⟨s, before, after, rfl, filled, split, voids⟩
      exact ⟨s, firstText?_eq_some_iff.mpr ⟨filled, before, after, split, voids⟩, rfl⟩
  · rw [merge_eq_ok_iff, Run.eq_coalesce_iff]
  · obtain ⟨-, rfl⟩ := merge_eq_ok_iff.mp h
    exact ⟨Run.concat_coalesce v.items, merge_asValue (Run.canonical_coalesce v.items)⟩

/-- The same characters of the same kinds, once split and padded, once not. -/
theorem merge_canonical_padded :
    let v : Value (Run Category) := .list [.item ⟨.keyword, "let"⟩, .item ⟨.name, "é"⟩]
    let w : Value (Run Category) := .list [.text "", .list [.item ⟨.keyword, "le"⟩, .empty,
      .item ⟨.whitespace, ""⟩, .list [.item ⟨.keyword, "t"⟩]], .item ⟨.name, "é"⟩, .list []]
    (∀ s ∈ v.texts, s = "") ∧ (∀ s ∈ w.texts, s = "") ∧
      merge w = .ok [⟨.keyword, "let"⟩, ⟨.name, "é"⟩] ∧
      merge (Run.asValue [⟨.keyword, "let"⟩, ⟨.name, "é"⟩]) =
        .ok [(⟨.keyword, "let"⟩ : Run Category), ⟨.name, "é"⟩] := by
  intro v w
  have typed : ∀ s ∈ v.texts, s = "" := by decide
  have typed' : ∀ s ∈ w.texts, s = "" := by decide
  have done : merge v = .ok [⟨.keyword, "let"⟩, ⟨.name, "é"⟩] := rfl
  obtain ⟨-, -, -, fed, congr⟩ := merge_canonical v
  exact ⟨typed, typed', (congr w typed typed' (by decide)).trans done, (fed _ done).2⟩

end HybridTemplate
