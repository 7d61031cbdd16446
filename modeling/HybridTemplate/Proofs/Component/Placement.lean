import HybridTemplate.Proofs.Component.Handlers
import HybridTemplate.Proofs.Tree.Layout

set_option autoImplicit false

namespace HybridTemplate

namespace Value

variable {α β : Type}

mutual

def map (f : α → β) : Value α → Value β
  | empty => empty
  | text s => text s
  | list vs => list (mapAll f vs)
  | item a => item (f a)

def mapAll (f : α → β) : List (Value α) → List (Value β)
  | [] => []
  | v :: vs => v.map f :: mapAll f vs

end

theorem mapAll_eq (f : α → β) (vs : List (Value α)) : mapAll f vs = vs.map (map f) := by
  induction vs with
  | nil => rw [mapAll, List.map_nil]
  | cons v vs ih => rw [mapAll, ih, List.map_cons]

@[simp] theorem map_empty (f : α → β) : (empty : Value α).map f = empty := by rw [map]

@[simp] theorem map_text (f : α → β) (s : String) : (text s : Value α).map f = text s := by rw [map]

@[simp] theorem map_item (f : α → β) (a : α) : (item a).map f = item (f a) := by rw [map]

@[simp] theorem map_list (f : α → β) (vs : List (Value α)) :
    (list vs).map f = list (vs.map (map f)) := by
  rw [map, mapAll_eq]

mutual

theorem items_map (f : α → β) (v : Value α) : (v.map f).items = v.items.map f := by
  match v with
  | empty => rw [map, items, items, List.map_nil]
  | text s => rw [map, items, items, List.map_nil]
  | list vs => rw [map, items, items, itemsAll_mapAll f vs]
  | item a => rw [map, items, items, List.map_singleton]

theorem itemsAll_mapAll (f : α → β) (vs : List (Value α)) :
    itemsAll (mapAll f vs) = (itemsAll vs).map f := by
  match vs with
  | [] => rw [mapAll, itemsAll, itemsAll, List.map_nil]
  | v :: vs =>
    rw [mapAll, itemsAll, itemsAll, List.map_append, items_map f v, itemsAll_mapAll f vs]

end

mutual

theorem texts_map (f : α → β) (v : Value α) : (v.map f).texts = v.texts := by
  match v with
  | empty => rw [map, texts, texts]
  | text s => rw [map, texts, texts]
  | list vs => rw [map, texts, texts, textsAll_mapAll f vs]
  | item a => rw [map, texts, texts]

theorem textsAll_mapAll (f : α → β) (vs : List (Value α)) :
    textsAll (mapAll f vs) = textsAll vs := by
  match vs with
  | [] => rw [mapAll, textsAll, textsAll]
  | v :: vs => rw [mapAll, textsAll, textsAll, texts_map f v, textsAll_mapAll f vs]

end

@[simp] theorem joinedText_map (f : α → β) (v : Value α) : (v.map f).joinedText = v.joinedText := by
  rw [joinedText, joinedText, texts_map]

end Value

namespace Component

open Visit (outcome Alike alike_pure)

def ScriptItem.shift (k : Nat) : ScriptItem → ScriptItem
  | .embed offset code => .embed (offset + k) code
  | .name s => .name s

namespace Pending

def shift (k : Nat) (p : Pending) : Pending :=
  { p with embeds := p.embeds.map fun e => (e.1 + k, e.2) }

@[simp] theorem shift_empty (k : Nat) : empty.shift k = empty := rfl

@[simp] theorem isBound_shift (k : Nat) (p : Pending) (name : String) :
    (p.shift k).isBound name = p.isBound name := rfl

@[simp] theorem isPresentational_shift (k : Nat) (p : Pending) :
    (p.shift k).isPresentational = p.isPresentational := by
  simp [isPresentational, shift]

theorem bind_shift (k : Nat) (p : Pending) (kind : BindingKind) (name : String) :
    (p.shift k).bind kind name = (p.bind kind name).shift k := by
  cases kind <;> rfl

theorem addArg_shift (k : Nat) (p : Pending) (name : String) :
    (p.shift k).addArg name = (p.addArg name).shift k := by
  unfold addArg
  split <;> rfl

theorem addArgs_shift (k : Nat) (p : Pending) (items : List ScriptItem) :
    (p.shift k).addArgs (items.map (ScriptItem.shift k)) = (p.addArgs items).shift k := by
  unfold addArgs
  induction items generalizing p with
  | nil => rfl
  | cons item items ih =>
    cases item with
    | embed offset code => exact ih p
    | name s =>
      have rest := ih (p.addArg s)
      rw [← addArg_shift] at rest
      exact rest

theorem addEmbed_shift (k : Nat) (p : Pending) (v : Value ScriptItem) :
    (p.shift k).addEmbed (v.map (ScriptItem.shift k)) = (p.addEmbed v).shift k := by
  cases v with
  | empty => rw [Value.map_empty]; rfl
  | text s => rw [Value.map_text]; rfl
  | list vs => rw [Value.map_list]; rfl
  | item a =>
    rw [Value.map_item]
    cases a with
    | embed offset code => simp [ScriptItem.shift, addEmbed, shift]
    | name name => rfl

theorem addEmbeds_shift (k : Nat) (p : Pending) (vs : List (Value ScriptItem)) :
    (vs.map (Value.map (ScriptItem.shift k))).foldl addEmbed (p.shift k) =
      (vs.foldl addEmbed p).shift k := by
  induction vs generalizing p with
  | nil => rfl
  | cons v vs ih => rw [List.map_cons, List.foldl_cons, List.foldl_cons, addEmbed_shift, ih]

theorem descriptor_shift (k : Nat) (p : Pending) (name source : String) :
    (p.shift k).descriptor name source = p.descriptor name source := by
  have order : ∀ a ∈ p.embeds, ∀ b ∈ p.embeds,
      decide (a.1 ≤ b.1) = decide (a.1 + k ≤ b.1 + k) := by
    intro a _ b _
    exact decide_eq_decide.mpr Nat.add_le_add_iff_right.symm
  have sorted := List.map_mergeSort (s := fun a b => decide (a.1 ≤ b.1))
    (f := fun e : Nat × String => (e.1 + k, e.2)) order
  simp only [descriptor, shift]
  rw [← sorted, List.map_map]
  rfl

end Pending

/-- Two extractors that have gathered the same from trees that stand `k` bytes apart. -/
def GatheredApart (k : Nat) (x y : Extractor) : Prop := x.pending = y.pending.shift k

def StepApart (k : Nat) {β γ : Type} (R : β → γ → Prop) (m : Visit CompileError Extractor β)
    (l : Visit CompileError Extractor γ) : Prop :=
  Alike (GatheredApart k) (fun _ _ => True) R m l

def ValueApart (k : Nat) (v w : Value ScriptItem) : Prop := v = w.map (ScriptItem.shift k)

variable {k : Nat}

theorem stepApart_onPending {f g : Pending → Pending} (h : ∀ p, f (p.shift k) = (g p).shift k) :
    StepApart k (fun _ _ => True) (modify fun x : Extractor => x.onPending f)
      (modify fun x : Extractor => x.onPending g) := by
  intro x y gathered
  refine ⟨.ok trivial, ?_⟩
  have gathered : x.pending = y.pending.shift k := gathered
  change f x.pending = (g y.pending).shift k
  rw [gathered, h]

theorem stepApart_failIf {r q : Pending → Bool} (h : ∀ p, r (p.shift k) = q p)
    (e e' : Origin → CompileError) : StepApart k (fun _ _ => True) (failIf r e) (failIf q e') := by
  intro x y gathered
  have same : r x.pending = q y.pending := by
    rw [show x.pending = y.pending.shift k from gathered, h]
  rw [outcome_failIf, outcome_failIf, same]
  refine ⟨?_, gathered⟩
  by_cases refused : q y.pending = true
  · rw [if_pos refused, if_pos refused]
    exact .error trivial
  · rw [if_neg refused, if_neg refused]
    exact .ok trivial

theorem stepApart_pure {v w : Value ScriptItem} (h : v = w.map (ScriptItem.shift k)) :
    StepApart k (ValueApart k) (pure v) (pure w) :=
  alike_pure h

theorem childText_shift (n : Node) (kind : Kind) :
    childText (n.shift k) kind = childText n kind := by
  simp [childText, Function.comp_def]

theorem declaredName_shift (n : Node) : declaredName (n.shift k) = declaredName n := by
  have inHeader : ((n.shift k).child? .componentHeader).bind (·.find? .componentName) =
      ((n.child? .componentHeader).bind (·.find? .componentName)).map (Node.shift k) := by
    rw [Node.child?_shift]
    cases n.child? .componentHeader with
    | none => rfl
    | some header => exact Node.find?_shift k header .componentName
  unfold declaredName
  rw [inHeader, Node.find?_shift]
  dsimp only
  rw [← Option.map_or, Option.map_map]
  simp only [Function.comp_def, Node.shift_text]

theorem bindingTarget_map (v : Value ScriptItem) :
    bindingTarget (v.map (ScriptItem.shift k)) = bindingTarget v := by
  cases v with
  | empty => rw [Value.map_empty]
  | text s => rw [Value.map_text]
  | list vs => rw [Value.map_list]; rfl
  | item a => rw [Value.map_item]; cases a <;> rfl

theorem stepApart_bindTarget (kind : BindingKind) (offset offset' : Nat) (target : String) :
    StepApart k (fun _ _ => True) (bindTarget kind offset target)
      (bindTarget kind offset' target) :=
  (stepApart_failIf (fun _ => rfl) _ _).bind fun _ _ _ =>
    (stepApart_failIf (fun p => Pending.isBound_shift k p target) _ _).bind fun _ _ _ =>
      stepApart_onPending fun p => Pending.bind_shift k p kind target

theorem getD_map (v? : Option (Value ScriptItem)) :
    (v?.map (Value.map (ScriptItem.shift k))).getD .empty =
      (v?.getD .empty).map (ScriptItem.shift k) := by
  cases v? with
  | none => exact (Value.map_empty _).symm
  | some v => rfl

theorem passOn_shift (n : Node) (ws : List (Value ScriptItem)) :
    Table.passOn (n.shift k) (ws.map (Value.map (ScriptItem.shift k))) =
      (Table.passOn n ws).map (ScriptItem.shift k) := by
  cases ws <;> simp [Table.passOn]

def HandlerApart (k : Nat) (handler : ScriptHandler) : Prop :=
  ∀ n ws, StepApart k (ValueApart k)
    (handler (n.shift k) (ws.map (Value.map (ScriptItem.shift k)))) (handler n ws)

theorem handlerApart_keyValue : HandlerApart k keyValue := by
  intro n ws
  unfold keyValue
  dsimp only
  rw [childText_shift, List.getLast?_map, getD_map, bindingTarget_map]
  split
  · refine (stepApart_bindTarget _ _ _ _).bind fun _ _ _ => ?_
    exact stepApart_pure (Value.map_empty _).symm
  · refine (stepApart_onPending fun p => Pending.addEmbed_shift k p _).bind fun _ _ _ => ?_
    exact stepApart_pure (Value.map_item _ _).symm

theorem handlerApart_clientEmbed : HandlerApart k clientEmbed := by
  intro n ws
  refine stepApart_pure ?_
  rw [Value.map_item, Node.shift_start, Node.child?_shift, Option.map_map]
  simp only [Function.comp_def, Node.shift_text]
  rfl

theorem handlerApart_jointEmbed : HandlerApart k jointEmbed := by
  intro n ws
  unfold jointEmbed
  rw [List.getLast?_map, getD_map]
  refine (stepApart_onPending fun p => Pending.addEmbed_shift k p _).bind fun _ _ _ => ?_
  exact stepApart_pure (Value.map_empty _).symm

theorem handlerApart_elementChildren : HandlerApart k elementChildren := by
  intro n ws
  refine (stepApart_onPending fun p => Pending.addEmbeds_shift k p ws).bind fun _ _ _ => ?_
  exact stepApart_pure (Value.map_empty _).symm

theorem handlerApart_webScript : HandlerApart k webScript := by
  intro n ws
  unfold webScript
  refine (stepApart_failIf (fun _ => rfl) _ _).bind fun _ _ _ => ?_
  dsimp only
  rw [List.getElem?_map, List.getElem?_map, getD_map, getD_map, Value.joinedText_map,
    Value.items_map, Node.child?_shift, Option.map_map]
  refine (stepApart_onPending fun p => ?_).bind fun _ _ _ => ?_
  · rw [Pending.addArgs_shift]
    simp only [Function.comp_def, Node.shift_text]
    rfl
  · exact stepApart_pure (Value.map_empty _).symm

theorem handlerApart_scriptBody : HandlerApart k scriptBody := by
  intro n ws
  refine stepApart_pure ?_
  rw [Value.map_text, ← Value.map_list, Value.joinedText_map]

theorem handlerApart_staticImport : HandlerApart k staticImport := by
  intro n ws x y gathered
  have gathered : x.pending = y.pending.shift k := gathered
  refine ⟨.ok (Value.map_text _ _).symm, ?_⟩
  change x.pending.addImport _ = (y.pending.addImport _).shift k
  rw [gathered, Node.shift_text]
  rfl

theorem stepApart_emptied {f g : Extractor → Extractor} (hf : ∀ x, (f x).pending = .empty)
    (hg : ∀ x, (g x).pending = .empty) :
    StepApart k (ValueApart k) (do modify f; return Value.empty)
      (do modify g; return Value.empty) := by
  intro x y _
  refine ⟨.ok (Value.map_empty _).symm, ?_⟩
  change (f x).pending = (g y).pending.shift k
  rw [hf, hg, Pending.shift_empty]

theorem handlerApart_of_table {kind : Kind} {handler : ScriptHandler}
    (h : table.handler? kind = some handler) : HandlerApart k handler := by
  simp only [table] at h
  split at h <;> cases h
  · exact fun n ws => stepApart_emptied (fun _ => rfl) fun _ => rfl
  · exact fun n ws => stepApart_emptied (fun _ => rfl) fun _ => rfl
  · exact handlerApart_keyValue
  · exact fun n ws => stepApart_pure (by rw [childText_shift, Value.map_item]; rfl)
  · exact fun n ws => stepApart_pure (by rw [childText_shift, Value.map_item]; rfl)
  · exact handlerApart_clientEmbed
  · exact handlerApart_jointEmbed
  · exact handlerApart_elementChildren
  · exact handlerApart_webScript
  · exact handlerApart_scriptBody
  · exact handlerApart_staticImport
  · exact fun n ws => stepApart_pure (by rw [List.getLast?_map, getD_map])
  · exact fun n ws => stepApart_pure (by rw [List.head?_map, getD_map])
  · exact fun n ws => stepApart_pure (by rw [List.head?_map, getD_map])
  · exact fun n ws => stepApart_pure (Value.map_empty _).symm
  · exact fun n ws => stepApart_pure (Value.map_empty _).symm

theorem eq_map_of_valuesApart {vs ws : List (Value ScriptItem)}
    (h : List.Forall₂ (ValueApart k) vs ws) : vs = ws.map (Value.map (ScriptItem.shift k)) := by
  induction h with
  | nil => rfl
  | cons first _ ih =>
    rw [List.map_cons, ← ih]
    exact congrArg (· :: _) first

theorem treatsAlike_shift (k : Nat) :
    table.TreatsAlike (GatheredApart k) (fun _ _ => True) (ValueApart k) (Node.shift k) where
  children := Node.shift_children k
  enter := by
    intro n x y gathered
    have kind := Node.shift_kind k n
    by_cases hc : n.kind = .component
    · rw [enter_component hc, enter_component (kind.trans hc)]
      exact ⟨.ok trivial, rfl⟩
    · rw [enter_other hc, enter_other (kind.trans_ne hc)]
      exact ⟨.ok trivial, gathered⟩
  leave := by
    intro n vs ws h
    rw [eq_map_of_valuesApart h]
    unfold Table.leave
    rw [Node.shift_kind]
    cases handler : table.handler? n.kind with
    | none => exact stepApart_pure (passOn_shift n ws)
    | some => exact handlerApart_of_table handler n ws

end Component
end HybridTemplate
