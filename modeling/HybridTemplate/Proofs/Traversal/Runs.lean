import HybridTemplate.Traversal.Table
import Mathlib.Data.List.Forall2

set_option autoImplicit false

namespace HybridTemplate

theorem exists_of_map_toOption {ε β γ : Type} {r : Except ε β} {f : β → γ} {c : γ}
    (h : r.toOption.map f = some c) : ∃ b, r = .ok b ∧ f b = c := by
  cases r with
  | error e => cases h
  | ok b => exact ⟨b, rfl, Option.some.inj h⟩

namespace Visit

variable {ε σ β γ : Type}

theorem outcome_bind_eq_ok {m : Visit ε σ β} {k : β → Visit ε σ γ} {s u : σ} {c : γ} :
    outcome (m >>= k) s = (.ok c, u) ↔
      ∃ b t, outcome m s = (.ok b, t) ∧ outcome (k b) t = (.ok c, u) := by
  rw [outcome_bind]
  rcases outcome m s with ⟨_ | b, t⟩
  · simp
  · constructor
    · exact fun h => ⟨b, t, rfl, h⟩
    · rintro ⟨_, _, ⟨⟩, h⟩
      exact h

theorem outcome_bind_eq_error {m : Visit ε σ β} {k : β → Visit ε σ γ} {s u : σ} {e : ε} :
    outcome (m >>= k) s = (.error e, u) ↔
      outcome m s = (.error e, u) ∨
        ∃ b t, outcome m s = (.ok b, t) ∧ outcome (k b) t = (.error e, u) := by
  rw [outcome_bind]
  rcases outcome m s with ⟨_ | b, t⟩
  · simp
  · constructor
    · exact fun h => .inr ⟨b, t, rfl, h⟩
    · rintro (⟨⟨⟩⟩ | ⟨_, _, ⟨⟩, h⟩)
      exact h

/-- Steps that end alike from every state are the same. -/
theorem eq_of_outcome {m k : Visit ε σ β} (h : ∀ s, outcome m s = outcome k s) : m = k := funext h

theorem outcome_get_bind (k : σ → Visit ε σ β) (s : σ) :
    outcome (get >>= k) s = outcome (k s) s := by
  rw [outcome_bind, outcome_get]

theorem outcome_modify_bind (f : σ → σ) (k : PUnit → Visit ε σ β) (s : σ) :
    outcome (modify f >>= k) s = outcome (k ⟨⟩) (f s) := by
  rw [outcome_bind, outcome_modify]

/-- What every step of a fold keeps, the fold keeps. -/
theorem foldlM_keeps {α : Type} {f : β → α → Visit ε σ β} (Inv : β → σ → Prop) {as : List α}
    (step : ∀ a ∈ as, ∀ b s c t, Inv b s → outcome (f b a) s = (.ok c, t) → Inv c t) {b c : β}
    {s t : σ} (start : Inv b s) (h : outcome (as.foldlM f b) s = (.ok c, t)) : Inv c t := by
  induction as generalizing b s with
  | nil =>
    rw [List.foldlM_nil, outcome_pure] at h
    cases h
    exact start
  | cons a as ih =>
    obtain ⟨first, rest⟩ := List.forall_mem_cons.mp step
    rw [List.foldlM_cons, outcome_bind_eq_ok] at h
    obtain ⟨d, u, head, tail⟩ := h
    exact ih rest (first b s d u start head) tail

theorem mapM_keeps {α : Type} {f : α → Visit ε σ β} (Inv : List β → σ → Prop) {as : List α}
    (step : ∀ a ∈ as, ∀ bs s b t, Inv bs s → outcome (f a) s = (.ok b, t) → Inv (bs ++ [b]) t)
    {bs cs : List β} {s t : σ} (start : Inv bs s) (h : outcome (as.mapM f) s = (.ok cs, t)) :
    Inv (bs ++ cs) t := by
  induction as generalizing bs cs s with
  | nil =>
    rw [List.mapM_nil, outcome_pure] at h
    cases h
    rwa [List.append_nil]
  | cons a as ih =>
    obtain ⟨first, rest⟩ := List.forall_mem_cons.mp step
    rw [List.mapM_cons, outcome_bind_eq_ok] at h
    obtain ⟨b, u, head, h⟩ := h
    obtain ⟨ds, v, tail, ended⟩ := outcome_bind_eq_ok.mp h
    rw [outcome_pure] at ended
    cases ended
    rw [List.append_cons]
    exact ih rest (first bs s b u start head) tail

theorem foldlM_split {α : Type} {f : β → α → Visit ε σ β} {as : List α} {a : α} (mem : a ∈ as)
    {b c : β} {s t : σ} (h : outcome (as.foldlM f b) s = (.ok c, t)) :
    ∃ before after b₁ s₁ b₂ s₂, as = before ++ a :: after ∧
      outcome (before.foldlM f b) s = (.ok b₁, s₁) ∧ outcome (f b₁ a) s₁ = (.ok b₂, s₂) ∧
      outcome (after.foldlM f b₂) s₂ = (.ok c, t) := by
  obtain ⟨before, after, rfl⟩ := List.append_of_mem mem
  rw [List.foldlM_append, outcome_bind_eq_ok] at h
  obtain ⟨b₁, s₁, first, h⟩ := h
  rw [List.foldlM_cons, outcome_bind_eq_ok] at h
  obtain ⟨b₂, s₂, here, rest⟩ := h
  exact ⟨before, after, b₁, s₁, b₂, s₂, rfl, first, here, rest⟩

theorem forM_keeps {α : Type} {f : α → Visit ε σ PUnit} (Inv : σ → Prop) {as : List α}
    (step : ∀ a ∈ as, ∀ s u t, Inv s → outcome (f a) s = (.ok u, t) → Inv t) {s t : σ}
    {u : PUnit} (start : Inv s) (h : outcome (forM as f) s = (.ok u, t)) : Inv t := by
  induction as generalizing s with
  | nil =>
    cases h
    exact start
  | cons a as ih =>
    obtain ⟨first, rest⟩ := List.forall_mem_cons.mp step
    rw [List.forM_cons, outcome_bind_eq_ok] at h
    obtain ⟨v, w, head, tail⟩ := h
    exact ih rest (first s v w start head) tail

/-- From a state, a step ends with a result and a state of the first kind or fails in a state of
the second. -/
structure Ends (Q : β → σ → Prop) (E : σ → Prop) (m : Visit ε σ β) (s : σ) : Prop where
  ok : ∀ b t, outcome m s = (.ok b, t) → Q b t
  error : ∀ e t, outcome m s = (.error e, t) → E t

section

variable {Q : β → σ → Prop} {R : γ → σ → Prop} {E : σ → Prop} {m : Visit ε σ β} {s : σ}

/-- What holds however a step ends holds of the state that it leaves. -/
theorem Ends.state (h : Ends Q E m s) {I : σ → Prop} (ok : ∀ b t, Q b t → I t)
    (error : ∀ t, E t → I t) : I (outcome m s).2 := by
  rcases ended : outcome m s with ⟨e | b, t⟩
  · exact error t (h.error e t ended)
  · exact ok b t (h.ok b t ended)

theorem Ends.bind {k : β → Visit ε σ γ} (h : Ends Q E m s) (hk : ∀ b t, Q b t → Ends R E (k b) t) :
    Ends R E (m >>= k) s where
  ok := by
    intro c u ended
    obtain ⟨b, t, first, rest⟩ := outcome_bind_eq_ok.mp ended
    exact (hk b t (h.ok b t first)).ok c u rest
  error := by
    intro e u ended
    rcases outcome_bind_eq_error.mp ended with here | ⟨b, t, first, rest⟩
    · exact h.error e u here
    · exact (hk b t (h.ok b t first)).error e u rest

theorem ends_pure {b : β} (h : Q b s) : Ends Q E (pure b : Visit ε σ β) s := by
  constructor <;> rintro _ _ ⟨⟩
  exact h

theorem ends_throw {e : ε} (h : E s) : Ends Q E (throw e : Visit ε σ β) s := by
  constructor <;> rintro _ _ ⟨⟩
  exact h

theorem ends_modify {Q : PUnit → σ → Prop} {f : σ → σ} (h : Q ⟨⟩ (f s)) :
    Ends Q E (modify f : Visit ε σ PUnit) s := by
  constructor <;> rintro _ _ ⟨⟩
  exact h

theorem ends_get_bind {k : σ → Visit ε σ β} (h : Ends Q E (k s) s) : Ends Q E (get >>= k) s :=
  ⟨fun b t ended => h.ok b t (outcome_get_bind k s ▸ ended),
    fun e t ended => h.error e t (outcome_get_bind k s ▸ ended)⟩

theorem ends_modify_bind {f : σ → σ} {k : PUnit → Visit ε σ β} (h : Ends Q E (k ⟨⟩) (f s)) :
    Ends Q E (modify f >>= k) s :=
  ⟨fun b t ended => h.ok b t (outcome_modify_bind f k s ▸ ended),
    fun e t ended => h.error e t (outcome_modify_bind f k s ▸ ended)⟩

/-- A fold keeps what every step keeps, and fails as one of them does. -/
theorem ends_foldlM {α : Type} {f : β → α → Visit ε σ β} {as : List α}
    (step : ∀ a ∈ as, ∀ b s, Q b s → Ends Q E (f b a) s) {b : β} (start : Q b s) :
    Ends Q E (as.foldlM f b) s := by
  induction as generalizing b s with
  | nil => exact ends_pure start
  | cons a as ih =>
    obtain ⟨first, rest⟩ := List.forall_mem_cons.mp step
    rw [List.foldlM_cons]
    exact (first b s start).bind fun c t kept => ih rest kept

theorem ends_mapM {α : Type} {f : α → Visit ε σ β} (Inv : List β → σ → Prop) {as : List α}
    (step : ∀ a ∈ as, ∀ bs s, Inv bs s → Ends (fun b t => Inv (bs ++ [b]) t) E (f a) s)
    {bs : List β} (start : Inv bs s) : Ends (fun cs t => Inv (bs ++ cs) t) E (as.mapM f) s := by
  induction as generalizing bs s with
  | nil =>
    rw [List.mapM_nil]
    exact ends_pure (by rwa [List.append_nil])
  | cons a as ih =>
    obtain ⟨first, rest⟩ := List.forall_mem_cons.mp step
    rw [List.mapM_cons]
    refine (first bs s start).bind fun b t kept => (ih rest kept).bind fun cs u all => ?_
    exact ends_pure (by rwa [List.append_cons])

end

inductive Agree (E : ε → ε → Prop) (R : β → γ → Prop) : Except ε β → Except ε γ → Prop
  | error {e f : ε} (h : E e f) : Agree E R (.error e) (.error f)
  | ok {b : β} {c : γ} (h : R b c) : Agree E R (.ok b) (.ok c)

theorem Agree.eq {x y : Except ε β} (h : Agree Eq Eq x y) : x = y := by
  cases h with
  | error h => rw [h]
  | ok h => rw [h]

theorem Agree.mono {E : ε → ε → Prop} {Q R : β → γ → Prop} {x : Except ε β} {y : Except ε γ}
    (h : Agree E Q x y) (hR : ∀ b c, Q b c → R b c) : Agree E R x y := by
  cases h with
  | error h => exact .error h
  | ok h => exact .ok (hR _ _ h)

theorem Agree.mono_error {E F : ε → ε → Prop} {R : β → γ → Prop} {x : Except ε β}
    {y : Except ε γ} (h : Agree E R x y) (hE : ∀ e f, E e f → F e f) : Agree F R x y := by
  cases h with
  | error h => exact .error (hE _ _ h)
  | ok h => exact .ok h

/-- From states that are alike the two steps go to states that are alike, with results
that agree. -/
def Alike (S : σ → σ → Prop) (E : ε → ε → Prop) (R : β → γ → Prop) (m : Visit ε σ β)
    (k : Visit ε σ γ) : Prop :=
  ∀ s t, S s t → Agree E R (outcome m s).1 (outcome k t).1 ∧ S (outcome m s).2 (outcome k t).2

variable {S : σ → σ → Prop} {E : ε → ε → Prop}

theorem alike_pure {R : β → γ → Prop} {b : β} {c : γ} (h : R b c) :
    Alike S E R (pure b) (pure c) :=
  fun _ _ hs => ⟨.ok h, hs⟩

def AlikeFrom (S : σ → σ → Prop) (E : ε → ε → Prop) (R : β → γ → Prop) (m : Visit ε σ β)
    (k : Visit ε σ γ) (s t : σ) : Prop :=
  Agree E R (outcome m s).1 (outcome k t).1 ∧ S (outcome m s).2 (outcome k t).2

theorem AlikeFrom.bind {β' γ' : Type} {Q : β → γ → Prop} {R : β' → γ' → Prop} {m : Visit ε σ β}
    {k : Visit ε σ γ} {f : β → Visit ε σ β'} {g : γ → Visit ε σ γ'} {s t : σ}
    (h : AlikeFrom S E Q m k s t) (hf : ∀ b c, Q b c → Alike S E R (f b) (g c)) :
    AlikeFrom S E R (m >>= f) (k >>= g) s t := by
  obtain ⟨agree, states⟩ := h
  unfold AlikeFrom
  rw [outcome_bind, outcome_bind]
  rcases hm : outcome m s with ⟨x, s'⟩
  rcases hk : outcome k t with ⟨y, t'⟩
  rw [hm, hk] at agree states
  cases agree with
  | error h => exact ⟨.error h, states⟩
  | ok h => exact hf _ _ h s' t' states

theorem Alike.bind {β' γ' : Type} {Q : β → γ → Prop} {R : β' → γ' → Prop} {m : Visit ε σ β}
    {k : Visit ε σ γ} {f : β → Visit ε σ β'} {g : γ → Visit ε σ γ'} (h : Alike S E Q m k)
    (hf : ∀ b c, Q b c → Alike S E R (f b) (g c)) : Alike S E R (m >>= f) (k >>= g) :=
  fun s t hs => AlikeFrom.bind (h s t hs) hf

theorem Alike.mono {E F : ε → ε → Prop} {R : β → γ → Prop} {m : Visit ε σ β} {k : Visit ε σ γ}
    (h : Alike S E R m k) (hE : ∀ e f, E e f → F e f) : Alike S F R m k := by
  intro s t hs
  obtain ⟨agree, states⟩ := h s t hs
  exact ⟨agree.mono_error hE, states⟩

theorem alike_throw {R : β → γ → Prop} {e f : ε} (h : E e f) :
    Alike S E R (throw e) (throw f) :=
  fun _ _ hs => ⟨.error h, hs⟩

theorem alike_modify {f g : σ → σ} (h : ∀ s t, S s t → S (f s) (g t)) :
    Alike S E Eq (modify f : Visit ε σ PUnit) (modify g) :=
  fun s t hs => ⟨.ok rfl, h s t hs⟩

theorem alike_set {u v : σ} (h : S u v) : Alike S E Eq (set u : Visit ε σ PUnit) (set v) :=
  fun _ _ _ => ⟨.ok rfl, h⟩

/-- Steps that begin by looking at the state are alike if they go on alike from states that
are. -/
theorem alike_get_bind {R : β → γ → Prop} {f : σ → Visit ε σ β} {g : σ → Visit ε σ γ}
    (h : ∀ s t, S s t → Alike S E R (f s) (g t)) : Alike S E R (get >>= f) (get >>= g) := by
  intro s t hs
  rw [outcome_get_bind, outcome_get_bind]
  exact h s t hs s t hs

theorem alike_foldlM {α : Type} {f : β → α → Visit ε σ β} (h : ∀ b a, Alike S E Eq (f b a) (f b a))
    (as : List α) (b : β) : Alike S E Eq (as.foldlM f b) (as.foldlM f b) := by
  induction as generalizing b with
  | nil => exact alike_pure rfl
  | cons a as ih =>
    rw [List.foldlM_cons]
    exact (h b a).bind fun c d same => same ▸ ih c

theorem alike_mapM {α : Type} {f : α → Visit ε σ β} (h : ∀ a, Alike S E Eq (f a) (f a))
    (as : List α) : Alike S E Eq (as.mapM f) (as.mapM f) := by
  induction as with
  | nil => exact alike_pure rfl
  | cons a as ih =>
    rw [List.mapM_cons]
    refine (h a).bind fun b c same => ih.bind fun bs cs all => ?_
    rw [same, all]
    exact alike_pure rfl

theorem outcome_tryCatch (m : Visit ε σ β) (h : ε → Visit ε σ β) (s : σ) :
    outcome (tryCatch m h) s =
      match outcome m s with
      | (.ok b, t) => (.ok b, t)
      | (.error e, t) => outcome (h e) t := by
  change (match m.run.run s with
    | (x, t) => (match x with
      | Except.ok b => (pure (Except.ok b) : StateM σ (Except ε β))
      | Except.error e => (h e).run).run t) = _
  unfold outcome
  rcases m.run.run s with ⟨_ | b, t⟩ <;> rfl

/-- A step that fails goes on with its handler. -/
theorem AlikeFrom.tryCatch {F : ε → ε → Prop} {R : β → γ → Prop} {m : Visit ε σ β}
    {k : Visit ε σ γ} {f : ε → Visit ε σ β} {g : ε → Visit ε σ γ} {s t : σ}
    (h : AlikeFrom S F R m k s t) (hf : ∀ e d, F e d → Alike S E R (f e) (g d)) :
    AlikeFrom S E R (MonadExcept.tryCatch m f) (MonadExcept.tryCatch k g) s t := by
  obtain ⟨agree, states⟩ := h
  unfold AlikeFrom
  rw [outcome_tryCatch, outcome_tryCatch]
  rcases hm : outcome m s with ⟨x, s'⟩
  rcases hk : outcome k t with ⟨y, t'⟩
  rw [hm, hk] at agree states
  cases agree with
  | error h => exact hf _ _ h s' t' states
  | ok h => exact ⟨.ok h, states⟩

end Visit

namespace Table

open Visit

variable {ε σ α : Type} {t : Table ε σ α}

theorem visit_eq_ok {n : Node} {s u : σ} {v : Value α} :
    outcome (t.visit n) s = (.ok v, u) ↔
      ∃ s₁ vs s₂, outcome (t.enter n) s = (.ok ⟨⟩, s₁) ∧
        outcome (t.visitAll n.children) s₁ = (.ok vs, s₂) ∧
        outcome (t.leave n vs) s₂ = (.ok v, u) := by
  rw [visit_eq]
  simp only [outcome_bind_eq_ok]
  constructor
  · rintro ⟨_, s₁, entered, vs, s₂, below, left⟩
    exact ⟨s₁, vs, s₂, entered, below, left⟩
  · rintro ⟨s₁, vs, s₂, entered, below, left⟩
    exact ⟨⟨⟩, s₁, entered, vs, s₂, below, left⟩

theorem visitAll_nil_eq_ok {s u : σ} {vs : List (Value α)} :
    outcome (t.visitAll []) s = (.ok vs, u) ↔ vs = [] ∧ u = s := by
  rw [visitAll, outcome_pure, Prod.mk.injEq, Except.ok.injEq]
  exact and_congr eq_comm eq_comm

theorem visitAll_cons_eq_ok {n : Node} {ns : List Node} {s u : σ} {ws : List (Value α)} :
    outcome (t.visitAll (n :: ns)) s = (.ok ws, u) ↔
      ∃ v s₁ vs, outcome (t.visit n) s = (.ok v, s₁) ∧
        outcome (t.visitAll ns) s₁ = (.ok vs, u) ∧ ws = v :: vs := by
  rw [visitAll]
  simp only [outcome_bind_eq_ok, outcome_pure, Prod.mk.injEq, Except.ok.injEq]
  constructor
  · rintro ⟨v, s₁, first, vs, s₂, rest, rfl, rfl⟩
    exact ⟨v, s₁, vs, first, rest, rfl⟩
  · rintro ⟨v, s₁, vs, first, rest, rfl⟩
    exact ⟨v, s₁, first, vs, u, rest, rfl, rfl⟩

theorem items_passOn (n : Node) (vs : List (Value α)) :
    (passOn n vs).items = vs.flatMap Value.items := by
  unfold passOn
  cases vs with
  | nil => rfl
  | cons v vs => exact Value.itemsAll_eq _

/-- What hooks and handlers establish about nodes, `P`, and about lists of nodes, `Q`. -/
structure Establishes (t : Table ε σ α) (P : Node → σ → Value α → σ → Prop)
    (Q : List Node → σ → List (Value α) → σ → Prop) : Prop where
  node : ∀ n s s₁ vs s₂ v u, outcome (t.enter n) s = (.ok ⟨⟩, s₁) →
    outcome (t.visitAll n.children) s₁ = (.ok vs, s₂) → Q n.children s₁ vs s₂ →
    outcome (t.leave n vs) s₂ = (.ok v, u) → P n s v u
  nil : ∀ s, Q [] s [] s
  cons : ∀ n ns s v s₁ vs u, P n s v s₁ → Q ns s₁ vs u → Q (n :: ns) s (v :: vs) u

section

variable {P : Node → σ → Value α → σ → Prop} {Q : List Node → σ → List (Value α) → σ → Prop}

mutual

theorem Establishes.visit (he : t.Establishes P Q) (n : Node) (s : σ) (v : Value α) (u : σ)
    (h : outcome (t.visit n) s = (.ok v, u)) : P n s v u := by
  match n with
  | ⟨kind, start, text, children⟩ =>
    obtain ⟨s₁, vs, s₂, entered, below, left⟩ := visit_eq_ok.mp h
    have inner : Q children s₁ vs s₂ := Establishes.visitAll he children s₁ vs s₂ below
    exact he.node _ s s₁ vs s₂ v u entered below inner left

theorem Establishes.visitAll (he : t.Establishes P Q) (ns : List Node) (s : σ)
    (vs : List (Value α)) (u : σ) (h : outcome (t.visitAll ns) s = (.ok vs, u)) : Q ns s vs u := by
  match ns with
  | [] =>
    obtain ⟨rfl, rfl⟩ := visitAll_nil_eq_ok.mp h
    exact he.nil u
  | n :: ns =>
    obtain ⟨v, s₁, ws, first, rest, rfl⟩ := visitAll_cons_eq_ok.mp h
    exact he.cons n ns s v s₁ ws u (Establishes.visit he n s v s₁ first)
      (Establishes.visitAll he ns s₁ ws u rest)

end

end

/-- Hooks and handlers treat the image of a node under `f` and the node itself alike. -/
structure TreatsAlike (t : Table ε σ α) (S : σ → σ → Prop) (E : ε → ε → Prop)
    (R : Value α → Value α → Prop) (f : Node → Node) : Prop where
  children : ∀ n, (f n).children = n.children.map f
  enter : ∀ n, Alike S E (fun _ _ => True) (t.enter (f n)) (t.enter n)
  leave : ∀ n vs ws, List.Forall₂ R vs ws → Alike S E R (t.leave (f n) vs) (t.leave n ws)

section

variable {S : σ → σ → Prop} {E : ε → ε → Prop} {R : Value α → Value α → Prop} {f : Node → Node}

mutual

theorem TreatsAlike.visit (ha : t.TreatsAlike S E R f) (n : Node) :
    Alike S E R (t.visit (f n)) (t.visit n) := by
  match n with
  | ⟨kind, start, text, cs⟩ =>
    rw [visit_eq, visit_eq, ha.children]
    refine (ha.enter _).bind fun _ _ _ => ?_
    have below : Alike S E (List.Forall₂ R) (t.visitAll (cs.map f)) (t.visitAll cs) :=
      TreatsAlike.visitAll ha cs
    exact below.bind fun vs ws h => ha.leave _ vs ws h

theorem TreatsAlike.visitAll (ha : t.TreatsAlike S E R f) (ns : List Node) :
    Alike S E (List.Forall₂ R) (t.visitAll (ns.map f)) (t.visitAll ns) := by
  match ns with
  | [] =>
    rw [List.map_nil, Table.visitAll]
    exact alike_pure .nil
  | n :: ns =>
    rw [List.map_cons, Table.visitAll, Table.visitAll]
    refine (TreatsAlike.visit ha n).bind fun v w first => ?_
    exact (TreatsAlike.visitAll ha ns).bind fun vs ws rest => alike_pure (.cons first rest)

end

end

end Table
end HybridTemplate
