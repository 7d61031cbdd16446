import HybridTemplate.Proofs.Traversal.Runs

set_option autoImplicit false

namespace HybridTemplate

inductive Event where
  | entered (n : Node)
  | left (n : Node)

open Visit (outcome outcome_bind)

variable {ε σ α β γ : Type} {log : σ → List Event} {refuse : Event → Option ε}

namespace Visit

/-- Whether a step writes down one event, and fails with it where the event is refused. -/
def Records (log : σ → List Event) (refuse : Event → Option ε) (event : Event)
    (m : Visit ε σ β) : Prop :=
  ∀ s, log (outcome m s).2 = log s ++ [event] ∧
    match refuse event with
    | none => ∃ b, (outcome m s).1 = .ok b
    | some error => (outcome m s).1 = .error error

/-- Whether a step writes down events one after another. It ends with the first that is refused. -/
structure Performs (log : σ → List Event) (refuse : Event → Option ε) (events : List Event)
    (m : Visit ε σ β) : Prop where
  whole : (∀ e ∈ events, refuse e = none) →
    ∀ s, ∃ b t, outcome m s = (.ok b, t) ∧ log t = log s ++ events
  cut : ∀ before event after error, events = before ++ event :: after →
    (∀ e ∈ before, refuse e = none) → refuse event = some error →
    ∀ s, ∃ t, outcome m s = (.error error, t) ∧ log t = log s ++ (before ++ [event])

theorem performs_pure (b : β) : Performs log refuse [] (pure b : Visit ε σ β) where
  whole := fun _ s => ⟨b, s, rfl, (List.append_nil _).symm⟩
  cut := by
    intro before event after error split
    cases before <;> cases split

theorem Records.performs {event : Event} {m : Visit ε σ β} (h : Records log refuse event m) :
    Performs log refuse [event] m where
  whole := by
    intro accepted s
    obtain ⟨written, ended⟩ := h s
    rw [accepted event (List.mem_singleton_self event)] at ended
    obtain ⟨b, ok⟩ := ended
    exact ⟨b, _, Prod.ext ok rfl, written⟩
  cut := by
    intro before e after error split _ refused s
    obtain ⟨rfl, rfl, -⟩ : before = [] ∧ event = e ∧ after = [] := by
      cases before with
      | nil => simpa [eq_comm] using split
      | cons b before => simp at split
    obtain ⟨written, ended⟩ := h s
    rw [refused] at ended
    exact ⟨_, Prod.ext ended rfl, written⟩

theorem Performs.bind {es fs : List Event} {m : Visit ε σ β} {k : β → Visit ε σ γ}
    (hm : Performs log refuse es m) (hk : ∀ b, Performs log refuse fs (k b)) :
    Performs log refuse (es ++ fs) (m >>= k) where
  whole := by
    intro accepted s
    obtain ⟨front, back⟩ := List.forall_mem_append.mp accepted
    obtain ⟨b, t, first, written⟩ := hm.whole front s
    obtain ⟨c, u, rest, more⟩ := (hk b).whole back t
    refine ⟨c, u, outcome_bind_eq_ok.mpr ⟨b, t, first, rest⟩, ?_⟩
    rw [more, written, List.append_assoc]
  cut := by
    intro before event after error split accepted refused s
    rcases List.append_eq_append_iff.mp split with ⟨mid, front, back⟩ | ⟨mid, front, back⟩
    · rw [front] at accepted
      obtain ⟨inFront, inMid⟩ := List.forall_mem_append.mp accepted
      obtain ⟨b, t, first, written⟩ := hm.whole inFront s
      obtain ⟨u, rest, more⟩ := (hk b).cut mid event after error back inMid refused t
      refine ⟨u, outcome_bind_eq_error.mpr (.inr ⟨b, t, first, rest⟩), ?_⟩
      rw [more, written, front, List.append_assoc, List.append_assoc]
    · rcases List.cons_eq_append_iff.mp back with ⟨none, back⟩ | ⟨tail, here, -⟩
      · rw [none, List.append_nil] at front
        obtain ⟨b, t, first, written⟩ := hm.whole (front ▸ accepted) s
        obtain ⟨u, rest, more⟩ := (hk b).cut [] event after error back
          (List.forall_mem_nil _) refused t
        refine ⟨u, outcome_bind_eq_error.mpr (.inr ⟨b, t, first, rest⟩), ?_⟩
        rw [more, written, front, List.nil_append, List.append_assoc]
      · rw [here] at front
        obtain ⟨t, failed, written⟩ := hm.cut before event tail error front accepted refused s
        exact ⟨t, outcome_bind_eq_error.mpr (.inl failed), written⟩

end Visit

namespace Table

mutual

/-- What hooks and handlers are called for in a traversal in which none of them fails. -/
def events (t : Table ε σ α) : Node → List Event
  | ⟨kind, start, text, children⟩ =>
    (if (t.hook? kind).isSome then [.entered ⟨kind, start, text, children⟩] else []) ++
      (t.eventsAll children ++
        if t.handles kind then [.left ⟨kind, start, text, children⟩] else [])

def eventsAll (t : Table ε σ α) : List Node → List Event
  | [] => []
  | n :: ns => t.events n ++ t.eventsAll ns

end

structure SameKinds (t u : Table ε σ α) : Prop where
  hooks : ∀ kind, (t.hook? kind).isSome = (u.hook? kind).isSome
  handlers : ∀ kind, t.handles kind = u.handles kind

/-- Whether each hook and each handler writes down that it is called, and then succeeds or, where
it is told to refuse, fails. -/
structure Logs (t : Table ε σ α) (log : σ → List Event) (refuse : Event → Option ε) : Prop where
  hook : ∀ kind hook, t.hook? kind = some hook → ∀ n,
    Visit.Records log refuse (.entered n) (hook n)
  handler : ∀ kind handler, t.handler? kind = some handler → ∀ n vs,
    Visit.Records log refuse (.left n) (handler n vs)

variable {t u : Table ε σ α}

theorem Logs.enter (logs : t.Logs log refuse) (n : Node) :
    Visit.Performs log refuse (if (t.hook? n.kind).isSome then [.entered n] else [])
      (t.enter n) := by
  unfold Table.enter
  cases found : t.hook? n.kind with
  | none => exact Visit.performs_pure _
  | some hook => exact (logs.hook n.kind hook found n).performs

theorem Logs.leave (logs : t.Logs log refuse) (n : Node) (vs : List (Value α)) :
    Visit.Performs log refuse (if t.handles n.kind then [.left n] else []) (t.leave n vs) := by
  unfold Table.leave Table.handles
  cases found : t.handler? n.kind with
  | none => exact Visit.performs_pure _
  | some handler => exact (logs.handler n.kind handler found n vs).performs

mutual

theorem Logs.visit (logs : t.Logs log refuse) (n : Node) :
    Visit.Performs log refuse (t.events n) (t.visit n) := by
  match n with
  | ⟨kind, start, text, children⟩ =>
    have entering := logs.enter ⟨kind, start, text, children⟩
    have below := logs.visitAll children
    rw [Table.visit, events]
    exact entering.bind fun _ => below.bind fun vs =>
      logs.leave ⟨kind, start, text, children⟩ vs

theorem Logs.visitAll (logs : t.Logs log refuse) (ns : List Node) :
    Visit.Performs log refuse (t.eventsAll ns) (t.visitAll ns) := by
  match ns with
  | [] =>
    rw [Table.visitAll, eventsAll]
    exact Visit.performs_pure []
  | n :: ns =>
    rw [Table.visitAll, eventsAll, ← List.append_nil (t.eventsAll ns)]
    exact (logs.visit n).bind fun _ => (logs.visitAll ns).bind fun _ => Visit.performs_pure _

end

mutual

/-- Which events there are depends on the kinds that have hooks and handlers, and on no more. -/
theorem SameKinds.events_eq (same : t.SameKinds u) (n : Node) : t.events n = u.events n := by
  match n with
  | ⟨kind, start, text, children⟩ =>
    rw [events, events, same.hooks, same.handlers, same.eventsAll_eq children]

theorem SameKinds.eventsAll_eq (same : t.SameKinds u) (ns : List Node) :
    t.eventsAll ns = u.eventsAll ns := by
  match ns with
  | [] => rw [eventsAll, eventsAll]
  | n :: ns => rw [eventsAll, eventsAll, same.events_eq n, same.eventsAll_eq ns]

end

/-- A traversal that is never refused makes all calls in order. One that is refused fails as its
first refused call does, and has made the calls up to this one. -/
theorem visit_in_order (logs : t.Logs log refuse) (free : u.Logs log fun _ => none)
    (same : t.SameKinds u) (n : Node) (s : σ) :
    let whole := outcome (u.visit n) s
    let visited := outcome (t.visit n) s
    ((∃ v, whole.1 = .ok v) ∧ log whole.2 = log s ++ u.events n) ∧
      ((∀ e ∈ u.events n, refuse e = none) →
        (∃ v, visited.1 = .ok v) ∧ log visited.2 = log whole.2) ∧
      ∀ before event after error, log whole.2 = log s ++ (before ++ event :: after) →
        (∀ e ∈ before, refuse e = none) → refuse event = some error →
        visited.1 = .error error ∧ log visited.2 = log s ++ (before ++ [event]) := by
  intro whole visited
  have performs := logs.visit n
  rw [same.events_eq n] at performs
  obtain ⟨v, w, all, written⟩ := (free.visit n).whole (fun _ _ => rfl) s
  have all : whole = (.ok v, w) := all
  rw [all]
  refine ⟨⟨⟨v, rfl⟩, written⟩, fun accepted => ?_, ?_⟩
  · obtain ⟨v, w', ended, same⟩ := performs.whole accepted s
    have ended : visited = (.ok v, w') := ended
    rw [ended]
    exact ⟨⟨v, rfl⟩, same.trans written.symm⟩
  · intro before event after error split accepted refused
    have split := List.append_cancel_left (written.symm.trans split)
    obtain ⟨w', ended, cut⟩ := performs.cut before event after error split accepted refused s
    have ended : visited = (.error error, w') := ended
    rw [ended]
    exact ⟨rfl, cut⟩

def recorder (refuse : Event → Option ε) : Table ε (List Event) α where
  handler? _ := some fun n vs => do
    modify fun events => events ++ [.left n]
    match refuse (.left n) with
    | none => return passOn n vs
    | some error => throw error
  hook? _ := some fun n => do
    modify fun events => events ++ [.entered n]
    match refuse (.entered n) with
    | none => return ⟨⟩
    | some error => throw error

theorem recorder_logs (refuse : Event → Option ε) :
    (recorder refuse : Table ε (List Event) α).Logs id refuse where
  hook := by
    rintro kind _ ⟨⟩ n s
    rw [Visit.outcome_modify_bind]
    cases refuse (.entered n) with
    | none => exact ⟨rfl, ⟨⟩, rfl⟩
    | some error => exact ⟨rfl, rfl⟩
  handler := by
    rintro kind _ ⟨⟩ n vs s
    rw [Visit.outcome_modify_bind]
    cases refuse (.left n) with
    | none => exact ⟨rfl, _, rfl⟩
    | some error => exact ⟨rfl, rfl⟩

theorem visit_in_order_up_to_refusal :
    let text : Node := .leaf .markupText "a"
    let row : Node := .branch .element [text, text]
    let tree : Node := .branch .document [row, .leaf .space " "]
    let refuse : Event → Option String := fun
      | .left n => if n.kind = .element then some "refused" else none
      | .entered _ => none
    let table : Table String (List Event) Unit := recorder refuse
    let visited := outcome (table.visit tree) []
    visited.1 = .error "refused" ∧
      visited.2 = [.entered tree, .entered row, .entered text, .left text,
        .entered (text.rebase 1), .left (text.rebase 1), .left row] := by
  intro text row tree refuse table visited
  have ordered := visit_in_order (recorder_logs refuse) (recorder_logs fun _ => none)
    (t := table) ⟨fun _ => rfl, fun _ => rfl⟩ tree []
  refine ordered.2.2 [.entered tree, .entered row, .entered text, .left text,
    .entered (text.rebase 1), .left (text.rebase 1)] (.left row)
    [.entered (.rebase 2 (.leaf .space " ")), .left (.rebase 2 (.leaf .space " ")), .left tree]
    "refused" rfl ?_ rfl
  simp only [List.forall_mem_cons]
  exact ⟨rfl, rfl, rfl, rfl, rfl, rfl, List.forall_mem_nil _⟩

end Table
end HybridTemplate
