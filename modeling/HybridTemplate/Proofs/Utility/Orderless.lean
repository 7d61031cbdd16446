import HybridTemplate.Proofs.Utility.Pairs
import Mathlib.Data.String.Basic

set_option autoImplicit false

namespace HybridTemplate.Utility

/-- Whether a step may be repeated at once without effect and change places with the next. -/
structure Orderless {α β : Type} (f : β → α → β) : Prop where
  swap : ∀ b x y, f (f b x) y = f (f b y) x
  again : ∀ b x, f (f b x) x = f b x

namespace Orderless

variable {α β γ : Type} {f : β → α → β}

theorem comap (h : Orderless f) (g : γ → α) : Orderless fun b c => f b (g c) where
  swap := fun b x y => h.swap b (g x) (g y)
  again := fun b x => h.again b (g x)

theorem foldl_step (h : Orderless f) (xs : List α) (b : β) (y : α) :
    xs.foldl f (f b y) = f (xs.foldl f b) y := by
  induction xs generalizing b with
  | nil => rfl
  | cons x xs ih => rw [List.foldl_cons, List.foldl_cons, h.swap, ih]

theorem foldl_swap (h : Orderless f) (xs ys : List α) (b : β) :
    ys.foldl f (xs.foldl f b) = xs.foldl f (ys.foldl f b) := by
  induction xs generalizing b with
  | nil => rfl
  | cons x xs ih => rw [List.foldl_cons, List.foldl_cons, ih, h.foldl_step]

theorem step_of_mem (h : Orderless f) {xs : List α} {x : α} (hx : x ∈ xs) (b : β) :
    f (xs.foldl f b) x = xs.foldl f b := by
  induction xs generalizing b with
  | nil => cases hx
  | cons y ys ih =>
    rw [List.foldl_cons]
    rcases List.mem_cons.mp hx with rfl | hx
    · rw [← h.foldl_step, h.again]
    · exact ih hx (f b y)

theorem foldl_of_subset (h : Orderless f) {xs ys : List α} (hy : ∀ y ∈ ys, y ∈ xs) (b : β) :
    ys.foldl f (xs.foldl f b) = xs.foldl f b := by
  induction ys with
  | nil => rfl
  | cons y ys ih =>
    obtain ⟨head, tail⟩ := List.forall_mem_cons.mp hy
    rw [List.foldl_cons, h.step_of_mem head, ih tail]

/-- What a list of steps leads to depends on its members only. -/
theorem foldl_eq (h : Orderless f) {xs ys : List α} (same : ∀ x, x ∈ xs ↔ x ∈ ys) (b : β) :
    xs.foldl f b = ys.foldl f b := by
  calc
    xs.foldl f b = ys.foldl f (xs.foldl f b) := (h.foldl_of_subset (fun y => (same y).mpr) b).symm
    _ = xs.foldl f (ys.foldl f b) := h.foldl_swap xs ys b
    _ = ys.foldl f b := h.foldl_of_subset (fun x => (same x).mp) b

theorem foldl (h : Orderless f) : Orderless fun b (xs : List α) => xs.foldl f b where
  swap := fun b xs ys => h.foldl_swap xs ys b
  again := fun b _ => h.foldl_of_subset (fun _ hx => hx) b

end Orderless

namespace SortedSet

theorem insert_swap (s t : String) (set : List String) :
    insert s (insert t set) = insert t (insert s set) := by
  induction set with
  | nil => grind [insert]
  | cons u us ih => grind [insert]

theorem insert_again (s : String) (set : List String) : insert s (insert s set) = insert s set := by
  induction set with
  | nil => simp [insert]
  | cons t ts ih => grind [insert]

theorem orderless_insert : Orderless fun set s => insert s set where
  swap := fun set s t => insert_swap t s set
  again := fun set s => insert_again s set

theorem orderless_insertAll : Orderless fun set ss => insertAll ss set := orderless_insert.foldl

end SortedSet

namespace AttributeSet

theorem addValues_swap (j k : String) (us vs : List String)
    (entries : List (String × List String)) :
    addValues j us (addValues k vs entries) = addValues k vs (addValues j us entries) := by
  have merged := fun set => SortedSet.orderless_insertAll.swap set us vs
  induction entries with
  | nil => grind [addValues]
  | cons entry entries ih => grind [addValues]

theorem addValues_again (key : String) (vs : List String) (entries : List (String × List String)) :
    addValues key vs (addValues key vs entries) = addValues key vs entries := by
  have merged := fun set => SortedSet.orderless_insertAll.again set vs
  induction entries with
  | nil => grind [addValues]
  | cons entry entries ih => grind [addValues]

def wordsOf (p : Pair) : List String := Text.words (Text.unquote (p.2.getD ""))

def Classes (p : Pair) : Prop := (p.1.isEmpty || isClassKey p.1) = true

theorem addPair_classes {p : Pair} (h : Classes p) (set : AttributeSet) :
    set.addPair p = { set with classes := SortedSet.insertAll (wordsOf p) set.classes } := by
  rw [addPair, collectPair]
  exact if_pos h

theorem addPair_keyed {p : Pair} (h : ¬ Classes p) (set : AttributeSet) :
    set.addPair p = { set with keyed := addValues p.1 (wordsOf p) set.keyed } := by
  rw [addPair, collectPair]
  exact if_neg h

theorem orderless_addPair : Orderless addPair where
  swap := by
    intro set p q
    by_cases hp : Classes p <;> by_cases hq : Classes q
    · simp only [addPair_classes, hp, hq]
      rw [SortedSet.orderless_insertAll.swap]
    · simp only [addPair_classes hp, addPair_keyed hq]
    · simp only [addPair_keyed hp, addPair_classes hq]
    · simp only [addPair_keyed, hp, hq, not_false_eq_true]
      rw [addValues_swap]
  again := by
    intro set p
    by_cases hp : Classes p
    · simp only [addPair_classes hp]
      rw [SortedSet.orderless_insertAll.again]
    · simp only [addPair_keyed hp]
      rw [addValues_again]

theorem orderless_addPairs : Orderless addPairs := orderless_addPair.foldl

/-- A step that adds pairs which depend on its input alone is orderless. -/
theorem orderless_of_pairs {α : Type} {f : AttributeSet → α → AttributeSet} (pairs : α → List Pair)
    (h : ∀ set x, f set x = set.addPairs (pairs x)) : Orderless f := by
  have same : f = fun set x => set.addPairs (pairs x) := funext fun set => funext (h set)
  rw [same]
  exact orderless_addPairs.comap pairs

inductive Call where
  | pair (key : String) (raw : Option String)
  | literal (text : String)

def apply (set : AttributeSet) : Call → AttributeSet
  | .pair key raw => set.collectPair key raw
  | .literal text => set.collectLiteral text

def Call.pairs : Call → List Pair
  | .pair key raw => [(key, raw)]
  | .literal text => literalPairs text

theorem apply_eq (set : AttributeSet) (c : Call) : set.apply c = set.addPairs c.pairs := by
  cases c with
  | pair key raw => rfl
  | literal text => exact collectLiteral_eq set text

theorem orderless_apply : Orderless apply := orderless_of_pairs Call.pairs apply_eq

end AttributeSet

namespace MarkupScan

theorem orderless_collect : Orderless collect :=
  AttributeSet.orderless_of_pairs (fun source => pairs source.toList) collect_eq

end MarkupScan

namespace TreeWalk

open Visit (outcome)

section

variable (grammar : Grammar) (isHtml : HtmlTable) (file : String)

/-- The set of a collector once it has been given a source, refused or not. -/
def held (set : AttributeSet) (source : String) : AttributeSet :=
  (outcome (read grammar isHtml file source) set).2

theorem read_of_error {source : String} {e : ParseFailure} (h : grammar source = .error e)
    (set : AttributeSet) :
    outcome (read grammar isHtml file source) set =
      (.error (.atOffset file source e.offset (.unparsable e.message)), set) := by
  rw [read, h]
  rfl

theorem read_of_ok {source : String} {tree : Node} (h : grammar source = .ok tree)
    (set : AttributeSet) :
    outcome (read grammar isHtml file source) set = (.ok ⟨⟩, collectTree isHtml set tree) := by
  rw [read, h]
  rfl

theorem exists_heldPairs (source : String) :
    ∃ ps, ∀ set, held grammar isHtml file set source = set.addPairs ps := by
  unfold held
  cases parsed : grammar source with
  | error e => exact ⟨[], fun set => by rw [read_of_error grammar isHtml file parsed]; rfl⟩
  | ok tree =>
    obtain ⟨ps, recorded⟩ := exists_pairs isHtml tree
    exact ⟨ps, fun set => by rw [read_of_ok grammar isHtml file parsed]; exact recorded set⟩

theorem orderless_held : Orderless (held grammar isHtml file) := by
  choose pairs recorded using exists_heldPairs grammar isHtml file
  exact AttributeSet.orderless_of_pairs pairs fun set source => recorded source set

theorem foldlM_collect {sources : List String} (h : ∀ s ∈ sources, ∃ tree, grammar s = .ok tree)
    (set : AttributeSet) :
    sources.foldlM (collect grammar isHtml file) set =
      .ok (sources.foldl (held grammar isHtml file) set) := by
  induction sources generalizing set with
  | nil => rfl
  | cons s ss ih =>
    obtain ⟨⟨tree, parsed⟩, rest⟩ := List.forall_mem_cons.mp h
    have first : collect grammar isHtml file set s = .ok (held grammar isHtml file set s) := by
      rw [collect, held, read_of_ok grammar isHtml file parsed]
      rfl
    rw [List.foldlM_cons, first]
    exact ih rest _

end

end TreeWalk

open AttributeSet (Call)
open Visit (outcome)

/-- What is collected depends neither on the order nor on the number of calls or sources, and a
source that is refused leaves the set as it is. -/
theorem collecting_orderless (set : AttributeSet) :
    (∀ cs ds : List Call, (∀ c, c ∈ cs ↔ c ∈ ds) →
      cs.foldl AttributeSet.apply set = ds.foldl AttributeSet.apply set) ∧
    (∀ ss ts : List String, (∀ s, s ∈ ss ↔ s ∈ ts) →
      ss.foldl MarkupScan.collect set = ts.foldl MarkupScan.collect set) ∧
    ∀ (grammar : Grammar) (isHtml : HtmlTable) (file : String),
      (∀ ss ts : List String, (∀ s, s ∈ ss ↔ s ∈ ts) → (∀ s ∈ ss, ∃ t, grammar s = .ok t) →
        ∃ final, ss.foldlM (TreeWalk.collect grammar isHtml file) set = .ok final ∧
          ts.foldlM (TreeWalk.collect grammar isHtml file) set = .ok final) ∧
      (∀ ss ts : List String, (∀ s, s ∈ ss ↔ s ∈ ts) →
        ss.foldl (TreeWalk.held grammar isHtml file) set =
          ts.foldl (TreeWalk.held grammar isHtml file) set) ∧
      ∀ s e, grammar s = .error e →
        ∃ error, outcome (TreeWalk.read grammar isHtml file s) set = (.error error, set) := by
  refine ⟨?_, ?_, fun grammar isHtml file => ⟨?_, ?_, ?_⟩⟩
  · exact fun cs ds same => AttributeSet.orderless_apply.foldl_eq same set
  · exact fun ss ts same => MarkupScan.orderless_collect.foldl_eq same set
  · intro ss ts same parsed
    have parsed' : ∀ t ∈ ts, ∃ tree, grammar t = .ok tree := fun t ht => parsed t ((same t).mpr ht)
    refine ⟨_, TreeWalk.foldlM_collect grammar isHtml file parsed set, ?_⟩
    rw [TreeWalk.foldlM_collect grammar isHtml file parsed' set,
      (TreeWalk.orderless_held grammar isHtml file).foldl_eq same]
  · exact fun ss ts same => (TreeWalk.orderless_held grammar isHtml file).foldl_eq same set
  · exact fun s e refused => ⟨_, TreeWalk.read_of_error grammar isHtml file refused set⟩

theorem collecting_orderless_repeated :
    let calls : List Call := [.pair "class" (some "'a b'"), .literal "bg=red flex"]
    let repeated : List Call := [.literal "bg=red flex", .pair "class" (some "'a b'"),
      .literal "bg=red flex"]
    let sources := ["<p flex>", "<p grid>"]
    let again := ["<p grid>", "<p flex>", "<p grid>"]
    let tag : String → Node := fun name =>
      .branch .startTag [.leaf .elementPunct "<", .leaf .elementName "p",
        .branch .attributes [.branch .novalueAttribute [.leaf .attributeName name]]]
    let grammar : Grammar := fun s =>
      if s = "<p" then .error ⟨2, "unexpected end"⟩
      else .ok (tag (if s = "<p flex>" then "flex" else "grid"))
    ((∀ c, c ∈ calls ↔ c ∈ repeated) ∧ (∀ s, s ∈ sources ↔ s ∈ again) ∧
      (∀ s ∈ sources, ∃ t, grammar s = .ok t) ∧ grammar "<p" = .error ⟨2, "unexpected end"⟩) ∧
    calls.foldl AttributeSet.apply .empty = repeated.foldl AttributeSet.apply .empty ∧
    sources.foldl MarkupScan.collect .empty = again.foldl MarkupScan.collect .empty ∧
    (∃ final, sources.foldlM (TreeWalk.collect grammar HtmlAttributes.standard "") .empty =
        .ok final ∧
      again.foldlM (TreeWalk.collect grammar HtmlAttributes.standard "") .empty = .ok final) ∧
    ∃ error, outcome (TreeWalk.read grammar HtmlAttributes.standard "" "<p") .empty =
      (.error error, .empty) := by
  intro calls repeated sources again tag grammar
  have sameCalls : ∀ c, c ∈ calls ↔ c ∈ repeated := by simp [calls, repeated, or_comm]
  have sameSources : ∀ s, s ∈ sources ↔ s ∈ again := by simp [sources, again, or_comm]
  have parsed : ∀ s ∈ sources, ∃ t, grammar s = .ok t := by
    refine List.forall_mem_cons.mpr ⟨⟨tag "flex", rfl⟩, List.forall_mem_singleton.mpr ?_⟩
    exact ⟨tag "grid", rfl⟩
  have refused : grammar "<p" = .error ⟨2, "unexpected end"⟩ := rfl
  obtain ⟨byCalls, byScan, byWalk⟩ := collecting_orderless .empty
  obtain ⟨run, _, kept⟩ := byWalk grammar HtmlAttributes.standard ""
  exact ⟨⟨sameCalls, sameSources, parsed, refused⟩, byCalls _ _ sameCalls,
    byScan _ _ sameSources, run _ _ sameSources parsed, kept _ _ refused⟩

end HybridTemplate.Utility
