import HybridTemplate.Proofs.Pattern.Locality

set_option autoImplicit false

namespace HybridTemplate.Pattern

variable {p q body : Pattern} {c d e : Cursor} {front a b : List Char}
  {gs hs : List (Nat × Nat × Nat)} {accepts : Char → Bool}

/-- From `c` the pattern prefers to go over `front` to `d`, and the groups `gs` take part. -/
structure Covers (p : Pattern) (c : Cursor) (front : List Char) (gs : List (Nat × Nat × Nat))
    (d : Cursor) : Prop where
  first : (reach p c).head? = some d
  rest : c.rest = front ++ d.rest
  pos : d.pos = c.pos + front.length
  groups : d.groups = gs ++ c.groups
  late : d.late = c.late

theorem reach_seq_of_mem (hd : d ∈ reach p c) (further : reach q d ≠ []) :
    reach (seq p q) c ≠ [] := by
  intro none
  have missed := head?_reach_seq p q c
  rw [none] at missed
  exact further (List.head?_eq_none_iff.mp (List.findSome?_eq_none_iff.mp missed.symm d hd))

namespace Covers

theorem mem (hp : Covers p c front gs d) : d ∈ reach p c := List.mem_of_mem_head? hp.first

theorem one {x : Char} {cs : List Char} (rest : c.rest = x :: cs) (ok : accepts x = true) :
    ∃ d, Covers (.one accepts) c [x] [] d := by
  refine ⟨⟨c.pos + 1, some x, cs, c.groups, [], c.late⟩, ?_, rest, rfl, rfl, rfl⟩
  simp [reach, Cursor.step, rest, ok]

theorem char {x : Char} {cs : List Char} (rest : c.rest = x :: cs) :
    ∃ d, Covers (.char x) c [x] [] d := one rest (beq_self_eq_true x)

theorem seq (hp : Covers p c a gs d) (hq : Covers q d b hs e) :
    Covers (.seq p q) c (a ++ b) (hs ++ gs) e where
  first := by
    rw [head?_reach_seq]
    exact findSome?_of_head? hp.first hq.first
  rest := by rw [hp.rest, hq.rest, List.append_assoc]
  pos := by rw [hq.pos, hp.pos, List.length_append, Nat.add_assoc]
  groups := by rw [hq.groups, hp.groups, List.append_assoc]
  late := hq.late.trans hp.late

theorem alt_left (hp : Covers p c a gs d) (q : Pattern) : Covers (.alt p q) c a gs d where
  first := by rw [reach, List.head?_append, hp.first]; rfl
  __ := hp

theorem alt_right (stuck : reach p c = []) (hq : Covers q c a gs d) :
    Covers (.alt p q) c a gs d where
  first := by rw [reach, stuck]; exact hq.first
  __ := hq

theorem group (index : Nat) (hp : Covers p c a gs d) :
    ∃ e, Covers (.group index p) c a ((index, c.pos, c.pos + a.length) :: gs) e ∧
      e.rest = d.rest := by
  refine ⟨d.note index c.pos, ⟨?_, hp.rest, hp.pos, ?_, hp.late⟩, rfl⟩
  · rw [reach, List.head?_map, hp.first]
    rfl
  · rw [Cursor.note, hp.pos, hp.groups]
    rfl

theorem maybe (hp : Covers p c a gs d) : Covers (.maybe p) c a gs d where
  first := by
    rw [Pattern.maybe, reach, if_pos rfl, List.head?_append, hp.first]
    rfl
  __ := hp

theorem maybe_not (stuck : reach p c = []) : Covers (.maybe p) c [] [] c where
  first := by
    rw [Pattern.maybe, reach, if_pos rfl, stuck]
    rfl
  rest := rfl
  pos := rfl
  groups := rfl
  late := rfl

end Covers

/-- What the body prefers is taken again and again, until it leads nowhere. -/
inductive Runs (body : Pattern) : Cursor → List Char → Cursor → Prop where
  | stop {c : Cursor} (stuck : reach body c = []) : Runs body c [] c
  | step {c d e : Cursor} {a b : List Char} (first : Covers body c a [] d) (moved : a ≠ [])
      (further : Runs body d b e) : Runs body c (a ++ b) e

theorem head?_inOrder_of_suffix {f g : Found} (h : f.cursors <:+ g.cursors)
    (first : f.inOrder.head? = some c) : g.inOrder.head? = some c := by
  obtain ⟨later, found⟩ := h
  rw [Found.inOrder, List.head?_reverse] at first ⊢
  rw [← found, List.getLast?_append, first]
  rfl

namespace Runs

theorem rest (runs : Runs body c a e) : c.rest = a ++ e.rest := by
  induction runs with
  | stop stuck => rfl
  | step first moved further ih => rw [first.rest, ih, List.append_assoc]

theorem pos (runs : Runs body c a e) : e.pos = c.pos + a.length := by
  induction runs with
  | stop stuck => rfl
  | step first moved further ih => rw [ih, first.pos, List.length_append, Nat.add_assoc]

theorem groups (runs : Runs body c a e) : e.groups = c.groups := by
  induction runs with
  | stop stuck => rfl
  | step first moved further ih => exact ih.trans first.groups

theorem late (runs : Runs body c a e) : e.late = c.late := by
  induction runs with
  | stop stuck => rfl
  | step first moved further ih => exact ih.trans first.late

theorem head?_closure (runs : Runs body c a e) (late : c.late = false) {fuel : List Char}
    {f : Found} (enough : a.length < fuel.length) (fresh : ∀ k, c.pos ≤ k → f.seen.has k = false)
    (nothing : f.cursors = []) :
    (closure (reach body) true fuel f c).inOrder.head? = some e := by
  have key : c.key = c.pos := by simp [Cursor.key, late]
  have unseen : f.seen.has c.key = false := fresh _ (Nat.le_of_eq key.symm)
  induction runs generalizing fuel f with
  | @stop c stuck =>
    cases fuel with
    | nil => cases enough
    | cons _ fuel =>
      rw [closure, unseen, stuck]
      simp [Found.inOrder, Found.add, Found.meet, nothing]
  | @step c d e a b first moved further ih =>
    have moved := List.length_pos_iff.mpr moved
    have pos := first.pos
    rw [List.length_append] at enough
    cases fuel with
    | nil => cases enough
    | cons _ fuel =>
      rw [List.length_cons] at enough
      obtain ⟨ds, reached⟩ := List.head?_eq_some_iff.mp first.first
      have fresh' (k : Nat) (hk : d.pos ≤ k) : (f.meet c).seen.has k = false := by
        have unseen := fresh k (by omega)
        have other : c.pos ≠ k := by omega
        simp [Found.meet, Seen.has_add, key, unseen, other]
      have late' : d.late = false := first.late.trans late
      have key' : d.key = d.pos := by simp [Cursor.key, late']
      have shorter : b.length < fuel.length := by omega
      have found := ih late' shorter fresh' nothing key' (fresh' _ (Nat.le_of_eq key'.symm))
      rw [closure, unseen, reached]
      refine head?_inOrder_of_suffix ?_ found
      exact (suffix_foldl_closure (suffix_closure _ _ _) ds _).trans (List.suffix_cons c _)

theorem many (runs : Runs body c a e) (late : c.late = false) : Covers (.many body) c a [] e where
  first := by
    have enough : a.length < c.fuel.length := by
      simp only [Cursor.fuel, late, runs.rest, Bool.false_eq_true, if_false, List.length_cons,
        List.length_append]
      omega
    exact runs.head?_closure late enough (fun k _ => Nat.zero_testBit k) rfl
  rest := runs.rest
  pos := runs.pos
  groups := runs.groups
  late := runs.late

theorem many1 (first : Covers body c a [] d) (runs : Runs body d b e) (late : c.late = false) :
    Covers (.many1 body) c (a ++ b) [] e where
  first := by
    have enough : b.length < c.fuel.length := by
      simp only [Cursor.fuel, late, first.rest, runs.rest, Bool.false_eq_true, if_false,
        List.length_cons, List.length_append]
      omega
    obtain ⟨ds, reached⟩ := List.head?_eq_some_iff.mp first.first
    have found := runs.head?_closure (first.late.trans late) enough (f := .nothing)
      (fun k _ => Nat.zero_testBit k) rfl
    rw [Pattern.many1, plus, reach, reached]
    exact head?_inOrder_of_suffix (suffix_foldl_closure (suffix_closure _ _ _) ds _) found
  rest := by rw [first.rest, runs.rest, List.append_assoc]
  pos := by rw [runs.pos, first.pos, List.length_append, Nat.add_assoc]
  groups := runs.groups.trans first.groups
  late := runs.late.trans first.late

end Runs
end HybridTemplate.Pattern
